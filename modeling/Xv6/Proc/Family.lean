import Xv6.Proc.Model

/-! Parents and children.

A process that exits gives its children to `initproc` before it becomes a zombie, in one
section of `wait_lock`. So whoever is named as a parent is alive, and may still call
`kwait` (`processes_parents`). -/
namespace Xv6.Proc
open Function
open Vm (ProcState)

variable {p q i j np addr : ℕ} {pid status : ℤ} {s s' : Sys} {e : Event} {memory copied : Bool} {f : Slot → Slot}
  {chan : Chan} {pc : Pc}

/-- A process that may make steps, now or later. -/
def Alive (state : ProcState) : Prop := state = .sleeping ∨ state = .runnable ∨ state = .running
deriving Decidable

def Pc.child : Pc → Option ℕ
  | .linking np _ | .starting np _ => some np
  | .running | .scanning _ | .waiting => none

@[simp] theorem setSlot_self : (s.setSlot i f).slots i = f (s.slots i) := update_self ..

theorem setSlot_of_ne (h : j ≠ i) : (s.setSlot i f).slots j = s.slots j := update_of_ne h ..

@[simp] theorem goto_self : (s.goto p pc).pc p = pc := update_self ..

theorem goto_of_ne (h : q ≠ p) : (s.goto p pc).pc q = s.pc q := update_of_ne h ..

structure Family (s : Sys) : Prop where
  init : s.initproc < nproc ∧ Alive (s.slots s.initproc).state
  outside : ∀ i, nproc ≤ i → (s.slots i).state = .unused
  busy : ∀ p, s.pc p ≠ .running → Alive (s.slots p).state
  creating : ∀ p np, (s.pc p).child = some np → (s.slots np).state = .used ∧
    ((s.slots np).parent = none ∨ (s.slots np).parent = some p)
  starting : ∀ p np pid, s.pc p = .starting np pid → (s.slots np).parent = some p
  creator : ∀ p q np, (s.pc p).child = some np → (s.pc q).child = some np → p = q
  parent : ∀ i p, (s.slots i).parent = some p → Alive (s.slots p).state
  unused : ∀ i, (s.slots i).state = .unused → (s.slots i).parent = none
  orphan : ∀ i, i ≠ s.initproc → Alive (s.slots i).state ∨ (s.slots i).state = .zombie → (s.slots i).parent ≠ none
  /-- Processes are numbered in the order of their creation. -/
  born : ∀ i, (s.slots i).state ≠ .unused → (s.slots i).born < s.births ∧ ∀ r ∈ s.reaped, r.born ≠ (s.slots i).born
  distinct : ∀ i j, (s.slots i).state ≠ .unused → (s.slots j).state ≠ .unused →
    (s.slots i).born = (s.slots j).born → i = j
  earlier : ∀ r ∈ s.reaped, r.born < s.births
  once : (s.reaped.map Reaped.born).Nodup

theorem Alive.ne_unused {state : ProcState} (h : Alive state) : state ≠ .unused := by
  rintro rfl
  rcases h with h | h | h <;> cases h

theorem Alive.ne_used {state : ProcState} (h : Alive state) : state ≠ .used := by
  rintro rfl
  rcases h with h | h | h <;> cases h

theorem Alive.ne_zombie {state : ProcState} (h : Alive state) : state ≠ .zombie := by
  rintro rfl
  rcases h with h | h | h <;> cases h

namespace Family

theorem lt (h : Family s) (hi : (s.slots i).state ≠ .unused) : i < nproc := by
  grind [Family.outside]

/-! ### Steps that create nobody and let nobody go -/

def Stirs (slot slot' : Slot) : Prop :=
  slot'.parent = slot.parent ∧ (slot.state ≠ .unused → slot'.born = slot.born) ∧
    (slot'.state = slot.state ∨ Alive slot.state ∧ Alive slot'.state)

theorem stirs (h : Family s) (hslots : ∀ i, Stirs (s.slots i) (s'.slots i)) (hinit : s'.initproc = s.initproc)
    (hbirths : s.births ≤ s'.births) (hreaped : s'.reaped = s.reaped)
    (hpc : ∀ q, s'.pc q = s.pc q ∨ (s'.pc q).child = none ∧ Alive (s.slots q).state) : Family s' := by
  have hparent : ∀ i, (s'.slots i).parent = (s.slots i).parent := fun i => (hslots i).1
  have hborn : ∀ i, (s.slots i).state ≠ .unused → (s'.slots i).born = (s.slots i).born := fun i => (hslots i).2.1
  have halive : ∀ i, Alive (s'.slots i).state ↔ Alive (s.slots i).state := fun i => by
    rcases (hslots i).2.2 with heq | ⟨hold, hnew⟩
    · rw [heq]
    · exact iff_of_true hnew hold
  have hstate : ∀ i x, ¬ Alive x → ((s'.slots i).state = x ↔ (s.slots i).state = x) := fun i x hx => by
    rcases (hslots i).2.2 with heq | ⟨hold, hnew⟩
    · rw [heq]
    · exact iff_of_false (fun heq => hx (heq ▸ hnew)) fun heq => hx (heq ▸ hold)
  have hunused : ∀ i, (s'.slots i).state = .unused ↔ (s.slots i).state = .unused := fun i => hstate i _ (by decide)
  have hchild : ∀ q np, (s'.pc q).child = some np → s'.pc q = s.pc q := fun q np hq => by
    rcases hpc q with heq | ⟨hnone, _⟩
    · exact heq
    · rw [hnone] at hq
      cases hq
  constructor
  case init =>
    rw [hinit, halive]
    exact h.init
  case outside => exact fun i hi => (hunused i).mpr (h.outside i hi)
  case busy =>
    intro q hq
    rw [halive]
    rcases hpc q with heq | ⟨_, hq'⟩
    · exact h.busy q (heq ▸ hq)
    · exact hq'
  case creating =>
    intro q np hq
    rw [hchild q np hq] at hq
    rw [hstate np _ (by decide), hparent]
    exact h.creating q np hq
  case starting =>
    intro q np pid hq
    rw [hparent]
    refine h.starting q np pid ?_
    rw [← hchild q np (by rw [hq]; rfl)]
    exact hq
  case creator =>
    grind [Family.creator]
  case parent =>
    intro i p hp
    rw [hparent] at hp
    rw [halive]
    exact h.parent i p hp
  case unused =>
    intro i hi
    rw [hparent]
    exact h.unused i ((hunused i).mp hi)
  case orphan =>
    grind [Family.orphan]
  case born =>
    intro i hi
    have hi' := mt (hunused i).mpr hi
    obtain ⟨hlt, hne⟩ := h.born i hi'
    rw [hborn i hi', hreaped]
    exact ⟨hlt.trans_le hbirths, hne⟩
  case distinct =>
    grind [Family.distinct]
  case earlier =>
    rw [hreaped]
    exact fun r hr => (h.earlier r hr).trans_le hbirths
  case once =>
    rw [hreaped]
    exact h.once

theorem Stirs.refl (slot : Slot) : Stirs slot slot := ⟨rfl, fun _ => rfl, .inl rfl⟩

theorem stirs_setSlot (hf : Stirs (s.slots i) (f (s.slots i))) (j : ℕ) : Stirs (s.slots j) ((s.setSlot i f).slots j) := by
  grind [setSlot_self, setSlot_of_ne, Family.Stirs.refl]

theorem goto_child (hchild : pc.child = none) (hp : Alive (s.slots p).state) (q : ℕ) :
    (s.goto p pc).pc q = s.pc q ∨ ((s.goto p pc).pc q).child = none ∧ Alive (s.slots q).state := by
  grind [goto_self, goto_of_ne]

theorem goto (h : Family s) (hp : Alive (s.slots p).state) (hchild : pc.child = none) : Family (s.goto p pc) :=
  h.stirs (fun _ => .refl _) rfl le_rfl rfl (goto_child hchild hp)

theorem wakeup_slot (s : Sys) (p : ℕ) (chan : Chan) (i : ℕ) :
    ((s.wakeup p chan).slots i).parent = (s.slots i).parent ∧ ((s.wakeup p chan).slots i).born = (s.slots i).born ∧
      (((s.wakeup p chan).slots i).state = (s.slots i).state ∨
        (s.slots i).state = .sleeping ∧ ((s.wakeup p chan).slots i).state = .runnable) := by
  grind [Sys.wakeup, Sys.mapSlots]

section
variable (h : Family s)
include h

theorem wakeup : Family (s.wakeup p chan) := by
  refine h.stirs (fun i => ?_) rfl le_rfl rfl fun _ => .inl rfl
  obtain ⟨hparent, hborn, hstate⟩ := wakeup_slot s p chan i
  exact ⟨hparent, fun _ => hborn, hstate.imp id fun hw => ⟨.inl hw.1, .inr (.inl hw.2)⟩⟩

/-! ### `kfork` -/

theorem fails (hp : Alive (s.slots p).state) (hi : (s.slots i).state = .unused) :
    Family (s.found p i false) := by
  refine h.stirs (fun j => ?_) rfl (Nat.le_succ _) rfl (goto_child rfl hp)
  show Stirs _ ((Sys.setSlot _ i Slot.free).slots j)
  by_cases hj : j = i
  · rw [hj, setSlot_self]
    exact ⟨(h.unused i hi).symm, fun hne => absurd hi hne, .inl hi.symm⟩
  grind [setSlot_of_ne, Family.Stirs.refl]

theorem creates (hp : Alive (s.slots p).state) (hi : i < nproc) (hfree : (s.slots i).state = .unused) :
    Family (s.found p i true) := by
  have hself : (s.found p i true).slots i = (s.slots i).alloc s.nextpid s.births := setSlot_self
  have hother : ∀ j, j ≠ i → (s.found p i true).slots j = s.slots j := fun j hj => setSlot_of_ne hj
  have hpc : (s.found p i true).pc p = .linking i s.nextpid := goto_self
  have hpcs : ∀ q, q ≠ p → (s.found p i true).pc q = s.pc q := fun q hq => goto_of_ne hq
  have hne : ∀ j, (s.slots j).state ≠ .unused → j ≠ i := fun j hj heq => hj (heq ▸ hfree)
  have halive : ∀ j, Alive (s.slots j).state → Alive ((s.found p i true).slots j).state := fun j hj => by
    rw [hother j (hne j hj.ne_unused)]
    exact hj
  have hchild : ∀ q np, ((s.found p i true).pc q).child = some np → q = p ∧ np = i ∨
      q ≠ p ∧ np ≠ i ∧ (s.pc q).child = some np := fun q np hq => by
    by_cases hqp : q = p
    · rw [hqp, hpc] at hq
      exact .inl ⟨hqp, (Option.some.inj hq).symm⟩
    · rw [hpcs q hqp] at hq
      refine .inr ⟨hqp, hne np ?_, hq⟩
      rw [(h.creating q np hq).1]
      nofun
  constructor
  case init => exact ⟨h.init.1, halive _ h.init.2⟩
  case outside =>
    grind [Family.outside]
  case busy =>
    grind [Family.busy]
  case creating =>
    intro q np hq
    rcases hchild q np hq with ⟨_, rfl⟩ | ⟨_, hnp, hq'⟩
    · rw [hself]
      exact ⟨rfl, .inl (h.unused np hfree)⟩
    · rw [hother np hnp]
      exact h.creating q np hq'
  case starting =>
    intro q np pid hq
    rcases hchild q np (by rw [hq]; rfl) with ⟨rfl, _⟩ | ⟨hqp, hnp, _⟩
    · rw [hpc] at hq
      cases hq
    grind [Family.starting]
  case creator =>
    grind [Family.creator]
  case parent =>
    intro j q hq
    by_cases hj : j = i
    · rw [hj, hself] at hq
      exact absurd ((h.unused i hfree).symm.trans hq) nofun
    · rw [hother j hj] at hq
      exact halive q (h.parent j q hq)
  case unused =>
    intro j hj
    by_cases hji : j = i
    · rw [hji, hself] at hj
      cases hj
    · rw [hother j hji] at hj ⊢
      exact h.unused j hj
  case orphan =>
    intro j hj hstate
    by_cases hji : j = i
    · rw [hji, hself] at hstate
      rcases hstate with (hs | hs | hs) | hs <;> cases hs
    · rw [hother j hji] at hstate ⊢
      exact h.orphan j hj hstate
  case born =>
    intro j hj
    by_cases hji : j = i
    · rw [hji, hself]
      exact ⟨Nat.lt_succ_self _, fun r hr => Nat.ne_of_lt (h.earlier r hr)⟩
    · rw [hother j hji] at hj ⊢
      obtain ⟨hlt, hne'⟩ := h.born j hj
      exact ⟨hlt.trans (Nat.lt_succ_self _), hne'⟩
  case distinct =>
    intro a b ha hb heq
    by_cases hai : a = i <;> by_cases hbi : b = i
    · rw [hai, hbi]
    · rw [hai, hself, hother b hbi] at heq
      rw [hother b hbi] at hb
      exact absurd heq.symm (Nat.ne_of_lt (h.born b hb).1)
    · rw [hbi, hself, hother a hai] at heq
      rw [hother a hai] at ha
      exact absurd heq (Nat.ne_of_lt (h.born a ha).1)
    grind [Family.distinct]
  case earlier => exact fun r hr => (h.earlier r hr).trans (Nat.lt_succ_self _)
  case once => exact h.once

theorem scan (hp : Alive (s.slots p).state) : Family (s.scan p i memory) := by
  unfold Sys.scan
  split
  case isTrue hi =>
    split
    case isTrue hfree =>
      cases memory with
      | true => exact h.creates hp hi hfree
      | false => exact h.fails hp hfree
    case isFalse => exact h.goto hp rfl
  case isFalse => exact h.goto hp rfl

theorem child (hpc : (s.pc p).child = some np) (hborn : (f (s.slots np)).born = (s.slots np).born)
    (hparent : (f (s.slots np)).parent = some p) (hchild : pc.child = none ∨ pc.child = some np)
    (hstate : (f (s.slots np)).state = .used ∨ Alive (f (s.slots np)).state)
    (hused : pc.child = some np → (f (s.slots np)).state = .used) :
    Family ((s.setSlot np f).goto p pc) := by
  obtain ⟨hnp, _⟩ := h.creating p np hpc
  have hp : Alive (s.slots p).state := h.busy p fun heq => by
    rw [heq] at hpc
    cases hpc
  have hself : ((s.setSlot np f).goto p pc).slots np = f (s.slots np) := setSlot_self
  have hother : ∀ j, j ≠ np → ((s.setSlot np f).goto p pc).slots j = s.slots j := fun j hj => setSlot_of_ne hj
  have hne : ∀ j, Alive (s.slots j).state → j ≠ np := fun j hj heq => hj.ne_used (heq ▸ hnp)
  have halive : ∀ j, Alive (s.slots j).state → Alive (((s.setSlot np f).goto p pc).slots j).state := fun j hj => by
    rw [hother j (hne j hj)]
    exact hj
  have hkept : (f (s.slots np)).state ≠ .unused := by
    rcases hstate with hs | hs
    · rw [hs]
      nofun
    · exact hs.ne_unused
  have hpcs : ∀ q, q ≠ p → ((s.setSlot np f).goto p pc).pc q = s.pc q := fun q hq => goto_of_ne hq
  -- nobody else creates this process
  have hchildren : ∀ q k, (((s.setSlot np f).goto p pc).pc q).child = some k → q = p ∧ k = np ∨
      q ≠ p ∧ k ≠ np ∧ (s.pc q).child = some k := fun q k hq => by
    by_cases hqp : q = p
    · grind [goto_self]
    · rw [hpcs q hqp] at hq
      exact .inr ⟨hqp, fun heq => hqp (h.creator q p np (heq ▸ hq) hpc), hq⟩
  constructor
  case init => exact ⟨h.init.1, halive _ h.init.2⟩
  case outside =>
    intro j hj
    have hlt : np < nproc := h.lt (by rw [hnp]; nofun)
    rw [hother j (Nat.ne_of_gt (hlt.trans_le hj))]
    exact h.outside j hj
  case busy =>
    intro q hq
    by_cases hqp : q = p
    · exact hqp ▸ halive p hp
    · exact halive q (h.busy q (hpcs q hqp ▸ hq))
  case creating =>
    intro q k hq
    rcases hchildren q k hq with ⟨rfl, rfl⟩ | ⟨_, hk, hq'⟩
    · rw [hself]
      rw [goto_self] at hq
      exact ⟨hused hq, .inr hparent⟩
    · rw [hother k hk]
      exact h.creating q k hq'
  case starting =>
    intro q k pid hq
    rcases hchildren q k (by rw [hq]; rfl) with ⟨rfl, rfl⟩ | ⟨hqp, hk, _⟩
    · rw [hself]
      exact hparent
    · rw [hother k hk]
      grind [Family.starting]
  case creator =>
    grind [Family.creator]
  case parent =>
    grind [Family.parent]
  case unused =>
    grind [Family.unused]
  case orphan =>
    intro j hj hs
    by_cases hjn : j = np
    · grind
    · rw [hother j hjn] at hs ⊢
      exact h.orphan j hj hs
  case born =>
    intro j hj
    by_cases hjn : j = np
    · rw [hjn, hself, hborn]
      exact h.born np (by rw [hnp]; nofun)
    · rw [hother j hjn] at hj ⊢
      exact h.born j hj
  case distinct =>
    grind [Family.distinct]
  case earlier => exact h.earlier
  case once => exact h.once

/-! ### `kexit` and `kwait` -/

theorem exits (hp : s.Free p) (hinit : p ≠ s.initproc)
    (hparent : ∀ i, (s'.slots i).parent = if (s.slots i).parent = some p then some s.initproc else (s.slots i).parent)
    (hborn : ∀ i, (s'.slots i).born = (s.slots i).born) (hzombie : (s'.slots p).state = .zombie)
    (hstate : ∀ i, i ≠ p → (s'.slots i).state = (s.slots i).state ∨
      Alive (s.slots i).state ∧ Alive (s'.slots i).state)
    (hpc : s'.pc = s.pc) (hinit' : s'.initproc = s.initproc) (hbirths : s'.births = s.births)
    (hreaped : s'.reaped = s.reaped) : Family s' := by
  obtain ⟨hpn, hrun, hpcp⟩ := hp
  have halive : ∀ i, i ≠ p → (Alive (s'.slots i).state ↔ Alive (s.slots i).state) := fun i hi => by
    rcases hstate i hi with heq | ⟨hold, hnew⟩
    · rw [heq]
    · exact iff_of_true hnew hold
  have hfixed : ∀ i x, x ≠ .zombie → ¬ Alive x → ((s'.slots i).state = x ↔ (s.slots i).state = x) := fun i x hz hx => by
    by_cases hi : i = p
    · rw [hi, hzombie, hrun]
      exact iff_of_false hz.symm fun heq => hx (heq ▸ .inr (.inr rfl))
    · rcases hstate i hi with heq | ⟨hold, hnew⟩
      · rw [heq]
      · exact iff_of_false (fun heq => hx (heq ▸ hnew)) fun heq => hx (heq ▸ hold)
  have hunused : ∀ i, (s'.slots i).state = .unused ↔ (s.slots i).state = .unused := fun i =>
    hfixed i _ nofun (by decide)
  have hother : ∀ q, s.pc q ≠ .running → q ≠ p := fun q hq heq => hq (heq ▸ hpcp)
  constructor
  case init =>
    rw [hinit', halive _ hinit.symm]
    exact h.init
  case outside => exact fun i hi => (hunused i).mpr (h.outside i hi)
  case busy =>
    intro q hq
    rw [hpc] at hq
    rw [halive q (hother q hq)]
    exact h.busy q hq
  case creating =>
    intro q np hq
    rw [hpc] at hq
    have hqp : q ≠ p := hother q fun heq => by
      rw [heq] at hq
      cases hq
    obtain ⟨hused, hpar⟩ := h.creating q np hq
    rw [hfixed np .used nofun (by decide), hparent]
    grind
  case starting =>
    grind [Family.starting]
  case creator =>
    rw [hpc]
    exact h.creator
  case parent =>
    intro i q hq
    rw [hparent] at hq
    split at hq
    case isTrue =>
      cases hq
      rw [halive _ hinit.symm]
      exact h.init.2
    case isFalse hne =>
      rw [halive q fun heq => hne (heq ▸ hq)]
      exact h.parent i q hq
  case unused =>
    intro i hi
    have hnone := h.unused i ((hunused i).mp hi)
    rw [hparent, hnone]
    exact if_neg nofun
  case orphan =>
    grind [Family.orphan]
  case born =>
    intro i hi
    rw [hborn, hbirths, hreaped]
    exact h.born i (mt (hunused i).mpr hi)
  case distinct =>
    intro i j hi hj
    rw [hborn, hborn]
    exact h.distinct i j (mt (hunused i).mpr hi) (mt (hunused j).mpr hj)
  case earlier =>
    rw [hreaped, hbirths]
    exact h.earlier
  case once =>
    rw [hreaped]
    exact h.once

end

theorem wakeupParent_slot (s : Sys) (p i : ℕ) :
    ((s.wakeupParent p).slots i).parent = (s.slots i).parent ∧ ((s.wakeupParent p).slots i).born = (s.slots i).born ∧
      (((s.wakeupParent p).slots i).state = (s.slots i).state ∨
        (s.slots i).state = .sleeping ∧ ((s.wakeupParent p).slots i).state = .runnable) := by
  grind [Family.wakeup_slot, Sys.wakeupParent]

theorem reparent_slot (s : Sys) (p i : ℕ) : ((s.reparent p).slots i).parent =
        (if (s.slots i).parent = some p then some s.initproc else (s.slots i).parent) ∧
      ((s.reparent p).slots i).born = (s.slots i).born ∧
      (((s.reparent p).slots i).state = (s.slots i).state ∨
        (s.slots i).state = .sleeping ∧ ((s.reparent p).slots i).state = .runnable) := by
  generalize hgiven : s.mapSlots (fun _ slot =>
    if slot.parent = some p then {slot with parent := some s.initproc} else slot) = given
  have hslot : (given.slots i).parent =
      (if (s.slots i).parent = some p then some s.initproc else (s.slots i).parent) ∧
      (given.slots i).born = (s.slots i).born ∧ (given.slots i).state = (s.slots i).state := by
    rw [← hgiven]
    simp only [Sys.mapSlots]
    split <;> exact ⟨rfl, rfl, rfl⟩
  rw [← hslot.1, ← hslot.2.1, ← hslot.2.2]
  unfold Sys.reparent
  rw [hgiven]
  split
  case isTrue => exact wakeup_slot given p _ i
  case isFalse => exact ⟨rfl, rfl, .inl rfl⟩

theorem kexit (h : Family s) (hp : s.Free p) (hinit : p ≠ s.initproc) :
    Outcome (fun _ => False) (s.kexit p status) Family := by
  rw [Sys.kexit, if_neg hinit]
  generalize hmid : (s.reparent p).wakeupParent p = mid
  have hframe : mid.pc = s.pc ∧ mid.initproc = s.initproc ∧ mid.births = s.births ∧ mid.reaped = s.reaped := by
    rw [← hmid]
    unfold Sys.wakeupParent Sys.reparent
    split <;> split <;> exact ⟨rfl, rfl, rfl, rfl⟩
  have hslot : ∀ i, (mid.slots i).parent =
      (if (s.slots i).parent = some p then some s.initproc else (s.slots i).parent) ∧
      (mid.slots i).born = (s.slots i).born ∧
      ((mid.slots i).state = (s.slots i).state ∨ Alive (s.slots i).state ∧ Alive (mid.slots i).state) := fun i => by
    obtain ⟨hparent, hborn, hstate⟩ := reparent_slot s p i
    obtain ⟨hparent', hborn', hstate'⟩ := wakeupParent_slot (s.reparent p) p i
    rw [hmid] at hparent' hborn' hstate'
    refine ⟨hparent'.trans hparent, hborn'.trans hborn, ?_⟩
    rcases hstate with heq | ⟨hs, hr⟩ <;> rcases hstate' with heq' | ⟨hs', hr'⟩
    · exact .inl (heq'.trans heq)
    · exact .inr ⟨.inl (heq.symm.trans hs'), .inr (.inl hr')⟩
    · exact .inr ⟨.inl hs, .inr (.inl (heq'.trans hr))⟩
    · exact .inr ⟨.inl hs, .inr (.inl hr')⟩
  refine h.exits hp hinit (fun i => ?_) (fun i => ?_) ?_ (fun i hi => ?_) hframe.1 hframe.2.1 hframe.2.2.1 hframe.2.2.2
  · grind [setSlot_self, setSlot_of_ne]
  · grind [setSlot_self, setSlot_of_ne]
  · rw [setSlot_self]
  · rw [setSlot_of_ne hi]
    exact (hslot i).2.2

theorem reaps {r : Reaped} (h : Family s) (hi : (s.slots i).state = .zombie)
    (hr : r.born = (s.slots i).born) :
    Family (({s with reaped := r :: s.reaped}.setSlot i Slot.free).goto p .running) := by
  have hself : (({s with reaped := r :: s.reaped}.setSlot i Slot.free).goto p .running).slots i = (s.slots i).free :=
    setSlot_self
  have hother : ∀ j, j ≠ i → (({s with reaped := r :: s.reaped}.setSlot i Slot.free).goto p .running).slots j =
      s.slots j := fun j hj => setSlot_of_ne hj
  generalize hs' : ({s with reaped := r :: s.reaped}.setSlot i Slot.free).goto p .running = s' at hself hother ⊢
  have hframe : s'.initproc = s.initproc ∧ s'.births = s.births ∧ s'.reaped = r :: s.reaped := by
    rw [← hs']
    exact ⟨rfl, rfl, rfl⟩
  have hpc : ∀ q, s'.pc q = s.pc q ∨ q = p ∧ s'.pc q = .running := fun q => by
    rw [← hs']
    by_cases hq : q = p
    · exact .inr ⟨hq, by rw [hq, goto_self]⟩
    · exact .inl (goto_of_ne hq)
  have hne : ∀ j, (s.slots j).state ≠ .zombie → j ≠ i := fun j hj heq => hj (heq ▸ hi)
  have halive : ∀ j, Alive (s.slots j).state → Alive (s'.slots j).state := fun j hj => by
    rw [hother j (hne j hj.ne_zombie)]
    exact hj
  have hchild : ∀ q np, (s'.pc q).child = some np → (s.pc q).child = some np ∧ np ≠ i := fun q np hq => by
    rcases hpc q with heq | ⟨_, hrun⟩
    · rw [heq] at hq
      refine ⟨hq, hne np ?_⟩
      rw [(h.creating q np hq).1]
      nofun
    · rw [hrun] at hq
      cases hq
  constructor
  case init =>
    rw [hframe.1]
    exact ⟨h.init.1, halive _ h.init.2⟩
  case outside =>
    grind [Family.outside]
  case busy =>
    grind [Family.busy]
  case creating =>
    grind [Family.creating]
  case starting =>
    intro q np pid hq
    obtain ⟨_, hnp⟩ := hchild q np (by rw [hq]; rfl)
    grind [Family.starting]
  case creator => exact fun q r' np hq hr' => h.creator q r' np (hchild q np hq).1 (hchild r' np hr').1
  case parent =>
    intro j q hq
    by_cases hj : j = i
    · rw [hj, hself] at hq
      cases hq
    grind [Family.parent]
  case unused =>
    intro j hj
    by_cases hji : j = i
    · rw [hji, hself]
      rfl
    · rw [hother j hji] at hj ⊢
      exact h.unused j hj
  case orphan =>
    intro j hj hs
    by_cases hji : j = i
    · rw [hji, hself] at hs
      rcases hs with (hs | hs | hs) | hs <;> cases hs
    grind [Family.orphan]
  case born =>
    intro j hj
    have hji : j ≠ i := by
      rintro rfl
      rw [hself] at hj
      exact hj rfl
    rw [hother j hji] at hj ⊢
    rw [hframe.2.1, hframe.2.2]
    refine ⟨(h.born j hj).1, fun r' hr' heq => ?_⟩
    rcases List.mem_cons.mp hr' with rfl | hr'
    · exact hji (h.distinct j i hj (by rw [hi]; nofun) (heq.symm.trans hr))
    · exact (h.born j hj).2 r' hr' heq
  case distinct =>
    have hmem : ∀ j, (s'.slots j).state ≠ .unused → s'.slots j = s.slots j := fun j hj => by
      by_cases hji : j = i
      · rw [hji, hself] at hj
        exact absurd rfl hj
      · exact hother j hji
    grind [Family.distinct]
  case earlier =>
    rw [hframe.2.1, hframe.2.2]
    intro r' hr'
    rcases List.mem_cons.mp hr' with rfl | hr'
    · rw [hr]
      exact (h.born i (by rw [hi]; nofun)).1
    · exact h.earlier r' hr'
  case once =>
    rw [hframe.2.2, List.map_cons, List.nodup_cons]
    refine ⟨fun hmem => ?_, h.once⟩
    obtain ⟨r', hr', heq⟩ := List.mem_map.mp hmem
    exact (h.born i (by rw [hi]; nofun)).2 r' hr' (heq.trans hr)

end Family

theorem wait_reap (h : s.wait p addr copied = .reap i) :
    (s.slots i).parent = some p ∧ (s.slots i).state = .zombie := by
  unfold Sys.wait at h
  grind

theorem wait_noChildren (h : s.wait p addr copied = .noChildren) : ∀ i < nproc, (s.slots i).parent ≠ some p := by
  unfold Sys.wait at h
  grind

namespace Family

theorem setState (h : Family s) (hp : Alive (s.slots p).state) (hparent : (f (s.slots p)).parent = (s.slots p).parent)
    (hborn : (f (s.slots p)).born = (s.slots p).born) (hstate : Alive (f (s.slots p)).state) :
    Family (s.setSlot p f) :=
  h.stirs (stirs_setSlot ⟨hparent, fun _ => hborn, .inr ⟨hp, hstate⟩⟩) rfl le_rfl rfl fun _ => .inl rfl

theorem kwait (h : Family s) (hp : (s.slots p).state = .running) : Family (s.kwait p addr copied) := by
  have halive : Alive (s.slots p).state := .inr (.inr hp)
  unfold Sys.kwait
  split
  case h_1 i hwait => exact h.reaps (wait_reap hwait).2 rfl
  case h_2 | h_3 | h_4 => exact h.goto halive rfl
  case h_5 =>
    have hsleeps : Family (s.setSlot p fun slot => {slot with state := .sleeping, chan := some (.proc p)}) :=
      h.setState halive rfl rfl (.inl rfl)
    refine hsleeps.goto ?_ rfl
    rw [setSlot_self]
    exact .inl rfl

theorem kkill (h : Family s) : Family (s.kkill pid).2 := by
  have hnote : Family (s.mapSlots fun _ slot => {slot with causes := .kkill pid :: slot.causes}) :=
    h.stirs (fun _ => ⟨rfl, fun _ => rfl, .inl rfl⟩) rfl le_rfl rfl fun _ => .inl rfl
  unfold Sys.kkill
  split
  case h_1 i _ =>
    dsimp only
    refine hnote.stirs (stirs_setSlot ⟨rfl, fun _ => rfl, ?_⟩) rfl le_rfl rfl fun _ => .inl rfl
    show (if _ then _ else _) = _ ∨ _ ∧ Alive (if _ then _ else _)
    split
    case isTrue hs => exact .inr ⟨.inl hs, .inr (.inl rfl)⟩
    case isFalse => exact .inl rfl
  case h_2 => exact hnote

theorem step (h : Family s) (ha : s.allowed e) : Outcome (fun _ => False) (s.step e) Family := by
  cases e with
  | kfork p => exact h.goto (.inr (.inr ha.2.1)) rfl
  | scan p memory =>
    rw [Sys.step]
    split
    case h_1 i hpc => exact h.scan (.inr (.inr ha.2))
    case h_2 => exact h
  | link p =>
    rw [Sys.step]
    split
    case h_1 np pid hpc =>
      have hchild : (s.pc p).child = some np := by rw [hpc]; rfl
      have hused := (h.creating p np hchild).1
      exact h.child hchild rfl rfl (.inr rfl) (.inl hused) fun _ => hused
    case h_2 => exact h
  | start p =>
    rw [Sys.step]
    split
    case h_1 np pid hpc =>
      exact h.child (by rw [hpc]; rfl) rfl (h.starting p np pid hpc) (.inl rfl) (.inr (.inr (.inl rfl))) nofun
    case h_2 => exact h
  | kexit p status => exact h.kexit ha.1 ha.2
  | kwait p addr copied => exact h.kwait ha.2.1
  | kkill p pid => exact h.kkill
  | setkilled p => exact h.setState (.inr (.inr ha.2.1)) rfl rfl (.inr (.inr ha.2.1))
  | schedule p => exact h.setState (.inr (.inl ha.2)) rfl rfl (.inr (.inr rfl))
  | yield p => exact h.setState (.inr (.inr ha.2)) rfl rfl (.inr (.inl rfl))
  | sleep p chan => exact h.setState (.inr (.inr ha.2.1)) rfl rfl (.inl rfl)
  | wakeup p chan => exact h.wakeup

theorem boot : Family .boot := by
  have hslot : ∀ i, i ≠ 0 → Sys.boot.slots i = .zero := fun i hi => by
    simp only [Sys.boot, update_of_ne hi]
  have hzero : Sys.boot.slots 0 = {Slot.zero.alloc 1 0 with state := .runnable} := rfl
  have hparent : ∀ i, (Sys.boot.slots i).parent = none := fun i => by
    by_cases hi : i = 0
    · rw [hi, hzero]
      rfl
    · rw [hslot i hi]
      rfl
  have hused : ∀ i, (Sys.boot.slots i).state ≠ .unused → i = 0 := fun i hi => by
    by_contra hne
    rw [hslot i hne] at hi
    exact hi rfl
  constructor
  case init => exact ⟨by decide, .inr (.inl rfl)⟩
  case outside =>
    intro i hi
    rw [hslot i (Nat.ne_of_gt (Nat.lt_of_lt_of_le (by decide) hi))]
    rfl
  case busy => exact fun p hp => absurd rfl hp
  case creating => exact nofun
  case starting => exact nofun
  case creator => exact nofun
  case parent => exact fun i p hp => absurd ((hparent i).symm.trans hp) nofun
  case unused => exact fun i _ => hparent i
  case orphan =>
    intro i hi hs
    rw [hslot i hi] at hs
    rcases hs with (hs | hs | hs) | hs <;> cases hs
  case born =>
    intro i hi
    rw [hused i hi]
    exact ⟨Nat.one_pos, nofun⟩
  case distinct => exact fun i j hi hj _ => (hused i hi).trans (hused j hj).symm
  case earlier => exact nofun
  case once => exact List.nodup_nil

theorem run {es : List Event} (hp : processes.Proper .boot es) :
    Outcome (fun _ => False) (processes.run .boot es) Family :=
  Protocol.run_outcome (fun _ _ _ h ha => h.step ha) boot hp

end Family

/-! ### Runs -/

/-- What parents and children can rely on, whenever `wait_lock` is free. -/
structure Parents (s : Sys) : Prop where
  /-- The parent of a process is neither `UNUSED` nor `USED` nor `ZOMBIE`. -/
  parent : ∀ i, i ≠ s.initproc → Alive (s.slots i).state ∨ (s.slots i).state = .zombie →
    ∃ p, (s.slots i).parent = some p ∧ Alive (s.slots p).state
  /-- No process was reaped twice. -/
  once : (s.reaped.map Reaped.born).Nodup
  /-- `kwait` reaps a zombie of the caller, and returns what it has left. -/
  reap : ∀ p addr copied i, s.wait p addr copied = .reap i →
    (s.slots i).state = .zombie ∧ (s.slots i).parent = some p ∧
      (s.kwait p addr copied).reaped = ⟨(s.slots i).born, (s.slots i).pid, (s.slots i).xstate, p⟩ :: s.reaped ∧
      ((s.kwait p addr copied).slots i).state = .unused
  /-- If it cannot copy the exit status, the zombie stays. -/
  fault : ∀ p addr copied, s.wait p addr copied = .fault → (s.kwait p addr copied).slots = s.slots
  /-- It returns -1 for lack of children if there are none. -/
  noChildren : ∀ p addr copied, s.wait p addr copied = .noChildren →
    ∀ i, (s.slots i).state ≠ .unused → (s.slots i).parent ≠ some p

theorem Family.parents (h : Family s) : Parents s := by
  constructor
  case parent =>
    intro i hi hs
    obtain ⟨p, hp⟩ := Option.ne_none_iff_exists'.mp (h.orphan i hi hs)
    exact ⟨p, hp, h.parent i p hp⟩
  case once => exact h.once
  case reap =>
    intro p addr copied i hwait
    obtain ⟨hparent, hzombie⟩ := wait_reap hwait
    refine ⟨hzombie, hparent, ?_, ?_⟩
    · rw [Sys.kwait, hwait]
      rfl
    · simp only [Sys.kwait, hwait]
      show ((Sys.setSlot _ i Slot.free).slots i).state = _
      rw [setSlot_self]
      rfl
  case fault =>
    intro p addr copied hwait
    rw [Sys.kwait, hwait]
    rfl
  case noChildren => exact fun p addr copied hwait i hi => wait_noChildren hwait i (h.lt hi)

/-- **No process is left without a live parent**, however processes fork, exit and wait. -/
theorem processes_parents {es : List Event} (hp : processes.Proper .boot es) :
    ∃ s, processes.run .boot es = .ok s ∧ Parents s :=
  Outcome.total.mp ((Family.run hp).mono fun _ h => h.parents)

/-- A child of a child: the middle one exits and is reaped. -/
def orphaned : List Event :=
  [.schedule 0, .kfork 0, .scan 0 true, .scan 0 true, .link 0, .start 0, .schedule 1, .kfork 1, .scan 1 true,
    .scan 1 true, .scan 1 true, .link 1, .start 1, .kexit 1 7, .kwait 0 0 true]

theorem processes_parents_orphaned :
    ∃ s, processes.run .boot orphaned = .ok s ∧ (s.slots 2).parent = some 0 ∧ s.reaped = [⟨1, 2, 7, 0⟩] ∧
      Parents s := by
  have hproper : processes.Proper .boot orphaned := by decide +kernel
  have hsees : (processes.run .boot orphaned).toOption.map (fun s => ((s.slots 2).parent, s.reaped)) =
      some (some 0, [⟨1, 2, 7, 0⟩]) := by decide +kernel
  obtain ⟨s, hs, hparents⟩ := processes_parents hproper
  rw [hs] at hsees
  obtain ⟨hparent, hreaped⟩ := Prod.mk.inj (Option.some.inj hsees)
  exact ⟨s, hs, hparent, hreaped, hparents⟩

end Xv6.Proc
