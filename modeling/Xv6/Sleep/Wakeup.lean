import Xv6.Sleep.Model

/-! No wakeup is lost.

A process that goes to sleep takes its own lock before it releases the condition lock,
and the scheduler releases its own lock for it, after the switch. Between the two a
`wakeup` has to wait for that lock, so it finds the process either asleep or woken up
already, and as the caller holds the condition lock the process cannot come back from
`sleep` and sleep again (`processes_no_lost_wakeup`). -/
namespace Xv6.Sleep
open Function
open Vm (ProcState)

variable {n p q i j c d chan lk : ℕ} {s s' : Sys} {e : Event} {slot slot' : Slot} {pc pc' : Pc} {a : Holder} {cpu : Cpu}

/-- What holds of the slot of a process, according to where it is. -/
def Place (p : ℕ) (slot : Slot) : Pc → Prop
  | .running | .sleepAcquire _ _ | .reacquire _ _ | .waking _ _ | .wakingHeld _ _ | .killing _ _ | .yieldAcquire
  | .exitAcquire => slot.state = .running ∧ slot.lock ≠ some (.proc p)
  -- a process may kill itself
  | .killingHeld i _ => slot.state = .running ∧ (i ≠ p → slot.lock ≠ some (.proc p))
  | .sleepRelease _ _ | .sleepSet _ _ | .resumed _ _ | .yieldSwitch | .yieldResumed | .exitSwitch =>
    slot.state = .running ∧ slot.lock = some (.proc p)
  | .sleepSwitch chan _ => slot.state = .sleeping ∧ slot.chan = chan ∧ slot.lock = some (.proc p)
  | .asleep chan _ => (slot.state = .sleeping ∨ slot.state = .runnable) ∧ slot.chan = chan ∧ slot.lock ≠ some (.proc p)
  | .yielded => slot.state = .runnable ∧ slot.lock ≠ some (.proc p)
  | .dead => (slot.state = .zombie ∨ slot.state = .unused) ∧ slot.lock ≠ some (.proc p)

/-- The slot that a process has locked, of another process or its own. -/
def Pc.target : Pc → Option ℕ
  | .wakingHeld _ i | .killingHeld i _ => some i
  | _ => none

def Cpu.target : Cpu → Option ℕ
  | .holding i | .back i => some i
  | _ => none

/-- The condition lock that a process has passed to `sleep` and still holds. -/
def Pc.cond : Pc → Option ℕ
  | .sleepAcquire _ lk | .sleepRelease _ lk => some lk
  | _ => none

/-- The arguments of the call of `sleep` that a process is in. -/
def Pc.sleep : Pc → Option (ℕ × ℕ)
  | .sleepAcquire chan lk | .sleepRelease chan lk | .sleepSet chan lk | .sleepSwitch chan lk | .asleep chan lk
  | .resumed chan lk | .reacquire chan lk => some (chan, lk)
  | _ => none

structure Inv (n : ℕ) (s : Sys) : Prop where
  place : ∀ p, Place p (s.slots p) (s.pc p)
  held : ∀ p i, (s.pc p).target = some i → (s.slots i).lock = some (.proc p)
  heldCpu : ∀ c i, (s.cpus c).target = some i → (s.slots i).lock = some (.cpu c)
  cond : ∀ p lk, (s.pc p).cond = some lk → s.cond lk = some p
  bound : ∀ p, (s.pc p).sleep ≠ none → p < n

/-! ### Steps -/

theorem Place.relock (h : Place p slot pc) (hold : slot.lock ≠ some (.proc p)) (hnew : slot'.lock ≠ some (.proc p))
    (hstate : slot'.state = slot.state) (hchan : slot'.chan = slot.chan) : Place p slot' pc := by
  cases pc <;> simp_all [Place]

theorem Place.wake (h : Place p slot pc) (hold : slot.lock ≠ some (.proc p)) (hsleeps : slot.state = .sleeping)
    (hnew : slot'.lock ≠ some (.proc p)) (hstate : slot'.state = .runnable) (hchan : slot'.chan = slot.chan) :
    Place p slot' pc := by
  cases pc <;> simp_all [Place]

namespace Inv

section
variable (h : Inv n s)
include h

theorem goto (hslots : s'.slots = s.slots) (hpc : s'.pc = update s.pc p pc)
    (hcpus : s'.cpus = s.cpus) (hplace : Place p (s.slots p) pc) (htarget : pc.target = none)
    (hcond : ∀ q lk, (s'.pc q).cond = some lk → s'.cond lk = some q) (hbound : pc.sleep ≠ none → p < n) :
    Inv n s' := by
  constructor
  case place =>
    rw [hslots, hpc]
    grind [Inv.place, update_of_ne]
  case held =>
    intro q i hq
    rw [hpc] at hq
    rw [hslots]
    grind [Inv.held, update_of_ne]
  case heldCpu =>
    rw [hslots, hcpus]
    exact h.heldCpu
  case cond => exact hcond
  case bound =>
    intro q hq
    rw [hpc] at hq
    by_cases hqp : q = p
    · grind
    · rw [update_of_ne hqp] at hq
      exact h.bound q hq

/-- A step at a slot whose lock is free, or held by whoever makes the step: the process
`p`, or the scheduler of the CPU `c`. -/
theorem act (hfree : (s.slots i).lock = none ∨ (s.slots i).lock = some a)
    (hproc : ∀ q, a = .proc q → q = p) (hcpu : ∀ d, a = .cpu d → d = c)
    (hslots : s'.slots = update s.slots i slot) (hpc : s'.pc = update s.pc p pc)
    (hcpus : s'.cpus = update s.cpus c cpu) (hother : i ≠ p → Place i slot (s.pc i))
    (hplace : Place p (s'.slots p) pc) (htarget : ∀ j, pc.target = some j → (s'.slots j).lock = some (.proc p))
    (htargetCpu : ∀ j, cpu.target = some j → (s'.slots j).lock = some (.cpu c))
    (hcond : ∀ q lk, (s'.pc q).cond = some lk → s'.cond lk = some q) (hbound : pc.sleep ≠ none → p < n) :
    Inv n s' := by
  have hne : ∀ j, j ≠ i → s'.slots j = s.slots j := fun j hj => by rw [hslots, update_of_ne hj]
  have hself : s'.slots i = slot := by rw [hslots, update_self]
  have hpcs : ∀ q, q ≠ p → s'.pc q = s.pc q := fun q hq => by rw [hpc, update_of_ne hq]
  have hpcp : s'.pc p = pc := by rw [hpc, update_self]
  constructor
  case place =>
    intro q
    by_cases hq : q = p
    · rw [hq, hpcp]
      exact hplace
    · rw [hpcs q hq]
      by_cases hqi : q = i
      · rw [hqi, hself]
        exact hother (hqi ▸ hq)
      · rw [hne q hqi]
        exact h.place q
  case held =>
    grind [Inv.held]
  case heldCpu =>
    intro d j hj
    rw [hcpus] at hj
    grind [Inv.heldCpu, update_self, update_of_ne]
  case cond => exact hcond
  case bound =>
    intro q hq
    by_cases hqp : q = p
    · rw [hqp, hpcp] at hq
      exact hqp ▸ hbound hq
    · rw [hpcs q hqp] at hq
      exact h.bound q hq

theorem actProc (hfree : (s.slots i).lock = none ∨ (s.slots i).lock = some (.proc p))
    (hslots : s'.slots = update s.slots i slot) (hpc : s'.pc = update s.pc p pc)
    (hcpus : s'.cpus = s.cpus) (hother : i ≠ p → Place i slot (s.pc i)) (hplace : Place p (s'.slots p) pc)
    (htarget : ∀ j, pc.target = some j → (s'.slots j).lock = some (.proc p))
    (hcond : ∀ q lk, (s'.pc q).cond = some lk → s'.cond lk = some q) (hbound : pc.sleep ≠ none → p < n) :
    Inv n s' := by
  refine h.act hfree (fun q heq => (Holder.proc.inj heq).symm) nofun hslots hpc
    (?_ : s'.cpus = update s.cpus 0 (s.cpus 0)) hother
    hplace htarget (fun j hj => ?_) hcond hbound
  · rw [hcpus, update_eq_self]
  · have hlock := h.heldCpu 0 j hj
    have hji : j ≠ i := fun heq => by
      grind
    rw [hslots, update_of_ne hji]
    exact hlock

theorem cond_update (hpc : s'.pc = update s.pc p pc)
    (hothers : ∀ q lk, q ≠ p → s.cond lk = some q → s'.cond lk = some q)
    (hp : ∀ lk, pc.cond = some lk → s'.cond lk = some p) : ∀ q lk, (s'.pc q).cond = some lk → s'.cond lk = some q := by
  intro q lk hq
  rw [hpc] at hq
  grind [Inv.cond]

theorem own (hfree : (s.slots p).lock = none ∨ (s.slots p).lock = some (.proc p))
    (hslots : s'.slots = update s.slots p slot) (hpc : s'.pc = update s.pc p pc)
    (hcpus : s'.cpus = s.cpus) (hcond : s'.cond = s.cond) (hplace : Place p slot pc) (htarget : pc.target = none)
    (hkeeps : ∀ lk, pc.cond = some lk → s.cond lk = some p) (hbound : pc.sleep ≠ none → p < n) : Inv n s' := by
  refine h.actProc hfree hslots hpc hcpus (fun hne => absurd rfl hne) ?_ (fun j hj => ?_) (h.cond_update hpc ?_ ?_) hbound
  · rw [hslots, update_self]
    exact hplace
  · rw [htarget] at hj
    cases hj
  · grind
  · rw [hcond]
    exact hkeeps

theorem other (hfree : (s.slots i).lock = none ∨ (s.slots i).lock = some (.proc p)) (hi : i ≠ p)
    (hslots : s'.slots = update s.slots i slot) (hpc : s'.pc = update s.pc p pc)
    (hcpus : s'.cpus = s.cpus) (hcond : s'.cond = s.cond) (hother : Place i slot (s.pc i))
    (hplace : Place p (s.slots p) pc) (htarget : ∀ j, pc.target = some j → j = i ∧ slot.lock = some (.proc p))
    (hkeeps : pc.cond = none) (hbound : pc.sleep = none) : Inv n s' := by
  refine h.actProc hfree hslots hpc hcpus (fun _ => hother) ?_ (fun j hj => ?_) (h.cond_update hpc ?_ ?_)
    fun hne => absurd hbound hne
  · rw [hslots, update_of_ne hi.symm]
    exact hplace
  · obtain ⟨rfl, hlock⟩ := htarget j hj
    rw [hslots, update_self]
    exact hlock
  · grind
  · rw [hkeeps]
    exact nofun

theorem switch {f : Slot → Slot} (hs : s.switch p c pc f = .ok s')
    (hlock : (s.slots p).lock = some (.proc p)) (hplace : Place p {f (s.slots p) with lock := some (.cpu c)} pc)
    (htarget : pc.target = none) (hkeeps : pc.cond = none) (hbound : pc.sleep ≠ none → p < n) : Inv n s' := by
  unfold Sys.switch at hs
  split at hs <;> cases hs
  have hself : (update s.slots p {f (s.slots p) with lock := some (.cpu c)}) p =
      {f (s.slots p) with lock := some (.cpu c)} := update_self ..
  refine h.act (.inr hlock) (fun q heq => (Holder.proc.inj heq).symm) nofun rfl rfl rfl (fun hne => absurd rfl hne) ?_
    (fun j hj => ?_) (fun j hj => ?_) (h.cond_update rfl (fun _ _ _ => id) ?_) hbound
  · show Place p ((update s.slots p _) p) pc
    grind
  · rw [htarget] at hj
    cases hj
  · cases hj
    show Slot.lock ((update s.slots p _) p) = _
    rw [update_self]
  · rw [hkeeps]
    exact nofun

theorem next (ha : s.Ready n p c (s.pc p)) (hs : s.next n p c = .ok s') : Inv n s' := by
  have hplace := h.place p
  have hbound := h.bound p
  have hkeeps := h.cond p
  have hheld := h.held p
  unfold Sys.next at hs
  split at hs <;> rename_i hpc <;> rw [hpc] at ha hplace hbound hkeeps hheld
  case h_1 chan lk =>
    cases hs
    exact h.own (.inl ha) rfl rfl rfl rfl ⟨hplace.1, rfl⟩ rfl hkeeps fun _ => hbound nofun
  case h_2 chan lk =>
    cases hs
    have hlk : s.cond lk = some p := hkeeps lk rfl
    refine h.goto rfl rfl rfl hplace rfl (h.cond_update rfl (fun q lk' hq hlk' => ?_) nofun) fun _ => hbound nofun
    show update s.cond lk none lk' = _
    grind
  case h_3 chan lk =>
    cases hs
    exact h.own (.inr hplace.2) rfl rfl rfl rfl ⟨rfl, rfl, hplace.2⟩ rfl nofun fun _ => hbound nofun
  case h_4 chan lk =>
    exact h.switch hs hplace.2.2 ⟨.inl hplace.1, hplace.2.1, nofun⟩ rfl rfl fun _ => hbound nofun
  case h_5 chan lk =>
    cases hs
    exact h.own (.inr hplace.2) rfl rfl rfl rfl ⟨hplace.1, nofun⟩ rfl nofun fun _ => hbound nofun
  case h_6 chan lk =>
    cases hs
    have hlk : s.cond lk = none := ha
    refine h.goto rfl rfl rfl hplace rfl (h.cond_update rfl (fun q lk' _ hlk' => ?_) nofun) fun hne => absurd rfl hne
    show update s.cond lk (some p) lk' = _
    grind
  case h_7 chan i =>
    split at hs
    case isTrue hi =>
      split at hs <;> cases hs
      case isTrue =>
        exact h.goto rfl rfl rfl hplace rfl (h.cond_update rfl (fun _ _ _ => id) nofun) fun hne => absurd rfl hne
      case isFalse hne =>
        have hnone : (s.slots i).lock = none := ha hi hne
        refine h.other (.inl hnone) hne rfl rfl rfl rfl ((h.place i).relock ?_ ?_ rfl rfl) hplace ?_ rfl rfl
        · rw [hnone]
          nofun
        · exact fun heq => hne (Holder.proc.inj (Option.some.inj heq)).symm
        · rintro j ⟨⟩
          exact ⟨rfl, rfl⟩
    case isFalse =>
      cases hs
      exact h.goto rfl rfl rfl hplace rfl (h.cond_update rfl (fun _ _ _ => id) nofun) fun hne => absurd rfl hne
  case h_8 chan i =>
    cases hs
    have hlock := hheld i rfl
    have hne : i ≠ p := fun heq => hplace.2 (heq ▸ hlock)
    have hothers : (s.slots i).lock ≠ some (.proc i) := by
      rw [hlock]
      exact fun heq => hne (Holder.proc.inj (Option.some.inj heq)).symm
    refine h.other (.inr hlock) hne rfl rfl rfl rfl ?_ hplace nofun rfl rfl
    grind [Inv.place, Place.wake, Place.relock]
  case h_9 i found =>
    cases hs
    have hnone : (s.slots i).lock = none := ha
    refine h.actProc (.inl hnone) rfl rfl rfl (fun hne => (h.place i).relock ?_ ?_ rfl rfl) ?_ ?_
      (h.cond_update rfl (fun _ _ _ => id) nofun) fun hne => absurd rfl hne
    · rw [hnone]
      nofun
    · exact fun heq => hne (Holder.proc.inj (Option.some.inj heq)).symm
    · refine ⟨?_, fun hne => ?_⟩
      · by_cases hi : p = i
        · subst hi
          show ((update s.slots p _) p).state = _
          rw [update_self]
          exact hplace.1
        · show ((update s.slots i _) p).state = _
          rw [update_of_ne hi]
          exact hplace.1
      · show ((update s.slots i _) p).lock ≠ _
        rw [update_of_ne hne.symm]
        exact hplace.2
    · rintro j ⟨⟩
      show ((update s.slots i _) i).lock = _
      rw [update_self]
  case h_10 i found =>
    cases hs
    have hlock := hheld i rfl
    by_cases hi : i = p
    · -- a running process is not asleep
      subst hi
      refine h.own (.inr hlock) rfl rfl rfl rfl ⟨?_, nofun⟩ rfl nofun fun hne => absurd rfl hne
      show (if found ∧ (s.slots i).state = .sleeping then _ else (s.slots i).state) = _
      rw [hplace.1, if_neg (fun hand => nomatch hand.2)]
    · have hothers : (s.slots i).lock ≠ some (.proc i) := by
        rw [hlock]
        exact fun heq => hi (Holder.proc.inj (Option.some.inj heq)).symm
      refine h.other (.inr hlock) hi rfl rfl rfl rfl ?_ ⟨hplace.1, hplace.2 hi⟩ nofun rfl rfl
      grind [Inv.place, Place.wake, Place.relock]
  case h_11 =>
    cases hs
    exact h.own (.inl ha) rfl rfl rfl rfl ⟨hplace.1, rfl⟩ rfl nofun fun hne => absurd rfl hne
  case h_12 => exact h.switch hs hplace.2 ⟨rfl, nofun⟩ rfl rfl fun hne => absurd rfl hne
  case h_13 =>
    cases hs
    exact h.own (.inr hplace.2) rfl rfl rfl rfl ⟨hplace.1, nofun⟩ rfl nofun fun hne => absurd rfl hne
  case h_14 =>
    cases hs
    exact h.own (.inl ha) rfl rfl rfl rfl ⟨hplace.1, rfl⟩ rfl nofun fun hne => absurd rfl hne
  case h_15 => exact h.switch hs hplace.2 ⟨.inl rfl, nofun⟩ rfl rfl fun hne => absurd rfl hne
  all_goals
    cases hs
    exact h

theorem actCpu (hfree : (s.slots i).lock = none ∨ (s.slots i).lock = some (.cpu c))
    (hslots : s'.slots = update s.slots i slot) (hpc : s'.pc = s.pc)
    (hcpus : s'.cpus = update s.cpus c cpu) (hcond : s'.cond = s.cond) (hstate : slot.state = (s.slots i).state)
    (hchan : slot.chan = (s.slots i).chan) (hlock : slot.lock ≠ some (.proc i))
    (htarget : ∀ j, cpu.target = some j → j = i ∧ slot.lock = some (.cpu c)) : Inv n s' := by
  have hold : ∀ q, (s.slots i).lock ≠ some (.proc q) := fun q heq => by
    grind
  refine h.act (p := i) hfree nofun (fun d heq => (Holder.cpu.inj heq).symm) hslots ?_ hcpus
    (fun hne => absurd rfl hne) ?_ (fun j hj => ?_) (fun j hj => ?_) ?_ (h.bound i)
  · rw [hpc, update_eq_self]
  · rw [hslots, update_self]
    exact (h.place i).relock (hold i) hlock hstate hchan
  · have hheld := h.held i j hj
    have hji : j ≠ i := fun heq => hold i (heq ▸ hheld)
    rw [hslots, update_of_ne hji]
    exact hheld
  · obtain ⟨rfl, hcpu⟩ := htarget j hj
    rw [hslots, update_self]
    exact hcpu
  · rw [hpc, hcond]
    exact h.cond

end

end Inv

theorem Place.resume (h : Place p slot pc) (hlock : slot.lock = some (.cpu c)) (hstate : slot.state = .runnable) :
    Place p {slot with state := .running, lock := some (.proc p)} pc.resume ∧ pc.resume.target = none ∧
      pc.resume.cond = none ∧ (pc.resume.sleep ≠ none → pc.sleep ≠ none) := by
  cases pc <;> simp_all [Place, Pc.resume, Pc.target, Pc.cond, Pc.sleep]

theorem Place.eq_dead (h : Place p slot pc) (hstate : slot.state = .zombie ∨ slot.state = .unused) : pc = .dead := by
  rcases hstate with hstate | hstate <;> cases pc <;> simp_all [Place]

namespace Inv

theorem sched (h : Inv n s) (ha : s.ReadyCpu n (s.cpus c)) : Inv n (s.sched n c) := by
  have hheld := h.heldCpu c
  unfold Sys.sched
  split <;> rename_i hcpu <;> rw [hcpu] at ha hheld
  case h_1 i =>
    split
    case isTrue hi =>
      refine h.actCpu (.inl (ha hi)) rfl rfl rfl rfl rfl rfl nofun ?_
      rintro j ⟨⟩
      exact ⟨rfl, rfl⟩
    case isFalse =>
      refine ⟨h.place, h.held, fun d j hj => ?_, h.cond, h.bound⟩
      simp only [Sys.setCpu] at hj
      by_cases hd : d = c
      · rw [hd, update_self] at hj
        cases hj
      · rw [update_of_ne hd] at hj
        exact h.heldCpu d j hj
  case h_2 i =>
    have hlock := hheld i rfl
    split
    case isTrue hstate =>
      obtain ⟨hplace, htarget, hcond, hsleep⟩ := (h.place i).resume hlock hstate
      refine h.act (.inr hlock) nofun (fun d heq => (Holder.cpu.inj heq).symm) rfl rfl rfl (fun hne => absurd rfl hne) ?_
        (fun j hj => ?_) nofun (h.cond_update rfl (fun _ _ _ => id) ?_) fun hne => h.bound i (hsleep hne)
      · show Place i ((update s.slots i _) i) _
        grind
      · grind
      · rw [hcond]
        exact nofun
    case isFalse => exact h.actCpu (.inr hlock) rfl rfl rfl rfl rfl rfl nofun nofun
  case h_3 => exact h
  case h_4 p => exact h.actCpu (.inr (hheld p rfl)) rfl rfl rfl rfl rfl rfl nofun nofun

theorem step (h : Inv n s) (ha : s.allowed n e) (hs : s.step n e = .ok s') : Inv n s' := by
  cases e with
  | acquire p lk =>
    cases hs
    refine ⟨h.place, h.held, h.heldCpu, fun q lk' hq => ?_, h.bound⟩
    have hlk := h.cond q lk' hq
    have hne : lk' ≠ lk := by
      rintro rfl
      exact absurd (ha.2.symm.trans hlk) nofun
    show update s.cond lk (some p) lk' = _
    grind
  | release p lk =>
    cases hs
    refine ⟨h.place, h.held, h.heldCpu, fun q lk' hq => ?_, h.bound⟩
    have hlk := h.cond q lk' hq
    have hne : lk' ≠ lk := by
      -- `p` is not in `sleep`
      rintro rfl
      obtain rfl := Option.some.inj (ha.2.symm.trans hlk)
      have hrunning : s.pc p = .running := ha.1
      have hcond : (s.pc p).cond = some lk' := hq
      rw [hrunning] at hcond
      cases hcond
    show update s.cond lk none lk' = _
    grind
  | sleep p chan lk =>
    cases hs
    have hplace := h.place p
    rw [ha.2.1] at hplace
    refine h.goto rfl rfl rfl hplace rfl (h.cond_update rfl (fun _ _ _ => id) ?_) fun _ => ha.1
    rintro lk' ⟨⟩
    exact ha.2.2
  | wakeup p chan | kkill p i found | yield p | exit p =>
    cases hs
    have hplace := h.place p
    rw [show s.pc p = .running from ha] at hplace
    exact h.goto rfl rfl rfl hplace rfl (h.cond_update rfl (fun _ _ _ => id) nofun) fun hne => absurd rfl hne
  | next p c => exact h.next ha hs
  | sched c =>
    cases hs
    exact h.sched ha
  | reap i =>
    cases hs
    have hdead := (h.place i).eq_dead (.inl ha.2)
    refine h.own (.inl ha.1) rfl (?_ : _ = update s.pc i .dead) rfl rfl ⟨.inr rfl, ?_⟩ rfl nofun fun hne => absurd rfl hne
    · rw [← hdead]
      exact (update_eq_self i s.pc).symm
    · rw [show Slot.lock _ = none from ha.1]
      nofun
  | spawn i =>
    cases hs
    refine h.own (.inl ha.2.1) rfl rfl rfl rfl ⟨rfl, ?_⟩ rfl nofun fun hne => absurd rfl hne
    rw [show Slot.lock _ = none from ha.2.1]
    nofun

theorem boot : Inv n .boot := by
  have hpc : ∀ p, (Sys.boot.pc p).target = none ∧ (Sys.boot.pc p).cond = none ∧ (Sys.boot.pc p).sleep = none := by
    intro p
    by_cases hp : p = 0
    · rw [hp]
      exact ⟨rfl, rfl, rfl⟩
    · simp only [Sys.boot, update_of_ne hp]
      exact ⟨rfl, rfl, rfl⟩
  constructor
  case place =>
    intro p
    by_cases hp : p = 0
    · rw [hp]
      exact ⟨rfl, nofun⟩
    · simp only [Sys.boot, update_of_ne hp]
      exact ⟨.inr rfl, nofun⟩
  case held => exact fun p i hi => absurd ((hpc p).1.symm.trans hi) nofun
  case heldCpu => exact nofun
  case cond => exact fun p lk hlk => absurd ((hpc p).2.1.symm.trans hlk) nofun
  case bound => exact fun p hne => absurd (hpc p).2.2 hne

end Inv

/-! ### What a step does to others -/

/-- A process that others wake up does not fall asleep by it. -/
def Awakes (slot slot' : Slot) : Prop := slot'.state = .sleeping → slot.state = .sleeping

theorem awakes_update (hslots : s'.slots = update s.slots i slot) (hslot : Awakes (s.slots i) slot) (q : ℕ) :
    Awakes (s.slots q) (s'.slots q) := by
  rw [hslots]
  by_cases hq : q = i
  · grind
  · rw [update_of_ne hq]
    exact id

theorem switch_other {f : Slot → Slot} (hs : s.switch p c pc f = .ok s') (hq : q ≠ p) :
    s'.pc q = s.pc q ∧ s'.slots q = s.slots q ∧ s'.cond = s.cond := by
  unfold Sys.switch at hs
  split at hs <;> cases hs
  exact ⟨update_of_ne hq .., update_of_ne hq .., rfl⟩

theorem next_other (hs : s.next n p c = .ok s') (hq : q ≠ p) : s'.pc q = s.pc q ∧ Awakes (s.slots q) (s'.slots q) := by
  have hgoto : ∀ pc, update s.pc p pc q = s.pc q := fun pc => update_of_ne hq ..
  have hswitch {pc : Pc} {f : Slot → Slot} (hs : s.switch p c pc f = .ok s') :
      s'.pc q = s.pc q ∧ Awakes (s.slots q) (s'.slots q) := by
    obtain ⟨hpc, hslot, _⟩ := switch_other hs hq
    refine ⟨hpc, ?_⟩
    rw [hslot]
    exact id
  unfold Sys.next at hs
  split at hs
  case h_3 chan lk hpc =>
    cases hs
    refine ⟨hgoto _, ?_⟩
    show Awakes _ ((update s.slots p _) q)
    rw [update_of_ne hq]
    exact id
  case h_4 | h_12 | h_15 => exact hswitch hs
  case h_7 chan i hpc =>
    split at hs
    case isTrue =>
      split at hs <;> cases hs
      case isTrue => exact ⟨hgoto _, id⟩
      case isFalse =>
        refine ⟨hgoto _, awakes_update rfl ?_ q⟩
        exact id
    case isFalse =>
      cases hs
      exact ⟨hgoto _, id⟩
  case h_8 chan i hpc =>
    cases hs
    refine ⟨hgoto _, awakes_update rfl ?_ q⟩
    grind [Awakes]
  case h_10 i found hpc =>
    cases hs
    refine ⟨hgoto _, awakes_update rfl ?_ q⟩
    grind [Awakes]
  case h_2 | h_6 =>
    cases hs
    exact ⟨hgoto _, id⟩
  case h_16 | h_17 | h_18 | h_19 =>
    cases hs
    exact ⟨rfl, id⟩
  all_goals
    cases hs
    refine ⟨hgoto _, awakes_update rfl ?_ q⟩
    exact id

theorem sched_other (n : ℕ) (s : Sys) (c q : ℕ) :
    ((s.sched n c).pc q = s.pc q ∨ (s.sched n c).pc q = (s.pc q).resume) ∧
      Awakes (s.slots q) ((s.sched n c).slots q) := by
  unfold Sys.sched
  split
  case h_1 i _ =>
    split
    case isTrue =>
      refine ⟨.inl rfl, awakes_update rfl ?_ q⟩
      exact id
    case isFalse => exact ⟨.inl rfl, id⟩
  case h_2 i _ =>
    split
    case isTrue =>
      refine ⟨?_, awakes_update rfl ?_ q⟩
      · show update s.pc i _ q = _ ∨ update s.pc i _ q = _
        grind
      · exact nofun
    case isFalse =>
      refine ⟨.inl rfl, awakes_update rfl ?_ q⟩
      exact id
  case h_3 => exact ⟨.inl rfl, id⟩
  case h_4 p _ =>
    refine ⟨.inl rfl, awakes_update rfl ?_ q⟩
    exact id

/-- What a step does to a process that is in a call and does not make the step itself. -/
theorem step_other (h : Inv n s) (ha : s.allowed n e) (hs : s.step n e = .ok s') (hrunning : s.pc q ≠ .running)
    (hdead : s.pc q ≠ .dead) (he : ∀ c, e ≠ .next q c) :
    (s'.pc q = s.pc q ∨ s'.pc q = (s.pc q).resume) ∧ Awakes (s.slots q) (s'.slots q) := by
  have hgoto {p : ℕ} {pc : Pc} (hp : s.pc p = .running) : update s.pc p pc q = s.pc q := by
    grind
  cases e with
  | acquire p lk | release p lk =>
    cases hs
    exact ⟨.inl rfl, id⟩
  | sleep p chan lk =>
    cases hs
    exact ⟨.inl (hgoto ha.2.1), id⟩
  | wakeup p chan | kkill p i found | yield p | exit p =>
    cases hs
    exact ⟨.inl (hgoto ha), id⟩
  | next p c =>
    have hq : q ≠ p := fun heq => he c (heq ▸ rfl)
    exact ⟨.inl (next_other hs hq).1, (next_other hs hq).2⟩
  | sched c =>
    cases hs
    exact sched_other n s c q
  | reap i =>
    cases hs
    refine ⟨.inl rfl, awakes_update rfl ?_ q⟩
    exact nofun
  | spawn i =>
    cases hs
    have hq : q ≠ i := fun heq => hdead (heq ▸ (h.place i).eq_dead (.inr ha.2.2))
    refine ⟨.inl (update_of_ne hq ..), awakes_update rfl ?_ q⟩
    exact nofun

theorem step_cond (h : Inv n s) (ha : s.allowed n e) (hs : s.step n e = .ok s') (hlk : s.cond lk = some q)
    (hrunning : s.pc q ≠ .running) (he : ∀ c, e ≠ .next q c) : s'.cond lk = some q := by
  -- a lock that is released is held by who releases it
  have hother {p lk' : ℕ} {x : Option ℕ} (hlk' : s.cond lk' = none ∨ s.cond lk' = some p) (hp : p ≠ q) :
      update s.cond lk' x lk = some q := by
    have hne : lk ≠ lk' := by
      grind
    rw [update_of_ne hne]
    exact hlk
  cases e with
  | acquire p lk' =>
    cases hs
    exact hother (.inl ha.2) fun heq => hrunning (heq ▸ ha.1)
  | release p lk' =>
    cases hs
    exact hother (.inr ha.2) fun heq => hrunning (heq ▸ ha.1)
  | next p c =>
    have hp : p ≠ q := fun heq => he c (heq ▸ rfl)
    have hcond := h.cond p
    have hready : s.Ready n p c (s.pc p) := ha
    have hs : s.next n p c = .ok s' := hs
    unfold Sys.next at hs
    split at hs <;> rename_i hpc <;> rw [hpc] at hcond hready
    case h_2 chan lk' =>
      cases hs
      exact hother (.inr (hcond lk' rfl)) hp
    case h_6 chan lk' =>
      cases hs
      exact hother (.inl hready) hp
    case h_7 chan i =>
      split at hs
      case isTrue => split at hs <;> cases hs <;> exact hlk
      case isFalse =>
        cases hs
        exact hlk
    case h_4 | h_12 | h_15 =>
      rw [(switch_other hs hp.symm).2.2]
      exact hlk
    all_goals
      cases hs
      exact hlk
  | sched c =>
    cases hs
    show (s.sched n c).cond lk = _
    unfold Sys.sched
    split
    case h_1 => split <;> exact hlk
    case h_2 => split <;> exact hlk
    case h_3 => exact hlk
    case h_4 => exact hlk
  | sleep p chan lk | wakeup p chan | kkill p i found | yield p | exit p | reap i | spawn i =>
    cases hs
    exact hlk

/-! ### A call of `wakeup` -/

def Pc.Waking (chan : ℕ) : Pc → Prop
  | .waking chan' _ | .wakingHeld chan' _ => chan' = chan
  | _ => False

instance (chan : ℕ) : ∀ pc : Pc, Decidable (pc.Waking chan)
  | .waking _ _ | .wakingHeld _ _ => inferInstanceAs (Decidable (_ = _))
  | .running | .sleepAcquire _ _ | .sleepRelease _ _ | .sleepSet _ _ | .sleepSwitch _ _ | .asleep _ _ | .resumed _ _
  | .reacquire _ _ | .killing _ _ | .killingHeld _ _ | .yieldAcquire | .yieldSwitch | .yielded | .yieldResumed
  | .exitAcquire | .exitSwitch | .dead => .isFalse id

/-- `wakeup` has been at a slot, or has returned. -/
def Pc.Past (p : ℕ) : Pc → Prop
  | .waking _ i | .wakingHeld _ i => p < i
  | _ => True

/-- The process has released `lk` in `sleep(chan, lk)` and was not made `RUNNABLE` since. -/
def Sys.Falling (s : Sys) (p chan lk : ℕ) : Prop :=
  s.pc p = .sleepSet chan lk ∨ s.pc p = .sleepSwitch chan lk ∨ s.pc p = .asleep chan lk ∧ (s.slots p).state = .sleeping

/-- The process has released `lk` in `sleep(chan, lk)` and not taken it back. -/
def Pc.Released (chan lk : ℕ) (pc : Pc) : Prop :=
  pc = .sleepSet chan lk ∨ pc = .sleepSwitch chan lk ∨ pc = .asleep chan lk ∨ pc = .resumed chan lk ∨
    pc = .reacquire chan lk

/-- It is awake, and will not go to sleep in this call. -/
def Sys.Awake (s : Sys) (p chan lk : ℕ) : Prop := s.pc p ≠ .sleepSet chan lk ∧ (s.slots p).state ≠ .sleeping

/-- While `q` is in `wakeup(chan)` and holds `lk`, a process `p` that was falling asleep stays
in `sleep(chan, lk)`, and is awake once `wakeup` has been at its slot. -/
structure Wakes (n p q chan lk : ℕ) (s : Sys) : Prop where
  inv : Inv n s
  lock : s.cond lk = some q
  stage : (s.pc p).Released chan lk
  past : (s.pc q).Past p → s.Awake p chan lk

theorem Pc.Waking.ne_running (h : pc.Waking chan) : pc ≠ .running := by
  rintro rfl
  exact h

theorem Pc.Waking.ne_dead (h : pc.Waking chan) : pc ≠ .dead := by
  rintro rfl
  exact h

theorem Pc.Waking.resume (h : pc.Waking chan) : pc.resume = pc := by
  cases pc <;> first | exact h.elim | rfl

namespace Wakes

section
variable (h : Wakes n p q chan lk s)
include h

theorem ne_running : s.pc p ≠ .running := by
  rcases h.stage with hp | hp | hp | hp | hp <;> rw [hp] <;> nofun

theorem ne_dead : s.pc p ≠ .dead := by
  rcases h.stage with hp | hp | hp | hp | hp <;> rw [hp] <;> nofun

theorem stage_other (ha : s.allowed n e) (hs : s.step n e = .ok s') (he : ∀ c, e ≠ .next p c) :
    (s'.pc p).Released chan lk ∧ (s.Awake p chan lk → s'.Awake p chan lk) := by
  obtain ⟨hpc, hawakes⟩ := step_other h.inv ha hs h.ne_running h.ne_dead he
  unfold Sys.Awake
  rcases hpc with hpc | hpc <;> rw [hpc]
  · exact ⟨h.stage, fun hdone => ⟨hdone.1, mt hawakes hdone.2⟩⟩
  · rcases h.stage with hp | hp | hp | hp | hp <;> rw [hp]
    · exact ⟨.inl rfl, fun hdone => absurd rfl hdone.1⟩
    · exact ⟨.inr (.inl rfl), fun hdone => ⟨nofun, mt hawakes hdone.2⟩⟩
    · exact ⟨.inr (.inr (.inr (.inl rfl))), fun hdone => ⟨nofun, mt hawakes hdone.2⟩⟩
    · exact ⟨.inr (.inr (.inr (.inl rfl))), fun hdone => ⟨nofun, mt hawakes hdone.2⟩⟩
    · exact ⟨.inr (.inr (.inr (.inr rfl))), fun hdone => ⟨nofun, mt hawakes hdone.2⟩⟩

theorem stage_self (ha : s.Ready n p c (s.pc p)) (hs : s.next n p c = .ok s') :
    (s'.pc p).Released chan lk ∧ (s.Awake p chan lk → s'.Awake p chan lk) := by
  have hplace := h.inv.place p
  rcases h.stage with hp | hp | hp | hp | hp <;> rw [hp] at ha hplace <;> rw [Sys.next, hp] at hs
  · cases hs
    exact ⟨.inr (.inl (update_self ..)), fun hdone => absurd hp hdone.1⟩
  · dsimp only [Sys.switch] at hs
    split at hs <;> cases hs
    exact ⟨.inr (.inr (.inl (update_self ..))), fun hdone => absurd hplace.1 hdone.2⟩
  · cases hs
    rw [hp]
    exact ⟨.inr (.inr (.inl rfl)), id⟩
  · cases hs
    have hpc : update s.pc p (.reacquire chan lk) p = .reacquire chan lk := update_self ..
    refine ⟨.inr (.inr (.inr (.inr hpc))), fun hdone => ⟨fun heq => ?_, ?_⟩⟩
    · cases hpc.symm.trans heq
    · show (update s.slots p _ p).state ≠ _
      rw [update_self]
      exact hdone.2
  · exact absurd (h.lock.symm.trans ha) nofun

theorem caller (hq : (s.pc q).Waking chan) (ha : s.Ready n q c (s.pc q))
    (hs : s.next n q c = .ok s') : s'.cond = s.cond ∧
      ((s'.pc q).Past p → (s.pc q).Past p ∨ s'.Awake p chan lk) := by
  have hpn : p < n := h.inv.bound p (by rcases h.stage with hp | hp | hp | hp | hp <;> rw [hp] <;> nofun)
  have hne : p ≠ q := fun heq => by
    rcases h.stage with hp | hp | hp | hp | hp <;> rw [← heq, hp] at hq <;> exact hq
  have hheld := h.inv.held q
  cases hpc : s.pc q <;> rw [hpc] at hq ha hheld <;> try exact hq.elim
  case waking chan' i =>
    rw [Sys.next, hpc] at hs
    dsimp only at hs
    split at hs
    case isTrue =>
      split at hs <;> cases hs
      case isTrue hi =>
        -- the caller passes over its own slot
        refine ⟨rfl, fun hpast => .inl ?_⟩
        have hlt : p < i + 1 := by
          simp only [Sys.goto, update_self] at hpast
          exact hpast
        exact Nat.lt_of_le_of_ne (Nat.le_of_lt_succ hlt) (hi ▸ hne)
      case isFalse =>
        refine ⟨rfl, fun hpast => .inl ?_⟩
        simp only [Sys.goto, update_self] at hpast
        exact hpast
    case isFalse hi =>
      cases hs
      exact ⟨rfl, fun _ => .inl (hpn.trans_le (not_lt.mp hi))⟩
  case wakingHeld chan' i =>
    obtain rfl : chan' = chan := hq
    have hlock := hheld i rfl
    have hother := next_other hs hne
    rw [Sys.next, hpc] at hs
    cases hs
    refine ⟨rfl, fun hpast => ?_⟩
    have hlt : p < i + 1 := by
      simp only [Sys.goto, update_self] at hpast
      exact hpast
    rcases Nat.lt_or_eq_of_le (Nat.le_of_lt_succ hlt) with hlt | rfl
    · exact .inl hlt
    · -- the caller has the lock of the process, so it is asleep or has been woken up
      right
      have hplace := h.inv.place p
      have hself : some (Holder.proc q) ≠ some (Holder.proc p) := fun heq =>
        hne (Holder.proc.inj (Option.some.inj heq)).symm
      unfold Sys.Awake
      rw [hother.1]
      simp only [Sys.goto, Sys.setSlot, update_self]
      rcases h.stage with hp | hp | hp | hp | hp <;> rw [hp] at hplace ⊢
      · exact absurd (hlock.symm.trans hplace.2) hself
      · exact absurd (hlock.symm.trans hplace.2.2) hself
      · refine ⟨nofun, ?_⟩
        split
        case isTrue => nofun
        case isFalse hasleep => exact fun hsleeps => hasleep ⟨hsleeps, hplace.2.1⟩
      · exact absurd (hlock.symm.trans hplace.2) hself
      · refine ⟨nofun, ?_⟩
        rw [hplace.1, if_neg fun hand => nomatch hand.1]
        nofun

theorem step (hq : (s.pc q).Waking chan) (ha : s.allowed n e)
    (hs : s.step n e = .ok s') : Wakes n p q chan lk s' := by
  have hinv := h.inv.step ha hs
  have hne : p ≠ q := fun heq => by
    rcases h.stage with hp | hp | hp | hp | hp <;> rw [← heq, hp] at hq <;> exact hq
  by_cases hself : ∃ c, e = .next q c
  · obtain ⟨c, rfl⟩ := hself
    obtain ⟨hcond, hpast⟩ := h.caller hq ha hs
    obtain ⟨hstage, hdone⟩ := h.stage_other ha hs fun c' heq => hne (Event.next.inj heq).1.symm
    refine ⟨hinv, hcond ▸ h.lock, hstage, fun hp => ?_⟩
    grind [Wakes.past]
  · have hnext : ∀ c, e ≠ .next q c := fun c heq => hself ⟨c, heq⟩
    have hpc : s'.pc q = s.pc q := by
      rcases (step_other h.inv ha hs hq.ne_running hq.ne_dead hnext).1 with heq | heq
      · exact heq
      · rw [heq, hq.resume]
    have hlock := step_cond h.inv ha hs h.lock hq.ne_running hnext
    have hstage : (s'.pc p).Released chan lk ∧ (s.Awake p chan lk → s'.Awake p chan lk) := by
      by_cases hp : ∃ c, e = .next p c
      · obtain ⟨c, rfl⟩ := hp
        exact h.stage_self ha hs
      · exact h.stage_other ha hs fun c heq => hp ⟨c, heq⟩
    refine ⟨hinv, hlock, hstage.1, fun hpast => hstage.2 (h.past ?_)⟩
    rw [← hpc]
    exact hpast

end

end Wakes

theorem Wakes.call (h : Inv n s) (hp : s.Falling p chan lk) (hlk : s.cond lk = some q) (hq : s.pc q = .running)
    (hs : s.step n (.wakeup q chan) = .ok s') : Wakes n p q chan lk s' := by
  have hinv := h.step (e := .wakeup q chan) hq hs
  have hne : p ≠ q := by
    rintro rfl
    rcases hp with hp | hp | ⟨hp, _⟩ <;> cases hq.symm.trans hp
  cases hs
  refine ⟨hinv, hlk, ?_, fun hpast => ?_⟩
  · show (update s.pc q _ p).Released chan lk
    rw [update_of_ne hne]
    rcases hp with hp | hp | ⟨hp, _⟩
    · exact .inl hp
    · exact .inr (.inl hp)
    · exact .inr (.inr (.inl hp))
  · simp only [Sys.goto, update_self] at hpast
    exact absurd hpast (Nat.not_lt_zero p)

/-! ### Returning from `sleep` -/

theorem Pc.ne_of_sleep (h : pc.sleep = some (chan, lk)) : pc ≠ .running ∧ pc ≠ .dead ∧ pc.resume.sleep = some (chan, lk) := by
  cases pc <;> cases h <;> exact ⟨nofun, nofun, rfl⟩

theorem sleep_returns (h : Inv n s) (ha : s.allowed n e) (hs : s.step n e = .ok s')
    (hp : (s.pc p).sleep = some (chan, lk)) (hback : (s'.pc p).sleep = none) :
    s'.cond lk = some p ∧ (s'.slots p).lock ≠ some (.proc p) := by
  obtain ⟨hrunning, hdead, hresume⟩ := Pc.ne_of_sleep hp
  by_cases he : ∃ c, e = .next p c
  case neg =>
    grind [step_other]
  case pos =>
    obtain ⟨c, rfl⟩ := he
    have hplace := (h.step ha hs).place p
    have hs : s.next n p c = .ok s' := hs
    have hnot {pc : Pc} (hpc : s'.pc p = pc) (hsome : pc.sleep ≠ none) :
        s'.cond lk = some p ∧ (s'.slots p).lock ≠ some (.proc p) := absurd (hpc ▸ hback) hsome
    cases hpc : s.pc p <;> rw [hpc] at hp <;> cases hp <;> rw [Sys.next, hpc] at hs
    case reacquire =>
      cases hs
      have hself : ((s.takeCond p lk).goto p .running).pc p = .running := update_self ..
      rw [hself] at hplace
      exact ⟨update_self .., hplace.2⟩
    case sleepSwitch =>
      dsimp only [Sys.switch] at hs
      split at hs <;> cases hs
      exact hnot (update_self ..) nofun
    case asleep =>
      cases hs
      exact hnot hpc nofun
    all_goals
      cases hs
      exact hnot (update_self ..) nofun

/-! ### Runs -/

structure NoLostWakeup (n : ℕ) (s : Sys) : Prop where
  /-- Whoever has released `lk` in `sleep(chan, lk)` when `wakeup(chan)` is called with `lk`
  held does not sleep on `chan` when it returns, whatever happens meanwhile. -/
  wakes : ∀ p q chan lk s₁ es s₂, s.Falling p chan lk → s.cond lk = some q → s.pc q = .running →
    s.step n (.wakeup q chan) = .ok s₁ → ((processes n).restrict fun s _ => (s.pc q).Waking chan).Proper s₁ es →
    (processes n).run s₁ es = .ok s₂ → s₂.pc q = .running →
    ¬ ((s₂.slots p).state = .sleeping ∧ (s₂.slots p).chan = chan)
  /-- `sleep` returns with `lk` and without `p->lock`. -/
  returns : ∀ p chan lk e s', (s.pc p).sleep = some (chan, lk) → s.allowed n e → s.step n e = .ok s' →
    (s'.pc p).sleep = none → s'.cond lk = some p ∧ (s'.slots p).lock ≠ some (.proc p)

theorem Inv.noLostWakeup (h : Inv n s) : NoLostWakeup n s := by
  constructor
  case wakes =>
    intro p q chan lk s₁ es s₂ hp hlk hq hcall hproper hrun hback
    have hwakes := Protocol.run_outcome (P := (processes n).restrict fun s _ => (s.pc q).Waking chan)
      (E := fun _ => True) (I := Wakes n p q chan lk) (fun e _ s h ha => ?_) (Wakes.call h hp hlk hq hcall) hproper
    · rw [Protocol.restrict_run, hrun] at hwakes
      have hdone : Wakes n p q chan lk s₂ := hwakes
      refine fun hsleeps => (hdone.past ?_).2 hsleeps.1
      rw [hback]
      trivial
    · show Outcome _ (s.step n e) _
      cases hs : s.step n e with
      | error err => trivial
      | ok s' => exact h.step ha.2 ha.1 hs
  case returns => exact fun p chan lk e s' hp ha hs hback => sleep_returns h ha hs hp hback

/-- **No wakeup is lost**, however processes and schedulers interleave. -/
theorem processes_no_lost_wakeup {es : List Event} (hp : (processes n).Proper .boot es)
    (hs : (processes n).run .boot es = .ok s) : NoLostWakeup n s := by
  have hrun := Protocol.run_outcome (E := fun _ => True) (I := Inv n) (fun e _ s h ha => ?_) Inv.boot hp
  · rw [hs] at hrun
    exact Inv.noLostWakeup hrun
  · show Outcome _ (s.step n e) _
    cases hs : s.step n e with
    | error err => trivial
    | ok s' => exact h.step ha hs

/-- Process 0 is about to sleep on 7 and has released lock 5, which process 1 holds. -/
def fallingAsleep : List Event :=
  [.sched 0, .sched 0, .next 0 0, .spawn 1, .sched 1, .sched 1, .sched 1, .sched 1, .next 1 1, .acquire 0 5, .sleep 0 7 5,
    .next 0 0, .next 0 0, .acquire 1 5]

/-- Process 1 wakes it up: it has to wait until the scheduler has released the lock. -/
def wakingUp : List Event := [.next 0 0, .next 0 0, .sched 0, .next 1 1, .next 1 1, .next 1 1, .next 1 1]

theorem processes_no_lost_wakeup_falling :
    ∃ s s₁ s₂, (processes 2).run .boot fallingAsleep = .ok s ∧ s.Falling 0 7 5 ∧ s.step 2 (.wakeup 1 7) = .ok s₁ ∧
      (processes 2).run s₁ wakingUp = .ok s₂ ∧ s₂.pc 0 = .asleep 7 5 ∧
      ¬ ((s₂.slots 0).state = .sleeping ∧ (s₂.slots 0).chan = 7) := by
  have hproper : (processes 2).Proper .boot fallingAsleep := by decide +kernel
  have hsees : ∃ s s₁ s₂, (processes 2).run .boot fallingAsleep = .ok s ∧ s.pc 0 = .sleepSet 7 5 ∧ s.cond 5 = some 1 ∧
      s.pc 1 = .running ∧ s.step 2 (.wakeup 1 7) = .ok s₁ ∧
      ((processes 2).restrict fun s _ => (s.pc 1).Waking 7).Proper s₁ wakingUp ∧
      (processes 2).run s₁ wakingUp = .ok s₂ ∧ s₂.pc 1 = .running ∧ s₂.pc 0 = .asleep 7 5 :=
    ⟨_, _, _, rfl, rfl, rfl, rfl, rfl, by decide +kernel, rfl, rfl, rfl⟩
  obtain ⟨s, s₁, s₂, hs, hp, hlk, hq, hcall, hwaking, hrun, hback, hasleep⟩ := hsees
  exact ⟨s, s₁, s₂, hs, .inl hp, hcall, hrun, hasleep,
    (processes_no_lost_wakeup hproper hs).wakes 0 1 7 5 s₁ wakingUp s₂ (.inl hp) hlk hq hcall hwaking hrun hback⟩

end Xv6.Sleep
