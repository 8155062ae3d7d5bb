import Xv6.Proc.Family

/-! What a pid stands for.

`allocpid` counts up and never looks at the pids in use, and `kkill` goes by the pid
alone. So pids are different from each other only as long as the counter has not wrapped
around (`processes_pids`, `pids_collide`). And since an `UNUSED` slot has the pid 0,
`kkill(0)` kills whoever is created in that slot next (`processes_intended`,
`kkill_zero_hits_unborn`).

Both results are read off `Turn`, which says what a step can do to a slot. -/
namespace Xv6.Proc
open Function
open Vm (ProcState)

variable {p q i j np addr : ℕ} {pid status : ℤ} {s s' : Sys} {e : Event} {memory copied : Bool} {f : Slot → Slot}
  {chan : Chan} {pc : Pc} {slot slot' slot'' : Slot}

/-- The slot has the process it had, and nobody has tried to kill it. -/
structure Keeps (slot slot' : Slot) : Prop where
  pid : slot'.pid = slot.pid
  born : slot'.born = slot.born
  killed : slot'.killed = slot.killed
  causes : slot'.causes = slot.causes
  unused : slot'.state = .unused ↔ slot.state = .unused

/-- What a step can do to a slot. -/
inductive Turn (s : Sys) : Event → Slot → Slot → Prop where
  | keeps {e : Event} {slot slot' : Slot} : Keeps slot slot' → Turn s e slot slot'
  /-- `allocproc` takes the slot for a new process. -/
  | alloc {p : ℕ} {slot : Slot} : slot.state = .unused →
      Turn s (.scan p true) slot (slot.alloc s.nextpid s.births)
  | free {e : Event} {slot slot' : Slot} : Turn s e slot slot'.free
  /-- `kkill`, whether it has found this slot or not. -/
  | kkill {p : ℕ} {pid : ℤ} {slot slot' : Slot} : Keeps {slot with causes := .kkill pid :: slot.causes} slot' →
      Turn s (.kkill p pid) slot slot'
  | killed {p : ℕ} {pid : ℤ} {slot slot' : Slot} : slot.pid = pid →
      Keeps {slot with killed := 1, causes := .kkill pid :: slot.causes} slot' → Turn s (.kkill p pid) slot slot'
  | setkilled {p : ℕ} {slot : Slot} : slot.state ≠ .unused →
      Turn s (.setkilled p) slot {slot with killed := 1, causes := .setkilled :: slot.causes}

def Counts (s : Sys) (e : Event) (s' : Sys) : Prop :=
  s'.nextpid = s.nextpid ∧ s'.births = s.births ∨
    (∃ p memory, e = .scan p memory) ∧ s'.nextpid = int32 (s.nextpid + 1) ∧ s'.births = s.births + 1

/-! ### Every step -/

theorem Keeps.refl (slot : Slot) : Keeps slot slot := ⟨rfl, rfl, rfl, rfl, .rfl⟩

theorem Keeps.trans (h : Keeps slot slot') (h' : Keeps slot' slot'') : Keeps slot slot'' where
  pid := h'.pid.trans h.pid
  born := h'.born.trans h.born
  killed := h'.killed.trans h.killed
  causes := h'.causes.trans h.causes
  unused := h'.unused.trans h.unused

theorem turn_update (hslots : s'.slots = update s.slots i slot') (hturn : Turn s e (s.slots i) slot') (j : ℕ) :
    Turn s e (s.slots j) (s'.slots j) := by
  rw [hslots]
  by_cases hj : j = i
  · grind
  · rw [update_of_ne hj]
    exact .keeps (.refl _)

theorem wakeup_keeps (s : Sys) (p : ℕ) (chan : Chan) (i : ℕ) : Keeps (s.slots i) ((s.wakeup p chan).slots i) := by
  simp only [Sys.wakeup, Sys.mapSlots]
  split
  case isTrue hcond =>
    refine ⟨rfl, rfl, rfl, rfl, iff_of_false (by simp) ?_⟩
    rw [hcond.2.1]
    decide
  case isFalse => exact .refl _

theorem wakeupParent_keeps (s : Sys) (p i : ℕ) : Keeps (s.slots i) ((s.wakeupParent p).slots i) := by
  grind [wakeup_keeps, Keeps.refl, Sys.wakeupParent]

theorem reparent_keeps (s : Sys) (p i : ℕ) : Keeps (s.slots i) ((s.reparent p).slots i) := by
  have hgiven : Keeps (s.slots i) ((s.mapSlots fun _ slot =>
      if slot.parent = some p then {slot with parent := some s.initproc} else slot).slots i) := by
    simp only [Sys.mapSlots]
    split <;> exact ⟨rfl, rfl, rfl, rfl, .rfl⟩
  unfold Sys.reparent
  split
  case isTrue => exact hgiven.trans (wakeup_keeps ..)
  case isFalse => exact hgiven

theorem exit_counts : ((s.reparent p).wakeupParent p).nextpid = s.nextpid ∧
    ((s.reparent p).wakeupParent p).births = s.births := by
  unfold Sys.wakeupParent Sys.reparent
  split <;> split <;> exact ⟨rfl, rfl⟩

theorem found_turn (hi : (s.slots i).state = .unused) (j : ℕ) :
    Turn s (.scan p memory) (s.slots j) ((s.found p i memory).slots j) := by
  cases memory with
  | true => exact turn_update rfl (.alloc hi) j
  | false =>
    show Turn _ _ _ ((Sys.setSlot _ i Slot.free).slots j)
    by_cases hj : j = i
    · rw [hj, setSlot_self]
      exact .free
    · rw [setSlot_of_ne hj]
      show Turn _ _ _ ((Sys.setSlot _ i _).slots j)
      rw [setSlot_of_ne hj]
      exact .keeps (.refl _)

theorem found_counts : Counts s (.scan p memory) (s.found p i memory) := by
  refine .inr ⟨⟨p, memory, rfl⟩, ?_⟩
  cases memory <;> exact ⟨rfl, rfl⟩

theorem scan_turn : (∀ j, Turn s (.scan p memory) (s.slots j) ((s.scan p i memory).slots j)) ∧
    Counts s (.scan p memory) (s.scan p i memory) := by
  unfold Sys.scan
  split
  case isTrue =>
    split
    case isTrue hi => exact ⟨found_turn hi, found_counts⟩
    case isFalse => exact ⟨fun _ => .keeps (.refl _), .inl ⟨rfl, rfl⟩⟩
  case isFalse => exact ⟨fun _ => .keeps (.refl _), .inl ⟨rfl, rfl⟩⟩

theorem kwait_turn (hp : (s.slots p).state = .running) :
    (∀ j, Turn s (.kwait p addr copied) (s.slots j) ((s.kwait p addr copied).slots j)) ∧
      Counts s (.kwait p addr copied) (s.kwait p addr copied) := by
  unfold Sys.kwait
  split
  case h_1 i _ => exact ⟨turn_update rfl .free, .inl ⟨rfl, rfl⟩⟩
  case h_2 | h_3 | h_4 => exact ⟨fun _ => .keeps (.refl _), .inl ⟨rfl, rfl⟩⟩
  case h_5 =>
    refine ⟨turn_update rfl (.keeps ⟨rfl, rfl, rfl, rfl, iff_of_false nofun ?_⟩), .inl ⟨rfl, rfl⟩⟩
    rw [hp]
    nofun

theorem victim_pid (h : s.victim pid = some i) : (s.slots i).pid = pid := by
  have hfound := List.find?_some (p := fun i => decide ((s.slots i).pid = pid)) h
  exact of_decide_eq_true hfound

theorem kkill_turn (j : ℕ) : Turn s (.kkill p pid) (s.slots j) ((s.kkill pid).2.slots j) := by
  unfold Sys.kkill
  split
  case h_1 i hvictim =>
    by_cases hj : j = i
    · rw [hj, setSlot_self]
      refine .killed (victim_pid hvictim) ⟨rfl, rfl, rfl, rfl, ?_⟩
      show (if (s.slots i).state = .sleeping then _ else (s.slots i).state) = _ ↔ (s.slots i).state = _
      grind
    · rw [setSlot_of_ne hj]
      exact .kkill (.refl _)
  case h_2 => exact .kkill (.refl _)

theorem kkill_counts : Counts s (.kkill p pid) (s.kkill pid).2 := by
  unfold Sys.kkill
  split <;> exact .inl ⟨rfl, rfl⟩

theorem kexit_turn (hp : (s.slots p).state = .running) (h : s.kexit p status = .ok s') :
    (∀ j, Turn s (.kexit p status) (s.slots j) (s'.slots j)) ∧ Counts s (.kexit p status) s' := by
  unfold Sys.kexit at h
  split at h
  case isTrue => cases h
  case isFalse =>
    cases h
    have hbefore : ∀ j, Keeps (s.slots j) (((s.reparent p).wakeupParent p).slots j) := fun j =>
      (reparent_keeps s p j).trans (wakeupParent_keeps _ p j)
    refine ⟨fun j => .keeps ?_, .inl exit_counts⟩
    by_cases hj : j = p
    · rw [hj, setSlot_self]
      have hkeeps := hbefore p
      refine ⟨hkeeps.pid, hkeeps.born, hkeeps.killed, hkeeps.causes, iff_of_false nofun ?_⟩
      rw [hp]
      nofun
    · rw [setSlot_of_ne hj]
      exact hbefore j

theorem step_turn (h : Family s) (ha : s.allowed e) (hs : s.step e = .ok s') :
    (∀ i, Turn s e (s.slots i) (s'.slots i)) ∧ Counts s e s' := by
  have hlive {i : ℕ} {state : ProcState} (hi : (s.slots i).state = state) (hne : state ≠ .unused) :
      (s.slots i).state ≠ .unused := hi ▸ hne
  have hsame : (∀ i, Turn s e (s.slots i) (s.slots i)) ∧ Counts s e s :=
    ⟨fun _ => .keeps (.refl _), .inl ⟨rfl, rfl⟩⟩
  cases e with
  | kfork p =>
    cases hs
    exact hsame
  | scan p memory =>
    grind [scan_turn, Sys.step]
  | link p =>
    rw [Sys.step] at hs
    split at hs <;> cases hs
    · exact ⟨turn_update rfl (.keeps ⟨rfl, rfl, rfl, rfl, .rfl⟩), .inl ⟨rfl, rfl⟩⟩
    · exact hsame
  | start p =>
    rw [Sys.step] at hs
    split at hs <;> cases hs
    case h_1 np pid hpc =>
      -- the new process is `USED`
      have hused := hlive (h.creating p np (by rw [hpc]; rfl)).1 (by decide)
      exact ⟨turn_update rfl (.keeps ⟨rfl, rfl, rfl, rfl, iff_of_false (by simp) hused⟩), .inl ⟨rfl, rfl⟩⟩
    case h_2 => exact hsame
  | kexit p status => exact kexit_turn ha.1.2.1 hs
  | kwait p addr copied =>
    cases hs
    exact kwait_turn ha.2.1
  | kkill p pid =>
    cases hs
    exact ⟨kkill_turn, kkill_counts⟩
  | setkilled p =>
    cases hs
    exact ⟨turn_update rfl (.setkilled (hlive ha.2.1 (by decide))), .inl ⟨rfl, rfl⟩⟩
  | schedule p | yield p =>
    cases hs
    exact ⟨turn_update rfl (.keeps ⟨rfl, rfl, rfl, rfl, iff_of_false (by simp) (hlive ha.2 (by decide))⟩), .inl ⟨rfl, rfl⟩⟩
  | sleep p chan =>
    cases hs
    exact ⟨turn_update rfl (.keeps ⟨rfl, rfl, rfl, rfl, iff_of_false (by simp) (hlive ha.2.1 (by decide))⟩), .inl ⟨rfl, rfl⟩⟩
  | wakeup p chan =>
    cases hs
    exact ⟨fun j => .keeps (wakeup_keeps s p chan j), .inl ⟨rfl, rfl⟩⟩

/-! ### Pids -/

/-- The pid of a process follows from its number. -/
structure Numbered (s : Sys) : Prop where
  nextpid : s.nextpid = int32 (s.births + 1)
  pid : ∀ i, (s.slots i).state ≠ .unused → (s.slots i).pid = int32 ((s.slots i).born + 1)

theorem int32_succ (x : ℤ) : int32 (int32 x + 1) = int32 (x + 1) := Int.bmod_add_bmod

theorem Numbered.step (h : Numbered s) (hturn : ∀ i, Turn s e (s.slots i) (s'.slots i)) (hcounts : Counts s e s') :
    Numbered s' := by
  constructor
  case nextpid =>
    rcases hcounts with ⟨hnext, hbirths⟩ | ⟨_, hnext, hbirths⟩
    · rw [hnext, hbirths]
      exact h.nextpid
    · rw [hnext, hbirths, h.nextpid, int32_succ]
      rfl
  case pid =>
    intro i hi
    have hkeeps {slot : Slot} (hk : Keeps slot (s'.slots i)) (hpid : slot.pid = (s.slots i).pid)
        (hborn : slot.born = (s.slots i).born) (hstate : slot.state = (s.slots i).state) :
        (s'.slots i).pid = int32 ((s'.slots i).born + 1) := by
      rw [hk.pid, hk.born, hpid, hborn]
      exact h.pid i (hstate ▸ mt hk.unused.mpr hi)
    generalize hnew : s'.slots i = slot' at hi hkeeps
    generalize hold : s.slots i = slot at hkeeps
    have ht := hturn i
    rw [hnew, hold] at ht
    cases ht with
    | keeps hk => exact hkeeps hk rfl rfl rfl
    | alloc => exact h.nextpid
    | free => exact absurd rfl hi
    | kkill hk => exact hkeeps hk rfl rfl rfl
    | killed _ hk => exact hkeeps hk rfl rfl rfl
    | setkilled hs =>
      rw [← hold] at hs ⊢
      exact h.pid i hs

theorem Numbered.boot : Numbered .boot := by
  refine ⟨by decide, fun i hi => ?_⟩
  by_cases h0 : i = 0
  · rw [h0]
    decide
  · refine absurd ?_ hi
    simp only [Sys.boot, update_of_ne h0]
    rfl

/-- `nextpid` has not wrapped around when `allocproc` is about to look at a slot. -/
def Sys.PidsLeft (s : Sys) : Event → Prop
  | .scan _ _ => 0 < s.nextpid
  | _ => True

instance (s : Sys) : ∀ e, Decidable (s.PidsLeft e)
  | .scan .. => inferInstanceAs (Decidable (_ < _))
  | .kfork .. | .link .. | .start .. | .kexit .. | .kwait .. | .kkill .. | .setkilled .. | .schedule .. | .yield ..
  | .sleep .. | .wakeup .. => .isTrue trivial

/-- What holds as long as there are pids left. -/
structure Few (s : Sys) : Prop where
  family : Family s
  numbered : Numbered s
  births : s.births < 2 ^ 31

theorem Few.step (h : Few s) (ha : s.allowed e) (hleft : s.PidsLeft e) :
    Outcome (fun _ => False) (s.step e) Few := by
  have hfamily := h.family.step ha
  cases hs : s.step e with
  | error err =>
    rw [hs] at hfamily
    exact hfamily
  | ok s' =>
    rw [hs] at hfamily
    obtain ⟨hturn, hcounts⟩ := step_turn h.family ha hs
    refine ⟨hfamily, h.numbered.step hturn hcounts, ?_⟩
    have hbirths := h.births
    rcases hcounts with ⟨_, hsame⟩ | ⟨⟨p, memory, rfl⟩, _, hnew⟩
    · rw [hsame]
      exact hbirths
    · -- the last pid is 2^31 - 1; the next one would be negative
      have hpos : 0 < int32 (s.births + 1) := h.numbered.nextpid ▸ hleft
      have hne : s.births + 1 ≠ 2 ^ 31 := fun heq => by
        rw [show (s.births : ℤ) + 1 = 2 ^ 31 by omega] at hpos
        exact absurd hpos (by decide)
      omega

theorem Few.pid_eq (h : Few s) (hi : (s.slots i).state ≠ .unused) : (s.slots i).pid = (s.slots i).born + 1 := by
  have hborn := (h.family.born i hi).1
  have hbirths := h.births
  rw [h.numbered.pid i hi]
  exact int32_of_lt (n := (s.slots i).born + 1) (by omega)

/-- **Pids are unique** as long as `nextpid` has not wrapped around. -/
theorem processes_pids {es : List Event} (hp : (processes.restrict Sys.PidsLeft).Proper .boot es) :
    ∃ s, processes.run .boot es = .ok s ∧ (∀ i, (s.slots i).state ≠ .unused → 0 < (s.slots i).pid) ∧
      ∀ i j, i ≠ j → (s.slots i).state ≠ .unused → (s.slots j).state ≠ .unused →
        (s.slots i).pid ≠ (s.slots j).pid := by
  have hstart : Few .boot := ⟨.boot, .boot, by decide⟩
  have hrun := Protocol.run_outcome (P := processes.restrict Sys.PidsLeft)
    (fun _ _ _ h ha => Few.step h ha.1 ha.2) hstart hp
  rw [Protocol.restrict_run] at hrun
  obtain ⟨s, hs, h⟩ := Outcome.total.mp hrun
  refine ⟨s, hs, fun i hi => ?_, fun i j hne hi hj heq => hne (h.family.distinct i j hi hj ?_)⟩
  · rw [h.pid_eq hi]
    omega
  · rw [h.pid_eq hi, h.pid_eq hj] at heq
    omega

def forking : List Event := [.schedule 0, .kfork 0, .scan 0 true, .scan 0 true, .link 0, .start 0]

theorem processes_pids_forking :
    ∃ s, processes.run .boot forking = .ok s ∧ (s.slots 0).state = .running ∧ (s.slots 1).state = .runnable ∧
      (s.slots 0).pid ≠ (s.slots 1).pid := by
  have hproper : (processes.restrict Sys.PidsLeft).Proper .boot forking := by decide +kernel
  have hsees : (processes.run .boot forking).toOption.map (fun s => ((s.slots 0).state, (s.slots 1).state)) =
      some (.running, .runnable) := by decide +kernel
  obtain ⟨s, hs, _, hunique⟩ := processes_pids hproper
  rw [hs] at hsees
  obtain ⟨hzero, hone⟩ := Prod.mk.inj (Option.some.inj hsees)
  refine ⟨s, hs, hzero, hone, hunique 0 1 (by decide) ?_ ?_⟩
  · rw [show (s.slots 0).state = .running from hzero]
    nofun
  · rw [show (s.slots 1).state = .runnable from hone]
    nofun

/-- `initproc` runs and is alone, and the next process gets a given pid. -/
structure Alone (s : Sys) (next : ℤ) : Prop where
  pc : s.pc 0 = .running
  running : (s.slots 0).state = .running
  pid : (s.slots 0).pid = 1
  unused : (s.slots 1).state = .unused
  nextpid : s.nextpid = next

theorem Alone.kfork (h : Alone s pid) (memory : Bool) :
    processes.Reaches s (((s.goto 0 (.scanning 0)).goto 0 (.scanning 1)).found 0 1 memory) := by
  have hscan : ∀ (s' : Sys) i memory, s'.pc 0 = .scanning i →
      processes.step s' (.scan 0 memory) = .ok (s'.scan 0 i memory) := fun s' i memory hpc => by
    show s'.step (.scan 0 memory) = _
    rw [Sys.step, hpc]
  have hzero : (s.goto 0 (.scanning 0)).scan 0 0 memory = (s.goto 0 (.scanning 0)).goto 0 (.scanning 1) := by
    rw [Sys.scan, if_pos (by decide), if_neg]
    show (s.slots 0).state ≠ _
    rw [h.running]
    decide
  have hone : ((s.goto 0 (.scanning 0)).goto 0 (.scanning 1)).scan 0 1 memory =
      ((s.goto 0 (.scanning 0)).goto 0 (.scanning 1)).found 0 1 memory := by
    rw [Sys.scan, if_pos (by decide), if_pos]
    exact h.unused
  refine .head (c := Event.kfork 0) ⟨by decide, h.running, h.pc⟩ rfl ?_
  refine .head (c := Event.scan 0 memory) ⟨by decide, h.running⟩ (hscan _ 0 _ goto_self) ?_
  rw [hzero]
  refine .head (c := Event.scan 0 memory) ⟨by decide, h.running⟩ (hscan _ 1 _ goto_self) ?_
  rw [hone]
  exact .refl _

theorem Alone.fails (h : Alone s pid) : ∃ s', processes.Reaches s s' ∧ Alone s' (int32 (pid + 1)) := by
  refine ⟨_, h.kfork false, goto_self, h.running, h.pid, ?_, ?_⟩
  · show ((Sys.setSlot _ 1 Slot.free).slots 1).state = _
    rw [setSlot_self]
    rfl
  · show int32 (s.nextpid + 1) = _
    rw [h.nextpid]

theorem alone_after (k : ℕ) : ∃ s, processes.Reaches .boot s ∧ Alone s (int32 (2 + k)) := by
  induction k with
  | zero =>
    refine ⟨_, .head (c := Event.schedule 0) ⟨by decide, rfl⟩ rfl (.refl _), rfl, rfl, rfl, rfl, ?_⟩
    decide
  | succ k ih =>
    grind [Alone.fails, Protocol.Reaches.trans, int32_succ]

/-- After 2^32 - 1 failed calls of `kfork`, `initproc` and its child have the same pid. -/
theorem pids_collide :
    ∃ s, processes.Reaches .boot s ∧ (s.slots 0).state = .running ∧ (s.slots 1).state = .used ∧
      (s.slots 0).pid = (s.slots 1).pid := by
  obtain ⟨s, hs, h⟩ := alone_after (2 ^ 32 - 1)
  refine ⟨_, hs.trans (h.kfork true), h.running, ?_, ?_⟩
  · show ((Sys.setSlot _ 1 _).slots 1).state = _
    rw [setSlot_self]
    rfl
  · show (s.slots 0).pid = ((Sys.setSlot _ 1 _).slots 1).pid
    rw [setSlot_self, h.pid]
    show 1 = s.nextpid
    rw [h.nextpid]
    decide

/-! ### Who is killed -/

/-- Somebody meant to kill whoever is killed. -/
structure Justified (slot : Slot) : Prop where
  unused : slot.state = .unused → slot.pid = 0 ∧ slot.killed = 0
  killed : slot.killed ≠ 0 → .kkill slot.pid ∈ slot.causes ∨ .setkilled ∈ slot.causes

theorem Justified.keeps (h : Justified slot) (hk : Keeps slot slot') : Justified slot' := by
  constructor
  case unused =>
    rw [hk.unused, hk.pid, hk.killed]
    exact h.unused
  case killed =>
    rw [hk.pid, hk.killed, hk.causes]
    exact h.killed

def Sys.NonzeroPid (_ : Sys) : Event → Prop
  | .kkill _ pid => pid ≠ 0
  | _ => True

instance (s : Sys) : ∀ e, Decidable (s.NonzeroPid e)
  | .kkill .. => inferInstanceAs (Decidable (_ ≠ _))
  | .kfork .. | .scan .. | .link .. | .start .. | .kexit .. | .kwait .. | .setkilled .. | .schedule .. | .yield ..
  | .sleep .. | .wakeup .. => .isTrue trivial

theorem Justified.turn (h : Justified slot) (ht : Turn s e slot slot') (he : s.NonzeroPid e) : Justified slot' := by
  cases ht with
  | keeps hk => exact h.keeps hk
  | alloc hs =>
    -- `allocproc` does not clear `killed`: `freeproc` has done so
    exact ⟨nofun, fun hk => absurd (h.unused hs).2 hk⟩
  | free => exact ⟨fun _ => ⟨rfl, rfl⟩, fun hk => absurd rfl hk⟩
  | @kkill _ pid _ _ hk =>
    have hnoted : Justified {slot with causes := .kkill pid :: slot.causes} :=
      ⟨h.unused, fun hkilled => (h.killed hkilled).imp (List.mem_cons_of_mem _) (List.mem_cons_of_mem _)⟩
    exact hnoted.keeps hk
  | @killed _ pid _ _ hpid hk =>
    have hhit : Justified {slot with killed := 1, causes := .kkill pid :: slot.causes} := by
      constructor
      case unused =>
        -- an unused slot has the pid 0
        exact fun hs => absurd (hpid.symm.trans (h.unused hs).1) he
      grind
    exact hhit.keeps hk
  | setkilled hs => exact ⟨fun hs' => absurd hs' hs, fun _ => .inr (List.mem_cons_self ..)⟩

/-- Only the intended process is killed. -/
structure Intended (s : Sys) : Prop where
  /-- A process is killed only if `kkill` was called with its pid, or `setkilled` on it,
  since it was created. -/
  killed : ∀ i, (s.slots i).state ≠ .unused → (s.slots i).killed ≠ 0 →
    .kkill (s.slots i).pid ∈ (s.slots i).causes ∨ .setkilled ∈ (s.slots i).causes
  /-- The process that `kfork` creates starts with `killed` 0. -/
  starts : ∀ p i, s.pc p = .scanning i → i < nproc → (s.slots i).state = .unused →
    ((s.scan p i true).slots i).state = .used ∧ ((s.scan p i true).slots i).killed = 0
  /-- `kkill` returns 0 only if there is such a process. -/
  returns : ∀ pid, pid ≠ 0 → (s.kkill pid).1 = 0 → ∃ i, (s.slots i).state ≠ .unused ∧ (s.slots i).pid = pid

theorem Intended.of_justified (h : ∀ i, Justified (s.slots i)) : Intended s := by
  constructor
  case killed => exact fun i _ => (h i).killed
  case starts =>
    intro p i _ hi hs
    rw [Sys.scan, if_pos hi, if_pos hs]
    show Slot.state ((Sys.setSlot _ i _).slots i) = _ ∧ Slot.killed ((Sys.setSlot _ i _).slots i) = _
    rw [setSlot_self]
    exact ⟨rfl, ((h i).unused hs).2⟩
  case returns =>
    intro pid hpid hzero
    unfold Sys.kkill at hzero
    split at hzero
    case h_1 i hvictim =>
      refine ⟨i, fun hs => hpid ?_, victim_pid hvictim⟩
      rw [← victim_pid hvictim]
      exact ((h i).unused hs).1
    case h_2 => cases hzero

/-- **Only the intended process is killed**, if nobody calls `kkill(0)`. -/
theorem processes_intended {es : List Event} (hp : (processes.restrict Sys.NonzeroPid).Proper .boot es) :
    ∃ s, processes.run .boot es = .ok s ∧ Intended s := by
  have hstart : Family .boot ∧ ∀ i, Justified (Sys.boot.slots i) := by
    refine ⟨.boot, fun i => ?_⟩
    by_cases h0 : i = 0
    · rw [h0]
      exact ⟨nofun, fun hk => absurd rfl hk⟩
    · simp only [Sys.boot, update_of_ne h0]
      exact ⟨fun _ => ⟨rfl, rfl⟩, fun hk => absurd rfl hk⟩
  have hrun := Protocol.run_outcome (P := processes.restrict Sys.NonzeroPid) (E := fun _ => False)
    (I := fun s => Family s ∧ ∀ i, Justified (s.slots i)) (fun e _ s h ha => ?_) hstart hp
  · rw [Protocol.restrict_run] at hrun
    exact Outcome.total.mp (hrun.mono fun _ h => .of_justified h.2)
  · have hfamily := h.1.step ha.1
    show Outcome _ (s.step e) _
    cases hs : s.step e with
    | error err =>
      rw [hs] at hfamily
      exact hfamily
    | ok s' =>
      rw [hs] at hfamily
      have hturn := (step_turn h.1 ha.1 hs).1
      exact ⟨hfamily, fun i => (h.2 i).turn (hturn i) ha.2⟩

/-- `initproc` kills its child. -/
theorem processes_intended_killing :
    ∃ s, processes.run .boot (forking ++ [.kkill 0 2]) = .ok s ∧ (s.slots 0).killed = 0 ∧ (s.slots 1).killed = 1 ∧
      Intended s := by
  have hproper : (processes.restrict Sys.NonzeroPid).Proper .boot (forking ++ [.kkill 0 2]) := by decide +kernel
  have hsees : (processes.run .boot (forking ++ [.kkill 0 2])).toOption.map
      (fun s => ((s.slots 0).killed, (s.slots 1).killed)) = some (0, 1) := by decide +kernel
  obtain ⟨s, hs, hintended⟩ := processes_intended hproper
  rw [hs] at hsees
  obtain ⟨hzero, hone⟩ := Prod.mk.inj (Option.some.inj hsees)
  exact ⟨s, hs, hzero, hone, hintended⟩

/-- `kkill(0)` returns 0 although no process has the pid 0, and the next process starts
killed. -/
theorem kkill_zero_hits_unborn :
    processes.Proper .boot [.schedule 0, .kkill 0 0, .kfork 0, .scan 0 true, .scan 0 true] ∧
      (processes.run .boot [.schedule 0]).toOption.map
        (fun s => ((s.kkill 0).1, decide (∃ i < nproc, (s.slots i).state ≠ .unused ∧ (s.slots i).pid = 0))) =
          some (0, false) ∧
      (processes.run .boot [.schedule 0, .kkill 0 0, .kfork 0, .scan 0 true, .scan 0 true]).toOption.map
        (fun s => ((s.slots 1).state, (s.slots 1).killed, (s.slots 1).causes)) = some (.used, 1, []) := by
  refine ⟨by decide +kernel, by decide +kernel, by decide +kernel⟩

end Xv6.Proc
