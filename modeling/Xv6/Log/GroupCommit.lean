import Mathlib.Algebra.Order.BigOperators.Group.Finset
import Xv6.Log.Model

/-! Many processes and one log.

Processes run operations: `begin_op`, some `log_write`s, `end_op`, in any order (`processes`). The
one whose `end_op` leaves no operation outstanding commits without the lock: all that was logged since
the last commit, and no operation runs beside it (`processes_groupCommit`).

`begin_op` reserves `MAXOPBLOCKS` blocks for each operation. Still `log_write` may panic: it tests for
a full log before it looks whether the block is there already (`logWrite_panics`). It does not when
operations that have logged `MAXOPBLOCKS` blocks log no more (`processes_reserve`). -/
namespace Xv6.Log

open Function

inductive Pc where
  | idle
  | asleep
  /-- In an operation, with the blocks that it has logged, each of them once. -/
  | inOp (logged : List ℕ)
  | commit (stage : Stage)
  deriving DecidableEq

/-- The blocks that the operation of a process has logged, if it is in one. -/
def Pc.logged : Pc → Option (List ℕ)
  | .inOp logged => some logged
  | _ => none

def Pc.stage : Pc → Option Stage
  | .commit stage => some stage
  | _ => none

structure Sys where
  log : State
  /-- The blocks that the header on disk names. -/
  header : List ℕ
  pc : ℕ → Pc
  /-- The operations that have ended since the last commit, each with what it logged. -/
  ended : List (List ℕ)

inductive Event where
  | beginOp (p : ℕ)
  | logWrite (p b : ℕ)
  | endOp (p : ℕ)
  | next (p : ℕ)
  deriving DecidableEq

namespace Sys

def start : Sys := ⟨⟨[], 0, false⟩, [], fun _ => .idle, []⟩

def goto (s : Sys) (p : ℕ) (pc : Pc) : Sys := {s with pc := update s.pc p pc}

/-- What a stage of `commit` does to the log and its header. -/
def doStage (s : Sys) : Stage → Sys
  | .test | .writeLog _ | .installTrans _ => s
  | .writeHead => {s with header := s.log.lh}
  | .erase => {s with log := {s.log with lh := []}, header := []}
  | .finish => {s with log := {s.log with committing := false}, ended := []}

def step (s : Sys) : Event → Except Panic Sys
  | .beginOp p =>
    match beginOp s.log with
    | none => .ok (s.goto p .asleep)
    | some log => .ok ({s with log := log}.goto p (.inOp []))
  | .logWrite p b => do
    let (_, log) ← logWrite b s.log
    return {s with log := log}.goto p (.inOp (((s.pc p).logged.getD []).insert b))
  | .endOp p => do
    let (commit, log) ← endOp s.log
    let s' := {s with log := log, ended := s.ended ++ [(s.pc p).logged.getD []]}
    return s'.goto p (if commit then .commit .test else .idle)
  | .next p =>
    match s.pc p with
    | .commit .finish => .ok ((s.doStage .finish).goto p .idle)
    | .commit stage => .ok ((s.doStage stage).goto p (.commit (stage.next s.log.lh.length)))
    | _ => .ok s

/-- A process logs blocks and ends an operation only in one. -/
def allowed (s : Sys) : Event → Prop
  | .beginOp p => s.pc p = .idle ∨ s.pc p = .asleep
  | .logWrite p _ | .endOp p => (s.pc p).logged.isSome
  | .next p => (s.pc p).stage.isSome

instance (s : Sys) : ∀ e, Decidable (s.allowed e)
  | .beginOp _ => inferInstanceAs (Decidable (_ ∨ _))
  | .logWrite _ _ | .endOp _ | .next _ => inferInstanceAs (Decidable (_ = true))

end Sys

/-- Operations of any processes, in any order. -/
def processes : Protocol Panic Sys Event := ⟨Sys.step, Sys.allowed⟩

instance (s : Sys) (e : Event) : Decidable (processes.allowed s e) :=
  inferInstanceAs (Decidable (s.allowed e))

/-! ### Who commits, and what -/

variable {s : Sys} {p q b : ℕ} {e : Event} {stage : Stage} {w : List ℕ}

theorem logged_isSome : (s.pc p).logged.isSome ↔ ∃ w, s.pc p = .inOp w := by
  cases s.pc p <;> simp [Pc.logged]

theorem stage_isSome : (s.pc p).stage.isSome ↔ ∃ stage, s.pc p = .commit stage := by
  cases s.pc p <;> simp [Pc.stage]

@[simp] theorem goto_self (pc : Pc) : (s.goto p pc).pc p = pc := update_self ..

theorem goto_of_ne (pc : Pc) (h : q ≠ p) : (s.goto p pc).pc q = s.pc q := update_of_ne h ..

theorem goto_eq {pc pc' : Pc} (h : (s.goto p pc).pc q = pc') (hne : pc ≠ pc') :
    q ≠ p ∧ s.pc q = pc' := by
  grind [goto_self, goto_of_ne]

theorem goto_iff {pc pc' : Pc} (hold : s.pc p ≠ pc') (hnew : pc ≠ pc') :
    (s.goto p pc).pc q = pc' ↔ s.pc q = pc' := by
  grind [goto_self, goto_of_ne]

theorem step_logWrite (hp : s.pc p = .inOp w) (hroom : s.log.lh.length < logBlocks)
    (hop : 1 ≤ s.log.outstanding) :
    s.step (.logWrite p b) = .ok ({s with
      log := {s.log with lh := if b ∈ s.log.lh then s.log.lh else s.log.lh ++ [b]}}.goto
        p (.inOp (w.insert b))) := by
  rw [Sys.step, logWrite_eq b hroom hop, hp]
  rfl

theorem step_endOp (hp : s.pc p = .inOp w) (hc : s.log.committing = false) :
    s.step (.endOp p) = .ok ({s with
      log := ⟨s.log.lh, s.log.outstanding - 1, decide (s.log.outstanding = 1)⟩
      ended := s.ended ++ [w]}.goto p (if s.log.outstanding = 1 then .commit .test else .idle)) := by
  rw [Sys.step, endOp_eq hc, hp]
  by_cases hlast : s.log.outstanding = 1
  · rw [if_pos hlast, decide_eq_true hlast]
    rfl
  · rw [if_neg hlast, decide_eq_false hlast]
    rfl

theorem step_next (hp : s.pc p = .commit stage) (hne : stage ≠ .finish) : s.step (.next p) =
      .ok ((s.doStage stage).goto p (.commit (stage.next s.log.lh.length))) := by
  simp only [Sys.step, hp]

theorem step_finish (hp : s.pc p = .commit .finish) :
    s.step (.next p) = .ok ((s.doStage .finish).goto p .idle) := by
  simp only [Sys.step, hp]

/-- `outstanding` counts the processes in operations. -/
def Counts (s : Sys) (ps : Finset ℕ) : Prop :=
  (∀ p, p ∈ ps ↔ ∃ w, s.pc p = .inOp w) ∧ (ps.card : ℤ) = s.log.outstanding

structure Inv (s : Sys) : Prop where
  counts : ∃ ps, Counts s ps
  committing : ∀ {p stage}, s.pc p = .commit stage → s.log.committing = true
  committer : s.log.committing = true → ∃ p stage, s.pc p = .commit stage
  alone : ∀ {p q stage stage'}, s.pc p = .commit stage → s.pc q = .commit stage' → p = q
  quiet : s.log.committing = true → s.log.outstanding = 0
  nodup : s.log.lh.Nodup
  logged : (∀ p, s.pc p ≠ .commit .finish) → ∀ b,
    b ∈ s.log.lh ↔ (∃ w ∈ s.ended, b ∈ w) ∨ ∃ p w, s.pc p = .inOp w ∧ b ∈ w
  erased : ∀ {p}, s.pc p = .commit .finish → s.log.lh = []
  header : ∀ {p tail}, s.pc p = .commit (.installTrans tail) → s.header = s.log.lh

namespace Inv

theorem start : Inv Sys.start where
  counts := ⟨∅, fun p => ⟨fun h => absurd h (Finset.notMem_empty p), fun ⟨_, h⟩ => by cases h⟩, rfl⟩
  committing h := by cases h
  committer h := by cases h
  alone h := by cases h
  quiet h := by cases h
  nodup := List.nodup_nil
  logged _ b := by
    refine ⟨fun h => absurd h List.not_mem_nil, ?_⟩
    rintro (⟨w, hw, _⟩ | ⟨p, w, h, _⟩)
    · exact absurd hw List.not_mem_nil
    · cases h
  erased h := by cases h
  header h := by cases h

theorem outstanding_pos (h : Inv s) (hp : s.pc p = .inOp w) : 1 ≤ s.log.outstanding := by
  obtain ⟨ps, hps, hcard⟩ := h.counts
  have hpos : 0 < ps.card := Finset.card_pos.mpr ⟨p, (hps p).mpr ⟨w, hp⟩⟩
  omega

theorem not_committing (h : Inv s) (hp : s.pc p = .inOp w) : s.log.committing = false := by
  have hpos := h.outstanding_pos hp
  grind [Inv.quiet]

theorem not_inOp (h : Inv s) (hc : s.log.committing = true) (q : ℕ) (w : List ℕ) :
    s.pc q ≠ .inOp w := by
  intro hq
  rw [h.not_committing hq] at hc
  cases hc

theorem sleeps (h : Inv s) (hp : s.pc p = .idle ∨ s.pc p = .asleep) : Inv (s.goto p .asleep) := by
  have hop : ∀ {q w}, (s.goto p .asleep).pc q = .inOp w ↔ s.pc q = .inOp w := fun {q w} =>
    goto_iff (by rcases hp with hp | hp <;> simp [hp]) (by simp)
  have hcommit : ∀ {q stage}, (s.goto p .asleep).pc q = .commit stage ↔ s.pc q = .commit stage :=
    fun {q stage} => goto_iff (by rcases hp with hp | hp <;> simp [hp]) (by simp)
  obtain ⟨ps, hps, hcard⟩ := h.counts
  refine ⟨⟨ps, fun q => ?_, hcard⟩, fun hq => h.committing (hcommit.mp hq), fun hc => ?_,
    fun hq hr => h.alone (hcommit.mp hq) (hcommit.mp hr), h.quiet, h.nodup, fun hnot b => ?_,
    fun hq => h.erased (hcommit.mp hq), fun hq => h.header (hcommit.mp hq)⟩
  · simp only [hps, hop]
  · obtain ⟨q, stage, hq⟩ := h.committer hc
    exact ⟨q, stage, hcommit.mpr hq⟩
  · simp only [hop]
    exact h.logged (fun q hq => hnot q (hcommit.mpr hq)) b

theorem of_open (hc : s.log.committing = false) (hnone : ∀ q stage, s.pc q ≠ .commit stage)
    (hcounts : ∃ ps, Counts s ps) (hnodup : s.log.lh.Nodup)
    (hlogged : ∀ b, b ∈ s.log.lh ↔ (∃ w ∈ s.ended, b ∈ w) ∨ ∃ p w, s.pc p = .inOp w ∧ b ∈ w) :
    Inv s where
  counts := hcounts
  committing hq := absurd hq (hnone _ _)
  committer hc' := by simp [hc] at hc'
  alone hq := absurd hq (hnone _ _)
  quiet hc' := by simp [hc] at hc'
  nodup := hnodup
  logged _ := hlogged
  erased hq := absurd hq (hnone _ _)
  header hq := absurd hq (hnone _ _)

theorem not_commit (h : Inv s) (hc : s.log.committing = false) (q : ℕ) (stage : Stage) :
    s.pc q ≠ .commit stage := fun hq => by
  grind [Inv.committing]

theorem logged_goto (pc : Pc) : (∃ q w, (s.goto p pc).pc q = .inOp w ∧ b ∈ w) ↔
    (∃ w, pc = .inOp w ∧ b ∈ w) ∨ ∃ q ≠ p, ∃ w, s.pc q = .inOp w ∧ b ∈ w := by
  constructor
  · grind [goto_self, goto_of_ne]
  · rintro (⟨w, rfl, hb⟩ | ⟨q, hne, w, hq, hb⟩)
    · exact ⟨p, w, goto_self _, hb⟩
    · exact ⟨q, w, by rwa [goto_of_ne _ hne], hb⟩

theorem begins (h : Inv s) (hp : s.pc p = .idle ∨ s.pc p = .asleep) (hc : s.log.committing = false) :
    Inv ({s with log := {s.log with outstanding := s.log.outstanding + 1}}.goto p (.inOp [])) := by
  have hnot : ∀ w, s.pc p ≠ .inOp w := by
    rcases hp with hp | hp <;> simp [hp]
  obtain ⟨ps, hps, hcard⟩ := h.counts
  have hpmem : p ∉ ps := fun hmem => by
    grind
  refine of_open hc (fun q stage hq => h.not_commit hc _ _ (goto_eq hq (by simp)).2)
    ⟨insert p ps, fun q => ?_, ?_⟩ h.nodup fun b => ?_
  · by_cases hq : q = p
    · subst hq
      simp
    · rw [goto_of_ne _ hq, Finset.mem_insert, or_iff_right hq]
      exact hps q
  · rw [Finset.card_insert_of_notMem hpmem]
    push_cast
    rw [hcard]
    rfl
  · refine (h.logged (fun q => h.not_commit hc q _) b).trans (or_congr_right ?_)
    rw [logged_goto]
    grind

theorem logs (h : Inv s) (hp : s.pc p = .inOp w) (b : ℕ) :
    Inv ({s with log := {s.log with lh := if b ∈ s.log.lh then s.log.lh else s.log.lh ++ [b]}}.goto
      p (.inOp (w.insert b))) := by
  have hc := h.not_committing hp
  obtain ⟨ps, hps, hcard⟩ := h.counts
  refine of_open hc (fun q stage hq => h.not_commit hc _ _ (goto_eq hq (by simp)).2)
    ⟨ps, fun q => ?_, hcard⟩ ?_ fun a => ?_
  · by_cases hq : q = p
    · subst hq
      simp [hps, hp]
    · rw [goto_of_ne _ hq]
      exact hps q
  · show (if b ∈ s.log.lh then s.log.lh else s.log.lh ++ [b]).Nodup
    split
    case isTrue => exact h.nodup
    case isFalse hb =>
      refine List.nodup_append.mpr ⟨h.nodup, List.nodup_singleton b, fun x hx y hy => ?_⟩
      grind
  · have hmem : a ∈ (if b ∈ s.log.lh then s.log.lh else s.log.lh ++ [b]) ↔ a ∈ s.log.lh ∨ a = b := by
      split
      case isTrue hb => exact ⟨.inl, fun ha => ha.elim id fun heq => heq ▸ hb⟩
      case isFalse => simp
    refine hmem.trans ?_
    rw [h.logged (fun q => h.not_commit hc q _) a, logged_goto, or_assoc]
    refine or_congr_right ?_
    grind

theorem ends (h : Inv s) (hp : s.pc p = .inOp w) :
    Inv ({s with
        log := ⟨s.log.lh, s.log.outstanding - 1, decide (s.log.outstanding = 1)⟩
        ended := s.ended ++ [w]}.goto p (if s.log.outstanding = 1 then .commit .test else .idle)) := by
  have hc := h.not_committing hp
  obtain ⟨ps, hps, hcard⟩ := h.counts
  have hpmem : p ∈ ps := (hps p).mpr ⟨w, hp⟩
  generalize hs' : ({s with
    log := ⟨s.log.lh, s.log.outstanding - 1, decide (s.log.outstanding = 1)⟩
    ended := s.ended ++ [w]} : Sys) = s'
  have hpc : s'.pc = s.pc := hs' ▸ rfl
  generalize hnew : (if s.log.outstanding = 1 then Pc.commit .test else .idle) = new
  have hnot : ∀ v, new ≠ .inOp v := by
    rw [← hnew]
    split <;> simp
  have hcounts : Counts (s'.goto p new) (ps.erase p) := by
    refine ⟨fun q => ?_, ?_⟩
    · by_cases hq : q = p
      · subst hq
        simp [hnot]
      · rw [goto_of_ne _ hq, hpc, Finset.mem_erase, and_iff_right hq]
        exact hps q
    · have hpos : 0 < ps.card := Finset.card_pos.mpr ⟨p, hpmem⟩
      subst hs'
      show ((ps.erase p).card : ℤ) = s.log.outstanding - 1
      grind
  have hlogged : ∀ b, b ∈ s.log.lh ↔ (∃ v ∈ s.ended ++ [w], b ∈ v) ∨
      ∃ q v, (s'.goto p new).pc q = .inOp v ∧ b ∈ v := by
    intro b
    rw [h.logged (fun q => h.not_commit hc q _) b, logged_goto, hpc]
    constructor
    · grind
    · rintro (⟨v, hv, hb⟩ | ⟨v, hv, _⟩ | ⟨q, _, v, hq, hb⟩)
      · grind
      · exact absurd hv (hnot v)
      · exact .inr ⟨q, v, hq, hb⟩
  have hothers : ∀ {q stage}, (s'.goto p new).pc q = .commit stage → q = p := fun {q stage} hq => by
    by_contra hne
    rw [goto_of_ne _ hne, hpc] at hq
    exact h.not_commit hc q stage hq
  by_cases hlast : s.log.outstanding = 1
  · rw [if_pos hlast] at hnew
    subst hs' hnew
    have htest : ∀ {q stage}, (Sys.goto _ p (.commit .test)).pc q = .commit stage → stage = .test :=
      fun {q stage} hq => by
        obtain rfl := hothers hq
        grind [goto_self]
    refine ⟨⟨_, hcounts⟩, fun _ => decide_eq_true hlast, fun _ => ⟨p, .test, goto_self _⟩,
      fun hq hr => (hothers hq).trans (hothers hr).symm, fun _ => ?_, h.nodup, fun _ => hlogged,
      fun hq => ?_, fun hq => ?_⟩
    · show s.log.outstanding - 1 = 0
      omega
    · cases htest hq
    · cases htest hq
  · rw [if_neg hlast] at hnew
    subst hs' hnew
    refine of_open (decide_eq_false hlast) (fun q stage hq => ?_) ⟨_, hcounts⟩ h.nodup hlogged
    grind [goto_self]

theorem doStage (h : Inv s) (hp : s.pc p = .commit stage) (hne : stage ≠ .finish) :
    Inv ((s.doStage stage).goto p (.commit (stage.next s.log.lh.length))) := by
  have hc := h.committing hp
  have hsame : (s.doStage stage).pc = s.pc ∧ (s.doStage stage).log.outstanding = s.log.outstanding ∧
      (s.doStage stage).log.committing = true ∧ (s.doStage stage).ended = s.ended := by
    cases stage <;> first | exact absurd rfl hne | exact ⟨rfl, rfl, hc, rfl⟩
  have hlh : stage ≠ .erase → (s.doStage stage).log.lh = s.log.lh := by
    cases stage <;> intro herase <;> first | exact absurd rfl herase | rfl
  obtain ⟨hpc, hout, hc', hended⟩ := hsame
  obtain ⟨ps, hps, hcard⟩ := h.counts
  generalize hnew : stage.next s.log.lh.length = new
  generalize hs' : s.doStage stage = s' at *
  have hop : ∀ {q v}, (s'.goto p (.commit new)).pc q ≠ .inOp v := fun {q v} hq => by
    have hq' := (goto_eq hq (by simp)).2
    rw [hpc] at hq'
    exact h.not_inOp hc q v hq'
  have honly : ∀ {q stage'}, (s'.goto p (.commit new)).pc q = .commit stage' → q = p ∧ stage' = new := by
    intro q stage' hq
    by_cases hqp : q = p
    · grind [goto_self]
    · rw [goto_of_ne _ hqp, hpc] at hq
      exact absurd (h.alone hq hp) hqp
  refine ⟨⟨ps, fun q => ?_, hcard.trans hout.symm⟩, fun _ => hc', fun _ => ⟨p, new, goto_self _⟩,
    fun hq hr => (honly hq).1.trans (honly hr).1.symm, fun _ => hout.trans (h.quiet hc), ?_,
    fun hnot b => ?_, fun hq => ?_, fun hq => ?_⟩
  · grind [Inv.not_inOp]
  · by_cases herase : stage = .erase
    · subst herase hs'
      exact List.nodup_nil
    · show s'.log.lh.Nodup
      rw [hlh herase]
      exact h.nodup
  · have hnext : new ≠ .finish := fun heq => hnot p (by rw [goto_self, heq])
    have herase : stage ≠ .erase := fun heq => hnext (by rw [← hnew, heq]; rfl)
    show b ∈ s'.log.lh ↔ (∃ w ∈ s'.ended, b ∈ w) ∨ _
    grind [Inv.logged, Inv.not_inOp, Inv.alone]
  · obtain ⟨-, hfin⟩ := honly hq
    rcases Stage.next_eq_finish (hnew.trans hfin.symm) with ⟨rfl, hn⟩ | rfl | rfl
    · show s'.log.lh = []
      grind
    · subst hs'
      rfl
    · exact absurd rfl hne
  · obtain ⟨-, hinst⟩ := honly hq
    rcases Stage.next_eq_installTrans (hnew.trans hinst.symm) with rfl | ⟨tail', rfl⟩
    · subst hs'
      rfl
    · subst hs'
      exact h.header hp

theorem finish (h : Inv s) (hp : s.pc p = .commit .finish) :
    Inv ((s.doStage .finish).goto p .idle) := by
  have hc := h.committing hp
  obtain ⟨ps, hps, hcard⟩ := h.counts
  have hop : ∀ q v, ((s.doStage .finish).goto p .idle).pc q ≠ .inOp v := fun q v hq =>
    h.not_inOp hc q v (goto_eq hq (by simp)).2
  refine of_open rfl (fun q stage hq => ?_) ⟨ps, fun q => ?_, hcard⟩ h.nodup fun b => ?_
  · obtain ⟨hne, hq⟩ := goto_eq hq (by simp)
    exact hne (h.alone hq hp)
  · grind [Inv.not_inOp]
  · show b ∈ s.log.lh ↔ _
    rw [h.erased hp]
    refine iff_of_false List.not_mem_nil ?_
    rintro (⟨v, hv, _⟩ | ⟨q, v, hq, _⟩)
    · exact absurd hv List.not_mem_nil
    · exact hop q v hq

theorem step (h : Inv s) (ha : s.allowed e) : Outcome (· = .tooBigATransaction) (s.step e) Inv := by
  cases e with
  | beginOp p =>
    unfold Sys.step
    rcases beginOp_eq s.log with hnone | ⟨hc, _, hsome⟩
    · rw [hnone]
      exact h.sleeps ha
    · rw [hsome]
      exact h.begins ha hc
  | logWrite p b =>
    obtain ⟨w, hp⟩ := logged_isSome.mp ha
    by_cases hroom : s.log.lh.length < logBlocks
    · rw [step_logWrite hp hroom (h.outstanding_pos hp)]
      exact h.logs hp b
    · rw [Sys.step, logWrite, if_pos (Nat.not_lt.mp hroom)]
      rfl
  | endOp p =>
    obtain ⟨w, hp⟩ := logged_isSome.mp ha
    rw [step_endOp hp (h.not_committing hp)]
    exact h.ends hp
  | next p =>
    obtain ⟨stage, hp⟩ := stage_isSome.mp ha
    by_cases hfin : stage = .finish
    · subst hfin
      rw [step_finish hp]
      exact h.finish hp
    · rw [step_next hp hfin]
      exact h.doStage hp hfin

theorem run {es : List Event} (hp : processes.Proper s es) (h : Inv s) :
    Outcome (· = .tooBigATransaction) (processes.run s es) Inv :=
  Protocol.run_outcome (fun _ _ _ hI ha => hI.step ha) h hp

end Inv

structure GroupCommit (s : Sys) : Prop where
  /-- While a process is in `commit`, no process is in an operation, and no other one is
  in `commit`. -/
  quiet : ∀ p stage, s.pc p = .commit stage →
    s.log.outstanding = 0 ∧ s.log.committing = true ∧ (∀ q w, s.pc q ≠ .inOp w) ∧
      ∀ q stage', s.pc q = .commit stage' → q = p
  noLogWrite : s.log.committing = true → ∀ p b, ¬ s.allowed (.logWrite p b)
  /-- Until it is erased, the log has the blocks of all operations that have ended since
  the last commit, and no others. -/
  blocks : ∀ p stage, s.pc p = .commit stage → stage ≠ .finish →
    ∀ b, b ∈ s.log.lh ↔ ∃ w ∈ s.ended, b ∈ w
  /-- These are the blocks that are committed. -/
  header : ∀ p tail, s.pc p = .commit (.installTrans tail) → s.header = s.log.lh

theorem Inv.groupCommit (h : Inv s) : GroupCommit s where
  quiet p stage hp :=
    have hc := h.committing hp
    ⟨h.quiet hc, hc, h.not_inOp hc, fun _ _ hq => h.alone hq hp⟩
  noLogWrite hc p b ha := by
    obtain ⟨w, hw⟩ := logged_isSome.mp ha
    exact h.not_inOp hc p w hw
  blocks p stage hp hne b := by
    grind [Inv.logged, Inv.not_inOp, Inv.committing, Inv.alone]
  header _ _ hp := h.header hp

/-- **Group commit never splits an operation.** In every run of any processes, a commit is
not mixed with operations, and the only panic is that of `log_write` for a full log. -/
theorem processes_groupCommit {es : List Event} (hp : processes.Proper Sys.start es) :
    Outcome (· = .tooBigATransaction) (processes.run Sys.start es) GroupCommit :=
  (Inv.start.run hp).mono fun _ => Inv.groupCommit

/-- Two operations that overlap, up to the point where the second one has committed. -/
def overlapping : List Event :=
  [.beginOp 0, .beginOp 1, .logWrite 0 50, .logWrite 1 51, .endOp 0, .logWrite 1 50, .endOp 1,
    .next 1, .beginOp 0, .next 1, .next 1, .next 1, .next 1]

theorem processes_groupCommit_overlapping :
    ∃ s, processes.run Sys.start overlapping = .ok s ∧ s.pc 1 = .commit (.installTrans 0) ∧
      s.pc 0 = .asleep ∧ s.header = [50, 51] ∧ GroupCommit s := by
  have hproper : processes.Proper Sys.start overlapping := by decide
  have hall := processes_groupCommit hproper
  exact ⟨_, rfl, rfl, rfl, rfl, hall⟩

/-! ### Room in the log -/

/-- Blocks that the operation of a process may still log. -/
def Sys.budget (s : Sys) (p : ℕ) : ℕ := maxOpBlocks - ((s.pc p).logged.getD []).length

/-- There is room for what all operations may still log. -/
def Reserve (s : Sys) : Prop :=
  ∃ ps, Counts s ps ∧ s.log.lh.length + ∑ p ∈ ps, s.budget p ≤ logBlocks

/-- No operation logs more than `MAXOPBLOCKS` blocks. -/
def Sys.WithinLimit (s : Sys) : Event → Prop
  | .logWrite p b => (((s.pc p).logged.getD []).insert b).length ≤ maxOpBlocks
  | _ => True

/-- An operation that has logged `MAXOPBLOCKS` blocks logs nothing more. -/
def Sys.BelowLimit (s : Sys) : Event → Prop
  | .logWrite p _ => ((s.pc p).logged.getD []).length < maxOpBlocks
  | _ => True

instance (s : Sys) : ∀ e, Decidable (s.BelowLimit e)
  | .logWrite _ _ => inferInstanceAs (Decidable (_ < _))
  | .beginOp _ | .endOp _ | .next _ => .isTrue trivial

instance (s : Sys) : ∀ e, Decidable (s.WithinLimit e)
  | .logWrite _ _ => inferInstanceAs (Decidable (_ ≤ _))
  | .beginOp _ | .endOp _ | .next _ => .isTrue trivial

theorem budget_eq (hp : s.pc p = .inOp w) : s.budget p = maxOpBlocks - w.length := by
  rw [Sys.budget, hp]
  rfl

theorem sum_budget_goto (pc : Pc) {ps : Finset ℕ} (hp : p ∉ ps) :
    ∑ q ∈ ps, (s.goto p pc).budget q = ∑ q ∈ ps, s.budget q := by
  refine Finset.sum_congr rfl fun q hq => ?_
  grind [goto_of_ne, Sys.budget]

namespace Reserve

theorem start : Reserve Sys.start :=
  ⟨∅, ⟨fun p => ⟨fun h => absurd h (Finset.notMem_empty p), fun ⟨_, h⟩ => by cases h⟩, rfl⟩, Nat.zero_le _⟩

section
variable (h : Reserve s)
include h

theorem outside {s' : Sys} (hpc : s'.pc = s.pc)
    (hout : s'.log.outstanding = s.log.outstanding) (hle : s'.log.lh.length ≤ s.log.lh.length)
    (hold : ∀ w, s.pc p ≠ .inOp w) {pc : Pc} (hnew : ∀ w, pc ≠ .inOp w) : Reserve (s'.goto p pc) := by
  obtain ⟨ps, ⟨hps, hcard⟩, hroom⟩ := h
  have hmem : p ∉ ps := fun hmem => by
    grind
  refine ⟨ps, ⟨fun q => ?_, hcard.trans hout.symm⟩, ?_⟩
  · rw [hps]
    refine exists_congr fun w => ?_
    rw [goto_iff (hpc ▸ hold w) (hnew w), hpc]
  · have hsum : ∑ q ∈ ps, s'.budget q = ∑ q ∈ ps, s.budget q := by
      refine Finset.sum_congr rfl fun q _ => ?_
      rw [Sys.budget, hpc, Sys.budget]
    rw [sum_budget_goto pc hmem, hsum]
    exact (Nat.add_le_add_right hle _).trans hroom

theorem begins (hold : ∀ w, s.pc p ≠ .inOp w)
    (hroom : s.log.lh.length + (s.log.outstanding + 1) * maxOpBlocks ≤ logBlocks) :
    Reserve ({s with log := {s.log with outstanding := s.log.outstanding + 1}}.goto p (.inOp [])) := by
  obtain ⟨ps, ⟨hps, hcard⟩, _⟩ := h
  have hmem : p ∉ ps := fun hmem => by
    grind
  refine ⟨insert p ps, ⟨fun q => ?_, ?_⟩, ?_⟩
  · by_cases hq : q = p
    · subst hq
      simp
    · rw [goto_of_ne _ hq, Finset.mem_insert, or_iff_right hq]
      exact hps q
  · rw [Finset.card_insert_of_notMem hmem]
    push_cast
    rw [hcard]
    rfl
  · have hsum : ∑ q ∈ ps, s.budget q ≤ ps.card * maxOpBlocks :=
      Finset.sum_le_card_nsmul ps _ _ fun q _ => Nat.sub_le ..
    rw [Finset.sum_insert hmem, sum_budget_goto _ hmem, budget_eq (goto_self _)]
    show s.log.lh.length + (maxOpBlocks - 0 + ∑ q ∈ ps, s.budget q) ≤ logBlocks
    grind

theorem logs (hi : Inv s) (hp : s.pc p = .inOp w) (hlt : w.length < maxOpBlocks)
    (b : ℕ) : s.log.lh.length < logBlocks ∧
      Reserve ({s with log := {s.log with lh := if b ∈ s.log.lh then s.log.lh else s.log.lh ++ [b]}}.goto
        p (.inOp (w.insert b))) := by
  obtain ⟨ps, ⟨hps, hcard⟩, hroom⟩ := h
  have hmem : p ∈ ps := (hps p).mpr ⟨w, hp⟩
  rw [← Finset.add_sum_erase ps _ hmem, budget_eq hp] at hroom
  refine ⟨by omega, ps, ⟨fun q => ?_, hcard⟩, ?_⟩
  · by_cases hq : q = p
    · subst hq
      simp [hmem]
    · rw [goto_of_ne _ hq]
      exact hps q
  · rw [← Finset.add_sum_erase ps _ hmem, sum_budget_goto _ (Finset.notMem_erase p ps),
      budget_eq (goto_self _)]
    show (if b ∈ s.log.lh then s.log.lh else s.log.lh ++ [b]).length +
      (maxOpBlocks - (w.insert b).length + ∑ q ∈ ps.erase p, s.budget q) ≤ logBlocks
    by_cases hb : b ∈ s.log.lh
    · grind
    · -- A block that is new to the log is new to the operation.
      grind [Inv.logged, Inv.not_commit, Inv.not_committing]

theorem ends (hp : s.pc p = .inOp w) {log : State} {ended : List (List ℕ)} {pc : Pc}
    (hlh : log.lh = s.log.lh) (hout : log.outstanding = s.log.outstanding - 1)
    (hpc : ∀ v, pc ≠ .inOp v) : Reserve ({s with log := log, ended := ended}.goto p pc) := by
  obtain ⟨ps, ⟨hps, hcard⟩, hroom⟩ := h
  have hmem : p ∈ ps := (hps p).mpr ⟨w, hp⟩
  refine ⟨ps.erase p, ⟨fun q => ?_, ?_⟩, ?_⟩
  · by_cases hq : q = p
    · subst hq
      simp [hpc]
    · rw [goto_of_ne _ hq, Finset.mem_erase, and_iff_right hq]
      exact hps q
  · have hpos : 0 < ps.card := Finset.card_pos.mpr ⟨p, hmem⟩
    rw [Finset.card_erase_of_mem hmem]
    show ((ps.card - 1 : ℕ) : ℤ) = log.outstanding
    omega
  · rw [← Finset.add_sum_erase ps _ hmem] at hroom
    rw [sum_budget_goto _ (Finset.notMem_erase p ps)]
    show log.lh.length + ∑ q ∈ ps.erase p, s.budget q ≤ logBlocks
    rw [hlh]
    omega

theorem step (hi : Inv s) (ha : s.allowed e) (hlimit : s.BelowLimit e) :
    ∃ s', s.step e = .ok s' ∧ Reserve s' := by
  cases e with
  | beginOp p =>
    have hold : ∀ w, s.pc p ≠ .inOp w := by
      rcases ha with hp | hp <;> simp [hp]
    simp only [Sys.step]
    rcases beginOp_eq s.log with hnone | ⟨_, hroom, hsome⟩
    · rw [hnone]
      exact ⟨_, rfl, h.outside rfl rfl le_rfl hold (by simp)⟩
    grind [Reserve.begins]
  | logWrite p b =>
    obtain ⟨w, hp⟩ := logged_isSome.mp ha
    have hlt : w.length < maxOpBlocks := by
      rw [Sys.BelowLimit, hp] at hlimit
      exact hlimit
    obtain ⟨hroom, hnext⟩ := h.logs hi hp hlt b
    exact ⟨_, step_logWrite hp hroom (hi.outstanding_pos hp), hnext⟩
  | endOp p =>
    obtain ⟨w, hp⟩ := logged_isSome.mp ha
    exact ⟨_, step_endOp hp (hi.not_committing hp), h.ends hp rfl rfl (by intro v; split <;> simp)⟩
  | next p =>
    obtain ⟨stage, hp⟩ := stage_isSome.mp ha
    have hold : ∀ w, s.pc p ≠ .inOp w := by simp [hp]
    by_cases hfin : stage = .finish
    · subst hfin
      exact ⟨_, step_finish hp, h.outside rfl rfl le_rfl hold (by simp)⟩
    · refine ⟨_, step_next hp hfin, h.outside ?_ ?_ ?_ hold (by simp)⟩ <;> cases stage <;>
        first | rfl | exact Nat.le_refl _ | exact Nat.zero_le _

end

end Reserve

/-- **The reservation suffices for operations that stop at `MAXOPBLOCKS` blocks.** -/
theorem processes_reserve {es : List Event}
    (hp : (processes.restrict Sys.BelowLimit).Proper Sys.start es) :
    ∃ s, processes.run Sys.start es = .ok s ∧ s.log.lh.length ≤ logBlocks := by
  have hstep : ∀ e ∈ es, ∀ s, Inv s ∧ Reserve s → s.allowed e ∧ s.BelowLimit e →
      ∃ s', s.step e = .ok s' ∧ Inv s' ∧ Reserve s' := by
    rintro e - s ⟨hi, hr⟩ ⟨ha, hlimit⟩
    obtain ⟨s', hs', hr'⟩ := hr.step hi ha hlimit
    have hi' := hi.step ha
    rw [hs'] at hi'
    exact ⟨s', hs', hi', hr'⟩
  obtain ⟨s, hs, -, ps, -, hroom⟩ := Protocol.run_invariant hstep ⟨Inv.start, Reserve.start⟩ hp
  rw [Protocol.restrict_run] at hs
  exact ⟨s, hs, (Nat.le_add_right ..).trans hroom⟩

/-- Three operations that log ten blocks each. -/
def threeFull : List Event :=
  [.beginOp 0, .beginOp 1, .beginOp 2] ++ (List.range 10).map (.logWrite 0 ·) ++
    (List.range 10).map (.logWrite 1 <| 10 + ·) ++ (List.range 10).map (.logWrite 2 <| 20 + ·)

theorem processes_reserve_threeFull :
    ∃ s, processes.run Sys.start threeFull = .ok s ∧ s.log.lh.length ≤ logBlocks :=
  processes_reserve (by decide)

/-- The three operations stay within their limit, and the first one logs one of its blocks
again. -/
theorem logWrite_panics :
    (processes.restrict Sys.WithinLimit).Proper Sys.start (threeFull ++ [.logWrite 0 0]) ∧
      processes.run Sys.start (threeFull ++ [.logWrite 0 0]) = .error .tooBigATransaction :=
  ⟨by decide, rfl⟩

end Xv6.Log
