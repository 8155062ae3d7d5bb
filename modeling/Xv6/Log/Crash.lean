import Xv6.Log.Model

/-! Crashes, and recovery from the log.

The machine is a disk, the buffers of some of its blocks, the log, and whoever commits or
recovers. Each stage of `commit` and of `recover_from_log` writes at most one block to the
disk. A crash may come between any two steps, also in recovery; it loses all but the disk.

A transaction is what is logged between two commits. It is committed when `write_head` has written its
header. Whatever crashes happen, recovery leaves the first disk with all committed transactions
applied, in order and completely (`recovery_atomic`). -/
namespace Xv6.Log
open Function

abbrev Block := ℕ → ℕ

/-! ### The header of the log -/

/-- `read_head`: word 0 is `n`, the words after it are `block`. -/
def readHead (data : Block) : List ℕ := (List.range (data 0)).map fun i => data (i + 1)

/-- `write_head` writes `n` and `block[0..n)` and leaves the rest. -/
def writeHead (lh : List ℕ) (data : Block) : Block := fun i =>
  if i = 0 then lh.length else if h : i - 1 < lh.length then lh[i - 1] else data i

@[simp] theorem readHead_writeHead (lh : List ℕ) (data : Block) :
    readHead (writeHead lh data) = lh := by
  apply List.ext_getElem (by simp [readHead, writeHead])
  intro i hi hi'
  simp [readHead, writeHead, hi']

/-! ### The machine -/

/-- One `log_write`: a block, and what is in it now. -/
abbrev Update := ℕ × Block

inductive Phase where
  | idle
  /-- The machine has just started, in `recover_from_log`. -/
  | readHead
  /-- In `commit`, or in the rest of `recover_from_log`. -/
  | stage (recovering : Bool) (stage : Stage)
  deriving DecidableEq

def Phase.recovering : Phase → Bool
  | .idle => false
  | .readHead => true
  | .stage recovering _ => recovering

structure Machine where
  disk : ℕ → Block
  /-- The blocks that have a buffer, with the data in it. -/
  cache : ℕ → Option Block
  /-- Blocks whose buffers may not be used for other blocks, once for each pin. -/
  pinned : List ℕ
  log : State
  phase : Phase
  /-- What operations have logged since the last commit. -/
  pending : List Update
  /-- The transactions whose header was written, in order. -/
  committed : List (List Update)

inductive Action where
  | beginOp
  /-- A process changes block `b` and logs it. -/
  | logWrite (b : ℕ) (data : Block)
  | endOp
  /-- The next stage of a commit or of recovery. -/
  | next
  | bread (b : ℕ)
  /-- The buffer of a block is used for another one. -/
  | recycle (b : ℕ)
  | crash

namespace Machine

/-- The machine starts with nothing but its disk. -/
def boot (disk : ℕ → Block) (committed : List (List Update)) : Machine :=
  ⟨disk, fun _ => none, [], ⟨[], 0, false⟩, .readHead, [], committed⟩

def read (m : Machine) (b : ℕ) : Block := (m.cache b).getD (m.disk b)

def bread (m : Machine) (b : ℕ) : Machine :=
  {m with cache := update m.cache b (some (m.read b))}

/-- `bwrite` of a buffer whose data was just changed. -/
def bwrite (m : Machine) (b : ℕ) (data : Block) : Machine :=
  {m with cache := update m.cache b (some data), disk := update m.disk b data}

variable (start : ℕ)

def writeLog (m : Machine) (tail b : ℕ) : Machine :=
  (m.bread b).bwrite (start + tail + 1) (m.read b)

def installTrans (m : Machine) (recovering : Bool) (tail b : ℕ) : Machine :=
  let lbuf := start + tail + 1
  let m := (m.bread lbuf).bwrite b (m.read lbuf)
  if recovering then m else {m with pinned := m.pinned.erase b}

def head (m : Machine) : Machine := m.bwrite start (Log.writeHead m.log.lh (m.read start))

/-- What a stage does. At the first `write_head` the transaction is committed. -/
def doStage (m : Machine) (recovering : Bool) : Stage → Machine
  | .test => m
  | .writeLog tail =>
    match m.log.lh[tail]? with
    | some b => m.writeLog start tail b
    | none => m
  | .writeHead => {m.head start with committed := m.committed ++ [m.pending], pending := []}
  | .installTrans tail =>
    match m.log.lh[tail]? with
    | some b => m.installTrans start recovering tail b
    | none => m
  | .erase => {m with log := {m.log with lh := []}}.head start
  | .finish => {m with log := {m.log with committing := false}}

def next (m : Machine) : Machine :=
  match m.phase with
  | .idle => m
  | .readHead =>
    let log := {m.log with lh := Log.readHead (m.read start)}
    {m.bread start with log := log, phase := .stage true (.installTrans 0)}
  | .stage recovering .finish => {m.doStage start recovering .finish with phase := .idle}
  | .stage recovering stage =>
    {m.doStage start recovering stage with phase := .stage recovering (stage.next m.log.lh.length)}

def step (m : Machine) : Action → Except Panic Machine
  | .beginOp => .ok {m with log := (beginOp m.log).getD m.log}
  | .logWrite b data => do
    let (new, log) ← logWrite b m.log
    return {m with
      cache := update m.cache b (some data)
      pinned := if new then m.pinned ++ [b] else m.pinned
      log := log
      pending := m.pending ++ [(b, data)]}
  | .endOp => do
    let (commit, log) ← endOp m.log
    return {m with log := log, phase := if commit then .stage false .test else m.phase}
  | .next => .ok (m.next start)
  | .bread b => .ok (m.bread b)
  | .recycle b => .ok {m with cache := update m.cache b none}
  | .crash => .ok (.boot m.disk m.committed)

def Home (b : ℕ) : Prop := b < start ∨ start + logBlocks < b
deriving Decidable

/-- No process runs before recovery is done, processes log only blocks outside of the
log's own, and pinned buffers stay. -/
def allowed (m : Machine) : Action → Prop
  | .beginOp => m.phase.recovering = false
  | .logWrite b _ => 1 ≤ m.log.outstanding ∧ Home start b
  | .endOp => 1 ≤ m.log.outstanding
  | .recycle b => b ∉ m.pinned
  | .next | .bread _ | .crash => True

end Machine

/-- The machine whose log begins at block `start`. -/
def machine (start : ℕ) : Protocol Panic Machine Action :=
  ⟨Machine.step start, Machine.allowed start⟩

instance (start : ℕ) (m : Machine) : ∀ a, Decidable ((machine start).allowed m a)
  | .beginOp => inferInstanceAs (Decidable (_ = false))
  | .logWrite _ _ => inferInstanceAs (Decidable (_ ∧ _))
  | .endOp => inferInstanceAs (Decidable (_ ≤ _))
  | .recycle _ => inferInstanceAs (Decidable (_ ∉ _))
  | .next | .bread _ | .crash => .isTrue trivial

/-! ### Transactions -/

def apply (disk : ℕ → Block) (updates : List Update) : ℕ → Block :=
  updates.foldl (fun disk u => update disk u.1 u.2) disk

def applyAll (disk : ℕ → Block) (txs : List (List Update)) : ℕ → Block := txs.foldl apply disk

@[simp] theorem apply_nil (disk : ℕ → Block) : apply disk [] = disk := rfl

theorem apply_concat (disk : ℕ → Block) (us : List Update) (b : ℕ) (data : Block) :
    apply disk (us ++ [(b, data)]) = update (apply disk us) b data := by
  simp [apply]

theorem applyAll_concat (disk : ℕ → Block) (txs : List (List Update)) (tx : List Update) :
    applyAll disk (txs ++ [tx]) = apply (applyAll disk txs) tx := by
  simp [applyAll]

/-! ### What the disk and the buffers know -/

open Machine (Home)

section Disk

variable {start : ℕ} {disk base view : ℕ → Block} {cache : ℕ → Option Block} {pinned lh waiting : List ℕ}
  {b x i : ℕ} {data : Block}

/-- From the disk alone, recovery can restore `base`: what the header names is in the log,
and all other blocks are in place. -/
structure Durable (start : ℕ) (disk base : ℕ → Block) : Prop where
  homes : ∀ b ∈ readHead (disk start), Home start b
  small : (readHead (disk start)).length ≤ logBlocks
  logged : ∀ {i b}, (readHead (disk start))[i]? = some b → disk (start + i + 1) = base b
  inPlace : ∀ {b}, Home start b → b ∉ readHead (disk start) → disk b = base b

/-- The buffers, and the disk for blocks that have none, have what was logged last, `view`.
Blocks in `waiting` are still to be installed by recovery. -/
structure Coherent (start : ℕ) (disk : ℕ → Block) (cache : ℕ → Option Block) (pinned : List ℕ)
    (view : ℕ → Block) (waiting : List ℕ) : Prop where
  inLog : ∀ {x data}, ¬ Home start x → cache x = some data → data = disk x
  buffered : ∀ {b data}, Home start b → cache b = some data → b ∉ waiting → data = view b
  onDisk : ∀ {b}, Home start b → b ∉ pinned → b ∉ waiting → disk b = view b
  held : ∀ b ∈ pinned, cache b = some (view b)

theorem not_home_start : ¬ Home start start := by
  unfold Home
  omega

theorem not_home_log (hi : i < logBlocks) : ¬ Home start (start + i + 1) := by
  unfold Home
  omega

namespace Durable

theorem of_empty (hempty : readHead (disk start) = []) (hplace : ∀ {b}, Home start b → disk b = base b) :
    Durable start disk base := by
  refine ⟨?_, ?_, ?_, fun hb _ => hplace hb⟩ <;> simp [hempty]

theorem writeLog (h : Durable start disk base) (hempty : readHead (disk start) = [])
    (hi : i < logBlocks) (data : Block) :
    Durable start (update disk (start + i + 1) data) base := by
  grind [Durable.of_empty, not_home_log, Durable.inPlace, update_of_ne]

theorem head (hhomes : ∀ b ∈ lh, Home start b) (hsmall : lh.length ≤ logBlocks)
    (hlogged : ∀ {i b}, lh[i]? = some b → disk (start + i + 1) = view b)
    (hplace : ∀ {b}, Home start b → b ∉ lh → disk b = view b) (data : Block) :
    Durable start (update disk start (writeHead lh data)) view := by
  have hhead : readHead (update disk start (writeHead lh data) start) = lh := by
    rw [update_self, readHead_writeHead]
  refine ⟨by rwa [hhead], by rwa [hhead], fun {i b} hi => ?_, fun {b} hb hnot => ?_⟩
  · grind
  grind [not_home_start, update_of_ne]

theorem install (h : Durable start disk base) (hb : b ∈ readHead (disk start)) :
    Durable start (update disk b (base b)) base := by
  have hhome := h.homes b hb
  have hhead : update disk b (base b) start = disk start :=
    update_of_ne (fun heq => not_home_start (heq ▸ hhome)) ..
  refine ⟨hhead ▸ h.homes, hhead ▸ h.small, fun {i c} hi => ?_, fun {c} hc hnot => ?_⟩
  · grind [Durable.small, not_home_log, Durable.logged, update_of_ne]
  · rw [hhead] at hnot
    have hne : c ≠ b := fun heq => hnot (heq ▸ hb)
    rw [update_of_ne hne]
    exact h.inPlace hc hnot

end Durable

namespace Coherent

theorem boot (h : Durable start disk base) :
    Coherent start disk (fun _ => none) [] base (readHead (disk start)) where
  inLog _ hx := by cases hx
  buffered _ hb := by cases hb
  onDisk hb _ hnot := h.inPlace hb hnot
  held b hb := absurd hb List.not_mem_nil

section
variable (h : Coherent start disk cache pinned view waiting)
include h

theorem read_log (hx : ¬ Home start x) : (cache x).getD (disk x) = disk x := by
  cases hc : cache x with
  | none => rfl
  | some data => exact h.inLog hx hc

theorem read_home (hb : Home start b) (hnot : b ∉ waiting) : (cache b).getD (disk b) = view b := by
  cases hc : cache b with
  | none =>
    grind [Coherent.onDisk, Coherent.held]
  | some data => exact h.buffered hb hc hnot

theorem bread (b : ℕ) :
    Coherent start disk (update cache b (some ((cache b).getD (disk b)))) pinned view
      waiting where
  inLog {x data} hx hc := by
    by_cases hb : x = b
    · grind [Coherent.read_log]
    · rw [update_of_ne hb] at hc
      exact h.inLog hx hc
  buffered {x data} hx hc hnot := by
    grind [Coherent.read_home, Coherent.buffered, update_of_ne]
  onDisk := h.onDisk
  held x hx := by
    grind [Coherent.held, update_of_ne]

theorem recycle (hb : b ∉ pinned) :
    Coherent start disk (update cache b none) pinned view waiting := by
  have hsome : ∀ {x data}, update cache b none x = some data → cache x = some data := by
    grind
  refine ⟨fun hx hc => h.inLog hx (hsome hc), fun hx hc => h.buffered hx (hsome hc), h.onDisk,
    fun x hx => ?_⟩
  grind [Coherent.held, update_of_ne]

theorem bwrite_log (hx : ¬ Home start x) (hpinned : ∀ b ∈ pinned, Home start b) (data : Block) :
    Coherent start (update disk x data) (update cache x (some data)) pinned view
      waiting := by
  have hne : ∀ {b}, Home start b → b ≠ x := fun hb heq => hx (heq ▸ hb)
  refine ⟨fun {y d} hy hc => ?_, fun {b d} hb hc => ?_, fun {b} hb => ?_, fun b hb => ?_⟩
  · grind [Coherent.inLog, update_of_ne]
  · rw [update_of_ne (hne hb)] at hc
    exact h.buffered hb hc
  · rw [update_of_ne (hne hb)]
    exact h.onDisk hb
  · rw [update_of_ne (hne (hpinned b hb))]
    exact h.held b hb

theorem install (hb : Home start b)
    {pinned' waiting' : List ℕ} (hpinned : ∀ a ∈ pinned, a = b ∨ a ∈ pinned')
    (hpinned' : pinned' ⊆ pinned) (hwaiting : ∀ a ∈ waiting, a = b ∨ a ∈ waiting') :
    Coherent start (update disk b (view b)) (update cache b (some (view b)))
      pinned' view waiting' := by
  refine ⟨fun {x d} hx hc => ?_, fun {a d} ha hc hnot => ?_, fun {a} ha hpin hnot => ?_, fun a ha => ?_⟩
  · have hxb : x ≠ b := fun heq => hx (heq ▸ hb)
    rw [update_of_ne hxb] at hc
    rw [update_of_ne hxb]
    exact h.inLog hx hc
  · grind [Coherent.buffered, update_of_ne]
  · grind [Coherent.onDisk, update_of_ne]
  grind [Coherent.held, update_of_ne]

end

theorem logWrite (h : Coherent start disk cache pinned view []) (hb : Home start b) (data : Block)
    {pinned' : List ℕ} (hpinned : ∀ a, a ∈ pinned' ↔ a ∈ pinned ∨ a = b) :
    Coherent start disk (update cache b (some data)) pinned' (update view b data)
      [] := by
  refine ⟨fun {x d} hx hc => ?_, fun {a d} ha hc _ => ?_, fun {a} ha hpin _ => ?_, fun a ha => ?_⟩
  · have hne : x ≠ b := fun heq => hx (heq ▸ hb)
    rw [update_of_ne hne] at hc
    exact h.inLog hx hc
  · grind [Coherent.buffered, update_of_ne]
  · grind [Coherent.onDisk, update_of_ne]
  grind [Coherent.held, update_of_ne]

end Coherent

end Disk

/-! ### Runs with crashes -/

namespace Machine

variable (start : ℕ) (first : ℕ → Block)

def base (m : Machine) : ℕ → Block := applyAll first m.committed

def view (m : Machine) : ℕ → Block := apply (m.base first) m.pending

/-- The blocks that recovery has still to install. -/
def waiting (m : Machine) : List ℕ :=
  match m.phase with
  | .readHead => Log.readHead (m.disk start)
  | .stage true (.installTrans tail) => m.log.lh.drop tail
  | _ => []

def Logged (m : Machine) (tail : ℕ) : Prop :=
  ∀ {i b}, i < tail → m.log.lh[i]? = some b → m.disk (start + i + 1) = m.view first b

/-- Before `write_head`: the header is empty, and what was logged is pinned. -/
def Filling (m : Machine) : Prop := Log.readHead (m.disk start) = [] ∧ m.pinned = m.log.lh

/-- After `write_head`: the header is that of the log, and nothing was logged since. -/
def Installing (m : Machine) (pinned : List ℕ) : Prop :=
  Log.readHead (m.disk start) = m.log.lh ∧ m.pending = [] ∧ m.pinned = pinned

def AtPhase (m : Machine) : Phase → Prop
  | .idle => m.Filling start
  | .readHead => m.pending = [] ∧ m.pinned = []
  | .stage recovering .test => recovering = false ∧ m.Filling start
  | .stage recovering (.writeLog tail) =>
    recovering = false ∧ m.Filling start ∧ m.Logged start first tail
  | .stage recovering .writeHead =>
    recovering = false ∧ m.Filling start ∧ m.Logged start first m.log.lh.length
  | .stage recovering (.installTrans tail) =>
    m.Installing start (if recovering then [] else m.log.lh.drop tail)
  | .stage _ .erase => m.Installing start []
  | .stage _ .finish => m.Filling start

end Machine

variable {start tail b : ℕ} {first disk : ℕ → Block} {m : Machine} {recovering : Bool} {stage : Stage}
  {data : Block} {txs : List (List Update)}

structure Recoverable (start : ℕ) (first : ℕ → Block) (m : Machine) : Prop where
  durable : Durable start m.disk (m.base first)
  coherent : Coherent start m.disk m.cache m.pinned (m.view first) (m.waiting start)
  homes : ∀ b ∈ m.log.lh, Home start b
  small : m.log.lh.length ≤ logBlocks
  quiet : m.phase ≠ .idle → m.log.outstanding = 0
  committing : m.log.committing = true ↔ ∃ stage, m.phase = .stage false stage
  phase : m.AtPhase start first m.phase

theorem next_stage (hphase : m.phase = .stage recovering stage) (hne : stage ≠ .finish) :
    m.next start = {m.doStage start recovering stage with
      phase := .stage recovering (stage.next m.log.lh.length)} := by
  simp only [Machine.next, hphase]

theorem next_finish (hphase : m.phase = .stage recovering .finish) :
    m.next start = {m.doStage start recovering .finish with phase := .idle} := by
  simp only [Machine.next, hphase]

namespace Recoverable

theorem boot (h : Durable start disk (applyAll first txs)) :
    Recoverable start first (.boot disk txs) where
  durable := h
  coherent := Coherent.boot h
  homes b hb := absurd hb List.not_mem_nil
  small := Nat.zero_le _
  quiet _ := rfl
  committing := ⟨fun hc => (by cases hc), fun ⟨_, hs⟩ => by cases hs⟩
  phase := ⟨rfl, rfl⟩

section
variable (h : Recoverable start first m)
include h

theorem idle_of_outstanding (hout : 1 ≤ m.log.outstanding) : m.phase = .idle := by
  by_contra hne
  have := h.quiet hne
  omega

theorem not_committing (hidle : m.phase = .idle) : m.log.committing = false := by
  grind [Recoverable.committing]

theorem withCache {cache : ℕ → Option Block}
    (hc : Coherent start m.disk cache m.pinned (m.view first) (m.waiting start)) :
    Recoverable start first {m with cache := cache} := by
  refine ⟨h.durable, hc, h.homes, h.small, h.quiet, h.committing, ?_⟩
  have hphase := h.phase
  show Machine.AtPhase start first {m with cache := cache} m.phase
  cases hp : m.phase with
  | idle => exact hp ▸ hphase
  | readHead => exact hp ▸ hphase
  | stage r s =>
    rw [hp] at hphase
    cases s <;> exact hphase

end

theorem of_idle (hphase : m.phase = .idle) (hd : Durable start m.disk (m.base first))
    (hc : Coherent start m.disk m.cache m.pinned (m.view first) []) (hh : ∀ b ∈ m.log.lh, Home start b)
    (hs : m.log.lh.length ≤ logBlocks) (hcommit : m.log.committing = false) (hf : m.Filling start) :
    Recoverable start first m := by
  refine ⟨hd, ?_, hh, hs, fun hne => absurd hphase hne, ?_, ?_⟩
  · rw [Machine.waiting, hphase]
    exact hc
  · simp [hcommit, hphase]
  · rw [hphase]
    exact hf

section
variable (h : Recoverable start first m)
include h

theorem coherent_idle (hphase : m.phase = .idle) :
    Coherent start m.disk m.cache m.pinned (m.view first) [] := by
  have hc := h.coherent
  rwa [Machine.waiting, hphase] at hc

theorem filling (hphase : m.phase = .idle) : m.Filling start := by
  have hp := h.phase
  rwa [hphase] at hp

theorem begins (ha : m.allowed start .beginOp) :
    Recoverable start first {m with log := (beginOp m.log).getD m.log} := by
  rcases beginOp_eq m.log with hnone | ⟨hc, _, hsome⟩
  · rw [hnone]
    exact h
  · have hidle : m.phase = .idle := by
      cases hp : m.phase with
      | idle => rfl
      | readHead =>
        rw [Machine.allowed, hp] at ha
        cases ha
      | stage r stage =>
        cases r with
        | true =>
          rw [Machine.allowed, hp] at ha
          cases ha
        | false =>
          grind [Recoverable.committing]
    rw [hsome]
    exact of_idle hidle h.durable (h.coherent_idle hidle) h.homes h.small hc (h.filling hidle)

theorem logWrites (hout : 1 ≤ m.log.outstanding) (hb : Home start b)
    (data : Block) : Outcome (· = .tooBigATransaction) (m.step start (.logWrite b data))
      (Recoverable start first) := by
  have hidle := h.idle_of_outstanding hout
  obtain ⟨hempty, hpinned⟩ := h.filling hidle
  by_cases hroom : m.log.lh.length < logBlocks
  · rw [Machine.step, logWrite_eq b hroom hout]
    have hview : apply (m.base first) (m.pending ++ [(b, data)]) = update (m.view first) b data :=
      apply_concat ..
    refine of_idle hidle h.durable ?_ ?_ ?_ (h.not_committing hidle) ⟨hempty, ?_⟩
    · show Coherent start m.disk _ _ (apply (m.base first) (m.pending ++ [(b, data)])) []
      rw [hview]
      refine (h.coherent_idle hidle).logWrite hb data fun a => ?_
      grind
    · intro a ha
      by_cases hmem : b ∈ m.log.lh
      · rw [if_pos hmem] at ha
        exact h.homes a ha
      · rw [if_neg hmem] at ha
        rcases List.mem_append.mp ha with ha | ha
        · exact h.homes a ha
        · exact List.mem_singleton.mp ha ▸ hb
    · grind
    · by_cases hmem : b ∈ m.log.lh <;> simp [hmem, hpinned]
  · rw [Machine.step, logWrite, if_pos (Nat.not_lt.mp hroom)]
    rfl

theorem ends (hout : 1 ≤ m.log.outstanding) :
    Outcome (· = .tooBigATransaction) (m.step start .endOp) (Recoverable start first) := by
  have hidle := h.idle_of_outstanding hout
  rw [Machine.step, endOp_eq (h.not_committing hidle)]
  by_cases hlast : m.log.outstanding = 1
  · simp only [hlast, decide_true]
    refine ⟨h.durable, h.coherent_idle hidle, h.homes, h.small, fun _ => rfl, ?_, rfl, h.filling hidle⟩
    exact ⟨fun _ => ⟨_, rfl⟩, fun _ => rfl⟩
  · simp only [hlast, decide_false]
    exact of_idle hidle h.durable (h.coherent_idle hidle) h.homes h.small rfl (h.filling hidle)

theorem of_stage {m' : Machine} (hphase : m.phase = .stage recovering stage) {stage' : Stage}
    (hphase' : m'.phase = .stage recovering stage') (hd : Durable start m'.disk (m'.base first))
    (hc : Coherent start m'.disk m'.cache m'.pinned (m'.view first) (m'.waiting start))
    (hh : ∀ b ∈ m'.log.lh, Home start b) (hs : m'.log.lh.length ≤ logBlocks)
    (hout : m'.log.outstanding = m.log.outstanding) (hcommit : m'.log.committing = m.log.committing)
    (hp : m'.AtPhase start first (.stage recovering stage')) : Recoverable start first m' := by
  refine ⟨hd, hc, hh, hs, fun _ => ?_, ?_, hphase'.symm ▸ hp⟩
  · rw [hout]
    exact h.quiet (by simp [hphase])
  · rw [hcommit, h.committing, hphase, hphase']
    simp

theorem test (hphase : m.phase = .stage recovering .test) :
    Recoverable start first (m.next start) := by
  rw [next_stage hphase (by simp)]
  have hp := h.phase
  rw [hphase] at hp
  obtain ⟨rfl, hempty, hpinned⟩ := hp
  have hc := h.coherent
  rw [Machine.waiting, hphase] at hc
  by_cases hn : m.log.lh.length > 0
  · simp only [Stage.next, if_pos hn]
    exact h.of_stage hphase rfl h.durable hc h.homes h.small rfl rfl
      ⟨rfl, ⟨hempty, hpinned⟩, fun hi => absurd hi (Nat.not_lt_zero _)⟩
  · simp only [Stage.next, if_neg hn]
    exact h.of_stage hphase rfl h.durable hc h.homes h.small rfl rfl ⟨hempty, hpinned⟩

theorem writesLog (hphase : m.phase = .stage recovering (.writeLog tail)) :
    Recoverable start first (m.next start) := by
  rw [next_stage hphase (by simp)]
  have hp := h.phase
  rw [hphase] at hp
  obtain ⟨rfl, ⟨hempty, hpinned⟩, hlogged⟩ := hp
  have hc := h.coherent
  rw [Machine.waiting, hphase] at hc
  by_cases ht : tail < m.log.lh.length
  · have hget : m.log.lh[tail]? = some m.log.lh[tail] := List.getElem?_eq_getElem ht
    have hb := List.getElem_mem ht
    generalize m.log.lh[tail] = b at hget hb
    have hx : ¬ Home start (start + tail + 1) := not_home_log (ht.trans_le h.small)
    have hread : m.read b = m.view first b := hc.read_home (h.homes b hb) List.not_mem_nil
    simp only [Machine.doStage, hget, Stage.next, if_pos ht]
    refine h.of_stage hphase rfl (h.durable.writeLog hempty (ht.trans_le h.small) _)
      ((hc.bread b).bwrite_log hx (fun a ha => h.homes a (hpinned ▸ ha)) _) h.homes h.small rfl rfl
      ⟨rfl, ⟨?_, hpinned⟩, fun {i a} hi ha => ?_⟩
    · show readHead (update m.disk (start + tail + 1) _ start) = []
      grind
    · show update m.disk (start + tail + 1) (m.read b) (start + i + 1) = m.view first a
      by_cases hit : i = tail
      · subst hit
        rw [update_self, hread]
        cases hget.symm.trans ha
        rfl
      · rw [update_of_ne (by omega)]
        exact hlogged (by omega) ha
  · have hget : m.log.lh[tail]? = none := List.getElem?_eq_none (Nat.not_lt.mp ht)
    simp only [Machine.doStage, hget, Stage.next, if_neg ht]
    refine h.of_stage hphase rfl h.durable hc h.homes h.small rfl rfl ⟨rfl, ⟨hempty, hpinned⟩, ?_⟩
    intro i b hi hb
    exact hlogged (hi.trans_le (Nat.not_lt.mp ht)) hb

theorem writesHead (hphase : m.phase = .stage recovering .writeHead) :
    Recoverable start first (m.next start) := by
  rw [next_stage hphase (by simp)]
  have hp := h.phase
  rw [hphase] at hp
  obtain ⟨rfl, ⟨hempty, hpinned⟩, hlogged⟩ := hp
  have hc := h.coherent
  rw [Machine.waiting, hphase] at hc
  have hbase : applyAll first (m.committed ++ [m.pending]) = m.view first := applyAll_concat ..
  refine h.of_stage hphase rfl ?_ ?_ h.homes h.small rfl rfl ⟨?_, rfl, hpinned⟩
  · show Durable start (update m.disk start (writeHead m.log.lh _))
      (applyAll first (m.committed ++ [m.pending]))
    rw [hbase]
    refine Durable.head h.homes h.small (fun hi => ?_) (fun hb hnot => ?_) _
    · exact hlogged (List.getElem?_eq_some_iff.mp hi).1 hi
    · exact hc.onDisk hb (hpinned ▸ hnot) List.not_mem_nil
  · show Coherent start (update m.disk start (writeHead m.log.lh _)) _ m.pinned
      (applyAll first (m.committed ++ [m.pending])) []
    rw [hbase]
    exact hc.bwrite_log not_home_start (fun a ha => h.homes a (hpinned ▸ ha)) _
  · show readHead (update m.disk start (writeHead m.log.lh _) start) = m.log.lh
    rw [update_self, readHead_writeHead]

theorem installs (hphase : m.phase = .stage recovering (.installTrans tail)) :
    Recoverable start first (m.next start) := by
  rw [next_stage hphase (by simp)]
  have hp := h.phase
  rw [hphase] at hp
  obtain ⟨hhead, hpending, hpinned⟩ := hp
  have hbase : m.view first = m.base first := by rw [Machine.view, hpending, apply_nil]
  have hc := h.coherent
  by_cases ht : tail < m.log.lh.length
  · have hget : m.log.lh[tail]? = some m.log.lh[tail] := List.getElem?_eq_getElem ht
    have hdrop : m.log.lh.drop tail = m.log.lh[tail] :: m.log.lh.drop (tail + 1) :=
      List.drop_eq_getElem_cons ht
    have hb := List.getElem_mem ht
    generalize m.log.lh[tail] = b at hget hb hdrop
    have hx : ¬ Home start (start + tail + 1) := not_home_log (ht.trans_le h.small)
    have hread : m.read (start + tail + 1) = m.view first b := by
      rw [Machine.read, hc.read_log hx, hbase]
      exact h.durable.logged (hhead ▸ hget)
    have hdurable : Durable start (update m.disk b (m.read (start + tail + 1))) (m.base first) := by
      rw [hread, hbase]
      exact h.durable.install (hhead ▸ hb)
    have hcached : Coherent start m.disk (update m.cache (start + tail + 1)
        (some (m.view first b))) m.pinned (m.view first) (m.waiting start) :=
      hread ▸ hc.bread (start + tail + 1)
    have hhead' : readHead (update m.disk b (m.read (start + tail + 1)) start) = m.log.lh := by
      rw [update_of_ne fun heq => not_home_start (heq ▸ h.homes b hb)]
      exact hhead
    simp only [Machine.doStage, hget, Stage.next, if_pos ht]
    cases recovering with
    | true =>
      simp only [Machine.waiting, hphase, hdrop] at hcached
      refine h.of_stage hphase rfl hdurable ?_ h.homes h.small rfl rfl ⟨hhead', hpending, hpinned⟩
      show Coherent start (update m.disk b (m.read (start + tail + 1))) (update
        (update m.cache _ _) b (some (m.read (start + tail + 1)))) m.pinned (m.view first)
        (m.log.lh.drop (tail + 1))
      grind [Coherent.install, Recoverable.homes]
    | false =>
      simp only [Machine.waiting, hphase] at hcached
      have hpinned' : m.pinned = b :: m.log.lh.drop (tail + 1) := hpinned.trans hdrop
      have herase : m.pinned.erase b = m.log.lh.drop (tail + 1) := by
        rw [hpinned', List.erase_cons_head]
      refine h.of_stage hphase rfl hdurable ?_ h.homes h.small rfl rfl ⟨hhead', hpending, herase⟩
      show Coherent start (update m.disk b (m.read (start + tail + 1))) (update
        (update m.cache _ _) b (some (m.read (start + tail + 1)))) (m.pinned.erase b)
        (m.view first) []
      grind [Coherent.install, Recoverable.homes]
  · have hget : m.log.lh[tail]? = none := List.getElem?_eq_none (Nat.not_lt.mp ht)
    have hnil : m.log.lh.drop tail = [] := List.drop_eq_nil_of_le (Nat.not_lt.mp ht)
    have hwaiting : m.waiting start = [] := by
      rw [Machine.waiting, hphase]
      cases recovering <;> simp [hnil]
    rw [hwaiting] at hc
    simp only [Machine.doStage, hget, Stage.next, if_neg ht]
    refine h.of_stage hphase rfl h.durable ?_ h.homes h.small rfl rfl ⟨hhead, hpending, ?_⟩
    · cases recovering <;> exact hc
    grind

theorem erases (hphase : m.phase = .stage recovering .erase) :
    Recoverable start first (m.next start) := by
  rw [next_stage hphase (by simp)]
  have hp := h.phase
  rw [hphase] at hp
  obtain ⟨hhead, hpending, hpinned⟩ := hp
  have hbase : m.view first = m.base first := by rw [Machine.view, hpending, apply_nil]
  have hc : Coherent start m.disk m.cache m.pinned (m.view first) [] := by
    have hc := h.coherent
    rw [Machine.waiting, hphase] at hc
    cases recovering <;> exact hc
  have hempty : readHead (update m.disk start (writeHead [] (m.read start)) start) = [] := by
    rw [update_self, readHead_writeHead]
  refine h.of_stage hphase rfl ?_ ?_ (fun b hb => absurd hb List.not_mem_nil) (Nat.zero_le _) rfl rfl
    ⟨hempty, hpinned⟩
  · refine Durable.of_empty hempty fun {b} hb => ?_
    show update m.disk start (writeHead [] (m.read start)) b = m.base first b
    rw [update_of_ne fun heq => not_home_start (heq ▸ hb), ← hbase]
    exact hc.onDisk hb (hpinned ▸ List.not_mem_nil) List.not_mem_nil
  · cases recovering <;>
      exact hc.bwrite_log not_home_start (fun a ha => absurd (hpinned ▸ ha) List.not_mem_nil) _

theorem finishes (hphase : m.phase = .stage recovering .finish) :
    Recoverable start first (m.next start) := by
  rw [next_finish hphase]
  have hp := h.phase
  rw [hphase] at hp
  have hc : Coherent start m.disk m.cache m.pinned (m.view first) [] := by
    have hc := h.coherent
    rw [Machine.waiting, hphase] at hc
    cases recovering <;> exact hc
  exact of_idle rfl h.durable hc h.homes h.small rfl hp

theorem readsHead (hphase : m.phase = .readHead) : Recoverable start first (m.next start) := by
  have hp := h.phase
  rw [hphase] at hp
  have hread : m.read start = m.disk start := h.coherent.read_log not_home_start
  have hc := h.coherent.bread start
  rw [Machine.waiting, hphase] at hc
  have hnext : m.next start = {m.bread start with
      log := {m.log with lh := readHead (m.disk start)}
      phase := .stage true (.installTrans 0)} := by
    simp only [Machine.next, hphase, hread]
  rw [hnext]
  have hcommit : m.log.committing ≠ true := fun htrue => by
    grind [Recoverable.committing]
  refine ⟨h.durable, hc, h.durable.homes, h.durable.small, fun _ => ?_, ?_, rfl, hp.1, hp.2⟩
  · exact h.quiet (by simp [hphase])
  · exact iff_of_false hcommit fun ⟨_, hstage⟩ => by cases hstage

theorem next : Recoverable start first (m.next start) := by
  cases hphase : m.phase with
  | idle =>
    simp only [Machine.next, hphase]
    exact h
  | readHead => exact h.readsHead hphase
  | stage recovering stage =>
    cases stage with
    | test => exact h.test hphase
    | writeLog tail => exact h.writesLog hphase
    | writeHead => exact h.writesHead hphase
    | installTrans tail => exact h.installs hphase
    | erase => exact h.erases hphase
    | finish => exact h.finishes hphase

theorem step {a : Action} (ha : m.allowed start a) :
    Outcome (· = .tooBigATransaction) (m.step start a) (Recoverable start first) := by
  cases a with
  | beginOp => exact h.begins ha
  | logWrite b data => exact h.logWrites ha.1 ha.2 data
  | endOp => exact h.ends ha
  | next => exact h.next
  | bread b => exact h.withCache (h.coherent.bread b)
  | recycle b => exact h.withCache (h.coherent.recycle ha)
  | crash => exact boot h.durable

end

end Recoverable

/-- **Recovery is atomic.** Start from any disk whose log is empty, and let operations,
commits and crashes happen in any order, also crashes in recovery. Whenever recovery or a
commit is done, the header on disk is empty, and every block outside of the log is as all
committed transactions leave it that are applied to the first disk in order. -/
theorem recovery_atomic {acts : List Action} (hfirst : readHead (first start) = [])
    (hp : (machine start).Proper (.boot first []) acts) :
    Outcome (· = .tooBigATransaction) ((machine start).run (.boot first []) acts) fun m =>
      (m.phase = .idle ∨ ∃ recovering, m.phase = .stage recovering .finish) →
        readHead (m.disk start) = [] ∧
          ∀ b, Home start b → m.disk b = applyAll first m.committed b := by
  have hboot : Recoverable start first (.boot first []) :=
    Recoverable.boot (Durable.of_empty hfirst fun _ => rfl)
  refine (Protocol.run_outcome (fun _ _ _ hI ha => hI.step ha) hboot hp).mono fun m h hdone => ?_
  have hempty : readHead (m.disk start) = [] := by
    have hphase := h.phase
    rcases hdone with hidle | ⟨recovering, hfinish⟩
    · rw [hidle] at hphase
      exact hphase.1
    · rw [hfinish] at hphase
      exact hphase.1
  exact ⟨hempty, fun b hb => h.durable.inPlace hb (by simp [hempty])⟩

/-- One transaction, a crash before it is installed, another one in recovery, and recovery. -/
def crashes : List Action :=
  List.replicate 4 .next ++ [.beginOp, .logWrite 50 (fun _ => 7), .endOp] ++ List.replicate 4 .next ++
    [.crash, .next, .next, .crash] ++ List.replicate 5 .next

theorem recovery_atomic_crashes :
    ∃ m, (machine 2).run (.boot (fun _ _ => 0) []) crashes = .ok m ∧ m.phase = .idle ∧
      m.committed = [[(50, fun _ => 7)]] ∧ readHead (m.disk 2) = [] ∧ m.disk 50 = fun _ => 7 := by
  have hproper : (machine 2).Proper (.boot (fun _ _ => 0) []) crashes := by decide
  have hall := recovery_atomic rfl hproper
  refine ⟨_, rfl, rfl, rfl, (hall (.inl rfl)).1, ?_⟩
  rw [(hall (.inl rfl)).2 50 (by decide)]
  rfl

end Xv6.Log
