import Xv6.Machine.Basic
import Xv6.Machine.Run

/-! The log of the file system (`kernel/log.c`).

`log.lh.block[0..n)` is a list. `begin_op`, `log_write` and `end_op` hold `log.lock` while
they look at the log and change it; each is one function here. `commit` holds no lock, so
it is a sequence of stages, one for each block that it writes to the disk. -/
namespace Xv6.Log

def maxOpBlocks : ℕ := 10

def logBlocks : ℕ := maxOpBlocks * 3

inductive Panic where
  | tooBigATransaction | logWriteOutsideOfTrans | logCommitting
  deriving DecidableEq, Repr

structure State where
  /-- The blocks to be committed. -/
  lh : List ℕ
  /-- How many operations are executing. -/
  outstanding : ℤ
  /-- In `commit`, please wait. -/
  committing : Bool
  deriving DecidableEq

/-- One turn of the loop of `begin_op`: the process goes on, or it sleeps. -/
def beginOp (log : State) : Option State :=
  if log.committing then none
  -- This operation might exhaust log space.
  else if log.lh.length + (log.outstanding + 1) * maxOpBlocks > logBlocks then none
  else some {log with outstanding := log.outstanding + 1}

/-- `end_op` up to `commit`; says whether to commit. -/
def endOp (log : State) : Except Panic (Bool × State) :=
  let log := {log with outstanding := log.outstanding - 1}
  if log.committing then .error .logCommitting
  else if log.outstanding = 0 then .ok (true, {log with committing := true})
  else .ok (false, log)

/-- `log_write` of block `b`; says whether the block is new to the log. Its buffer is
pinned then. -/
def logWrite (b : ℕ) (log : State) : Except Panic (Bool × State) :=
  if log.lh.length ≥ logBlocks then .error .tooBigATransaction
  else if log.outstanding < 1 then .error .logWriteOutsideOfTrans
  else
    -- The loop ends at the first entry that is `b`, or at `n`.
    let i := log.lh.idxOf b
    if i = log.lh.length then .ok (true, {log with lh := log.lh ++ [b]})
    else .ok (false, {log with lh := log.lh.set i b})

/-- What `commit` does next. -/
inductive Stage where
  | test
  | writeLog (tail : ℕ)
  | writeHead
  | installTrans (tail : ℕ)
  /-- `log.lh.n = 0`, and `write_head` again. -/
  | erase
  /-- Back in `end_op`, which clears `log.committing`. -/
  | finish
  deriving DecidableEq, Repr

/-- The stage after a stage, with `n` blocks in the log. -/
def Stage.next (n : ℕ) : Stage → Stage
  | .test => if n > 0 then .writeLog 0 else .finish
  | .writeLog tail => if tail < n then .writeLog (tail + 1) else .writeHead
  | .writeHead => .installTrans 0
  | .installTrans tail => if tail < n then .installTrans (tail + 1) else .erase
  | .erase | .finish => .finish

theorem Stage.next_eq_finish {n : ℕ} {stage : Stage} (h : stage.next n = .finish) :
    stage = .test ∧ n = 0 ∨ stage = .erase ∨ stage = .finish := by
  cases stage with
  | test =>
    grind [Stage.next]
  | writeLog tail => by_cases ht : tail < n <;> simp [Stage.next, ht] at h
  | writeHead => cases h
  | installTrans tail => by_cases ht : tail < n <;> simp [Stage.next, ht] at h
  | erase => exact .inr (.inl rfl)
  | finish => exact .inr (.inr rfl)

theorem Stage.next_eq_installTrans {n tail : ℕ} {stage : Stage}
    (h : stage.next n = .installTrans tail) :
    stage = .writeHead ∨ ∃ tail', stage = .installTrans tail' := by
  cases stage with
  | test => by_cases hn : n > 0 <;> simp [Stage.next, hn] at h
  | writeLog tail => by_cases ht : tail < n <;> simp [Stage.next, ht] at h
  | writeHead => exact .inl rfl
  | installTrans tail => exact .inr ⟨tail, rfl⟩
  | erase => cases h
  | finish => cases h

theorem beginOp_eq (log : State) : beginOp log = none ∨ log.committing = false ∧
    log.lh.length + (log.outstanding + 1) * maxOpBlocks ≤ logBlocks ∧
      beginOp log = some {log with outstanding := log.outstanding + 1} := by
  unfold beginOp
  grind

theorem endOp_eq {log : State} (hc : log.committing = false) :
    endOp log = .ok (decide (log.outstanding = 1),
      ⟨log.lh, log.outstanding - 1, decide (log.outstanding = 1)⟩) := by
  unfold endOp
  grind

theorem logWrite_eq {log : State} (b : ℕ) (hroom : log.lh.length < logBlocks)
    (hop : 1 ≤ log.outstanding) :
    logWrite b log = .ok (decide (b ∉ log.lh), {log with lh := if b ∈ log.lh then log.lh else log.lh ++ [b]}) := by
  unfold logWrite
  rw [if_neg (by omega), if_neg (by omega)]
  by_cases hb : b ∈ log.lh
  · have hlt : log.lh.idxOf b < log.lh.length := List.idxOf_lt_length_iff.mpr hb
    have hset : log.lh.set (log.lh.idxOf b) b = log.lh := by
      apply List.ext_getElem (by simp)
      grind
    simp [hb, hset, Nat.ne_of_lt hlt]
  · simp [hb]

end Xv6.Log
