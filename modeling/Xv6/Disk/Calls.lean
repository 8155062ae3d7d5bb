import Xv6.Disk.Model

/-! What the calls of a commit do, symbolically.

`Work` is what a commit knows: which buffers it has, what it has done to them and whose
data is in them, the block it is to unpin, and what it is to copy to the log. `Runs W cs`:
with `W`, the calls `cs` use only buffers that the commit has, save what they change,
unpin only what is written, and end with nothing. The three programs of a commit do
(`runs_calls`, `runs_callsAfter`). -/
namespace Xv6.Disk
open Bio Cache
open Log (Stage)

structure Held where
  block : ℕ
  mark : Mark
  /-- The block whose data it has, if that is known. -/
  content : Option ℕ

structure Work where
  held : Reg → Option Held
  unpin : Option ℕ
  /-- A block of the log, and the block whose data goes there. -/
  copy : Option (ℕ × ℕ)

namespace Work

def none : Work := ⟨fun _ => .none, .none, .none⟩

def set (W : Work) (r : Reg) (x : Option Held) : Work := {W with held := Function.update W.held r x}

end Work

/-- Calls that a commit may make when it has `W`. It reads blocks that it may `own`; the
data of blocks that are `same` is the same. -/
inductive Runs (start : ℕ) (own : ℕ → Prop) (same : ℕ → ℕ → Prop) : Work → List Call → Prop where
  | done {W : Work} (hheld : ∀ r, W.held r = .none) (hunpin : W.unpin = none) (hcopy : W.copy = none) :
    Runs start own same W []
  | bread {W : Work} {r : Reg} {k : ℕ} {cs : List Call} (hr : W.held r = none) (hown : own k)
      (h : Runs start own same (W.set r (some ⟨k, .clean, some k⟩)) cs) :
    Runs start own same W (.bread r k :: cs)
  | memmove {W : Work} {dst src : Reg} {x y : Held} {content : Option ℕ} {cs : List Call} (hne : dst ≠ src)
      (hdst : W.held dst = some x) (hsrc : W.held src = some y)
      (hcontent : content = y.content ∨ content = some x.block ∧ ∃ k, y.content = some k ∧ same x.block k)
      (h : Runs start own same (W.set dst (some ⟨x.block, x.mark.modify, content⟩)) cs) :
    Runs start own same W (.memmove dst src :: cs)
  | putHead {W : Work} {r : Reg} {x : Held} {cs : List Call} (hr : W.held r = some x)
      (h : Runs start own same (W.set r (some ⟨x.block, x.mark.modify, none⟩)) cs) :
    Runs start own same W (.putHead r :: cs)
  | bwrite {W : Work} {r : Reg} {x : Held} {cs : List Call} (hr : W.held r = some x)
      (h : Runs start own same (W.set r (some ⟨x.block, x.mark.write, x.content⟩)) cs) :
    Runs start own same W (.bwrite r :: cs)
  | bunpin {W : Work} {r : Reg} {x : Held} {cs : List Call} (hr : W.held r = some x)
      (hmark : x.mark = .written) (hunpin : W.unpin = some x.block)
      (h : Runs start own same {W with unpin := none} cs) : Runs start own same W (.bunpin r :: cs)
  | brelse {W : Work} {r : Reg} {x : Held} {cs : List Call} (hr : W.held r = some x)
      (hmark : x.mark ≠ .dirty)
      (hcontent : x.content = some x.block ∨ x.block = start ∧ ∀ r', r' ≠ r → W.held r' = none)
      (h : Runs start own same (W.set r none) cs) : Runs start own same W (.brelse r :: cs)
  /-- The block of the log is done. -/
  | copied {W : Work} {r : Reg} {x : Held} {k : ℕ} {cs : List Call} (hr : W.held r = some x)
      (hmark : x.mark ≠ .dirty) (hcopy : W.copy = some (x.block, k)) (hcontent : x.content = some k)
      (hlast : ∀ r', r' ≠ r → W.held r' = none)
      (h : Runs start own same {W.set r none with copy := none} cs) : Runs start own same W (.brelse r :: cs)

/-- The work of a stage, before its first call. -/
def work (start : ℕ) (lh : List ℕ) : Stage → Work
  | .writeLog tail => {Work.none with copy := lh[tail]?.map fun b => (start + tail + 1, b)}
  | .installTrans tail => {Work.none with unpin := lh[tail]?}
  | .test | .writeHead | .erase | .finish => .none

/-- Blocks that have the same data in a stage. -/
def sameIn (start : ℕ) (lh : List ℕ) : Stage → ℕ → ℕ → Prop
  | .installTrans _, k, k' => ∃ i, lh[i]? = some k ∧ k' = start + i + 1
  | .test, _, _ | .writeLog _, _, _ | .writeHead, _, _ | .erase, _, _ | .finish, _, _ => False

/-- Blocks that only commits change while there is one. -/
def Owned (start : ℕ) (lh : List ℕ) (k : ℕ) : Prop := ¬ Log.Machine.Home start k ∨ k ∈ lh

variable {start tail b : ℕ} {own : ℕ → Prop} {same : ℕ → ℕ → Prop} {lh : List ℕ}

theorem not_home_start : ¬ Log.Machine.Home start start := by
  unfold Log.Machine.Home
  omega

theorem not_home_log (hroom : lh.length ≤ Log.logBlocks) (hb : lh[tail]? = some b) :
    ¬ Log.Machine.Home start (start + tail + 1) := by
  grind [Log.Machine.Home]

theorem runs_nil : Runs start own same .none [] := .done (fun _ => rfl) rfl rfl

theorem runs_writeHead (hown : own start) : Runs start own same .none (writeHead start) := by
  refine .bread rfl hown (.putHead rfl (.bwrite rfl (.brelse rfl nofun (.inr ⟨rfl, fun r hr => ?_⟩)
    (.done (fun r => ?_) rfl rfl))))
  · cases r with
    | lbuf => exact absurd rfl hr
    | dbuf => rfl
  · cases r <;> rfl

theorem runs_writeLog (hown : own (start + tail + 1)) (hb : own b) :
    Runs start own same {Work.none with copy := some (start + tail + 1, b)} (writeLog start tail b) := by
  refine .bread rfl hown (.bread rfl hb (.memmove (by decide) rfl rfl (.inl rfl) (.bwrite rfl
    (.brelse rfl nofun (.inl rfl) (.copied rfl nofun rfl rfl (fun r hr => ?_) (.done (fun r => ?_) rfl rfl))))))
  · cases r with
    | lbuf => exact absurd rfl hr
    | dbuf => rfl
  · cases r <;> rfl

theorem runs_installTrans (hown : own (start + tail + 1)) (hb : own b) (hsame : same b (start + tail + 1)) :
    Runs start own same {Work.none with unpin := some b} (installTrans start tail b) := by
  refine .bread rfl hown (.bread rfl hb (.memmove (by decide) rfl rfl (.inr ⟨rfl, _, rfl, hsame⟩) (.bwrite rfl
    (.bunpin rfl rfl rfl (.brelse rfl nofun (.inl rfl) (.brelse rfl nofun (.inl rfl)
      (.done (fun r => ?_) rfl rfl)))))))
  cases r <;> rfl

theorem runs_calls (hroom : lh.length ≤ Log.logBlocks) (stage : Stage) :
    Runs start (Owned start lh) (sameIn start lh stage) (work start lh stage) (calls start lh stage) := by
  cases stage with
  | writeLog tail =>
    cases hb : lh[tail]? with
    | none =>
      simp only [work, calls, hb]
      exact runs_nil
    | some b =>
      simp only [work, calls, hb]
      exact runs_writeLog (.inl (not_home_log hroom hb)) (.inr (List.mem_of_getElem? hb))
  | installTrans tail =>
    cases hb : lh[tail]? with
    | none =>
      simp only [work, calls, hb]
      exact runs_nil
    | some b =>
      simp only [work, calls, hb]
      exact runs_installTrans (.inl (not_home_log hroom hb)) (.inr (List.mem_of_getElem? hb)) ⟨tail, hb, rfl⟩
  | writeHead => exact runs_writeHead (.inl not_home_start)
  | test | erase | finish => exact runs_nil

end Xv6.Disk
