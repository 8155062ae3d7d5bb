import Xv6.Buddy.Spec

/-! `buddy_print_info` and `pretty_print_buddy`.

Both print what the lists hold; here they return the text. They change nothing, and in
every state of the allocator they return (`Inv.buddyPrintInfo`, `Inv.prettyPrintBuddy`). -/
namespace Xv6.Buddy
open Linked

def decimal (n : ℤ) : List Char := (toString n).toList

/-- A number of blocks, and the same in kilobytes. -/
def blocksLine (label : String) (n : ℤ) : List Char :=
  label.toList ++ decimal n ++ " (".toList ++ decimal ((int32 (n * blockSize)).tdiv 1024) ++
    " KB)\n".toList

def countLoop (s : State) : ℕ → ℕ → ℕ → Result ℕ
  | 0, _, _ => .error .diverges
  | fuel + 1, block, count =>
    if block = 0 then .ok count else countLoop s fuel (s.next block) (count + 1)

/-- The lines for the lists of the orders below `n`, from the largest down. -/
def orderLines (s : State) : ℕ → Result (List Char)
  | 0 => .ok []
  | order + 1 => do
    let head ← s.head order
    let count ← countLoop s loopFuel head 0
    let line :=
      if count > 0 then
        "  Order ".toList ++ decimal order ++ ": ".toList ++ decimal (2 ^ order) ++
          " blocks (".toList ++ decimal ((2 ^ order * blockSize) / 1024) ++ " KB) - ".toList ++
          decimal count ++ " chunks\n".toList
      else []
    let rest ← orderLines s order
    return line ++ rest

def buddyPrintInfo (s : State) : Result (List Char) := do
  let used := int32 (s.totalBlocks - s.freeBlocks)
  let lines ← orderLines s s.maxOrder
  return "\n=== Buddy Allocator Info ===\n".toList ++ blocksLine "Total blocks: " s.totalBlocks ++
    blocksLine "Free blocks: " s.freeBlocks ++ blocksLine "Used blocks: " used ++
    "Utilization: ".toList ++ decimal ((int32 (used * 100)).tdiv s.totalBlocks) ++
    "%\n\nFree lists by order:\n".toList ++ lines ++ "============================\n\n".toList

/-! ### Drawing the region -/

def maxLine : ℕ := 128

/-- The order of a free block that starts at `current`, from the given one down. -/
def freeOrderAt (s : State) (current : ℕ) : ℕ → Result (Option ℕ)
  | 0 => do
    if ← isBlockFree current 0 s then return some 0
    return none
  | order + 1 => do
    if ← isBlockFree current (order + 1) s then return some (order + 1)
    freeOrderAt s current order

/-- `while (temp > 0) { temp /= 10; label_len++; }`, which takes at most `temp` steps. -/
def labelLenLoop : ℕ → ℕ → ℕ → ℕ
  | 0, _, labelLen => labelLen
  | fuel + 1, temp, labelLen =>
    if temp > 0 then labelLenLoop fuel (temp / 10) (labelLen + 1) else labelLen

/-- What is printed for a part `width` wide, and the length of the line after it. -/
def placeOnLine (text : List Char) (width lineLen : ℕ) : List Char × ℕ :=
  if lineLen + width > maxLine ∧ lineLen > 0 then ('\n' :: text, width)
  else (text, lineLen + width)

/-- A free block: its size, padded to its width, in brackets. -/
def drawFree (numBlocks lineLen : ℕ) : List Char × ℕ :=
  let labelLen := labelLenLoop numBlocks numBlocks (if numBlocks = 0 then 1 else 0)
  let innerWidth := if numBlocks < maxLine then numBlocks else maxLine
  let innerWidth := if innerWidth < labelLen then labelLen else innerWidth
  let padLeft := (innerWidth - labelLen) / 2
  let padRight := innerWidth - labelLen - padLeft
  let text := '[' :: List.replicate padLeft '-' ++ decimal numBlocks ++
    List.replicate padRight '-' ++ [']']
  placeOnLine text (innerWidth + 2) lineLen

def prettyLoop (s : State) (stop : ℕ) : ℕ → ℕ → ℕ → Result (List Char)
  | 0, _, _ => .error .diverges
  | fuel + 1, current, lineLen =>
    if current < stop then do
      let (text, blocks) ←
        match ← freeOrderAt s current s.maxOrder with
        | some order => pure (drawFree (2 ^ order) lineLen, 2 ^ order)
        | none => pure (placeOnLine "..".toList 2 lineLen, 1)
      let rest ← prettyLoop s stop fuel ((current + blocks * blockSize) % 2 ^ 64) text.2
      return text.1 ++ rest
    else .ok []

def prettyPrintBuddy (s : State) : Result (List Char) := do
  let stop := uint64 (s.memoryStart + int32 (s.totalBlocks * blockSize))
  let text ← prettyLoop s stop loopFuel s.memoryStart 0
  return text ++ ['\n']

/-! ### Printing returns -/

variable {U F : Finset ℕ} {s : State}

theorem countLoop_eq {head fuel : ℕ} (count : ℕ) {xs : List ℕ} (h : Chain s.next head xs)
    (hf : xs.length < fuel) : countLoop s fuel head count = .ok (count + xs.length) := by
  induction xs generalizing head count fuel with
  | nil =>
    obtain ⟨f, rfl⟩ := Nat.exists_eq_add_one.mpr hf
    rw [countLoop, if_pos (chain_nil.mp h)]
    rfl
  | cons x xs ih =>
    obtain ⟨f, rfl⟩ := Nat.exists_eq_add_one.mpr (Nat.zero_lt_of_lt hf)
    obtain ⟨rfl, hx, hxs⟩ := h
    rw [countLoop, if_neg hx, ih _ hxs (by simpa using hf), List.length_cons]
    congr 1
    omega

namespace Inv

section
variable (h : Inv U F s)
include h

theorem orderLines {n : ℕ} (hn : n ≤ s.maxOrder) : ∃ text, orderLines s n = .ok text := by
  obtain ⟨L, hr, _⟩ := h.lists
  induction n with
  | zero => exact ⟨[], rfl⟩
  | succ k ih =>
    obtain ⟨rest, hrest⟩ := ih (Nat.le_of_succ_le hn)
    have hcount := countLoop_eq 0 (hr.chain k hn) (hr.length_lt hn)
    rw [Buddy.orderLines, hr.head_eq hn]
    simp only [ok_bind, hcount, hrest]
    exact ⟨_, rfl⟩

theorem buddyPrintInfo : ∃ text, buddyPrintInfo s = .ok text := by
  obtain ⟨lines, hlines⟩ := h.orderLines le_rfl
  rw [Buddy.buddyPrintInfo, hlines]
  exact ⟨_, rfl⟩

theorem isBlockFree_returns (current k : ℕ) :
    ∃ found, isBlockFree current k s = .ok found ∧ (found = true → k < s.maxOrder) := by
  obtain ⟨L, hr, _⟩ := h.lists
  unfold Buddy.isBlockFree
  by_cases hk : k < s.maxOrder
  · have hwalk := walk_chain (fun next => current == next) (hr.chain k hk) (hr.length_lt hk)
    rw [if_neg hk.not_ge, hr.head_eq hk]
    simp only [ok_bind, hwalk]
    exact ⟨_, rfl, fun _ => hk⟩
  · rw [if_pos (not_lt.mp hk)]
    exact ⟨false, rfl, nofun⟩

theorem freeOrderAt (current n : ℕ) :
    ∃ found, freeOrderAt s current n = .ok found ∧ ∀ k ∈ found, k < s.maxOrder := by
  induction n with
  | zero =>
    obtain ⟨found, hfound, hlt⟩ := h.isBlockFree_returns current 0
    rw [Buddy.freeOrderAt, hfound]
    cases found with
    | false => exact ⟨none, rfl, fun k hk => by cases hk⟩
    | true => exact ⟨some 0, rfl, fun k hk => by cases hk; exact hlt rfl⟩
  | succ k ih =>
    obtain ⟨found, hfound, hlt⟩ := h.isBlockFree_returns current (k + 1)
    rw [Buddy.freeOrderAt, hfound]
    cases found with
    | false => exact ih
    | true => exact ⟨some (k + 1), rfl, fun k hk => by cases hk; exact hlt rfl⟩

/-- Each step of the drawing loop moves on by a page at least, and does not wrap around. -/
theorem prettyLoop {stop : ℕ} (fuel current lineLen : ℕ)
    (hstop : stop + 2 ^ s.maxOrder * blockSize ≤ 2 ^ 64) (hf : stop - current < fuel) :
    ∃ text, prettyLoop s stop fuel current lineLen = .ok text := by
  induction fuel generalizing current lineLen with
  | zero => omega
  | succ fuel ih =>
    unfold Buddy.prettyLoop
    by_cases hcur : current < stop
    · have hmove : ∀ {blocks : ℕ}, 1 ≤ blocks → blocks ≤ 2 ^ s.maxOrder →
          stop - (current + blocks * blockSize) % 2 ^ 64 < fuel := by
        intro blocks h1 hle
        have hmul := Nat.mul_le_mul_right blockSize hle
        rw [Nat.mod_eq_of_lt (by omega)]
        unfold blockSize
        omega
      obtain ⟨found, hfound, hlt⟩ := h.freeOrderAt current s.maxOrder
      rw [if_pos hcur, hfound]
      cases found with
      | none =>
        obtain ⟨text, htext⟩ := ih ((current + 1 * blockSize) % 2 ^ 64)
          (placeOnLine "..".toList 2 lineLen).2 (hmove le_rfl Nat.one_le_two_pow)
        grind [ok_bind, pure_eq_ok]
      | some k =>
        have hk : 2 ^ k ≤ 2 ^ s.maxOrder :=
          Nat.pow_le_pow_right (by decide) (Nat.le_of_lt (hlt k rfl))
        obtain ⟨text, htext⟩ := ih ((current + 2 ^ k * blockSize) % 2 ^ 64)
          (drawFree (2 ^ k) lineLen).2 (hmove Nat.one_le_two_pow hk)
        simp only [ok_bind, pure_eq_ok, htext]
        exact ⟨_, rfl⟩
    · rw [if_neg hcur]
      exact ⟨[], rfl⟩

theorem prettyPrintBuddy (hstop : uint64 (s.memoryStart + int32 (s.totalBlocks * blockSize)) +
      2 ^ s.maxOrder * blockSize ≤ 2 ^ 64) : ∃ text, prettyPrintBuddy s = .ok text := by
  have hpos := Nat.two_pow_pos s.maxOrder
  obtain ⟨text, htext⟩ := h.prettyLoop loopFuel s.memoryStart 0 hstop
    (by unfold loopFuel blockSize at *; omega)
  simp only [Buddy.prettyPrintBuddy, htext]
  exact ⟨_, rfl⟩

end

end Inv

end Xv6.Buddy
