import Mathlib.Data.Nat.Digits.Lemmas
import Xv6.Machine.Basic

/-! Printing integers.

`printint` of the kernel and that of user programs write the digits of a number to a buffer, the last one
first, and print the buffer from its end. What is printed is the numeral of the number, and it fits into
the buffer (`printint_numeral`). -/
namespace Xv6.Printf

/-- `buf[i++] = c`. The buffer is a list with the latest character first, and has room for 20. -/
def write (c : Char) (buf : List Char) : Option (List Char) :=
  if buf.length < 20 then some (c :: buf) else none

def digitLoop (digits : List Char) (base : ℕ) : ℕ → ℕ → List Char → Option (List Char)
  | 0, _, _ => none
  | fuel + 1, x, buf => do
    let buf ← write (digits.getD (x % base) ' ') buf
    if x / base ≠ 0 then digitLoop digits base fuel (x / base) buf else some buf

/-- What is printed; none if a character was written outside the buffer. -/
def printDigits (digits : List Char) (xx : ℤ) (base : ℕ) (sign : Bool) : Option (List Char) := do
  let neg := sign && decide (xx < 0)
  let x := uint64 (if neg then -xx else xx)
  let buf ← digitLoop digits base 20 x []
  if neg then write '-' buf else some buf

def kernelDigits : List Char := "0123456789abcdef".toList

def userDigits : List Char := "0123456789ABCDEF".toList

def printint : ℤ → ℕ → Bool → Option (List Char) := printDigits kernelDigits

def userPrintint : ℤ → ℕ → Bool → Option (List Char) := printDigits userDigits

def value (digits : List Char) (base : ℕ) (text : List Char) : ℕ :=
  text.foldl (fun v c => base * v + digits.idxOf c) 0

/-- A text is a number in the usual way, with a sign if it is negative. -/
def Numeral (digits : List Char) (base : ℕ) (n : ℤ) (text : List Char) : Prop :=
  ∃ ds, text = (if n < 0 then ['-'] else []) ++ ds ∧ (∀ c ∈ ds, digits.idxOf c < base) ∧ ds ≠ [] ∧
    (ds.head? = some '0' → ds = ['0']) ∧ value digits base ds = n.natAbs

variable {D : List Char} {base : ℕ}

/-- The digits of a number, the last one first. -/
def digitsOf (base x : ℕ) : List ℕ := if x = 0 then [0] else base.digits x

theorem digitsOf_eq (hb : 1 < base) (x : ℕ) :
    digitsOf base x = x % base :: if x / base ≠ 0 then digitsOf base (x / base) else [] := by
  unfold digitsOf
  by_cases hx : x = 0
  · simp [hx]
  · rw [if_neg hx, Nat.digits_def' hb (Nat.pos_of_ne_zero hx)]
    by_cases hq : x / base = 0
    · simp [hq]
    · simp [hq]

theorem digitLoop_eq (hb : 1 < base) (fuel x : ℕ) (buf : List Char) (hfuel : (digitsOf base x).length ≤ fuel)
    (hbuf : (digitsOf base x).length + buf.length ≤ 20) :
    digitLoop D base fuel x buf = some ((digitsOf base x).reverse.map (D.getD · ' ') ++ buf) := by
  induction fuel generalizing x buf with
  | zero =>
    rw [digitsOf_eq hb] at hfuel
    exact absurd hfuel (Nat.not_succ_le_zero _)
  | succ fuel ih =>
    rw [digitsOf_eq hb] at hfuel hbuf ⊢
    rw [List.length_cons] at hfuel hbuf
    have hwrite : write (D.getD (x % base) ' ') buf = some (D.getD (x % base) ' ' :: buf) := if_pos (by omega)
    rw [digitLoop, hwrite]
    show (if x / base ≠ 0 then _ else _) = _
    by_cases hq : x / base ≠ 0
    · simp only [if_pos hq] at hfuel hbuf ⊢
      rw [ih (x / base) _ (by omega) (by rw [List.length_cons]; omega)]
      simp
    · simp only [if_neg hq]
      simp

theorem value_eq (hD : ∀ d < 16, D.idxOf (D.getD d ' ') = d) (ds : List ℕ) (hds : ∀ d ∈ ds, d < 16) :
    value D base (ds.reverse.map (D.getD · ' ')) = Nat.ofDigits base ds := by
  induction ds with
  | nil => rfl
  | cons d ds ih =>
    obtain ⟨hd, hds⟩ := List.forall_mem_cons.mp hds
    rw [Nat.ofDigits_cons, ← ih hds, value, List.reverse_cons, List.map_append, List.foldl_append]
    show base * _ + D.idxOf (D.getD d ' ') = _
    rw [hD d hd]
    exact Nat.add_comm ..

/-- The digits of a number have its value, and the first of them is not zero, unless it is the only one. -/
theorem digitsOf_spec (hb : 1 < base) (x : ℕ) : (∀ d ∈ digitsOf base x, d < base) ∧
    Nat.ofDigits base (digitsOf base x) = x ∧ ((digitsOf base x).getLast? = some 0 → digitsOf base x = [0]) := by
  unfold digitsOf
  by_cases hx : x = 0
  · rw [if_pos hx]
    refine ⟨fun d hd => ?_, ?_, fun _ => rfl⟩
    · rw [List.mem_singleton.mp hd]
      omega
    · rw [Nat.ofDigits_singleton, hx]
  · rw [if_neg hx]
    refine ⟨fun d hd => Nat.digits_lt_base hb hd, Nat.ofDigits_digits base x, fun hlast => ?_⟩
    rw [List.getLast?_eq_getLast_of_ne_nil (Nat.digits_ne_nil_iff_ne_zero.mpr hx)] at hlast
    exact absurd (Option.some.inj hlast) (Nat.getLast_digit_ne_zero base hx)

theorem numeral_digitsOf (hb : 1 < base) (h16 : base ≤ 16) (hD : ∀ d < 16, D.idxOf (D.getD d ' ') = d)
    (h0 : D.getD 0 ' ' = '0') (n : ℤ) :
    Numeral D base n ((if n < 0 then ['-'] else []) ++ (digitsOf base n.natAbs).reverse.map (D.getD · ' ')) := by
  obtain ⟨hlt, hvalue, hlast⟩ := digitsOf_spec hb n.natAbs
  have hlt16 : ∀ d ∈ digitsOf base n.natAbs, d < 16 := fun d hd => (hlt d hd).trans_le h16
  refine ⟨_, rfl, fun c hc => ?_, ?_, fun hhead => ?_, (value_eq hD _ hlt16).trans hvalue⟩
  · obtain ⟨d, hd, rfl⟩ := List.mem_map.mp hc
    rw [hD d (hlt16 d (List.mem_reverse.mp hd))]
    exact hlt d (List.mem_reverse.mp hd)
  · rw [digitsOf_eq hb]
    simp
  · rw [List.head?_map, List.head?_reverse, Option.map_eq_some_iff] at hhead
    obtain ⟨d, hd, hchar⟩ := hhead
    have hzero : d = 0 := by
      rw [← hD d (hlt16 d (List.mem_of_getLast? hd)), hchar, ← h0]
      exact hD 0 (by decide)
    rw [hlast (hzero ▸ hd)]
    exact congrArg (fun c => [c]) h0

theorem length_digitsOf (hb : base = 10 ∨ base = 16) {x k : ℕ} (hk : 19 ≤ k) (hx : x < 10 ^ k) :
    (digitsOf base x).length ≤ k := by
  unfold digitsOf
  split
  · rw [List.length_singleton]
    omega
  · have hle : 10 ^ k ≤ base ^ k := Nat.pow_le_pow_left (by omega) k
    exact (Nat.digits_length_le_iff (by omega) x).mpr (by omega)

theorem printDigits_numeral (hD : ∀ d < 16, D.idxOf (D.getD d ' ') = d) (h0 : D.getD 0 ' ' = '0')
    (hb : base = 10 ∨ base = 16) {xx : ℤ} (hlow : -2 ^ 63 ≤ xx) (hhigh : xx < 2 ^ 63) (sign : Bool) :
    ∃ text, printDigits D xx base sign = some text ∧
      Numeral D base (if sign then xx else uint64 xx) text := by
  refine ⟨_, ?_, numeral_digitsOf (by omega) (by omega) hD h0 _⟩
  generalize hn : (if sign then xx else (uint64 xx : ℤ)) = n
  obtain ⟨hneg, hx, hsmall⟩ : (sign && decide (xx < 0)) = decide (n < 0) ∧
      uint64 (if n < 0 then -xx else xx) = n.natAbs ∧ n.natAbs < 10 ^ (if n < 0 then 19 else 20) := by
    unfold uint64 at *
    cases sign <;> grind
  have hlen := length_digitsOf hb (by split <;> omega) hsmall
  unfold printDigits
  simp only [hneg, decide_eq_true_eq, hx]
  by_cases h : n < 0
  · rw [if_pos h] at hlen
    rw [digitLoop_eq (by omega) 20 _ [] (by omega) (by rw [List.length_nil]; omega), List.append_nil]
    simp only [if_pos h]
    exact if_pos (by rw [List.length_map, List.length_reverse]; omega)
  · rw [if_neg h] at hlen
    rw [digitLoop_eq (by omega) 20 _ [] hlen (by rw [List.length_nil]; omega), List.append_nil]
    simp only [if_neg h]
    rfl

/-- **Integers are printed as their numerals.** For every 64-bit number, in base 10 and 16, `printint` stays in
its buffer of 20 characters, and prints the numeral: a sign if the number is signed and negative, and
digits that have its value, without zeros in front. Both copies of the function do. -/
theorem printint_numeral (xx : ℤ) (base : ℕ) (sign : Bool) (hlow : -2 ^ 63 ≤ xx) (hhigh : xx < 2 ^ 63)
    (hb : base = 10 ∨ base = 16) :
    (∃ text, printint xx base sign = some text ∧
      Numeral kernelDigits base (if sign then xx else uint64 xx) text) ∧
    ∃ text, userPrintint xx base sign = some text ∧
      Numeral userDigits base (if sign then xx else uint64 xx) text :=
  ⟨printDigits_numeral (by decide) rfl hb hlow hhigh sign, printDigits_numeral (by decide) rfl hb hlow hhigh sign⟩

theorem printint_numeral_least : ∃ text, printint (-2 ^ 63) 10 true = some text ∧
    Numeral kernelDigits 10 (-2 ^ 63) text :=
  (printint_numeral (-2 ^ 63) 10 true (by decide) (by decide) (.inl rfl)).1

end Xv6.Printf
