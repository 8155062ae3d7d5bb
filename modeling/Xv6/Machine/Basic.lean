import Mathlib.Algebra.Order.Ring.Int

/-! What all the models share: addresses, machine integers, and how a call ends.

A C function becomes a Lean function from its arguments and the state it reads to
`Result`: the value and state it returns, or the reason it does not return. A
loop takes `loopFuel` steps at most. That is more steps than there are addresses,
so a loop over distinct addresses that is cut short never ends in the code either.
An address is a number of bytes, `0` the null pointer. -/
namespace Xv6

inductive Fault where
  /-- An array is accessed outside its bounds, at this index. -/
  | outOfBounds (index : ℕ)
  /-- A field of a record at the null address is read. -/
  | nullPointer
  | diverges
  deriving DecidableEq, Repr

abbrev Result := Except Fault

/-- `NPROC`: how many processes there are at most. -/
def nproc : ℕ := 64

/-- Steps after which a loop is taken not to end. -/
def loopFuel : ℕ := 2 ^ 64

def int32 (x : ℤ) : ℤ := Int.bmod x (2 ^ 32)

def uint32 (x : ℤ) : ℕ := (x % 2 ^ 32).toNat

/-- A `uint64`, wrapped around to 64 bits. -/
def uint64 (x : ℤ) : ℕ := (x % 2 ^ 64).toNat

theorem int32_of_lt {n : ℕ} (h : n < 2 ^ 31) : int32 n = n := by
  unfold int32
  rw [Int.bmod_eq_of_le] <;> omega

theorem uint32_lt (x : ℤ) : uint32 x < 2 ^ 32 := by
  unfold uint32
  omega

theorem uint32_int32 {n : ℕ} (h : n < 2 ^ 32) : uint32 (int32 n) = n := by
  have hmod : (n : ℤ).bmod (2 ^ 32) % (2 ^ 32 : ℕ) = n % (2 ^ 32 : ℕ) := Int.bmod_emod
  unfold uint32 int32
  omega

theorem uint32_natCast (n : ℕ) : uint32 n = n % 2 ^ 32 := by
  unfold uint32
  omega

theorem uint32_of_lt {n : ℕ} (h : n < 2 ^ 32) : uint32 n = n := by
  unfold uint32
  omega

theorem uint32_succ {n : ℕ} (h : n + 1 < 2 ^ 32) : uint32 (n + 1) = n + 1 := by
  unfold uint32
  omega

theorem uint32_pred {n : ℕ} (h0 : 0 < n) (h : n < 2 ^ 32) : uint32 (n - 1) = n - 1 := by
  unfold uint32
  omega

theorem uint32_sub {a b : ℕ} (h : b ≤ 2 ^ 32) : uint32 (a - b) = (a + (2 ^ 32 - b)) % 2 ^ 32 := by
  unfold uint32
  omega

theorem uint64_of_lt {n : ℕ} (h : n < 2 ^ 64) : uint64 n = n := by
  unfold uint64
  omega

@[simp] theorem ok_bind {α β : Type} (a : α) (f : α → Result β) :
    ((Except.ok a : Result α) >>= f) = f a := rfl

@[simp] theorem error_bind {α β : Type} (e : Fault) (f : α → Result β) :
    ((Except.error e : Result α) >>= f) = .error e := rfl

@[simp] theorem pure_eq_ok {α : Type} (a : α) : (pure a : Result α) = .ok a := rfl

end Xv6
