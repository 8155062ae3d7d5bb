import Mathlib.Data.List.Basic
import Mathlib.Order.Nat

/-! Programs that take and give back locks.

A program is a tree of the steps that matter for locks. It goes on in one way for each value that it
may find in memory (`read`). A call is put between `enter` and `leave`, where the locks at its start
are kept to be compared with those at its end.

Locks have ranks, and a program is in order (`Ordered`) if it takes only locks above those it
holds, gives back what it holds, and ends each call with the locks it had at its start. A function is
shown to be in order once, for all its callers (`Callable`). -/
namespace Xv6.Locking

variable {L α β : Type}

inductive Act (L : Type) where
  | acquire (l : L)
  | release (l : L)
  /-- A call begins, and ends. -/
  | enter
  | leave
  /-- A new lock, and one that is no longer there. -/
  | create (l : L)
  | discard (l : L)
  | read
  deriving DecidableEq, Repr

/-- The value that `read` finds is given to what follows; the other steps ignore it. -/
inductive Prog (L α : Type) where
  | done (a : α)
  | panic (message : String)
  | act (a : Act L) (next : ℕ → Prog L α)

namespace Prog

def bind : Prog L α → (α → Prog L β) → Prog L β
  | done a, f => f a
  | panic message, _ => panic message
  | act a next, f => act a fun n => (next n).bind f

instance : Monad (Prog L) where
  pure := done
  bind := bind

def isDone : Prog L α → Bool
  | done _ => true
  | panic _ | act _ _ => false

end Prog

def acquire (l : L) : Prog L Unit := .act (.acquire l) fun _ => .done ()

def release (l : L) : Prog L Unit := .act (.release l) fun _ => .done ()

def create (l : L) : Prog L Unit := .act (.create l) fun _ => .done ()

def discard (l : L) : Prog L Unit := .act (.discard l) fun _ => .done ()

def read : Prog L ℕ := .act .read .done

def call (x : Prog L α) : Prog L α := .act .enter fun _ => x.bind fun a => .act .leave fun _ => .done a

def whenever (c : Bool) (x : Prog L Unit) : Prog L Unit := if c then x else pure ()

def loop : ℕ → Prog L Unit → Prog L Unit
  | 0, _ => pure ()
  | n + 1, x => x >>= fun _ => loop n x

/-! ### Order -/

/-- The locks that one holds, the last one first, and those it held when its calls began. -/
structure Thread (L : Type) where
  held : List L
  frames : List (List L)
  deriving DecidableEq

def Thread.rest : Thread L := ⟨[], []⟩

def Thread.Below (rank : L → ℕ) (r : ℕ) (t : Thread L) : Prop := ∀ l ∈ t.held, rank l < r

theorem Thread.Below.mono {rank : L → ℕ} {r r' : ℕ} {t : Thread L} (h : t.Below rank r) (hr : r ≤ r') :
    t.Below rank r' := fun l hl => (h l hl).trans_le hr

theorem Thread.Below.notMem {rank : L → ℕ} {t : Thread L} {l : L} (h : t.Below rank (rank l)) : l ∉ t.held :=
  fun hl => (h l hl).ne rfl

variable [DecidableEq L]

def Act.effect : Act L → Thread L → Thread L
  | acquire l, t => {t with held := l :: t.held}
  | release l, t => {t with held := t.held.erase l}
  | enter, t => {t with frames := t.held :: t.frames}
  | leave, t => {t with frames := t.frames.tail}
  | create _, t | discard _, t | read, t => t

variable (rank : L → ℕ)

def Act.Safe : Act L → Thread L → Prop
  | acquire l, t => t.Below rank (rank l)
  | release l, t => l ∈ t.held
  | leave, t => t.frames.head? = some t.held
  | discard l, t => l ∉ t.held
  | enter, _ | create _, _ | read, _ => True

def Ordered (t : Thread L) : Prog L α → (α → Thread L → Prop) → Prop
  | .done a, Q => Q a t
  | .panic _, _ => True
  | .act a next, Q => a.Safe rank t ∧ ∀ n, Ordered (a.effect t) (next n) Q

/-- A program ends with the locks it began with. -/
def Keeps (t : Thread L) (x : Prog L α) : Prop := Ordered rank t x fun _ t' => t' = t

/-- A program may be called by those who hold only locks below `r`, and keeps them. -/
def Callable (r : ℕ) (x : Prog L α) : Prop := ∀ t : Thread L, t.Below rank r → Keeps rank t x

variable {rank} {t : Thread L} {l : L} {r n : ℕ} {x : Prog L α} {f : α → Prog L β} {P : α → Thread L → Prop}
  {Q : β → Thread L → Prop}

theorem Thread.Below.acquire (h : t.Below rank (rank l)) : ((Act.acquire l).effect t).Below rank (rank l + 1) := by
  intro l' hl'
  rcases List.mem_cons.mp hl' with rfl | hl'
  · exact Nat.lt_succ_self _
  · exact (h l' hl').trans (Nat.lt_succ_self _)

namespace Ordered

theorem bind (h : Ordered rank t x fun a t' => Ordered rank t' (f a) Q) : Ordered rank t (x >>= f) Q := by
  induction x generalizing t with
  | done a => exact h
  | panic message => trivial
  | act a next ih => exact ⟨h.1, fun n => ih n (h.2 n)⟩

theorem mono {Q' : α → Thread L → Prop} (h : Ordered rank t x P) (hQ : ∀ a t', P a t' → Q' a t') :
    Ordered rank t x Q' := by
  induction x generalizing t with
  | done a => exact hQ a t h
  | panic message => trivial
  | act a next ih => exact ⟨h.1, fun n => ih n (h.2 n)⟩

theorem done {a : α} (h : P a t) : Ordered rank t (pure a) P := h

theorem panic {message : String} : Ordered rank t (.panic message) P := trivial

theorem keeps (hx : Keeps rank t x) (hf : ∀ a, Ordered rank t (f a) Q) : Ordered rank t (x >>= f) Q :=
  bind (mono hx fun a _ ht => ht ▸ hf a)

theorem acquire {f : Unit → Prog L β} (h : t.Below rank (rank l))
    (hf : Ordered rank ((Act.acquire l).effect t) (f ()) Q) : Ordered rank t (acquire l >>= f) Q :=
  ⟨h, fun _ => hf⟩

theorem release {f : Unit → Prog L β} (hf : Ordered rank t (f ()) Q) :
    Ordered rank ((Act.acquire l).effect t) (release l >>= f) Q := by
  refine ⟨List.mem_cons_self, fun _ => ?_⟩
  change Ordered rank {t with held := (l :: t.held).erase l} (f ()) Q
  rw [List.erase_cons_head]
  exact hf

theorem create {f : Unit → Prog L β} (hf : Ordered rank t (f ()) Q) : Ordered rank t (create l >>= f) Q :=
  ⟨trivial, fun _ => hf⟩

theorem discard {f : Unit → Prog L β} (h : l ∉ t.held) (hf : Ordered rank t (f ()) Q) :
    Ordered rank t (discard l >>= f) Q := ⟨h, fun _ => hf⟩

theorem read {f : ℕ → Prog L β} (hf : ∀ n, Ordered rank t (f n) Q) : Ordered rank t (read >>= f) Q := ⟨trivial, hf⟩

theorem ite {c : Prop} [Decidable c] {x y : Prog L α} (hx : Ordered rank t x P) (hy : Ordered rank t y P) :
    Ordered rank t (if c then x else y) P := by
  split
  · exact hx
  · exact hy

end Ordered

namespace Keeps

theorem whenever {c : Bool} {x : Prog L Unit} (h : Keeps rank t x) : Keeps rank t (whenever c x) :=
  Ordered.ite h (Ordered.done rfl)

theorem loop {x : Prog L Unit} (h : Keeps rank t x) (n : ℕ) : Keeps rank t (loop n x) := by
  induction n with
  | zero => exact Ordered.done rfl
  | succ n ih => exact Ordered.keeps h fun _ => ih

end Keeps

namespace Callable

theorem call (h : Callable rank r x) : Callable rank r (call x) := by
  intro t ht
  have hbody : Keeps rank ⟨t.held, t.held :: t.frames⟩ x := h _ ht
  refine ⟨trivial, fun _ => Ordered.bind (x := x) (Ordered.mono hbody fun a t' ht' => ?_)⟩
  subst ht'
  exact ⟨rfl, fun _ => rfl⟩

end Callable

end Xv6.Locking
