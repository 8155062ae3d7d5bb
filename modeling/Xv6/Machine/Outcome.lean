import Mathlib.Data.List.Basic

/-! Pre- and postconditions of calls that may fail.

`Outcome E x Q`: the call `x` returns with `Q`, or fails in one of the ways `E`.
With no way to fail this is total correctness (`Outcome.total`), with every way it
is partial correctness. `Outcome.bind` runs one call after another. -/
namespace Xv6

/-- The call returns with `Q` or fails with one of the errors `E`. -/
def Outcome {ε α : Type*} (E : ε → Prop) (x : Except ε α) (Q : α → Prop) : Prop :=
  match x with
  | .ok a => Q a
  | .error e => E e

namespace Outcome

variable {ε α β : Type} {E : ε → Prop} {x : Except ε α} {Q R : α → Prop}

/-- Whether a call returns with `Q` can be computed by making it. -/
instance decidableReturns [DecidablePred Q] : (x : Except ε α) → Decidable (∃ a, x = .ok a ∧ Q a)
  | .ok a => decidable_of_iff (Q a) ⟨fun h => ⟨a, rfl, h⟩, fun ⟨_, heq, h⟩ => Except.ok.inj heq ▸ h⟩
  | .error _ => .isFalse nofun

@[simp] theorem ok {a : α} : Outcome E (.ok a) Q ↔ Q a := Iff.rfl

@[simp] theorem pure {a : α} : Outcome E (Pure.pure a) Q ↔ Q a := Iff.rfl

@[simp] theorem error {e : ε} : Outcome E (.error e) Q ↔ E e := Iff.rfl

theorem mono (h : Outcome E x Q) (hQ : ∀ a, Q a → R a) : Outcome E x R := by
  cases x with
  | ok a => exact hQ a h
  | error e => exact h

theorem any (x : Except ε α) : Outcome (fun _ => True) x fun _ => True := by
  cases x <;> trivial

theorem imp {E' : ε → Prop} (h : Outcome E x Q) (hE : ∀ e, E e → E' e) : Outcome E' x Q := by
  cases x with
  | ok a => exact h
  | error e => exact hE e h

theorem bind {f : α → Except ε β} {S : β → Prop} (h : Outcome E x Q)
    (hf : ∀ a, Q a → Outcome E (f a) S) : Outcome E (x >>= f) S := by
  cases x with
  | ok a => exact hf a h
  | error e => exact h

theorem map {f : α → β} {S : β → Prop} (h : Outcome E x fun a => S (f a)) : Outcome E (x.map f) S := by
  cases x with
  | ok a => exact h
  | error e => exact h

theorem andThen {σ : Type} {y : StateT σ (Except ε) α} {f : α → StateT σ (Except ε) β} {s : σ}
    {P : α × σ → Prop} {S : β × σ → Prop} (h : Outcome E (y s) P)
    (hf : ∀ a s', P (a, s') → Outcome E (f a s') S) : Outcome E ((y >>= f) s) S :=
  h.bind fun r hr => hf r.1 r.2 hr

theorem foldlM_range {f : α → ℕ → Except ε α} {a : α} {P : ℕ → α → Prop} (n : ℕ) (h : P 0 a)
    (hstep : ∀ k < n, ∀ a, P k a → Outcome E (f a k) (P (k + 1))) :
    Outcome E ((List.range n).foldlM f a) (P n) := by
  induction n with
  | zero => exact h
  | succ n ih =>
    rw [List.range_succ, List.foldlM_append]
    refine (ih fun k hk => hstep k (by omega)).bind fun b hb => ?_
    rw [List.foldlM_cons]
    refine (hstep n (by omega) b hb).bind fun c hc => ?_
    exact hc

theorem total : Outcome (fun _ => False) x Q ↔ ∃ a, x = .ok a ∧ Q a := by
  cases x with
  | ok a =>
    refine ⟨fun h => ⟨a, rfl, h⟩, ?_⟩
    intro ⟨b, hb, hQ⟩
    cases hb
    exact hQ
  | error e =>
    refine ⟨False.elim, ?_⟩
    intro ⟨b, hb, _⟩
    cases hb

theorem and (h : Outcome E x Q) (h' : Outcome (fun _ => True) x R) :
    Outcome E x fun a => Q a ∧ R a := by
  cases x with
  | ok a => exact ⟨h, h'⟩
  | error e => exact h

theorem of_ok {a : α} (h : Outcome E x Q) (hx : x = .ok a) : Q a := by
  subst hx
  exact h

theorem iff_forall : Outcome (fun _ => True) x Q ↔ ∀ a, x = .ok a → Q a := by
  cases x with
  | error e => exact iff_of_true trivial nofun
  | ok a => exact ⟨fun h b hb => Except.ok.inj hb ▸ h, fun h => h a rfl⟩

theorem bind_pure {f : α → β} {S : β → Prop} :
    Outcome E (x >>= fun a => Pure.pure (f a)) S ↔ Outcome E x fun a => S (f a) := by
  cases x <;> rfl

theorem of_returns (h : ∃ a, x = .ok a ∧ Q a) : Outcome E x Q := by
  obtain ⟨a, rfl, hQ⟩ := h
  exact hQ

end Outcome

end Xv6
