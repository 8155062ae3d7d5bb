import Xv6.Machine.Outcome

/-! Sequences of calls.

A `Protocol` is a state with calls on it: what a call does, which may fail, and
when a caller may make it. `run` makes calls one after another and `Proper` says
that each is allowed in the state in which it is made. An invariant that every
allowed call keeps is kept by every proper sequence (`run_outcome`). -/
namespace Xv6

structure Protocol (ε σ κ : Type) where
  step : σ → κ → Except ε σ
  allowed : σ → κ → Prop

namespace Protocol

variable {ε σ κ : Type} (P : Protocol ε σ κ)

def run : σ → List κ → Except ε σ
  | s, [] => .ok s
  | s, c :: cs => P.step s c >>= fun s' => run s' cs

def Proper : σ → List κ → Prop
  | _, [] => True
  | s, c :: cs => P.allowed s c ∧ ∀ s', P.step s c = .ok s' → Proper s' cs

/-- Whether a sequence is proper can be computed by running it. -/
instance decidableProper [∀ s c, Decidable (P.allowed s c)] :
    ∀ (s : σ) (cs : List κ), Decidable (P.Proper s cs)
  | _, [] => .isTrue trivial
  | s, c :: cs =>
    match h : P.step s c with
    | .error _ => decidable_of_iff (P.allowed s c) <| by
        simp [Proper, h]
    | .ok s' =>
      have := decidableProper s' cs
      decidable_of_iff (P.allowed s c ∧ P.Proper s' cs) <| by
        simp [Proper, h]

variable {P} {s : σ} {c : κ}

theorem run_cons {s' : σ} (cs : List κ) (h : P.step s c = .ok s') :
    P.run s (c :: cs) = P.run s' cs := by
  rw [run, h]
  rfl

variable (P) in
/-- Allowed calls lead from one state to another. -/
def Reaches (s s' : σ) : Prop := ∃ cs, P.Proper s cs ∧ P.run s cs = .ok s'

theorem Reaches.refl (s : σ) : P.Reaches s s := ⟨[], trivial, rfl⟩

theorem Reaches.head {s' s'' : σ} (ha : P.allowed s c) (hs : P.step s c = .ok s') (h : P.Reaches s' s'') :
    P.Reaches s s'' := by
  obtain ⟨cs, hp, hrun⟩ := h
  refine ⟨c :: cs, ⟨ha, fun t ht => ?_⟩, ?_⟩
  · grind
  · rw [run_cons cs hs]
    exact hrun

theorem Reaches.trans {s' s'' : σ} (h : P.Reaches s s') (h' : P.Reaches s' s'') : P.Reaches s s'' := by
  obtain ⟨cs, hp, hrun⟩ := h
  induction cs generalizing s with
  | nil =>
    cases hrun
    exact h'
  | cons c cs ih =>
    obtain ⟨ha, hrest⟩ := hp
    cases hs : P.step s c with
    | error e =>
      rw [run, hs] at hrun
      cases hrun
    | ok t =>
      rw [run_cons cs hs] at hrun
      exact .head ha hs (ih (hrest t hs) hrun)

theorem proper_of_forall (h : ∀ s c, P.allowed s c) (s : σ) (cs : List κ) : P.Proper s cs := by
  induction cs generalizing s with
  | nil => trivial
  | cons c cs ih => exact ⟨h s c, fun s' _ => ih s'⟩

/-- Allowed calls that keep an invariant, or fail in one of the ways `E`, make proper
runs that do. -/
theorem run_outcome {E : ε → Prop} {I : σ → Prop} {cs : List κ}
    (hstep : ∀ c ∈ cs, ∀ s, I s → P.allowed s c → Outcome E (P.step s c) I) (hs : I s)
    (hp : P.Proper s cs) : Outcome E (P.run s cs) I := by
  induction cs generalizing s with
  | nil => exact hs
  | cons c cs ih =>
    obtain ⟨hc, hrest⟩ := hp
    have hone := hstep c (List.mem_cons_self ..) s hs hc
    unfold run
    cases ht : P.step s c with
    | error e =>
      rw [ht] at hone
      exact hone
    | ok t =>
      rw [ht] at hone
      exact ih (fun c' hc' => hstep c' (List.mem_cons_of_mem _ hc')) hone (hrest t ht)

theorem run_invariant {I : σ → Prop} {cs : List κ}
    (hstep : ∀ c ∈ cs, ∀ s, I s → P.allowed s c → ∃ s', P.step s c = .ok s' ∧ I s') (hs : I s)
    (hp : P.Proper s cs) : ∃ s', P.run s cs = .ok s' ∧ I s' :=
  Outcome.total.mp (run_outcome (fun c hc s hI ha => Outcome.total.mpr (hstep c hc s hI ha)) hs hp)

/-- A call that uses up something of which there is only so much fails in the end, when it is made
again and again. -/
theorem run_exhausts {I : σ → Prop} (used : σ → ℕ) (bound : ℕ)
    (hstep : ∀ s, I s → P.allowed s c ∧ ∀ s', P.step s c = .ok s' → I s' ∧ used s < used s')
    (hle : ∀ s, I s → used s ≤ bound) (hs : I s) :
    ∃ s' e, P.Reaches s s' ∧ I s' ∧ P.step s' c = .error e := by
  -- The induction is on what is left.
  induction hleft : bound - used s using Nat.strongRecOn generalizing s with
  | ind left ih =>
    obtain ⟨ha, hnext⟩ := hstep s hs
    cases hc : P.step s c with
    | error e => exact ⟨s, e, .refl s, hs, hc⟩
    | ok t =>
      obtain ⟨ht, hlt⟩ := hnext t hc
      have hbound := hle t ht
      obtain ⟨s', e, hreach, hs', he⟩ := ih (bound - used t) (by omega) ht rfl
      exact ⟨s', e, .head ha hc hreach, hs', he⟩

theorem Reaches.keeps {E : ε → Prop} {I : σ → Prop} {s' : σ} (h : P.Reaches s s')
    (hstep : ∀ s c, I s → P.allowed s c → Outcome E (P.step s c) I) (hs : I s) : I s' := by
  obtain ⟨cs, hp, hrun⟩ := h
  have hout := run_outcome (fun c _ s hI ha => hstep s c hI ha) hs hp
  rw [hrun] at hout
  exact hout

variable (P) in
/-- The same calls, to be made only where `C` holds too. -/
def restrict (C : σ → κ → Prop) : Protocol ε σ κ := ⟨P.step, fun s c => P.allowed s c ∧ C s c⟩

instance {C : σ → κ → Prop} [∀ s c, Decidable (P.allowed s c)] [∀ s c, Decidable (C s c)] (s : σ)
    (c : κ) : Decidable ((P.restrict C).allowed s c) :=
  inferInstanceAs (Decidable (_ ∧ _))

@[simp] theorem restrict_run (C : σ → κ → Prop) (s : σ) (cs : List κ) :
    (P.restrict C).run s cs = P.run s cs := by
  induction cs generalizing s with
  | nil => rfl
  | cons c cs ih =>
    unfold run
    simp only [ih]
    rfl

/-- When a call stays in `A` exactly where `C` holds, the runs that are in `A` all along are those
whose calls all meet `C`. -/
theorem run_stays_iff {I A : σ → Prop} {C : σ → κ → Prop}
    (hI : ∀ s c s', I s → P.allowed s c → P.step s c = .ok s' → I s')
    (hC : ∀ s c, I s → P.allowed s c → A s → (C s c ↔ ∀ s', P.step s c = .ok s' → A s'))
    {cs : List κ} (hs : I s) (hA : A s) (hp : P.Proper s cs) :
    (∀ ds s', ds <+: cs → P.run s ds = .ok s' → A s') ↔ (P.restrict C).Proper s cs := by
  induction cs generalizing s with
  | nil =>
    refine ⟨fun _ => trivial, fun _ ds s' hds hrun => ?_⟩
    obtain rfl := List.prefix_nil.mp hds
    cases hrun
    exact hA
  | cons c cs ih =>
    obtain ⟨hc, hrest⟩ := hp
    refine ⟨fun hall => ?_, fun ⟨⟨_, hcC⟩, hcs⟩ ds s' hds hrun => ?_⟩
    · have hcA : ∀ t, P.step s c = .ok t → A t := fun t ht =>
        hall [c] t ⟨cs, rfl⟩ (run_cons [] ht)
      refine ⟨⟨hc, (hC s c hs hc hA).mpr hcA⟩, fun t (ht : P.step s c = .ok t) => ?_⟩
      refine (ih (hI s c t hs hc ht) (hcA t ht) (hrest t ht)).mp fun ds s' hds hrun => ?_
      exact hall (c :: ds) s' ((List.prefix_cons_inj c).mpr hds) ((run_cons ds ht).trans hrun)
    · cases ds with
      | nil =>
        cases hrun
        exact hA
      | cons d ds =>
        obtain ⟨rfl, hcut⟩ := List.cons_prefix_cons.mp hds
        cases ht : P.step s d with
        | error e =>
          rw [run, ht] at hrun
          cases hrun
        | ok t =>
          rw [run_cons ds ht] at hrun
          have ht' := (hC s d hs hc hA).mp hcC t ht
          exact (ih (hI s d t hs hc ht) ht' (hrest t ht)).mpr (hcs t ht) ds s' hcut hrun

/-- When a call fails badly exactly where `C` does not hold, the proper runs that do not
fail badly are those whose calls all meet `C`. -/
theorem run_fails_iff (bad : ε → Prop) {I : σ → Prop} {C : σ → κ → Prop}
    (hgood : ∀ s c, I s → P.allowed s c → C s c → Outcome (fun e => ¬ bad e) (P.step s c) I)
    (hbad : ∀ s c, I s → P.allowed s c → ¬ C s c → ∃ e, P.step s c = .error e ∧ bad e)
    {cs : List κ} (hs : I s) (hp : P.Proper s cs) :
    (∀ e, P.run s cs = .error e → ¬ bad e) ↔ (P.restrict C).Proper s cs := by
  induction cs generalizing s with
  | nil => exact ⟨fun _ => trivial, fun _ e he => by cases he⟩
  | cons c cs ih =>
    obtain ⟨hc, hrest⟩ := hp
    by_cases hC : C s c
    · have hone := hgood s c hs hc hC
      cases ht : P.step s c with
      | error e =>
        rw [ht] at hone
        have hrun : P.run s (c :: cs) = .error e := by
          rw [run, ht]
          rfl
        refine ⟨fun _ => ⟨⟨hc, hC⟩, fun s' hs' => ?_⟩, fun _ e' he' => ?_⟩
        · cases ht.symm.trans hs'
        · cases hrun.symm.trans he'
          exact hone
      | ok t =>
        rw [ht] at hone
        rw [run_cons _ ht, ih hone (hrest t ht)]
        refine ⟨fun h => ⟨⟨hc, hC⟩, fun s' hs' => ?_⟩, fun h => h.2 t ht⟩
        cases ht.symm.trans hs'
        exact h
    · obtain ⟨e, he, hb⟩ := hbad s c hs hc hC
      refine ⟨fun h => absurd hb (h e ?_), fun h => absurd h.1.2 hC⟩
      rw [run, he]
      rfl

end Protocol

end Xv6
