import Mathlib.Algebra.Order.BigOperators.Group.Finset
import Mathlib.Data.Set.Card
import Xv6.Virtio.Model

/-! The descriptors.

Every descriptor is free or in the chain of one request (`Chains`), so that there are three of
them for each request (`Chains.count`). `alloc3_desc` takes three or none, and `free_chain` gives
back a chain that was written as `format` does. -/
namespace Xv6.Virtio

open Function

variable {free free' : ℕ → Bool} {req req' : ℕ → Option Request} {p q i : ℕ} {r t : Request} {s s' : State}

structure Chains (free : ℕ → Bool) (req : ℕ → Option Request) : Prop where
  nodup : ∀ p r, req p = some r → r.chain.Nodup
  taken : ∀ p r, req p = some r → ∀ i ∈ r.chain, i < num ∧ free i = false
  apart : ∀ p q r t, req p = some r → req q = some t → p ≠ q → ∀ i ∈ r.chain, i ∉ t.chain
  owned : ∀ i < num, free i = false → ∃ p r, req p = some r ∧ i ∈ r.chain

namespace Chains

theorem congr (h : Chains free req) (hfree : ∀ i, free' i = free i) (hreq : ∀ p, req' p = req p) :
    Chains free' req' := by
  obtain rfl : free' = free := funext hfree
  obtain rfl : req' = req := funext hreq
  exact h

theorem idx0_mem (r : Request) : r.idx0 ∈ r.chain := List.mem_cons_self ..

section
variable (h : Chains free req)
include h

theorem eq_of_mem (hp : req p = some r) (hq : req q = some t) (hr : i ∈ r.chain)
    (ht : i ∈ t.chain) : p = q := by
  by_contra hne
  exact h.apart p q r t hp hq hne i hr ht

theorem alloc (hp : req p = none) (hnodup : r.chain.Nodup)
    (hfree : ∀ i ∈ r.chain, i < num ∧ free i = true) (hfree' : ∀ i, free' i = (free i && !decide (i ∈ r.chain)))
    (hreq : req' = update req p (some r)) : Chains free' req' := by
  have hnew : ∀ q t, req' q = some t → q = p ∧ t = r ∨ q ≠ p ∧ req q = some t := by
    intro q t hq
    rw [hreq] at hq
    grind
  -- The descriptors of other requests were not free.
  have hother : ∀ q t, req q = some t → ∀ i ∈ t.chain, i ∉ r.chain := by
    intro q t hq i hi hr
    have hf := (hfree i hr).2
    rw [(h.taken q t hq i hi).2] at hf
    cases hf
  refine ⟨fun q t hq => ?_, fun q t hq i hi => ?_, fun q q' t t' hq hq' hne i hi hi' => ?_, fun i hi hf => ?_⟩
  · rcases hnew q t hq with ⟨-, rfl⟩ | ⟨-, hq⟩
    · exact hnodup
    · exact h.nodup q t hq
  · rcases hnew q t hq with ⟨-, rfl⟩ | ⟨-, hq⟩
    · exact ⟨(hfree i hi).1, by simp [hfree', hi]⟩
    · exact ⟨(h.taken q t hq i hi).1, by simp [hfree', (h.taken q t hq i hi).2]⟩
  · rcases hnew q t hq with ⟨hqp, rfl⟩ | ⟨-, hq⟩ <;> rcases hnew q' t' hq' with ⟨hqp', rfl⟩ | ⟨-, hq'⟩
    · exact hne (hqp.trans hqp'.symm)
    · exact hother q' t' hq' i hi' hi
    · exact hother q t hq i hi hi'
    · exact h.apart q q' t t' hq hq' hne i hi hi'
  · by_cases hr : i ∈ r.chain
    · exact ⟨p, r, by rw [hreq, update_self], hr⟩
    · rw [hfree', decide_eq_false hr] at hf
      obtain ⟨q, t, hq, ht⟩ := h.owned i hi (by simpa using hf)
      have hqp : q ≠ p := by
        grind
      exact ⟨q, t, by rw [hreq, update_of_ne hqp]; exact hq, ht⟩

theorem release (hp : req p = some r)
    (hfree' : ∀ i, free' i = (free i || decide (i ∈ r.chain))) (hreq : req' = update req p none) :
    Chains free' req' := by
  have hold : ∀ q t, req' q = some t → q ≠ p ∧ req q = some t := by
    intro q t hq
    rw [hreq] at hq
    grind
  refine ⟨fun q t hq => h.nodup q t (hold q t hq).2, fun q t hq i hi => ?_, fun q q' t t' hq hq' hne =>
    h.apart q q' t t' (hold q t hq).2 (hold q' t' hq').2 hne, fun i hi hf => ?_⟩
  · obtain ⟨hqp, hq⟩ := hold q t hq
    have hr := h.apart q p t r hq hp hqp i hi
    exact ⟨(h.taken q t hq i hi).1, by simp [hfree', (h.taken q t hq i hi).2, hr]⟩
  · rw [hfree', Bool.or_eq_false_iff, decide_eq_false_iff_not] at hf
    obtain ⟨q, t, hq, ht⟩ := h.owned i hi hf.1
    have hqp : q ≠ p := by
      grind
    exact ⟨q, t, by rw [hreq, update_of_ne hqp]; exact hq, ht⟩

theorem count : {p | (req p).isSome}.Finite ∧
      ((Finset.range num).filter fun i => free i = true).card + 3 * {p | (req p).isSome}.ncard = num := by
  -- A request is known by its first descriptor.
  have hfin : {p | (req p).isSome}.Finite := by
    refine Set.Finite.of_injOn (f := fun p => ((req p).map Request.idx0).getD 0) (t := ↑(Finset.range num))
      (fun p hp => ?_) (fun p hp q hq heq => ?_) (Finset.finite_toSet _)
    · obtain ⟨r, hr⟩ := Option.isSome_iff_exists.mp hp
      simp only [hr, Option.map_some, Option.getD_some, Finset.coe_range, Set.mem_Iio]
      exact (h.taken p r hr _ (idx0_mem r)).1
    · obtain ⟨r, hr⟩ := Option.isSome_iff_exists.mp hp
      obtain ⟨t, ht⟩ := Option.isSome_iff_exists.mp hq
      simp only [hr, ht, Option.map_some, Option.getD_some] at heq
      exact h.eq_of_mem hr ht (idx0_mem r) (heq ▸ idx0_mem t)
  refine ⟨hfin, ?_⟩
  have hpart : ((Finset.range num).filter fun i => free i = false) =
      hfin.toFinset.biUnion fun p => ((req p).map fun r => r.chain.toFinset).getD ∅ := by
    ext i
    rw [Finset.mem_filter, Finset.mem_range, Finset.mem_biUnion]
    constructor
    · rintro ⟨hi, hf⟩
      obtain ⟨p, r, hr, hmem⟩ := h.owned i hi hf
      exact ⟨p, hfin.mem_toFinset.mpr (by simp [hr]), by simpa [hr] using hmem⟩
    · rintro ⟨p, hp, hmem⟩
      obtain ⟨r, hr⟩ := Option.isSome_iff_exists.mp (hfin.mem_toFinset.mp hp)
      rw [hr] at hmem
      exact h.taken p r hr i (List.mem_toFinset.mp hmem)
  have hcard : ((Finset.range num).filter fun i => free i = false).card = hfin.toFinset.card * 3 := by
    rw [hpart, Finset.card_biUnion]
    · refine Finset.sum_const_nat fun p hp => ?_
      obtain ⟨r, hr⟩ := Option.isSome_iff_exists.mp (hfin.mem_toFinset.mp hp)
      rw [hr]
      exact List.toFinset_card_of_nodup (h.nodup p r hr)
    · intro p hp q hq hne
      obtain ⟨r, hr⟩ := Option.isSome_iff_exists.mp (hfin.mem_toFinset.mp hp)
      obtain ⟨t, ht⟩ := Option.isSome_iff_exists.mp (hfin.mem_toFinset.mp hq)
      dsimp only [Function.onFun]
      rw [hr, ht]
      refine Finset.disjoint_left.mpr fun i hi hi' => ?_
      exact h.apart p q r t hr ht hne i (List.mem_toFinset.mp hi) (List.mem_toFinset.mp hi')
  have hsplit := Finset.card_filter_add_card_filter_not (s := Finset.range num) fun i => free i = true
  rw [Finset.card_range] at hsplit
  simp only [Bool.not_eq_true] at hsplit
  rw [Set.ncard_eq_toFinset_card _ hfin]
  omega

end

end Chains

/-! ### Allocating and freeing -/

/-- Only descriptors change. -/
structure Touches (s s' : State) (is : List ℕ) : Prop where
  eq : ∃ free desc, s' = {s with free := free, desc := desc}
  desc : ∀ i, i ∉ is → s'.desc i = s.desc i

theorem freeDesc_eq (hi : i < num) (hf : s.free i = false) :
    s.freeDesc i = .ok {s with desc := update s.desc i ⟨.null, 0, 0, 0⟩, free := update s.free i true} := by
  unfold State.freeDesc
  rw [if_neg (by omega), hf]
  rfl

theorem freeAll_spec (is : List ℕ) (s : State) (hnodup : is.Nodup) (hfree : ∀ i ∈ is, i < num ∧ s.free i = false) :
    ∃ s', State.freeAll is s = .ok s' ∧ Touches s s' is ∧ ∀ i, s'.free i = (s.free i || decide (i ∈ is)) := by
  induction is generalizing s with
  | nil => exact ⟨s, rfl, ⟨⟨s.free, s.desc, rfl⟩, fun _ _ => rfl⟩, fun i => by simp⟩
  | cons j is ih =>
    obtain ⟨hnot, hnodup⟩ := List.nodup_cons.mp hnodup
    obtain ⟨hj, hfree⟩ := List.forall_mem_cons.mp hfree
    obtain ⟨s', hrun, htouches, hfree'⟩ := ih
      {s with desc := update s.desc j ⟨.null, 0, 0, 0⟩, free := update s.free j true} hnodup fun i hi =>
        ⟨(hfree i hi).1, by
          dsimp only
          rw [update_of_ne (ne_of_mem_of_not_mem hi hnot)]
          exact (hfree i hi).2⟩
    refine ⟨s', ?_, ⟨htouches.eq, fun i hi => ?_⟩, fun i => ?_⟩
    · unfold State.freeAll
      rw [freeDesc_eq hj.1 hj.2]
      exact hrun
    · rw [List.mem_cons, not_or] at hi
      rw [htouches.desc i hi.2]
      exact update_of_ne hi.1 ..
    grind

/-- What a search for three descriptors that fails, or succeeds, leads to. -/
def Allocated (s s' : State) (idx : List ℕ) (n : ℕ) : Option (List ℕ) → Prop
  | some l => ∃ new, l = idx ++ new ∧ new.length = n ∧ l.Nodup ∧ (∀ i ∈ new, i < num ∧ s.free i = true) ∧
      s' = {s with free := fun i => s.free i && !decide (i ∈ new)}
  | none => ∃ is, (∀ i ∈ is, i ∈ idx ∨ s.free i = true) ∧ Touches s s' is ∧
      ∀ i, s'.free i = (s.free i || decide (i ∈ idx))

theorem allocLoop_spec (n : ℕ) (idx : List ℕ) (s : State) (hnodup : idx.Nodup)
    (htaken : ∀ i ∈ idx, i < num ∧ s.free i = false) :
    ∃ o s', State.allocLoop n idx s = .ok (o, s') ∧ Allocated s s' idx n o := by
  induction n generalizing idx s with
  | zero => exact ⟨some idx, s, rfl, [], by simp, rfl, hnodup, nofun, by simp⟩
  | succ n ih =>
    unfold State.allocLoop State.allocDesc
    cases hfind : (List.range num).find? s.free with
    | none =>
      obtain ⟨s', hrun, htouches, hfree⟩ := freeAll_spec idx s hnodup htaken
      rw [hrun]
      exact ⟨none, s', rfl, idx, fun i hi => .inl hi, htouches, hfree⟩
    | some j =>
      have hj : j < num := List.mem_range.mp (List.mem_of_find?_eq_some hfind)
      have hfree : s.free j = true := List.find?_some hfind
      have hnot : j ∉ idx := fun hmem => by
        have := (htaken j hmem).2
        rw [hfree] at this
        cases this
      obtain ⟨o, s', hrun, ho⟩ := ih (idx ++ [j]) {s with free := update s.free j false}
        (List.nodup_append'.mpr ⟨hnodup, List.nodup_singleton j, List.disjoint_singleton.mpr hnot⟩)
        fun i hi => by
          grind
      refine ⟨o, s', hrun, ?_⟩
      cases o with
      | some l =>
        obtain ⟨new, rfl, hlen, hl, hnew, rfl⟩ := ho
        refine ⟨j :: new, by simp, by simp [hlen], hl, ?_, ?_⟩
        · refine List.forall_mem_cons.mpr ⟨⟨hj, hfree⟩, fun i hi => ?_⟩
          grind [update_of_ne]
        · congr 1
          funext i
          by_cases hij : i = j
          · simp [hij]
          · simp [hij]
      | none =>
        obtain ⟨is, his, htouches, hfree'⟩ := ho
        refine ⟨is, fun i hi => ?_, ⟨htouches.eq, htouches.desc⟩, fun i => ?_⟩
        · grind
        · rw [hfree' i]
          by_cases hij : i = j
          · simp [hij, hfree]
          · simp [hij]

/-- A chain as it is written. -/
structure Written (s : State) (r : Request) : Prop where
  desc0 : s.desc r.idx0 = r.desc0
  desc1 : ∃ write, s.desc r.idx1 = r.desc1 write
  desc2 : s.desc r.idx2 = r.desc2

theorem Written.congr (hw : Written s r) (hdesc : ∀ i ∈ r.chain, s'.desc i = s.desc i) : Written s' r := by
  obtain ⟨h0, ⟨write, h1⟩, h2⟩ := hw
  simp only [Request.chain, List.forall_mem_cons] at hdesc
  exact ⟨hdesc.1.trans h0, ⟨write, hdesc.2.1.trans h1⟩, hdesc.2.2.1.trans h2⟩

theorem Request.desc0_next (r : Request) : r.desc0.flags &&& descNext ≠ 0 := (by decide : descNext &&& descNext ≠ 0)

theorem Request.desc1_next (r : Request) (write : Bool) : (r.desc1 write).flags &&& descNext ≠ 0 := by
  cases write with
  | true => exact (by decide : (0 ||| descNext) &&& descNext ≠ 0)
  | false => exact (by decide : (descWrite ||| descNext) &&& descNext ≠ 0)

theorem Request.desc2_last (r : Request) : r.desc2.flags &&& descNext = 0 := (by decide : descWrite &&& descNext = 0)

def State.freed (s : State) (i : ℕ) : State :=
  {s with desc := update s.desc i ⟨.null, 0, 0, 0⟩, free := update s.free i true}

theorem freeChain_next (fuel : ℕ) (hi : i < num) (hf : s.free i = false) (hflag : (s.desc i).flags &&& descNext ≠ 0) :
    State.freeChain (fuel + 1) i s = State.freeChain fuel (s.desc i).next (s.freed i) := by
  rw [State.freeChain, freeDesc_eq hi hf]
  exact if_pos hflag

theorem freeChain_last (fuel : ℕ) (hi : i < num) (hf : s.free i = false) (hflag : (s.desc i).flags &&& descNext = 0) :
    State.freeChain (fuel + 1) i s = .ok (s.freed i) := by
  rw [State.freeChain, freeDesc_eq hi hf]
  exact if_neg (not_not.mpr hflag)

theorem freeChain_spec (fuel : ℕ) (hw : Written s r) (hnodup : r.chain.Nodup)
    (htaken : ∀ i ∈ r.chain, i < num ∧ s.free i = false) :
    ∃ s', State.freeChain (fuel + 3) r.idx0 s = .ok s' ∧ Touches s s' r.chain ∧
      ∀ i, s'.free i = (s.free i || decide (i ∈ r.chain)) := by
  obtain ⟨write, hdesc1⟩ := hw.desc1
  obtain ⟨h0, h1, h2⟩ : (r.idx0 < num ∧ s.free r.idx0 = false) ∧ (r.idx1 < num ∧ s.free r.idx1 = false) ∧
      r.idx2 < num ∧ s.free r.idx2 = false := by
    simpa [Request.chain] using htaken
  obtain ⟨⟨h01, h02⟩, h12⟩ : (r.idx0 ≠ r.idx1 ∧ r.idx0 ≠ r.idx2) ∧ r.idx1 ≠ r.idx2 := by
    simpa [Request.chain] using hnodup
  -- The first two descriptors lead on to the next one.
  have hrun : State.freeChain (fuel + 3) r.idx0 s = .ok (((s.freed r.idx0).freed r.idx1).freed r.idx2) := by
    rw [freeChain_next (fuel + 2) h0.1 h0.2 (by rw [hw.desc0]; exact Request.desc0_next r), hw.desc0]
    have hd1 : (s.freed r.idx0).desc r.idx1 = r.desc1 write := (update_of_ne h01.symm ..).trans hdesc1
    have hf1 : (s.freed r.idx0).free r.idx1 = false := (update_of_ne h01.symm ..).trans h1.2
    change State.freeChain (fuel + 2) r.idx1 (s.freed r.idx0) = _
    rw [freeChain_next (fuel + 1) h1.1 hf1 (by rw [hd1]; exact r.desc1_next write), hd1]
    change State.freeChain (fuel + 1) r.idx2 ((s.freed r.idx0).freed r.idx1) = _
    have hd2 : ((s.freed r.idx0).freed r.idx1).desc r.idx2 = r.desc2 :=
      (update_of_ne h12.symm ..).trans ((update_of_ne h02.symm ..).trans hw.desc2)
    have hf2 : ((s.freed r.idx0).freed r.idx1).free r.idx2 = false :=
      (update_of_ne h12.symm ..).trans ((update_of_ne h02.symm ..).trans h2.2)
    exact freeChain_last fuel h2.1 hf2 (by rw [hd2]; exact r.desc2_last)
  refine ⟨_, hrun, ⟨⟨_, _, rfl⟩, fun i hi => ?_⟩, fun i => ?_⟩
  · simp only [Request.chain, List.mem_cons, List.not_mem_nil, or_false, not_or] at hi
    simp [State.freed, hi]
  · by_cases hi2 : i = r.idx2
    · subst hi2
      simp [State.freed, Request.chain]
    by_cases hi1 : i = r.idx1
    · subst hi1
      simp [State.freed, Request.chain, hi2]
    by_cases hi0 : i = r.idx0
    · subst hi0
      simp [State.freed, Request.chain, hi1, hi2]
    · simp [State.freed, Request.chain, hi0, hi1, hi2]

end Xv6.Virtio
