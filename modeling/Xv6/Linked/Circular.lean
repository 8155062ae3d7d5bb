import Mathlib.Data.Finset.Sort

/-! Circular singly linked lists, in order of address.

`Circular next F`: every node of the set `F` is linked to the next larger one, and the largest
to the smallest. Nodes go in behind a smaller one (`Circular.insert`) and come out behind a
smaller one (`Circular.erase`). Going round gets closer to each node (`Circular.distance_lt`), so
that a search from any node comes past every other. -/
namespace Xv6.Linked
open Finset (mem_insert_of_mem mem_erase card_lt_card mem_filter mem_sort)

variable {α : Type*} [LinearOrder α] {F : Finset α} {next next' : α → α} {a b p q x : α}

/-- `b` is the next larger element of `F`, or the smallest when `a` is the largest. -/
def IsNext (F : Finset α) (a b : α) : Prop :=
  b ∈ F ∧ ((a < b ∧ ∀ c ∈ F, c ≤ a ∨ b ≤ c) ∨ (∀ c ∈ F, c ≤ a) ∧ ∀ c ∈ F, b ≤ c)

def Circular (next : α → α) (F : Finset α) : Prop := ∀ a ∈ F, IsNext F a (next a)

theorem IsNext.unique (h : IsNext F a b) (h' : IsNext F a x) : b = x := by
  obtain ⟨hb, h⟩ := h
  obtain ⟨hx, h'⟩ := h'
  grind

namespace Circular

section
variable (h : Circular next F)
include h

theorem mem (ha : a ∈ F) : next a ∈ F := (h a ha).1

theorem congr (he : ∀ a ∈ F, next' a = next a) : Circular next' F := by
  intro a ha
  rw [he a ha]
  exact h a ha

theorem next_of_lt (hp : p ∈ F) (hx : x ∈ F) (hlt : p < x) : p < next p ∧ next p ≤ x := by
  rcases (h p hp).2 with ⟨hgt, hgap⟩ | ⟨hmax, _⟩
  · exact ⟨hgt, (hgap x hx).resolve_left (not_le_of_gt hlt)⟩
  · exact absurd (hmax x hx) (not_le_of_gt hlt)

theorem insert (hp : p ∈ F) (hlt : p < x) (hgap : ∀ c ∈ F, c ≤ p ∨ x < c)
    (hpx : next' p = x) (hx : next' x = next p) (he : ∀ a ∈ F, a ≠ p → next' a = next a) :
    Circular next' (insert x F) := by
  intro a hmem
  obtain rfl | ha := Finset.mem_insert.mp hmem
  · rw [hx]
    obtain ⟨hmem, ⟨hgt, hbetween⟩ | ⟨hmax, hmin⟩⟩ := h p hp
    · refine ⟨mem_insert_of_mem hmem, .inl ⟨?_, fun c hc => ?_⟩⟩
      · exact (hgap _ hmem).resolve_left (not_le_of_gt hgt)
      grind
    · refine ⟨mem_insert_of_mem hmem, .inr ⟨fun c hc => ?_, fun c hc => ?_⟩⟩
      · grind
      grind
  by_cases hap : a = p
  · subst hap
    rw [hpx]
    refine ⟨Finset.mem_insert_self .., .inl ⟨hlt, fun c hc => ?_⟩⟩
    grind
  · rw [he a ha hap]
    obtain ⟨hmem, ⟨hgt, hbetween⟩ | ⟨hmax, hmin⟩⟩ := h a ha
    · refine ⟨mem_insert_of_mem hmem, .inl ⟨hgt, fun c hc => ?_⟩⟩
      grind
    · refine ⟨mem_insert_of_mem hmem, .inr ⟨fun c hc => ?_, fun c hc => ?_⟩⟩
      · grind
      grind

theorem erase (hp : p ∈ F) (hlt : p < next p) (hpx : next' p = next (next p))
    (he : ∀ a ∈ F, a ≠ p → a ≠ next p → next' a = next a) : Circular next' (F.erase (next p)) := by
  have hx := h.mem hp
  have hgap : ∀ c ∈ F, c ≤ p ∨ next p ≤ c := by
    rcases (h p hp).2 with ⟨_, hgap⟩ | ⟨hmax, _⟩
    · exact hgap
    · exact absurd (hmax _ hx) (not_le_of_gt hlt)
  intro a ha
  obtain ⟨hax, haF⟩ := mem_erase.mp ha
  by_cases hap : a = p
  · subst hap
    rw [hpx]
    obtain ⟨hmem, ⟨hgt, hbetween⟩ | ⟨hmax, hmin⟩⟩ := h _ hx
    · refine ⟨mem_erase.mpr ⟨hgt.ne', hmem⟩, .inl ⟨hlt.trans hgt, fun c hc => ?_⟩⟩
      grind
    · refine ⟨mem_erase.mpr ⟨((hmin a haF).trans_lt hlt).ne, hmem⟩, .inr ⟨fun c hc => ?_,
        fun c hc => hmin c (Finset.mem_of_mem_erase hc)⟩⟩
      obtain ⟨hcx, hcF⟩ := mem_erase.mp hc
      exact (hgap c hcF).resolve_right fun hle => hcx (le_antisymm (hmax c hcF) hle)
  · rw [he a haF hap hax]
    obtain ⟨hmem, hnext⟩ := h a haF
    -- Only `p` is linked to the node.
    have hne : next a ≠ next p := by
      grind
    refine ⟨mem_erase.mpr ⟨hne, hmem⟩, hnext.imp ?_ ?_⟩
    · rintro ⟨hgt, hbetween⟩
      exact ⟨hgt, fun c hc => hbetween c (Finset.mem_of_mem_erase hc)⟩
    grind

end

end Circular

/-! ### Going round -/

/-- How many nodes are from `a` up to `q`, going round. -/
def distance (F : Finset α) (q a : α) : ℕ :=
  if a ≤ q then (F.filter fun c => a ≤ c ∧ c < q).card
  else (F.filter (a ≤ ·)).card + (F.filter (· < q)).card

theorem distance_le (F : Finset α) (q a : α) : distance F q a ≤ 2 * F.card := by
  grind [Nat.two_mul, distance]

theorem Circular.distance_lt (h : Circular next F) (ha : a ∈ F) (hq : q ∈ F) (hne : a ≠ q) :
    distance F q (next a) < distance F q a := by
  obtain ⟨hmem, hnext⟩ := h a ha
  unfold distance
  rcases lt_or_gt_of_ne hne with hlt | hgt
  · obtain ⟨hup, hle⟩ := h.next_of_lt ha hq hlt
    rw [if_pos hle, if_pos hlt.le]
    refine card_lt_card (Finset.ssubset_iff_of_subset ?_ |>.mpr ⟨a, ?_, ?_⟩)
    · grind
    · exact mem_filter.mpr ⟨ha, le_rfl, hlt⟩
    · exact fun hc => absurd hup (not_lt_of_ge (mem_filter.mp hc).2.1)
  · rw [if_neg (not_le_of_gt hgt)]
    rcases hnext with ⟨hup, _⟩ | ⟨hmax, hmin⟩
    · rw [if_neg (not_le_of_gt (hgt.trans hup))]
      refine Nat.add_lt_add_right (card_lt_card (Finset.ssubset_iff_of_subset ?_ |>.mpr ⟨a, ?_, ?_⟩)) _
      · grind
      · exact mem_filter.mpr ⟨ha, le_rfl⟩
      · exact fun hc => absurd hup (not_lt_of_ge (mem_filter.mp hc).2)
    · rw [if_pos (hmin q hq)]
      have hpos : 0 < (F.filter (a ≤ ·)).card :=
        Finset.card_pos.mpr ⟨a, mem_filter.mpr ⟨ha, le_rfl⟩⟩
      have hle : (F.filter fun c => next a ≤ c ∧ c < q).card ≤ (F.filter (· < q)).card := by
        refine Finset.card_le_card fun c hc => ?_
        grind
      omega

/-! ### The nodes in order -/

private theorem Circular.isChain_suffix (h : Circular next F) (hb : b ∈ F) (hmin : ∀ c ∈ F, b ≤ c) :
    ∀ (l pre : List α) (a : α), (pre ++ a :: l).Pairwise (· < ·) →
      (∀ c, c ∈ pre ++ a :: l ↔ c ∈ F) → (a :: l ++ [b]).IsChain fun a c => next a = c
  | [], pre, a, hsorted, hF => by
    have ha : a ∈ F := (hF a).mp (by simp)
    have hmax : ∀ c ∈ F, c ≤ a := by
      grind
    have hnext : next a = b := (h a ha).unique ⟨hb, .inr ⟨hmax, hmin⟩⟩
    simpa using hnext
  | d :: l, pre, a, hsorted, hF => by
    have ha : a ∈ F := (hF a).mp (by simp)
    have hd : d ∈ F := (hF d).mp (by simp)
    obtain ⟨-, hrest, hacross⟩ := List.pairwise_append.mp hsorted
    obtain ⟨hfirst, hrest⟩ := List.pairwise_cons.mp hrest
    have hgap : ∀ c ∈ F, c ≤ a ∨ d ≤ c := by
      intro c hc
      rcases List.mem_append.mp ((hF c).mpr hc) with hpre | hsuf
      · exact .inl (hacross c hpre a (by simp)).le
      · rcases List.mem_cons.mp hsuf with rfl | hsuf
        · exact .inl le_rfl
        · rcases List.mem_cons.mp hsuf with rfl | hsuf
          · exact .inr le_rfl
          · exact .inr ((List.pairwise_cons.mp hrest).1 c hsuf).le
    have hnext : next a = d := (h a ha).unique ⟨hd, .inl ⟨hfirst d (by simp), hgap⟩⟩
    have htail := h.isChain_suffix hb hmin l (pre ++ [a]) d (by simpa using hsorted) (by simpa using hF)
    exact List.isChain_cons_cons.mpr ⟨hnext, htail⟩

theorem Circular.isChain (h : Circular next F) (hb : b ∈ F) (hmin : ∀ c ∈ F, b ≤ c) :
    ∃ xs : List α, (b :: xs).Pairwise (· < ·) ∧ (∀ c, c ∈ b :: xs ↔ c ∈ F) ∧
      (b :: xs ++ [b]).IsChain fun a c => next a = c := by
  have hmem : ∀ c, c ∈ b :: (F.erase b).sort (· ≤ ·) ↔ c ∈ F := by
    grind [mem_sort]
  have hsorted : (b :: (F.erase b).sort (· ≤ ·)).Pairwise (· < ·) := by
    refine List.pairwise_cons.mpr ⟨fun c hc => ?_, ?_⟩
    · obtain ⟨hne, hcF⟩ := mem_erase.mp ((mem_sort _).mp hc)
      exact lt_of_le_of_ne (hmin c hcF) (Ne.symm hne)
    · exact (Finset.sortedLT_sort _).pairwise
  exact ⟨_, hsorted, hmem, h.isChain_suffix hb hmin _ [] b hsorted hmem⟩

end Xv6.Linked
