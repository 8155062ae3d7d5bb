import Xv6.Vm.Own

/-! Writing the entry for one address.

The pages of the lowest level hold no pages of the table, so that writing an entry there
changes the entry for one page of addresses in one page table, and nothing else. -/
namespace Xv6.Vm
open Linked Radix

variable {L : Linker} {m : Memory} {own own' : ℕ → Owner} {T U : Set ℕ}
  {r r' x va va' low i pte : ℕ}

namespace Owned

theorem table_ne_other (hx : own x = .table r) : own x ≠ .other := by
  grind

section
variable (h : Owned L m own T U)
include h

/-- In one table a page is reached along one path only, so that a page at a lower depth is not
one of the lowest level. -/
theorem inner_ne_low (hr : r ∈ T) {is js : List ℕ} (hd : is.length = 2)
    (hlow : lookup (child m) r is = some low) (hr' : r' ∈ T) (hjs : js.length < 2)
    (hx : lookup (child m) r' js = some x) : x ≠ low := by
  rintro rfl
  have hown := h.table_of_lookup hr hd.le hlow
  cases (h.table_of_lookup hr' hjs.le hx).symm.trans hown
  have heq := h.tree hr hjs.le hd.le hx hlow
  grind

theorem lookup_setLeaf (hr : r ∈ T)
    (hlow : lookup (child m) r (path va) = some low) (hr' : r' ∈ T) {is : List ℕ}
    (hd : is.length ≤ 2) :
    lookup (child (m.setPte low i pte)) r' is = lookup (child m) r' is := by
  refine Radix.lookup_congr (fun js y hjs hy => ?_) hd
  funext j
  exact child_setPte_ne (.inl (h.inner_ne_low hr rfl hlow hr' hjs hy))

theorem entry_setLeaf (hr : r ∈ T)
    (hlow : lookup (child m) r (path va) = some low) (hva : va < sv39) (hr' : r' ∈ T)
    (hva' : va' < sv39) :
    entry r' va' (m.setPte low (px 0 va) pte) =
      if r' = r ∧ va' / pgsize = va / pgsize then pte else entry r' va' m := by
  have hlook : lookup (child (m.setPte low (px 0 va) pte)) r' (path va') =
      lookup (child m) r' (path va') := h.lookup_setLeaf hr hlow hr' le_rfl
  have hown := h.table_of_lookup hr le_rfl hlow
  cases hl : lookup (child m) r' (path va') with
  | none =>
    rw [entry_of_lookup_none hl, entry_of_lookup_none (hlook.trans hl), if_neg]
    grind [path_of_page]
  | some low' =>
    have hown' := h.table_of_lookup hr' le_rfl hl
    have h0 : low' ≠ 0 := h.ne_zero (table_ne_other hown')
    rw [entry_of_lookup hl h0, entry_of_lookup (hlook.trans hl) h0]
    by_cases hsame : low' = low ∧ px 0 va' = px 0 va
    · obtain ⟨rfl, hpx⟩ := hsame
      cases hown'.symm.trans hown
      have hpage := page_eq_of_px hva' hva (h.tree hr le_rfl le_rfl hl hlow) hpx
      rw [hpx, setPte_self, if_pos ⟨rfl, hpage⟩]
    · rw [setPte_of_ne hsame, if_neg]
      grind [px_of_page, path_of_page]

/-- Writing an entry, with the owners that go with it: the page that was mapped there is not
any more, and the new one is, if it is a user page below the trapframe. -/
theorem setLeaf (hr : r ∈ T)
    (hlow : lookup (child m) r (path va) = some low) (hva : va < sv39) (hal : va % pgsize = 0)
    (hfree : ∀ x, own' x = .free ↔ own x = .free)
    (htable : ∀ x q, own' x = .table q ↔ own x = .table q)
    (hpage : ∀ x, own' x ≠ .other → own x ≠ .other)
    (hnew : r ∈ U → va < trapframe → valid pte = true → own' (pte2pa pte) = .user r va)
    (hleaf : r ∈ U → valid pte = true → leaf pte = true)
    (hold : ∀ x q a, own' x = .user q a →
      (q = r ∧ a = va ∧ r ∈ U ∧ va < trapframe ∧ valid pte = true ∧ pte2pa pte = x) ∨
      ((q ≠ r ∨ a ≠ va) ∧ own x = .user q a))
    (hkeep : ∀ x q a, own x = .user q a → q ≠ r ∨ a ≠ va → own' x = .user q a) :
    Owned L (m.setPte low (px 0 va) pte) own' T U := by
  have hlook : ∀ {q}, q ∈ T → ∀ {is : List ℕ}, is.length ≤ 2 →
      lookup (child (m.setPte low (px 0 va) pte)) q is = lookup (child m) q is :=
    fun hq _ hd => h.lookup_setLeaf hr hlow hq hd
  have hmax : ∀ {a}, a < trapframe → a < sv39 := fun ha => ha.trans (by decide)
  -- Page-aligned addresses in one page are equal.
  have hentry : ∀ {q a}, q ∈ T → a < trapframe → a % pgsize = 0 →
      entry q a (m.setPte low (px 0 va) pte) = if q = r ∧ a = va then pte else entry q a m := by
    intro q a hq ha haa
    rw [h.entry_setLeaf hr hlow hva hq (hmax ha)]
    have hiff : a / pgsize = va / pgsize ↔ a = va := by
      unfold pgsize at *
      omega
    simp only [hiff]
  obtain ⟨F, hF, hmem⟩ := h.list
  refine ⟨⟨F, hF, fun x => (hmem x).trans (hfree x).symm⟩, fun hx => h.page (hpage _ hx),
    fun hq => ?_, fun hq x => ?_, fun hx => h.root ((htable ..).mp hx),
    fun {q} hq {is x} hlen hx j hj hv => ?_, h.sub, fun {q a} hq ha haa hv => ?_, fun {x q a} hx => ?_, fun {q} hq {is x} hlen hx j hj hv => ?_⟩
  · intro is js x his hjs hx hy
    rw [hlook hq his] at hx
    rw [hlook hq hjs] at hy
    exact h.tree hq his hjs hx hy
  · rw [htable, ← h.nodes hq]
    constructor
    · rintro ⟨is, his, hx⟩
      exact ⟨is, his, (hlook hq his).symm.trans hx⟩
    · rintro ⟨is, his, hx⟩
      exact ⟨is, his, (hlook hq his).trans hx⟩
  · rw [hlook hq hlen.le] at hx
    rw [setPte_of_ne fun hc => h.inner_ne_low hr rfl hlow hq hlen hx hc.1] at hv ⊢
    exact h.inner hq hlen hx j hj hv
  · rw [hentry (h.sub hq) ha haa] at hv ⊢
    by_cases hsame : q = r ∧ a = va
    · grind
    · rw [if_neg hsame] at hv ⊢
      grind [Owned.mapped]
  · rcases hold x q a hx with ⟨rfl, rfl, hu, ha, hv, hpa⟩ | ⟨hne, hown⟩
    · grind
    · obtain ⟨hu, ha, haa, hv, hpa⟩ := h.user hown
      refine ⟨hu, ha, haa, ?_⟩
      rw [hentry (h.sub hu) ha haa, if_neg fun hs => hne.elim (· hs.1) (· hs.2)]
      exact ⟨hv, hpa⟩
  · rw [hlook (h.sub hq) hlen.le] at hx
    by_cases hsame : x = low ∧ j = px 0 va
    · obtain ⟨rfl, rfl⟩ := hsame
      cases (h.table_of_lookup (h.sub hq) hlen.le hx).symm.trans
        (h.table_of_lookup hr le_rfl hlow)
      grind [setPte_self]
    grind [setPte_of_ne, Owned.flags]

end

end Owned

end Xv6.Vm
