import Xv6.Vm.Leaf

/-! `walk` and `mappages`, with the owners of the pages they take. -/
namespace Xv6.Vm
open Function
open Linked Radix

variable {L : Linker} {m : Memory} {own own' own'' : ℕ → Owner} {T U : Set ℕ}
  {r x y i va pa perm low pte : ℕ}

/-- Free pages become pages of the page table `r`, or are mapped by it at an address in `V`.
Every other page keeps its owner. -/
def Grows (r : ℕ) (V : Set ℕ) (own own' : ℕ → Owner) : Prop :=
  ∀ x, own' x = own x ∨ own x = .free ∧ (own' x = .table r ∨ ∃ va ∈ V, own' x = .user r va)

namespace Grows

variable {V W : Set ℕ}

theorem refl (r : ℕ) (V : Set ℕ) (own : ℕ → Owner) : Grows r V own own := fun _ => .inl rfl

theorem mono (h : Grows r V own own') (hVW : V ⊆ W) : Grows r W own own' := by
  intro x
  rcases h x with hsame | ⟨hfree, htable | ⟨va, hva, huser⟩⟩
  · exact .inl hsame
  · exact .inr ⟨hfree, .inl htable⟩
  · exact .inr ⟨hfree, .inr ⟨va, hVW hva, huser⟩⟩

theorem keeps (h : Grows r V own own') (hx : own x ≠ .free) : own' x = own x :=
  (h x).resolve_right fun hc => hx hc.1

theorem user {q : ℕ} (h : Grows r ∅ own own') (hx : own' x = .user q va) : own x = .user q va := by
  rcases h x with hsame | ⟨_, htable | ⟨b, hb, _⟩⟩
  · exact hsame.symm.trans hx
  · cases htable.symm.trans hx
  · exact absurd hb (Set.notMem_empty b)

theorem trans (h : Grows r V own own') (h' : Grows r V own' own'') : Grows r V own own'' := by
  intro x
  rcases h x with hsame | ⟨hfree, hnew⟩
  · rw [← hsame]
    exact h' x
  · have hkeep : own'' x = own' x := h'.keeps fun hc => by
      rcases hnew with htable | ⟨va, _, huser⟩
      · cases hc.symm.trans htable
      · cases hc.symm.trans huser
    grind

theorem take {o : Owner} (hx : own x = .free) (ho : o = .table r ∨ ∃ va ∈ V, o = .user r va) :
    Grows r V own (update own x o) := by
  intro y
  grind

end Grows

/-- The page table `r` takes free pages, and pages in use keep what they hold. -/
structure Extends (L : Linker) (T U : Set ℕ) (r : ℕ) (V : Set ℕ) (own : ℕ → Owner) (m : Memory)
    (own' : ℕ → Owner) (m' : Memory) : Prop where
  owned : Owned L m' own' T U
  grows : Grows r V own own'
  bytes : SameBytes own m m'

namespace Extends

variable {V W : Set ℕ} {m' m'' : Memory}

theorem refl (h : Owned L m own T U) : Extends L T U r V own m own m :=
  ⟨h, .refl r V own, fun _ _ => rfl⟩

theorem mono (h : Extends L T U r V own m own' m') (hVW : V ⊆ W) :
    Extends L T U r W own m own' m' := ⟨h.owned, h.grows.mono hVW, h.bytes⟩

theorem trans (h : Extends L T U r V own m own' m') (h' : Extends L T U r V own' m' own'' m'') :
    Extends L T U r V own m own'' m'' := by
  refine ⟨h'.owned, h.grows.trans h'.grows, fun x hx => ?_⟩
  have huse : own' x ≠ .free := by
    rw [h.grows.keeps hx]
    exact hx
  exact (h'.bytes x huse).trans (h.bytes x hx)

end Extends

def SameEntries (T : Set ℕ) (m m' : Memory) : Prop :=
  ∀ r ∈ T, ∀ va < sv39, entry r va m' = entry r va m

theorem SameEntries.refl : SameEntries T m m := fun _ _ _ _ => rfl

theorem SameEntries.trans {m' m'' : Memory} (h : SameEntries T m m') (h' : SameEntries T m' m'') :
    SameEntries T m m'' := fun r hr va hva => (h' r hr va hva).trans (h r hr va hva)

/-- The same entries, apart from those of the page table `r` from `lo` up to `hi`. -/
def SameElse (T : Set ℕ) (r lo hi : ℕ) (m m' : Memory) : Prop :=
  ∀ q ∈ T, ∀ va < sv39, q ≠ r ∨ va < lo ∨ hi ≤ va → entry q va m' = entry q va m

namespace SameElse

variable {lo hi lo' hi' : ℕ} {m' m'' : Memory}

theorem refl : SameElse T r lo hi m m := fun _ _ _ _ _ => rfl

theorem trans (h : SameElse T r lo hi m m') (h' : SameElse T r lo hi m' m'') :
    SameElse T r lo hi m m'' := fun q hq va hva ho => (h' q hq va hva ho).trans (h q hq va hva ho)

theorem mono (h : SameElse T r lo hi m m') (hlo : lo' ≤ lo) (hhi : hi ≤ hi') :
    SameElse T r lo' hi' m m' := by
  intro q hq va hva ho
  refine h q hq va hva (ho.imp_right fun hout => ?_)
  omega

end SameElse

theorem SameEntries.others {lo hi : ℕ} {m' : Memory} (h : SameEntries T m m') :
    SameElse T r lo hi m m' := fun q hq va hva _ => h q hq va hva

theorem SameElse.rest {lo hi : ℕ} {m' : Memory} (h : SameElse (insert r T) r lo hi m m')
    (hr : r ∉ T) : SameEntries T m m' :=
  fun q hq va hva => h q (.inr hq) va hva (.inl fun hqr => hr (hqr ▸ hq))

/-- The entry for one page of addresses in one page table changes. -/
def SetEntry (T : Set ℕ) (r va pte : ℕ) (m m' : Memory) : Prop :=
  ∀ q ∈ T, ∀ a < sv39, entry q a m' =
    if q = r ∧ a / pgsize = va / pgsize then pte else entry q a m

theorem SetEntry.others {m' : Memory} (h : SetEntry T r va pte m m') (hal : va % pgsize = 0) :
    SameElse T r va (va + pgsize) m m' := by
  intro q hq a hmax ho
  rw [h q hq a hmax, if_neg]
  grind [pgsize]

theorem child_setPte_mkPte (hy : y % pgsize = 0) (hlt : i < 512) :
    child (m.setPte x i (mkPte y 0)) = setChild (child m) x i y := by
  funext z j
  by_cases hz : z = x
  · grind [Radix.setChild_self, child_some, setPte_self, valid_mkPte, pte2pa_mkPte, Radix.setChild_index, child_setPte_ne]
  · rw [setChild_node hz, child_setPte_ne (.inl hz)]

namespace Owned

/-! A page without entries is hung into the page table `r`, at index `i` of the page `x` that the path
`is` leads to. -/

section
variable {is js : List ℕ} {q z : ℕ} (h : Owned L m own T U) (hlt : i < 512) (hy : own y = .held) (hr : r ∈ T)
  (his : is.length < 2) (hx : lookup (child m) r is = some x) (hi : child m x i = none)
  (hzero : ∀ j, m.ptes y j = 0)
include h hlt hy

theorem hang_child : child (m.setPte x i (mkPte y 0)) = setChild (child m) x i y :=
  child_setPte_mkPte (h.page (by rw [hy]; exact Owner.noConfusion)).1 hlt

include hr his hx hi hzero

/-- A path of length 2 other than the new one leads where it did. -/
theorem hang_lookup (hq : q ∈ T) (hjs : js.length ≤ 2) :
    lookup (child (m.setPte x i (mkPte y 0))) q js =
      if q = r ∧ js = is ++ [i] then some y else lookup (child m) q js := by
  have hxown := h.table_of_lookup hr his.le hx
  have hnot : y ∉ Nodes (child m) r 2 := fun hmem => by
    cases hy.symm.trans ((h.nodes hr).mp hmem)
  rw [h.hang_child hlt hy]
  by_cases hqr : q = r
  · subst hqr
    rw [(h.tree hr).lookup_setChild hx his hi hnot (fun j => child_none (by rw [hzero]; decide)) hjs]
    simp only [true_and]
  · rw [if_neg fun hc => hqr hc.1]
    refine lookup_setChild_of_notMem (fun hmem => ?_) hjs
    cases hxown.symm.trans ((h.nodes hq).mp hmem)
    exact hqr rfl

theorem hang_entries : SameEntries T m (m.setPte x i (mkPte y 0)) := by
  have hne : own y ≠ .other := by
    rw [hy]
    exact Owner.noConfusion
  have hyx : y ≠ x := fun heq => by
    cases hy.symm.trans (heq ▸ h.table_of_lookup hr his.le hx)
  intro q hq a _
  have hnew := h.hang_lookup hlt hy hr his hx hi hzero hq (show (path a).length ≤ 2 from le_rfl)
  by_cases hsame : q = r ∧ path a = is ++ [i]
  · obtain ⟨rfl, hpath⟩ := hsame
    rw [if_pos ⟨rfl, hpath⟩] at hnew
    have hnone : lookup (child m) q (path a) = none := by
      rw [hpath, lookup_append, hx]
      exact lookup_cons_none hi
    rw [entry_of_lookup hnew (h.ne_zero hne), entry_of_lookup_none hnone]
    show update m.ptes x _ y _ = 0
    rw [update_of_ne hyx, hzero]
  · rw [if_neg hsame] at hnew
    cases hl : lookup (child m) q (path a) with
    | none => rw [entry_of_lookup_none hl, entry_of_lookup_none (hnew.trans hl)]
    | some low =>
      have hown := h.table_of_lookup hq le_rfl hl
      have h0 := h.ne_zero (table_ne_other hown)
      have hlx : low ≠ x := (h.inner_ne_low hq rfl hl hr his hx).symm
      rw [entry_of_lookup hl h0, entry_of_lookup (hnew.trans hl) h0]
      exact congrFun (update_of_ne hlx ..) _

theorem hang_nodes (hq : q ∈ T) : z ∈ Nodes (child (m.setPte x i (mkPte y 0))) q 2 ↔
    update own y (.table r) z = .table q := by
  by_cases hqr : q = r
  · subst hqr
    have hnot : y ∉ Nodes (child m) q 2 := fun hmem => by
      cases hy.symm.trans ((h.nodes hr).mp hmem)
    rw [h.hang_child hlt hy, (h.tree hr).nodes_setChild hx his hi hnot
      (fun j => child_none (by rw [hzero]; decide)), h.nodes hr]
    by_cases hzy : z = y
    · subst hzy
      grind
    · rw [update_of_ne hzy]
      exact ⟨fun hc => hc.resolve_left hzy, .inr⟩
  · have hnodes : z ∈ Nodes (child (m.setPte x i (mkPte y 0))) q 2 ↔ z ∈ Nodes (child m) q 2 := by
      refine exists_congr fun js => and_congr_right fun hjs => ?_
      rw [h.hang_lookup hlt hy hr his hx hi hzero hq hjs, if_neg fun hc => hqr hc.1]
    rw [hnodes, h.nodes hq]
    refine (update_iff hy ?_ ?_ z).symm
    · exact Owner.noConfusion
    · intro hc
      cases hc
      exact hqr rfl

theorem hang : Owned L (m.setPte x i (mkPte y 0)) (update own y (.table r)) T U ∧
    SameEntries T m (m.setPte x i (mkPte y 0)) := by
  have hentry := h.hang_entries hlt hy hr his hx hi hzero
  have hlook := fun {q} (hq : q ∈ T) {js : List ℕ} (hjs : js.length ≤ 2) =>
    h.hang_lookup hlt hy hr his hx hi hzero hq hjs
  have hyx : y ≠ x := fun heq => by
    cases hy.symm.trans (heq ▸ h.table_of_lookup hr his.le hx)
  have hcases : ∀ {z}, z ≠ y → update own y (.table r) z = own z :=
    fun hz => update_of_ne hz ..
  have hrow : ∀ {j}, (m.setPte x i (mkPte y 0)).ptes y j = m.ptes y j :=
    setPte_of_ne fun hc => hyx hc.1
  obtain ⟨F, hF, hmem⟩ := h.list
  refine ⟨⟨⟨F, hF, fun z => (hmem z).trans (update_iff hy ?_ ?_ z).symm⟩, fun {z} hz => ?_,
    fun {q} hq => ?_, fun {q} hq z => h.hang_nodes hlt hy hr his hx hi hzero hq, fun {z q} hz => ?_,
    fun {q} hq {js z} hlen hz j hj hv => ?_, h.sub, fun hq ha haa hv => ?_,
    fun {z q a} hz => ?_, fun {q} hq {js z} hlen hz j hj hv => ?_⟩, hentry⟩
  · exact Owner.noConfusion
  · exact Owner.noConfusion
  · by_cases hzy : z = y
    · exact h.page (hzy ▸ fun hc => Owner.noConfusion (hy.symm.trans hc))
    · exact h.page (hcases hzy ▸ hz)
  · intro js ks z hjs hks hz hz'
    by_cases hqr : q = r
    · subst hqr
      rw [h.hang_child hlt hy] at hz hz'
      refine (h.tree hr).setChild hx his hi (fun hmem => ?_) (fun j => child_none (by rw [hzero]; decide))
        hjs hks hz hz'
      cases hy.symm.trans ((h.nodes hr).mp hmem)
    · rw [hlook hq hjs, if_neg fun hc => hqr hc.1] at hz
      rw [hlook hq hks, if_neg fun hc => hqr hc.1] at hz'
      exact h.tree hq hjs hks hz hz'
  · by_cases hzy : z = y
    · subst hzy
      rw [update_self] at hz
      cases hz
      exact hr
    · exact h.root (hcases hzy ▸ hz)
  · rw [hlook hq hlen.le] at hz
    split at hz
    · cases hz
      rw [hrow, hzero] at hv
      cases hv
    grind [setPte_self, leaf_mkPte_zero, setPte_of_ne, Owned.inner]
  · rw [hentry _ (h.sub hq) _ (trapframe_lt_sv39 ha)] at hv ⊢
    have hown := h.mapped hq ha haa hv
    rw [hcases fun heq => by cases hy.symm.trans (heq ▸ hown)]
    exact hown
  · have hzy : z ≠ y := by
      rintro rfl
      rw [update_self] at hz
      cases hz
    obtain ⟨hq, ha, haa, hv, hpa⟩ := h.user (hcases hzy ▸ hz)
    rw [hentry _ (h.sub hq) _ (trapframe_lt_sv39 ha)]
    exact ⟨hq, ha, haa, hv, hpa⟩
  · rw [hlook (h.sub hq) hlen.le] at hz
    split at hz
    · cases hz
      rw [hrow, hzero] at hv
      cases hv
    · have hzx : z ≠ x := (h.inner_ne_low (h.sub hq) hlen hz hr his hx).symm
      rw [setPte_of_ne fun hc => hzx hc.1] at hv ⊢
      exact h.flags hq hlen hz j hj hv

end

theorem held_ne_table (hx : own x = .held) (q : ℕ) : own x ≠ .table q := by
  grind

theorem fill (h : Owned L m own T U) (hx : own x = .held) (c : ℕ) :
    Owned L (memset x c m) own T U :=
  h.change (sameTables_memset (held_ne_table hx)) h.list (fun _ _ => Iff.rfl)
    (fun _ _ _ => Iff.rfl) fun _ hne => hne

theorem sameEntries (h : Owned L m own T U) {m' : Memory} (hs : SameTables own m m') :
    SameEntries T m m' := fun _ hr _ _ => h.entry_congr hs hr

theorem grow (h : Owned L m own T U) (hr : r ∈ T) (hlt : i < 512) {is : List ℕ}
    (his : is.length < 2) (hx : lookup (child m) r is = some x) (hi : child m x i = none) :
    kalloc m = (0, m) ∨ ∃ y m1, kalloc m = (y, m1) ∧ y ≠ 0 ∧
      Extends L T U r ∅ own m (update own y (.table r))
        ((memset y 0 m1).setPte x i (mkPte y 0)) ∧
      SameEntries T m ((memset y 0 m1).setPte x i (mkPte y 0)) ∧
      lookup (child ((memset y 0 m1).setPte x i (mkPte y 0))) r (is ++ [i]) = some y := by
  rcases h.kalloc_spec with hnull | ⟨y, m1, hk, hy, hy0, hs1, hb1, h1⟩
  · exact .inl hnull
  refine .inr ⟨y, m1, hk, hy0, ?_⟩
  have hheld : update own y Owner.held y = .held := update_self ..
  have hxown := h.table_of_lookup hr his.le hx
  have hxy : x ≠ y := fun heq => by cases hxown.symm.trans (heq ▸ hy)
  have hs2 : SameTables own m (memset y 0 m1) := fun z q hz =>
    (memset_ptes_ne fun heq => by cases hz.symm.trans (heq ▸ hy)).trans (hs1 z q hz)
  have hx2 : lookup (child (memset y 0 m1)) r is = some x :=
    (h.lookup_congr hs2 hr his.le).trans hx
  have hi2 : child (memset y 0 m1) x i = none := (congrFun (child_congr (hs2 _ _ hxown)) i).trans hi
  have hzero : ∀ j, (memset y 0 m1).ptes y j = 0 := fun j => by
    show update m1.ptes y _ y j = 0
    rw [update_self, Nat.zero_mul]
  obtain ⟨hown, hentries⟩ := (h1.fill hheld 0).hang hlt hheld hr his hx2 hi2 hzero
  rw [update_idem] at hown
  refine ⟨⟨hown, .take hy (.inl rfl), fun z hz => ?_⟩, (h.sameEntries hs2).trans hentries, ?_⟩
  · have hzy : z ≠ y := by
      rintro rfl
      exact hz hy
    exact (memset_bytes_ne hzy).trans (hb1 z hz)
  have hyal := (h1.page (x := y) (by rw [hheld]; nofun)).1
  have hnot : y ∉ Nodes (child (memset y 0 m1)) r 2 := fun hmem => by
    cases hheld.symm.trans (((h1.fill hheld 0).nodes hr).mp hmem)
  rw [child_setPte_mkPte hyal hlt, ((h1.fill hheld 0).tree hr).lookup_setChild hx2 his hi2 hnot
    (fun j => child_none (by rw [hzero]; decide)) (by rw [List.length_append]; exact his), if_pos rfl]

/-- The indices that are left at a level. -/
def rest (va : ℕ) : ℕ → List ℕ
  | 0 => []
  | level + 1 => px (level + 1) va :: rest va level

/-- From a node at the end of `is`, the loop takes free pages for the table only, changes no
entry for an address, and ends at the end of the path or without a page. -/
theorem walkLoop_spec (level : ℕ) (h : Owned L m own T U) (hr : r ∈ T) {is : List ℕ}
    (his : is.length + level = 2) (hx : lookup (child m) r is = some x) :
    ∃ low m' own', walkLoop true va level x m = (low, m') ∧ Extends L T U r ∅ own m own' m' ∧
      SameEntries T m m' ∧ (low = 0 ∨ lookup (child m') r (is ++ rest va level) = some low) := by
  induction level generalizing x m own is with
  | zero => exact ⟨x, m, own, rfl, .refl h, .refl, .inr (by rw [rest, List.append_nil, hx])⟩
  | succ level ih =>
    have hlen : is.length < 2 := by omega
    have hnext : (is ++ [px (level + 1) va]).length + level = 2 := by
      grind
    have happ : is ++ [px (level + 1) va] ++ rest va level = is ++ rest va (level + 1) := by
      rw [List.append_assoc]
      rfl
    by_cases hv : valid (m.ptes x (px (level + 1) va)) = true
    · have hy : lookup (child m) r (is ++ [px (level + 1) va]) =
          some (pte2pa (m.ptes x (px (level + 1) va))) := by
        rw [lookup_append, hx]
        exact lookup_cons_some (child_some (px_lt _) hv)
      rw [walkLoop, if_pos hv, ← happ]
      exact ih h hnext hy
    · rcases h.grow hr (px_lt _) hlen hx (child_none hv) with hk | ⟨y, m1, hk, hy0, hext, hent, hlook⟩
      · refine ⟨0, m, own, ?_, .refl h, .refl, .inl rfl⟩
        rw [walkLoop, if_neg hv, hk]
        rfl
      · obtain ⟨low, m', own', heq, hext', hent', hlow⟩ := ih hext.owned hnext hlook
        refine ⟨low, m', own', ?_, hext.trans hext', hent.trans hent', ?_⟩
        · rw [walkLoop, if_neg hv, hk]
          simp only [if_true, if_neg hy0]
          rw [← heq, mkPte, Nat.or_zero]
        · rwa [happ] at hlow

theorem walk_spec (h : Owned L m own T U) (hr : r ∈ T) (va : ℕ) :
    ∃ low m' own', walkLoop true va 2 r m = (low, m') ∧ Extends L T U r ∅ own m own' m' ∧
      SameEntries T m m' ∧ (low = 0 ∨ lookup (child m') r (path va) = some low) :=
  @walkLoop_spec _ _ _ _ _ _ _ va 2 h hr [] rfl rfl

/-- A page of `mappages` where no page was mapped: its entry is written, or a page for the
table is missing and no entry changes. -/
theorem mapLoop_step (h : Owned L m own T U) (hr : r ∈ T) (hva : va < maxva)
    (hinv : valid (entry r va m) = false) (n pa perm : ℕ) :
    ∃ m1 own1, Extends L T U r ∅ own m own1 m1 ∧ SameEntries T m m1 ∧
      (mapLoop r perm (n + 1) va pa m = .ok (-1, m1) ∨
        ∃ low, lookup (child m1) r (path va) = some low ∧ mapLoop r perm (n + 1) va pa m =
          mapLoop r perm n (va + pgsize) (pa + pgsize) (m1.setPte low (px 0 va) (mkPte pa perm))) := by
  obtain ⟨low, m1, own1, heq, hext, hent, hlow⟩ := h.walk_spec hr va
  refine ⟨m1, own1, hext, hent, ?_⟩
  rw [mapLoop, walk, if_neg hva.not_ge, heq]
  by_cases h0 : low = 0
  · left
    simp only [returns_bind, if_pos h0, pure_returns]
  · right
    have hlow := hlow.resolve_left h0
    refine ⟨low, hlow, ?_⟩
    have hfree : ¬ valid (m1.ptes low (px 0 va)) = true := by
      rw [← entry_of_lookup hlow h0, hent r hr va (maxva_lt_sv39 hva), hinv]
      exact Bool.false_ne_true
    simp only [returns_bind, if_neg h0, if_neg hfree]
    rfl

theorem mappages_one (hal : va % pgsize = 0) (pa perm : ℕ) (m : Memory) :
    mappages r va pgsize pa perm m = mapLoop r perm 1 va pa m := by
  have hpos : pgsize / pgsize = 1 := by decide
  unfold mappages
  rw [if_neg (not_not.mpr hal), if_neg (by decide), if_neg (by decide), hpos]

end Owned

end Xv6.Vm
