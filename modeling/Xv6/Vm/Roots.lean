import Xv6.Vm.Resize

/-! Page tables come and go: `uvmcreate` and `freewalk` (`kernel/vm.c`).

`freewalk` frees the pages of a page table from the lowest level up: exactly the nodes of the
tree, each once. It does not panic on a page table with no entry for an address any more. -/
namespace Xv6.Vm
open Function
open Linked Radix

variable {L : Linker} {m m' m'' : Memory} {own own' : ℕ → Owner} {T U U' : Set ℕ}
  {r x y d va : ℕ} {E : Stop → Prop}

namespace Owned

theorem newRoot (h : Owned L m own T U) (hy : own y = .held) (hzero : ∀ j, m.ptes y j = 0)
    (hsup : U ⊆ U') (hsub : U' ⊆ insert y U) :
    Owned L m (update own y (.table y)) (insert y T) U' := by
  have hne : own y ≠ .other := by
    grind
  have hnot : y ∉ T := fun hmem => by
    cases hy.symm.trans ((h.nodes hmem).mp root_mem_nodes)
  have hchild : ∀ j, child m y j = none := fun j => child_none (by rw [hzero]; decide)
  have hlook : ∀ {is : List ℕ} {z}, lookup (child m) y is = some z → is = [] ∧ z = y := by
    intro is z hz
    cases is with
    | nil => exact ⟨rfl, (Option.some.inj hz).symm⟩
    | cons i is => cases (lookup_cons_none (hchild i)).symm.trans hz
  have hentry : ∀ va, entry y va m = 0 := fun va =>
    entry_of_lookup_none (lookup_cons_none (hchild _))
  have hcases : ∀ {z}, z ≠ y → update own y (.table y) z = own z :=
    fun hz => update_of_ne hz ..
  obtain ⟨F, hF, hmem⟩ := h.list
  refine ⟨⟨F, hF, fun z => (hmem z).trans (update_iff hy ?_ ?_ z).symm⟩, fun {z} hz => ?_,
    fun {q} hq => ?_, fun {q} hq z => ?_, fun {z q} hz => ?_,
    fun {q} hq {is z} hlen hz i hi hv => ?_, hsub.trans (Set.insert_subset_insert h.sub),
    fun {q va} hq hva hal hv => ?_, fun {z q va} hz => ?_, fun {q} hq {is z} hlen hz i hi hv => ?_⟩
  · nofun
  · nofun
  · by_cases hzy : z = y
    · exact h.page (hzy ▸ hne)
    · exact h.page (hcases hzy ▸ hz)
  · rcases hq with rfl | hq
    · intro is js z _ _ hz hz'
      rw [(hlook hz).1, (hlook hz').1]
    · exact h.tree hq
  · rcases hq with rfl | hq
    · constructor
      · rintro ⟨is, _, hz⟩
        rw [(hlook hz).2, update_self]
      · intro hz
        by_cases hzq : z = q
        · rw [hzq]
          exact root_mem_nodes
        · exact absurd (h.root (hcases hzq ▸ hz)) hnot
    · rw [h.nodes hq]
      grind
  · by_cases hzy : z = y
    · subst hzy
      grind
    · exact Set.mem_insert_of_mem _ (h.root (hcases hzy ▸ hz))
  · rcases hq with rfl | hq
    · rw [(hlook hz).2, hzero] at hv
      cases hv
    · exact h.inner hq hlen hz i hi hv
  · rcases hsub hq with rfl | hq
    · rw [hentry] at hv
      cases hv
    grind [Owned.mapped]
  · have hzy : z ≠ y := by
      rintro rfl
      rw [update_self] at hz
      cases hz
    obtain ⟨hq, hrest⟩ := h.user (hcases hzy ▸ hz)
    exact ⟨hsup hq, hrest⟩
  grind [Owned.flags]

theorem uvmcreate_spec (h : Owned L m own T U) :
    uvmcreate m = (0, m) ∨ ∃ y m', uvmcreate m = (y, m') ∧ y ≠ 0 ∧ own y = .free ∧
      SameEntries T m m' ∧ SameBytes own m m' ∧ (∀ va, entry y va m' = 0) ∧
      ∀ U', U ⊆ U' → U' ⊆ insert y U →
        Owned L m' (update own y (.table y)) (insert y T) U' := by
  unfold uvmcreate
  rcases h.kalloc_spec with hnull | ⟨y, m1, hk, hy, hy0, hs1, hb1, h1⟩
  · exact .inl (by rw [hnull]; rfl)
  have hheld : update own y Owner.held y = .held := update_self ..
  have hzero : ∀ j, (memset y 0 m1).ptes y j = 0 := fun j => by
    show update m1.ptes y _ y j = 0
    rw [update_self, Nat.zero_mul]
  refine .inr ⟨y, memset y 0 m1, ?_, hy0, hy, ?_, fun x hx => ?_, fun va => ?_, fun U' hsup hsub => ?_⟩
  · rw [hk]
    exact if_neg hy0
  · exact (h.sameEntries hs1).trans (h1.sameEntries (sameTables_memset (held_ne_table hheld)))
  · have hxy : x ≠ y := by
      rintro rfl
      exact hx hy
    exact (memset_bytes_ne hxy).trans (hb1 x hx)
  · exact entry_of_lookup_none (lookup_cons_none (child_none (by rw [hzero]; decide)))
  · have h2 := (h1.fill hheld 0).newRoot hheld hzero hsup hsub
    rwa [update_idem] at h2

end Owned

/-! ### Freeing -/

def Page (L : Linker) (x : ℕ) : Prop := x % pgsize = 0 ∧ L.kernelEnd ≤ x ∧ x < phystop

def Free (m : Memory) (F : Set ℕ) : Prop :=
  ∃ xs, Chain m.next m.freelist xs ∧ ∀ x, x ∈ xs ↔ x ∈ F

theorem Free.unique {F G : Set ℕ} (hF : Free m F) (hG : Free m G) : F = G := by
  obtain ⟨xs, hxs, hmem⟩ := hF
  obtain ⟨ys, hys, hmem'⟩ := hG
  grind [Linked.Chain.unique]

/-- The pages `N` were freed, and entries changed only there and in `C`. -/
structure Freed (N C : Set ℕ) (m m' : Memory) : Prop where
  free : ∀ F, Free m F → Free m' (F ∪ N)
  same : ∀ x, x ∉ N → x ∉ C → m'.ptes x = m.ptes x
  bytes : ∀ x, x ∉ N → m'.bytes x = m.bytes x

theorem Freed.refl {C : Set ℕ} : Freed ∅ C m m :=
  ⟨fun F hF => by rwa [Set.union_empty], fun _ _ _ => rfl, fun _ _ => rfl⟩

theorem Freed.trans {N N' C : Set ℕ} (h : Freed N C m m') (h' : Freed N' C m' m'') :
    Freed (N ∪ N') C m m'' := by
  refine ⟨fun F hF => ?_, fun x hx hC => ?_, fun x hx => ?_⟩
  · rw [← Set.union_assoc]
    exact h'.free _ (h.free F hF)
  · exact (h'.same x (fun hc => hx (.inr hc)) hC).trans (h.same x (fun hc => hx (.inl hc)) hC)
  · exact (h'.bytes x fun hc => hx (.inr hc)).trans (h.bytes x fun hc => hx (.inl hc))

theorem Freed.mono {N C C' : Set ℕ} (h : Freed N C m m') (hC : C ⊆ C') : Freed N C' m m' :=
  ⟨h.free, fun x hx hx' => h.same x hx fun hc => hx' (hC hc), h.bytes⟩

theorem Freed.setPte {N C : Set ℕ} (h : Freed N C m m') (hx : x ∈ C) (i pte : ℕ) :
    Freed N C m (m'.setPte x i pte) := by
  refine ⟨h.free, fun y hy hC => ?_, h.bytes⟩
  have hne : y ≠ x := by
    rintro rfl
    exact hC hx
  exact (update_of_ne hne ..).trans (h.same y hy hC)

theorem pageKfree_freed {F : Set ℕ} (hF : Free m F) (hx : x ∉ F) (hpage : Page L x) :
    ∃ m', pageKfree L x m = .ok m' ∧ Freed {x} ∅ m m' := by
  obtain ⟨hal, hle, hlt⟩ := hpage
  have hok : ¬ (x % pgsize ≠ 0 ∨ x < L.kernelEnd ∨ phystop ≤ x) := by omega
  have h0 : x ≠ 0 := by
    have hpos := Owned.kernelEnd_pos L
    omega
  refine ⟨_, if_neg hok, fun G hG => ?_, fun y hy _ => Owned.memset_ptes_ne hy,
    fun y hy => Owned.memset_bytes_ne hy⟩
  obtain rfl := hF.unique hG
  obtain ⟨xs, hxs, hmem⟩ := hF
  refine ⟨x :: xs, hxs.push h0 fun hc => hx ((hmem x).mp hc), fun y => ?_⟩
  grind

/-- A tree of pages that can be freed: none is free, its inner entries are for pages of the
tree, and at depth `d` there are none. -/
structure Disposable (L : Linker) (m : Memory) (x d : ℕ) (F : Set ℕ) : Prop where
  free : Free m F
  tree : IsTree (child m) x d
  page : ∀ y ∈ Nodes (child m) x d, Page L y ∧ y ∉ F
  inner : ∀ (is : List ℕ) y, is.length < d → lookup (child m) x is = some y →
    ∀ i < 512, valid (m.ptes y i) = true → leaf (m.ptes y i) = false
  low : ∀ (is : List ℕ) y, is.length = d → lookup (child m) x is = some y →
    ∀ i < 512, valid (m.ptes y i) = false

namespace Disposable

variable {F G : Set ℕ} {i : ℕ}

theorem lookup_congr (hs : ∀ y ∈ Nodes (child m) x d, m'.ptes y = m.ptes y) {is : List ℕ}
    (hd : is.length ≤ d) : lookup (child m') x is = lookup (child m) x is :=
  Radix.lookup_congr (fun js y hjs hy => child_congr (hs y ⟨js, hjs.le, hy⟩)) hd

theorem nodes_congr (hs : ∀ y ∈ Nodes (child m) x d, m'.ptes y = m.ptes y) :
    Nodes (child m') x d = Nodes (child m) x d := by
  refine Set.ext fun z => ⟨?_, ?_⟩ <;> rintro ⟨is, hd, hz⟩ <;> refine ⟨is, hd, ?_⟩
  · rwa [lookup_congr hs hd] at hz
  · rwa [lookup_congr hs hd]

theorem congr (h : Disposable L m x d F) (hs : ∀ y ∈ Nodes (child m) x d, m'.ptes y = m.ptes y)
    (hG : Free m' G) (hdisj : ∀ y ∈ Nodes (child m) x d, y ∉ G) : Disposable L m' x d G := by
  refine ⟨hG, ?_, fun y hy => ?_, fun is y hlen hy i hi hv => ?_, fun is y hlen hy i hi => ?_⟩
  · intro is js z his hjs hz hz'
    rw [lookup_congr hs his] at hz
    rw [lookup_congr hs hjs] at hz'
    exact h.tree his hjs hz hz'
  · rw [nodes_congr hs] at hy
    exact ⟨(h.page y hy).1, hdisj y hy⟩
  · rw [lookup_congr hs hlen.le] at hy
    rw [hs y ⟨is, hlen.le, hy⟩] at hv ⊢
    exact h.inner is y hlen hy i hi hv
  · rw [lookup_congr hs hlen.le] at hy
    rw [hs y ⟨is, Nat.le_of_eq hlen, hy⟩]
    exact h.low is y hlen hy i hi

theorem below (h : Disposable L m x (d + 1) F) (hc : child m x i = some y) :
    Disposable L m y d F := by
  refine ⟨h.free, h.tree.below hc, fun z hz => h.page z (nodes_child hc hz),
    fun is z hlen hz => ?_, fun is z hlen hz => ?_⟩
  · exact h.inner (i :: is) z (Nat.succ_lt_succ hlen) ((lookup_cons_some hc).trans hz)
  · exact h.low (i :: is) z (by rw [List.length_cons, hlen]) ((lookup_cons_some hc).trans hz)

def Sub (m : Memory) (x d i : ℕ) : Set ℕ := {z | ∃ y, child m x i = some y ∧ z ∈ Nodes (child m) y d}

theorem nodes_eq : Nodes (child m) x (d + 1) = {z | ∃ i < 512, z ∈ Sub m x d i} ∪ {x} := by
  refine Set.ext fun z => ⟨?_, ?_⟩
  · rintro ⟨is, hd, hz⟩
    cases is with
    | nil => exact .inr (Option.some.inj hz).symm
    | cons i is =>
      cases hc : child m x i with
      | none => cases (lookup_cons_none hc).symm.trans hz
      | some y =>
        have hi : i < 512 := by
          by_contra hge
          cases (if_neg fun hb => hge hb.1 : child m x i = none).symm.trans hc
        exact .inl ⟨i, hi, y, hc, is, Nat.le_of_succ_le_succ hd, (lookup_cons_some hc).symm.trans hz⟩
  · rintro (⟨i, _, y, hc, hz⟩ | rfl)
    · exact nodes_child hc hz
    · exact root_mem_nodes

/-- The entries that are left, `is`, are as they were, and below the others all is freed. -/
structure Progress (m0 m : Memory) (x d : ℕ) (is : List ℕ) : Prop where
  freed : Freed {z | ∃ i < 512, i ∉ is ∧ z ∈ Sub m0 x d i} {x} m0 m
  left : ∀ i ∈ is, m.ptes x i = m0.ptes x i

theorem freeEntries_spec {m0 : Memory} {free : ℕ → Memory → Except Stop Memory}
    (h : Disposable L m0 x (d + 1) F)
    (ih : ∀ {m y G}, Disposable L m y d G →
      Outcome E (free y m) fun m' => Freed (Nodes (child m) y d) ∅ m m')
    {is : List ℕ} (hlt : ∀ i ∈ is, i < 512) (hnodup : is.Nodup) (hp : Progress m0 m x d is) :
    Outcome E (freeEntries free x is m) fun m' => Progress m0 m' x d [] := by
  induction is generalizing m with
  | nil => exact hp
  | cons i is hrec =>
    have hi : i < 512 := hlt i (List.mem_cons_self ..)
    have hnotin : i ∉ is := (List.nodup_cons.mp hnodup).1
    have hpte : m.ptes x i = m0.ptes x i := hp.left i (List.mem_cons_self ..)
    have hrest : ∀ {m1}, Progress m0 m1 x d is →
        Outcome E (freeEntries free x is m1) fun m' => Progress m0 m' x d [] :=
      hrec (fun j hj => hlt j (List.mem_cons_of_mem i hj)) (List.nodup_cons.mp hnodup).2
    unfold freeEntries
    rw [hpte]
    by_cases hv : valid (m0.ptes x i) = true
    · have hsub : (valid (m0.ptes x i) && !leaf (m0.ptes x i)) = true := by
        rw [hv, h.inner [] x (Nat.succ_pos d) rfl i hi hv]
        rfl
      rw [if_pos hsub]
      have hc := child_some hi hv
      -- The tree below is as it was, as it is apart from what was freed.
      have hapart : ∀ z ∈ Nodes (child m0) (pte2pa (m0.ptes x i)) d,
          z ∉ {z | ∃ j < 512, j ∉ i :: is ∧ z ∈ Sub m0 x d j} := by
        rintro z hz ⟨j, _, hj, y, hy, hzy⟩
        have hij : i ≠ j := fun heq => hj (heq ▸ List.mem_cons_self ..)
        exact h.tree.disjoint_below hc hy hij hz hzy
      have hnex : ∀ z ∈ Nodes (child m0) (pte2pa (m0.ptes x i)) d, z ≠ x := by
        rintro z hz rfl
        exact h.tree.root_notMem hc hz
      have hsame : ∀ z ∈ Nodes (child m0) (pte2pa (m0.ptes x i)) d, m.ptes z = m0.ptes z :=
        fun z hz => hp.freed.same z (hapart z hz) (hnex z hz)
      have hdisp : Disposable L m (pte2pa (m0.ptes x i)) d
          (F ∪ {z | ∃ j < 512, j ∉ i :: is ∧ z ∈ Sub m0 x d j}) := by
        refine (h.below hc).congr hsame (hp.freed.free F h.free) fun z hz => ?_
        rintro (hF | hN)
        · exact ((h.below hc).page z hz).2 hF
        · exact hapart z hz hN
      refine (ih hdisp).bind fun m1 hfreed => hrest ⟨?_, fun j hj => ?_⟩
      · rw [nodes_congr hsame] at hfreed
        have hfreed' : Freed (Nodes (child m0) (pte2pa (m0.ptes x i)) d) {x} m m1 :=
          hfreed.mono (Set.empty_subset _)
        have hset : {z | ∃ j < 512, j ∉ i :: is ∧ z ∈ Sub m0 x d j} ∪
            Nodes (child m0) (pte2pa (m0.ptes x i)) d =
            {z | ∃ j < 512, j ∉ is ∧ z ∈ Sub m0 x d j} := by
          refine Set.ext fun z => ⟨?_, ?_⟩
          · rintro (⟨j, hj, hmem, hz⟩ | hz)
            · exact ⟨j, hj, fun hc => hmem (List.mem_cons_of_mem i hc), hz⟩
            · exact ⟨i, hi, hnotin, _, hc, hz⟩
          · rintro ⟨j, hj, hmem, y, hy, hz⟩
            by_cases hji : j = i
            · grind
            · refine .inl ⟨j, hj, fun hc => ?_, y, hy, hz⟩
              exact (List.mem_cons.mp hc).elim hji hmem
        rw [← hset]
        exact (hp.freed.trans hfreed').setPte rfl i 0
      · have hji : j ≠ i := fun heq => hnotin (heq ▸ hj)
        have hx : m1.ptes x = m.ptes x :=
          hfreed.same x (by rw [nodes_congr hsame]; exact h.tree.root_notMem hc) (Set.notMem_empty x)
        rw [setPte_of_ne fun hb => hji hb.2, hx]
        exact hp.left j (List.mem_cons_of_mem i hj)
    · have hsub : ¬ (valid (m0.ptes x i) && !leaf (m0.ptes x i)) = true :=
        fun hc => hv (Bool.and_eq_true_iff.mp hc).1
      rw [if_neg hsub, if_neg hv]
      have hnone : child m0 x i = none := child_none hv
      -- There is nothing below the entry.
      refine hrest ⟨?_, fun j hj => hp.left j (List.mem_cons_of_mem i hj)⟩
      have hset : {z | ∃ j < 512, j ∉ i :: is ∧ z ∈ Sub m0 x d j} =
          {z | ∃ j < 512, j ∉ is ∧ z ∈ Sub m0 x d j} := by
        refine Set.ext fun z => ⟨?_, ?_⟩
        · grind
        · rintro ⟨j, hj, hmem, y, hy, hz⟩
          refine ⟨j, hj, fun hc => ?_, y, hy, hz⟩
          grind
      rw [← hset]
      exact hp.freed

theorem freeEntries_low {free : ℕ → Memory → Except Stop Memory} {is : List ℕ}
    (hnone : ∀ i ∈ is, valid (m.ptes x i) = false) : freeEntries free x is m = .ok m := by
  induction is with
  | nil => rfl
  | cons i is ih =>
    grind [freeEntries]

theorem freewalk_spec {fuel : ℕ} (h : Disposable L m x d F) (hfuel : d < fuel) :
    Outcome E (freewalk L fuel x m) fun m' => Freed (Nodes (child m) x d) ∅ m m' := by
  induction d generalizing fuel m x F with
  | zero =>
    cases fuel with
    | zero => cases hfuel
    | succ fuel =>
      have hroot : Nodes (child m) x 0 = {x} := by
        refine Set.ext fun z => ⟨?_, ?_⟩
        · rintro ⟨is, hd, hz⟩
          cases is with
          | nil => exact (Option.some.inj hz).symm
          | cons i is => cases hd
        · rintro rfl
          exact root_mem_nodes
      rw [freewalk]
      -- For any list: at the concrete one the loop would be evaluated.
      have hmem : ∀ i, i ∈ List.range 512 ↔ i < 512 := fun i => List.mem_range
      generalize List.range 512 = indices at hmem
      rw [freeEntries_low fun i hi => h.low [] x rfl rfl i ((hmem i).mp hi)]
      obtain ⟨hpage, hx⟩ := h.page x root_mem_nodes
      obtain ⟨m', hm', hfreed⟩ := pageKfree_freed h.free hx hpage
      rw [returns_bind, hm', hroot]
      exact hfreed
  | succ d ih =>
    cases fuel with
    | zero => cases hfuel
    | succ fuel =>
      rw [freewalk]
      have hmem : ∀ i, i ∈ List.range 512 ↔ i < 512 := fun i => List.mem_range
      have hnodup : (List.range 512).Nodup := List.nodup_range
      generalize List.range 512 = indices at hmem hnodup
      have hstart : Progress m m x d indices := by
        refine ⟨?_, fun _ _ => rfl⟩
        grind [Freed.refl]
      refine (freeEntries_spec h (fun hy => ih hy (Nat.lt_of_succ_lt_succ hfuel))
        (fun i hi => (hmem i).mp hi) hnodup hstart).bind fun m1 hp => ?_
      have hset : {z | ∃ i < 512, i ∉ ([] : List ℕ) ∧ z ∈ Sub m x d i} =
          {z | ∃ i < 512, z ∈ Sub m x d i} := by
        refine Set.ext fun z => ⟨?_, ?_⟩
        · grind
        · grind
      have hfreed := hp.freed
      rw [hset] at hfreed
      obtain ⟨hpage, hx⟩ := h.page x root_mem_nodes
      have hx1 : x ∉ F ∪ {z | ∃ i < 512, z ∈ Sub m x d i} := by
        rintro (hc | ⟨i, _, y, hc, hz⟩)
        · exact hx hc
        · exact h.tree.root_notMem hc hz
      obtain ⟨m', hm', hlast⟩ := pageKfree_freed (hfreed.free F h.free) hx1 hpage
      rw [hm', nodes_eq]
      have hall := hfreed.trans (hlast.mono (Set.empty_subset {x}))
      exact ⟨hall.free, fun z hz _ => hall.same z hz fun hzx => hz (.inr hzx), hall.bytes⟩

end Disposable

/-- The pages of a page table change hands. -/
def release (own : ℕ → Owner) (r : ℕ) (o : Owner) : ℕ → Owner :=
  fun x => if own x = .table r then o else own x

theorem release_iff {o o' : Owner} (ho : o' ≠ o) (hr : o' ≠ .table r) (x : ℕ) :
    release own r o x = o' ↔ own x = o' := by
  unfold release
  grind

namespace Owned

theorem dropRoot (h : Owned L m own T U) (hnone : ∀ x va, own x ≠ .user r va) :
    Owned L m (release own r .held) (T \ {r}) (U \ {r}) := by
  have htable : ∀ {x q}, q ≠ r → (release own r .held x = .table q ↔ own x = .table q) := by
    intro x q hq
    refine release_iff (by nofun) (fun hc => ?_) x
    cases hc
    exact hq rfl
  have huser : ∀ {x q va}, release own r .held x = .user q va ↔ own x = .user q va :=
    release_iff (by nofun) (by nofun) _
  obtain ⟨F, hF, hmem⟩ := h.list
  refine ⟨⟨F, hF, fun x => (hmem x).trans (release_iff ?_ ?_ x).symm⟩, fun {x} hx => ?_,
    fun hq => h.tree hq.1, fun hq x => (h.nodes hq.1).trans (htable hq.2).symm, fun {x q} hx => ?_,
    fun hq => h.inner hq.1, fun q hq => ⟨h.sub hq.1, hq.2⟩,
    fun hq hva hal hv => huser.mpr (h.mapped hq.1 hva hal hv), fun {x q va} hx => ?_,
    fun hq => h.flags hq.1⟩
  · nofun
  · nofun
  · refine h.page fun ho => hx ?_
    rw [release, if_neg (by rw [ho]; nofun), ho]
  · have hqr : q ≠ r := by
      rintro rfl
      unfold release at hx
      split at hx
      · cases hx
      · rename_i hne
        exact hne hx
    exact ⟨h.root ((htable hqr).mp hx), hqr⟩
  · have hown := huser.mp hx
    obtain ⟨hq, hrest⟩ := h.user hown
    grind

theorem exists_va {i j k : ℕ} (hi : i < 512) (hj : j < 512) (hk : k < 512) :
    ∃ va < sv39, path va = [i, j] ∧ px 0 va = k := by
  refine ⟨i * 2 ^ 30 + j * 2 ^ 21 + k * 2 ^ 12, ?_, ?_, ?_⟩
  · unfold sv39
    omega
  · simp only [path, px_eq, List.cons.injEq, and_true]
    constructor <;> omega
  · rw [px_eq]
    omega

theorem low_invalid (h : Owned L m own T U) (hr : r ∈ T)
    (hnone : ∀ va < sv39, valid (entry r va m) = false) {is : List ℕ} (hd : is.length = 2)
    (hx : lookup (child m) r is = some x) {k : ℕ} (hk : k < 512) : valid (m.ptes x k) = false := by
  have hown := h.table_of_lookup hr hd.le hx
  match is, hd with
  | [i, j], _ =>
    have hindex : ∀ {y i z}, child m y i = some z → i < 512 := fun {y i z} hc => by
      by_contra hge
      cases (if_neg fun hb => hge hb.1 : child m y i = none).symm.trans hc
    obtain ⟨y, hy, hrest⟩ : ∃ y, child m r i = some y ∧ lookup (child m) y [j] = some x := by
      cases hc : child m r i with
      | none => cases (lookup_cons_none hc).symm.trans hx
      | some y => exact ⟨y, rfl, (lookup_cons_some hc).symm.trans hx⟩
    have hj : j < 512 := by
      cases hc : child m y j with
      | none => cases (lookup_cons_none hc).symm.trans hrest
      | some z => exact hindex hc
    obtain ⟨va, hva, hpath, hpx⟩ := exists_va (hindex hy) hj hk
    rw [← hpx, ← entry_of_lookup (hpath ▸ hx) (h.ne_zero (table_ne_other hown))]
    exact hnone va hva

theorem freewalk_spec (h : Owned L m own T U) (hr : r ∈ U) {fuel : ℕ} (hfuel : 2 < fuel)
    (hnone : ∀ va < sv39, valid (entry r va m) = false) :
    Outcome E (freewalk L fuel r m) fun m' =>
      Owned L m' (release own r .free) (T \ {r}) (U \ {r}) ∧ SameEntries (T \ {r}) m m' ∧
        SameBytes (release own r .free) m m' := by
  have hrT := h.sub hr
  obtain ⟨F, hF, hmem⟩ := h.list
  have hdisp : Disposable L m r 2 {x | own x = .free} := by
    refine ⟨⟨F, hF, hmem⟩, h.tree hrT, fun y hy => ?_, fun is y hlen hy => h.inner hrT hlen hy,
      fun is y hlen hy i hi => h.low_invalid hrT hnone hlen hy hi⟩
    have hown := (h.nodes hrT).mp hy
    obtain ⟨hal, hle, hlt⟩ := h.page (table_ne_other hown)
    refine ⟨⟨hal, hle, ?_⟩, fun hc => by cases hown.symm.trans hc⟩
    unfold slabMem at hlt
    omega
  refine (hdisp.freewalk_spec hfuel).mono fun m' hfreed => ?_
  have huser : ∀ x va, own x ≠ .user r va := by
    intro x va hx
    obtain ⟨_, hva, _, hv, _⟩ := h.user hx
    grind [trapframe_lt_sv39]
  have hdrop := h.dropRoot huser
  have hs : SameTables (release own r .held) m m' := by
    intro x q hx
    refine hfreed.same x (fun hc => ?_) (Set.notMem_empty x)
    rw [release, if_pos ((h.nodes hrT).mp hc)] at hx
    cases hx
  refine ⟨hdrop.change hs ?_ (fun x q => ?_) (fun x q va => ?_) fun x hx => ?_,
    hdrop.sameEntries hs, fun x hx => hfreed.bytes x fun hc => hx ?_⟩
  · obtain ⟨xs, hxs, hin⟩ := hfreed.free _ hdisp.free
    grind [Owned.nodes, release]
  · grind [release]
  · grind [release]
  · unfold release at hx ⊢
    grind
  · rw [release, if_pos ((h.nodes hrT).mp hc)]

end Owned

end Xv6.Vm
