import Xv6.Slab.Layout

/-! The lists of slabs of a cache.

`add_slab_to_list` and `remove_slab_from_list` write the links of slabs and the list
heads of one cache, and nothing else (`Kmem.relink`): they are the operations of a
family of three doubly linked lists. -/
namespace Xv6.Slab
open Function
open Linked

/-- Other heads for the lists of a cache, and other links for the slabs. -/
def Kmem.relink (k : Kmem) (cache : ℕ) (heads : SlabList → ℕ) (K : Links ℕ) : Kmem :=
  {k with
    caches := update k.caches cache {k.caches cache with slabs := heads}
    slabs := {k.slabs with toLinks := K}}

variable {k : Kmem} {c s z : ℕ} {l l' : SlabList} {L : SlabList → List ℕ}

@[simp] theorem relink_relink (heads heads' : SlabList → ℕ) (K K' : Links ℕ) :
    (k.relink c heads K).relink c heads' K' = k.relink c heads' K' := by
  simp [Kmem.relink]

@[simp] theorem relink_cache (heads : SlabList → ℕ) (K : Links ℕ) :
    (k.relink c heads K).caches c = {k.caches c with slabs := heads} :=
  update_self ..

theorem addSlabToList_eq : addSlabToList c l s k = k.relink c (update (k.caches c).slabs l s)
      (k.slabs.toLinks.push ((k.caches c).slabs l) s) := by
  grind [addSlabToList, Kmem.relink, Kmem.setCache, Links.push]

theorem removeSlabFromList_eq : removeSlabFromList c l s k = k.relink c
      (update (k.caches c).slabs l
        (if k.slabs.prev s = 0 then k.slabs.next s else (k.caches c).slabs l))
      (k.slabs.toLinks.remove s) := by
  unfold removeSlabFromList Kmem.relink Kmem.setCache Links.remove
  by_cases h0 : k.slabs.prev s = 0
  · grind
  · by_cases hn : update k.slabs.next (k.slabs.prev s) (k.slabs.next s) s = 0
    · simp [h0, hn]
    · simp [h0, hn]

/-- `k'` is `k` but for the list heads of cache `c` and the links of the slabs `S`. -/
def Relinked (c : ℕ) (S : List ℕ) (k k' : Kmem) : Prop :=
  ∃ heads K, k' = k.relink c heads K ∧
    ∀ z ∉ S, K.next z = k.slabs.next z ∧ K.prev z = k.slabs.prev z

theorem Relinked.refl (c : ℕ) (S : List ℕ) (k : Kmem) : Relinked c S k k := by
  refine ⟨(k.caches c).slabs, k.slabs.toLinks, ?_, fun _ _ => ⟨rfl, rfl⟩⟩
  simp [Kmem.relink]

theorem Relinked.trans {S : List ℕ} {k k' k'' : Kmem} (h : Relinked c S k k')
    (h' : Relinked c S k' k'') : Relinked c S k k'' := by
  obtain ⟨heads, K, rfl, hK⟩ := h
  obtain ⟨heads', K', rfl, hK'⟩ := h'
  refine ⟨heads', K', relink_relink .., fun z hz => ?_⟩
  exact ⟨(hK' z hz).1.trans (hK z hz).1, (hK' z hz).2.trans (hK z hz).2⟩

/-! ### The operations -/

variable {S : List ℕ}

section
variable (h : Family k.slabs.toLinks (k.caches c).slabs L)
include h

theorem removeSlabFromList_spec (hs : s ∈ L l) (hS : ∀ l, ∀ z ∈ L l, z ∈ S) :
    Relinked c S k (removeSlabFromList c l s k) ∧
      Family (removeSlabFromList c l s k).slabs.toLinks
        ((removeSlabFromList c l s k).caches c).slabs (update L l ((L l).erase s)) := by
  rw [removeSlabFromList_eq]
  refine ⟨⟨_, _, rfl, fun z hz => (h.list l).remove_apart hs fun hmem => hz (hS l z hmem)⟩, ?_⟩
  rw [relink_cache]
  exact h.remove hs

theorem addSlabToList_spec
    (hs : ∀ l, s ∉ L l) (h0 : s ≠ 0) (hsS : s ∈ S) (hS : ∀ l, ∀ z ∈ L l, z ∈ S) :
    Relinked c S k (addSlabToList c l s k) ∧
      Family (addSlabToList c l s k).slabs.toLinks ((addSlabToList c l s k).caches c).slabs
        (update L l (s :: L l)) := by
  rw [addSlabToList_eq]
  refine ⟨⟨_, _, rfl, fun z hz => (h.list l).push_apart ?_⟩, ?_⟩
  · exact List.not_mem_cons_of_ne_of_not_mem (fun heq => hz (heq ▸ hsS)) fun hmem => hz (hS l z hmem)
  · rw [relink_cache]
    exact h.push hs h0 l

theorem moveSlab_spec (hs : s ∈ L l) (hne : l' ≠ l) (hS : ∀ l, ∀ z ∈ L l, z ∈ S) :
    Relinked c S k (moveSlab c l l' s k) ∧
      Family (moveSlab c l l' s k).slabs.toLinks ((moveSlab c l l' s k).caches c).slabs
        (update (update L l ((L l).erase s)) l' (s :: L l')) := by
  obtain ⟨hrel1, hfam1⟩ := removeSlabFromList_spec h hs hS
  obtain ⟨hrel2, hfam2⟩ := addSlabToList_spec (l := l') hfam1 (h.not_mem_remove hs)
    ((h.list l).chain.ne_zero s hs) (hS l s hs) fun j z hz => hS j z (mem_of_mem_update_erase hz)
  rw [update_of_ne hne] at hfam2
  exact ⟨hrel1.trans hrel2, hfam2⟩

end

@[simp] theorem moveSlab_numFree : (moveSlab c l l' s k).slabs.numFree = k.slabs.numFree := by
  rw [moveSlab, addSlabToList_eq, removeSlabFromList_eq]
  rfl

@[simp] theorem moveSlab_numObjectsMax :
    (moveSlab c l l' s k).slabs.numObjectsMax = k.slabs.numObjectsMax := by
  rw [moveSlab, addSlabToList_eq, removeSlabFromList_eq]
  rfl

end Xv6.Slab
