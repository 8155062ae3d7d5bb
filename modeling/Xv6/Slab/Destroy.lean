import Xv6.Slab.Safety

/-! Destroying a cache gives everything back.

A cache that is created, used on its own and destroyed leaves the free lists of the buddy
allocator, the number of free blocks and `cache_list` as they were, whatever is still
allocated from it (`kmemCacheDestroy_restores`): the blocks held are the same again, and
the lists of the buddy allocator depend on nothing else. -/
namespace Xv6.Slab
open Linked
open Buddy (Arena Region Listed Managed maxOrderLimit wholeRegion bootRegion)

/-- The free lists, as sets, the number of free blocks and `cache_list` are the same. -/
structure Restored (k k' : Kmem) : Prop where
  listed : ∀ j < maxOrderLimit, ∀ p, Listed k'.buddy j p ↔ Listed k.buddy j p
  freeBlocks : k'.buddy.freeBlocks = k.buddy.freeBlocks
  head : k'.cacheList = k.cacheList
  list : ∀ xs, Chain (fun c => (k'.caches c).next) k'.cacheList xs ↔
    Chain (fun c => (k.caches c).next) k.cacheList xs

variable {A : Arena} {k k' k1 k2 : Kmem} {w w₁ : World} {H H' H₁ H₂ : Heap} {c : ℕ}

theorem held_congr (hcaches : H'.caches = H.caches) (hpool : ∀ a ∈ H.caches, H'.pool a = H.pool a)
    (hsize : ∀ a ∈ H.caches, (k'.caches a).slabSize = (k.caches a).slabSize) :
    held k' H' = held k H := by
  unfold held
  rw [hcaches]
  congr 1
  refine List.flatMap_congr fun a ha => ?_
  unfold slabsHeld
  rw [hpool a ha, hsize a ha]

theorem Rep.restored {m start : ℕ} (h : Rep (wholeRegion m start) k H)
    (h' : Rep (wholeRegion m start) k' H') (hcaches : H'.caches = H.caches)
    (hheld : held k' H' = held k H) : Restored k k' := by
  have hm : Managed m start ⟨k.buddy, held k H⟩ := h.sound
  have hm' : Managed m start ⟨k'.buddy, held k' H'⟩ := h'.sound
  have hlist := h'.list
  rw [hcaches] at hlist
  refine ⟨fun j _ p => ?_, hm.freeBlocks_eq hm' hheld, ?_, fun xs => ⟨fun hxs => ?_, fun hxs => ?_⟩⟩
  · exact hm'.listed_iff.trans (hheld ▸ hm.listed_iff.symm)
  · rw [hlist.head_eq, h.list.head_eq]
  · exact hxs.unique hlist ▸ h.list
  · exact hxs.unique h.list ▸ hlist

theorem held_round_trip (ha : Added c k k1 H H₁) (hk : Kept c k1 k2 H₁ H₂)
    (hr : Removed c k2 k' H₂ H') : H'.caches = H.caches ∧ held k' H' = held k H := by
  have hne : ∀ {a}, a ∈ H.caches → a ≠ c := fun hmem heq => ha.fresh (heq ▸ hmem)
  have hcaches : H'.caches = H.caches := by
    rw [hr.heap, hk.heap, ha.heap, List.erase_cons_head]
  refine ⟨hcaches, held_congr hcaches (fun a hmem => ?_) fun a hmem => ?_⟩
  · rw [hr.pool a (hne hmem), hk.pool a (hne hmem), ha.pool a (hne hmem)]
  · rw [(hr.kind (hne hmem)).slabSize, hk.caches a (hne hmem), ha.caches a (hne hmem)]

theorem Tracks.runOn {ds : List Call} (h : Tracks A w H) (hc : c ∈ H.caches) (hon : ∀ d ∈ ds, d.On c)
    (hp : calls.Proper w ds) :
    Outcome A.faults (calls.run w ds) fun w' => ∃ H', Tracks A w' H' ∧
      Kept c w.kmem w'.kmem H H' ∧ w'.handles = w.handles := by
  refine Protocol.run_outcome (I := fun w' => ∃ H', Tracks A w' H' ∧ Kept c w.kmem w'.kmem H H' ∧
    w'.handles = w.handles) ?_ ⟨H, h, .refl c w.kmem H, rfl⟩ hp
  rintro d hd w' ⟨H', h', hk, hh⟩ hcall
  refine (h'.onCache (hon d hd) (hk.heap ▸ hc) hcall).mono ?_
  grind [Kept.trans]

/-- **Destroying a cache returns everything.** In every state that proper calls lead to,
over a region of `2 ^ m` blocks: if `kmem_cache_create` returns a cache, then after any
proper calls on that cache alone `kmem_cache_destroy` returns, and the free lists, the
number of free blocks and `cache_list` are as they were. -/
theorem kmemCacheDestroy_restores {m : ℕ} (hm : m ≤ 13) (r : Region (2 ^ m)) (memory : Kmem) :
    ∃ k, kmemInit r.start (2 ^ m) memory.zeroed = .ok k ∧
      ∀ cs w, calls.Proper ⟨k, [], []⟩ cs → calls.run ⟨k, [], []⟩ cs = .ok w →
      ∀ name size ctor dtor c w₁, w.step (.create name size ctor dtor) = .ok w₁ →
        w₁.handles = c :: w.handles →
      ∀ ds, (∀ d ∈ ds, d.On c) → calls.Proper w₁ ds →
        ∃ w₂ w₃, calls.run w₁ ds = .ok w₂ ∧ w₂.step (.destroy c) = .ok w₃ ∧
          Restored w.kmem w₃.kmem := by
  obtain ⟨k, hk, ht⟩ := tracks_wholeRegion hm r memory
  refine ⟨k, hk, fun cs w hp hw name size ctor dtor c w₁ hcreate hhandles ds hon hp₁ => ?_⟩
  obtain ⟨w', hw', H, htw⟩ := Outcome.total.mp (ht.run hp)
  cases hw.symm.trans hw'
  obtain ⟨w₁', hw₁', hres⟩ := Outcome.total.mp (htw.create name size ctor dtor)
  cases hcreate.symm.trans hw₁'
  rcases hres with rfl | ⟨c', H₁, _, hhandles', _, ht₁, hadd⟩
  · simp at hhandles
  · cases hhandles.symm.trans hhandles'
    have hmem : c ∈ H₁.caches := hadd.heap ▸ List.mem_cons_self ..
    obtain ⟨w₂, hw₂, H₂, ht₂, hkept, hh₂⟩ := Outcome.total.mp (ht₁.runOn hmem hon hp₁)
    have hc₂ : c ∈ w₂.handles := by
      rw [hh₂, hhandles]
      exact List.mem_cons_self ..
    obtain ⟨w₃, hw₃, H₃, ht₃, hrem⟩ := Outcome.total.mp (ht₂.destroy hc₂)
    obtain ⟨hcaches, hheld⟩ := held_round_trip hadd hkept hrem
    exact ⟨w₂, w₃, hw₂, hw₃, htw.good.rep.restored ht₃.good.rep hcaches hheld⟩

/-- After `sampleCalls`: a second cache, an object of it, and the cache is destroyed. -/
theorem kmemCacheDestroy_restores_boot :
    ∃ k w w₁ w₂ w₃, kmemInit bootRegion.start (2 ^ 10) blank.zeroed = .ok k ∧
      calls.run ⟨k, [], []⟩ sampleCalls = .ok w ∧ w.step (.create ['y'] 64 0 0) = .ok w₁ ∧
      calls.run w₁ [.alloc 0x87c04000] = .ok w₂ ∧ w₂.step (.destroy 0x87c04000) = .ok w₃ ∧
      Restored w.kmem w₃.kmem := by
  have hsees : ∃ k, kmemInit bootRegion.start (2 ^ 10) blank.zeroed = .ok k ∧
      calls.Proper ⟨k, [], []⟩ sampleCalls ∧ ∃ w, calls.run ⟨k, [], []⟩ sampleCalls = .ok w ∧
      ∃ w₁, w.step (.create ['y'] 64 0 0) = .ok w₁ ∧ w₁.handles = 0x87c04000 :: w.handles ∧
        calls.Proper w₁ [.alloc 0x87c04000] := by
    decide +kernel
  obtain ⟨k, hk, hproper, w, hw, w₁, hw₁, hc, hproper₁⟩ := hsees
  obtain ⟨k', hk', hall⟩ := kmemCacheDestroy_restores (m := 10) (by decide) bootRegion blank
  cases hk.symm.trans hk'
  obtain ⟨w₂, w₃, hw₂, hw₃, hrestored⟩ := hall _ w hproper hw _ _ _ _ _ w₁ hw₁ hc [.alloc 0x87c04000]
    (by simp [Call.On]) hproper₁
  exact ⟨k, w, w₁, w₂, w₃, hk, hw, hw₁, hw₂, hw₃, hrestored⟩

end Xv6.Slab
