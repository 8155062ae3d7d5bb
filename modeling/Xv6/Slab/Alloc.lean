import Xv6.Slab.Live

/-! `kmem_cache_alloc`, `kmem_cache_free` and `kmem_cache_shrink`.

On a cache of the heap, an allocation returns null or one more live object
(`Good.kmemCacheAlloc`), freeing a live object makes it no longer live
(`Good.kmemCacheFree`), and shrinking changes no live object (`Good.kmemCacheShrink`). -/
namespace Xv6.Slab
open Linked
open Buddy (Arena)

variable {A : Arena} {k k' : Kmem} {H : Heap} {c s x : ℕ} {live : List Live}
  {o : Live} {E : Fault → Prop}

namespace Good

section
variable (h : Good A k H live)
include h

section
variable (hc : c ∈ H.caches)
include hc

theorem cache_ne_zero : c ≠ 0 :=
  h.rep.list.ne_zero c hc

theorem valid : ¬ (c = 0 ∨ (k.caches c).errorDetection ≠ slabErrDetect) := by
  rintro (h0 | hd)
  · exact h.cache_ne_zero hc h0
  · exact hd (h.rep.cache c hc).descriptor.valid

theorem selectSlab :
    Outcome A.faults (selectSlab c k) fun r => ∃ H', Good A r.2 H' live ∧ Kept c k r.2 H H' ∧
      ∀ s, r.1 = some s → ∃ l, l ≠ .slabsFull ∧ s ∈ (H'.pool c).lists l := by
  have hfam := (h.rep.cache c hc).family
  unfold Slab.selectSlab
  by_cases hp : (k.caches c).slabs .slabsPartial = 0
  · rw [if_neg (not_not.mpr hp)]
    by_cases he : (k.caches c).slabs .slabsEmpty = 0
    · rw [if_neg (not_not.mpr he)]
      refine (h.rep.kmemCacheGrow hc).bind ?_
      rintro ⟨grown, k'⟩ (hfail | ⟨hzero, p, hgrown⟩)
      · cases hfail
        obtain ⟨hgood, hkept⟩ := h.fails c
        exact ⟨H, hgood, hkept, fun s hs => by cases hs⟩
      · obtain rfl : grown = 0 := hzero
        obtain ⟨hgood, hkept⟩ := h.grown hc hgrown
        refine ⟨_, hgood, hkept, fun s hs => ?_⟩
        -- The new slab is the first on the list of empty slabs.
        have hchain := ((hgood.rep.cache c hc).family.list .slabsEmpty).chain
        have hlist : ((H.set c ((H.pool c).grow p (slots (k.caches c) p))).pool c).lists .slabsEmpty =
            p :: (H.pool c).lists .slabsEmpty := by
          simp [Pool.grow]
        rw [hlist] at hchain
        cases hs
        refine ⟨.slabsEmpty, by decide, ?_⟩
        rw [hlist, hchain.1]
        exact List.mem_cons_self ..
    · rw [if_pos he]
      refine ⟨H, h, .refl c k H, fun s hs => ⟨.slabsEmpty, by decide, ?_⟩⟩
      cases hs
      exact (hfam.list .slabsEmpty).chain.head_mem he
  · rw [if_pos hp]
    refine ⟨H, h, .refl c k H, fun s hs => ⟨.slabsPartial, by decide, ?_⟩⟩
    cases hs
    exact (hfam.list .slabsPartial).chain.head_mem hp

theorem kmemCacheAlloc : Outcome A.faults (kmemCacheAlloc c k) fun r => ∃ H', Kept c k r.2 H H' ∧
      (r.1 = 0 ∧ Good A r.2 H' live ∨
        r.1 ≠ 0 ∧ ∀ n ≤ (k.caches c).objectSize, Good A r.2 H' (⟨r.1, c, n⟩ :: live)) := by
  unfold Slab.kmemCacheAlloc
  rw [if_neg (h.valid hc)]
  refine (h.selectSlab hc).bind ?_
  rintro ⟨slab, k1⟩ ⟨H1, h1, hk1, hslab⟩
  have hc1 : c ∈ H1.caches := hk1.heap ▸ hc
  cases slab with
  | none => exact ⟨H1, hk1, .inl ⟨rfl, h1⟩⟩
  | some s =>
    obtain ⟨l, _, hl⟩ := hslab s rfl
    have hs : s ∈ (H1.pool c).slabs := Pool.mem_slabs.mpr ⟨l, hl⟩
    have hcr := h1.rep.cache c hc1
    show Outcome A.faults (if s = 0 ∨ k1.slabs.freeList s = 0 then _ else _) _
    split
    · obtain ⟨hgood, hkept⟩ := h1.fails c
      exact ⟨H1, hk1.trans hkept, .inl ⟨rfl, hgood⟩⟩
    · rename_i hsome
      have hchain := (hcr.slab s hs).chain
      cases hf : (H1.pool c).free s with
      | nil =>
        rw [hf] at hchain
        exact absurd (.inr hchain) hsome
      | cons x xs =>
        obtain ⟨P, he⟩ := hcr.takeObject (h1.rep.settled c hc1) (h1.rep.slotsApart hc1) hl hf
        rw [hf] at hchain
        have hx : k1.slabs.freeList s = x := hchain.1
        have htake := fun {n} hn => h1.take (n := n) hc1 hs hf he hn
        refine ⟨_, hk1.trans (htake (Nat.zero_le _)).2, .inr ⟨?_, fun n hn => ?_⟩⟩
        · exact Nat.ne_of_gt (Nat.add_pos_right _ (by decide))
        · show Good A _ _ (⟨k1.slabs.freeList s + sizeofObject, c, n⟩ :: live)
          rw [hx]
          exact (htake (hk1.cache.objectSize.symm ▸ hn)).1

end

theorem header_eq (hl : Located k H o s x) : header o.obj = x := by
  have hin := h.rep.slot_mem_slab hl.cache hl.slot
  have hlt := h.rep.sound.ledger.byte_lt (mem_held_slab hl.cache hl.slab)
    (by simpa [slabBytes] using hin)
  grind [Located.obj, uint64_of_lt, header]

theorem objectSlab_eq (hl : Located k H o s x) : k.objects.slab (header o.obj) = s := by
  rw [h.header_eq hl]
  exact ((h.rep.cache _ hl.cache).slab s hl.slab).taken x hl.slot hl.used

theorem kmemCacheFree_eq (hl : Located k H o s x) :
    Slab.kmemCacheFree o.cache o.obj k = putObject o.cache s x k := by
  have hvalid : ¬ (o.cache = 0 ∨ o.obj = 0 ∨ (k.caches o.cache).errorDetection ≠ slabErrDetect) := by
    rintro (h0 | h0 | hd)
    · exact h.valid hl.cache (.inl h0)
    · rw [hl.obj] at h0
      exact absurd h0 (Nat.ne_of_gt (Nat.add_pos_right _ (by decide)))
    · exact h.valid hl.cache (.inr hd)
  unfold Slab.kmemCacheFree
  simp only [if_neg hvalid, h.objectSlab_eq hl]
  rw [if_neg ((h.rep.cache _ hl.cache).ne_zero hl.slab), h.header_eq hl]

theorem kmemCacheFree (ho : o ∈ live) :
    ∃ H', Good A (kmemCacheFree o.cache o.obj k) H' (live.erase o) ∧
      Kept o.cache k (kmemCacheFree o.cache o.obj k) H H' := by
  obtain ⟨s, x, hl⟩ := h.located o ho
  obtain ⟨P, he⟩ := (h.rep.cache _ hl.cache).putObject (h.rep.settled _ hl.cache)
    (h.rep.slotsApart hl.cache) hl.slab hl.slot hl.used
  rw [h.kmemCacheFree_eq hl]
  exact ⟨_, h.put ho hl he⟩

theorem kfree (ho : o ∈ live) : kfree o.obj k = .ok (Slab.kmemCacheFree o.cache o.obj k) := by
  obtain ⟨s, x, hl⟩ := h.located o ho
  have hcr := h.rep.cache _ hl.cache
  have h0 : o.obj ≠ 0 := by
    rw [hl.obj]
    exact Nat.ne_of_gt (Nat.add_pos_right _ (by decide))
  unfold Slab.kfree
  simp only [if_neg h0, h.objectSlab_eq hl, if_neg (hcr.ne_zero hl.slab), (hcr.slab s hl.slab).cache]

end

end Good

/-! ### Shrinking -/

/-- What the end of the slabs `xs`, all the empty ones of cache `c`, does. -/
structure Shrunk (A : Arena) (c : ℕ) (xs : List ℕ) (live : List Live) (k k' : Kmem) (H H' : Heap) :
    Prop where
  good : Good A k' H' live
  kept : Kept c k k' H H'
  empty : (H'.pool c).lists .slabsEmpty = []
  others : ∀ l ≠ .slabsEmpty, (H'.pool c).lists l = (H.pool c).lists l
  cache : ∃ heads n, k'.caches c = {k.caches c with slabs := heads, numSlabs := n}
  headers : ∀ z, SameHeader k k' z
  objects : k'.objects = k.objects
  freeBlocks : k'.buddy.freeBlocks = k.buddy.freeBlocks + xs.length * (k.caches c).slabSize
  destructed : k'.destructed = k.destructed ++ dtorCalls (k.caches c) xs

theorem sameHeader_setCache (k : Kmem) (f : KmemCache → KmemCache) (z : ℕ) :
    SameHeader k (k.setCache c f) z :=
  ⟨rfl, rfl, rfl, rfl, rfl⟩

theorem Shrunk.cons {k1 : Kmem} {H' : Heap} {xs : List ℕ} (h : Good A k H live) (hc : c ∈ H.caches)
    (hs : s ∈ (H.pool c).lists .slabsEmpty) (hd : Rep.Dropped A k k1 H c s .slabsEmpty)
    (htrace : k1.destructed = k.destructed ++ dtorCalls (k.caches c) [s])
    (h' : Shrunk A c xs live (k1.setCache c fun d => {d with numSlabs := uint32 (d.numSlabs - 1)}) k'
      (H.set c ((H.pool c).drop .slabsEmpty s)) H') :
    Shrunk A c (s :: xs) live k k' H H' := by
  obtain ⟨_, hkept⟩ := h.dropped hc hs hd
  obtain ⟨heads, hcache⟩ := hd.cache
  have hself : ((k1.setCache c fun d => {d with numSlabs := uint32 (d.numSlabs - 1)}).caches c) =
      {k.caches c with slabs := heads, numSlabs := uint32 ((k.caches c).numSlabs - 1)} := by
    refine (Function.update_self ..).trans ?_
    simp only [hcache]
  obtain ⟨heads', n, hcache'⟩ := h'.cache
  refine ⟨h'.good, hkept.trans h'.kept, h'.empty, fun l hl => ?_, ⟨heads', n, ?_⟩,
    fun z => ((hd.headers z).trans (sameHeader_setCache ..)).trans (h'.headers z),
    h'.objects.trans hd.objects, ?_, ?_⟩
  · rw [h'.others l hl, H.set_pool_self]
    exact Function.update_of_ne hl ..
  · rw [hcache', hself]
  · rw [h'.freeBlocks, hself]
    show k1.buddy.freeBlocks + _ = _
    rw [hd.freeBlocks, List.length_cons]
    push_cast
    ring
  · rw [h'.destructed, hkept.cache.dtorCalls]
    show k1.destructed ++ _ = _
    rw [htrace, List.append_assoc, ← dtorCalls_append]
    rfl

namespace Good

theorem shrinkLoop (fuel : ℕ) {xs : List ℕ} (freed : ℕ) (h : Good A k H live) (hc : c ∈ H.caches)
    (hxs : (H.pool c).lists .slabsEmpty = xs) (hf : xs.length < fuel)
    (hsmall : freed + xs.length * (k.caches c).slabSize < 2 ^ 31) :
    Outcome E (shrinkLoop c fuel ((k.caches c).slabs .slabsEmpty) freed k) fun r =>
      r.1 = (freed + xs.length * (k.caches c).slabSize : ℕ) ∧ ∃ H', Shrunk A c xs live k r.2 H H' := by
  induction xs generalizing fuel k H freed with
  | nil =>
    obtain ⟨f, rfl⟩ := Nat.exists_eq_add_one.mpr hf
    have hhead := ((h.rep.cache c hc).family.list .slabsEmpty).chain
    rw [hxs] at hhead
    replace hhead : (k.caches c).slabs .slabsEmpty = 0 := hhead
    unfold Slab.shrinkLoop
    rw [if_pos hhead]
    exact ⟨by simp, H, h, .refl c k H, hxs, fun _ _ => rfl, ⟨_, _, rfl⟩, .refl k, rfl, by simp, by simp⟩
  | cons s xs ih =>
    obtain ⟨f, rfl⟩ := Nat.exists_eq_add_one.mpr (Nat.zero_lt_of_lt hf)
    have hlist := (h.rep.cache c hc).family.list .slabsEmpty
    rw [hxs] at hlist
    obtain ⟨hhead, hs0, _, hrest⟩ := hlist
    have hs : s ∈ (H.pool c).lists .slabsEmpty := hxs ▸ List.mem_cons_self ..
    unfold Slab.shrinkLoop
    rw [hhead, if_neg hs0]
    refine ((h.rep.kmemSlabDestroy hc hs).and (h.rep.kmemSlabDestroy_destructed hc hs)).bind ?_
    rintro k1 ⟨hd, htrace⟩
    obtain ⟨hgood, hkept⟩ := h.dropped hc hs hd
    have hxs' : ((H.set c ((H.pool c).drop .slabsEmpty s)).pool c).lists .slabsEmpty = xs := by
      simp [Pool.drop, hxs]
    -- What follows the slab is now first on the list.
    have hnext := ((hgood.rep.cache c hc).family.list .slabsEmpty).chain.head_eq
    rw [hxs', ← hrest.chain.head_eq] at hnext
    have hsum : freed + (k.caches c).slabSize + xs.length * (k.caches c).slabSize =
        freed + (s :: xs).length * (k.caches c).slabSize := by
      rw [List.length_cons]
      ring
    have hint : int32 (freed + (k.caches c).slabSize) = (freed + (k.caches c).slabSize : ℕ) := by
      rw [← Nat.cast_add]
      exact int32_of_lt (by omega)
    have hrec := ih f (freed + (k.caches c).slabSize) hgood hc hxs' (by simpa using hf)
      (by rw [hkept.cache.slabSize, hsum]; exact hsmall)
    rw [hnext] at hrec
    rw [hint]
    refine hrec.mono ?_
    rintro r ⟨hr, H', hshrunk⟩
    refine ⟨?_, H', .cons h hc hs hd htrace hshrunk⟩
    rw [hr, hkept.cache.slabSize, hsum]

/-- What `kmem_cache_shrink` does when the cache has not grown since the last call: it releases the
empty slabs. -/
theorem kmemCacheShrink_releases (h : Good A k H live) (hc : c ∈ H.caches)
    (hgrown : ¬ (k.caches c).numGrown > uint32 (k.caches c).lastShrinkState) :
    Outcome E (kmemCacheShrink c k) fun r =>
      r.1 = (((H.pool c).lists .slabsEmpty).length * (k.caches c).slabSize : ℕ) ∧
        ∃ k' n H', Shrunk A c ((H.pool c).lists .slabsEmpty) live k k' H H' ∧
          r.2 = k'.setCache c fun d => {d with numShrunk := n} := by
  have hlen := ((H.pool c).length_lists_le .slabsEmpty).trans (h.slabs_le hc)
  have hprod := Nat.mul_le_mul hlen (h.rep.cache c hc).descriptor.slabSize_le
  unfold Slab.kmemCacheShrink
  rw [if_neg (h.valid hc), if_neg hgrown]
  refine (h.shrinkLoop loopFuel 0 hc rfl (by unfold loopFuel; omega)
    (by omega)).bind ?_
  rintro ⟨freed, k1⟩ ⟨hfreed, H1, hshrunk⟩
  obtain rfl : freed = _ := hfreed
  rw [zero_add]
  dsimp only
  split
  · exact ⟨rfl, k1, _, H1, hshrunk, rfl⟩
  · refine ⟨rfl, k1, (k1.caches c).numShrunk, H1, hshrunk, ?_⟩
    simp [Kmem.setCache]

/-- The destructor runs on every slot of the empty slabs, unless the cache has grown since the
last call. -/
theorem kmemCacheShrink_destructed (h : Good A k H live) (hc : c ∈ H.caches) :
    Outcome E (kmemCacheShrink c k) fun r =>
      (∃ H', Good A r.2 H' live ∧ Kept c k r.2 H H') ∧
        r.2.destructed = k.destructed ++ dtorCalls (k.caches c)
          (if (k.caches c).numGrown > uint32 (k.caches c).lastShrinkState then []
          else (H.pool c).lists .slabsEmpty) := by
  split
  · rename_i hgrown
    unfold Slab.kmemCacheShrink
    rw [if_neg (h.valid hc), if_pos hgrown]
    obtain ⟨hgood, hkept⟩ := h.setCache (c := c)
      (f := fun d => {d with lastShrinkState := int32 d.numGrown})
      ⟨⟨rfl, rfl, rfl, rfl, rfl, rfl, rfl, id⟩, rfl⟩ rfl rfl rfl
    refine ⟨⟨H, hgood, hkept⟩, ?_⟩
    rw [dtorCalls_nil, List.append_nil]
    rfl
  · rename_i hgrown
    refine (h.kmemCacheShrink_releases hc hgrown).mono ?_
    rintro ⟨freed, k'⟩ ⟨_, k1, n, H1, hshrunk, hk'⟩
    obtain rfl : k' = _ := hk'
    obtain ⟨hgood, hkept⟩ := hshrunk.good.setCache (c := c) (f := fun d => {d with numShrunk := n})
      ⟨⟨rfl, rfl, rfl, rfl, rfl, rfl, rfl, id⟩, rfl⟩ rfl rfl rfl
    exact ⟨⟨H1, hgood, hshrunk.kept.trans hkept⟩, hshrunk.destructed⟩

theorem kmemCacheShrink (h : Good A k H live) (hc : c ∈ H.caches) :
    Outcome E (kmemCacheShrink c k) fun r => ∃ H', Good A r.2 H' live ∧ Kept c k r.2 H H' :=
  (h.kmemCacheShrink_destructed hc).mono fun _ hr => hr.1

end Good

end Xv6.Slab
