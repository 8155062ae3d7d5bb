import Xv6.Slab.Heap

/-! What the operations on one cache do to the heap.

Each keeps `Rep`, with the pool of the cache changed: a slab more (`Rep.kmemCacheGrow`),
an object taken or put back (`Rep.exchanged`), a slab less (`Rep.kmemSlabDestroy`). -/
namespace Xv6.Slab
open Linked
open Buddy (Arena Sound buddyAlloc buddyFree)

variable {A : Arena} {k k' : Kmem} {H : Heap} {c s x : ℕ} {S : List ℕ} {E : Fault → Prop}

theorem Local.slabSize (h : Local c S k k') (a : ℕ) :
    (k'.caches a).slabSize = (k.caches a).slabSize := by
  by_cases ha : a = c
  · rw [ha, h.cache.slabSize]
  · rw [h.caches a ha]

namespace Rep

theorem exchanged {P : Pool} {free : List ℕ} {n : ℕ} (h : Rep A k H) (hc : c ∈ H.caches)
    (he : Exchanged k k' c s (H.pool c) P free n) : Rep A k' (H.set c P) := by
  obtain ⟨rest, hold, hnew⟩ := held_set_perm (P := P) hc h.nodup he.inner.slabSize
  have hperm : (held k H).Perm (held k' (H.set c P)) :=
    hold.trans (((he.perm.symm.map _).append_right _).trans hnew.symm)
  refine h.set he.inner.toLocal (fun c' hc' hne s' hs' => h.others hc hc' hne hs') he.rep he.settled
    ?_ ?_ fun t a => ?_
  · rw [he.inner.buddy]
    exact h.sound.perm hperm
  · rw [he.inner.created]
    exact h.createdNodup
  · rw [he.inner.created, h.created]
    by_cases hac : a = c
    · rw [hac, H.set_pool_self, he.perm.mem_iff]
    · rw [H.set_pool_of_ne P hac]

theorem setCache {f : KmemCache → KmemCache} (h : Rep A k H)
    (hf : SameType (k.caches c) (f (k.caches c)))
    (hl : (f (k.caches c)).slabs = (k.caches c).slabs) : Rep A (k.setCache c f) H := by
  have hin : Inner c [] k (k.setCache c f) := inner_setCache hf
  refine ⟨?_, ?_, fun a ha => ?_, fun a ha => ?_, h.createdNodup, h.created⟩
  · have hheld : held (k.setCache c f) H = held k H := by
      unfold held slabsHeld
      simp only [hin.slabSize]
    rw [hheld]
    exact h.sound
  · refine h.list.congr fun a _ => ?_
    by_cases hac : a = c
    · rw [hac, hin.cache.next]
    · rw [hin.caches a hac]
  · by_cases hac : a = c
    · subst hac
      exact (h.cache a ha).setCache hf.toSameKind hl
    · refine (h.cache a ha).frame_eq (hin.caches a hac) (fun s _ => hin.slabs s List.not_mem_nil)
        fun _ _ x _ => hin.objects x fun _ ht => absurd ht List.not_mem_nil
  · intro l s hs hs0
    rw [h.settled a ha l s hs hs0]
    by_cases hac : a = c
    · rw [hac, hin.cache.capacity]
    · rw [hin.caches a hac]

/-! ### Growing -/

/-- What a new slab at `p` does. -/
structure Grown (A : Arena) (k k' : Kmem) (H : Heap) (c p : ℕ) : Prop where
  rep : Rep A k' (H.set c ((H.pool c).grow p (slots (k.caches c) p)))
  changed : Local c (p :: (H.pool c).slabs) k k'
  fresh : p ∉ (H.pool c).slabs
  destructed : k'.destructed = k.destructed
  numSlabs : (k'.caches c).numSlabs = uint32 ((k.caches c).numSlabs + 1)
  numAllocated : (k'.caches c).numAllocated = (k.caches c).numAllocated

theorem fresh_bytes {b : Buddy.State} {p : ℕ} {n : ℤ} {live : List (ℕ × ℤ)}
    (h : Sound A ⟨b, (p, n) :: live⟩) {a : ℕ × ℤ} (ha : a ∈ live)
    (hx : a.1 ≤ x ∧ x < a.1 + a.2.toNat * Buddy.blockSize) :
    ¬ (p ≤ x ∧ x < p + n.toNat * Buddy.blockSize) := by
  intro hp
  have heq := h.ledger.eq_of_mem_bytes (List.mem_cons_self ..) (List.mem_cons_of_mem _ ha) hp hx
  exact (List.nodup_cons.mp h.ledger.nodup).1 (heq ▸ ha)

theorem fresh_slab {b : Buddy.State} {p : ℕ} (h : Rep A k H) (hc : c ∈ H.caches)
    (hb : Sound A ⟨b, (p, ((k.caches c).slabSize : ℤ)) :: held k H⟩) {c' s' : ℕ}
    (hc' : c' ∈ H.caches) (hs' : s' ∈ (H.pool c').slabs) :
    s' ≠ p ∧ ∀ x ∈ slots (k.caches c') s', x ∉ slots (k.caches c) p := by
  have hbytes : ∀ {x}, s' ≤ x ∧ x < s' + slabBytes (k.caches c') →
      ¬ (p ≤ x ∧ x < p + slabBytes (k.caches c)) := by
    intro x hx hp
    exact fresh_bytes hb (mem_held_slab hc' hs') (by simpa [slabBytes] using hx)
      (by simpa [slabBytes] using hp)
  refine ⟨fun heq => ?_, fun x hx hp => hbytes (h.slot_mem_slab hc' hx) (h.slot_mem_slab hc hp)⟩
  exact hbytes (h.slab_mem_slab hc' s') (heq ▸ h.slab_mem_slab hc p)

theorem kmemCacheGrow (h : Rep A k H) (hc : c ∈ H.caches) :
    Outcome A.faults (kmemCacheGrow c k) fun r =>
      r = (-1, k.setCache c fun d => {d with errorState := 1}) ∨
        r.1 = 0 ∧ ∃ p, Grown A k r.2 H c p := by
  have hcr := h.cache c hc
  have hd := hcr.descriptor
  have hn : ((k.caches c).slabSize : ℤ) ≤ 2 ^ 30 := by
    have := hd.slabSize_le
    omega
  unfold Slab.kmemCacheGrow kmemSlabCreate
  rw [bind_assoc]
  refine (h.sound.alloc hn).bind ?_
  rintro ⟨p, b⟩ (hnull | ⟨hp, _, hsound, _⟩)
  · cases hnull
    exact .inl rfl
  · have hp0 : p ≠ 0 := hp
    have hfresh : ∀ {a s}, a ∈ H.caches → s ∈ (H.pool a).slabs →
        s ≠ p ∧ ∀ x ∈ slots (k.caches a) s, x ∉ slots (k.caches c) p := h.fresh_slab hc hsound
    have hpc : p ∉ (H.pool c).slabs := fun hmem => (hfresh hc hmem).1 rfl
    have hadd := (hcr.setPages b k.created k.destructed).growSlab (h.settled c hc) hpc hp0
      fun s hs => (hfresh hc hs).2
    have hloc := (local_setPages _ _ _).trans hadd.changed
    obtain ⟨rest, hold, hnew⟩ := held_set_perm (P := (H.pool c).grow p (slots (k.caches c) p)) hc
      h.nodup hloc.slabSize
    have hrep : Rep A (growSlab c p (k.setPages b k.created k.destructed))
        (H.set c ((H.pool c).grow p (slots (k.caches c) p))) := by
      refine h.set hloc (fun c' hc' hne s' hs' => ⟨?_, fun s hs => ?_⟩) hadd.rep hadd.settled ?_ ?_
        fun t a => ?_
      · exact List.not_mem_cons_of_ne_of_not_mem (hfresh hc' hs').1 (h.others hc hc' hne hs').1
      · rcases List.mem_cons.mp hs with rfl | hs
        · exact (hfresh hc' hs').2
        · exact (h.others hc hc' hne hs').2 s hs
      · rw [hadd.buddy]
        refine hsound.perm (.trans ?_ hnew.symm)
        rw [Pool.grow_slabs, List.map_cons, List.cons_append]
        exact hold.cons _
      · rw [hadd.created]
        exact List.nodup_cons.mpr ⟨fun hmem => hpc ((h.created p c).mp hmem).2, h.createdNodup⟩
      · rw [hadd.created, setPages_created, List.mem_cons, h.created, Prod.mk.injEq]
        grind [Heap.set_pool_self, Pool.grow_slabs, Heap.set_pool_of_ne, H.set_pool_self, H.set_pool_of_ne]
    simp only [if_neg hp0, pure_bind]
    exact .inr ⟨rfl, p, hrep, hloc, hpc, hadd.destructed, hadd.numSlabs, hadd.numAllocated⟩

end Rep

/-! ### Destroying a slab -/

/-- The destructor calls that go with the end of the slabs `xs`. -/
def dtorCalls (d : KmemCache) (xs : List ℕ) : List (ℕ × ℕ) :=
  if d.dtor ≠ 0 then xs.flatMap fun s => (slots d s).map fun x => (d.dtor, x + sizeofObject)
  else []

@[simp] theorem dtorCalls_nil (d : KmemCache) : dtorCalls d [] = [] := by
  unfold dtorCalls
  split <;> rfl

theorem dtorCalls_append (d : KmemCache) (xs ys : List ℕ) :
    dtorCalls d (xs ++ ys) = dtorCalls d xs ++ dtorCalls d ys := by
  grind [dtorCalls]

theorem SameKind.dtorCalls {d d' : KmemCache} (h : SameKind d d') (xs : List ℕ) :
    dtorCalls d' xs = dtorCalls d xs := by
  unfold Slab.dtorCalls
  rw [h.dtor]
  simp only [h.slots]

namespace Rep

/-- What the end of slab `s` of list `l` does. -/
structure Dropped (A : Arena) (k k' : Kmem) (H : Heap) (c s : ℕ)
    (l : SlabList) : Prop where
  rep : Rep A k' (H.set c ((H.pool c).drop l s))
  changed : Local c (H.pool c).slabs k k'
  cache : ∃ heads, k'.caches c = {k.caches c with slabs := heads}
  headers : ∀ z, SameHeader k k' z
  objects : k'.objects = k.objects
  freeBlocks : k'.buddy.freeBlocks = k.buddy.freeBlocks + (k.caches c).slabSize

theorem kmemSlabDestroy {l : SlabList} (h : Rep A k H) (hc : c ∈ H.caches)
    (hs : s ∈ (H.pool c).lists l) :
    Outcome E (kmemSlabDestroy c s (removeSlabFromList c l s k)) fun k' =>
      Dropped A k k' H c s l := by
  have hsl : s ∈ (H.pool c).slabs := Pool.mem_slabs.mpr ⟨l, hs⟩
  have hcr := h.cache c hc
  obtain ⟨hdrop, hset, hrel⟩ := hcr.drop (h.settled c hc) hs
  have hin := hrel.inner
  have hmem := ((hrel.sameHeader s).mem).trans (hcr.slab s hsl).mem
  have hcache : ∃ heads, (removeSlabFromList c l s k).caches c = {k.caches c with slabs := heads} :=
    ⟨_, by rw [removeSlabFromList_eq, relink_cache]⟩
  have hobjects : (removeSlabFromList c l s k).objects = k.objects := by
    rw [removeSlabFromList_eq]
    rfl
  generalize removeSlabFromList c l s k = k1 at *
  unfold Slab.kmemSlabDestroy
  simp only [if_neg (hcr.ne_zero hsl), hmem, hin.cache.slabSize, hin.buddy]
  refine (Outcome.of_returns (h.sound.free (mem_held_slab hc hsl))).bind fun b hb => ?_
  generalize (if (k1.caches c).dtor ≠ 0 then _ else _) = destructed
  have hloc := hin.toLocal.trans
    (local_setPages b (k1.created.erase (s, c)) destructed)
  obtain ⟨rest, hold, hnew⟩ := held_set_perm (P := (H.pool c).drop l s) hc h.nodup hloc.slabSize
  have hperm := Pool.drop_slabs hs
  show Dropped A k (k1.setPages b (k1.created.erase (s, c)) destructed) H c s l
  refine ⟨h.set hloc (fun c' hc' hne s' hs' => h.others hc hc' hne hs') (hdrop.setPages _ _ _) hset
    ?_ ?_ fun t a => ?_, hloc, hcache,
    fun z => (hrel.sameHeader z).trans ⟨rfl, rfl, rfl, rfl, rfl⟩, hobjects, ?_⟩
  · have hheld : (held k H).Perm ((s, ((k.caches c).slabSize : ℤ)) ::
        held (k1.setPages b (k1.created.erase (s, c)) destructed) (H.set c ((H.pool c).drop l s))) :=
      hold.trans (((hperm.map _).append_right rest).trans (hnew.symm.cons _))
    have herase := hheld.erase (s, ((k.caches c).slabSize : ℤ))
    rw [List.erase_cons_head] at herase
    exact hb.1.perm herase
  · rw [setPages_created, hin.created]
    exact h.createdNodup.erase _
  · rw [setPages_created, hin.created, h.createdNodup.mem_erase_iff, h.created]
    grind [CacheRep.nodup, Heap.set_pool_self, Heap.set_pool_of_ne, H.set_pool_self, H.set_pool_of_ne]
  · obtain ⟨j, _, hj⟩ := hcr.descriptor.blocks
    have hsize : ((k.caches c).slabSize : ℤ) = 2 ^ j := by exact_mod_cast hj
    show b.freeBlocks = _
    rw [hb.2.2, hsize, Buddy.order_two_pow]

theorem kmemSlabDestroy_destructed {l : SlabList} (h : Rep A k H) (hc : c ∈ H.caches)
    (hs : s ∈ (H.pool c).lists l) :
    Outcome (fun _ => True) (Slab.kmemSlabDestroy c s (removeSlabFromList c l s k)) fun k' =>
      k'.destructed = k.destructed ++ dtorCalls (k.caches c) [s] := by
  have hsl : s ∈ (H.pool c).slabs := Pool.mem_slabs.mpr ⟨l, hs⟩
  have hcr := h.cache c hc
  obtain ⟨_, _, hrel⟩ := hcr.drop (h.settled c hc) hs
  have hin := hrel.inner
  have hmem := (hrel.sameHeader s).mem.trans (hcr.slab s hsl).mem
  have hmax := (hrel.sameHeader s).numObjectsMax.trans (hcr.slab s hsl).numObjectsMax
  generalize removeSlabFromList c l s k = k1 at *
  have hobjects : slabObjects s (k.caches c).alignedSize (capacity (k.caches c)) =
      (slots (k.caches c) s).map (· + sizeofObject) := by
    rw [slabObjects, slots, List.map_map]
    rfl
  unfold Slab.kmemSlabDestroy
  simp only [if_neg (hcr.ne_zero hsl), hmem, hmax, hin.cache.alignedSize, hin.cache.dtor,
    hin.destructed, hobjects, List.map_map]
  cases buddyFree s (k1.caches c).slabSize k1.buddy with
  | error e => trivial
  | ok b =>
    show (if (k.caches c).dtor ≠ 0 then _ else _) = _
    unfold dtorCalls
    split
    · rw [List.flatMap_singleton]
      rfl
    · rw [List.append_nil]

end Rep

end Xv6.Slab
