import Xv6.Slab.Cache

/-! A new slab, and one slab less.

`kmem_slab_create` makes the memory it got a slab with every slot free
(`initSlab_spec`); `kmem_cache_grow` puts it on the list of empty slabs
(`CacheRep.growSlab`). Taking a slab off its list leaves the pool without it
(`CacheRep.drop`). -/
namespace Xv6.Slab
open Function
open Linked

variable {k k' : Kmem} {c s p : ℕ} {P : Pool} {l : SlabList}

theorem linkObjects_spec (slab start step : ℕ) (n : ℕ) (xs : List ℕ) (hstep : 0 < step)
    (hpos : 0 < start) (hch : Chain k.objects.next (k.slabs.freeList slab) xs)
    (hnew : ∀ i < n, start + i * step ∉ xs) :
    ∃ head next, linkObjects slab start step n k = k.setFreeList slab head next ∧
      Chain next head ((List.range n).map (fun i => start + i * step) ++ xs) ∧
      ∀ a, (∀ i < n, a ≠ start + i * step) → next a = k.objects.next a := by
  induction n generalizing k xs with
  | zero =>
    refine ⟨k.slabs.freeList slab, k.objects.next, ?_, hch, fun _ _ => rfl⟩
    simp [Kmem.setFreeList, linkObjects]
  | succ n ih =>
    have hobj : start + n * step ∉ xs := hnew n (Nat.lt_succ_self n)
    have hne : ∀ i < n, start + i * step ≠ start + n * step := fun i hi heq =>
      Nat.ne_of_lt (Nat.mul_lt_mul_of_pos_right hi hstep) (Nat.add_left_cancel heq)
    have hpush := hch.push (show start + n * step ≠ 0 by omega) hobj
    obtain ⟨head, next, heq, hchain, hframe⟩ := ih
      (k := k.setFreeList slab (start + n * step)
        (update k.objects.next (start + n * step) (k.slabs.freeList slab)))
      ((start + n * step) :: xs)
      (by simpa only [Kmem.setFreeList, update_self] using hpush)
      (fun i hi => List.not_mem_cons_of_ne_of_not_mem (hne i hi) (hnew i (Nat.lt_succ_of_lt hi)))
    refine ⟨head, next, ?_, ?_, fun a ha => ?_⟩
    · rw [linkObjects, heq]
      simp [Kmem.setFreeList]
    · rw [List.range_succ, List.map_append, List.append_assoc]
      exact hchain
    · rw [hframe a fun i hi => ha i (Nat.lt_succ_of_lt hi)]
      exact update_of_ne (ha n (Nat.lt_succ_self n)) _ _

/-- The memory of a new slab: every slot is free, and nothing outside it is touched. -/
structure NewSlab (k k' : Kmem) (c p : ℕ) : Prop where
  rep : SlabRep k' c p (slots (k.caches c) p)
  caches : k'.caches = k.caches
  slabs : ∀ a ≠ p, SameSlab k k' a
  objects : ∀ x ∉ slots (k.caches c) p, SameObject k k' x
  buddy : k'.buddy = k.buddy
  cacheList : k'.cacheList = k.cacheList
  bufferCaches : k'.bufferCaches = k.bufferCaches
  allocatorInitialized : k'.allocatorInitialized = k.allocatorInitialized
  created : k'.created = (p, c) :: k.created
  destructed : k'.destructed = k.destructed

theorem initSlab_spec (hd : Descriptor (k.caches c)) : NewSlab k (initSlab c p k) c p := by
  have hcap : objectsPerSlab (k.caches c).objectSize ((k.caches c).slabSize * Buddy.blockSize) =
      capacity (k.caches c) := rfl
  have hlt := hd.capacity_lt
  have hstep : 0 < (k.caches c).alignedSize := by
    rw [hd.aligned]
    exact Nat.add_pos_left hd.size_pos _
  obtain ⟨head, next, heq, hchain, hframe⟩ := linkObjects_spec p (p + sizeofSlab)
    (k.caches c).alignedSize (capacity (k.caches c)) []
    (k := initHeader c p (capacity (k.caches c)) k) hstep (Nat.add_pos_right _ (by decide))
    (update_self ..) (fun _ _ => List.not_mem_nil)
  rw [List.append_nil] at hchain
  unfold initSlab
  simp only [hcap, uint32_of_lt (show capacity (k.caches c) < 2 ^ 32 by omega), heq]
  refine ⟨⟨update_self .., update_self .., update_self .., ?_, ?_,
    fun x hx => hx, fun x hx hfree => absurd hx hfree⟩, rfl, fun a ha => ⟨⟨?_, ?_, ?_, ?_, ?_⟩, ?_, ?_⟩,
    fun x hx => ⟨hframe x fun i hi heq => hx (mem_slots.mpr ⟨i, hi, heq.symm⟩), rfl⟩, rfl, rfl, rfl,
    rfl, rfl, rfl⟩
  · rw [length_slots]
    exact update_self ..
  · show Chain next (update (update k.slabs.freeList p 0) p head p) _
    rw [update_self]
    exact hchain
  all_goals simp [Kmem.setFreeList, initHeader, ha]

/-! ### One slab more -/

/-- The pool with one more slab, all of whose slots `free` are free. -/
def Pool.grow (P : Pool) (p : ℕ) (free : List ℕ) : Pool :=
  { lists := update P.lists .slabsEmpty (p :: P.lists .slabsEmpty)
    free := update P.free p free }

@[simp] theorem Pool.grow_slabs (P : Pool) (p : ℕ) (free : List ℕ) :
    (P.grow p free).slabs = p :: P.slabs := by
  simp [Pool.grow, Pool.slabs]

@[simp] theorem Pool.grow_free_self (P : Pool) (p : ℕ) (free : List ℕ) :
    (P.grow p free).free p = free :=
  update_self ..

theorem Pool.grow_free_of_ne {p z : ℕ} (P : Pool) (free : List ℕ) (hz : z ≠ p) :
    (P.grow p free).free z = P.free z :=
  update_of_ne hz _ _

/-- What `kmem_cache_grow` does once it has the memory of a new slab. -/
def growSlab (c p : ℕ) (k : Kmem) : Kmem :=
  (addSlabToList c .slabsEmpty p (initSlab c p k)).setCache c fun d =>
    {d with numSlabs := uint32 (d.numSlabs + 1), numGrown := uint32 (d.numGrown + 1)}

theorem sameType_grown (d : KmemCache) (n : ℕ) (x : ℤ) :
    SameType d {d with numSlabs := n, numGrown := uint32 x} :=
  ⟨⟨rfl, rfl, rfl, rfl, rfl, rfl, rfl, fun _ => uint32_lt x⟩, rfl⟩

/-- What comes of a new slab at `p`. -/
structure SlabAdded (k k' : Kmem) (c p : ℕ) (P : Pool) : Prop where
  rep : CacheRep k' c (P.grow p (slots (k.caches c) p))
  settled : Settled k' c (P.grow p (slots (k.caches c) p)) 0
  changed : Local c (p :: P.slabs) k k'
  buddy : k'.buddy = k.buddy
  created : k'.created = (p, c) :: k.created
  destructed : k'.destructed = k.destructed
  numSlabs : (k'.caches c).numSlabs = uint32 ((k.caches c).numSlabs + 1)
  numAllocated : (k'.caches c).numAllocated = (k.caches c).numAllocated

theorem CacheRep.growSlab (h : CacheRep k c P) (hset : Settled k c P 0) (hp : p ∉ P.slabs)
    (h0 : p ≠ 0) (hap : ∀ s ∈ P.slabs, ∀ x ∈ slots (k.caches c) s, x ∉ slots (k.caches c) p) :
    SlabAdded k (growSlab c p k) c p P := by
  have hnew := initSlab_spec (p := p) h.descriptor
  have hold : CacheRep (initSlab c p k) c P := by
    grind [CacheRep.frame_eq, NewSlab.caches, NewSlab.slabs, NewSlab.objects]
  obtain ⟨hrel, hfam⟩ := addSlabToList_spec (l := .slabsEmpty) (S := p :: P.slabs) hold.family
    (fun l hl => hp (Pool.mem_slabs.mpr ⟨l, hl⟩)) h0 (List.mem_cons_self ..)
    (fun l z hz => List.mem_cons_of_mem _ (Pool.mem_slabs.mpr ⟨l, hz⟩))
  have hcount : ((addSlabToList c .slabsEmpty p (initSlab c p k)).caches c).numSlabs =
        (k.caches c).numSlabs ∧
      ((addSlabToList c .slabsEmpty p (initSlab c p k)).caches c).numAllocated =
        (k.caches c).numAllocated := by
    rw [addSlabToList_eq, relink_cache, hnew.caches]
    exact ⟨rfl, rfl⟩
  have hloc : Local c (p :: P.slabs) k (initSlab c p k) := by
    refine ⟨fun a _ => by rw [hnew.caches], by rw [hnew.caches]; exact .refl _, fun a ha => ?_,
      fun x hx => hnew.objects x (hx p (List.mem_cons_self ..)), hnew.cacheList, hnew.bufferCaches,
      hnew.allocatorInitialized⟩
    exact hnew.slabs a (List.ne_and_not_mem_of_not_mem_cons ha).1
  have hin := hrel.inner.trans (inner_setCache (k := addSlabToList c .slabsEmpty p (initSlab c p k))
    (f := fun d => {d with numSlabs := uint32 (d.numSlabs + 1), numGrown := uint32 (d.numGrown + 1)})
    (sameType_grown ..))
  have hcap : capacity ((Slab.growSlab c p k).caches c) = capacity (k.caches c) := by
    rw [Slab.growSlab, hin.cache.capacity, hnew.caches]
  refine ⟨CacheRep.setCache ⟨hrel.inner.cache.descriptor hold.descriptor, hfam, fun z hz => ?_⟩
    (sameType_grown ..).toSameKind rfl, fun l z hz _ => ?_, hloc.trans hin.toLocal,
    hin.buddy.trans hnew.buddy, hin.created.trans hnew.created, hin.destructed.trans hnew.destructed,
    ?_, ?_⟩
  · rw [Pool.grow_slabs] at hz
    have hframe : ∀ {free}, SlabRep (initSlab c p k) c z free →
        SlabRep (addSlabToList c .slabsEmpty p (initSlab c p k)) c z free := fun hr =>
      hr.frame hrel.inner.cache.toSameKind (hrel.sameHeader z) fun x _ => hrel.sameObject x
    grind [Pool.grow_free_self, NewSlab.rep, Pool.grow_free_of_ne, CacheRep.slab, P.grow_free_of_ne]
  · rw [hcap]
    by_cases hzp : z = p
    · rw [hzp, Pool.grow_free_self, length_slots, listOf, if_pos rfl]
      exact (mem_update_cons.mp hz).elim And.right fun hmem =>
        absurd (Pool.mem_slabs.mpr ⟨l, hzp ▸ hmem⟩) hp
    · rw [P.grow_free_of_ne _ hzp]
      have hmem := (mem_update_cons.mp hz).resolve_left fun hc => hzp hc.1
      exact hset l z hmem (h.ne_zero (Pool.mem_slabs.mpr ⟨l, hmem⟩))
  · rw [Slab.growSlab, Kmem.setCache, ← hcount.1]
    simp
  · rw [Slab.growSlab, Kmem.setCache, ← hcount.2]
    simp

/-! ### One slab less -/

/-- The pool without a slab of the list `l`. -/
def Pool.drop (P : Pool) (l : SlabList) (s : ℕ) : Pool :=
  {P with lists := update P.lists l ((P.lists l).erase s)}

theorem Pool.drop_slabs (hs : s ∈ P.lists l) : P.slabs.Perm (s :: (P.drop l s).slabs) := by
  have hperm := List.perm_cons_erase hs
  cases l with
  | slabsEmpty => exact (hperm.append_right _).append_right _
  | slabsPartial => exact ((hperm.append_left _).trans List.perm_middle).append_right _
  | slabsFull => exact (hperm.append_left _).trans List.perm_middle

theorem CacheRep.drop (h : CacheRep k c P) (hset : Settled k c P 0) (hs : s ∈ P.lists l) :
    CacheRep (removeSlabFromList c l s k) c (P.drop l s) ∧
      Settled (removeSlabFromList c l s k) c (P.drop l s) 0 ∧
      Relinked c P.slabs k (removeSlabFromList c l s k) := by
  obtain ⟨hrel, hfam⟩ := removeSlabFromList_spec (S := P.slabs) h.family hs
    fun j z hz => Pool.mem_slabs.mpr ⟨j, hz⟩
  have htype := hrel.inner.cache
  refine ⟨⟨htype.descriptor h.descriptor, hfam, fun z hz => ?_⟩, fun j z hz hz0 => ?_, hrel⟩
  · obtain ⟨j, hj⟩ := Pool.mem_slabs.mp hz
    exact (h.slab z (Pool.mem_slabs.mpr ⟨j, mem_of_mem_update_erase hj⟩)).frame htype.toSameKind
      (hrel.sameHeader z) fun x _ => hrel.sameObject x
  · rw [htype.capacity]
    exact hset j z (mem_of_mem_update_erase hz) hz0

end Xv6.Slab
