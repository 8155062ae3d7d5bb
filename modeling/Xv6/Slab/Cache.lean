import Mathlib.Data.List.Perm.Subperm
import Xv6.Slab.Lists

/-! One cache in memory.

A `Pool` is what a cache is for: slabs on three lists, and the free slots of each.
`CacheRep k c P` says that memory holds the pool `P` at the descriptor `c`, and
`Settled` that each slab is on the list that its number of free slots asks for
(`listOf`). Both depend on the descriptor, the slabs of the cache and their slots
only; `Local` and `Inner` say that a change touches nothing else. -/
namespace Xv6.Slab
open Function
open Linked

/-- The slabs of a cache by list, and the free slots of each slab. -/
structure Pool where
  lists : SlabList → List ℕ
  free : ℕ → List ℕ

def Pool.slabs (P : Pool) : List ℕ :=
  P.lists .slabsEmpty ++ P.lists .slabsPartial ++ P.lists .slabsFull

/-- The list for a slab with `n` free slots of `cap`. -/
def listOf (cap n : ℕ) : SlabList :=
  if n = cap then .slabsEmpty else if n = 0 then .slabsFull else .slabsPartial

theorem Pool.mem_slabs {P : Pool} {s : ℕ} : s ∈ P.slabs ↔ ∃ l, s ∈ P.lists l := by
  simp only [Pool.slabs, List.mem_append]
  constructor
  · grind
  · rintro ⟨_ | _ | _, h⟩
    · exact .inl (.inr h)
    · exact .inr h
    · exact .inl (.inl h)

theorem Pool.length_lists_le (P : Pool) (l : SlabList) : (P.lists l).length ≤ P.slabs.length := by
  cases l <;> simp only [Pool.slabs, List.length_append] <;> omega

/-! ### What is untouched -/

/-- Two descriptors for the same objects: they differ in lists, counts, error state and
place on `cache_list`. -/
structure SameKind (d d' : KmemCache) : Prop where
  name : d'.name = d.name
  objectSize : d'.objectSize = d.objectSize
  alignedSize : d'.alignedSize = d.alignedSize
  slabSize : d'.slabSize = d.slabSize
  errorDetection : d'.errorDetection = d.errorDetection
  ctor : d'.ctor = d.ctor
  dtor : d'.dtor = d.dtor
  numGrown : d.numGrown < 2 ^ 32 → d'.numGrown < 2 ^ 32

/-- Two descriptors of the same cache, at the same place on `cache_list`. -/
structure SameType (d d' : KmemCache) : Prop extends SameKind d d' where
  next : d'.next = d.next

namespace SameKind

variable {d d' d'' : KmemCache}

theorem refl (d : KmemCache) : SameKind d d := ⟨rfl, rfl, rfl, rfl, rfl, rfl, rfl, id⟩

section
variable (h : SameKind d d')
include h

theorem trans (h' : SameKind d' d'') : SameKind d d'' :=
  ⟨h'.name.trans h.name, h'.objectSize.trans h.objectSize, h'.alignedSize.trans h.alignedSize,
    h'.slabSize.trans h.slabSize, h'.errorDetection.trans h.errorDetection, h'.ctor.trans h.ctor,
    h'.dtor.trans h.dtor, h'.numGrown ∘ h.numGrown⟩

theorem slabBytes : slabBytes d' = slabBytes d := by
  unfold Slab.slabBytes
  rw [h.slabSize]

theorem capacity : capacity d' = capacity d := by
  unfold Slab.capacity
  rw [h.objectSize, h.slabBytes]

theorem slots (s : ℕ) : slots d' s = slots d s := by
  unfold Slab.slots slot
  rw [h.capacity, h.alignedSize]

theorem descriptor (hd : Descriptor d) : Descriptor d' :=
  ⟨h.errorDetection.trans hd.valid, h.objectSize ▸ hd.size_pos, h.objectSize ▸ hd.size_le,
    by rw [h.alignedSize, h.objectSize, hd.aligned], by rw [h.objectSize, h.slabSize, hd.slabSize],
    h.numGrown hd.numGrown⟩

end

end SameKind

theorem SameType.refl (d : KmemCache) : SameType d d := ⟨.refl d, rfl⟩

theorem SameType.trans {d d' d'' : KmemCache} (h : SameType d d') (h' : SameType d' d'') :
    SameType d d'' :=
  ⟨h.toSameKind.trans h'.toSameKind, h'.next.trans h.next⟩

/-- The same slab header at `s`, but for the links. -/
structure SameHeader (k k' : Kmem) (s : ℕ) : Prop where
  mem : k'.slabs.mem s = k.slabs.mem s
  numObjectsMax : k'.slabs.numObjectsMax s = k.slabs.numObjectsMax s
  numFree : k'.slabs.numFree s = k.slabs.numFree s
  freeList : k'.slabs.freeList s = k.slabs.freeList s
  cache : k'.slabs.cache s = k.slabs.cache s

/-- The same slab header at `s`. -/
structure SameSlab (k k' : Kmem) (s : ℕ) : Prop extends SameHeader k k' s where
  next : k'.slabs.next s = k.slabs.next s
  prev : k'.slabs.prev s = k.slabs.prev s

/-- The same object header at `x`. -/
structure SameObject (k k' : Kmem) (x : ℕ) : Prop where
  next : k'.objects.next x = k.objects.next x
  slab : k'.objects.slab x = k.objects.slab x

theorem SameHeader.refl (k : Kmem) (s : ℕ) : SameHeader k k s := ⟨rfl, rfl, rfl, rfl, rfl⟩

theorem SameHeader.trans {k k' k'' : Kmem} {s : ℕ} (h : SameHeader k k' s)
    (h' : SameHeader k' k'' s) : SameHeader k k'' s :=
  ⟨h'.mem.trans h.mem, h'.numObjectsMax.trans h.numObjectsMax, h'.numFree.trans h.numFree,
    h'.freeList.trans h.freeList, h'.cache.trans h.cache⟩

theorem SameSlab.trans {k k' k'' : Kmem} {s : ℕ} (h : SameSlab k k' s) (h' : SameSlab k' k'' s) :
    SameSlab k k'' s :=
  ⟨h.toSameHeader.trans h'.toSameHeader, h'.next.trans h.next, h'.prev.trans h.prev⟩

theorem SameObject.trans {k k' k'' : Kmem} {x : ℕ} (h : SameObject k k' x)
    (h' : SameObject k' k'' x) : SameObject k k'' x :=
  ⟨h'.next.trans h.next, h'.slab.trans h.slab⟩

/-- A change to cache `c`, the slabs `S` and their slots, and to nothing else that is in
use: it may take pages or give them back. -/
structure Local (c : ℕ) (S : List ℕ) (k k' : Kmem) : Prop where
  caches : ∀ a ≠ c, k'.caches a = k.caches a
  cache : SameType (k.caches c) (k'.caches c)
  slabs : ∀ a ∉ S, SameSlab k k' a
  objects : ∀ x, (∀ s ∈ S, x ∉ slots (k.caches c) s) → SameObject k k' x
  cacheList : k'.cacheList = k.cacheList
  bufferCaches : k'.bufferCaches = k.bufferCaches
  allocatorInitialized : k'.allocatorInitialized = k.allocatorInitialized

/-- A change that also leaves the pages as they are. -/
structure Inner (c : ℕ) (S : List ℕ) (k k' : Kmem) : Prop extends Local c S k k' where
  buddy : k'.buddy = k.buddy
  created : k'.created = k.created
  destructed : k'.destructed = k.destructed

def Kmem.setPages (k : Kmem) (buddy : Buddy.State) (created destructed : List (ℕ × ℕ)) : Kmem :=
  {k with buddy := buddy, created := created, destructed := destructed}

@[simp] theorem setPages_created (k : Kmem) (b : Buddy.State) (created destructed : List (ℕ × ℕ)) :
    (k.setPages b created destructed).created = created := rfl

variable {k k' : Kmem} {c s x : ℕ} {S : List ℕ} {b : Buddy.State} {created destructed : List (ℕ × ℕ)}

theorem local_setPages (b : Buddy.State) (created destructed : List (ℕ × ℕ)) :
    Local c S k (k.setPages b created destructed) :=
  ⟨fun _ _ => rfl, .refl _, fun _ _ => ⟨⟨rfl, rfl, rfl, rfl, rfl⟩, rfl, rfl⟩, fun _ _ => ⟨rfl, rfl⟩, rfl,
    rfl, rfl⟩

theorem Local.trans {k'' : Kmem} (h : Local c S k k') (h' : Local c S k' k'') : Local c S k k'' :=
  ⟨fun a ha => (h'.caches a ha).trans (h.caches a ha), h.cache.trans h'.cache,
    fun a ha => (h.slabs a ha).trans (h'.slabs a ha),
    fun x hx => (h.objects x hx).trans (h'.objects x fun s hs => h.cache.slots s ▸ hx s hs),
    h'.cacheList.trans h.cacheList, h'.bufferCaches.trans h.bufferCaches,
    h'.allocatorInitialized.trans h.allocatorInitialized⟩

theorem Inner.trans {k'' : Kmem} (h : Inner c S k k') (h' : Inner c S k' k'') : Inner c S k k'' :=
  ⟨h.toLocal.trans h'.toLocal, h'.buddy.trans h.buddy, h'.created.trans h.created,
    h'.destructed.trans h.destructed⟩

theorem Relinked.inner (h : Relinked c S k k') : Inner c S k k' := by
  obtain ⟨heads, K, rfl, hK⟩ := h
  refine ⟨⟨fun a ha => update_of_ne ha _ _, ?_,
    fun a ha => ⟨⟨rfl, rfl, rfl, rfl, rfl⟩, (hK a ha).1, (hK a ha).2⟩, fun _ _ => ⟨rfl, rfl⟩,
    rfl, rfl, rfl⟩, rfl, rfl, rfl⟩
  rw [relink_cache]
  exact ⟨⟨rfl, rfl, rfl, rfl, rfl, rfl, rfl, id⟩, rfl⟩

theorem Relinked.sameHeader (h : Relinked c S k k') (s : ℕ) : SameHeader k k' s := by
  obtain ⟨heads, K, rfl, _⟩ := h
  exact ⟨rfl, rfl, rfl, rfl, rfl⟩

theorem Relinked.sameObject (h : Relinked c S k k') (x : ℕ) : SameObject k k' x := by
  obtain ⟨heads, K, rfl, _⟩ := h
  exact ⟨rfl, rfl⟩

theorem inner_setCache {f : KmemCache → KmemCache} (hf : SameType (k.caches c) (f (k.caches c))) :
    Inner c S k (k.setCache c f) := by
  refine ⟨⟨fun a ha => update_of_ne ha _ _, ?_,
    fun _ _ => ⟨⟨rfl, rfl, rfl, rfl, rfl⟩, rfl, rfl⟩, fun _ _ => ⟨rfl, rfl⟩, rfl, rfl, rfl⟩, rfl, rfl,
    rfl⟩
  show SameType _ (update k.caches c _ c)
  grind

/-! ### Memory holds a pool -/

/-- Memory holds a slab of cache `c` at `s`, with the free slots `free`. -/
structure SlabRep (k : Kmem) (c s : ℕ) (free : List ℕ) : Prop where
  mem : k.slabs.mem s = s
  cache : k.slabs.cache s = c
  numObjectsMax : k.slabs.numObjectsMax s = capacity (k.caches c)
  numFree : k.slabs.numFree s = free.length
  chain : Chain k.objects.next (k.slabs.freeList s) free
  slots : ∀ x ∈ free, x ∈ slots (k.caches c) s
  /-- The header of an allocated object names its slab. -/
  taken : ∀ x ∈ Slab.slots (k.caches c) s, x ∉ free → k.objects.slab x = s

/-- Memory holds the pool `P` of the cache at `c`. -/
structure CacheRep (k : Kmem) (c : ℕ) (P : Pool) : Prop where
  descriptor : Descriptor (k.caches c)
  family : Family k.slabs.toLinks (k.caches c).slabs P.lists
  slab : ∀ s ∈ P.slabs, SlabRep k c s (P.free s)

/-- Every slab but `m` is on the list for its number of free slots. -/
def Settled (k : Kmem) (c : ℕ) (P : Pool) (m : ℕ) : Prop :=
  ∀ l, ∀ s ∈ P.lists l, s ≠ m → l = listOf (capacity (k.caches c)) (P.free s).length

variable {P : Pool} {free : List ℕ} {l l' : SlabList}

theorem SlabRep.frame (h : SlabRep k c s free) (hd : SameKind (k.caches c) (k'.caches c))
    (hs : SameHeader k k' s) (ho : ∀ x ∈ Slab.slots (k.caches c) s, SameObject k k' x) :
    SlabRep k' c s free := by
  refine ⟨hs.mem.trans h.mem, hs.cache.trans h.cache, ?_, hs.numFree.trans h.numFree, ?_, ?_, ?_⟩
  · rw [hs.numObjectsMax, h.numObjectsMax, hd.capacity]
  · rw [hs.freeList]
    exact h.chain.congr fun x hx => (ho x (h.slots x hx)).next
  · rw [hd.slots]
    exact h.slots
  · rw [hd.slots]
    exact fun x hx hfree => (ho x hx).slab.trans (h.taken x hx hfree)

section
variable (h : CacheRep k c P)
include h

theorem CacheRep.frame (hd : SameKind (k.caches c) (k'.caches c))
    (hl : (k'.caches c).slabs = (k.caches c).slabs) (hs : ∀ s ∈ P.slabs, SameSlab k k' s)
    (ho : ∀ s ∈ P.slabs, ∀ x ∈ slots (k.caches c) s, SameObject k k' x) : CacheRep k' c P := by
  refine ⟨hd.descriptor h.descriptor, ⟨fun l => ?_, h.family.apart⟩,
    fun s hmem => (h.slab s hmem).frame hd (hs s hmem).toSameHeader (ho s hmem)⟩
  rw [hl]
  refine (h.family.list l).congr fun z hz => ?_
  grind [Pool.mem_slabs, SameSlab.next, SameSlab.prev]

theorem CacheRep.frame_eq (hc : k'.caches c = k.caches c) (hs : ∀ s ∈ P.slabs, SameSlab k k' s)
    (ho : ∀ s ∈ P.slabs, ∀ x ∈ slots (k.caches c) s, SameObject k k' x) : CacheRep k' c P :=
  h.frame (hc ▸ .refl _) (by rw [hc]) hs ho

theorem CacheRep.setPages (b : Buddy.State) (created destructed : List (ℕ × ℕ)) :
    CacheRep (k.setPages b created destructed) c P :=
  h.frame_eq rfl (fun _ _ => ⟨⟨rfl, rfl, rfl, rfl, rfl⟩, rfl, rfl⟩) fun _ _ _ _ => ⟨rfl, rfl⟩

theorem CacheRep.nodup : P.slabs.Nodup := by
  have hnd : ∀ l, (P.lists l).Nodup := fun l => (h.family.list l).chain.nodup
  have hdis : ∀ {l l'}, l ≠ l' → List.Disjoint (P.lists l) (P.lists l') := fun hne _ hz hz' =>
    hne (h.family.apart hz hz')
  refine List.nodup_append'.mpr ⟨List.nodup_append'.mpr ⟨hnd _, hnd _, hdis (by decide)⟩, hnd _, ?_⟩
  exact List.disjoint_append_left.mpr ⟨hdis (by decide), hdis (by decide)⟩

theorem CacheRep.ne_zero (hs : s ∈ P.slabs) : s ≠ 0 := by
  obtain ⟨l, hl⟩ := Pool.mem_slabs.mp hs
  exact (h.family.list l).chain.ne_zero s hl

theorem CacheRep.setCache {f : KmemCache → KmemCache}
    (hf : SameKind (k.caches c) (f (k.caches c))) (hl : (f (k.caches c)).slabs = (k.caches c).slabs) :
    CacheRep (k.setCache c f) c P := by
  have hc : (k.setCache c f).caches c = f (k.caches c) := update_self ..
  exact h.frame (hc ▸ hf) (by rw [hc, hl]) (fun _ _ => ⟨⟨rfl, rfl, rfl, rfl, rfl⟩, rfl, rfl⟩)
    fun _ _ _ _ => ⟨rfl, rfl⟩

end

/-- Slots of distinct slabs of the cache are distinct. -/
def SlotsApart (d : KmemCache) (S : List ℕ) : Prop :=
  ∀ s ∈ S, ∀ s' ∈ S, ∀ x ∈ slots d s, x ∈ slots d s' → s = s'

theorem SlabRep.length_le (h : SlabRep k c s free) : free.length ≤ capacity (k.caches c) := by
  rw [← length_slots (s := s)]
  exact (List.Nodup.subperm h.chain.nodup h.slots).length_le

end Xv6.Slab
