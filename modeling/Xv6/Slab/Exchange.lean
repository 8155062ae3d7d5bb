import Xv6.Slab.Cache

/-! Taking an object from a cache and putting one back.

Both change the free slots of one slab and then move the slab, once or twice, to the
list it belongs on (`Placed`). What comes of it is the pool with those free slots and
every slab settled (`Exchanged`). -/
namespace Xv6.Slab
open Function
open Linked

variable {k k' k₁ : Kmem} {c s x : ℕ} {S free : List ℕ} {P P₁ : Pool} {l l' : SlabList}

/-! ### Moving a slab -/

def Pool.move (P : Pool) (l l' : SlabList) (s : ℕ) : Pool :=
  {P with lists :=
    update (update P.lists l ((P.lists l).erase s)) l' (s :: P.lists l')}

theorem CacheRep.mem_move (h : CacheRep k c P) (hs : s ∈ P.lists l) (hne : l' ≠ l) {j : SlabList}
    {z : ℕ} : z ∈ (P.move l l' s).lists j ↔ z = s ∧ j = l' ∨ z ≠ s ∧ z ∈ P.lists j := by
  have honly : ∀ {i}, s ∈ P.lists i → i = l := fun hi => h.family.apart hi hs
  show z ∈ update (update P.lists l ((P.lists l).erase s)) l' (s :: P.lists l') j ↔ _
  by_cases hj' : j = l'
  · grind
  · rw [update_of_ne hj']
    by_cases hj : j = l
    · subst hj
      rw [update_self, (h.family.list j).chain.nodup.mem_erase_iff]
      simp [hj']
    grind

/-- The slab `s` of the pool `P₁`, in memory `k₁`, has been moved to the list `l`: now
memory `k` holds the pool `P`. -/
structure Placed (k₁ k : Kmem) (c : ℕ) (P₁ P : Pool) (s : ℕ) (l : SlabList) : Prop where
  rep : CacheRep k c P
  relinked : Relinked c P₁.slabs k₁ k
  perm : P.slabs.Perm P₁.slabs
  free : P.free = P₁.free
  mem : s ∈ P.lists l
  settled : Settled k c P s

theorem Placed.start (h : CacheRep k c P) (hs : s ∈ P.lists l) (hset : Settled k c P s) :
    Placed k k c P P s l :=
  ⟨h, .refl c _ k, .refl _, rfl, hs, hset⟩

theorem Placed.move (h : Placed k₁ k c P₁ P s l) (l' : SlabList) (hne : l' ≠ l) :
    Placed k₁ (moveSlab c l l' s k) c P₁ (P.move l l' s) s l' := by
  obtain ⟨hrel, hfam⟩ := moveSlab_spec h.rep.family h.mem hne (S := P.slabs)
    fun j z hz => Pool.mem_slabs.mpr ⟨j, hz⟩
  have hmem := fun {j z} => h.rep.mem_move h.mem hne (j := j) (z := z)
  have hslabs : ∀ z, z ∈ (P.move l l' s).slabs ↔ z ∈ P.slabs := by
    simp only [Pool.mem_slabs, hmem]
    grind [Placed.mem]
  have htype := hrel.inner.cache
  have hrep : CacheRep (moveSlab c l l' s k) c (P.move l l' s) :=
    ⟨htype.descriptor h.rep.descriptor, hfam, fun z hz => (h.rep.slab z ((hslabs z).mp hz)).frame
      htype.toSameKind (hrel.sameHeader z) fun x _ => hrel.sameObject x⟩
  have hS : Relinked c P₁.slabs k (moveSlab c l l' s k) := by
    obtain ⟨heads, K, heq, hK⟩ := hrel
    exact ⟨heads, K, heq, fun z hz => hK z fun hmem => hz (h.perm.mem_iff.mp hmem)⟩
  refine ⟨hrep, h.relinked.trans hS, ?_, h.free, hmem.mpr (.inl ⟨rfl, rfl⟩), ?_⟩
  · refine ((List.perm_ext_iff_of_nodup hrep.nodup h.rep.nodup).mpr hslabs).trans h.perm
  · intro j z hz hzs
    rw [htype.capacity]
    exact h.settled j z ((hmem.mp hz).resolve_left fun hc => hzs hc.1).2 hzs

theorem Placed.finish (h : Placed k₁ k c P₁ P s l)
    (hl : l = listOf (capacity (k.caches c)) (P.free s).length) : Settled k c P 0 := by
  intro j z hz _
  by_cases hzs : z = s
  · subst hzs
    rw [h.rep.family.apart hz h.mem]
    exact hl
  · exact h.settled j z hz hzs

/-! ### Taking an object and putting one back -/

def Pool.setFree (P : Pool) (s : ℕ) (free : List ℕ) : Pool :=
  {P with free := update P.free s free}

@[simp] theorem Pool.setFree_self (P : Pool) (s : ℕ) (free : List ℕ) :
    (P.setFree s free).free s = free :=
  update_self ..

theorem Pool.setFree_of_ne {s z : ℕ} (P : Pool) (free : List ℕ) (hz : z ≠ s) :
    (P.setFree s free).free z = P.free z :=
  update_of_ne hz _ _

/-- What `popObject` and `pushObject` do to slab `s` and slot `x` of it. -/
structure Updated (c s x : ℕ) (k k' : Kmem) : Prop where
  caches : ∀ a ≠ c, k'.caches a = k.caches a
  cache : SameType (k.caches c) (k'.caches c)
  heads : (k'.caches c).slabs = (k.caches c).slabs
  links : k'.slabs.toLinks = k.slabs.toLinks
  slab : ∀ a ≠ s, SameHeader k k' a
  object : ∀ a ≠ x, SameObject k k' a
  buddy : k'.buddy = k.buddy
  cacheList : k'.cacheList = k.cacheList
  bufferCaches : k'.bufferCaches = k.bufferCaches
  allocatorInitialized : k'.allocatorInitialized = k.allocatorInitialized
  created : k'.created = k.created
  destructed : k'.destructed = k.destructed

theorem Updated.inner (h : Updated c s x k k') (hs : s ∈ S) (hx : x ∈ slots (k.caches c) s) :
    Inner c S k k' := by
  refine ⟨⟨h.caches, h.cache, fun a ha => ?_, fun y hy => ?_, h.cacheList, h.bufferCaches,
    h.allocatorInitialized⟩, h.buddy, h.created, h.destructed⟩
  · refine ⟨h.slab a fun heq => ha (heq ▸ hs), ?_, ?_⟩
    · rw [h.links]
    · rw [h.links]
  · exact h.object y fun heq => hy s hs (heq ▸ hx)

theorem Updated.cacheRep {free : List ℕ} (h : Updated c s x k k') (hrep : CacheRep k c P)
    (hs : s ∈ P.slabs) (hx : x ∈ slots (k.caches c) s) (hap : SlotsApart (k.caches c) P.slabs)
    (hslab : SlabRep k' c s free) : CacheRep k' c (P.setFree s free) := by
  refine ⟨h.cache.descriptor hrep.descriptor, ?_, fun z hz => ?_⟩
  · rw [h.heads, h.links]
    exact hrep.family
  · by_cases hzs : z = s
    · subst hzs
      rw [P.setFree_self]
      exact hslab
    · rw [P.setFree_of_ne free hzs]
      refine (hrep.slab z hz).frame h.cache.toSameKind (h.slab z hzs) fun y hy => h.object y fun heq => ?_
      exact hzs (hap z hz s hs y hy (heq ▸ hx))

theorem updated_popObject (c s : ℕ) (k : Kmem) :
    Updated c s (k.slabs.freeList s) k (popObject c s k) := by
  have hc : (popObject c s k).caches c =
      {k.caches c with numAllocated := uint32 ((k.caches c).numAllocated + 1)} :=
    update_self ..
  refine ⟨fun a ha => update_of_ne ha _ _, ?_, ?_, rfl, fun a ha => ⟨rfl, rfl, ?_, ?_, rfl⟩,
    fun a ha => ⟨rfl, update_of_ne ha _ _⟩, rfl, rfl, rfl, rfl, rfl, rfl⟩
  · rw [hc]
    exact ⟨⟨rfl, rfl, rfl, rfl, rfl, rfl, rfl, id⟩, rfl⟩
  · rw [hc]
  · exact update_of_ne ha _ _
  · exact update_of_ne ha _ _

theorem updated_pushObject (c s x : ℕ) (k : Kmem) : Updated c s x k (pushObject c s x k) := by
  have hc : (pushObject c s x k).caches c =
      {k.caches c with numAllocated := uint32 ((k.caches c).numAllocated - 1)} :=
    update_self ..
  refine ⟨fun a ha => update_of_ne ha _ _, ?_, ?_, rfl, fun a ha => ⟨rfl, rfl, ?_, ?_, rfl⟩,
    fun a ha => ⟨update_of_ne ha _ _, rfl⟩, rfl, rfl, rfl, rfl, rfl, rfl⟩
  · rw [hc]
    exact ⟨⟨rfl, rfl, rfl, rfl, rfl, rfl, rfl, id⟩, rfl⟩
  · rw [hc]
  · exact update_of_ne ha _ _
  · exact update_of_ne ha _ _

theorem SlabRep.popObject {xs : List ℕ} (h : SlabRep k c s (x :: xs)) (hd : Descriptor (k.caches c)) :
    SlabRep (popObject c s k) c s xs := by
  obtain ⟨hhead, hx0, hrest⟩ := h.chain
  have hup := updated_popObject c s k
  have hlt : xs.length + 1 < 2 ^ 32 := by
    have := h.length_le
    have := hd.capacity_lt
    grind
  refine ⟨h.mem, h.cache, ?_, ?_, ?_, ?_, ?_⟩
  · rw [hup.cache.capacity]
    exact h.numObjectsMax
  · show update k.slabs.numFree s _ s = _
    rw [update_self, h.numFree, List.length_cons, uint32_pred (by omega) hlt]
    omega
  · show Chain k.objects.next (update k.slabs.freeList s _ s) xs
    grind
  · rw [hup.cache.slots]
    exact fun y hy => h.slots y (List.mem_cons_of_mem _ hy)
  · rw [hup.cache.slots]
    intro y hy hfree
    show update k.objects.slab (k.slabs.freeList s) s y = s
    grind [SlabRep.taken, update_self, update_of_ne]

theorem SlabRep.pushObject (h : SlabRep k c s free) (hd : Descriptor (k.caches c))
    (hx : x ∈ Slab.slots (k.caches c) s) (hnew : x ∉ free) :
    SlabRep (pushObject c s x k) c s (x :: free) := by
  have hup := updated_pushObject c s x k
  have hx0 : x ≠ 0 := by
    have := (hd.slot_bounds hx).1
    unfold sizeofSlab at this
    omega
  have hlt : free.length + 1 < 2 ^ 32 := by
    have := h.length_le
    have := hd.capacity_lt
    omega
  refine ⟨h.mem, h.cache, ?_, ?_, ?_, ?_, ?_⟩
  · rw [hup.cache.capacity]
    exact h.numObjectsMax
  · show update k.slabs.numFree s _ s = _
    rw [update_self, h.numFree, uint32_succ hlt, List.length_cons]
  · show Chain (update k.objects.next x _) (update k.slabs.freeList s x s) _
    rw [update_self]
    exact h.chain.push hx0 hnew
  · rw [hup.cache.slots]
    exact fun y hy => (List.mem_cons.mp hy).elim (fun heq => heq ▸ hx) (h.slots y)
  · rw [hup.cache.slots]
    exact fun y hy hfree => h.taken y hy fun hmem => hfree (List.mem_cons_of_mem _ hmem)

/-- What a change of one object does: the new pool, and the descriptor's counts. -/
structure Exchanged (k k' : Kmem) (c s : ℕ) (P P' : Pool) (free : List ℕ) (n : ℕ) : Prop where
  rep : CacheRep k' c P'
  settled : Settled k' c P' 0
  perm : P'.slabs.Perm P.slabs
  free : P'.free = update P.free s free
  inner : Inner c P.slabs k k'
  numSlabs : (k'.caches c).numSlabs = (k.caches c).numSlabs
  numAllocated : (k'.caches c).numAllocated = n

theorem Placed.exchanged {n : ℕ} (h : Placed k₁ k' c (P.setFree s free) P₁ s l)
    (hup : Updated c s x k k₁) (hs : s ∈ P.slabs) (hx : x ∈ slots (k.caches c) s)
    (hl : l = listOf (capacity (k.caches c)) free.length)
    (hslabs : (k₁.caches c).numSlabs = (k.caches c).numSlabs) (hn : (k₁.caches c).numAllocated = n) :
    Exchanged k k' c s P P₁ free n := by
  have htype := h.relinked.inner.cache
  obtain ⟨heads, K, heq, _⟩ := h.relinked
  have hcache : k'.caches c = {k₁.caches c with slabs := heads} := by rw [heq, relink_cache]
  refine ⟨h.rep, h.finish ?_, h.perm, h.free, (hup.inner hs hx).trans h.relinked.inner, ?_, ?_⟩
  · rw [htype.capacity, hup.cache.capacity, h.free, P.setFree_self]
    exact hl
  · rw [hcache]
    exact hslabs
  · rw [hcache]
    exact hn

theorem Updated.settled (h : Updated c s x k k') (hset : Settled k c P 0) (hrep : CacheRep k c P)
    (free : List ℕ) : Settled k' c (P.setFree s free) s := by
  intro j z hz hzs
  rw [h.cache.capacity, P.setFree_of_ne free hzs]
  exact hset j z hz (hrep.ne_zero (Pool.mem_slabs.mpr ⟨j, hz⟩))

theorem CacheRep.takeObject {xs : List ℕ} (h : CacheRep k c P) (hset : Settled k c P 0)
    (hap : SlotsApart (k.caches c) P.slabs) (hs : s ∈ P.lists l) (hf : P.free s = x :: xs) :
    ∃ P', Exchanged k (takeObject c s k) c s P P' xs
      (uint32 ((k.caches c).numAllocated + 1)) := by
  have hsl : s ∈ P.slabs := Pool.mem_slabs.mpr ⟨l, hs⟩
  have hrep : SlabRep k c s (x :: xs) := hf ▸ h.slab s hsl
  have hx := hrep.slots x (List.mem_cons_self ..)
  have hup := updated_popObject c s k
  rw [hrep.chain.1] at hup
  have hrep1 := hrep.popObject h.descriptor
  have hstart := Placed.start (hup.cacheRep h hsl hx hap hrep1) hs (hup.settled hset h xs)
  have hdone : ∀ {k' P' j}, Placed (Slab.popObject c s k) k' c (P.setFree s xs) P' s j →
      j = listOf (capacity (k.caches c)) xs.length → Exchanged k k' c s P P' xs
        (uint32 ((k.caches c).numAllocated + 1)) := fun hp hj =>
    hp.exchanged hup hsl hx hj (by simp [Slab.popObject, Kmem.setCache])
      (by simp [Slab.popObject, Kmem.setCache])
  have hle := hrep.length_le
  have hlt := h.descriptor.capacity_lt
  rw [List.length_cons] at hle
  have hl : l = listOf (capacity (k.caches c)) (xs.length + 1) := by
    rw [hset l s hs (h.ne_zero hsl), hf, List.length_cons]
  have hfree := hrep1.numFree
  have hmax := hrep1.numObjectsMax
  rw [hup.cache.capacity] at hmax
  unfold Slab.takeObject
  simp only [hfree, hmax, uint32_pred (n := capacity (k.caches c)) (by omega) (by omega)]
  by_cases hfirst : xs.length + 1 = capacity (k.caches c)
  · -- The slab was on the list of empty slabs.
    obtain rfl : l = .slabsEmpty := by rw [hl, listOf, if_pos hfirst]
    have hmoved := hstart.move .slabsPartial (by decide)
    rw [if_pos (show xs.length = capacity (k.caches c) - 1 by omega), moveSlab_numFree, hfree]
    by_cases hlast : xs.length = 0
    · rw [if_pos hlast]
      refine ⟨_, hdone (hmoved.move .slabsFull (by decide)) ?_⟩
      rw [listOf, if_neg (by omega), if_pos hlast]
    · rw [if_neg hlast]
      refine ⟨_, hdone hmoved ?_⟩
      rw [listOf, if_neg (by omega), if_neg hlast]
  · obtain rfl : l = .slabsPartial := by rw [hl, listOf, if_neg hfirst, if_neg (by omega)]
    rw [if_neg (show ¬ xs.length = capacity (k.caches c) - 1 by omega), hfree]
    by_cases hlast : xs.length = 0
    · rw [if_pos hlast]
      refine ⟨_, hdone (hstart.move .slabsFull (by decide)) ?_⟩
      rw [listOf, if_neg (by omega), if_pos hlast]
    · rw [if_neg hlast]
      refine ⟨_, hdone hstart ?_⟩
      rw [listOf, if_neg (by omega), if_neg hlast]

theorem CacheRep.putObject (h : CacheRep k c P) (hset : Settled k c P 0)
    (hap : SlotsApart (k.caches c) P.slabs) (hs : s ∈ P.slabs) (hx : x ∈ slots (k.caches c) s)
    (hnew : x ∉ P.free s) :
    ∃ P', Exchanged k (putObject c s x k) c s P P' (x :: P.free s)
      (uint32 ((k.caches c).numAllocated - 1)) := by
  obtain ⟨l, hsl⟩ := Pool.mem_slabs.mp hs
  have hrep := h.slab s hs
  have hup := updated_pushObject c s x k
  have hrep1 := hrep.pushObject h.descriptor hx hnew
  have hstart := Placed.start (hup.cacheRep h hs hx hap hrep1) hsl (hup.settled hset h _)
  have hdone : ∀ {k' P' j}, Placed (Slab.pushObject c s x k) k' c (P.setFree s (x :: P.free s)) P' s j →
      j = listOf (capacity (k.caches c)) (x :: P.free s).length →
      Exchanged k k' c s P P' (x :: P.free s) (uint32 ((k.caches c).numAllocated - 1)) :=
    fun hp hj => hp.exchanged hup hs hx hj (by simp [Slab.pushObject, Kmem.setCache])
      (by simp [Slab.pushObject, Kmem.setCache])
  have hle := hrep1.length_le
  rw [hup.cache.capacity] at hle
  have hl := hset l s hsl (h.ne_zero hs)
  have hfree := hrep1.numFree
  have hmax := hrep1.numObjectsMax
  rw [hup.cache.capacity] at hmax
  rw [List.length_cons] at hle hfree
  rw [List.length_cons] at hdone
  unfold Slab.putObject
  simp only [hfree]
  by_cases hfirst : (P.free s).length = 0
  · -- The slab was full.
    obtain rfl : l = .slabsFull := by rw [hl, listOf, if_neg (by omega), if_pos hfirst]
    have hmoved := hstart.move .slabsPartial (by decide)
    rw [if_pos (show (P.free s).length + 1 = 1 by omega), moveSlab_numFree,
      moveSlab_numObjectsMax, hfree, hmax]
    by_cases hlast : (P.free s).length + 1 = capacity (k.caches c)
    · rw [if_pos hlast]
      refine ⟨_, hdone (hmoved.move .slabsEmpty (by decide)) ?_⟩
      rw [listOf, if_pos hlast]
    · rw [if_neg hlast]
      refine ⟨_, hdone hmoved ?_⟩
      rw [listOf, if_neg hlast, if_neg (by omega)]
  · obtain rfl : l = .slabsPartial := by rw [hl, listOf, if_neg (by omega), if_neg hfirst]
    rw [if_neg (show ¬ (P.free s).length + 1 = 1 by omega), hfree, hmax]
    by_cases hlast : (P.free s).length + 1 = capacity (k.caches c)
    · rw [if_pos hlast]
      refine ⟨_, hdone (hstart.move .slabsEmpty (by decide)) ?_⟩
      rw [listOf, if_pos hlast]
    · rw [if_neg hlast]
      refine ⟨_, hdone hstart ?_⟩
      rw [listOf, if_neg hlast, if_neg (by omega)]

end Xv6.Slab
