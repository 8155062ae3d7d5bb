import Xv6.Slab.Frame
import Xv6.Slab.Safety

/-! Where a buffer comes from, and where it goes back to.

`kmalloc` rounds a size up with one loop and looks the class up with another; the two agree
(`roundUpPow2_eq`), so a buffer is a slot of a slab of the cache for its class. `kfree` knows of
that slab only what the header in front of the buffer says. Only `kmem_cache_alloc` writes the
`slab` field of a header, that of the object it returns, so until a buffer is freed its header names
the slab it came from (`Issued.run`). -/
namespace Xv6.Slab
open Function
open Buddy (Arena addr order maxOrderLimit blockSize bootRegion)

/-! ### The `slab` field of object headers -/

section Headers

variable {k : Kmem} {c s x n : ℕ} {l l' : SlabList}

theorem removeSlabFromList_objects : (removeSlabFromList c l s k).objects = k.objects := by
  rw [removeSlabFromList_eq]
  rfl

theorem moveSlab_objects : (moveSlab c l l' s k).objects = k.objects := by
  rw [moveSlab, addSlabToList_eq, removeSlabFromList_eq]
  rfl

theorem moveSlab_header (t : ℕ) : SameHeader k (moveSlab c l l' s k) t := by
  rw [moveSlab, addSlabToList_eq, removeSlabFromList_eq]
  exact ⟨rfl, rfl, rfl, rfl, rfl⟩

theorem linkObjects_slab (a : ℕ) : (linkObjects s x a n k).objects.slab = k.objects.slab := by
  induction n generalizing k with
  | zero => rfl
  | succ n ih => exact ih

theorem takeObject_objects : (takeObject c s k).objects = (popObject c s k).objects := by
  grind [moveSlab_objects, takeObject]

theorem putObject_objects : (putObject c s x k).objects = (pushObject c s x k).objects := by
  grind [moveSlab_objects, putObject]

theorem putObject_header (t : ℕ) : SameHeader (pushObject c s x k) (putObject c s x k) t := by
  unfold putObject
  dsimp only
  split <;> split
  · exact (moveSlab_header t).trans (moveSlab_header t)
  · exact moveSlab_header t
  · exact moveSlab_header t
  · exact .refl _ t

theorem kmemCacheGrow_slab :
    Returns (kmemCacheGrow c k) fun r => r.2.objects.slab = k.objects.slab := by
  unfold kmemCacheGrow kmemSlabCreate
  rw [bind_assoc]
  apply (returns_any _).bind
  intro r _
  by_cases h0 : r.1 = 0
  · simp only [if_pos h0, pure_bind, if_true]
    rfl
  · simp only [if_neg h0, pure_bind]
    show (addSlabToList c .slabsEmpty r.1 (initSlab c r.1 {k with buddy := r.2})).objects.slab = _
    rw [addSlabToList_eq]
    exact linkObjects_slab _

theorem selectSlab_slab : Returns (selectSlab c k) fun r => r.2.objects.slab = k.objects.slab := by
  unfold selectSlab
  split
  · rfl
  split
  · rfl
  apply kmemCacheGrow_slab.bind
  intro r hr
  dsimp only
  split <;> exact hr

theorem kmemCacheAlloc_slab : Returns (kmemCacheAlloc c k) fun r =>
      ∀ y, r.1 ≠ y + sizeofObject → r.2.objects.slab y = k.objects.slab y := by
  unfold kmemCacheAlloc
  split
  · intro y _
    rfl
  apply selectSlab_slab.bind
  intro ⟨slab, k'⟩ hk'
  cases slab with
  | none =>
    intro y _
    exact congrFun hk' y
  | some slab =>
    dsimp only
    split
    · intro y _
      exact congrFun hk' y
    · intro y hy
      show (takeObject c slab k').objects.slab y = _
      rw [takeObject_objects, ← hk']
      exact update_of_ne (fun heq => hy (by rw [heq])) _ _

theorem kmemCacheFree_slab : (kmemCacheFree c x k).objects.slab = k.objects.slab := by
  unfold kmemCacheFree
  dsimp only
  split
  · rfl
  split
  · rfl
  · rw [putObject_objects]
    rfl

theorem kmemSlabDestroy_slab : Returns (kmemSlabDestroy c s (removeSlabFromList c l s k)) fun k' =>
      k'.objects.slab = k.objects.slab := by
  unfold kmemSlabDestroy
  split
  · exact congrArg Objects.slab removeSlabFromList_objects
  · apply (returns_any _).bind
    intro b _
    exact congrArg Objects.slab removeSlabFromList_objects

theorem shrinkLoop_slab (fuel : ℕ) {blocksFreed : ℤ} :
    Returns (shrinkLoop c fuel s blocksFreed k) fun r => r.2.objects.slab = k.objects.slab := by
  induction fuel generalizing s blocksFreed k with
  | zero => trivial
  | succ fuel ih =>
    unfold shrinkLoop
    split
    · rfl
    · apply kmemSlabDestroy_slab.bind
      intro k' hk'
      exact ih.mono fun r hr => hr.trans hk'

theorem kmemCacheShrink_slab :
    Returns (kmemCacheShrink c k) fun r => r.2.objects.slab = k.objects.slab := by
  unfold kmemCacheShrink
  split
  · rfl
  split
  · rfl
  apply (shrinkLoop_slab loopFuel).bind
  intro r hr
  dsimp only
  split <;> exact hr

theorem destroyLoop_slab (fuel : ℕ) :
    Returns (destroyLoop c l fuel k) fun k' => k'.objects.slab = k.objects.slab := by
  induction fuel generalizing k with
  | zero => trivial
  | succ fuel ih =>
    unfold destroyLoop
    dsimp only
    split
    · rfl
    grind [Outcome.bind, kmemSlabDestroy_slab, Outcome.mono]

theorem unlinkCache_slab : Returns (unlinkCache c k) fun k' => k'.objects.slab = k.objects.slab := by
  unfold unlinkCache
  split
  · rfl
  split
  · trivial
  split <;> rfl

theorem kmemCacheDestroy_slab :
    Returns (kmemCacheDestroy c k) fun k' => k'.objects.slab = k.objects.slab := by
  unfold kmemCacheDestroy
  split
  · rfl
  apply (destroyLoop_slab loopFuel).bind
  intro k1 h₁
  apply (destroyLoop_slab loopFuel).bind
  intro k2 h2
  apply (destroyLoop_slab loopFuel).bind
  intro k3 h3
  apply unlinkCache_slab.bind
  intro k4 h4
  apply (returns_any _).bind
  intro b _
  exact h4.trans (h3.trans (h2.trans h₁))

theorem kmemCacheCreate_slab {name : List Char} {size ctor dtor : ℕ} :
    Returns (kmemCacheCreate name size ctor dtor k) fun r => r.2.objects.slab = k.objects.slab := by
  unfold kmemCacheCreate
  split
  · rfl
  split
  · rfl
  apply (returns_any _).bind
  intro r _
  by_cases h0 : r.1 = 0
  · simp only [if_pos h0, Outcome.pure]
  · simp only [if_neg h0]
    apply (returns_any _).bind
    intro slabSize _
    exact kmemCacheGrow_slab.bind fun g hg => hg

theorem ensureBufferCache_slab {size i : ℕ} :
    Returns (ensureBufferCache size i k) fun k' => k'.objects.slab = k.objects.slab := by
  unfold ensureBufferCache
  split
  · exact kmemCacheCreate_slab.bind fun r hr => hr
  · rfl

theorem kmalloc_slab {size : ℕ} : Returns (kmalloc size k) fun r =>
      ∀ y, r.1 ≠ y + sizeofObject → r.2.objects.slab y = k.objects.slab y := by
  unfold kmalloc
  split
  · intro y _
    rfl
  apply (returns_any _).bind
  intro roundedSize _
  apply (returns_any _).bind
  intro index _
  apply ensureBufferCache_slab.bind
  intro k' hk'
  dsimp only
  split
  · intro y _
    exact congrFun hk' y
  grind [Outcome.mono, kmemCacheAlloc_slab]

end Headers

/-! ### Objects in use -/

/-- The call does not free the object at `objp`. -/
def Call.Spares (objp : ℕ) : Call → Prop
  | .free _ q | .kfree q => q ≠ objp
  | _ => True

/-- The object is held, callers may not destroy its cache, and its header names the slab `s`. -/
structure Issued (A : Arena) (o : Live) (s : ℕ) (w : World) : Prop where
  tracked : ∃ H, Tracks A w H
  live : o ∈ w.live
  cache : o.cache ∉ w.handles
  slab : w.kmem.objects.slab (header o.obj) = s

variable {A : Arena} {w : World} {H : Heap} {o : Live} {s : ℕ} {call : Call}

theorem mem_noteObject {objp cache size : ℕ} (ho : o ∈ w.live) :
    o ∈ noteObject objp cache size w.live := by
  grind [noteObject]

/-- A call changes the `slab` field of the header at `y` only if it allocates the object there. -/
theorem World.step_slab (w : World) (call : Call) (y : ℕ) :
    Returns (w.step call) fun w' => w'.kmem.objects.slab y = w.kmem.objects.slab y ∨
      ∃ o, w'.live = o :: w.live ∧ o.obj = y + sizeofObject := by
  have hnote : ∀ {objp cache size : ℕ} {k : Kmem},
      (∀ y, objp ≠ y + sizeofObject → k.objects.slab y = w.kmem.objects.slab y) →
      k.objects.slab y = w.kmem.objects.slab y ∨
        ∃ o, noteObject objp cache size w.live = o :: w.live ∧ o.obj = y + sizeofObject := by
    intro objp cache size k hk
    by_cases hobj : objp = y + sizeofObject
    · have h0 : objp ≠ 0 := by
        rw [hobj]
        exact Nat.ne_of_gt (Nat.add_pos_right _ (by decide))
      right
      exact ⟨_, if_neg h0, hobj⟩
    · left
      exact hk y hobj
  cases call with
  | create name size ctor dtor =>
    exact kmemCacheCreate_slab.bind fun r hr => .inl (congrFun hr y)
  | alloc c => exact kmemCacheAlloc_slab.bind fun r hr => hnote hr
  | free c objp => exact .inl (congrFun kmemCacheFree_slab y)
  | grow c => exact kmemCacheGrow_slab.bind fun r hr => .inl (congrFun hr y)
  | shrink c => exact kmemCacheShrink_slab.bind fun r hr => .inl (congrFun hr y)
  | destroy c => exact kmemCacheDestroy_slab.bind fun k hk => .inl (congrFun hk y)
  | kmalloc size => exact kmalloc_slab.bind fun r hr => hnote hr
  | kfree objp =>
    have hfree : Returns (kfree objp w.kmem) fun k => k.objects.slab = w.kmem.objects.slab := by
      unfold kfree
      split
      · rfl
      dsimp only
      split
      · trivial
      · exact kmemCacheFree_slab
    exact hfree.bind fun k hk => .inl (congrFun hk y)

theorem Tracks.step_handles {c : ℕ} (h : Tracks A w H) (hc : c ∈ H.caches) (hnot : c ∉ w.handles) :
    Returns (w.step call) fun w' => c ∉ w'.handles := by
  cases call with
  | create name size ctor dtor =>
    apply ((h.create name size ctor dtor).imp fun _ _ => trivial).mono
    grind [Added.fresh]
  | free c objp => exact hnot
  | destroy c =>
    apply (returns_any _).bind
    intro k _ hmem
    exact hnot (List.mem_of_mem_erase hmem)
  | alloc c => exact (returns_any _).bind fun _ _ => hnot
  | grow c => exact (returns_any _).bind fun _ _ => hnot
  | shrink c => exact (returns_any _).bind fun _ _ => hnot
  | kmalloc size => exact (returns_any _).bind fun _ _ => hnot
  | kfree objp => exact (returns_any _).bind fun _ _ => hnot

/-- A call that does not free the object, and may not destroy its cache, leaves it in use. -/
theorem World.step_live (ho : o ∈ w.live) (hnot : o.cache ∉ w.handles) (h0 : o.cache ≠ 0)
    (hcall : w.allowed call) (hs : call.Spares o.obj) :
    Returns (w.step call) fun w' => o ∈ w'.live := by
  cases call with
  | create name size ctor dtor => exact (returns_any _).bind fun _ _ => ho
  | grow c => exact (returns_any _).bind fun _ _ => ho
  | shrink c => exact (returns_any _).bind fun _ _ => ho
  | alloc c => exact (returns_any _).bind fun _ _ => mem_noteObject ho
  | kmalloc size => exact (returns_any _).bind fun _ _ => mem_noteObject ho
  | free c objp =>
    show o ∈ if c = 0 then w.live else w.live.filter (·.obj ≠ objp)
    split
    · exact ho
    · simp only [List.mem_filter, ho, decide_not, Bool.not_eq_true', decide_eq_false_iff_not, true_and]
      exact Ne.symm hs
  | kfree objp =>
    apply (returns_any _).bind
    intro k _
    simp only [Outcome.pure, List.mem_filter, ho, decide_not, Bool.not_eq_true',
      decide_eq_false_iff_not, true_and]
    exact Ne.symm hs
  | destroy c =>
    apply (returns_any _).bind
    intro k _
    simp only [Outcome.pure, List.mem_filter, ho, decide_not, Bool.not_eq_true',
      decide_eq_false_iff_not, true_and]
    intro heq
    rcases hcall with rfl | hmem
    · exact h0 heq
    · exact hnot (heq ▸ hmem)

namespace Issued

theorem step (h : Issued A o s w) (hcall : w.allowed call) (hs : call.Spares o.obj) :
    Outcome A.faults (w.step call) (Issued A o s) := by
  obtain ⟨H, ht⟩ := h.tracked
  obtain ⟨t, x, hl⟩ := ht.good.located o h.live
  have hx := ht.good.header_eq hl
  have h0 := ht.good.cache_ne_zero hl.cache
  apply ((((ht.step hcall).and (World.step_live h.live h.cache h0 hcall hs)).and
    (ht.step_handles hl.cache h.cache)).and (w.step_slab call x)).mono
  rintro w' ⟨⟨⟨⟨H', ht'⟩, hlive⟩, hcache⟩, hslab⟩
  refine ⟨⟨H', ht'⟩, hlive, hcache, ?_⟩
  have hsx := h.slab
  rw [hx] at hsx ⊢
  rcases hslab with hslab | ⟨o', hnew, hobj⟩
  · rw [hslab, hsx]
  · -- The object would be in use twice.
    have hdist := ht'.good.distinct
    rw [hnew] at hdist
    exact absurd (hobj.trans hl.obj.symm) ((List.pairwise_cons.mp hdist).1 o h.live)

theorem run {cs : List Call} (h : Issued A o s w) (hp : calls.Proper w cs)
    (hs : ∀ call ∈ cs, call.Spares o.obj) : Outcome A.faults (calls.run w cs) (Issued A o s) :=
  Protocol.run_outcome (fun call hmem _ hw hcall => hw.step hcall (hs call hmem)) h hp

end Issued

/-! ### Going back -/

/-- The object with the header `x` is back in slab `s` of cache `c`, and nothing else is touched but
the lists that the slabs of the cache are on. -/
structure Returned (k k' : Kmem) (c s x : ℕ) : Prop where
  numFree : k'.slabs.numFree s = k.slabs.numFree s + 1
  freeList : k'.slabs.freeList s = x
  next : k'.objects.next x = k.slabs.freeList s
  created : k'.created = k.created
  /-- The other slabs, and the objects other than this one. -/
  slabs : ∀ t ≠ s, SameHeader k k' t
  objects : ∀ y ≠ x, SameObject k k' y
  /-- The other caches, and the lists of their slabs. -/
  caches : ∀ a ≠ c, k'.caches a = k.caches a
  otherSlabs : ∀ t a, (t, a) ∈ k.created → a ≠ c → SameSlab k k' t

theorem Good.kfree_returned {k : Kmem} {live : List Live} {x : ℕ} (h : Good A k H live)
    (ho : o ∈ live) (hl : Located k H o s x) :
    ∃ k', Slab.kfree o.obj k = .ok k' ∧ Returned k k' o.cache s x := by
  have hcr := h.rep.cache _ hl.cache
  have hslab := hcr.slab s hl.slab
  have hup := updated_pushObject o.cache s x k
  obtain ⟨P, he⟩ := hcr.putObject (h.rep.settled _ hl.cache) (h.rep.slotsApart hl.cache) hl.slab
    hl.slot hl.used
  have hpush := hslab.pushObject hcr.descriptor hl.slot hl.used
  have hput : SameHeader _ (putObject o.cache s x k) s := putObject_header s
  refine ⟨putObject o.cache s x k, ?_, ?_, ?_, ?_, he.inner.created, ?_, ?_, he.inner.caches, ?_⟩
  · rw [h.kfree ho, h.kmemCacheFree_eq hl]
  · rw [hput.numFree, hpush.numFree, hslab.numFree, List.length_cons]
  · rw [hput.freeList]
    exact update_self ..
  · rw [putObject_objects]
    exact update_self ..
  · intro t ht
    exact (hup.slab t ht).trans (putObject_header t)
  · intro y hy
    have hsame := hup.object y hy
    constructor
    · rw [putObject_objects, hsame.next]
    · rw [putObject_objects, hsame.slab]
  · intro t a hta ha
    obtain ⟨hac, hts⟩ := (h.rep.created t a).mp hta
    exact he.inner.slabs t (h.rep.others hl.cache hac ha hts).1

theorem Issued.kfree (h : Issued A o s w) : (s, o.cache) ∈ w.kmem.created ∧
      ∃ k', Slab.kfree o.obj w.kmem = .ok k' ∧ Returned w.kmem k' o.cache s (header o.obj) := by
  obtain ⟨H, ht⟩ := h.tracked
  obtain ⟨t, x, hl⟩ := ht.good.located o h.live
  obtain rfl : t = s := (ht.good.objectSlab_eq hl).symm.trans h.slab
  rw [ht.good.header_eq hl, ht.good.rep.created]
  exact ⟨⟨hl.cache, hl.slab⟩, ht.good.kfree_returned h.live hl⟩

/-! ### Size classes -/

/-- `p` is a buffer for `size` bytes: an object of slab `slab` of `buffer_caches[i]`. -/
structure Buffer (k : Kmem) (size p i slab : ℕ) : Prop where
  index : i < numBufferCaches
  rounded : roundUpPow2 size = .ok (32 * 2 ^ i)
  found : getBufferCacheIndex (32 * 2 ^ i) = .ok i
  least : IsLeast {m | (∃ j, m = 2 ^ j) ∧ max size 32 ≤ m} (32 * 2 ^ i)
  cache : k.bufferCaches i ≠ 0
  objectSize : (k.caches (k.bufferCaches i)).objectSize = 32 * 2 ^ i
  created : (slab, k.bufferCaches i) ∈ k.created
  slot : ∃ x ∈ slots (k.caches (k.bufferCaches i)) slab, p = x + sizeofObject
  aligned : p % 16 = 0

theorem classSize_least {size i : ℕ} (hle : size ≤ classSize i) (hbelow : ∀ a < i, classSize a < size) :
    IsLeast {m | (∃ j, m = 2 ^ j) ∧ max size 32 ≤ m} (classSize i) := by
  have hpow : ∀ a, classSize a = 2 ^ (a + 5) := by
    intro a
    rw [classSize, minBufferSize, pow_add, mul_comm]
  constructor
  · grind
  · rintro m ⟨⟨j, rfl⟩, hm⟩
    obtain ⟨hsize, h32⟩ := max_le_iff.mp hm
    -- A power of two from 32 on is the size of a class.
    have hj : 5 ≤ j := (Nat.pow_le_pow_iff_right one_lt_two).mp (h32 : 2 ^ 5 ≤ 2 ^ j)
    obtain ⟨a, rfl⟩ := Nat.exists_eq_add_of_le' hj
    rw [← hpow] at hsize ⊢
    by_contra hlt
    have ha : a < i := by
      by_contra hia
      rw [hpow, hpow] at hlt
      exact hlt (Nat.pow_le_pow_right (by decide) (by omega))
    exact absurd (hbelow a ha) (not_lt.mpr hsize)

theorem Good.obj_aligned {k : Kmem} {live : List Live} {x : ℕ} (h : Good A k H live)
    (hl : Located k H o s x) (hstart : A.start % blockSize = 0)
    (hsize : (k.caches o.cache).objectSize % 16 = 0) : o.obj % 16 = 0 := by
  have hpointer := (h.rep.sound.ledger.held _ (mem_held_slab hl.cache hl.slab)).pointer
  rw [h.rep.sound.start] at hpointer
  obtain ⟨i, _, rfl⟩ := mem_slots.mp hl.slot
  have hal := (h.rep.cache _ hl.cache).descriptor.aligned
  have hmul : 16 ∣ i * (k.caches o.cache).alignedSize := by
    apply Dvd.dvd.mul_left
    unfold sizeofObject at hal
    omega
  grind [Located.obj, addr, slot, sizeofObject, sizeofSlab, blockSize]

theorem Tracks.kmalloc_issued {size : ℕ} (h : Tracks A w H) (hstart : A.start % blockSize = 0)
    (hpos : 1 ≤ size) (hsize : size ≤ 2 ^ 15) :
    Outcome A.faults (Slab.kmalloc size w.kmem) fun r => r.1 ≠ 0 →
      ∃ i s, Buffer r.2 size r.1 i s ∧ Issued A ⟨r.1, r.2.bufferCaches i, size⟩ s
        ⟨r.2, w.handles, noteObject r.1 (cacheOf r.2 r.1) size w.live⟩ := by
  have hmax : size ≤ maxBufferSize := hsize.trans (by decide)
  obtain ⟨i, hi, hround, hclass, hbelow, hindex⟩ := roundUpPow2_eq hmax
  unfold Slab.kmalloc
  rw [if_neg (h.kmalloc_accepts hpos hmax), hround, ok_bind, hindex, ok_bind]
  apply h.ensureBufferCache.bind
  rintro k ⟨H1, h₁⟩
  dsimp only
  split
  · intro hp
    exact absurd rfl hp
  rename_i hcache
  obtain ⟨hc, hnot, hobj⟩ := h₁.buffers i hi hcache
  apply (h₁.good.kmemCacheAlloc hc).mono
  rintro ⟨p, k'⟩ ⟨H2, hk, ⟨hnull, _⟩ | ⟨hp, hgood⟩⟩ hp'
  · exact absurd hnull hp'
  have hg := hgood size (hobj ▸ hclass)
  have hlive : (⟨p, k.bufferCaches i, size⟩ : Live) ∈ ⟨p, k.bufferCaches i, size⟩ :: w.live :=
    List.mem_cons_self ..
  obtain ⟨s, x, hl⟩ := hg.located _ hlive
  have hsize' : (k'.caches (k.bufferCaches i)).objectSize = classSize i :=
    hk.cache.objectSize.trans hobj
  refine ⟨i, s, ?_, ?_⟩
  · refine ⟨hi, hround, hindex, classSize_least hclass hbelow, ?_, ?_, ?_, ⟨x, ?_, hl.obj⟩, ?_⟩
    · rw [hk.bufferCaches]
      exact hcache
    · rw [hk.bufferCaches]
      exact hsize'
    · rw [hk.bufferCaches, hg.rep.created]
      exact ⟨hl.cache, hl.slab⟩
    · rw [hk.bufferCaches]
      exact hl.slot
    · apply hg.obj_aligned hl hstart
      rw [hsize', classSize, minBufferSize]
      omega
  · rw [hk.bufferCaches, hg.cacheOf_eq hlive, noteObject, if_neg hp]
    exact ⟨⟨H2, h₁.kept hg hk⟩, hlive, hnot, hg.objectSlab_eq hl⟩

/-- A buffer that `kmalloc` returns for `size` bytes is a 16-byte aligned object of the cache for the
least power of two that holds it; and after any further calls that do not free it, `kfree` puts it back
into the slab and the cache it came from, and changes no other slab's contents and no other cache. -/
def Routes (w : World) (size : ℕ) : Prop :=
  ∃ r, kmalloc size w.kmem = .ok r ∧ (r.1 ≠ 0 → ∃ i slab, Buffer r.2 size r.1 i slab ∧
    ∀ later, calls.Proper ⟨r.2, w.handles, noteObject r.1 (cacheOf r.2 r.1) size w.live⟩ later →
      (∀ call ∈ later, call.Spares r.1) →
      ∃ w', calls.run ⟨r.2, w.handles, noteObject r.1 (cacheOf r.2 r.1) size w.live⟩ later = .ok w' ∧
        (slab, r.2.bufferCaches i) ∈ w'.kmem.created ∧
        ∃ k', kfree r.1 w'.kmem = .ok k' ∧
          Returned w'.kmem k' (r.2.bufferCaches i) slab (header r.1))

theorem Tracks.routes {size : ℕ} (h : Tracks A w H) (hnone : ∀ e, ¬ A.faults e)
    (hstart : A.start % blockSize = 0) (hpos : 1 ≤ size) (hsize : size ≤ 2 ^ 15) : Routes w size := by
  obtain ⟨r, hr, hissued⟩ := Outcome.total.mp ((h.kmalloc_issued hstart hpos hsize).imp hnone)
  refine ⟨r, hr, fun hr0 => ?_⟩
  obtain ⟨i, slab, hbuffer, hissued⟩ := hissued hr0
  refine ⟨i, slab, hbuffer, fun later hlater hspares => ?_⟩
  obtain ⟨w', hrun, hw'⟩ := Outcome.total.mp ((hissued.run hlater hspares).imp hnone)
  exact ⟨w', hrun, hw'.kfree⟩

/-- **Routing.** From a region that starts on a page, in every state that proper calls reach, buffers for
at most `2 ^ 15` bytes come from the cache for their size and go back there, and the calls return,
exactly up to `2 ^ 13` blocks. -/
theorem kmalloc_routes {space : ℕ} {n : ℤ} (h1 : 1 ≤ n) (hn : order n < maxOrderLimit)
    (hpos : 0 < space) (hpage : space % blockSize = 0) (hfit : addr space (8 * n.toNat) < 2 ^ 64)
    (memory : Kmem) :
    ∃ k, kmemInit space n memory.zeroed = .ok k ∧
      (Always k (fun w => ∀ size, 1 ≤ size → size ≤ 2 ^ 15 → Routes w size) ↔ n ≤ 2 ^ 13) :=
  always_iff h1 hn hpos hfit memory fun hstart hnone hw _ hone hle =>
    hw.routes hnone (hstart ▸ hpage) hone hle

theorem kmalloc_routes_boot : ∃ k, kmemInit bootRegion.start 1024 blank.zeroed = .ok k ∧
      ∃ w, calls.run ⟨k, [], []⟩ sampleCalls = .ok w ∧ Routes w 100 ∧
        ∃ r, kmalloc 100 w.kmem = .ok r ∧ r.1 ≠ 0 := by
  obtain ⟨k, hk, hproper, w, hrun, -, -, -, hbuffer⟩ := sampleCalls_run
  obtain ⟨k', hk', hiff⟩ := @kmalloc_routes bootRegion.start 1024 (by decide) (by decide)
    (by decide) (by decide) (by decide) blank
  cases hk.symm.trans hk'
  exact ⟨k, hk, w, hrun, (hiff.mpr (by decide) w ⟨_, hproper, hrun⟩).1 100 (by decide) (by decide), hbuffer⟩

/-- With `16384` blocks calls reach a state in which `kmalloc` itself reads `free_list[15]`. -/
theorem kmalloc_leaves_array :
    ∃ k, kmemInit 0x80000000 16384 blank.zeroed = .ok k ∧ ∃ w, calls.Reaches ⟨k, [], []⟩ w ∧
      kmalloc 32 w.kmem = .error (.outOfBounds 15) := by
  obtain ⟨k, hk, w, hreach, _, hfails⟩ := @accepted_exhausts 0x80000000 16384 (by decide)
    (by decide) (by decide) (by decide) blank (by decide)
  exact ⟨k, hk, w, hreach, hfails⟩

end Xv6.Slab
