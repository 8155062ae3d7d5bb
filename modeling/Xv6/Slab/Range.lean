import Xv6.Slab.Frame
import Xv6.Slab.Safety

/-! The sizes that `kmalloc` serves.

A slab has at most 16 blocks, so that one of objects above `maxObjectSize` bytes has none, and a
cache for buffers of `2 ^ 16` bytes or more never gives one out (`kmalloc_out_of_range`). Up to
`2 ^ 15` bytes `kmalloc` returns null only when the buddy allocator has (`kmalloc_in_range`). What its
`buddy_alloc` calls return is computed beside it (`kmallocAnswers`). -/
namespace Xv6.Slab
open Buddy (Arena addr blockSize maxOrderLimit order bootRegion)

/-! ### What `buddy_alloc` returns -/

/-- What the `buddy_alloc` calls of `kmem_cache_create` return, and the buddy allocator after them. -/
def createAnswers (size : ℕ) (b : Buddy.State) : Result (List ℕ × Buddy.State) := do
  let (cache, b) ← Buddy.buddyAlloc 1 b
  if cache = 0 then return ([cache], b)
  let slabSize ← calculateSlabSize size
  let (slab, b) ← Buddy.buddyAlloc slabSize b
  return ([cache, slab], b)

/-- The same for `kmem_cache_alloc`. -/
def allocAnswers (cachep : ℕ) (k : Kmem) : Result (List ℕ × Buddy.State) :=
  if (k.caches cachep).slabs .slabsPartial ≠ 0 ∨ (k.caches cachep).slabs .slabsEmpty ≠ 0 then
    .ok ([], k.buddy)
  else do
    let (slab, b) ← Buddy.buddyAlloc (k.caches cachep).slabSize k.buddy
    return ([slab], b)

/-- The same for the cache that `kmalloc` makes when there is none. -/
def ensureAnswers (roundedSize index : ℕ) (k : Kmem) : Result (List ℕ × Buddy.State) :=
  if k.bufferCaches index = 0 then createAnswers roundedSize k.buddy else .ok ([], k.buddy)

/-- The same for `kmalloc` of a size that it accepts. -/
def kmallocAnswers (size : ℕ) (k : Kmem) : Result (List ℕ × Buddy.State) := do
  let roundedSize ← roundUpPow2 size
  let index ← getBufferCacheIndex roundedSize
  let (first, b) ← ensureAnswers roundedSize index k
  let k ← ensureBufferCache roundedSize index k
  if k.bufferCaches index = 0 then return (first, b)
  let (second, b) ← allocAnswers (k.bufferCaches index) k
  return (first ++ second, b)

section
variable {k : Kmem} {c s x a n : ℕ} {l l' : SlabList} {name : List Char} {size ctor dtor : ℕ}

theorem linkObjects_buddy : (linkObjects s x a n k).buddy = k.buddy := by
  induction n generalizing k with
  | zero => rfl
  | succ n ih => exact ih

theorem initSlab_buddy : (initSlab c s k).buddy = k.buddy := linkObjects_buddy

theorem takeObject_buddy : (takeObject c s k).buddy = k.buddy := by
  have hmove : ∀ {k l l'}, (moveSlab c l l' s k).buddy = k.buddy := by
    intro k l l'
    rw [moveSlab, addSlabToList_eq, removeSlabFromList_eq]
    rfl
  have hpop : (popObject c s k).buddy = k.buddy := rfl
  grind [takeObject]

theorem kmemCacheGrow_answer : Returns (kmemCacheGrow c k) fun r => ∃ slab,
      Buddy.buddyAlloc (k.caches c).slabSize k.buddy = .ok (slab, r.2.buddy) ∧ (r.1 < 0 → slab = 0) := by
  unfold kmemCacheGrow kmemSlabCreate
  rw [bind_assoc]
  cases Buddy.buddyAlloc (k.caches c).slabSize k.buddy with
  | error e => trivial
  | ok r =>
    obtain ⟨slab, b⟩ := r
    by_cases h0 : slab = 0
    · simp only [ok_bind, if_pos h0, pure_bind, if_true]
      exact ⟨slab, rfl, fun _ => h0⟩
    · simp only [ok_bind, if_neg h0, pure_bind]
      refine ⟨slab, congrArg _ (congrArg _ ?_), fun hneg => absurd hneg (lt_irrefl 0)⟩
      show b = (addSlabToList c .slabsEmpty slab (initSlab c slab {k with buddy := b})).buddy
      rw [addSlabToList_eq]
      exact (initSlab_buddy (c := c) (s := slab) (k := {k with buddy := b})).symm

theorem selectSlab_answer :
    Returns (selectSlab c k) fun r => ∃ as, allocAnswers c k = .ok (as, r.2.buddy) ∧ (r.1 = none → 0 ∈ as) := by
  unfold selectSlab allocAnswers
  by_cases hp : (k.caches c).slabs .slabsPartial ≠ 0
  · rw [if_pos hp, if_pos (.inl hp)]
    exact ⟨[], rfl, nofun⟩
  by_cases he : (k.caches c).slabs .slabsEmpty ≠ 0
  · rw [if_neg hp, if_pos he, if_pos (.inr he)]
    exact ⟨[], rfl, nofun⟩
  rw [if_neg hp, if_neg he, if_neg (not_or.mpr ⟨hp, he⟩)]
  refine kmemCacheGrow_answer.bind ?_
  rintro ⟨grown, k'⟩ ⟨slab, hslab, hfail⟩
  rw [hslab]
  dsimp only
  split
  · rename_i hneg
    exact ⟨[slab], rfl, fun _ => hfail hneg ▸ List.mem_singleton_self _⟩
  · exact ⟨[slab], rfl, nofun⟩

theorem kmemCacheCreate_answer (hinit : k.allocatorInitialized = true) (h0 : size ≠ 0)
    (hle : size ≤ maxBufferSize) :
    Returns (kmemCacheCreate name size ctor dtor k) fun r => ∃ as,
      createAnswers size k.buddy = .ok (as, r.2.buddy) ∧ (r.1 = 0 → 0 ∈ as) := by
  unfold kmemCacheCreate createAnswers
  rw [if_neg (by rw [hinit]; decide), if_neg (by omega)]
  cases Buddy.buddyAlloc 1 k.buddy with
  | error e => trivial
  | ok r =>
    obtain ⟨cache, b⟩ := r
    simp only [ok_bind]
    by_cases hcache : cache = 0
    · rw [if_pos hcache, if_pos hcache]
      exact ⟨[cache], rfl, fun _ => hcache ▸ List.mem_singleton_self _⟩
    rw [if_neg hcache, if_neg hcache]
    obtain ⟨j, _, hcalc⟩ := calculateSlabSize_eq size
    rw [hcalc, ok_bind, ok_bind]
    refine kmemCacheGrow_answer.bind ?_
    rintro ⟨grown, k'⟩ ⟨slab, hslab, -⟩
    simp only [Kmem.setCache, Function.update_self, initCache] at hslab
    rw [hslab]
    exact ⟨_, rfl, fun hnull => absurd hnull hcache⟩

end

/-! ### When null is returned -/

namespace Good

variable {A : Arena} {k : Kmem} {H : Heap} {c s : ℕ} {live : List Live} {l : SlabList}

theorem freeList_eq_zero_iff (h : Good A k H live) (hc : c ∈ H.caches)
    (hl : l ≠ .slabsFull) (hs : s ∈ (H.pool c).lists l) :
    k.slabs.freeList s = 0 ↔ capacity (k.caches c) = 0 := by
  have hsl : s ∈ (H.pool c).slabs := Pool.mem_slabs.mpr ⟨l, hs⟩
  have hcr := h.rep.cache c hc
  have hlist := h.rep.settled c hc l s hs (hcr.ne_zero hsl)
  have hslab := hcr.slab s hsl
  have hchain := hslab.chain
  have hle := hslab.length_le
  cases hfree : (H.pool c).free s with
  | nil =>
    rw [hfree] at hchain
    refine ⟨fun _ => ?_, fun _ => hchain⟩
    by_contra hcap
    grind [listOf_eq_slabsFull, List.length_nil]
  | cons x xs =>
    rw [hfree] at hchain hle
    refine ⟨fun hzero => absurd (hchain.1.symm.trans hzero) hchain.2.1, fun hcap => ?_⟩
    rw [hcap] at hle
    cases hle

theorem kmemCacheAlloc_answer (h : Good A k H live) (hc : c ∈ H.caches) :
    Outcome A.faults (Slab.kmemCacheAlloc c k) fun r => ∃ as, allocAnswers c k = .ok (as, r.2.buddy) ∧
      (capacity (k.caches c) ≠ 0 → r.1 = 0 → 0 ∈ as) ∧ (capacity (k.caches c) = 0 → r.1 = 0) := by
  unfold Slab.kmemCacheAlloc
  rw [if_neg (h.valid hc)]
  refine ((h.selectSlab hc).and selectSlab_answer).bind ?_
  rintro ⟨_ | s, k1⟩ ⟨⟨H1, h₁, hk1, hslab⟩, as, has, hnone⟩
  · exact ⟨as, has, fun _ _ => hnone rfl, fun _ => rfl⟩
  · obtain ⟨l, hl, hs⟩ := hslab s rfl
    have hc1 : c ∈ H1.caches := hk1.heap ▸ hc
    have hzero := h₁.freeList_eq_zero_iff hc1 hl hs
    have hs0 := (h₁.rep.cache c hc1).ne_zero (Pool.mem_slabs.mpr ⟨l, hs⟩)
    rw [hk1.cache.capacity] at hzero
    dsimp only
    split
    · rename_i hnull
      have hcap := hzero.mp (hnull.resolve_left hs0)
      exact ⟨as, has, fun hne => absurd hcap hne, fun _ => rfl⟩
    · rename_i hsome
      have hfree : k1.slabs.freeList s ≠ 0 := fun heq => hsome (.inr heq)
      refine ⟨as, has.trans (congrArg _ (congrArg _ takeObject_buddy.symm)), fun _ h0 => ?_, fun hcap => ?_⟩
      · exact absurd h0 (Nat.ne_of_gt (Nat.add_pos_right _ (by decide)))
      · exact absurd (hzero.mpr hcap) hfree

end Good

theorem Descriptor.capacity_pos_iff {d : KmemCache} (h : Descriptor d) :
    1 ≤ capacity d ↔ d.objectSize ≤ maxObjectSize := by
  refine ⟨fun hcap => ?_, h.capacity_pos⟩
  by_contra hlarge
  have hsize := h.slabSize_le
  have hnone : capacity d = 0 := by
    refine Nat.div_eq_of_lt ?_
    unfold maxObjectSize slabBytes sizeofSlab sizeofObject blockSize at *
    omega
  omega

/-- `kmalloc` of `size` bytes returns null only if a `buddy_alloc` in it does, exactly when it is for at
most `2 ^ 15` bytes, or one does. -/
def NullOnlyFromBuddy (w : World) (size : ℕ) : Prop :=
  ∃ r as, kmalloc size w.kmem = .ok r ∧ kmallocAnswers size w.kmem = .ok (as, r.2.buddy) ∧
    ((r.1 = 0 → 0 ∈ as) ↔ size ≤ 2 ^ 15 ∨ 0 ∈ as)

namespace Tracks

variable {A : Arena} {w : World} {H : Heap} {size i : ℕ}

theorem ensureBufferCache_answer (h : Tracks A w H) (hi : i < numBufferCaches) :
    Returns (Slab.ensureBufferCache (classSize i) i w.kmem) fun k => ∃ as,
      ensureAnswers (classSize i) i w.kmem = .ok (as, k.buddy) ∧ (k.bufferCaches i = 0 → 0 ∈ as) := by
  have hpos : classSize i ≠ 0 := Nat.ne_of_gt (Nat.mul_pos (by decide) (Nat.two_pow_pos i))
  unfold Slab.ensureBufferCache ensureAnswers
  split
  · refine (kmemCacheCreate_answer h.initialized hpos (classSize_le hi)).bind ?_
    rintro ⟨cache, k'⟩ ⟨as, has, hnull⟩
    refine ⟨as, has, fun h0 => hnull ?_⟩
    exact (Function.update_self i cache k'.bufferCaches).symm.trans h0
  · rename_i hcache
    exact ⟨[], rfl, fun h0 => absurd h0 hcache⟩

theorem nullOnlyFromBuddy (h : Tracks A w H) (hnone : ∀ e, ¬ A.faults e) (hpos : 1 ≤ size)
    (hmax : size ≤ maxBufferSize) : NullOnlyFromBuddy w size := by
  obtain ⟨i, hi, hround, hclass, hleast, hindex⟩ := roundUpPow2_eq hmax
  -- The class has objects up to the one for `2 ^ 15` bytes.
  have hfits : size ≤ 2 ^ 15 ↔ classSize i ≤ maxObjectSize := by
    have hpow : classSize i = 2 ^ (i + 5) := by
      rw [classSize, minBufferSize, pow_add, mul_comm]
    have h16 : i ≤ 10 ↔ 2 ^ (i + 5) ≤ 2 ^ 15 := by
      rw [Nat.pow_le_pow_iff_right one_lt_two]
      omega
    have h17 : 11 ≤ i ↔ 2 ^ 16 ≤ 2 ^ (i + 5) := by
      rw [Nat.pow_le_pow_iff_right one_lt_two]
      omega
    have hsmall : 10 < i → 2 ^ 15 < size := hleast 10
    unfold maxObjectSize blockSize sizeofSlab sizeofObject
    omega
  obtain ⟨k, hk, ⟨H', h'⟩, first, hfirst, hnull⟩ :=
    Outcome.total.mp ((h.ensureBufferCache.and (h.ensureBufferCache_answer hi)).imp hnone)
  unfold NullOnlyFromBuddy Slab.kmalloc kmallocAnswers
  simp only [if_neg (h.kmalloc_accepts hpos hmax), hround, hindex, ok_bind, hfirst, hk]
  by_cases hcache : k.bufferCaches i = 0
  · simp only [if_pos hcache]
    have h0 := hnull hcache
    exact ⟨_, first, rfl, rfl, fun _ => .inr h0, fun _ _ => h0⟩
  · simp only [if_neg hcache]
    obtain ⟨hmem, _, hobj⟩ := h'.buffers i hi hcache
    have hcap := (h'.good.rep.cache _ hmem).descriptor.capacity_pos_iff
    rw [hobj, ← hfits] at hcap
    obtain ⟨r, hr, second, hsecond, hsome, hzero⟩ :=
      Outcome.total.mp ((h'.good.kmemCacheAlloc_answer hmem).imp hnone)
    rw [hr, hsecond]
    refine ⟨r, first ++ second, rfl, rfl, fun honly => ?_, fun hor h0 => ?_⟩
    · by_cases hsize : size ≤ 2 ^ 15
      · exact .inl hsize
      · exact .inr (honly (hzero (by omega)))
    · rcases hor with hsize | hin
      · exact List.mem_append_right _ (hsome (by omega) h0)
      · exact hin

end Tracks

/-- **The range of `kmalloc`.** In every state that proper calls reach, `kmalloc` of a size that it
accepts returns null only if a `buddy_alloc` in it did, when the size is at most `2 ^ 15` and only
then; and a slab of a cache has an object exactly for objects of at most `maxObjectSize` bytes. That is
so, and the calls return, exactly up to `2 ^ 13` blocks. -/
theorem kmalloc_in_range {space : ℕ} {n : ℤ} (h1 : 1 ≤ n) (hn : order n < maxOrderLimit)
    (hpos : 0 < space) (hfit : addr space (8 * n.toNat) < 2 ^ 64) (memory : Kmem) :
    ∃ k, kmemInit space n memory.zeroed = .ok k ∧ (Always k (fun w =>
        (∀ size, 1 ≤ size → size ≤ maxBufferSize → NullOnlyFromBuddy w size) ∧
        ∀ c, w.InUse c →
          (1 ≤ objectsPerSlab (w.kmem.caches c).objectSize ((w.kmem.caches c).slabSize * blockSize) ↔
            (w.kmem.caches c).objectSize ≤ maxObjectSize)) ↔ n ≤ 2 ^ 13) :=
  always_iff h1 hn hpos hfit memory fun _ hnone hw =>
    ⟨fun _ hsize hle => hw.nullOnlyFromBuddy hnone hsize hle, fun c hc =>
      (hw.good.rep.cache c (hw.inUse hc)).descriptor.capacity_pos_iff⟩

theorem kmalloc_in_range_boot : ∃ k, kmemInit bootRegion.start 1024 blank.zeroed = .ok k ∧
      ∃ w, calls.run ⟨k, [], []⟩ sampleCalls = .ok w ∧ NullOnlyFromBuddy w (2 ^ 15) ∧
        NullOnlyFromBuddy w (2 ^ 16) := by
  obtain ⟨k, hk, hproper, w, hrun, -⟩ := sampleCalls_run
  obtain ⟨k', hk', hiff⟩ := @kmalloc_in_range bootRegion.start 1024 (by decide) (by decide)
    (by decide) (by decide) blank
  cases hk.symm.trans hk'
  obtain ⟨⟨hnull, -⟩, -⟩ := hiff.mpr (by decide) w ⟨_, hproper, hrun⟩
  exact ⟨k, hk, w, hrun, hnull _ (by decide) (by decide), hnull _ (by decide) (by decide)⟩

/-- After booting, `kmalloc` of `2 ^ 16` bytes gets a page for the descriptor and 16 blocks for a
slab, in which no object fits, and returns null. -/
theorem kmalloc_out_of_range : ∃ k, kmemInit bootRegion.start 1024 blank.zeroed = .ok k ∧
      (∃ r, kmalloc (2 ^ 16) k = .ok r ∧ r.1 = 0) ∧
      (∃ r, kmallocAnswers (2 ^ 16) k = .ok r ∧ r.1.length = 2 ∧ 0 ∉ r.1) ∧
      calculateSlabSize (2 ^ 16) = .ok 16 ∧ objectsPerSlab (2 ^ 16) (16 * blockSize) = 0 := by
  decide +kernel

end Xv6.Slab
