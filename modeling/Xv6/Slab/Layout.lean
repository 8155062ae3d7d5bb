import Mathlib.Algebra.Order.Ring.Nat
import Xv6.Slab.Model

/-! Sizes and layout.

A slab is `2 ^ j` blocks, `j ≤ 4` (`calculateSlabSize_eq`). Its header is followed
by `capacity` slots of `aligned_size` bytes, each an object header and the object,
all inside the slab and apart from each other. The size class of a buffer is the
power of two that `round_up_pow2` finds (`roundUpPow2_eq`). -/
namespace Xv6.Slab
open Buddy (blockSize)

/-! ### Slab sizes -/

theorem slabSizeLoop_eq (size : ℕ) {n j fuel : ℕ} (hj : j + n = 4) (hf : n < fuel) :
    ∃ i ≤ 4, slabSizeLoop size fuel (2 ^ j) = .ok (2 ^ i) := by
  induction n generalizing j fuel with
  | zero =>
    obtain ⟨f, rfl⟩ := Nat.exists_eq_add_one.mpr hf
    obtain rfl : j = 4 := hj
    exact ⟨4, le_rfl, rfl⟩
  | succ n ih =>
    obtain ⟨f, rfl⟩ := Nat.exists_eq_add_one.mpr (Nat.zero_lt_of_lt hf)
    unfold slabSizeLoop
    split
    · split
      · exact ⟨j, by omega, rfl⟩
      · rw [← pow_succ]
        exact ih (by omega) (by omega)
    · exact ⟨j, by omega, rfl⟩

theorem calculateSlabSize_eq (size : ℕ) : ∃ j ≤ 4, calculateSlabSize size = .ok (2 ^ j) :=
  slabSizeLoop_eq size (n := 4) (j := 0) rfl (by unfold loopFuel; omega)

theorem slabSizeLoop_room (size : ℕ) {fuel b blocks : ℕ} (h : slabSizeLoop size fuel b = .ok blocks) :
    8 ≤ objectsPerSlab size (blocks * blockSize) ∨ 16 ≤ blocks := by
  induction fuel generalizing b with
  | zero => cases h
  | succ fuel ih =>
    unfold slabSizeLoop at h
    split at h
    · split at h
      · cases h
        exact .inl ‹_›
      · exact ih h
    grind

/-- The largest objects of which one fits in a slab. -/
def maxObjectSize : ℕ := 16 * blockSize - sizeofSlab - sizeofObject

theorem objectsPerSlab_pos {size blocks : ℕ} (hsize : size ≤ maxObjectSize)
    (h : calculateSlabSize size = .ok blocks) : 0 < objectsPerSlab size (blocks * blockSize) := by
  rcases slabSizeLoop_room size h with hroom | hblocks
  · omega
  · refine Nat.div_pos ?_ (Nat.add_pos_right _ (by decide))
    unfold maxObjectSize sizeofSlab sizeofObject blockSize at *
    omega

/-! ### Slots -/

/-- A descriptor that `kmem_cache_create` has filled in. -/
structure Descriptor (d : KmemCache) : Prop where
  valid : d.errorDetection = slabErrDetect
  size_pos : 0 < d.objectSize
  size_le : d.objectSize ≤ maxBufferSize
  aligned : d.alignedSize = d.objectSize + sizeofObject
  slabSize : calculateSlabSize d.objectSize = .ok d.slabSize
  numGrown : d.numGrown < 2 ^ 32

def slabBytes (d : KmemCache) : ℕ := d.slabSize * blockSize

def capacity (d : KmemCache) : ℕ := objectsPerSlab d.objectSize (slabBytes d)

/-- The header of object `i` of the slab at `s`. -/
def slot (d : KmemCache) (s i : ℕ) : ℕ := s + sizeofSlab + i * d.alignedSize

def slots (d : KmemCache) (s : ℕ) : List ℕ := (List.range (capacity d)).map (slot d s)

variable {d d' : KmemCache} {s x y : ℕ}

theorem mem_slots : x ∈ slots d s ↔ ∃ i < capacity d, slot d s i = x := by
  simp [slots]

@[simp] theorem length_slots : (slots d s).length = capacity d := by
  simp [slots]

namespace Descriptor

section
variable (h : Descriptor d)
include h

theorem blocks : ∃ j ≤ 4, d.slabSize = 2 ^ j := by
  obtain ⟨j, hj, hb⟩ := calculateSlabSize_eq d.objectSize
  exact ⟨j, hj, Except.ok.inj (h.slabSize.symm.trans hb)⟩

theorem slabSize_le : d.slabSize ≤ 16 := by
  obtain ⟨j, hj, hb⟩ := h.blocks
  rw [hb]
  exact Nat.pow_le_pow_right (n := 2) (by decide) hj

theorem slabSize_pos : 0 < d.slabSize := by
  grind [Descriptor.blocks]

theorem capacity_pos (hsize : d.objectSize ≤ maxObjectSize) : 0 < capacity d :=
  objectsPerSlab_pos hsize h.slabSize

theorem capacity_fits : sizeofSlab + capacity d * d.alignedSize ≤ slabBytes d := by
  have hdiv := Nat.div_mul_le_self (slabBytes d - sizeofSlab) (d.objectSize + sizeofObject)
  have hpos := h.slabSize_pos
  rw [h.aligned]
  unfold capacity objectsPerSlab
  unfold slabBytes blockSize sizeofSlab at *
  omega

theorem capacity_lt : capacity d < 2 ^ 16 := by
  have hfit := h.capacity_fits
  have hsize := h.slabSize_le
  have hle : capacity d * 1 ≤ capacity d * d.alignedSize :=
    Nat.mul_le_mul_left _ (by have := h.size_pos; have := h.aligned; omega)
  unfold slabBytes blockSize sizeofSlab at hfit
  omega

theorem header_fits : sizeofSlab ≤ slabBytes d := by
  have := h.slabSize_pos
  unfold sizeofSlab slabBytes blockSize
  omega

theorem slot_bounds (hx : x ∈ slots d s) :
    s + sizeofSlab ≤ x ∧ x + d.alignedSize ≤ s + slabBytes d := by
  obtain ⟨i, hi, rfl⟩ := mem_slots.mp hx
  have hfit := h.capacity_fits
  have hmul : (i + 1) * d.alignedSize ≤ capacity d * d.alignedSize := Nat.mul_le_mul_right _ hi
  rw [Nat.add_mul, one_mul] at hmul
  unfold slot
  omega

end

theorem slot_apart (hx : x ∈ slots d s) (hy : y ∈ slots d s) (hne : x ≠ y) :
    x + d.alignedSize ≤ y ∨ y + d.alignedSize ≤ x := by
  obtain ⟨i, _, rfl⟩ := mem_slots.mp hx
  obtain ⟨j, _, rfl⟩ := mem_slots.mp hy
  have hstep : ∀ {a b : ℕ}, a < b → slot d s a + d.alignedSize ≤ slot d s b := by
    intro a b hab
    have hmul : (a + 1) * d.alignedSize ≤ b * d.alignedSize := Nat.mul_le_mul_right _ hab
    rw [Nat.add_mul, one_mul] at hmul
    unfold slot
    omega
  rcases Nat.lt_trichotomy i j with hij | rfl | hij
  · exact .inl (hstep hij)
  · exact absurd rfl hne
  · exact .inr (hstep hij)

theorem slot_injective (h : Descriptor d) (s : ℕ) : Function.Injective (slot d s) := by
  intro i j hij
  have hpos : 0 < d.alignedSize := by
    have := h.size_pos
    have := h.aligned
    omega
  unfold slot at hij
  exact Nat.eq_of_mul_eq_mul_right hpos (by omega)

theorem nodup_slots (h : Descriptor d) (s : ℕ) : (slots d s).Nodup :=
  List.nodup_range.map (h.slot_injective s)

end Descriptor

/-! ### Size classes -/

/-- The size of the buffers in `buffer_caches[i]`. -/
def classSize (i : ℕ) : ℕ := minBufferSize * 2 ^ i

theorem classSize_succ (i : ℕ) : classSize (i + 1) = classSize i * 2 := by
  unfold classSize
  rw [pow_succ, mul_assoc]

theorem classSize_le {i : ℕ} (hi : i < numBufferCaches) : classSize i ≤ maxBufferSize := by
  have hpow : 2 ^ i ≤ 2 ^ 12 := Nat.pow_le_pow_right (by decide) (Nat.le_of_lt_succ hi)
  unfold classSize minBufferSize maxBufferSize
  omega

theorem roundUpPow2Loop_eq (fuel : ℕ) {size n j : ℕ} (hsize : size ≤ maxBufferSize)
    (hj : j + n = numBufferCaches - 1) (hf : n < fuel) (hbelow : ∀ a < j, classSize a < size) :
    ∃ i < numBufferCaches, roundUpPow2Loop size fuel (classSize j) = .ok (classSize i) ∧
      size ≤ classSize i ∧ ∀ a < i, classSize a < size := by
  have hlt : j < numBufferCaches := by unfold numBufferCaches at *; omega
  obtain ⟨f, rfl⟩ := Nat.exists_eq_add_one.mpr (Nat.zero_lt_of_lt hf)
  induction n generalizing j f with
  | zero =>
    obtain rfl : j = numBufferCaches - 1 := hj
    have hle : size ≤ classSize (numBufferCaches - 1) := hsize
    refine ⟨_, hlt, ?_, hle, hbelow⟩
    unfold roundUpPow2Loop
    rw [if_neg fun hc => hle.not_gt hc.1]
  | succ n ih =>
    unfold roundUpPow2Loop
    by_cases hless : classSize j < size
    · obtain ⟨g, rfl⟩ := Nat.exists_eq_succ_of_ne_zero (show f ≠ 0 by omega)
      rw [if_pos ⟨hless, classSize_le hlt⟩, ← classSize_succ]
      refine ih (by omega) (fun a ha => ?_) (by unfold numBufferCaches at *; omega) g (by omega)
      grind
    · exact ⟨j, hlt, if_neg fun hc => hless hc.1, not_lt.mp hless, hbelow⟩

theorem bufferCacheIndexLoop_eq {i n j fuel : ℕ} (hj : j + n = i) (hi : i < numBufferCaches)
    (hf : n < fuel) : bufferCacheIndexLoop (classSize i) fuel (classSize j) j = .ok i := by
  induction n generalizing j fuel with
  | zero =>
    obtain ⟨f, rfl⟩ := Nat.exists_eq_add_one.mpr hf
    obtain rfl : j = i := hj
    exact if_neg fun hc => Nat.lt_irrefl _ hc.1
  | succ n ih =>
    obtain ⟨f, rfl⟩ := Nat.exists_eq_add_one.mpr (Nat.zero_lt_of_lt hf)
    have hless : classSize j < classSize i := by
      have hpow : 2 ^ j < 2 ^ i := Nat.pow_lt_pow_right (by decide) (by omega)
      unfold classSize minBufferSize
      omega
    unfold bufferCacheIndexLoop
    rw [if_pos ⟨hless, by omega⟩, ← classSize_succ]
    exact ih (by omega) (by omega)

/-- Every size that `kmalloc` accepts is rounded up to the least size class for it, and the index
of that class is the one `get_buffer_cache_index` finds. -/
theorem roundUpPow2_eq {size : ℕ} (hsize : size ≤ maxBufferSize) :
    ∃ i < numBufferCaches, roundUpPow2 size = .ok (classSize i) ∧ size ≤ classSize i ∧
      (∀ a < i, classSize a < size) ∧ getBufferCacheIndex (classSize i) = .ok i := by
  obtain ⟨i, hi, hround, hle, hleast⟩ := roundUpPow2Loop_eq loopFuel (j := 0) (n := 12) hsize rfl
    (by unfold loopFuel; omega) nofun
  refine ⟨i, hi, hround, hle, hleast, ?_⟩
  refine bufferCacheIndexLoop_eq (n := i) (j := 0) (Nat.zero_add i) hi ?_
  unfold numBufferCaches at hi
  unfold loopFuel
  omega

end Xv6.Slab
