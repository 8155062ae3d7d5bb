import Xv6.Blocks.Tiles
import Xv6.Linked.Circular
import Xv6.Umalloc.Model

/-! The heap as a list of blocks.

`Laid base h F U`: the blocks `F` are on the free list, in order of address behind `base`, the
blocks `U` are in use, and together they make up what `morecore` was given. No free block ends
where another starts. `free` finds the free block in front (`Laid.freeLoop`), joins the block
with the one behind (`Laid.joinUpper`) and then with the one in front (`Placed.joinLower`). -/
namespace Xv6.Umalloc
open Finset (mem_insert mem_union_left mem_of_mem_erase mem_filter mem_insert_self mem_union_right
  disjoint_left erase_subset mem_insert_of_mem)

open Function
open Linked (Circular distance)
open Blocks (Tiles)

variable {base bp p : ℕ} {h h' : Heap} {F U V : Finset ℕ}

def Heap.memory (h : Heap) : Set ℕ := {m | ∃ r ∈ h.obtained, r.1 ≤ m ∧ m < r.1 + sizeofHeader * r.2}

def Heap.headers (h : Heap) : ℕ := (h.obtained.map Prod.snd).sum

/-- The memory is cut into blocks, each free or in use, and no two free ones are neighbours. -/
structure Cut (base : ℕ) (h : Heap) (F U : Finset ℕ) : Prop where
  baseSize : h.size base = 0
  above : ∀ b ∈ F ∪ U, base + sizeofHeader ≤ b
  disjoint : Disjoint F U
  tiles : Tiles sizeofHeader (F ∪ U) h.size h.memory
  coalesced : ∀ b ∈ F, b + sizeofHeader * h.size b ∉ F
  sum : ∑ b ∈ F ∪ U, h.size b = h.headers
  small : h.headers < 2 ^ 32
  below : ∀ m ∈ h.memory, m < h.top base
  high : base + sizeofHeader ≤ h.top base

/-- The free blocks are on the list, and `freep` is. -/
structure Laid (base : ℕ) (h : Heap) (F U : Finset ℕ) : Prop extends Cut base h F U where
  circular : Circular h.ptr (insert base F)
  freep : h.freep ∈ insert base F

/-- The sizes of some blocks and the memory of the heap stay the same. -/
structure Frame (V : Finset ℕ) (h h' : Heap) : Prop where
  size : ∀ u ∈ V, h'.size u = h.size u
  obtained : h'.obtained = h.obtained

theorem Frame.trans {h'' : Heap} (h1 : Frame V h h') (h2 : Frame V h' h'') : Frame V h h'' :=
  ⟨fun u hu => (h2.size u hu).trans (h1.size u hu), h2.obtained.trans h1.obtained⟩

theorem Frame.memory (hf : Frame V h h') : h'.memory = h.memory := by
  unfold Heap.memory
  rw [hf.obtained]

theorem Frame.headers (hf : Frame V h h') : h'.headers = h.headers := by
  unfold Heap.headers
  rw [hf.obtained]

theorem Frame.top (hf : Frame V h h') : h'.top base = h.top base := by
  unfold Heap.top
  rw [hf.obtained]

theorem headerPos : 0 < sizeofHeader := by decide

namespace Cut

section
variable (hc : Cut base h F U)
include hc

theorem base_notMem : base ∉ F ∪ U := fun hb =>
  absurd (hc.above base hb) (Nat.not_le_of_gt (Nat.lt_add_of_pos_right headerPos))

theorem base_lt {b : ℕ} (hb : b ∈ F ∪ U) : base < b :=
  Nat.lt_of_lt_of_le (Nat.lt_add_of_pos_right headerPos) (hc.above b hb)

theorem base_le {b : ℕ} (hb : b ∈ insert base F) : base ≤ b := by
  rcases mem_insert.mp hb with rfl | hb
  · exact le_rfl
  · exact (hc.base_lt (mem_union_left _ hb)).le

theorem uint32_add {a b : ℕ} (ha : a ∈ F ∪ U) (hb : b ∈ F ∪ U) (hne : a ≠ b) :
    uint32 (h.size a + h.size b) = h.size a + h.size b := by
  have hle : h.size a + h.size b ≤ ∑ c ∈ F ∪ U, h.size c := Tiles.add_size_le_sum ha hb hne
  grind [Cut.small, Cut.sum, uint32_of_lt]

theorem card_lt : F.card < 2 ^ 32 := by
  have hle := hc.tiles.card_le_sum
  rw [hc.sum] at hle
  exact ((Finset.card_le_card Finset.subset_union_left).trans hle).trans_lt hc.small

theorem distance_lt (q a : ℕ) : distance (insert base F) q a < 2 ^ 34 := by
  have hle := Linked.distance_le (insert base F) q a
  have hcard := Finset.card_insert_le base F
  have hlt := hc.card_lt
  omega

theorem end_le {b : ℕ} (hb : b ∈ F ∪ U) :
    b < h.top base ∧ b + sizeofHeader * h.size b ≤ h.top base := by
  have hpos := Nat.mul_pos headerPos (hc.tiles.pos b hb)
  have hfirst := hc.below b ((hc.tiles.cover _).mpr ⟨b, hb, le_rfl, by omega⟩)
  have hlast := hc.below (b + sizeofHeader * h.size b - 1)
    ((hc.tiles.cover _).mpr ⟨b, hb, by omega, by omega⟩)
  omega

end

end Cut

theorem Cut.recut {F' U' : Finset ℕ} (hc : Cut base h F U) (hframe : Frame (F ∪ U) h h')
    (hbase : h'.size base = 0) (hB : F' ∪ U' = F ∪ U) (hdisj : Disjoint F' U')
    (hco : ∀ b ∈ F', b + sizeofHeader * h'.size b ∉ F') : Cut base h' F' U' where
  baseSize := hbase
  above := by
    rw [hB]
    exact hc.above
  disjoint := hdisj
  tiles := by
    rw [hB, hframe.memory]
    exact hc.tiles.congr hframe.size
  coalesced := hco
  sum := by
    rw [hB, hframe.headers, Finset.sum_congr rfl hframe.size]
    exact hc.sum
  small := by
    rw [hframe.headers]
    exact hc.small
  below := by
    rw [hframe.memory, hframe.top]
    exact hc.below
  high := by
    rw [hframe.top]
    exact hc.high

theorem Cut.merge {F' U' : Finset ℕ} {a b : ℕ} (hc : Cut base h F U) (ha : a ∈ F ∪ U) (hb : b ∈ F ∪ U)
    (hne : a ≠ b) (hadj : a + sizeofHeader * h.size a = b)
    (hsize : h'.size = update h.size a (uint32 (h.size a + h.size b)))
    (hobtained : h'.obtained = h.obtained) (hB : F' ∪ U' = (F ∪ U).erase b) (hdisj : Disjoint F' U')
    (hco : ∀ b ∈ F', b + sizeofHeader * h'.size b ∉ F') : Cut base h' F' U' := by
  have hframe : Frame ∅ h h' := ⟨fun u hu => absurd hu (Finset.notMem_empty u), hobtained⟩
  have hsum : h'.size a = h.size a + h.size b := by
    rw [hsize, update_self, hc.uint32_add ha hb hne]
  have hsame : ∀ c ∈ F ∪ U, c ≠ a → c ≠ b → h'.size c = h.size c := by
    intro c _ hca _
    rw [hsize, update_of_ne hca]
  refine ⟨?_, ?_, hdisj, ?_, hco, ?_, ?_, ?_, ?_⟩
  · rw [hsize, update_of_ne (hc.base_lt ha).ne]
    exact hc.baseSize
  · intro c hcB
    rw [hB] at hcB
    exact hc.above c (mem_of_mem_erase hcB)
  · rw [hB, hframe.memory]
    exact hc.tiles.merge ha hb hadj hsum hsame hne
  · rw [hB, hframe.headers, ← hc.sum]
    exact Tiles.sum_merge ha hb hsum hsame hne
  · rw [hframe.headers]
    exact hc.small
  · rw [hframe.memory, hframe.top]
    exact hc.below
  · rw [hframe.top]
    exact hc.high

theorem Cut.merge_end {a b : ℕ} (hc : Cut base h F U) (ha : a ∈ F ∪ U) (hb : b ∈ F ∪ U) (hne : a ≠ b)
    (hadj : a + sizeofHeader * h.size a = b) :
    a + sizeofHeader * uint32 (h.size a + h.size b) = b + sizeofHeader * h.size b := by
  rw [hc.uint32_add ha hb hne, Nat.mul_add, ← Nat.add_assoc, hadj]

/-! ### The place of a block -/

theorem exists_before (F : Finset ℕ) (hlt : base < bp) :
    ∃ q ∈ insert base F, q < bp ∧ ∀ c ∈ insert base F, c < bp → c ≤ q := by
  have hne : ((insert base F).filter (· < bp)).Nonempty :=
    ⟨base, mem_filter.mpr ⟨mem_insert_self .., hlt⟩⟩
  obtain ⟨hmem, hq⟩ := mem_filter.mp (Finset.max'_mem _ hne)
  exact ⟨_, hmem, hq, fun c hc hcb => Finset.le_max' _ c (mem_filter.mpr ⟨hc, hcb⟩)⟩

section
variable (hl : Laid base h F U)
include hl

/-- Where `p` is linked to a larger address than `bp`, or back to `base`, nothing on the list is
between `p` and `bp`. -/
theorem Laid.gap (hp : p ∈ insert base F)
    (hnext : bp < h.ptr p ∨ h.ptr p ≤ p) : ∀ c ∈ insert base F, c ≤ p ∨ bp < c := by
  intro c hc
  rcases (hl.circular p hp).2 with ⟨hup, hbetween⟩ | ⟨hmax, _⟩
  · exact (hbetween c hc).imp_right fun hle => by omega
  · exact .inl (hmax c hc)

theorem Laid.freeLoop (hbp : bp ∈ U) (fuel : ℕ)
    (hp : p ∈ insert base F) (q : ℕ) (hq : q ∈ insert base F) (hqlt : q < bp)
    (hqmax : ∀ c ∈ insert base F, c < bp → c ≤ q) (hfuel : distance (insert base F) q p < fuel) :
    ∃ p', freeLoop h bp fuel p = .ok p' ∧ p' ∈ insert base F ∧ p' < bp ∧
      ∀ c ∈ insert base F, c ≤ p' ∨ bp < c := by
  induction fuel generalizing p with
  | zero => exact absurd hfuel (Nat.not_lt_zero _)
  | succ fuel ih =>
    unfold Umalloc.freeLoop
    by_cases hin : bp > p ∧ bp < h.ptr p
    · rw [if_pos hin]
      exact ⟨p, rfl, hp, hin.1, hl.gap hp (.inl hin.2)⟩
    rw [if_neg hin]
    by_cases hwrap : p ≥ h.ptr p ∧ (bp > p ∨ bp < h.ptr p)
    · rw [if_pos hwrap]
      obtain ⟨hback, hor⟩ := hwrap
      -- The link back leads to `base`, which is below every block.
      have hbase : h.ptr p ≤ base := by
        rcases (hl.circular p hp).2 with ⟨hup, _⟩ | ⟨_, hmin⟩
        · exact absurd hup (Nat.not_lt_of_ge hback)
        · exact hmin base (mem_insert_self ..)
      have hlt : p < bp := by
        have := hl.base_lt (mem_union_right _ hbp)
        omega
      exact ⟨p, rfl, hp, hlt, hl.gap hp (.inr hback)⟩
    rw [if_neg hwrap]
    -- At the node in front the search would have ended.
    have hne : p ≠ q := by
      rintro rfl
      have hnot : bp ∉ insert base F := by
        intro hmem
        rcases mem_insert.mp hmem with heq | hF
        · exact hl.base_notMem (heq ▸ mem_union_right _ hbp)
        · exact disjoint_left.mp hl.disjoint hF hbp
      rcases lt_or_ge p (h.ptr p) with hup | hback
      · have hmem := hl.circular.mem hp
        grind
      · exact hwrap ⟨hback, .inl hqlt⟩
    exact ih (hl.circular.mem hp) (by
      have := hl.circular.distance_lt hp hq hne
      omega)

/-! ### Joining -/

/-- The block `bp` between `p` and what is behind `p` on the list, to which it is linked; `p` is
not linked to it yet. -/
structure Placed (base : ℕ) (h : Heap) (F U : Finset ℕ) (bp p : ℕ) : Prop extends Cut base h F U where
  circular : Circular (update h.ptr p (h.ptr bp)) (insert base F)
  mem : p ∈ insert base F
  used : bp ∈ U
  lt : p < bp
  gap : ∀ c ∈ insert base F, c ≤ p ∨ bp < c
  ends : bp + sizeofHeader * h.size bp ∉ F

theorem Laid.next_mem (hp : p ∈ insert base F) (hup : p < h.ptr p) : h.ptr p ∈ F :=
  (mem_insert.mp (hl.circular.mem hp)).resolve_left fun heq =>
    absurd (hl.base_le hp) (Nat.not_le_of_gt (heq ▸ hup))

theorem Laid.joinUpper (hbp : bp ∈ U) (hp : p ∈ insert base F) (hlt : p < bp)
    (hgap : ∀ c ∈ insert base F, c ≤ p ∨ bp < c) :
    ∃ F', Placed base (joinUpper bp p h) F' U bp p ∧ Frame (U.erase bp) h (joinUpper bp p h) ∧
      h.size bp ≤ (joinUpper bp p h).size bp := by
  have hbpB : bp ∈ F ∪ U := mem_union_right _ hbp
  have hbpF : bp ∉ F := fun hF => disjoint_left.mp hl.disjoint hF hbp
  have hpos : 0 < sizeofHeader * h.size bp := Nat.mul_pos headerPos (hl.tiles.pos bp hbpB)
  unfold Umalloc.joinUpper
  by_cases hadj : bp + sizeofHeader * h.size bp = h.ptr p
  · rw [if_pos hadj]
    have hnextlt : bp < h.ptr p := by omega
    have hup : p < h.ptr p := hlt.trans hnextlt
    have hnext := hl.next_mem hp hup
    have hnextB : h.ptr p ∈ F ∪ U := mem_union_left _ hnext
    have hnextU : h.ptr p ∉ U := disjoint_left.mp hl.disjoint hnext
    have hend := hl.merge_end hbpB hnextB hnextlt.ne hadj
    have herase : insert base (F.erase (h.ptr p)) = (insert base F).erase (h.ptr p) :=
      (Finset.erase_insert_of_ne (hl.base_lt hnextB).ne).symm
    refine ⟨F.erase (h.ptr p), ⟨hl.merge hbpB hnextB hnextlt.ne hadj rfl rfl ?_ ?_ ?_, ?_, ?_, hbp, hlt, ?_, ?_⟩,
      ⟨?_, rfl⟩, ?_⟩
    · rw [Finset.erase_union_distrib, Finset.erase_eq_of_notMem hnextU]
    · exact hl.disjoint.mono_left (erase_subset ..)
    · intro b hb hmem
      have hbF := mem_of_mem_erase hb
      dsimp only at hmem
      rw [update_of_ne (ne_of_mem_of_not_mem hbF hbpF)] at hmem
      exact hl.coalesced b hbF (mem_of_mem_erase hmem)
    · rw [herase]
      dsimp only
      refine hl.circular.erase hp hup ?_ fun a ha hap _ => ?_
      · rw [update_self, update_self]
      grind
    · rw [herase]
      exact Finset.mem_erase.mpr ⟨hup.ne, hp⟩
    · intro c hc
      rw [herase] at hc
      exact hgap c (mem_of_mem_erase hc)
    · dsimp only
      rw [update_self, hend]
      exact fun hmem => hl.coalesced _ hnext (mem_of_mem_erase hmem)
    · exact fun u hu => update_of_ne (Finset.ne_of_mem_erase hu) ..
    · dsimp only
      rw [update_self, hl.uint32_add hbpB hnextB hnextlt.ne]
      exact Nat.le_add_right ..
  · rw [if_neg hadj]
    refine ⟨F, ⟨hl.recut ⟨fun _ _ => rfl, rfl⟩ hl.baseSize rfl hl.disjoint hl.coalesced, ?_, hp, hbp, hlt, hgap, ?_⟩,
      ⟨fun _ _ => rfl, rfl⟩, le_rfl⟩
    · refine hl.circular.congr fun a ha => ?_
      grind
    · -- A free block at the end of `bp` would be the one behind `p`.
      intro hmem
      have hendlt : p < bp + sizeofHeader * h.size bp := by omega
      obtain ⟨hup, hle⟩ := hl.circular.next_of_lt hp (mem_insert_of_mem hmem) hendlt
      have hnext := hl.next_mem hp hup
      have hbplt : bp < h.ptr p := (hgap _ (mem_insert_of_mem hnext)).resolve_left (Nat.not_le_of_gt hup)
      have hge := hl.tiles.apart bp hbpB _ (mem_union_left _ hnext) hbplt
      exact hadj (le_antisymm hge hle)

end

theorem Placed.end_ne {b : ℕ} (hl : Placed base h F U bp p) (hadj : p + sizeofHeader * h.size p ≠ bp)
    (hb : b ∈ F) : b + sizeofHeader * h.size b ≠ bp := by
  intro heq
  have hpos := Nat.mul_pos headerPos (hl.tiles.pos b (mem_union_left _ hb))
  have hle : b ≤ p := (hl.gap b (mem_insert_of_mem hb)).resolve_right (by omega)
  have hlt : b < p := lt_of_le_of_ne hle (by
    rintro rfl
    exact hadj heq)
  rcases mem_insert.mp hl.mem with rfl | hpF
  · exact absurd hlt (Nat.not_lt_of_gt (hl.base_lt (mem_union_left _ hb)))
  · have hap := hl.tiles.apart b (mem_union_left _ hb) p (mem_union_left _ hpF) hlt
    have := hl.lt
    omega

theorem Placed.joinLower (hl : Placed base h F U bp p) :
    ∃ F', Laid base { joinLower bp p h with freep := p } F' (U.erase bp) ∧
      Frame (U.erase bp) h { joinLower bp p h with freep := p } ∧
      ∃ b ∈ F', (b = p ∨ b = (joinLower bp p h).ptr p) ∧ h.size bp ≤ (joinLower bp p h).size b := by
  have hbpB : bp ∈ F ∪ U := mem_union_right _ hl.used
  have hbpF : bp ∉ F := fun hF => disjoint_left.mp hl.disjoint hF hl.used
  have hpU : p ∉ U := by
    intro hU
    rcases mem_insert.mp hl.mem with rfl | hF
    · exact hl.base_notMem (mem_union_right _ hU)
    · exact disjoint_left.mp hl.disjoint hF hU
  unfold Umalloc.joinLower
  by_cases hadj : p + sizeofHeader * h.size p = bp
  · rw [if_pos hadj]
    have hpF : p ∈ F := by
      refine (mem_insert.mp hl.mem).resolve_left ?_
      rintro rfl
      rw [hl.baseSize, Nat.mul_zero, Nat.add_zero] at hadj
      exact absurd hl.lt hadj.not_lt
    have hpB : p ∈ F ∪ U := mem_union_left _ hpF
    have hend := hl.merge_end hpB hbpB hl.lt.ne hadj
    refine ⟨F, ⟨hl.merge hpB hbpB hl.lt.ne hadj rfl rfl ?_ ?_ ?_, ?_, mem_insert_of_mem hpF⟩,
      ⟨?_, rfl⟩, p, hpF, .inl rfl, ?_⟩
    · rw [Finset.erase_union_distrib, Finset.erase_eq_of_notMem hbpF]
    · exact hl.disjoint.mono_right (erase_subset ..)
    · intro b hb
      dsimp only
      by_cases hbp : b = p
      · rw [hbp, update_self, hend]
        exact hl.ends
      · rw [update_of_ne hbp]
        exact hl.coalesced b hb
    · exact hl.circular
    · exact fun u hu => update_of_ne (ne_of_mem_of_not_mem (mem_of_mem_erase hu) hpU) ..
    · dsimp only
      rw [update_self, hl.uint32_add hpB hbpB hl.lt.ne]
      exact Nat.le_add_left ..
  · rw [if_neg hadj]
    have hinsert : insert base (insert bp F) = insert bp (insert base F) := Finset.insert_comm ..
    refine ⟨insert bp F, ⟨hl.recut ⟨fun _ _ => rfl, rfl⟩ hl.baseSize ?_ ?_ ?_, ?_, ?_⟩,
      ⟨fun _ _ => rfl, rfl⟩, bp, mem_insert_self .., .inr ?_, le_rfl⟩
    · rw [Finset.insert_union, ← Finset.union_insert, Finset.insert_erase hl.used]
    · refine Finset.disjoint_insert_left.mpr ⟨Finset.notMem_erase bp U, ?_⟩
      exact hl.disjoint.mono_right (erase_subset ..)
    · intro b hb hmem
      dsimp only at hmem
      rcases mem_insert.mp hb with rfl | hbF
      · -- `bp` ends behind itself.
        rcases mem_insert.mp hmem with heq | hF
        · have hpos := Nat.mul_pos headerPos (hl.tiles.pos b hbpB)
          omega
        · exact hl.ends hF
      · rcases mem_insert.mp hmem with heq | hF
        · exact hl.end_ne hadj hbF heq
        · exact hl.coalesced b hbF hF
    · rw [hinsert]
      refine hl.circular.insert hl.mem hl.lt hl.gap (update_self ..) ?_ fun a ha hap => ?_
      · grind
      · exact (update_of_ne hap ..).trans (update_of_ne hap ..).symm
    · grind [Placed.mem]
    grind

/-- `free` of a block in use puts it among the free blocks, where the block it becomes part of is
at `freep` or behind it. -/
theorem Laid.free (hl : Laid base h F U) (hbp : bp ∈ U) :
    ∃ h' F', free (bp + sizeofHeader) h = .ok h' ∧ Laid base h' F' (U.erase bp) ∧ Frame (U.erase bp) h h' ∧
      ∃ b ∈ F', (b = h'.freep ∨ b = h'.ptr h'.freep) ∧ h.size bp ≤ h'.size b := by
  obtain ⟨q, hq, hqlt, hqmax⟩ := exists_before F (hl.base_lt (mem_union_right _ hbp))
  have hfuel := hl.distance_lt q h.freep
  obtain ⟨p, hloop, hp, hlt, hgap⟩ :=
    hl.freeLoop hbp loopFuel hl.freep q hq hqlt hqmax (hfuel.trans (by decide))
  obtain ⟨F1, hplaced, hframe, hsize⟩ := hl.joinUpper hbp hp hlt hgap
  obtain ⟨F', hlaid, hframe', b, hb, hat, hle⟩ := hplaced.joinLower
  refine ⟨_, F', ?_, hlaid, hframe.trans hframe', b, hb, hat, hsize.trans hle⟩
  unfold Umalloc.free
  dsimp only
  rw [Nat.add_sub_cancel, hloop]
  rfl

end Xv6.Umalloc
