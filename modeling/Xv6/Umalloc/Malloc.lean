import Xv6.Umalloc.Heap

/-! `malloc` on a heap of blocks.

The search goes round the list once (`Laid.mallocLoop_cases`). When no block is large enough the
new memory of `morecore` is, alone or joined to the block it follows, and the search that goes on
comes to it before it is back at `freep` (`Laid.malloc`). -/
namespace Xv6.Umalloc
open Finset (mem_insert mem_union_left union_insert)

open Function
open Linked (Circular distance)
open Blocks (Tiles)

variable {base nunits p prevp : ℕ} {h h' : Heap} {F U : Finset ℕ} {answers : List ℕ}

/-- A call returned the block `b` of so many headers, which was not in use. -/
structure Taken (base nunits : ℕ) (h h' : Heap) (U : Finset ℕ) (b : ℕ) : Prop where
  laid : ∃ F', Laid base h' F' (insert b U)
  fresh : b ∉ U
  size : h'.size b = nunits
  same : ∀ u ∈ U, h'.size u = h.size u

/-- A block of the list that is large enough is not `base`, and comes behind the node that is
linked to it. -/
theorem Laid.large_mem (hl : Laid base h F U) (hprev : prevp ∈ insert base F) (hpos : 0 < nunits)
    (hlarge : nunits ≤ h.size (h.ptr prevp)) : h.ptr prevp ∈ F ∧ prevp < h.ptr prevp := by
  have hne : h.ptr prevp ≠ base := by
    intro heq
    rw [heq, hl.baseSize] at hlarge
    omega
  have hmem : h.ptr prevp ∈ F := (mem_insert.mp (hl.circular.mem hprev)).resolve_left hne
  refine ⟨hmem, ?_⟩
  rcases (hl.circular prevp hprev).2 with ⟨hup, _⟩ | ⟨_, hmin⟩
  · exact hup
  · have hlt := hl.base_lt (mem_union_left _ hmem)
    exact absurd (hmin base (Finset.mem_insert_self ..)) (Nat.not_le_of_gt hlt)

theorem Cut.split {x y : ℕ} (hc : Cut base h F U) (hx : x ∈ F) (hpos : 0 < nunits)
    (hlt : nunits < h.size x) (hy : y = x + sizeofHeader * (h.size x - nunits))
    (hsize : h'.size = update (update h.size x (h.size x - nunits)) y nunits)
    (hobtained : h'.obtained = h.obtained) : Cut base h' F (insert y U) ∧ y ∉ F ∪ U := by
  have hxB := mem_union_left U hx
  have hk : 0 < h.size x - nunits := Nat.sub_pos_of_lt hlt
  have hadd : h.size x = (h.size x - nunits) + nunits := (Nat.sub_add_cancel hlt.le).symm
  have hyB : y ∉ F ∪ U := hc.tiles.split_notMem hxB headerPos hk hpos hadd hy
  have hxy : x ≠ y := ne_of_mem_of_not_mem hxB hyB
  have hxsize : h'.size x = h.size x - nunits := by
    rw [hsize, update_of_ne hxy, update_self]
  have hysize : h'.size y = nunits := by
    rw [hsize, update_self]
  have hsame : ∀ c ∈ F ∪ U, c ≠ x → h'.size c = h.size c := by
    intro c hcB hcx
    rw [hsize, update_of_ne (ne_of_mem_of_not_mem hcB hyB), update_of_ne hcx]
  have hframe : Frame ∅ h h' := ⟨fun u hu => absurd hu (Finset.notMem_empty u), hobtained⟩
  have habove : base + sizeofHeader ≤ y := by
    rw [hy]
    exact (hc.above x hxB).trans (Nat.le_add_right ..)
  refine ⟨⟨?_, ?_, ?_, ?_, ?_, ?_, ?_, ?_, ?_⟩, hyB⟩
  · have hby : base ≠ y := (Nat.lt_of_lt_of_le (Nat.lt_add_of_pos_right headerPos) habove).ne
    rw [hsize, update_of_ne hby, update_of_ne (hc.base_lt hxB).ne]
    exact hc.baseSize
  · intro b hb
    rw [union_insert] at hb
    rcases mem_insert.mp hb with rfl | hb
    · exact habove
    · exact hc.above b hb
  · exact Finset.disjoint_insert_right.mpr ⟨fun hF => hyB (mem_union_left _ hF), hc.disjoint⟩
  · rw [union_insert, hframe.memory]
    exact hc.tiles.split hxB headerPos hk hpos hadd hy hxsize hysize hsame
  · grind [Cut.coalesced]
  · rw [union_insert, hframe.headers, ← hc.sum]
    exact hc.tiles.sum_split hxB headerPos hk hpos hadd hy hxsize hysize hsame
  · rw [hframe.headers]
    exact hc.small
  · rw [hframe.memory, hframe.top]
    exact hc.below
  · rw [hframe.top]
    exact hc.high

theorem Laid.carve (hl : Laid base h F U) (hprev : prevp ∈ insert base F) (hpos : 0 < nunits)
    (hlarge : nunits ≤ h.size (h.ptr prevp)) :
    ∃ b h', carve nunits prevp (h.ptr prevp) h = (b + sizeofHeader, h') ∧ Taken base nunits h h' U b := by
  obtain ⟨hmem, hup⟩ := hl.large_mem hprev hpos hlarge
  have hB := mem_union_left U hmem
  have hU : h.ptr prevp ∉ U := Finset.disjoint_left.mp hl.disjoint hmem
  unfold Umalloc.carve
  by_cases hexact : h.size (h.ptr prevp) = nunits
  · rw [if_pos hexact]
    refine ⟨_, _, rfl, ⟨⟨F.erase (h.ptr prevp), hl.recut ⟨fun _ _ => rfl, rfl⟩ hl.baseSize ?_ ?_ ?_, ?_, ?_⟩,
      hU, hexact, fun _ _ => rfl⟩⟩
    · rw [union_insert, ← Finset.insert_union, Finset.insert_erase hmem]
    · refine Finset.disjoint_insert_right.mpr ⟨Finset.notMem_erase (h.ptr prevp) F, ?_⟩
      exact hl.disjoint.mono_left (Finset.erase_subset ..)
    · exact fun b hb hend => hl.coalesced b (Finset.mem_of_mem_erase hb) (Finset.mem_of_mem_erase hend)
    · rw [← Finset.erase_insert_of_ne (hl.base_lt hB).ne]
      exact hl.circular.erase hprev hup (update_self ..) fun a _ ha _ => update_of_ne ha ..
    grind
  · rw [if_neg hexact]
    have hlt : nunits < h.size (h.ptr prevp) := lt_of_le_of_ne hlarge (Ne.symm hexact)
    dsimp only
    rw [update_self]
    generalize hy : h.ptr prevp + sizeofHeader * (h.size (h.ptr prevp) - nunits) = y
    obtain ⟨hcut, hnot⟩ : Cut base ⟨h.ptr, update (update h.size (h.ptr prevp) (h.size (h.ptr prevp) - nunits)) y
        nunits, prevp, h.obtained⟩ F (insert y U) ∧ y ∉ F ∪ U :=
      hl.split hmem hpos hlt hy.symm rfl rfl
    refine ⟨_, _, rfl, ⟨⟨F, hcut, hl.circular, hprev⟩, fun hmemU => hnot (Finset.mem_union_right _ hmemU),
      update_self .., fun u hu => ?_⟩⟩
    grind

/-! ### New memory -/

theorem Laid.grow {hp nu : ℕ} (hl : Laid base h F U) (hnu : 0 < nu) (htop : h.top base ≤ hp)
    (hroom : h.headers + nu < 2 ^ 32) :
    Laid base { h with size := update h.size hp nu, obtained := (hp, nu) :: h.obtained } F (insert hp U) ∧
      hp ∉ F ∪ U := by
  have hend : ∀ b ∈ F ∪ U, b < hp ∧ b + sizeofHeader * h.size b ≤ hp := fun b hb =>
    ⟨(hl.end_le hb).1.trans_le htop, (hl.end_le hb).2.trans htop⟩
  have hnot : hp ∉ F ∪ U := fun hmem => absurd (hend hp hmem).1 (lt_irrefl _)
  have hbase : base + sizeofHeader ≤ hp := hl.high.trans htop
  have hsame : ∀ b ∈ F ∪ U, update h.size hp nu b = h.size b := fun b hb =>
    update_of_ne (ne_of_mem_of_not_mem hb hnot) ..
  have hnew : update h.size hp nu hp = nu := update_self ..
  have hmemory : Heap.memory { h with size := update h.size hp nu, obtained := (hp, nu) :: h.obtained } =
      h.memory ∪ {m | hp ≤ m ∧ m < hp + sizeofHeader * nu} := by
    ext m
    simp only [Heap.memory, List.mem_cons, exists_eq_or_imp, Set.mem_union, Set.mem_ofPred_eq]
    exact or_comm
  refine ⟨⟨⟨?_, ?_, ?_, ?_, ?_, ?_, ?_, ?_, ?_⟩, hl.circular, hl.freep⟩, hnot⟩
  · have hne : base ≠ hp := (Nat.lt_of_lt_of_le (Nat.lt_add_of_pos_right headerPos) hbase).ne
    exact (update_of_ne hne ..).trans hl.baseSize
  · intro b hb
    rw [union_insert] at hb
    rcases mem_insert.mp hb with rfl | hb
    · exact hbase
    · exact hl.above b hb
  · exact Finset.disjoint_insert_right.mpr ⟨fun hF => hnot (mem_union_left _ hF), hl.disjoint⟩
  · rw [union_insert, hmemory]
    exact hl.tiles.add hnu hend hnew hsame
  · intro b hb
    dsimp only
    rw [hsame b (mem_union_left _ hb)]
    exact hl.coalesced b hb
  · rw [union_insert]
    refine (Tiles.sum_add hnot hnew hsame).trans ?_
    rw [hl.sum]
    exact Nat.add_comm ..
  · exact (Nat.add_comm ..).trans_lt hroom
  · intro m hm
    rw [hmemory] at hm
    rcases hm with hm | hm
    · exact ((hl.below m hm).trans_le htop).trans_le (Nat.le_add_right ..)
    · exact hm.2
  · exact hbase.trans (Nat.le_add_right ..)

theorem request_pos (nu : ℕ) : 0 < request nu := by
  unfold request
  split <;> omega

theorem le_request (nu : ℕ) : nu ≤ request nu := by
  unfold request
  split <;> omega

theorem Laid.morecore {hp : ℕ} (hl : Laid base h F U) (answers : List ℕ) (htop : h.top base ≤ hp)
    (hroom : h.headers + request nunits < 2 ^ 32) :
    ∃ h' F', morecore nunits (hp :: answers) h = .ok (h'.freep, answers, h') ∧ Laid base h' F' U ∧
      (∀ u ∈ U, h'.size u = h.size u) ∧
      (nunits ≤ h'.size h'.freep ∨ nunits ≤ h'.size (h'.ptr h'.freep)) := by
  obtain ⟨hgrown, hnot⟩ := hl.grow (request_pos nunits) htop hroom
  have hhpU : hp ∉ U := fun hU => hnot (Finset.mem_union_right _ hU)
  obtain ⟨h', F', hfree, hlaid, hframe, b, -, hat, hle⟩ := hgrown.free (Finset.mem_insert_self hp U)
  rw [Finset.erase_insert hhpU] at hlaid hframe
  dsimp only at hle
  rw [update_self] at hle
  have hlarge : nunits ≤ h'.size b := (le_request nunits).trans hle
  refine ⟨h', F', ?_, hlaid, fun u hu => ?_, ?_⟩
  · unfold Umalloc.morecore
    dsimp only
    rw [hfree]
    rfl
  · rw [hframe.size u hu]
    exact update_of_ne (ne_of_mem_of_not_mem hu hhpU) ..
  grind

/-! ### The search -/

/-- The search comes to a block that is large enough, or is back at `freep` without one. -/
theorem Laid.mallocLoop_cases (hl : Laid base h F U) (answers : List ℕ) (fuel : ℕ) (hprev : prevp ∈ insert base F)
    (hfuel : distance (insert base F) h.freep (h.ptr prevp) < fuel) :
    (∃ q ∈ insert base F, nunits ≤ h.size (h.ptr q) ∧
      mallocLoop nunits fuel prevp (h.ptr prevp) answers h = .ok (Umalloc.carve nunits q (h.ptr q) h)) ∨
    h.size (h.ptr prevp) < nunits ∧ h.size h.freep < nunits ∧
      ∃ rest, fuel ≤ rest + distance (insert base F) h.freep (h.ptr prevp) + 1 ∧
        mallocLoop nunits fuel prevp (h.ptr prevp) answers h =
          Umalloc.morecore nunits answers h >>= fun r =>
            if r.1 = 0 then pure (0, r.2.2) else mallocLoop nunits rest r.1 (r.2.2.ptr r.1) r.2.1 r.2.2 := by
  induction fuel generalizing prevp with
  | zero => exact absurd hfuel (Nat.not_lt_zero _)
  | succ fuel ih =>
    rw [Umalloc.mallocLoop]
    by_cases hlarge : h.size (h.ptr prevp) ≥ nunits
    · grind
    rw [if_neg hlarge]
    have hsmall := Nat.lt_of_not_ge hlarge
    by_cases hend : h.ptr prevp = h.freep
    · rw [if_pos hend]
      exact .inr ⟨hsmall, hend ▸ hsmall, fuel, by omega, rfl⟩
    · rw [if_neg hend]
      have hmem := hl.circular.mem hprev
      have hcloser := hl.circular.distance_lt hmem hl.freep hend
      rcases ih hmem (by omega) with hfound | ⟨_, hfree, rest, hrest, heq⟩
      · exact .inl hfound
      · exact .inr ⟨hsmall, hfree, rest, by omega, heq⟩

/-- `malloc` returns: a block of the size asked for, or `0` when there is no more memory. -/
theorem Laid.mallocLoop (hl : Laid base h F U) (fuel : ℕ) (hfuel : 2 ^ 36 ≤ fuel) (hbase : 0 < base)
    (hpos : 0 < nunits)
    (hfresh : Fresh (request nunits) (h.top base) answers)
    (hroom : h.headers + request nunits < 2 ^ 32) :
    ∃ r h', mallocLoop nunits fuel h.freep (h.ptr h.freep) answers h = .ok (r, h') ∧
      (r = 0 ∧ h' = h ∨ ∃ b, r = b + sizeofHeader ∧ Taken base nunits h h' U b) := by
  have hdist := hl.distance_lt h.freep (h.ptr h.freep)
  rcases hl.mallocLoop_cases answers fuel hl.freep (by omega) with
    ⟨q, hq, hlarge, hrun⟩ | ⟨-, -, rest, hrest, hrun⟩
  · obtain ⟨b, h', hcarve, htaken⟩ := hl.carve hq hpos hlarge
    exact ⟨_, _, hrun.trans (congrArg _ hcarve), .inr ⟨b, rfl, htaken⟩⟩
  rw [hrun]
  match answers, hfresh with
  | [], _ => exact ⟨0, h, rfl, .inl ⟨rfl, rfl⟩⟩
  | hp :: answers, hfresh =>
    obtain ⟨g, F', hmore, hg, hsame, hlarge⟩ := hl.morecore answers hfresh.1 hroom
    have hne : g.freep ≠ 0 := (hbase.trans_le (hg.base_le hg.freep)).ne'
    have hdist' := hg.distance_lt g.freep (g.ptr g.freep)
    rw [hmore]
    dsimp only [ok_bind]
    rw [if_neg hne]
    -- The new memory is found before the search is back.
    rcases hg.mallocLoop_cases answers rest hg.freep (by omega) with
      ⟨q, hq, hlarge, hrun⟩ | ⟨hnext, hfree, -⟩
    · obtain ⟨b, h', hcarve, htaken⟩ := hg.carve hq hpos hlarge
      exact ⟨_, _, hrun.trans (congrArg _ hcarve), .inr ⟨b, rfl, htaken.laid, htaken.fresh, htaken.size,
        fun u hu => (htaken.same u hu).trans (hsame u hu)⟩⟩
    · omega

end Xv6.Umalloc
