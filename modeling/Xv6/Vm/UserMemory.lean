import Mathlib.Order.Interval.Set.Defs
import Xv6.Vm.Walk

/-! Mapping and unmapping pages (`kernel/vm.c`), with the owners of the pages.

A page is mapped at a user address and gets the page table for its owner (`mapUser`), or it
is mapped elsewhere and keeps its owner (`mapFixed`). Unmapping frees the pages that the page
table owns in the range (`Shrinks`). Neither call panics where the address is not mapped
yet. -/
namespace Xv6.Vm
open Function
open Linked Radix

variable {L : Linker} {m m' : Memory} {own own1 own' own'' : ℕ → Owner} {T U : Set ℕ}
  {r x a n va pa perm low pte lo hi : ℕ} {E : Stop → Prop}

namespace Owned

section
variable (h : Owned L m own T U)
include h

theorem setEntry (hr : r ∈ T)
    (hlow : lookup (child m) r (path va) = some low) (hva : va < sv39) (pte : ℕ) :
    SetEntry T r va pte m (m.setPte low (px 0 va) pte) :=
  fun _ hq _ ha => h.entry_setLeaf hr hlow hva hq ha

/-- Writing an entry of the kernel's page table, or one above user memory: no owner
changes. -/
theorem setFixed (hr : r ∈ T) (hfix : r ∈ U → trapframe ≤ va)
    (hva : va < sv39) (hal : va % pgsize = 0) (hlow : lookup (child m) r (path va) = some low)
    (hleaf : r ∈ U → valid pte = true → leaf pte = true) :
    Owned L (m.setPte low (px 0 va) pte) own T U := by
  refine h.setLeaf hr hlow hva hal (fun _ => Iff.rfl) (fun _ _ => Iff.rfl) (fun _ hne => hne)
    (fun hu hlt => absurd (hfix hu) hlt.not_ge) hleaf (fun x q b hx => .inr ⟨?_, hx⟩)
    fun x q b hx _ => hx
  by_contra hsame
  rw [not_or, not_not, not_not] at hsame
  obtain ⟨rfl, rfl⟩ := hsame
  obtain ⟨hu, hlt, _⟩ := h.user hx
  exact absurd (hfix hu) hlt.not_ge

theorem setUser (hr : r ∈ U) (hva : va < trapframe)
    (hal : va % pgsize = 0) (hpa : own pa = .held) (hperm : perm < 2 ^ 10)
    (hleaf : leaf perm = true) (hlow : lookup (child m) r (path va) = some low)
    (hinv : valid (entry r va m) = false) :
    Owned L (m.setPte low (px 0 va) (mkPte pa perm)) (update own pa (.user r va)) T U := by
  have hpal := (h.page (x := pa) (by rw [hpa]; nofun)).1
  have hpte := pte2pa_mkPte hpal hperm
  refine h.setLeaf (h.sub hr) hlow (trapframe_lt_sv39 hva) hal (fun x => ?_) (fun x q => ?_)
    (fun x hx => ?_) (fun _ _ _ => ?_) (fun _ _ => leaf_mkPte hleaf) (fun x q b hx => ?_)
    fun x q b hx hne => ?_
  · exact update_iff hpa (by nofun) (by nofun) x
  · exact update_iff hpa (by nofun) (by nofun) x
  · grind
  · rw [hpte, update_self]
  · by_cases hxp : x = pa
    · grind [valid_mkPte, update_self]
    · rw [update_of_ne hxp] at hx
      refine .inr ⟨?_, hx⟩
      by_contra hsame
      rw [not_or, not_not, not_not] at hsame
      obtain ⟨rfl, rfl⟩ := hsame
      rw [(h.user hx).2.2.2.1] at hinv
      cases hinv
  grind

/-! ### Mapping -/

theorem mapUser (hr : r ∈ U) (hva : va < trapframe)
    (hal : va % pgsize = 0) (hinv : valid (entry r va m) = false) (hpa : own pa = .held)
    (hperm : perm < 2 ^ 10) (hleaf : leaf perm = true) :
    Outcome E (mappages r va pgsize pa perm m) fun res =>
      ∃ own1, Grows r ∅ own own1 ∧ SameBytes own m res.2 ∧
        ((res.1 = 0 ∧ SetEntry T r va (mkPte pa perm) m res.2 ∧
          Owned L res.2 (update own1 pa (.user r va)) T U) ∨
        (res.1 = -1 ∧ SameEntries T m res.2 ∧ Owned L res.2 own1 T U)) := by
  rw [mappages_one hal]
  obtain ⟨m1, own1, hext, hent, hfail | ⟨low, hlow, hstep⟩⟩ :=
    h.mapLoop_step (h.sub hr) (trapframe_lt_maxva hva) hinv 0 pa perm
  · rw [hfail]
    exact ⟨own1, hext.grows, hext.bytes, .inr ⟨rfl, hent, hext.owned⟩⟩
  · rw [hstep]
    have hheld : own1 pa = .held := by
      rw [hext.grows.keeps (by rw [hpa]; nofun), hpa]
    have hinv1 : valid (entry r va m1) = false := by
      rw [hent r (h.sub hr) va (trapframe_lt_sv39 hva), hinv]
    refine ⟨own1, hext.grows, hext.bytes, .inl ⟨rfl, fun q hq b hb => ?_, ?_⟩⟩
    · rw [← hent q hq b hb]
      exact hext.owned.setEntry (h.sub hr) hlow (trapframe_lt_sv39 hva) _ q hq b hb
    · exact hext.owned.setUser hr hva hal hheld hperm hleaf hlow hinv1

/-- A page is mapped by the kernel's page table, or above user memory: no owner changes but
for pages of the table. -/
theorem mapFixed (hr : r ∈ T) (hfix : r ∈ U → trapframe ≤ va)
    (hva : va < maxva) (hal : va % pgsize = 0) (hinv : valid (entry r va m) = false)
    (hleaf : r ∈ U → leaf perm = true) :
    Outcome E (mappages r va pgsize pa perm m) fun res =>
      (∃ own', Extends L T U r ∅ own m own' res.2) ∧
        ((res.1 = 0 ∧ SetEntry T r va (mkPte pa perm) m res.2) ∨
        (res.1 = -1 ∧ SameEntries T m res.2)) := by
  rw [mappages_one hal]
  obtain ⟨m1, own1, hext, hent, hfail | ⟨low, hlow, hstep⟩⟩ := h.mapLoop_step hr hva hinv 0 pa perm
  · rw [hfail]
    exact ⟨⟨own1, hext⟩, .inr ⟨rfl, hent⟩⟩
  · rw [hstep]
    have h2 : Owned L (m1.setPte low (px 0 va) (mkPte pa perm)) own1 T U :=
      hext.owned.setFixed hr hfix (maxva_lt_sv39 hva) hal hlow fun hu _ => leaf_mkPte (hleaf hu)
    refine ⟨⟨own1, h2, hext.grows, hext.bytes⟩, .inl ⟨rfl, fun q hq b hb => ?_⟩⟩
    rw [← hent q hq b hb]
    exact hext.owned.setEntry hr hlow (maxva_lt_sv39 hva) _ q hq b hb

/-- A page from the free list is mapped at a user address. Where that fails, the page is still
held, and once it is freed only pages for the table were taken. -/
theorem mapFresh {mem : ℕ} (hmem : own mem = .free) {m2 : Memory}
    (h2 : Owned L m2 (update own mem .held) T U) (hent : SameEntries T m m2)
    (hbytes : SameBytes own m m2) (hr : r ∈ U) (hva : va < trapframe) (hal : va % pgsize = 0)
    (hinv : valid (entry r va m) = false) (hperm : perm < 2 ^ 10) (hleaf : leaf perm = true) :
    Outcome E (mappages r va pgsize mem perm m2) fun res => SameBytes own m res.2 ∧
      ((res.1 = 0 ∧ SetEntry T r va (mkPte mem perm) m res.2 ∧ res.2.bytes mem = m2.bytes mem ∧
        ∃ own', own' mem = .user r va ∧ Extends L T U r {va} own m own' res.2) ∨
      (res.1 = -1 ∧ SameEntries T m res.2 ∧
        ∃ own', Owned L res.2 own' T U ∧ own' mem = .held ∧
          Grows r ∅ own (update own' mem .free))) := by
  have hheld : update own mem Owner.held mem = .held := update_self ..
  have huse : update own mem Owner.held mem ≠ .free := by
    grind
  have hinv2 : valid (entry r va m2) = false := by
    rw [hent r (h.sub hr) va (trapframe_lt_sv39 hva), hinv]
  refine (h2.mapUser hr hva hal hinv2 hheld hperm hleaf).mono ?_
  rintro ⟨res, m3⟩ ⟨own1, hgrows, hbytes3, hcases⟩
  -- Apart from the page itself, what was in use is as it was.
  have hother : ∀ x, x ≠ mem → own1 x = own x ∨ own x = .free ∧ own1 x = .table r := by
    intro x hx
    rcases hgrows x with hown | ⟨hfree, htable | ⟨b, hb, _⟩⟩
    · exact .inl (by rwa [update_of_ne hx] at hown)
    · exact .inr ⟨by rwa [update_of_ne hx] at hfree, htable⟩
    · exact absurd hb (Set.notMem_empty b)
  have hsame : SameBytes own m m3 := by
    intro x hx
    have hne : x ≠ mem := by
      rintro rfl
      exact hx hmem
    refine (hbytes3 x ?_).trans (hbytes x hx)
    rwa [update_of_ne hne]
  refine ⟨hsame, ?_⟩
  rcases hcases with ⟨hres, hset, h3⟩ | ⟨hres, hent3, h3⟩
  · refine .inl ⟨hres, fun q hq b hb => ?_, hbytes3 mem huse, _, update_self ..,
      h3, fun x => ?_, hsame⟩
    · rw [← hent q hq b hb]
      exact hset q hq b hb
    · by_cases hx : x = mem
      · subst hx
        rw [update_self]
        exact .inr ⟨hmem, .inr ⟨va, rfl, rfl⟩⟩
      grind
  · refine .inr ⟨hres, hent.trans hent3, own1, h3, (hgrows.keeps huse).trans hheld, fun x => ?_⟩
    grind

end

theorem freeFresh {mem : ℕ} (hmem : own mem = .free) (h : Owned L m' own' T U)
    (hheld : own' mem = .held) (hgrows : Grows r ∅ own (update own' mem .free))
    (hbytes : SameBytes own m m') (hent : SameEntries T m m') :
    ∃ m'', pageKfree L mem m' = .ok m'' ∧ SameEntries T m m'' ∧
      ∃ own'', Extends L T U r ∅ own m own'' m'' := by
  obtain ⟨m'', hm, hs, hb, h''⟩ := h.pageKfree_spec hheld
  refine ⟨m'', hm, hent.trans (h.sameEntries hs), _, h'', hgrows, fun x hx => ?_⟩
  have hne : x ≠ mem := by
    rintro rfl
    exact hx hmem
  exact (hb x hne).trans (hbytes x hx)

/-! ### Unmapping -/

theorem unmapUser (h : Owned L m own T U) (hr : r ∈ U) (hva : va < trapframe)
    (hal : va % pgsize = 0) (hlow : lookup (child m) r (path va) = some low)
    (hx : own x = .user r va) :
    Owned L (m.setPte low (px 0 va) 0) (update own x .held) T U := by
  have hpa := (h.user hx).2.2.2.2
  refine h.setLeaf (h.sub hr) hlow (trapframe_lt_sv39 hva) hal (fun y => ?_) (fun y q => ?_)
    (fun y hy => ?_) (fun _ _ hv => by cases hv) (fun _ hv => by cases hv) (fun y q b hy => ?_)
    fun y q b hy hne => ?_
  · exact update_iff hx (by nofun) (by nofun) y
  · exact update_iff hx (by nofun) (by nofun) y
  · grind
  · by_cases hyx : y = x
    · grind
    · rw [update_of_ne hyx] at hy
      refine .inr ⟨?_, hy⟩
      by_contra hsame
      rw [not_or, not_not, not_not] at hsame
      obtain ⟨rfl, rfl⟩ := hsame
      exact hyx ((h.user hy).2.2.2.2.symm.trans hpa)
  grind

theorem pageKfree_setPte {i : ℕ} (hne : low ≠ x) (m : Memory) :
    (pageKfree L x m).map (fun m' => m'.setPte low i pte) = pageKfree L x (m.setPte low i pte) := by
  unfold pageKfree
  split
  · rfl
  · show Except.ok _ = Except.ok _
    have hcomm := update_comm hne
      (update (m.ptes low) i pte) (fun _ => 1 * 0x0101010101010101) m.ptes
    unfold Memory.setPte memset
    grind

end Owned

/-- The page table `r` maps the page from `lo` up to `hi`. -/
def MappedIn (r lo hi : ℕ) (o : Owner) : Prop := ∃ va, o = .user r va ∧ lo ≤ va ∧ va < hi

/-- The pages that `r` maps from `lo` up to `hi` are free, and every other page keeps its
owner. -/
def Unmaps (r lo hi : ℕ) (own own' : ℕ → Owner) : Prop :=
  ∀ x, MappedIn r lo hi (own x) ∧ own' x = .free ∨ ¬ MappedIn r lo hi (own x) ∧ own' x = own x

namespace Unmaps

theorem refl (h : ∀ x, ¬ MappedIn r lo hi (own x)) : Unmaps r lo hi own own :=
  fun x => .inr ⟨h x, rfl⟩

theorem trans {mid : ℕ} (hlo : lo ≤ mid) (hhi : mid ≤ hi) (h : Unmaps r lo mid own own')
    (h' : Unmaps r mid hi own' own'') : Unmaps r lo hi own own'' := by
  intro x
  rcases h x with ⟨⟨va, hx, hl, hu⟩, hfree⟩ | ⟨hnot, hsame⟩
  · refine .inl ⟨⟨va, hx, hl, hu.trans_le hhi⟩, ?_⟩
    rcases h' x with ⟨_, hfree'⟩ | ⟨_, hsame'⟩
    · exact hfree'
    · exact hsame'.trans hfree
  · rw [← hsame]
    rcases h' x with ⟨⟨va, hx, hl, hu⟩, hfree⟩ | ⟨hnot', hsame'⟩
    · exact .inl ⟨⟨va, hx, hlo.trans hl, hu⟩, hfree⟩
    · refine .inr ⟨?_, hsame'⟩
      rintro ⟨va, hx, hl, hu⟩
      by_cases hmid : va < mid
      · exact hnot ⟨va, hsame ▸ hx, hl, hmid⟩
      · exact hnot' ⟨va, hx, not_lt.mp hmid, hu⟩

theorem keeps (h : Unmaps r lo hi own own') (hx : own' x ≠ .free) : own' x = own x := by
  rcases h x with ⟨_, hfree⟩ | ⟨_, hsame⟩
  · exact absurd hfree hx
  · exact hsame

end Unmaps

/-- The pages that `r` maps from `lo` up to `hi` are unmapped and freed. -/
structure Shrinks (L : Linker) (T U : Set ℕ) (r lo hi : ℕ) (own : ℕ → Owner) (m : Memory)
    (own' : ℕ → Owner) (m' : Memory) : Prop where
  owned : Owned L m' own' T U
  unmaps : Unmaps r lo hi own own'
  entries : SameElse T r lo hi m m'
  bytes : SameBytes own' m m'

namespace Shrinks

theorem refl (h : Owned L m own T U) (hnone : ∀ x, ¬ MappedIn r lo hi (own x)) :
    Shrinks L T U r lo hi own m own m :=
  ⟨h, .refl hnone, .refl, fun _ _ => rfl⟩

theorem trans {mid : ℕ} {m'' : Memory} (hlo : lo ≤ mid) (hhi : mid ≤ hi)
    (h : Shrinks L T U r lo mid own m own' m') (h' : Shrinks L T U r mid hi own' m' own'' m'') :
    Shrinks L T U r lo hi own m own'' m'' := by
  refine ⟨h'.owned, h.unmaps.trans hlo hhi h'.unmaps, ?_, fun x hx => ?_⟩
  · exact (h.entries.mono le_rfl hhi).trans (h'.entries.mono hlo le_rfl)
  · refine (h'.bytes x hx).trans (h.bytes x ?_)
    rwa [← h'.unmaps.keeps hx]

end Shrinks

theorem Extends.giveBack {V : Set ℕ} {m1 : Memory} (h : Extends L T U r V own m own1 m1)
    (hV : V ⊆ Set.Ico lo hi) (hfresh : ∀ x, ¬ MappedIn r lo hi (own x))
    (hs : Shrinks L T U r lo hi own1 m1 own' m') : Extends L T U r ∅ own m own' m' := by
  have hkeep : ∀ x, own x ≠ .free → own' x = own x := by
    intro x hx
    have hsame := h.grows.keeps hx
    rcases hs.unmaps x with ⟨hin, _⟩ | ⟨_, hsame'⟩
    · exact absurd (hsame ▸ hin) (hfresh x)
    · exact hsame'.trans hsame
  refine ⟨hs.owned, fun x => ?_, fun x hx => ?_⟩
  · by_cases hx : own x = .free
    · rcases hs.unmaps x with ⟨_, hfree⟩ | ⟨hnot, hsame'⟩
      · exact .inl (hfree.trans hx.symm)
      · rw [hsame']
        rcases h.grows x with hsame | ⟨_, htable | ⟨va, hva, huser⟩⟩
        · exact .inl hsame
        · exact .inr ⟨hx, .inl htable⟩
        · exact absurd ⟨va, huser, (hV hva).1, (hV hva).2⟩ hnot
    · exact .inl (hkeep x hx)
  · refine (hs.bytes x ?_).trans (h.bytes x hx)
    rwa [hkeep x hx]

namespace Owned

theorem freeUser (h : Owned L m own T U) (hr : r ∈ U) (hva : va < trapframe)
    (hal : va % pgsize = 0) (hlow : lookup (child m) r (path va) = some low)
    (hv : valid (m.ptes low (px 0 va)) = true) :
    ∃ m' own', pageKfree L (pte2pa (m.ptes low (px 0 va))) m = .ok m' ∧
      Shrinks L T U r va (va + pgsize) own m own' (m'.setPte low (px 0 va) 0) := by
  have hown := h.table_of_lookup (h.sub hr) le_rfl hlow
  have hentry := entry_of_lookup hlow (h.ne_zero (table_ne_other hown))
  have hx := h.mapped hr hva hal (by rw [hentry]; exact hv)
  rw [hentry] at hx
  generalize hpa : pte2pa (m.ptes low (px 0 va)) = pa at hx
  have hne : low ≠ pa := fun heq => by cases hown.symm.trans ((congrArg own heq).trans hx)
  have hheld := h.unmapUser hr hva hal hlow hx
  have hset := h.setEntry (h.sub hr) hlow (trapframe_lt_sv39 hva) 0
  obtain ⟨m2, hm2, hs2, hb2, h2⟩ := hheld.pageKfree_spec (update_self ..)
  have helse := (hset.others hal).trans (hheld.sameEntries hs2).others
  rw [update_idem] at h2
  have hcomm := @pageKfree_setPte L _ _ 0 (px 0 va) hne m
  rw [hm2] at hcomm
  cases hk : pageKfree L pa m with
  | error e =>
    rw [hk] at hcomm
    cases hcomm
  | ok m1 =>
    rw [hk] at hcomm
    cases hcomm
    refine ⟨m1, _, rfl, h2, fun y => ?_, helse, fun y hy => ?_⟩
    · by_cases hy : y = pa
      · subst hy
        exact .inl ⟨⟨va, hx, le_rfl, Nat.lt_add_of_pos_right (by decide)⟩, update_self ..⟩
      · refine .inr ⟨?_, update_of_ne hy ..⟩
        rintro ⟨b, hb, hlo, hhi⟩
        obtain ⟨_, _, hbal, _, hbpa⟩ := h.user hb
        grind [pgsize]
    · have hya : y ≠ pa := by
        rintro rfl
        exact hy (update_self ..)
      exact hb2 y hya

theorem unmapLoop_invalid {doFree : Bool} (hva : a < maxva) (hv : valid (entry r a m) = false) :
    unmapLoop L r doFree (n + 1) a m = unmapLoop L r doFree n (a + pgsize) m := by
  have hinv : (lookup (child m) r (path a)).getD 0 = 0 ∨
      valid (m.ptes ((lookup (child m) r (path a)).getD 0) (px 0 a)) = false := by
    rw [entry, walkLoop_false] at hv
    by_cases h0 : (lookup (child m) r (path a)).getD 0 = 0
    · exact .inl h0
    · exact .inr (by rwa [if_neg h0] at hv)
  rw [unmapLoop, walk, if_neg hva.not_ge, walkLoop_false]
  simp only [returns_bind, if_pos hinv]

theorem unmapLoop_valid {doFree : Bool} (hva : a < maxva)
    (hlow : lookup (child m) r (path a) = some low) (h0 : low ≠ 0)
    (hv : valid (m.ptes low (px 0 a)) = true) :
    unmapLoop L r doFree (n + 1) a m =
      ((if doFree then pageKfree L (pte2pa (m.ptes low (px 0 a))) m else pure m) >>= fun m' =>
        unmapLoop L r doFree n (a + pgsize) (m'.setPte low (px 0 a) 0)) := by
  have hmapped : ¬ (low = 0 ∨ valid (m.ptes low (px 0 a)) = false) := by
    grind
  rw [unmapLoop, walk, if_neg hva.not_ge, walkLoop_false, hlow]
  simp only [returns_bind, Option.getD_some, if_neg hmapped]
  grind

theorem not_mappedIn (h : Owned L m own T U) (hal : va % pgsize = 0)
    (hinv : valid (entry r va m) = false) (x : ℕ) : ¬ MappedIn r va (va + pgsize) (own x) := by
  rintro ⟨b, hb, hlo, hhi⟩
  obtain ⟨_, _, hbal, hbv, _⟩ := h.user hb
  grind [pgsize]

theorem unmapLoop_spec (h : Owned L m own T U) (hr : r ∈ U) (hal : a % pgsize = 0)
    (hhi : a + n * pgsize ≤ trapframe) :
    Outcome E (unmapLoop L r true n a m) fun m' =>
      ∃ own', Shrinks L T U r a (a + n * pgsize) own m own' m' := by
  induction n generalizing a m own with
  | zero =>
    refine ⟨own, .refl h fun x hx => ?_⟩
    obtain ⟨b, _, hlo, hhi⟩ := hx
    omega
  | succ n ih =>
    have hend := next_page a n
    have hpos : 0 < pgsize := by decide
    have hva : a < trapframe := by omega
    have hal' : (a + pgsize) % pgsize = 0 := by rw [Nat.add_mod_right, hal]
    have hstep : a + pgsize ≤ a + (n + 1) * pgsize := by omega
    have hrest : ∀ {m1 own1}, Shrinks L T U r a (a + pgsize) own m own1 m1 →
        Outcome E (unmapLoop L r true n (a + pgsize) m1) fun m' =>
          ∃ own', Shrinks L T U r a (a + (n + 1) * pgsize) own m own' m' := by
      intro m1 own1 hs
      refine (ih hs.owned hal' (hend ▸ hhi)).mono fun m' ⟨own', hs'⟩ => ⟨own', ?_⟩
      rw [hend] at hs'
      exact hs.trans (Nat.le_add_right ..) hstep hs'
    cases hv : valid (entry r a m) with
    | false =>
      rw [unmapLoop_invalid (trapframe_lt_maxva hva) hv]
      exact hrest (.refl h (h.not_mappedIn hal hv))
    | true =>
      obtain ⟨low, h0, hlow, hentry⟩ := entry_eq_of_valid hv
      rw [hentry] at hv
      obtain ⟨m1, own1, hk, hs⟩ := h.freeUser hr hva hal hlow hv
      rw [unmapLoop_valid (trapframe_lt_maxva hva) hlow h0 hv, if_pos rfl, hk]
      exact hrest hs

end Owned

end Xv6.Vm
