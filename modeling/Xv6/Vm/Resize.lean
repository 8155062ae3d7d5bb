import Mathlib.Data.Finset.Card
import Xv6.Vm.UserMemory

/-! `uvmdealloc`, `uvmalloc` and `uvmcopy` (`kernel/vm.c`).

When memory runs out half-way, what was allocated is unmapped again: then only pages for the
table were taken. None of the calls panics on a page table that maps no user page from the
size on. -/
namespace Xv6.Vm
open Function
open Linked Radix

variable {L : Linker} {m m0 m' : Memory} {own own0 own' : ℕ → Owner} {T U : Set ℕ}
  {r x a n va sz oldsz newsz xperm lo hi : ℕ} {E : Stop → Prop}

/-! ### Rounding -/

theorem trapframe_eq : trapframe = 2 ^ 38 - 2 * pgsize := by decide

section
variable (h : sz ≤ trapframe)
include h

theorem pgroundup_eq : pgroundup sz = (sz + pgsize - 1) / pgsize * pgsize := by
  have hlt : sz + pgsize - 1 < 2 ^ 64 := by
    rw [trapframe_eq] at h
    unfold pgsize at *
    omega
  have hcast : ((sz : ℤ) + pgsize - 1) = ((sz + pgsize - 1 : ℕ) : ℤ) := by
    unfold pgsize
    omega
  rw [pgroundup, hcast, uint64_of_lt hlt]

theorem pgroundup_mod : pgroundup sz % pgsize = 0 := by
  rw [pgroundup_eq h, Nat.mul_mod_left]

theorem le_pgroundup : sz ≤ pgroundup sz := by
  rw [pgroundup_eq h]
  unfold pgsize
  omega

theorem pgroundup_le : pgroundup sz ≤ trapframe := by
  grind [pgroundup_eq, trapframe_eq, pgsize]

theorem pgroundup_of_aligned (hal : sz % pgsize = 0) : pgroundup sz = sz := by
  rw [pgroundup_eq h]
  unfold pgsize at *
  omega

end

theorem pgroundup_mono (h : sz ≤ newsz) (htop : newsz ≤ trapframe) : pgroundup sz ≤ pgroundup newsz := by
  rw [pgroundup_eq (h.trans htop), pgroundup_eq htop]
  exact Nat.mul_le_mul_right _ (Nat.div_le_div_right (by omega))

theorem pgroundup_add (h : sz ≤ newsz) (htop : newsz ≤ trapframe) :
    pgroundup sz + (newsz - pgroundup sz + pgsize - 1) / pgsize * pgsize = pgroundup newsz := by
  rw [pgroundup_eq (h.trans htop), pgroundup_eq htop]
  unfold pgsize
  omega

theorem npages_eq (h : n * pgsize ≤ trapframe) : uint64 (int32 (n : ℕ)) = n := by
  have hn : n < 2 ^ 31 := by
    rw [trapframe_eq] at h
    unfold pgsize at h
    omega
  grind [uint64_of_lt, Int.bmod_def, int32]

theorem entry_of_page {va' : ℕ} (h : va' / pgsize = va / pgsize) (r : ℕ) (m : Memory) :
    entry r va' m = entry r va m := by
  grind [px_of_page, walkLoop_false, path_of_page, entry]

namespace Owned

theorem uvmunmap_spec (h : Owned L m own T U) (hr : r ∈ U) (hal : a % pgsize = 0)
    (hhi : a + n * pgsize ≤ trapframe) :
    Outcome E (uvmunmap L r a n true m) fun m' =>
      ∃ own', Shrinks L T U r a (a + n * pgsize) own m own' m' := by
  unfold uvmunmap
  rw [if_neg (not_not.mpr hal)]
  exact h.unmapLoop_spec hr hal hhi

/-- The pages from the new size up to the old one are freed. A new size that is larger is
ignored. -/
theorem uvmdealloc_spec (h : Owned L m own T U) (hr : r ∈ U) (hold : oldsz ≤ trapframe) :
    Outcome E (uvmdealloc L r oldsz newsz m) fun res =>
      res.1 = min oldsz newsz ∧
        ∃ own', Shrinks L T U r (pgroundup (min oldsz newsz)) (pgroundup oldsz) own m own' res.2 := by
  have hempty : ∀ {lo}, pgroundup oldsz ≤ lo → Shrinks L T U r lo (pgroundup oldsz) own m own m := by
    intro lo hlo
    refine .refl h fun x => ?_
    rintro ⟨b, _, hb, hb'⟩
    omega
  unfold uvmdealloc
  by_cases hle : oldsz ≤ newsz
  · rw [if_pos hle, min_eq_left hle]
    exact ⟨rfl, own, hempty le_rfl⟩
  rw [if_neg hle, min_eq_right (Nat.le_of_not_le hle)]
  have hnew : newsz ≤ trapframe := by omega
  by_cases hlt : pgroundup newsz < pgroundup oldsz
  · rw [if_pos hlt]
    have hmod := pgroundup_mod hnew
    have hmod' := pgroundup_mod hold
    have htop := pgroundup_le hold
    have hpages : pgroundup newsz + (pgroundup oldsz - pgroundup newsz) / pgsize * pgsize =
        pgroundup oldsz := by
      have hdvd : pgsize ∣ pgroundup oldsz - pgroundup newsz :=
        Nat.dvd_sub (Nat.dvd_of_mod_eq_zero hmod') (Nat.dvd_of_mod_eq_zero hmod)
      rw [Nat.div_mul_cancel hdvd]
      omega
    have hcount := npages_eq (n := (pgroundup oldsz - pgroundup newsz) / pgsize) (by omega)
    rw [hcount]
    refine (h.uvmunmap_spec hr hmod (by omega)).bind fun m' hs => ?_
    rw [hpages] at hs
    exact ⟨rfl, hs⟩
  · rw [if_neg hlt]
    exact ⟨rfl, own, hempty (not_lt.mp hlt)⟩

/-! ### Growing -/

theorem leaf_or {a b : ℕ} (h : leaf a = true) : leaf (a ||| b) = true := by
  unfold leaf at *
  grind

theorem sbrkPerm_lt (hperm : xperm < 2 ^ 10) : pteR ||| pteU ||| xperm < 2 ^ 10 :=
  Nat.or_lt_two_pow (by decide) hperm

end Owned

def Dense (r hi : ℕ) (own : ℕ → Owner) : Prop :=
  ∀ va < hi, va % pgsize = 0 → ∃ x, own x = .user r va

theorem Dense.le_slabMem (h : Owned L m own T U) (hd : Dense r a own) (hal : a % pgsize = 0) :
    a ≤ slabMem := by
  have hpage : ∀ k, ∃ x, k < a / pgsize → own x = .user r (k * pgsize) := by
    intro k
    by_cases hk : k < a / pgsize
    · have hlt : k * pgsize < a := by
        unfold pgsize at *
        omega
      obtain ⟨x, hx⟩ := hd (k * pgsize) hlt (Nat.mul_mod_left ..)
      exact ⟨x, fun _ => hx⟩
    · exact ⟨0, fun hc => absurd hc hk⟩
  choose f hf using hpage
  have hbound : ∀ {k}, k < a / pgsize → f k < slabMem := fun {k} hk =>
    (h.page (x := f k) (by rw [hf k hk]; nofun)).2.2
  -- Different addresses have different pages.
  have hinj : Set.InjOn f (Finset.range (a / pgsize)) := by
    intro j hj k hk heq
    have hjk := (hf j (Finset.mem_range.mp hj)).symm.trans ((congrArg own heq).trans (hf k (Finset.mem_range.mp hk)))
    injection hjk with _ hva
    exact Nat.eq_of_mul_eq_mul_right (by decide) hva
  have hal' : ∀ {k}, k < a / pgsize → f k % pgsize = 0 := fun {k} hk =>
    (h.page (x := f k) (by rw [hf k hk]; nofun)).1
  have hcard : (Finset.range (a / pgsize)).card ≤ (Finset.range (slabMem / pgsize)).card := by
    refine Finset.card_le_card_of_injOn (fun k => f k / pgsize) (fun k hk => ?_) fun j hj k hk heq => ?_
    · have hlt := hbound (Finset.mem_range.mp hk)
      have hmod := hal' (Finset.mem_range.mp hk)
      refine Finset.mem_coe.mpr (Finset.mem_range.mpr ?_)
      have hslab : slabMem % pgsize = 0 := by decide
      grind [pgsize]
    grind [pgsize]
  grind [Finset.card_range, pgsize]

theorem Extends.unmapped (h : Extends L T U r (Set.Ico lo hi) own0 m0 own m) (hr : r ∈ U)
    (hbelow : ∀ x va, own0 x = .user r va → va < lo) (hle : lo ≤ hi) (hhi : hi < trapframe)
    (hal : hi % pgsize = 0) : valid (entry r hi m) = false := by
  cases hv : valid (entry r hi m) with
  | false => rfl
  | true =>
    have hown := h.owned.mapped hr hhi hal hv
    rcases h.grows _ with hsame | ⟨_, htable | ⟨va, hva, huser⟩⟩
    · have hlt := hbelow _ _ (hsame.symm.trans hown)
      omega
    · cases hown.symm.trans htable
    grind

/-- Every page from `lo` up to `hi` is mapped with these permissions. -/
def MapsAll (r lo hi perm : ℕ) (m : Memory) : Prop :=
  ∀ va, lo ≤ va → va < hi → va % pgsize = 0 → ∃ pa, pa % pgsize = 0 ∧ entry r va m = mkPte pa perm

/-- User memory of `r` has changed from `lo` up to `hi`, where it has new pages. -/
structure Adds (L : Linker) (T U : Set ℕ) (r lo hi : ℕ) (own0 : ℕ → Owner) (m0 : Memory)
    (own : ℕ → Owner) (m : Memory) : Prop where
  extended : Extends L T U r (Set.Ico lo hi) own0 m0 own m
  entries : SameElse T r lo hi m0 m

/-- Only pages for the page table `r` were taken. -/
structure Undone (L : Linker) (T U : Set ℕ) (r lo : ℕ) (own0 : ℕ → Owner) (m0 : Memory)
    (own : ℕ → Owner) (m : Memory) : Prop where
  extended : Extends L T U r ∅ own0 m0 own m
  entries : SameElse T r lo trapframe m0 m

namespace Adds

variable (h : Adds L T U r lo hi own0 m0 own m)
include h

theorem mono : Adds L T U r lo (hi + pgsize) own0 m0 own m := by
  refine ⟨h.extended.mono fun b hb => ⟨hb.1, ?_⟩, h.entries.mono le_rfl (Nat.le_add_right ..)⟩
  exact hb.2.trans_le (Nat.le_add_right ..)

theorem page {pte : ℕ} (hle : lo ≤ hi) (hal : hi % pgsize = 0) (hset : SetEntry T r hi pte m m')
    (hext : Extends L T U r {hi} own m own' m') : Adds L T U r lo (hi + pgsize) own0 m0 own' m' := by
  have hpos : 0 < pgsize := by decide
  refine ⟨h.mono.extended.trans (hext.mono ?_), h.mono.entries.trans ((hset.others hal).mono hle le_rfl)⟩
  grind

theorem undo (htop : hi ≤ trapframe) (hbelow : ∀ x va, own0 x = .user r va → va < lo) {m1 : Memory}
    {own1 : ℕ → Owner} (hext : Extends L T U r ∅ own m own1 m1) (hent : SameEntries T m m1)
    (hs : Shrinks L T U r lo hi own1 m1 own' m') : Undone L T U r lo own0 m0 own' m' := by
  refine ⟨(h.extended.trans (hext.mono (Set.empty_subset _))).giveBack (fun _ hb => hb) ?_ hs,
    ((h.entries.trans hent.others).trans hs.entries).mono le_rfl htop⟩
  rintro x ⟨b, hb, hlo, _⟩
  exact absurd (hbelow x b hb) hlo.not_gt

end Adds

/-- User memory of `r` has grown from `lo` up to `hi`. -/
structure Fills (L : Linker) (T U : Set ℕ) (r lo hi perm : ℕ) (own0 : ℕ → Owner) (m0 : Memory)
    (own : ℕ → Owner) (m : Memory) : Prop extends Adds L T U r lo hi own0 m0 own m where
  maps : MapsAll r lo hi perm m

namespace Fills

variable {perm : ℕ}

theorem refl (h : Owned L m own T U) : Fills L T U r lo lo perm own m own m := by
  refine ⟨⟨.refl h, .refl⟩, fun va hlo hhi => ?_⟩
  omega

theorem step (h : Fills L T U r lo hi perm own0 m0 own m) (hr : r ∈ T) (hle : lo ≤ hi)
    (hal : hi % pgsize = 0) (hhi : hi < sv39) {mem : ℕ} (hmem : mem % pgsize = 0)
    (hset : SetEntry T r hi (mkPte mem perm) m m')
    (hext : Extends L T U r {hi} own m own' m') :
    Fills L T U r lo (hi + pgsize) perm own0 m0 own' m' := by
  refine ⟨h.page hle hal hset hext, fun va hlo hlt hva => ?_⟩
  by_cases hbelow : va < hi
  · obtain ⟨pa, hpal, hpa⟩ := h.maps va hlo hbelow hva
    refine ⟨pa, hpal, ?_⟩
    rw [hset r hr va (hbelow.trans hhi), if_neg, hpa]
    grind [pgsize]
  · have hvahi : va = hi := by
      unfold pgsize at *
      omega
    rw [hvahi]
    exact ⟨mem, hmem, by rw [hset r hr hi hhi, if_pos ⟨rfl, rfl⟩]⟩

theorem dense (h : Fills L T U r lo hi perm own0 m0 own m) (hr : r ∈ U) (hhi : hi ≤ trapframe)
    (hd : Dense r lo own0) : Dense r hi own := by
  intro va hva hal
  by_cases hlo : va < lo
  · obtain ⟨x, hx⟩ := hd va hlo hal
    exact ⟨x, (h.extended.grows.keeps (by rw [hx]; nofun)).trans hx⟩
  · obtain ⟨pa, _, hpa⟩ := h.maps va (not_lt.mp hlo) hva hal
    exact ⟨_, h.extended.owned.mapped hr (hva.trans_le hhi) hal (by rw [hpa]; exact valid_mkPte)⟩

end Fills

namespace Owned

theorem giveBack {perm : ℕ} (h : Fills L T U r oldsz a perm own0 m0 own m) (hr : r ∈ U)
    (hold : oldsz % pgsize = 0) (hal : a % pgsize = 0) (hle : oldsz ≤ a) (htop : a ≤ trapframe)
    (hbelow : ∀ x va, own0 x = .user r va → va < oldsz) {m1 : Memory} {own1 : ℕ → Owner}
    (hext : Extends L T U r ∅ own m own1 m1) (hent : SameEntries T m m1) :
    Outcome E (uvmdealloc L r a oldsz m1) fun res => ∃ own', Undone L T U r oldsz own0 m0 own' res.2 := by
  refine (hext.owned.uvmdealloc_spec hr htop).mono fun res ⟨_, own', hs⟩ => ⟨own', ?_⟩
  rw [min_eq_right hle, pgroundup_of_aligned htop hal,
    pgroundup_of_aligned (hle.trans htop) hold] at hs
  exact h.undo htop hbelow hext hent hs

/-- `own0` and `m0` are from before the call, and the loop has filled the pages below `a`. -/
theorem allocLoop_spec (h : Fills L T U r oldsz a (pteR ||| pteU ||| xperm) own0 m0 own m)
    (hr : r ∈ U) (hold : oldsz % pgsize = 0) (hal : a % pgsize = 0) (hle : oldsz ≤ a)
    (htop : a ≤ trapframe) (hperm : xperm < 2 ^ 10)
    (hbelow : ∀ x va, own0 x = .user r va → va < oldsz)
    (hlim : a + n * pgsize ≤ trapframe ∨ Dense r oldsz own0) :
    Outcome E (allocLoop L r oldsz newsz xperm n a m) fun res => ∃ own',
      (res.1 = newsz ∧ a + n * pgsize ≤ trapframe ∧
        Fills L T U r oldsz (a + n * pgsize) (pteR ||| pteU ||| xperm) own0 m0 own' res.2) ∨
      (res.1 = 0 ∧ Undone L T U r oldsz own0 m0 own' res.2) := by
  induction n generalizing a m own with
  | zero =>
    rw [Nat.zero_mul]
    exact ⟨own, .inl ⟨rfl, htop, h⟩⟩
  | succ n ih =>
    have hown := h.extended.owned
    have hend := next_page a n
    have hlt : a < trapframe := by
      rcases hlim with hlim | hd
      · have hpos : 0 < pgsize := by decide
        omega
      · exact Nat.lt_of_le_of_lt ((h.dense hr htop hd).le_slabMem hown hal) (by decide)
    have hnext : a + pgsize ≤ trapframe := by
      have hmod : trapframe % pgsize = 0 := by decide
      unfold pgsize at *
      omega
    have hback : ∀ {m1 own1}, Extends L T U r ∅ own m own1 m1 → SameEntries T m m1 →
        Outcome E (uvmdealloc L r a oldsz m1 >>= fun p => pure (0, p.2)) fun res : ℕ × Memory =>
          ∃ own', (res.1 = newsz ∧ a + (n + 1) * pgsize ≤ trapframe ∧
            Fills L T U r oldsz (a + (n + 1) * pgsize) (pteR ||| pteU ||| xperm) own0 m0 own' res.2) ∨
          (res.1 = 0 ∧ Undone L T U r oldsz own0 m0 own' res.2) := by
      intro m1 own1 hext hent
      refine (giveBack h hr hold hal hle htop hbelow hext hent).bind ?_
      rintro ⟨_, m2⟩ ⟨own', hback⟩
      exact ⟨own', .inr ⟨rfl, hback⟩⟩
    unfold allocLoop
    rcases hown.kalloc_spec with hnull | ⟨mem, m1, hk, hmem, hmem0, hs1, hb1, h1⟩
    · simp only [hnull, if_true]
      exact hback (.refl hown) .refl
    simp only [hk, if_neg hmem0]
    have hheld : update own mem Owner.held mem = .held := update_self ..
    have hent2 : SameEntries T m (memset mem 0 m1) :=
      (hown.sameEntries hs1).trans (h1.sameEntries (sameTables_memset (held_ne_table hheld)))
    have hb2 : SameBytes own m (memset mem 0 m1) := by
      intro x hx
      have hne : x ≠ mem := by
        rintro rfl
        exact hx hmem
      exact (memset_bytes_ne hne).trans (hb1 x hx)
    refine (hown.mapFresh hmem (h1.fill hheld 0) hent2 hb2 hr hlt hal
      (h.extended.unmapped hr hbelow hle hlt hal) (sbrkPerm_lt hperm) (leaf_or rfl)).bind ?_
    rintro ⟨result, m3⟩ ⟨hb3, ⟨hres, hset, _, own3, _, hext⟩ | ⟨hres, hent3, own3, h3, hheld3, hgrows⟩⟩
    · obtain rfl : result = 0 := hres
      rw [if_neg (not_not.mpr rfl)]
      have hmemal := (hown.page (x := mem) (by rw [hmem]; nofun)).1
      have hstep := h.step (hown.sub hr) hle hal (trapframe_lt_sv39 hlt) hmemal hset hext
      have hrest := ih hstep (by rw [Nat.add_mod_right, hal]) (by omega) hnext (by rwa [hend])
      rwa [hend] at hrest
    · obtain rfl : result = -1 := hres
      obtain ⟨m4, hm4, hent, own4, hext⟩ := freeFresh hmem h3 hheld3 hgrows hb3 hent3
      rw [if_pos (show (-1 : ℤ) ≠ 0 by decide), hm4]
      exact hback hext hent

section
variable (h : Owned L m own T U)
include h

/-- The size that is returned is mapped, or 0 is and only pages for the table were taken. -/
theorem uvmalloc_spec (hr : r ∈ U) (hold : oldsz ≤ trapframe)
    (hperm : xperm < 2 ^ 10) (hbelow : ∀ x va, own x = .user r va → va < pgroundup oldsz)
    (hlim : newsz ≤ trapframe ∨ Dense r (pgroundup oldsz) own) :
    Outcome E (uvmalloc L r oldsz newsz xperm m) fun res => ∃ own',
      (res.1 = max oldsz newsz ∧ res.1 ≤ trapframe ∧ Fills L T U r (pgroundup oldsz)
        (pgroundup res.1) (pteR ||| pteU ||| xperm) own m own' res.2) ∨
      (res.1 = 0 ∧ Undone L T U r (pgroundup oldsz) own m own' res.2) := by
  unfold uvmalloc
  by_cases hlt : newsz < oldsz
  · rw [if_pos hlt]
    exact ⟨own, .inl ⟨(max_eq_left hlt.le).symm, hold, .refl h⟩⟩
  rw [if_neg hlt]
  have hle : oldsz ≤ newsz := not_lt.mp hlt
  have hmod := pgroundup_mod hold
  have hlim' : pgroundup oldsz + (newsz - pgroundup oldsz + pgsize - 1) / pgsize * pgsize ≤ trapframe ∨
      Dense r (pgroundup oldsz) own := by
    refine hlim.imp_left fun htop => ?_
    rw [pgroundup_add hle htop]
    exact pgroundup_le htop
  refine (allocLoop_spec (.refl h) hr hmod hmod le_rfl (pgroundup_le hold) hperm hbelow hlim').mono ?_
  rintro ⟨res, m'⟩ ⟨own', ⟨hres, htop, hfill⟩ | hfail⟩
  · obtain rfl : res = newsz := hres
    have hsz : res ≤ trapframe := by
      unfold pgsize at *
      omega
    grind [pgroundup_add]
  · exact ⟨own', .inr hfail⟩

/-! ### Copying -/

theorem setBytes (bytes : ℕ → ℕ → ℕ) : Owned L {m with bytes := bytes} own T U :=
  h.change (fun _ _ _ => rfl) h.list (fun _ _ => Iff.rfl) (fun _ _ _ => Iff.rfl) fun _ hne => hne

theorem sameEntries_setBytes (bytes : ℕ → ℕ → ℕ) : SameEntries T m {m with bytes := bytes} :=
  h.sameEntries fun _ _ _ => rfl

theorem leaf_entry (hr : r ∈ U) (hv : valid (entry r va m) = true) :
    leaf (entry r va m) = true := by
  obtain ⟨low, _, hlow, hentry⟩ := entry_eq_of_valid hv
  rw [hentry] at hv ⊢
  exact h.flags hr rfl hlow _ (px_lt 0) hv

end

theorem leaf_pteFlags {pte : ℕ} (h : leaf pte = true) : leaf (pteFlags pte) = true := by
  unfold leaf pteFlags at *
  rwa [Nat.and_assoc]

theorem copyLoop_succ {old new i : ℕ} (hi : i < maxva) :
    copyLoop L old new (n + 1) i m =
      (if valid (entry old i m) = false then copyLoop L old new n (i + pgsize) m
      else
        let (mem, m1) := kalloc m
        if mem = 0 then do
          let m ← uvmunmap L new 0 (i / pgsize) true m1
          return (-1, m)
        else do
          let copied := update m1.bytes mem (m1.bytes (pte2pa (entry old i m)))
          let m2 := {m1 with bytes := copied}
          let (result, m) ← mappages new i pgsize mem (pteFlags (entry old i m)) m2
          if result ≠ 0 then
            let m ← pageKfree L mem m
            let m ← uvmunmap L new 0 (i / pgsize) true m
            return (-1, m)
          else copyLoop L old new n (i + pgsize) m) := by
  rw [copyLoop, walk, if_neg hi.not_ge, walkLoop_false, entry, walkLoop_false]
  simp only [returns_bind]
  by_cases h0 : (lookup (child m) old (path i)).getD 0 = 0
  · simp only [h0, true_or, if_true, valid_zero]
  · simp only [h0, false_or, if_false]

end Owned

/-- Below `hi` the page table `new` maps a copy of each page that `old` maps, with its flags. -/
def Copied (old new hi : ℕ) (m0 m : Memory) : Prop :=
  ∀ va < hi, va % pgsize = 0 → valid (entry new va m) = valid (entry old va m0) ∧
    (valid (entry old va m0) = true → pteFlags (entry new va m) = pteFlags (entry old va m0) ∧
      m.bytes (pte2pa (entry new va m)) = m0.bytes (pte2pa (entry old va m0)))

/-- The page table `new` has got copies of the pages of `old` below `hi`. -/
structure Copies (L : Linker) (T U : Set ℕ) (old new hi : ℕ) (own0 : ℕ → Owner) (m0 : Memory)
    (own : ℕ → Owner) (m : Memory) : Prop extends Adds L T U new 0 hi own0 m0 own m where
  copied : Copied old new hi m0 m

/-- What copying the pages below `hi` leads to. -/
def CopyResult (L : Linker) (T U : Set ℕ) (old new hi : ℕ) (own0 : ℕ → Owner) (m0 : Memory)
    (res : ℤ × Memory) : Prop :=
  ∃ own', res.1 = 0 ∧ Copies L T U old new hi own0 m0 own' res.2 ∨
    res.1 = -1 ∧ Undone L T U new 0 own0 m0 own' res.2

namespace Copies

variable {old new : ℕ}

theorem refl (h : Owned L m own T U) : Copies L T U old new 0 own m own m :=
  ⟨⟨.refl h, .refl⟩, fun _ hva => absurd hva (Nat.not_lt_zero _)⟩

section
variable (h : Copies L T U old new hi own0 m0 own m)
include h

theorem old_entry (hold : old ∈ T) (hne : old ≠ new)
    (hva : va < sv39) : entry old va m = entry old va m0 :=
  h.entries old hold va hva (.inl hne)

theorem skip (hold : old ∈ T) (hne : old ≠ new)
    (hhi : hi < trapframe) (hal : hi % pgsize = 0) (hnew : valid (entry new hi m) = false)
    (hinv : valid (entry old hi m) = false) :
    Copies L T U old new (hi + pgsize) own0 m0 own m := by
  refine ⟨h.mono, fun va hva hval => ?_⟩
  by_cases hlt : va < hi
  · exact h.copied va hlt hval
  grind [Copies.old_entry, trapframe_lt_sv39, pgsize]

theorem step (hold : old ∈ U) (hnew : new ∈ U)
    (hne : old ≠ new) (hhi : hi < trapframe) (hal : hi % pgsize = 0)
    (hv : valid (entry old hi m) = true) {mem : ℕ} (hmem : mem % pgsize = 0)
    (hset : SetEntry T new hi (mkPte mem (pteFlags (entry old hi m))) m m')
    (hbytes : m'.bytes mem = m.bytes (pte2pa (entry old hi m)))
    (hext : Extends L T U new {hi} own m own' m') :
    Copies L T U old new (hi + pgsize) own0 m0 own' m' := by
  have hown := h.extended.owned
  have holdT := hown.sub hold
  have hnewT := hown.sub hnew
  refine ⟨h.page (Nat.zero_le _) hal hset hext, fun va hva hval => ?_⟩
  by_cases hlt : va < hi
  · have hsame : entry new va m' = entry new va m := by
      rw [hset new hnewT va (trapframe_lt_sv39 (hlt.trans hhi)), if_neg]
      rintro ⟨_, hpage⟩
      unfold pgsize at *
      omega
    obtain ⟨hvalid, hcopy⟩ := h.copied va hlt hval
    rw [hsame]
    refine ⟨hvalid, fun hv0 => ⟨(hcopy hv0).1, ?_⟩⟩
    -- The copy is in use, so that it is not what was taken for this page.
    have huse := hown.mapped hnew (hlt.trans hhi) hval (hvalid.trans hv0)
    rw [hext.bytes _ (by rw [huse]; nofun)]
    exact (hcopy hv0).2
  · have hvahi : va = hi := by
      unfold pgsize at *
      omega
    rw [hvahi]
    have hentry : entry new hi m' = mkPte mem (pteFlags (entry old hi m)) := by
      rw [hset new hnewT hi (trapframe_lt_sv39 hhi), if_pos ⟨rfl, rfl⟩]
    have hpa := pte2pa_mkPte hmem (pteFlags_lt (entry old hi m))
    have hflags : pteFlags (mkPte mem (pteFlags (entry old hi m))) = _ := pteFlags_mkPte (pteFlags_lt (entry old hi m))
    have hpage := hown.mapped hold hhi hal hv
    rw [pteFlags_valid hv] at hflags
    rw [h.old_entry holdT hne (trapframe_lt_sv39 hhi)] at *
    rw [hentry, valid_mkPte, hpa, hflags, hv]
    refine ⟨rfl, fun _ => ⟨rfl, ?_⟩⟩
    rw [hbytes]
    have hpage0 : own0 (pte2pa (entry old hi m0)) ≠ .free := by
      intro hfree
      rcases h.extended.grows (pte2pa (entry old hi m0)) with hsame | ⟨_, htable | ⟨b, _, huser⟩⟩
      · cases (hsame.trans hfree).symm.trans hpage
      · cases htable.symm.trans hpage
      grind
    exact h.extended.bytes _ hpage0

end

end Copies

namespace Owned

theorem copyLoop_spec {old new i : ℕ} (h : Copies L T U old new i own0 m0 own m) (hold : old ∈ U)
    (hnew : new ∈ U) (hne : old ≠ new) (hal : i % pgsize = 0) (htop : i + n * pgsize ≤ trapframe)
    (hfresh : ∀ x va, own0 x ≠ .user new va) :
    Outcome E (copyLoop L old new n i m) (CopyResult L T U old new (i + n * pgsize) own0 m0) := by
  induction n generalizing i m own with
  | zero =>
    rw [Nat.zero_mul]
    exact ⟨own, .inl ⟨rfl, h⟩⟩
  | succ n ih =>
    have hown := h.extended.owned
    have hend := next_page i n
    have hpos : 0 < pgsize := by decide
    have hi : i < trapframe := by omega
    have hal' : (i + pgsize) % pgsize = 0 := by rw [Nat.add_mod_right, hal]
    have hunmapped : valid (entry new i m) = false :=
      h.extended.unmapped hnew (fun x va hx => absurd hx (hfresh x va)) (Nat.zero_le i) hi hal
    have hrest : ∀ {m1 own1}, Copies L T U old new (i + pgsize) own0 m0 own1 m1 →
        Outcome E (copyLoop L old new n (i + pgsize) m1)
          (CopyResult L T U old new (i + (n + 1) * pgsize) own0 m0) := by
      intro m1 own1 h1
      rw [← hend]
      exact ih h1 hal' (hend ▸ htop)
    have hback : ∀ {m1 own1}, Extends L T U new ∅ own m own1 m1 → SameEntries T m m1 →
        Outcome E (uvmunmap L new 0 (i / pgsize) true m1 >>= fun m2 => pure (-1, m2))
          (CopyResult L T U old new (i + (n + 1) * pgsize) own0 m0) := by
      intro m1 own1 hext hent
      have hdiv : 0 + i / pgsize * pgsize = i := by
        unfold pgsize at *
        omega
      refine (hext.owned.uvmunmap_spec hnew rfl (by omega)).bind fun m2 ⟨own', hs⟩ => ?_
      rw [hdiv] at hs
      exact ⟨own', .inr ⟨rfl, h.undo hi.le (fun x va hx => absurd hx (hfresh x va)) hext hent hs⟩⟩
    rw [copyLoop_succ (trapframe_lt_maxva hi)]
    by_cases hv : valid (entry old i m) = false
    · rw [if_pos hv]
      exact hrest (h.skip (hown.sub hold) hne hi hal hunmapped hv)
    rw [if_neg hv]
    have hv := Bool.eq_true_of_not_eq_false hv
    rcases hown.kalloc_spec with hnull | ⟨mem, m1, hk, hmem, hmem0, hs1, hb1, h1⟩
    · simp only [hnull, if_true]
      exact hback (.refl hown) .refl
    simp only [hk, if_neg hmem0]
    have hsrc := hown.mapped hold hi hal hv
    have hent2 := fun bytes => (hown.sameEntries hs1).trans (h1.sameEntries_setBytes bytes)
    have hmemal := (hown.page (x := mem) (by rw [hmem]; nofun)).1
    have hsrcne : pte2pa (entry old i m) ≠ mem := fun heq => by
      cases (heq ▸ hsrc).symm.trans hmem
    refine (hown.mapFresh hmem (h1.setBytes _) (hent2 _) (fun x hx => ?_) hnew hi hal hunmapped
      (pteFlags_lt _) (leaf_pteFlags (hown.leaf_entry hold hv))).bind ?_
    · have hxm : x ≠ mem := by
        rintro rfl
        exact hx hmem
      exact (update_of_ne hxm ..).trans (hb1 x hx)
    rintro ⟨result, m3⟩ ⟨hb3, ⟨hres, hset, hbytes, own3, _, hext⟩ |
      ⟨hres, hent3, own3, h3, hheld3, hgrows⟩⟩
    · obtain rfl : result = 0 := hres
      rw [if_neg (not_not.mpr rfl)]
      refine hrest (h.step hold hnew hne hi hal hv hmemal hset ?_ hext)
      rw [hbytes]
      show update m1.bytes mem _ mem = _
      rw [update_self]
      exact hb1 _ (by rw [hsrc]; nofun)
    · obtain rfl : result = -1 := hres
      obtain ⟨m4, hm4, hent, own4, hext⟩ := freeFresh hmem h3 hheld3 hgrows hb3 hent3
      rw [if_pos (show (-1 : ℤ) ≠ 0 by decide), hm4]
      exact hback hext hent

theorem uvmcopy_spec {old new : ℕ} (h : Owned L m own T U) (hold : old ∈ U) (hnew : new ∈ U)
    (hne : old ≠ new) (hsz : sz ≤ trapframe) (hfresh : ∀ x va, own x ≠ .user new va) :
    Outcome E (uvmcopy L old new sz m) (CopyResult L T U old new (pgroundup sz) own m) := by
  have hpages : 0 + (sz + pgsize - 1) / pgsize * pgsize = pgroundup sz := by
    rw [Nat.zero_add, pgroundup_eq hsz]
  have hcopy := copyLoop_spec (E := E) (n := (sz + pgsize - 1) / pgsize) (.refl h) hold hnew hne rfl
    (by rw [hpages]; exact pgroundup_le hsz) hfresh
  rwa [hpages] at hcopy

end Owned

end Xv6.Vm
