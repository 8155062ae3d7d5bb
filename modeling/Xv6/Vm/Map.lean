import Xv6.Vm.Start

/-! Page tables are finite maps (`kernel/vm.c`).

A page table that `uvmcreate` has made is changed by `mappages` and `uvmunmap`, while others take
pages and free them. What it translates is the map that the calls so far have made, going by their
results (`History`): a `mappages` that returns -1 has mapped a prefix of its range. -/
namespace Xv6.Vm
open Linked Radix

variable {L : Linker} {m m' : Memory} {own own' : ℕ → Owner} {T U : Set ℕ}
  {r x a n k va pa perm : ℕ} {E : Stop → Prop}

/-! ### The abstract map -/

/-- The physical page and the permissions of each virtual page that is mapped. -/
def Translation : Type := ℕ → Option (ℕ × ℕ)

namespace Translation

def empty : Translation := fun _ => none

/-- Maps `n` pages from the page `start` on. -/
def map (M : Translation) (start n pa perm : ℕ) : Translation := fun page =>
  if start ≤ page ∧ page < start + n then some (pa + (page - start) * pgsize, perm) else M page

def unmap (M : Translation) (start n : ℕ) : Translation := fun page =>
  if start ≤ page ∧ page < start + n then none else M page

end Translation

/-- The page table with root `r` translates what `M` does. -/
def Represents (m : Memory) (r : ℕ) (M : Translation) : Prop :=
  ∀ va < maxva, (valid (entry r va m) = true ↔ (M (va / pgsize)).isSome) ∧
    ∀ pa perm, M (va / pgsize) = some (pa, perm) →
      pte2pa (entry r va m) = pa ∧ pteFlags (entry r va m) = perm ||| pteV

/-! ### Mapping a range -/

/-- `k` pages from `a` on are mapped in the page table `r`, and nothing else changes. -/
def MapsRange (T : Set ℕ) (r a k pa perm : ℕ) (m m' : Memory) : Prop :=
  ∀ q ∈ T, ∀ va < sv39, entry q va m' =
    if q = r ∧ a / pgsize ≤ va / pgsize ∧ va / pgsize < a / pgsize + k then
      mkPte (pa + (va / pgsize - a / pgsize) * pgsize) perm
    else entry q va m

theorem SetEntry.mapsRange {m1 : Memory} (h : SetEntry T r a (mkPte pa perm) m m1)
    (h' : MapsRange T r (a + pgsize) k (pa + pgsize) perm m1 m') :
    MapsRange T r a (k + 1) pa perm m m' := by
  intro q hq va hva
  have hnext : (a + pgsize) / pgsize = a / pgsize + 1 := Nat.add_div_right a (by decide)
  rw [h' q hq va hva, h q hq va hva, hnext]
  generalize va / pgsize = v
  generalize a / pgsize = b
  by_cases hrest : q = r ∧ b + 1 ≤ v ∧ v < b + 1 + k
  · rw [if_pos hrest, if_pos ⟨hrest.1, by omega, by omega⟩]
    have hsucc : v - b = v - (b + 1) + 1 := by omega
    grind
  grind

namespace Owned

theorem mapLoop_fixed (h : Owned L m own T U) (hr : r ∈ T) (hfix : r ∉ U) (hal : a % pgsize = 0)
    (hhi : a + n * pgsize ≤ maxva) (hinv : ∀ i < n, valid (entry r (a + i * pgsize) m) = false) :
    Outcome E (mapLoop r perm n a pa m) fun res => ∃ own' k, Extends L T U r ∅ own m own' res.2 ∧
      MapsRange T r a k pa perm m res.2 ∧ (res.1 = 0 ∧ k = n ∨ res.1 = -1 ∧ k < n) := by
  induction n generalizing a pa m own with
  | zero =>
    refine ⟨own, 0, .refl h, fun q _ va _ => ?_, .inl ⟨rfl, rfl⟩⟩
    rw [if_neg (by omega)]
  | succ n ih =>
    have hpos : 0 < pgsize := by decide
    have hend := next_page a n
    have hva : a < maxva := by omega
    have hfirst : valid (entry r a m) = false := by
      have hzero := hinv 0 (Nat.succ_pos n)
      rwa [Nat.zero_mul, Nat.add_zero] at hzero
    obtain ⟨m1, own1, hext, hent, hfail | ⟨low, hlow, hstep⟩⟩ := h.mapLoop_step hr hva hfirst n pa perm
    · rw [hfail]
      refine ⟨own1, 0, hext, fun q hq va hva => ?_, .inr ⟨rfl, Nat.succ_pos n⟩⟩
      rw [if_neg (by omega), hent q hq va hva]
    · rw [hstep]
      have h2 : Owned L (m1.setPte low (px 0 a) (mkPte pa perm)) own1 T U := hext.owned.setFixed hr (fun hu => absurd hu hfix)
        (maxva_lt_sv39 hva) hal hlow fun hu => absurd hu hfix
      have hset : SetEntry T r a (mkPte pa perm) m (m1.setPte low (px 0 a) (mkPte pa perm)) := by
        intro q hq b hb
        rw [← hent q hq b hb]
        exact hext.owned.setEntry hr hlow (maxva_lt_sv39 hva) _ q hq b hb
      have hnext : (a + pgsize) / pgsize = a / pgsize + 1 := Nat.add_div_right a hpos
      have hinv2 : ∀ i < n, valid (entry r (a + pgsize + i * pgsize)
          (m1.setPte low (px 0 a) (mkPte pa perm))) = false := by
        intro i hi
        have hpage : (a + pgsize + i * pgsize) / pgsize = a / pgsize + 1 + i := by
          rw [Nat.add_mul_div_right _ _ hpos, hnext]
        have hlt : i * pgsize + pgsize ≤ n * pgsize := by
          rw [← Nat.succ_mul]
          exact Nat.mul_le_mul_right _ hi
        rw [hset r hr _ (maxva_lt_sv39 (by omega)), if_neg (by omega), next_page]
        exact hinv (i + 1) (Nat.succ_lt_succ hi)
      refine (ih h2 (by rw [Nat.add_mod_right, hal]) (hend ▸ hhi) hinv2).mono ?_
      rintro ⟨res, m'⟩ ⟨own', k, hext', hmaps, hres⟩
      have hext2 : Extends L T U r ∅ own m own1 (m1.setPte low (px 0 a) (mkPte pa perm)) :=
        ⟨h2, hext.grows, hext.bytes⟩
      refine ⟨own', k + 1, hext2.trans hext', hset.mapsRange hmaps, ?_⟩
      exact hres.imp (fun hc => ⟨hc.1, congrArg (· + 1) hc.2⟩) fun hc => ⟨hc.1, Nat.succ_lt_succ hc.2⟩

end Owned

/-! ### Unmapping a range -/

/-- The physical pages that `n` pages from `a` on are mapped to. -/
def mappedPages (r : ℕ) (m : Memory) : ℕ → ℕ → List ℕ
  | 0, _ => []
  | n + 1, a =>
    if valid (entry r a m) then pte2pa (entry r a m) :: mappedPages r m n (a + pgsize)
    else mappedPages r m n (a + pgsize)

theorem mappedPages_congr (h : ∀ va, a ≤ va → va < a + n * pgsize → entry r va m' = entry r va m) :
    mappedPages r m' n a = mappedPages r m n a := by
  induction n generalizing a with
  | zero => rfl
  | succ n ih =>
    have hpos : 0 < pgsize := by decide
    grind [mappedPages]

namespace Owned

theorem unmapLoop_held (h : Owned L m own T U) (hr : r ∈ T) (hfix : r ∉ U) (hal : a % pgsize = 0)
    (hhi : a + n * pgsize ≤ maxva) (hheld : ∀ x ∈ mappedPages r m n a, own x = .held)
    (hnodup : (mappedPages r m n a).Nodup) :
    Outcome E (unmapLoop L r true n a m) fun m' =>
      Owned L m' (fun x => if x ∈ mappedPages r m n a then .free else own x) T U ∧
        Cleared T r a n m m' := by
  induction n generalizing a m own with
  | zero =>
    refine ⟨?_, .refl, fun va hlo hlt => by omega⟩
    simpa only [mappedPages, List.not_mem_nil, if_false] using h
  | succ n ih =>
    have hpos : 0 < pgsize := by decide
    have hend := next_page a n
    have hva : a < maxva := by omega
    have hal' : (a + pgsize) % pgsize = 0 := by rw [Nat.add_mod_right, hal]
    cases hv : valid (entry r a m) with
    | false =>
      have hpages : mappedPages r m (n + 1) a = mappedPages r m n (a + pgsize) := by
        rw [mappedPages, hv]
        rfl
      rw [hpages] at hheld hnodup ⊢
      rw [unmapLoop_invalid hva hv]
      exact (ih h hal' (hend ▸ hhi) hheld hnodup).mono fun m' ⟨h', hc⟩ => ⟨h', hc.cons hr hal hhi .refl hv⟩
    | true =>
      obtain ⟨low, h0, hlow, hentry⟩ := entry_eq_of_valid hv
      have hpages : mappedPages r m (n + 1) a =
          pte2pa (entry r a m) :: mappedPages r m n (a + pgsize) := by
        rw [mappedPages, if_pos hv]
      rw [hpages] at hheld hnodup ⊢
      rw [hentry] at hv
      rw [unmapLoop_valid hva hlow h0 hv, if_pos rfl, ← hentry]
      obtain ⟨hnew, hnodup⟩ := List.nodup_cons.mp hnodup
      generalize pte2pa (entry r a m) = x at hheld hnew ⊢
      obtain ⟨m1, hm1, hs1, -, h1⟩ := h.pageKfree_spec (hheld x (List.mem_cons_self ..))
      have hlow1 : lookup (child m1) r (path a) = some low := by
        rw [h.lookup_congr hs1 hr le_rfl, hlow]
      have h2 : Owned L (m1.setPte low (px 0 a) 0) _ T U :=
        h1.setFixed hr (fun hu => absurd hu hfix) (maxva_lt_sv39 hva) hal hlow1 fun hu => absurd hu hfix
      have hset := h1.setEntry hr hlow1 (maxva_lt_sv39 hva) 0
      have he1 := (h.sameEntries hs1).others.trans (hset.others hal)
      have hcleared : valid (entry r a (m1.setPte low (px 0 a) 0)) = false := by
        rw [hset r hr a (maxva_lt_sv39 hva), if_pos ⟨rfl, rfl⟩]
        rfl
      have hrest : mappedPages r (m1.setPte low (px 0 a) 0) n (a + pgsize) =
          mappedPages r m n (a + pgsize) := by
        refine mappedPages_congr fun va hlo hlt => he1 r hr va (maxva_lt_sv39 ?_) (.inr (.inr hlo))
        omega
      rw [hm1]
      refine (ih h2 hal' (hend ▸ hhi) (fun y hy => ?_) (hrest ▸ hnodup)).mono ?_
      · grind
      rintro m' ⟨h', hc⟩
      refine ⟨?_, hc.cons hr hal hhi he1 hcleared⟩
      rw [hrest] at h'
      convert h' using 2
      grind

theorem uvmunmap_held (h : Owned L m own T U) (hr : r ∈ T) (hfix : r ∉ U) (hal : a % pgsize = 0)
    (hhi : a + n * pgsize ≤ maxva) (hheld : ∀ x ∈ mappedPages r m n a, own x = .held)
    (hnodup : (mappedPages r m n a).Nodup) :
    Outcome E (uvmunmap L r a n true m) fun m' =>
      Owned L m' (fun x => if x ∈ mappedPages r m n a then .free else own x) T U ∧
        Cleared T r a n m m' := by
  unfold uvmunmap
  rw [if_neg (not_not.mpr hal)]
  exact h.unmapLoop_held hr hfix hal hhi hheld hnodup

end Owned

/-! ### What a page table translates -/

namespace Represents

variable {M : Translation}

theorem of_entries (h : ∀ va, entry r va m = 0) : Represents m r .empty := by
  intro va _
  rw [h va]
  exact ⟨by simp [Translation.empty], fun pa perm hc => by cases hc⟩

theorem congr (h : Represents m r M) (hr : r ∈ T) (hs : SameEntries T m m') : Represents m' r M := by
  intro va hva
  rw [hs r hr va (maxva_lt_sv39 hva)]
  exact h va hva

theorem map (h : Represents m r M) (hr : r ∈ T) (hpa : pa % pgsize = 0) (hperm : perm < 2 ^ 10)
    (hm : MapsRange T r a k pa perm m m') : Represents m' r (M.map (a / pgsize) k pa perm) := by
  intro va hva
  rw [hm r hr va (maxva_lt_sv39 hva), Translation.map]
  by_cases hin : a / pgsize ≤ va / pgsize ∧ va / pgsize < a / pgsize + k
  · have hal : (pa + (va / pgsize - a / pgsize) * pgsize) % pgsize = 0 := by
      rw [Nat.add_mul_mod_self_right, hpa]
    rw [if_pos ⟨rfl, hin⟩, if_pos hin]
    refine ⟨by simp, fun pa' perm' heq => ?_⟩
    grind [pte2pa_mkPte, pteFlags_mkPte]
  · rw [if_neg (fun hc => hin hc.2), if_neg hin]
    exact h va hva

theorem unmap (h : Represents m r M) (hr : r ∈ T) (hal : a % pgsize = 0)
    (hc : Cleared T r a n m m') : Represents m' r (M.unmap (a / pgsize) n) := by
  obtain ⟨hs, hnone⟩ := hc
  intro va hva
  have hrange : (a / pgsize ≤ va / pgsize ∧ va / pgsize < a / pgsize + n) ↔
      a ≤ va ∧ va < a + n * pgsize := by
    unfold pgsize at *
    omega
  rw [Translation.unmap]
  by_cases hin : a ≤ va ∧ va < a + n * pgsize
  · grind
  · rw [if_neg (fun hc => hin (hrange.mp hc)), hs r hr va (maxva_lt_sv39 hva) (.inr (by omega))]
    exact h va hva

end Represents

/-! ### Sequences of calls -/

inductive MapCall
  | mappages (va size pa perm : ℕ)
  | uvmunmap (va npages : ℕ) (doFree : Bool)
  | kalloc
  | memset (page c : ℕ)
  | pageKfree (page : ℕ)
deriving DecidableEq

/-- The memory, the pages that callers of `kalloc` have, and the calls on the page table with what
they returned, the last one first. -/
structure Space where
  mem : Memory
  held : List ℕ
  log : List (MapCall × ℤ)

/-- A call, `r` being the root of the page table. -/
def mapCall (L : Linker) (r : ℕ) (w : Space) : MapCall → Except Stop Space
  | .mappages va size pa perm => do
    let (result, m) ← mappages r va size pa perm w.mem
    return {w with mem := m, log := (.mappages va size pa perm, result) :: w.log}
  | .uvmunmap va n doFree => do
    let m ← uvmunmap L r va n doFree w.mem
    let freed := if doFree then mappedPages r w.mem n va else []
    return ⟨m, w.held.filter (· ∉ freed), (.uvmunmap va n doFree, 0) :: w.log⟩
  | .kalloc =>
    let (page, m) := kalloc w.mem
    .ok {w with mem := m, held := if page = 0 then w.held else page :: w.held}
  | .memset page c => .ok {w with mem := memset page c w.mem}
  | .pageKfree page => do
    let m ← pageKfree L page w.mem
    return {w with mem := m, held := w.held.filter (· ≠ page)}

/-- Only pages that are not mapped are mapped, and only pages that a caller has are written or
freed, once each. Other ranges make the code panic. -/
def mayMap (r : ℕ) (w : Space) : MapCall → Prop
  | .mappages va size pa perm =>
    va % pgsize = 0 ∧ size % pgsize = 0 ∧ 0 < size ∧ va + size ≤ maxva ∧ pa % pgsize = 0 ∧
      pa + size ≤ 2 ^ 56 ∧ perm < 2 ^ 10 ∧
      ∀ i < size / pgsize, valid (entry r (va + i * pgsize) w.mem) = false
  | .uvmunmap va n doFree =>
    va % pgsize = 0 ∧ va + n * pgsize ≤ maxva ∧
      (doFree = true →
        (∀ x ∈ mappedPages r w.mem n va, x ∈ w.held) ∧ (mappedPages r w.mem n va).Nodup)
  | .kalloc => True
  | .memset page _ => page ∈ w.held
  | .pageKfree page => page ∈ w.held

def mapCalls (L : Linker) (r : ℕ) : Protocol Stop Space MapCall := ⟨mapCall L r, mayMap r⟩

instance (L : Linker) (r : ℕ) (w : Space) : ∀ c, Decidable ((mapCalls L r).allowed w c)
  | .mappages .. => inferInstanceAs (Decidable (_ ∧ _))
  | .uvmunmap .. => inferInstanceAs (Decidable (_ ∧ _))
  | .kalloc => .isTrue trivial
  | .memset .. => inferInstanceAs (Decidable (_ ∈ _))
  | .pageKfree _ => inferInstanceAs (Decidable (_ ∈ _))

/-- The map that calls with these results have made. -/
inductive History : List (MapCall × ℤ) → Translation → Prop
  | created : History [] .empty
  | mapped {log M va size pa perm} : History log M →
      History ((.mappages va size pa perm, 0) :: log) (M.map (va / pgsize) (size / pgsize) pa perm)
  | partly {log M va size pa perm k} : History log M → k < size / pgsize →
      History ((.mappages va size pa perm, -1) :: log) (M.map (va / pgsize) k pa perm)
  | unmapped {log M va n doFree} : History log M →
      History ((.uvmunmap va n doFree, 0) :: log) (M.unmap (va / pgsize) n)

/-- The pages of the page table are a tree of pages that nobody else has, and it translates what the
calls have mapped. -/
structure Sane (L : Linker) (r : ℕ) (w : Space) : Prop where
  owned : ∃ own, Owned L w.mem own {r} ∅ ∧ ∀ x ∈ w.held, own x = .held
  translates : ∃ M, History w.log M ∧ Represents w.mem r M

namespace Sane

variable {w : Space}

section
variable (h : Sane L r w)
include h

theorem mappages {size : ℕ} (ha : mayMap r w (.mappages a size pa perm)) :
    Outcome E (mapCall L r w (.mappages a size pa perm)) (Sane L r) := by
  obtain ⟨⟨own, hown, hheld⟩, M, hlog, hM⟩ := h
  obtain ⟨hal, hsz, hpos, hhi, hpa, -, hperm, hinv⟩ := ha
  have hcount : size / pgsize * pgsize = size := Nat.div_mul_cancel (Nat.dvd_of_mod_eq_zero hsz)
  have hloop : Outcome E (mapLoop r perm (size / pgsize) a pa w.mem) _ :=
    hown.mapLoop_fixed (Set.mem_singleton r) (Set.notMem_empty r) hal (by rwa [hcount]) hinv
  unfold mapCall Vm.mappages
  dsimp only
  rw [if_neg (not_not.mpr hal), if_neg (not_not.mpr hsz), if_neg hpos.ne']
  refine hloop.bind ?_
  rintro ⟨result, m'⟩ ⟨own', k, hext, hmaps, hres⟩
  refine ⟨⟨own', hext.owned, fun x hx => ?_⟩, ?_⟩
  · rw [hext.grows.keeps (by rw [hheld x hx]; nofun)]
    exact hheld x hx
  · refine ⟨_, ?_, hM.map (Set.mem_singleton r) hpa hperm hmaps⟩
    rcases hres with ⟨rfl, rfl⟩ | ⟨rfl, hk⟩
    · exact .mapped hlog
    · exact .partly hlog hk

theorem uvmunmap {doFree : Bool} (ha : mayMap r w (.uvmunmap a n doFree)) :
    Outcome E (mapCall L r w (.uvmunmap a n doFree)) (Sane L r) := by
  obtain ⟨⟨own, hown, hheld⟩, M, hlog, hM⟩ := h
  obtain ⟨hal, hhi, hfree⟩ := ha
  unfold mapCall
  cases doFree with
  | false =>
    refine (hown.uvmunmap_fixed (Set.mem_singleton r) (fun hr => hr.elim) hal hhi).bind ?_
    rintro m' ⟨hown', -, hc⟩
    exact ⟨⟨own, hown', fun x hx => hheld x (List.mem_of_mem_filter hx)⟩, _, .unmapped hlog,
      hM.unmap (Set.mem_singleton r) hal hc⟩
  | true =>
    obtain ⟨hsub, hnodup⟩ := hfree rfl
    refine (hown.uvmunmap_held (Set.mem_singleton r) (Set.notMem_empty r) hal hhi (fun x hx => hheld x (hsub x hx))
      hnodup).bind ?_
    rintro m' ⟨hown', hc⟩
    refine ⟨⟨_, hown', fun x hx => ?_⟩, _, .unmapped hlog, hM.unmap (Set.mem_singleton r) hal hc⟩
    grind

theorem kalloc : Outcome E (mapCall L r w .kalloc) (Sane L r) := by
  obtain ⟨⟨own, hown, hheld⟩, M, hlog, hM⟩ := h
  unfold mapCall
  rcases hown.kalloc_spec with hnull | ⟨y, m1, hk, hy, hy0, hs1, -, h1⟩
  · rw [hnull]
    exact ⟨⟨own, hown, hheld⟩, M, hlog, hM⟩
  · rw [hk]
    refine ⟨⟨_, h1, fun x hx => ?_⟩, M, hlog, hM.congr (Set.mem_singleton r) (hown.sameEntries hs1)⟩
    grind

theorem memset {c : ℕ} (hx : x ∈ w.held) : Outcome E (mapCall L r w (.memset x c)) (Sane L r) := by
  obtain ⟨⟨own, hown, hheld⟩, M, hlog, hM⟩ := h
  have hs : SameTables own w.mem (Vm.memset x c w.mem) :=
    Owned.sameTables_memset (Owned.held_ne_table (hheld x hx))
  exact ⟨⟨own, hown.fill (hheld x hx) c, hheld⟩, M, hlog, hM.congr (Set.mem_singleton r) (hown.sameEntries hs)⟩

theorem pageKfree (hx : x ∈ w.held) : Outcome E (mapCall L r w (.pageKfree x)) (Sane L r) := by
  obtain ⟨⟨own, hown, hheld⟩, M, hlog, hM⟩ := h
  obtain ⟨m1, hm1, hs1, -, h1⟩ := hown.pageKfree_spec (hheld x hx)
  unfold mapCall
  dsimp only
  rw [hm1]
  refine ⟨⟨_, h1, fun y hy => ?_⟩, M, hlog, hM.congr (Set.mem_singleton r) (hown.sameEntries hs1)⟩
  grind

theorem mapCall {c : MapCall} (ha : mayMap r w c) : Outcome E (mapCall L r w c) (Sane L r) := by
  cases c with
  | mappages va size pa perm => exact h.mappages ha
  | uvmunmap va n doFree => exact h.uvmunmap ha
  | kalloc => exact h.kalloc
  | memset page c => exact h.memset ha
  | pageKfree page => exact h.pageKfree ha

end

end Sane

theorem FreePages.uvmcreate (h : FreePages L m) (hnew : uvmcreate m = (r, m')) (hr : r ≠ 0) :
    Sane L r ⟨m', [], []⟩ := by
  obtain ⟨own, hown⟩ := h.owned
  rcases hown.uvmcreate_spec with hnull | ⟨y, m1, hy, -, -, -, -, hempty, howned⟩
  · grind
  · cases hy.symm.trans hnew
    have hroot := howned ∅ le_rfl (Set.empty_subset _)
    rw [insert_empty_eq] at hroot
    exact ⟨⟨_, hroot, by simp⟩, .empty, .created, .of_entries hempty⟩

/-- Page tables implement the map that the calls on them make, going by what these returned. -/
theorem page_table_is_map (hpages : FreePages L m) (hnew : uvmcreate m = (r, m')) (hr : r ≠ 0)
    {cs : List MapCall} (hproper : (mapCalls L r).Proper ⟨m', [], []⟩ cs) :
    ∃ w M, (mapCalls L r).run ⟨m', [], []⟩ cs = .ok w ∧ IsTree (child w.mem) r 2 ∧
      History w.log M ∧ Represents w.mem r M := by
  have hstep : ∀ c ∈ cs, ∀ w, Sane L r w → (mapCalls L r).allowed w c →
      ∃ w', (mapCalls L r).step w c = .ok w' ∧ Sane L r w' :=
    fun c _ w h ha => Outcome.total.mp (h.mapCall ha)
  obtain ⟨w, hrun, ⟨own, hown, -⟩, M, hlog, hM⟩ :=
    Protocol.run_invariant hstep (hpages.uvmcreate hnew hr) hproper
  exact ⟨w, M, hrun, hown.tree (Set.mem_singleton r), hlog, hM⟩

/-- A page is mapped, unmapped and freed. Then pages on both sides of 1 GiB are mapped, and a page
of the table for the second is missing. -/
def mapping : List MapCall :=
  [.kalloc, .mappages 0 pgsize (smallPage 1) 22, .uvmunmap 0 1 true, .mappages (2 ^ 30 - pgsize) (2 * pgsize) 0 6]

theorem page_table_is_map_small : ∃ r m' w M, uvmcreate (.small 5) = (r, m') ∧
      (mapCalls .small r).run ⟨m', [], []⟩ mapping = .ok w ∧ w.log.map Prod.snd = [-1, 0, 0] ∧
      IsTree (child w.mem) r 2 ∧ History w.log M ∧ Represents w.mem r M := by
  have hsees : (uvmcreate (.small 5)).1 = smallPage 0 ∧
      (mapCalls .small (smallPage 0)).Proper ⟨(uvmcreate (.small 5)).2, [], []⟩ mapping ∧
      ∃ w, (mapCalls .small (smallPage 0)).run ⟨(uvmcreate (.small 5)).2, [], []⟩ mapping = .ok w ∧
        w.log.map Prod.snd = [-1, 0, 0] := by decide +kernel
  generalize hnew : uvmcreate (.small 5) = created at hsees
  obtain ⟨r, m'⟩ := created
  obtain ⟨rfl, hproper, w, hw, hlog⟩ := hsees
  obtain ⟨t, M, ht, htree, hhist, hM⟩ := page_table_is_map (freePages_small 4 (by decide)) hnew (by decide) hproper
  cases hw.symm.trans ht
  exact ⟨_, m', w, M, rfl, hw, hlog, htree, hhist, hM⟩

end Xv6.Vm
