import Xv6.Vm.Proc
import Xv6.Vm.Roots

/-! Address spaces of processes: `proc_pagetable`, `proc_freepagetable` (`kernel/proc.c`).

A new address space maps the trampoline and the trapframe, above user memory, and nothing
else (`Layout`). When it is freed, the pages it owns are free and every other page keeps its
owner (`Drops`). A `proc_pagetable` that fails leaves every page with the owner it had. -/
namespace Xv6.Vm
open Linked Radix

variable {L : Linker} {m m' : Memory} {own own1 own' own'' : ℕ → Owner} {T U : Set ℕ}
  {r x a n va pa perm sz frame lo hi : ℕ} {E : Stop → Prop}

/-! ### Above user memory -/

/-- Above user memory the trampoline and the trapframe are mapped. -/
structure Layout (L : Linker) (r frame : ℕ) (m : Memory) : Prop where
  code : entry r trampoline m = mkPte L.trampolineCode (pteR ||| pteX)
  frame : entry r trapframe m = mkPte frame (pteR ||| pteW)
  high : ∀ va < sv39, trapframe ≤ va → valid (entry r va m) = true →
    va / pgsize = trapframe / pgsize ∨ va / pgsize = trampoline / pgsize

namespace Layout

theorem congr (h : Layout L r frame m)
    (hs : ∀ va < sv39, trapframe ≤ va → entry r va m' = entry r va m) : Layout L r frame m' := by
  refine ⟨?_, ?_, fun va hva hle hv => ?_⟩
  · rw [hs trampoline (by decide) (by decide)]
    exact h.code
  · rw [hs trapframe (by decide) le_rfl]
    exact h.frame
  grind [Layout.high]

theorem sameEntries (h : Layout L r frame m) (hr : r ∈ T) (hs : SameEntries T m m') :
    Layout L r frame m' := h.congr fun va hva _ => hs r hr va hva

theorem sameElse {q : ℕ} (h : Layout L r frame m) (hr : r ∈ T) (hhi : hi ≤ trapframe)
    (hs : SameElse T q lo hi m m') : Layout L r frame m' :=
  h.congr fun va hva hle => hs r hr va hva (.inr (.inr (hhi.trans hle)))

/-- A page table without entries, with the two mapped. -/
theorem of_setEntry {m1 : Memory} (hr : r ∈ T) (hzero : ∀ va, entry r va m = 0)
    (hcode : SetEntry T r trampoline (mkPte L.trampolineCode (pteR ||| pteX)) m m1)
    (hframe : SetEntry T r trapframe (mkPte frame (pteR ||| pteW)) m1 m') : Layout L r frame m' := by
  refine ⟨?_, ?_, fun va hva _ hv => ?_⟩
  · rw [hframe r hr _ (by decide), if_neg fun hc => absurd hc.2 (by decide), hcode r hr _ (by decide),
      if_pos ⟨rfl, rfl⟩]
  · rw [hframe r hr _ (by decide), if_pos ⟨rfl, rfl⟩]
  · rw [hframe r hr va hva, hcode r hr va hva, hzero] at hv
    split at hv
    · exact .inl (And.right ‹_›)
    · split at hv
      · exact .inr (And.right ‹_›)
      · cases hv

end Layout

/-- The page table `r` has no entry for `n` pages from `a` on, and nothing else has changed. -/
structure Cleared (T : Set ℕ) (r a n : ℕ) (m m' : Memory) : Prop where
  others : SameElse T r a (a + n * pgsize) m m'
  none : ∀ va, a ≤ va → va < a + n * pgsize → valid (entry r va m') = false

theorem Cleared.cons {m1 : Memory} (hr : r ∈ T) (hal : a % pgsize = 0)
    (hhi : a + (n + 1) * pgsize ≤ maxva) (he : SameElse T r a (a + pgsize) m m1)
    (hinv : valid (entry r a m1) = false) (h : Cleared T r (a + pgsize) n m1 m') :
    Cleared T r a (n + 1) m m' := by
  obtain ⟨he', hnone⟩ := h
  rw [next_page] at he' hnone
  have hend := next_page a n
  refine ⟨(he.mono le_rfl (by omega)).trans (he'.mono (Nat.le_add_right ..) le_rfl),
    fun va hlo hlt => ?_⟩
  by_cases hpage : va < a + pgsize
  · have hsame : va / pgsize = a / pgsize := by
      unfold pgsize at *
      omega
    rw [he' r hr va (maxva_lt_sv39 (by omega)) (.inr (.inl hpage)), entry_of_page hsame]
    exact hinv
  · exact hnone va (not_lt.mp hpage) hlt

namespace Owned

theorem unmapLoop_fixed (h : Owned L m own T U) (hr : r ∈ T) (hfix : r ∈ U → trapframe ≤ a)
    (hal : a % pgsize = 0) (hhi : a + n * pgsize ≤ maxva) :
    Outcome E (unmapLoop L r false n a m) fun m' =>
      Owned L m' own T U ∧ m'.bytes = m.bytes ∧ Cleared T r a n m m' := by
  induction n generalizing a m with
  | zero => exact ⟨h, rfl, .refl, fun va hlo hlt => by omega⟩
  | succ n ih =>
    have hend := next_page a n
    have hpos : 0 < pgsize := by decide
    have hva : a < maxva := by omega
    have hrest : ∀ {m1}, Owned L m1 own T U → m1.bytes = m.bytes →
        SameElse T r a (a + pgsize) m m1 → valid (entry r a m1) = false →
        Outcome E (unmapLoop L r false n (a + pgsize) m1) fun m' =>
          Owned L m' own T U ∧ m'.bytes = m.bytes ∧ Cleared T r a (n + 1) m m' := by
      intro m1 h1 hb1 he1 hinv
      refine (ih h1 (fun hu => Nat.le_trans (hfix hu) (Nat.le_add_right ..))
        (by rw [Nat.add_mod_right, hal]) (hend ▸ hhi)).mono ?_
      rintro m' ⟨h', hb', hc⟩
      exact ⟨h', hb'.trans hb1, hc.cons hr hal hhi he1 hinv⟩
    cases hv : valid (entry r a m) with
    | false =>
      rw [unmapLoop_invalid hva hv]
      exact hrest h rfl .refl hv
    | true =>
      obtain ⟨low, h0, hlow, hentry⟩ := entry_eq_of_valid hv
      have hset := h.setEntry hr hlow (maxva_lt_sv39 hva) 0
      rw [unmapLoop_valid hva hlow h0 (hentry ▸ hv)]
      refine hrest (h.setFixed hr hfix (maxva_lt_sv39 hva) hal hlow fun _ hc => by cases hc) rfl
        (hset.others hal) ?_
      rw [hset r hr a (maxva_lt_sv39 hva), if_pos ⟨rfl, rfl⟩]
      rfl

theorem uvmunmap_fixed (h : Owned L m own T U) (hr : r ∈ T) (hfix : r ∈ U → trapframe ≤ a)
    (hal : a % pgsize = 0) (hhi : a + n * pgsize ≤ maxva) :
    Outcome E (uvmunmap L r a n false m) fun m' =>
      Owned L m' own T U ∧ m'.bytes = m.bytes ∧ Cleared T r a n m m' := by
  unfold uvmunmap
  rw [if_neg (not_not.mpr hal)]
  exact h.unmapLoop_fixed hr hfix hal hhi

end Owned

/-! ### Freeing -/

/-- The page belongs to the page table `r`, as part of it or mapped by it. -/
def BelongsTo (r : ℕ) (o : Owner) : Prop := o = .table r ∨ ∃ va, o = .user r va

/-- The pages of `r` are free, and every other page keeps its owner. -/
def Drops (r : ℕ) (own own' : ℕ → Owner) : Prop :=
  ∀ x, BelongsTo r (own x) ∧ own' x = .free ∨ ¬ BelongsTo r (own x) ∧ own' x = own x

structure Dropped (L : Linker) (T U : Set ℕ) (r : ℕ) (own : ℕ → Owner) (m : Memory)
    (own' : ℕ → Owner) (m' : Memory) : Prop where
  owned : Owned L m' own' (T \ {r}) (U \ {r})
  drops : Drops r own own'
  entries : SameElse T r 0 sv39 m m'
  bytes : SameBytes own' m m'

theorem Drops.keeps (h : Drops r own own') (hx : own' x ≠ .free) : own' x = own x := by
  rcases h x with ⟨_, hfree⟩ | ⟨_, hsame⟩
  · exact absurd hfree hx
  · exact hsame

theorem Grows.drop {V : Set ℕ} (h : Grows r V own own1) (hnew : ∀ x, ¬ BelongsTo r (own x))
    (hd : Drops r own1 own') : own' = own := by
  funext x
  rcases hd x with ⟨hof, hfree⟩ | ⟨hnot, hsame⟩
  · rcases h x with heq | ⟨hx, _⟩
    · exact absurd (heq ▸ hof) (hnew x)
    · exact hfree.trans hx.symm
  · rcases h x with heq | ⟨_, htable | ⟨va, _, huser⟩⟩
    · exact hsame.trans heq
    · exact absurd (.inl htable) hnot
    · exact absurd (.inr ⟨va, huser⟩) hnot

namespace Owned

theorem not_belongsTo (h : Owned L m own T U) (hr : r ∉ T) (x : ℕ) : ¬ BelongsTo r (own x) := by
  rintro (htable | ⟨va, huser⟩)
  · exact hr (h.root htable)
  · exact hr (h.sub (h.user huser).1)

theorem free_notMem (h : Owned L m own T U) (hx : own x = .free) : x ∉ T := fun hmem => by
  cases hx.symm.trans ((h.nodes hmem).mp root_mem_nodes)

/-- Below the trapframe an address has an entry only where the page table owns a page. -/
theorem entry_invalid (h : Owned L m own T U) (hr : r ∈ U) (hva : va < trapframe)
    (hnone : ∀ x, own x ≠ .user r (va / pgsize * pgsize)) : valid (entry r va m) = false := by
  have hpage : va / pgsize = va / pgsize * pgsize / pgsize := by
    rw [Nat.mul_div_cancel _ (by decide)]
  rw [entry_of_page hpage]
  cases hv : valid (entry r (va / pgsize * pgsize) m) with
  | false => rfl
  | true =>
    have hlt := Nat.lt_of_le_of_lt (Nat.div_mul_le_self va pgsize) hva
    exact absurd (h.mapped hr hlt (Nat.mul_mod_left ..) hv) (hnone _)

theorem uvmfree_eq (r sz : ℕ) (m : Memory) : uvmfree L r sz m =
    ((if 0 < sz then uvmunmap L r 0 (pgroundup sz / pgsize) true m else pure m) >>=
      freewalk L loopFuel r) := by
  unfold uvmfree
  split <;> rfl

theorem uvmfree_spec (h : Owned L m own T U) (hr : r ∈ U) (hsz : sz ≤ trapframe)
    (hbelow : ∀ x va, own x = .user r va → va < pgroundup sz)
    (hhigh : ∀ va < sv39, trapframe ≤ va → valid (entry r va m) = false) :
    ∃ m' own', uvmfree L r sz m = .ok m' ∧ Dropped L T U r own m own' m' := by
  have hunmap : Outcome (fun _ => False) (if 0 < sz then uvmunmap L r 0 (pgroundup sz / pgsize) true m else pure m)
      fun m1 => ∃ own1, Shrinks L T U r 0 (pgroundup sz) own m own1 m1 := by
    split
    · have hpages : 0 + pgroundup sz / pgsize * pgsize = pgroundup sz := by
        rw [Nat.zero_add, Nat.div_mul_cancel (Nat.dvd_of_mod_eq_zero (pgroundup_mod hsz))]
      have hs := h.uvmunmap_spec (E := fun _ => False) (n := pgroundup sz / pgsize) hr rfl
        (by rw [hpages]; exact pgroundup_le hsz)
      rwa [hpages] at hs
    · refine ⟨own, .refl h fun x hx => ?_⟩
      obtain ⟨va, _, _, hva⟩ := hx
      have hzero : sz = 0 := by omega
      rw [hzero] at hva
      exact absurd hva (Nat.not_lt_zero va)
  have hfuel : 2 < loopFuel := by decide
  rw [uvmfree_eq]
  -- The loop is not to be evaluated.
  generalize loopFuel = fuel at hfuel ⊢
  obtain ⟨m1, hm1, own1, hs⟩ := Outcome.total.mp hunmap
  rw [hm1, returns_bind]
  have huser : ∀ x va, own1 x ≠ .user r va := by
    intro x va hx
    have hown := (hs.unmaps.keeps (by rw [hx]; nofun)).symm.trans hx
    rcases hs.unmaps x with ⟨_, hfree⟩ | ⟨hnot, _⟩
    · cases hfree.symm.trans hx
    · exact hnot ⟨va, hown, Nat.zero_le va, hbelow x va hown⟩
  have hnone : ∀ va < sv39, valid (entry r va m1) = false := by
    intro va hva
    by_cases hlt : va < trapframe
    · exact hs.owned.entry_invalid hr hlt fun x => huser x _
    · have hle := not_lt.mp hlt
      rw [hs.entries r (h.sub hr) va hva (.inr (.inr (Nat.le_trans (pgroundup_le hsz) hle)))]
      exact hhigh va hva hle
  obtain ⟨m', hm', h', hent, hbytes⟩ := Outcome.total.mp (hs.owned.freewalk_spec hr hfuel hnone)
  have hrel : ∀ x, own1 x = .table r ∧ release own1 r .free x = .free ∨
      own1 x ≠ .table r ∧ release own1 r .free x = own1 x := by
    intro x
    unfold release
    split
    case isTrue hx => exact .inl ⟨hx, rfl⟩
    case isFalse hx => exact .inr ⟨hx, rfl⟩
  refine ⟨m', _, hm', h', fun x => ?_, fun q hq va hva hout => ?_, fun x hx => ?_⟩
  · rcases hrel x with ⟨htable, hfree⟩ | ⟨hne, hsame⟩
    · have hown := hs.unmaps.keeps (x := x) (by rw [htable]; nofun)
      exact .inl ⟨.inl (hown.symm.trans htable), hfree⟩
    · rw [hsame]
      rcases hs.unmaps x with ⟨⟨va, hva, _⟩, hfree⟩ | ⟨hnot, hkeep⟩
      · exact .inl ⟨.inr ⟨va, hva⟩, hfree⟩
      · refine .inr ⟨?_, hkeep⟩
        rintro (htable | ⟨va, hva⟩)
        · exact hne (hkeep.trans htable)
        · exact huser x va (hkeep.trans hva)
  · have hqr : q ≠ r := by omega
    rw [hent q ⟨hq, hqr⟩ va hva]
    exact hs.entries q hq va hva (.inl hqr)
  · rw [hbytes x hx]
    refine hs.bytes x fun hfree => hx ?_
    grind

/-- The trampoline and the trapframe are unmapped first, so that user memory is all there is to
free. -/
theorem procFreepagetable_spec (h : Owned L m own T U) (hr : r ∈ U) (hsz : sz ≤ trapframe)
    (hbelow : ∀ x va, own x = .user r va → va < pgroundup sz)
    (hhigh : ∀ va < sv39, trapframe ≤ va → valid (entry r va m) = true →
      va / pgsize = trapframe / pgsize ∨ va / pgsize = trampoline / pgsize) :
    ∃ m' own', procFreepagetable L r sz m = .ok m' ∧ Dropped L T U r own m own' m' := by
  have hrT := h.sub hr
  obtain ⟨m1, hm1, h1, hb1, he1, hnone1⟩ := Outcome.total.mp
    (h.uvmunmap_fixed (a := trampoline) (n := 1) hrT (fun _ => by decide) (by decide) (by decide))
  obtain ⟨m2, hm2, h2, hb2, he2, hnone2⟩ := Outcome.total.mp
    (h1.uvmunmap_fixed (a := trapframe) (n := 1) hrT (fun _ => le_rfl) (by decide) (by decide))
  have hother : ∀ q ∈ T, ∀ va < sv39, q ≠ r ∨ (va / pgsize ≠ trapframe / pgsize ∧
      va / pgsize ≠ trampoline / pgsize) → entry q va m2 = entry q va m := by
    intro q hq va hva hout
    refine (he2 q hq va hva (hout.imp_right fun hpage => ?_)).trans
      (he1 q hq va hva (hout.imp_right fun hpage => ?_))
    all_goals
      unfold trapframe trampoline pgsize maxva at *
      omega
  have hhigh2 : ∀ va < sv39, trapframe ≤ va → valid (entry r va m2) = false := by
    intro va hva hle
    by_cases hframe : va / pgsize = trapframe / pgsize
    · grind [trapframe, trampoline, pgsize, maxva]
    by_cases hcode : va / pgsize = trampoline / pgsize
    · rw [he2 r hrT va hva (.inr (.inr ?_))]
      · refine hnone1 va ?_ ?_
        all_goals
          unfold trapframe trampoline pgsize maxva at *
          omega
      · unfold trapframe trampoline pgsize maxva at *
        omega
    grind
  obtain ⟨m', own', hm', hd⟩ := h2.uvmfree_spec hr hsz hbelow hhigh2
  refine ⟨m', own', ?_, hd.owned, hd.drops, fun q hq va hva hout => ?_, fun x hx => ?_⟩
  · rw [procFreepagetable, hm1, returns_bind, hm2, returns_bind, hm']
  · have hqr : q ≠ r := by omega
    rw [hd.entries q hq va hva (.inl hqr)]
    exact hother q hq va hva (.inl hqr)
  · rw [hd.bytes x hx, hb2, hb1]

end Owned

/-! ### Creating -/

/-- A new address space with root `r`, in which no user page is mapped. -/
structure Created (L : Linker) (T U : Set ℕ) (frame r : ℕ) (own : ℕ → Owner) (m : Memory)
    (own' : ℕ → Owner) (m' : Memory) : Prop where
  ne_zero : r ≠ 0
  fresh : own r = .free
  extended : Extends L (insert r T) (insert r U) r ∅ own m own' m'
  entries : SameEntries T m m'
  layout : Layout L r frame m'

/-- Nothing has changed but pages on the free list. -/
structure Unchanged (L : Linker) (T U : Set ℕ) (own : ℕ → Owner) (m m' : Memory) : Prop where
  owned : Owned L m' own T U
  entries : SameEntries T m m'
  bytes : SameBytes own m m'

theorem Dropped.unchanged {V : Set ℕ} {m1 : Memory} (h : Owned L m own T U) (hr : own r = .free)
    (hd : Dropped L (insert r T) (insert r U) r own1 m1 own' m') (hgrows : Grows r V own own1)
    (hent : SameEntries T m m1) (hbytes : SameBytes own m m1) : Unchanged L T U own m m' := by
  have hrT := h.free_notMem hr
  have hsame : own' = own := hgrows.drop (h.not_belongsTo hrT) hd.drops
  subst hsame
  refine ⟨?_, hent.trans (hd.entries.rest hrT), fun x hx => ?_⟩
  · have howned := hd.owned
    rwa [Set.insert_sdiff_self_of_notMem hrT,
      Set.insert_sdiff_self_of_notMem fun hu => hrT (h.sub hu)] at howned
  · exact (hd.bytes x hx).trans (hbytes x hx)

namespace Owned

theorem procPagetable_spec (h : Owned L m own T U) (frame : ℕ) :
    Outcome E (procPagetable L frame m) fun res =>
      (res.1 = 0 ∧ Unchanged L T U own m res.2) ∨
        ∃ own', Created L T U frame res.1 own m own' res.2 := by
  unfold procPagetable
  rcases h.uvmcreate_spec with hnull | ⟨r, m1, hk, hr0, hr, hent1, hb1, hzero, h1⟩
  · simp only [hnull, if_true]
    exact .inl ⟨rfl, h, .refl, fun _ _ => rfl⟩
  simp only [hk, if_neg hr0]
  have hrT := h.free_notMem hr
  have hmem : r ∈ insert r T := Set.mem_insert ..
  have hmemU : r ∈ insert r U := Set.mem_insert ..
  have hnew : Extends L (insert r T) (insert r U) r ∅ own m (Function.update own r (.table r)) m1 :=
    ⟨h1 _ (Set.subset_insert ..) subset_rfl, .take hr (.inl rfl), hb1⟩
  have hnone : ∀ {m2 own2}, Extends L (insert r T) (insert r U) r ∅ own m own2 m2 →
      ∀ x va, own2 x = .user r va → va < pgroundup 0 := by
    intro m2 own2 hext x va hx
    exact absurd (.inr ⟨va, hext.grows.user hx⟩) (h.not_belongsTo hrT x)
  -- Whatever fails, the page table is freed while it has no entries.
  have hundo : ∀ {m2 own2}, Extends L (insert r T) (insert r U) r ∅ own m own2 m2 →
      SameEntries T m m2 → (∀ va < sv39, trapframe ≤ va → valid (entry r va m2) = false) →
      ∃ m3, uvmfree L r 0 m2 = .ok m3 ∧ Unchanged L T U own m m3 := by
    intro m2 own2 hext hent hinv
    obtain ⟨m3, own3, hm3, hd⟩ := hext.owned.uvmfree_spec hmemU (Nat.zero_le _) (hnone hext) hinv
    exact ⟨m3, hm3, hd.unchanged h hr hext.grows hent hext.bytes⟩
  refine (hnew.owned.mapFixed hmem (fun _ => by decide) (by decide) (by decide)
    (by rw [hzero]; rfl) fun _ => rfl).bind ?_
  rintro ⟨result, m2⟩ ⟨⟨own2, hext2⟩, ⟨hres, hset2⟩ | ⟨hres, hent2⟩⟩
  · obtain rfl : result = 0 := hres
    simp only [if_neg (Int.lt_irrefl 0)]
    have hentT2 := (hset2.others (by decide)).rest hrT
    refine (hext2.owned.mapFixed hmem (fun _ => le_rfl) (by decide) (by decide)
      (by rw [hset2 r hmem _ (by decide), if_neg fun hc => absurd hc.2 (by decide), hzero]; rfl)
      fun _ => rfl).bind ?_
    rintro ⟨result, m3⟩ ⟨⟨own3, hext3⟩, ⟨hres, hset3⟩ | ⟨hres, hent3⟩⟩
    · obtain rfl : result = 0 := hres
      simp only [if_neg (Int.lt_irrefl 0)]
      have hentT3 := (hset3.others (by decide)).rest hrT
      exact .inr ⟨own3, hr0, hr, (hnew.trans hext2).trans hext3, (hent1.trans hentT2).trans hentT3,
        .of_setEntry hmem hzero hset2 hset3⟩
    · obtain rfl : result = -1 := hres
      simp only [if_pos (show (-1 : ℤ) < 0 by decide)]
      obtain ⟨m4, hm4, h4, hb4, hc4⟩ := Outcome.total.mp
        (hext3.owned.uvmunmap_fixed (a := trampoline) (n := 1) hmem (fun _ => by decide)
          (by decide) (by decide))
      have hext4 : Extends L (insert r T) (insert r U) r ∅ own3 m3 own3 m4 :=
        ⟨h4, .refl r ∅ own3, fun x _ => by rw [hb4]⟩
      have hentT : SameEntries T m m4 :=
        ((hent1.trans hentT2).trans fun q hq => hent3 q (.inr hq)).trans (hc4.others.rest hrT)
      have hinv : ∀ va < sv39, trapframe ≤ va → valid (entry r va m4) = false := by
        intro va hva hle
        by_cases hcode : va / pgsize = trampoline / pgsize
        · refine hc4.none va ?_ ?_
          all_goals
            unfold trampoline pgsize maxva at *
            omega
        · rw [hc4.others r hmem va hva (.inr ?_), hent3 r hmem va hva, hset2 r hmem va hva,
            if_neg fun hc => hcode hc.2, hzero]
          · rfl
          · unfold trampoline pgsize maxva at *
            omega
      obtain ⟨m₅, hm₅, hsame⟩ := hundo (((hnew.trans hext2).trans hext3).trans hext4) hentT hinv
      rw [hm4, returns_bind, hm₅]
      exact .inl ⟨rfl, hsame⟩
  · obtain rfl : result = -1 := hres
    simp only [if_pos (show (-1 : ℤ) < 0 by decide)]
    have hentT : SameEntries T m m2 :=
      hent1.trans fun q hq => hent2 q (.inr hq)
    have hinv : ∀ va < sv39, trapframe ≤ va → valid (entry r va m2) = false := by
      intro va hva _
      rw [hent2 r hmem va hva, hzero]
      rfl
    have hback := hundo (hnew.trans hext2) hentT hinv
    -- `freewalk` is not to be evaluated.
    generalize uvmfree L r 0 m2 = freed at hback ⊢
    obtain ⟨m3, rfl, hsame⟩ := hback
    exact .inl ⟨rfl, hsame⟩

end Owned

end Xv6.Vm
