import Xv6.Vm.Exec
import Xv6.Vm.Fork

/-! Loading a program: `kexec` (`kernel/exec.c`).

The new image is built in a page table of its own, and user memory is filled from address 0
on without a gap (`Loading`), so that it never has more pages than there are. What cannot be
finished is freed, and then no page has changed its owner. -/
namespace Xv6.Vm
open Function
open Linked Radix

variable {L : Linker} {s : Os} {m m0 m' : Memory} {own own0 own' : ℕ → Owner} {T U : Set ℕ}
  {p r x n i va sz newsz xperm frame pa : ℕ} {f : File} {E : Stop → Prop}

/-! ### Files -/

def File.Bytes (f : File) : Prop := ∀ i < f.size, f.byte i < 2 ^ 8

instance (f : File) : Decidable f.Bytes := inferInstanceAs (Decidable (∀ i < f.size, f.byte i < 2 ^ 8))

theorem field_lt {b : List ℕ} (hb : ∀ c ∈ b, c < 2 ^ 8) (i n : ℕ) : field b i n < 2 ^ (8 * n) := by
  unfold field
  induction n with
  | zero => exact Nat.one_pos
  | succ n ih =>
    have hbyte : (b[i + n]?).getD 0 < 2 ^ 8 := by
      cases hc : b[i + n]? with
      | none => decide
      | some c => exact hb c (List.mem_of_getElem? hc)
    have hle : (b[i + n]?).getD 0 * 2 ^ (8 * n) ≤ (2 ^ 8 - 1) * 2 ^ (8 * n) :=
      Nat.mul_le_mul_right _ (by omega)
    rw [List.range_succ, List.map_append, List.sum_append, List.map_singleton, List.sum_singleton,
      Nat.mul_succ, Nat.pow_add]
    omega

theorem File.Bytes.readi (h : f.Bytes) (off n : ℕ) : ∀ c ∈ readi f off n, c < 2 ^ 8 := by
  intro c hc
  unfold Vm.readi at hc
  dsimp only at hc
  split at hc
  · cases hc
  · obtain ⟨j, hj, rfl⟩ := List.mem_map.mp hc
    rw [List.mem_range] at hj
    exact h _ (by omega)

/-! ### Loading -/

theorem user_mkPte {perm : ℕ} (h : user perm = true) : user (mkPte pa perm) = true := by
  unfold user mkPte at *
  grind

theorem user_or : user (pteR ||| pteU ||| xperm) = true := by
  unfold user
  rw [decide_eq_true_iff]
  intro hzero
  rw [Nat.and_or_distrib_right, Nat.or_eq_zero_iff] at hzero
  exact absurd hzero.1 (by decide)

theorem entry_setBytes (bytes : ℕ → ℕ → ℕ) : entry r va {m with bytes := bytes} = entry r va m := by
  rw [entry, entry, walkLoop_false, walkLoop_false]
  rfl

/-- Memory of the new image: below its size, and with pages that were free. -/
structure Built (L : Linker) (T U : Set ℕ) (r sz : ℕ) (own0 : ℕ → Owner) (m0 : Memory)
    (own : ℕ → Owner) (m : Memory) : Prop where
  extended : Extends L T U r (Set.Ico 0 (pgroundup sz)) own0 m0 own m
  entries : SameElse T r 0 trapframe m0 m
  size : sz ≤ trapframe

namespace Built

theorem below (h : Built L T U r sz own0 m0 own m) (hfresh : ∀ x va, own0 x ≠ .user r va)
    (hx : own x = .user r va) : va < pgroundup sz := by
  rcases h.extended.grows x with hsame | ⟨_, htable | ⟨b, hb, huser⟩⟩
  · exact absurd (hsame.symm.trans hx) (hfresh x va)
  · cases htable.symm.trans hx
  grind

theorem setBytes (h : Built L T U r sz own0 m0 own m) (hfresh : ∀ x va, own0 x ≠ .user r va)
    (hpa : own pa = .user r va) (b : ℕ → ℕ) :
    Built L T U r sz own0 m0 own {m with bytes := update m.bytes pa b} := by
  have hent := h.extended.owned.sameEntries_setBytes (update m.bytes pa b)
  refine ⟨⟨h.extended.owned.setBytes _, h.extended.grows, fun x hx => ?_⟩,
    h.entries.trans hent.others, h.size⟩
  have hne : x ≠ pa := by
    rintro rfl
    rcases h.extended.grows x with hsame | ⟨hfree, _⟩
    · exact hfresh x va (hsame.symm.trans hpa)
    · exact hx hfree
  exact (update_of_ne hne ..).trans (h.extended.bytes x hx)

end Built

/-- User memory is mapped from address 0 up to the size. -/
structure Loading (L : Linker) (T U : Set ℕ) (r sz : ℕ) (own0 : ℕ → Owner) (m0 : Memory)
    (own : ℕ → Owner) (m : Memory) : Prop extends Built L T U r sz own0 m0 own m where
  mapped : ∀ va < pgroundup sz, va % pgsize = 0 →
    valid (entry r va m) = true ∧ user (entry r va m) = true

namespace Loading

theorem start (h : Owned L m own T U) : Loading L T U r 0 own m own m :=
  ⟨⟨.refl h, .refl, Nat.zero_le _⟩, fun va hva => absurd hva (Nat.not_lt_zero va)⟩

section
variable (h : Loading L T U r sz own0 m0 own m)
include h

theorem dense (hr : r ∈ U) : Dense r (pgroundup sz) own := by
  intro va hva hal
  exact ⟨_, h.extended.owned.mapped hr (hva.trans_le (pgroundup_le h.size)) hal
    (h.mapped va hva hal).1⟩

theorem setBytes (hfresh : ∀ x va, own0 x ≠ .user r va) (hpa : own pa = .user r va) (b : ℕ → ℕ) :
    Loading L T U r sz own0 m0 own {m with bytes := update m.bytes pa b} := by
  refine ⟨h.toBuilt.setBytes hfresh hpa b, fun a ha hal => ?_⟩
  rw [entry_setBytes]
  exact h.mapped a ha hal

theorem uvmalloc_spec (hr : r ∈ U) (hfresh : ∀ x va, own0 x ≠ .user r va) (hperm : xperm < 2 ^ 10) :
    Outcome E (uvmalloc L r sz newsz xperm m) fun res => ∃ own',
      (res.1 = max sz newsz ∧ Loading L T U r res.1 own0 m0 own' res.2 ∧
        MapsAll r (pgroundup sz) (pgroundup res.1) (pteR ||| pteU ||| xperm) res.2) ∨
      (res.1 = 0 ∧ Loading L T U r sz own0 m0 own' res.2) := by
  have hrT := h.extended.owned.sub hr
  refine (h.extended.owned.uvmalloc_spec hr h.size hperm (fun _ _ hx => h.below hfresh hx)
    (.inr (h.dense hr))).mono ?_
  rintro ⟨res, m'⟩ ⟨own', ⟨hres, htop, hfill⟩ | ⟨hres, hext, hent⟩⟩
  · dsimp only at hres htop hfill
    have hle : pgroundup sz ≤ pgroundup res := pgroundup_mono (by omega) htop
    refine ⟨own', .inl ⟨hres, ⟨⟨?_, ?_, htop⟩, fun va hva hal => ?_⟩, hfill.maps⟩⟩
    · have hold : Set.Ico 0 (pgroundup sz) ⊆ Set.Ico 0 (pgroundup res) :=
        fun b hb => ⟨hb.1, hb.2.trans_le hle⟩
      have hnew : Set.Ico (pgroundup sz) (pgroundup res) ⊆ Set.Ico 0 (pgroundup res) :=
        fun b hb => ⟨Nat.zero_le b, hb.2⟩
      exact (h.extended.mono hold).trans (hfill.extended.mono hnew)
    · exact h.entries.trans (hfill.entries.mono (Nat.zero_le _) (pgroundup_le htop))
    · by_cases hlt : va < pgroundup sz
      · have hsame := hfill.entries r hrT va
          (trapframe_lt_sv39 (hlt.trans_le (pgroundup_le h.size))) (.inr (.inl hlt))
        grind [Loading.mapped]
      · obtain ⟨pa, _, hpa⟩ := hfill.maps va (not_lt.mp hlt) hva hal
        grind [valid_mkPte, user_mkPte, user_or]
  · refine ⟨own', .inr ⟨hres, ⟨h.extended.trans (hext.mono (Set.empty_subset _)),
      h.entries.trans (hent.mono (Nat.zero_le _) le_rfl), h.size⟩, fun va hva hal => ?_⟩⟩
    have hsame := hent r hrT va
      (trapframe_lt_sv39 (hva.trans_le (pgroundup_le h.size))) (.inr (.inl hva))
    grind [Loading.mapped]

theorem walkaddr_spec (hr : r ∈ U) (hva : va < sz) (hal : va % pgsize = 0) :
    walkaddr r va m ≠ 0 ∧ own (walkaddr r va m) = .user r va := by
  have hup := hva.trans_le (le_pgroundup h.size)
  have htop := hva.trans_le h.size
  obtain ⟨hv, hu⟩ := h.mapped va hup hal
  have hown := h.extended.owned.mapped hr htop hal hv
  have heq : walkaddr r va m = pte2pa (entry r va m) := by
    unfold walkaddr
    rw [if_neg (Nat.not_le_of_lt (trapframe_lt_maxva htop))]
    simp only [hv, hu, Bool.and_self, if_true]
  rw [heq]
  refine ⟨h.extended.owned.ne_zero ?_, hown⟩
  grind

theorem loadsegLoop_spec {offset count : ℕ} (hr : r ∈ U)
    (hfresh : ∀ x va, own0 x ≠ .user r va) (hal : va % pgsize = 0) (hi : i % pgsize = 0)
    (hn : i + n * pgsize < count + pgsize) (hfit : va + count ≤ sz) :
    Outcome E (loadsegLoop r f va offset count n i m) fun res =>
      Loading L T U r sz own0 m0 own res.2 := by
  induction n generalizing i m with
  | zero => exact h
  | succ n ih =>
    rw [Nat.succ_mul] at hn
    have hlt : va + i < sz := by omega
    have haddr : uint64 (va + i) = va + i := by
      have hcast : ((va : ℤ) + i) = ((va + i : ℕ) : ℤ) := by omega
      have htop := h.size
      grind [trapframe_eq, uint64_of_lt]
    obtain ⟨h0, hown⟩ := h.walkaddr_spec hr hlt (by unfold pgsize at *; omega)
    unfold loadsegLoop
    rw [haddr]
    simp only [if_neg h0]
    have hwrite := h.setBytes hfresh hown
    split
    · exact hwrite _
    · exact ih (hwrite _) (by rw [Nat.add_mod_right, hi]) (by omega)

theorem loadseg_spec {offset count : ℕ} (hr : r ∈ U)
    (hfresh : ∀ x va, own0 x ≠ .user r va) (hal : va % pgsize = 0) (hfit : va + count ≤ sz) :
    Outcome E (loadseg r va f offset count m) fun res => Loading L T U r sz own0 m0 own res.2 := by
  have hle : uint32 count ≤ count := by
    rw [uint32_natCast]
    exact Nat.mod_le ..
  refine h.loadsegLoop_spec hr hfresh hal rfl ?_ (by omega)
  unfold pgsize
  omega

end

theorem flags2perm_lt (flags : ℕ) : flags2perm flags < 2 ^ 10 := by
  refine Nat.or_lt_two_pow ?_ ?_ <;> split <;> decide

theorem loadLoop_spec {off : ℕ} (h : Loading L T U r sz own0 m0 own m) (hr : r ∈ U)
    (hfresh : ∀ x va, own0 x ≠ .user r va) (hf : f.Bytes) :
    Outcome E (loadLoop L r f n off sz m) fun res =>
      ∃ own', Loading L T U r res.2.1 own0 m0 own' res.2.2 := by
  induction n generalizing off sz m own with
  | zero => exact ⟨own, h⟩
  | succ n ih =>
    unfold loadLoop
    dsimp only
    generalize hread : readi f off sizeofProghdr = read
    have hbytes : ∀ c ∈ read, c < 2 ^ 8 := hread ▸ hf.readi off sizeofProghdr
    split
    · exact ⟨own, h⟩
    split
    · exact ih h
    split
    · exact ⟨own, h⟩
    rename_i hmemsz
    split
    · exact ⟨own, h⟩
    rename_i hwrap
    split
    · exact ⟨own, h⟩
    rename_i hal
    have hvaddr : (Proghdr.ofBytes read).vaddr < 2 ^ 64 := field_lt hbytes 16 8
    have hmem : (Proghdr.ofBytes read).memsz < 2 ^ 64 := field_lt hbytes 40 8
    generalize Proghdr.ofBytes read = ph at *
    have hsum : uint64 (ph.vaddr + ph.memsz) = ph.vaddr + ph.memsz := by
      unfold uint64 at *
      omega
    rw [hsum]
    refine (h.uvmalloc_spec hr hfresh (flags2perm_lt _)).bind ?_
    rintro ⟨sz1, m1⟩ ⟨own1, ⟨hsz, h1, _⟩ | ⟨hsz, h1⟩⟩
    · dsimp only at hsz h1 ⊢
      split
      · rename_i hzero
        have hsz0 : sz = 0 := by omega
        rw [hzero] at h1
        exact ⟨own1, by rw [hsz0]; exact h1⟩
      refine (h1.loadseg_spec hr hfresh (not_not.mp hal) (by omega)).bind ?_
      rintro ⟨ok, m2⟩ h2
      split
      · exact ⟨own1, h2⟩
      · exact ih h2
    · dsimp only at hsz h1 ⊢
      rw [if_pos hsz]
      exact ⟨own1, h1⟩

theorem round (h : Loading L T U r sz own0 m0 own m) :
    Loading L T U r (pgroundup sz) own0 m0 own m := by
  have hround := pgroundup_of_aligned (pgroundup_le h.size) (pgroundup_mod h.size)
  refine ⟨⟨?_, h.entries, pgroundup_le h.size⟩, ?_⟩
  · rw [hround]
    exact h.extended
  · rw [hround]
    exact h.mapped

end Loading

/-! ### The stack -/

theorem mkPte_eq {perm : ℕ} (hperm : perm < 2 ^ 10) :
    mkPte pa perm = 2 ^ 10 * (pa / pgsize) + (perm ||| pteV) := by
  have hlt : perm ||| pteV < 2 ^ 10 := Nat.or_lt_two_pow hperm (by decide)
  unfold mkPte pa2pte
  rw [Nat.or_assoc, Nat.shiftLeft_eq, Nat.shiftRight_eq_div_pow, Nat.mul_comm,
    ← Nat.two_pow_add_eq_or_of_lt hlt]
  rfl

theorem clear_user : mkPte pa (pteR ||| pteU ||| pteW) - (mkPte pa (pteR ||| pteU ||| pteW) &&& pteU) =
    mkPte pa (pteR ||| pteW) := by
  have hbit : ∀ k, (2 ^ 10 * k + 23) &&& pteU = 16 := by
    intro k
    rw [show pteU = 2 ^ 4 from rfl, Nat.and_two_pow, Nat.testBit_eq_decide_div_mod_eq]
    have hdiv : (2 ^ 10 * k + 23) / 2 ^ 4 % 2 = 1 := by omega
    rw [hdiv]
    rfl
  rw [mkPte_eq (by decide), mkPte_eq (by decide)]
  show 2 ^ 10 * (pa / pgsize) + 23 - ((2 ^ 10 * (pa / pgsize) + 23) &&& pteU) =
    2 ^ 10 * (pa / pgsize) + 7
  rw [hbit]
  omega

theorem uvmclear_spec (h : Owned L m own T U) (hr : r ∈ U) (hva : va < trapframe)
    (hal : va % pgsize = 0) (hent : entry r va m = mkPte pa (pteR ||| pteU ||| pteW)) :
    ∃ m', uvmclear r va m = .ok m' ∧ Owned L m' own T U ∧ m'.bytes = m.bytes ∧
      SameElse T r va (va + pgsize) m m' := by
  have hv : valid (entry r va m) = true := by rw [hent, valid_mkPte]
  obtain ⟨low, h0, hlow, hentry⟩ := entry_eq_of_valid hv
  have hown := h.mapped hr hva hal hv
  have hmax := trapframe_lt_maxva hva
  have hpage := (h.page (x := pte2pa (entry r va m)) (by rw [hown]; nofun)).1
  refine ⟨m.setPte low (px 0 va) (mkPte pa (pteR ||| pteW)), ?_, ?_, rfl,
    (h.setEntry (h.sub hr) hlow (maxva_lt_sv39 hmax) _).others hal⟩
  · unfold uvmclear
    rw [walk, if_neg hmax.not_ge, walkLoop_false, hlow]
    simp only [returns_bind, Option.getD_some, if_neg h0, pure_returns]
    rw [← hentry, hent, clear_user]
  · have hpa : pte2pa (mkPte pa (pteR ||| pteW)) = pte2pa (entry r va m) := by
      rw [hent]
      unfold pte2pa
      rw [mkPte_eq (by decide), mkPte_eq (by decide), Nat.shiftRight_eq_div_pow,
        Nat.shiftRight_eq_div_pow, Nat.mul_add_div (by decide), Nat.mul_add_div (by decide)]
      rfl
    refine h.setLeaf (h.sub hr) hlow (maxva_lt_sv39 hmax) hal (fun _ => Iff.rfl) (fun _ _ => Iff.rfl)
      (fun _ hne => hne) (fun _ _ _ => by rw [hpa, hown]) (fun _ _ => leaf_mkPte rfl)
      (fun x q b hx => ?_) fun _ _ _ hx _ => hx
    by_cases hsame : q = r ∧ b = va
    · obtain ⟨rfl, rfl⟩ := hsame
      exact .inl ⟨rfl, rfl, hr, hva, valid_mkPte, by rw [hpa, (h.user hx).2.2.2.2]⟩
    grind

/-! ### Arguments -/

theorem copyout_page {dst : ℕ} {src : List ℕ} (hsrc : src ≠ []) (hmax : pgrounddown dst < maxva)
    (hfit : dst + src.length ≤ pgrounddown dst + pgsize) (hpa : pa ≠ 0)
    (hal : pa % pgsize = 0)
    (hent : entry r (pgrounddown dst) s.mem = mkPte pa (pteR ||| pteU ||| pteW)) :
    copyout p r dst src s =
      .ok (0, {s with mem := s.mem.writeBytes pa (dst - pgrounddown dst) src}) := by
  have hv : valid (entry r (pgrounddown dst) s.mem) = true := by rw [hent, valid_mkPte]
  have hu : user (entry r (pgrounddown dst) s.mem) = true := by rw [hent, user_mkPte rfl]
  obtain ⟨low, h0, hlow, hentry⟩ := entry_eq_of_valid hv
  have haddr : walkaddr r (pgrounddown dst) s.mem = pa := by
    unfold walkaddr
    rw [if_neg hmax.not_ge]
    simp only [hv, hu, Bool.and_self, if_true]
    rw [hent, pte2pa_mkPte hal (by decide)]
  have hw : ¬ s.mem.ptes low (px 0 (pgrounddown dst)) &&& pteW = 0 := by
    rw [← hentry, hent, mkPte_eq (by decide)]
    show ¬ (2 ^ 10 * (pa / pgsize) + 23) &&& 2 ^ 2 = 0
    rw [Nat.and_two_pow, Nat.testBit_eq_decide_div_mod_eq]
    have hdiv : (2 ^ 10 * (pa / pgsize) + 23) / 2 ^ 2 % 2 = 1 := by omega
    rw [hdiv]
    decide
  have hcount : min (pgsize - (dst - pgrounddown dst)) src.length = src.length := by
    have hle := pgrounddown_le dst
    omega
  cases src with
  | nil => exact absurd rfl hsrc
  | cons c cs =>
    unfold copyout
    rw [List.length_cons, copyoutLoop]
    · simp only [if_neg hmax.not_ge, userPage, haddr, if_neg hpa, returns_bind, walk,
        walkLoop_false, hlow, Option.getD_some, if_neg h0, if_neg hw, hcount, List.take_length,
        List.drop_length]
      cases cs.length <;> rfl
    · exact List.cons_ne_nil c cs

def OnlyPage (pa : ℕ) (s s' : Os) : Prop :=
  ∃ b, s' = {s with mem := {s.mem with bytes := update s.mem.bytes pa b}}

theorem OnlyPage.refl : OnlyPage pa s s := ⟨s.mem.bytes pa, by rw [update_eq_self]⟩

theorem OnlyPage.trans {s' s'' : Os} (h : OnlyPage pa s s') (h' : OnlyPage pa s' s'') :
    OnlyPage pa s s'' := by
  obtain ⟨b, rfl⟩ := h
  obtain ⟨b', rfl⟩ := h'
  exact ⟨b', by dsimp only; rw [update_idem]⟩

theorem OnlyPage.entry {s' : Os} (h : OnlyPage pa s s') : entry r va s'.mem = entry r va s.mem := by
  obtain ⟨b, rfl⟩ := h
  exact entry_setBytes _

/-- A stack page: the user's, and writable. -/
structure StackPage (r base pa : ℕ) (m : Memory) : Prop where
  ne_zero : pa ≠ 0
  page : pa % pgsize = 0
  aligned : base % pgsize = 0
  low : pgsize ≤ base
  high : base + pgsize ≤ trapframe
  entry : entry r base m = mkPte pa (pteR ||| pteU ||| pteW)

namespace StackPage

variable {base : ℕ}

section
variable (h : StackPage r base pa s.mem)
include h

theorem congr {s' : Os} (hs : OnlyPage pa s s') : StackPage r base pa s'.mem :=
  ⟨h.ne_zero, h.page, h.aligned, h.low, h.high, hs.entry.trans h.entry⟩

theorem copyout {dst : ℕ} {src : List ℕ} (hsrc : src ≠ [])
    (hle : base ≤ dst) (hfit : dst + src.length ≤ base + pgsize) :
    ∃ s', Vm.copyout p r dst src s = .ok (0, s') ∧ OnlyPage pa s s' := by
  have hpos : 0 < src.length := List.length_pos_iff.mpr hsrc
  have hdown : pgrounddown dst = base := by
    have hal := h.aligned
    unfold pgrounddown pgsize at *
    omega
  have hmax : pgrounddown dst < maxva := by
    have htop := h.high
    rw [hdown]
    exact trapframe_lt_maxva (by unfold pgsize at *; omega)
  exact ⟨_, copyout_page hsrc hmax (by rwa [hdown]) h.ne_zero h.page (by rw [hdown, h.entry]), _, rfl⟩

theorem push_sp {sp count : ℕ} (hsp : base ≤ sp)
    (htop : sp ≤ base + pgsize) (hcount : count ≤ pgsize) :
    uint64 ((sp : ℤ) - count) = sp - count := by
  have hlow := h.low
  have hhigh := h.high
  grind [trapframe_eq, uint64_of_lt, pgsize]

theorem push_long {sp count : ℕ} (htop : sp ≤ base + pgsize) (hlong : pgsize < count) (hcount : count ≤ 2 ^ 63) :
    uint64 ((sp : ℤ) - count) - uint64 ((sp : ℤ) - count) % 16 < base ∨
      maxva ≤ pgrounddown (uint64 ((sp : ℤ) - count) - uint64 ((sp : ℤ) - count) % 16) := by
  have hhigh := h.high
  rw [trapframe_eq] at hhigh
  by_cases hle : count ≤ sp
  · have hcast : ((sp : ℤ) - count) = ((sp - count : ℕ) : ℤ) := by omega
    grind [uint64_of_lt, pgsize]
  grind [uint64, maxva, pgrounddown, pgsize]

end

theorem copyout_high {dst : ℕ} {src : List ℕ} (hsrc : src ≠ []) (hmax : maxva ≤ pgrounddown dst) :
    Vm.copyout p r dst src s = .ok (-1, s) := by
  cases src with
  | nil => exact absurd rfl hsrc
  | cons c cs =>
    unfold Vm.copyout
    rw [List.length_cons, copyoutLoop]
    · simp only [if_pos hmax, pure_returns]
    · exact List.cons_ne_nil c cs

theorem pushArgs_spec {args : List (List ℕ)} {argc sp : ℕ} {ustack : List ℕ}
    (h : StackPage r base pa s.mem) (hargs : ∀ arg ∈ args, arg.length < 2 ^ 63) (hsp : base ≤ sp)
    (htop : sp ≤ base + pgsize) :
    Outcome E (pushArgs p r base args argc sp ustack s) fun res => OnlyPage pa s res.2 ∧
      ∀ us sp', res.1 = some (us, sp') →
        base ≤ sp' ∧ sp' ≤ base + pgsize ∧ us.length = ustack.length + args.length ∧
          (args = [] ∨ argc + args.length ≤ maxarg) := by
  induction args generalizing argc sp ustack s with
  | nil =>
    refine ⟨.refl, fun us sp' heq => ?_⟩
    cases heq
    exact ⟨hsp, htop, rfl, .inl rfl⟩
  | cons arg args ih =>
    have hlen := hargs arg (List.mem_cons_self ..)
    have hcast : ((arg.length : ℤ) + 1) = ((arg.length + 1 : ℕ) : ℤ) := rfl
    have hne : arg ++ [0] ≠ [] := List.append_ne_nil_of_right_ne_nil _ (List.cons_ne_nil 0 [])
    unfold pushArgs
    split
    · exact ⟨.refl, fun us sp' heq => by cases heq⟩
    rename_i hargc
    rw [hcast]
    by_cases hfits : pgsize < arg.length + 1
    · dsimp only
      rcases h.push_long htop hfits hlen with hlow | hhigh
      · rw [if_pos hlow]
        exact ⟨.refl, fun us sp' heq => by cases heq⟩
      · split
        · exact ⟨.refl, fun us sp' heq => by cases heq⟩
        rw [copyout_high hne hhigh]
        exact ⟨.refl, fun us sp' heq => by cases heq⟩
    rw [h.push_sp hsp htop (not_lt.mp hfits)]
    dsimp only
    split
    · exact ⟨.refl, fun us sp' heq => by cases heq⟩
    rename_i hbase
    have hbase := not_lt.mp hbase
    have hlow := h.low
    generalize hdst : sp - (arg.length + 1) - (sp - (arg.length + 1)) % 16 = dst at *
    have hfit : dst + (arg.length + 1) ≤ sp := by omega
    obtain ⟨s1, heq, hs1⟩ := h.copyout (p := p) hne hbase
      (by rw [List.length_append, List.length_singleton]; omega)
    rw [heq]
    refine (ih (h.congr hs1) (fun a ha => hargs a (List.mem_cons_of_mem arg ha)) hbase (by omega)).mono ?_
    rintro ⟨found, s2⟩ ⟨hs2, hres⟩
    refine ⟨hs1.trans hs2, fun us sp' hfound => ?_⟩
    grind

end StackPage

theorem length_longBytes (us : List ℕ) : (us.flatMap longBytes).length = us.length * 8 := by
  induction us with
  | nil => rfl
  | cons x us ih =>
    rw [List.flatMap_cons, List.length_append, ih, List.length_cons]
    show 8 + _ = _
    omega

/-- The page below the stack is taken from the user, the stack stays as it is. -/
theorem Loading.uvmclear_spec {base : ℕ} (h : Loading L T U r sz own0 m0 own m) (hr : r ∈ U)
    (hmod : base % pgsize = 0) (hsz : sz = base + 2 * pgsize)
    (hmaps : MapsAll r base sz (pteR ||| pteU ||| pteW) m) :
    ∃ m' pa, uvmclear r base m = .ok m' ∧ StackPage r (base + pgsize) pa m' ∧
      own pa = .user r (base + pgsize) ∧ Built L T U r sz own0 m0 own m' := by
  have hpos : 0 < pgsize := by decide
  have htop := h.size
  have hnext : (base + pgsize) % pgsize = 0 := by rw [Nat.add_mod_right, hmod]
  have hframe : base + pgsize < trapframe := by omega
  obtain ⟨guard, _, hguard⟩ := hmaps base le_rfl (by omega) hmod
  obtain ⟨pa, hpal, hpa⟩ := hmaps (base + pgsize) (by omega) (by omega) hnext
  obtain ⟨m', hm', h', hb, he⟩ := Vm.uvmclear_spec h.extended.owned hr (by omega) hmod hguard
  have hpa' : entry r (base + pgsize) m' = mkPte pa (pteR ||| pteU ||| pteW) := by
    rw [he r (h'.sub hr) _ (trapframe_lt_sv39 hframe) (.inr (.inr le_rfl)), hpa]
  have hown : own pa = .user r (base + pgsize) := by
    have hmapped := h'.mapped hr hframe hnext (by rw [hpa', valid_mkPte])
    rwa [hpa', pte2pa_mkPte hpal (by decide)] at hmapped
  have hother : own pa ≠ .other := by
    rw [hown]
    intro hc
    cases hc
  refine ⟨m', pa, hm', ⟨h'.ne_zero hother, hpal, hnext, by omega, by omega, hpa'⟩, hown,
    ⟨h', h.extended.grows, fun x hx => ?_⟩, h.entries.trans (he.mono (Nat.zero_le _) (by omega)), htop⟩
  rw [hb]
  exact h.extended.bytes x hx

theorem Loading.buildStack_spec {argv : List (List ℕ)} (h : Loading L T U r sz own0 m0 own s.mem)
    (hr : r ∈ U) (hfresh : ∀ x va, own0 x ≠ .user r va) (hargv : ∀ arg ∈ argv, arg.length < 2 ^ 63) :
    Outcome E (buildStack L p r argv sz s) fun res => ∃ own' m', res.2.2 = {s with mem := m'} ∧
      Built L T U r res.2.1 own0 m0 own' m' := by
  have hround := pgroundup_of_aligned (pgroundup_le h.size) (pgroundup_mod h.size)
  have hmod := pgroundup_mod h.size
  have htop := pgroundup_le h.size
  have h₀ := h.round
  unfold buildStack
  dsimp only
  generalize pgroundup sz = base at *
  have hsum : uint64 ((base : ℤ) + ((userstack : ℤ) + 1) * pgsize) = base + 2 * pgsize := by
    grind [trapframe_eq, uint64_of_lt, userstack, pgsize]
  rw [hsum]
  refine (h₀.uvmalloc_spec hr hfresh (by decide)).bind ?_
  rintro ⟨sz1, m1⟩ ⟨own1, ⟨hsz, h1, hmaps⟩ | ⟨hsz, h1⟩⟩
  · dsimp only at hsz h1 hmaps ⊢
    have hpos : 0 < pgsize := by decide
    have hsz : sz1 = base + 2 * pgsize := by omega
    have hone : userstack = 1 := rfl
    have hguard : sz1 - (userstack + 1) * pgsize = base := by
      rw [hone]
      omega
    have hstack : sz1 - userstack * pgsize = base + pgsize := by
      rw [hone]
      omega
    have hend : pgroundup sz1 = sz1 :=
      pgroundup_of_aligned h1.size (by rw [hsz, Nat.add_mul_mod_self_right, hmod])
    rw [hround, hend] at hmaps
    rw [if_neg (by omega), hguard, hstack]
    obtain ⟨m2, pa, hm2, hpage, hown, hbuilt⟩ := h1.uvmclear_spec hr hmod hsz hmaps
    replace hpage : StackPage r (base + pgsize) pa ({s with mem := m2} : Os).mem := hpage
    have hdone : ∀ {s'}, OnlyPage pa {s with mem := m2} s' → ∃ own' m', s' = {s with mem := m'} ∧
        Built L T U r sz1 own0 m0 own' m' := by
      rintro s' ⟨b, rfl⟩
      exact ⟨own1, _, rfl, hbuilt.setBytes hfresh hown b⟩
    rw [hm2]
    refine (hpage.pushArgs_spec (p := p) hargv (by omega) (by omega)).bind ?_
    rintro ⟨found, s3⟩ ⟨hs3, hsp⟩
    cases found with
    | none => exact hdone hs3
    | some found =>
      obtain ⟨us, sp⟩ := found
      obtain ⟨hlo, hhi, hlen, hmax⟩ := hsp us sp rfl
      have hargc : argv.length ≤ 32 := by
        rcases hmax with rfl | hmax
        · exact Nat.zero_le 32
        · unfold maxarg at hmax
          omega
      have hcast : (((argv.length : ℤ) + 1) * 8) = (((argv.length + 1) * 8 : ℕ) : ℤ) := by omega
      dsimp only
      rw [hcast, (hpage.congr hs3).push_sp hlo hhi (by unfold pgsize; omega)]
      split
      · exact hdone hs3
      rename_i hbase
      have hlong : ((us ++ [0]).flatMap longBytes).length = (argv.length + 1) * 8 := by
        rw [length_longBytes, List.length_append, List.length_singleton, hlen, List.length_nil,
          Nat.zero_add]
      have hsrc : (us ++ [0]).flatMap longBytes ≠ [] := by
        grind [List.length_nil]
      have hpg : pgsize = 4096 := rfl
      obtain ⟨s4, heq, hs4⟩ := (hpage.congr hs3).copyout (p := p) hsrc (not_lt.mp hbase)
        (by omega)
      rw [heq]
      exact hdone (hs3.trans hs4)
  · dsimp only at hsz h1 ⊢
    rw [if_pos hsz]
    exact ⟨own1, m1, rfl, h1.toBuilt⟩

/-! ### Replacing the image -/

/-- An image in a page table of its own, beside the one of the process. -/
structure NewImage (L : Linker) (T U : Set ℕ) (frame r sz : ℕ) (own0 : ℕ → Owner) (m0 : Memory)
    (own : ℕ → Owner) (m : Memory) : Prop where
  ne_zero : r ≠ 0
  fresh : own0 r = .free
  extended : Extends L (insert r T) (insert r U) r (Set.Ico 0 (pgroundup sz)) own0 m0 own m
  entries : SameEntries T m0 m
  layout : Layout L r frame m
  size : sz ≤ trapframe

namespace NewImage

variable {own1 : ℕ → Owner} {m1 : Memory}

theorem of_built (h : Owned L m0 own0 T U) (hnew : Created L T U frame r own0 m0 own1 m1)
    (hb : Built L (insert r T) (insert r U) r sz own1 m1 own m) :
    NewImage L T U frame r sz own0 m0 own m := by
  have hrT := h.free_notMem hnew.fresh
  refine ⟨hnew.ne_zero, hnew.fresh, (hnew.extended.mono (Set.empty_subset _)).trans hb.extended,
    hnew.entries.trans (hb.entries.rest hrT), ?_, hb.size⟩
  exact hnew.layout.sameElse (Set.mem_insert ..) le_rfl hb.entries

section
variable (h : NewImage L T U frame r sz own0 m0 own m)
include h

theorem below (h₀ : Owned L m0 own0 T U) (hx : own x = .user r va) : va < pgroundup sz := by
  rcases h.extended.grows x with hsame | ⟨_, htable | ⟨b, hb, huser⟩⟩
  · exact absurd (.inr ⟨va, hsame.symm.trans hx⟩) (h₀.not_belongsTo (h₀.free_notMem h.fresh) x)
  · cases htable.symm.trans hx
  grind

theorem user {q : ℕ} (hq : q ≠ r) (hx : own x = .user q va) : own0 x = .user q va := by
  rcases h.extended.grows x with hsame | ⟨_, htable | ⟨b, _, huser⟩⟩
  · exact hsame.symm.trans hx
  · cases htable.symm.trans hx
  grind

theorem discard (h₀ : Owned L m0 own0 T U) :
    ∃ m', procFreepagetable L r sz m = .ok m' ∧ Unchanged L T U own0 m0 m' := by
  obtain ⟨m', own', hm', hd⟩ := h.extended.owned.procFreepagetable_spec (Set.mem_insert ..) h.size
    (fun _ _ hx => h.below h₀ hx) h.layout.high
  exact ⟨m', hm', hd.unchanged h₀ h.fresh h.extended.grows h.entries h.extended.bytes⟩

end

end NewImage

namespace Sound

variable {s' : Os}

theorem replace (h : Sound L s own T U) (hp : Live L own U s.mem (s.proc p))
    (hnew : NewImage L T U (s.proc p).trapframe r sz own s.mem own0 m0)
    (hd : Dropped L (insert r T) (insert r U) (s.proc p).pagetable own0 m0 own' s'.mem)
    (hkernel : s'.kernelPagetable = s.kernelPagetable)
    (hproc : s'.proc = update s.proc p {s.proc p with pagetable := r, sz := sz}) :
    Moves L s own T U s' own' (insert r T \ {(s.proc p).pagetable})
      (insert r U \ {(s.proc p).pagetable}) := by
  have hrT := h.owned.free_notMem hnew.fresh
  have hold : r ≠ (s.proc p).pagetable :=
    (h.pagetable_ne_free hnew.fresh hnew.ne_zero p).symm
  have hheld : ∀ {x}, own x = .held → own' x = .held := by
    intro x hx
    have hx0 : own0 x = .held :=
      (hnew.extended.grows.keeps (by rw [hx]; nofun)).trans hx
    rcases hd.drops x with ⟨hof, _⟩ | ⟨_, hsame⟩
    · rw [hx0] at hof
      rcases hof with hc | ⟨_, hc⟩ <;> cases hc
    · exact hsame.trans hx0
  have huser : ∀ {x q va}, own' x = .user q va → own0 x = .user q va := fun {x q va} hx =>
    (hd.drops.keeps (by rw [hx]; nofun)).symm.trans hx
  refine ⟨h.setProc hproc hd.owned (fun q hq hlive => ?_) (.inr ?_)
    (fun _ q _ => h.pagetable_ne_free hnew.fresh hnew.ne_zero q) fun _ q hq => h.trapframe_ne hp hq,
    hkernel, ?_, fun x hx hx' => (hd.drops.keeps hx').trans (hnew.extended.grows.keeps hx), ?_⟩
  · have hqT := h.owned.sub hlive.root
    have hqp := h.pagetable_ne hp hq
    have hqr : (s.proc q).pagetable ≠ r := h.pagetable_ne_free hnew.fresh hnew.ne_zero q
    refine hlive.congr ⟨Set.mem_insert_of_mem r hlive.root, hqp⟩ (hheld hlive.frame)
      (fun va hva _ => ?_) fun x va hx => hnew.user hqr (huser hx)
    rw [hd.entries _ (Set.mem_insert_of_mem r hqT) va hva (.inl hqp), hnew.entries _ hqT va hva]
  · refine ⟨hp.started, ⟨Set.mem_insert .., hold⟩, hheld hp.frame, ?_, hnew.size,
      fun x va hx => hnew.below h.owned (huser hx)⟩
    exact hnew.layout.congr fun va hva _ => hd.entries r (Set.mem_insert ..) va hva (.inl hold)
  · rintro q ⟨hq, hqU⟩
    grind [Live.root]
  · intro q
    rw [hproc]
    grind [NewImage.fresh]

theorem execImage_spec {file : Option File} {argv : List (List ℕ)} (h : Sound L s own T U)
    (hp : Live L own U s.mem (s.proc p)) (hfile : ∀ f ∈ file, f.Bytes)
    (hargv : ∀ arg ∈ argv, arg.length < 2 ^ 63) :
    Outcome E (execImage L p file argv s) fun res =>
      (res.1 = none ∧ ∃ m', res.2 = {s with mem := m'} ∧ Unchanged L T U own s.mem m') ∨
      (res.1.isSome ∧ ∃ own' T' U', Moves L s own T U res.2 own' T' U') := by
  have hsame : Unchanged L T U own s.mem s.mem := ⟨h.owned, .refl, fun _ _ => rfl⟩
  unfold execImage
  cases file with
  | none => exact .inl ⟨rfl, s.mem, rfl, hsame⟩
  | some f =>
    have hf := hfile f rfl
    dsimp only
    split
    · exact .inl ⟨rfl, s.mem, rfl, hsame⟩
    split
    · exact .inl ⟨rfl, s.mem, rfl, hsame⟩
    refine (h.owned.procPagetable_spec (s.proc p).trapframe).bind ?_
    rintro ⟨r, m1⟩ (⟨hr, hsame1⟩ | ⟨own1, hnew⟩)
    · dsimp only at hr ⊢
      rw [if_pos hr]
      exact .inl ⟨rfl, m1, rfl, hsame1⟩
    rw [if_neg hnew.ne_zero]
    have hrT := h.owned.free_notMem hnew.fresh
    have hmem : r ∈ insert r U := Set.mem_insert ..
    have hfresh : ∀ x va, own1 x ≠ .user r va := fun x va hx =>
      h.owned.not_belongsTo hrT x (.inr ⟨va, hnew.extended.grows.user hx⟩)
    refine ((Loading.start hnew.extended.owned).loadLoop_spec hmem hfresh hf).bind ?_
    rintro ⟨ok, sz, m2⟩ ⟨own2, hload⟩
    split
    · obtain ⟨m3, hm3, hun⟩ := (NewImage.of_built h.owned hnew hload.toBuilt).discard h.owned
      rw [hm3]
      exact .inl ⟨rfl, m3, rfl, hun⟩
    refine (hload.buildStack_spec (s := {s with mem := m2}) hmem hfresh hargv).bind ?_
    rintro ⟨stack, sz, s3⟩ ⟨own3, m3, hs3, hbuilt⟩
    obtain rfl : s3 = {s with mem := m3} := hs3
    have himage := NewImage.of_built h.owned hnew hbuilt
    cases stack with
    | none =>
      obtain ⟨m4, hm4, hun⟩ := himage.discard h.owned
      rw [hm4]
      exact .inl ⟨rfl, m4, rfl, hun⟩
    | some sp =>
      -- The old image is as it was, next to the new one.
      have hold : (s.proc p).pagetable ≠ r := h.pagetable_ne_free hnew.fresh hnew.ne_zero p
      have hhigh := (hp.layout.sameEntries (h.owned.sub hp.root) himage.entries).high
      obtain ⟨m4, own4, hm4, hd⟩ := himage.extended.owned.procFreepagetable_spec
        (Set.mem_insert_of_mem r hp.root) hp.size (fun x va hx => hp.below x va (himage.user hold hx)) hhigh
      dsimp only [Os.setProc]
      rw [hm4]
      exact .inr ⟨rfl, own4, _, _, h.replace hp himage hd rfl rfl⟩

theorem kexec_spec {file : Option File} {argv : List (List ℕ)} (h : Sound L s own T U)
    (hp : Live L own U s.mem (s.proc p)) (hfile : ∀ f ∈ file, f.Bytes)
    (hargv : ∀ arg ∈ argv, arg.length < 2 ^ 63) :
    Outcome E (kexec L p file argv s) fun res =>
      (res.1 = -1 ∧ ∃ m', res.2 = {s with mem := m'} ∧ Unchanged L T U own s.mem m') ∨
      (res.1 = argv.length ∧ ∃ own' T' U', Moves L s own T U res.2 own' T' U') := by
  unfold kexec
  refine (h.execImage_spec hp hfile hargv).bind ?_
  rintro ⟨image, s'⟩ (⟨hnone, hun⟩ | ⟨hsome, hmoves⟩)
  · obtain rfl : image = none := hnone
    exact .inl ⟨rfl, hun⟩
  · dsimp only at hsome ⊢
    rw [if_pos hsome]
    exact .inr ⟨rfl, hmoves⟩

end Sound

end Xv6.Vm
