import Xv6.Umalloc.Programs
import Xv6.Vm.Isolation

/-! `malloc` and the kernel.

`morecore` passes the bytes it needs to `sbrk` as an `int`, and stores a header where `sbrk` says. A process
that may not store there is killed. One that may has a block of as many bytes as it asked for, and has grown
by them exactly when an `int` counts them (`malloc_below_break`): otherwise `malloc` returns memory that the
process does not have (`malloc_beyond_break`). -/
namespace Xv6.Umalloc
open Vm (Linker Os Stop sysSbrk sbrkEager userStore)

variable {L : Linker} {s : Os} {p nu base fuel prevp q nunits : ℕ} {h : Heap} {answers : List ℕ}

/-- The bytes that `morecore` asks for. -/
def needed (nbytes : ℕ) : ℕ := sizeofHeader * request (units nbytes)

/-- The `sbrk` of `morecore`, and what it answers. -/
@[irreducible] def sbrk (L : Linker) (p bytes : ℕ) (s : Os) : Except Stop (List ℕ × Os) := do
  let (addr, s) ← sysSbrk L p (int32 bytes) sbrkEager s
  return (if addr = -1 then [] else [addr.toNat], s)

/-- The first stores to new memory: `hp->s.size` in `morecore`, and `bp->s.ptr` in `free`. -/
def storeHeader (p nu : ℕ) : List ℕ → Os → Except Stop Os
  | [], s => .ok s
  | hp :: _, s => do
    let s ← userStore p (hp + 8) (nu % 256) s
    if (s.proc p).killed ≠ 0 then return s
    userStore p hp 0 s

/-- `malloc` in process `p`, or none where the process is killed. A search that finds nothing is one that
calls `sbrk`. -/
def mallocIn (L : Linker) (p base nbytes : ℕ) (s : Os) (h : Heap) :
    Except Stop (Option (Result (ℕ × Heap)) × Os) :=
  match malloc base nbytes [] h with
  | .ok (0, _) => do
    let (answers, s) ← sbrk L p (needed nbytes) s
    let s ← storeHeader p (request (units nbytes)) answers s
    if (s.proc p).killed ≠ 0 then return (none, s)
    return (some (malloc base nbytes answers h), s)
  | r => .ok (some r, s)

/-! ### The process grows -/

theorem needed_le {nbytes : ℕ} (hn : nbytes < 2 ^ 32) : needed nbytes ≤ 2 ^ 32 + sizeofHeader := by
  unfold needed request
  rw [units_eq hn]
  unfold sizeofHeader
  split_ifs <;> omega

/-- Where an `int` does not count the bytes, it is one header at most. -/
theorem int32_needed {nbytes : ℕ} (hn : nbytes < 2 ^ 32) (hbig : 2 ^ 31 ≤ needed nbytes) :
    int32 (needed nbytes) ≤ sizeofHeader := by
  have hle := needed_le hn
  unfold sizeofHeader at hle
  have hwrap : int32 (needed nbytes) = (needed nbytes : ℤ) - 2 ^ 32 := by
    unfold int32
    rw [← Int.sub_bmod_right, Int.bmod_eq_of_le] <;> omega
  rw [hwrap, sizeofHeader]
  omega

section
variable {E : Stop → Prop}

theorem sbrk_grows (hs : Vm.Consistent L s) (hp : Vm.Started s p) (bytes : ℕ) :
    Outcome E (sbrk L p bytes s) fun r => Vm.Consistent L r.2 ∧ (r.2.proc p).state = (s.proc p).state ∧
      (r.1 = [] ∨ r.1 = [(s.proc p).sz] ∧ (r.2.proc p).sz ≤ (s.proc p).sz + (int32 bytes).toNat ∧
        (0 ≤ int32 bytes → (r.2.proc p).sz = (s.proc p).sz + (int32 bytes).toNat)) := by
  obtain ⟨own, T, U, hs⟩ := hs
  have hint : int32 bytes < 2 ^ 31 := Int.bmod_lt (by decide)
  unfold sbrk sysSbrk
  generalize int32 bytes = n at hint ⊢
  dsimp only
  rw [if_pos (.inl rfl)]
  refine Outcome.bind (Q := fun r => Vm.Consistent L r.2 ∧ (r.2.proc p).state = (s.proc p).state ∧
      (r.1 = -1 ∨ r.1 = ((s.proc p).sz : ℤ) ∧ (r.2.proc p).sz ≤ (s.proc p).sz + n.toNat ∧
        (0 ≤ n → (r.2.proc p).sz = (s.proc p).sz + n.toNat))) ?_ ?_
  · refine (hs.growproc_spec (hs.started hp) hint).bind ?_
    rintro ⟨result, s'⟩ ⟨⟨own', hs'⟩, sz, hproc, hcases⟩
    have hown : s'.proc p = {s.proc p with sz := sz} := by rw [hproc, Function.update_self]
    split
    · exact ⟨⟨own', T, U, hs'.sound⟩, by rw [hown], .inl rfl⟩
    · rename_i hok
      have hdone := hcases.resolve_left fun hfail => hok (by rw [hfail.1]; decide)
      exact ⟨⟨own', T, U, hs'.sound⟩, by rw [hown], .inr ⟨rfl, by rw [hown]; exact hdone.2⟩⟩
  · rintro ⟨addr, s'⟩ ⟨hs', hstate, hcases⟩
    refine ⟨hs', hstate, ?_⟩
    rcases hcases with rfl | ⟨rfl, hsz⟩
    · exact .inl rfl
    · refine .inr ⟨?_, hsz⟩
      rw [if_neg (by omega), Int.toNat_natCast]

end

/-- The process grows by what was asked for exactly when an `int` counts it. -/
theorem grows_iff {nbytes old sz : ℕ} (hn : nbytes < 2 ^ 32) (hle : sz ≤ old + (int32 (needed nbytes)).toNat)
    (heq : 0 ≤ int32 (needed nbytes) → sz = old + (int32 (needed nbytes)).toNat) :
    sz = old + needed nbytes ↔ needed nbytes < 2 ^ 31 := by
  by_cases hlt : needed nbytes < 2 ^ 31
  · rw [int32_of_lt hlt] at heq
    exact iff_of_true (heq (Int.natCast_nonneg _)) hlt
  · have hint := int32_needed hn (not_lt.mp hlt)
    unfold sizeofHeader at hint
    simp only [hlt, iff_false]
    omega

theorem storeHeader_size (hs : Vm.Consistent L s) (hp : (s.proc p).state ≠ .unused) (nu : ℕ) (answers : List ℕ) :
    Outcome Vm.KfreeStops (storeHeader p nu answers s) fun s' => (s'.proc p).sz = (s.proc p).sz := by
  cases answers with
  | nil => exact rfl
  | cons hp' _ =>
    obtain ⟨own, T, U, hs⟩ := hs
    refine (hs.userStore_unseen hp (hp' + 8) (nu % 256)).bind ?_
    rintro s₁ ⟨⟨⟨own1, T1, U1, hs₁⟩, hseen⟩, hsz⟩
    split
    · exact hsz
    · have hp₁ : (s₁.proc p).state ≠ .unused := (hseen p).1 ▸ hp
      exact (hs₁.userStore_unseen hp₁ hp' 0).mono fun s' hs' => hs'.2.trans hsz

/-! ### The heap grows -/

theorem free_obtained (ap : ℕ) : Outcome (fun _ => True) (free ap h) fun h' => h'.obtained = h.obtained := by
  refine (Outcome.any _).bind fun q _ => ?_
  unfold joinLower joinUpper
  split <;> split <;> rfl

theorem mallocLoop_nil : Outcome (fun _ => True) (mallocLoop nunits fuel prevp q [] h) fun r =>
    r.2.obtained = h.obtained := by
  induction fuel generalizing prevp q with
  | zero => trivial
  | succ fuel ih =>
    unfold mallocLoop
    split
    · unfold carve
      split <;> rfl
    split
    · exact rfl
    · exact ih

/-- Memory that `sbrk` gives becomes a block, unless the search ends before. -/
theorem mallocLoop_obtained (a : ℕ) : Outcome (fun _ => True) (mallocLoop nunits fuel prevp q [a] h) fun r =>
    r.2.obtained = (a, request nunits) :: h.obtained ∨ mallocLoop nunits fuel prevp q [] h = .ok r := by
  induction fuel generalizing prevp q with
  | zero => trivial
  | succ fuel ih =>
    unfold mallocLoop
    split
    · exact .inr rfl
    split
    · have hmore : Outcome (fun _ => True) (morecore nunits [a] h) fun r =>
          r.2.1 = [] ∧ r.2.2.obtained = (a, request nunits) :: h.obtained :=
        (free_obtained ..).bind fun h' hh' => ⟨rfl, hh'⟩
      refine hmore.bind ?_
      rintro ⟨p, rest, h'⟩ ⟨rfl, hh'⟩
      dsimp only
      split
      · exact .inl hh'
      · exact mallocLoop_nil.mono fun r hr => .inl (hr.trans hh')
    · exact ih

theorem setup_obtained (base : ℕ) (h : Heap) : (h.setup base).obtained = h.obtained := by
  unfold Heap.setup
  split <;> rfl

theorem World.Sound.malloc_in {w : World} {nbytes sz : ℕ} (hs : w.Sound base) (hbase : 0 < base)
    (hn : nbytes < 2 ^ 32) (htop : w.heap.top base ≤ sz) (hroom : w.heap.headers + request (units nbytes) < 2 ^ 32)
    (hanswers : answers = [] ∨ answers = [sz]) :
    ∃ addr h', Umalloc.malloc base nbytes answers w.heap = .ok (addr, h') ∧
      (addr = 0 ∨ addr + nbytes ≤ h'.top base) := by
  obtain ⟨F, U, hl, -, hsame, hheaders⟩ := hs.setup hbase
  have hfresh : Fresh (request (units nbytes)) ((w.heap.setup base).top base) answers := by
    rcases hanswers with rfl | rfl
    · trivial
    · exact ⟨hsame ▸ htop, trivial⟩
  obtain ⟨r, h', hloop, hcases⟩ :=
    hl.mallocLoop loopFuel (by decide) hbase (units_pos hn) hfresh (hheaders ▸ hroom)
  refine ⟨r, h', hloop, hcases.imp And.left ?_⟩
  rintro ⟨b, rfl, htaken⟩
  obtain ⟨F', hl'⟩ := htaken.laid
  have hblock := (hl'.end_le (Finset.mem_union_right _ (Finset.mem_insert_self b U))).2
  have hunits := le_units hn
  rw [htaken.size] at hblock
  omega

theorem malloc_nil {nbytes addr : ℕ} {h' : Heap} (hm : malloc base nbytes [] h = .ok (addr, h')) :
    h'.obtained = h.obtained := by
  have hsame := mallocLoop_nil.of_ok hm
  rwa [setup_obtained] at hsame

theorem malloc_obtained {nbytes a addr : ℕ} {h' : Heap} (hm : malloc base nbytes [a] h = .ok (addr, h')) :
    h'.obtained = (a, request (units nbytes)) :: h.obtained ∨ malloc base nbytes [] h = .ok (addr, h') := by
  have hcases := (mallocLoop_obtained a).of_ok hm
  rwa [setup_obtained] at hcases

/-- What `malloc` promises: where it records a block, the process has grown by its bytes, and it returns 0, or
the address of as many bytes as were asked for, all below the break. -/
def Promised (p nbytes : ℕ) (s : Os) (h : Heap) (addr : ℕ) (s' : Os) (h' : Heap) : Prop :=
  (h'.obtained ≠ h.obtained → (s'.proc p).sz = (s.proc p).sz + needed nbytes) ∧
    (addr = 0 ∨ addr + nbytes ≤ (s'.proc p).sz)

/-- **`malloc` and the break.** Let the heap of a process be in order and below its break, with less than
`2 ^ 32` headers. A `malloc` that returns keeps its promise exactly when it records no block, or an `int`
counts the bytes that `morecore` asks for. -/
theorem malloc_below_break (p base nbytes : ℕ) (w : World) (hs : Vm.Consistent L s) (hp : Vm.Started s p)
    (hbase : 0 < base) (hw : w.Sound base) (hn : nbytes < 2 ^ 32) (htop : w.heap.top base ≤ (s.proc p).sz)
    (hroom : w.heap.headers + request (units nbytes) < 2 ^ 32) :
    Outcome Vm.KfreeStops (mallocIn L p base nbytes s w.heap) fun r => ∀ result, r.1 = some result →
      ∃ addr h', result = .ok (addr, h') ∧ (Promised p nbytes s w.heap addr r.2 h' ↔
        h'.obtained = w.heap.obtained ∨ needed nbytes < 2 ^ 31) := by
  obtain ⟨addr₀, h₀, hnone, haddr₀⟩ := hw.malloc_in hbase hn htop hroom (.inl rfl)
  have hsame₀ := malloc_nil hnone
  have hbelow : addr₀ = 0 ∨ addr₀ + nbytes ≤ (s.proc p).sz := by
    unfold Heap.top at haddr₀ htop
    rw [hsame₀] at haddr₀
    omega
  unfold mallocIn
  rw [hnone]
  split
  · rename_i hzero
    cases hzero
    refine (sbrk_grows hs hp _).bind ?_
    rintro ⟨answers, s₁⟩ ⟨hs₁, hstate, hcases⟩
    have hp₁ : (s₁.proc p).state ≠ .unused := by
      grind [Vm.Started]
    refine (storeHeader_size hs₁ hp₁ _ answers).bind fun s₂ hsz => ?_
    split
    · rintro _ ⟨⟩
    rintro _ ⟨⟩
    rcases hcases with rfl | ⟨rfl, hle, heq⟩
    · exact ⟨0, h₀, hnone, iff_of_true ⟨fun hne => absurd hsame₀ hne, .inl rfl⟩ (.inl hsame₀)⟩
    obtain ⟨addr, h', hsome, haddr⟩ := hw.malloc_in hbase hn htop hroom (.inr rfl)
    refine ⟨addr, h', hsome, ?_⟩
    rcases malloc_obtained hsome with hnew | hsearch
    · have hne : h'.obtained ≠ w.heap.obtained := hnew ▸ List.cons_ne_self _ _
      have hgrows := grows_iff hn hle heq
      unfold Promised
      dsimp only at hsz ⊢
      rw [hsz]
      simp only [hne, ne_eq, not_false_eq_true, forall_const, false_or, hgrows]
      refine and_iff_left_of_imp fun hlt => haddr.imp_right fun hin => ?_
      rw [hgrows.mpr hlt]
      unfold Heap.top at hin
      rw [hnew] at hin
      exact hin
    · cases hnone.symm.trans hsearch
      exact iff_of_true ⟨fun hne => absurd hsame₀ hne, .inl rfl⟩ (.inl hsame₀)
  · rintro _ ⟨⟩
    exact ⟨addr₀, h₀, rfl, iff_of_true ⟨fun hne => absurd hsame₀ hne, hbelow⟩ (.inl hsame₀)⟩

def unusedHeap : Heap := ⟨fun _ => 0, fun _ => 0, 0, []⟩

/-- The address that a `malloc` returns. -/
def returned (r : Option (Result (ℕ × Heap)) × Os) : Option ℕ := r.1.bind fun result => result.toOption.map Prod.fst

/-- The `2 ^ 28 + 1` headers for so many bytes are one header as an `int`, by which the process grows. -/
theorem malloc_below_break_header : ∃ s, Vm.userinit .small (.small 16) = .ok s ∧
    ∃ s', (Vm.changes .small).run s [.sbrk 0 1008 1] = .ok s' ∧
      ∃ r, mallocIn .small 0 64 0xFFFFFFF1 s' unusedHeap = .ok r ∧ returned r = some 1024 ∧ (r.2.proc 0).sz = 1024 ∧
        ∀ result, r.1 = some result → ∃ addr h', result = .ok (addr, h') ∧
          (Promised 0 0xFFFFFFF1 s' unusedHeap addr r.2 h' ↔
            h'.obtained = unusedHeap.obtained ∨ needed 0xFFFFFFF1 < 2 ^ 31) := by
  have hfresh : Vm.Fresh .small (.small 16) :=
    ⟨⟨(List.range 16).map Vm.smallPage, by decide, by decide⟩, fun _ => rfl⟩
  obtain ⟨s, hinit, hproper, s', hrun, hp, hsz, r, hr, haddr, hbreak⟩ : ∃ s,
      Vm.userinit .small (.small 16) = .ok s ∧ (Vm.changes .small).Proper s [.sbrk 0 1008 1] ∧
      ∃ s', (Vm.changes .small).run s [.sbrk 0 1008 1] = .ok s' ∧ Vm.Started s' 0 ∧ (s'.proc 0).sz = 1008 ∧
        ∃ r, mallocIn .small 0 64 0xFFFFFFF1 s' unusedHeap = .ok r ∧ returned r = some 1024 ∧
          (r.2.proc 0).sz = 1024 := by decide +kernel
  have hall := malloc_below_break 0 64 0xFFFFFFF1 ⟨unusedHeap, []⟩
    (Vm.changes_consistent hfresh hinit hproper hrun) hp (by decide) (.inl ⟨rfl, rfl, rfl⟩) (by decide)
    (by rw [hsz]; decide) (by decide)
  exact ⟨s, hinit, s', hrun, r, hr, haddr, hbreak, hall.of_ok hr⟩

/-- The `2 ^ 28` headers for so many bytes have `2 ^ 32` bytes, which are 0 as an `int`. The process does not
grow; its last page takes the header, and `malloc` returns an address above the break. -/
theorem malloc_beyond_break : ∃ s, Vm.userinit .small (.small 16) = .ok s ∧
    ∃ s', (Vm.changes .small).run s [.sbrk 0 1008 1] = .ok s' ∧
      ∃ r, mallocIn .small 0 64 0xFFFFFFF0 s' unusedHeap = .ok r ∧ returned r = some 1024 ∧
        (r.2.proc 0).sz = 1008 := by
  decide +kernel

end Xv6.Umalloc
