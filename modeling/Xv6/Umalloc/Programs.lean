import Xv6.Umalloc.Malloc

/-! Programs that use the heap.

Between the calls of a program the blocks in use are those it holds (`Owns`). From this and
`Laid` follows how its memory looks (`Tidy`), as long as the heap has less than `2 ^ 32` headers:
the size of a block is a `uint`, and past that the sizes of joined blocks wrap around. -/
namespace Xv6.Umalloc
open Finset (mem_union_right mem_insert notMem_empty mem_singleton mem_insert_self mem_union_left)

open Function

variable {base : ℕ} {w w' : World} {F U : Finset ℕ}

/-- The heap of a program in order, with the free blocks `xs`. -/
structure Tidy (base : ℕ) (w : World) (xs : List ℕ) : Prop where
  /-- The free list goes upwards from `base` through the free blocks and back. -/
  sorted : (base :: xs).Pairwise (· < ·)
  circular : (base :: xs ++ [base]).IsChain fun a b => w.heap.ptr a = b
  freep : w.heap.freep ∈ base :: xs
  /-- No two blocks on it overlap or are neighbours. -/
  separate : (base :: xs).Pairwise fun a b => a + sizeofHeader * w.heap.size a < b
  /-- A block in use has the headers its bytes need and one. -/
  liveSize : ∀ r ∈ w.live, ∃ b, r.1 = b + sizeofHeader ∧
    w.heap.size b = (r.2 + sizeofHeader - 1) / sizeofHeader + 1
  /-- No two blocks, free or in use, overlap. -/
  disjoint : (xs ++ w.live.map (·.1 - sizeofHeader)).Pairwise fun a b =>
    a + sizeofHeader * w.heap.size a ≤ b ∨ b + sizeofHeader * w.heap.size b ≤ a
  /-- They make up the memory of the heap. -/
  all : ∀ m, (∃ b ∈ xs ++ w.live.map (·.1 - sizeofHeader), b ≤ m ∧ m < b + sizeofHeader * w.heap.size b) ↔
    ∃ r ∈ w.heap.obtained, r.1 ≤ m ∧ m < r.1 + sizeofHeader * r.2
  /-- The bytes asked for are in the block, and neither a header of the list nor another block in
  use overlaps them. -/
  usable : ∀ r ∈ w.live,
    r.1 + r.2 ≤ (r.1 - sizeofHeader) + sizeofHeader * w.heap.size (r.1 - sizeofHeader) ∧
    (∀ a ∈ base :: xs, a + sizeofHeader ≤ r.1 ∨ r.1 + r.2 ≤ a) ∧
    ∀ q ∈ w.live, q ≠ r → r.1 + r.2 ≤ q.1 - sizeofHeader ∨
      (q.1 - sizeofHeader) + sizeofHeader * w.heap.size (q.1 - sizeofHeader) ≤ r.1

/-- The blocks in use are those the program holds. -/
structure Owns (w : World) (U : Finset ℕ) : Prop where
  nodup : (w.live.map Prod.fst).Nodup
  mem : ∀ u, u ∈ U ↔ u + sizeofHeader ∈ w.live.map Prod.fst
  header : ∀ r ∈ w.live, sizeofHeader ≤ r.1
  size : ∀ r ∈ w.live, w.heap.size (r.1 - sizeofHeader) = units r.2
  small : ∀ r ∈ w.live, r.2 < 2 ^ 32

/-- Before the first `malloc` there is no list. -/
def World.Unused (w : World) : Prop := w.heap.freep = 0 ∧ w.heap.obtained = [] ∧ w.live = []

def World.Sound (base : ℕ) (w : World) : Prop := w.Unused ∨ ∃ F U, Laid base w.heap F U ∧ Owns w U

theorem units_eq {n : ℕ} (h : n < 2 ^ 32) : units n = (n + sizeofHeader - 1) / sizeofHeader + 1 := by
  grind [uint32_of_lt, sizeofHeader, units]

theorem units_pos {n : ℕ} (h : n < 2 ^ 32) : 0 < units n := by
  rw [units_eq h]
  exact Nat.succ_pos _

theorem le_units {n : ℕ} (h : n < 2 ^ 32) : sizeofHeader + n ≤ sizeofHeader * units n := by
  rw [units_eq h]
  simp only [sizeofHeader]
  omega

namespace Owns

theorem block (ho : Owns w U) {r : ℕ × ℕ} (hr : r ∈ w.live) :
    r.1 - sizeofHeader ∈ U ∧ r.1 - sizeofHeader + sizeofHeader = r.1 := by
  grind [Owns.header, Owns.mem]

theorem usable (ho : Owns w U) {r : ℕ × ℕ} (hr : r ∈ w.live) :
    r.1 + r.2 ≤ (r.1 - sizeofHeader) + sizeofHeader * w.heap.size (r.1 - sizeofHeader) := by
  rw [ho.size r hr]
  have hle := le_units (ho.small r hr)
  grind

theorem header_apart (ho : Owns w U) (hl : Laid base w.heap F U) {a : ℕ} (ha : a ∈ insert base (F ∪ U))
    {r : ℕ × ℕ} (hr : r ∈ w.live) : a + sizeofHeader ≤ r.1 ∨ r.1 + r.2 ≤ a := by
  obtain ⟨hU, hsum⟩ := ho.block hr
  have hB := mem_union_right F hU
  have husable := ho.usable hr
  rcases mem_insert.mp ha with rfl | haB
  · exact .inl ((hl.above _ hB).trans (Nat.sub_le ..))
  by_cases heq : a = r.1 - sizeofHeader
  · grind
  rcases hl.tiles.disjoint haB hB heq with hle | hle
  · grind
  · exact .inr (husable.trans hle)

end Owns

/-! ### The calls -/

theorem Laid.start (ptr size : ℕ → ℕ) :
    Laid base ⟨update ptr base base, update size base 0, base, []⟩ ∅ ∅ where
  baseSize := update_self ..
  above b hb := absurd hb (notMem_empty b)
  disjoint := Finset.disjoint_empty_left _
  tiles := by
    refine ⟨fun b hb => absurd hb (notMem_empty b), fun a ha => absurd ha (notMem_empty a),
      fun m => ?_⟩
    simp [Heap.memory]
  coalesced b hb := absurd hb (notMem_empty b)
  sum := rfl
  small := Nat.two_pow_pos 32
  below m hm := by simp [Heap.memory] at hm
  high := le_rfl
  circular a ha := by
    cases mem_singleton.mp ha
    dsimp only
    rw [update_self]
    refine ⟨ha, .inr ⟨fun c hc => ?_, fun c hc => ?_⟩⟩
    · exact (mem_singleton.mp hc).le
    · exact (mem_singleton.mp hc).ge
  freep := mem_insert_self ..

theorem World.Sound.setup (hs : w.Sound base) (hbase : 0 < base) :
    ∃ F U, Laid base (w.heap.setup base) F U ∧ Owns ⟨w.heap.setup base, w.live⟩ U ∧
      (w.heap.setup base).top base = w.heap.top base ∧ (w.heap.setup base).headers = w.heap.headers := by
  unfold Heap.setup
  rcases hs with ⟨hfreep, hobtained, hlive⟩ | ⟨F, U, hl, ho⟩
  · rw [if_pos hfreep]
    refine ⟨∅, ∅, hobtained ▸ .start .., ⟨?_, ?_, ?_, ?_, ?_⟩, rfl, rfl⟩ <;> simp [hlive]
  · have hne : w.heap.freep ≠ 0 := (hbase.trans_le (hl.base_le hl.freep)).ne'
    rw [if_neg hne]
    exact ⟨F, U, hl, ho, rfl, rfl⟩

theorem Owns.insert {h h' : Heap} {b n : ℕ} {live : List (ℕ × ℕ)} (ho : Owns ⟨h, live⟩ U)
    (ht : Taken base (units n) h h' U b) (hn : n < 2 ^ 32) :
    Owns ⟨h', (b + sizeofHeader, n) :: live⟩ (insert b U) where
  nodup := by
    refine List.nodup_cons.mpr ⟨fun hmem => ?_, ho.nodup⟩
    exact ht.fresh ((ho.mem b).mpr hmem)
  mem u := by
    rw [mem_insert, List.map_cons, List.mem_cons, ho.mem u]
    exact or_congr_left Nat.add_right_cancel_iff.symm
  header := by
    refine List.forall_mem_cons.mpr ⟨Nat.le_add_left .., ho.header⟩
  size := by
    refine List.forall_mem_cons.mpr ⟨?_, fun r hr => ?_⟩
    · dsimp only
      rw [Nat.add_sub_cancel]
      exact ht.size
    · exact (ht.same _ (ho.block hr).1).trans (ho.size r hr)
  small := List.forall_mem_cons.mpr ⟨hn, ho.small⟩

theorem World.Sound.malloc {n : ℕ} {answers : List ℕ} (hs : w.Sound base) (hbase : 0 < base) (hn : n < 2 ^ 32)
    (hfresh : Fresh (request (units n)) (w.heap.top base) answers)
    (hroom : w.heap.headers + request (units n) < 2 ^ 32) :
    ∃ w', step base w (.malloc n answers) = .ok w' ∧ w'.Sound base := by
  obtain ⟨F, U, hl, ho, htop, hheaders⟩ := hs.setup hbase
  rw [← htop] at hfresh
  rw [← hheaders] at hroom
  obtain ⟨r, h', hrun, hcases⟩ :=
    hl.mallocLoop loopFuel (by decide) hbase (units_pos hn) hfresh hroom
  have hstep : step base w (.malloc n answers) =
      .ok ⟨h', if r = 0 then w.live else (r, n) :: w.live⟩ := by
    unfold step Umalloc.malloc
    dsimp only
    rw [hrun]
    rfl
  refine ⟨_, hstep, .inr ?_⟩
  rcases hcases with ⟨rfl, rfl⟩ | ⟨b, rfl, htaken⟩
  · exact ⟨F, U, hl, ho⟩
  · obtain ⟨F', hl'⟩ := htaken.laid
    refine ⟨F', _, hl', ?_⟩
    rw [if_neg (Nat.add_pos_right b headerPos).ne']
    exact ho.insert htaken hn

theorem World.Sound.free {ap : ℕ} (hs : w.Sound base) (hap : ap ∈ w.live.map Prod.fst) :
    ∃ w', step base w (.free ap) = .ok w' ∧ w'.Sound base := by
  rcases hs with ⟨-, -, hlive⟩ | ⟨F, U, hl, ho⟩
  · rw [hlive] at hap
    exact absurd hap (List.not_mem_nil)
  obtain ⟨r, hr, rfl⟩ := List.mem_map.mp hap
  obtain ⟨hU, hsum⟩ := ho.block hr
  obtain ⟨h', F', hfree, hl', hframe, -⟩ := hl.free hU
  rw [hsum] at hfree
  have hstep : step base w (.free r.1) = .ok ⟨h', w.live.filter (·.1 ≠ r.1)⟩ := by
    unfold step
    dsimp only
    rw [hfree]
    rfl
  have hkept : ∀ q ∈ w.live.filter (·.1 ≠ r.1), q ∈ w.live ∧ q.1 ≠ r.1 := fun q hq => by
    simpa using hq
  refine ⟨_, hstep, .inr ⟨F', _, hl', ?_, fun u => ?_, fun q hq => ?_, fun q hq => ?_, fun q hq => ?_⟩⟩
  · exact ho.nodup.sublist (List.filter_sublist.map _)
  · grind [Owns.mem]
  · exact ho.header q (hkept q hq).1
  · obtain ⟨hq, hne⟩ := hkept q hq
    refine (hframe.size _ (Finset.mem_erase.mpr ⟨fun heq => hne ?_, (ho.block hq).1⟩)).trans (ho.size q hq)
    rw [← (ho.block hq).2, heq, hsum]
  · exact ho.small q (hkept q hq).1

theorem World.Sound.store {ptr size : ℕ → ℕ} (hs : w.Sound base)
    (hstore : w.allowed base (.store ptr size)) :
    ∃ w', step base w (.store ptr size) = .ok w' ∧ w'.Sound base := by
  refine ⟨_, rfl, ?_⟩
  rcases hs with hunused | ⟨F, U, hl, ho⟩
  · exact .inl hunused
  have hsame : ∀ a ∈ insert base (F ∪ U), ptr a = w.heap.ptr a ∧ size a = w.heap.size a := fun a ha =>
    hstore a fun r hr => ho.header_apart hl ha hr
  have hB : ∀ b ∈ F ∪ U, size b = w.heap.size b := fun b hb => (hsame b (Finset.mem_insert_of_mem hb)).2
  refine .inr ⟨F, U, ⟨hl.recut ⟨hB, rfl⟩ ?_ rfl hl.disjoint ?_, ?_, hl.freep⟩,
    ho.nodup, ho.mem, ho.header, ?_, ho.small⟩
  · exact (hsame base (mem_insert_self ..)).2.trans hl.baseSize
  · intro b hb
    dsimp only
    rw [hB b (mem_union_left _ hb)]
    exact hl.coalesced b hb
  · refine hl.circular.congr fun a ha => (hsame a ?_).1
    exact Finset.insert_subset_insert _ Finset.subset_union_left ha
  · exact fun r hr => (hB _ (mem_union_right _ (ho.block hr).1)).trans (ho.size r hr)

/-! ### The memory of a program -/

theorem Owns.nodup_blocks (ho : Owns w U) : (w.live.map (·.1 - sizeofHeader)).Nodup := by
  refine List.Nodup.map_on (fun r hr q hq heq => ?_) ho.nodup.of_map
  have hfst : r.1 = q.1 := by
    rw [← (ho.block hr).2, ← (ho.block hq).2, heq]
  exact List.inj_on_of_nodup_map ho.nodup hr hq hfst

theorem Owns.mem_blocks (ho : Owns w U) (b : ℕ) : b ∈ w.live.map (·.1 - sizeofHeader) ↔ b ∈ U := by
  rw [List.mem_map]
  constructor
  · rintro ⟨r, hr, rfl⟩
    exact (ho.block hr).1
  grind [Owns.mem, Nat.add_sub_cancel]

theorem Laid.tidy (hl : Laid base w.heap F U) (ho : Owns w U) : ∃ xs, Tidy base w xs := by
  obtain ⟨xs, hsorted, hmem, hchain⟩ :=
    hl.circular.isChain (mem_insert_self ..) fun c hc => hl.base_le hc
  have hbase : ∀ c ∈ xs, base < c := (List.pairwise_cons.mp hsorted).1
  have hxs : ∀ c, c ∈ xs ↔ c ∈ F := by
    intro c
    constructor
    · grind
    · intro hc
      refine (List.mem_cons.mp ((hmem c).mpr (Finset.mem_insert_of_mem hc))).resolve_left ?_
      exact (hl.base_lt (mem_union_left _ hc)).ne'
  have hblocks : ∀ b, b ∈ xs ++ w.live.map (·.1 - sizeofHeader) ↔ b ∈ F ∪ U := by
    intro b
    rw [List.mem_append, Finset.mem_union, hxs, ho.mem_blocks]
  have hnodup : (xs ++ w.live.map (·.1 - sizeofHeader)).Nodup := by
    refine List.nodup_append'.mpr ⟨(List.pairwise_cons.mp hsorted).2.imp fun hlt => hlt.ne, ho.nodup_blocks, ?_⟩
    intro b hb hb'
    exact Finset.disjoint_left.mp hl.disjoint ((hxs b).mp hb) ((ho.mem_blocks b).mp hb')
  refine ⟨xs, hsorted, hchain, (hmem _).mpr hl.freep, ?_, fun r hr => ?_, ?_, fun m => ?_, fun r hr => ⟨ho.usable hr, ?_, ?_⟩⟩
  · refine List.pairwise_cons.mpr ⟨fun c hc => ?_, ?_⟩
    · rw [hl.baseSize]
      exact hbase c hc
    · refine (List.pairwise_cons.mp hsorted).2.imp_of_mem fun ha hb hlt => ?_
      have haF := (hxs _).mp ha
      have hbF := (hxs _).mp hb
      refine lt_of_le_of_ne (hl.tiles.apart _ (mem_union_left _ haF) _ (mem_union_left _ hbF) hlt) ?_
      exact fun heq => hl.coalesced _ haF (heq ▸ hbF)
  · exact ⟨_, (ho.block hr).2.symm, (ho.size r hr).trans (units_eq (ho.small r hr))⟩
  · refine hnodup.pairwise_of_forall_ne fun a ha b hb hne => ?_
    exact hl.tiles.disjoint ((hblocks a).mp ha) ((hblocks b).mp hb) hne
  · refine Iff.trans ?_ (hl.tiles.cover m).symm
    exact exists_congr fun b => and_congr_left fun _ => hblocks b
  · intro a ha
    refine ho.header_apart hl ?_ hr
    exact Finset.insert_subset_insert _ Finset.subset_union_left ((hmem a).mp ha)
  · intro q hq hne
    have hr' := ho.block hr
    have hq' := ho.block hq
    have hblock : r.1 - sizeofHeader ≠ q.1 - sizeofHeader := by
      intro heq
      refine hne (List.inj_on_of_nodup_map ho.nodup hq hr ?_)
      rw [← hq'.2, ← hr'.2, heq]
    have husable := ho.usable hr
    rcases hl.tiles.disjoint (mem_union_right _ hr'.1) (mem_union_right _ hq'.1) hblock with hle | hle
    · exact .inl (husable.trans hle)
    · exact .inr (hle.trans (Nat.sub_le ..))

/-- The headers of the heap, with those a call may ask for, are counted in a `uint`. -/
def Roomy (w : World) : Call → Prop
  | .malloc nbytes _ => w.heap.headers + request (units nbytes) < 2 ^ 32
  | .free _ => True
  | .store _ _ => True

/-- The heap of a program stays in order, and its calls return. -/
theorem heap_stays_tidy (base : ℕ) (hbase : 0 < base) (ptr size : ℕ → ℕ) (cs : List Call)
    (hp : ((program base).restrict Roomy).Proper (start ptr size) cs) :
    ∃ w, (program base).run (start ptr size) cs = .ok w ∧ (w.Unused ∨ ∃ xs, Tidy base w xs) := by
  have hstart : (start ptr size).Sound base := .inl ⟨rfl, rfl, rfl⟩
  obtain ⟨w, hrun, hs⟩ := Protocol.run_invariant (P := (program base).restrict Roomy)
    (fun c _ w hs hallowed => by
      obtain ⟨hallowed, hroomy⟩ := hallowed
      cases c with
      | malloc n answers => exact hs.malloc hbase hallowed.1 hallowed.2 hroomy
      | free ap => exact hs.free hallowed
      | store ptr size => exact hs.store hallowed) hstart hp
  rw [Protocol.restrict_run] at hrun
  refine ⟨w, hrun, hs.imp_right ?_⟩
  rintro ⟨F, U, hl, ho⟩
  exact hl.tidy ho

/-- Only a store is not decided by looking at finitely many headers. -/
noncomputable instance (base : ℕ) (w : World) : ∀ c, Decidable ((program base).allowed w c)
  | .malloc nbytes answers => inferInstanceAs
      (Decidable (nbytes < 2 ^ 32 ∧ Fresh (request (units nbytes)) (w.heap.top base) answers))
  | .free ap => inferInstanceAs (Decidable (ap ∈ w.live.map Prod.fst))
  | .store _ _ => Classical.propDecidable _

instance (w : World) : ∀ c, Decidable (Roomy w c)
  | .malloc nbytes _ => inferInstanceAs (Decidable (w.heap.headers + request (units nbytes) < 2 ^ 32))
  | .free _ => .isTrue trivial
  | .store _ _ => .isTrue trivial

/-- Two blocks are taken from one piece of memory and freed in that order. -/
theorem heap_stays_tidy_two : ∃ w, (program 4096).run (start (fun _ => 0) fun _ => 0)
      [.malloc 100 [8192], .malloc 20 [], .free 73616, .free 73568] = .ok w ∧
      (w.Unused ∨ ∃ xs, Tidy 4096 w xs) :=
  heap_stays_tidy 4096 (by decide) _ _ _ (by decide +kernel)

/-- A block of `2 ^ 27 - 1` headers, whose bytes an `int` counts. -/
def largeBlock (i : ℕ) : ℕ := 8192 + i * (sizeofHeader * (2 ^ 27 - 1))

/-- As many of them as have more headers than a `uint` counts are taken, and freed. -/
def wraps : List Call :=
  (List.range 33).map (fun i => .malloc (sizeofHeader * (2 ^ 27 - 2)) [largeBlock i]) ++
    (List.range 33).map fun i => .free (largeBlock i + sizeofHeader)

theorem Tidy.eq_singleton {xs : List ℕ} {x : ℕ} (h : Tidy base w xs) (hne : x ≠ base) (hfirst : w.heap.ptr base = x)
    (hback : w.heap.ptr x = base) : xs = [x] := by
  have hchain := h.circular
  have hsorted := h.sorted
  match xs with
  | [] =>
    grind
  | [y] =>
    have hy : w.heap.ptr base = y := (List.isChain_cons_cons.mp hchain).1
    rw [← hy, hfirst]
  | y :: z :: ys =>
    grind

/-- All of the memory is free, but the size of the one free block wrapped around. -/
theorem heap_wraps : (program 4096).Proper (start (fun _ => 0) fun _ => 0) wraps ∧
    ∃ w, (program 4096).run (start (fun _ => 0) fun _ => 0) wraps = .ok w ∧
      w.live = [] ∧ w.heap.headers = 33 * (2 ^ 27 - 1) ∧ w.heap.ptr 4096 = 8192 ∧ w.heap.ptr 8192 = 4096 ∧
      w.heap.size 8192 = 33 * (2 ^ 27 - 1) - 2 ^ 32 ∧ ¬ ∃ xs, Tidy 4096 w xs := by
  refine ⟨by decide +kernel, ?_⟩
  have hrun : ∃ w, (program 4096).run (start (fun _ => 0) fun _ => 0) wraps = .ok w ∧
      w.live = [] ∧ w.heap.headers = 33 * (2 ^ 27 - 1) ∧ w.heap.ptr 4096 = 8192 ∧ w.heap.ptr 8192 = 4096 ∧
      w.heap.size 8192 = 33 * (2 ^ 27 - 1) - 2 ^ 32 ∧ (largeBlock 32, 2 ^ 27 - 1) ∈ w.heap.obtained := by
    decide +kernel
  obtain ⟨w, hrun, hlive, hheaders, hfirst, hback, hsize, hlast⟩ := hrun
  refine ⟨w, hrun, hlive, hheaders, hfirst, hback, hsize, ?_⟩
  rintro ⟨xs, h⟩
  obtain rfl := h.eq_singleton (by decide) hfirst hback
  -- The memory obtained last is in no block.
  obtain ⟨b, hb, -, hlt⟩ := (h.all (largeBlock 32)).mpr ⟨_, hlast, le_rfl, by decide⟩
  rw [hlive] at hb
  rw [List.mem_singleton.mp hb, hsize] at hlt
  exact absurd hlt (by decide)

end Xv6.Umalloc
