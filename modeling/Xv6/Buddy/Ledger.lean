import Xv6.Buddy.Init
import Xv6.Machine.Run

/-! Outstanding allocations.

A `World` is the allocator and the list of pointers it has returned that are not
freed yet, each with the number of blocks that was asked for. A caller may ask for
up to `2 ^ 30` blocks, and may free what it holds with the number it asked for.
`Ledger U w` says that the blocks held are aligned and pairwise disjoint, and that
exactly the other pages of `U` are free. -/
namespace Xv6.Buddy
open Aligned

/-- The allocator and what its callers hold. -/
structure World where
  state : State
  live : List (ℕ × ℤ)

inductive Call where
  | alloc (n : ℤ)
  | free (p : ℕ) (n : ℤ)
  deriving DecidableEq

/-- Make a call and note what is held after it. -/
def World.step (w : World) : Call → Result World
  | .alloc n => do
    let (p, s) ← buddyAlloc n w.state
    return ⟨s, if p = 0 then w.live else (p, n) :: w.live⟩
  | .free p n => do
    let s ← buddyFree p n w.state
    return ⟨s, w.live.erase (p, n)⟩

/-- A request is at most `2 ^ 30` blocks; what is freed is held, or null. -/
def World.allowed (w : World) : Call → Prop
  | .alloc n => n ≤ 2 ^ 30
  | .free p n => p = 0 ∨ (p, n) ∈ w.live

def calls : Protocol Fault World Call := ⟨World.step, World.allowed⟩

instance (w : World) : ∀ c, Decidable (calls.allowed w c)
  | .alloc _ => inferInstanceAs (Decidable (_ ≤ _))
  | .free _ _ => inferInstanceAs (Decidable (_ ∨ _))

/-- The page index of a pointer, relative to `start`. -/
def pageIndex (start p : ℕ) : ℕ := (p - start) / blockSize

theorem pageIndex_addr (start i : ℕ) : pageIndex start (addr start i) = i := by
  unfold pageIndex addr blockSize
  omega

/-- First page and order of a block that is held. -/
def liveBlock (start : ℕ) (a : ℕ × ℤ) : ℕ × ℕ := (pageIndex start a.1, order a.2)

def livePages (start : ℕ) (a : ℕ × ℤ) : Finset ℕ :=
  block (liveBlock start a).1 (liveBlock start a).2

theorem livePages_addr (start i : ℕ) (n : ℤ) :
    livePages start (addr start i, n) = block i (order n) := by
  unfold livePages liveBlock
  rw [pageIndex_addr]

/-- What is held is one aligned block of managed pages. -/
structure Held (U : Finset ℕ) (start : ℕ) (a : ℕ × ℤ) : Prop where
  pos : 1 ≤ a.2
  bounded : a.2 ≤ 2 ^ 30
  pointer : a.1 = addr start (liveBlock start a).1
  aligned : 2 ^ (liveBlock start a).2 ∣ (liveBlock start a).1
  inside : livePages start a ⊆ U

/-- The blocks held are apart, and the other managed pages are free. -/
structure Ledger (U : Finset ℕ) (w : World) : Prop where
  inv : ∃ F, Inv U F w.state ∧
    ∀ q, q ∈ F ↔ q ∈ U ∧ ∀ a ∈ w.live, q ∉ livePages w.state.memoryStart a
  held : ∀ a ∈ w.live, Held U w.state.memoryStart a
  apart : w.live.Pairwise
    (fun a b => Disjoint (livePages w.state.memoryStart a) (livePages w.state.memoryStart b))

variable {U : Finset ℕ} {w : World}

theorem Ledger.nothing_held {s : State} (h : Inv U U s) : Ledger U ⟨s, []⟩ :=
  ⟨⟨U, h, fun q => by simp⟩, fun _ ha => absurd ha List.not_mem_nil, List.Pairwise.nil⟩

theorem Ledger.cons {F : Finset ℕ} {i : ℕ} {n : ℤ} {s' : State} (h : Ledger U w)
    (hF : ∀ q, q ∈ F ↔ q ∈ U ∧ ∀ a ∈ w.live, q ∉ livePages w.state.memoryStart a)
    (h1 : 1 ≤ n) (hn : n ≤ 2 ^ 30) (hi : 2 ^ order n ∣ i) (hsub : block i (order n) ⊆ F)
    (hinv : Inv U (F \ block i (order n)) s') (hst : Stable w.state s') :
    Ledger U ⟨s', (addr w.state.memoryStart i, n) :: w.live⟩ := by
  have hnew := livePages_addr w.state.memoryStart i n
  refine ⟨⟨_, hinv, fun q => ?_⟩, fun a ha => ?_, ?_⟩
  · simp only [hst.memoryStart, List.forall_mem_cons, hnew, Finset.mem_sdiff, hF]
    tauto
  · rw [hst.memoryStart]
    rcases List.mem_cons.mp ha with rfl | ha
    · have hU : block i (order n) ⊆ U := fun q hq => ((hF q).mp (hsub hq)).1
      refine ⟨h1, hn, ?_, ?_, hnew ▸ hU⟩
      · show _ = addr _ (pageIndex _ _)
        rw [pageIndex_addr]
      · show 2 ^ order n ∣ pageIndex _ _
        rw [pageIndex_addr]
        exact hi
    · exact h.held a ha
  · rw [hst.memoryStart]
    refine List.pairwise_cons.mpr ⟨fun a ha => ?_, h.apart⟩
    rw [hnew]
    exact Finset.disjoint_left.mpr fun q hq => ((hF q).mp (hsub hq)).2 a ha

theorem Ledger.erase {F : Finset ℕ} {a : ℕ × ℤ} {s' : State} (h : Ledger U w)
    (hF : ∀ q, q ∈ F ↔ q ∈ U ∧ ∀ a ∈ w.live, q ∉ livePages w.state.memoryStart a)
    (ha : a ∈ w.live) (hinv : Inv U (F ∪ livePages w.state.memoryStart a) s')
    (hst : Stable w.state s') : Ledger U ⟨s', w.live.erase a⟩ := by
  have hperm := List.perm_cons_erase ha
  have hsymm : ∀ {x y : ℕ × ℤ},
      Disjoint (livePages w.state.memoryStart x) (livePages w.state.memoryStart y) →
      Disjoint (livePages w.state.memoryStart y) (livePages w.state.memoryStart x) :=
    fun hd => hd.symm
  obtain ⟨hothers, hrest⟩ := List.pairwise_cons.mp ((hperm.pairwise_iff hsymm).mp h.apart)
  refine ⟨⟨_, hinv, fun q => ?_⟩, fun b hb => ?_, ?_⟩
  · simp only [hst.memoryStart, Finset.mem_union, hF]
    constructor
    · rintro (⟨hU, hnot⟩ | hq)
      · exact ⟨hU, fun b hb => hnot b (List.mem_of_mem_erase hb)⟩
      · exact ⟨(h.held a ha).inside hq,
          fun b hb => Finset.disjoint_left.mp (hothers b hb) hq⟩
    grind
  · rw [hst.memoryStart]
    exact h.held b (List.mem_of_mem_erase hb)
  · rw [hst.memoryStart]
    exact hrest

theorem Ledger.perm {live : List (ℕ × ℤ)} (h : Ledger U w) (hp : w.live.Perm live) :
    Ledger U ⟨w.state, live⟩ := by
  obtain ⟨F, hinv, hF⟩ := h.inv
  refine ⟨⟨F, hinv, fun q => ?_⟩, fun a ha => h.held a (hp.mem_iff.mpr ha),
    (hp.pairwise_iff fun hd => hd.symm).mp h.apart⟩
  grind

theorem Held.start_le {start : ℕ} {a : ℕ × ℤ} (h : Held U start a) : start ≤ a.1 := by
  rw [h.pointer]
  exact Nat.le_add_right _ _

theorem Held.page_mem {start x : ℕ} {a : ℕ × ℤ} (h : Held U start a) (hx : a.1 ≤ x)
    (hx' : x < a.1 + a.2.toNat * blockSize) : pageIndex start x ∈ livePages start a := by
  have hle : a.2 ≤ 2 ^ order a.2 := order_le.mp le_rfl
  have hnat : a.2.toNat ≤ 2 ^ order a.2 := Int.toNat_le.mpr (by exact_mod_cast hle)
  have hp : a.1 = addr start (pageIndex start a.1) := h.pointer
  show _ ∈ block (pageIndex start a.1) (order a.2)
  rw [mem_block]
  grind [addr, pageIndex, blockSize]

namespace Ledger

theorem first_mem (start : ℕ) (a : ℕ × ℤ) : (liveBlock start a).1 ∈ livePages start a :=
  first_mem_block _ _

section
variable (h : Ledger U w)
include h

theorem nodup : w.live.Nodup := by
  refine h.apart.imp fun {a b} hd heq => ?_
  grind [Ledger.first_mem]

theorem eq_of_mem_bytes {a b : ℕ × ℤ} {x : ℕ} (ha : a ∈ w.live) (hb : b ∈ w.live)
    (hxa : a.1 ≤ x ∧ x < a.1 + a.2.toNat * blockSize)
    (hxb : b.1 ≤ x ∧ x < b.1 + b.2.toNat * blockSize) : a = b := by
  by_contra hne
  have hsymm : Std.Symm fun a b : ℕ × ℤ => Disjoint (livePages w.state.memoryStart a)
      (livePages w.state.memoryStart b) := ⟨fun _ _ hd => hd.symm⟩
  have hd := h.apart.forall ha hb hne
  exact Finset.disjoint_left.mp hd ((h.held a ha).page_mem hxa.1 hxa.2)
    ((h.held b hb).page_mem hxb.1 hxb.2)

theorem page_mem {a : ℕ × ℤ} {x : ℕ} (ha : a ∈ w.live)
    (hx : a.1 ≤ x ∧ x < a.1 + a.2.toNat * blockSize) : pageIndex w.state.memoryStart x ∈ U :=
  (h.held a ha).inside ((h.held a ha).page_mem hx.1 hx.2)

theorem byte_lt {a : ℕ × ℤ} {x : ℕ} (ha : a ∈ w.live)
    (hx : a.1 ≤ x ∧ x < a.1 + a.2.toNat * blockSize) : x < 2 ^ 64 := by
  obtain ⟨F, hinv, _⟩ := h.inv
  have hfit := (hinv.fits _ (h.page_mem ha hx)).2
  grind [addr, pageIndex, blockSize]

theorem length_le : w.live.length ≤ U.card := by
  have hnd : (w.live.map fun a => (liveBlock w.state.memoryStart a).1).Nodup := by
    refine List.pairwise_map.mpr (h.apart.imp fun {a b} hd heq => ?_)
    exact Finset.disjoint_left.mp hd (first_mem _ a) (heq ▸ first_mem _ b)
  rw [← List.length_map (f := fun a => (liveBlock w.state.memoryStart a).1),
    ← List.toFinset_card_of_nodup hnd]
  refine Finset.card_le_card fun q hq => ?_
  obtain ⟨a, ha, rfl⟩ := List.mem_map.mp (List.mem_toFinset.mp hq)
  exact (h.held a ha).inside (first_mem _ a)

end

/-! ### Calls -/

variable {n : ℤ} {p : ℕ}

theorem alloc_found {l : ℕ} (h : Ledger U w) (h1 : 1 ≤ n) (hn : n ≤ 2 ^ 30) (hl : order n ≤ l)
    (hlm : l < w.state.maxOrder) (hne : w.state.freeList l ≠ 0) :
    ∃ p s, buddyAlloc n w.state = .ok (p, s) ∧ p ≠ 0 ∧ Ledger U ⟨s, (p, n) :: w.live⟩ ∧
      Stable w.state s := by
  obtain ⟨F, hinv, hF⟩ := h.inv
  obtain ⟨i, s', hs', hi, hsub, hinv', hst⟩ := hinv.buddyAlloc_found h1 hn hl hlm hne
  refine ⟨_, s', hs', ?_, h.cons hF h1 hn hi hsub hinv' hst, hst⟩
  exact Nat.ne_of_gt (hinv.fits i (hinv.subset (hsub (first_mem_block _ _)))).1

theorem free (h : Ledger U w) (ha : (p, n) ∈ w.live) :
    ∃ s, buddyFree p n w.state = .ok s ∧ Ledger U ⟨s, w.live.erase (p, n)⟩ ∧ Stable w.state s ∧
      s.freeBlocks = w.state.freeBlocks + 2 ^ order n := by
  obtain ⟨F, hinv, hF⟩ := h.inv
  have hheld := h.held _ ha
  have hd : Disjoint (livePages w.state.memoryStart (p, n)) F :=
    Finset.disjoint_right.mpr fun q hq => ((hF q).mp hq).2 _ ha
  obtain ⟨s', hs', hinv', hst⟩ := hinv.buddyFree hheld.pos hheld.bounded hheld.aligned
    hheld.inside hd
  have hp : p = addr w.state.memoryStart (liveBlock w.state.memoryStart (p, n)).1 := hheld.pointer
  rw [← hp] at hs'
  refine ⟨s', hs', h.erase hF ha hinv' hst, hst, ?_⟩
  have hd' : Disjoint F (block (liveBlock w.state.memoryStart (p, n)).1 (order n)) := hd.symm
  rw [hinv'.freeBlocks, hinv.freeBlocks, Finset.card_union_of_disjoint hd', card_block]
  push_cast
  rfl

theorem step_free (h : Ledger U w) (hc : w.allowed (.free p n)) :
    ∃ w', w.step (.free p n) = .ok w' ∧ Ledger U w' ∧ Stable w.state w'.state := by
  by_cases hmem : (p, n) ∈ w.live
  · obtain ⟨s, hs, hledger, hst, _⟩ := h.free hmem
    rw [World.step, hs]
    exact ⟨_, rfl, hledger, hst⟩
  · have hp : p = 0 := hc.resolve_right hmem
    have hnull : buddyFree p n w.state = .ok w.state := by rw [buddyFree, if_pos (.inl hp)]
    rw [World.step, hnull, List.erase_of_not_mem hmem]
    exact ⟨w, rfl, h, .refl _⟩

end Ledger

/-! ### What a caller needs to know -/

/-- What an allocator manages: some of the pages from `start` on. Its calls may fail in
the ways `faults`. -/
structure Arena where
  start : ℕ
  pages : Finset ℕ
  faults : Fault → Prop

/-- The ledger is right, and the entries of `free_list` past the lists in use are null.
`buddy_alloc` reads the first of them when it finds nothing; the arena admits the error with
which it then fails exactly if there is none. -/
structure Sound (A : Arena) (w : World) : Prop where
  ledger : Ledger A.pages w
  start : w.state.memoryStart = A.start
  above : ∀ k, w.state.maxOrder ≤ k → w.state.freeList k = 0
  faults : A.faults (.outOfBounds maxOrderLimit) ↔ w.state.maxOrder = maxOrderLimit

namespace Sound

variable {A : Arena} {n : ℤ} {p : ℕ}

section
variable (h : Sound A w)
include h

theorem stable {w' : World} (hl : Ledger A.pages w') (hst : Stable w.state w'.state) :
    Sound A w' := by
  refine ⟨hl, hst.memoryStart.trans h.start, fun k hk => ?_, hst.maxOrder ▸ h.faults⟩
  rw [hst.maxOrder] at hk
  rw [hst.above k hk]
  exact h.above k hk

theorem perm {live : List (ℕ × ℤ)} (hp : w.live.Perm live) : Sound A ⟨w.state, live⟩ :=
  h.stable (h.ledger.perm hp) (.refl _)

theorem alloc_found {l : ℕ} (h1 : 1 ≤ n) (hn : n ≤ 2 ^ 30) (hl : order n ≤ l)
    (hne : w.state.freeList l ≠ 0) :
    ∃ p s, buddyAlloc n w.state = .ok (p, s) ∧ p ≠ 0 ∧ Sound A ⟨s, (p, n) :: w.live⟩ ∧
      Stable w.state s := by
  grind [Sound.above, Sound.ledger, Ledger.alloc_found, Sound.stable]

/-- A request that no list can serve returns null, unless its search leaves the array. -/
theorem alloc_none (h1 : 1 ≤ n) (hn : n ≤ 2 ^ 30)
    (hnull : ∀ l, order n ≤ l → w.state.freeList l = 0) :
    buddyAlloc n w.state = .ok (0, w.state) ∨ w.state.maxOrder = maxOrderLimit ∧
      order n ≤ maxOrderLimit ∧ buddyAlloc n w.state = .error (.outOfBounds maxOrderLimit) := by
  obtain ⟨F, hinv, _⟩ := h.ledger.inv
  grind [Inv.buddyAlloc_none, Inv.limit, Inv.buddyAlloc_tooLarge, Inv.buddyAlloc_outOfBounds]

theorem alloc (hn : n ≤ 2 ^ 30) :
    Outcome A.faults (buddyAlloc n w.state) fun r => r = (0, w.state) ∨
      r.1 ≠ 0 ∧ 1 ≤ n ∧ Sound A ⟨r.2, (r.1, n) :: w.live⟩ ∧ Stable w.state r.2 := by
  by_cases h1 : 1 ≤ n
  · by_cases hfound : ∃ l, order n ≤ l ∧ w.state.freeList l ≠ 0
    · obtain ⟨l, hl, hne⟩ := hfound
      obtain ⟨p, s, hs, hp, hsound, hst⟩ := h.alloc_found h1 hn hl hne
      rw [hs]
      exact .inr ⟨hp, h1, hsound, hst⟩
    · push Not at hfound
      rcases h.alloc_none h1 hn hfound with hnull | ⟨hmax, _, hout⟩
      · rw [hnull]
        exact .inl rfl
      · rw [hout]
        exact h.faults.mpr hmax
  · rw [buddyAlloc, if_pos (by omega)]
    exact .inl rfl

/-- Where the search leaves the array when it finds nothing, no request returns null. -/
theorem alloc_ne_zero (h1 : 1 ≤ n) (hn : order n ≤ maxOrderLimit)
    (hA : A.faults (.outOfBounds maxOrderLimit)) :
    Outcome A.faults (buddyAlloc n w.state) fun r => r.1 ≠ 0 := by
  have hn30 : n ≤ 2 ^ 30 := order_le.mp (hn.trans (by decide))
  by_cases hfound : ∃ l, order n ≤ l ∧ w.state.freeList l ≠ 0
  · obtain ⟨l, hl, hne⟩ := hfound
    obtain ⟨p, s, hs, hp, -⟩ := h.alloc_found h1 hn30 hl hne
    rw [hs]
    exact hp
  · push Not at hfound
    rw [Inv.buddyAlloc_outOfBounds h1 hn30 (h.faults.mp hA) hn fun l hl _ => hfound l hl]
    exact hA

theorem free (ha : (p, n) ∈ w.live) :
    ∃ s, buddyFree p n w.state = .ok s ∧ Sound A ⟨s, w.live.erase (p, n)⟩ ∧ Stable w.state s ∧
      s.freeBlocks = w.state.freeBlocks + 2 ^ order n := by
  grind [Sound.ledger, Ledger.free, Sound.stable]

theorem step_free (hc : w.allowed (.free p n)) :
    ∃ w', w.step (.free p n) = .ok w' ∧ Sound A w' ∧ Stable w.state w'.state := by
  grind [Sound.ledger, Ledger.step_free, Sound.stable]

theorem step {c : Call} (hc : w.allowed c) :
    Outcome A.faults (w.step c) fun w' => Sound A w' ∧ Stable w.state w'.state := by
  cases c with
  | alloc n =>
    refine (h.alloc hc).bind ?_
    rintro ⟨p, s⟩ (hnull | ⟨hp, _, hs, hst⟩)
    · cases hnull
      exact ⟨h, .refl _⟩
    · rw [Outcome.pure, if_neg hp]
      exact ⟨hs, hst⟩
  | free p n => exact .of_returns (h.step_free hc)

/-- The free pages and the lists that are canonical for them, at every entry of
`free_list`: past the lists in use both the entry and the list are empty. -/
theorem lists : ∃ F L, Inv A.pages F w.state ∧ FreeLists.Canonical F L ∧
      (∀ q, q ∈ F ↔ q ∈ A.pages ∧ ∀ a ∈ w.live, q ∉ livePages w.state.memoryStart a) ∧
      ∀ k, Linked.Chain w.state.next (w.state.freeList k)
        ((L k).map (addr w.state.memoryStart)) := by
  obtain ⟨F, hinv, hF⟩ := h.ledger.inv
  obtain ⟨L, hrep, hcan⟩ := hinv.lists
  refine ⟨F, L, hinv, hcan, hF, fun k => ?_⟩
  rcases Nat.lt_or_ge k w.state.maxOrder with hk | hk
  · exact hrep.chain k hk
  · have hnil : L k = [] := List.eq_nil_iff_forall_not_mem.mpr fun i hi =>
      absurd (hinv.order_lt_of_mem hcan hi) hk.not_gt
    rw [hnil]
    exact h.above k hk

end

/-- What a number of blocks that `buddy_init` accepts gives, from zeroed static state. Past
`2 ^ 13` blocks a request that finds nothing reads past the end of `free_list`. -/
theorem init {space : ℕ} (h1 : 1 ≤ n) (hm : order n < maxOrderLimit) (hpos : 0 < space)
    (hfit : addr space (8 * n.toNat) < 2 ^ 64) (memory : ℕ → ℕ) :
    ∃ s A, buddyInit space n (State.zeroed memory) = .ok s ∧ Sound A ⟨s, []⟩ ∧
      (A.pages.card : ℤ) = n ∧ A.start = space ∧ s.maxOrder = order n + 1 ∧ s.totalBlocks = n ∧
      A.faults = fun e => e = .outOfBounds maxOrderLimit ∧ 2 ^ 13 < n := by
  obtain ⟨s, U, hs, hinv, hcard, hmax, hstart, htotal, habove⟩ :=
    buddyInit_accepts (s := State.zeroed memory) h1 hm hpos hfit
  refine ⟨s, ⟨space, U, fun e => e = .outOfBounds maxOrderLimit ∧ 2 ^ 13 < n⟩, hs,
    ⟨.nothing_held hinv, hstart, fun k hk => ?_, ?_⟩, hcard, rfl, hmax, htotal,
    rfl⟩
  · replace hk : s.maxOrder ≤ k := hk
    rw [habove k (by omega)]
    rfl
  · have h13 : order n ≤ 13 ↔ n ≤ 2 ^ 13 := order_le
    grind [maxOrderLimit]

end Sound

end Xv6.Buddy
