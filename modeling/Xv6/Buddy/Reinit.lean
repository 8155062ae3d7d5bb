import Xv6.Buddy.Ledger

/-! Giving the allocator another region.

`buddy_init` may be called again. It clears `free_list[0 .. max_order - 1]`, and
`buddy_alloc` searches up to `free_list[max_order]`, which may still hold blocks of a
larger region given before (`buddyAlloc_returns_old_region`). An allocation is *current*
when its search does not end there. As long as all are current, what `buddy_alloc` returns
lies inside the latest region (`buddyInit_current`). -/
namespace Xv6.Buddy
open Aligned

/-- The allocator, what is held since the latest `buddy_init`, and the region given to
it: where it starts and the order of its size. -/
structure Era where
  world : World
  region : Option (ℕ × ℕ)

inductive EraCall where
  | init (space m : ℕ)
  | call (c : Call)
  deriving DecidableEq

namespace Era

def step (e : Era) : EraCall → Result Era
  | .init space m => do
    let s ← buddyInit space (2 ^ m) e.world.state
    return ⟨⟨s, []⟩, some (space, m)⟩
  | .call c => do
    let w ← e.world.step c
    return ⟨w, e.region⟩

/-- A region is of up to `2 ^ 13` blocks, below `MAXVA` and not at the null address. Any
number of blocks may be asked for; what is freed is held, or null. -/
def allowed (e : Era) : EraCall → Prop
  | .init space m => m ≤ 13 ∧ 0 < space ∧ addr space (2 ^ m) ≤ maxVa
  | .call (.alloc _) => True
  | .call (.free p n) => e.world.allowed (.free p n)

/-- The search of `buddy_alloc` does not take the block that `free_list[max_order]` may
hold: the entry is null, or a list before it is not, or there is no search. -/
def Current (e : Era) : EraCall → Prop
  | .call (.alloc n) => e.world.state.freeList e.world.state.maxOrder = 0 ∨ n < 1 ∨
    e.world.state.maxOrder < order n ∨
    ∃ k, order n ≤ k ∧ k < e.world.state.maxOrder ∧ e.world.state.freeList k ≠ 0
  | _ => True

/-- The block of `2 ^ log2_ceil(n)` pages at `p` lies inside the latest region. -/
def Inside (e : Era) (p : ℕ) (n : ℤ) : Prop :=
  ∃ space m k, e.region = some (space, m) ∧ log2Ceil n = .ok k ∧ space ≤ p ∧
    p + 2 ^ k * blockSize ≤ addr space (2 ^ m)

def pages (e : Era) : Finset ℕ :=
  match e.region with
  | none => ∅
  | some (_, m) => block 0 m

end Era

/-- Calls of `buddy_init`, `buddy_alloc` and `buddy_free`. -/
def eraCalls : Protocol Fault Era EraCall := ⟨Era.step, Era.allowed⟩

/-- The ledger of the latest region is right, whatever older regions left on the lists past
its own. -/
structure Latest (e : Era) : Prop where
  ledger : Ledger e.pages e.world
  start : ∀ space m, e.region = some (space, m) → e.world.state.memoryStart = space
  room : e.world.state.maxOrder < maxOrderLimit

namespace Latest

variable {e : Era} {w : World}

theorem stable (h : Latest e) (hl : Ledger e.pages w) (hst : Stable e.world.state w.state) :
    Latest ⟨w, e.region⟩ :=
  ⟨hl, fun space m hr => hst.memoryStart.trans (h.start space m hr), hst.maxOrder ▸ h.room⟩

theorem zeroed (memory : ℕ → ℕ) : Latest ⟨⟨State.zeroed memory, []⟩, none⟩ := by
  refine ⟨.nothing_held ⟨⟨fun _ => [], ⟨?_, ?_, ?_, ?_⟩, canonical_empty⟩, le_rfl, ?_, ?_, rfl⟩, ?_,
    ?_⟩
  · exact Nat.zero_le _
  · exact fun k hk => absurd hk (Nat.not_lt_zero k)
  · exact fun hk => absurd hk (Nat.not_lt_zero _)
  · exact fun hk => absurd hk (Nat.not_lt_zero _)
  · exact fun {i k} _ hsub => absurd (Finset.subset_empty.mp hsub) (block_ne_empty i k)
  · exact fun i hi => absurd hi (Finset.notMem_empty i)
  · exact fun space m hr => by cases hr
  · exact Nat.zero_lt_succ _

theorem inside {a : ℕ × ℤ} (h : Latest e) (ha : a ∈ e.world.live) : e.Inside a.1 a.2 := by
  have hheld := h.ledger.held a ha
  have hin : block (liveBlock e.world.state.memoryStart a).1 (order a.2) ⊆ e.pages := hheld.inside
  have hp := hheld.pointer
  unfold Era.pages at hin
  split at hin
  · exact absurd (Finset.subset_empty.mp hin) (block_ne_empty _ _)
  · rename_i space m hr
    have hstart := h.start space m hr
    rw [hstart] at hp hin
    have hle := Nat.mul_le_mul_right blockSize (block_subset_iff.mp hin)
    refine ⟨space, m, order a.2, hr, log2Ceil_eq hheld.bounded, hstart ▸ hheld.start_le, ?_⟩
    rw [hp]
    unfold addr
    rw [Nat.add_mul] at hle
    omega

theorem init {space m : ℕ} (hr : e.allowed (.init space m)) :
    ∃ e', e.step (.init space m) = .ok e' ∧ Latest e' := by
  obtain ⟨hm, hpos, hfit⟩ := hr
  obtain ⟨s, hs, hinv, hmax, hstart, _⟩ :=
    buddyInit_two_pow (m := m) (by unfold maxOrderLimit; omega) ⟨space, hpos, hfit⟩ e.world.state
  refine ⟨⟨⟨s, []⟩, some (space, m)⟩, ?_, .nothing_held hinv, fun space' m' hr => ?_, ?_⟩
  · rw [Era.step, hs]
    rfl
  · cases hr
    exact hstart
  · show s.maxOrder < 15
    omega

/-- A current allocation returns null or a block of the latest region, unless it asks for
so many blocks that `log2_ceil` does not end. -/
theorem alloc {n : ℤ} (h : Latest e) (hcur : e.Current (.call (.alloc n))) :
    Outcome (fun err => err = .diverges) (e.step (.call (.alloc n))) Latest := by
  have hnull : buddyAlloc n e.world.state = .ok (0, e.world.state) →
      Outcome (fun err => err = .diverges) (e.step (.call (.alloc n))) Latest := fun hnull => by
    rw [Era.step, World.step, hnull]
    exact h
  rcases lt_or_ge (2 ^ 30) n with hbig | hn
  · have hdiv : buddyAlloc n e.world.state = .error .diverges := by
      rw [buddyAlloc, if_neg (by omega), log2Ceil_diverges hbig]
      rfl
    rw [Era.step, World.step, hdiv]
    rfl
  by_cases h1 : 1 ≤ n
  · by_cases hfound : ∃ k, order n ≤ k ∧ k < e.world.state.maxOrder ∧ e.world.state.freeList k ≠ 0
    · obtain ⟨k, hk, hkm, hne⟩ := hfound
      obtain ⟨p, s, hs, hp, hledger, hst⟩ := h.ledger.alloc_found h1 hn hk hkm hne
      rw [Era.step, World.step, hs]
      simp only [ok_bind, pure_eq_ok, if_neg hp]
      exact h.stable hledger hst
    · rcases Nat.lt_or_ge e.world.state.maxOrder (order n) with hlarge | hle
      · exact hnull (Inv.buddyAlloc_tooLarge hn hlarge)
      · refine hnull (Inv.buddyAlloc_none hn fun l hl hlm => ⟨lt_of_le_of_lt hlm h.room, ?_⟩)
        push Not at hfound
        rcases Nat.lt_or_eq_of_le hlm with hlt | rfl
        · exact hfound l hl hlt
        · rcases hcur with h0 | hlt | hlt | ⟨k, hk, hkm, hne⟩
          · exact h0
          · omega
          · omega
          · exact absurd (hfound k hk hkm) hne
  · exact hnull (by rw [buddyAlloc, if_pos (by omega)])

theorem free {p : ℕ} {n : ℤ} (h : Latest e) (hc : e.world.allowed (.free p n)) :
    ∃ e', e.step (.call (.free p n)) = .ok e' ∧ Latest e' := by
  obtain ⟨w, hw, hl, hst⟩ := h.ledger.step_free hc
  exact ⟨⟨w, e.region⟩, by rw [Era.step, hw]; rfl, h.stable hl hst⟩

end Latest

/-- **Re-initialisation forgets the old region, as far as allocations are current.** In every run of
`buddy_init` over regions of up to `2 ^ 13` blocks, of allocations that are current where they are made,
and of frees of what is held since the latest `buddy_init`: every block held lies inside the latest
region. Only a call whose `log2_ceil` does not end fails to return. -/
theorem buddyInit_current (memory : ℕ → ℕ) {cs : List EraCall}
    (hp : (eraCalls.restrict Era.Current).Proper ⟨⟨State.zeroed memory, []⟩, none⟩ cs) :
    Outcome (fun err => err = .diverges) (eraCalls.run ⟨⟨State.zeroed memory, []⟩, none⟩ cs)
      fun e => ∀ a ∈ e.world.live, e.Inside a.1 a.2 := by
  have hrun : Outcome (fun err => err = .diverges)
      (eraCalls.run ⟨⟨State.zeroed memory, []⟩, none⟩ cs) Latest := by
    rw [← Protocol.restrict_run Era.Current]
    refine Protocol.run_outcome (fun c _ e h hc => ?_) (Latest.zeroed memory) hp
    obtain ⟨hallowed, hcur⟩ := hc
    match c with
    | .init space m => exact .of_returns (Latest.init hallowed)
    | .call (.alloc n) => exact h.alloc hcur
    | .call (.free p n) => exact .of_returns (h.free hallowed)
  exact hrun.mono fun e h a ha => h.inside ha

theorem allowed_init {e : Era} {space m : ℕ} (hm : m ≤ 13) (hpos : 0 < space)
    (hfit : addr space (2 ^ m) ≤ maxVa) : eraCalls.allowed e (.init space m) :=
  ⟨hm, hpos, hfit⟩

theorem buddyInit_current_two_regions : Outcome (fun err => err = .diverges)
      (eraCalls.run ⟨⟨State.zeroed fun _ => 0, []⟩, none⟩
        [.init 0x80000000 1, .init 0x80100000 0, .call (.alloc 1)])
      fun e => ∀ a ∈ e.world.live, e.Inside a.1 a.2 := by
  refine buddyInit_current _
    ⟨⟨allowed_init (by decide) (by decide) (by decide), trivial⟩, fun e he => ?_⟩
  cases he
  refine ⟨⟨allowed_init (by decide) (by decide) (by decide), trivial⟩, fun e he => ?_⟩
  cases he
  exact ⟨⟨trivial, .inr (.inr (.inr ⟨0, by decide, by decide, by decide⟩))⟩, fun _ _ => trivial⟩

/-- A region of two blocks, then another one of one block: the second allocation from that
one returns the first block of the old region. -/
theorem buddyAlloc_returns_old_region : eraCalls.Proper ⟨⟨State.zeroed fun _ => 0, []⟩, none⟩
        [.init 0x80000000 1, .init 0x80100000 0, .call (.alloc 1), .call (.alloc 1)] ∧
      ∃ e, eraCalls.run ⟨⟨State.zeroed fun _ => 0, []⟩, none⟩
          [.init 0x80000000 1, .init 0x80100000 0, .call (.alloc 1), .call (.alloc 1)] = .ok e ∧
        e.region = some (0x80100000, 0) ∧ e.world.live = [(0x80000000, 1), (0x80100000, 1)] ∧
        ¬ e.Inside 0x80000000 1 := by
  refine ⟨⟨allowed_init (by decide) (by decide) (by decide), fun e _ => ?_⟩, _, rfl, rfl, rfl, ?_⟩
  · refine ⟨allowed_init (by decide) (by decide) (by decide), fun _ _ => ?_⟩
    exact ⟨trivial, fun _ _ => ⟨trivial, fun _ _ => trivial⟩⟩
  · rintro ⟨space, m, k, hr, _, hle, _⟩
    cases hr
    exact absurd hle (by decide)

end Xv6.Buddy
