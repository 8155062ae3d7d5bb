import Xv6.Buddy.Ledger
import Xv6.Buddy.Print

/-! Where `buddy.free_list` is indexed.

`max_order` is one more than the largest order, at most `MAX_ORDER`, and the search of
`buddy_alloc` goes up to `max_order` itself. When `max_order` is `MAX_ORDER`, which takes
more than `2 ^ 13` blocks, a request that no list can serve reads the entry past the end
of the array (`buddyAlloc_leaves_array`). That is the only access out of bounds
(`buddyInit_inBounds`). -/
namespace Xv6.Buddy

/-- A call of the allocator, or one that prints its state. -/
inductive Request where
  | call (c : Call)
  | printInfo
  | prettyPrint
  deriving DecidableEq

namespace World

def request (w : World) : Request → Result World
  | .call c => w.step c
  | .printInfo => do
    let _ ← buddyPrintInfo w.state
    return w
  | .prettyPrint => do
    let _ ← prettyPrintBuddy w.state
    return w

/-- Any number of blocks may be asked for; what is freed is held, or null. -/
def mayRequest (w : World) : Request → Prop
  | .call (.free p n) => w.allowed (.free p n)
  | _ => True

/-- The search of `buddy_alloc` ends inside the array: at an entry that is not null, or
because `max_order` is inside, or before it starts. -/
def Served (w : World) : Request → Prop
  | .call (.alloc n) => w.state.maxOrder < maxOrderLimit ∨ n < 1 ∨ w.state.maxOrder < order n ∨
    ∃ k, order n ≤ k ∧ k < maxOrderLimit ∧ w.state.freeList k ≠ 0
  | _ => True

end World

/-- Calls of the allocator and of the functions that print it. -/
def requests : Protocol Fault World Request := ⟨World.request, World.mayRequest⟩

/-- The allocator over the region of `n` blocks at `A.start`. -/
structure Printable (A : Arena) (n : ℤ) (w : World) : Prop extends Sound A w where
  maxOrder : w.state.maxOrder = order n + 1
  totalBlocks : w.state.totalBlocks = n

namespace Printable

variable {A : Arena} {n : ℤ} {w w' : World}

section
variable (h : Printable A n w)
include h

theorem stable (hs : Sound A w') (hst : Stable w.state w'.state) : Printable A n w' :=
  ⟨hs, hst.maxOrder.trans h.maxOrder, hst.totalBlocks.trans h.totalBlocks⟩

theorem stop_le (h1 : 1 ≤ n) (hm : order n < maxOrderLimit)
    (hfit : addr A.start (8 * n.toNat) < 2 ^ 64) :
    uint64 (w.state.memoryStart + int32 (w.state.totalBlocks * blockSize)) +
      2 ^ w.state.maxOrder * blockSize ≤ 2 ^ 64 := by
  have hle : n ≤ 2 ^ 14 := order_le.mp (Nat.le_of_lt_succ hm)
  have hpow : (2 : ℤ) ^ order n < 2 * n := two_pow_order_lt h1
  rw [h.maxOrder, h.totalBlocks, h.start, pow_succ]
  have hcast : ((2 ^ order n : ℕ) : ℤ) = 2 ^ order n := by norm_cast
  generalize 2 ^ order n = p at *
  grind [int32, blockSize, addr, uint64]

/-- A request that is served does not leave the array, and keeps the allocator sound. -/
theorem request {r : Request} (h1 : 1 ≤ n) (hm : order n < maxOrderLimit)
    (hfit : addr A.start (8 * n.toNat) < 2 ^ 64) (hr : w.mayRequest r) (hserved : w.Served r) :
    Outcome (fun e => ¬ ∃ i, e = .outOfBounds i) (w.request r) (Printable A n) := by
  cases r with
  | call c =>
    cases c with
    | alloc a =>
      rcases lt_or_ge (2 ^ 30) a with hbig | hn
      · have hdiv : buddyAlloc a w.state = .error .diverges := by
          rw [buddyAlloc, if_neg (by omega), log2Ceil_diverges hbig]
          rfl
        show Outcome _ (buddyAlloc a w.state >>= _) _
        rw [hdiv]
        rintro ⟨i, hi⟩
        cases hi
      · by_cases h1' : 1 ≤ a
        · by_cases hfound : ∃ l, order a ≤ l ∧ w.state.freeList l ≠ 0
          · obtain ⟨l, hl, hne⟩ := hfound
            obtain ⟨p, s, hs, hp, hsound, hst⟩ := h.alloc_found h1' hn hl hne
            rw [World.request, World.step, hs]
            show Printable A n ⟨s, if p = 0 then w.live else (p, a) :: w.live⟩
            rw [if_neg hp]
            exact h.stable hsound hst
          · push Not at hfound
            rcases h.alloc_none h1' hn hfound with hnull | ⟨hmax, hfits, _⟩
            · rw [World.request, World.step, hnull]
              exact h
            · -- The search would leave the array, but then the request is not served.
              rcases hserved with hroom | hsmall | hbig | ⟨k, hk, _, hne⟩
              · omega
              · omega
              · omega
              · exact absurd (hfound k hk) hne
        · have hnull : buddyAlloc a w.state = .ok (0, w.state) := by
            rw [buddyAlloc, if_pos (by omega)]
          rw [World.request, World.step, hnull]
          exact h
    | free p a =>
      obtain ⟨w', hw', hs, hst⟩ := h.step_free hr
      rw [World.request, hw']
      exact h.stable hs hst
  | printInfo =>
    obtain ⟨F, hinv, _⟩ := h.ledger.inv
    obtain ⟨text, htext⟩ := hinv.buddyPrintInfo
    rw [World.request, htext]
    exact h
  | prettyPrint =>
    obtain ⟨F, hinv, _⟩ := h.ledger.inv
    obtain ⟨text, htext⟩ := hinv.prettyPrintBuddy (h.stop_le h1 hm hfit)
    rw [World.request, htext]
    exact h

theorem request_fails {r : Request} (hnot : ¬ w.Served r) :
    ∃ e, w.request r = .error e ∧ ∃ i, e = .outOfBounds i := by
  obtain ⟨F, hinv, _⟩ := h.ledger.inv
  cases r with
  | call c =>
    cases c with
    | alloc a =>
      simp only [World.Served, not_or, not_exists, not_and, not_not, not_lt] at hnot
      obtain ⟨hfull, h1, hle, hempty⟩ := hnot
      have hmax := Nat.le_antisymm hinv.limit hfull
      have hn : a ≤ 2 ^ 30 := order_le.mp (hle.trans (hmax ▸ by decide))
      rw [World.request, World.step,
        Inv.buddyAlloc_outOfBounds h1 hn hmax (hmax ▸ hle) fun l hl hlt => hempty l hl hlt]
      exact ⟨_, rfl, _, rfl⟩
    | free p a => exact absurd trivial hnot
  | printInfo => exact absurd trivial hnot
  | prettyPrint => exact absurd trivial hnot

end

end Printable

/-- **Indexing stays in bounds exactly as far as requests are served.** For every number of
blocks that `buddy_init` accepts, `buddy_init` returns, and a run of allocations, proper
frees and prints after it never indexes `free_list` out of bounds if and only if each
allocation in it is served where it is made. -/
theorem buddyInit_inBounds {space : ℕ} {n : ℤ} (h1 : 1 ≤ n) (hm : order n < maxOrderLimit)
    (hpos : 0 < space) (hfit : addr space (8 * n.toNat) < 2 ^ 64) (memory : ℕ → ℕ) :
    ∃ s, buddyInit space n (State.zeroed memory) = .ok s ∧
      ∀ rs, requests.Proper ⟨s, []⟩ rs →
        ((∀ i, requests.run ⟨s, []⟩ rs ≠ .error (.outOfBounds i)) ↔
          (requests.restrict World.Served).Proper ⟨s, []⟩ rs) := by
  obtain ⟨s, A, hs, hsound, _, hstart, hmax, htotal, _⟩ := Sound.init h1 hm hpos hfit memory
  refine ⟨s, hs, fun rs hp => ?_⟩
  have hprint : Printable A n ⟨s, []⟩ := ⟨hsound, hmax, htotal⟩
  have hfit' : addr A.start (8 * n.toNat) < 2 ^ 64 := hstart ▸ hfit
  rw [← Protocol.run_fails_iff (fun e => ∃ i, e = .outOfBounds i)
    (fun w r h hr hC => h.request h1 hm hfit' hr hC) (fun w r h _ hC => h.request_fails hC) hprint hp]
  constructor
  · rintro h e he ⟨i, rfl⟩
    exact h i he
  · intro h i he
    exact h _ he ⟨i, rfl⟩

theorem buddyInit_inBounds_largest :
    ∃ s, buddyInit 0x80000000 16384 (State.zeroed fun _ => 0) = .ok s ∧
      ∀ rs, requests.Proper ⟨s, []⟩ rs →
        ((∀ i, requests.run ⟨s, []⟩ rs ≠ .error (.outOfBounds i)) ↔
          (requests.restrict World.Served).Proper ⟨s, []⟩ rs) :=
  buddyInit_inBounds (by decide) (by decide) (by decide) (by decide) _

/-- With `16384` blocks, all of them taken, the next request reads `free_list[15]`. -/
theorem buddyAlloc_leaves_array :
    ∃ s, buddyInit 0x80000000 16384 (State.zeroed fun _ => 0) = .ok s ∧
      requests.Proper ⟨s, []⟩ [.call (.alloc 16384), .call (.alloc 1)] ∧
      requests.run ⟨s, []⟩ [.call (.alloc 16384), .call (.alloc 1)] = .error (.outOfBounds 15) :=
  ⟨_, rfl, ⟨trivial, fun _ _ => ⟨trivial, fun _ _ => trivial⟩⟩, rfl⟩

end Xv6.Buddy
