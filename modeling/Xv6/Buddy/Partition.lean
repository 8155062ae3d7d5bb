import Mathlib.Algebra.BigOperators.Ring.Finset
import Xv6.Buddy.Ledger

/-! The allocator over a region of `2 ^ m` blocks.

From zeroed static state, after `buddy_init` and any proper calls, the free blocks
and the blocks held partition the region (`buddyInit_partition`), and the lists
hold exactly the maximal aligned runs of free pages, so they depend on what is held
and not on how it came to be held (`buddyInit_coalesced`). -/
namespace Xv6.Buddy
open Aligned Linked

/-- The `2 ^ m` blocks from `start` on, where no call fails. -/
def wholeRegion (m start : ℕ) : Arena := ⟨start, block 0 m, fun _ => False⟩

/-- The allocator manages the `2 ^ m` blocks from `start` on, and no call fails. -/
abbrev Managed (m start : ℕ) (w : World) : Prop := Sound (wholeRegion m start) w

variable {m start : ℕ} {w : World}

theorem Managed.memoryStart (h : Managed m start w) : w.state.memoryStart = start := Sound.start h

theorem Managed.step (h : Managed m start w) {c : Call} (hc : w.allowed c) :
    ∃ w', w.step c = .ok w' ∧ Managed m start w' := by
  obtain ⟨w', hw', hs, _⟩ := Outcome.total.mp (Sound.step h hc)
  exact ⟨w', hw', hs⟩

theorem managed_init (hm : m ≤ 13) (r : Region (2 ^ m)) (memory : ℕ → ℕ) :
    ∃ s, buddyInit r.start (2 ^ m) (State.zeroed memory) = .ok s ∧ Managed m r.start ⟨s, []⟩ := by
  obtain ⟨s, hs, hinv, hmax, hstart, habove⟩ :=
    buddyInit_two_pow (m := m) (by unfold maxOrderLimit; omega) r (State.zeroed memory)
  refine ⟨s, hs, .nothing_held hinv, hstart, fun k hk => ?_, fun hlim => hlim.elim, fun hlim => ?_⟩
  · replace hk : s.maxOrder ≤ k := hk
    rw [habove k (by omega)]
    rfl
  · replace hlim : s.maxOrder = 15 := hlim
    omega

theorem managed_run {cs : List Call} (h : Managed m start w) (hp : calls.Proper w cs) :
    ∃ w', calls.run w cs = .ok w' ∧ Managed m start w' :=
  Protocol.run_invariant (I := Managed m start) (fun _ _ _ hI hc => hI.step hc) h hp

/-- Page `q` of the region is in no block that is held. -/
def PageFree (m start : ℕ) (live : List (ℕ × ℤ)) (q : ℕ) : Prop :=
  q < 2 ^ m ∧ ∀ a ∈ live, q ∉ livePages start a

theorem Managed.pageFree_iff (h : Managed m start w) {F : Finset ℕ}
    (hF : ∀ q, q ∈ F ↔ q ∈ block 0 m ∧ ∀ a ∈ w.live, q ∉ livePages w.state.memoryStart a) (q : ℕ) :
    q ∈ F ↔ PageFree m start w.live q := by
  rw [hF, h.memoryStart]
  simp [PageFree]

/-! ### The partition -/

/-- First page and order of every entry of the lists. -/
def listed (L : FreeLists) : List (ℕ × ℕ) :=
  (List.range maxOrderLimit).flatMap fun k => (L k).map fun i => (i, k)

theorem mem_listed {L : FreeLists} {b : ℕ × ℕ} :
    b ∈ listed L ↔ b.2 < maxOrderLimit ∧ b.1 ∈ L b.2 := by
  unfold listed
  grind

theorem nodup_listed {L : FreeLists} (h : ∀ k, (L k).Nodup) : (listed L).Nodup := by
  refine List.nodup_flatMap.mpr ⟨fun k _ => (h k).map (fun i j hij => (Prod.mk.inj hij).1), ?_⟩
  refine List.nodup_range.imp (fun {k l} hkl => ?_)
  rw [Function.onFun, List.disjoint_left]
  grind

def Apart (a b : ℕ × ℕ) : Prop := Disjoint (block a.1 a.2) (block b.1 b.2)

/-- The free blocks `L` and the blocks held partition the `2 ^ m` pages at `start`. -/
structure Partition (m start : ℕ) (w : World) (L : FreeLists) : Prop where
  /-- The chain at each entry of `free_list` visits the blocks `L k`. -/
  lists : ∀ k < maxOrderLimit,
    Chain w.state.next (w.state.freeList k) ((L k).map (addr start))
  memoryStart : w.state.memoryStart = start
  freeAligned : ∀ b ∈ listed L, 2 ^ b.2 ∣ b.1 ∧ b.1 + 2 ^ b.2 ≤ 2 ^ m
  liveAligned : ∀ a ∈ w.live, ∃ i k, a.1 = addr start i ∧ log2Ceil a.2 = .ok k ∧
    liveBlock start a = (i, k) ∧ 2 ^ k ∣ i ∧ i + 2 ^ k ≤ 2 ^ m
  apart : (listed L ++ w.live.map (liveBlock start)).Pairwise Apart
  cover : ∀ q, q < 2 ^ m ↔ ∃ b ∈ listed L ++ w.live.map (liveBlock start), q ∈ block b.1 b.2
  nodup : ∀ k, (L k).Nodup
  freeBlocks : w.state.freeBlocks = ((listed L).map fun b => (2 : ℤ) ^ b.2).sum

theorem Managed.partition (h : Managed m start w) : ∃ L, Partition m start w L := by
  obtain ⟨F, L, hinv, hcan, hF, hchain⟩ := h.lists
  replace hF := h.pageFree_iff hF
  have hstart := h.memoryStart
  rw [hstart] at hchain
  have hlarge : ∀ b ∈ listed L, Largest F b.1 b.2 := fun b hb => hcan.mem.mp (mem_listed.mp hb).2
  have hlisted : ∀ b, b ∈ (listed L).toFinset ↔ Largest F b.1 b.2 := by
    intro b
    rw [List.mem_toFinset, mem_listed, hcan.mem]
    refine ⟨And.right, fun hb => ⟨lt_of_lt_of_le ?_ hinv.limit, hb⟩⟩
    exact hinv.order_lt hb.aligned (hb.subset.trans hinv.subset)
  have hnd := nodup_listed hcan.nodup
  refine ⟨L, fun k _ => hchain k, hstart, fun b hb => ?_, fun a ha => ?_, ?_, fun q => ?_,
    hcan.nodup, ?_⟩
  · exact ⟨(hlarge b hb).aligned, block_subset_iff.mp ((hlarge b hb).subset.trans hinv.subset)⟩
  · obtain ⟨h1, hn, hp, ha', hin⟩ := h.ledger.held a ha
    rw [hstart] at hp ha' hin
    exact ⟨_, _, hp, log2Ceil_eq hn, rfl, ha', block_subset_iff.mp hin⟩
  · refine List.pairwise_append.mpr ⟨?_, ?_, ?_⟩
    · refine List.Pairwise.imp_of_mem (fun {a b} ha hb hne => ?_) hnd
      exact (hlarge a ha).disjoint (hlarge b hb) hne
    · refine List.pairwise_map.mpr ?_
      have := h.ledger.apart
      rw [hstart] at this
      exact this
    · intro a ha b hb
      obtain ⟨x, hx, rfl⟩ := List.mem_map.mp hb
      exact Finset.disjoint_left.mpr fun q hq => ((hF q).mp ((hlarge a ha).subset hq)).2 x hx
  · constructor
    · intro hq
      by_cases hfree : q ∈ F
      · obtain ⟨i, k, hik, hqi⟩ := exists_largest hfree
        have := List.mem_toFinset.mp ((hlisted (i, k)).mpr hik)
        exact ⟨(i, k), List.mem_append_left _ this, hqi⟩
      · rw [hF, PageFree, not_and] at hfree
        have := hfree hq
        push Not at this
        obtain ⟨a, ha, hqa⟩ := this
        exact ⟨liveBlock start a, List.mem_append_right _ (List.mem_map_of_mem ha), hqa⟩
    · rintro ⟨b, hb, hqb⟩
      have hin : q ∈ block 0 m := by
        rcases List.mem_append.mp hb with hb | hb
        · exact hinv.subset ((hlarge b hb).subset hqb)
        · obtain ⟨a, ha, rfl⟩ := List.mem_map.mp hb
          have := (h.ledger.held a ha).inside
          rw [hstart] at this
          exact this hqb
      simpa using hin
  · have hsum := sum_largest (listed L).toFinset hlisted
    rw [List.sum_toFinset _ hnd] at hsum
    rw [hinv.freeBlocks, ← hsum, Nat.cast_list_sum, List.map_map]
    rfl

/-- **The partition theorem.** After `buddy_init` over `2 ^ m` blocks and any proper
calls, every call has returned, and the free blocks and the blocks held are aligned,
inside the region, pairwise disjoint and cover it; no list holds a block twice; and
`free_blocks` is the number of pages on the lists. -/
theorem buddyInit_partition {m : ℕ} (hm : m ≤ 13) (r : Region (2 ^ m)) (memory : ℕ → ℕ) :
    ∃ s, buddyInit r.start (2 ^ m) (State.zeroed memory) = .ok s ∧
      ∀ cs, calls.Proper ⟨s, []⟩ cs →
        ∃ w, calls.run ⟨s, []⟩ cs = .ok w ∧ ∃ L, Partition m r.start w L := by
  obtain ⟨s, hs, hmanaged⟩ := managed_init hm r memory
  refine ⟨s, hs, fun cs hp => ?_⟩
  obtain ⟨w, hw, hmw⟩ := managed_run hmanaged hp
  exact ⟨w, hw, hmw.partition⟩

/-- The region that the kernel boots with: the top `1024` blocks below `PHYSTOP`. -/
def bootRegion : Region (2 ^ 10) := ⟨0x88000000 - 1024 * 4096, by decide, by decide⟩

/-- A block of one page, one of four, and the first is given back. -/
def sampleCalls : List Call := [.alloc 1, .alloc 3, .free bootRegion.start 1]

theorem sampleCalls_run :
    ∃ s, buddyInit bootRegion.start (2 ^ 10) (State.zeroed fun _ => 0) = .ok s ∧
      calls.Proper ⟨s, []⟩ sampleCalls ∧ ∃ w, calls.run ⟨s, []⟩ sampleCalls = .ok w ∧
        w.live = [(addr bootRegion.start 4, 3)] := by
  decide +kernel

/-- The run that takes two blocks and gives one back. -/
theorem buddyInit_partition_boot :
    ∃ s w, buddyInit bootRegion.start (2 ^ 10) (State.zeroed fun _ => 0) = .ok s ∧
      calls.run ⟨s, []⟩ sampleCalls = .ok w ∧ w.live = [(addr bootRegion.start 4, 3)] ∧
      ∃ L, Partition 10 bootRegion.start w L := by
  obtain ⟨s, hs, hproper, w, hw, hlive⟩ := sampleCalls_run
  obtain ⟨s', hs', hruns⟩ := buddyInit_partition (m := 10) (by decide) bootRegion fun _ => 0
  cases hs.symm.trans hs'
  obtain ⟨w', hw', hpartition⟩ := hruns _ hproper
  cases hw.symm.trans hw'
  exact ⟨s, w, hs, hw, hlive, hpartition⟩

/-- **`log2_ceil` up to `2 ^ 30`, and no further.** Up to there it returns the least order whose block
is large enough, and `buddy_init` of as many blocks returns from every state. After any calls on any
region, `buddy_alloc` of as many blocks comes back, or reads past `free_list` in a region of more than
`2 ^ 13`. `buddy_free` of a block that is held returns. -/
theorem log2Ceil_returns (x : ℤ) (h1 : 1 ≤ x) :
    ((∃ k, log2Ceil x = .ok k ∧ ∀ j, k ≤ j ↔ x ≤ 2 ^ j) ↔ x ≤ 2 ^ 30) ∧
    (∀ space s, (∃ s', buddyInit space x s = .ok s') ↔ x ≤ 2 ^ 30) ∧
    (∀ p s, p ≠ 0 → 2 ^ 30 < x → buddyFree p x s = .error .diverges) ∧
    ∀ (space : ℕ) (n : ℤ) (memory : ℕ → ℕ), 1 ≤ n → order n < maxOrderLimit → 0 < space →
      addr space (8 * n.toNat) < 2 ^ 64 →
      ∃ s, buddyInit space n (State.zeroed memory) = .ok s ∧
        ∀ cs w, calls.Proper ⟨s, []⟩ cs → calls.run ⟨s, []⟩ cs = .ok w →
          (Outcome (fun e => e = .outOfBounds maxOrderLimit ∧ 2 ^ 13 < n) (buddyAlloc x w.state)
            (fun _ => True) ↔ x ≤ 2 ^ 30) ∧
          ∀ p, (p, x) ∈ w.live → ∃ s', buddyFree p x w.state = .ok s' := by
  have hone : ¬ x < 1 := not_lt.mpr h1
  refine ⟨⟨?_, fun hx => ⟨order x, log2Ceil_eq hx, fun j => order_le⟩⟩, fun space s => ⟨?_, fun hx => ?_⟩,
    fun p s hp hx => ?_, fun space n memory hn hacc hpos hfit => ?_⟩
  · rintro ⟨k, hk, -⟩
    by_contra hx
    cases hk.symm.trans (log2Ceil_diverges (not_le.mp hx))
  · rintro ⟨s', hs'⟩
    by_contra hx
    rw [buddyInit, if_neg hone, log2Ceil_diverges (not_le.mp hx)] at hs'
    cases hs'
  · rcases Nat.lt_or_ge (order x) maxOrderLimit with hsmall | hlarge
    · exact buddyInit_returns h1 hsmall
    · exact ⟨s, buddyInit_rejects hx (.inr hlarge)⟩
  · rw [buddyFree, if_neg (not_or.mpr ⟨hp, hone⟩), log2Ceil_diverges hx]
    rfl
  · obtain ⟨s, A, hs, hsound, _, _, _, _, hfaults⟩ := Sound.init hn hacc hpos hfit memory
    refine ⟨s, hs, fun cs w hproper hrun => ?_⟩
    have hw : Sound A w := (Protocol.run_outcome
      (fun _ _ _ h hc => (h.step hc).mono fun _ h' => h'.1) hsound hproper).of_ok hrun
    rw [← hfaults]
    refine ⟨⟨fun hret => ?_, fun hx => (hw.alloc hx).mono fun _ _ => trivial⟩, fun p hlive => ?_⟩
    · by_contra hx
      rw [buddyAlloc, if_neg hone, log2Ceil_diverges (not_le.mp hx), hfaults] at hret
      cases hret.1
    · obtain ⟨s', hs', -⟩ := hw.free hlive
      exact ⟨s', hs'⟩

theorem log2Ceil_returns_three :
    (∃ k, log2Ceil 3 = .ok k ∧ ∀ j, k ≤ j ↔ (3 : ℤ) ≤ 2 ^ j) ∧ ∀ space s, ∃ s', buddyInit space 3 s = .ok s' := by
  obtain ⟨hlog, hinit, -⟩ := log2Ceil_returns 3 (by decide)
  exact ⟨hlog.mpr (by decide), fun space s => (hinit space s).mpr (by decide)⟩

/-- One more block, and `power` wraps around before it is large enough. -/
theorem log2Ceil_wraps : log2Ceil (2 ^ 30 + 1) = .error .diverges ∧
    (∀ space s, buddyInit space (2 ^ 30 + 1) s = .error .diverges) ∧
    ∀ s, buddyAlloc (2 ^ 30 + 1) s = .error .diverges := by
  have hdiv : log2Ceil (2 ^ 30 + 1) = .error .diverges := log2Ceil_diverges (by decide)
  refine ⟨hdiv, fun space s => ?_, fun s => ?_⟩
  · rw [buddyInit, if_neg (by decide), hdiv]
    rfl
  · rw [buddyAlloc, if_neg (by decide), hdiv]
    rfl

/-! ### Coalescing -/

/-- The block at address `p` is on the list of order `k`. -/
def Listed (s : State) (k p : ℕ) : Prop := ∃ xs, Chain s.next (s.freeList k) xs ∧ p ∈ xs

/-- The aligned block of order `k` at page `i` is entirely free, and the one twice its
size around it is not, or is not inside the region. -/
structure MaximalFree (m start : ℕ) (live : List (ℕ × ℤ)) (i k : ℕ) : Prop where
  aligned : 2 ^ k ∣ i
  free : ∀ q ∈ block i k, PageFree m start live q
  parent : (∃ q ∈ block (parent i k) (k + 1), ¬ PageFree m start live q) ∨
    ¬ block (parent i k) (k + 1) ⊆ Finset.range (2 ^ m)

/-- One free block, of order `m` at `start`, and nothing else on any list. -/
structure OneBlock (m start : ℕ) (s : State) : Prop where
  first : s.freeList m = start
  last : s.next start = 0
  others : ∀ k < maxOrderLimit, k ≠ m → s.freeList k = 0

theorem largest_iff_maximalFree {F : Finset ℕ} {live : List (ℕ × ℤ)} {i k : ℕ}
    (hF : ∀ q, q ∈ F ↔ PageFree m start live q) :
    Largest F i k ↔ MaximalFree m start live i k := by
  constructor
  · rintro ⟨ha, hs, hp⟩
    refine ⟨ha, fun q hq => (hF q).mp (hs hq), .inl ?_⟩
    grind
  · rintro ⟨ha, hf, hp⟩
    refine ⟨ha, fun q hq => (hF q).mpr (hf q hq), fun hs => ?_⟩
    rcases hp with ⟨q, hq, hnot⟩ | hnot
    · exact hnot ((hF q).mp (hs hq))
    · exact hnot fun q hq => Finset.mem_range.mpr ((hF q).mp (hs hq)).1

theorem Managed.listed_iff (h : Managed m start w) {k p : ℕ} :
    Listed w.state k p ↔ ∃ i, p = addr start i ∧ MaximalFree m start w.live i k := by
  obtain ⟨F, L, _, hcan, hF, hchain⟩ := h.lists
  replace hF := h.pageFree_iff hF
  rw [h.memoryStart] at hchain
  have hmem : ∀ i, i ∈ L k ↔ MaximalFree m start w.live i k := fun i => by
    rw [hcan.mem, largest_iff_maximalFree hF]
  constructor
  · rintro ⟨xs, hxs, hp⟩
    grind [Linked.Chain.unique]
  · rintro ⟨i, rfl, hi⟩
    exact ⟨_, hchain k, List.mem_map_of_mem ((hmem i).mpr hi)⟩

theorem pageFree_congr {live live' : List (ℕ × ℤ)} {q : ℕ}
    (h : ∀ b, b ∈ live.map (liveBlock start) ↔ b ∈ live'.map (liveBlock start)) :
    PageFree m start live q ↔ PageFree m start live' q := by
  have hcov : ∀ {l : List (ℕ × ℤ)}, (∀ a ∈ l, q ∉ livePages start a) ↔
      ∀ b ∈ l.map (liveBlock start), q ∉ block b.1 b.2 := fun {l} => by
    rw [List.forall_mem_map]
    rfl
  unfold PageFree
  rw [hcov, hcov]
  exact and_congr_right fun _ => forall_congr' fun b => by rw [h b]

theorem maximalFree_congr {live live' : List (ℕ × ℤ)} {i k : ℕ}
    (h : ∀ b, b ∈ live.map (liveBlock start) ↔ b ∈ live'.map (liveBlock start)) :
    MaximalFree m start live i k ↔ MaximalFree m start live' i k := by
  have hfree : ∀ q, PageFree m start live q ↔ PageFree m start live' q := fun q => pageFree_congr h
  constructor
  · intro ⟨ha, hf, hp⟩
    exact ⟨ha, fun q hq => (hfree q).mp (hf q hq), by simpa only [hfree] using hp⟩
  · intro ⟨ha, hf, hp⟩
    exact ⟨ha, fun q hq => (hfree q).mpr (hf q hq), by simpa only [hfree] using hp⟩

theorem Managed.freeBlocks_eq {w' : World} (h : Managed m start w) (h' : Managed m start w')
    (hlive : w'.live = w.live) : w'.state.freeBlocks = w.state.freeBlocks := by
  obtain ⟨F, _, hinv, _, hF, _⟩ := h.lists
  obtain ⟨F', _, hinv', _, hF', _⟩ := h'.lists
  have hFF : F' = F := by
    ext q
    rw [h'.pageFree_iff hF', h.pageFree_iff hF, hlive]
  rw [hinv.freeBlocks, hinv'.freeBlocks, hFF]

theorem Managed.freeAll (h : Managed m start w) {σ : List (ℕ × ℤ)} (hσ : σ.Perm w.live) :
    ∃ w', calls.run w (σ.map fun a => .free a.1 a.2) = .ok w' ∧ Managed m start w' ∧
      w'.live = [] := by
  induction σ generalizing w with
  | nil => exact ⟨w, rfl, h, hσ.symm.eq_nil⟩
  | cons a σ ih =>
    have ha : a ∈ w.live := hσ.mem_iff.mp (List.mem_cons_self ..)
    obtain ⟨s, hs, hsound, _⟩ := h.free ha
    have hone : calls.step w (.free a.1 a.2) = .ok ⟨s, w.live.erase a⟩ := by
      show buddyFree a.1 a.2 w.state >>= _ = _
      rw [hs]
      rfl
    obtain ⟨w', hw', hm', hnil⟩ := ih hsound
      (List.cons_perm_iff_perm_erase.mp hσ).2
    exact ⟨w', by rw [List.map_cons, Protocol.run_cons _ hone, hw'], hm', hnil⟩

theorem Managed.oneBlock (h : Managed m start w) (hlive : w.live = []) :
    OneBlock m start w.state := by
  obtain ⟨F, L, hinv, hcan, hF, hchain⟩ := h.lists
  replace hF := h.pageFree_iff hF
  rw [h.memoryStart] at hchain
  have hall : F = block 0 m := by
    ext q
    rw [hF, hlive]
    simp [PageFree]
  have hmem : ∀ k i, i ∈ L k ↔ (i, k) = (0, m) := fun k i => by
    rw [hcan.mem, hall, largest_block (dvd_zero _)]
  have hm : L m = [0] := List.perm_singleton.mp
    ((List.perm_ext_iff_of_nodup (hcan.nodup m) (List.nodup_singleton 0)).mpr
      fun i => by simp [hmem])
  have hcm := hchain m
  rw [hm] at hcm
  have h0 : addr start 0 = start := by simp [addr]
  refine ⟨hcm.1, hcm.2.2, fun k _ hk => ?_⟩
  have hnil : L k = [] := List.eq_nil_iff_forall_not_mem.mpr fun i hi =>
    hk (Prod.mk.inj ((hmem k i).mp hi)).2
  have hck := hchain k
  rw [hnil] at hck
  exact hck

/-- **Coalescing is complete and does not depend on history.** After `buddy_init` over
`2 ^ m` blocks and any proper calls, the list of order `k` holds exactly the maximal
free blocks of that order; so two runs that end with the same blocks held end with the
same lists; and freeing what is held, in any order, leaves one block of order `m`. -/
theorem buddyInit_coalesced {m : ℕ} (hm : m ≤ 13) (r : Region (2 ^ m)) :
    (∀ memory, ∃ s, buddyInit r.start (2 ^ m) (State.zeroed memory) = .ok s ∧
      ∀ cs, calls.Proper ⟨s, []⟩ cs → ∃ w, calls.run ⟨s, []⟩ cs = .ok w ∧
        (∀ k < maxOrderLimit, ∀ p, Listed w.state k p ↔
          ∃ i, p = addr r.start i ∧ MaximalFree m r.start w.live i k) ∧
        ∀ σ : List (ℕ × ℤ), σ.Perm w.live →
          ∃ w', calls.run w (σ.map fun a => .free a.1 a.2) = .ok w' ∧
            OneBlock m r.start w'.state) ∧
    ∀ memory₁ memory₂ s₁ s₂ cs₁ cs₂ w₁ w₂,
      buddyInit r.start (2 ^ m) (State.zeroed memory₁) = .ok s₁ →
      buddyInit r.start (2 ^ m) (State.zeroed memory₂) = .ok s₂ →
      calls.Proper ⟨s₁, []⟩ cs₁ → calls.run ⟨s₁, []⟩ cs₁ = .ok w₁ →
      calls.Proper ⟨s₂, []⟩ cs₂ → calls.run ⟨s₂, []⟩ cs₂ = .ok w₂ →
      (∀ b, b ∈ w₁.live.map (liveBlock r.start) ↔ b ∈ w₂.live.map (liveBlock r.start)) →
      ∀ k < maxOrderLimit, ∀ p, Listed w₁.state k p ↔ Listed w₂.state k p := by
  have hmanaged : ∀ {memory s cs w}, buddyInit r.start (2 ^ m) (State.zeroed memory) = .ok s →
      calls.Proper ⟨s, []⟩ cs → calls.run ⟨s, []⟩ cs = .ok w → Managed m r.start w := by
    intro memory s cs w hs hp hw
    obtain ⟨s', hs', hm'⟩ := managed_init hm r memory
    cases hs.symm.trans hs'
    obtain ⟨w', hw', hmw⟩ := managed_run hm' hp
    cases hw.symm.trans hw'
    exact hmw
  constructor
  · intro memory
    obtain ⟨s, hs, hms⟩ := managed_init hm r memory
    refine ⟨s, hs, fun cs hp => ?_⟩
    obtain ⟨w, hw, hmw⟩ := managed_run hms hp
    refine ⟨w, hw, fun k _ p => hmw.listed_iff, fun σ hσ => ?_⟩
    obtain ⟨w', hw', hmw', hnil⟩ := hmw.freeAll hσ
    exact ⟨w', hw', hmw'.oneBlock hnil⟩
  · intro memory₁ memory₂ s₁ s₂ cs₁ cs₂ w₁ w₂ hs₁ hs₂ hp₁ hw₁ hp₂ hw₂ hlive k _ p
    rw [(hmanaged hs₁ hp₁ hw₁).listed_iff, (hmanaged hs₂ hp₂ hw₂).listed_iff]
    simp only [maximalFree_congr hlive]

/-- In the run of `sampleCalls` one block is held; freeing it makes the region one block again. -/
theorem buddyInit_coalesced_boot :
    ∃ s w w', buddyInit bootRegion.start (2 ^ 10) (State.zeroed fun _ => 0) = .ok s ∧
      calls.run ⟨s, []⟩ sampleCalls = .ok w ∧
      (∀ k < maxOrderLimit, ∀ p, Listed w.state k p ↔
        ∃ i, p = addr bootRegion.start i ∧ MaximalFree 10 bootRegion.start w.live i k) ∧
      calls.run w [.free (addr bootRegion.start 4) 3] = .ok w' ∧ OneBlock 10 bootRegion.start w'.state := by
  obtain ⟨s, hs, hproper, w, hw, hlive⟩ := sampleCalls_run
  obtain ⟨s', hs', hruns⟩ := (buddyInit_coalesced (m := 10) (by decide) bootRegion).1 fun _ => 0
  cases hs.symm.trans hs'
  obtain ⟨w', hw', hlisted, hfree⟩ := hruns _ hproper
  cases hw.symm.trans hw'
  obtain ⟨w', hw', hone⟩ := hfree _ (.refl _)
  rw [hlive] at hw'
  exact ⟨s, w, w', hs, hw, hlisted, hw', hone⟩

end Xv6.Buddy
