import Xv6.Slab.Safety

/-! What `kmem_cache_shrink` releases.

A shrink right after the cache has grown only notes that: it releases nothing. Any other one
releases the slabs on `slabs_empty`, all of them and no other (`Released`). The second of two in a
row is always of this kind, and a third finds nothing. -/
namespace Xv6.Slab
open Linked
open Buddy (Arena addr blockSize bootRegion maxOrderLimit order)

/-- The slabs on list `l` of cache `c`, from its head. -/
def OnList (k : Kmem) (c : ℕ) (l : SlabList) (xs : List ℕ) : Prop :=
  Double k.slabs.toLinks 0 ((k.caches c).slabs l) xs

/-- A slab was added since the last shrink. The comparison is one of `uint`s. -/
def GrownSince (k : Kmem) (c : ℕ) : Prop :=
  (k.caches c).numGrown > uint32 (k.caches c).lastShrinkState

/-- The empty slabs of cache `c` were `es`. A shrink that returned `freed` has released them, and
done nothing else: not to the other lists, nor to the slabs on them, nor to a live object. -/
structure Released (live : List Live) (c : ℕ) (es : List ℕ) (k : Kmem) (freed : ℤ) (k' : Kmem) :
    Prop where
  freed : freed = es.length * (k.caches c).slabSize
  empty : OnList k' c .slabsEmpty []
  numSlabs : (k'.caches c).numSlabs + es.length = (k.caches c).numSlabs
  freeBlocks : k'.buddy.freeBlocks = k.buddy.freeBlocks + es.length * (k.caches c).slabSize
  created : ∀ s a, (s, a) ∈ k'.created ↔ (s, a) ∈ k.created ∧ ¬ (a = c ∧ s ∈ es)
  others : ∀ l ≠ .slabsEmpty, ∃ xs, OnList k c l xs ∧ OnList k' c l xs
  headers : ∀ s, SameHeader k k' s
  objects : k'.objects = k.objects
  numAllocated : (k'.caches c).numAllocated = (k.caches c).numAllocated
  live : ∀ o ∈ live, ∀ j p, Buddy.Listed k'.buddy j p →
    Disjoint o.bytes (Set.Ico p (p + 2 ^ j * blockSize))

variable {A : Arena} {k k' : Kmem} {H : Heap} {c : ℕ} {live : List Live}

namespace Good

theorem onList (h : Good A k H live) (hc : c ∈ H.caches) (l : SlabList) :
    OnList k c l ((H.pool c).lists l) :=
  (h.rep.cache c hc).family.list l

theorem length_shrunk {H' : Heap} {es : List ℕ} (hes : (H.pool c).lists .slabsEmpty = es)
    (hs : Shrunk A c es live k k' H H') :
    (H'.pool c).slabs.length + es.length = (H.pool c).slabs.length := by
  grind [Shrunk.empty, Shrunk.others, List.length_append, List.length_nil, Pool.slabs]

section
variable (h : Good A k H live)
include h

section
variable (hc : c ∈ H.caches)
include hc

theorem mem_shrunk {H' : Heap} {es : List ℕ} {s : ℕ}
    (hes : (H.pool c).lists .slabsEmpty = es) (hs : Shrunk A c es live k k' H H') :
    s ∈ (H'.pool c).slabs ↔ s ∈ (H.pool c).slabs ∧ s ∉ es := by
  have hfam := (h.rep.cache c hc).family
  simp only [Pool.mem_slabs]
  constructor
  · rintro ⟨l, hl⟩
    have hne : l ≠ .slabsEmpty := by
      rintro rfl
      simp [hs.empty] at hl
    rw [hs.others l hne] at hl
    exact ⟨⟨l, hl⟩, fun hmem => hne (hfam.apart hl (hes ▸ hmem))⟩
  · rintro ⟨⟨l, hl⟩, hmem⟩
    have hne : l ≠ .slabsEmpty := by
      grind
    exact ⟨l, (hs.others l hne).symm ▸ hl⟩

theorem shrink_released (hgrown : ¬ GrownSince k c) :
    ∃ freed k' H', Slab.kmemCacheShrink c k = .ok (freed, k') ∧
      Released live c ((H.pool c).lists .slabsEmpty) k freed k' ∧ Good A k' H' live ∧
      c ∈ H'.caches ∧ (H'.pool c).lists .slabsEmpty = [] ∧ ¬ GrownSince k' c := by
  obtain ⟨⟨freed, k'⟩, hcall, hfreed, k₁, n, H', hs, hk'⟩ :=
    Outcome.total.mp (h.kmemCacheShrink_releases hc hgrown)
  obtain rfl : k' = _ := hk'
  obtain ⟨hgood, hkept⟩ := hs.good.setCache (c := c) (f := fun d => {d with numShrunk := n})
    ⟨⟨rfl, rfl, rfl, rfl, rfl, rfl, rfl, id⟩, rfl⟩ rfl rfl rfl
  obtain ⟨heads, m, hcache⟩ := hs.cache
  have hself : (k₁.setCache c fun d => {d with numShrunk := n}).caches c =
      {k.caches c with slabs := heads, numSlabs := m, numShrunk := n} := by
    refine (Function.update_self ..).trans ?_
    rw [hcache]
  have hc' : c ∈ H'.caches := hs.kept.heap ▸ hc
  refine ⟨freed, _, H', hcall, ?_, hgood, hc', hs.empty, ?_⟩
  · refine ⟨?_, hs.empty ▸ hgood.onList hc' _, ?_, hs.freeBlocks, fun s a => ?_, fun l hl => ?_,
      fun s => (hs.headers s).trans (sameHeader_setCache ..), hs.objects, ?_, fun o ho j p hp => ?_⟩
    · exact_mod_cast hfreed
    · rw [(hgood.counted c hc').numSlabs, (h.counted c hc).numSlabs, length_shrunk rfl hs]
    · rw [hgood.rep.created, h.rep.created, hs.kept.heap]
      by_cases hac : a = c
      · grind [Good.mem_shrunk]
      · rw [hs.kept.pool a hac]
        tauto
    · exact ⟨_, h.onList hc l, hs.others l hl ▸ hgood.onList hc' l⟩
    · rw [hself]
    · exact Set.disjoint_left.mpr fun b hb hmem => hgood.page_not_free ho hb hp hmem
  grind [GrownSince]

theorem shrink_skipped (hgrown : GrownSince k c) :
    ∃ k', Slab.kmemCacheShrink c k = .ok (0, k') ∧
      k' = k.setCache c (fun d => {d with lastShrinkState := int32 d.numGrown}) ∧
      Good A k' H live ∧ ¬ GrownSince k' c := by
  refine ⟨_, ?_, rfl, (h.setCache ⟨⟨rfl, rfl, rfl, rfl, rfl, rfl, rfl, id⟩, rfl⟩ rfl rfl rfl).1, ?_⟩
  · unfold GrownSince at hgrown
    rw [Slab.kmemCacheShrink, if_neg (h.valid hc), if_pos hgrown]
  · have hself : (k.setCache c fun d => {d with lastShrinkState := int32 d.numGrown}).caches c =
        {k.caches c with lastShrinkState := int32 (k.caches c).numGrown} := Function.update_self ..
    unfold GrownSince
    rw [hself, uint32_int32 (h.rep.cache c hc).descriptor.numGrown]
    exact lt_irrefl _

theorem shrinks (hgrown : ¬ GrownSince k c) :
    ∃ freed k', Slab.kmemCacheShrink c k = .ok (freed, k') ∧ OnList k' c .slabsEmpty [] ∧
      ∃ k'', Slab.kmemCacheShrink c k' = .ok (0, k'') := by
  obtain ⟨freed, k', H', hcall, hreleased, hgood, hc', hempty, hgrown'⟩ := h.shrink_released hc hgrown
  obtain ⟨freed', k'', _, hcall', hreleased', _⟩ := hgood.shrink_released hc' hgrown'
  have hzero : freed' = 0 := by
    rw [hreleased'.freed, hempty]
    simp
  exact ⟨freed, k', hcall, hreleased.empty, k'', hzero ▸ hcall'⟩

end

end

end Good

/-- What shrinks of cache `c` do. If a slab was added since the last shrink, one returns 0 and changes
`last_shrink_state` only; otherwise it releases the slabs on `slabs_empty`. After two in a row there is
no empty slab, and a third returns 0. -/
def ShrinksExactly (w : World) (c : ℕ) : Prop :=
  ∃ es, OnList w.kmem c .slabsEmpty es ∧
    ∃ freed k₁, kmemCacheShrink c w.kmem = .ok (freed, k₁) ∧
      (GrownSince w.kmem c → freed = 0 ∧ k₁ = w.kmem.setCache c fun d =>
        {d with lastShrinkState := int32 d.numGrown}) ∧
      (¬ GrownSince w.kmem c → Released w.live c es w.kmem freed k₁) ∧
      ∃ freed₂ k₂, kmemCacheShrink c k₁ = .ok (freed₂, k₂) ∧ OnList k₂ c .slabsEmpty [] ∧
        ∃ k₃, kmemCacheShrink c k₂ = .ok (0, k₃)

theorem Tracks.shrinksExactly {w : World} (h : Tracks A w H) (hc : c ∈ H.caches) : ShrinksExactly w c := by
  refine ⟨_, h.good.onList hc .slabsEmpty, ?_⟩
  by_cases hgrown : GrownSince w.kmem c
  · obtain ⟨k₁, hcall, hk1, hgood, hgrown'⟩ := h.good.shrink_skipped hc hgrown
    exact ⟨0, k₁, hcall, fun _ => ⟨rfl, hk1⟩, fun hnot => absurd hgrown hnot, hgood.shrinks hc hgrown'⟩
  · obtain ⟨freed, k₁, H1, hcall, hreleased, hgood, hc', _, hgrown'⟩ :=
      h.good.shrink_released hc hgrown
    exact ⟨freed, k₁, hcall, fun hyes => absurd hyes hgrown, fun _ => hreleased,
      hgood.shrinks hc' hgrown'⟩

/-- **Shrinking releases the empty slabs, and only when it should,** in every state that proper calls
reach after `kmem_init`, and the calls return, exactly up to `2 ^ 13` blocks. -/
theorem kmemCacheShrink_exact {space : ℕ} {n : ℤ} (h1 : 1 ≤ n) (hn : order n < maxOrderLimit)
    (hpos : 0 < space) (hfit : addr space (8 * n.toNat) < 2 ^ 64) (memory : Kmem) :
    ∃ k, kmemInit space n memory.zeroed = .ok k ∧
      (Always k (fun w => ∀ c, w.InUse c → ShrinksExactly w c) ↔ n ≤ 2 ^ 13) :=
  always_iff h1 hn hpos hfit memory fun _ _ hw _ hc => hw.shrinksExactly (hw.inUse hc)

theorem kmemCacheShrink_exact_boot : ∃ k, kmemInit bootRegion.start 1024 blank.zeroed = .ok k ∧
      ∃ w, calls.run ⟨k, [], []⟩ (sampleCalls ++ [.shrink 0x87c00000]) = .ok w ∧
        ShrinksExactly w 0x87c00000 := by
  have hsees : ∃ k, kmemInit bootRegion.start 1024 blank.zeroed = .ok k ∧
      calls.Proper ⟨k, [], []⟩ (sampleCalls ++ [.shrink 0x87c00000]) ∧
      ∃ w, calls.run ⟨k, [], []⟩ (sampleCalls ++ [.shrink 0x87c00000]) = .ok w ∧ w.InUse 0x87c00000 := by
    decide +kernel
  obtain ⟨k, hk, hproper, w, hrun, huse⟩ := hsees
  obtain ⟨k', hk', hiff⟩ := @kmemCacheShrink_exact bootRegion.start 1024 (by decide)
    (by decide) (by decide) (by decide) blank
  cases hk.symm.trans hk'
  exact ⟨k, hk, w, hrun, (hiff.mpr (by decide) w ⟨_, hproper, hrun⟩).1 _ huse⟩

/-- With `16384` blocks not every run gets as far as a shrink. -/
theorem kmemCacheShrink_largest : ∃ k, kmemInit 0x80000000 16384 blank.zeroed = .ok k ∧
      (∃ w, calls.Reaches ⟨k, [], []⟩ w ∧
        w.step (.create (bufferName 32) 32 0 0) = .error (.outOfBounds 15)) ∧
      ¬ Always k fun w => ∀ c, w.InUse c → ShrinksExactly w c := by
  obtain ⟨k, hk, w, hreach, hfails, _⟩ := @accepted_exhausts 0x80000000 16384 (by decide)
    (by decide) (by decide) (by decide) blank (by decide)
  refine ⟨k, hk, ⟨w, hreach, hfails⟩, fun halways => ?_⟩
  obtain ⟨w', hw'⟩ := (halways w hreach).2 (.create (bufferName 32) 32 0 0) trivial
  cases hfails.symm.trans hw'

end Xv6.Slab
