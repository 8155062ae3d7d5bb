import Xv6.Slab.Safety

/-! `kmem_init` and the caches there are.

`kmem_init` can be called again. It does not notice when `buddy_init` refuses the number
of blocks: it clears `buffer_caches` and leaves the old region in place
(`kmemInit_forgets_buffers`). When `buddy_init` accepts, `cache_list` still holds the
caches of the old region. So it is all or nothing exactly when there was nothing to forget,
or nothing to keep (`kmemInit_allOrNothing`). -/
namespace Xv6.Slab
open Linked
open Buddy (addr maxOrderLimit order bootRegion)

/-- The node `x` can be reached from `head` along links, without passing null. -/
inductive Reaches (next : ℕ → ℕ) : ℕ → ℕ → Prop
  | first {x : ℕ} (h0 : x ≠ 0) : Reaches next x x
  | later {head x : ℕ} (h0 : head ≠ 0) (h : Reaches next (next head) x) : Reaches next head x

def OnCacheList (k : Kmem) (c : ℕ) : Prop := Reaches (fun a => (k.caches a).next) k.cacheList c

def InBufferCaches (k : Kmem) (c : ℕ) : Prop :=
  c ≠ 0 ∧ ∃ i < numBufferCaches, k.bufferCaches i = c

/-- `buddy_init` refuses this number of blocks. -/
def Refused (n : ℤ) : Prop := n < 1 ∨ maxOrderLimit < order n + 1

/-- `kmem_init` returns; if `buddy_init` refuses, `cache_list` and `buffer_caches` are as
they were; and if it accepts, they hold no descriptor outside the new region. -/
def AllOrNothing (space : ℕ) (n : ℤ) (k : Kmem) : Prop :=
  ∃ k', kmemInit space n k = .ok k' ∧
    (Refused n → (∀ c, OnCacheList k' c ↔ OnCacheList k c) ∧
      ∀ i < numBufferCaches, k'.bufferCaches i = k.bufferCaches i) ∧
    (¬ Refused n → ∀ c, OnCacheList k' c ∨ InBufferCaches k' c →
      c ∈ Set.Ico space (addr space n.toNat))

variable {space : ℕ} {n : ℤ} {k : Kmem}

theorem kmemInit_returns (space : ℕ) (k : Kmem) (hn : n ≤ 2 ^ 30) : ∃ b, kmemInit space n k =
      .ok {k with buddy := b, bufferCaches := fun _ => 0, allocatorInitialized := true} := by
  have hbuddy : ∃ b, Buddy.buddyInit space n k.buddy = .ok b := by
    by_cases hr : n < 1 ∨ maxOrderLimit ≤ order n
    · exact ⟨_, Buddy.buddyInit_rejects hn hr⟩
    · push Not at hr
      exact Buddy.buddyInit_returns hr.1 hr.2
  obtain ⟨b, hb⟩ := hbuddy
  exact ⟨b, by rw [kmemInit, hb]; rfl⟩

theorem kmemInit_diverges (hn : 2 ^ 30 < n) : kmemInit space n k = .error .diverges := by
  rw [kmemInit, Buddy.buddyInit, if_neg (by omega), Buddy.log2Ceil_diverges hn]
  rfl

/-- **When `kmem_init` is all or nothing.** In any state: exactly when it returns, a refused
number of blocks finds `buffer_caches` empty, and an accepted one finds on `cache_list` only
descriptors inside the new region. -/
theorem kmemInit_allOrNothing (space : ℕ) (n : ℤ) (k : Kmem) : AllOrNothing space n k ↔ n ≤ 2 ^ 30 ∧
      (Refused n → ∀ i < numBufferCaches, k.bufferCaches i = 0) ∧
      (¬ Refused n → ∀ c, OnCacheList k c → c ∈ Set.Ico space (addr space n.toNat)) := by
  constructor
  · rintro ⟨k', hk', hrefused, haccepted⟩
    have hn : n ≤ 2 ^ 30 := by
      by_contra hbig
      cases (kmemInit_diverges (not_le.mp hbig)).symm.trans hk'
    obtain ⟨b, hb⟩ := kmemInit_returns space k hn
    cases hk'.symm.trans hb
    exact ⟨hn, fun hr i hi => ((hrefused hr).2 i hi).symm, fun hr c hc => haccepted hr c (.inl hc)⟩
  · rintro ⟨hn, hrefused, haccepted⟩
    obtain ⟨b, hb⟩ := kmemInit_returns space k hn
    refine ⟨_, hb, fun hr => ⟨fun c => Iff.rfl, fun i hi => (hrefused hr i hi).symm⟩, fun hr c hc => ?_⟩
    rcases hc with hlist | ⟨h0, i, _, hi⟩
    · exact haccepted hr c hlist
    · exact absurd hi.symm h0

/-- After booting and one `kmalloc`, a `kmem_init` with no blocks forgets the cache for
buffers, and one with another region leaves it on `cache_list`. -/
theorem kmemInit_forgets_buffers :
    ∃ k₁ p k₂, kmemInit bootRegion.start 1024 blank.zeroed = .ok k₁ ∧ kmalloc 32 k₁ = .ok (p, k₂) ∧
      p ≠ 0 ∧ ¬ AllOrNothing bootRegion.start 0 k₂ ∧ ¬ AllOrNothing 0x80000000 1 k₂ := by
  refine ⟨_, _, _, rfl, rfl, by decide, ?_, ?_⟩
  · rintro ⟨k', hk', hrefused, _⟩
    cases hk'
    exact absurd ((hrefused (.inl (by decide))).2 0 (by decide)) (by decide)
  · rintro ⟨k', hk', _, haccepted⟩
    cases hk'
    have hin := haccepted (by unfold Refused; decide) _ (.inl (.first (by decide)))
    exact absurd hin.2 (by decide)

end Xv6.Slab
