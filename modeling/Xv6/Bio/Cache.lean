import Mathlib.Data.Finset.Card
import Xv6.Bio.Model

/-! What `bget` and `brelse` do to the ring of buffers.

`Cached head c xs`: the ring visits `xs`, which are the live buffers. `bget` finds a
buffer, or recycles one that has no reference, or adds one (`Cached.bget`); `brelse` takes
away a reference, and when it was the last one, moves the buffer to the front and frees
some buffers at the end that have no reference (`Cached.brelse`). -/
namespace Xv6.Bio
open Linked

variable {head n b t dev blockno alloc : ℕ} {c c' : Bcache} {xs ys : List ℕ}

/-- The buffers are `xs`, the most recently used first. -/
structure Cached (head : ℕ) (c : Bcache) (xs : List ℕ) : Prop where
  ring : Ring c.links head xs
  live : c.live.Perm xs
  count : c.count = xs.length
  enough : nbuf ≤ xs.length
  bounded : ∀ b ∈ head :: xs, b < 2 ^ 64
  freed : ∀ buf ∈ c.freed, buf.refcnt = 0

namespace Cached

section
variable (h : Cached head c xs)
include h

theorem length_lt : xs.length < loopFuel := by
  have hsub : (head :: xs).toFinset ⊆ Finset.range (2 ^ 64) := fun b hb =>
    Finset.mem_range.mpr (h.bounded b (List.mem_toFinset.mp hb))
  have hcard := Finset.card_le_card hsub
  rw [List.toFinset_card_of_nodup h.ring.nodup, Finset.card_range] at hcard
  exact hcard

theorem mem_live : b ∈ c.live ↔ b ∈ xs := h.live.mem_iff

theorem setBuf (b : ℕ) (f : Buf → Buf) : Cached head (c.setBuf b f) xs :=
  ⟨h.ring, h.live, h.count, h.enough, h.bounded, h.freed⟩

/-- A buffer for the block, its reference counted: one that is there, one without
references, or a new one. -/
inductive Got (head dev blockno alloc : ℕ) (c : Bcache) (xs : List ℕ) : ℕ × Bcache → Prop where
  | found {b : ℕ} (hb : b ∈ xs) (hdev : (c.bufs b).dev = dev) (hblock : (c.bufs b).blockno = blockno) :
    Got head dev blockno alloc c xs (b, c.setBuf b Buf.ref)
  | recycled {b : ℕ} (hb : b ∈ xs) (hfree : (c.bufs b).refcnt = 0)
      (hnone : ∀ a ∈ xs, ¬ ((c.bufs a).dev = dev ∧ (c.bufs a).blockno = blockno)) :
    Got head dev blockno alloc c xs (b, c.setBuf b (Buf.assign dev blockno))
  | grown (halloc : alloc ≠ 0) (hbusy : ∀ a ∈ xs, (c.bufs a).refcnt ≠ 0)
      (hnone : ∀ a ∈ xs, ¬ ((c.bufs a).dev = dev ∧ (c.bufs a).blockno = blockno)) :
    Got head dev blockno alloc c xs (alloc,
      {c.insert head alloc (Buf.zero.assign dev blockno) with count := c.count + 1})

theorem bget : Outcome (· = .panic .bgetNoMemory) (Bcache.bget head dev blockno alloc c)
      (Got head dev blockno alloc c xs) := by
  unfold Bcache.bget
  rw [h.ring.search_next h.length_lt]
  cases hfind : xs.find? fun b => decide ((c.bufs b).dev = dev ∧ (c.bufs b).blockno = blockno) with
  | some b =>
    have hb := List.find?_some hfind
    rw [decide_eq_true_iff] at hb
    exact .found (List.mem_of_find?_eq_some hfind) hb.1 hb.2
  | none =>
    have hnone : ∀ a ∈ xs, ¬ ((c.bufs a).dev = dev ∧ (c.bufs a).blockno = blockno) := by
      simpa using hfind
    simp only
    rw [h.ring.search_prev h.length_lt]
    cases hfree : xs.reverse.find? fun b => decide ((c.bufs b).refcnt = 0) with
    | some b =>
      have hb := List.find?_some hfree
      rw [decide_eq_true_iff] at hb
      exact .recycled (List.mem_reverse.mp (List.mem_of_find?_eq_some hfree)) hb hnone
    | none =>
      have hbusy : ∀ a ∈ xs, (c.bufs a).refcnt ≠ 0 := by simpa using hfree
      simp only
      split
      case isTrue => rfl
      case isFalse halloc => exact .grown halloc hbusy hnone

theorem insert (hb : b ∉ head :: xs) (hlt : b < 2 ^ 64) (buf : Buf) :
    Cached head {c.insert head b buf with count := c.count + 1} (b :: xs) where
  ring := h.ring.insertAfter hb
  live := h.live.cons b
  count := congrArg (· + 1) h.count
  enough := Nat.le_succ_of_le h.enough
  bounded a ha := by
    rcases List.mem_cons.mp ha with rfl | ha
    · exact h.bounded a (List.mem_cons_self ..)
    · rcases List.mem_cons.mp ha with rfl | ha
      · exact hlt
      · exact h.bounded a (List.mem_cons_of_mem _ ha)
  freed := h.freed

theorem free (ht : t ∈ xs) (hfree : (c.bufs t).refcnt = 0)
    (hmore : c.count > nbuf) : Cached head (c.free t) (xs.erase t) where
  ring := h.ring.unlink ht
  live := h.live.erase t
  count := by
    show c.count - 1 = (xs.erase t).length
    rw [List.length_erase_of_mem ht, h.count]
  enough := by
    rw [List.length_erase_of_mem ht, ← h.count]
    omega
  bounded a ha := by
    rcases List.mem_cons.mp ha with rfl | ha
    · exact h.bounded a (List.mem_cons_self ..)
    · exact h.bounded a (List.mem_cons_of_mem _ (List.mem_of_mem_erase ha))
  freed buf hbuf := by
    rcases List.mem_append.mp hbuf with hbuf | hbuf
    · exact h.freed buf hbuf
    grind

end

end Cached

/-- Some buffers of `xs` were freed, none of which had a reference. -/
structure Shrunk (c c' : Bcache) (xs xs' : List ℕ) : Prop where
  bufs : c'.bufs = c.bufs
  disk : c'.disk = c.disk
  subset : xs' ⊆ xs
  unused : ∀ t ∈ xs, t ∉ xs' → (c.bufs t).refcnt = 0

namespace Cached

theorem shrink (h : Cached head c xs) {fuel : ℕ} (hf : xs.length < fuel) :
    ∃ c' xs', Bcache.shrink head b fuel c = .ok c' ∧ Cached head c' xs' ∧ Shrunk c c' xs xs' := by
  induction fuel generalizing c xs with
  | zero => exact absurd hf (Nat.not_lt_zero _)
  | succ fuel ih =>
    have hstay : Shrunk c c xs xs := ⟨rfl, rfl, List.Subset.refl _, fun t ht hn => absurd ht hn⟩
    unfold Bcache.shrink
    split
    case isFalse => exact ⟨c, xs, rfl, h, hstay⟩
    case isTrue hmore =>
      simp only
      split
      case isTrue => exact ⟨c, xs, rfl, h, hstay⟩
      case isFalse hgo =>
        obtain ⟨hhead, _, hfree⟩ : c.links.prev head ≠ head ∧ c.links.prev head ≠ b ∧
            (c.bufs (c.links.prev head)).refcnt = 0 := by
          simpa [not_or] using hgo
        have ht : c.links.prev head ∈ xs := by
          rcases List.eq_nil_or_concat xs with rfl | ⟨ys, y, rfl⟩
          · exact absurd h.ring.prev_head_nil hhead
          grind [Linked.Ring.prev_head, Cached.ring]
        generalize c.links.prev head = t at ht hfree
        have hlen : (xs.erase t).length < fuel := by
          grind
        obtain ⟨c', xs', hc', hcached, hshrunk⟩ := ih (h.free ht hfree hmore) hlen
        refine ⟨c', xs', hc', hcached, hshrunk.bufs, hshrunk.disk,
          fun a ha => List.mem_of_mem_erase (hshrunk.subset ha), fun a ha hnot => ?_⟩
        by_cases hat : a = t
        · exact hat ▸ hfree
        · exact hshrunk.unused a ((List.mem_erase_of_ne hat).mpr ha) hnot

theorem brelse (h : Cached head c xs) (hb : b ∈ xs) :
    ∃ c' xs', Bcache.brelse head b c = .ok c' ∧ Cached head c' xs' ∧
      Shrunk (c.setBuf b Buf.unref) c' xs xs' := by
  unfold Bcache.brelse
  generalize hc1 : (c.setBuf b Buf.unref) = c1
  have h1 : Cached head c1 xs := hc1 ▸ h.setBuf b _
  simp only
  split
  case isFalse =>
    exact ⟨c1, xs, rfl, h1, rfl, rfl, List.Subset.refl _, fun t ht hn => absurd ht hn⟩
  case isTrue =>
    have hperm : (b :: xs.erase b).Perm xs := (List.perm_cons_erase hb).symm
    have hmem : ∀ {a}, a ∈ b :: xs.erase b ↔ a ∈ xs := hperm.mem_iff
    have hfront : Cached head {c1 with links := (c1.links.unlink b).insertAfter head b}
        (b :: xs.erase b) := by
      refine ⟨(h1.ring.unlink hb).insertAfter ?_, h1.live.trans hperm.symm, ?_, ?_, fun a ha => ?_,
        h1.freed⟩
      · intro hin
        rcases List.mem_cons.mp hin with rfl | hin
        · exact h1.ring.not_mem hb
        · exact (List.Nodup.mem_erase_iff h1.ring.nodup_tail).mp hin |>.1 rfl
      · rw [hperm.length_eq]
        exact h1.count
      · rw [hperm.length_eq]
        exact h1.enough
      · rcases List.mem_cons.mp ha with rfl | ha
        · exact h1.bounded a (List.mem_cons_self ..)
        · exact h1.bounded a (List.mem_cons_of_mem _ (hmem.mp ha))
    obtain ⟨c', xs', hc', hcached, hshrunk⟩ := hfront.shrink (b := b) hfront.length_lt
    exact ⟨c', xs', hc', hcached, hshrunk.bufs, hshrunk.disk, fun a ha => hmem.mp (hshrunk.subset ha),
      fun a ha hnot => hshrunk.unused a (hmem.mpr ha) hnot⟩

end Cached

end Xv6.Bio
