import Xv6.Buddy.Ledger
import Xv6.Slab.Exchange
import Xv6.Slab.Grow

/-! The whole allocator in memory.

A `Heap` is the caches on `cache_list` and the pool of each. `Rep A k H` says that
memory holds it: every descriptor and every slab is a block that the buddy allocator
has given out, and every other page of the arena is free. Blocks given out do not overlap,
so a change to one cache leaves the others alone (`Rep.set`). -/
namespace Xv6.Slab
open Function
open Linked
open Buddy (Arena Sound blockSize)

structure Heap where
  caches : List ℕ
  pool : ℕ → Pool

def Heap.set (H : Heap) (c : ℕ) (P : Pool) : Heap := {H with pool := update H.pool c P}

@[simp] theorem Heap.set_pool_self (H : Heap) (c : ℕ) (P : Pool) : (H.set c P).pool c = P :=
  update_self ..

theorem Heap.set_pool_of_ne {c a : ℕ} (H : Heap) (P : Pool) (ha : a ≠ c) :
    (H.set c P).pool a = H.pool a :=
  update_of_ne ha _ _

/-- The blocks of the slabs of cache `c`. -/
def slabsHeld (k : Kmem) (H : Heap) (c : ℕ) : List (ℕ × ℤ) :=
  (H.pool c).slabs.map fun s => (s, ((k.caches c).slabSize : ℤ))

/-- The blocks that the allocator holds: a page for each descriptor, and the slabs. -/
def held (k : Kmem) (H : Heap) : List (ℕ × ℤ) :=
  H.caches.map (fun c => (c, 1)) ++ H.caches.flatMap (slabsHeld k H)

/-- Memory holds the heap `H`, in the arena `A`. -/
structure Rep (A : Arena) (k : Kmem) (H : Heap) : Prop where
  sound : Sound A ⟨k.buddy, held k H⟩
  list : Chain (fun c => (k.caches c).next) k.cacheList H.caches
  cache : ∀ c ∈ H.caches, CacheRep k c (H.pool c)
  settled : ∀ c ∈ H.caches, Settled k c (H.pool c) 0
  createdNodup : k.created.Nodup
  created : ∀ s c, (s, c) ∈ k.created ↔ c ∈ H.caches ∧ s ∈ (H.pool c).slabs

variable {A : Arena} {k k' : Kmem} {H : Heap} {c c' s s' x : ℕ}

theorem mem_held_cache (hc : c ∈ H.caches) : (c, 1) ∈ held k H :=
  List.mem_append_left _ (List.mem_map_of_mem hc)

theorem mem_held_slab (hc : c ∈ H.caches) (hs : s ∈ (H.pool c).slabs) :
    (s, ((k.caches c).slabSize : ℤ)) ∈ held k H :=
  List.mem_append_right _ (List.mem_flatMap.mpr ⟨c, hc, List.mem_map_of_mem hs⟩)

theorem held_set_perm {P : Pool} (hc : c ∈ H.caches) (hnd : H.caches.Nodup)
    (hsize : ∀ a, (k'.caches a).slabSize = (k.caches a).slabSize) :
    ∃ rest, (held k H).Perm (slabsHeld k H c ++ rest) ∧
      (held k' (H.set c P)).Perm
        (P.slabs.map (fun s => (s, ((k.caches c).slabSize : ℤ))) ++ rest) := by
  have hperm := List.perm_cons_erase hc
  refine ⟨H.caches.map (fun c => (c, 1)) ++ (H.caches.erase c).flatMap (slabsHeld k H), ?_, ?_⟩
  · refine ((hperm.flatMap_right _).append_left _).trans ?_
    grind
  · have hrest : (H.caches.erase c).flatMap (slabsHeld k' (H.set c P)) =
        (H.caches.erase c).flatMap (slabsHeld k H) := by
      refine List.flatMap_congr fun a ha => ?_
      have hne : a ≠ c := fun heq => hnd.not_mem_erase (heq ▸ ha)
      unfold slabsHeld
      rw [H.set_pool_of_ne P hne, hsize]
    have hown : slabsHeld k' (H.set c P) c =
        P.slabs.map (fun s => (s, ((k.caches c).slabSize : ℤ))) := by
      unfold slabsHeld
      rw [H.set_pool_self, hsize]
    refine ((hperm.flatMap_right _).append_left _).trans ?_
    rw [List.flatMap_cons, hrest, hown]
    exact List.perm_append_comm_assoc ..

namespace Rep

section
variable (h : Rep A k H)
include h

theorem nodup : H.caches.Nodup := h.list.nodup

theorem slabs_le (hc : c ∈ H.caches) : (H.pool c).slabs.length ≤ A.pages.card := by
  obtain ⟨rest, hperm, _⟩ := held_set_perm (P := H.pool c) hc h.nodup fun a =>
    (rfl : (k.caches a).slabSize = (k.caches a).slabSize)
  have hlen := h.sound.ledger.length_le
  have heq := hperm.length_eq
  rw [List.length_append, slabsHeld, List.length_map] at heq
  simp only at hlen
  omega

theorem caches_le : H.caches.length ≤ A.pages.card := by
  have hlen := h.sound.ledger.length_le
  simp only [held, List.length_append, List.length_map] at hlen
  omega

section
variable (hc : c ∈ H.caches)
include hc

theorem eq_of_mem_slabs (hc' : c' ∈ H.caches)
    (hs : s ∈ (H.pool c).slabs) (hs' : s' ∈ (H.pool c').slabs)
    (hx : s ≤ x ∧ x < s + slabBytes (k.caches c))
    (hx' : s' ≤ x ∧ x < s' + slabBytes (k.caches c')) : s = s' ∧ c = c' := by
  have heq := h.sound.ledger.eq_of_mem_bytes (mem_held_slab hc hs) (mem_held_slab hc' hs')
    (by simpa [slabBytes] using hx) (by simpa [slabBytes] using hx')
  obtain rfl : s = s' := congrArg Prod.fst heq
  exact ⟨rfl, ((h.cache c hc).slab s hs).cache.symm.trans ((h.cache c' hc').slab s hs').cache⟩

theorem cache_not_mem_slab (hc' : c' ∈ H.caches)
    (hs : s ∈ (H.pool c').slabs) (hx : c ≤ x ∧ x < c + blockSize) :
    ¬ (s ≤ x ∧ x < s + slabBytes (k.caches c')) := by
  intro hx'
  have heq := h.sound.ledger.eq_of_mem_bytes (mem_held_cache hc) (mem_held_slab hc' hs)
    (by simpa using hx) (by simpa [slabBytes] using hx')
  have hnd := List.disjoint_of_nodup_append h.sound.ledger.nodup
  refine hnd (List.mem_map_of_mem hc) ?_
  rw [heq]
  exact List.mem_flatMap.mpr ⟨c', hc', List.mem_map_of_mem hs⟩

theorem slot_mem_slab (hx : x ∈ slots (k.caches c) s) : s ≤ x ∧ x < s + slabBytes (k.caches c) := by
  have hd := (h.cache c hc).descriptor
  have hb := hd.slot_bounds hx
  have := hd.size_pos
  have := hd.aligned
  omega

theorem slab_mem_slab (s : ℕ) : s ≤ s ∧ s < s + slabBytes (k.caches c) := by
  have hpos := (h.cache c hc).descriptor.slabSize_pos
  unfold slabBytes blockSize
  omega

theorem slotsApart :
    SlotsApart (k.caches c) (H.pool c).slabs := fun _ hs _ hs' _ hx hx' =>
  (h.eq_of_mem_slabs hc hc hs hs' (h.slot_mem_slab hc hx) (h.slot_mem_slab hc hx')).1

theorem others (hc' : c' ∈ H.caches) (hne : c' ≠ c)
    (hs' : s' ∈ (H.pool c').slabs) : s' ∉ (H.pool c).slabs ∧
      ∀ s ∈ (H.pool c).slabs, ∀ x ∈ slots (k.caches c') s', x ∉ slots (k.caches c) s := by
  refine ⟨fun hs => hne ?_, fun s hs x hx hx' => hne ?_⟩
  · exact (h.eq_of_mem_slabs hc' hc hs' hs (h.slab_mem_slab hc' s') (h.slab_mem_slab hc s')).2
  · exact (h.eq_of_mem_slabs hc' hc hs' hs (h.slot_mem_slab hc' hx) (h.slot_mem_slab hc hx')).2

end

theorem set {P : Pool} {S : List ℕ} (hloc : Local c S k k')
    (hS : ∀ c' ∈ H.caches, c' ≠ c → ∀ s' ∈ (H.pool c').slabs, s' ∉ S ∧
      ∀ s ∈ S, ∀ x ∈ slots (k.caches c') s', x ∉ slots (k.caches c) s)
    (hrep : CacheRep k' c P) (hset : Settled k' c P 0)
    (hsound : Sound A ⟨k'.buddy, held k' (H.set c P)⟩) (hnd : k'.created.Nodup)
    (hcreated : ∀ s a, (s, a) ∈ k'.created ↔ a ∈ H.caches ∧ s ∈ ((H.set c P).pool a).slabs) :
    Rep A k' (H.set c P) := by
  refine ⟨hsound, ?_, fun a ha => ?_, fun a ha => ?_, hnd, hcreated⟩
  · rw [hloc.cacheList]
    refine h.list.congr fun a _ => ?_
    grind [SameType.next, Local.cache, Local.caches]
  · by_cases hac : a = c
    · rw [hac, H.set_pool_self]
      exact hrep
    · rw [H.set_pool_of_ne P hac]
      refine (h.cache a ha).frame_eq (hloc.caches a hac) (fun s hs => ?_) fun s hs x hx => ?_
      · exact hloc.slabs s (hS a ha hac s hs).1
      · exact hloc.objects x fun t ht => (hS a ha hac s hs).2 t ht x hx
  · by_cases hac : a = c
    · rw [hac, H.set_pool_self]
      exact hset
    · rw [H.set_pool_of_ne P hac]
      intro l s hs hs0
      rw [hloc.caches a hac]
      exact h.settled a ha l s hs hs0

end

end Rep

end Xv6.Slab
