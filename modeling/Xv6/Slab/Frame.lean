import Xv6.Machine.Outcome
import Xv6.Slab.Lists

/-! What calls on objects and slabs leave alone.

In every state, also where the lists are broken, calls that take objects, put them back
and add slabs write neither `buffer_caches` nor the constructor and the destructor of any
cache, and they run no destructor. -/
namespace Xv6.Slab
open Function (update)

structure Frame (k k' : Kmem) : Prop where
  bufferCaches : k'.bufferCaches = k.bufferCaches
  destructed : k'.destructed = k.destructed
  ctor : ∀ a, (k'.caches a).ctor = (k.caches a).ctor
  dtor : ∀ a, (k'.caches a).dtor = (k.caches a).dtor

/-- What holds of every call that returns. -/
abbrev Returns {α : Type} (x : Result α) (Q : α → Prop) : Prop := Outcome (fun _ => True) x Q

theorem returns_any {α : Type} (x : Result α) : Returns x fun _ => True := by
  cases x <;> trivial

namespace Frame

variable {k k' k'' : Kmem} {c s x n : ℕ} {l l' : SlabList}

theorem refl (k : Kmem) : Frame k k := ⟨rfl, rfl, fun _ => rfl, fun _ => rfl⟩

theorem trans (h : Frame k k') (h' : Frame k' k'') : Frame k k'' :=
  ⟨h'.bufferCaches.trans h.bufferCaches, h'.destructed.trans h.destructed,
    fun a => (h'.ctor a).trans (h.ctor a), fun a => (h'.dtor a).trans (h.dtor a)⟩

theorem of_caches (hb : k'.bufferCaches = k.bufferCaches) (hd : k'.destructed = k.destructed)
    (hc : k'.caches = k.caches) : Frame k k' :=
  ⟨hb, hd, fun _ => by rw [hc], fun _ => by rw [hc]⟩

theorem of_update {d : KmemCache} (hb : k'.bufferCaches = k.bufferCaches)
    (hd : k'.destructed = k.destructed) (hc : k'.caches = update k.caches c d)
    (hctor : d.ctor = (k.caches c).ctor) (hdtor : d.dtor = (k.caches c).dtor) : Frame k k' := by
  refine ⟨hb, hd, fun a => ?_, fun a => ?_⟩
  · rw [hc]
    grind
  · rw [hc]
    grind

theorem relink (heads : SlabList → ℕ) (K : Linked.Links ℕ) : Frame k (k.relink c heads K) :=
  of_update rfl rfl rfl rfl rfl

theorem addSlabToList : Frame k (addSlabToList c l s k) := by
  rw [addSlabToList_eq]
  exact relink _ _

theorem moveSlab : Frame k (moveSlab c l l' s k) := by
  refine Frame.trans ?_ addSlabToList
  rw [removeSlabFromList_eq]
  exact relink _ _

theorem linkObjects {a : ℕ} : Frame k (linkObjects s x a n k) := by
  induction n generalizing k with
  | zero => exact .refl k
  | succ n ih =>
    refine Frame.trans ?_ ih
    exact of_caches rfl rfl rfl

theorem ite {p : Prop} [Decidable p] (h : Frame k k') : Frame k (if p then k' else k) := by
  split
  · exact h
  · exact .refl k

theorem takeObject : Frame k (takeObject c s k) := by
  have hpop : Frame k (popObject c s k) := of_update (c := c) rfl rfl rfl rfl rfl
  exact hpop.trans ((ite moveSlab).trans (ite moveSlab))

theorem putObject : Frame k (putObject c s x k) := by
  have hpush : Frame k (pushObject c s x k) := of_update (c := c) rfl rfl rfl rfl rfl
  exact hpush.trans ((ite moveSlab).trans (ite moveSlab))

theorem kmemCacheFree : Frame k (kmemCacheFree c x k) := by
  unfold Slab.kmemCacheFree
  dsimp only
  split
  · exact .refl k
  · split
    · exact of_update (c := c) rfl rfl rfl rfl rfl
    · exact putObject

theorem kmemCacheGrow : Returns (kmemCacheGrow c k) fun r => Frame k r.2 := by
  unfold Slab.kmemCacheGrow kmemSlabCreate
  rw [bind_assoc]
  refine (returns_any _).bind fun r _ => ?_
  by_cases h0 : r.1 = 0
  · simp only [if_pos h0, pure_bind, if_true]
    exact of_update (c := c) rfl rfl rfl rfl rfl
  · have hinit : Frame k (initSlab c r.1 {k with buddy := r.2}) := by
      refine Frame.trans ?_ linkObjects
      exact of_caches rfl rfl rfl
    simp only [if_neg h0, pure_bind]
    refine (hinit.trans (addSlabToList (c := c) (l := .slabsEmpty) (s := r.1))).trans ?_
    exact of_update (c := c) rfl rfl rfl rfl rfl

theorem selectSlab : Returns (selectSlab c k) fun r => Frame k r.2 := by
  unfold Slab.selectSlab
  split
  · exact .refl k
  split
  · exact .refl k
  refine kmemCacheGrow.bind fun r hr => ?_
  dsimp only
  split <;> exact hr

theorem kmemCacheAlloc : Returns (kmemCacheAlloc c k) fun r => Frame k r.2 := by
  unfold Slab.kmemCacheAlloc
  split
  · exact .refl k
  refine selectSlab.bind ?_
  rintro ⟨slab, k'⟩ hk'
  cases slab with
  | none => exact hk'
  | some slab =>
    dsimp only
    split
    · refine hk'.trans ?_
      exact of_update (c := c) rfl rfl rfl rfl rfl
    · exact hk'.trans takeObject

end Frame

theorem kmemCacheCreate_callbacks {name : List Char} {size ctor dtor : ℕ} {k : Kmem} :
    Returns (kmemCacheCreate name size ctor dtor k) fun r =>
      r.1 ≠ 0 → (r.2.caches r.1).ctor = ctor ∧ (r.2.caches r.1).dtor = dtor := by
  unfold kmemCacheCreate
  split
  · exact fun h0 => absurd rfl h0
  split
  · exact fun h0 => absurd rfl h0
  refine (returns_any _).bind fun r _ => ?_
  by_cases h0 : r.1 = 0
  · simp only [if_pos h0, Outcome.pure]
    exact fun hc => absurd rfl hc
  simp only [if_neg h0]
  refine (returns_any _).bind fun slabSize _ => ?_
  refine Frame.kmemCacheGrow.bind fun g hg _ => ?_
  rw [hg.ctor, hg.dtor]
  show (update k.caches r.1 _ r.1).ctor = _ ∧ (update k.caches r.1 _ r.1).dtor = _
  rw [Function.update_self]
  exact ⟨rfl, rfl⟩

end Xv6.Slab
