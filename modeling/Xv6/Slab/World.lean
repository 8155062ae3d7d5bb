import Xv6.Slab.Lifetime

/-! The allocator and its callers.

A `World` is the allocator, the caches that `kmem_cache_create` has returned and that
are not destroyed, and the objects that are allocated. A caller may use a cache or an
object until it is destroyed or freed, and an object of a destroyed cache is no longer
one. `Tracks A w H` says that memory holds the heap `H` with the caches and objects that
the callers hold; every call a caller may make keeps that (`Tracks.step`). -/
namespace Xv6.Slab
open Linked
open Buddy (Arena)

/-- The allocator and what its callers hold. -/
structure World where
  kmem : Kmem
  handles : List ℕ
  live : List Live

inductive Call where
  | create (name : List Char) (size ctor dtor : ℕ)
  | alloc (cachep : ℕ)
  | free (cachep objp : ℕ)
  | grow (cachep : ℕ)
  | shrink (cachep : ℕ)
  | destroy (cachep : ℕ)
  | kmalloc (size : ℕ)
  | kfree (objp : ℕ)
  deriving DecidableEq

def cacheOf (k : Kmem) (objp : ℕ) : ℕ := k.slabs.cache (k.objects.slab (header objp))

/-- One more object, unless `objp` is null. -/
def noteObject (objp cache size : ℕ) (live : List Live) : List Live :=
  if objp = 0 then live else ⟨objp, cache, size⟩ :: live

namespace World

/-- Make a call and note what is held after it. -/
def step (w : World) : Call → Result World
  | .create name size ctor dtor => do
    let (cache, k) ← kmemCacheCreate name size ctor dtor w.kmem
    return {w with kmem := k, handles := if cache = 0 then w.handles else cache :: w.handles}
  | .alloc cachep => do
    let (objp, k) ← kmemCacheAlloc cachep w.kmem
    return {w with kmem := k, live := noteObject objp cachep (k.caches cachep).objectSize w.live}
  | .free cachep objp =>
    return {w with
      kmem := kmemCacheFree cachep objp w.kmem
      live := if cachep = 0 then w.live else w.live.filter (·.obj ≠ objp)}
  | .grow cachep => do
    let (_, k) ← kmemCacheGrow cachep w.kmem
    return {w with kmem := k}
  | .shrink cachep => do
    let (_, k) ← kmemCacheShrink cachep w.kmem
    return {w with kmem := k}
  | .destroy cachep => do
    let k ← kmemCacheDestroy cachep w.kmem
    return ⟨k, w.handles.erase cachep, w.live.filter (·.cache ≠ cachep)⟩
  | .kmalloc size => do
    let (objp, k) ← kmalloc size w.kmem
    return {w with kmem := k, live := noteObject objp (cacheOf k objp) size w.live}
  | .kfree objp => do
    let k ← kfree objp w.kmem
    return {w with kmem := k, live := w.live.filter (·.obj ≠ objp)}

/-- The cache was returned by `kmem_cache_create` and is not destroyed, or is a cache for
buffers. -/
def InUse (w : World) (cachep : ℕ) : Prop :=
  cachep ∈ w.handles ∨ cachep ≠ 0 ∧ ∃ i < numBufferCaches, w.kmem.bufferCaches i = cachep

instance (w : World) (c : ℕ) : Decidable (w.InUse c) := inferInstanceAs (Decidable (_ ∨ _))

/-- Caches are in use and objects allocated, or null; an object goes back to its cache. -/
def allowed (w : World) : Call → Prop
  | .create .. => True
  | .alloc cachep => cachep = 0 ∨ w.InUse cachep
  | .free cachep objp => cachep = 0 ∨ objp = 0 ∨ ∃ o ∈ w.live, o.cache = cachep ∧ o.obj = objp
  | .grow cachep => w.InUse cachep
  | .shrink cachep => cachep = 0 ∨ w.InUse cachep
  | .destroy cachep => cachep = 0 ∨ cachep ∈ w.handles
  | .kmalloc _ => True
  | .kfree objp => objp = 0 ∨ ∃ o ∈ w.live, o.obj = objp

end World

def calls : Protocol Fault World Call := ⟨World.step, World.allowed⟩

instance (w : World) : ∀ call, Decidable (calls.allowed w call)
  | .create .. | .kmalloc _ => .isTrue trivial
  | .alloc _ | .free _ _ | .shrink _ | .destroy _ | .kfree _ => inferInstanceAs (Decidable (_ ∨ _))
  | .grow c => inferInstanceAs (Decidable (w.InUse c))

/-- The call is one of `kmem_cache_alloc`, `kmem_cache_free`, `kmem_cache_grow` and
`kmem_cache_shrink`, on the cache `c`. -/
def Call.On (c : ℕ) : Call → Prop
  | .alloc a | .free a _ | .grow a | .shrink a => a = c
  | _ => False

/-- Memory holds the heap `H`, with what the callers hold. -/
structure Tracks (A : Arena) (w : World) (H : Heap) : Prop where
  good : Good A w.kmem H w.live
  handles : ∀ c ∈ w.handles, c ∈ H.caches
  nodup : w.handles.Nodup
  buffers : ∀ i < numBufferCaches, w.kmem.bufferCaches i ≠ 0 →
    w.kmem.bufferCaches i ∈ H.caches ∧ w.kmem.bufferCaches i ∉ w.handles ∧
      (w.kmem.caches (w.kmem.bufferCaches i)).objectSize = classSize i
  initialized : w.kmem.allocatorInitialized = true

variable {A : Arena} {w : World} {H H' : Heap} {k' : Kmem} {c : ℕ} {live' : List Live}

namespace Good

variable {k : Kmem} {live : List Live} {o : Live}

section
variable (h : Good A k H live)
include h

theorem obj_ne_zero (ho : o ∈ live) : o.obj ≠ 0 := by
  obtain ⟨s, x, hl⟩ := h.located o ho
  rw [hl.obj]
  exact Nat.ne_of_gt (Nat.add_pos_right _ (by decide))

theorem filter_obj (ho : o ∈ live) : live.filter (·.obj ≠ o.obj) = live.erase o := by
  have hsymm : Std.Symm fun o o' : Live => o.obj ≠ o'.obj := ⟨fun _ _ hne => hne.symm⟩
  have hnd : live.Nodup := h.distinct.imp fun hne heq => hne (congrArg Live.obj heq)
  rw [hnd.erase_eq_filter]
  refine List.filter_congr fun o' ho' => ?_
  by_cases heq : o' = o
  · simp [heq]
  · simp [heq, h.distinct.forall ho' ho heq]

theorem cacheOf_eq (ho : o ∈ live) : cacheOf k o.obj = o.cache := by
  obtain ⟨s, x, hl⟩ := h.located o ho
  rw [cacheOf, h.objectSlab_eq hl]
  exact ((h.rep.cache _ hl.cache).slab s hl.slab).cache

theorem filter_null : live.filter (·.obj ≠ 0) = live :=
  List.filter_eq_self.mpr fun _ ho => by simpa using h.obj_ne_zero ho

end

end Good

namespace Tracks

theorem inUse (h : Tracks A w H) (hc : w.InUse c) : c ∈ H.caches := by
  rcases hc with hc | ⟨h0, i, hi, rfl⟩
  · exact h.handles c hc
  · exact (h.buffers i hi h0).1

/-! ### Calls on one cache -/

theorem kept (h : Tracks A w H) (hg : Good A k' H' live') (hk : Kept c w.kmem k' H H') :
    Tracks A ⟨k', w.handles, live'⟩ H' := by
  refine ⟨hg, fun a ha => hk.heap ▸ h.handles a ha, h.nodup, fun i hi h0 => ?_,
    hk.allocatorInitialized.trans h.initialized⟩
  simp only [hk.bufferCaches] at h0 ⊢
  obtain ⟨hmem, hnot, hsize⟩ := h.buffers i hi h0
  exact ⟨hk.heap ▸ hmem, hnot, (hk.type _).objectSize.trans hsize⟩

theorem onCache {call : Call} (h : Tracks A w H) (hon : call.On c) (hc : c ∈ H.caches)
    (hcall : w.allowed call) :
    Outcome A.faults (w.step call) fun w' => ∃ H', Tracks A w' H' ∧ Kept c w.kmem w'.kmem H H' ∧
      w'.handles = w.handles := by
  have hc0 := h.good.cache_ne_zero hc
  cases call with
  | alloc a =>
    obtain rfl : a = c := hon
    refine (h.good.kmemCacheAlloc hc).bind ?_
    rintro ⟨objp, k'⟩ ⟨H', hk, ⟨hnull, hg⟩ | ⟨hobj, hg⟩⟩
    · obtain rfl : objp = 0 := hnull
      exact ⟨H', h.kept hg hk, hk, rfl⟩
    · refine ⟨H', ?_, hk, rfl⟩
      show Tracks A ⟨k', w.handles, noteObject objp a (k'.caches a).objectSize w.live⟩ H'
      rw [noteObject, if_neg hobj, hk.cache.objectSize]
      exact h.kept (hg _ le_rfl) hk
  | free a objp =>
    obtain rfl : a = c := hon
    rcases hcall with h0 | rfl | ⟨o, ho, rfl, rfl⟩
    · exact absurd h0 hc0
    · have hsame : kmemCacheFree a 0 w.kmem = w.kmem := by
        rw [kmemCacheFree, if_pos (.inr (.inl rfl))]
      rw [World.step, hsame, if_neg hc0, h.good.filter_null]
      exact ⟨H, h, .refl a w.kmem H, rfl⟩
    · obtain ⟨H', hg, hk⟩ := h.good.kmemCacheFree ho
      rw [World.step, if_neg hc0, h.good.filter_obj ho]
      exact ⟨H', h.kept hg hk, hk, rfl⟩
  | grow a =>
    obtain rfl : a = c := hon
    refine (h.good.rep.kmemCacheGrow hc).bind ?_
    rintro ⟨grown, k'⟩ (hfail | ⟨_, p, hp⟩)
    · cases hfail
      obtain ⟨hg, hk⟩ := h.good.fails a
      exact ⟨H, h.kept hg hk, hk, rfl⟩
    · obtain ⟨hg, hk⟩ := h.good.grown hc hp
      exact ⟨_, h.kept hg hk, hk, rfl⟩
  | shrink a =>
    obtain rfl : a = c := hon
    refine (h.good.kmemCacheShrink hc).bind ?_
    rintro ⟨freed, k'⟩ ⟨H', hg, hk⟩
    exact ⟨H', h.kept hg hk, hk, rfl⟩
  | create | destroy | kmalloc | kfree => cases hon

/-! ### Caches -/

theorem added (h : Tracks A w H) (hg : Good A k' H' w.live) (ha : Added c w.kmem k' H H') :
    Tracks A ⟨k', w.handles, w.live⟩ H' := by
  have hmem : ∀ {a}, a ∈ H.caches → a ∈ H'.caches := fun hmem =>
    ha.heap ▸ List.mem_cons_of_mem _ hmem
  refine ⟨hg, fun a hmem' => hmem (h.handles a hmem'), h.nodup, fun i hi h0 => ?_,
    ha.allocatorInitialized.trans h.initialized⟩
  simp only [ha.bufferCaches] at h0 ⊢
  grind [Tracks.buffers, Added.caches, Added.fresh]

theorem create (name : List Char) (size ctor dtor : ℕ) (h : Tracks A w H) :
    Outcome A.faults (w.step (.create name size ctor dtor)) fun w' => w' = w ∨
      ∃ c H', c ≠ 0 ∧ w'.handles = c :: w.handles ∧ w'.live = w.live ∧ Tracks A w' H' ∧
        Added c w.kmem w'.kmem H H' := by
  refine (h.good.kmemCacheCreate name ctor dtor).bind ?_
  rintro ⟨c, k'⟩ (hnull | ⟨hc, hsize, H', hg, ha⟩)
  · cases hnull
    exact .inl rfl
  · have ht := h.added hg ha
    refine .inr ⟨c, H', hc, if_neg hc, rfl, ?_, ha⟩
    show Tracks A ⟨k', if c = 0 then w.handles else c :: w.handles, w.live⟩ H'
    rw [if_neg hc]
    refine ⟨hg, ?_, List.nodup_cons.mpr ⟨fun hmem => ha.fresh (h.handles c hmem), h.nodup⟩,
      fun i hi h0 => ?_, ht.initialized⟩
    · refine List.forall_mem_cons.mpr ⟨?_, ht.handles⟩
      exact ha.heap ▸ List.mem_cons_self ..
    · obtain ⟨hmem, hnot, hsize⟩ := ht.buffers i hi h0
      refine ⟨hmem, List.not_mem_cons_of_ne_of_not_mem (fun heq => ?_) hnot, hsize⟩
      have hold := (h.buffers i hi (ha.bufferCaches ▸ h0)).1
      exact ha.fresh (heq ▸ ha.bufferCaches ▸ hold)

section
variable (h : Tracks A w H)
include h

theorem destroy (hc : c ∈ w.handles) :
    Outcome A.faults (w.step (.destroy c)) fun w' => ∃ H', Tracks A w' H' ∧
      Removed c w.kmem w'.kmem H H' := by
  refine (h.good.kmemCacheDestroy (h.handles c hc)).bind ?_
  rintro k' ⟨H', hg, hr⟩
  have hmem : ∀ {a}, a ≠ c → a ∈ H.caches → a ∈ H'.caches := fun hne hmem =>
    hr.heap ▸ (List.mem_erase_of_ne hne).mpr hmem
  refine ⟨H', ⟨hg, fun a ha => ?_, h.nodup.erase c, fun i hi h0 => ?_,
    hr.allocatorInitialized.trans h.initialized⟩, hr⟩
  · grind [Tracks.nodup, Tracks.handles]
  · simp only [hr.bufferCaches] at h0 ⊢
    grind [Tracks.buffers, Removed.kind, SameKind.objectSize]

theorem destroy_null : w.step (.destroy 0) = .ok w := by
  have hsame : kmemCacheDestroy 0 w.kmem = .ok w.kmem := by rw [kmemCacheDestroy, if_pos (.inl rfl)]
  have hlive : w.live.filter (·.cache ≠ 0) = w.live := List.filter_eq_self.mpr fun o ho => by
    obtain ⟨s, x, hl⟩ := h.good.located o ho
    simpa using h.good.cache_ne_zero hl.cache
  have hhandles : w.handles.erase 0 = w.handles :=
    List.erase_of_not_mem fun h0 => h.good.cache_ne_zero (h.handles 0 h0) rfl
  rw [World.step, hsame, hlive, hhandles]
  rfl

/-! ### Buffers -/

theorem setBuffers {i : ℕ} (hc : c ≠ 0 → c ∈ H.caches ∧ c ∉ w.handles ∧
      (w.kmem.caches c).objectSize = classSize i) :
    Tracks A ⟨{w.kmem with bufferCaches := Function.update w.kmem.bufferCaches i c}, w.handles,
      w.live⟩ H := by
  have hrep : Rep A {w.kmem with bufferCaches := Function.update w.kmem.bufferCaches i c} H :=
    ⟨h.good.rep.sound, h.good.rep.list, fun a ha => (h.good.rep.cache a ha).frame_eq rfl
      (fun _ _ => ⟨⟨rfl, rfl, rfl, rfl, rfl⟩, rfl, rfl⟩) fun _ _ _ _ => ⟨rfl, rfl⟩,
      h.good.rep.settled, h.good.rep.createdNodup, h.good.rep.created⟩
  refine ⟨⟨hrep, h.good.small, h.good.counted, fun o ho => ?_, h.good.distinct, h.good.accounted⟩,
    h.handles, h.nodup, fun j hj h0 => ?_, h.initialized⟩
  · obtain ⟨s, x, hl⟩ := h.good.located o ho
    exact ⟨s, x, hl.cache, hl.size, hl.slab, hl.slot, hl.obj, hl.used⟩
  grind [Tracks.buffers]

theorem buffer {size : ℕ} (hc : c ∈ H.caches) (hsize : size ≤ (w.kmem.caches c).objectSize) :
    Outcome A.faults (kmemCacheAlloc c w.kmem) fun r => ∃ H',
      Tracks A ⟨r.2, w.handles, noteObject r.1 (cacheOf r.2 r.1) size w.live⟩ H' := by
  refine (h.good.kmemCacheAlloc hc).mono ?_
  rintro ⟨objp, k'⟩ ⟨H', hk, ⟨hnull, hg⟩ | ⟨hobj, hg⟩⟩
  · obtain rfl : objp = 0 := hnull
    exact ⟨H', h.kept hg hk⟩
  · have hg' := hg size hsize
    have hmem : (⟨objp, c, size⟩ : Live) ∈ (⟨objp, c, size⟩ :: w.live) := List.mem_cons_self ..
    refine ⟨H', ?_⟩
    rw [noteObject, if_neg hobj, hg'.cacheOf_eq hmem]
    exact h.kept hg' hk

theorem ensureBufferCache {i : ℕ} :
    Outcome A.faults (ensureBufferCache (classSize i) i w.kmem) fun k' =>
      ∃ H', Tracks A ⟨k', w.handles, w.live⟩ H' := by
  unfold Slab.ensureBufferCache
  split
  · refine (h.good.kmemCacheCreate _ 0 0).bind ?_
    rintro ⟨c, k'⟩ (hnull | ⟨_, hsize, H', hg, ha⟩)
    · cases hnull
      exact ⟨H, h.setBuffers fun h0 => absurd rfl h0⟩
    · refine ⟨H', (h.added hg ha).setBuffers fun _ => ⟨?_, fun hmem => ?_, hsize⟩⟩
      · exact ha.heap ▸ List.mem_cons_self ..
      · exact ha.fresh (h.handles c hmem)
  · exact ⟨H, h⟩

theorem kmalloc {size : ℕ} :
    Outcome A.faults (w.step (.kmalloc size)) fun w' => ∃ H', Tracks A w' H' := by
  suffices hcall : Outcome A.faults (Slab.kmalloc size w.kmem) fun r => ∃ H',
      Tracks A ⟨r.2, w.handles, noteObject r.1 (cacheOf r.2 r.1) size w.live⟩ H' from
    hcall.bind fun _ hr => hr
  unfold Slab.kmalloc
  split
  · exact ⟨H, h⟩
  · rename_i hargs
    obtain ⟨_, hpos, hle⟩ := not_or.mp hargs |>.imp_right not_or.mp
    obtain ⟨i, hi, hround, hclass, _, hindex⟩ := roundUpPow2_eq (not_lt.mp hle)
    rw [hround, ok_bind, hindex, ok_bind]
    refine h.ensureBufferCache.bind ?_
    rintro k' ⟨H', h'⟩
    by_cases h0 : k'.bufferCaches i = 0
    · simp only [if_pos h0]
      exact ⟨H', h'⟩
    · simp only [if_neg h0]
      obtain ⟨hmem, _, hsize⟩ := h'.buffers i hi h0
      exact h'.buffer hmem (hsize ▸ hclass)

theorem kfree {objp : ℕ} (hobj : objp = 0 ∨ ∃ o ∈ w.live, o.obj = objp) :
    Outcome A.faults (w.step (.kfree objp)) fun w' => ∃ H', Tracks A w' H' := by
  rcases hobj with rfl | ⟨o, ho, rfl⟩
  · have hsame : Slab.kfree 0 w.kmem = .ok w.kmem := by rw [Slab.kfree, if_pos rfl]
    rw [World.step, hsame, h.good.filter_null]
    exact ⟨H, h⟩
  · obtain ⟨H', hg, hk⟩ := h.good.kmemCacheFree ho
    rw [World.step, h.good.kfree ho, h.good.filter_obj ho]
    exact ⟨H', h.kept hg hk⟩

theorem step {call : Call} (hcall : w.allowed call) :
    Outcome A.faults (w.step call) fun w' => ∃ H', Tracks A w' H' := by
  have hon : ∀ {c}, call.On c → c ∈ H.caches →
      Outcome A.faults (w.step call) fun w' => ∃ H', Tracks A w' H' := fun hon hc =>
    (h.onCache hon hc hcall).mono fun _ ⟨H', ht, _⟩ => ⟨H', ht⟩
  cases call with
  | create name size ctor dtor =>
    grind [Tracks.create, Outcome.mono]
  | alloc c =>
    rcases hcall with rfl | hc
    · rw [World.step, kmemCacheAlloc, if_pos (.inl rfl)]
      exact ⟨H, h⟩
    · exact hon rfl (h.inUse hc)
  | free c objp =>
    by_cases h0 : c = 0
    · rw [World.step, kmemCacheFree, if_pos (.inl h0), if_pos h0]
      exact ⟨H, h⟩
    · by_cases hp : objp = 0
      · rw [World.step, kmemCacheFree, if_pos (.inr (.inl hp)), if_neg h0, hp, h.good.filter_null]
        exact ⟨H, h⟩
      · obtain ⟨o, ho, hoc, _⟩ := (hcall.resolve_left h0).resolve_left hp
        obtain ⟨s, x, hl⟩ := h.good.located o ho
        exact hon rfl (hoc ▸ hl.cache)
  | grow c => exact hon rfl (h.inUse hcall)
  | shrink c =>
    rcases hcall with rfl | hc
    · rw [World.step, kmemCacheShrink, if_pos (.inl rfl)]
      exact ⟨H, h⟩
    · exact hon rfl (h.inUse hc)
  | destroy c =>
    by_cases h0 : c = 0
    · rw [h0, h.destroy_null]
      exact ⟨H, h⟩
    · exact (h.destroy (hcall.resolve_left h0)).mono fun _ ⟨H', ht, _⟩ => ⟨H', ht⟩
  | kmalloc size => exact h.kmalloc
  | kfree objp => exact h.kfree hcall

end

end Tracks

end Xv6.Slab
