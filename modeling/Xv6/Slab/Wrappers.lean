import Xv6.Slab.Frame
import Xv6.Slab.Safety

/-! Constructors and destructors (`user/umalloc.c`).

User programs reach a cache through wrappers. `kmem_cache_alloc` runs the constructor on the object
that it got, and `kmem_cache_free` the destructor before it gives the object back. In the kernel
`kmem_slab_destroy` runs the destructor on every slot of the slab, also on free ones, which were
destructed by the wrapper or never constructed (`kmemCacheDestroy_unbalanced`). As long as only slabs
without free slots are released, constructors and destructors balance (`wrappers_balanced`). -/
namespace Xv6.Slab
open Linked
open Buddy (Arena Sound addr maxOrderLimit order bootRegion)

/-- The allocator, and the calls of the constructor and the destructor of a cache since it
was made, each with its object. -/
structure Usage where
  world : World
  constructed : List ℕ
  destructed : List ℕ

inductive Use where
  | alloc
  | free (objp : ℕ)
  | shrink
  | destroy
  deriving DecidableEq

namespace Usage

def start (w : World) : Usage := ⟨w, [], []⟩

/-- Back from a system call, in which the kernel may have run destructors. -/
def entered (u : Usage) (w : World) : Usage :=
  let kernel := w.kmem.destructed.drop u.world.kmem.destructed.length
  {u with world := w, destructed := u.destructed ++ kernel.map Prod.snd}

def kmemCacheAlloc (cachep : ℕ) (u : Usage) : Result Usage := do
  let (ret, k) ← Slab.kmemCacheAlloc cachep u.world.kmem
  let live := noteObject ret cachep (k.caches cachep).objectSize u.world.live
  let u := u.entered {u.world with kmem := k, live := live}
  if ret ≠ 0 ∧ cachep ≠ 0 ∧ (k.caches cachep).ctor ≠ 0 then
    return {u with constructed := u.constructed ++ [ret]}
  return u

def kmemCacheFree (cachep objp : ℕ) (u : Usage) : Result Usage := do
  let runs := objp ≠ 0 ∧ cachep ≠ 0 ∧ (u.world.kmem.caches cachep).dtor ≠ 0
  let u := if runs then {u with destructed := u.destructed ++ [objp]} else u
  let w ← u.world.step (.free cachep objp)
  return u.entered w

def step (c : ℕ) (u : Usage) : Use → Result Usage
  | .alloc => u.kmemCacheAlloc c
  | .free objp => u.kmemCacheFree c objp
  | .shrink => do
    let w ← u.world.step (.shrink c)
    return u.entered w
  | .destroy => do
    let w ← u.world.step (.destroy c)
    return u.entered w

/-- The cache is not destroyed, and objects that are freed are live objects of it. -/
def allowed (c : ℕ) (u : Usage) : Use → Prop
  | .alloc | .shrink | .destroy => c ∈ u.world.handles
  | .free objp => c ∈ u.world.handles ∧ ∃ o ∈ u.world.live, o.cache = c ∧ o.obj = objp

/-- No slot was destructed more often than it was constructed. -/
def Balanced (u : Usage) : Prop := ∀ x, u.destructed.count x ≤ u.constructed.count x

/-- The slabs that the call releases have no free slot. -/
def ReleasesFull (c : ℕ) (u : Usage) : Use → Prop
  | .alloc | .free _ => True
  | .shrink =>
    (u.world.kmem.caches c).numGrown > uint32 (u.world.kmem.caches c).lastShrinkState ∨
      ∀ s, (s, c) ∈ u.world.kmem.created →
        u.world.kmem.slabs.numFree s = u.world.kmem.slabs.numObjectsMax s →
        u.world.kmem.slabs.numFree s = 0
  | .destroy => ∀ s, (s, c) ∈ u.world.kmem.created → u.world.kmem.slabs.numFree s = 0

end Usage

def uses (c : ℕ) : Protocol Fault Usage Use := ⟨Usage.step c, Usage.allowed c⟩

/-! ### Counting -/

def objectsOf (c : ℕ) (live : List Live) : List ℕ := (live.filter (·.cache = c)).map Live.obj

variable {A : Arena} {u : Usage} {c s x : ℕ} {k : Kmem} {H : Heap} {live : List Live}

theorem mem_objectsOf : x ∈ objectsOf c live ↔ ∃ o ∈ live, o.cache = c ∧ o.obj = x := by
  simp [objectsOf, and_assoc]

theorem objectsOf_cons (obj size x : ℕ) :
    (objectsOf c (⟨obj, c, size⟩ :: live)).count x = (objectsOf c live).count x + [obj].count x := by
  have hcons : objectsOf c (⟨obj, c, size⟩ :: live) = [obj] ++ objectsOf c live := by
    simp [objectsOf]
  rw [hcons, List.count_append, Nat.add_comm]

theorem objectsOf_erase {o : Live} (ho : o ∈ live) (hc : o.cache = c) (x : ℕ) :
    (objectsOf c live).count x = (objectsOf c (live.erase o)).count x + [o.obj].count x := by
  have hperm : (objectsOf c live).Perm (o.obj :: objectsOf c (live.erase o)) := by
    have hcons := ((List.perm_cons_erase ho).filter (·.cache = c)).map Live.obj
    rwa [List.filter_cons_of_pos (by simpa using hc), List.map_cons] at hcons
  rw [hperm.count_eq, ← List.singleton_append, List.count_append, Nat.add_comm]

/-- Without free slots, every slot of the cache is a live object, and there is one of it. -/
theorem Good.dtorCalls_le (h : Good A k H live) (hc : c ∈ H.caches) {xs : List ℕ}
    (hxs : xs ⊆ (H.pool c).slabs) (hnd : xs.Nodup) (hfull : ∀ s ∈ xs, k.slabs.numFree s = 0) (x : ℕ) :
    ((dtorCalls (k.caches c) xs).map Prod.snd).count x ≤ (objectsOf c live).count x := by
  have hcr := h.rep.cache c hc
  unfold dtorCalls
  split
  swap
  · exact Nat.zero_le _
  rw [List.map_flatMap]
  simp only [List.map_map]
  have hnodup : (xs.flatMap fun s =>
      (slots (k.caches c) s).map (Prod.snd ∘ fun x => ((k.caches c).dtor, x + sizeofObject))).Nodup := by
    refine List.nodup_flatMap.mpr ⟨fun s _ => ?_, hnd.imp_of_mem fun {s t} hs ht hst => ?_⟩
    · exact (hcr.descriptor.nodup_slots s).map fun a b hab => Nat.add_right_cancel hab
    · intro y hy hy'
      obtain ⟨a, ha, rfl⟩ := List.mem_map.mp hy
      obtain ⟨b, hb, hab⟩ := List.mem_map.mp hy'
      obtain rfl : b = a := Nat.add_right_cancel hab
      exact hst (h.slot_unique hc hc (hxs hs) (hxs ht) ha hb).1
  by_cases hx : x ∈ xs.flatMap fun s =>
      (slots (k.caches c) s).map (Prod.snd ∘ fun x => ((k.caches c).dtor, x + sizeofObject))
  · rw [List.count_eq_one_of_mem hnodup hx]
    obtain ⟨s, hs, hxs'⟩ := List.mem_flatMap.mp hx
    obtain ⟨a, ha, rfl⟩ := List.mem_map.mp hxs'
    have hfree : (H.pool c).free s = [] := by
      rw [← List.length_eq_zero_iff, ← (hcr.slab s (hxs hs)).numFree]
      exact hfull s hs
    refine List.count_pos_iff.mpr (mem_objectsOf.mpr ?_)
    refine (h.accounted c hc s (hxs hs) a ha).resolve_left ?_
    rw [hfree]
    exact List.not_mem_nil
  · rw [List.count_eq_zero_of_not_mem hx]
    exact Nat.zero_le _

/-! ### Runs -/

/-- While the cache is there, an object has been constructed once more than destructed if it
is live, and as often if it is not. -/
structure Even (A : Arena) (c : ℕ) (u : Usage) : Prop where
  tracked : ∃ H, Tracks A u.world H
  balanced : u.Balanced
  counts : c ∈ u.world.handles → (u.world.kmem.caches c).ctor ≠ 0 ∧
    (u.world.kmem.caches c).dtor ≠ 0 ∧
      ∀ x, u.constructed.count x = u.destructed.count x + (objectsOf c u.world.live).count x

namespace Even

theorem of_counts (ht : Tracks A u.world H) (hctor : (u.world.kmem.caches c).ctor ≠ 0)
    (hdtor : (u.world.kmem.caches c).dtor ≠ 0)
    (hcount : ∀ x, u.constructed.count x = u.destructed.count x + (objectsOf c u.world.live).count x) :
    Even A c u :=
  ⟨⟨H, ht⟩, fun x => hcount x ▸ Nat.le_add_right .., fun _ => ⟨hctor, hdtor, hcount⟩⟩

theorem entered_same {w : World} (h : w.kmem.destructed = u.world.kmem.destructed) :
    u.entered w = {u with world := w} := by
  simp [Usage.entered, h]

section
variable (h : Even A c u)
include h

section
variable (hc : c ∈ u.world.handles)
include hc

theorem alloc : Outcome A.faults (u.kmemCacheAlloc c) (Even A c) := by
  obtain ⟨H, ht⟩ := h.tracked
  obtain ⟨hctor, hdtor, hcount⟩ := h.counts hc
  have hmem := ht.handles c hc
  refine ((ht.good.kmemCacheAlloc hmem).and Frame.kmemCacheAlloc).bind ?_
  rintro ⟨ret, k'⟩ ⟨⟨H', hk, hres⟩, hframe⟩
  have hctor' : (k'.caches c).ctor ≠ 0 := hk.cache.ctor ▸ hctor
  have hdtor' : (k'.caches c).dtor ≠ 0 := hk.cache.dtor ▸ hdtor
  dsimp only at hres ⊢
  rw [entered_same hframe.destructed]
  rcases hres with ⟨rfl, hg⟩ | ⟨hret, hg⟩
  · rw [if_neg fun hr => hr.1 rfl]
    exact of_counts (ht.kept hg hk) hctor' hdtor' hcount
  · rw [if_pos ⟨hret, ht.good.cache_ne_zero hmem, hctor'⟩]
    have hnote : noteObject ret c (k'.caches c).objectSize u.world.live =
        ⟨ret, c, (k'.caches c).objectSize⟩ :: u.world.live := if_neg hret
    rw [hnote]
    have ht' := ht.kept (hg _ hk.cache.objectSize.le) hk
    refine of_counts ht' hctor' hdtor' fun x => ?_
    show (u.constructed ++ [ret]).count x = u.destructed.count x + (objectsOf c (_ :: _)).count x
    rw [objectsOf_cons, List.count_append, hcount]
    omega

theorem free {o : Live} (ho : o ∈ u.world.live)
    (hoc : o.cache = c) : Outcome A.faults (u.kmemCacheFree c o.obj) (Even A c) := by
  obtain ⟨H, ht⟩ := h.tracked
  obtain ⟨hctor, hdtor, hcount⟩ := h.counts hc
  have hc0 := ht.good.cache_ne_zero (ht.handles c hc)
  obtain ⟨H', hg, hk⟩ := ht.good.kmemCacheFree ho
  rw [hoc] at hg hk
  unfold Usage.kmemCacheFree
  dsimp only
  rw [if_pos ⟨ht.good.obj_ne_zero ho, hc0, hdtor⟩, World.step, if_neg hc0, ht.good.filter_obj ho]
  simp only [pure_bind]
  rw [Outcome.pure, entered_same Frame.kmemCacheFree.destructed]
  refine of_counts (ht.kept hg hk) (hk.cache.ctor ▸ hctor) (hk.cache.dtor ▸ hdtor) fun x => ?_
  show u.constructed.count x =
    (u.destructed ++ [o.obj]).count x + (objectsOf c (u.world.live.erase o)).count x
  rw [hcount, objectsOf_erase ho hoc, List.count_append]
  omega

theorem shrink (hfull : u.ReleasesFull c .shrink) :
    Outcome A.faults (u.step c .shrink) (Even A c) := by
  obtain ⟨H, ht⟩ := h.tracked
  obtain ⟨hctor, hdtor, hcount⟩ := h.counts hc
  have hmem := ht.handles c hc
  have hcr := ht.good.rep.cache c hmem
  unfold Usage.step World.step
  rw [bind_assoc]
  refine (ht.good.kmemCacheShrink_destructed hmem).bind ?_
  rintro ⟨freed, k'⟩ ⟨⟨H', hg, hk⟩, htrace⟩
  -- The slabs that are released have no slots at all.
  have hnone : dtorCalls (u.world.kmem.caches c)
      (if (u.world.kmem.caches c).numGrown > uint32 (u.world.kmem.caches c).lastShrinkState then []
        else (H.pool c).lists .slabsEmpty) = [] := by
    split
    · exact dtorCalls_nil _
    rename_i hgrown
    have hslots : ∀ s ∈ (H.pool c).lists .slabsEmpty, slots (u.world.kmem.caches c) s = [] := by
      intro s hs
      have hsl : s ∈ (H.pool c).slabs := Pool.mem_slabs.mpr ⟨_, hs⟩
      have hlist := (ht.good.mem_lists hmem hsl .slabsEmpty).mp hs
      have hall := listOf_eq_slabsEmpty.mp hlist
      have hmax := (hcr.slab s hsl).numObjectsMax
      have hzero := hfull.resolve_left hgrown s ((ht.good.rep.created s c).mpr ⟨hmem, hsl⟩)
        (hall.trans hmax.symm)
      rw [slots, ← hall, hzero]
      rfl
    rw [dtorCalls, if_pos hdtor]
    refine List.flatMap_eq_nil_iff.mpr fun s hs => ?_
    rw [hslots s hs]
    rfl
  rw [hnone, List.append_nil] at htrace
  show Even A c (u.entered {u.world with kmem := k'})
  rw [entered_same htrace]
  exact of_counts (ht.kept hg hk) (hk.cache.ctor ▸ hctor) (hk.cache.dtor ▸ hdtor) hcount

theorem destroy (hfull : u.ReleasesFull c .destroy) :
    Outcome A.faults (u.step c .destroy) (Even A c) := by
  obtain ⟨H, ht⟩ := h.tracked
  obtain ⟨_, _, hcount⟩ := h.counts hc
  have hmem := ht.handles c hc
  have hcr := ht.good.rep.cache c hmem
  have htrace : Outcome (fun _ => True) (u.world.step (.destroy c)) fun w =>
      w.handles = u.world.handles.erase c ∧ w.kmem.destructed = u.world.kmem.destructed ++
        dtorCalls (u.world.kmem.caches c) (H.pool c).slabs := by
    have hcall := ht.good.kmemCacheDestroy_destructed hmem
    rw [World.step]
    cases hk : Slab.kmemCacheDestroy c u.world.kmem with
    | error e => trivial
    | ok k' =>
      rw [hk] at hcall
      exact ⟨rfl, hcall.2⟩
  refine ((ht.destroy hc).and htrace).bind ?_
  rintro w ⟨⟨H', ht', _⟩, hhandles, hw⟩
  have hentered : (u.entered w).destructed = u.destructed ++
      (dtorCalls (u.world.kmem.caches c) (H.pool c).slabs).map Prod.snd := by
    rw [Usage.entered, hw, List.drop_left]
  refine ⟨⟨H', ht'⟩, fun x => ?_, fun hc' => ?_⟩
  · have hle := ht.good.dtorCalls_le hmem (List.Subset.refl _) hcr.nodup
      (fun s hs => hfull s ((ht.good.rep.created s c).mpr ⟨hmem, hs⟩)) x
    show (u.entered w).destructed.count x ≤ u.constructed.count x
    rw [hentered, List.count_append, hcount]
    omega
  · replace hc' : c ∈ w.handles := hc'
    rw [hhandles] at hc'
    exact absurd rfl (ht.nodup.mem_erase_iff.mp hc').1

end

theorem step {use : Use} (huse : u.allowed c use) (hfull : u.ReleasesFull c use) :
    Outcome A.faults (u.step c use) (Even A c) := by
  cases use with
  | alloc => exact h.alloc huse
  | free objp =>
    obtain ⟨hc, o, ho, hoc, rfl⟩ := huse
    exact h.free hc ho hoc
  | shrink => exact h.shrink huse hfull
  | destroy => exact h.destroy huse hfull

end

theorem create {w w₁ : World} {name : List Char} {size ctor dtor : ℕ} (h : Tracks A w H)
    (hctor : ctor ≠ 0) (hdtor : dtor ≠ 0) (hcreate : w.step (.create name size ctor dtor) = .ok w₁)
    (hhandles : w₁.handles = c :: w.handles) : Even A c (.start w₁) := by
  have hnew := (h.create name size ctor dtor).and (R := fun w' => w'.handles = c :: w.handles →
    (w'.kmem.caches c).ctor = ctor ∧ (w'.kmem.caches c).dtor = dtor) ?_
  · rw [hcreate] at hnew
    obtain ⟨hres, hcallbacks⟩ := hnew
    obtain ⟨hctor', hdtor'⟩ := hcallbacks hhandles
    rcases hres with rfl | ⟨c', H', _, hhandles', hlive, ht, hadd⟩
    · simp at hhandles
    · cases hhandles.symm.trans hhandles'
      have hnone : objectsOf c w₁.live = [] := by
        refine List.eq_nil_iff_forall_not_mem.mpr fun x hx => ?_
        obtain ⟨o, ho, rfl, -⟩ := mem_objectsOf.mp hx
        obtain ⟨s, y, hloc⟩ := h.good.located o (hlive ▸ ho)
        exact hadd.fresh hloc.cache
      refine of_counts ht (hctor'.symm ▸ hctor) (hdtor'.symm ▸ hdtor) fun x => ?_
      show [].count x = [].count x + (objectsOf c w₁.live).count x
      rw [hnone]
      rfl
  · refine kmemCacheCreate_callbacks.bind fun r hr hh => ?_
    by_cases h0 : r.1 = 0
    · have hsame : (if r.1 = 0 then w.handles else r.1 :: w.handles) = c :: w.handles := hh
      rw [if_pos h0] at hsame
      simp at hsame
    · have hcons : (if r.1 = 0 then w.handles else r.1 :: w.handles) = c :: w.handles := hh
      rw [if_neg h0] at hcons
      cases hcons
      exact hr h0

end Even

/-- **Constructors and destructors balance as long as only full slabs are released.** After
`kmem_init` and any proper calls, let `kmem_cache_create` make a cache with a constructor and a
destructor. In every run of the wrappers on this cache, with `kmem_cache_shrink` and a last
`kmem_cache_destroy`, in which the slabs released have no free slot, no slot has been destructed more
often than it was constructed. -/
theorem wrappers_balanced {space : ℕ} {n : ℤ} (h1 : 1 ≤ n) (hn : order n < maxOrderLimit)
    (hpos : 0 < space) (hfit : addr space (8 * n.toNat) < 2 ^ 64) (memory : Kmem) :
    ∃ k, kmemInit space n memory.zeroed = .ok k ∧
      ∀ cs w, calls.Proper ⟨k, [], []⟩ cs → calls.run ⟨k, [], []⟩ cs = .ok w →
      ∀ name size ctor dtor c w₁, ctor ≠ 0 → dtor ≠ 0 →
        w.step (.create name size ctor dtor) = .ok w₁ → w₁.handles = c :: w.handles →
      ∀ us u, ((uses c).restrict (Usage.ReleasesFull c)).Proper (.start w₁) us →
        (uses c).run (.start w₁) us = .ok u → u.Balanced := by
  obtain ⟨k, A, hk, ht, _⟩ := tracks_accepted h1 hn hpos hfit memory
  refine ⟨k, hk, fun cs w hp hw name size ctor dtor c w₁ hctor hdtor hcreate hhandles us u hus hu => ?_⟩
  have hrun := ht.run hp
  rw [hw] at hrun
  obtain ⟨H, htw⟩ := hrun
  have hrun₁ := Protocol.run_outcome (E := A.faults) (I := Even A c)
    (fun use _ v hv (huse : v.allowed c use ∧ v.ReleasesFull c use) => hv.step huse.1 huse.2)
    (Even.create htw hctor hdtor hcreate hhandles) hus
  rw [Protocol.restrict_run, hu] at hrun₁
  exact hrun₁.balanced

/-- A slab of this cache has one object. It is allocated, and destructed with the cache. -/
theorem wrappers_balanced_boot : ∃ k, kmemInit bootRegion.start 1024 blank.zeroed = .ok k ∧
      ∃ w, World.step ⟨k, [], []⟩ (.create [] (2 ^ 15) 1 2) = .ok w ∧
      ∃ u, (uses bootRegion.start).run (.start w) [.alloc, .destroy] = .ok u ∧ u.destructed.length = 1 ∧
        u.Balanced := by
  have hsees : ∃ k, kmemInit bootRegion.start 1024 blank.zeroed = .ok k ∧
      ∃ w, World.step ⟨k, [], []⟩ (.create [] (2 ^ 15) 1 2) = .ok w ∧ w.handles = [bootRegion.start] ∧
      ∃ u, Usage.step bootRegion.start (.start w) .alloc = .ok u ∧
        (bootRegion.start ∈ u.world.handles ∧ ∀ p ∈ u.world.kmem.created, u.world.kmem.slabs.numFree p.1 = 0) ∧
      ∃ v, Usage.step bootRegion.start u .destroy = .ok v ∧ v.destructed.length = 1 := by
    decide +kernel
  obtain ⟨k, hk, w, hw, hc, u, hu, ⟨hc', hfull⟩, v, hv, hlen⟩ := hsees
  obtain ⟨k', hk', hruns⟩ := @wrappers_balanced bootRegion.start 1024 (by decide)
    (by decide) (by decide) (by decide) blank
  cases hk.symm.trans hk'
  have hrun : (uses bootRegion.start).run (.start w) [.alloc, .destroy] = .ok v :=
    (Protocol.run_cons _ hu).trans (Protocol.run_cons [] hv)
  have hmem : bootRegion.start ∈ w.handles := hc ▸ List.mem_cons_self ..
  refine ⟨k, hk, w, hw, v, hrun, hlen, hruns [] _ trivial rfl _ _ 1 2 _ w nofun nofun hw hc
    [.alloc, .destroy] v ⟨⟨hmem, trivial⟩, fun t ht => ?_⟩ hrun⟩
  cases hu.symm.trans ht
  exact ⟨⟨hc', fun s hs => hfull _ hs⟩, fun _ _ => trivial⟩

/-- After one object was allocated and freed, `kmem_cache_destroy` destructs it again. -/
theorem kmemCacheDestroy_unbalanced :
    ∃ k w c x u, kmemInit bootRegion.start 1024 blank.zeroed = .ok k ∧
      (⟨k, [], []⟩ : World).step (.create [] 400 1 2) = .ok w ∧ w.handles = [c] ∧
      (uses c).Proper (.start w) [.alloc, .free x, .destroy] ∧
      (uses c).run (.start w) [.alloc, .free x, .destroy] = .ok u ∧ ¬ u.Balanced := by
  -- The slab is the second page of the region, and the object its first.
  refine ⟨_, _, _, 0x87C01040, _, rfl, rfl, rfl, ?_, rfl, fun h => ?_⟩
  · refine ⟨List.mem_cons_self .., fun _ hs => ?_⟩
    cases hs
    refine ⟨⟨List.mem_cons_self .., _, List.mem_cons_self .., rfl, rfl⟩, fun _ hs => ?_⟩
    cases hs
    exact ⟨List.mem_cons_self .., fun _ _ => trivial⟩
  · exact absurd (h (0x87C01040)) (by decide)

end Xv6.Slab
