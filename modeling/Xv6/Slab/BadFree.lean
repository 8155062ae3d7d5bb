import Xv6.Slab.Routing

/-! Frees that should not have been made.

`kmem_cache_free` takes the slab of an object from the object's header, and all that it checks is
that there is one. A header has a slab from when its slot is first handed out, for good
(`Tracks.step_stamped`). So no pointer that was ever handed out is turned down (`frees_absorbed`): an
object that is freed twice is put on the free list twice, and two callers then get it
(`kmemCacheFree_twice`). -/
namespace Xv6.Slab
open Buddy (Arena addr bootRegion maxOrderLimit order)

variable {A : Arena} {w w' : World} {H : Heap} {k : Kmem} {c s x objp : ℕ}

theorem Good.slab_ne_zero {live : List Live} {o : Live} (h : Good A k H live)
    (ho : o ∈ live) : k.objects.slab (header o.obj) ≠ 0 := by
  obtain ⟨s, x, hl⟩ := h.located o ho
  rw [h.objectSlab_eq hl]
  exact (h.rep.cache _ hl.cache).ne_zero hl.slab

/-- No call takes the slab out of a header. -/
theorem Tracks.step_stamped {call : Call} (h : Tracks A w H) (hcall : w.allowed call)
    (hx : w.kmem.objects.slab x ≠ 0) :
    Outcome A.faults (w.step call) fun w' => (∃ H', Tracks A w' H') ∧ w'.kmem.objects.slab x ≠ 0 := by
  refine ((h.step hcall).and (w.step_slab call x)).mono ?_
  rintro w' ⟨⟨H', h'⟩, hsame | ⟨o, hlive, hobj⟩⟩
  · exact ⟨⟨H', h'⟩, hsame ▸ hx⟩
  · -- The object behind the header was allocated.
    have ho : o ∈ w'.live := hlive ▸ List.mem_cons_self ..
    obtain ⟨s, y, hl⟩ := h'.good.located o ho
    have hy : header o.obj = x := by
      have heq := hl.obj.symm.trans hobj
      rw [h'.good.header_eq hl]
      omega
    exact ⟨⟨H', h'⟩, hy ▸ h'.good.slab_ne_zero ho⟩

/-- The object is put on the free list of the slab that its header names. -/
theorem kmemCacheFree_absorbs (hc : c ≠ 0) (hobj : objp ≠ 0)
    (hvalid : (k.caches c).errorDetection = slabErrDetect) (hs : k.objects.slab (header objp) = s)
    (h0 : s ≠ 0) :
    (kmemCacheFree c objp k).slabs.freeList s = header objp ∧
      (kmemCacheFree c objp k).slabs.numFree s = uint32 (k.slabs.numFree s + 1) := by
  rw [kmemCacheFree, if_neg (by tauto)]
  simp only [hs, if_neg h0]
  have hsame : SameHeader _ (putObject c s (header objp) k) s := putObject_header s
  rw [hsame.freeList, hsame.numFree]
  exact ⟨Function.update_self .., Function.update_self ..⟩

/-- **A bad free is never detected.** Let an object be handed out in a state that calls reach after
`kmem_init`, and let any calls follow after which its slab still exists and it is no object of cache
`c`. To free it then puts it first on a free list, and changes `num_free` of that slab. -/
theorem frees_absorbed {space : ℕ} {n : ℤ} (h1 : 1 ≤ n) (hn : order n < maxOrderLimit)
    (hpos : 0 < space) (hfit : addr space (8 * n.toNat) < 2 ^ 64) (memory : Kmem) :
    ∃ k, kmemInit space n memory.zeroed = .ok k ∧
      ∀ w o w' c, calls.Reaches ⟨k, [], []⟩ w → o ∈ w.live → calls.Reaches w w' →
        (w.kmem.objects.slab (header o.obj), o.cache) ∈ w'.kmem.created → w'.InUse c →
        (∀ o' ∈ w'.live, o'.obj = o.obj → o'.cache ≠ c) →
        ∃ s, (kmemCacheFree c o.obj w'.kmem).slabs.freeList s = header o.obj ∧
          (kmemCacheFree c o.obj w'.kmem).slabs.numFree s ≠ w'.kmem.slabs.numFree s := by
  obtain ⟨k, A, hk, ht, -⟩ := tracks_accepted h1 hn hpos hfit memory
  refine ⟨k, hk, fun w o w' c hreach ho hreach' _ hc _ => ?_⟩
  obtain ⟨H, hw⟩ := hreach.keeps (I := fun w => ∃ H, Tracks A w H)
    (fun _ _ ⟨_, hI⟩ hcall => hI.step hcall) ⟨_, ht⟩
  obtain ⟨⟨H', hw'⟩, hslab⟩ := hreach'.keeps
    (I := fun w => (∃ H, Tracks A w H) ∧ w.kmem.objects.slab (header o.obj) ≠ 0)
    (fun _ _ ⟨⟨_, hI⟩, hx⟩ hcall => hI.step_stamped hcall hx) ⟨⟨H, hw⟩, hw.good.slab_ne_zero ho⟩
  have hmem := hw'.inUse hc
  obtain ⟨hfree, hnum⟩ := kmemCacheFree_absorbs (hw'.good.cache_ne_zero hmem) (hw.good.obj_ne_zero ho)
    (by have := hw'.good.valid hmem; tauto) rfl hslab
  refine ⟨_, hfree, fun heq => ?_⟩
  have hlt := uint32_lt ((w'.kmem.slabs.numFree (w'.kmem.objects.slab (header o.obj)) : ℤ) + 1)
  rw [hnum] at heq
  rw [heq] at hlt
  unfold uint32 at heq
  omega

/-- After booting, a cache for 64 bytes is at 0x87c00000 and its first object at 0x87c01040. It is
allocated and freed, and freed once more: `num_allocated` wraps around, `error_state` is still 0, and
the next two allocations both return the object. -/
theorem kmemCacheFree_twice : ∃ k, kmemInit bootRegion.start 1024 blank.zeroed = .ok k ∧
      ∃ w, calls.run ⟨k, [], []⟩ [.create ['x'] 64 0 0, .alloc 0x87c00000,
          .free 0x87c00000 0x87c01040] = .ok w ∧
        (0x87c00000 ∈ w.handles ∧ w.live = [] ∧ (w.kmem.caches 0x87c00000).numAllocated = 0) ∧
        ∃ w', calls.run w [.free 0x87c00000 0x87c01040] = .ok w' ∧
          ((w'.kmem.caches 0x87c00000).numAllocated = 2 ^ 32 - 1 ∧
            (w'.kmem.caches 0x87c00000).errorState = 0) ∧
          ∃ w'', calls.run w' [.alloc 0x87c00000, .alloc 0x87c00000] = .ok w'' ∧
            w''.live.map (·.obj) = [0x87c01040, 0x87c01040] := by
  decide +kernel

theorem frees_absorbed_twice : ∃ k w w', kmemInit bootRegion.start 1024 blank.zeroed = .ok k ∧
      calls.run ⟨k, [], []⟩ [.create ['x'] 64 0 0, .alloc 0x87c00000] = .ok w ∧
      calls.run w [.free 0x87c00000 0x87c01040] = .ok w' ∧ w'.live = [] ∧
      ∃ s, (kmemCacheFree 0x87c00000 0x87c01040 w'.kmem).slabs.freeList s = 0x87c01030 ∧
        (kmemCacheFree 0x87c00000 0x87c01040 w'.kmem).slabs.numFree s ≠ w'.kmem.slabs.numFree s := by
  have hsees : ∃ k, kmemInit bootRegion.start 1024 blank.zeroed = .ok k ∧
      calls.Proper ⟨k, [], []⟩ [.create ['x'] 64 0 0, .alloc 0x87c00000] ∧
      ∃ w, calls.run ⟨k, [], []⟩ [.create ['x'] 64 0 0, .alloc 0x87c00000] = .ok w ∧
        (⟨0x87c01040, 0x87c00000, 64⟩ ∈ w.live ∧ calls.Proper w [.free 0x87c00000 0x87c01040]) ∧
        ∃ w', calls.run w [.free 0x87c00000 0x87c01040] = .ok w' ∧ w'.live = [] ∧
          (w.kmem.objects.slab 0x87c01030, 0x87c00000) ∈ w'.kmem.created ∧ w'.InUse 0x87c00000 := by
    decide +kernel
  obtain ⟨k, hk, hproper, w, hrun, ⟨ho, hproper'⟩, w', hrun', hlive, hslab, huse⟩ := hsees
  obtain ⟨k', hk', hall⟩ := @frees_absorbed bootRegion.start 1024 (by decide) (by decide)
    (by decide) (by decide) blank
  cases hk.symm.trans hk'
  refine ⟨k, w, w', hk, hrun, hrun', hlive, hall w _ w' _ ⟨_, hproper, hrun⟩ ho ⟨_, hproper', hrun'⟩ hslab
    huse ?_⟩
  rw [hlive]
  exact fun o' ho' => absurd ho' List.not_mem_nil

end Xv6.Slab
