import Mathlib.Order.CompletePartialOrder
import Xv6.Buddy.Partition
import Xv6.Slab.World

/-! What every run keeps.

After `kmem_init` from zeroed static data and any calls that callers may make, the lists
and counters of every cache in use describe its slabs (`kmemInit_cacheInvariant`), and
the bytes of live objects overlap neither each other nor anything that the allocator
keeps for itself (`kmemInit_safe`). With more than `2 ^ 13` blocks that is so until a call reads past
the end of `free_list`, which one does in the end (`accepted_exhausts`). -/
namespace Xv6.Slab
open Linked
open Buddy (Arena Sound Region Listed addr blockSize maxOrderLimit order wholeRegion bootRegion)

/-- The static data before any call; memory holds anything. -/
def Kmem.zeroed (memory : Kmem) : Kmem :=
  {memory with
    buddy := .zeroed memory.buddy.next
    cacheList := 0
    bufferCaches := fun _ => 0
    allocatorInitialized := false
    created := []
    destructed := []}

variable {A : Arena} {w : World} {H : Heap} {c : ℕ}

theorem tracks_init {space : ℕ} {n : ℤ} {memory : Kmem} {b : Buddy.State}
    (hb : Buddy.buddyInit space n (.zeroed memory.buddy.next) = .ok b) (hs : Sound A ⟨b, []⟩)
    (hcard : A.pages.card ≤ 2 ^ 14) :
    ∃ k, kmemInit space n memory.zeroed = .ok k ∧ Tracks A ⟨k, [], []⟩ ⟨[], fun _ => .empty⟩ := by
  refine ⟨{memory.zeroed with buddy := b, bufferCaches := fun _ => 0, allocatorInitialized := true},
    ?_, ⟨⟨hs, rfl, ?_, ?_, List.nodup_nil, ?_⟩, hcard, ?_, ?_, .nil, ?_⟩, ?_, List.nodup_nil, ?_, rfl⟩
  · show Buddy.buddyInit space n (.zeroed memory.buddy.next) >>= _ = _
    rw [hb]
    rfl
  · exact fun c hc => absurd hc List.not_mem_nil
  · exact fun c hc => absurd hc List.not_mem_nil
  · exact fun s c => ⟨fun h => absurd h List.not_mem_nil, fun h => absurd h.1 List.not_mem_nil⟩
  · exact fun c hc => absurd hc List.not_mem_nil
  · exact fun o ho => absurd ho List.not_mem_nil
  · exact fun c hc => absurd hc List.not_mem_nil
  · exact fun c hc => absurd hc List.not_mem_nil
  · exact fun i _ h0 => absurd rfl h0

theorem tracks_wholeRegion {m : ℕ} (hm : m ≤ 13) (r : Region (2 ^ m)) (memory : Kmem) :
    ∃ k, kmemInit r.start (2 ^ m) memory.zeroed = .ok k ∧
      Tracks (wholeRegion m r.start) ⟨k, [], []⟩ ⟨[], fun _ => .empty⟩ := by
  obtain ⟨b, hb, hs⟩ := Buddy.managed_init hm r memory.buddy.next
  refine tracks_init hb hs ?_
  show (Aligned.block 0 m).card ≤ 2 ^ 14
  rw [Aligned.card_block]
  exact Nat.pow_le_pow_right (by decide) (by omega)

theorem tracks_accepted {space : ℕ} {n : ℤ} (h1 : 1 ≤ n) (hn : order n < maxOrderLimit)
    (hpos : 0 < space) (hfit : addr space (8 * n.toNat) < 2 ^ 64) (memory : Kmem) :
    ∃ k A, kmemInit space n memory.zeroed = .ok k ∧ Tracks A ⟨k, [], []⟩ ⟨[], fun _ => .empty⟩ ∧
      A.start = space ∧ A.faults = fun e => e = .outOfBounds maxOrderLimit ∧ 2 ^ 13 < n := by
  obtain ⟨b, A, hb, hs, hcard, hstart, _, _, hfaults⟩ := Sound.init h1 hn hpos hfit memory.buddy.next
  have hsmall : A.pages.card ≤ 2 ^ 14 := by
    have hle : n ≤ 2 ^ 14 := Buddy.order_le.mp (Nat.le_of_lt_succ hn)
    exact_mod_cast hcard ▸ hle
  grind [tracks_init]

theorem Tracks.run {cs : List Call} (h : Tracks A w H) (hp : calls.Proper w cs) :
    Outcome A.faults (calls.run w cs) fun w' => ∃ H', Tracks A w' H' :=
  Protocol.run_outcome (I := fun w => ∃ H, Tracks A w H) (fun _ _ _ ⟨_, hI⟩ hc => hI.step hc) ⟨H, h⟩
    hp

/-! ### Regions of any size

Past `2 ^ 13` blocks `buddy_alloc` reads past the end of `free_list` when it finds nothing, and it finds
nothing in the end. Up to there every call returns. -/

/-- In every state that proper calls reach `P` holds, and each proper call returns. -/
def Always (k : Kmem) (P : World → Prop) : Prop :=
  ∀ w, calls.Reaches ⟨k, [], []⟩ w → P w ∧ ∀ c, w.allowed c → ∃ w', w.step c = .ok w'

theorem Tracks.kmalloc_accepts {size : ℕ} (h : Tracks A w H) (hpos : 1 ≤ size) (hmax : size ≤ maxBufferSize) :
    ¬ (w.kmem.allocatorInitialized = false ∨ size = 0 ∨ size > maxBufferSize) := by
  rw [h.initialized, not_or, not_or]
  exact ⟨nofun, Nat.ne_of_gt hpos, not_lt.mpr hmax⟩

section
variable (h : Tracks A w H) (hA : A.faults (.outOfBounds maxOrderLimit))
include h hA

theorem Tracks.create_cache {name : List Char} {size ctor dtor : ℕ} (h0 : size ≠ 0)
    (hle : size ≤ maxBufferSize) :
    Outcome A.faults (w.step (.create name size ctor dtor)) fun w' => ∃ c H', Tracks A w' H' ∧
      w'.handles = c :: w.handles ∧ w'.kmem.bufferCaches = w.kmem.bufferCaches := by
  have hcache : Outcome (fun _ => True) (kmemCacheCreate name size ctor dtor w.kmem) fun r => r.1 ≠ 0 := by
    unfold kmemCacheCreate
    rw [if_neg (by rw [h.initialized]; decide), if_neg (by omega)]
    refine ((h.good.rep.sound.alloc_ne_zero le_rfl (by decide) hA).imp fun _ _ => trivial).bind ?_
    rintro ⟨cache, b⟩ hne
    replace hne : cache ≠ 0 := hne
    simp only [if_neg hne]
    exact (Outcome.any _).bind fun _ _ => (Outcome.any _).bind fun _ _ => hne
  have hnew : Outcome (fun _ => True) (w.step (.create name size ctor dtor)) fun w' =>
      ∃ c, w'.handles = c :: w.handles := hcache.bind fun r hr => ⟨r.1, if_neg hr⟩
  refine ((h.create name size ctor dtor).and hnew).mono ?_
  rintro w' ⟨rfl | ⟨c, H', _, hc, _, h', hadd⟩, c', hc'⟩
  · exact absurd hc'.symm (List.cons_ne_self _ _)
  · exact ⟨c, H', h', hc, hadd.bufferCaches⟩

/-- Caches are created until there is no page for one more. -/
theorem Tracks.exhausts : ∃ w' e, calls.Reaches w w' ∧ w'.kmem.bufferCaches = w.kmem.bufferCaches ∧
    w'.kmem.allocatorInitialized = true ∧ A.faults e ∧
    kmemCacheCreate (bufferName 32) 32 0 0 w'.kmem = .error e := by
  have hstep : ∀ v, (∃ H, Tracks A v H ∧ v.kmem.bufferCaches = w.kmem.bufferCaches) →
      Outcome A.faults (v.step (.create (bufferName 32) 32 0 0)) fun v' =>
        (∃ H, Tracks A v' H ∧ v'.kmem.bufferCaches = w.kmem.bufferCaches) ∧
          v.handles.length < v'.handles.length := by
    rintro v ⟨H, hv, hb⟩
    refine (hv.create_cache hA (by decide) (by decide)).mono ?_
    rintro v' ⟨c, H', hv', hc, hb'⟩
    exact ⟨⟨H', hv', hb'.trans hb⟩, by rw [hc]; exact Nat.lt_succ_self _⟩
  obtain ⟨w', e, hreach, hw', he⟩ := Protocol.run_exhausts (P := calls)
    (c := .create (bufferName 32) 32 0 0) (fun v => v.handles.length) A.pages.card
    (fun v hv => ⟨trivial, fun v' hv' => (hstep v hv).of_ok hv'⟩)
    (fun v ⟨H, hv, _⟩ => (List.subperm_of_subset hv.nodup hv.handles).length_le.trans
      hv.good.rep.caches_le) ⟨H, h, rfl⟩
  have hfails := hstep w' hw'
  rw [show w'.step (.create (bufferName 32) 32 0 0) = .error e from he] at hfails
  obtain ⟨_, hw', hb⟩ := hw'
  refine ⟨w', e, hreach, hb, hw'.initialized, hfails, ?_⟩
  cases hcreate : kmemCacheCreate (bufferName 32) 32 0 0 w'.kmem with
  | error e' =>
    simp only [calls, World.step, hcreate, error_bind] at he
    cases he
    rfl
  | ok r =>
    simp only [calls, World.step, hcreate, ok_bind] at he
    cases he

end

section
variable {space : ℕ} {n : ℤ} (h1 : 1 ≤ n) (hn : order n < maxOrderLimit) (hpos : 0 < space)
  (hfit : addr space (8 * n.toNat) < 2 ^ 64) (memory : Kmem)
include h1 hn hpos hfit

/-- Past `2 ^ 13` blocks calls reach a state in which one more cache, or a first small buffer, makes
`buddy_alloc` read `free_list[15]`. -/
theorem accepted_exhausts (hlt : 2 ^ 13 < n) :
    ∃ k, kmemInit space n memory.zeroed = .ok k ∧ ∃ w, calls.Reaches ⟨k, [], []⟩ w ∧
      w.step (.create (bufferName 32) 32 0 0) = .error (.outOfBounds maxOrderLimit) ∧
      kmalloc 32 w.kmem = .error (.outOfBounds maxOrderLimit) := by
  obtain ⟨k, A, hk, ht, _, hfaults⟩ := tracks_accepted h1 hn hpos hfit memory
  obtain ⟨w, e, hreach, hb, hinit, he, hfails⟩ := ht.exhausts (by rw [hfaults]; exact ⟨rfl, hlt⟩)
  have hnone : Outcome (fun _ => True) (kmemInit space n memory.zeroed) fun k =>
      k.bufferCaches = fun _ => 0 := (Outcome.any _).bind fun _ _ => rfl
  rw [hfaults] at he
  obtain ⟨rfl, -⟩ := he
  refine ⟨k, hk, w, hreach, ?_, ?_⟩
  · rw [World.step, hfails]
    rfl
  · have hround : roundUpPow2 32 = .ok 32 := rfl
    have hindex : getBufferCacheIndex 32 = .ok 0 := rfl
    rw [kmalloc, hinit, if_neg (by decide), hround, ok_bind, hindex, ok_bind, ensureBufferCache, hb,
      hnone.of_ok hk, if_pos rfl, hfails]
    rfl

/-- What follows from the heap alone holds in every run, and the runs return, exactly up to `2 ^ 13`
blocks. -/
theorem always_iff {P : World → Prop} (hP : ∀ {A w H}, A.start = space → (∀ e, ¬ A.faults e) →
      Tracks A w H → P w) :
    ∃ k, kmemInit space n memory.zeroed = .ok k ∧ (Always k P ↔ n ≤ 2 ^ 13) := by
  obtain ⟨k, A, hk, ht, hstart, hfaults⟩ := tracks_accepted h1 hn hpos hfit memory
  refine ⟨k, hk, fun halways => ?_, fun hle w hreach => ?_⟩
  · by_contra hlt
    obtain ⟨k', hk', w, hreach, hfails, _⟩ := accepted_exhausts h1 hn hpos hfit memory (not_le.mp hlt)
    cases hk.symm.trans hk'
    obtain ⟨w', hw'⟩ := (halways w hreach).2 (.create (bufferName 32) 32 0 0) trivial
    cases hfails.symm.trans hw'
  · have hnone : ∀ e, ¬ A.faults e := by
      rw [hfaults]
      exact fun e he => absurd he.2 (not_lt.mpr hle)
    obtain ⟨cs, hproper, hrun⟩ := hreach
    obtain ⟨H, hw⟩ := (ht.run hproper).of_ok hrun
    refine ⟨hP hstart hnone hw, fun c hc => ?_⟩
    obtain ⟨w', hw', -⟩ := Outcome.total.mp ((hw.step hc).imp hnone)
    exact ⟨w', hw'⟩

end

/-! ### The representation of a cache -/

/-- The slabs of cache `c` are on the lists `L`. -/
structure CacheInvariant (w : World) (c : ℕ) (L : SlabList → List ℕ) : Prop where
  /-- Each list is doubly linked, and its first slab has no predecessor. -/
  lists : ∀ l, Double w.kmem.slabs.toLinks 0 ((w.kmem.caches c).slabs l) (L l)
  slabs : ∀ l, ∀ s ∈ L l, (s, c) ∈ w.kmem.created
  /-- Every slab of the cache is on one list and on no other. -/
  onOne : ∀ s, (s, c) ∈ w.kmem.created → ∃! l, s ∈ L l
  onEmpty : ∀ s, (s, c) ∈ w.kmem.created →
    (s ∈ L .slabsEmpty ↔ w.kmem.slabs.numFree s = w.kmem.slabs.numObjectsMax s)
  onPartial : ∀ s, (s, c) ∈ w.kmem.created →
    (s ∈ L .slabsPartial ↔
      0 < w.kmem.slabs.numFree s ∧ w.kmem.slabs.numFree s < w.kmem.slabs.numObjectsMax s)
  onFull : ∀ s, (s, c) ∈ w.kmem.created → (s ∈ L .slabsFull ↔ w.kmem.slabs.numFree s = 0)
  /-- The free list of a slab visits `num_free` of its slots, none of them allocated; the
  other slots are allocated. -/
  free : ∀ s, (s, c) ∈ w.kmem.created → ∃ xs,
    Chain w.kmem.objects.next (w.kmem.slabs.freeList s) xs ∧ xs.Nodup ∧
      xs.length = w.kmem.slabs.numFree s ∧ xs ⊆ slots (w.kmem.caches c) s ∧
      ∀ x ∈ slots (w.kmem.caches c) s,
        x ∉ xs ↔ ∃ o ∈ w.live, o.cache = c ∧ o.obj = x + sizeofObject
  max : ∀ s, (s, c) ∈ w.kmem.created →
    w.kmem.slabs.numObjectsMax s = (slots (w.kmem.caches c) s).length
  numSlabs : (w.kmem.caches c).numSlabs =
    (L .slabsEmpty).length + (L .slabsPartial).length + (L .slabsFull).length
  numAllocated : (w.kmem.caches c).numAllocated =
    ((L .slabsEmpty ++ L .slabsPartial ++ L .slabsFull).map fun s =>
      w.kmem.slabs.numObjectsMax s - w.kmem.slabs.numFree s).sum

theorem listOf_eq_slabsEmpty {cap n : ℕ} : .slabsEmpty = listOf cap n ↔ n = cap := by
  grind [listOf]

theorem listOf_eq_slabsPartial {cap n : ℕ} : .slabsPartial = listOf cap n ↔ n ≠ cap ∧ n ≠ 0 := by
  grind [listOf]

theorem listOf_eq_slabsFull {cap n : ℕ} (h : 0 < cap) : .slabsFull = listOf cap n ↔ n = 0 := by
  unfold listOf
  grind

theorem Good.mem_lists {k : Kmem} {live : List Live} {s : ℕ} (h : Good A k H live)
    (hc : c ∈ H.caches) (hs : s ∈ (H.pool c).slabs) (l : SlabList) :
    s ∈ (H.pool c).lists l ↔ l = listOf (capacity (k.caches c)) (k.slabs.numFree s) := by
  have hrep := h.rep.cache c hc
  have hset : ∀ {l}, s ∈ (H.pool c).lists l →
      l = listOf (capacity (k.caches c)) (k.slabs.numFree s) := fun hl => by
    rw [(hrep.slab s hs).numFree]
    exact h.rep.settled c hc _ s hl (hrep.ne_zero hs)
  grind [Pool.mem_slabs]

theorem Tracks.cacheInvariant (h : Tracks A w H) (hc : c ∈ H.caches)
    (hcap : 0 < capacity (w.kmem.caches c)) : CacheInvariant w c (H.pool c).lists := by
  have hg := h.good
  have hrep := hg.rep.cache c hc
  have hmem : ∀ {s}, (s, c) ∈ w.kmem.created ↔ s ∈ (H.pool c).slabs := fun {s} => by
    rw [hg.rep.created]
    exact and_iff_right hc
  have hon := fun {s} (hs : (s, c) ∈ w.kmem.created) => hg.mem_lists hc (hmem.mp hs)
  have hmax : ∀ {s}, s ∈ (H.pool c).slabs →
      w.kmem.slabs.numObjectsMax s = capacity (w.kmem.caches c) := fun hs =>
    (hrep.slab _ hs).numObjectsMax
  have hle : ∀ {s}, s ∈ (H.pool c).slabs →
      w.kmem.slabs.numFree s ≤ capacity (w.kmem.caches c) := fun hs => by
    rw [(hrep.slab _ hs).numFree]
    exact (hrep.slab _ hs).length_le
  refine ⟨hrep.family.list, fun l s hl => hmem.mpr (Pool.mem_slabs.mpr ⟨l, hl⟩), fun s hs => ?_,
    fun s hs => ?_, fun s hs => ?_, fun s hs => ?_, fun s hs => ?_, fun s hs => ?_, ?_, ?_⟩
  · exact ⟨_, (hon hs _).mpr rfl, fun l hl => (hon hs l).mp hl⟩
  · rw [hon hs, listOf_eq_slabsEmpty, hmax (hmem.mp hs)]
  · grind [listOf_eq_slabsPartial]
  · rw [hon hs, listOf_eq_slabsFull hcap]
  · have hslab := hrep.slab s (hmem.mp hs)
    refine ⟨(H.pool c).free s, hslab.chain, hslab.chain.nodup, hslab.numFree.symm, hslab.slots,
      fun x hx => ⟨fun hused => ?_, ?_⟩⟩
    · exact (hg.accounted c hc s (hmem.mp hs) x hx).resolve_left hused
    · rintro ⟨o, ho, rfl, hobj⟩ hfree
      obtain ⟨s', x', hl⟩ := hg.located o ho
      have hxx : x' = x := by
        have := hl.obj.symm.trans hobj
        omega
      subst hxx
      obtain ⟨rfl, _⟩ := hg.slot_unique hc hc hl.slab (hmem.mp hs) hl.slot hx
      exact hl.used hfree
  · rw [hmax (hmem.mp hs), length_slots]
  · rw [(hg.counted c hc).numSlabs, Pool.slabs, List.length_append, List.length_append]
  · rw [(hg.counted c hc).numAllocated]
    refine congrArg List.sum (List.map_congr_left fun s hs => ?_)
    rw [hmax hs, (hrep.slab s hs).numFree]

/-- **The representation invariant of caches.** For any number of blocks that `buddy_init` accepts:
the lists, free lists and counters of every cache in use whose slabs hold an object are as they should
be in every state that proper calls reach, and the calls return, exactly up to `2 ^ 13` blocks. -/
theorem kmemInit_cacheInvariant {space : ℕ} {n : ℤ} (h1 : 1 ≤ n) (hn : order n < maxOrderLimit)
    (hpos : 0 < space) (hfit : addr space (8 * n.toNat) < 2 ^ 64) (memory : Kmem) :
    ∃ k, kmemInit space n memory.zeroed = .ok k ∧
      (Always k (fun w => ∀ c, w.InUse c → 0 < capacity (w.kmem.caches c) → ∃ L, CacheInvariant w c L) ↔
        n ≤ 2 ^ 13) :=
  always_iff h1 hn hpos hfit memory fun _ _ hw _ hc hcap => ⟨_, hw.cacheInvariant (hw.inUse hc) hcap⟩

def blank : Kmem :=
  { buddy := .zeroed fun _ => 0
    caches := fun _ => initCache [] 0 0 0 0 0
    slabs := ⟨⟨fun _ => 0, fun _ => 0⟩, fun _ => 0, fun _ => 0, fun _ => 0, fun _ => 0, fun _ => 0⟩
    objects := ⟨fun _ => 0, fun _ => 0⟩
    cacheList := 0
    bufferCaches := fun _ => 0
    allocatorInitialized := false
    created := []
    destructed := [] }

/-- After booting: a cache, which is at 0x87c00000, with two objects, the second of them freed again,
and a buffer. -/
def sampleCalls : List Call :=
  [.create ['x'] 64 0 0, .alloc 0x87c00000, .alloc 0x87c00000, .free 0x87c00000 0x87c01090, .kmalloc 100]

theorem sampleCalls_run : ∃ k, kmemInit bootRegion.start 1024 blank.zeroed = .ok k ∧
    calls.Proper ⟨k, [], []⟩ sampleCalls ∧ ∃ w, calls.run ⟨k, [], []⟩ sampleCalls = .ok w ∧
      w.live.length = 2 ∧ w.InUse 0x87c00000 ∧ 0 < capacity (w.kmem.caches 0x87c00000) ∧
      ∃ r, kmalloc 100 w.kmem = .ok r ∧ r.1 ≠ 0 := by
  decide +kernel

theorem kmemInit_cacheInvariant_boot : ∃ k, kmemInit bootRegion.start 1024 blank.zeroed = .ok k ∧
      ∃ w, calls.run ⟨k, [], []⟩ sampleCalls = .ok w ∧ w.live.length = 2 ∧
        ∃ L, CacheInvariant w 0x87c00000 L := by
  obtain ⟨k, hk, hproper, w, hrun, hlive, huse, hcap, -⟩ := sampleCalls_run
  obtain ⟨k', hk', hiff⟩ := @kmemInit_cacheInvariant bootRegion.start 1024 (by decide)
    (by decide) (by decide) (by decide) blank
  cases hk.symm.trans hk'
  exact ⟨k, hk, w, hrun, hlive, (hiff.mpr (by decide) w ⟨_, hproper, hrun⟩).1 _ huse hcap⟩

/-- With `8193` blocks caches can be created until `free_list[15]` is read for one more. -/
theorem kmemCacheCreate_leaves_array :
    ∃ k, kmemInit 0x80000000 8193 blank.zeroed = .ok k ∧ ∃ w, calls.Reaches ⟨k, [], []⟩ w ∧
      w.step (.create (bufferName 32) 32 0 0) = .error (.outOfBounds 15) := by
  obtain ⟨k, hk, w, hreach, hfails, _⟩ := @accepted_exhausts 0x80000000 8193 (by decide)
    (by decide) (by decide) (by decide) blank (by decide)
  exact ⟨k, hk, w, hreach, hfails⟩

/-! ### Separation -/

/-- The bytes that the holder of an object may use. -/
def Live.bytes (o : Live) : Set ℕ := Set.Ico o.obj (o.obj + o.size)

/-- The bytes of live objects of a region of `2 ^ m` blocks at `start` are apart from each
other and from all the allocator's own: `caches` are the descriptors on `cache_list`. -/
structure Safe (m start : ℕ) (w : World) (caches : List ℕ) : Prop where
  list : Chain (fun c => (w.kmem.caches c).next) w.kmem.cacheList caches
  inUse : ∀ c, w.InUse c → c ∈ caches
  apart : w.live.Pairwise fun o o' => Disjoint o.bytes o'.bytes
  inside : ∀ o ∈ w.live, o.bytes ⊆ Set.Ico start (addr start (2 ^ m))
  descriptors : ∀ o ∈ w.live, ∀ c ∈ caches, Disjoint o.bytes (Set.Ico c (c + blockSize))
  slabHeaders : ∀ o ∈ w.live, ∀ s c, (s, c) ∈ w.kmem.created →
    Disjoint o.bytes (Set.Ico s (s + sizeofSlab))
  objectHeaders : ∀ o ∈ w.live, ∀ s c, (s, c) ∈ w.kmem.created →
    ∀ x ∈ slots (w.kmem.caches c) s, Disjoint o.bytes (Set.Ico x (x + sizeofObject))
  freePages : ∀ o ∈ w.live, ∀ k p, Listed w.kmem.buddy k p →
    Disjoint o.bytes (Set.Ico p (p + 2 ^ k * blockSize))

namespace Good

variable {k : Kmem} {live : List Live} {o : Live} {s x b : ℕ}

section
variable (h : Good A k H live)
include h

theorem mem_slot (hl : Located k H o s x) (hb : b ∈ o.bytes) :
    x + sizeofObject ≤ b ∧ b < x + (k.caches o.cache).alignedSize := by
  obtain ⟨hle, hlt⟩ := hb
  have hal := (h.rep.cache _ hl.cache).descriptor.aligned
  have hobj := hl.obj
  have hsize := hl.size
  omega

theorem mem_slab (hl : Located k H o s x) (hb : b ∈ o.bytes) :
    s ≤ b ∧ b < s + slabBytes (k.caches o.cache) := by
  have hbounds := (h.rep.cache _ hl.cache).descriptor.slot_bounds hl.slot
  have hslot := h.mem_slot hl hb
  omega

theorem slot_eq {c' s' x' : ℕ} (hl : Located k H o s x) (hb : b ∈ o.bytes)
    (hc' : c' ∈ H.caches) (hs' : s' ∈ (H.pool c').slabs) (hx' : x' ∈ slots (k.caches c') s')
    (hle : x' ≤ b) (hlt : b < x' + (k.caches c').alignedSize) : x' = x := by
  have hbounds := (h.rep.cache _ hc').descriptor.slot_bounds hx'
  obtain ⟨rfl, rfl⟩ := h.rep.eq_of_mem_slabs hl.cache hc' hl.slab hs' (h.mem_slab hl hb) (by omega)
  by_contra hne
  have hslot := h.mem_slot hl hb
  rcases Descriptor.slot_apart hx' hl.slot hne with hap | hap <;> omega

theorem page_not_free (ho : o ∈ live) (hb : b ∈ o.bytes) {j p : ℕ}
    (hp : Listed k.buddy j p) : ¬ (p ≤ b ∧ b < p + 2 ^ j * blockSize) := by
  rintro ⟨hle, hlt⟩
  obtain ⟨s, x, hl⟩ := h.located o ho
  obtain ⟨F, L, _, hcan, hF, hchain⟩ := h.rep.sound.lists
  obtain ⟨xs, hxs, hmem⟩ := hp
  rw [hxs.unique (hchain j)] at hmem
  obtain ⟨i, hi, rfl⟩ := List.mem_map.mp hmem
  have hheld := mem_held_slab (k := k) hl.cache hl.slab
  have hpage := (h.rep.sound.ledger.held _ hheld).page_mem (x := b) (h.mem_slab hl hb).1
    (by simpa [slabBytes] using (h.mem_slab hl hb).2)
  refine ((hF _).mp ((hcan.mem.mp hi).subset ?_)).2 _ hheld hpage
  show Buddy.pageIndex k.buddy.memoryStart b ∈ _
  rw [Aligned.mem_block]
  generalize 2 ^ j = n at hlt
  simp only [addr] at hle hlt
  unfold Buddy.pageIndex blockSize at *
  omega

end

end Good

theorem mem_region_of_page {m start b : ℕ} (hle : start ≤ b)
    (hp : Buddy.pageIndex start b ∈ Aligned.block 0 m) : b ∈ Set.Ico start (addr start (2 ^ m)) := by
  rw [Aligned.mem_block] at hp
  grind [Buddy.pageIndex, blockSize, addr]

theorem Tracks.safe {m start : ℕ} (h : Tracks (wholeRegion m start) w H) :
    Safe m start w H.caches := by
  have hg := h.good
  have hcreated : ∀ {s c}, (s, c) ∈ w.kmem.created → c ∈ H.caches ∧ s ∈ (H.pool c).slabs :=
    (hg.rep.created _ _).mp
  refine ⟨hg.rep.list, fun c hc => h.inUse hc, ?_, fun o ho b hb => ?_,
    fun o ho c hc => Set.disjoint_left.mpr fun b hb hcb => ?_,
    fun o ho s' c' hs' => Set.disjoint_left.mpr fun b hb hsb => ?_,
    fun o ho s' c' hs' x' hx' => Set.disjoint_left.mpr fun b hb hxb => ?_,
    fun o ho k p hp => Set.disjoint_left.mpr fun b hb => hg.page_not_free ho hb hp⟩
  · refine hg.distinct.imp_of_mem fun {o o'} ho ho' hne => Set.disjoint_left.mpr fun b hb hb' => ?_
    obtain ⟨s, x, hl⟩ := hg.located o ho
    obtain ⟨s', x', hl'⟩ := hg.located o' ho'
    have hslot := hg.mem_slot hl' hb'
    have hxx := hg.slot_eq hl hb hl'.cache hl'.slab hl'.slot (by omega) hslot.2
    exact hne (by rw [hl.obj, hl'.obj, hxx])
  · obtain ⟨s, x, hl⟩ := hg.located o ho
    have hslab := hg.mem_slab hl hb
    have hheld := mem_held_slab (k := w.kmem) hl.cache hl.slab
    have hpage := hg.rep.sound.ledger.page_mem (x := b) hheld (by simpa [slabBytes] using hslab)
    have hle := (hg.rep.sound.ledger.held _ hheld).start_le
    rw [hg.rep.sound.start] at hpage hle
    exact mem_region_of_page (hle.trans hslab.1) hpage
  · obtain ⟨s, x, hl⟩ := hg.located o ho
    exact hg.rep.cache_not_mem_slab hc hl.cache hl.slab hcb (hg.mem_slab hl hb)
  · obtain ⟨s, x, hl⟩ := hg.located o ho
    obtain ⟨hc', hmem⟩ := hcreated hs'
    have hbounds := (hg.rep.cache _ hl.cache).descriptor.slot_bounds hl.slot
    have hslot := hg.mem_slot hl hb
    obtain ⟨hle, hlt⟩ := hsb
    obtain ⟨rfl, rfl⟩ := hg.rep.eq_of_mem_slabs hl.cache hc' hl.slab hmem (hg.mem_slab hl hb)
      ⟨hle, hlt.trans_le (Nat.add_le_add_left (hg.rep.cache _ hc').descriptor.header_fits _)⟩
    omega
  · obtain ⟨s, x, hl⟩ := hg.located o ho
    obtain ⟨hc', hmem⟩ := hcreated hs'
    obtain ⟨hle, hlt⟩ := hxb
    have hal := (hg.rep.cache _ hc').descriptor.aligned
    have hxx := hg.slot_eq hl hb hc' hmem hx' hle (by omega)
    have hslot := hg.mem_slot hl hb
    omega

/-- **Memory safety.** After `kmem_init` over `2 ^ m` blocks and any proper calls, every
call has returned, and the bytes of the live objects and buffers are pairwise disjoint,
inside the region, and disjoint from every descriptor's page, every slab header, every
object header and every page on a free list of the buddy allocator. -/
theorem kmemInit_safe {m : ℕ} (hm : m ≤ 13) (r : Region (2 ^ m)) (memory : Kmem) :
    ∃ k, kmemInit r.start (2 ^ m) memory.zeroed = .ok k ∧ ∀ cs, calls.Proper ⟨k, [], []⟩ cs →
      ∃ w, calls.run ⟨k, [], []⟩ cs = .ok w ∧ ∃ caches, Safe m r.start w caches := by
  obtain ⟨k, hk, ht⟩ := tracks_wholeRegion hm r memory
  refine ⟨k, hk, fun cs hp => ?_⟩
  obtain ⟨w, hw, H, htw⟩ := Outcome.total.mp (ht.run hp)
  exact ⟨w, hw, _, htw.safe⟩

/-- After `sampleCalls` an object and a buffer are live. -/
theorem kmemInit_safe_boot : ∃ k w, kmemInit bootRegion.start 1024 blank.zeroed = .ok k ∧
      calls.run ⟨k, [], []⟩ sampleCalls = .ok w ∧ w.live.length = 2 ∧
      ∃ caches, Safe 10 bootRegion.start w caches := by
  obtain ⟨k, hk, hproper, w, hw, hlive, -⟩ := sampleCalls_run
  obtain ⟨k', hk', hall⟩ := kmemInit_safe (m := 10) (by decide) bootRegion blank
  cases hk.symm.trans hk'
  obtain ⟨w', hw', hsafe⟩ := hall _ hproper
  cases hw.symm.trans hw'
  exact ⟨k, w, hk, hw, hlive, hsafe⟩

end Xv6.Slab
