import Xv6.Slab.Alloc

/-! `kmem_cache_create` and `kmem_cache_destroy`.

A new cache comes first on `cache_list`, with an empty slab or with none
(`Good.kmemCacheCreate`). Destroying a cache takes it off `cache_list`, wherever it is,
and gives back its page and the pages of its slabs (`Good.kmemCacheDestroy`). -/
namespace Xv6.Slab
open Function
open Linked
open Buddy (Arena Sound buddyFree)

variable {A : Arena} {k k' : Kmem} {H H' : Heap} {c s x : ℕ} {live : List Live}

/-! ### Destroying -/

theorem Rep.destroyLoop_destructed (l : SlabList) (fuel : ℕ) {xs : List ℕ} (h : Rep A k H) (hc : c ∈ H.caches)
    (hxs : (H.pool c).lists l = xs) (hf : xs.length < fuel) :
    Outcome A.faults (destroyLoop c l fuel k) fun k' => (∃ H', Rep A k' H' ∧ Kept c k k' H H' ∧
      (H'.pool c).lists = update (H.pool c).lists l []) ∧
        k'.destructed = k.destructed ++ dtorCalls (k.caches c) xs := by
  induction xs generalizing fuel k H with
  | nil =>
    obtain ⟨f, rfl⟩ := Nat.exists_eq_add_one.mpr hf
    have hhead := ((h.cache c hc).family.list l).chain
    rw [hxs] at hhead
    replace hhead : (k.caches c).slabs l = 0 := hhead
    unfold Slab.destroyLoop
    simp only [if_pos hhead]
    refine ⟨⟨H, h, .refl c k H, ?_⟩, by simp⟩
    rw [← hxs, update_eq_self]
  | cons s xs ih =>
    obtain ⟨f, rfl⟩ := Nat.exists_eq_add_one.mpr (Nat.zero_lt_of_lt hf)
    have hlist := ((h.cache c hc).family.list l).chain
    rw [hxs] at hlist
    obtain ⟨hhead, hs0, _⟩ := hlist
    have hs : s ∈ (H.pool c).lists l := hxs ▸ List.mem_cons_self ..
    unfold Slab.destroyLoop
    simp only [hhead, if_neg hs0]
    refine ((h.kmemSlabDestroy hc hs).and (h.kmemSlabDestroy_destructed hc hs)).bind ?_
    rintro k1 ⟨hd, htrace⟩
    have hkept := hd.changed.kept H ((H.pool c).drop l s)
    have hlists : ((H.set c ((H.pool c).drop l s)).pool c).lists =
        update (H.pool c).lists l xs := by
      simp [Pool.drop, hxs]
    refine (ih f hd.rep hc (by rw [hlists, update_self]) (by simpa using hf)).mono ?_
    rintro k2 ⟨⟨H2, h2, hk2, hl2⟩, htrace2⟩
    refine ⟨⟨H2, h2, hkept.trans hk2, ?_⟩, ?_⟩
    · rw [hl2, hlists, update_idem]
    · rw [htrace2, htrace, hkept.cache.dtorCalls, List.append_assoc, ← dtorCalls_append]
      rfl

/-- Other `next` fields of the descriptors, and another head of `cache_list`. -/
def Kmem.relist (k : Kmem) (head : ℕ) (next : ℕ → ℕ) : Kmem :=
  {k with cacheList := head, caches := fun a => {k.caches a with next := next a}}

theorem unlinkCache_spec {xs : List ℕ} (h : Chain (fun a => (k.caches a).next) k.cacheList xs)
    (hc : c ∈ xs) (hf : xs.length < loopFuel) :
    ∃ head next, unlinkCache c k = .ok (k.relist head next) ∧ Chain next head (xs.erase c) := by
  unfold unlinkCache
  by_cases hhead : k.cacheList = c
  · refine ⟨(k.caches c).next, fun a => (k.caches a).next, by rw [if_pos hhead]; rfl, ?_⟩
    cases xs with
    | nil => cases hc
    | cons y ys =>
      obtain ⟨rfl, _, hys⟩ := h
      grind
  · obtain ⟨a, ha, hwalk, hchain⟩ := h.unlink hc hhead hf
    refine ⟨k.cacheList, _, ?_, hchain⟩
    rw [if_neg hhead, hwalk]
    simp only [if_neg (h.ne_zero a ha)]
    congr 1
    unfold Kmem.setCache Kmem.relist
    congr 1
    funext b
    by_cases hb : b = a
    · rw [hb, update_self, update_self]
    · rw [update_of_ne hb, update_of_ne hb]

/-- The last writes of `kmem_cache_destroy`. -/
def Kmem.dropCache (k : Kmem) (c head : ℕ) (next : ℕ → ℕ) (b : Buddy.State) : Kmem :=
  {(k.relist head next).setCache c fun d => {d with errorDetection := 0} with buddy := b}

theorem dropCache_caches (head : ℕ) (next : ℕ → ℕ) (b : Buddy.State) {a : ℕ} (ha : a ≠ c) :
    (k.dropCache c head next b).caches a = {k.caches a with next := next a} :=
  update_of_ne ha _ _

/-- What the end of cache `c` leaves alone. -/
structure Removed (c : ℕ) (k k' : Kmem) (H H' : Heap) : Prop where
  heap : H'.caches = H.caches.erase c
  pool : ∀ a ≠ c, H'.pool a = H.pool a
  caches : ∀ a ≠ c, ∃ next, k'.caches a = {k.caches a with next := next}
  bufferCaches : k'.bufferCaches = k.bufferCaches
  allocatorInitialized : k'.allocatorInitialized = k.allocatorInitialized

theorem Removed.kind (h : Removed c k k' H H') {a : ℕ} (ha : a ≠ c) :
    SameKind (k.caches a) (k'.caches a) := by
  obtain ⟨next, heq⟩ := h.caches a ha
  rw [heq]
  exact ⟨rfl, rfl, rfl, rfl, rfl, rfl, rfl, id⟩

theorem Rep.dropCache {head : ℕ} {next : ℕ → ℕ} {b : Buddy.State} (h : Rep A k H)
    (hc : c ∈ H.caches) (hempty : (H.pool c).slabs = []) (hlist : Chain next head (H.caches.erase c))
    (hb : Sound A ⟨b, (held k H).erase (c, 1)⟩) :
    Rep A (k.dropCache c head next b) ⟨H.caches.erase c, H.pool⟩ := by
  have hmem : ∀ {a}, a ∈ H.caches.erase c ↔ a ≠ c ∧ a ∈ H.caches := h.nodup.mem_erase_iff
  have hcap : ∀ {a}, a ≠ c → capacity ((k.dropCache c head next b).caches a) = capacity (k.caches a) :=
    fun ha => by rw [dropCache_caches _ _ _ ha]; rfl
  refine ⟨?_, ?_, fun a ha => ?_, fun a ha l s hs hs0 => ?_, h.createdNodup, fun s a => ?_⟩
  · have hperm := List.perm_cons_erase hc
    have hrest : (H.caches.erase c).flatMap
        (slabsHeld (k.dropCache c head next b) ⟨H.caches.erase c, H.pool⟩) =
        (H.caches.erase c).flatMap (slabsHeld k H) := by
      refine List.flatMap_congr fun a ha => ?_
      unfold slabsHeld
      rw [dropCache_caches _ _ _ (hmem.mp ha).1]
    have hnone : slabsHeld k H c = [] := by rw [slabsHeld, hempty, List.map_nil]
    have hheld : (held k H).Perm ((c, 1) ::
        held (k.dropCache c head next b) ⟨H.caches.erase c, H.pool⟩) := by
      unfold held
      rw [hrest]
      refine ((hperm.map _).append (hperm.flatMap_right _)).trans ?_
      rw [List.flatMap_cons, hnone, List.nil_append, List.map_cons, List.cons_append]
    have herase := hheld.erase (c, 1)
    rw [List.erase_cons_head] at herase
    exact hb.perm herase
  · refine hlist.congr fun a ha => ?_
    rw [dropCache_caches _ _ _ (hmem.mp ha).1]
  · have hne := (hmem.mp ha).1
    have hcache := dropCache_caches (k := k) head next b hne
    refine (h.cache a (hmem.mp ha).2).frame ?_ (by rw [hcache])
      (fun _ _ => ⟨⟨rfl, rfl, rfl, rfl, rfl⟩, rfl, rfl⟩) fun _ _ _ _ => ⟨rfl, rfl⟩
    rw [hcache]
    exact ⟨rfl, rfl, rfl, rfl, rfl, rfl, rfl, id⟩
  · rw [hcap (hmem.mp ha).1]
    exact h.settled a (hmem.mp ha).2 l s hs hs0
  · show (s, a) ∈ k.created ↔ _
    grind [Rep.created]

namespace Good

theorem removed (h : Good A k H live) (hrep : Rep A k' H') (hr : Removed c k k' H H') :
    Good A k' H' (live.filter (·.cache ≠ c)) := by
  have hmem : ∀ {a}, a ∈ H'.caches ↔ a ≠ c ∧ a ∈ H.caches := by
    rw [hr.heap]
    exact h.rep.nodup.mem_erase_iff
  refine ⟨hrep, h.small, fun a ha => ?_, fun o ho => ?_, h.distinct.filter _, fun a ha s hs x hx => ?_⟩
  · obtain ⟨hne, hold⟩ := hmem.mp ha
    obtain ⟨next, heq⟩ := hr.caches a hne
    rw [hr.pool a hne, heq]
    exact ⟨(h.counted a hold).numSlabs, (h.counted a hold).numAllocated⟩
  · obtain ⟨ho, hoc⟩ := List.mem_filter.mp ho
    have hne : o.cache ≠ c := by simpa using hoc
    have hkind := hr.kind hne
    obtain ⟨s, x, hl⟩ := h.located o ho
    refine ⟨s, x, hmem.mpr ⟨hne, hl.cache⟩, hkind.objectSize ▸ hl.size, ?_, hkind.slots s ▸ hl.slot,
      hl.obj, ?_⟩
    · rw [hr.pool _ hne]
      exact hl.slab
    · rw [hr.pool _ hne]
      exact hl.used
  · obtain ⟨hne, hold⟩ := hmem.mp ha
    rw [hr.pool a hne] at hs ⊢
    grind [Removed.kind, SameKind.slots, Good.accounted]

theorem kmemCacheDestroy_destructed (h : Good A k H live) (hc : c ∈ H.caches) :
    Outcome A.faults (kmemCacheDestroy c k) fun k' =>
      (∃ H', Good A k' H' (live.filter (·.cache ≠ c)) ∧ Removed c k k' H H') ∧
        k'.destructed = k.destructed ++ dtorCalls (k.caches c) (H.pool c).slabs := by
  have hfuel : ∀ {k' H'} (l : SlabList), Rep A k' H' → c ∈ H'.caches →
      ((H'.pool c).lists l).length < loopFuel := fun {k' H'} l hrep hc => by
    have hle := ((H'.pool c).length_lists_le l).trans (hrep.slabs_le hc)
    have hsmall := h.small
    unfold loopFuel
    omega
  unfold Slab.kmemCacheDestroy
  rw [if_neg (h.valid hc)]
  refine (h.rep.destroyLoop_destructed .slabsEmpty loopFuel hc rfl (hfuel _ h.rep hc)).bind ?_
  rintro k1 ⟨⟨H1, h1, hk1, hl1⟩, ht1⟩
  have hc1 : c ∈ H1.caches := hk1.heap ▸ hc
  refine (h1.destroyLoop_destructed .slabsPartial loopFuel hc1 rfl (hfuel _ h1 hc1)).bind ?_
  rintro k2 ⟨⟨H2, h2, hk2, hl2⟩, ht2⟩
  have hc2 : c ∈ H2.caches := hk2.heap ▸ hc1
  refine (h2.destroyLoop_destructed .slabsFull loopFuel hc2 rfl (hfuel _ h2 hc2)).bind ?_
  rintro k3 ⟨⟨H3, h3, hk3, hl3⟩, ht3⟩
  have hc3 : c ∈ H3.caches := hk3.heap ▸ hc2
  have hkept := (hk1.trans hk2).trans hk3
  have hempty : (H3.pool c).slabs = [] := by
    unfold Pool.slabs
    rw [hl3, hl2, hl1]
    rfl
  have hlen : H3.caches.length < loopFuel := by
    have hle := h3.caches_le
    have hsmall := h.small
    unfold loopFuel
    omega
  obtain ⟨head, next, hunlink, hchain⟩ := unlinkCache_spec h3.list hc3 hlen
  rw [hunlink]
  refine (Outcome.of_returns (h3.sound.free (mem_held_cache hc3))).bind fun b hb => ?_
  have hrep := h3.dropCache hc3 hempty hchain hb.1
  have hr : Removed c k (k3.dropCache c head next b) H ⟨H3.caches.erase c, H3.pool⟩ := by
    refine ⟨by rw [hkept.heap], hkept.pool, fun a ha => ⟨next a, ?_⟩, hkept.bufferCaches,
      hkept.allocatorInitialized⟩
    rw [dropCache_caches _ _ _ ha, hkept.caches a ha]
  refine ⟨⟨_, h.removed hrep hr, hr⟩, ?_⟩
  show k3.destructed = _
  rw [ht3, ht2, ht1, hk1.cache.dtorCalls, (hk1.trans hk2).cache.dtorCalls, hl2, hl1, Pool.slabs]
  simp only [dtorCalls_append, List.append_assoc]
  rfl

theorem kmemCacheDestroy (h : Good A k H live) (hc : c ∈ H.caches) :
    Outcome A.faults (kmemCacheDestroy c k) fun k' => ∃ H', Good A k' H' (live.filter (·.cache ≠ c)) ∧
      Removed c k k' H H' :=
  (h.kmemCacheDestroy_destructed hc).mono fun _ hk => hk.1

end Good

/-! ### Creating -/

def Pool.empty : Pool := ⟨fun _ => [], fun _ => []⟩

/-- A descriptor `d` at `p`, first on `cache_list`. -/
def Kmem.addCache (k : Kmem) (p : ℕ) (d : KmemCache) (b : Buddy.State) : Kmem :=
  {({k with buddy := b} : Kmem).setCache p fun _ => d with cacheList := p}

/-- What a new cache `p` leaves alone. -/
structure Added (p : ℕ) (k k' : Kmem) (H H' : Heap) : Prop where
  fresh : p ∉ H.caches
  heap : H'.caches = p :: H.caches
  pool : ∀ a ≠ p, H'.pool a = H.pool a
  caches : ∀ a ≠ p, k'.caches a = k.caches a
  bufferCaches : k'.bufferCaches = k.bufferCaches
  allocatorInitialized : k'.allocatorInitialized = k.allocatorInitialized

theorem Added.kept {k'' : Kmem} {H'' : Heap} (h : Added c k k' H H') (hk : Kept c k' k'' H' H'') :
    Added c k k'' H H'' :=
  ⟨h.fresh, hk.heap.trans h.heap, fun a ha => (hk.pool a ha).trans (h.pool a ha),
    fun a ha => (hk.caches a ha).trans (h.caches a ha), hk.bufferCaches.trans h.bufferCaches,
    hk.allocatorInitialized.trans h.allocatorInitialized⟩

section Adding

variable {p : ℕ} {d : KmemCache} {b : Buddy.State}

theorem addCache_self : (k.addCache p d b).caches p = d := update_self ..

theorem addCache_added (hb : Sound A ⟨b, (p, 1) :: held k H⟩) :
    Added p k (k.addCache p d b) H ⟨p :: H.caches, update H.pool p .empty⟩ := by
  refine ⟨fun hmem => ?_, rfl, fun a ha => update_of_ne ha _ _,
    fun a ha => update_of_ne ha _ _, rfl, rfl⟩
  exact (List.nodup_cons.mp hb.ledger.nodup).1 (mem_held_cache hmem)

theorem Rep.addCache (h : Rep A k H) (hp : p ≠ 0) (hb : Sound A ⟨b, (p, 1) :: held k H⟩)
    (hd : Descriptor d) (hslabs : d.slabs = fun _ => 0) (hnext : d.next = k.cacheList) :
    Rep A (k.addCache p d b) ⟨p :: H.caches, update H.pool p .empty⟩ := by
  have hadd := addCache_added (d := d) hb
  have hne : ∀ {a}, a ∈ H.caches → a ≠ p := fun ha heq => hadd.fresh (heq ▸ ha)
  have hself : update H.pool p .empty p = .empty := update_self ..
  refine ⟨?_, ⟨rfl, hp, ?_⟩, fun a ha => ?_, fun a ha l s hs hs0 => ?_, h.createdNodup, fun s a => ?_⟩
  · have hheld : held (k.addCache p d b) ⟨p :: H.caches, update H.pool p .empty⟩ =
        (p, 1) :: held k H := by
      unfold held
      rw [List.flatMap_cons, List.map_cons, List.cons_append]
      have hnone : slabsHeld (k.addCache p d b) ⟨p :: H.caches, update H.pool p .empty⟩ p =
          [] := by
        simp [slabsHeld, Pool.slabs, Pool.empty]
      rw [hnone, List.nil_append]
      congr 2
      refine List.flatMap_congr fun a ha => ?_
      unfold slabsHeld
      rw [hadd.pool a (hne ha), hadd.caches a (hne ha)]
    rw [hheld]
    exact hb
  · simp only [addCache_self, hnext]
    exact h.list.congr fun a ha => by rw [hadd.caches a (hne ha)]
  · rcases List.mem_cons.mp ha with rfl | ha
    · simp only [hself]
      refine ⟨addCache_self ▸ hd, ⟨fun l => ?_, fun hz => ?_⟩, fun s hs => ?_⟩
      · rw [addCache_self, hslabs]
        rfl
      · cases hz
      · cases hs
    · rw [hadd.pool a (hne ha)]
      exact (h.cache a ha).frame_eq (hadd.caches a (hne ha))
        (fun _ _ => ⟨⟨rfl, rfl, rfl, rfl, rfl⟩, rfl, rfl⟩) fun _ _ _ _ => ⟨rfl, rfl⟩
  · rcases List.mem_cons.mp ha with rfl | ha
    · simp only [hself] at hs
      cases hs
    · rw [hadd.pool a (hne ha)] at hs ⊢
      rw [hadd.caches a (hne ha)]
      exact h.settled a ha l s hs hs0
  · show (s, a) ∈ k.created ↔ _
    grind [Rep.created, Added.fresh, Added.pool, Pool.slabs, Pool.empty]

end Adding

namespace Good

theorem added {p : ℕ} (h : Good A k H live) (hrep : Rep A k' H') (ha : Added p k k' H H')
    (hempty : H'.pool p = .empty) (hs : (k'.caches p).numSlabs = 0)
    (hn : (k'.caches p).numAllocated = 0) : Good A k' H' live := by
  have hne : ∀ {a}, a ∈ H.caches → a ≠ p := fun hmem heq => ha.fresh (heq ▸ hmem)
  have hcases : ∀ {a}, a ∈ H'.caches → a = p ∨ a ∈ H.caches := by
    rw [ha.heap]
    exact List.mem_cons.mp
  refine ⟨hrep, h.small, fun a hmem => ?_, fun o ho => ?_, h.distinct, fun a hmem s hsl x hx => ?_⟩
  · rcases hcases hmem with rfl | hold
    · rw [hempty]
      exact ⟨hs, hn⟩
    · rw [ha.pool a (hne hold), ha.caches a (hne hold)]
      exact h.counted a hold
  · obtain ⟨s, x, hl⟩ := h.located o ho
    have ho' := hne hl.cache
    refine ⟨s, x, ?_, ?_, ?_, ?_, hl.obj, ?_⟩
    · rw [ha.heap]
      exact List.mem_cons_of_mem _ hl.cache
    · rw [ha.caches _ ho']
      exact hl.size
    · rw [ha.pool _ ho']
      exact hl.slab
    · rw [ha.caches _ ho']
      exact hl.slot
    · rw [ha.pool _ ho']
      exact hl.used
  · rcases hcases hmem with rfl | hold
    · rw [hempty] at hsl
      cases hsl
    · rw [ha.pool a (hne hold)] at hsl ⊢
      grind [Added.caches, Good.accounted]

theorem kmemCacheCreate {size : ℕ} (name : List Char) (ctor dtor : ℕ) (h : Good A k H live) :
    Outcome A.faults (kmemCacheCreate name size ctor dtor k) fun r => r = (0, k) ∨
      r.1 ≠ 0 ∧ (r.2.caches r.1).objectSize = size ∧
        ∃ H', Good A r.2 H' live ∧ Added r.1 k r.2 H H' := by
  unfold Slab.kmemCacheCreate
  split
  · exact .inl rfl
  split
  · exact .inl rfl
  rename_i hsize
  obtain ⟨hpos, hle⟩ := not_or.mp hsize
  refine (h.rep.sound.alloc (by norm_num)).bind ?_
  rintro ⟨p, b⟩ (hnull | ⟨hp, _, hb, _⟩)
  · cases hnull
    exact .inl rfl
  · have hp0 : p ≠ 0 := hp
    obtain ⟨j, _, hcalc⟩ := calculateSlabSize_eq size
    simp only [if_neg hp0, hcalc]
    have hd : Descriptor (initCache name size (2 ^ j) ctor dtor k.cacheList) :=
      ⟨rfl, Nat.pos_of_ne_zero hpos, not_lt.mp hle, rfl, hcalc, Nat.two_pow_pos 32⟩
    have hadd := addCache_added (d := initCache name size (2 ^ j) ctor dtor k.cacheList) hb
    have hrep := h.rep.addCache hp0 hb hd rfl rfl
    have h1 := h.added hrep hadd (update_self ..) (by rw [addCache_self]; rfl)
      (by rw [addCache_self]; rfl)
    have hsize : ∀ {k' H'}, Kept p (k.addCache p (initCache name size (2 ^ j) ctor dtor k.cacheList) b)
        k' ⟨p :: H.caches, update H.pool p .empty⟩ H' → (k'.caches p).objectSize = size := by
      intro k' H' hk
      rw [hk.cache.objectSize, addCache_self]
      rfl
    have hmem : p ∈ p :: H.caches := List.mem_cons_self ..
    refine (hrep.kmemCacheGrow hmem).bind ?_
    rintro ⟨grown, k'⟩ (hfail | ⟨_, s, hg⟩)
    · cases hfail
      obtain ⟨hgood, hkept⟩ := h1.fails p
      exact .inr ⟨hp0, hsize hkept, _, hgood, hadd.kept hkept⟩
    · obtain ⟨hgood, hkept⟩ := h1.grown hmem hg
      exact .inr ⟨hp0, hsize hkept, _, hgood, hadd.kept hkept⟩

end Good

end Xv6.Slab
