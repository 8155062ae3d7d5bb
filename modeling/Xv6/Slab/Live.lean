import Xv6.Slab.Ops

/-! The objects that callers hold.

`Good A k H live`: memory holds the heap `H`, its counters are right, each live
object is a slot in use of a slab of its cache, and every slot that is not free is a
live object. The operations on one cache keep this, with an object more or less. -/
namespace Xv6.Slab
open Function
open Linked
open Buddy (Arena)
open List (map_cons sum_cons length_cons mem_cons mem_cons_self mem_cons_of_mem pairwise_cons)

/-- An object that a caller holds: its address, its cache, and the bytes it may use. -/
structure Live where
  obj : ℕ
  cache : ℕ
  size : ℕ
  deriving DecidableEq, Repr

def taken (d : KmemCache) (P : Pool) : ℕ := (P.slabs.map fun s => capacity d - (P.free s).length).sum

structure Counted (d : KmemCache) (P : Pool) : Prop where
  numSlabs : d.numSlabs = P.slabs.length
  numAllocated : d.numAllocated = taken d P

/-- The live object is the slot `x` of slab `s`. -/
structure Located (k : Kmem) (H : Heap) (o : Live) (s x : ℕ) : Prop where
  cache : o.cache ∈ H.caches
  size : o.size ≤ (k.caches o.cache).objectSize
  slab : s ∈ (H.pool o.cache).slabs
  slot : x ∈ slots (k.caches o.cache) s
  obj : o.obj = x + sizeofObject
  used : x ∉ (H.pool o.cache).free s

structure Good (A : Arena) (k : Kmem) (H : Heap) (live : List Live) : Prop where
  rep : Rep A k H
  small : A.pages.card ≤ 2 ^ 14
  counted : ∀ c ∈ H.caches, Counted (k.caches c) (H.pool c)
  located : ∀ o ∈ live, ∃ s x, Located k H o s x
  distinct : live.Pairwise fun o o' => o.obj ≠ o'.obj
  /-- No slot is lost. -/
  accounted : ∀ c ∈ H.caches, ∀ s ∈ (H.pool c).slabs, ∀ x ∈ slots (k.caches c) s,
    x ∈ (H.pool c).free s ∨ ∃ o ∈ live, o.cache = c ∧ o.obj = x + sizeofObject

/-- What an operation on cache `c` leaves alone. -/
structure Kept (c : ℕ) (k k' : Kmem) (H H' : Heap) : Prop where
  heap : H'.caches = H.caches
  pool : ∀ a ≠ c, H'.pool a = H.pool a
  caches : ∀ a ≠ c, k'.caches a = k.caches a
  cache : SameType (k.caches c) (k'.caches c)
  cacheList : k'.cacheList = k.cacheList
  bufferCaches : k'.bufferCaches = k.bufferCaches
  allocatorInitialized : k'.allocatorInitialized = k.allocatorInitialized

variable {A : Arena} {k k' k'' : Kmem} {H H' H'' : Heap} {c s x : ℕ}
  {S : List ℕ} {P P' : Pool} {d d' : KmemCache} {live live' : List Live} {o : Live}

theorem Kept.refl (c : ℕ) (k : Kmem) (H : Heap) : Kept c k k H H :=
  ⟨rfl, fun _ _ => rfl, fun _ _ => rfl, .refl _, rfl, rfl, rfl⟩

theorem Kept.trans (h : Kept c k k' H H') (h' : Kept c k' k'' H' H'') : Kept c k k'' H H'' :=
  ⟨h'.heap.trans h.heap, fun a ha => (h'.pool a ha).trans (h.pool a ha),
    fun a ha => (h'.caches a ha).trans (h.caches a ha), h.cache.trans h'.cache,
    h'.cacheList.trans h.cacheList, h'.bufferCaches.trans h.bufferCaches,
    h'.allocatorInitialized.trans h.allocatorInitialized⟩

theorem Local.kept (h : Local c S k k') (H : Heap) (P : Pool) : Kept c k k' H (H.set c P) :=
  ⟨rfl, fun _ ha => H.set_pool_of_ne P ha, h.caches, h.cache, h.cacheList, h.bufferCaches,
    h.allocatorInitialized⟩

theorem Kept.type (h : Kept c k k' H H') (a : ℕ) : SameType (k.caches a) (k'.caches a) := by
  grind [Kept.cache, Kept.caches, SameType.refl]

/-! ### Counting -/

theorem taken_eq (hcap : capacity d' = capacity d) (hfree : P'.free = P.free)
    (hperm : P'.slabs.Perm P.slabs) : taken d' P' = taken d P := by
  unfold taken
  rw [hcap, hfree]
  exact (hperm.map _).sum_eq

theorem taken_update {free : List ℕ} (hcap : capacity d' = capacity d) (hnd : P.slabs.Nodup)
    (hs : s ∈ P.slabs) (hperm : P'.slabs.Perm P.slabs)
    (hfree : P'.free = update P.free s free) :
    taken d' P' + (capacity d - (P.free s).length) = taken d P + (capacity d - free.length) := by
  have hsplit := List.perm_cons_erase hs
  have hrest : (P.slabs.erase s).map (fun t => capacity d - (P'.free t).length) =
      (P.slabs.erase s).map fun t => capacity d - (P.free t).length := by
    refine List.map_congr_left fun t ht => ?_
    have hne : t ≠ s := fun heq => hnd.not_mem_erase (heq ▸ ht)
    rw [hfree, update_of_ne hne]
  have hself : (P'.free s).length = free.length := by rw [hfree, update_self]
  unfold taken
  rw [hcap, ((hperm.trans hsplit).map _).sum_eq, (hsplit.map _).sum_eq, map_cons, map_cons,
    sum_cons, sum_cons, hrest, hself]
  omega

theorem taken_le (d : KmemCache) (P : Pool) : taken d P ≤ P.slabs.length * capacity d := by
  unfold taken
  have hle := List.sum_le_card_nsmul (P.slabs.map fun s => capacity d - (P.free s).length) (capacity d)
    (fun n hn => by
      obtain ⟨s, _, rfl⟩ := List.mem_map.mp hn
      exact Nat.sub_le _ _)
  grind

theorem Located.set (h : Located k H o s x) (hk : Kept c k k' H (H.set c P))
    (hslab : o.cache = c → s ∈ P.slabs) (hused : o.cache = c → x ∉ P.free s) :
    Located k' (H.set c P) o s x := by
  have htype := hk.type o.cache
  refine ⟨h.cache, htype.objectSize ▸ h.size, ?_, htype.slots s ▸ h.slot, h.obj, ?_⟩
  · grind [Heap.set_pool_self, Heap.set_pool_of_ne, Located.slab, H.set_pool_self, H.set_pool_of_ne]
  grind [Heap.set_pool_self, Heap.set_pool_of_ne, Located.used, H.set_pool_self, H.set_pool_of_ne]

namespace Good

section
variable (h : Good A k H live)
include h

theorem slabs_le (hc : c ∈ H.caches) : (H.pool c).slabs.length ≤ 2 ^ 14 :=
  (h.rep.slabs_le hc).trans h.small

theorem taken_lt (hc : c ∈ H.caches) : taken (k.caches c) (H.pool c) < 2 ^ 31 := by
  have hcap := (h.rep.cache c hc).descriptor.capacity_lt
  calc taken (k.caches c) (H.pool c) ≤ (H.pool c).slabs.length * capacity (k.caches c) := taken_le _ _
    _ ≤ 2 ^ 14 * 2 ^ 16 := Nat.mul_le_mul (h.slabs_le hc) hcap.le
    _ < 2 ^ 31 := by decide

theorem slot_unique {c' s' : ℕ} (hc : c ∈ H.caches) (hc' : c' ∈ H.caches)
    (hs : s ∈ (H.pool c).slabs) (hs' : s' ∈ (H.pool c').slabs) (hx : x ∈ slots (k.caches c) s)
    (hx' : x ∈ slots (k.caches c') s') : s = s' ∧ c = c' :=
  h.rep.eq_of_mem_slabs hc hc' hs hs' (h.rep.slot_mem_slab hc hx) (h.rep.slot_mem_slab hc' hx')

theorem set (hrep : Rep A k' (H.set c P)) (hk : Kept c k k' H (H.set c P))
    (hcount : Counted (k'.caches c) P) (hloc : ∀ o ∈ live', ∃ s x, Located k' (H.set c P) o s x)
    (hdist : live'.Pairwise fun o o' => o.obj ≠ o'.obj)
    (hsub : ∀ o ∈ live, o.cache ≠ c → o ∈ live')
    (hacc : c ∈ H.caches → ∀ s ∈ P.slabs, ∀ x ∈ slots (k.caches c) s,
      x ∈ P.free s ∨ ∃ o ∈ live', o.cache = c ∧ o.obj = x + sizeofObject) :
    Good A k' (H.set c P) live' := by
  refine ⟨hrep, h.small, fun a ha => ?_, hloc, hdist, fun a ha s hs x hx => ?_⟩
  · by_cases hac : a = c
    · rw [hac, H.set_pool_self]
      exact hcount
    · rw [H.set_pool_of_ne P hac, hk.caches a hac]
      exact h.counted a ha
  · rw [(hk.type a).slots] at hx
    by_cases hac : a = c
    · subst hac
      rw [H.set_pool_self] at hs ⊢
      exact hacc ha s hs x hx
    · rw [H.set_pool_of_ne P hac] at hs ⊢
      refine (h.accounted a ha s hs x hx).imp_right ?_
      grind

theorem setCache {f : KmemCache → KmemCache} (hf : SameType (k.caches c) (f (k.caches c)))
    (hl : (f (k.caches c)).slabs = (k.caches c).slabs)
    (hs : (f (k.caches c)).numSlabs = (k.caches c).numSlabs)
    (ha : (f (k.caches c)).numAllocated = (k.caches c).numAllocated) :
    Good A (k.setCache c f) H live ∧ Kept c k (k.setCache c f) H H := by
  have hset : Kept c k (k.setCache c f) H (H.set c (H.pool c)) :=
    (inner_setCache (S := []) hf).toLocal.kept H _
  have hH : H.set c (H.pool c) = H := by simp [Heap.set]
  have hk := hset
  rw [hH] at hk
  have hself : (k.setCache c f).caches c = f (k.caches c) := update_self ..
  refine ⟨⟨h.rep.setCache hf hl, h.small, fun a ha' => ?_, fun o ho => ?_, h.distinct,
    fun a ha' s hs' x hx => ?_⟩, hk⟩
  · have hold := h.counted a ha'
    by_cases hac : a = c
    · subst hac
      refine ⟨?_, ?_⟩
      · rw [hself, hs, hold.numSlabs]
      · rw [hself, ha, hold.numAllocated, taken_eq hf.capacity rfl (.refl _)]
    · rw [hk.caches a hac]
      exact hold
  · obtain ⟨s, x, hlocated⟩ := h.located o ho
    rw [← hH]
    refine ⟨s, x, hlocated.set hset (fun hoc => ?_) fun hoc => ?_⟩
    · exact hoc ▸ hlocated.slab
    · exact hoc ▸ hlocated.used
  · rw [(hk.type a).slots] at hx
    exact h.accounted a ha' s hs' x hx

theorem fails (c : ℕ) : Good A (k.setCache c fun d => {d with errorState := 1}) H live ∧
    Kept c k (k.setCache c fun d => {d with errorState := 1}) H H :=
  h.setCache ⟨⟨rfl, rfl, rfl, rfl, rfl, rfl, rfl, id⟩, rfl⟩ rfl rfl rfl

theorem grown {p : ℕ} (hc : c ∈ H.caches) (hg : Rep.Grown A k k' H c p) :
    Good A k' (H.set c ((H.pool c).grow p (slots (k.caches c) p))) live ∧
      Kept c k k' H (H.set c ((H.pool c).grow p (slots (k.caches c) p))) := by
  have hk := hg.changed.kept H ((H.pool c).grow p (slots (k.caches c) p))
  have hold := h.counted c hc
  have hne : ∀ {t}, t ∈ (H.pool c).slabs → t ≠ p := fun ht heq => hg.fresh (heq ▸ ht)
  refine ⟨h.set hg.rep hk ⟨?_, ?_⟩ (fun o ho => ?_) h.distinct (fun o ho _ => ho)
    fun _ t ht y hy => ?_, hk⟩
  · have hle := h.slabs_le hc
    rw [hg.numSlabs, hold.numSlabs, uint32_succ (by omega), Pool.grow_slabs, length_cons]
  · have hzero : capacity (k'.caches c) - (slots (k.caches c) p).length = 0 := by
      rw [hk.cache.capacity, length_slots, Nat.sub_self]
    have hrest : ((H.pool c).slabs.map fun t => capacity (k'.caches c) -
        (((H.pool c).grow p (slots (k.caches c) p)).free t).length) =
        (H.pool c).slabs.map fun t => capacity (k.caches c) - ((H.pool c).free t).length := by
      refine List.map_congr_left fun t ht => ?_
      rw [(H.pool c).grow_free_of_ne _ (hne ht), hk.cache.capacity]
    rw [hg.numAllocated, hold.numAllocated]
    unfold taken
    rw [Pool.grow_slabs, map_cons, sum_cons, Pool.grow_free_self, hzero, hrest, Nat.zero_add]
  · obtain ⟨t, y, hlocated⟩ := h.located o ho
    refine ⟨t, y, hlocated.set hk (fun hoc => ?_) fun hoc => ?_⟩
    · grind [Pool.grow_slabs, Located.slab]
    · rw [(H.pool c).grow_free_of_ne _ (hne (hoc ▸ hlocated.slab))]
      exact hoc ▸ hlocated.used
  · rw [Pool.grow_slabs] at ht
    rcases mem_cons.mp ht with rfl | ht
    · rw [Pool.grow_free_self]
      exact .inl hy
    · rw [(H.pool c).grow_free_of_ne _ (hne ht)]
      exact h.accounted c hc t ht y hy

theorem take {xs : List ℕ} {n : ℕ} (hc : c ∈ H.caches)
    (hs : s ∈ (H.pool c).slabs) (hf : (H.pool c).free s = x :: xs)
    (he : Exchanged k k' c s (H.pool c) P xs (uint32 ((k.caches c).numAllocated + 1)))
    (hn : n ≤ (k.caches c).objectSize) :
    Good A k' (H.set c P) (⟨x + sizeofObject, c, n⟩ :: live) ∧ Kept c k k' H (H.set c P) := by
  have hk := he.inner.toLocal.kept H P
  have hrep := (h.rep.cache c hc).slab s hs
  have hcr := h.rep.cache c hc
  rw [hf] at hrep
  have hx := hrep.slots x (mem_cons_self ..)
  have hnot : x ∉ xs := (List.nodup_cons.mp hrep.chain.nodup).1
  have hfree : P.free s = xs := by rw [he.free, update_self]
  have hother : ∀ {t}, t ≠ s → P.free t = (H.pool c).free t := fun ht => by
    rw [he.free, update_of_ne ht]
  have hcap := hrep.length_le
  rw [length_cons] at hcap
  refine ⟨h.set (h.rep.exchanged hc he) hk ⟨?_, ?_⟩ (fun o ho => ?_) ?_
    (fun o ho _ => mem_cons_of_mem _ ho) fun _ t ht y hy => ?_, hk⟩
  · rw [he.numSlabs, (h.counted c hc).numSlabs, he.perm.length_eq]
  · have hsum := taken_update (d := k.caches c) he.inner.cache.capacity hcr.nodup hs he.perm he.free
    have hlt := h.taken_lt hc
    rw [hf, length_cons] at hsum
    rw [he.numAllocated, (h.counted c hc).numAllocated, uint32_succ (by omega)]
    omega
  · rcases mem_cons.mp ho with rfl | ho
    · refine ⟨s, x, hc, hk.cache.objectSize.symm ▸ hn, ?_, hk.cache.slots s ▸ hx, rfl, ?_⟩
      · rw [H.set_pool_self]
        exact he.perm.mem_iff.mpr hs
      · rw [H.set_pool_self, hfree]
        exact hnot
    · obtain ⟨t, y, hlocated⟩ := h.located o ho
      refine ⟨t, y, hlocated.set hk (fun hoc => ?_) fun hoc => ?_⟩
      · exact he.perm.mem_iff.mpr (hoc ▸ hlocated.slab)
      grind [Located.used]
  · refine pairwise_cons.mpr ⟨fun o ho heq => ?_, h.distinct⟩
    obtain ⟨t, y, hlocated⟩ := h.located o ho
    have hxy : y = x := by
      grind [Located.obj]
    obtain ⟨rfl, hoc⟩ := h.slot_unique hlocated.cache hc hlocated.slab hs hlocated.slot (hxy ▸ hx)
    refine hlocated.used ?_
    grind
  · have ht' := he.perm.mem_iff.mp ht
    rcases h.accounted c hc t ht' y hy with hmem | ⟨o, ho, hoc, hobj⟩
    · by_cases hts : t = s
      · rw [hts, hf] at hmem
        rw [hts, hfree]
        rcases mem_cons.mp hmem with rfl | hmem
        · exact .inr ⟨_, mem_cons_self .., rfl, rfl⟩
        · exact .inl hmem
      grind
    · exact .inr ⟨o, mem_cons_of_mem _ ho, hoc, hobj⟩

theorem put (ho : o ∈ live) (hl : Located k H o s x)
    (he : Exchanged k k' o.cache s (H.pool o.cache) P (x :: (H.pool o.cache).free s)
      (uint32 ((k.caches o.cache).numAllocated - 1))) :
    Good A k' (H.set o.cache P) (live.erase o) ∧ Kept o.cache k k' H (H.set o.cache P) := by
  have hc := hl.cache
  have hs := hl.slab
  have hk := he.inner.toLocal.kept H P
  have hcr := h.rep.cache _ hc
  have hrep := hcr.slab s hs
  have hperm := List.perm_cons_erase ho
  have hdist := (hperm.pairwise_iff (fun hne => Ne.symm hne)).mp h.distinct
  have hfree : P.free s = x :: (H.pool o.cache).free s := by rw [he.free, update_self]
  have hother : ∀ {t}, t ≠ s → P.free t = (H.pool o.cache).free t := fun ht => by
    rw [he.free, update_of_ne ht]
  have hcap : ((H.pool o.cache).free s).length < capacity (k.caches o.cache) := by
    have hsub : (x :: (H.pool o.cache).free s).Nodup :=
      List.nodup_cons.mpr ⟨hl.used, hrep.chain.nodup⟩
    have hle := (List.Nodup.subperm hsub (List.cons_subset.mpr ⟨hl.slot, hrep.slots⟩)).length_le
    rw [length_slots, length_cons] at hle
    exact hle
  refine ⟨h.set (h.rep.exchanged hc he) hk ⟨?_, ?_⟩ (fun o' ho' => ?_)
    (pairwise_cons.mp hdist).2 (fun o' ho' hne => ?_) fun _ t ht y hy => ?_, hk⟩
  · rw [he.numSlabs, (h.counted _ hc).numSlabs, he.perm.length_eq]
  · have hsum := taken_update (d := k.caches o.cache) he.inner.cache.capacity hcr.nodup hs he.perm
      he.free
    have hlt := h.taken_lt hc
    rw [length_cons] at hsum
    rw [he.numAllocated, (h.counted _ hc).numAllocated, uint32_pred (by omega) (by omega)]
    omega
  · have hne : o.obj ≠ o'.obj := (pairwise_cons.mp hdist).1 o' ho'
    obtain ⟨t, y, hlocated⟩ := h.located o' (List.mem_of_mem_erase ho')
    refine ⟨t, y, hlocated.set hk (fun hoc => ?_) fun hoc => ?_⟩
    · exact he.perm.mem_iff.mpr (hoc ▸ hlocated.slab)
    · have hused : y ∉ (H.pool o.cache).free t := hoc ▸ hlocated.used
      grind [Located.obj]
  · exact (List.mem_erase_of_ne fun heq => hne (congrArg Live.cache heq)).mpr ho'
  · have ht' := he.perm.mem_iff.mp ht
    rcases h.accounted _ hc t ht' y hy with hmem | ⟨o', ho', hoc, hobj⟩
    · refine .inl ?_
      by_cases hts : t = s
      · rw [hts] at hmem
        rw [hts, hfree]
        exact mem_cons_of_mem _ hmem
      · rw [hother hts]
        exact hmem
    · by_cases hoo : o' = o
      · have hyx : y = x := by
          rw [hoo, hl.obj] at hobj
          omega
        have hts := (h.slot_unique hc hc ht' hs hy (hyx ▸ hl.slot)).1
        rw [hts, hfree, hyx]
        exact .inl (mem_cons_self ..)
      · exact .inr ⟨o', (List.mem_erase_of_ne hoo).mpr ho', hoc, hobj⟩

theorem dropped (hc : c ∈ H.caches)
    (hs : s ∈ (H.pool c).lists .slabsEmpty) (hd : Rep.Dropped A k k' H c s .slabsEmpty) :
    Good A (k'.setCache c fun d => {d with numSlabs := uint32 (d.numSlabs - 1)})
        (H.set c ((H.pool c).drop .slabsEmpty s)) live ∧
      Kept c k (k'.setCache c fun d => {d with numSlabs := uint32 (d.numSlabs - 1)}) H
        (H.set c ((H.pool c).drop .slabsEmpty s)) := by
  have hsl : s ∈ (H.pool c).slabs := Pool.mem_slabs.mpr ⟨_, hs⟩
  have hcr := h.rep.cache c hc
  have hperm := Pool.drop_slabs hs
  have hset := (inner_setCache (k := k') (c := c) (S := (H.pool c).slabs)
    (f := fun d => {d with numSlabs := uint32 (d.numSlabs - 1)})
    ⟨⟨rfl, rfl, rfl, rfl, rfl, rfl, rfl, id⟩, rfl⟩).toLocal
  have hk := (hd.changed.trans hset).kept H ((H.pool c).drop .slabsEmpty s)
  have hfull : ((H.pool c).free s).length = capacity (k.caches c) := by
    have hl := h.rep.settled c hc _ s hs (hcr.ne_zero hsl)
    grind [listOf]
  have hall : ∀ x ∈ slots (k.caches c) s, x ∈ (H.pool c).free s := fun x hx => by
    have hsub := List.Nodup.subperm (hcr.slab s hsl).chain.nodup (hcr.slab s hsl).slots
    exact (hsub.perm_of_length_le (by rw [length_slots, hfull])).mem_iff.mpr hx
  obtain ⟨heads, hcache⟩ := hd.cache
  have hself : ((k'.setCache c fun d => {d with numSlabs := uint32 (d.numSlabs - 1)}).caches c) =
      {k.caches c with slabs := heads, numSlabs := uint32 ((k.caches c).numSlabs - 1)} := by
    refine (update_self ..).trans ?_
    simp only [hcache]
  have hlen := hperm.length_eq
  rw [length_cons] at hlen
  refine ⟨h.set (hd.rep.setCache ⟨⟨rfl, rfl, rfl, rfl, rfl, rfl, rfl, id⟩, rfl⟩ rfl) hk ⟨?_, ?_⟩
    (fun o ho => ?_) h.distinct (fun o ho _ => ho) fun _ t ht y hy => ?_, hk⟩
  · grind [Good.slabs_le, Good.counted, Counted.numSlabs, uint32_pred]
  · rw [hself]
    show (k.caches c).numAllocated = _
    rw [(h.counted c hc).numAllocated]
    show taken (k.caches c) (H.pool c) = taken _ ((H.pool c).drop .slabsEmpty s)
    unfold taken
    rw [(hperm.map _).sum_eq, map_cons, sum_cons, hfull, Nat.sub_self, Nat.zero_add]
    rfl
  · obtain ⟨t, y, hlocated⟩ := h.located o ho
    refine ⟨t, y, hlocated.set hk (fun hoc => ?_) fun hoc => hoc ▸ hlocated.used⟩
    have ht : t ∈ (H.pool c).slabs := hoc ▸ hlocated.slab
    refine (mem_cons.mp (hperm.mem_iff.mp ht)).resolve_left fun hts => hlocated.used ?_
    grind [Located.slot]
  · exact h.accounted c hc t (hperm.mem_iff.mpr (mem_cons_of_mem _ ht)) y hy

end

end Good

end Xv6.Slab
