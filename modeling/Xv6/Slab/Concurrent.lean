import Xv6.Slab.Frame
import Xv6.Slab.Safety

/-! `kmalloc` by many processes at once.

`kmalloc` holds a lock over each of its sections and none between them: it looks for the
cache of the size class, makes one if there is none, stores it, and allocates from it.
Processes interleave at these sections (`sections`); without interruption they are the sequential
`kmalloc` (`kmalloc_alone`).

Between the test and the store another process may test, too: then the second store loses
the first cache (`kmalloc_two_caches`). In every other run each size class gets at most one
cache and keeps it (`kmalloc_oneCache`). -/
namespace Xv6.Slab
open Function
open Linked
open Buddy (buddyAlloc bootRegion)

/-! ### Sections of `kmem_cache_create` -/

/-- `kmem_cache_create` takes a page and fills in the descriptor, which no other process
knows yet. -/
def createPage (name : List Char) (size ctor dtor : ℕ) (k : Kmem) : Result (ℕ × Kmem) :=
  if k.allocatorInitialized = false then .ok (0, k)
  else if size = 0 ∨ size > maxBufferSize then .ok (0, k)
  else do
    let (cache, buddy) ← buddyAlloc 1 k.buddy
    let k := {k with buddy := buddy}
    if cache = 0 then return (0, k)
    let slabSize ← calculateSlabSize size
    return (cache, k.setCache cache fun _ => initCache name size slabSize ctor dtor 0)

/-- `kmem_cache_create` puts the descriptor on `cache_list`. -/
def linkCache (cache : ℕ) (k : Kmem) : Kmem :=
  {k.setCache cache fun d => {d with next := k.cacheList} with cacheList := cache}

theorem kmemCacheCreate_eq (name : List Char) (size ctor dtor : ℕ) (k : Kmem) :
    kmemCacheCreate name size ctor dtor k = (do
      let (cache, k) ← createPage name size ctor dtor k
      if cache = 0 then return (0, k)
      let (_, k) ← kmemCacheGrow cache (linkCache cache k)
      return (cache, k)) := by
  unfold kmemCacheCreate createPage
  split
  · rfl
  split
  · rfl
  cases hb : buddyAlloc 1 k.buddy with
  | error e => rfl
  | ok r =>
    obtain ⟨cache, buddy⟩ := r
    by_cases h0 : cache = 0
    · simp only [if_pos h0, pure_eq_ok, ok_bind, if_true]
    · dsimp only
      obtain ⟨j, _, hcalc⟩ := calculateSlabSize_eq size
      simp only [hcalc, ok_bind, pure_eq_ok, if_neg h0]
      simp only [linkCache, Kmem.setCache, update_self, update_idem]
      rfl

/-! ### Processes -/

inductive Pc where
  /-- Outside `kmalloc`; the last call returned `result`. -/
  | idle (result : ℕ)
  /-- Before the section that looks at `buffer_caches[index]`. -/
  | test (roundedSize index : ℕ)
  /-- In `kmem_cache_create`, before it takes a page. -/
  | create (roundedSize index : ℕ)
  /-- In `kmem_cache_create`, before the descriptor is on `cache_list`. -/
  | link (index cache : ℕ)
  /-- In `kmem_cache_create`, before it grows the cache. -/
  | grow (index cache : ℕ)
  /-- Before the section that stores to `buffer_caches[index]`. -/
  | store (index cache : ℕ)
  | alloc (cache : ℕ)
  deriving DecidableEq

namespace Pc

/-- The entry to which the process is going to store. -/
def target : Pc → Option ℕ
  | .create _ index | .link index _ | .grow index _ | .store index _ => some index
  | _ => none

/-- The cache that the process has made and not yet stored, with its index. -/
def created : Pc → Option (ℕ × ℕ)
  | .link index cache | .grow index cache => some (index, cache)
  | .store index cache => if cache = 0 then none else some (index, cache)
  | _ => none

end Pc

/-- The allocator, the processes, and the caches for buffers that were ever made, each with
its index. -/
structure Sys where
  kmem : Kmem
  pc : ℕ → Pc
  made : List (ℕ × ℕ)

inductive Event where
  | kmalloc (p size : ℕ)
  /-- Process `p` calls `kfree`, which is one section. -/
  | kfree (p objp : ℕ)
  /-- Process `p` runs the section before which it is. -/
  | next (p : ℕ)
  deriving DecidableEq

namespace Sys

def start (k : Kmem) : Sys := ⟨k, fun _ => .idle 0, []⟩

def goto (s : Sys) (p : ℕ) (pc : Pc) : Sys := {s with pc := update s.pc p pc}

/-- The section before which process `p` is. -/
def next (s : Sys) (p : ℕ) : Result Sys :=
  match s.pc p with
  | .idle _ => .ok s
  | .test size index =>
    if s.kmem.bufferCaches index = 0 then .ok (s.goto p (.create size index))
    else .ok (s.goto p (.alloc (s.kmem.bufferCaches index)))
  | .create size index => do
    let (cache, k) ← createPage (bufferName size) size 0 0 s.kmem
    if cache = 0 then return Sys.goto {s with kmem := k} p (.store index 0)
    return Sys.goto {s with kmem := k, made := (index, cache) :: s.made} p (.link index cache)
  | .link index cache =>
    .ok (Sys.goto {s with kmem := linkCache cache s.kmem} p (.grow index cache))
  | .grow index cache => do
    let (_, k) ← kmemCacheGrow cache s.kmem
    return Sys.goto {s with kmem := k} p (.store index cache)
  | .store index cache =>
    let k := {s.kmem with bufferCaches := update s.kmem.bufferCaches index cache}
    .ok (Sys.goto {s with kmem := k} p (if cache = 0 then .idle 0 else .alloc cache))
  | .alloc cache => do
    let (objp, k) ← kmemCacheAlloc cache s.kmem
    return Sys.goto {s with kmem := k} p (.idle objp)

def step (s : Sys) : Event → Result Sys
  | .kmalloc p size =>
    if s.kmem.allocatorInitialized = false ∨ size = 0 ∨ size > maxBufferSize then
      .ok (s.goto p (.idle 0))
    else do
      let roundedSize ← roundUpPow2 size
      let index ← getBufferCacheIndex roundedSize
      return s.goto p (.test roundedSize index)
  | .kfree _ objp => do
    let k ← kfree objp s.kmem
    return {s with kmem := k}
  | .next p => s.next p

def allowed (s : Sys) : Event → Prop
  | .kmalloc p _ | .kfree p _ => ∃ result, s.pc p = .idle result
  | .next _ => True

/-- The process does not find the entry null while another is on its way to store there. -/
def NoRace (s : Sys) : Event → Prop
  | .next p => ∀ size index, s.pc p = .test size index → s.kmem.bufferCaches index = 0 →
    ∀ q, (s.pc q).target ≠ some index
  | _ => True

end Sys

/-- Sections of `kmalloc` and `kfree`, of any processes in any order. -/
def sections : Protocol Fault Sys Event := ⟨Sys.step, Sys.allowed⟩

/-! ### What leaves `buffer_caches` alone -/

section Buffers

variable {k : Kmem} {x : ℕ}

theorem createPage_bufferCaches {name : List Char} {size ctor dtor : ℕ} :
    Returns (createPage name size ctor dtor k) fun r => r.2.bufferCaches = k.bufferCaches := by
  unfold createPage
  split
  · rfl
  split
  · rfl
  refine (returns_any _).bind fun r _ => ?_
  by_cases h0 : r.1 = 0
  · simp [h0]
  · simp only [if_neg h0]
    exact (returns_any _).bind fun _ _ => rfl

theorem kfree_bufferCaches : Returns (kfree x k) fun k' => k'.bufferCaches = k.bufferCaches := by
  unfold kfree
  dsimp only
  split
  · rfl
  · split
    · trivial
    · exact Frame.kmemCacheFree.bufferCaches

end Buffers

/-! ### One process alone -/

namespace Sys

variable {s : Sys} {p : ℕ}

@[simp] theorem goto_pc (pc : Pc) : (s.goto p pc).pc p = pc := update_self ..

@[simp] theorem goto_kmem (pc : Pc) : (s.goto p pc).kmem = s.kmem := rfl

/-- What process `p` and the allocator have come to after its next `n` sections. -/
def alone (p : ℕ) : ℕ → Sys → Result (Pc × Kmem)
  | 0, s => .ok (s.pc p, s.kmem)
  | n + 1, s => s.next p >>= alone p n

theorem alone_idle {r : ℕ} (h : s.pc p = .idle r) (n : ℕ) :
    s.alone p n = .ok (.idle r, s.kmem) := by
  induction n with
  | zero => rw [alone, h]
  | succ n ih =>
    rw [alone, next, h]
    exact ih

theorem alone_alloc {c : ℕ} (h : s.pc p = .alloc c) (n : ℕ) :
    s.alone p (n + 1) = (kmemCacheAlloc c s.kmem).map fun r => (.idle r.1, r.2) := by
  rw [alone, next, h]
  cases hc : kmemCacheAlloc c s.kmem with
  | error e => simp only [hc]; rfl
  | ok r =>
    simp only [hc, ok_bind, pure_eq_ok]
    exact alone_idle (goto_pc _) n

theorem alone_store {i c : ℕ} (h : s.pc p = .store i c) (n : ℕ) :
    s.alone p (n + 2) =
      (let k := {s.kmem with bufferCaches := update s.kmem.bufferCaches i c}
       if c = 0 then .ok (.idle 0, k)
       else (kmemCacheAlloc c k).map fun r => (.idle r.1, r.2)) := by
  rw [alone, next, h]
  by_cases h0 : c = 0
  · simp only [if_pos h0, ok_bind]
    exact alone_idle (goto_pc _) _
  · simp only [if_neg h0, ok_bind]
    exact alone_alloc (goto_pc _) n

/-- What is left of `kmalloc` once there is a cache to store. -/
def storeAndAlloc (i : ℕ) (r : ℕ × Kmem) : Result (Pc × Kmem) :=
  let k := {r.2 with bufferCaches := update r.2.bufferCaches i r.1}
  if r.1 = 0 then .ok (.idle 0, k) else (kmemCacheAlloc r.1 k).map fun r => (.idle r.1, r.2)

theorem alone_create {size i : ℕ} (h : s.pc p = .create size i) (n : ℕ) : s.alone p (n + 5) =
      kmemCacheCreate (bufferName size) size 0 0 s.kmem >>= storeAndAlloc i := by
  rw [alone, next, h, kmemCacheCreate_eq]
  cases hc : createPage (bufferName size) size 0 0 s.kmem with
  | error e => simp only [hc]; rfl
  | ok r =>
    obtain ⟨c, k⟩ := r
    simp only [hc, ok_bind, pure_eq_ok]
    by_cases h0 : c = 0
    · simp only [if_pos h0, ok_bind]
      exact alone_store (goto_pc _) (n + 2)
    · simp only [if_neg h0, ok_bind]
      -- The two sections that are left of `kmem_cache_create`.
      rw [alone, next, goto_pc]
      simp only [ok_bind]
      rw [alone, next, goto_pc]
      simp only [goto_kmem]
      cases hg : kmemCacheGrow c (linkCache c k) with
      | error e => rfl
      | ok r =>
        exact alone_store (goto_pc _) n

theorem alone_test {size i : ℕ} (h : s.pc p = .test size i) (n : ℕ) :
    s.alone p (n + 6) = (ensureBufferCache size i s.kmem >>= fun k =>
      if k.bufferCaches i = 0 then .ok (0, k) else kmemCacheAlloc (k.bufferCaches i) k).map
        fun r => (.idle r.1, r.2) := by
  rw [alone, next, h]
  unfold ensureBufferCache
  by_cases hb : s.kmem.bufferCaches i = 0
  · simp only [if_pos hb, ok_bind]
    rw [alone_create (goto_pc _) n]
    simp only [goto_kmem]
    cases hc : kmemCacheCreate (bufferName size) size 0 0 s.kmem with
    | error e => rfl
    | ok r =>
      simp only [ok_bind, pure_eq_ok, update_self, storeAndAlloc]
      split <;> rfl
  · simp only [if_neg hb, ok_bind]
    exact alone_alloc (goto_pc _) (n + 4)

end Sys

theorem kmalloc_alone (s : Sys) (p size : ℕ) : s.step (.kmalloc p size) >>= Sys.alone p 6 =
      (kmalloc size s.kmem).map fun r => (.idle r.1, r.2) := by
  unfold Sys.step kmalloc
  dsimp only
  split
  · exact Sys.alone_idle (Sys.goto_pc _) 6
  cases hr : roundUpPow2 size with
  | error e => rfl
  | ok r =>
    simp only [ok_bind]
    cases hi : getBufferCacheIndex r with
    | error e => rfl
    | ok i =>
      simp only [ok_bind, pure_eq_ok]
      exact Sys.alone_test (Sys.goto_pc _) 0

/-! ### Runs without a race -/

/-- An entry is null while a process is on its way to store there, and there is at most one
such process. A cache that was made is in its entry or with that process. -/
structure Exclusive (s : Sys) : Prop where
  entry : ∀ {q i}, (s.pc q).target = some i → s.kmem.bufferCaches i = 0
  one : ∀ {p q i}, (s.pc p).target = some i → (s.pc q).target = some i → p = q
  nonzero : ∀ {i c}, (i, c) ∈ s.made → c ≠ 0
  kept : ∀ {i c}, (i, c) ∈ s.made →
    s.kmem.bufferCaches i = c ∨ ∃ q, (s.pc q).created = some (i, c)
  distinct : s.made.Pairwise fun a b => a.1 ≠ b.1

theorem Pc.target_of_created {pc : Pc} {i c : ℕ} (h : pc.created = some (i, c)) :
    pc.target = some i := by
  cases pc with
  | link | grow =>
    cases h
    rfl
  | store j d =>
    rw [Pc.created] at h
    split at h <;> cases h
    rfl
  | idle | test | create | alloc => cases h

theorem exclusive_start (k : Kmem) : Exclusive (Sys.start k) where
  entry h := by cases h
  one h := by cases h
  nonzero h := by cases h
  kept h := by cases h
  distinct := .nil

namespace Exclusive

variable {s : Sys} {p : ℕ} {pc : Pc} {k : Kmem}

section
variable (h : Exclusive s)
include h

/-- A section that leaves `buffer_caches` alone and makes no cache: the process keeps what
it had made, and is on its way to the same entry or to none. -/
theorem goto (hk : k.bufferCaches = s.kmem.bufferCaches)
    (htarget : ∀ i, pc.target = some i → (s.pc p).target = some i)
    (hcreated : ∀ i c, c ≠ 0 → (s.pc p).created = some (i, c) → pc.created = some (i, c)) :
    Exclusive (Sys.goto {s with kmem := k} p pc) := by
  have hback : ∀ {q i}, (update s.pc p pc q).target = some i →
      (s.pc q).target = some i := by
    intro q i hq
    by_cases hqp : q = p
    · grind
    · rwa [update_of_ne hqp] at hq
  refine ⟨fun hq => ?_, fun hp hq => h.one (hback hp) (hback hq), h.nonzero, fun hm => ?_,
    h.distinct⟩
  · exact (congrFun hk _).trans (h.entry (hback hq))
  · rcases h.kept hm with he | ⟨q, hq⟩
    · exact .inl ((congrFun hk _).trans he)
    · refine .inr ⟨q, ?_⟩
      show (update s.pc p pc q).created = _
      by_cases hqp : q = p
      · subst hqp
        rw [update_self]
        exact hcreated _ _ (h.nonzero hm) hq
      · rwa [update_of_ne hqp]

theorem withKmem (hk : k.bufferCaches = s.kmem.bufferCaches) : Exclusive {s with kmem := k} :=
  ⟨fun hq => (congrFun hk _).trans (h.entry hq), h.one, h.nonzero,
    fun hm => (h.kept hm).imp_left (congrFun hk _).trans, h.distinct⟩

/-- A process that had made nothing goes on its way to a null entry to which no other is. -/
theorem sets_out {i size : ℕ} (hcreated : (s.pc p).created = none)
    (hb : s.kmem.bufferCaches i = 0) (hfree : ∀ q, (s.pc q).target ≠ some i) :
    Exclusive (s.goto p (.create size i)) := by
  have hback : ∀ {q j}, (update s.pc p (.create size i) q).target = some j →
      q = p ∧ j = i ∨ q ≠ p ∧ (s.pc q).target = some j := by
    intro q j hq
    by_cases hqp : q = p
    · subst hqp
      rw [update_self] at hq
      cases hq
      exact .inl ⟨rfl, rfl⟩
    · grind
  refine ⟨fun hq => ?_, fun {a b j} ha hb' => ?_, h.nonzero, fun hm => ?_, h.distinct⟩
  · rcases hback hq with ⟨_, rfl⟩ | ⟨_, hq⟩
    · exact hb
    · exact h.entry hq
  · rcases hback ha with ⟨hap, hja⟩ | ⟨_, ha'⟩ <;> rcases hback hb' with ⟨hbp, hjb⟩ | ⟨_, hb'⟩
    · exact hap.trans hbp.symm
    · exact absurd (hja ▸ hb') (hfree b)
    · exact absurd (hjb ▸ ha') (hfree a)
    · exact h.one ha' hb'
  · refine (h.kept hm).imp_right fun ⟨q, hq⟩ => ⟨q, ?_⟩
    have hqp : q ≠ p := by
      grind
    show (update s.pc p _ q).created = _
    rwa [update_of_ne hqp]

theorem makes {i c : ℕ} (hk : k.bufferCaches = s.kmem.bufferCaches)
    (ht : (s.pc p).target = some i) (hcreated : (s.pc p).created = none) (h0 : c ≠ 0) :
    Exclusive (Sys.goto {s with kmem := k, made := (i, c) :: s.made} p (.link i c)) := by
  have hgo : Exclusive (Sys.goto {s with kmem := k} p (.link i c)) :=
    h.goto hk (fun j hj => hj ▸ ht) fun _ _ _ hx => by cases hcreated.symm.trans hx
  refine ⟨hgo.entry, hgo.one, fun hm => ?_, fun hm => ?_, ?_⟩
  · rcases List.mem_cons.mp hm with he | hm
    · cases he
      exact h0
    · exact h.nonzero hm
  · rcases List.mem_cons.mp hm with he | hm
    · cases he
      exact .inr ⟨p, by rw [Sys.goto_pc]; rfl⟩
    · exact hgo.kept hm
  · refine List.pairwise_cons.mpr ⟨?_, h.distinct⟩
    rintro ⟨j, d⟩ hm hij
    obtain rfl : i = j := hij
    rcases h.kept hm with he | ⟨q, hq⟩
    · exact h.nonzero hm (he.symm.trans (h.entry ht))
    grind [Exclusive.one, Pc.target_of_created]

theorem stores {i c : ℕ} (hpc : s.pc p = .store i c) (htarget : pc.target = none) :
    Exclusive (Sys.goto {s with kmem := {s.kmem with
      bufferCaches := update s.kmem.bufferCaches i c}} p pc) := by
  have ht : (s.pc p).target = some i := by rw [hpc]; rfl
  have hback : ∀ {q j}, (update s.pc p pc q).target = some j →
      q ≠ p ∧ (s.pc q).target = some j := by
    intro q j hq
    by_cases hqp : q = p
    · grind
    · rw [update_of_ne hqp] at hq
      exact ⟨hqp, hq⟩
  refine ⟨fun {q j} hq => ?_, fun ha hb => h.one (hback ha).2 (hback hb).2, h.nonzero,
    fun {j d} hm => ?_, h.distinct⟩
  · obtain ⟨hqp, hq⟩ := hback hq
    have hji : j ≠ i := fun hji => hqp (h.one (hji ▸ hq) ht)
    exact (update_of_ne hji ..).trans (h.entry hq)
  · show update s.kmem.bufferCaches i c j = d ∨
      ∃ q, (update s.pc p pc q).created = some (j, d)
    by_cases hji : j = i
    · subst hji
      rw [update_self]
      rcases h.kept hm with he | ⟨q, hq⟩
      · exact absurd (he.symm.trans (h.entry ht)) (h.nonzero hm)
      grind [Exclusive.one, Pc.target_of_created, Pc.created]
    · rw [update_of_ne hji]
      refine (h.kept hm).imp_right fun ⟨q, hq⟩ => ⟨q, ?_⟩
      have hqp : q ≠ p := by
        rintro rfl
        exact hji (Option.some.inj ((Pc.target_of_created hq).symm.trans ht))
      rwa [update_of_ne hqp]

/-- A section keeps the invariant, and every entry that is not null. -/
def Next (s s' : Sys) : Prop :=
  Exclusive s' ∧ ∀ i, s.kmem.bufferCaches i ≠ 0 → s'.kmem.bufferCaches i = s.kmem.bufferCaches i

theorem next (hrace : s.NoRace (.next p)) : Returns (s.next p) (Next s) := by
  unfold Sys.next
  cases hpc : s.pc p with
  | idle r => exact ⟨h, fun _ _ => rfl⟩
  | test size i =>
    dsimp only
    split
    case isTrue hb =>
      exact ⟨h.sets_out (by rw [hpc]; rfl) hb (hrace size i hpc hb), fun _ _ => rfl⟩
    case isFalse hb =>
      exact ⟨h.goto rfl (fun _ hj => by cases hj) (fun _ _ _ hx => by rw [hpc] at hx; cases hx),
        fun _ _ => rfl⟩
  | create size i =>
    refine createPage_bufferCaches.bind ?_
    rintro ⟨c, k⟩ hk
    have ht : (s.pc p).target = some i := by rw [hpc]; rfl
    dsimp only
    split
    case isTrue h0 =>
      exact ⟨h.goto hk (fun _ hj => hj ▸ ht) (fun _ _ _ hx => by rw [hpc] at hx; cases hx),
        fun j _ => congrFun hk j⟩
    case isFalse h0 =>
      exact ⟨h.makes hk ht (by rw [hpc]; rfl) h0, fun j _ => congrFun hk j⟩
  | link i c =>
    refine ⟨h.goto rfl (fun _ hj => by rw [hpc]; exact hj) fun _ _ _ hx => ?_, fun _ _ => rfl⟩
    rwa [hpc] at hx
  | grow i c =>
    refine Frame.kmemCacheGrow.bind fun r hk => ?_
    refine ⟨h.goto hk.bufferCaches (fun _ hj => by rw [hpc]; exact hj) fun _ _ h0 hx => ?_,
      fun j _ => congrFun hk.bufferCaches j⟩
    rw [hpc] at hx
    cases hx
    exact if_neg h0
  | store i c =>
    refine ⟨h.stores hpc (by split <;> rfl), fun j hj => update_of_ne ?_ ..⟩
    rintro rfl
    exact hj (h.entry (q := p) (by rw [hpc]; rfl))
  | alloc c =>
    refine Frame.kmemCacheAlloc.bind fun r hk => ?_
    exact ⟨h.goto hk.bufferCaches (fun _ hj => by cases hj) (fun _ _ _ hx => by rw [hpc] at hx; cases hx),
      fun j _ => congrFun hk.bufferCaches j⟩

theorem step {e : Event} (ha : s.allowed e) (hrace : s.NoRace e) : Returns (s.step e) (Next s) := by
  cases e with
  | next p => exact h.next hrace
  | kfree p objp =>
    refine kfree_bufferCaches.bind fun k hk => ?_
    exact ⟨h.withKmem hk, fun j _ => congrFun hk j⟩
  | kmalloc p size =>
    obtain ⟨r, hpc⟩ := ha
    have hgo : ∀ {pc : Pc}, pc.target = none → Next s (s.goto p pc) := fun ht =>
      ⟨h.goto rfl (fun _ hj => by cases ht.symm.trans hj)
        (fun _ _ _ hx => by rw [hpc] at hx; cases hx), fun _ _ => rfl⟩
    unfold Sys.step
    dsimp only
    split
    · exact hgo rfl
    · exact (returns_any _).bind fun _ _ => (returns_any _).bind fun _ _ => hgo rfl

theorem run {es : List Event}
    (hp : (sections.restrict Sys.NoRace).Proper s es) : Returns (sections.run s es) (Next s) := by
  rw [← Protocol.restrict_run Sys.NoRace]
  refine Protocol.run_outcome (I := Next s) (fun e _ t ht hall => ?_) ⟨h, fun _ _ => rfl⟩ hp
  refine (ht.1.step hall.1 hall.2).mono fun t' ht' => ⟨ht'.1, fun i hi => ?_⟩
  exact (ht'.2 i (by rwa [ht.2 i hi])).trans (ht.2 i hi)

end

end Exclusive

/-- In every run from processes outside `kmalloc` in which no process finds an entry null
while another is on its way to store there, at most one cache is made for an index, an
entry that is not null never changes again, and a cache that was made is in its entry or
still with the process that made it. -/
theorem kmalloc_oneCache (k : Kmem) {es : List Event} {s : Sys}
    (hp : (sections.restrict Sys.NoRace).Proper (Sys.start k) es)
    (hrun : sections.run (Sys.start k) es = .ok s) :
    s.made.Pairwise (fun a b => a.1 ≠ b.1) ∧
    (∀ i, s.kmem.bufferCaches i ≠ 0 → ∀ es' s', (sections.restrict Sys.NoRace).Proper s es' →
      sections.run s es' = .ok s' → s'.kmem.bufferCaches i = s.kmem.bufferCaches i) ∧
    ∀ i c, (i, c) ∈ s.made →
      s.kmem.bufferCaches i = c ∨ ∃ p, (s.pc p).created = some (i, c) := by
  have hs := (exclusive_start k).run hp
  rw [hrun] at hs
  refine ⟨hs.1.distinct, fun i hi es' s' hp' hrun' => ?_, fun _ _ => hs.1.kept⟩
  have hs' := hs.1.run hp'
  rw [hrun'] at hs'
  exact hs'.2 i hi

/-- Process 1 looks at the entry after process 0 has stored its cache there. -/
def oneAfterTheOther : List Event :=
  [.kmalloc 0 32, .next 0, .next 0, .next 0, .next 0, .next 0, .kmalloc 1 32, .next 1]

theorem oneAfterTheOther_noRace : ∃ k s, kmemInit bootRegion.start 1024 blank.zeroed = .ok k ∧
      (sections.restrict Sys.NoRace).Proper (Sys.start k) oneAfterTheOther ∧
      sections.run (Sys.start k) oneAfterTheOther = .ok s := by
  refine ⟨_, _, rfl, ?_, rfl⟩
  refine ⟨⟨⟨0, rfl⟩, trivial⟩, fun _ hs => ?_⟩
  cases hs
  refine ⟨⟨trivial, fun size i hpc _ q => ?_⟩, fun _ hs => ?_⟩
  · show (update (fun _ => Pc.idle 0) 0 (Pc.test 32 0) q).target ≠ _
    by_cases hq : q = 0
    · rw [hq, update_self]
      exact Option.some_ne_none _ |>.symm
    · rw [update_of_ne hq]
      exact Option.some_ne_none _ |>.symm
  cases hs
  refine ⟨⟨trivial, fun _ _ hpc => by cases hpc⟩, fun _ hs => ?_⟩
  cases hs
  refine ⟨⟨trivial, fun _ _ hpc => by cases hpc⟩, fun _ hs => ?_⟩
  cases hs
  refine ⟨⟨trivial, fun _ _ hpc => by cases hpc⟩, fun _ hs => ?_⟩
  cases hs
  refine ⟨⟨trivial, fun _ _ hpc => by cases hpc⟩, fun _ hs => ?_⟩
  cases hs
  refine ⟨⟨⟨0, rfl⟩, trivial⟩, fun _ hs => ?_⟩
  cases hs
  refine ⟨⟨trivial, fun size i hpc hb => ?_⟩, fun _ _ => trivial⟩
  cases hpc
  exact absurd hb (by decide)

theorem kmalloc_oneCache_boot : ∃ k s, kmemInit bootRegion.start 1024 blank.zeroed = .ok k ∧
      sections.run (Sys.start k) oneAfterTheOther = .ok s ∧
      s.made.Pairwise (fun a b => a.1 ≠ b.1) ∧
      (∀ i, s.kmem.bufferCaches i ≠ 0 → ∀ es' s', (sections.restrict Sys.NoRace).Proper s es' →
        sections.run s es' = .ok s' → s'.kmem.bufferCaches i = s.kmem.bufferCaches i) ∧
      ∀ i c, (i, c) ∈ s.made →
        s.kmem.bufferCaches i = c ∨ ∃ p, (s.pc p).created = some (i, c) := by
  obtain ⟨k, s, hk, hp, hrun⟩ := oneAfterTheOther_noRace
  exact ⟨k, s, hk, hrun, kmalloc_oneCache k hp hrun⟩

/-- Both processes look at the entry before either stores; process 0 stores first. -/
def bothLook : List Event :=
  [.kmalloc 0 32, .kmalloc 1 32, .next 0, .next 1, .next 0, .next 0, .next 0, .next 0]

/-- Two processes make their first `kmalloc` of a size class after booting, and both look at
the entry before either stores. Two caches are made for the index, and the second store
replaces the first cache, which is then in no entry. -/
theorem kmalloc_two_caches : ∃ k s s', kmemInit bootRegion.start 1024 blank.zeroed = .ok k ∧
      sections.Proper (Sys.start k) bothLook ∧ sections.run (Sys.start k) bothLook = .ok s ∧
      sections.Proper s (List.replicate 4 (.next 1)) ∧
      sections.run s (List.replicate 4 (.next 1)) = .ok s' ∧
      s.kmem.bufferCaches 0 ≠ 0 ∧ s'.kmem.bufferCaches 0 ≠ s.kmem.bufferCaches 0 ∧
      (0, s.kmem.bufferCaches 0) ∈ s'.made ∧ (0, s'.kmem.bufferCaches 0) ∈ s'.made ∧
      ∀ i < numBufferCaches, s'.kmem.bufferCaches i ≠ s.kmem.bufferCaches 0 := by
  refine ⟨_, _, _, rfl, ?_, rfl, ?_, rfl, by decide, by decide, by decide, by decide, by decide⟩
  · refine ⟨⟨0, rfl⟩, fun _ hs => ?_⟩
    cases hs
    refine ⟨⟨0, rfl⟩, fun _ _ => ?_⟩
    exact ⟨trivial, fun _ _ => ⟨trivial, fun _ _ => ⟨trivial, fun _ _ => ⟨trivial, fun _ _ =>
      ⟨trivial, fun _ _ => ⟨trivial, fun _ _ => trivial⟩⟩⟩⟩⟩⟩
  · exact ⟨trivial, fun _ _ => ⟨trivial, fun _ _ => ⟨trivial, fun _ _ => ⟨trivial, fun _ _ =>
      trivial⟩⟩⟩⟩

end Xv6.Slab
