import Xv6.LockOrder.Model

/-! The order in which the locks are taken.

`bcache.lock`, `ftable.lock` and `buffer_cache_lock` come before the lock of a cache, and that
before `cache_list_lock` and `buddy.lock`. Each function may be called by those who hold only
locks that come before the ones it takes (`Callable`). -/
namespace Xv6.LockOrder
open Locking

def Lock.rank : Lock → ℕ
  | bufferCacheLock | bcache | ftable => 0
  | cache _ => 1
  | cacheListLock | buddy => 2

theorem Lock.rank_lt (l : Lock) : l.rank < 3 := by
  cases l <;> simp [rank]

/-! ### `buddy.c` and slabs -/

theorem buddyAlloc_callable (numBlocks : ℤ) : Callable Lock.rank 2 (buddyAlloc numBlocks) := by
  refine .call fun t h => .ite (.done rfl) (.acquire h (.read fun _ => .ite (.release (.done rfl)) ?_))
  exact .read fun _ => .ite (.release (.done rfl)) (.read fun _ => .release (.done rfl))

theorem buddyFree_callable (ptr : ℕ) (numBlocks : ℤ) : Callable Lock.rank 2 (buddyFree ptr numBlocks) :=
  .call fun _ h => .ite (.done rfl) (.acquire h (.release (.done rfl)))

theorem kmemSlabCreate_callable : Callable Lock.rank 2 kmemSlabCreate :=
  .call fun t h => .read fun slabSize => buddyAlloc_callable slabSize t h

theorem kmemSlabDestroy_callable (slab : ℕ) : Callable Lock.rank 2 (kmemSlabDestroy slab) :=
  .call fun t h => .ite (.done rfl) (.read fun mem => .read fun slabSize => buddyFree_callable mem slabSize t h)

theorem kmemCacheGrow_callable : Callable Lock.rank 2 kmemCacheGrow :=
  .call fun t h => .keeps (kmemSlabCreate_callable t h) fun _ => .ite (.done rfl) (.done rfl)

theorem destroyNext_callable : Callable Lock.rank 2 destroyNext :=
  fun t h => .read fun slab => kmemSlabDestroy_callable slab t h

/-! ### Caches -/

theorem invalid_keeps (cachep : ℕ) (t : Thread Lock) : Keeps Lock.rank t (invalid cachep) :=
  .ite (.done rfl) (.read fun _ => .done rfl)

theorem findSlab_callable : Callable Lock.rank 2 findSlab := by
  refine fun t h => .read fun _ => .ite (.done rfl) (.read fun _ => .ite (.done rfl) ?_)
  exact .keeps (kmemCacheGrow_callable t h) fun _ => .ite (.done rfl) (.read fun _ => .done rfl)

theorem kmemCacheCreate_callable (size : ℕ) : Callable Lock.rank 1 (kmemCacheCreate size) := by
  refine .call fun t h => .read fun _ => .ite (.done rfl) (.ite (.done rfl) ?_)
  have h2 : t.Below Lock.rank 2 := h.mono (by decide)
  refine .keeps (buddyAlloc_callable 1 t h2) fun cache => .ite (.done rfl) (.create ?_)
  refine .acquire h2 (.release (.acquire h ?_))
  exact .keeps (kmemCacheGrow_callable _ (Thread.Below.acquire h)) fun _ => .release (.done rfl)

theorem kmemCacheAlloc_callable (cachep : ℕ) : Callable Lock.rank 1 (kmemCacheAlloc cachep) := by
  refine .call fun t h => .keeps (invalid_keeps cachep t) fun _ => .ite (.done rfl) (.acquire h ?_)
  refine .keeps (findSlab_callable _ (Thread.Below.acquire h)) fun slab => .ite (.release (.done rfl)) ?_
  exact .read fun _ => .ite (.release (.done rfl)) (.release (.done rfl))

theorem kmemCacheFree_callable (cachep objp : ℕ) : Callable Lock.rank 1 (kmemCacheFree cachep objp) := by
  refine .call fun t h => .keeps (invalid_keeps cachep t) fun _ => .ite (.done rfl) (.acquire h ?_)
  exact .read fun slab => .ite (.release (.done rfl)) (.release (.done rfl))

theorem kmemCacheShrink_callable (cachep : ℕ) : Callable Lock.rank 1 (kmemCacheShrink cachep) := by
  refine .call fun t h => .keeps (invalid_keeps cachep t) fun _ => .ite (.done rfl) (.acquire h ?_)
  refine .read fun grown => .ite (.release (.done rfl)) (.read fun slabsEmpty => ?_)
  exact .keeps (.loop (destroyNext_callable _ (Thread.Below.acquire h)) slabsEmpty) fun _ =>
    .read fun _ => .release (.done rfl)

theorem kmemCacheDestroy_callable (cachep : ℕ) : Callable Lock.rank 1 (kmemCacheDestroy cachep) := by
  refine .call fun t h => .keeps (invalid_keeps cachep t) fun _ => .ite (.done rfl) (.acquire h ?_)
  have hcache := Thread.Below.acquire (l := Lock.cache cachep) h
  have hloop := fun n => Keeps.loop (destroyNext_callable _ hcache) n
  refine .read fun slabsEmpty => .keeps (hloop slabsEmpty) fun _ => ?_
  refine .read fun slabsPartial => .keeps (hloop slabsPartial) fun _ => ?_
  refine .read fun slabsFull => .keeps (hloop slabsFull) fun _ => ?_
  -- `cache_list_lock` is taken under the lock of the cache.
  refine .acquire hcache (.release (.release ?_))
  exact .discard (Thread.Below.notMem h) (buddyFree_callable cachep 1 t (h.mono (by decide)))

theorem kmemCacheError_callable (cachep : ℕ) : Callable Lock.rank 1 (kmemCacheError cachep) := by
  refine .call fun t h => .keeps (invalid_keeps cachep t) fun _ => .ite (.done rfl) (.acquire h ?_)
  exact .read fun _ => .release (.done rfl)

/-! ### Callers of the caches -/

theorem kmalloc_callable (size : ℕ) : Callable Lock.rank 0 (kmalloc size) := by
  refine .call fun t h => .read fun _ => .ite (.done rfl) (.acquire h (.read fun bufferCache => ?_))
  have h1 : t.Below Lock.rank 1 := h.mono (by decide)
  refine .keeps (.whenever ?_) fun _ => .read fun cache =>
    .release (.ite (.done rfl) (kmemCacheAlloc_callable cache t h1))
  -- The lock is not held over `kmem_cache_create`.
  exact .release (.keeps (kmemCacheCreate_callable (roundedSize size) t h1) fun _ => .acquire h (.done rfl))

theorem kfree_callable (objp : ℕ) : Callable Lock.rank 0 (kfree objp) := by
  refine .call fun t h => .ite (.done rfl) (.acquire h (.read fun cache => ?_))
  exact .keeps (kmemCacheFree_callable cache objp _ (Thread.Below.acquire h)) fun _ => .release (.done rfl)

theorem bget_callable : Callable Lock.rank 0 bget := by
  refine .call fun t h => .acquire h (.read fun cached => .ite (.release (.done rfl)) ?_)
  refine .read fun unused => .ite (.release (.done rfl)) (.read fun bufCache => ?_)
  exact .keeps (kmemCacheAlloc_callable bufCache _ (Thread.Below.acquire h)) fun b =>
    .ite .panic (.release (.done rfl))

theorem freeBuffer_callable : Callable Lock.rank 1 freeBuffer :=
  fun t h => .read fun b => .read fun bufCache => kmemCacheFree_callable bufCache b t h

theorem brelse_callable : Callable Lock.rank 0 brelse := by
  refine .call fun t h => .read fun holding => .ite .panic (.acquire h (.read fun surplus => ?_))
  exact .keeps (.loop (freeBuffer_callable _ (Thread.Below.acquire h)) surplus) fun _ => .release (.done rfl)

theorem filealloc_callable : Callable Lock.rank 0 filealloc := by
  refine .call fun t h => .acquire h (.read fun fileCache => ?_)
  exact .keeps (kmemCacheAlloc_callable fileCache _ (Thread.Below.acquire h)) fun _ => .release (.done rfl)

theorem Call.body_keeps (c : Call) : Keeps Lock.rank .rest c.body := by
  have h : ∀ {r : ℕ}, (Thread.rest : Thread Lock).Below Lock.rank r := nofun
  cases c with
  | kmalloc size => exact .keeps (kmalloc_callable size _ h) fun _ => .done rfl
  | kfree objp => exact kfree_callable objp _ h
  | kmemCacheCreate size => exact .keeps (kmemCacheCreate_callable size _ h) fun _ => .done rfl
  | kmemCacheAlloc cachep => exact .keeps (kmemCacheAlloc_callable cachep _ h) fun _ => .done rfl
  | kmemCacheFree cachep objp => exact kmemCacheFree_callable cachep objp _ h
  | kmemCacheShrink cachep => exact .keeps (kmemCacheShrink_callable cachep _ h) fun _ => .done rfl
  | kmemCacheDestroy cachep => exact kmemCacheDestroy_callable cachep _ h
  | kmemCacheError cachep => exact .keeps (kmemCacheError_callable cachep _ h) fun _ => .done rfl
  | buddyAlloc numBlocks => exact .keeps (buddyAlloc_callable numBlocks _ h) fun _ => .done rfl
  | buddyFree ptr numBlocks => exact buddyFree_callable ptr numBlocks _ h
  | bget => exact .keeps (bget_callable _ h) fun _ => .done rfl
  | brelse => exact brelse_callable _ h
  | filealloc => exact .keeps (filealloc_callable _ h) fun _ => .done rfl

/-! ### Runs -/

/-- However the steps of any number of processes are interleaved, `acquire` and `release` pass their
checks: no process takes a lock it has, no processes wait for each other, and each call ends
with the locks that its process had when it began. A process in no call has none. -/
theorem locks_are_ordered (caches : ℕ → Bool) (cs : List (Label Call)) (hp : processes.Proper (boot caches) cs) :
    ∃ s, processes.run (boot caches) cs = .ok s ∧
      (∀ p l, l ∈ (s.thread p).held ↔ s.owner l = some p) ∧
      (∀ p l next, s.prog p = .act (.acquire l) next → s.owner l ≠ some p) ∧
      (∀ S : Set ℕ, S.Nonempty →
        ¬ ∀ p ∈ S, ∃ l next, s.prog p = .act (.acquire l) next ∧ ∃ q ∈ S, s.owner l = some q) ∧
      (∀ p next, s.prog p = .act .leave next → (s.thread p).frames.head? = some (s.thread p).held) ∧
      ∀ p, (s.prog p).isDone = true → (s.thread p).held = [] := by
  obtain ⟨s, hrun, h⟩ := Inv.run Call.body_keeps (Inv.start _) hp
  refine ⟨s, hrun, h.owner, fun p l next hprog howner => ?_, fun S hS hwait => ?_, fun p next hprog => (h.safe hprog).1,
    fun p hdone => ?_⟩
  · exact h.notMem hprog ((h.owner p l).mpr howner)
  · exact h.not_deadlocked Lock.rank_lt hwait hS
  · rw [h.rest_of_isDone hdone]
    rfl

instance (s : State Lock) (c : Label Call) : Decidable (processes.allowed s c) :=
  inferInstanceAs (Decidable ((threads Call.body).allowed s c))

/-- `kfree` has the lock of a cache when `bget`, which has `bcache.lock`, comes to need it. -/
def contending : List (Label Call) :=
  [.start 1 (.kfree 500), .go 1 0, .go 1 0, .go 1 7, .go 1 0, .go 1 1, .go 1 0] ++
    [.start 2 .bget, .go 2 0, .go 2 0, .go 2 0, .go 2 0, .go 2 7, .go 2 0, .go 2 1, .go 2 0, .go 2 0] ++
    [.go 1 9, .go 1 0, .go 2 0, .go 1 0, .go 1 0, .go 1 0, .go 2 5]

theorem locks_are_ordered_contending : processes.Proper (boot fun c => c == 7) contending ∧
    ∃ s, processes.run (boot fun c => c == 7) contending = .ok s ∧
      (∀ p l next, s.prog p = .act (.acquire l) next → s.owner l ≠ some p) ∧
      (∀ S : Set ℕ, S.Nonempty →
        ¬ ∀ p ∈ S, ∃ l next, s.prog p = .act (.acquire l) next ∧ ∃ q ∈ S, s.owner l = some q) ∧
      ∀ p, (s.prog p).isDone = true → (s.thread p).held = [] := by
  have hp : processes.Proper (boot fun c => c == 7) contending := by decide +kernel
  obtain ⟨s, hrun, -, hnew, hwait, -, hdone⟩ := locks_are_ordered (fun c => c == 7) contending hp
  exact ⟨hp, s, hrun, hnew, hwait, hdone⟩

end Xv6.LockOrder
