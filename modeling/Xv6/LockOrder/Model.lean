import Xv6.Locking.Threads
import Xv6.Slab.Model

/-! The locks that the allocator and its callers take.

The functions of `slab.c` and `buddy.c`, and `bget`, `brelse` and `filealloc`, with all the paths on
which they take and give back their spin locks. What they find in memory is read anew at each
place, since other processes may have changed it, and is left open: null pointers are `0`. -/
namespace Xv6.LockOrder
open Locking
open Slab (maxBufferSize sizeofObject)

inductive Lock where
  | bufferCacheLock
  | cacheListLock
  /-- The lock of the cache at an address. -/
  | cache (cachep : ℕ)
  | buddy
  | bcache
  | ftable
  deriving DecidableEq, Repr

/-! ### `buddy.c` -/

def buddyAlloc (numBlocks : ℤ) : Prog Lock ℕ := call do
  if numBlocks < 1 then return 0
  acquire .buddy
  let tooLarge ← read -- `order > buddy.max_order`
  if tooLarge ≠ 0 then
    release .buddy
    return 0
  let notFound ← read -- `found_order > buddy.max_order`
  if notFound ≠ 0 then
    release .buddy
    return 0
  let block ← read
  release .buddy
  return block

def buddyFree (ptr : ℕ) (numBlocks : ℤ) : Prog Lock Unit := call do
  if ptr = 0 ∨ numBlocks < 1 then return
  acquire .buddy
  release .buddy

/-! ### Slabs -/

def kmemSlabCreate : Prog Lock ℕ := call do
  let slabSize ← read
  let mem ← buddyAlloc slabSize
  return mem

def kmemSlabDestroy (slab : ℕ) : Prog Lock Unit := call do
  if slab = 0 then return
  let mem ← read
  let slabSize ← read
  buddyFree mem slabSize

def kmemCacheGrow : Prog Lock ℤ := call do
  let slab ← kmemSlabCreate
  if slab = 0 then return -1
  return 0

/-! ### Caches -/

/-- The page from `buddy_alloc` becomes a cache with a lock of its own (`initlock`). -/
def kmemCacheCreate (size : ℕ) : Prog Lock ℕ := call do
  let allocatorInitialized ← read
  if allocatorInitialized = 0 then return 0
  if size = 0 ∨ size > maxBufferSize then return 0
  let cache ← buddyAlloc 1
  if cache = 0 then return 0
  create (.cache cache)
  acquire .cacheListLock
  release .cacheListLock
  acquire (.cache cache)
  let _ ← kmemCacheGrow
  release (.cache cache)
  return cache

/-- Whether a cache is invalid: `!cachep || cachep->error_detection != SLAB_ERR_DETECT` -/
def invalid (cachep : ℕ) : Prog Lock Bool := do
  if cachep = 0 then return true
  let detected ← read
  return detected = 0

/-- The first slab that is partly or wholly free; else the cache grows by one. -/
def findSlab : Prog Lock ℕ := do
  let slabsPartial ← read
  if slabsPartial ≠ 0 then return slabsPartial
  let slabsEmpty ← read
  if slabsEmpty ≠ 0 then return slabsEmpty
  let grown ← kmemCacheGrow
  if grown < 0 then return 0
  read

def kmemCacheAlloc (cachep : ℕ) : Prog Lock ℕ := call do
  let bad ← invalid cachep
  if bad then return 0
  acquire (.cache cachep)
  let slab ← findSlab
  if slab = 0 then
    release (.cache cachep)
    return 0
  let freeList ← read
  if freeList = 0 then
    release (.cache cachep)
    return 0
  release (.cache cachep)
  return freeList + sizeofObject

def kmemCacheFree (cachep objp : ℕ) : Prog Lock Unit := call do
  let bad ← invalid cachep
  if bad ∨ objp = 0 then return
  acquire (.cache cachep)
  let slab ← read
  if slab = 0 then
    release (.cache cachep)
    return
  release (.cache cachep)

/-- A slab is taken from one of the lists and destroyed. -/
def destroyNext : Prog Lock Unit := do
  let slab ← read
  kmemSlabDestroy slab

def kmemCacheShrink (cachep : ℕ) : Prog Lock ℤ := call do
  let bad ← invalid cachep
  if bad then return -1
  acquire (.cache cachep)
  let grown ← read -- `cachep->num_grown > cachep->last_shrink_state`
  if grown ≠ 0 then
    release (.cache cachep)
    return 0
  let slabsEmpty ← read
  loop slabsEmpty destroyNext
  let blocksFreed ← read
  release (.cache cachep)
  return blocksFreed

/-- In the end the page of the cache goes back to the buddy allocator, with the lock in it. -/
def kmemCacheDestroy (cachep : ℕ) : Prog Lock Unit := call do
  let bad ← invalid cachep
  if bad then return
  acquire (.cache cachep)
  let slabsEmpty ← read
  loop slabsEmpty destroyNext
  let slabsPartial ← read
  loop slabsPartial destroyNext
  let slabsFull ← read
  loop slabsFull destroyNext
  acquire .cacheListLock
  release .cacheListLock
  release (.cache cachep)
  discard (.cache cachep)
  buddyFree cachep 1

def kmemCacheError (cachep : ℕ) : Prog Lock ℕ := call do
  let bad ← invalid cachep
  if bad then return 1
  acquire (.cache cachep)
  let error ← read
  release (.cache cachep)
  return error

/-! ### Buffers of any size -/

def roundedSize (size : ℕ) : ℕ := (Slab.roundUpPow2 size).toOption.getD 0

/-- `kmalloc` gives the lock back while it makes a cache. -/
def createBufferCache (size : ℕ) : Prog Lock Unit := do
  release .bufferCacheLock
  let _ ← kmemCacheCreate (roundedSize size)
  acquire .bufferCacheLock

def kmalloc (size : ℕ) : Prog Lock ℕ := call do
  let allocatorInitialized ← read
  if allocatorInitialized = 0 ∨ size = 0 ∨ size > maxBufferSize then return 0
  acquire .bufferCacheLock
  let bufferCache ← read
  whenever (bufferCache = 0) (createBufferCache size)
  let cache ← read
  release .bufferCacheLock
  if cache = 0 then return 0
  kmemCacheAlloc cache

def kfree (objp : ℕ) : Prog Lock Unit := call do
  if objp = 0 then return
  acquire .bufferCacheLock
  let cache ← read -- `object->slab->cache`
  kmemCacheFree cache objp
  release .bufferCacheLock

/-! ### `bio.c` and `file.c` -/

/-- Up to `acquiresleep`, which is called without any of the locks. -/
def bget : Prog Lock ℕ := call do
  acquire .bcache
  let cached ← read
  if cached ≠ 0 then
    release .bcache
    return cached
  let unused ← read
  if unused ≠ 0 then
    release .bcache
    return unused
  let bufCache ← read
  let b ← kmemCacheAlloc bufCache
  if b = 0 then .panic "bget: no memory"
  release .bcache
  return b

/-- A buffer beyond the first `NBUF` is freed. -/
def freeBuffer : Prog Lock Unit := do
  let t ← read
  let bufCache ← read
  kmemCacheFree bufCache t

def brelse : Prog Lock Unit := call do
  let holding ← read -- `holdingsleep(&b->lock)`
  if holding = 0 then .panic "brelse"
  acquire .bcache
  let surplus ← read -- none if `b->refcnt` is not `0`
  loop surplus freeBuffer
  release .bcache

def filealloc : Prog Lock ℕ := call do
  acquire .ftable
  let fileCache ← read
  let f ← kmemCacheAlloc fileCache
  release .ftable
  return f

/-! ### Calls -/

inductive Call where
  | kmalloc (size : ℕ)
  | kfree (objp : ℕ)
  | kmemCacheCreate (size : ℕ)
  | kmemCacheAlloc (cachep : ℕ)
  | kmemCacheFree (cachep objp : ℕ)
  | kmemCacheShrink (cachep : ℕ)
  | kmemCacheDestroy (cachep : ℕ)
  | kmemCacheError (cachep : ℕ)
  | buddyAlloc (numBlocks : ℤ)
  | buddyFree (ptr : ℕ) (numBlocks : ℤ)
  | bget
  | brelse
  | filealloc

def Call.body : Call → Prog Lock Unit
  | kmalloc size => LockOrder.kmalloc size >>= fun _ => pure ()
  | kfree objp => LockOrder.kfree objp
  | kmemCacheCreate size => LockOrder.kmemCacheCreate size >>= fun _ => pure ()
  | kmemCacheAlloc cachep => LockOrder.kmemCacheAlloc cachep >>= fun _ => pure ()
  | kmemCacheFree cachep objp => LockOrder.kmemCacheFree cachep objp
  | kmemCacheShrink cachep => LockOrder.kmemCacheShrink cachep >>= fun _ => pure ()
  | kmemCacheDestroy cachep => LockOrder.kmemCacheDestroy cachep
  | kmemCacheError cachep => LockOrder.kmemCacheError cachep >>= fun _ => pure ()
  | buddyAlloc numBlocks => LockOrder.buddyAlloc numBlocks >>= fun _ => pure ()
  | buddyFree ptr numBlocks => LockOrder.buddyFree ptr numBlocks
  | bget => LockOrder.bget >>= fun _ => pure ()
  | brelse => LockOrder.brelse
  | filealloc => LockOrder.filealloc >>= fun _ => pure ()

/-- Processes that make such calls, any number of them. -/
def processes : Protocol Locking.Fault (State Lock) (Label Call) := threads Call.body

/-- The locks of the kernel are there from the beginning, and those of some caches. -/
def boot (caches : ℕ → Bool) : State Lock :=
  start fun
    | .cache cachep => caches cachep
    | .bufferCacheLock | .cacheListLock | .buddy | .bcache | .ftable => true

end Xv6.LockOrder
