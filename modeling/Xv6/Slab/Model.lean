import Xv6.Buddy.Model
import Xv6.Linked.Double

/-! The slab allocator of `kernel/slab.c`, function by function.

Memory is kept by type: the descriptors (`kmem_cache_t`), the slab headers (`kmem_slab_t`) and the
object headers (`kmem_object_t`) at each address, beside the free blocks of the buddy allocator. Locks
are left out: the functions run alone. `created` and `destructed` are not in the code: they note the
slabs made and not destroyed, and the calls of destructors, which do not touch the allocator. -/
namespace Xv6.Slab
open Function (update)
open Buddy (blockSize buddyAlloc buddyFree buddyInit)
open Linked (Links)

def sizeofSlab : ℕ := 48

def sizeofObject : ℕ := 16

def minBufferSize : ℕ := 2 ^ 5

def maxBufferSize : ℕ := 2 ^ 17

/-- `NUM_BUFFER_CACHES`, the length of `buffer_caches`. -/
def numBufferCaches : ℕ := 13

def slabErrDetect : ℕ := 0xB16B00B5

def cacheNameLen : ℕ := 32

inductive SlabList where
  | slabsPartial
  | slabsFull
  | slabsEmpty
  deriving DecidableEq, Repr

/-- `kmem_cache_t`, without its lock. -/
structure KmemCache where
  name : List Char
  objectSize : ℕ
  alignedSize : ℕ
  slabSize : ℕ
  errorDetection : ℕ
  ctor : ℕ
  dtor : ℕ
  /-- `slabs_partial`, `slabs_full` and `slabs_empty`. -/
  slabs : SlabList → ℕ
  numSlabs : ℕ
  numAllocated : ℕ
  numGrown : ℕ
  numShrunk : ℕ
  lastShrinkState : ℤ
  errorState : ℤ
  next : ℕ

/-- The fields of the `kmem_slab_t`s in memory. -/
structure Slabs extends Links ℕ where
  mem : ℕ → ℕ
  numObjectsMax : ℕ → ℕ
  numFree : ℕ → ℕ
  freeList : ℕ → ℕ
  cache : ℕ → ℕ

/-- The fields of the `kmem_object_t`s in memory. -/
structure Objects where
  next : ℕ → ℕ
  slab : ℕ → ℕ

structure Kmem where
  buddy : Buddy.State
  caches : ℕ → KmemCache
  slabs : Slabs
  objects : Objects
  cacheList : ℕ
  bufferCaches : ℕ → ℕ
  allocatorInitialized : Bool
  /-- The slabs made and not destroyed, each with its cache. -/
  created : List (ℕ × ℕ)
  /-- The destructor calls made, each with its object. -/
  destructed : List (ℕ × ℕ)

def Kmem.setCache (k : Kmem) (cache : ℕ) (f : KmemCache → KmemCache) : Kmem :=
  {k with caches := update k.caches cache (f (k.caches cache))}

/-! ### Sizes -/

def objectsPerSlab (objSize slabSize : ℕ) : ℕ := (slabSize - sizeofSlab) / (objSize + sizeofObject)

def roundUpPow2Loop (size : ℕ) : ℕ → ℕ → Result ℕ
  | 0, _ => .error .diverges
  | fuel + 1, power =>
    if power < size ∧ power ≤ maxBufferSize then roundUpPow2Loop size fuel (power * 2)
    else .ok power

def roundUpPow2 (size : ℕ) : Result ℕ := roundUpPow2Loop size loopFuel minBufferSize

def bufferCacheIndexLoop (size : ℕ) : ℕ → ℕ → ℕ → Result ℕ
  | 0, _, _ => .error .diverges
  | fuel + 1, power, index =>
    if power < size ∧ index < numBufferCaches - 1 then
      bufferCacheIndexLoop size fuel (power * 2) (index + 1)
    else .ok index

def getBufferCacheIndex (size : ℕ) : Result ℕ := bufferCacheIndexLoop size loopFuel minBufferSize 0

def slabSizeLoop (objectSize : ℕ) : ℕ → ℕ → Result ℕ
  | 0, _ => .error .diverges
  | fuel + 1, blocks =>
    if blocks < 16 then
      if objectsPerSlab objectSize (blocks * blockSize) ≥ 8 then .ok blocks
      else slabSizeLoop objectSize fuel (blocks * 2)
    else .ok blocks

def calculateSlabSize (objectSize : ℕ) : Result ℕ := slabSizeLoop objectSize loopFuel 1

/-! ### Lists of slabs -/

def addSlabToList (cache : ℕ) (list : SlabList) (slab : ℕ) (k : Kmem) : Kmem :=
  let head := (k.caches cache).slabs list
  let next := update k.slabs.next slab head
  let prev := update k.slabs.prev slab 0
  let prev := if head ≠ 0 then update prev head slab else prev
  Kmem.setCache {k with slabs := {k.slabs with next := next, prev := prev}} cache
    fun c => {c with slabs := update c.slabs list slab}

def removeSlabFromList (cache : ℕ) (list : SlabList) (slab : ℕ) (k : Kmem) : Kmem :=
  let k :=
    if k.slabs.prev slab ≠ 0 then
      {k with slabs :=
        {k.slabs with
          next := update k.slabs.next (k.slabs.prev slab) (k.slabs.next slab)}}
    else k.setCache cache fun c =>
      {c with slabs := update c.slabs list (k.slabs.next slab)}
  let k :=
    if k.slabs.next slab ≠ 0 then
      {k with slabs :=
        {k.slabs with
          prev := update k.slabs.prev (k.slabs.next slab) (k.slabs.prev slab)}}
    else k
  {k with slabs :=
    {k.slabs with
      next := update k.slabs.next slab 0
      prev := update k.slabs.prev slab 0}}

/-- Removing a slab from one list and adding it to another, as `kmem_cache_alloc` and
`kmem_cache_free` do in one go. -/
def moveSlab (cache : ℕ) (source target : SlabList) (slab : ℕ) (k : Kmem) : Kmem :=
  addSlabToList cache target slab (removeSlabFromList cache source slab k)

/-! ### Slabs -/

/-- Another head for the `free_list` of a slab, and other `next` fields for the objects. -/
def Kmem.setFreeList (k : Kmem) (slab head : ℕ) (next : ℕ → ℕ) : Kmem :=
  {k with
    objects := {k.objects with next := next}
    slabs := {k.slabs with freeList := update k.slabs.freeList slab head}}

/-- The loop of `kmem_slab_create`, which runs down from the last object: it puts
the first `n` objects on the slab's `free_list`. -/
def linkObjects (slab objStart alignedSize : ℕ) : ℕ → Kmem → Kmem
  | 0, k => k
  | n + 1, k =>
    let object := objStart + n * alignedSize
    linkObjects slab objStart alignedSize n
      (k.setFreeList slab object (update k.objects.next object (k.slabs.freeList slab)))

/-- The header of a new slab for `max` objects, with an empty `free_list`. -/
def initHeader (cache mem max : ℕ) (k : Kmem) : Kmem :=
  {k with
    slabs := {
      next := update k.slabs.next mem 0
      prev := update k.slabs.prev mem 0
      mem := update k.slabs.mem mem mem
      numObjectsMax := update k.slabs.numObjectsMax mem max
      numFree := update k.slabs.numFree mem max
      freeList := update k.slabs.freeList mem 0
      cache := update k.slabs.cache mem cache }
    created := (mem, cache) :: k.created}

/-- What `kmem_slab_create` writes to the memory of a new slab. -/
def initSlab (cache mem : ℕ) (k : Kmem) : Kmem :=
  let c := k.caches cache
  let max := uint32 (objectsPerSlab c.objectSize (c.slabSize * blockSize))
  linkObjects mem (mem + sizeofSlab) c.alignedSize max (initHeader cache mem max k)

def kmemSlabCreate (cache : ℕ) (k : Kmem) : Result (ℕ × Kmem) := do
  let (mem, buddy) ← buddyAlloc (k.caches cache).slabSize k.buddy
  let k := {k with buddy := buddy}
  if mem = 0 then return (0, k)
  return (mem, initSlab cache mem k)

/-- The objects of a slab, in the order in which `kmem_slab_destroy` destructs them. -/
def slabObjects (mem alignedSize max : ℕ) : List ℕ :=
  (List.range max).map fun i => mem + sizeofSlab + i * alignedSize + sizeofObject

def kmemSlabDestroy (cache slab : ℕ) (k : Kmem) : Result Kmem :=
  if slab = 0 then .ok k else do
    let c := k.caches cache
    let objects := slabObjects (k.slabs.mem slab) c.alignedSize (k.slabs.numObjectsMax slab)
    let destructed :=
      if c.dtor ≠ 0 then k.destructed ++ objects.map (c.dtor, ·) else k.destructed
    let buddy ← buddyFree (k.slabs.mem slab) c.slabSize k.buddy
    return {k with
      buddy := buddy
      created := k.created.erase (slab, cache)
      destructed := destructed}

/-! ### Caches -/

def kmemCacheGrow (cache : ℕ) (k : Kmem) : Result (ℤ × Kmem) := do
  let (slab, k) ← kmemSlabCreate cache k
  if slab = 0 then return (-1, k.setCache cache fun c => {c with errorState := 1})
  let k := addSlabToList cache .slabsEmpty slab k
  return (0, k.setCache cache fun c =>
    {c with numSlabs := uint32 (c.numSlabs + 1), numGrown := uint32 (c.numGrown + 1)})

def kmemInit (space : ℕ) (blockNum : ℤ) (k : Kmem) : Result Kmem := do
  let buddy ← buddyInit space blockNum k.buddy
  return {k with buddy := buddy, bufferCaches := fun _ => 0, allocatorInitialized := true}

/-- The descriptor that `kmem_cache_create` fills in. -/
def initCache (name : List Char) (size slabSize ctor dtor next : ℕ) : KmemCache :=
  { name := name.take (cacheNameLen - 1)
    objectSize := size
    alignedSize := size + sizeofObject
    slabSize := slabSize
    errorDetection := slabErrDetect
    ctor := ctor
    dtor := dtor
    slabs := fun _ => 0
    numSlabs := 0
    numAllocated := 0
    numGrown := 0
    numShrunk := 0
    lastShrinkState := 0
    errorState := 0
    next := next }

def kmemCacheCreate (name : List Char) (size ctor dtor : ℕ) (k : Kmem) : Result (ℕ × Kmem) :=
  if k.allocatorInitialized = false then .ok (0, k)
  else if size = 0 ∨ size > maxBufferSize then .ok (0, k)
  else do
    let (cache, buddy) ← buddyAlloc 1 k.buddy
    let k := {k with buddy := buddy}
    if cache = 0 then return (0, k)
    let slabSize ← calculateSlabSize size
    let k := k.setCache cache fun _ => initCache name size slabSize ctor dtor k.cacheList
    let (_, k) ← kmemCacheGrow cache {k with cacheList := cache}
    return (cache, k)

/-- The slab from which `kmem_cache_alloc` takes an object, if the cache has one or
can get one. -/
def selectSlab (cachep : ℕ) (k : Kmem) : Result (Option ℕ × Kmem) :=
  if (k.caches cachep).slabs .slabsPartial ≠ 0 then
    .ok (some ((k.caches cachep).slabs .slabsPartial), k)
  else if (k.caches cachep).slabs .slabsEmpty ≠ 0 then
    .ok (some ((k.caches cachep).slabs .slabsEmpty), k)
  else do
    let (grown, k) ← kmemCacheGrow cachep k
    if grown < 0 then return (none, k)
    return (some ((k.caches cachep).slabs .slabsEmpty), k)

/-- `kmem_cache_alloc` takes the first object off the slab's `free_list`. -/
def popObject (cachep slab : ℕ) (k : Kmem) : Kmem :=
  let object := k.slabs.freeList slab
  let k := {k with
    slabs := {k.slabs with
      freeList := update k.slabs.freeList slab (k.objects.next object)
      numFree := update k.slabs.numFree slab (uint32 (k.slabs.numFree slab - 1))}
    objects := {k.objects with slab := update k.objects.slab object slab}}
  k.setCache cachep fun c => {c with numAllocated := uint32 (c.numAllocated + 1)}

/-- What `kmem_cache_alloc` does with the slab: it takes an object and moves the slab to
the list it belongs on. -/
def takeObject (cachep slab : ℕ) (k : Kmem) : Kmem :=
  let k := popObject cachep slab k
  let k := if k.slabs.numFree slab = uint32 (k.slabs.numObjectsMax slab - 1) then
      moveSlab cachep .slabsEmpty .slabsPartial slab k
    else k
  if k.slabs.numFree slab = 0 then moveSlab cachep .slabsPartial .slabsFull slab k else k

def kmemCacheAlloc (cachep : ℕ) (k : Kmem) : Result (ℕ × Kmem) :=
  if cachep = 0 ∨ (k.caches cachep).errorDetection ≠ slabErrDetect then .ok (0, k) else do
    match ← selectSlab cachep k with
    | (none, k) => return (0, k)
    | (some slab, k) =>
      if slab = 0 ∨ k.slabs.freeList slab = 0 then
        return (0, k.setCache cachep fun c => {c with errorState := 1})
      return (k.slabs.freeList slab + sizeofObject, takeObject cachep slab k)

/-- The header of an object: `(char *)objp - sizeof(kmem_object_t)`. -/
def header (objp : ℕ) : ℕ := uint64 (objp - sizeofObject)

/-- `kmem_cache_free` puts the object on the `free_list` of its slab. -/
def pushObject (cachep slab object : ℕ) (k : Kmem) : Kmem :=
  let k := {k with
    objects := {k.objects with
      next := update k.objects.next object (k.slabs.freeList slab)}
    slabs := {k.slabs with
      freeList := update k.slabs.freeList slab object
      numFree := update k.slabs.numFree slab (uint32 (k.slabs.numFree slab + 1))}}
  k.setCache cachep fun c => {c with numAllocated := uint32 (c.numAllocated - 1)}

/-- What `kmem_cache_free` does with the slab: it puts the object back and moves the slab
to the list it belongs on. -/
def putObject (cachep slab object : ℕ) (k : Kmem) : Kmem :=
  let k := pushObject cachep slab object k
  let k := if k.slabs.numFree slab = 1 then moveSlab cachep .slabsFull .slabsPartial slab k else k
  if k.slabs.numFree slab = k.slabs.numObjectsMax slab then
    moveSlab cachep .slabsPartial .slabsEmpty slab k
  else k

def kmemCacheFree (cachep objp : ℕ) (k : Kmem) : Kmem :=
  if cachep = 0 ∨ objp = 0 ∨ (k.caches cachep).errorDetection ≠ slabErrDetect then k
  else
    let object := header objp
    let slab := k.objects.slab object
    if slab = 0 then k.setCache cachep fun c => {c with errorState := 1}
    else putObject cachep slab object k

def shrinkLoop (cachep : ℕ) : ℕ → ℕ → ℤ → Kmem → Result (ℤ × Kmem)
  | 0, _, _, _ => .error .diverges
  | fuel + 1, slab, blocksFreed, k =>
    if slab = 0 then .ok (blocksFreed, k) else do
      let next := k.slabs.next slab
      let blocksFreed := int32 (blocksFreed + (k.caches cachep).slabSize)
      let k ← kmemSlabDestroy cachep slab (removeSlabFromList cachep .slabsEmpty slab k)
      let k := k.setCache cachep fun c => {c with numSlabs := uint32 (c.numSlabs - 1)}
      shrinkLoop cachep fuel next blocksFreed k

def kmemCacheShrink (cachep : ℕ) (k : Kmem) : Result (ℤ × Kmem) :=
  if cachep = 0 ∨ (k.caches cachep).errorDetection ≠ slabErrDetect then .ok (-1, k)
  -- The comparison is one of `uint`s.
  else if (k.caches cachep).numGrown > uint32 (k.caches cachep).lastShrinkState then
    .ok (0, k.setCache cachep fun c => {c with lastShrinkState := int32 c.numGrown})
  else do
    let (blocksFreed, k) ←
      shrinkLoop cachep loopFuel ((k.caches cachep).slabs .slabsEmpty) 0 k
    let k := if blocksFreed > 0 then
        k.setCache cachep fun c => {c with numShrunk := uint32 (c.numShrunk + 1)}
      else k
    return (blocksFreed, k)

/-- A loop of `kmem_cache_destroy`: it destroys the slabs of one list. -/
def destroyLoop (cachep : ℕ) (list : SlabList) : ℕ → Kmem → Result Kmem
  | 0, _ => .error .diverges
  | fuel + 1, k =>
    let slab := (k.caches cachep).slabs list
    if slab = 0 then .ok k else do
      let k ← kmemSlabDestroy cachep slab (removeSlabFromList cachep list slab k)
      destroyLoop cachep list fuel k

/-- The loop of `kmem_cache_destroy` over `cache_list`. -/
def unlinkCache (cachep : ℕ) (k : Kmem) : Result Kmem :=
  if k.cacheList = cachep then .ok {k with cacheList := (k.caches cachep).next}
  else
    match Linked.walk (fun c => (k.caches c).next) (fun c => (k.caches c).next == cachep) loopFuel
      k.cacheList with
    | none => .error .diverges
    | some c =>
      if c = 0 then .ok k
      else .ok (k.setCache c fun d => {d with next := (k.caches cachep).next})

def kmemCacheDestroy (cachep : ℕ) (k : Kmem) : Result Kmem :=
  if cachep = 0 ∨ (k.caches cachep).errorDetection ≠ slabErrDetect then .ok k else do
    let k ← destroyLoop cachep .slabsEmpty loopFuel k
    let k ← destroyLoop cachep .slabsPartial loopFuel k
    let k ← destroyLoop cachep .slabsFull loopFuel k
    let k ← unlinkCache cachep k
    let k := k.setCache cachep fun c => {c with errorDetection := 0}
    let buddy ← buddyFree cachep 1 k.buddy
    return {k with buddy := buddy}

/-! ### Buffers -/

/-- The decimal digits that `kmalloc` writes in front of `acc`; its array has room for
twenty of them. -/
def digits : ℕ → ℕ → List Char → List Char
  | 0, _, acc => acc
  | room + 1, temp, acc =>
    let acc := Char.ofNat ('0'.toNat + temp % 10) :: acc
    if temp / 10 > 0 then digits room (temp / 10) acc else acc

/-- The name of the cache for buffers of a size. -/
def bufferName (size : ℕ) : List Char := "size-".toList ++ digits 20 size []

/-- `kmalloc` makes a cache for its buffers when there is none, and stores what it gets. -/
def ensureBufferCache (roundedSize index : ℕ) (k : Kmem) : Result Kmem :=
  if k.bufferCaches index = 0 then do
    let (cache, k) ← kmemCacheCreate (bufferName roundedSize) roundedSize 0 0 k
    return {k with bufferCaches := update k.bufferCaches index cache}
  else .ok k

def kmalloc (size : ℕ) (k : Kmem) : Result (ℕ × Kmem) :=
  if k.allocatorInitialized = false ∨ size = 0 ∨ size > maxBufferSize then .ok (0, k) else do
    let roundedSize ← roundUpPow2 size
    let index ← getBufferCacheIndex roundedSize
    let k ← ensureBufferCache roundedSize index k
    let cache := k.bufferCaches index
    if cache = 0 then return (0, k)
    kmemCacheAlloc cache k

def kfree (objp : ℕ) (k : Kmem) : Result Kmem :=
  if objp = 0 then .ok k
  else
    let slab := k.objects.slab (header objp)
    if slab = 0 then .error .nullPointer
    else .ok (kmemCacheFree (k.slabs.cache slab) objp k)

end Xv6.Slab
