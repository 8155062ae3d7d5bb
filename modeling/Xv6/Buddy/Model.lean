import Xv6.Linked.Chain
import Xv6.Machine.Basic

/-! The buddy allocator of `kernel/buddy.c`, function by function.

The static `struct buddy` and the `next` fields of the `struct buddy_block`s that
lie in free memory make up the `State`. Every access to `buddy.free_list` goes
through `State.head` and `State.setHead`, which refuse an index outside the
array. Locks are left out: each call holds `buddy.lock` from its first access to
its last. -/
namespace Xv6.Buddy
open Function (update)

/-- `MAX_ORDER`, the length of `buddy.free_list`. -/
def maxOrderLimit : ℕ := 15

def blockSize : ℕ := 4096

def sizeofBuddyBlock : ℕ := 8

structure State where
  maxOrder : ℕ
  freeList : ℕ → ℕ
  memoryStart : ℕ
  totalBlocks : ℤ
  freeBlocks : ℤ
  /-- `next` of the `struct buddy_block` at an address. -/
  next : ℕ → ℕ

/-- The static state before any call; memory holds anything. -/
def State.zeroed (memory : ℕ → ℕ) : State :=
  { maxOrder := 0, freeList := fun _ => 0, memoryStart := 0, totalBlocks := 0, freeBlocks := 0
    next := memory }

def State.head (s : State) (order : ℕ) : Result ℕ :=
  if order < maxOrderLimit then .ok (s.freeList order) else .error (.outOfBounds order)

def State.setHead (s : State) (order : ℕ) (block : ℕ) : Result State :=
  if order < maxOrderLimit then .ok {s with freeList := update s.freeList order block}
  else .error (.outOfBounds order)

/-! ### Logarithms -/

/-- The loop of `log2_ceil`. `power` is an `int` and wraps around when doubled. -/
def log2CeilLoop (x : ℤ) : ℕ → ℤ → ℕ → Result ℕ
  | 0, _, _ => .error .diverges
  | fuel + 1, power, result =>
    if power < x then log2CeilLoop x fuel (int32 (power * 2)) (result + 1) else .ok result

def log2Ceil (x : ℤ) : Result ℕ :=
  if x ≤ 1 then .ok 0 else log2CeilLoop x loopFuel 1 0

/-! ### Buddies -/

/-- `((char *)ptr - buddy.memory_start) / BLOCK_SIZE`: a signed difference, divided
toward zero, then read as a `uint64`. -/
def blockIndex (ptr : ℕ) (s : State) : ℕ :=
  uint64 (((ptr : ℤ) - s.memoryStart).tdiv blockSize)

def getBuddy (ptr : ℕ) (order : ℕ) (s : State) : ℕ :=
  (s.memoryStart + (blockIndex ptr s ^^^ 2 ^ order) * blockSize) % 2 ^ 64

/-- The mask `~(1 << order)` is an `int` that sign extension makes a 64-bit one. -/
def getParent (ptr : ℕ) (order : ℕ) (s : State) : ℕ :=
  (s.memoryStart + (blockIndex ptr s &&& (2 ^ 64 - (2 ^ order + 1))) * blockSize) % 2 ^ 64

/-! ### Lists -/

def removeFromList (block : ℕ) (order : ℕ) (s : State) : Result State := do
  let head ← s.head order
  if head = block then
    s.setHead order (s.next block)
  else
    match Linked.walk s.next (fun current => s.next current == block) loopFuel head with
    | none => .error .diverges
    | some current =>
      if current = 0 then return s
      else return {s with next := update s.next current (s.next block)}

def addToList (ptr : ℕ) (order : ℕ) (s : State) : Result State := do
  let head ← s.head order
  State.setHead {s with next := update s.next ptr head} order ptr

def isBlockFree (block : ℕ) (order : ℕ) (s : State) : Result Bool :=
  if order ≥ s.maxOrder then .ok false else do
    let head ← s.head order
    match Linked.walk s.next (fun next => block == next) loopFuel head with
    | none => .error .diverges
    | some next => return next != 0

/-! ### Initialisation -/

/-- `while (1 << order > remaining) order--`; at order 0 it stops, since something
remains. -/
def fitOrder (remaining : ℤ) : ℕ → ℕ
  | 0 => 0
  | order + 1 => if (2 : ℤ) ^ (order + 1) > remaining then fitOrder remaining order else order + 1

/-- The loop of `buddy_init`. `current` points to a `struct buddy_block`, so adding
`size * BLOCK_SIZE` to it advances it by that many of those. -/
def initLoop : ℕ → ℕ → ℤ → ℕ → State → Result State
  | 0, _, _, _, _ => .error .diverges
  | fuel + 1, current, remaining, order, s =>
    if remaining > 0 then do
      let order := fitOrder remaining order
      let s ← addToList current order s
      let size := 2 ^ order
      initLoop fuel ((current + size * blockSize * sizeofBuddyBlock) % 2 ^ 64) (remaining - size)
        order s
    else .ok s

def buddyInit (space : ℕ) (blockNum : ℤ) (s : State) : Result State :=
  if blockNum < 1 then .ok s else do
    let maxOrder := (← log2Ceil blockNum) + 1
    if maxOrder > maxOrderLimit then return s
    -- `memset` clears the first `max_order` entries of the array.
    initLoop loopFuel space blockNum maxOrder
      {s with
        totalBlocks := blockNum
        freeBlocks := blockNum
        maxOrder := maxOrder
        freeList := fun order => if order < maxOrder then 0 else s.freeList order
        memoryStart := space}

/-! ### Allocation -/

/-- `while (found_order <= buddy.max_order && buddy.free_list[found_order] == 0)
found_order++`. -/
def findOrder (s : State) : ℕ → ℕ → Result ℕ
  | 0, _ => .error .diverges
  | fuel + 1, found =>
    if found ≤ s.maxOrder then do
      if (← s.head found) = 0 then findOrder s fuel (found + 1) else return found
    else return found

/-- The splitting loop of `buddy_alloc`: it counts `found_order` down to `order` and
pushes the upper half each time, as `add_to_list` would. -/
def splitLoop (block : ℕ) (order : ℕ) : ℕ → State → Result State
  | 0, s => .ok s
  | found + 1, s =>
    if found + 1 > order then do
      let s ← addToList ((block + 2 ^ found * blockSize) % 2 ^ 64) found s
      splitLoop block order found s
    else .ok s

def buddyAlloc (numBlocks : ℤ) (s : State) : Result (ℕ × State) :=
  if numBlocks < 1 then .ok (0, s) else do
    let order ← log2Ceil numBlocks
    if order > s.maxOrder then return (0, s)
    let found ← findOrder s loopFuel order
    if found > s.maxOrder then return (0, s)
    let block ← s.head found
    let s ← removeFromList block found s
    let s ← splitLoop block order found s
    return (block, {s with freeBlocks := s.freeBlocks - 2 ^ order})

/-! ### Freeing -/

/-- The merging loop of `buddy_free`: the pointer and order it ends with. -/
def mergeLoop : ℕ → ℕ → ℕ → State → Result (ℕ × ℕ × State)
  | 0, _, _, _ => .error .diverges
  | fuel + 1, ptr, order, s =>
    if order < s.maxOrder then do
      let buddyPtr := getBuddy ptr order s
      if ← isBlockFree buddyPtr order s then
        let s ← removeFromList buddyPtr order s
        mergeLoop fuel (getParent ptr order s) (order + 1) s
      else return (ptr, order, s)
    else return (ptr, order, s)

def buddyFree (ptr : ℕ) (numBlocks : ℤ) (s : State) : Result State :=
  if ptr = 0 ∨ numBlocks < 1 then .ok s else do
    let order ← log2Ceil numBlocks
    let (ptr, last, s) ← mergeLoop loopFuel ptr order s
    let s ← addToList ptr last s
    return {s with freeBlocks := s.freeBlocks + 2 ^ order}

end Xv6.Buddy
