import Xv6.Bytes.Array
import Xv6.Machine.Basic

/-! Blocks and inodes, as the buffer cache shows them.

A `Store` is the disk with all that is in the buffer cache written over it. The bitmap, the data
blocks and the indirect blocks are bytes; the inode blocks are read and written through `struct
dinode` only, and are kept as such. The block numbers that `log_write` was called with are noted,
those of the transaction that goes on (`logged`) and those of the ended ones (`ops`). An operation
runs alone: buffers and inodes are not locked here. -/
namespace Xv6.Fs
open Function (update)

def ninode : ℕ := 50
def ndirect : ℕ := 12
def bsize : ℕ := 1024
def nindirect : ℕ := 256
def maxfile : ℕ := ndirect + nindirect

def ipb : ℕ := 16

def bpb : ℕ := bsize * 8

/-- The type of an inode; a free one has type 0. -/
inductive FileType where
  | free | dir | file | device
  deriving DecidableEq

/-- An inode on the disk. `addrs` has `ndirect` addresses of data blocks, and that of the
indirect block. -/
structure Dinode where
  type : FileType
  major : ℤ
  minor : ℤ
  nlink : ℤ
  size : ℕ
  addrs : ℕ → ℕ

def Dinode.zero : Dinode := ⟨.free, 0, 0, 0, 0, fun _ => 0⟩

inductive Panic where
  | freeingFreeBlock | bmapOutOfRange
  | igetNoInodes | ilock | ilockNoType | iunlock
  | dirlookupNotDir | dirlookupRead | dirlinkRead
  | isdiremptyReadi | unlinkNlink | unlinkWritei
  deriving DecidableEq, Repr

structure Superblock where
  size : ℕ
  nblocks : ℕ
  ninodes : ℕ
  inodestart : ℕ
  bmapstart : ℕ

/-- Block of the free map with the bit for block `b`. -/
def bblock (sb : Superblock) (b : ℕ) : ℕ := b / bpb + sb.bmapstart

def iblock (sb : Superblock) (i : ℕ) : ℕ := i / ipb + sb.inodestart

structure Store where
  sb : Superblock
  block : ℕ → Bytes
  dinode : ℕ → Dinode
  logged : List ℕ
  ops : List (List ℕ)

/-- The copy of an inode in memory. -/
structure Inode extends Dinode where
  inum : ℕ

namespace Store

def setBlock (s : Store) (b : ℕ) (data : Bytes) : Store :=
  {s with block := update s.block b data}

def logWrite (s : Store) (b : ℕ) : Store := {s with logged := b :: s.logged}

def beginOp (s : Store) : Store := {s with logged := []}

def endOp (s : Store) : Store := {s with ops := s.logged :: s.ops}

end Store

/-! ### Blocks -/

def bzero (bno : ℕ) (s : Store) : Store := (s.setBlock bno fun _ => 0).logWrite bno

/-- The inner loop of `balloc`: the first clear bit from `bi` on, of at most `n`. -/
def findFree (data : Bytes) (b size : ℕ) : ℕ → ℕ → Option ℕ
  | 0, _ => none
  | n + 1, bi =>
    if b + bi < size then
      if data.bit bi then findFree data b size n (bi + 1) else some bi
    else none

/-- The outer loop of `balloc`: the first block of the bitmap that has a clear bit, and the bit. -/
def ballocLoop (s : Store) : ℕ → ℕ → Option (ℕ × ℕ)
  | 0, _ => none
  | fuel + 1, b =>
    if b < s.sb.size then
      match findFree (s.block (bblock s.sb b)) b s.sb.size bpb 0 with
      | some bi => some (b, bi)
      | none => ballocLoop s fuel (b + bpb)
    else none

/-- The outer loop is run at most once for each block of the disk. -/
def balloc (s : Store) : ℕ × Store :=
  match ballocLoop s s.sb.size 0 with
  | none => (0, s)
  | some (b, bi) =>
    let bno := bblock s.sb b
    (b + bi, bzero (b + bi) ((s.setBlock bno ((s.block bno).setBit bi)).logWrite bno))

def bfree (b : ℕ) (s : Store) : Except Panic Store :=
  let bno := bblock s.sb b
  let bi := b % bpb
  if (s.block bno).bit bi then .ok ((s.setBlock bno ((s.block bno).clearBit bi)).logWrite bno)
  else .error .freeingFreeBlock

/-! ### Inodes -/

def iupdate (ip : Inode) (s : Store) : Store :=
  {s with dinode := update s.dinode ip.inum ip.toDinode}.logWrite (iblock s.sb ip.inum)

def entry (data : Bytes) (j : ℕ) : ℕ := data.le (4 * j) 4

/-- `bmap` looks at `addrs[k]`, and allocates a block for it if there is none. -/
def bmapAddr (ip : Inode) (k : ℕ) (s : Store) : ℕ × Inode × Store :=
  if ip.addrs k ≠ 0 then (ip.addrs k, ip, s)
  else
    let (addr, s) := balloc s
    if addr = 0 then (0, ip, s)
    else (addr, {ip with addrs := update ip.addrs k addr}, s)

/-- `bmap` looks at entry `j` of the indirect block, and allocates a block for it if there is none. -/
def bmapEntry (ind j : ℕ) (s : Store) : ℕ × Store :=
  if entry (s.block ind) j ≠ 0 then (entry (s.block ind) j, s)
  else
    let (addr, s) := balloc s
    if addr = 0 then (0, s)
    else (addr, (s.setBlock ind ((s.block ind).putLe (4 * j) 4 addr)).logWrite ind)

def bmapIndirect (ip : Inode) (j : ℕ) (s : Store) : ℕ × Inode × Store :=
  let (ind, ip, s) := bmapAddr ip ndirect s
  if ind = 0 then (0, ip, s)
  else
    let (addr, s) := bmapEntry ind j s
    (addr, ip, s)

def bmap (ip : Inode) (bn : ℕ) (s : Store) : Except Panic (ℕ × Inode × Store) :=
  if bn < ndirect then .ok (bmapAddr ip bn s)
  else if bn - ndirect < nindirect then .ok (bmapIndirect ip (bn - ndirect) s)
  else .error .bmapOutOfRange

def truncAddr (ip : Inode) (s : Store) (i : ℕ) : Except Panic (Inode × Store) :=
  if ip.addrs i = 0 then .ok (ip, s)
  else do
    let s ← bfree (ip.addrs i) s
    return ({ip with addrs := update ip.addrs i 0}, s)

/-- `itrunc` frees the block of entry `j` of the indirect block. -/
def truncEntry (ind : ℕ) (s : Store) (j : ℕ) : Except Panic Store :=
  if entry (s.block ind) j = 0 then .ok s else bfree (entry (s.block ind) j) s

/-- `itrunc` frees the indirect block and all that is in it. -/
def truncIndirect (ip : Inode) (s : Store) : Except Panic (Inode × Store) :=
  if ip.addrs ndirect = 0 then .ok (ip, s)
  else do
    let s ← (List.range nindirect).foldlM (truncEntry (ip.addrs ndirect)) s
    truncAddr ip s ndirect

def itrunc (ip : Inode) (s : Store) : Except Panic (Inode × Store) := do
  let (ip, s) ← (List.range ndirect).foldlM (fun (ip, s) i => truncAddr ip s i) (ip, s)
  let (ip, s) ← truncIndirect ip s
  let ip := {ip with size := 0}
  return (ip, iupdate ip s)

end Xv6.Fs
