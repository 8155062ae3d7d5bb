import Xv6.Fs.Store

/-! Reading and writing files.

`readi` and `writei` copy to and from a `Memory`: the kernel's, where a copy does not fail, or that
of the process, where `copyin` and `copyout` go page by page and stop at the first page that is
neither mapped nor can be. A loop of `readi`, `writei` or `copyin` copies at least one byte each time
round, so that as many rounds as there are bytes suffice. -/
namespace Xv6.Fs

def pgsize : ℕ := 4096

/-- What `either_copyin` and `either_copyout` copy from and to. -/
structure Memory where
  user : Bool
  /-- The pages that `walkaddr` or `vmfault` finds. -/
  page : ℕ → Bool
  byte : Bytes

/-- The loop of `copyin`, into `data` from `pos` on. It fails with what it has copied. -/
def copyinLoop (mem : Memory) : ℕ → Bytes → ℕ → ℕ → ℕ → Bool × Bytes
  | 0, data, _, _, _ => (true, data)
  | fuel + 1, data, pos, srcva, len =>
    if 0 < len then
      let va0 := srcva - srcva % pgsize
      if mem.page (va0 / pgsize) then
        let n := min (pgsize - (srcva - va0)) len
        copyinLoop mem fuel (data.copy pos n fun j => mem.byte (srcva + j)) (pos + n)
          (uint64 (va0 + pgsize)) (len - n)
      else (false, data)
    else (true, data)

def copyin (mem : Memory) (data : Bytes) (pos srcva len : ℕ) : Bool × Bytes :=
  copyinLoop mem len data pos srcva len

def eitherCopyin (mem : Memory) (data : Bytes) (pos src len : ℕ) : Bool × Bytes :=
  if mem.user then copyin mem data pos src len
  else (true, data.copy pos len fun j => mem.byte (uint64 (src + j)))

def copyoutLoop (src : Bytes) : ℕ → ℕ → ℕ → Memory → ℕ → Bool × Memory
  | 0, _, _, mem, _ => (true, mem)
  | fuel + 1, pos, dstva, mem, len =>
    if 0 < len then
      let va0 := dstva - dstva % pgsize
      if mem.page (va0 / pgsize) then
        let n := min (pgsize - (dstva - va0)) len
        copyoutLoop src fuel (pos + n) (uint64 (va0 + pgsize))
          {mem with byte := mem.byte.copy dstva n fun j => src (pos + j)} (len - n)
      else (false, mem)
    else (true, mem)

def copyout (mem : Memory) (dstva : ℕ) (src : Bytes) (pos len : ℕ) : Bool × Memory :=
  copyoutLoop src len pos dstva mem len

def eitherCopyout (mem : Memory) (dst : ℕ) (src : Bytes) (pos len : ℕ) : Bool × Memory :=
  if mem.user then copyout mem dst src pos len
  else (true, {mem with byte := mem.byte.copy dst len fun j => src (pos + j)})

def readLoop (n : ℕ) : ℕ → ℕ → ℕ → ℕ → Memory → Inode → Store →
    Except Panic (ℤ × Memory × Inode × Store)
  | 0, tot, _, _, mem, ip, s => .ok (tot, mem, ip, s)
  | fuel + 1, tot, off, dst, mem, ip, s =>
    if tot < n then do
      let (addr, ip, s) ← bmap ip (off / bsize) s
      if addr = 0 then return (tot, mem, ip, s)
      let m := min (n - tot) (bsize - off % bsize)
      match eitherCopyout mem dst (s.block addr) (off % bsize) m with
      | (false, mem) => return (-1, mem, ip, s)
      | (true, mem) => readLoop n fuel (tot + m) (off + m) (uint64 (dst + m)) mem ip s
    else .ok (tot, mem, ip, s)

def readi (ip : Inode) (mem : Memory) (dst off n : ℕ) (s : Store) :
    Except Panic (ℤ × Memory × Inode × Store) :=
  if off > ip.size ∨ uint32 (off + n) < off then .ok (0, mem, ip, s)
  else
    let n := if uint32 (off + n) > ip.size then ip.size - off else n
    readLoop n n 0 off dst mem ip s

/-- The loop of `writei`: `tot` and `off` at its end. -/
def writeLoop (mem : Memory) (n : ℕ) : ℕ → ℕ → ℕ → ℕ → Inode → Store →
    Except Panic (ℕ × ℕ × Inode × Store)
  | 0, tot, off, _, ip, s => .ok (tot, off, ip, s)
  | fuel + 1, tot, off, src, ip, s =>
    if tot < n then do
      let (addr, ip, s) ← bmap ip (off / bsize) s
      if addr = 0 then return (tot, off, ip, s)
      let m := min (n - tot) (bsize - off % bsize)
      match eitherCopyin mem (s.block addr) (off % bsize) src m with
      -- The buffer keeps what was copied, and is not logged.
      | (false, data) => return (tot, off, ip, s.setBlock addr data)
      | (true, data) =>
        writeLoop mem n fuel (tot + m) (off + m) (uint64 (src + m)) ip
          ((s.setBlock addr data).logWrite addr)
    else .ok (tot, off, ip, s)

def writei (ip : Inode) (mem : Memory) (src off n : ℕ) (s : Store) :
    Except Panic (ℤ × Inode × Store) :=
  if off > ip.size ∨ uint32 (off + n) < off then .ok (-1, ip, s)
  else if uint32 (off + n) > maxfile * bsize then .ok (-1, ip, s)
  else do
    let (tot, off, ip, s) ← writeLoop mem n n 0 off src ip s
    let ip := if off > ip.size then {ip with size := off} else ip
    return (tot, ip, iupdate ip s)

/-! ### Open files -/

def maxopblocks : ℕ := 10

/-- A `struct file` of type `FD_INODE`, with its inode. -/
structure File where
  readable : Bool
  writable : Bool
  off : ℕ
  ip : Inode

/-- `fileread` of a file that is an inode. -/
def fileread (f : File) (mem : Memory) (addr : ℕ) (n : ℤ) (s : Store) :
    Except Panic (ℤ × File × Memory × Store) :=
  if f.readable = false then .ok (-1, f, mem, s)
  else do
    let (r, mem, ip, s) ← readi f.ip mem addr f.off (uint32 n) s
    return (r, {f with ip := ip, off := if r > 0 then uint32 (f.off + r) else f.off}, mem, s)

/-- The bytes that one transaction of `filewrite` writes at most. -/
def maxwrite : ℕ := (maxopblocks - 1 - 1 - 2) / 2 * bsize

/-- The loop of `filewrite`: `i` at its end. -/
def filewriteLoop (mem : Memory) (addr n : ℕ) : ℕ → ℕ → File → Store → Except Panic (ℕ × File × Store)
  | 0, i, f, s => .ok (i, f, s)
  | fuel + 1, i, f, s =>
    if i < n then do
      let n1 := min (n - i) maxwrite
      let (r, ip, s) ← writei f.ip mem (uint64 (addr + i)) f.off n1 s.beginOp
      let f := {f with ip := ip, off := if r > 0 then uint32 (f.off + r) else f.off}
      if r ≠ n1 then return (i, f, s.endOp)
      filewriteLoop mem addr n fuel (i + n1) f s.endOp
    else .ok (i, f, s)

/-- `filewrite` of a file that is an inode. -/
def filewrite (f : File) (mem : Memory) (addr : ℕ) (n : ℤ) (s : Store) :
    Except Panic (ℤ × File × Store) :=
  if f.writable = false then .ok (-1, f, s)
  else do
    let (i, f, s) ← filewriteLoop mem addr n.toNat n.toNat 0 f s
    return (if (i : ℤ) = n then n else -1, f, s)

end Xv6.Fs
