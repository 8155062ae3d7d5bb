import Xv6.Fs.File
import Xv6.Fs.Table

/-! Directories and paths.

A name is a pointer to bytes, of which `DIRSIZ` at most are looked at. A path is the bytes before its
NUL. The `struct dirent` that the functions read into is at address 0 of a memory of its own. -/
namespace Xv6.Fs
open Function (update)

/-! ### Strings -/

def dirsiz : ℕ := 14

/-- Each round compares one byte, of `n` at most. -/
def strncmp (p q : Bytes) : ℕ → ℤ
  | 0 => 0
  | n + 1 =>
    if p 0 ≠ 0 ∧ p 0 = q 0 then strncmp (fun j => p (j + 1)) (fun j => q (j + 1)) n
    else (p 0).toNat - (q 0).toNat

/-- `strncpy` at index `i`, with `n` bytes to go: the rest is filled with zeros after a NUL. -/
def strncpyFrom (s t : Bytes) (i : ℕ) : ℕ → Bytes
  | 0 => s
  | n + 1 =>
    if t i ≠ 0 then strncpyFrom (update s i (t i)) t (i + 1) n
    else Bytes.copy (update s i (t i)) (i + 1) n fun _ => 0

def strncpy (s t : Bytes) (n : ℕ) : Bytes := strncpyFrom s t 0 n

def namecmp (s t : Bytes) : ℤ := strncmp s t dirsiz

/-! ### Directory entries -/

def direntSize : ℕ := 16

def direntInum (de : Bytes) : ℕ := de.le 0 2

def direntName (de : Bytes) : Bytes := fun j => de (2 + j)

/-- `strncpy(de.name, name, DIRSIZ); de.inum = inum`. -/
def newDirent (name : Bytes) (inum : ℕ) : Bytes :=
  Bytes.putLe (fun j => strncpy (fun _ => 0) name dirsiz (j - 2)) 0 2 (inum % 2 ^ 16)

/-- `readi(dp, 0, (uint64)&de, off, sizeof(de))`. -/
def readDirent (dp off : ℕ) : FsM (ℤ × Bytes) :=
  withInode dp fun ip s => do
    let (r, mem, ip, s) ← readi ip ⟨false, fun _ => false, fun _ => 0⟩ 0 off direntSize s
    return ((r, mem.byte), ip, s)

/-- `writei(dp, 0, (uint64)&de, off, sizeof(de))`. -/
def writeDirent (dp : ℕ) (de : Bytes) (off : ℕ) : FsM ℤ :=
  withInode dp fun ip s => writei ip ⟨false, fun _ => false, de⟩ 0 off direntSize s

/-- The loop of `dirlookup`: the inode number and the offset of the entry. -/
def dirscan (dp : ℕ) (name : Bytes) : ℕ → ℕ → FsM (Option (ℕ × ℕ))
  | 0, _ => pure none
  | fuel + 1, off => fun s =>
    if off < (s.ip dp).size then
      (do
        let (r, de) ← readDirent dp off
        if r ≠ direntSize then throw .dirlookupRead
        else if direntInum de ≠ 0 ∧ namecmp name (direntName de) = 0 then return some (direntInum de, off)
        else dirscan dp name fuel (uint32 (off + direntSize)) : FsM (Option (ℕ × ℕ))) s
    else .ok (none, s)

/-- The entry of the inode, and the offset of the directory entry. -/
def dirlookup (dp : ℕ) (name : Bytes) : FsM (Option (ℕ × ℕ)) := fun s =>
  if (s.ip dp).type ≠ .dir then .error .dirlookupNotDir
  else
    (do
      match ← dirscan dp name (s.ip dp).size 0 with
      | none => return none
      | some (inum, off) =>
        let ip ← iget inum
        return some (ip, off) : FsM (Option (ℕ × ℕ))) s

/-- The second loop of `dirlink`: the offset of an empty entry, or the end. -/
def emptyDirent (dp : ℕ) : ℕ → ℕ → FsM ℕ
  | 0, off => pure off
  | fuel + 1, off => fun s =>
    if off < (s.ip dp).size then
      (do
        let (r, de) ← readDirent dp off
        if r ≠ direntSize then throw .dirlinkRead
        else if direntInum de = 0 then return off
        else emptyDirent dp fuel (uint32 (off + direntSize)) : FsM ℕ) s
    else .ok (off, s)

def dirlink (dp : ℕ) (name : Bytes) (inum : ℕ) : FsM ℤ := do
  match ← dirlookup dp name with
  | some (ip, _) =>
    iput ip
    return -1
  | none =>
    let off ← fun s => emptyDirent dp (s.ip dp).size 0 s
    let r ← writeDirent dp (newDirent name inum) off
    return if r ≠ direntSize then -1 else 0

/-- `sys_unlink` erases a directory entry. -/
def clearDirent (dp off : ℕ) : FsM Unit := do
  let r ← writeDirent dp (fun _ => 0) off
  if r ≠ direntSize then throw .unlinkWritei else pure ()

/-! ### Paths -/

def slash : UInt8 := 47

def rootino : ℕ := 1

/-- The rest of the path, and the name. The bytes of `name` behind the new ones stay. -/
def skipelem (path : List UInt8) (name : Bytes) : Option (List UInt8 × Bytes) :=
  let path := path.dropWhile (· = slash)
  if path = [] then none
  else
    let elem := path.takeWhile (· ≠ slash)
    let len := elem.length
    let name :=
      if len ≥ dirsiz then name.copy 0 dirsiz fun j => elem.getD j 0
      else update (name.copy 0 len fun j => elem.getD j 0) len 0
    some ((path.dropWhile (· ≠ slash)).dropWhile (· = slash), name)

def namexLoop (parent : Bool) : ℕ → ℕ → List UInt8 → Bytes → FsM (Option ℕ × Bytes)
  | 0, ip, _, name => pure (some ip, name)
  | fuel + 1, ip, path, name =>
    match skipelem path name with
    | none =>
      if parent then do
        iput ip
        return (none, name)
      else return (some ip, name)
    | some (path, name) => do
      ilock ip
      fun s =>
        if (s.ip ip).type ≠ .dir then
          (do iunlockput ip; return (none, name) : FsM (Option ℕ × Bytes)) s
        else if parent ∧ path = [] then
          (do iunlock ip; return (some ip, name) : FsM (Option ℕ × Bytes)) s
        else
          (do
            match ← dirlookup ip name with
            | none => iunlockput ip; return (none, name)
            | some (next, _) => iunlockput ip; namexLoop parent fuel next path name : FsM (Option ℕ × Bytes)) s

/-- Each round of the loop makes the path shorter. -/
def namex (cwd : ℕ) (path : List UInt8) (parent : Bool) (name : Bytes) : FsM (Option ℕ × Bytes) := do
  let ip ← if path.head? = some slash then iget rootino else idup cwd
  namexLoop parent (path.length + 1) ip path name

def namei (cwd : ℕ) (path : List UInt8) : FsM (Option ℕ) := do
  let (ip, _) ← namex cwd path false fun _ => 0
  return ip

def nameiparent (cwd : ℕ) (path : List UInt8) (name : Bytes) : FsM (Option ℕ × Bytes) :=
  namex cwd path true name

end Xv6.Fs
