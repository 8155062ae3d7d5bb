import Xv6.Fs.Store

/-! The inode table, for one operation at a time.

An inode pointer is the number of an entry of the table, and an operation is a function on the state,
which is the disk and the table. The file systems of all devices are one here, so that an entry has no
device, and inodes are not locked, since nothing else runs. Numbers of entries at `NINODE` and above
are no entries. -/
namespace Xv6.Fs

structure Entry where
  inum : ℕ
  ref : ℕ
  valid : Bool
  /-- `type`, `major`, `minor`, `nlink`, `size` and `addrs`. -/
  copy : Dinode

structure State where
  store : Store
  inode : ℕ → Entry

/-- An operation, which may panic. -/
abbrev FsM := StateT State (Except Panic)

namespace State

def ip (s : State) (p : ℕ) : Inode := ⟨(s.inode p).copy, (s.inode p).inum⟩

def setEntry (s : State) (p : ℕ) (e : Entry) : State := {s with inode := Function.update s.inode p e}

def Names (s : State) (i p : ℕ) : Prop := 0 < (s.inode p).ref ∧ (s.inode p).inum = i
deriving Decidable

end State

def beginOp : FsM Unit := fun s => .ok ((), {s with store := s.store.beginOp})

def endOp : FsM Unit := fun s => .ok ((), {s with store := s.store.endOp})

/-- A function on the inode in an entry and on the disk. -/
def withInode {α : Type} (p : ℕ) (f : Inode → Store → Except Panic (α × Inode × Store)) : FsM α := fun s => do
  let (a, ip, store) ← f (s.ip p) s.store
  return (a, {s.setEntry p {s.inode p with copy := ip.toDinode} with store := store})

/-- An assignment to fields of the inode in an entry. -/
def assign (p : ℕ) (f : Dinode → Dinode) : FsM Unit := fun s =>
  .ok ((), s.setEntry p {s.inode p with copy := f (s.inode p).copy})

def iupdateAt (p : ℕ) : FsM Unit := fun s => .ok ((), {s with store := iupdate (s.ip p) s.store})

def itruncAt (p : ℕ) : FsM Unit := withInode p fun ip store => do
  let (ip, store) ← itrunc ip store
  return ((), ip, store)

/-- The loop of `iget` remembers the first empty entry, in case that no entry is for the inode. -/
def iget (inum : ℕ) : FsM ℕ := fun s =>
  match (List.range ninode).find? fun p => s.Names inum p with
  | some p => .ok (p, s.setEntry p {s.inode p with ref := (s.inode p).ref + 1})
  | none =>
    match (List.range ninode).find? fun p => (s.inode p).ref = 0 with
    | none => .error .igetNoInodes
    | some p => .ok (p, s.setEntry p {s.inode p with inum := inum, ref := 1, valid := false})

def idup (p : ℕ) : FsM ℕ := fun s =>
  .ok (p, s.setEntry p {s.inode p with ref := (s.inode p).ref + 1})

def ilock (p : ℕ) : FsM Unit := fun s =>
  if (s.inode p).ref < 1 then .error .ilock
  else if (s.inode p).valid then .ok ((), s)
  else
    let dip := s.store.dinode (s.inode p).inum
    if dip.type = .free then .error .ilockNoType
    else .ok ((), s.setEntry p {s.inode p with copy := dip, valid := true})

def iunlock (p : ℕ) : FsM Unit := fun s =>
  if (s.inode p).ref < 1 then .error .iunlock else .ok ((), s)

def unref (p : ℕ) : FsM Unit := fun s =>
  .ok ((), s.setEntry p {s.inode p with ref := (s.inode p).ref - 1})

/-- `iput` frees the inode, which has no links and no other references. -/
def ifree (p : ℕ) : FsM Unit := do
  itruncAt p
  assign p fun ip => {ip with type := .free}
  iupdateAt p
  fun s => .ok ((), s.setEntry p {s.inode p with valid := false})

def iput (p : ℕ) : FsM Unit := fun s =>
  if (s.inode p).ref = 1 ∧ (s.inode p).valid = true ∧ (s.inode p).copy.nlink = 0 then
    (do ifree p; unref p : FsM Unit) s
  else unref p s

def iunlockput (p : ℕ) : FsM Unit := do
  iunlock p
  iput p

/-- `memset(dip, 0, sizeof(*dip)); dip->type = type; log_write(bp)`. -/
def claim (inum : ℕ) (type : FileType) (s : Store) : Store :=
  {s with dinode := Function.update s.dinode inum {Dinode.zero with type := type}}.logWrite (iblock s.sb inum)

def ialloc (type : FileType) : FsM (Option ℕ) := fun s =>
  match (List.range' 1 (s.store.sb.ninodes - 1)).find? fun inum => (s.store.dinode inum).type = .free with
  | none => .ok (none, s)
  | some inum => (do let p ← iget inum; return some p : FsM (Option ℕ)) {s with store := claim inum type s.store}

def reclaim (inum : ℕ) : FsM Unit := fun s =>
  if (s.store.dinode inum).type ≠ .free ∧ (s.store.dinode inum).nlink = 0 then
    (do let p ← iget inum; beginOp; ilock p; iunlock p; iput p; endOp : FsM Unit) s
  else .ok ((), s)

def ireclaimLoop : ℕ → ℕ → FsM Unit
  | 0, _ => pure ()
  | n + 1, inum => do
    reclaim inum
    ireclaimLoop n (inum + 1)

def ireclaim : FsM Unit := fun s => ireclaimLoop (s.store.sb.ninodes - 1) 1 s

end Xv6.Fs
