import Xv6.Fs.Store
import Xv6.Machine.Run

/-! The inode table, as processes see it that use it at the same time.

`iget`, `idup` and the beginning and the end of `iput` are one step each, under
`itable.lock`. `ilock` waits for the lock of an entry, and then reads the inode from the
disk. `iput` gives up `itable.lock` before it frees an inode, so that other processes go
on between its steps; `ialloc` holds only the buffer of the inode that it looks at, and
calls `iget` after it has given up that one too. -/
namespace Xv6.Itable
open Function (update)
open Fs (Dinode FileType ninode)

structure Inode where
  dev : ℕ
  inum : ℕ
  ref : ℕ
  lock : Option ℕ
  valid : Bool
  /-- `type`, `major`, `minor`, `nlink`, `size` and `addrs`. -/
  copy : Dinode

inductive Panic where
  | igetNoInodes | ilock | ilockNoType | iunlock
  /-- A process that sleeps while it holds `itable.lock`. -/
  | schedLocks
  deriving DecidableEq

/-- What `iput` has to do next when it frees an inode. -/
inductive Stage where
  /-- `itrunc`, but for its `iupdate`. -/
  | itrunc
  /-- The `iupdate` of `itrunc`. -/
  | iupdate
  | clearType
  /-- The `iupdate` of `iput`. -/
  | iupdateFree
  | invalidate
  | releasesleep
  /-- `itable.lock` again, and `ip->ref--`. -/
  | drop
  deriving DecidableEq

/-- `iput` has still to write to the disk. -/
def Stage.writes : Stage → Bool
  | .itrunc | .iupdate | .clearType | .iupdateFree => true
  | .invalidate | .releasesleep | .drop => false

inductive Pc where
  | running
  /-- In `ilock`, waiting for the lock. -/
  | locking (ip : ℕ)
  /-- In `ilock`, with the lock. -/
  | loading (ip : ℕ)
  /-- In `iput`, which frees the inode. It had been allocated `born` times. -/
  | putting (ip : ℕ) (stage : Stage) (born : ℕ)
  /-- In `ialloc`, at inode `inum`. -/
  | scanning (dev inum : ℕ) (type : FileType)
  /-- In `ialloc`, before `iget`. -/
  | getting (dev inum : ℕ)
  deriving DecidableEq

def Pc.entry : Pc → Option ℕ
  | .locking ip | .loading ip | .putting ip _ _ => some ip
  | .running | .scanning _ _ _ | .getting _ _ => none

structure Sys where
  inodes : ℕ → Inode
  disk : ℕ → ℕ → Dinode
  pc : ℕ → Pc
  /-- The references that each process has. -/
  refs : ℕ → ℕ → ℕ
  /-- The entry was changed since it was written to the disk. -/
  changed : ℕ → Bool
  /-- How often `ialloc` has allocated each inode. -/
  allocs : ℕ → ℕ → ℕ

inductive Event where
  /-- `iget`, but for that of `ialloc`. -/
  | iget (p dev inum : ℕ)
  | idup (p ip : ℕ)
  | ilock (p ip : ℕ)
  /-- `ilock` gets the lock, if it is free. -/
  | acquiresleep (p : ℕ)
  | load (p : ℕ)
  | iunlock (p ip : ℕ)
  /-- A process changes the fields of an inode. -/
  | modify (p ip : ℕ) (copy : Dinode)
  | iupdate (p ip : ℕ)
  | iput (p ip : ℕ)
  /-- The next step of an `iput` that frees an inode. -/
  | free (p : ℕ)
  | ialloc (p dev : ℕ) (type : FileType)
  | scan (p : ℕ)
  | get (p : ℕ)
  /-- A process gives a reference to another one, as `kfork` does. -/
  | give (p q ip : ℕ)

namespace Sys

def setInode (s : Sys) (ip : ℕ) (f : Inode → Inode) : Sys :=
  {s with inodes := update s.inodes ip (f (s.inodes ip))}

def goto (s : Sys) (p : ℕ) (pc : Pc) : Sys := {s with pc := update s.pc p pc}

def setRefs (s : Sys) (p ip k : ℕ) : Sys :=
  {s with refs := update s.refs p (update (s.refs p) ip k)}

def setChanged (s : Sys) (ip : ℕ) (b : Bool) : Sys := {s with changed := update s.changed ip b}

def setDisk (s : Sys) (dev inum : ℕ) (d : Dinode) : Sys :=
  {s with disk := update s.disk dev (update (s.disk dev) inum d)}

/-- The inode on the disk that an entry is for. -/
def stored (s : Sys) (ip : ℕ) : Dinode := s.disk (s.inodes ip).dev (s.inodes ip).inum

def Names (s : Sys) (dev inum ip : ℕ) : Prop :=
  0 < (s.inodes ip).ref ∧ (s.inodes ip).dev = dev ∧ (s.inodes ip).inum = inum
deriving Decidable

def ref (s : Sys) (p ip : ℕ) : Sys :=
  (s.setInode ip fun e => {e with ref := e.ref + 1}).setRefs p ip (s.refs p ip + 1)

def unref (s : Sys) (p ip : ℕ) : Sys :=
  (s.setInode ip fun e => {e with ref := e.ref - 1}).setRefs p ip (s.refs p ip - 1)

/-- An entry that is not in use is for another inode from now on. -/
def recycle (s : Sys) (p ip dev inum : ℕ) : Sys :=
  (s.setInode ip fun e => {e with dev := dev, inum := inum, ref := 1, valid := false}).setRefs p ip
    (s.refs p ip + 1)

def iget (s : Sys) (p dev inum : ℕ) : Except Panic Sys :=
  match (List.range ninode).find? (s.Names dev inum) with
  | some ip => .ok (s.ref p ip)
  | none =>
    match (List.range ninode).find? fun ip => (s.inodes ip).ref = 0 with
    | none => .error .igetNoInodes
    | some ip => .ok (s.recycle p ip dev inum)

def write (s : Sys) (ip : ℕ) : Sys :=
  s.setDisk (s.inodes ip).dev (s.inodes ip).inum (s.inodes ip).copy

def iput (s : Sys) (p ip : ℕ) : Except Panic Sys :=
  if (s.inodes ip).ref = 1 ∧ (s.inodes ip).valid = true ∧ (s.inodes ip).copy.nlink = 0 then
    match (s.inodes ip).lock with
    | some _ => .error .schedLocks
    | none =>
      .ok ((s.setInode ip fun e => {e with lock := some p}).goto p
        (.putting ip .itrunc (s.allocs (s.inodes ip).dev (s.inodes ip).inum)))
  else .ok (s.unref p ip)

/-- One step of an `iput` that frees an inode. -/
def freeStep (s : Sys) (p ip born : ℕ) : Stage → Sys
  | .itrunc =>
    (s.setInode ip fun e => {e with copy := {e.copy with size := 0, addrs := fun _ => 0}}).goto p
      (.putting ip .iupdate born)
  | .iupdate => (s.write ip).goto p (.putting ip .clearType born)
  | .clearType =>
    (s.setInode ip fun e => {e with copy := {e.copy with type := .free}}).goto p (.putting ip .iupdateFree born)
  | .iupdateFree => (s.write ip).goto p (.putting ip .invalidate born)
  | .invalidate => (s.setInode ip fun e => {e with valid := false}).goto p (.putting ip .releasesleep born)
  | .releasesleep => (s.setInode ip fun e => {e with lock := none}).goto p (.putting ip .drop born)
  | .drop => (s.unref p ip).goto p .running

def load (s : Sys) (p ip : ℕ) : Except Panic Sys :=
  if (s.inodes ip).valid then .ok (s.goto p .running)
  else if (s.stored ip).type = .free then .error .ilockNoType
  else .ok ((s.setInode ip fun e => {e with copy := s.stored ip, valid := true}).goto p .running)

/-- One turn of the loop of `ialloc`, for a disk with `ninodes` inodes. -/
def scan (ninodes : ℕ) (s : Sys) (p dev inum : ℕ) (type : FileType) : Sys :=
  if inum < ninodes then
    if (s.disk dev inum).type = .free then
      let s' := s.setDisk dev inum {Dinode.zero with type := type}
      {s' with allocs := update s.allocs dev (update (s.allocs dev) inum
        (s.allocs dev inum + 1))}.goto p (.getting dev inum)
    else s.goto p (.scanning dev (inum + 1) type)
  else s.goto p .running

def step (ninodes : ℕ) (s : Sys) : Event → Except Panic Sys
  | .iget p dev inum => s.iget p dev inum
  | .idup p ip => .ok (s.ref p ip)
  | .ilock p ip => if (s.inodes ip).ref < 1 then .error .ilock else .ok (s.goto p (.locking ip))
  | .acquiresleep p =>
    match s.pc p with
    | .locking ip =>
      match (s.inodes ip).lock with
      | some _ => .ok s
      | none => .ok ((s.setInode ip fun e => {e with lock := some p}).goto p (.loading ip))
    | _ => .ok s
  | .load p =>
    match s.pc p with
    | .loading ip => s.load p ip
    | _ => .ok s
  | .iunlock p ip =>
    if (s.inodes ip).lock ≠ some p ∨ (s.inodes ip).ref < 1 then .error .iunlock
    else .ok (s.setInode ip fun e => {e with lock := none})
  | .modify _ ip copy => .ok ((s.setInode ip fun e => {e with copy := copy}).setChanged ip true)
  | .iupdate _ ip => .ok ((s.write ip).setChanged ip false)
  | .iput p ip => s.iput p ip
  | .free p =>
    match s.pc p with
    | .putting ip stage born => .ok (s.freeStep p ip born stage)
    | _ => .ok s
  | .ialloc p dev type => .ok (s.goto p (.scanning dev 1 type))
  | .scan p =>
    match s.pc p with
    | .scanning dev inum type => .ok (s.scan ninodes p dev inum type)
    | _ => .ok s
  | .get p =>
    match s.pc p with
    | .getting dev inum => (s.goto p .running).iget p dev inum
    | _ => .ok s
  | .give p q ip => .ok ((s.setRefs p ip (s.refs p ip - 1)).setRefs q ip
      ((s.setRefs p ip (s.refs p ip - 1)).refs q ip + 1))

/-- The inode has links, on the disk or in its entry. -/
def Linked (s : Sys) (dev inum : ℕ) : Prop :=
  ((s.disk dev inum).type ≠ .free ∧ 0 < (s.disk dev inum).nlink) ∨
    ∃ ip < ninode, s.Names dev inum ip ∧ (s.inodes ip).valid = true ∧ 0 < (s.inodes ip).copy.nlink

instance (s : Sys) (dev inum : ℕ) : Decidable (s.Linked dev inum) := inferInstanceAs (Decidable (_ ∨ _))

/-- The process has a reference that it can do without: another one if it has locked the
entry. -/
def Spare (s : Sys) (p ip : ℕ) : Prop :=
  0 < s.refs p ip ∧ ((s.inodes ip).lock = some p → 1 < s.refs p ip)
deriving Decidable

/-- Processes are numbered below `n`. They use and put only references that they have,
change inodes that they have locked, and write them to the disk before they unlock them.
Only `ialloc` and `iput` make inodes allocated or free. -/
def allowed (n : ℕ) (s : Sys) : Event → Prop
  | .iget p dev inum => p < n ∧ s.pc p = .running ∧ s.Linked dev inum
  | .idup p ip | .ilock p ip => p < n ∧ s.pc p = .running ∧ 0 < s.refs p ip
  | .acquiresleep p | .load p | .free p | .scan p | .get p => p < n
  | .iunlock p ip =>
    p < n ∧ s.pc p = .running ∧ (s.inodes ip).lock = some p ∧ s.changed ip = false
  | .modify p ip copy =>
    p < n ∧ s.pc p = .running ∧ (s.inodes ip).lock = some p ∧ copy.type ≠ .free
  | .iupdate p ip => p < n ∧ s.pc p = .running ∧ (s.inodes ip).lock = some p
  | .iput p ip => p < n ∧ s.pc p = .running ∧ s.Spare p ip
  | .ialloc p _ type => p < n ∧ s.pc p = .running ∧ type ≠ .free
  | .give p q ip => p < n ∧ s.pc p = .running ∧ s.Spare p ip ∧ q < n

def start (disk : ℕ → ℕ → Dinode) : Sys :=
  ⟨fun _ => ⟨0, 0, 0, none, false, .zero⟩, disk, fun _ => .running, fun _ _ => 0, fun _ => false, fun _ _ => 0⟩

end Sys

/-- `n` processes that use the inodes of disks with `ninodes` inodes, in any order. -/
def processes (ninodes n : ℕ) : Protocol Panic Sys Event := ⟨Sys.step ninodes, Sys.allowed n⟩

instance (ninodes n : ℕ) (s : Sys) : ∀ e, Decidable ((processes ninodes n).allowed s e)
  | .iget .. | .idup .. | .ilock .. | .iunlock .. | .modify .. | .iupdate .. | .iput .. | .ialloc .. | .give .. =>
    inferInstanceAs (Decidable (_ ∧ _))
  | .acquiresleep .. | .load .. | .free .. | .scan .. | .get .. => inferInstanceAs (Decidable (_ < _))

end Xv6.Itable
