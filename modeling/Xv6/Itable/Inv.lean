import Mathlib.Algebra.Order.BigOperators.Group.Finset
import Xv6.Itable.Model

/-! What holds of each entry of the inode table between any two steps.

An `iput` that has still to write to the disk has the only reference to its entry, and the
inode has no links (`Frees`). So nobody else gets to the entry: `iget` is called for inodes
with links, and `ialloc` takes free ones. Once it has written type 0 to the disk, `ialloc`
may take the inode again and find the entry. From then on `iput` changes only the entry,
and gives up its lock with `valid` cleared. -/
namespace Xv6.Itable
open Function
open Fs (Dinode FileType ninode)

variable {n p q ip jp dev inum born k : ℕ} {s s' : Sys} {stage : Stage} {pc : Pc}

namespace Sys

/-- References that processes have to an entry. -/
def total (n : ℕ) (s : Sys) (ip : ℕ) : ℕ := ∑ p ∈ Finset.range n, s.refs p ip

/-- An `iput` has freed the inode of the entry, and has the only reference. -/
def Finishing (s : Sys) (ip : ℕ) : Prop :=
  ∃ p stage born, s.pc p = .putting ip stage born ∧ stage.writes = false ∧ (s.inodes ip).ref = 1 ∧
    ((s.inodes ip).valid = true → stage = .invalidate)

/-- What an `iput` has before it writes to the disk. -/
structure Frees (s : Sys) (p ip : ℕ) (stage : Stage) (born : ℕ) : Prop where
  lock : (s.inodes ip).lock = some p
  only : (s.inodes ip).ref = 1
  valid : (s.inodes ip).valid = true
  unlinked : (s.inodes ip).copy.nlink = 0
  storedUnlinked : (s.stored ip).nlink = 0
  allocated : (s.stored ip).type ≠ .free
  type : (s.inodes ip).copy.type = .free ↔ stage = .iupdateFree
  born : s.allocs (s.inodes ip).dev (s.inodes ip).inum = born

/-- What a process has that is at an entry. -/
def At (s : Sys) (p : ℕ) : Pc → Prop
  | .running | .locking _ | .scanning _ _ _ | .getting _ _ => True
  | .loading ip => (s.inodes ip).lock = some p ∧ ((s.inodes ip).valid = true → (s.inodes ip).copy = s.stored ip)
  | .putting ip stage born =>
    (stage.writes = true → s.Frees p ip stage born) ∧
    (stage = .invalidate → (s.inodes ip).lock = some p ∧ (s.inodes ip).copy.nlink = 0) ∧
    (stage = .releasesleep → (s.inodes ip).lock = some p ∧ (s.inodes ip).valid = false) ∧
    (stage = .drop → (s.inodes ip).lock ≠ some p)

/-- `ialloc` has allocated an inode and will call `iget` for it. -/
structure Fresh (s : Sys) (p dev inum : ℕ) : Prop where
  allocated : (s.disk dev inum).type ≠ .free
  unlinked : (s.disk dev inum).nlink = 0
  entry : ∀ ip, s.Names dev inum ip → s.Finishing ip
  alone : ∀ q, s.pc q = .getting dev inum → q = p

end Sys

structure Entry (n : ℕ) (s : Sys) (ip : ℕ) : Prop where
  ref : (s.inodes ip).ref = s.total n ip
  bound : 0 < (s.inodes ip).ref → ip < ninode
  locker : ∀ p, (s.inodes ip).lock = some p → p < n ∧ 0 < s.refs p ip
  user : ∀ p, (s.pc p).entry = some ip → p < n ∧ 0 < s.refs p ip ∧ s.At p (s.pc p)
  synced : 0 < (s.inodes ip).ref → (s.inodes ip).valid = true → (s.inodes ip).lock = none →
    (s.inodes ip).copy = s.stored ip
  held : ∀ p, (s.inodes ip).lock = some p → (s.pc p).entry ≠ some ip → (s.inodes ip).valid = true ∧
    (s.inodes ip).copy.type ≠ .free ∧ (s.changed ip = false → (s.inodes ip).copy = s.stored ip)
  alive : 0 < (s.inodes ip).ref → (s.stored ip).type = .free → s.Finishing ip

structure Inv (n : ℕ) (s : Sys) : Prop where
  entry : ∀ ip, Entry n s ip
  unique : ∀ a b, 0 < (s.inodes b).ref → s.Names (s.inodes b).dev (s.inodes b).inum a → a = b
  fresh : ∀ p dev inum, s.pc p = .getting dev inum → s.Fresh p dev inum
  scanning : ∀ p dev inum type, s.pc p = .scanning dev inum type → type ≠ .free

/-! ### Who else is at an entry -/

namespace Entry

section
variable (h : Entry n s ip)
include h

theorem pos (hp : p < n) (hr : 0 < s.refs p ip) : 0 < (s.inodes ip).ref := by
  rw [h.ref]
  exact Finset.sum_pos' (fun _ _ => Nat.zero_le _) ⟨p, Finset.mem_range.mpr hp, hr⟩

theorem two (hp : p < n) (hq : q < n) (hne : p ≠ q) (hrp : 0 < s.refs p ip)
    (hrq : 0 < s.refs q ip) : 1 < (s.inodes ip).ref := by
  rw [h.ref]
  have hsum := Finset.add_le_sum (f := fun p => s.refs p ip) (fun _ _ => Nat.zero_le _) (Finset.mem_range.mpr hp)
    (Finset.mem_range.mpr hq) hne
  unfold Sys.total
  omega

theorem user_putting (hq : s.pc q = .putting ip stage born) :
    q < n ∧ 0 < s.refs q ip ∧ s.At q (.putting ip stage born) := by
  have huser := h.user q (by rw [hq]; rfl)
  rwa [hq] at huser

theorem finisher (hfin : s.Finishing ip) (hp : p < n) (hr : 0 < s.refs p ip) :
    ∃ stage born, s.pc p = .putting ip stage born ∧ stage.writes = false ∧ (s.inodes ip).ref = 1 ∧
      ((s.inodes ip).valid = true → stage = .invalidate) := by
  obtain ⟨q, stage, born, hq, hrest⟩ := hfin
  obtain ⟨hqn, hrq, _⟩ := h.user_putting hq
  grind [Entry.two]

/-- A process with a reference, that does not free the inode itself, keeps it from being
freed. -/
theorem not_finishing (hp : p < n) (hr : 0 < s.refs p ip)
    (hpc : ∀ stage born, s.pc p ≠ .putting ip stage born) : ¬ s.Finishing ip := fun hfin => by
  grind [Entry.finisher]

theorem not_freeing (hp : p < n) (hr : 0 < s.refs p ip)
    (hpc : ∀ stage born, s.pc p ≠ .putting ip stage born) (hq : s.pc q = .putting ip stage born) :
    stage.writes = false := by
  obtain ⟨hqn, hrq, hat⟩ := h.user_putting hq
  have hne : p ≠ q := fun heq => hpc stage born (heq ▸ hq)
  cases hw : stage.writes with
  | false => rfl
  | true => exact absurd (hat.1 hw).only (Nat.ne_of_gt (h.two hp hqn hne hr hrq))

theorem allocated (hp : p < n) (hr : 0 < s.refs p ip)
    (hpc : ∀ stage born, s.pc p ≠ .putting ip stage born) : (s.stored ip).type ≠ .free := fun hfree =>
  h.not_finishing hp hr hpc (h.alive (h.pos hp hr) hfree)

theorem unused (hfree : (s.inodes ip).ref = 0) :
    (s.inodes ip).lock = none ∧ (∀ p, (s.pc p).entry ≠ some ip) ∧ ∀ p < n, s.refs p ip = 0 := by
  have hrefs : ∀ p < n, s.refs p ip = 0 := fun p hp => by
    grind [Entry.pos]
  refine ⟨?_, fun p hp => ?_, hrefs⟩
  · cases hlock : (s.inodes ip).lock with
    | none => rfl
    | some p => exact absurd (hrefs p (h.locker p hlock).1) (Nat.ne_of_gt (h.locker p hlock).2)
  · obtain ⟨hpn, hr, _⟩ := h.user p hp
    exact absurd (hrefs p hpn) hr.ne'

end

end Entry

theorem at_congr (hinode : s'.inodes ip = s.inodes ip) (hstored : s'.stored ip = s.stored ip)
    (hallocs : s'.allocs (s.inodes ip).dev (s.inodes ip).inum = s.allocs (s.inodes ip).dev (s.inodes ip).inum)
    (hpc : pc.entry = some ip) (h : s.At p pc) : s'.At p pc := by
  cases pc with
  | running | scanning | getting => cases hpc
  | locking => trivial
  | loading a =>
    cases hpc
    rw [Sys.At, hinode, hstored]
    exact h
  | putting a stage born =>
    cases hpc
    obtain ⟨hfrees, hrest⟩ := h
    rw [Sys.At, hinode]
    refine ⟨fun hw => ?_, hrest⟩
    obtain ⟨hlock, honly, hvalid, hunlinked, hstoredUnlinked, halloc, htype, hborn⟩ := hfrees hw
    constructor <;> simp only [hinode, hstored, hallocs]
    · exact hlock
    · exact honly
    · exact hvalid
    · exact hunlinked
    · exact hstoredUnlinked
    · exact halloc
    · exact htype
    · exact hborn

/-! ### Steps about another entry -/

/-- The step leaves the entry `ip` as it is. -/
structure Apart (s s' : Sys) (ip : ℕ) : Prop where
  inode : s'.inodes ip = s.inodes ip
  refs : ∀ q, s'.refs q ip = s.refs q ip
  changed : s'.changed ip = s.changed ip
  stored : 0 < (s.inodes ip).ref → s'.stored ip = s.stored ip ∧
    s'.allocs (s.inodes ip).dev (s.inodes ip).inum = s.allocs (s.inodes ip).dev (s.inodes ip).inum
  pc : ∀ q, s'.pc q = s.pc q ∨ (s.pc q).entry ≠ some ip ∧ (s'.pc q).entry ≠ some ip

namespace Apart

variable (u : Apart s s' ip)
include u

theorem pc_eq (hq : (s'.pc q).entry = some ip) : s'.pc q = s.pc q := by
  grind [Apart.pc]

theorem pc_eq' (hq : (s.pc q).entry = some ip) : s'.pc q = s.pc q := by
  grind [Apart.pc]

theorem finishing (h : s.Finishing ip) : s'.Finishing ip := by
  obtain ⟨p, stage, born, hp, hrest⟩ := h
  have hpc := u.pc_eq' (q := p) (by rw [hp]; rfl)
  refine ⟨p, stage, born, hpc.trans hp, ?_⟩
  rw [u.inode]
  exact hrest

theorem entry (h : Entry n s ip) : Entry n s' ip := by
  refine ⟨?_, ?_, fun p hp => ?_, fun p hp => ?_, ?_, fun p hp hpc => ?_, fun hpos hfree => ?_⟩
  · rw [u.inode, h.ref]
    exact Finset.sum_congr rfl fun q _ => (u.refs q).symm
  · rw [u.inode]
    exact h.bound
  · rw [u.inode] at hp
    rw [u.refs]
    exact h.locker p hp
  · rw [u.refs]
    have hsame := u.pc_eq hp
    rw [hsame] at hp ⊢
    obtain ⟨hpn, hr, hat⟩ := h.user p hp
    obtain ⟨hstored, hallocs⟩ := u.stored (h.pos hpn hr)
    exact ⟨hpn, hr, at_congr u.inode hstored hallocs hp hat⟩
  · grind [Apart.inode, Apart.stored, Entry.synced, u.inode, u.stored]
  · rw [u.inode] at hp ⊢
    obtain ⟨hpn, hr⟩ := h.locker p hp
    rw [(u.stored (h.pos hpn hr)).1, u.changed]
    exact h.held p hp fun hentry => hpc ((u.pc_eq' hentry).symm ▸ hentry)
  · rw [u.inode] at hpos
    rw [(u.stored hpos).1] at hfree
    exact u.finishing (h.alive hpos hfree)

omit u in
theorem trans {t : Sys} (u : Apart s s' ip) (v : Apart s' t ip) : Apart s t ip := by
  refine ⟨v.inode.trans u.inode, fun q => (v.refs q).trans (u.refs q), v.changed.trans u.changed, fun hpos => ?_,
    fun q => ?_⟩
  · obtain ⟨hstored, hallocs⟩ := u.stored hpos
    grind [Apart.stored, Apart.inode, u.inode]
  · rcases u.pc q with hq | hq <;> rcases v.pc q with hq' | hq'
    · exact .inl (hq'.trans hq)
    · exact .inr ⟨hq ▸ hq'.1, hq'.2⟩
    · exact .inr ⟨hq.1, hq'.symm ▸ hq.2⟩
    · exact .inr ⟨hq.1, hq'.2⟩

end Apart

/-! ### Updates of the state -/

@[simp] theorem setInode_self {f : Inode → Inode} : (s.setInode ip f).inodes ip = f (s.inodes ip) :=
  update_self ..

@[simp] theorem goto_self : (s.goto p pc).pc p = pc := update_self ..

theorem goto_of_ne (h : q ≠ p) : (s.goto p pc).pc q = s.pc q := update_of_ne h ..

theorem setRefs_self : (s.setRefs p ip k).refs p ip = k := by
  show update s.refs p (update (s.refs p) ip k) p ip = k
  rw [update_self, update_self]

theorem setRefs_of_ne (h : q ≠ p) : (s.setRefs p ip k).refs q = s.refs q := update_of_ne h ..

theorem total_setRefs (hp : p < n) (ip : ℕ) : (s.setRefs p ip k).total n ip + s.refs p ip = s.total n ip + k := by
  have hmem : p ∈ Finset.range n := Finset.mem_range.mpr hp
  unfold Sys.total
  rw [← Finset.add_sum_erase _ _ hmem, ← Finset.add_sum_erase _ (fun q => s.refs q ip) hmem, setRefs_self]
  have hrest : ∑ q ∈ (Finset.range n).erase p, (s.setRefs p ip k).refs q ip =
      ∑ q ∈ (Finset.range n).erase p, s.refs q ip :=
    Finset.sum_congr rfl fun q hq => by rw [setRefs_of_ne (Finset.ne_of_mem_erase hq)]
  rw [hrest]
  omega

theorem setRefs_inode {f : Inode → Inode} : ((s.setInode ip f).setRefs p ip k).inodes ip = f (s.inodes ip) :=
  setInode_self

theorem apart_setInode {f : Inode → Inode} (h : jp ≠ ip) : Apart s (s.setInode ip f) jp := by
  have hinode : (s.setInode ip f).inodes jp = s.inodes jp := update_of_ne h ..
  refine ⟨hinode, fun _ => rfl, rfl, fun _ => ⟨?_, rfl⟩, fun _ => .inl rfl⟩
  rw [Sys.stored, hinode]
  rfl

theorem apart_goto (hold : (s.pc p).entry ≠ some jp) (hnew : pc.entry ≠ some jp) : Apart s (s.goto p pc) jp := by
  refine ⟨rfl, fun _ => rfl, rfl, fun _ => ⟨rfl, rfl⟩, fun q => ?_⟩
  grind [goto_self, goto_of_ne]

theorem apart_setRefs (h : jp ≠ ip) : Apart s (s.setRefs p ip k) jp := by
  refine ⟨rfl, fun q => ?_, rfl, fun _ => ⟨rfl, rfl⟩, fun _ => .inl rfl⟩
  by_cases hq : q = p
  · rw [hq]
    show update s.refs p (update (s.refs p) ip k) p jp = _
    rw [update_self, update_of_ne h]
  · rw [setRefs_of_ne hq]

theorem apart_setChanged {b : Bool} (h : jp ≠ ip) : Apart s (s.setChanged ip b) jp :=
  ⟨rfl, fun _ => rfl, update_of_ne h .., fun _ => ⟨rfl, rfl⟩, fun _ => .inl rfl⟩

theorem setDisk_self {d : Dinode} : (s.setDisk dev inum d).disk dev inum = d := by
  show update s.disk dev (update (s.disk dev) inum d) dev inum = d
  rw [update_self, update_self]

theorem setDisk_of_ne {d : Dinode} {dev' inum' : ℕ} (h : ¬ (dev' = dev ∧ inum' = inum)) :
    (s.setDisk dev inum d).disk dev' inum' = s.disk dev' inum' := by
  show update s.disk dev (update (s.disk dev) inum d) dev' inum' = _
  by_cases hdev : dev' = dev
  · rw [hdev, update_self, update_of_ne fun hinum => h ⟨hdev, hinum⟩]
  · rw [update_of_ne hdev]

theorem apart_setDisk {d : Dinode} (h : ¬ s.Names dev inum jp) : Apart s (s.setDisk dev inum d) jp :=
  ⟨rfl, fun _ => rfl, rfl, fun hpos => ⟨setDisk_of_ne fun hkey => h ⟨hpos, hkey⟩, rfl⟩, fun _ => .inl rfl⟩

theorem write_self : (s.write ip).stored ip = (s.inodes ip).copy := setDisk_self

theorem Inv.not_names (h : Inv n s) (hpos : 0 < (s.inodes ip).ref) (hne : jp ≠ ip) :
    ¬ s.Names (s.inodes ip).dev (s.inodes ip).inum jp := fun hjp => hne (h.unique jp ip hpos hjp)

theorem Inv.apart_write (h : Inv n s) (hpos : 0 < (s.inodes ip).ref) (hne : jp ≠ ip) :
    Apart s (s.write ip) jp := apart_setDisk (h.not_names hpos hne)

end Xv6.Itable
