import Xv6.Fs.Directory

/-! The operations on the file system.

System calls are made of them: they get and give back references to inodes, lock inodes, make, write and
truncate files, change links, and make and erase directory entries. Also when an operation fails halfway,
the bitmap and the places of the inodes still agree (`blocks_owned`), and no file has a hole, so that
reads leave the disk alone (`reads_leave_disk`). -/
namespace Xv6.Fs
open Function

variable {s s' : State} {st st' : Store} {node node' : ℕ → Dinode} {E : Panic → Prop} {p q i j k : ℕ}

structure Intact (s : State) : Prop where
  good : Good s
  consistent : Consistent s.store s.store.dinode

def State.Open (s : State) (p : ℕ) : Prop := At s p (s.inode p).inum

/-- Entry `p` has been locked by its user, and so has an inode in it. -/
def State.Locked (s : State) (p : ℕ) : Prop := Ready s p (s.inode p).inum
deriving Decidable

/-- The inode in entry `p` is a directory, with whole entries. -/
def State.Directory (s : State) (p : ℕ) : Prop :=
  s.Locked p ∧ (s.store.dinode (s.inode p).inum).type = .dir ∧ direntSize ∣ (s.store.dinode (s.inode p).inum).size
deriving Decidable

inductive Operation where
  | iget (inum : ℕ)
  | idup (p : ℕ)
  | ilock (p : ℕ)
  | iput (p : ℕ)
  | ialloc (type : FileType)
  | writei (p : ℕ) (mem : Memory) (src off n : ℕ)
  | itrunc (p : ℕ)
  /-- `major`, `minor` and `nlink` are set, and `iupdate` is called. -/
  | update (p : ℕ) (major minor nlink : ℤ)
  | dirlink (dp : ℕ) (name : Bytes) (inum : ℕ)
  | clearDirent (dp k : ℕ)

def operate (s : State) : Operation → Except Panic State
  | .iget inum => (iget inum s).map Prod.snd
  | .idup p => (idup p s).map Prod.snd
  | .ilock p => (ilock p s).map Prod.snd
  | .iput p => (iput p s).map Prod.snd
  | .ialloc type => (ialloc type s).map Prod.snd
  | .writei p mem src off n => (withInode p (fun ip st => writei ip mem src off n st) s).map Prod.snd
  | .itrunc p => (itruncAt p s).map Prod.snd
  | .update p major minor nlink =>
    ((do
      assign p fun ip => {ip with major := major, minor := minor, nlink := nlink}
      iupdateAt p : FsM Unit) s).map Prod.snd
  | .dirlink dp name inum => (dirlink dp name inum s).map Prod.snd
  | .clearDirent dp k => (clearDirent dp (direntSize * k) s).map Prod.snd

def mayOperate (s : State) : Operation → Prop
  | .iget _ | .ialloc _ => True
  | .idup p | .iput p => s.Open p
  | .ilock p => s.Open p ∧ (s.inode p).inum < s.store.sb.ninodes
  | .writei p _ src _ n => s.Locked p ∧ src < 2 ^ 64 ∧ n < 2 ^ 32
  | .itrunc p | .update p _ _ _ => s.Locked p
  | .dirlink dp _ _ => s.Directory dp
  | .clearDirent dp k => s.Directory dp ∧ k < (s.store.dinode (s.inode dp).inum).entries

def operations : Protocol Panic State Operation := ⟨operate, mayOperate⟩

/-! ### What an operation keeps -/

theorem Good.borrowed (h : Good s) (hat : At s p i) (e : Entry) (hinum : e.inum = i)
    (href : e.ref + 1 = (s.inode p).ref) (hvalid : e.valid = (s.inode p).valid) :
    Held (s.put p e s.store) s [(p, i)] := by
  have hstays : ∀ q j, At (s.put p e s.store) q j → At s q j := by
    intro q j hq
    by_cases hqp : q = p
    · obtain ⟨-, -, hj⟩ := hq
      rw [hqp, put_self, hinum] at hj
      rw [hqp, ← hj]
      exact hat
    · exact (at_put_of_ne hqp).mp hq
  refine ⟨h, fun j => ?_, fun x hx => ?_, hstays, fun q j hq => ⟨hstays q j hq.1, ?_⟩⟩
  · rw [h.refs_put hat hinum, List.map_singleton]
    by_cases hj : j = i
    · rw [hj, update_self, List.count_singleton_self, h.refs_eq hat, href]
    · rw [update_of_ne hj, List.count_eq_zero_of_not_mem (by simpa using hj), Nat.add_zero]
  · rw [List.mem_singleton.mp hx]
    exact hat
  · have hready := hq.2
    by_cases hqp : q = p
    · rwa [hqp, put_self, hvalid, ← hqp] at hready
    · rwa [put_of_ne hqp] at hready

theorem Consistent.relink (h : Consistent st node) (hsb : st'.sb = st.sb) (hblock : st'.block = st.block)
    (hnode : ∀ j, (node' j).type = (node j).type ∧ (node' j).size = (node j).size ∧
      (node' j).addrs = (node j).addrs) : Consistent st' node' := by
  have hall : ∀ j, Allocated st' node' j → Allocated st node j := by
    intro j hj
    rwa [Allocated, hsb, (hnode j).1] at hj
  refine ⟨(h.toOwned.congr hsb hblock).congr_node (fun j => (hnode j).1) fun j => (hnode j).2.2,
    fun j hj bn hbn => ?_, fun j hj => ?_⟩
  · rw [blockOf_congr hblock (hnode j).2.2]
    exact h.noHoles j (hall j hj) bn ((hnode j).2.1 ▸ hbn)
  · rw [(hnode j).2.1]
    exact h.size j (hall j hj)

namespace Intact

theorem put (h : Intact s) (hr : Ready s p i) (d : Dinode) (hsb : st.sb = s.store.sb)
    (hdinode : st.dinode = Function.update s.store.dinode i d) (htype : d.type = (s.store.dinode i).type)
    (hc : Consistent st st.dinode) : Intact (s.put p {s.inode p with copy := d} st) := by
  refine ⟨h.good.put hr.1 hr.1.2.2 hsb (fun j hj => ?_) fun _ _ => ?_, hc⟩
  · rw [hdinode, update_of_ne hj]
  · have hall := h.good.allocated hr
    refine ⟨by rw [hdinode, update_self], hsb ▸ hall.1, ?_⟩
    rw [hdinode, update_self, htype]
    exact hall.2

theorem itruncAt (h : Intact s) (hr : Ready s p i) : Outcome E (itruncAt p s) fun r => Intact r.2 ∧
      Cleared s.store r.2.store (Holds s.store (s.store.dinode i) fun _ => True) := by
  refine (h.good.itruncAt h.consistent.toOwned hr).mono ?_
  rintro ⟨⟨⟩, s'⟩ ⟨t, hf, rfl⟩
  have hip := h.good.ip_eq hr
  have hclear : Cleared s.store (iupdate (s.ip p).truncated t) (Holds s.store (s.store.dinode i) fun _ => True) :=
    ⟨hf.sb, hf.used, hf.block⟩
  have hdinode : (iupdate (s.ip p).truncated t).dinode =
      Function.update s.store.dinode i (s.ip p).truncated.toDinode := by
    rw [hip, ← hf.dinode]
    rfl
  refine ⟨h.put hr _ hf.sb hdinode (by rw [hip]; rfl) ?_, hclear⟩
  refine h.consistent.cleared (h.good.allocated hr) hclear (fun j hj => ?_) fun _ => ?_
  · rw [hdinode, update_of_ne hj]
  · rw [hdinode, update_self]
    refine ⟨rfl, fun k => ?_⟩
    have hzero : ∀ l ≤ ndirect, (s.ip p).truncated.addrs l = 0 := fun l hl => if_pos (by omega)
    by_cases hk : k ≤ ndirect
    · rw [addrOf_direct hk]
      exact hzero k hk
    · exact addrOf_noIndirect (by omega) (hzero ndirect le_rfl)

theorem update (h : Intact s) (hr : Ready s p i) (major minor nlink : ℤ) :
    Outcome E (operate s (.update p major minor nlink)) Intact := by
  let d : Dinode := {s.store.dinode i with major := major, minor := minor, nlink := nlink}
  have hrun : operate s (.update p major minor nlink) =
      .ok (s.put p {s.inode p with copy := d} (iupdate ⟨d, i⟩ s.store)) := by
    have hcopy : (s.inode p).copy = s.store.dinode i := (h.good.synced p i hr).1
    have hinum : (s.inode p).inum = i := hr.1.2.2
    let e : Entry := {s.inode p with copy := {(s.inode p).copy with major := major, minor := minor, nlink := nlink}}
    show Except.ok {s.put p e s.store with store := iupdate ((s.put p e s.store).ip p) s.store} = _
    rw [put_ip, put_withStore]
    simp only [e, d, hcopy, hinum]
  rw [hrun]
  refine h.put hr d rfl rfl rfl (h.consistent.relink rfl rfl fun j => ?_)
  by_cases hj : j = i
  · subst hj
    simp only [iupdate, Store.logWrite, update_self, d, and_self]
  · simp only [iupdate, Store.logWrite, update_of_ne hj, and_self]

theorem dirAt (h : Intact s) (hdir : s.Directory p) : DirAt s p (s.inode p).inum :=
  ⟨h.good, h.consistent, hdir.1, hdir.2.1, hdir.2.2⟩

end Intact

/-- The panics of operations that are used as they should be. -/
def Panics (e : Panic) : Prop := e = .igetNoInodes ∨ e = .ilockNoType

theorem operations_keep (h : Intact s) (op : Operation) (hop : operations.allowed s op) :
    Outcome Panics (operations.step s op) Intact := by
  cases op with
  | iget inum =>
    refine Outcome.map ((h.good.iget (.inr (.inr (.inl rfl)))).mono fun r hr => ?_)
    exact ⟨hr.2.1.good, hr.1 ▸ h.consistent⟩
  | idup p =>
    refine Outcome.map ((h.good.idup hop).mono fun r hr => ?_)
    exact ⟨hr.2.2.good, hr.2.1 ▸ h.consistent⟩
  | ilock p =>
    refine Outcome.map ((h.good.ilock hop.1 hop.2 (.inr (.inr rfl))).mono fun r hr => ?_)
    exact ⟨hr.2.1.good, hr.1 ▸ h.consistent⟩
  | iput p =>
    have hpos := hop.2.1
    have hheld := h.good.borrowed hop {s.inode p with ref := (s.inode p).ref - 1} rfl
      (Nat.sub_add_cancel hpos) rfl
    exact Outcome.map ((hheld.iputQuiet h.consistent).mono fun r hr => ⟨hr.1.good, hr.2.1⟩)
  | ialloc type =>
    refine Outcome.map ((h.good.ialloc (.inr (.inl rfl))).mono fun r hr => ?_)
    rcases hr with rfl | ⟨p, i, -, -, -, hfree, hst, hheld⟩
    · exact h
    · exact ⟨hheld.good, hst ▸ h.consistent.claim hfree⟩
  | writei p mem src off n =>
    refine Outcome.map ((h.good.writei h.consistent hop.1 hop.2.1 hop.2.2).mono fun r hr => ?_)
    exact ⟨hr.1.good, hr.2.2.1⟩
  | itrunc p => exact Outcome.map ((h.itruncAt hop).mono fun r hr => hr.1)
  | update p major minor nlink => exact h.update hop major minor nlink
  | dirlink dp name inum =>
    apply Outcome.map
    have hdir := h.dirAt hop
    by_cases hnone : Assoc.Absent (direntAt s.store (s.store.dinode (s.inode dp).inum))
        (s.store.dinode (s.inode dp).inum).entries (key name)
    · exact (hdir.dirlink_absent hnone).mono fun r hr => ⟨hr.2.1.good, hr.2.1.consistent⟩
    · refine (hdir.dirlink_present (.inr (.inl rfl)) hnone).mono fun r hr => ?_
      exact ⟨hr.2.1.good, hr.2.2 ▸ h.consistent⟩
  | clearDirent dp k =>
    apply Outcome.map
    refine ((h.dirAt hop.1).writeDirent _ hop.2.le).andThen ?_
    rintro r s' ⟨-, hdir, hcases⟩
    split
    case isTrue hne =>
      -- An entry that is there can be written.
      rcases hcases with ⟨-, rfl, -⟩ | ⟨heq, -⟩
      · exact absurd hop.2 (Nat.lt_irrefl _)
      · exact absurd heq hne
    case isFalse => exact ⟨hdir.good, hdir.consistent⟩

theorem Intact.reaches (h : Intact s) (hreach : operations.Reaches s s') : Intact s' :=
  hreach.keeps (fun _ op hs hop => (operations_keep hs op hop).imp fun _ _ => trivial) h

/-- **Every block has one owner.** In every state that operations lead to from a consistent one, however
they fail, a block number in an allocated inode is marked in the bitmap and is in no other place, and a
data block that is marked is in such a place. So no operation frees a free block, and `itrunc` clears
exactly the bits of the blocks of the inode. -/
theorem blocks_owned (s s' : State) (h : Intact s) (hreach : operations.Reaches s s') :
    (∀ i k, s'.Allocated i → addrOf s'.store (s'.store.dinode i) k ≠ 0 →
      Used s'.store (addrOf s'.store (s'.store.dinode i) k) ∧
      ∀ j l, s'.Allocated j →
        addrOf s'.store (s'.store.dinode j) l = addrOf s'.store (s'.store.dinode i) k → j = i ∧ l = k) ∧
    (∀ b, s'.store.sb.dataStart ≤ b → b < s'.store.sb.size → Used s'.store b →
      ∃ i k, s'.Allocated i ∧ addrOf s'.store (s'.store.dinode i) k = b) ∧
    (∀ op, mayOperate s' op → operate s' op ≠ .error .freeingFreeBlock) ∧
    ∀ p, s'.Locked p → ∃ s'', operate s' (.itrunc p) = .ok s'' ∧ ∀ b < s'.store.sb.size,
      Used s''.store b ↔ Used s'.store b ∧
        ¬ (b ≠ 0 ∧ ∃ k, addrOf s'.store (s'.store.dinode (s'.inode p).inum) k = b) := by
  have h' := h.reaches hreach
  have howned := h'.consistent.toOwned
  have hplace : ∀ i k, s'.Allocated i →
      place s'.store s'.store.dinode (i, k) = addrOf s'.store (s'.store.dinode i) k := fun i k hi => if_pos hi
  refine ⟨fun i k hi hne => ⟨(howned.dataUsed hi hne).2.2, fun j l hj heq => ?_⟩, fun b hlow hhigh hused => ?_,
    fun op hop herr => ?_, fun p hp => ?_⟩
  · rw [← hplace i k hi, ← hplace j l hj] at heq
    have hpair := howned.owners.once (j, l) (i, k) heq (by rw [heq, hplace i k hi]; exact hne)
    exact Prod.mk.inj hpair
  · obtain ⟨hb, ⟨i, k⟩, hik⟩ := (howned.owners.used b).mp ⟨hlow, hhigh, hused⟩
    by_cases hi : s'.Allocated i
    · exact ⟨i, k, hi, (hplace i k hi).symm.trans hik⟩
    · exact absurd ((if_neg hi).symm.trans hik).symm hb
  · have hkeep := operations_keep h' op hop
    rw [show operations.step s' op = _ from herr] at hkeep
    rcases hkeep with hpanic | hpanic <;> cases hpanic
  · have htrunc : Outcome (fun _ => False) (itruncAt p s') _ := h'.itruncAt hp
    obtain ⟨⟨⟨⟩, s''⟩, hrun, -, hclear⟩ := Outcome.total.mp htrunc
    refine ⟨s'', by rw [operate, hrun]; rfl, fun b hb => ?_⟩
    rw [hclear.used b hb]
    simp only [Holds, true_and]

/-- A name for inode 2 in the new directory. -/
def firstLink : Operation := .dirlink 0 (letter 97) 2

theorem firstLink_reaches (h : operate freshDirectory firstLink = .ok s') : operations.Reaches freshDirectory s' :=
  .head (c := firstLink) ⟨freshDirectory_dirAt.ready, rfl, 0, rfl⟩ h (.refl _)

theorem freshDirectory_intact : Intact freshDirectory := ⟨freshDirectory_good, freshDirectory_dirAt.consistent⟩

/-- The directory has got a block. -/
theorem blocks_owned_link : ∃ s', operate freshDirectory firstLink = .ok s' ∧
    addrOf s'.store (s'.store.dinode 3) 0 = 49 ∧ Used s'.store 49 := by
  obtain ⟨s', hs, hall, haddr⟩ : ∃ s', operate freshDirectory firstLink = .ok s' ∧
      s'.Allocated 3 ∧ addrOf s'.store (s'.store.dinode 3) 0 = 49 := by decide +kernel
  obtain ⟨hused, -⟩ := (blocks_owned freshDirectory s' freshDirectory_intact (firstLink_reaches hs)).1 3 0 hall
    (by rw [haddr]; decide)
  exact ⟨s', hs, haddr, haddr ▸ hused⟩

/-- **Operations hardly panic.** In every state that operations lead to from a consistent one, an operation
panics only if the inode table is full or if there is no inode where `ilock` reads it. -/
theorem operations_panics (s s' : State) (op : Operation) (h : Intact s) (hreach : operations.Reaches s s')
    (hop : mayOperate s' op) : Outcome Panics (operate s' op) fun _ => True :=
  (operations_keep (h.reaches hreach) op hop).mono fun _ _ => trivial

/-- The first entry is erased again. -/
theorem operations_panics_erase : ∃ s', operate freshDirectory firstLink = .ok s' ∧
    Outcome Panics (operate s' (.clearDirent 0 0)) fun _ => True := by
  obtain ⟨s', hs, hop⟩ : ∃ s', operate freshDirectory firstLink = .ok s' ∧ s'.Directory 0 ∧
      0 < (s'.store.dinode (s'.inode 0).inum).entries := by decide +kernel
  exact ⟨s', hs, operations_panics freshDirectory s' _ freshDirectory_intact (firstLink_reaches hs) hop⟩

/-- **Reads leave the disk alone.** In every state that operations lead to from a consistent one, however
they fail, no inode has a hole. So `readi`, `fileread` and `dirlookup` allocate nothing and log nothing. -/
theorem reads_leave_disk (s s' : State) (h : Intact s) (hreach : operations.Reaches s s') :
    (∀ i, s'.Allocated i → NoHoles s'.store (s'.store.dinode i)) ∧
    (∀ p, s'.Locked p → ∀ mem dst off n, n < 2 ^ 32 →
      ∃ r mem', readi (s'.ip p) mem dst off n s'.store = .ok (r, mem', s'.ip p, s'.store)) ∧
    (∀ p, s'.Locked p → ∀ f mem addr n, f.ip = s'.ip p →
      ∃ r off mem', fileread f mem addr n s'.store = .ok (r, {f with off := off}, mem', s'.store)) ∧
    ∀ dp, s'.Directory dp → ∀ name,
      Outcome (· = .igetNoInodes) (dirlookup dp name s') fun r => r.2.store = s'.store := by
  have h' := h.reaches hreach
  have hread : ∀ p, s'.Locked p → ∀ mem dst off n, n < 2 ^ 32 →
      ∃ r mem', readi (s'.ip p) mem dst off n s'.store = .ok (r, mem', s'.ip p, s'.store) := by
    intro p hp mem dst off n hn
    have hall := h'.good.allocated hp
    have hip := h'.good.ip_eq hp
    have hstore : Outcome (fun _ => False) (readi (s'.ip p) mem dst off n s'.store) _ :=
      readi_store (by rw [hip]; exact h'.consistent.noHoles _ hall) (by rw [hip]; exact h'.consistent.size _ hall) hn
    obtain ⟨⟨r, mem', ip, st⟩, hrun, heq⟩ := Outcome.total.mp hstore
    obtain ⟨rfl, rfl⟩ := Prod.mk.inj heq
    exact ⟨r, mem', hrun⟩
  refine ⟨h'.consistent.noHoles, hread, fun p hp f mem addr n hf => ?_, fun dp hdp name => ?_⟩
  · unfold fileread
    split
    · exact ⟨-1, f.off, mem, rfl⟩
    · obtain ⟨r, mem', hrun⟩ := hread p hp mem addr f.off (uint32 n) (uint32_lt n)
      rw [hf, hrun]
      exact ⟨r, _, mem', by rw [← hf]; rfl⟩
  · have hdir := h'.dirAt hdp
    cases hfind : s'.findDirent (s'.inode dp).inum name with
    | none =>
      rw [hdir.dirlookup_absent (Assoc.find_eq_none.mp hfind)]
      rfl
    | some i =>
      obtain ⟨-, v, hv⟩ := Assoc.find_some hfind
      refine Outcome.mono (hdir.dirlookup_gets (.inr rfl) hfind hv) ?_
      rintro r ⟨-, -, hst, -⟩
      exact hst

theorem reads_leave_disk_link : ∃ s', operate freshDirectory firstLink = .ok s' ∧ ∀ mem,
    ∃ r mem', readi (s'.ip 0) mem 0 0 16 s'.store = .ok (r, mem', s'.ip 0, s'.store) := by
  obtain ⟨s', hs, hp⟩ : ∃ s', operate freshDirectory firstLink = .ok s' ∧ s'.Locked 0 := by decide +kernel
  obtain ⟨-, hread, -⟩ := reads_leave_disk freshDirectory s' freshDirectory_intact (firstLink_reaches hs)
  exact ⟨s', hs, fun mem => hread 0 hp mem 0 0 16 (by decide)⟩

end Xv6.Fs
