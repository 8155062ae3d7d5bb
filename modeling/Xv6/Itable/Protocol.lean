import Xv6.Itable.Inv

/-! The protocol of the inode table.

However processes interleave, an inode has one entry, its reference count is the number of
references, an unlocked entry is what is on the disk, and `iput` writes to inodes that have
no links and no other references, and that were not allocated again since it looked
(`processes_protocol`). -/
namespace Xv6.Itable
open Function
open Fs (Dinode FileType ninode)

variable {ninodes n p q ip jp dev inum born k : ℕ} {s s' : Sys} {stage : Stage} {pc : Pc} {copy : Dinode}

def Pc.allocating : Pc → Bool
  | .scanning _ _ _ | .getting _ _ => true
  | .running | .locking _ | .loading _ | .putting _ _ _ => false

theorem Inv.of_entry (h : Inv n s) (hapart : ∀ jp, jp ≠ ip → Apart s s' jp) (hentry : Entry n s' ip)
    (hdev : (s'.inodes ip).dev = (s.inodes ip).dev) (hinum : (s'.inodes ip).inum = (s.inodes ip).inum)
    (href : 0 < (s'.inodes ip).ref → 0 < (s.inodes ip).ref)
    (hpc : ∀ q, s'.pc q = s.pc q ∨ (s'.pc q).allocating = false)
    (hdisk : ∀ dev inum, ¬ s.Names dev inum ip ∨ s.Finishing ip → s'.disk dev inum = s.disk dev inum)
    (hfin : ∀ q, s.pc q = .getting (s.inodes ip).dev (s.inodes ip).inum → s.Finishing ip →
      0 < (s'.inodes ip).ref → s'.Finishing ip) : Inv n s' := by
  have hnames : ∀ dev inum jp, s'.Names dev inum jp → s.Names dev inum jp := fun dev inum jp hn => by
    grind [Apart.inode, Sys.Names]
  have hgetting : ∀ q dev inum, s'.pc q = .getting dev inum → s.pc q = .getting dev inum := fun q dev inum hq => by
    rcases hpc q with hsame | hnot
    · exact hsame ▸ hq
    · rw [hq] at hnot
      cases hnot
  refine ⟨fun jp => ?_, fun a b hb hn => ?_, fun q dev inum hq => ?_, fun q dev inum type hq => ?_⟩
  · by_cases hj : jp = ip
    · exact hj ▸ hentry
    · exact (hapart jp hj).entry (h.entry jp)
  · have hb' := hnames _ _ b ⟨hb, rfl, rfl⟩
    refine h.unique a b hb'.1 ?_
    rw [hb'.2.1, hb'.2.2]
    exact hnames _ _ a hn
  · obtain ⟨halloc, hunlinked, hentries, halone⟩ := h.fresh q dev inum (hgetting q dev inum hq)
    have hsame : s'.disk dev inum = s.disk dev inum := by
      grind
    refine ⟨?_, ?_, fun jp hn => ?_, fun q' hq' => halone q' (hgetting q' dev inum hq')⟩
    · rw [hsame]
      exact halloc
    · rw [hsame]
      exact hunlinked
    · have hfinishing := hentries jp (hnames dev inum jp hn)
      by_cases hj : jp = ip
      · rw [hj] at hn hfinishing ⊢
        obtain ⟨_, hdev', hinum'⟩ := hnames dev inum ip hn
        refine hfin q ?_ hfinishing hn.1
        grind
      · exact (hapart jp hj).finishing hfinishing
  · rcases hpc q with hsame | hnot
    · exact h.scanning q dev inum type (hsame ▸ hq)
    · rw [hq] at hnot
      cases hnot

/-- What a process has at an entry does not depend on references, but before `iput` writes. -/
theorem at_of_same (hentry : pc.entry = some ip) (hnot : ∀ stage born, pc = .putting ip stage born → stage.writes = false)
    (hlock : (s'.inodes ip).lock = (s.inodes ip).lock) (hvalid : (s'.inodes ip).valid = (s.inodes ip).valid)
    (hcopy : (s'.inodes ip).copy = (s.inodes ip).copy) (hstored : s'.stored ip = s.stored ip) (h : s.At q pc) :
    s'.At q pc := by
  cases pc with
  | running | scanning | getting | locking => trivial
  | loading a =>
    cases hentry
    rw [Sys.At, hlock, hvalid, hcopy, hstored]
    exact h
  | putting a stage born =>
    cases hentry
    rw [Sys.At, hlock, hvalid, hcopy]
    refine ⟨fun hw => ?_, h.2⟩
    grind

namespace Entry

/-! ### References -/

section
variable (h : Entry n s ip)
include h

theorem gains (hp : p < n) (hpos : 0 < (s.inodes ip).ref)
    (hnot : ∀ q stage born, s.pc q = .putting ip stage born → stage.writes = false)
    (halloc : (s.stored ip).type ≠ .free) : Entry n (s.ref p ip) ip := by
  have hinode : (s.ref p ip).inodes ip = {s.inodes ip with ref := (s.inodes ip).ref + 1} := setRefs_inode
  have hrefs : ∀ q, s.refs q ip ≤ (s.ref p ip).refs q ip := fun q => by
    by_cases hq : q = p
    · rw [hq, Sys.ref, setRefs_self]
      exact Nat.le_succ _
    · rw [Sys.ref, setRefs_of_ne hq]
      exact Nat.le_refl _
  have hstored : (s.ref p ip).stored ip = s.stored ip := by
    rw [Sys.stored, hinode]
    rfl
  refine ⟨?_, fun _ => h.bound hpos, fun q hq => ?_, fun q hq => ?_, ?_, ?_, fun _ hfree => ?_⟩
  · have htotal : (s.ref p ip).total n ip + s.refs p ip = s.total n ip + (s.refs p ip + 1) := total_setRefs hp ip
    grind [Entry.ref]
  · rw [hinode] at hq
    obtain ⟨hqn, hr⟩ := h.locker q hq
    exact ⟨hqn, hr.trans_le (hrefs q)⟩
  · obtain ⟨hqn, hr, hat⟩ := h.user q hq
    exact ⟨hqn, hr.trans_le (hrefs q), at_of_same hq (hnot q) (by rw [hinode]) (by rw [hinode]) (by rw [hinode])
      hstored hat⟩
  · grind [Entry.synced]
  · rw [hinode, hstored]
    exact h.held
  grind

theorem loses (hp : p < n) (hr : 0 < s.refs p ip)
    (hspare : (s.inodes ip).lock = some p → 1 < s.refs p ip ∧ (s.pc p).entry ≠ some ip) :
    Entry n ((s.unref p ip).goto p .running) ip := by
  have hinode : ((s.unref p ip).goto p .running).inodes ip = {s.inodes ip with ref := (s.inodes ip).ref - 1} := by
    show (s.unref p ip).inodes ip = _
    exact setRefs_inode
  have hstored : ((s.unref p ip).goto p .running).stored ip = s.stored ip := by
    rw [Sys.stored, hinode]
    rfl
  have hrefs : ∀ q, q ≠ p → ((s.unref p ip).goto p .running).refs q ip = s.refs q ip := fun q hq =>
    congrFun (setRefs_of_ne hq) ip
  refine ⟨?_, fun hpos => ?_, fun q hq => ?_, fun q hq => ?_, ?_, fun q hq hentry => ?_, fun hpos hfree => ?_⟩
  · have htotal : ((s.unref p ip).goto p .running).total n ip + s.refs p ip = s.total n ip + (s.refs p ip - 1) :=
      total_setRefs hp ip
    grind [Entry.ref]
  · rw [hinode] at hpos
    exact h.bound (hpos.trans_le (Nat.sub_le ..))
  · rw [hinode] at hq
    by_cases hqp : q = p
    · subst hqp
      have hrefs' : ((s.unref q ip).goto q .running).refs q ip = s.refs q ip - 1 := setRefs_self
      grind
    · rw [hrefs q hqp]
      exact h.locker q hq
  · have hqp : q ≠ p := by
      rintro rfl
      rw [goto_self] at hq
      cases hq
    rw [goto_of_ne hqp] at hq ⊢
    rw [hrefs q hqp]
    obtain ⟨hqn, hrq, hat⟩ := h.user q hq
    refine ⟨hqn, hrq, at_of_same hq (fun stage born heq => ?_) (by rw [hinode]) (by rw [hinode]) (by rw [hinode])
      hstored hat⟩
    cases hw : stage.writes with
    | false => rfl
    | true =>
      have hat' := h.user q hq |>.2.2
      rw [show s.pc q = .putting ip stage born from heq] at hat'
      exact absurd (hat'.1 hw).only (Nat.ne_of_gt (h.two hqn hp hqp hrq hr))
  · grind [Entry.synced]
  · rw [hinode] at hq ⊢
    rw [hstored]
    by_cases hqp : q = p
    · exact h.held q hq (hqp ▸ (hspare (hqp ▸ hq)).2)
    · rw [goto_of_ne hqp] at hentry
      exact h.held q hq hentry
  · rw [hinode] at hpos
    rw [hstored] at hfree
    obtain ⟨_, _, _, _, _, hone, _⟩ := h.alive (hpos.trans_le (Nat.sub_le ..)) hfree
    exact absurd hpos (by rw [hone]; exact Nat.lt_irrefl 0)

theorem gives (hp : p < n) (hq : q < n) (hspare : s.Spare p ip) (hrun : s.pc p = .running) :
    Entry n ((s.setRefs p ip (s.refs p ip - 1)).setRefs q ip
      ((s.setRefs p ip (s.refs p ip - 1)).refs q ip + 1)) ip := by
  have hpos : ∀ r, (r = p → (s.inodes ip).lock = some p) → 0 < s.refs r ip →
      0 < ((s.setRefs p ip (s.refs p ip - 1)).setRefs q ip
        ((s.setRefs p ip (s.refs p ip - 1)).refs q ip + 1)).refs r ip := fun r hlock hr => by
    by_cases hrq : r = q
    · rw [hrq, setRefs_self]
      exact Nat.succ_pos _
    · rw [setRefs_of_ne hrq]
      by_cases hrp : r = p
      · rw [hrp, setRefs_self]
        exact Nat.sub_pos_of_lt (hspare.2 (hlock hrp))
      · rwa [setRefs_of_ne hrp]
  refine ⟨?_, h.bound, fun r hr => ?_, fun r hr => ?_, h.synced, h.held, h.alive⟩
  · have hfirst := total_setRefs (s := s) (k := s.refs p ip - 1) hp ip
    have hsecond := total_setRefs (s := s.setRefs p ip (s.refs p ip - 1))
      (k := (s.setRefs p ip (s.refs p ip - 1)).refs q ip + 1) hq ip
    have href := h.ref
    have hpos := hspare.1
    show (s.inodes ip).ref = _
    omega
  · obtain ⟨hrn, hrefs⟩ := h.locker r hr
    exact ⟨hrn, hpos r (fun heq => heq ▸ hr) hrefs⟩
  · obtain ⟨hrn, hrefs, hat⟩ := h.user r hr
    refine ⟨hrn, hpos r (fun heq => ?_) hrefs, ?_⟩
    · have hr' : (s.pc r).entry = some ip := hr
      rw [heq, hrun] at hr'
      cases hr'
    · exact at_congr (s := s) rfl rfl rfl hr hat

/-! ### Steps of the process that has the lock -/

/-- A step of a process that has the lock of the entry, or takes it while it is free. -/
theorem own (hp : p < n) (hr : 0 < s.refs p ip) (hothers : ∀ q, q ≠ p → (s.inodes ip).lock ≠ some q)
    (hpc : ∀ q, q ≠ p → s'.pc q = s.pc q) (hrefs : s'.refs = s.refs) (href : (s'.inodes ip).ref = (s.inodes ip).ref)
    (hlock : ∀ q, q ≠ p → (s'.inodes ip).lock ≠ some q) (hat : (s'.pc p).entry = some ip → s'.At p (s'.pc p))
    (hsynced : (s'.inodes ip).valid = true → (s'.inodes ip).lock = none → (s'.inodes ip).copy = s'.stored ip)
    (hheld : (s'.inodes ip).lock = some p → (s'.pc p).entry ≠ some ip → (s'.inodes ip).valid = true ∧
      (s'.inodes ip).copy.type ≠ .free ∧ (s'.changed ip = false → (s'.inodes ip).copy = s'.stored ip))
    (halive : (s'.stored ip).type = .free → s'.Finishing ip) : Entry n s' ip := by
  have hself : ∀ q, (s'.inodes ip).lock = some q → q = p := fun q hq => by
    by_contra hne
    exact hlock q hne hq
  refine ⟨?_, fun hpos => h.bound (href ▸ hpos), fun q hq => ?_, fun q hq => ?_, fun _ => hsynced,
    fun q hq hentry => ?_, fun _ => halive⟩
  · rw [href, h.ref, Sys.total, Sys.total, hrefs]
  · rw [hself q hq, hrefs]
    exact ⟨hp, hr⟩
  · rw [hrefs]
    by_cases hqp : q = p
    · grind
    · rw [hpc q hqp] at hq ⊢
      obtain ⟨hqn, hrq, hat'⟩ := h.user q hq
      refine ⟨hqn, hrq, ?_⟩
      -- the others wait for the lock, or have given it up
      cases hqpc : s.pc q with
      | running | scanning | getting | locking => trivial
      | loading a =>
        rw [hqpc] at hq hat'
        cases hq
        exact absurd hat'.1 (hothers q hqp)
      | putting a stage born =>
        rw [hqpc] at hq hat'
        cases hq
        refine ⟨fun hw => ?_, fun hi => ?_, fun hi => ?_, fun _ => hlock q hqp⟩
        · exact absurd (hat'.1 hw).lock (hothers q hqp)
        · exact absurd (hat'.2.1 hi).1 (hothers q hqp)
        · exact absurd (hat'.2.2.1 hi).1 (hothers q hqp)
  grind

theorem locks (hp : p < n) (hr : 0 < s.refs p ip) (hrun : s.pc p = .running) :
    Entry n (s.goto p (.locking ip)) ip := by
  have hne : ∀ q, (s.pc q).entry = some ip → q ≠ p := fun q hq heq => by
    rw [heq, hrun] at hq
    cases hq
  refine ⟨h.ref, h.bound, h.locker, fun q hq => ?_, h.synced, fun q hq hentry => ?_, fun hpos hfree => ?_⟩
  · by_cases hqp : q = p
    · rw [hqp, goto_self]
      exact ⟨hp, hr, trivial⟩
    · rw [goto_of_ne hqp] at hq ⊢
      obtain ⟨hqn, hrq, hat⟩ := h.user q hq
      exact ⟨hqn, hrq, at_congr (s := s) rfl rfl rfl hq hat⟩
  · have hqp : q ≠ p := by
      rintro rfl
      rw [goto_self] at hentry
      exact hentry rfl
    rw [goto_of_ne hqp] at hentry
    exact h.held q hq hentry
  · obtain ⟨q, stage, born, hq, hrest⟩ := h.alive hpos hfree
    refine ⟨q, stage, born, ?_, hrest⟩
    grind [goto_of_ne]

theorem allocs (hfin : s.Finishing ip) (hinode : s'.inodes ip = s.inodes ip)
    (hrefs : s'.refs = s.refs) (hpc : ∀ q, (s.pc q).entry = some ip ∨ (s'.pc q).entry = some ip → s'.pc q = s.pc q)
    (halloc : (s'.stored ip).type ≠ .free) : Entry n s' ip := by
  refine ⟨?_, ?_, fun q hq => ?_, fun q hq => ?_, fun _ hvalid hlock => ?_, fun q hq hentry => ?_,
    fun _ hfree => absurd hfree halloc⟩
  · rw [hinode, h.ref, Sys.total, Sys.total, hrefs]
  · rw [hinode]
    exact h.bound
  · rw [hinode] at hq
    rw [hrefs]
    exact h.locker q hq
  · have hsame := hpc q (.inr hq)
    rw [hsame] at hq ⊢
    rw [hrefs]
    obtain ⟨hqn, hr, hat⟩ := h.user q hq
    grind [Entry.finisher, Sys.At]
  · rw [hinode] at hvalid hlock
    obtain ⟨r, stage, born, hpcr, _, _, hstage⟩ := hfin
    obtain ⟨_, _, hat⟩ := h.user_putting hpcr
    cases hlock.symm.trans (hat.2.1 (hstage hvalid)).1
  · rw [hinode] at hq
    obtain ⟨hqn, hr⟩ := h.locker q hq
    obtain ⟨stage, born, hpcq, _⟩ := h.finisher hfin hqn hr
    have hentry' : (s.pc q).entry = some ip := by rw [hpcq]; rfl
    exact absurd (hpc q (.inl hentry') ▸ hentry') hentry

theorem recycles (hp : p < n) (hfree : (s.inodes ip).ref = 0) (hip : ip < ninode)
    (halloc : (s.disk dev inum).type ≠ .free) : Entry n (s.recycle p ip dev inum) ip := by
  obtain ⟨hlock, hpc, hrefs⟩ := h.unused hfree
  have hinode : (s.recycle p ip dev inum).inodes ip =
      {s.inodes ip with dev := dev, inum := inum, ref := 1, valid := false} := setRefs_inode
  have hnolock : ∀ q, ((s.recycle p ip dev inum).inodes ip).lock ≠ some q := fun q hq => by
    grind
  refine ⟨?_, fun _ => hip, fun q hq => absurd hq (hnolock q), fun q hq => absurd hq (hpc q), fun _ hvalid => ?_,
    fun q hq => absurd hq (hnolock q), fun _ htype => ?_⟩
  · have htotal : (s.recycle p ip dev inum).total n ip + s.refs p ip = s.total n ip + (s.refs p ip + 1) :=
      total_setRefs hp ip
    grind [Entry.ref]
  · grind
  · rw [Sys.stored, hinode] at htype
    exact absurd htype halloc

end

end Entry

namespace Inv

/-! ### Steps at no entry -/

theorem of_apart (h : Inv n s) (hapart : ∀ jp, Apart s s' jp)
    (hfresh : ∀ q dev inum, s'.pc q = .getting dev inum → s'.Fresh q dev inum)
    (hscan : ∀ q dev inum type, s'.pc q = .scanning dev inum type → type ≠ .free) : Inv n s' := by
  refine ⟨fun jp => (hapart jp).entry (h.entry jp), fun a b hb hn => ?_, hfresh, hscan⟩
  rw [(hapart b).inode] at hb hn
  unfold Sys.Names at hn
  rw [(hapart a).inode] at hn
  exact h.unique a b hb hn

theorem fresh_of_apart (hapart : ∀ ip, s.Names dev inum ip → Apart s s' ip)
    (hnames : ∀ ip, s'.Names dev inum ip → s.Names dev inum ip) (hdisk : s'.disk dev inum = s.disk dev inum)
    (hpc : ∀ q, s'.pc q = .getting dev inum → s.pc q = .getting dev inum) (h : s.Fresh p dev inum) :
    s'.Fresh p dev inum := by
  refine ⟨?_, ?_, fun ip hn => (hapart ip (hnames ip hn)).finishing (h.entry ip (hnames ip hn)),
    fun q hq => h.alone q (hpc q hq)⟩
  · rw [hdisk]
    exact h.allocated
  · rw [hdisk]
    exact h.unlinked

section
variable (h : Inv n s)
include h

theorem moves (hold : (s.pc p).entry = none) (hnew : pc.entry = none)
    (hget : ∀ dev inum, pc ≠ .getting dev inum)
    (hscan : ∀ dev inum type, pc = .scanning dev inum type → type ≠ .free) : Inv n (s.goto p pc) := by
  have hapart : ∀ jp, Apart s (s.goto p pc) jp := fun jp => by
    grind [apart_goto]
  have hgetting : ∀ q dev inum, (s.goto p pc).pc q = .getting dev inum → s.pc q = .getting dev inum :=
    fun q dev inum hq => by
      grind [goto_self, goto_of_ne]
  refine h.of_apart hapart (fun q dev inum hq => ?_) fun q dev inum type hq => ?_
  · exact fresh_of_apart (fun ip _ => hapart ip) (fun _ hn => hn) rfl (fun q' hq' => hgetting q' dev inum hq')
      (h.fresh q dev inum (hgetting q dev inum hq))
  grind [goto_self, goto_of_ne, Inv.scanning]

/-! ### `iget` and `ialloc` -/

/-- An inode that `iget` may be called for. -/
structure Ready (s : Sys) (dev inum : ℕ) : Prop where
  allocated : (s.disk dev inum).type ≠ .free
  kept : ∀ ip q stage born, s.Names dev inum ip → s.pc q = .putting ip stage born → stage.writes = false
  free : ∀ q, s.pc q ≠ .getting dev inum

theorem ready_of_linked (hl : s.Linked dev inum) : Ready s dev inum := by
  -- an `iput` at the entry knows that the inode has no links
  have hat : ∀ ip q stage born, s.pc q = .putting ip stage born → s.At q (.putting ip stage born) :=
    fun ip q stage born hq => ((h.entry ip).user_putting hq).2.2
  have hfinishing : ∀ ip, s.Finishing ip → (s.inodes ip).valid = true → (s.inodes ip).copy.nlink = 0 :=
    fun ip ⟨q, stage, born, hq, _, _, hstage⟩ hvalid => ((hat ip q stage born hq).2.1 (hstage hvalid)).2
  rcases hl with ⟨htype, hnlink⟩ | ⟨jp, _, hjp, hvalid, hnlink⟩
  · refine ⟨htype, fun ip q stage born hn hq => ?_, fun q hq => ?_⟩
    · cases hw : stage.writes with
      | false => rfl
      | true =>
        have hzero := ((hat ip q stage born hq).1 hw).storedUnlinked
        rw [Sys.stored, hn.2.1, hn.2.2] at hzero
        exact absurd hzero hnlink.ne'
    · exact absurd (h.fresh q dev inum hq).unlinked hnlink.ne'
  · refine ⟨fun htype => ?_, fun ip q stage born hn hq => ?_, fun q hq => ?_⟩
    · have hstored : (s.stored jp).type = .free := by
        rw [Sys.stored, hjp.2.1, hjp.2.2]
        exact htype
      exact absurd (hfinishing jp ((h.entry jp).alive hjp.1 hstored) hvalid) hnlink.ne'
    · have heq : ip = jp := h.unique ip jp hjp.1 (by rw [hjp.2.1, hjp.2.2]; exact hn)
      cases hw : stage.writes with
      | false => rfl
      | true => exact absurd ((hat ip q stage born hq).1 hw).unlinked (heq ▸ hnlink.ne')
    · exact absurd (hfinishing jp ((h.fresh q dev inum hq).entry jp hjp) hvalid) hnlink.ne'

theorem recycles (hp : p < n) (hready : Ready s dev inum) (hfree : (s.inodes ip).ref = 0)
    (hip : ip < ninode) (hnone : ∀ jp, ¬ s.Names dev inum jp) : Inv n (s.recycle p ip dev inum) := by
  have hapart : ∀ jp, jp ≠ ip → Apart s (s.recycle p ip dev inum) jp := fun jp hj =>
    (apart_setInode hj).trans (apart_setRefs hj)
  have hinode : (s.recycle p ip dev inum).inodes ip =
      {s.inodes ip with dev := dev, inum := inum, ref := 1, valid := false} := setRefs_inode
  have hself : (s.recycle p ip dev inum).Names dev inum ip := by
    grind [Sys.Names]
  have hnames : ∀ dev' inum' jp, jp ≠ ip → (s.recycle p ip dev inum).Names dev' inum' jp → s.Names dev' inum' jp :=
    fun dev' inum' jp hj hn => by
      grind [Apart.inode, Sys.Names]
  refine ⟨fun jp => ?_, fun a b hb hn => ?_, fun q dev' inum' hq => ?_, h.scanning⟩
  · by_cases hj : jp = ip
    · exact hj ▸ (h.entry ip).recycles hp hfree hip hready.allocated
    · exact (hapart jp hj).entry (h.entry jp)
  · by_cases ha : a = ip <;> by_cases hb' : b = ip
    · rw [ha, hb']
    · have hb'' := hnames _ _ b hb' ⟨hb, rfl, rfl⟩
      rw [ha] at hn
      rw [← hn.2.1, ← hn.2.2, hself.2.1, hself.2.2] at hb''
      exact absurd hb'' (hnone b)
    · grind
    · rw [(hapart b hb').inode] at hb hn
      exact h.unique a b hb (hnames _ _ a ha hn)
  · have hne : ∀ jp, s.Names dev' inum' jp → jp ≠ ip := fun jp hn heq => by
      rw [heq] at hn
      exact absurd hfree hn.1.ne'
    refine fresh_of_apart (fun jp hn => hapart jp (hne jp hn)) (fun jp hn => ?_) rfl (fun _ hq' => hq')
      (h.fresh q dev' inum' hq)
    by_cases hj : jp = ip
    · rw [hj] at hn
      have hkey : dev' = dev ∧ inum' = inum := ⟨hn.2.1.symm.trans hself.2.1, hn.2.2.symm.trans hself.2.2⟩
      rw [hkey.1, hkey.2] at hq
      exact absurd hq (hready.free q)
    · exact hnames dev' inum' jp hj hn

theorem iget (hp : p < n) (hready : Ready s dev inum) :
    Outcome (· = .igetNoInodes) (s.iget p dev inum) (Inv n) := by
  unfold Sys.iget
  split
  case h_1 ip hfind =>
    have hfound : decide (s.Names dev inum ip) = true :=
      List.find?_some (p := fun ip => decide (s.Names dev inum ip)) hfind
    have hn : s.Names dev inum ip := of_decide_eq_true hfound
    have hstored : s.stored ip = s.disk dev inum := by rw [Sys.stored, hn.2.1, hn.2.2]
    have hentry : Entry n (s.ref p ip) ip := (h.entry ip).gains hp hn.1
      (fun q stage born hq => hready.kept ip q stage born hn hq) (hstored.symm ▸ hready.allocated)
    refine h.of_entry (fun jp hj => (apart_setInode hj).trans (apart_setRefs hj)) hentry ?_ ?_ (fun _ => hn.1)
      (fun _ => .inl rfl) (fun _ _ _ => rfl) fun q hq => ?_
    · rw [Sys.ref, setRefs_inode]
    · rw [Sys.ref, setRefs_inode]
    · rw [hn.2.1, hn.2.2] at hq
      exact absurd hq (hready.free q)
  case h_2 hnone =>
    split
    case h_1 => exact rfl
    case h_2 ip hfind =>
      have hip : ip < ninode := List.mem_range.mp (List.mem_of_find?_eq_some hfind)
      have hfound : decide ((s.inodes ip).ref = 0) = true :=
        List.find?_some (p := fun ip => decide ((s.inodes ip).ref = 0)) hfind
      refine h.recycles hp hready (of_decide_eq_true hfound) hip fun jp hn => ?_
      have hnot := List.find?_eq_none.mp hnone jp (List.mem_range.mpr ((h.entry jp).bound hn.1))
      exact hnot (decide_eq_true hn)

theorem get (hp : p < n) (hpc : s.pc p = .getting dev inum) :
    Outcome (· = .igetNoInodes) ((s.goto p .running).iget p dev inum) (Inv n) := by
  have hfresh := h.fresh p dev inum hpc
  have hmoves : Inv n (s.goto p .running) := h.moves (by rw [hpc]; rfl) rfl nofun nofun
  refine hmoves.iget hp ⟨hfresh.allocated, fun ip q stage born hn hq => ?_, fun q hq => ?_⟩
  · have hqp : q ≠ p := by
      rintro rfl
      rw [goto_self] at hq
      cases hq
    rw [goto_of_ne hqp] at hq
    obtain ⟨hqn, hrq, _⟩ := (h.entry ip).user_putting hq
    obtain ⟨stage', born', hq', hw, _⟩ := (h.entry ip).finisher (hfresh.entry ip hn) hqn hrq
    grind
  grind [goto_self, goto_of_ne, Sys.Fresh.alone]

theorem allocs {type : FileType} (hpc : s.pc p = .scanning dev inum type)
    (hfree : (s.disk dev inum).type = .free)
    (hinodes : s'.inodes = s.inodes) (hrefs : s'.refs = s.refs) (hchanged : s'.changed = s.changed)
    (hdisk : s'.disk = (s.setDisk dev inum {Dinode.zero with type := type}).disk)
    (hallocs : ∀ dev' inum', ¬ (dev' = dev ∧ inum' = inum) → s'.allocs dev' inum' = s.allocs dev' inum')
    (hpc' : s'.pc = (s.goto p (.getting dev inum)).pc) : Inv n s' := by
  have htype := h.scanning p dev inum type hpc
  have hgoto : ∀ q, q ≠ p → s'.pc q = s.pc q := fun q hq => by rw [hpc', goto_of_ne hq]
  have hself : s'.pc p = .getting dev inum := by rw [hpc', goto_self]
  have hnone : ∀ q dev' inum', q ≠ p → s'.pc q = .getting dev' inum' → ¬ (dev' = dev ∧ inum' = inum) :=
    fun q dev' inum' hq hget hkey => by
      rw [hgoto q hq, hkey.1, hkey.2] at hget
      exact absurd hfree (h.fresh q dev inum hget).allocated
  have hdisk' : ∀ dev' inum', ¬ (dev' = dev ∧ inum' = inum) → s'.disk dev' inum' = s.disk dev' inum' :=
    fun dev' inum' hkey => by rw [hdisk, setDisk_of_ne hkey]
  have hfresh : s'.disk dev inum = {Dinode.zero with type := type} := by rw [hdisk, setDisk_self]
  have hpcs : ∀ q jp, (s.pc q).entry = some jp ∨ (s'.pc q).entry = some jp → s'.pc q = s.pc q := fun q jp hq => by
    by_cases hqp : q = p
    · rw [hqp, hself, hpc] at hq
      rcases hq with hq | hq <;> cases hq
    · exact hgoto q hqp
  have hapart : ∀ jp, ¬ s.Names dev inum jp → Apart s s' jp := fun jp hn => by
    refine ⟨by rw [hinodes], fun q => by rw [hrefs], by rw [hchanged], fun hpos => ?_, fun q => ?_⟩
    · have hkey : ¬ ((s.inodes jp).dev = dev ∧ (s.inodes jp).inum = inum) := fun hkey => hn ⟨hpos, hkey⟩
      grind [Sys.stored]
    grind
  have hnames : ∀ dev' inum' jp, s'.Names dev' inum' jp → s.Names dev' inum' jp := fun dev' inum' jp hn => by
    unfold Sys.Names at hn
    rwa [hinodes] at hn
  have hfinishing : ∀ jp, s.Names dev inum jp → s.Finishing jp := fun jp hn => by
    refine (h.entry jp).alive hn.1 ?_
    rw [Sys.stored, hn.2.1, hn.2.2]
    exact hfree
  refine ⟨fun jp => ?_, fun a b hb hn => ?_, fun q dev' inum' hq => ?_, fun q dev' inum' type' hq => ?_⟩
  · by_cases hn : s.Names dev inum jp
    · refine (h.entry jp).allocs (hfinishing jp hn) (by rw [hinodes]) hrefs (fun q hq => hpcs q jp hq) ?_
      rw [Sys.stored, hinodes, hn.2.1, hn.2.2, hfresh]
      exact htype
    · exact (hapart jp hn).entry (h.entry jp)
  · have hn' := hnames _ _ a hn
    rw [hinodes] at hb hn'
    exact h.unique a b hb hn'
  · by_cases hqp : q = p
    · rw [hqp] at hq ⊢
      obtain ⟨hdev, hinum⟩ : dev = dev' ∧ inum = inum' := by simpa using hself.symm.trans hq
      subst hdev hinum
      refine ⟨by rw [hfresh]; exact htype, by rw [hfresh]; rfl, fun jp hn => ?_, fun q' hq' => ?_⟩
      · obtain ⟨r, stage, born, hr, hrest⟩ := hfinishing jp (hnames _ _ jp hn)
        refine ⟨r, stage, born, (hpcs r jp (.inl (by rw [hr]; rfl))).trans hr, ?_⟩
        rw [hinodes]
        exact hrest
      grind
    · have hkey := hnone q dev' inum' hqp hq
      rw [hgoto q hqp] at hq
      refine fresh_of_apart (fun jp hn => hapart jp fun hn' => ?_) (fun jp hn => hnames _ _ jp hn) (hdisk' _ _ hkey)
        (fun q' hq' => ?_) (h.fresh q dev' inum' hq)
      · exact hkey ⟨hn.2.1.symm.trans hn'.2.1, hn.2.2.symm.trans hn'.2.2⟩
      grind
  grind [Inv.scanning]

theorem scan {type : FileType} (hpc : s.pc p = .scanning dev inum type) :
    Inv n (s.scan ninodes p dev inum type) := by
  have hnone : (s.pc p).entry = none := by rw [hpc]; rfl
  unfold Sys.scan
  split
  case isTrue =>
    split
    case isTrue hfree =>
      refine h.allocs hpc hfree rfl rfl rfl rfl (fun dev' inum' hkey => ?_) rfl
      show update s.allocs dev (update (s.allocs dev) inum _) dev' inum' = _
      by_cases hdev : dev' = dev
      · rw [hdev, update_self, update_of_ne fun hinum => hkey ⟨hdev, hinum⟩]
      · rw [update_of_ne hdev]
    case isFalse =>
      refine h.moves hnone rfl nofun fun dev' inum' type' heq => ?_
      grind [Inv.scanning]
  case isFalse => exact h.moves hnone rfl nofun nofun

end

/-! ### Steps of a process that has a reference -/

theorem running_not_at (ip : ℕ) (hrun : s.pc p = .running) : (s.pc p).entry ≠ some ip := by
  rw [hrun]
  nofun

theorem running_not_putting (ip : ℕ) (hrun : s.pc p = .running) (stage : Stage) (born : ℕ) :
    s.pc p ≠ .putting ip stage born := by
  rw [hrun]
  nofun

section Reference

variable (h : Inv n s) (hp : p < n) (hr : 0 < s.refs p ip) (hrun : s.pc p = .running)
include h hp hr hrun

theorem idup : Inv n (s.ref p ip) := by
  have hentry := h.entry ip
  have hnot := running_not_putting ip hrun
  have hpos := hentry.pos hp hr
  refine h.of_entry (fun jp hj => (apart_setInode hj).trans (apart_setRefs hj))
    (hentry.gains hp hpos (fun q stage born hq => hentry.not_freeing hp hr hnot hq) (hentry.allocated hp hr hnot))
    ?_ ?_ (fun _ => hpos) (fun _ => .inl rfl) (fun _ _ _ => rfl) fun _ _ hfin =>
      absurd hfin (hentry.not_finishing hp hr hnot)
  · rw [Sys.ref, setRefs_inode]
  · rw [Sys.ref, setRefs_inode]

theorem ilock : Inv n (s.goto p (.locking ip)) := by
  have hnot := running_not_putting ip hrun
  refine h.of_entry (fun jp hj => apart_goto (by rw [hrun]; nofun) fun heq => hj (Option.some.inj heq).symm)
    ((h.entry ip).locks hp hr hrun) rfl rfl id (fun q => ?_) (fun _ _ _ => rfl) fun _ _ hfin =>
      absurd hfin ((h.entry ip).not_finishing hp hr hnot)
  by_cases hq : q = p
  · rw [hq, goto_self]
    exact .inr rfl
  · exact .inl (goto_of_ne hq)

theorem give (hspare : s.Spare p ip) (hq : q < n) :
    Inv n ((s.setRefs p ip (s.refs p ip - 1)).setRefs q ip
      ((s.setRefs p ip (s.refs p ip - 1)).refs q ip + 1)) :=
  h.of_entry (fun _ hj => (apart_setRefs hj).trans (apart_setRefs hj)) ((h.entry ip).gives hp hq hspare hrun) rfl rfl
    id (fun _ => .inl rfl) (fun _ _ _ => rfl) fun _ _ hfin =>
      absurd hfin ((h.entry ip).not_finishing hp hr (running_not_putting ip hrun))

theorem client (hlock : (s.inodes ip).lock = some p) (hapart : ∀ jp, jp ≠ ip → Apart s s' jp)
    (hinode : s'.inodes ip = {s.inodes ip with lock := (s'.inodes ip).lock, copy := (s'.inodes ip).copy})
    (hpc : s'.pc = s.pc) (hrefs : s'.refs = s.refs)
    (hdisk : ∀ dev inum, ¬ s.Names dev inum ip → s'.disk dev inum = s.disk dev inum)
    (hlock' : (s'.inodes ip).lock = none ∧ (s'.inodes ip).copy = s'.stored ip ∨ (s'.inodes ip).lock = some p)
    (htype : (s'.inodes ip).copy.type ≠ .free)
    (hsynced : s'.changed ip = false → (s'.inodes ip).copy = s'.stored ip)
    (halloc : (s'.stored ip).type ≠ .free) : Inv n s' := by
  have hentry := h.entry ip
  have hnot := running_not_at ip hrun
  have hvalid : (s'.inodes ip).valid = true := by
    rw [hinode]
    exact (hentry.held p hlock hnot).1
  have hfin := hentry.not_finishing hp hr (running_not_putting ip hrun)
  refine h.of_entry hapart ?_ (by rw [hinode]) (by rw [hinode]) (fun _ => hentry.pos hp hr)
    (fun q => .inl (by rw [hpc])) (fun dev inum hn => hdisk dev inum (hn.resolve_right hfin)) fun _ _ hfin' =>
      absurd hfin' hfin
  grind [Entry.own]

end Reference

section
variable (h : Inv n s)
include h

theorem iunlock (hrun : s.pc p = .running) (hlock : (s.inodes ip).lock = some p)
    (hchanged : s.changed ip = false) : Inv n (s.setInode ip fun e => {e with lock := none}) := by
  obtain ⟨hp, hr⟩ := (h.entry ip).locker p hlock
  have hnot := running_not_at ip hrun
  obtain ⟨_, htype, hsynced⟩ := (h.entry ip).held p hlock hnot
  have hinode : (s.setInode ip fun e => {e with lock := none}).inodes ip = {s.inodes ip with lock := none} :=
    setInode_self
  have hstored : (s.setInode ip fun e => {e with lock := none}).stored ip = s.stored ip := by
    rw [Sys.stored, hinode]
    rfl
  refine h.client hp hr hrun hlock (fun jp hj => apart_setInode hj) ?_ rfl rfl (fun _ _ _ => rfl) ?_ ?_ ?_ ?_
  · rw [hinode]
  · grind
  · rw [hinode]
    exact htype
  · grind
  grind

theorem modify (hrun : s.pc p = .running) (hlock : (s.inodes ip).lock = some p)
    (htype : copy.type ≠ .free) :
    Inv n ((s.setInode ip fun e => {e with copy := copy}).setChanged ip true) := by
  obtain ⟨hp, hr⟩ := (h.entry ip).locker p hlock
  have hinode : ((s.setInode ip fun e => {e with copy := copy}).setChanged ip true).inodes ip =
      {s.inodes ip with copy := copy} := by
    show (s.setInode ip fun e => {e with copy := copy}).inodes ip = _
    exact setInode_self
  have hstored : ((s.setInode ip fun e => {e with copy := copy}).setChanged ip true).stored ip = s.stored ip := by
    rw [Sys.stored, hinode]
    rfl
  refine h.client hp hr hrun hlock (fun jp hj => (apart_setInode hj).trans (apart_setChanged hj)) ?_ rfl rfl
    (fun _ _ _ => rfl) ?_ ?_ (fun hfalse => ?_) ?_
  · rw [hinode]
  · rw [hinode]
    exact .inr hlock
  · rw [hinode]
    exact htype
  · have htrue : ((s.setInode ip fun e => {e with copy := copy}).setChanged ip true).changed ip = true :=
      update_self ..
    cases htrue.symm.trans hfalse
  · rw [hstored]
    exact (h.entry ip).allocated hp hr (running_not_putting ip hrun)

theorem iupdate (hrun : s.pc p = .running) (hlock : (s.inodes ip).lock = some p) :
    Inv n ((s.write ip).setChanged ip false) := by
  obtain ⟨hp, hr⟩ := (h.entry ip).locker p hlock
  have hpos := (h.entry ip).pos hp hr
  obtain ⟨_, htype, _⟩ := (h.entry ip).held p hlock (running_not_at ip hrun)
  have hstored : ((s.write ip).setChanged ip false).stored ip = (s.inodes ip).copy := by
    show (s.write ip).stored ip = _
    exact write_self
  refine h.client hp hr hrun hlock (fun jp hj => (h.apart_write hpos hj).trans (apart_setChanged hj)) rfl rfl rfl
    (fun dev inum hn => ?_) (.inr hlock) htype (fun _ => hstored.symm) ?_
  · exact setDisk_of_ne fun hkey => hn ⟨hpos, hkey.1.symm, hkey.2.symm⟩
  · rw [hstored]
    exact htype

/-! ### `ilock` with the lock -/

theorem atEntry (hp : p < n) (hr : 0 < s.refs p ip)
    (hlock : ∀ q, q ≠ p → (s.inodes ip).lock ≠ some q)
    (hinode : s'.inodes = update s.inodes ip (s'.inodes ip))
    (hsame : s'.inodes ip = {s.inodes ip with
      lock := (s'.inodes ip).lock, valid := (s'.inodes ip).valid, copy := (s'.inodes ip).copy})
    (hpc : s'.pc = update s.pc p pc) (hrefs : s'.refs = s.refs) (hchanged : s'.changed = s.changed)
    (hallocs : s'.allocs = s.allocs) (hold : (s.pc p).entry = none ∨ (s.pc p).entry = some ip)
    (hnew : pc = .running ∨ pc.entry = some ip)
    (hdisk : s'.disk = s.disk ∨ ¬ s.Finishing ip ∧
      s'.disk = (s.setDisk (s.inodes ip).dev (s.inodes ip).inum (s.inodes ip).copy).disk)
    (hlock' : ∀ q, q ≠ p → (s'.inodes ip).lock ≠ some q) (hat : pc.entry = some ip → s'.At p pc)
    (hsynced : (s'.inodes ip).valid = true → (s'.inodes ip).lock = none → (s'.inodes ip).copy = s'.stored ip)
    (hheld : (s'.inodes ip).lock = some p → pc.entry ≠ some ip → (s'.inodes ip).valid = true ∧
      (s'.inodes ip).copy.type ≠ .free ∧ (s'.changed ip = false → (s'.inodes ip).copy = s'.stored ip))
    (halive : (s'.stored ip).type = .free ∨ s.Finishing ip → s'.Finishing ip) : Inv n s' := by
  have hentry := h.entry ip
  have hpos := hentry.pos hp hr
  have hself : s'.pc p = pc := by rw [hpc, update_self]
  have hgoto : ∀ q, q ≠ p → s'.pc q = s.pc q := fun q hq => by rw [hpc, update_of_ne hq]
  have hapart : ∀ jp, jp ≠ ip → Apart s s' jp := fun jp hj => by
    have hjp : s'.inodes jp = s.inodes jp := by rw [hinode, update_of_ne hj]
    refine ⟨hjp, fun q => by rw [hrefs], by rw [hchanged], fun hpos' => ⟨?_, by rw [hallocs]⟩, fun q => ?_⟩
    · rw [Sys.stored, hjp]
      rcases hdisk with hdisk | ⟨_, hdisk⟩
      · rw [hdisk]
        rfl
      · rw [hdisk]
        exact setDisk_of_ne fun hkey => h.not_names hpos hj ⟨hpos', hkey⟩
    · by_cases hq : q = p
      · right
        rw [hq, hself]
        constructor
        · grind
        · rcases hnew with rfl | hnew
          · rintro ⟨⟩
          grind
      · exact .inl (hgoto q hq)
  refine h.of_entry hapart ?_ (by rw [hsame]) (by rw [hsame]) (fun _ => hpos) (fun q => ?_) (fun dev inum hn => ?_)
    fun _ _ hfin _ => halive (.inr hfin)
  · refine hentry.own hp hr hlock hgoto hrefs (by rw [hsame]) hlock' ?_ hsynced ?_ fun hfree => halive (.inl hfree)
    · rw [hself]
      exact hat
    · rw [hself]
      exact hheld
  · by_cases hq : q = p
    · right
      rw [hq, hself]
      rcases hnew with rfl | hnew
      · rfl
      · cases pc <;> first | rfl | cases hnew
    · exact .inl (hgoto q hq)
  · rcases hdisk with hdisk | ⟨hnot, hdisk⟩
    · rw [hdisk]
    · rw [hdisk]
      exact setDisk_of_ne fun hkey => hn.resolve_right hnot ⟨hpos, hkey.1.symm, hkey.2.symm⟩

theorem setsInode {f : Inode → Inode} (hp : p < n) (hr : 0 < s.refs p ip)
    (hlock : ∀ q, q ≠ p → (s.inodes ip).lock ≠ some q)
    (hf : ∀ e : Inode, f e = {e with lock := (f e).lock, valid := (f e).valid, copy := (f e).copy})
    (hold : (s.pc p).entry = none ∨ (s.pc p).entry = some ip) (hnew : pc = .running ∨ pc.entry = some ip)
    (hlock' : ∀ q, q ≠ p → (f (s.inodes ip)).lock ≠ some q)
    (hat : pc.entry = some ip → ((s.setInode ip f).goto p pc).At p pc)
    (hsynced : (f (s.inodes ip)).valid = true → (f (s.inodes ip)).lock = none →
      (f (s.inodes ip)).copy = s.stored ip)
    (hheld : pc = .running → (f (s.inodes ip)).valid = true ∧ (f (s.inodes ip)).copy.type ≠ .free ∧
      (s.changed ip = false → (f (s.inodes ip)).copy = s.stored ip))
    (halive : s.Finishing ip → ((s.setInode ip f).goto p pc).Finishing ip) :
    Inv n ((s.setInode ip f).goto p pc) := by
  have hinode : ((s.setInode ip f).goto p pc).inodes ip = f (s.inodes ip) := setInode_self
  have hstored : ((s.setInode ip f).goto p pc).stored ip = s.stored ip := by
    rw [Sys.stored, hinode, hf]
    rfl
  refine h.atEntry hp hr hlock ?_ ?_ rfl rfl rfl rfl hold hnew (.inl rfl) ?_ hat ?_ (fun _ hentry => ?_)
    fun hfin => ?_
  · rw [hinode]
    rfl
  · rw [hinode]
    exact hf _
  · rw [hinode]
    exact hlock'
  · grind
  · rw [hinode, hstored]
    exact hheld (hnew.resolve_right hentry)
  · rw [hstored] at hfin
    exact halive (hfin.elim (fun hfree => (h.entry ip).alive ((h.entry ip).pos hp hr) hfree) id)

theorem acquiresleep (hpc : s.pc p = .locking ip) (hlock : (s.inodes ip).lock = none) :
    Inv n ((s.setInode ip fun e => {e with lock := some p}).goto p (.loading ip)) := by
  obtain ⟨hp, hr, _⟩ := (h.entry ip).user p (by rw [hpc]; rfl)
  have hnot : ∀ stage born, s.pc p ≠ .putting ip stage born := fun stage born => by
    rw [hpc]
    nofun
  refine h.setsInode hp hr (fun q _ heq => ?_) (fun _ => rfl) (.inr (by rw [hpc]; rfl)) (.inr rfl)
    (fun q hq heq => hq (Option.some.inj heq).symm) (fun _ => ?_) (fun _ hnone => ?_) (fun heq => ?_) fun hfin => ?_
  · exact absurd (hlock.symm.trans heq) nofun
  · rw [Sys.At, Sys.stored]
    simp only [Sys.goto, setInode_self]
    exact ⟨trivial, fun hvalid => (h.entry ip).synced ((h.entry ip).pos hp hr) hvalid hlock⟩
  · cases hnone
  · cases heq
  · exact absurd hfin ((h.entry ip).not_finishing hp hr hnot)

theorem load (hpc : s.pc p = .loading ip) : Outcome (fun _ => False) (s.load p ip) (Inv n) := by
  obtain ⟨hp, hr, hat⟩ := (h.entry ip).user p (by rw [hpc]; rfl)
  rw [hpc] at hat
  have hnot : ∀ stage born, s.pc p ≠ .putting ip stage born := fun stage born => by
    rw [hpc]
    nofun
  have hfin := (h.entry ip).not_finishing hp hr hnot
  have halloc := (h.entry ip).allocated hp hr hnot
  have hlock : ∀ q, q ≠ p → (s.inodes ip).lock ≠ some q := fun q hq heq =>
    hq (Option.some.inj (heq.symm.trans hat.1))
  unfold Sys.load
  split
  case isTrue hvalid =>
    have hid : s.setInode ip id = s := by
      rw [Sys.setInode, id, update_eq_self]
    rw [← hid]
    refine h.setsInode hp hr hlock (fun _ => rfl) (.inr (by rw [hpc]; rfl)) (.inl rfl) hlock nofun (fun _ _ => hat.2 hvalid)
      (fun _ => ⟨hvalid, ?_, fun _ => hat.2 hvalid⟩) fun hfin' => absurd hfin' hfin
    rw [id, hat.2 hvalid]
    exact halloc
  case isFalse =>
    exact h.setsInode hp hr hlock (fun _ => rfl) (.inr (by rw [hpc]; rfl)) (.inl rfl) hlock nofun (fun _ _ => rfl)
      (fun _ => ⟨rfl, halloc, fun _ => rfl⟩) fun hfin' => absurd hfin' hfin

/-! ### `iput` -/

theorem unref (hp : p < n) (hr : 0 < s.refs p ip)
    (hspare : (s.inodes ip).lock = some p → 1 < s.refs p ip ∧ (s.pc p).entry ≠ some ip)
    (hold : (s.pc p).entry = none ∨ (s.pc p).entry = some ip) : Inv n ((s.unref p ip).goto p .running) := by
  have hinode : ((s.unref p ip).goto p .running).inodes ip = {s.inodes ip with ref := (s.inodes ip).ref - 1} := by
    show (s.unref p ip).inodes ip = _
    exact setRefs_inode
  refine h.of_entry (fun jp hj => ?_) ((h.entry ip).loses hp hr hspare) (by rw [hinode]) (by rw [hinode])
    (fun _ => (h.entry ip).pos hp hr) (fun q => ?_) (fun _ _ _ => rfl) fun _ _ hfin hpos => ?_
  · refine ((apart_setInode hj).trans (apart_setRefs hj)).trans (apart_goto ?_ nofun)
    show (s.pc p).entry ≠ some jp
    grind
  · by_cases hq : q = p
    · rw [hq, goto_self]
      exact .inr rfl
    · exact .inl (goto_of_ne hq)
  · obtain ⟨_, _, _, _, hone, _⟩ := (h.entry ip).finisher hfin hp hr
    grind

theorem iput (hp : p < n) (hrun : s.pc p = .running) (hspare : s.Spare p ip) :
    Outcome (fun _ => False) (s.iput p ip) (Inv n) := by
  have hentry := h.entry ip
  have hr := hspare.1
  unfold Sys.iput
  split
  case isTrue hcond =>
    obtain ⟨hone, hvalid, hnlink⟩ := hcond
    -- a process that has locked the entry has a reference of its own
    have hlock : (s.inodes ip).lock = none := by
      cases hl : (s.inodes ip).lock with
      | none => rfl
      | some q =>
        obtain ⟨hq, hrq⟩ := hentry.locker q hl
        by_cases hqp : q = p
        · have htwo := hspare.2 (hqp ▸ hl)
          have hle := Finset.single_le_sum (f := fun p => s.refs p ip) (fun _ _ => Nat.zero_le _)
            (Finset.mem_range.mpr hp)
          have href := hentry.ref
          unfold Sys.total at href
          omega
        · exact absurd hone (Nat.ne_of_gt (hentry.two hq hp hqp hrq hr))
    have hnot := running_not_putting ip hrun
    have hsynced := hentry.synced (hentry.pos hp hr) hvalid hlock
    have halloc := hentry.allocated hp hr hnot
    rw [hlock]
    refine h.setsInode hp hr (fun q _ heq => ?_) (fun _ => rfl) (.inl (by rw [hrun]; rfl)) (.inr rfl)
      (fun q hq heq => hq (Option.some.inj heq).symm) (fun _ => ?_) (fun _ hnone => ?_) (fun heq => ?_) fun hfin => ?_
    · cases hlock.symm.trans heq
    · refine ⟨fun _ => ?_, by rintro ⟨⟩, by rintro ⟨⟩, by rintro ⟨⟩⟩
      constructor <;> simp only [Sys.goto, Sys.stored, setInode_self]
      · exact hone
      · exact hvalid
      · exact hnlink
      · exact (congrArg Dinode.nlink hsynced).symm.trans hnlink
      · exact halloc
      · exact iff_of_false (fun hfree => halloc ((congrArg Dinode.type hsynced).symm.trans hfree)) (by decide)
      · rfl
    · cases hnone
    · cases heq
    · exact absurd hfin (hentry.not_finishing hp hr hnot)
  case isFalse =>
    have hgoto : (s.unref p ip).goto p .running = s.unref p ip := by
      have hsame : update s.pc p .running = s.pc := by rw [← hrun, update_eq_self]
      show {s.unref p ip with pc := update s.pc p .running} = _
      rw [hsame]
      rfl
    rw [← hgoto]
    exact h.unref hp hr (fun hl => ⟨hspare.2 hl, running_not_at ip hrun⟩) (.inl (by rw [hrun]; rfl))

end

section Freeing

variable (h : Inv n s) (hpc : s.pc p = .putting ip stage born)
include h hpc

theorem changes {f : Inode → Inode} {stage' : Stage} (hw : stage.writes = true) (hw' : stage'.writes = true)
    (hf : ∀ e : Inode, f e = {e with copy := (f e).copy})
    (hnlink : ∀ e : Inode, e.copy.nlink = 0 → (f e).copy.nlink = 0)
    (htype : (s.inodes ip).copy.type ≠ .free → ((f (s.inodes ip)).copy.type = .free ↔ stage' = .iupdateFree))
    (hstage : stage ≠ .iupdateFree) : Inv n ((s.setInode ip f).goto p (.putting ip stage' born)) := by
  obtain ⟨hp, hr, hat⟩ := (h.entry ip).user_putting hpc
  have hfrees := hat.1 hw
  have hinode : ((s.setInode ip f).goto p (.putting ip stage' born)).inodes ip = f (s.inodes ip) := setInode_self
  have hstored : ((s.setInode ip f).goto p (.putting ip stage' born)).stored ip = s.stored ip := by
    rw [Sys.stored, hinode, hf]
    rfl
  have hlock : (f (s.inodes ip)).lock = some p := by
    rw [hf]
    exact hfrees.lock
  refine h.setsInode hp hr (fun q hq heq => hq (Option.some.inj (heq.symm.trans hfrees.lock))) (fun e => by rw [hf])
    (.inr (by rw [hpc]; rfl)) (.inr rfl) (fun q hq heq => hq (Option.some.inj (heq.symm.trans hlock))) (fun _ => ?_)
    (fun _ hnone => by cases hnone.symm.trans hlock) (by rintro ⟨⟩) fun hfin => ?_
  · refine ⟨fun _ => ?_, ?_, ?_, ?_⟩
    · constructor <;> simp only [hinode, hstored]
      · exact hlock
      · rw [hf]
        exact hfrees.only
      · rw [hf]
        exact hfrees.valid
      · exact hnlink _ hfrees.unlinked
      · exact hfrees.storedUnlinked
      · exact hfrees.allocated
      · exact htype fun hfree => hstage (hfrees.type.mp hfree)
      · rw [hf]
        exact hfrees.born
    all_goals
      rintro rfl
      cases hw'
  · obtain ⟨stage'', born'', hpc', hw'', _⟩ := (h.entry ip).finisher hfin hp hr
    grind

theorem writes {stage' : Stage} (hw : stage.writes = true) (hstage' : stage = .iupdateFree → stage' = .invalidate)
    (hstage : stage ≠ .iupdateFree → stage' = .clearType) :
    Inv n ((s.write ip).goto p (.putting ip stage' born)) := by
  obtain ⟨hp, hr, hat⟩ := (h.entry ip).user_putting hpc
  have hfrees := hat.1 hw
  have hstored : ((s.write ip).goto p (.putting ip stage' born)).stored ip = (s.inodes ip).copy := by
    show (s.write ip).stored ip = _
    exact write_self
  have hlock : ∀ q, q ≠ p → (s.inodes ip).lock ≠ some q := fun q hq heq =>
    hq (Option.some.inj (heq.symm.trans hfrees.lock))
  have hfin : ¬ s.Finishing ip := fun hfin => by
    obtain ⟨stage'', born'', hpc', hw'', _⟩ := (h.entry ip).finisher hfin hp hr
    grind
  refine h.atEntry hp hr hlock (update_eq_self ..).symm rfl rfl rfl rfl rfl
    (.inr (by rw [hpc]; rfl)) (.inr rfl) (.inr ⟨hfin, rfl⟩) hlock (fun _ => ?_)
    (fun _ hnone => absurd (hnone.symm.trans hfrees.lock) nofun) (fun _ hne => absurd rfl hne) fun hfree => ?_
  · by_cases hlast : stage = .iupdateFree
    · rw [hstage' hlast]
      exact ⟨nofun, fun _ => ⟨hfrees.lock, hfrees.unlinked⟩, nofun, nofun⟩
    · have htype : (s.inodes ip).copy.type ≠ .free := fun hfree => hlast (hfrees.type.mp hfree)
      rw [hstage hlast] at hstored ⊢
      refine ⟨fun _ => ⟨hfrees.lock, hfrees.only, hfrees.valid, hfrees.unlinked, ?_, ?_, ?_, hfrees.born⟩, nofun,
        nofun, nofun⟩
      · rw [hstored]
        exact hfrees.unlinked
      · rw [hstored]
        exact htype
      · exact iff_of_false htype nofun
  · rw [hstored] at hfree
    have hlast := hfrees.type.mp (hfree.resolve_right hfin)
    rw [hstage' hlast]
    exact ⟨p, .invalidate, born, goto_self, rfl, hfrees.only, fun _ => rfl⟩

theorem gives_up {f : Inode → Inode} {stage' : Stage} (hw' : stage'.writes = false)
    (hlock : (s.inodes ip).lock = some p)
    (hf : ∀ e : Inode, f e = {e with lock := (f e).lock, valid := (f e).valid})
    (hvalid : (f (s.inodes ip)).valid = false) (hlock' : ∀ q, q ≠ p → (f (s.inodes ip)).lock ≠ some q)
    (hat : ((s.setInode ip f).goto p (.putting ip stage' born)).At p (.putting ip stage' born)) :
    Inv n ((s.setInode ip f).goto p (.putting ip stage' born)) := by
  obtain ⟨hp, hr, _⟩ := (h.entry ip).user_putting hpc
  have hinode : ((s.setInode ip f).goto p (.putting ip stage' born)).inodes ip = f (s.inodes ip) := setInode_self
  refine h.setsInode hp hr (fun q hq heq => hq (Option.some.inj (heq.symm.trans hlock))) (fun e => by rw [hf])
    (.inr (by rw [hpc]; rfl)) (.inr rfl) hlock' (fun _ => hat) (fun hv => absurd (hvalid.symm.trans hv) nofun) nofun
    fun hfin => ?_
  obtain ⟨_, _, _, _, hone, _⟩ := (h.entry ip).finisher hfin hp hr
  refine ⟨p, stage', born, goto_self, hw', ?_, fun hv => ?_⟩
  · rw [hinode, hf]
    exact hone
  grind

theorem freeStep : Inv n (s.freeStep p ip born stage) := by
  obtain ⟨hp, hr, hat⟩ := (h.entry ip).user_putting hpc
  obtain ⟨hfrees, hinvalidate, hrelease, hdrop⟩ := hat
  cases stage with
  | itrunc => exact h.changes hpc rfl rfl (fun _ => rfl) (fun _ hz => hz) (fun ht => iff_of_false ht nofun) nofun
  | iupdate => exact h.writes hpc rfl nofun fun _ => rfl
  | clearType => exact h.changes hpc rfl rfl (fun _ => rfl) (fun _ hz => hz) (fun _ => iff_of_true rfl rfl) nofun
  | iupdateFree => exact h.writes hpc rfl (fun _ => rfl) fun hne => absurd rfl hne
  | invalidate =>
    obtain ⟨hlock, _⟩ := hinvalidate rfl
    refine h.gives_up hpc rfl hlock (fun _ => rfl) rfl
      (fun q hq heq => hq (Option.some.inj (heq.symm.trans hlock))) ⟨nofun, nofun, fun _ => ?_, nofun⟩
    grind [setInode_self, Sys.goto]
  | releasesleep =>
    obtain ⟨hlock, hvalid⟩ := hrelease rfl
    refine h.gives_up hpc rfl hlock (fun _ => rfl) hvalid (fun _ _ => nofun) ⟨nofun, nofun, nofun, fun _ => ?_⟩
    simp only [Sys.goto, setInode_self]
    nofun
  | drop =>
    refine h.unref hp hr (fun hlock => absurd hlock (hdrop rfl)) (.inr ?_)
    rw [hpc]
    rfl

end Freeing

theorem step {e : Event} (h : Inv n s) (ha : s.allowed n e) :
    Outcome (· = .igetNoInodes) (s.step ninodes e) (Inv n) := by
  cases e with
  | iget p dev inum => exact h.iget ha.1 (h.ready_of_linked ha.2.2)
  | idup p ip => exact h.idup ha.1 ha.2.2 ha.2.1
  | ilock p ip =>
    have hpos := (h.entry ip).pos ha.1 ha.2.2
    rw [Sys.step, if_neg (Nat.not_lt.mpr hpos)]
    exact h.ilock ha.1 ha.2.2 ha.2.1
  | acquiresleep p =>
    rw [Sys.step]
    split
    case h_1 ip hpc =>
      split
      case h_1 => exact h
      case h_2 hlock => exact h.acquiresleep hpc hlock
    case h_2 => exact h
  | load p =>
    rw [Sys.step]
    split
    case h_1 ip hpc => exact (h.load hpc).imp fun _ hf => hf.elim
    case h_2 => exact h
  | iunlock p ip =>
    obtain ⟨hp, hrun, hlock, hchanged⟩ := ha
    have hpos := (h.entry ip).pos hp ((h.entry ip).locker p hlock).2
    rw [Sys.step, if_neg (not_or.mpr ⟨not_not.mpr hlock, Nat.not_lt.mpr hpos⟩)]
    exact h.iunlock hrun hlock hchanged
  | modify p ip copy => exact h.modify ha.2.1 ha.2.2.1 ha.2.2.2
  | iupdate p ip => exact h.iupdate ha.2.1 ha.2.2
  | iput p ip => exact (h.iput ha.1 ha.2.1 ha.2.2).imp fun _ hf => hf.elim
  | free p =>
    rw [Sys.step]
    split
    case h_1 ip stage born hpc => exact h.freeStep hpc
    case h_2 => exact h
  | ialloc p dev type =>
    obtain ⟨_, hrun, htype⟩ := ha
    refine h.moves (by rw [hrun]; rfl) rfl nofun fun dev' inum' type' heq => ?_
    cases heq
    exact htype
  | scan p =>
    rw [Sys.step]
    split
    case h_1 dev inum type hpc => exact h.scan hpc
    case h_2 => exact h
  | get p =>
    rw [Sys.step]
    split
    case h_1 dev inum hpc => exact h.get ha hpc
    case h_2 => exact h
  | give p q ip => exact h.give ha.1 ha.2.2.1.1 ha.2.1 ha.2.2.1 ha.2.2.2

theorem start (disk : ℕ → ℕ → Dinode) : Inv n (.start disk) := by
  have hzero : ∀ {P : Prop}, 0 < 0 → P := fun h => absurd h (Nat.lt_irrefl 0)
  refine ⟨fun ip => ⟨(Finset.sum_eq_zero fun _ _ => rfl).symm, hzero, nofun, nofun, hzero, nofun, hzero⟩,
    fun _ _ hpos => hzero hpos, nofun, nofun⟩

end Inv

/-! ### Runs -/

/-- `iput` writes to an inode that has no links, while it has the only reference and while
nobody has allocated the inode again. -/
def FreesUnlinked (ninodes : ℕ) (s : Sys) : Prop :=
  ∀ p s' dev inum, s.step ninodes (.free p) = .ok s' → s'.disk dev inum ≠ s.disk dev inum →
    ∃ ip stage born, s.pc p = .putting ip stage born ∧ s.Names dev inum ip ∧ (s.disk dev inum).nlink = 0 ∧
      (s.inodes ip).ref = 1 ∧ 0 < s.refs p ip ∧ s.allocs dev inum = born

/-- What the comment at the top of the inode layer promises. -/
structure TableProtocol (ninodes n : ℕ) (s : Sys) : Prop where
  /-- An inode has one entry. -/
  unique : ∀ a b, 0 < (s.inodes b).ref → s.Names (s.inodes b).dev (s.inodes b).inum a → a = b
  ref : ∀ ip, (s.inodes ip).ref = ∑ p ∈ Finset.range n, s.refs p ip
  /-- An entry that is in use, valid and unlocked is what is on the disk. -/
  synced : ∀ ip, 0 < (s.inodes ip).ref → (s.inodes ip).valid = true → (s.inodes ip).lock = none →
    (s.inodes ip).copy = s.disk (s.inodes ip).dev (s.inodes ip).inum
  frees : FreesUnlinked ninodes s

theorem Inv.frees (h : Inv n s) : FreesUnlinked ninodes s := by
  intro p s' dev inum hstep hne
  rw [Sys.step] at hstep
  split at hstep
  case h_2 =>
    grind
  case h_1 ip stage born hpc =>
    cases hstep
    obtain ⟨_, hr, hat⟩ := (h.entry ip).user_putting hpc
    -- only two steps write to the disk
    have hwrite : stage.writes = true ∧ (s.write ip).disk dev inum ≠ s.disk dev inum := by
      cases stage with
      | iupdate | iupdateFree => exact ⟨rfl, hne⟩
      | itrunc | clearType | invalidate | releasesleep | drop => exact absurd rfl hne
    have hfrees := hat.1 hwrite.1
    have hkey : dev = (s.inodes ip).dev ∧ inum = (s.inodes ip).inum := by
      by_contra hkey
      exact hwrite.2 (setDisk_of_ne hkey)
    rw [hkey.1, hkey.2]
    exact ⟨ip, stage, born, hpc, ⟨hfrees.only ▸ Nat.one_pos, rfl, rfl⟩, hfrees.storedUnlinked, hfrees.only, hr,
      hfrees.born⟩

theorem Inv.protocol (h : Inv n s) : TableProtocol ninodes n s :=
  ⟨h.unique, fun ip => (h.entry ip).ref, fun ip => (h.entry ip).synced, h.frees⟩

/-- **The inode table keeps its protocol**, for any number of processes in any order. The
only panic is that of `iget` for a full table. -/
theorem processes_protocol (ninodes n : ℕ) (disk : ℕ → ℕ → Dinode) (es : List Event)
    (hp : (processes ninodes n).Proper (.start disk) es) :
    Outcome (· = .igetNoInodes) ((processes ninodes n).run (.start disk) es) (TableProtocol ninodes n) :=
  (Protocol.run_outcome (fun _ _ _ h ha => h.step ha) (Inv.start disk) hp).mono fun _ h => h.protocol

/-- One process frees an inode; before it gives up the entry, another one allocates the
inode again, finds the entry and loads it. -/
def reallocating : List Event :=
  [.ialloc 0 1 .file, .scan 0, .get 0, .ilock 0 0, .acquiresleep 0, .load 0, .iunlock 0 0, .iput 0 0, .free 0, .free 0,
    .free 0, .free 0, .ialloc 1 1 .dir, .scan 1, .get 1, .ilock 1 0, .acquiresleep 1, .free 0, .free 0,
    .acquiresleep 1, .load 1, .free 0]

theorem processes_protocol_reallocating :
    ∃ s, (processes 3 2).run (.start fun _ _ => .zero) reallocating = .ok s ∧ (s.inodes 0).ref = 1 ∧
      (s.inodes 0).copy.type = .dir ∧ s.allocs 1 1 = 2 ∧ TableProtocol 3 2 s := by
  have hproper : (processes 3 2).Proper (.start fun _ _ => .zero) reallocating := by decide +kernel
  have hsees : ((processes 3 2).run (.start fun _ _ => .zero) reallocating).toOption.map
      (fun s => ((s.inodes 0).ref, (s.inodes 0).copy.type, s.allocs 1 1)) = some (1, .dir, 2) := by
    decide +kernel
  have hrun := processes_protocol 3 2 (fun _ _ => .zero) reallocating hproper
  generalize (processes 3 2).run (.start fun _ _ => .zero) reallocating = result at hsees hrun ⊢
  cases result with
  | error e => cases hsees
  | ok s =>
    obtain ⟨href, hrest⟩ := Prod.mk.inj (Option.some.inj hsees)
    obtain ⟨htype, hallocs⟩ := Prod.mk.inj hrest
    exact ⟨s, rfl, href, htype, hallocs, hrun⟩

end Xv6.Itable
