import Mathlib.Data.Finset.Prod
import Xv6.Files.Alloc
import Xv6.Shared.Counts

/-! The calls on descriptors, and their runs.

The slots of the descriptor tables refer to files, and `ref` counts them. Every call keeps the
counts (`Sound.serve`), by taking or dropping one reference at a time: `Core.share` for `dup` and
`fork`, `Core.leave` for `close` and `exit`. -/
namespace Xv6.Files

open Function
open Shared (Counted referrers)

variable {s s' s1 : State} {p fd f : ℕ} {x : File}

@[irreducible] def table : Finset (ℕ × ℕ) := Finset.range nproc ×ˢ Finset.range nofile

def State.slot (s : State) (i : ℕ × ℕ) : Option ℕ := if s.ofile i.1 i.2 = 0 then none else some (s.ofile i.1 i.2)

def State.count (s : State) (f : ℕ) : Option ℕ := (s.file f).map File.ref

structure Core (s : State) : Prop where
  null : s.file 0 = none
  counted : Counted table s.slot s.count
  ends : Ends s
  balanced : Balanced s

/-- What holds between the calls: a process that makes no calls has no files. -/
structure Sound (s : State) : Prop extends Core s where
  idle : ∀ p, s.used p = false → ∀ fd < nofile, s.ofile p fd = 0

/-! ### Slots -/

theorem mem_table : (p, fd) ∈ table ↔ p < nproc ∧ fd < nofile := by
  unfold table
  simp

theorem slot_setSlot (s : State) (p fd f : ℕ) :
    (s.setSlot p fd f).slot = update s.slot (p, fd) (if f = 0 then none else some f) := by
  funext ⟨p', fd'⟩
  by_cases hp : p' = p
  · subst hp
    by_cases hfd : fd' = fd
    · subst hfd
      simp [State.slot, State.setSlot]
    · simp [State.slot, State.setSlot, hfd]
  · simp [State.slot, State.setSlot, hp]

theorem slot_eq_none : s.slot (p, fd) = none ↔ s.ofile p fd = 0 := by
  simp [State.slot]

theorem slot_eq_some : s.slot (p, fd) = some f ↔ s.ofile p fd = f ∧ f ≠ 0 := by
  unfold State.slot
  grind

theorem slot_congr (h : s'.ofile = s.ofile) : s'.slot = s.slot := by
  funext i
  unfold State.slot
  rw [h]

theorem count_congr (h : s'.file = s.file) : s'.count = s.count := by
  funext f
  unfold State.count
  rw [h]

theorem fdalloc_cases (p f : ℕ) (s : State) :
    fdalloc p f s = none ∨ ∃ fd < nofile, s.ofile p fd = 0 ∧ fdalloc p f s = some (fd, s.setSlot p fd f) := by
  unfold fdalloc
  grind

theorem argfd_cases (p : ℕ) (fd : ℤ) (s : State) :
    argfd p fd s = none ∨ ∃ n < nofile, s.ofile p n ≠ 0 ∧ argfd p fd s = some (n, s.ofile p n) := by
  unfold argfd
  grind

namespace Core

section
variable (h : Core s)
include h

theorem congr (he : Ends s') (hb : Balanced s') (hofile : s'.ofile = s.ofile) (hfile : s'.file = s.file) :
    Core s' where
  null := by
    rw [hfile]
    exact h.null
  counted := by
    rw [slot_congr hofile, count_congr hfile]
    exact h.counted
  ends := he
  balanced := hb

theorem file_of_slot (hi : (p, fd) ∈ table) (hslot : s.slot (p, fd) = some f) :
    ∃ x, s.file f = some x ∧ 0 < x.ref := by
  have hsome := h.counted.live _ hi f hslot
  obtain ⟨n, hn⟩ := Option.isSome_iff_exists.mp hsome
  obtain ⟨x, hx, rfl⟩ := Option.map_eq_some_iff.mp hn
  exact ⟨x, hx, h.counted.pos f _ hn⟩

theorem ne_zero (hx : s.file f = some x) : f ≠ 0 := by
  rintro rfl
  cases h.null.symm.trans hx

theorem enter {x' : File} (he : Ends s') (hb : Balanced s') (hi : (p, fd) ∈ table)
    (hfree : s.ofile p fd = 0) (hf : f ≠ 0) (hfile : s'.file = update s.file f (some x'))
    (href : x'.ref = (s.count f).getD 0 + 1) (hofile : s'.ofile = (s.setSlot p fd f).ofile) : Core s' where
  null := by
    rw [hfile, update_of_ne hf.symm]
    exact h.null
  counted := by
    refine h.counted.enter hi (slot_eq_none.mpr hfree) (a := f) ?_ ?_ fun b hb => ?_
    · rw [slot_congr hofile, slot_setSlot, if_neg hf]
    · simp [State.count, hfile, href]
    · simp [State.count, hfile, hb]
  ends := he
  balanced := hb

theorem leave (he : Ends s') (hb : Balanced s') (hi : (p, fd) ∈ table)
    (hslot : s.slot (p, fd) = some f) (hx : s.file f = some x)
    (hfile : s'.file = update s.file f (if x.ref = 1 then none else some {x with ref := x.ref - 1}))
    (hofile : s'.ofile = (s.setSlot p fd 0).ofile) : Core s' where
  null := by
    rw [hfile, update_of_ne (h.ne_zero hx).symm]
    exact h.null
  counted := by
    refine h.counted.leave hi hslot (n := x.ref) ?_ ?_ ?_ fun b hb => ?_
    · simp [State.count, hx]
    · rw [slot_congr hofile, slot_setSlot, if_pos rfl]
    · simp only [State.count, hfile, update_self]
      split <;> rfl
    · simp [State.count, hfile, hb]
  ends := he
  balanced := hb

theorem share (hi : (p, fd) ∈ table) (hfree : s.ofile p fd = 0) (hx : s.file f = some x)
    (hpos : 0 < x.ref) :
    filedup f s = .ok (s.setFile f {x with ref := x.ref + 1}) ∧
      Core ((s.setFile f {x with ref := x.ref + 1}).setSlot p fd f) := by
  have hlive : s.live (.file f) = true := by simp [State.live, hx]
  refine ⟨?_, h.enter (f := f) ?_ ?_ hi hfree (h.ne_zero hx) rfl ?_ rfl⟩
  · grind [filedup]
  · exact h.ends.congr (isEnd_update hx rfl rfl rfl) rfl rfl
  · exact h.balanced.congr rfl fun o => (s.live_setFile hlive o)
  · simp [State.count, hx]

theorem fileclose (hi : (p, fd) ∈ table) (hslot : s.slot (p, fd) = some f) :
    (∃ s', Files.fileclose f (s.setSlot p fd 0) = .ok s' ∧ Core s' ∧ Frame (s.setSlot p fd 0) s') ∧
    ∃ s', Files.fileclose f s = .ok s' ∧ Core (s'.setSlot p fd 0) ∧ Frame s s' := by
  obtain ⟨x, hx, hpos⟩ := h.file_of_slot hi hslot
  constructor
  · obtain ⟨s', hclose, he, hb, hframe, hfile⟩ :=
      Ends.fileclose (s := s.setSlot p fd 0) (h.ends.congr (fun _ _ _ => Iff.rfl) rfl rfl)
        (h.balanced.congr rfl fun o => by cases o <;> rfl) hx hpos
    exact ⟨s', hclose, h.leave he hb hi hslot hx hfile hframe.ofile, hframe⟩
  · obtain ⟨s', hclose, he, hb, hframe, hfile⟩ := h.ends.fileclose h.balanced hx hpos
    refine ⟨s', hclose, h.leave (he.congr (fun _ _ _ => Iff.rfl) rfl rfl) (hb.congr rfl fun o => by cases o <;> rfl)
      hi hslot hx hfile ?_, hframe⟩
    unfold State.setSlot
    rw [hframe.ofile]

end

end Core

/-! ### The calls -/

/-- What a call leads to: nothing that was there is allocated again, and a call that fails changes
nothing. -/
structure Served (s : State) (r : ℤ) (s' : State) : Prop where
  sound : Sound s'
  allocs : ∀ o, s.live o = true → s'.log.count (.alloc o) = s.log.count (.alloc o)
  failed : r = -1 → Unchanged s s'

theorem Sound.same (h : Sound s) (r : ℤ) : Served s r s := ⟨h, fun _ _ => rfl, fun _ => ⟨rfl, fun _ => rfl⟩⟩

theorem Sound.file_of_ofile (h : Sound s) (hp : p < nproc) (hfd : fd < nofile) (hne : s.ofile p fd ≠ 0) :
    ∃ x, s.file (s.ofile p fd) = some x ∧ 0 < x.ref :=
  h.file_of_slot (mem_table.mpr ⟨hp, hfd⟩) (slot_eq_some.mpr ⟨rfl, hne⟩)

theorem ofile_setSlot_ne {q : ℕ} (s : State) (hq : q ≠ p) (fd f : ℕ) : (s.setSlot p fd f).ofile q = s.ofile q :=
  update_of_ne hq ..

theorem ofile_setSlot_self (s : State) (p fd f : ℕ) : (s.setSlot p fd f).ofile p = update (s.ofile p) fd f :=
  update_self ..

theorem Sound.idle_of_ne (h : Sound s) (hused : s.used p = true) (hsame : s'.used = s.used)
    (hofile : ∀ q, q ≠ p → s'.ofile q = s.ofile q) : ∀ q, s'.used q = false → ∀ fd < nofile, s'.ofile q fd = 0 := by
  intro q hq fd hfd
  rw [hsame] at hq
  have hqp : q ≠ p := by
    grind
  rw [hofile q hqp]
  exact h.idle q hq fd hfd

theorem Sound.sysDup (h : Sound s) (hp : p < nproc) (hused : s.used p = true) (fd : ℤ) :
    ∃ r s', sysDup p fd s = .ok (r, s') ∧ Served s r s' := by
  unfold Files.sysDup
  rcases argfd_cases p fd s with hnone | ⟨n, hn, hne, hsome⟩
  · rw [hnone]
    exact ⟨-1, s, rfl, h.same _⟩
  rw [hsome]
  dsimp only
  rcases fdalloc_cases p (s.ofile p n) s with hnone | ⟨m, hm, hfree, hsome⟩
  · rw [hnone]
    exact ⟨-1, s, rfl, h.same _⟩
  rw [hsome]
  dsimp only
  obtain ⟨x, hx, hpos⟩ := h.file_of_ofile hp hn hne
  obtain ⟨hdup, hcore⟩ := h.share (mem_table.mpr ⟨hp, hm⟩) hfree hx hpos
  -- The slot is written before the count, which makes no difference in the end.
  have hdup' : filedup (s.ofile p n) (s.setSlot p m (s.ofile p n)) =
      .ok ((s.setFile (s.ofile p n) {x with ref := x.ref + 1}).setSlot p m (s.ofile p n)) := by
    unfold filedup at hdup ⊢
    rw [show (s.setSlot p m (s.ofile p n)).file (s.ofile p n) = some x from hx]
    rw [hx] at hdup
    dsimp only at hdup ⊢
    rw [if_neg (by omega)]
    rfl
  rw [hdup']
  refine ⟨m, _, rfl, ⟨hcore, h.idle_of_ne hused rfl fun q hq => ?_⟩, fun _ _ => rfl, fun hr => absurd hr (by omega)⟩
  exact ofile_setSlot_ne _ hq ..

theorem Sound.sysClose (h : Sound s) (hp : p < nproc) (hused : s.used p = true) (fd : ℤ) :
    ∃ r s', sysClose p fd s = .ok (r, s') ∧ Served s r s' := by
  unfold Files.sysClose
  rcases argfd_cases p fd s with hnone | ⟨n, hn, hne, hsome⟩
  · rw [hnone]
    exact ⟨-1, s, rfl, h.same _⟩
  rw [hsome]
  dsimp only
  obtain ⟨⟨s', hclose, hcore, hframe⟩, -⟩ :=
    h.fileclose (mem_table.mpr ⟨hp, hn⟩) (slot_eq_some.mpr ⟨rfl, hne⟩)
  rw [hclose]
  refine ⟨0, s', rfl, ⟨hcore, h.idle_of_ne hused hframe.used fun q hq => ?_⟩, fun o _ => hframe.allocs o, nofun⟩
  rw [hframe.ofile]
  exact ofile_setSlot_ne _ hq ..

theorem openFields_ref (ip : Inode) (omode : ℕ) : (openFields ip omode).ref = 1 := by
  unfold openFields
  split <;> rfl

theorem openFields_type (ip : Inode) (omode : ℕ) : (openFields ip omode).type ≠ .pipe := by
  grind [openFields]

theorem Sound.sysOpen (h : Sound s) (hp : p < nproc) (hused : s.used p = true) (omode : ℕ) (inode : Option Inode)
    (hf : Unused s f .file) : ∃ r s', sysOpen p omode inode f s = .ok (r, s') ∧ Served s r s' := by
  unfold Files.sysOpen
  cases inode with
  | none => exact ⟨-1, s, rfl, h.same _⟩
  | some ip =>
    dsimp only
    split
    · exact ⟨-1, s, rfl, h.same _⟩
    split
    · exact ⟨-1, s, rfl, h.same _⟩
    by_cases hf0 : f = 0
    · have hsame : filealloc f s = s := if_pos hf0
      rw [if_pos hf0, hsame]
      exact ⟨-1, s, rfl, h.same _⟩
    rw [if_neg hf0]
    have hfree : s.file f = none := by simpa [State.live] using hf.resolve_left hf0
    obtain ⟨he1, hb1, hfile1⟩ := h.ends.filealloc h.balanced hf0 hfree
    have hg1 := (Grown.refl s).filealloc hf0 hfree
    generalize filealloc f s = s1 at he1 hb1 hfile1 hg1
    have hx : s1.file f = some .new := by rw [hfile1, update_self]
    rcases fdalloc_cases p f s1 with hnone | ⟨m, hm, hslot, hsome⟩
    · rw [hnone]
      obtain ⟨s2, hclose, he2, hb2, hg2, hfile2⟩ := he1.closeOne hb1 hg1 hx rfl
      have hback : s2.file = s.file := by
        rw [hfile2, hfile1, update_idem, ← hfree, update_eq_self]
      rw [hclose]
      refine ⟨-1, s2, rfl, ⟨h.congr he2 hb2 hg2.ofile hback, h.idle_of_ne hused hg2.used fun q _ => ?_⟩, hg2.allocs,
        fun _ => unchanged h.ends he2 hg2 hback⟩
      rw [hg2.ofile]
    · rw [hsome]
      have hfile : ((s1.setSlot p m f).setFile f (openFields ip omode)).file =
          update s.file f (some (openFields ip omode)) := by
        change update s1.file f _ = _
        rw [hfile1, update_idem]
      have hofile : ((s1.setSlot p m f).setFile f (openFields ip omode)).ofile = (s.setSlot p m f).ofile := by
        change update s1.ofile p (update (s1.ofile p) m f) = _
        rw [hg1.ofile]
        rfl
      refine ⟨m, _, rfl, ⟨h.enter ?_ ?_ (mem_table.mpr ⟨hp, hm⟩) (hg1.ofile ▸ hslot) hf0 hfile ?_ hofile,
        h.idle_of_ne hused hg1.used fun q hq => ?_⟩, hg1.allocs, fun hr => absurd hr (by omega)⟩
      · refine he1.congr (fun g q e => ?_) rfl rfl
        refine (isEnd_update_ne (by simp [openFields_type]) g q e).trans (and_iff_left_of_imp ?_)
        rintro ⟨y, hy, htype, -⟩ rfl
        cases hx.symm.trans hy
        cases htype
      · refine hb1.congr rfl fun o => (s1.setSlot p m f).live_setFile ?_ o |>.trans (by cases o <;> rfl)
        simp [State.live, State.setSlot, hx]
      · rw [openFields_ref]
        simp [State.count, hfree]
      · rw [hofile]
        exact ofile_setSlot_ne _ hq ..

/-! ### Pipes -/

theorem setSlot_cancel (hfree : s.ofile p fd = 0) (f : ℕ) : (s.setSlot p fd f).setSlot p fd 0 = s := by
  unfold State.setSlot
  dsimp only
  rw [update_self, update_idem, update_idem, ← hfree, update_eq_self,
    update_eq_self]

theorem setSlot_comm {m : ℕ} (s : State) (h : fd ≠ m) (f g : ℕ) :
    (s.setSlot p fd f).setSlot p m g = (s.setSlot p m g).setSlot p fd f := by
  unfold State.setSlot
  grind [update_self, update_idem, update_comm]

theorem Sound.closeBoth {a : Answers} (h : Sound s) (hused : s.used p = true) (he : Ends s1) (hb : Balanced s1)
    (hg : Grown s s1) (hpiped : Piped a s s1 true) : ∃ r s', closeBoth a s1 = .ok (r, s') ∧ Served s r s' := by
  obtain ⟨-, -, hne, h0, h1, x0, x1, href0, href1, hfile⟩ := hpiped
  obtain ⟨s2, s3, hclose0, hclose1, he3, hb3, hg3, hfile3⟩ := he.closeTwo hb hg hfile hne h0 h1 href0 href1
  unfold Files.closeBoth
  simp only [bind, Except.bind, hclose0, hclose1]
  refine ⟨-1, s3, rfl, ⟨h.congr he3 hb3 hg3.ofile hfile3, h.idle_of_ne hused hg3.used fun q _ => ?_⟩, hg3.allocs,
    fun _ => unchanged h.ends he3 hg3 hfile3⟩
  rw [hg3.ofile]

theorem Sound.enterTwo {a : Answers} {fd0 fd1 : ℕ} (h : Sound s) (hp : p < nproc) (hused : s.used p = true)
    (he : Ends s1) (hb : Balanced s1) (hg : Grown s s1) (hpiped : Piped a s s1 true) (hfd0 : fd0 < nofile)
    (hfd1 : fd1 < nofile) (hne : fd1 ≠ fd0) (hfree0 : s.ofile p fd0 = 0) (hfree1 : s.ofile p fd1 = 0) :
    Sound ((s1.setSlot p fd0 a.f0).setSlot p fd1 a.f1) := by
  obtain ⟨hf0, hf1, hf, h0, h1, x0, x1, href0, href1, hfile⟩ := hpiped
  have hslot : ((s1.setSlot p fd0 a.f0).setSlot p fd1 a.f1).slot =
      update (update s.slot (p, fd0) (some a.f0)) (p, fd1) (some a.f1) := by
    rw [slot_setSlot, slot_setSlot, if_neg hf0, if_neg hf1, slot_congr hg.ofile]
  have hpair : ((p, fd1) : ℕ × ℕ) ≠ (p, fd0) := by simpa using hne
  have hcount0 : s.count a.f0 = none := by simp [State.count, h0]
  have hcount1 : s.count a.f1 = none := by simp [State.count, h1]
  have hfirst : Counted table (update s.slot (p, fd0) (some a.f0)) (update s.count a.f0 (some 1)) := by
    refine h.counted.enter (mem_table.mpr ⟨hp, hfd0⟩) (slot_eq_none.mpr hfree0) rfl ?_ fun b hb => ?_
    · grind
    · exact update_of_ne hb ..
  refine ⟨⟨?_, ?_, he.congr (fun _ _ _ => Iff.rfl) rfl rfl, hb.congr rfl fun o => by cases o <;> rfl⟩,
    h.idle_of_ne hused hg.used fun q hq => ?_⟩
  · change s1.file 0 = none
    rw [hfile, update_of_ne hf1.symm, update_of_ne hf0.symm]
    exact h.null
  · refine hfirst.enter (mem_table.mpr ⟨hp, hfd1⟩) ?_ hslot ?_ fun b hb => ?_
    · rw [update_of_ne hpair]
      exact slot_eq_none.mpr hfree1
    · rw [update_of_ne hf, hcount1]
      change (s1.file a.f1).map File.ref = _
      rw [hfile, update_self, Option.map_some, href1]
      rfl
    · change (s1.file b).map File.ref = _
      rw [hfile, update_of_ne hb]
      by_cases hb0 : b = a.f0
      · grind
      · rw [update_of_ne hb0, update_of_ne hb0]
        rfl
  · rw [ofile_setSlot_ne _ hq, ofile_setSlot_ne _ hq, hg.ofile]

theorem Sound.pipeDescriptors {a : Answers} (h : Sound s) (hp : p < nproc) (hused : s.used p = true)
    (he : Ends s1) (hb : Balanced s1) (hg : Grown s s1) (hpiped : Piped a s s1 true) :
    ∃ r s', pipeDescriptors p a s1 = .ok (r, s') ∧ Served s r s' := by
  have hboth := h.closeBoth hused he hb hg hpiped
  unfold Files.pipeDescriptors
  rcases fdalloc_cases p a.f0 s1 with hnone | ⟨fd0, hfd0, hfree0, hsome⟩
  · rw [hnone]
    exact hboth
  rw [hsome]
  dsimp only
  rcases fdalloc_cases p a.f1 (s1.setSlot p fd0 a.f0) with hnone | ⟨fd1, hfd1, hfree1, hsome⟩
  · rw [hnone, setSlot_cancel hfree0]
    exact hboth
  rw [hsome]
  dsimp only
  rw [ofile_setSlot_self] at hfree1
  have hne : fd1 ≠ fd0 := by
    rintro rfl
    rw [update_self] at hfree1
    exact hpiped.1 hfree1
  rw [update_of_ne hne] at hfree1
  split
  · grind [setSlot_comm, setSlot_cancel]
  · rw [hg.ofile] at hfree0 hfree1
    exact ⟨0, _, rfl, h.enterTwo hp hused he hb hg hpiped hfd0 hfd1 hne hfree0 hfree1, hg.allocs, nofun⟩

theorem Sound.sysPipe {a : Answers} (h : Sound s) (hp : p < nproc) (hused : s.used p = true)
    (ha : Answered s (.sysPipe p a)) : ∃ r s', sysPipe p a s = .ok (r, s') ∧ Served s r s' := by
  obtain ⟨ha0, ha1, hne, hpi, hdata⟩ := ha
  obtain ⟨ok, s1, halloc, he, hb, hg, hpiped⟩ := h.ends.pipealloc h.balanced ha0 ha1 hne hpi hdata
  unfold Files.sysPipe
  rw [halloc]
  cases ok with
  | true => exact h.pipeDescriptors hp hused he hb hg hpiped
  | false =>
    refine ⟨-1, s1, rfl, ⟨h.congr he hb hg.ofile hpiped, h.idle_of_ne hused hg.used fun q _ => ?_⟩, hg.allocs,
      fun _ => unchanged h.ends he hg hpiped⟩
    rw [hg.ofile]

/-! ### Processes -/

theorem Core.forkLoop {np : ℕ} (fds : List ℕ) (h : Core s) (hp : p < nproc) (hnp : np < nproc)
    (hlt : ∀ fd ∈ fds, fd < nofile) (hnodup : fds.Nodup) (hfree : ∀ fd ∈ fds, s.ofile np fd = 0) :
    ∃ s', forkLoop p np fds s = .ok s' ∧ Core s' ∧ s'.used = s.used ∧ s'.log = s.log ∧
      ∀ q, q ≠ np → s'.ofile q = s.ofile q := by
  induction fds generalizing s with
  | nil => exact ⟨s, rfl, h, rfl, rfl, fun _ _ => rfl⟩
  | cons fd fds ih =>
    obtain ⟨hfd, hlt⟩ := List.forall_mem_cons.mp hlt
    obtain ⟨hfree0, hfree⟩ := List.forall_mem_cons.mp hfree
    obtain ⟨hnot, hnodup⟩ := List.nodup_cons.mp hnodup
    unfold Files.forkLoop
    by_cases hempty : s.ofile p fd = 0
    · rw [if_pos hempty]
      exact ih h hlt hnodup hfree
    · rw [if_neg hempty]
      obtain ⟨x, hx, hpos⟩ := h.file_of_slot (mem_table.mpr ⟨hp, hfd⟩) (slot_eq_some.mpr ⟨rfl, hempty⟩)
      obtain ⟨hdup, hcore⟩ := h.share (mem_table.mpr ⟨hnp, hfd⟩) hfree0 hx hpos
      rw [hdup]
      obtain ⟨s', hrun, hcore', hused, hlog, hother⟩ := ih hcore hlt hnodup fun fd' hfd' => by
        rw [ofile_setSlot_self, update_of_ne (ne_of_mem_of_not_mem hfd' hnot)]
        exact hfree fd' hfd'
      refine ⟨s', hrun, hcore', hused, hlog, fun q hq => (hother q hq).trans ?_⟩
      exact ofile_setSlot_ne _ hq ..

theorem Sound.kfork (h : Sound s) (hp : p < nproc) (child : Option ℕ)
    (hchild : ∀ np ∈ child, np < nproc ∧ s.used np = false) :
    ∃ r s', kfork p child s = .ok (r, s') ∧ Served s r s' := by
  unfold Files.kfork
  cases child with
  | none => exact ⟨-1, s, rfl, h.same _⟩
  | some np =>
    obtain ⟨hnp, hunused⟩ := hchild np rfl
    obtain ⟨s', hrun, hcore, hsame, hlog, hother⟩ :=
      h.forkLoop (List.range nofile) hp hnp (fun fd hfd => List.mem_range.mp hfd) List.nodup_range
        fun fd hfd => h.idle np hunused fd (List.mem_range.mp hfd)
    dsimp only
    rw [hrun]
    refine ⟨np, _, rfl, ⟨⟨hcore.null, hcore.counted, hcore.ends.congr (fun _ _ _ => Iff.rfl) rfl rfl,
      hcore.balanced.congr rfl fun o => by cases o <;> rfl⟩, fun q hq fd hfd => ?_⟩, fun o _ => ?_,
      fun hr => absurd hr (by omega)⟩
    · dsimp only at hq
      have hqnp : q ≠ np := by
        grind
      rw [update_of_ne hqnp, hsame] at hq
      exact (congrFun (hother q hqnp) fd).trans (h.idle q hq fd hfd)
    · exact congrArg _ hlog

theorem Core.exitLoop (fds : List ℕ) (h : Core s) (hp : p < nproc) (hlt : ∀ fd ∈ fds, fd < nofile) :
    ∃ s', exitLoop p fds s = .ok s' ∧ Core s' ∧ s'.used = s.used ∧
      (∀ o, s'.log.count (.alloc o) = s.log.count (.alloc o)) ∧ (∀ q, q ≠ p → s'.ofile q = s.ofile q) ∧
      (∀ fd, s.ofile p fd = 0 → s'.ofile p fd = 0) ∧ ∀ fd ∈ fds, s'.ofile p fd = 0 := by
  induction fds generalizing s with
  | nil => exact ⟨s, rfl, h, rfl, fun _ => rfl, fun _ _ => rfl, fun _ hz => hz, nofun⟩
  | cons fd fds ih =>
    obtain ⟨hfd, hlt⟩ := List.forall_mem_cons.mp hlt
    unfold Files.exitLoop
    by_cases hempty : s.ofile p fd = 0
    · rw [if_pos hempty]
      obtain ⟨s', hrun, hcore, hused, hallocs, hother, hzero, hall⟩ := ih h hlt
      exact ⟨s', hrun, hcore, hused, hallocs, hother, hzero,
        List.forall_mem_cons.mpr ⟨hzero fd hempty, hall⟩⟩
    · rw [if_neg hempty]
      obtain ⟨-, s1, hclose, hcore1, hframe⟩ :=
        h.fileclose (mem_table.mpr ⟨hp, hfd⟩) (slot_eq_some.mpr ⟨rfl, hempty⟩)
      rw [hclose]
      obtain ⟨s', hrun, hcore, hused, hallocs, hother, hzero, hall⟩ := ih hcore1 hlt
      have hgone : s'.ofile p fd = 0 := hzero fd (by rw [ofile_setSlot_self, update_self])
      refine ⟨s', hrun, hcore, hused.trans hframe.used, fun o => (hallocs o).trans (hframe.allocs o), fun q hq => ?_,
        fun fd' hz => ?_, List.forall_mem_cons.mpr ⟨hgone, hall⟩⟩
      · rw [hother q hq, ofile_setSlot_ne _ hq, hframe.ofile]
      · by_cases heq : fd' = fd
        · rw [heq]
          exact hgone
        · refine hzero fd' ?_
          rw [ofile_setSlot_self, update_of_ne heq, hframe.ofile]
          exact hz

theorem Sound.kexit (h : Sound s) (hp : p < nproc) : ∃ r s', kexit p s = .ok (r, s') ∧ Served s r s' := by
  obtain ⟨s', hrun, hcore, hused, hallocs, hother, -, hall⟩ :=
    h.exitLoop (List.range nofile) hp fun fd hfd => List.mem_range.mp hfd
  unfold Files.kexit
  rw [hrun]
  refine ⟨0, _, rfl, ⟨⟨hcore.null, hcore.counted, hcore.ends.congr (fun _ _ _ => Iff.rfl) rfl rfl,
    hcore.balanced.congr rfl fun o => by cases o <;> rfl⟩, fun q hq fd hfd => ?_⟩, fun o _ => hallocs o, nofun⟩
  by_cases hqp : q = p
  · grind
  · dsimp only at hq
    rw [update_of_ne hqp, hused] at hq
    exact (congrFun (hother q hqp) fd).trans (h.idle q hq fd hfd)

/-! ### Runs -/

theorem Sound.serve {c : Call} (h : Sound s) (hc : calls.allowed s c) : ∃ r s', call s c = .ok (r, s') ∧ Served s r s' := by
  obtain ⟨hp, hused, ha⟩ := hc
  cases c with
  | sysOpen p omode inode f => exact h.sysOpen hp hused omode inode ha
  | sysDup p fd => exact h.sysDup hp hused fd
  | sysPipe p a => exact h.sysPipe hp hused ha
  | kfork p child => exact h.kfork hp child ha
  | sysClose p fd => exact h.sysClose hp hused fd
  | kexit p => exact h.kexit hp

theorem boot_sound : Sound boot where
  null := rfl
  counted := by
    refine ⟨nofun, nofun, fun i _ a ha => ?_⟩
    simp [State.slot, boot] at ha
  ends := by
    have hnone : ∀ f q e, ¬ IsEnd boot.file f q e := by
      rintro f q e ⟨x, hx, -⟩
      cases hx
    refine ⟨fun f q e hf => absurd hf (hnone f q e), fun f g q e hf _ => absurd hf (hnone f q e), nofun, nofun,
      fun b => iff_of_false nofun ?_, nofun⟩
    rintro ⟨q, y, hy, -⟩
    cases hy
  balanced o := by cases o <;> rfl
  idle _ _ _ _ := rfl

/-- A slot refers to an object: to a file, or through it to a pipe and to the buffer of a pipe. -/
def Refers (s : State) (p fd : ℕ) : Object → Prop
  | .file f => s.ofile p fd = f ∧ f ≠ 0
  | .pipe q => ∃ e, IsEnd s.file (s.ofile p fd) q e
  | .buffer b => ∃ q e y, IsEnd s.file (s.ofile p fd) q e ∧ s.pipe q = some y ∧ y.data = b

def State.slots (s : State) (f : ℕ) : Finset (ℕ × ℕ) :=
  (Finset.range nproc ×ˢ Finset.range nofile).filter fun i => s.ofile i.1 i.2 = f

namespace Sound

theorem ref_eq (h : Sound s) (hx : s.file f = some x) : x.ref = (s.slots f).card ∧ 1 ≤ x.ref := by
  have hcount : s.count f = some x.ref := by simp [State.count, hx]
  refine ⟨(h.counted.eq f _ hcount).trans (congrArg _ (Finset.ext fun i => ?_)), h.counted.pos f _ hcount⟩
  have hne := h.ne_zero hx
  rw [Shared.mem_referrers, mem_table, slot_eq_some, State.slots, Finset.mem_filter, Finset.mem_product,
    Finset.mem_range, Finset.mem_range, and_iff_left hne]

theorem file_iff (h : Sound s) (f : ℕ) :
    (s.file f).isSome ↔ ∃ p < nproc, ∃ fd < nofile, s.ofile p fd = f ∧ f ≠ 0 := by
  have hcount : (s.file f).isSome ↔ (s.count f).isSome := by simp [State.count]
  rw [hcount, h.counted.isSome_iff]
  constructor
  · grind [mem_table, slot_eq_some]
  · rintro ⟨p, hp, fd, hfd, hslot⟩
    exact ⟨(p, fd), mem_table.mpr ⟨hp, hfd⟩, slot_eq_some.mpr hslot⟩

theorem slot_of_end (h : Sound s) {q : ℕ} {e : Bool} (hf : IsEnd s.file f q e) :
    ∃ p < nproc, ∃ fd < nofile, s.ofile p fd = f := by
  obtain ⟨x, hx, -⟩ := hf
  grind [Sound.file_iff]

theorem live_iff (h : Sound s) (o : Object) : s.live o = true ↔ ∃ p < nproc, ∃ fd < nofile, Refers s p fd o := by
  cases o with
  | file f => exact h.file_iff f
  | pipe q =>
    refine (h.ends.pipe_iff q).trans ⟨?_, ?_⟩
    · rintro ⟨f, e, hf⟩
      obtain ⟨p, hp, fd, hfd, rfl⟩ := h.slot_of_end hf
      exact ⟨p, hp, fd, hfd, e, hf⟩
    · rintro ⟨p, -, fd, -, e, hf⟩
      exact ⟨_, e, hf⟩
  | buffer b =>
    refine (h.ends.buffer b).trans ⟨?_, ?_⟩
    · rintro ⟨q, y, hy, hdata⟩
      obtain ⟨f, e, hf⟩ := (h.ends.pipe_iff q).mp (by rw [hy]; rfl)
      obtain ⟨p, hp, fd, hfd, rfl⟩ := h.slot_of_end hf
      exact ⟨p, hp, fd, hfd, q, e, y, hf, hy, hdata⟩
    · rintro ⟨p, -, fd, -, q, e, y, -, hy, hdata⟩
      exact ⟨q, y, hy, hdata⟩

end Sound

/-- What was there before a call is given back by it once, if it is not there afterwards. -/
theorem Served.frees {r : ℤ} {o : Object} (h : Served s r s') (hs : Sound s) (ho : s.live o = true) :
    s'.log.count (.free o) = s.log.count (.free o) + (!s'.live o).toNat := by
  have hbefore := hs.balanced o
  have hafter := h.sound.balanced o
  rw [h.allocs o ho, hbefore, ho] at hafter
  cases hlive : s'.live o with
  | true =>
    grind
  | false =>
    grind

/-- Every run of calls returns. In each state it reaches the references of a file are counted, the
objects allocated are those that a slot refers to, and each was given back once for every time before
that it was allocated. A call gives back what no slot refers to any more; one that fails changes
neither the descriptors nor what is allocated. -/
theorem files_are_counted (cs : List Call) (hp : calls.Proper boot cs) :
    ∃ s, calls.run boot cs = .ok s ∧
      (∀ f x, s.file f = some x → x.ref = (s.slots f).card ∧ 1 ≤ x.ref) ∧
      (∀ o, s.live o = true ↔ ∃ p < nproc, ∃ fd < nofile, Refers s p fd o) ∧
      (∀ o, s.log.count (.alloc o) = s.log.count (.free o) + (s.live o).toNat) ∧
      ∀ c, calls.allowed s c → ∃ r s', call s c = .ok (r, s') ∧
        (∀ o, s.live o = true → s'.log.count (.free o) = s.log.count (.free o) + (!s'.live o).toNat) ∧
        (r = -1 → s'.ofile = s.ofile ∧ ∀ o, s'.live o = s.live o) := by
  obtain ⟨s, hrun, hs⟩ := Protocol.run_invariant (P := calls) (I := Sound)
    (fun c _ s hs hc => by
      obtain ⟨r, s', hcall, hserved⟩ := hs.serve hc
      refine ⟨s', ?_, hserved.sound⟩
      change Prod.snd <$> call s c = _
      rw [hcall]
      rfl) boot_sound hp
  refine ⟨s, hrun, fun f x hx => hs.ref_eq hx, hs.live_iff, hs.balanced, fun c hc => ?_⟩
  obtain ⟨r, s', hcall, hserved⟩ := hs.serve hc
  exact ⟨r, s', hcall, fun o ho => hserved.frees hs ho, fun hr => ⟨(hserved.failed hr).ofile, (hserved.failed hr).live⟩⟩

instance (s : State) : ∀ c, Decidable (Answered s c)
  | .sysOpen _ _ _ f => inferInstanceAs (Decidable (f = 0 ∨ s.live (.file f) = false))
  | .sysPipe _ a => inferInstanceAs (Decidable ((a.f0 = 0 ∨ s.live (.file a.f0) = false) ∧
      (a.f1 = 0 ∨ s.live (.file a.f1) = false) ∧ (a.f1 = 0 ∨ a.f1 ≠ a.f0) ∧
      (a.pi = 0 ∨ s.live (.pipe a.pi) = false) ∧ (a.data = 0 ∨ s.live (.buffer a.data) = false)))
  | .kfork _ child => inferInstanceAs (Decidable (∀ np ∈ child, np < nproc ∧ s.used np = false))
  | .sysDup _ _ => .isTrue trivial
  | .sysClose _ _ => .isTrue trivial
  | .kexit _ => .isTrue trivial

instance (s : State) (c : Call) : Decidable (calls.allowed s c) :=
  inferInstanceAs (Decidable (c.proc < nproc ∧ s.used c.proc = true ∧ Answered s c))

/-- A pipe between two processes: parent and child close the ends they do not use, and exit. -/
def piping : List Call :=
  [.sysPipe 0 ⟨100, 200, true, 300, 400, true, true⟩, .kfork 0 (some 1), .sysClose 0 0, .sysClose 1 1, .kexit 1, .kexit 0]

theorem files_are_counted_piping : calls.Proper boot piping ∧ ∃ s, calls.run boot piping = .ok s ∧
    (∀ f x, s.file f = some x → x.ref = (s.slots f).card ∧ 1 ≤ x.ref) ∧
    (∀ o, s.live o = true ↔ ∃ p < nproc, ∃ fd < nofile, Refers s p fd o) ∧
    ∀ o, s.log.count (.alloc o) = s.log.count (.free o) + (s.live o).toNat := by
  have hp : calls.Proper boot piping := by decide +kernel
  obtain ⟨s, hrun, hcounted, hlive, hbalanced, -⟩ := files_are_counted piping hp
  exact ⟨hp, s, hrun, hcounted, hlive, hbalanced⟩

end Xv6.Files
