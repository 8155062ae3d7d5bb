import Xv6.Files.Ends

/-! New files and pipes, and what is left of them when a call fails.

A call that allocates goes on from the state `s` it was made in (`Grown`). While it fails it
closes what it allocated, and then the files are those of `s` again (`Ends.closeTwo`), so that
nothing else has changed (`unchanged`). -/
namespace Xv6.Files

open Function

variable {s s' s₁ s2 : State} {f : ℕ} {o : Object}

/-- The descriptors and what is allocated are the same. -/
structure Unchanged (s s' : State) : Prop where
  ofile : s'.ofile = s.ofile
  live : ∀ o, s'.live o = s.live o

/-- A later state of a call that was made in `s`: what was allocated then is not allocated again. -/
structure Grown (s s₁ : State) : Prop where
  ofile : s₁.ofile = s.ofile
  used : s₁.used = s.used
  data : ∀ q y z, s₁.pipe q = some y → s.pipe q = some z → z.data = y.data
  allocs : ∀ o, s.live o = true → s₁.log.count (.alloc o) = s.log.count (.alloc o)

namespace Grown

theorem refl (s : State) : Grown s s := by
  refine ⟨rfl, rfl, fun q y z hy hz => ?_, fun _ _ => rfl⟩
  cases hy.symm.trans hz
  rfl

theorem frame (h : Grown s s₁) (hframe : Frame s₁ s2) : Grown s s2 where
  ofile := hframe.ofile.trans h.ofile
  used := hframe.used.trans h.used
  data q y z hy hz := by
    obtain ⟨w, hw, hdata⟩ := hframe.data q y hy
    exact (h.data q w z hw hz).trans hdata
  allocs o ho := (hframe.allocs o).trans (h.allocs o ho)

theorem alloc (h : Grown s s₁) (hdead : s.live o = false) : Grown s (s₁.note (.alloc o)) where
  ofile := h.ofile
  used := h.used
  data := h.data
  allocs o' ho' := by
    have hne : Event.alloc o ≠ Event.alloc o' := by
      grind
    exact (List.count_cons_of_ne hne).trans (h.allocs o' ho')

theorem setFile (h : Grown s s₁) (f : ℕ) (x : File) : Grown s (s₁.setFile f x) := ⟨h.ofile, h.used, h.data, h.allocs⟩

theorem setPipe {q : ℕ} (h : Grown s s₁) (hq : s.pipe q = none) (y : Pipe) : Grown s (s₁.setPipe q y) where
  ofile := h.ofile
  used := h.used
  data r w z hw hz := by
    have hr : r ≠ q := by
      grind
    exact h.data r w z ((update_of_ne hr ..).symm.trans hw) hz
  allocs := h.allocs

end Grown

theorem unchanged (he : Ends s) (he' : Ends s') (hg : Grown s s') (hfile : s'.file = s.file) : Unchanged s s' := by
  have hpipe : ∀ q, (s'.pipe q).isSome ↔ (s.pipe q).isSome := by
    intro q
    rw [he.pipe_iff, he'.pipe_iff, hfile]
  refine ⟨hg.ofile, fun o => ?_⟩
  cases o with
  | file f => simp only [State.live, hfile]
  | pipe q => exact Bool.eq_iff_iff.mpr (hpipe q)
  | buffer b =>
    refine Bool.eq_iff_iff.mpr ((he'.buffer b).trans (Iff.trans ?_ (he.buffer b).symm))
    constructor
    · rintro ⟨q, y, hy, hdata⟩
      obtain ⟨z, hz⟩ := Option.isSome_iff_exists.mp ((hpipe q).mp (by rw [hy]; rfl))
      exact ⟨q, z, hz, (hg.data q y z hy hz).trans hdata⟩
    · rintro ⟨q, z, hz, hdata⟩
      obtain ⟨y, hy⟩ := Option.isSome_iff_exists.mp ((hpipe q).mpr (by rw [hz]; rfl))
      exact ⟨q, y, hy, (hg.data q y z hy hz).symm.trans hdata⟩

/-! ### Files -/

theorem Ends.filealloc (he : Ends s) (hb : Balanced s) (hf : f ≠ 0) (hfree : s.file f = none) :
    Ends (filealloc f s) ∧ Balanced (filealloc f s) ∧ (filealloc f s).file = update s.file f (some .new) := by
  unfold Files.filealloc
  rw [if_neg hf]
  refine ⟨he.congr (fun g q e => ?_) rfl rfl, hb.alloc (o := .file f) ?_ rfl ?_ fun o' ho' => ?_, rfl⟩
  · refine (isEnd_update_ne (by simp [File.new]) g q e).trans (and_iff_left_of_imp ?_)
    rintro ⟨x, hx, -⟩ rfl
    cases hfree.symm.trans hx
  · simp [State.live, hfree]
  · simp [State.live, State.note, State.setFile]
  · cases o' with
    | file g => simp_all [State.live, State.note, State.setFile]
    | pipe q => rfl
    | buffer b => rfl

theorem Grown.filealloc (hg : Grown s s₁) (hf : f ≠ 0) (hfree : s.file f = none) : Grown s (filealloc f s₁) := by
  unfold Files.filealloc
  rw [if_neg hf]
  exact (hg.setFile f .new).alloc (by simp [State.live, hfree])

theorem Ends.closeOne {x : File} (he : Ends s₁) (hb : Balanced s₁) (hg : Grown s s₁) (hx : s₁.file f = some x)
    (href : x.ref = 1) :
    ∃ s2, Files.fileclose f s₁ = .ok s2 ∧ Ends s2 ∧ Balanced s2 ∧ Grown s s2 ∧ s2.file = update s₁.file f none := by
  obtain ⟨s2, hclose, he2, hb2, hframe, hfile⟩ := he.fileclose hb hx (by omega)
  rw [if_pos href] at hfile
  exact ⟨s2, hclose, he2, hb2, hg.frame hframe, hfile⟩

theorem Ends.closeTwo {f₀ f₁ : ℕ} {x0 x₁ : File} (he : Ends s₁) (hb : Balanced s₁) (hg : Grown s s₁)
    (hfile : s₁.file = update (update s.file f₀ (some x0)) f₁ (some x₁)) (hne : f₁ ≠ f₀) (h0 : s.file f₀ = none)
    (h1 : s.file f₁ = none) (href0 : x0.ref = 1) (href1 : x₁.ref = 1) :
    ∃ s2 s3, Files.fileclose f₀ s₁ = .ok s2 ∧ Files.fileclose f₁ s2 = .ok s3 ∧ Ends s3 ∧ Balanced s3 ∧ Grown s s3 ∧
      s3.file = s.file := by
  have hx0 : s₁.file f₀ = some x0 := by
    rw [hfile, update_of_ne hne.symm, update_self]
  obtain ⟨s2, hclose0, he2, hb2, hg2, hfile2⟩ := he.closeOne hb hg hx0 href0
  have hx1 : s2.file f₁ = some x₁ := by
    rw [hfile2, hfile, update_of_ne hne, update_self]
  obtain ⟨s3, hclose1, he3, hb3, hg3, hfile3⟩ := he2.closeOne hb2 hg2 hx1 href1
  refine ⟨s2, s3, hclose0, hclose1, he3, hb3, hg3, funext fun g => ?_⟩
  rw [hfile3, hfile2, hfile]
  grind

/-! ### Pipes -/

/-- The files at the end of `pipealloc`: with a pipe, two new ones with one reference each. -/
def Piped (a : Answers) (s s₁ : State) : Bool → Prop
  | false => s₁.file = s.file
  | true => a.f0 ≠ 0 ∧ a.f1 ≠ 0 ∧ a.f1 ≠ a.f0 ∧ s.file a.f0 = none ∧ s.file a.f1 = none ∧
      ∃ x0 x₁ : File, x0.ref = 1 ∧ x₁.ref = 1 ∧ s₁.file = update (update s.file a.f0 (some x0)) a.f1 (some x₁)

theorem bad_eq {pi f₀ f₁ : ℕ} {s0 s3 : State} (hpipe : badPipe pi s0 = .ok s₁) (h0 : badFile f₀ s₁ = .ok s2)
    (h1 : badFile f₁ s2 = .ok s3) : bad pi f₀ f₁ s0 = .ok (false, s3) := by
  unfold bad
  simp only [bind, Except.bind, hpipe, h0, h1]
  rfl

theorem Ends.bad {f₀ f₁ pi : ℕ} {s0 : State} (he : Ends s₁) (hb : Balanced s₁) (hg : Grown s s₁)
    (hpipe : badPipe pi s0 = .ok s₁) (hfile : s₁.file = update (update s.file f₀ (some .new)) f₁ (some .new))
    (hne : f₁ ≠ f₀) (hf0 : f₀ ≠ 0) (hf1 : f₁ ≠ 0) (h0 : s.file f₀ = none) (h1 : s.file f₁ = none) :
    ∃ s2, Files.bad pi f₀ f₁ s0 = .ok (false, s2) ∧ Ends s2 ∧ Balanced s2 ∧ Grown s s2 ∧ s2.file = s.file := by
  obtain ⟨s2, s3, hclose0, hclose1, he3, hb3, hg3, hfile3⟩ := he.closeTwo hb hg hfile hne h0 h1 rfl rfl
  exact ⟨s3, bad_eq hpipe ((if_neg hf0).trans hclose0) ((if_neg hf1).trans hclose1), he3, hb3, hg3, hfile3⟩

theorem Balanced.allocPipe {a : Answers} (hb : Balanced s) (hpi : s.live (.pipe a.pi) = false) :
    Balanced (allocPipe a s) := by
  refine hb.alloc hpi rfl ?_ fun o' ho' => ?_
  · simp [State.live, Files.allocPipe, State.note, State.setPipe]
  · cases o' with
    | file g => rfl
    | pipe r => simp_all [State.live, Files.allocPipe, State.note, State.setPipe]
    | buffer b => rfl

theorem Balanced.allocBuffer {a : Answers} (hb : Balanced s) (hdata : s.live (.buffer a.data) = false) :
    Balanced (allocBuffer a s) := by
  refine hb.alloc hdata rfl ?_ fun o' ho' => ?_
  · simp [State.live, Files.allocBuffer, State.note]
  · cases o' with
    | file g => rfl
    | pipe r => rfl
    | buffer b => simp_all [State.live, Files.allocBuffer, State.note]

theorem Ends.badPipe {a : Answers} (he : Ends s) (hb : Balanced s) (hcache : s.pipeCache = true) (hpi : a.pi ≠ 0)
    (hq : s.pipe a.pi = none) (hd : a.data = 0) :
    ∃ s', Files.badPipe a.pi (allocPipe a s) = .ok s' ∧ Ends s' ∧ Balanced s' ∧ Frame (allocPipe a s) s' ∧
      s'.file = s.file := by
  have hb1 : Balanced (Files.allocPipe a s) := hb.allocPipe (by simp [State.live, hq])
  have hpipe : (Files.allocPipe a s).pipe a.pi = some ⟨a.data, 0, 0, true, true⟩ := update_self ..
  obtain ⟨hrel, hb2⟩ := hb1.release (o := .pipe a.pi) (by simp [State.live, hpipe])
  refine ⟨((Files.allocPipe a s).drop (.pipe a.pi)).note (.free (.pipe a.pi)), ?_,
    he.congr (fun _ _ _ => Iff.rfl) ?_ rfl, hb2, Frame.release .., rfl⟩
  · unfold Files.badPipe
    rw [if_neg hpi, hpipe]
    dsimp only
    rw [if_pos hd]
    exact (if_pos hcache).trans hrel
  · change update (update s.pipe a.pi _) a.pi none = s.pipe
    rw [update_idem, ← hq, update_eq_self]

theorem isEnd_pipeFields {a : Answers} (hne : a.f1 ≠ a.f0) (hx0 : s.file a.f0 = some .new)
    (hx1 : s.file a.f1 = some .new) (g r : ℕ) (d : Bool) :
    IsEnd (pipeFields a (allocBuffer a (allocPipe a s))).file g r d ↔
      IsEnd s.file g r d ∨ r = a.pi ∧ g = if d then a.f1 else a.f0 := by
  change IsEnd (update (update s.file a.f0 _) a.f1 _) g r d ↔ _
  grind [File.new, IsEnd]

section Pipealloc

variable {a : Answers} (hne : a.f1 ≠ a.f0) (hf0 : a.f0 ≠ 0) (hf1 : a.f1 ≠ 0) (h0 : s.file a.f0 = none)
  (h1 : s.file a.f1 = none)

include hne hf0 hf1 h0 h1

theorem Ends.pipeFields (he : Ends s₁) (hb : Balanced s₁) (hg : Grown s s₁)
    (hfile : s₁.file = update (update s.file a.f0 (some .new)) a.f1 (some .new)) (hpi : s₁.pipe a.pi = none)
    (hpi' : s.pipe a.pi = none) (hdata : s₁.buffer a.data = false) (hdata' : s.buffer a.data = false) :
    Ends (pipeFields a (allocBuffer a (allocPipe a s₁))) ∧
      Balanced (pipeFields a (allocBuffer a (allocPipe a s₁))) ∧
      Grown s (pipeFields a (allocBuffer a (allocPipe a s₁))) ∧
      Piped a s (pipeFields a (allocBuffer a (allocPipe a s₁))) true := by
  have hx0 : s₁.file a.f0 = some .new := by rw [hfile, update_of_ne hne.symm, update_self]
  have hx1 : s₁.file a.f1 = some .new := by rw [hfile, update_self]
  have hlive0 : (allocBuffer a (allocPipe a s₁)).live (.file a.f0) = true := by
    change (s₁.file a.f0).isSome = true
    rw [hx0]
    rfl
  have hlive1 : (allocBuffer a (allocPipe a s₁)).live (.file a.f1) = true := by
    change (s₁.file a.f1).isSome = true
    rw [hx1]
    rfl
  refine ⟨?_, ?_, ?_, hf0, hf1, hne, h0, h1, {File.new with type := .pipe, readable := true, writable := false, pipe := a.pi},
    {File.new with type := .pipe, readable := false, writable := true, pipe := a.pi}, rfl, rfl, ?_⟩
  · exact he.add hpi hdata (isEnd_pipeFields hne hx0 hx1) rfl (fun d => by cases d <;> rfl) rfl rfl
  · have hb3 := (hb.allocPipe (a := a) (by simp [State.live, hpi])).allocBuffer (a := a) hdata
    refine hb3.congr rfl fun o => ?_
    grind [State.live_setFile, Files.pipeFields]
  · have hg2 := (hg.setPipe hpi' ⟨a.data, 0, 0, true, true⟩).alloc (o := .pipe a.pi) (by simp [State.live, hpi'])
    have hg3 : Grown s (allocBuffer a (allocPipe a s₁)) :=
      Grown.alloc ⟨hg2.ofile, hg2.used, hg2.data, hg2.allocs⟩ hdata'
    exact (hg3.setFile ..).setFile ..
  · change update (update s₁.file a.f0 _) a.f1 _ = _
    grind [update_comm, update_idem]

theorem Ends.pipeFrom (he : Ends s₁) (hb : Balanced s₁) (hg : Grown s s₁) (hcache : s₁.pipeCache = true)
    (hfile : s₁.file = update (update s.file a.f0 (some .new)) a.f1 (some .new)) (hpipe : s₁.pipe = s.pipe)
    (hbuffer : s₁.buffer = s.buffer) (hpi : Unused s a.pi .pipe) (hdata : Unused s a.data .buffer) :
    ∃ ok s2, pipeFrom a s₁ = .ok (ok, s2) ∧ Ends s2 ∧ Balanced s2 ∧ Grown s s2 ∧ Piped a s s2 ok := by
  unfold Files.pipeFrom
  by_cases hpi0 : a.pi = 0
  · rw [if_pos hpi0]
    obtain ⟨s2, hbad, he2, hb2, hg2, hfile2⟩ := he.bad hb hg (show Files.badPipe 0 s₁ = .ok s₁ from rfl) hfile hne hf0 hf1 h0 h1
    exact ⟨false, s2, hbad, he2, hb2, hg2, hfile2⟩
  have hq : s.pipe a.pi = none := by simpa [State.live] using hpi.resolve_left hpi0
  have hq1 : s₁.pipe a.pi = none := by rw [hpipe, hq]
  rw [if_neg hpi0]
  by_cases hd : a.data = 0
  · rw [if_pos hd]
    obtain ⟨s2, hbadPipe, he2, hb2, hframe, hfile2⟩ := he.badPipe hb hcache hpi0 hq1 hd
    have hg2 : Grown s s2 := ((hg.setPipe hq _).alloc (hpi.resolve_left hpi0)).frame hframe
    obtain ⟨s3, hbad, he3, hb3, hg3, hfile3⟩ :=
      he2.bad hb2 hg2 hbadPipe (hfile2.trans hfile) hne hf0 hf1 h0 h1
    exact ⟨false, s3, hbad, he3, hb3, hg3, hfile3⟩
  · rw [if_neg hd]
    have hbuf : s.buffer a.data = false := hdata.resolve_left hd
    grind [Ends.pipeFields]

end Pipealloc

/-- `pipealloc` gives a new pipe with two new files, or leaves the files as they were. -/
theorem Ends.pipealloc {a : Answers} (he : Ends s) (hb : Balanced s) (ha0 : Unused s a.f0 .file)
    (ha1 : Unused s a.f1 .file) (hne : a.f1 = 0 ∨ a.f1 ≠ a.f0) (hpi : Unused s a.pi .pipe)
    (hdata : Unused s a.data .buffer) :
    ∃ ok s2, pipealloc a s = .ok (ok, s2) ∧ Ends s2 ∧ Balanced s2 ∧ Grown s s2 ∧ Piped a s s2 ok := by
  unfold Files.pipealloc
  by_cases hf0 : a.f0 = 0
  · have hsame : Files.filealloc a.f0 s = s := if_pos hf0
    rw [if_pos hf0, hsame]
    exact ⟨false, s, rfl, he, hb, .refl s, rfl⟩
  rw [if_neg hf0]
  have h0 : s.file a.f0 = none := by simpa [State.live] using ha0.resolve_left hf0
  obtain ⟨he1, hb1, hfile1⟩ := he.filealloc hb hf0 h0
  have hg1 := (Grown.refl s).filealloc hf0 h0
  by_cases hf1 : a.f1 = 0
  · have hsame : Files.filealloc a.f1 (Files.filealloc a.f0 s) = Files.filealloc a.f0 s := if_pos hf1
    rw [if_pos hf1, hsame]
    obtain ⟨s2, hclose, he2, hb2, hg2, hfile2⟩ :=
      he1.closeOne hb1 hg1 (x := .new) (by rw [hfile1, update_self]) rfl
    refine ⟨false, s2, bad_eq rfl ((if_neg hf0).trans hclose) rfl, he2, hb2, hg2, ?_⟩
    change s2.file = s.file
    rw [hfile2, hfile1, update_idem, ← h0, update_eq_self]
  rw [if_neg hf1]
  have hne' := hne.resolve_left hf1
  have h1 : s.file a.f1 = none := by simpa [State.live] using ha1.resolve_left hf1
  obtain ⟨he2, hb2, hfile2⟩ := he1.filealloc hb1 hf1 (by rw [hfile1, update_of_ne hne', h1])
  have hg2 := hg1.filealloc hf1 h1
  rw [hfile1] at hfile2
  have hpipe : (Files.filealloc a.f1 (Files.filealloc a.f0 s)).pipe = s.pipe := by
    simp [Files.filealloc, hf0, hf1, State.note, State.setFile]
  have hbuffer : (Files.filealloc a.f1 (Files.filealloc a.f0 s)).buffer = s.buffer := by
    simp [Files.filealloc, hf0, hf1, State.note, State.setFile]
  generalize Files.filealloc a.f1 (Files.filealloc a.f0 s) = s₁ at *
  split
  · obtain ⟨s2, hbad, he2, hb2, hg2, hfile2⟩ :=
      he2.bad hb2 hg2 (show Files.badPipe 0 s₁ = .ok s₁ from rfl) hfile2 hne' hf0 hf1 h0 h1
    exact ⟨false, s2, hbad, he2, hb2, hg2, hfile2⟩
  · refine Ends.pipeFrom hne' hf0 hf1 h0 h1
      (he2.congr (fun _ _ _ => Iff.rfl) rfl rfl) (hb2.congr rfl fun o => by cases o <;> rfl)
      ⟨hg2.ofile, hg2.used, hg2.data, hg2.allocs⟩ rfl hfile2 hpipe hbuffer hpi hdata

end Xv6.Files
