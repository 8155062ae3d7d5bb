import Xv6.Files.Model

/-! The ends of pipes, and what is allocated.

Each open end of a pipe is one file, a pipe has an open end, and a buffer belongs to one pipe
(`Ends`). The log of allocations agrees with what is allocated (`Balanced`). `fileclose` keeps
both, whatever the descriptors are (`Ends.fileclose`). -/
namespace Xv6.Files

open Function

variable {s s' : State} {f g q : ℕ} {e : Bool} {x : File} {o : Object}

/-- The end of a pipe that is written, or read, is open. -/
def Pipe.isOpen (x : Pipe) (writable : Bool) : Bool := if writable then x.writeopen else x.readopen

/-- A file is the end of the pipe `q` that is written (`e`), or read. -/
def IsEnd (file : ℕ → Option File) (f q : ℕ) (e : Bool) : Prop :=
  ∃ x, file f = some x ∧ x.type = .pipe ∧ x.pipe = q ∧ x.writable = e

structure Ends (s : State) : Prop where
  opened : ∀ f q e, IsEnd s.file f q e → ∃ y, s.pipe q = some y ∧ y.isOpen e = true
  single : ∀ f g q e, IsEnd s.file f q e → IsEnd s.file g q e → f = g
  held : ∀ q y e, s.pipe q = some y → y.isOpen e = true → ∃ f, IsEnd s.file f q e
  nonempty : ∀ q y, s.pipe q = some y → ∃ e, y.isOpen e = true
  buffer : ∀ b, s.buffer b = true ↔ ∃ q y, s.pipe q = some y ∧ y.data = b
  data : ∀ q r y z, s.pipe q = some y → s.pipe r = some z → y.data = z.data → q = r

/-- Each object was given back as often as it was allocated, but for those allocated now. -/
def Balanced (s : State) : Prop :=
  ∀ o, s.log.count (.alloc o) = s.log.count (.free o) + (s.live o).toNat

theorem IsEnd.eq {file : ℕ → Option File} {r : ℕ} {d : Bool} (h : IsEnd file f q e) (h' : IsEnd file f r d) :
    q = r ∧ e = d := by
  obtain ⟨x, hx, -, hp, hw⟩ := h
  obtain ⟨x', hx', -, hp', hw'⟩ := h'
  grind

/-! ### The pipes -/

@[simp] theorem Pipe.isOpen_close_self (y : Pipe) (e : Bool) : (y.close e).isOpen e = false := by
  cases e <;> rfl

@[simp] theorem Pipe.isOpen_close_other {d : Bool} (y : Pipe) (h : d ≠ e) : (y.close e).isOpen d = y.isOpen d := by
  cases e <;> cases d <;> first | rfl | exact absurd rfl h

@[simp] theorem Pipe.data_close (y : Pipe) (e : Bool) : (y.close e).data = y.data := by
  cases e <;> rfl

theorem Pipe.isOpen_of_close {d : Bool} {y : Pipe} (h : (y.close e).isOpen d = true) : d ≠ e ∧ y.isOpen d = true := by
  grind [Pipe.isOpen_close_self, Pipe.isOpen_close_other, y.isOpen_close_self, y.isOpen_close_other]

theorem Pipe.closed_iff (y : Pipe) : (y.readopen = false ∧ y.writeopen = false) ↔ ∀ e, y.isOpen e = false := by
  constructor
  · rintro ⟨hread, hwrite⟩ (_ | _)
    · exact hread
    · exact hwrite
  · exact fun h => ⟨h false, h true⟩

namespace Ends

theorem congr (h : Ends s) (hends : ∀ f q e, IsEnd s'.file f q e ↔ IsEnd s.file f q e) (hpipe : s'.pipe = s.pipe)
    (hbuffer : s'.buffer = s.buffer) : Ends s' where
  opened f q e hf := by
    rw [hpipe]
    exact h.opened f q e ((hends f q e).mp hf)
  single f g q e hf hg := h.single f g q e ((hends f q e).mp hf) ((hends g q e).mp hg)
  held q y e hy ho := by
    rw [hpipe] at hy
    grind [Ends.held]
  nonempty q y hy := by
    rw [hpipe] at hy
    exact h.nonempty q y hy
  buffer b := by
    rw [hpipe, hbuffer]
    exact h.buffer b
  data q r y z hy hz := by
    rw [hpipe] at hy hz
    exact h.data q r y z hy hz

theorem pipe_iff (h : Ends s) (q : ℕ) : (s.pipe q).isSome ↔ ∃ f e, IsEnd s.file f q e := by
  constructor
  · intro hq
    obtain ⟨y, hy⟩ := Option.isSome_iff_exists.mp hq
    grind [Ends.nonempty, Ends.held]
  grind [Ends.opened]

section Close

variable {y : Pipe} (hf : IsEnd s.file f q e) (hy : s.pipe q = some y)
  (hends : ∀ g r d, IsEnd s'.file g r d ↔ IsEnd s.file g r d ∧ g ≠ f)

include hf hy hends

theorem close (h : Ends s) (hopen : ∃ d, (y.close e).isOpen d = true) (hpipe : s'.pipe = update s.pipe q (some (y.close e)))
    (hbuffer : s'.buffer = s.buffer) : Ends s' := by
  -- What is known about a pipe carries over, with its buffer.
  have hback : ∀ r z, s'.pipe r = some z → ∃ z', s.pipe r = some z' ∧ z'.data = z.data := by
    intro r z hz
    rw [hpipe] at hz
    grind [Pipe.data_close, update_self, update_of_ne]
  refine ⟨fun g r d hg => ?_, fun g g' r d hg hg' => ?_, fun r z d hz ho => ?_, fun r z hz => ?_, fun b => ?_,
    fun r r' z z' hz hz' heq => ?_⟩
  · obtain ⟨hg, hne⟩ := (hends g r d).mp hg
    obtain ⟨z, hz, ho⟩ := h.opened g r d hg
    rw [hpipe]
    grind [Ends.single, Pipe.isOpen_close_other]
  · exact h.single g g' r d ((hends g r d).mp hg).1 ((hends g' r d).mp hg').1
  · rw [hpipe] at hz
    by_cases hr : r = q
    · subst hr
      rw [update_self] at hz
      cases hz
      obtain ⟨hd, ho⟩ := Pipe.isOpen_of_close ho
      obtain ⟨g, hg⟩ := h.held r y d hy ho
      grind [IsEnd.eq]
    grind [Ends.held, IsEnd.eq, update_of_ne]
  · rw [hpipe] at hz
    by_cases hr : r = q
    · grind
    · rw [update_of_ne hr] at hz
      exact h.nonempty r z hz
  · rw [hbuffer, h.buffer b]
    constructor
    · rintro ⟨r, z, hz, rfl⟩
      by_cases hr : r = q
      · subst hr
        cases hy.symm.trans hz
        exact ⟨r, _, by rw [hpipe, update_self], y.data_close e⟩
      · exact ⟨r, z, by rw [hpipe, update_of_ne hr]; exact hz, rfl⟩
    grind
  · obtain ⟨w, hw, hdata⟩ := hback r z hz
    obtain ⟨w', hw', hdata'⟩ := hback r' z' hz'
    exact h.data r r' w w' hw hw' (by rw [hdata, hdata', heq])

theorem drop (h : Ends s) (hclosed : ∀ d, (y.close e).isOpen d = false) (hpipe : s'.pipe = update s.pipe q none)
    (hbuffer : s'.buffer = update s.buffer y.data false) : Ends s' := by
  have hback : ∀ r z, s'.pipe r = some z → r ≠ q ∧ s.pipe r = some z := by
    intro r z hz
    rw [hpipe] at hz
    grind
  refine ⟨fun g r d hg => ?_, fun g g' r d hg hg' => ?_, fun r z d hz ho => ?_, fun r z hz => ?_, fun b => ?_,
    fun r r' z z' hz hz' heq => ?_⟩
  · obtain ⟨hg, hne⟩ := (hends g r d).mp hg
    obtain ⟨z, hz, ho⟩ := h.opened g r d hg
    have hr : r ≠ q := by
      rintro rfl
      cases hy.symm.trans hz
      have hd : d = e := by
        by_contra hd
        have := hclosed d
        rw [y.isOpen_close_other hd, ho] at this
        cases this
      exact hne (h.single g f r d hg (hd ▸ hf))
    exact ⟨z, by rw [hpipe, update_of_ne hr]; exact hz, ho⟩
  · exact h.single g g' r d ((hends g r d).mp hg).1 ((hends g' r d).mp hg').1
  · grind [Ends.held, IsEnd.eq]
  · exact h.nonempty r z (hback r z hz).2
  · rw [hbuffer]
    constructor
    · intro hb
      have hne : b ≠ y.data := by
        rintro rfl
        rw [update_self] at hb
        cases hb
      rw [update_of_ne hne] at hb
      obtain ⟨r, z, hz, rfl⟩ := (h.buffer b).mp hb
      refine ⟨r, z, ?_, rfl⟩
      have hr : r ≠ q := by
        grind
      rw [hpipe, update_of_ne hr]
      exact hz
    grind [Ends.data, Ends.buffer, update_of_ne]
  · exact h.data r r' z z' (hback r z hz).2 (hback r' z' hz').2 heq

end Close

theorem add {f0 f1 b : ℕ} {y : Pipe} (h : Ends s) (hq : s.pipe q = none) (hb : s.buffer b = false)
    (hends : ∀ g r d, IsEnd s'.file g r d ↔ IsEnd s.file g r d ∨ r = q ∧ g = if d then f1 else f0)
    (hdata : y.data = b) (hopen : ∀ d, y.isOpen d = true) (hpipe : s'.pipe = update s.pipe q (some y))
    (hbuffer : s'.buffer = update s.buffer b true) : Ends s' := by
  have hold : ∀ r z, s.pipe r = some z → r ≠ q ∧ s'.pipe r = some z := by
    intro r z hz
    have hr : r ≠ q := by
      grind
    exact ⟨hr, by rw [hpipe, update_of_ne hr]; exact hz⟩
  have hback : ∀ r z, s'.pipe r = some z → r = q ∧ z = y ∨ s.pipe r = some z ∧ z.data ≠ b := by
    intro r z hz
    rw [hpipe] at hz
    grind [Ends.buffer, update_self]
  have hnew : ∀ g d, ¬ IsEnd s.file g q d := by
    grind [Ends.opened]
  refine ⟨fun g r d hg => ?_, fun g g' r d hg hg' => ?_, fun r z d hz ho => ?_, fun r z hz => ?_, fun c => ?_,
    fun r r' z z' hz hz' heq => ?_⟩
  · rcases (hends g r d).mp hg with hg | ⟨rfl, -⟩
    · obtain ⟨z, hz, ho⟩ := h.opened g r d hg
      exact ⟨z, (hold r z hz).2, ho⟩
    · exact ⟨y, by rw [hpipe, update_self], hopen d⟩
  · rcases (hends g r d).mp hg with hg | ⟨rfl, rfl⟩ <;> rcases (hends g' r d).mp hg' with hg' | ⟨hr, rfl⟩
    · exact h.single g g' r d hg hg'
    · exact absurd (hr ▸ hg) (hnew g d)
    · exact absurd hg' (hnew g' d)
    · rfl
  · rcases hback r z hz with ⟨rfl, rfl⟩ | ⟨hz, -⟩
    · exact ⟨_, (hends _ r d).mpr (.inr ⟨rfl, rfl⟩)⟩
    · obtain ⟨g, hg⟩ := h.held r z d hz ho
      exact ⟨g, (hends g r d).mpr (.inl hg)⟩
  · rcases hback r z hz with ⟨-, rfl⟩ | ⟨hz, -⟩
    · exact ⟨true, hopen true⟩
    · exact h.nonempty r z hz
  · rw [hbuffer]
    by_cases hc : c = b
    · rw [hc, update_self]
      exact iff_of_true rfl ⟨q, y, by rw [hpipe, update_self], hdata⟩
    grind [Ends.buffer, update_of_ne]
  · rcases hback r z hz with ⟨rfl, rfl⟩ | ⟨hz, hne⟩ <;> rcases hback r' z' hz' with ⟨rfl, rfl⟩ | ⟨hz', hne'⟩
    · rfl
    · exact absurd (heq.symm.trans hdata) hne'
    · exact absurd (heq.trans hdata) hne
    · exact h.data r r' z z' hz hz' heq

end Ends

/-! ### The log -/

theorem Balanced.congr (h : Balanced s) (hlog : s'.log = s.log) (hlive : ∀ o, s'.live o = s.live o) : Balanced s' := by
  intro o
  rw [hlog, hlive]
  exact h o

theorem Balanced.alloc (h : Balanced s) (hdead : s.live o = false) (hlog : s'.log = .alloc o :: s.log)
    (hlive : s'.live o = true) (hother : ∀ o', o' ≠ o → s'.live o' = s.live o') : Balanced s' := by
  intro o'
  have hold := h o'
  rw [hlog, List.count_cons, List.count_cons_of_ne (by simp)]
  by_cases ho : o' = o
  · grind
  grind

theorem Balanced.free (h : Balanced s) (hold : s.live o = true) (hlog : s'.log = .free o :: s.log)
    (hdead : s'.live o = false) (hother : ∀ o', o' ≠ o → s'.live o' = s.live o') : Balanced s' := by
  intro o'
  have hcount := h o'
  have hne : Event.free o ≠ Event.alloc o' := by simp
  rw [hlog, List.count_cons_of_ne hne, List.count_cons]
  by_cases ho : o' = o
  · grind
  grind

namespace State

theorem live_drop (s : State) (o : Object) : (s.drop o).live o = false := by
  cases o <;> simp [live, drop]

theorem live_drop_ne (s : State) {o o' : Object} (h : o' ≠ o) : (s.drop o).live o' = s.live o' := by
  cases o <;> cases o' <;> simp_all [live, drop]

theorem live_setFile {f : ℕ} {x : File} (s : State) (h : s.live (.file f) = true) (o : Object) :
    (s.setFile f x).live o = s.live o := by
  cases o with
  | file g =>
    by_cases hg : g = f
    · subst hg
      rw [h]
      simp [live, setFile]
    · simp [live, setFile, hg]
  | pipe q => rfl
  | buffer b => rfl

theorem live_setPipe {q : ℕ} {y : Pipe} (s : State) (h : s.live (.pipe q) = true) (o : Object) :
    (s.setPipe q y).live o = s.live o := by
  cases o with
  | file g => rfl
  | pipe r =>
    by_cases hr : r = q
    · subst hr
      rw [h]
      simp [live, setPipe]
    · simp [live, setPipe, hr]
  | buffer b => rfl

end State

theorem Balanced.release (h : Balanced s) (ho : s.live o = true) :
    s.release o = .ok ((s.drop o).note (.free o)) ∧ Balanced ((s.drop o).note (.free o)) := by
  refine ⟨if_pos ho, h.free ho (by cases o <;> rfl) ?_ fun o' hne => ?_⟩
  · exact s.live_drop o
  · exact s.live_drop_ne hne

/-! ### Closing a file -/

theorem isEnd_update {file : ℕ → Option File} {x' : File} (hx : file f = some x) (htype : x'.type = x.type)
    (hpipe : x'.pipe = x.pipe) (hwritable : x'.writable = x.writable) (g q : ℕ) (e : Bool) :
    IsEnd (update file f (some x')) g q e ↔ IsEnd file g q e := by
  grind [update_of_ne, IsEnd]

theorem isEnd_update_ne {file : ℕ → Option File} {o : Option File} (ho : ∀ x ∈ o, x.type ≠ .pipe) (g q : ℕ)
    (e : Bool) : IsEnd (update file f o) g q e ↔ IsEnd file g q e ∧ g ≠ f := by
  unfold IsEnd
  grind

/-- A step that changes pipes and buffers only, and allocates nothing. -/
structure Frame (s s' : State) : Prop where
  ofile : s'.ofile = s.ofile
  used : s'.used = s.used
  data : ∀ q y, s'.pipe q = some y → ∃ z, s.pipe q = some z ∧ z.data = y.data
  allocs : ∀ o, s'.log.count (.alloc o) = s.log.count (.alloc o)

theorem Frame.refl (s : State) : Frame s s := ⟨rfl, rfl, fun _ y hy => ⟨y, hy, rfl⟩, fun _ => rfl⟩

theorem Frame.trans {s'' : State} (h : Frame s s') (h' : Frame s' s'') : Frame s s'' where
  ofile := h'.ofile.trans h.ofile
  used := h'.used.trans h.used
  data q y hy := by
    obtain ⟨z, hz, hdata⟩ := h'.data q y hy
    obtain ⟨w, hw, hdata'⟩ := h.data q z hz
    exact ⟨w, hw, hdata'.trans hdata⟩
  allocs o := (h'.allocs o).trans (h.allocs o)

theorem Frame.release (s : State) (o : Object) : Frame s ((s.drop o).note (.free o)) := by
  refine ⟨by cases o <;> rfl, by cases o <;> rfl, fun q y hy => ?_, fun o' => ?_⟩
  · cases o with
    | file f => exact ⟨y, hy, rfl⟩
    | buffer b => exact ⟨y, hy, rfl⟩
    | pipe r =>
      by_cases hq : q = r
      · simp [State.drop, State.note, hq] at hy
      · simp only [State.drop, State.note, update_of_ne hq] at hy
        exact ⟨y, hy, rfl⟩
  · have hlog : ((s.drop o).note (.free o)).log = .free o :: s.log := by cases o <;> rfl
    rw [hlog, List.count_cons_of_ne (by simp)]

theorem Ends.pipeclose (he : Ends s) (hf : IsEnd s.file f q e) (hb : Balanced s') (hpipe : s'.pipe = s.pipe)
    (hbuffer : s'.buffer = s.buffer) (hends : ∀ g r d, IsEnd s'.file g r d ↔ IsEnd s.file g r d ∧ g ≠ f) :
    ∃ s'', pipeclose q e s' = .ok s'' ∧ Ends s'' ∧ Balanced s'' ∧ s''.file = s'.file ∧ Frame s' s'' := by
  obtain ⟨y, hy, -⟩ := he.opened f q e hf
  have hy' : s'.pipe q = some y := by rw [hpipe, hy]
  have hlive : s'.live (.pipe q) = true := by simp [State.live, hy']
  have hb1 : Balanced (s'.setPipe q (y.close e)) := hb.congr rfl (s'.live_setPipe hlive)
  have hframe : Frame s' (s'.setPipe q (y.close e)) := by
    refine ⟨rfl, rfl, fun r z hz => ?_, fun _ => rfl⟩
    by_cases hr : r = q
    · subst hr
      simp only [State.setPipe, update_self] at hz
      grind [Pipe.data_close]
    · simp only [State.setPipe, update_of_ne hr] at hz
      exact ⟨z, hz, rfl⟩
  unfold Files.pipeclose
  rw [hy']
  dsimp only
  by_cases hclosed : (y.close e).readopen = false ∧ (y.close e).writeopen = false
  · rw [if_pos hclosed]
    have hbuf : (s'.setPipe q (y.close e)).live (.buffer (y.close e).data) = true := by
      rw [y.data_close]
      change s'.buffer y.data = true
      rw [hbuffer]
      exact (he.buffer _).mpr ⟨q, y, hy, rfl⟩
    obtain ⟨hrel1, hb2⟩ := hb1.release hbuf
    have hlive2 : (((s'.setPipe q (y.close e)).drop (.buffer (y.close e).data)).note
        (.free (.buffer (y.close e).data))).live (.pipe q) = true := by
      simp [State.live, State.note, State.drop, State.setPipe]
    obtain ⟨hrel2, hb3⟩ := hb2.release hlive2
    rw [hrel1]
    refine ⟨_, hrel2, ?_, hb3, rfl, hframe.trans ((Frame.release ..).trans (Frame.release ..))⟩
    refine he.drop hf hy (fun g r d => hends g r d) ((y.close e).closed_iff.mp hclosed) ?_ ?_
    · simp [State.note, State.drop, State.setPipe, hpipe]
    · simp [State.note, State.drop, State.setPipe, hbuffer]
  · rw [if_neg hclosed]
    refine ⟨_, rfl, ?_, hb1, rfl, hframe⟩
    rw [Pipe.closed_iff, not_forall] at hclosed
    obtain ⟨d, hd⟩ := hclosed
    refine he.close hf hy (fun g r d => hends g r d) ⟨d, by simpa using hd⟩ ?_ hbuffer
    rw [← hpipe]
    rfl

/-- `fileclose` drops one reference, and with the last one the file and its end of a pipe. -/
theorem Ends.fileclose (he : Ends s) (hb : Balanced s) (hx : s.file f = some x) (hpos : 0 < x.ref) :
    ∃ s', fileclose f s = .ok s' ∧ Ends s' ∧ Balanced s' ∧ Frame s s' ∧
      s'.file = update s.file f (if x.ref = 1 then none else some {x with ref := x.ref - 1}) := by
  have hlive : s.live (.file f) = true := by simp [State.live, hx]
  unfold Files.fileclose
  rw [hx]
  dsimp only
  rw [if_neg (by omega)]
  by_cases href : x.ref = 1
  · rw [if_neg (by omega), if_pos href]
    have hb1 : Balanced (s.setFile f {x with ref := 0, type := .none}) := hb.congr rfl (s.live_setFile hlive)
    have hends : ∀ g r d, IsEnd (s.setFile f {x with ref := 0, type := .none}).file g r d ↔
        IsEnd s.file g r d ∧ g ≠ f := isEnd_update_ne (by simp)
    generalize hs1 : s.setFile f {x with ref := 0, type := .none} = s1 at hb1 hends
    have hfile : s1.file = update s.file f (some {x with ref := 0, type := .none}) := by rw [← hs1]; rfl
    -- What remains of the file is no end.
    obtain ⟨s2, hmid, he2, hb2, hfile2, hframe⟩ : ∃ s2,
        closeObject x s1 = .ok s2 ∧ Ends s2 ∧ Balanced s2 ∧
          s2.file = s1.file ∧ Frame s1 s2 := by
      unfold closeObject
      by_cases htype : x.type = .pipe
      · rw [if_pos htype]
        exact he.pipeclose ⟨x, hx, htype, rfl, rfl⟩ hb1 (by rw [← hs1]; rfl) (by rw [← hs1]; rfl) hends
      · rw [if_neg htype]
        refine ⟨s1, rfl, he.congr (fun g r d => (hends g r d).trans (and_iff_left_of_imp ?_))
          (by rw [← hs1]; rfl) (by rw [← hs1]; rfl), hb1, rfl, .refl s1⟩
        rintro ⟨z, hz, hpipe, -⟩ rfl
        grind
    obtain ⟨hrel, hb3⟩ := hb2.release (o := .file f) (by simp [State.live, hfile2, hfile])
    rw [hmid]
    refine ⟨_, hrel, he2.congr (fun g r d => ?_) rfl rfl, hb3, ?_, ?_⟩
    · refine (isEnd_update_ne (by simp) g r d).trans (and_iff_left_of_imp ?_)
      grind
    · refine Frame.trans ?_ (hframe.trans (Frame.release ..))
      rw [← hs1]
      exact ⟨rfl, rfl, fun q y hy => ⟨y, hy, rfl⟩, fun _ => rfl⟩
    · change update s2.file f none = _
      rw [hfile2, hfile, update_idem]
  · rw [if_pos (by omega), if_neg href]
    refine ⟨_, rfl, he.congr (isEnd_update hx rfl rfl rfl) rfl rfl, hb.congr rfl (s.live_setFile hlive), ?_, rfl⟩
    exact ⟨rfl, rfl, fun q y hy => ⟨y, hy, rfl⟩, fun _ => rfl⟩

end Xv6.Files
