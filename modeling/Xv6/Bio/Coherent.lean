import Xv6.Bio.Buffers
import Xv6.Cache.WriteBack

/-! What users of the buffer cache read.

`Watched` adds to the cache what was released last for every block, what the holder of
each buffer has done to it, and which block each process has asked for. If holders save
what they change, in place or by a pin, and take a pin away only after `bwrite`, then the
cache is a write-back cache of the disk (`Coherent`), whatever is recycled and freed. -/
namespace Xv6.Bio
open Function
open Cache

def Buf.line (buf : Buf) : Line ℕ Block := ⟨buf.blockno, buf.valid, buf.data⟩

structure Watched where
  sys : Sys
  /-- What was released last for each block, or what was on the disk at the start. -/
  view : ℕ → Block
  mark : ℕ → Mark
  /-- The block that each process has last given to `bread`. -/
  asked : ℕ → ℕ

namespace Watched

variable (head : ℕ)

def note (w : Watched) : Event → Watched
  | .bget p _ blockno _ => {w with asked := update w.asked p blockno}
  | .fill p =>
    match w.sys.pc p with
    | .reading b => {w with mark := update w.mark b .clean}
    | _ => w
  | .modify _ b _ => {w with mark := update w.mark b (w.mark b).modify}
  | .bwrite _ b => {w with mark := update w.mark b (w.mark b).write}
  | .releasesleep _ b =>
    {w with
      view := update w.view (w.sys.cache.bufs b).blockno (w.sys.cache.bufs b).data
      mark := update w.mark b .free}
  | .acquiresleep _ | .brelse _ | .bpin _ _ | .bunpin _ _ => w

def step (w : Watched) (e : Event) : Except Stop Watched := do
  let sys ← w.sys.step head e
  return {w.note e with sys := sys}

/-- The holder of `b` has called `log_write`. -/
def log (w : Watched) (b : ℕ) : Watched := {w with mark := update w.mark b .logged}

/-- Processes use one device, save what they change before they release it, and unpin
what they have written. -/
def allowed (n dev : ℕ) (w : Watched) (e : Event) : Prop :=
  w.sys.allowed head n e ∧
    match e with
    | .bget _ d _ _ => d = dev
    | .releasesleep _ b => w.mark b ≠ .dirty
    | .bunpin p b => w.sys.Holds p b ∧ w.mark b = .written
    | _ => True

end Watched

/-- A process has got the buffer from `bread`, and has not released it. -/
def Sys.Returned (s : Sys) (b : ℕ) : Prop := ∃ p, (s.cache.bufs b).lock = some p ∧ s.pc p ≠ .reading b

def onDevice (dev : ℕ) (c : Bcache) (xs : List ℕ) : Set ℕ := {b | b ∈ xs ∧ (c.bufs b).dev = dev}

structure Coherent (head n dev : ℕ) (w : Watched) (xs : List ℕ) : Prop where
  consistent : Consistent head n w.sys xs
  device : ∀ b ∈ xs, (w.sys.cache.bufs b).refcnt ≠ 0 → (w.sys.cache.bufs b).dev = dev
  asked : ∀ p b, w.sys.pc p = .waiting b ∨ w.sys.pc p = .reading b →
    (w.sys.cache.bufs b).blockno = w.asked p
  held : ∀ b, w.mark b ≠ .free ↔ b ∈ xs ∧ w.sys.Returned b
  faithful : Faithful (fun b => (w.sys.cache.bufs b).line) w.mark w.sys.pins w.sys.cache.disk w.view
    (onDevice dev w.sys.cache xs)

variable {head n dev p q b a blockno alloc : ℕ} {w : Watched} {s : Sys} {c : Bcache} {xs : List ℕ}
  {pc : Pc} {f : Buf → Buf}

theorem note_fill (hread : w.sys.pc p = .reading b) :
    w.note (.fill p) = {w with mark := update w.mark b .clean} := by
  simp only [Watched.note, hread]

theorem note_fill_of_not (hnot : ∀ b, w.sys.pc p ≠ .reading b) : w.note (.fill p) = w := by
  grind [Watched.note]

theorem returned_goto (hlock : (c.bufs a).lock = (s.cache.bufs a).lock) (hold : s.pc p ≠ .reading a)
    (hnew : pc ≠ .reading a) : ((s.withCache c).goto p pc).Returned a ↔ s.Returned a := by
  have hpc : ∀ q, ((s.withCache c).goto p pc).pc q ≠ .reading a ↔ s.pc q ≠ .reading a := fun q => by
    by_cases hqp : q = p
    · grind [goto_self]
    · rw [goto_of_ne hqp]
      rfl
  have hbuf : (((s.withCache c).goto p pc).cache.bufs a).lock = (s.cache.bufs a).lock := hlock
  unfold Sys.Returned
  simp only [hbuf, hpc]

theorem lock_setBuf (f : Buf → Buf) (hlock : ∀ buf, (f buf).lock = buf.lock) (a : ℕ) :
    ((c.setBuf b f).bufs a).lock = (c.bufs a).lock := by
  grind [setBuf_self, setBuf_of_ne]

theorem onDevice_setBuf (hdev : (f (c.bufs b)).dev = (c.bufs b).dev) :
    onDevice dev (c.setBuf b f) xs = onDevice dev c xs := by
  ext a
  by_cases hab : a = b
  · simp only [onDevice, Set.mem_ofPred_eq, hab, setBuf_self, hdev]
  · simp only [onDevice, Set.mem_ofPred_eq, setBuf_of_ne hab]

namespace Coherent

section
variable (h : Coherent head n dev w xs)
include h

theorem mem_onDevice (hb : b ∈ xs)
    (hused : (w.sys.cache.bufs b).refcnt ≠ 0) : b ∈ onDevice dev w.sys.cache xs :=
  ⟨hb, h.device b hb hused⟩

theorem sound (hb : b ∈ onDevice dev w.sys.cache xs) :
    (w.sys.cache.bufs b).line.Sound (w.mark b) (w.sys.pins b)
      (w.sys.cache.disk (w.sys.cache.bufs b).blockno) (w.view (w.sys.cache.bufs b).blockno) :=
  h.faithful.sound b hb

theorem idle (hb : b ∈ xs) (hfree : (w.sys.cache.bufs b).refcnt = 0) :
    w.mark b = .free ∧ w.sys.pins b = 0 := by
  obtain ⟨hlock, hpins, _⟩ := h.consistent.unused hb hfree
  refine ⟨?_, hpins⟩
  by_contra hmark
  obtain ⟨_, q, hq, _⟩ := (h.held b).mp hmark
  rw [hlock] at hq
  cases hq

theorem free_of_not_mem (hb : b ∉ xs) : w.mark b = .free := by
  by_contra hmark
  exact hb ((h.held b).mp hmark).1

theorem locked (hb : b ∈ xs)
    (hlock : (w.sys.cache.bufs b).lock.isSome) : (w.sys.cache.bufs b).refcnt ≠ 0 := by
  have hsum := h.consistent.refcnt b hb
  rw [Buf.holders, if_pos hlock] at hsum
  omega

theorem targeted (ht : (w.sys.pc p).target = some b) :
    b ∈ xs ∧ (w.sys.cache.bufs b).refcnt ≠ 0 := by
  have hb := h.consistent.target p b ht
  exact ⟨hb, fun hzero => ((h.consistent.unused hb hzero).2.2 p).1 ht⟩

theorem goes {view' : ℕ → Block} {mark' : ℕ → Mark} {asked' : ℕ → ℕ}
    (hcons : Consistent head n ((w.sys.withCache (w.sys.cache.setBuf b f)).goto p pc) xs)
    (hb : b ∈ onDevice dev w.sys.cache xs) (hdev : ∀ buf, (f buf).dev = buf.dev)
    (hblock : ∀ buf, (f buf).blockno = buf.blockno)
    (hold : ∀ a, w.sys.pc p = .reading a → a = b)
    (hnew : ∀ a, pc = .waiting a ∨ pc = .reading a →
      a = b ∧ (w.sys.cache.bufs b).blockno = asked' p)
    (hasked : ∀ q, q ≠ p → asked' q = w.asked q) (hmark : ∀ a, a ≠ b → mark' a = w.mark a)
    (hview : ∀ k, k ≠ (w.sys.cache.bufs b).blockno → view' k = w.view k)
    (hheld : mark' b ≠ .free ↔ ((w.sys.withCache (w.sys.cache.setBuf b f)).goto p pc).Returned b)
    (hsound : (f (w.sys.cache.bufs b)).line.Sound (mark' b) (w.sys.pins b)
      (w.sys.cache.disk (w.sys.cache.bufs b).blockno) (view' (w.sys.cache.bufs b).blockno)) :
    Coherent head n dev ⟨(w.sys.withCache (w.sys.cache.setBuf b f)).goto p pc, view', mark', asked'⟩ xs where
  consistent := hcons
  device a ha hused := by
    by_cases hab : a = b
    · show ((w.sys.cache.setBuf b f).bufs a).dev = dev
      rw [hab, setBuf_self, hdev]
      exact hb.2
    · have hbuf : ((w.sys.withCache (w.sys.cache.setBuf b f)).goto p pc).cache.bufs a = w.sys.cache.bufs a :=
        setBuf_of_ne hab
      grind [Coherent.device]
  asked q a hq := by
    have hsame : ((w.sys.cache.setBuf b f).bufs a).blockno = (w.sys.cache.bufs a).blockno := by
      by_cases hab : a = b
      · rw [hab, setBuf_self, hblock]
      · rw [setBuf_of_ne hab]
    refine hsame.trans ?_
    by_cases hqp : q = p
    · grind [goto_self]
    · simp only [goto_of_ne hqp] at hq
      rw [h.asked q a hq]
      exact (hasked q hqp).symm
  held a := by
    by_cases hab : a = b
    · subst hab
      exact hheld.trans ⟨fun hr => ⟨hb.1, hr⟩, And.right⟩
    grind [returned_goto, setBuf_of_ne, Coherent.held]
  faithful := by
    show Faithful (fun a => ((w.sys.cache.setBuf b f).bufs a).line) mark' w.sys.pins w.sys.cache.disk view'
      (onDevice dev (w.sys.cache.setBuf b f) xs)
    rw [onDevice_setBuf (hdev _)]
    refine h.faithful.change hb ?_ (fun a _ hab => ⟨?_, hmark a hab, rfl⟩) (fun k hk => ⟨rfl, hview k hk⟩) ?_
    · simp only [setBuf_self]
      exact hblock _
    · simp only [setBuf_of_ne hab]
    · simp only [setBuf_self]
      exact hsound

theorem finds (hp : p < n) (hrun : w.sys.pc p = .running) (hb : b ∈ onDevice dev w.sys.cache xs) :
    Coherent head n dev ⟨(w.sys.withCache (w.sys.cache.setBuf b Buf.ref)).goto p (.waiting b), w.view, w.mark,
      update w.asked p (w.sys.cache.bufs b).blockno⟩ xs := by
  refine h.goes (h.consistent.found hp hrun hb.1) hb (fun _ => rfl) (fun _ => rfl) (fun a ha => ?_)
    (fun a ha => ?_) (fun q hq => update_of_ne hq ..) (fun _ _ => rfl) (fun _ _ => rfl) ?_ (h.sound hb)
  · rw [hrun] at ha
    cases ha
  · grind
  · rw [returned_goto (lock_setBuf Buf.ref (fun _ => rfl) b) (by simp [hrun]) (by simp)]
    exact (h.held b).trans ⟨And.right, fun hr => ⟨hb.1, hr⟩⟩

theorem acquires (hp : p < n) (hwait : w.sys.pc p = .waiting b)
    (hfree : (w.sys.cache.bufs b).lock = none) :
    Coherent head n dev ⟨(w.sys.withCache (w.sys.cache.setBuf b (Buf.setLock (some p)))).goto p (.reading b),
      w.view, w.mark, w.asked⟩ xs := by
  obtain ⟨hb, hused⟩ := h.targeted (p := p) (b := b) (by rw [hwait]; rfl)
  have hdev := h.mem_onDevice hb hused
  refine h.goes (h.consistent.acquires hp hwait hfree) hdev (fun _ => rfl) (fun _ => rfl) (fun a ha => ?_)
    (fun a ha => ?_) (fun _ _ => rfl) (fun _ _ => rfl) (fun _ _ => rfl) ?_ (h.sound hdev)
  · rw [hwait] at ha
    cases ha
  · grind [Coherent.asked]
  · -- The buffer was not locked, and `p` has not read it.
    refine iff_of_false (fun hmark => ?_) ?_
    · obtain ⟨_, q, hq, _⟩ := (h.held b).mp hmark
      rw [hfree] at hq
      cases hq
    · rintro ⟨q, hq, hread⟩
      have hlock : (((w.sys.cache.setBuf b (Buf.setLock (some p))).bufs b)).lock = some p :=
        congrArg Buf.lock setBuf_self
      cases hlock.symm.trans hq
      exact hread goto_self

theorem reads (hread : w.sys.pc p = .reading b) :
    b ∈ onDevice dev w.sys.cache xs ∧ w.mark b = .free := by
  obtain ⟨hb, hlock⟩ := h.consistent.reading p b hread
  refine ⟨h.mem_onDevice hb (h.locked hb (by rw [hlock]; rfl)), ?_⟩
  by_contra hmark
  obtain ⟨_, q, hq, hnot⟩ := (h.held b).mp hmark
  grind

theorem fills (hp : p < n) (hread : w.sys.pc p = .reading b) :
    Coherent head n dev ⟨(w.sys.withCache (w.sys.cache.fill b)).goto p .running, w.view,
      update w.mark b .clean, w.asked⟩ xs := by
  obtain ⟨hb, hfree⟩ := h.reads hread
  have hcons := h.consistent.fills hp hread
  have hsound := h.sound hb
  rw [hfree] at hsound
  rw [fill_eq] at hcons ⊢
  refine h.goes hcons hb (fun _ => rfl) (fun _ => rfl) (fun a ha => ?_) (by simp) (fun _ _ => rfl)
    (fun a ha => update_of_ne ha ..) (fun _ _ => rfl) ?_ ?_
  · cases hread.symm.trans ha
    rfl
  · refine iff_of_true (by simp) ⟨p, ?_, by simp⟩
    exact (congrArg Buf.lock setBuf_self).trans (h.consistent.reading p b hread).2
  · rw [update_self]
    exact hsound.fill

theorem holds (hholds : w.sys.Holds p b) : b ∈ onDevice dev w.sys.cache xs ∧ w.mark b ≠ .free := by
  obtain ⟨hrun, hlive, hlock⟩ := hholds
  have hb : b ∈ xs := h.consistent.cached.mem_live.mp hlive
  refine ⟨h.mem_onDevice hb (h.locked hb (by rw [hlock]; rfl)), ?_⟩
  exact (h.held b).mpr ⟨hb, p, hlock, by simp [hrun]⟩

theorem releases (hp : p < n) (hholds : w.sys.Holds p b) (hdirty : w.mark b ≠ .dirty) :
    Coherent head n dev ⟨(w.sys.withCache (w.sys.cache.setBuf b (Buf.setLock none))).goto p (.releasing b),
      update w.view (w.sys.cache.bufs b).blockno (w.sys.cache.bufs b).data,
      update w.mark b .free, w.asked⟩ xs := by
  obtain ⟨hb, hmark⟩ := h.holds hholds
  refine h.goes (h.consistent.releases hp hholds) hb (fun _ => rfl) (fun _ => rfl) (fun a ha => ?_) (by simp)
    (fun _ _ => rfl) (fun a ha => update_of_ne ha ..) (fun k hk => update_of_ne hk ..) ?_ ?_
  · rw [hholds.1] at ha
    cases ha
  · refine iff_of_false (by simp) ?_
    rintro ⟨q, hq, _⟩
    have hlock : ((w.sys.cache.setBuf b (Buf.setLock none)).bufs b).lock = none := congrArg Buf.lock setBuf_self
    cases hlock.symm.trans hq
  · rw [update_self, update_self]
    exact (h.sound hb).release hmark hdirty

section
variable (hholds : w.sys.Holds p b)
include hholds

theorem modifies (data : Block) :
    Coherent head n dev ⟨w.sys.withCache (w.sys.cache.setBuf b (Buf.setData data)), w.view,
      update w.mark b (w.mark b).modify, w.asked⟩ xs := by
  obtain ⟨hb, hmark⟩ := h.holds hholds
  have hstay : w.sys.withCache (w.sys.cache.setBuf b (Buf.setData data)) =
      (w.sys.withCache (w.sys.cache.setBuf b (Buf.setData data))).goto p .running := by
    rw [← hholds.1]
    exact congrArg (Sys.mk _ · _) (update_eq_self ..).symm
  have hcons := h.consistent.modifies b data
  rw [hstay] at hcons ⊢
  refine h.goes hcons hb (fun _ => rfl) (fun _ => rfl) (fun a ha => ?_) (by simp) (fun _ _ => rfl)
    (fun a ha => update_of_ne ha ..) (fun _ _ => rfl) ?_ ?_
  · rw [hholds.1] at ha
    cases ha
  · rw [update_self]
    refine iff_of_true ?_ ⟨p, ?_, by simp⟩
    · cases hm : w.mark b <;> simp [Mark.modify]
    · exact (lock_setBuf (Buf.setData data) (fun _ => rfl) b).trans hholds.2.2
  · rw [update_self]
    exact (h.sound hb).modify hmark data

/-- The holder of `b` does something that leaves the buffers as they are, but for their
references. -/
theorem marks {sys' : Sys} {m : Mark}
    (hcons : Consistent head n sys' xs) (hpc : sys'.pc = w.sys.pc)
    (hbufs : ∀ a, sys'.cache.bufs a = {w.sys.cache.bufs a with refcnt := (sys'.cache.bufs a).refcnt})
    (hrefcnt : ∀ a, (w.sys.cache.bufs a).refcnt = 0 → (sys'.cache.bufs a).refcnt = 0)
    (hpins : ∀ a, a ≠ b → sys'.pins a = w.sys.pins a)
    (hdisk : ∀ k, k ≠ (w.sys.cache.bufs b).blockno → sys'.cache.disk k = w.sys.cache.disk k)
    (hmark : m ≠ .free)
    (hsound : (w.sys.cache.bufs b).line.Sound m (sys'.pins b)
      (sys'.cache.disk (w.sys.cache.bufs b).blockno) (w.view (w.sys.cache.bufs b).blockno)) :
    Coherent head n dev ⟨sys', w.view, update w.mark b m, w.asked⟩ xs := by
  obtain ⟨hb, hheld⟩ := h.holds hholds
  have hdev : ∀ a, (sys'.cache.bufs a).dev = (w.sys.cache.bufs a).dev := fun a => by rw [hbufs]
  have hblock : ∀ a, (sys'.cache.bufs a).blockno = (w.sys.cache.bufs a).blockno := fun a => by rw [hbufs]
  have hlock : ∀ a, (sys'.cache.bufs a).lock = (w.sys.cache.bufs a).lock := fun a => by rw [hbufs]
  have hline : ∀ a, (sys'.cache.bufs a).line = (w.sys.cache.bufs a).line := fun a => by rw [hbufs]; rfl
  have hreturned : ∀ a, sys'.Returned a ↔ w.sys.Returned a := fun a => by
    simp only [Sys.Returned, hlock, hpc]
  refine ⟨hcons, fun a ha hused => ?_, fun q a hq => ?_, fun a => ?_, ?_⟩
  · exact (hdev a).trans (h.device a ha fun hzero => hused (hrefcnt a hzero))
  · simp only [hpc] at hq
    exact (hblock a).trans (h.asked q a hq)
  · grind [Coherent.held, update_self, update_of_ne]
  · have hset : onDevice dev sys'.cache xs = onDevice dev w.sys.cache xs := by
      simp only [onDevice, hdev]
    simp only [hset, hline]
    refine h.faithful.change hb rfl (fun a _ hab => ⟨rfl, update_of_ne hab .., hpins a hab⟩)
      (fun k hk => ⟨hdisk k hk, rfl⟩) ?_
    simp only [update_self]
    exact hsound

theorem writes : Coherent head n dev ⟨w.sys.withCache (w.sys.cache.write b), w.view,
      update w.mark b (w.mark b).write, w.asked⟩ xs := by
  obtain ⟨hb, hmark⟩ := h.holds hholds
  refine h.marks hholds (h.consistent.writes b) rfl (fun _ => rfl) (fun _ => id) (fun _ _ => rfl)
    (fun k hk => update_of_ne hk ..) ?_ ?_
  · cases w.mark b <;> simp [Mark.write]
  · have hdisk : (w.sys.cache.write b).disk (w.sys.cache.bufs b).blockno = (w.sys.cache.bufs b).data :=
      update_self ..
    show Line.Sound _ _ _ ((w.sys.cache.write b).disk _) _
    rw [hdisk]
    exact (h.sound hb).write hmark

theorem logs (hpins : 0 < w.sys.pins b) : Coherent head n dev (w.log b) xs := by
  obtain ⟨hb, hmark⟩ := h.holds hholds
  exact h.marks hholds h.consistent rfl (fun _ => rfl) (fun _ => id) (fun _ _ => rfl) (fun _ _ => rfl)
    (by simp) ((h.sound hb).log hmark hpins)

/-- `bpin` and `bunpin` by the holder: the count of references and of pins change together. -/
theorem pins {f : Buf → Buf} {k : ℕ}
    (hf : ∀ buf, f buf = {buf with refcnt := (f buf).refcnt})
    (hsum : (f (w.sys.cache.bufs b)).refcnt + w.sys.pins b = (w.sys.cache.bufs b).refcnt + k)
    (hsound : (w.sys.cache.bufs b).line.Sound (w.mark b) k
      (w.sys.cache.disk (w.sys.cache.bufs b).blockno) (w.view (w.sys.cache.bufs b).blockno)) :
    Coherent head n dev {w with
      sys := {w.sys with cache := w.sys.cache.setBuf b f, pins := update w.sys.pins b k}} xs := by
  obtain ⟨hb, hmark⟩ := h.holds hholds
  have hcons : Consistent head n
      {w.sys with cache := w.sys.cache.setBuf b f, pins := update w.sys.pins b k} xs :=
    h.consistent.pins hb.1 (fun buf => by rw [hf]) (fun buf => by rw [hf]) (fun buf => by rw [hf]) hsum
  have hlocked := h.locked hb.1 (by rw [hholds.2.2]; rfl)
  have hall := h.marks hholds hcons (m := w.mark b) rfl (fun a => ?_) (fun a ha => ?_)
    (fun a ha => update_of_ne ha ..) (fun _ _ => rfl) hmark ?_
  · rwa [update_eq_self] at hall
  · show (w.sys.cache.setBuf b f).bufs a =
      {w.sys.cache.bufs a with refcnt := ((w.sys.cache.setBuf b f).bufs a).refcnt}
    by_cases hab : a = b
    · rw [hab, setBuf_self]
      exact hf _
    · rw [setBuf_of_ne hab]
  · grind [setBuf_of_ne]
  · have hk : update w.sys.pins b k b = k := update_self ..
    show Line.Sound _ _ (update w.sys.pins b k b) _ _
    rw [hk]
    exact hsound

end

theorem loads {c' : Bcache} {xs' : List ℕ}
    (hcons : Consistent head n ((w.sys.withCache c').goto p (.waiting b)) xs')
    (hrun : w.sys.pc p = .running) (hmem : ∀ a, a ∈ xs' ↔ a = b ∨ a ∈ xs)
    (hbufs : ∀ a, a ≠ b → c'.bufs a = w.sys.cache.bufs a) (hdisk : c'.disk = w.sys.cache.disk)
    (hdev : (c'.bufs b).dev = dev) (hblock : (c'.bufs b).blockno = blockno)
    (hvalid : (c'.bufs b).valid = false) (hlock : (c'.bufs b).lock = none)
    (hfree : w.mark b = .free) (hpins : w.sys.pins b = 0)
    (hunused : ∀ q, (w.sys.pc q).target ≠ some b ∧ w.sys.pc q ≠ .reading b)
    (hnone : ∀ a ∈ xs, ¬ ((w.sys.cache.bufs a).dev = dev ∧ (w.sys.cache.bufs a).blockno = blockno)) :
    Coherent head n dev ⟨(w.sys.withCache c').goto p (.waiting b), w.view, w.mark,
      update w.asked p blockno⟩ xs' := by
  refine ⟨hcons, fun a ha hused => ?_, fun q a hq => ?_, fun a => ?_, ?_⟩
  · by_cases hab : a = b
    · exact hab ▸ hdev
    · have hbuf : ((w.sys.withCache c').goto p (.waiting b)).cache.bufs a = w.sys.cache.bufs a := hbufs a hab
      grind [Coherent.device]
  · by_cases hqp : q = p
    · subst hqp
      simp only [goto_self] at hq
      rcases hq with hq | hq <;> cases hq
      exact hblock.trans (update_self q _ w.asked).symm
    · simp only [goto_of_ne hqp] at hq
      have hab : a ≠ b := by
        rintro rfl
        rcases hq with hq | hq
        · exact (hunused q).1 (congrArg Pc.target hq)
        · exact (hunused q).2 hq
      show (c'.bufs a).blockno = update w.asked p blockno q
      rw [hbufs a hab, update_of_ne hqp]
      exact h.asked q a hq
  · by_cases hab : a = b
    · subst hab
      refine iff_of_false (fun hm => hm hfree) ?_
      rintro ⟨_, q, hq, _⟩
      cases hlock.symm.trans hq
    grind [returned_goto, Coherent.held]
  · have hevict := h.faithful.evict (Y := onDevice dev w.sys.cache xs \ {b}) Set.sdiff_subset fun a ha hnot => by
      obtain rfl : a = b := by_contra fun hab => hnot ⟨ha, hab⟩
      exact ⟨hfree, hpins⟩
    have hload : Faithful (fun a => (c'.bufs a).line) w.mark w.sys.pins c'.disk w.view
        (insert b (onDevice dev w.sys.cache xs \ {b})) := by
      rw [hdisk]
      exact hevict.load (fun hmem => hmem.2 rfl) (fun a ha => congrArg Buf.line (hbufs a ha.2)) hvalid hfree
        fun a ha heq => hnone a ha.1.1 ⟨ha.1.2, heq.trans hblock⟩
    have hset : onDevice dev c' xs' = insert b (onDevice dev w.sys.cache xs \ {b}) := by
      grind [onDevice]
    rw [← hset] at hload
    exact hload

theorem recycles (hp : p < n) (hrun : w.sys.pc p = .running) (hb : b ∈ xs)
    (hfree : (w.sys.cache.bufs b).refcnt = 0)
    (hnone : ∀ a ∈ xs, ¬ ((w.sys.cache.bufs a).dev = dev ∧ (w.sys.cache.bufs a).blockno = blockno)) :
    Coherent head n dev ⟨(w.sys.withCache (w.sys.cache.setBuf b (Buf.assign dev blockno))).goto p (.waiting b),
      w.view, w.mark, update w.asked p blockno⟩ xs := by
  obtain ⟨hlock, hpins, hunused⟩ := h.consistent.unused hb hfree
  have hself : (w.sys.cache.setBuf b (Buf.assign dev blockno)).bufs b =
      (w.sys.cache.bufs b).assign dev blockno := setBuf_self
  exact h.loads (h.consistent.recycles hp hrun hb hfree hnone) hrun
    (fun a => ⟨.inr, fun ha => ha.elim (fun heq => heq ▸ hb) id⟩) (fun a hab => setBuf_of_ne hab) rfl
    (congrArg Buf.dev hself) (congrArg Buf.blockno hself) (congrArg Buf.valid hself)
    ((congrArg Buf.lock hself).trans hlock) (h.idle hb hfree).1 hpins hunused hnone

theorem grows (hp : p < n) (hrun : w.sys.pc p = .running)
    (hfresh : w.sys.Fresh head alloc) (halloc : alloc ≠ 0)
    (hnone : ∀ a ∈ xs, ¬ ((w.sys.cache.bufs a).dev = dev ∧ (w.sys.cache.bufs a).blockno = blockno)) :
    Coherent head n dev ⟨(w.sys.withCache {w.sys.cache.insert head alloc (Buf.zero.assign dev blockno) with
      count := w.sys.cache.count + 1}).goto p (.waiting alloc), w.view, w.mark,
      update w.asked p blockno⟩ (alloc :: xs) := by
  have hnew : alloc ∉ xs := fun hmem => (hfresh halloc).2.1 (h.consistent.cached.mem_live.mpr hmem)
  obtain ⟨hpins, _, hunused⟩ := h.consistent.unused_of_not_mem hnew
  have hself : (update w.sys.cache.bufs alloc (Buf.zero.assign dev blockno)) alloc =
      Buf.zero.assign dev blockno := update_self ..
  exact h.loads (h.consistent.grows hp hrun hfresh halloc hnone) hrun (fun a => List.mem_cons)
    (fun a hab => update_of_ne hab ..) rfl (congrArg Buf.dev hself) (congrArg Buf.blockno hself)
    (congrArg Buf.valid hself) (congrArg Buf.lock hself) (h.free_of_not_mem hnew) hpins hunused hnone

theorem brelses (hp : p < n) (hrel : w.sys.pc p = .releasing b) :
    ∃ c' xs', Bcache.brelse head b w.sys.cache = .ok c' ∧
      Shrunk (w.sys.cache.setBuf b Buf.unref) c' xs xs' ∧
      Coherent head n dev {w with sys := (w.sys.withCache c').goto p .running} xs' := by
  obtain ⟨c', xs', hc', hshrunk, hgone, hcons⟩ := h.consistent.brelses hp hrel
  have hbufs : ∀ a, c'.bufs a = {w.sys.cache.bufs a with refcnt := (c'.bufs a).refcnt} := fun a => by
    rw [hshrunk.bufs]
    by_cases hab : a = b
    · rw [hab, setBuf_self]
      rfl
    · rw [setBuf_of_ne hab]
  have hlock : ∀ a, (c'.bufs a).lock = (w.sys.cache.bufs a).lock := fun a => by rw [hbufs]
  have hdev : ∀ a, (c'.bufs a).dev = (w.sys.cache.bufs a).dev := fun a => by rw [hbufs]
  have hline : ∀ a, (c'.bufs a).line = (w.sys.cache.bufs a).line := fun a => by rw [hbufs]; rfl
  have hfree : ∀ a ∈ xs, a ∉ xs' → w.mark a = .free ∧ w.sys.pins a = 0 := fun a ha hnot => by
    obtain ⟨hnone, hpins⟩ := hgone a ha hnot
    refine ⟨by_contra fun hm => ?_, hpins⟩
    obtain ⟨_, q, hq, _⟩ := (h.held a).mp hm
    rw [lock_setBuf Buf.unref fun _ => rfl, hq] at hnone
    cases hnone
  refine ⟨c', xs', hc', hshrunk, hcons, fun a ha hused => ?_, fun q a hq => ?_, fun a => ?_, ?_⟩
  · refine (hdev a).trans (h.device a (hshrunk.subset ha) fun hzero => hused ?_)
    show (c'.bufs a).refcnt = 0
    grind [Shrunk.bufs, setBuf_self, setBuf_of_ne, Buf.unref]
  · have hqp : q ≠ p := by
      rintro rfl
      simp only [goto_self] at hq
      rcases hq with hq | hq <;> cases hq
    simp only [goto_of_ne hqp] at hq
    exact (congrArg Line.key (hline a)).trans (h.asked q a hq)
  · rw [returned_goto (hlock a) (by simp [hrel]) (by simp)]
    refine (h.held a).trans ⟨fun ⟨ha, hr⟩ => ⟨by_contra fun hnot => ?_, hr⟩, fun ⟨ha, hr⟩ => ⟨hshrunk.subset ha, hr⟩⟩
    exact (h.held a).mpr ⟨ha, hr⟩ (hfree a ha hnot).1
  · show Faithful (fun a => (c'.bufs a).line) w.mark w.sys.pins c'.disk w.view (onDevice dev c' xs')
    simp only [hline, hshrunk.disk]
    refine h.faithful.evict (fun a ha => ⟨hshrunk.subset ha.1, hdev a ▸ ha.2⟩) fun a ha hnot => ?_
    exact hfree a ha.1 fun hmem => hnot ⟨hmem, (hdev a).trans ha.2⟩

end

end Coherent

/-! ### Every step -/

def Event.proc : Event → ℕ
  | .bget p _ _ _ | .acquiresleep p | .fill p | .modify p _ _ | .bwrite p _ | .releasesleep p _ | .brelse p
  | .bpin p _ | .bunpin p _ => p

/-- The buffer that its holder changes, writes or releases. -/
def Event.buf : Event → Option ℕ
  | .modify _ b _ | .bwrite _ b | .releasesleep _ b => some b
  | .bget _ _ _ _ | .acquiresleep _ | .fill _ | .brelse _ | .bpin _ _ | .bunpin _ _ => none

def Event.pins (pins : ℕ → ℕ) : Event → ℕ → ℕ
  | .bpin _ b => update pins b (pins b + 1)
  | .bunpin _ b => update pins b (pins b - 1)
  | .bget _ _ _ _ | .acquiresleep _ | .fill _ | .modify _ _ _ | .bwrite _ _ | .releasesleep _ _
  | .brelse _ => pins

/-- What a step does to the process that takes it, and to the buffer. -/
def Event.Does (s s' : Sys) : Event → Prop
  | .bget p _ _ _ => ∃ b, s'.pc p = .waiting b
  | .acquiresleep p => s'.pc p = s.pc p ∨ ∃ b, s.pc p = .waiting b ∧ s'.pc p = .reading b
  | .fill p => s'.pc p = s.pc p ∧ (∀ b, s.pc p ≠ .reading b) ∨ ∃ b, s.pc p = .reading b ∧ s'.pc p = .running ∧
      s'.cache.bufs b = (s.cache.bufs b).read s.cache.disk
  | .modify p b data => s'.pc p = s.pc p ∧ s'.cache.bufs b = (s.cache.bufs b).setData data
  | .bwrite p b => s'.pc p = s.pc p ∧ s'.cache.bufs b = s.cache.bufs b
  | .releasesleep p b => s'.pc p = .releasing b
  | .brelse p => s'.pc p = s.pc p ∨ ∃ b, s.pc p = .releasing b ∧ s'.pc p = .running
  | .bpin p _ | .bunpin p _ => s'.pc p = s.pc p

/-- What a step leaves as it is. -/
structure Kept (w : Watched) (e : Event) (s' : Sys) : Prop where
  pc : ∀ q, q ≠ e.proc → s'.pc q = w.sys.pc q
  /-- Buffers that some process has. -/
  returned : ∀ b, w.mark b ≠ .free → e.buf ≠ some b →
    s'.cache.bufs b = {w.sys.cache.bufs b with refcnt := (s'.cache.bufs b).refcnt}
  pinned : ∀ b ∈ w.sys.cache.live, 0 < w.sys.pins b → b ∈ s'.cache.live ∧
    (s'.cache.bufs b).dev = (w.sys.cache.bufs b).dev ∧
    (s'.cache.bufs b).blockno = (w.sys.cache.bufs b).blockno
  pins : s'.pins = e.pins w.sys.pins
  does : e.Does w.sys s'

theorem Kept.setBuf {e : Event} {s' : Sys} (hcache : s'.cache = w.sys.cache.setBuf b f)
    (hpc : ∀ q, q ≠ e.proc → s'.pc q = w.sys.pc q)
    (hf : w.mark b ≠ .free → e.buf ≠ some b →
      f (w.sys.cache.bufs b) = {w.sys.cache.bufs b with refcnt := (f (w.sys.cache.bufs b)).refcnt})
    (hsame : 0 < w.sys.pins b → (f (w.sys.cache.bufs b)).dev = (w.sys.cache.bufs b).dev ∧
      (f (w.sys.cache.bufs b)).blockno = (w.sys.cache.bufs b).blockno)
    (hpins : s'.pins = e.pins w.sys.pins)
    (hdoes : e.Does w.sys s') : Kept w e s' := by
  refine ⟨hpc, fun a hmark hbuf => ?_, fun a ha hpin => ?_, hpins, hdoes⟩
  · rw [hcache]
    by_cases hab : a = b
    · grind [setBuf_self]
    · rw [setBuf_of_ne hab]
  · rw [hcache]
    refine ⟨ha, ?_⟩
    grind [setBuf_self, setBuf_of_ne]

theorem Kept.grows {e : Event} {s' : Sys} (hpc : ∀ q, q ≠ e.proc → s'.pc q = w.sys.pc q)
    (hbufs : ∀ a, a ≠ alloc → s'.cache.bufs a = w.sys.cache.bufs a)
    (hlive : ∀ a ∈ w.sys.cache.live, a ∈ s'.cache.live) (hfree : w.mark alloc = .free)
    (hnew : alloc ∉ w.sys.cache.live)
    (hpins : s'.pins = e.pins w.sys.pins)
    (hdoes : e.Does w.sys s') : Kept w e s' := by
  refine ⟨hpc, fun a hmark _ => ?_, fun a ha _ => ?_, hpins, hdoes⟩
  · have hne : a ≠ alloc := fun heq => hmark (heq ▸ hfree)
    rw [hbufs a hne]
  grind

theorem Kept.refl {e : Event} {s : Sys} (hs : w.sys = s) (hpins : w.sys.pins = e.pins w.sys.pins)
    (hdoes : e.Does w.sys w.sys) : Kept w e s :=
  hs ▸ ⟨fun _ _ => rfl, fun _ _ _ => rfl, fun _ ha _ => ⟨ha, rfl, rfl⟩, hpins, hdoes⟩

namespace Coherent

section
variable (h : Coherent head n dev w xs)
include h

theorem step {e : Event} (ha : w.allowed head n dev e) :
    Outcome (· = .panic .bgetNoMemory) (w.sys.step head e) fun s' =>
      Kept w e s' ∧ ∃ xs', Coherent head n dev {w.note e with sys := s'} xs' := by
  obtain ⟨hallowed, hmore⟩ := ha
  cases e with
  | bget p d blockno alloc =>
    obtain ⟨hp, hrun, hfresh⟩ := hallowed
    obtain rfl : d = dev := hmore
    refine h.consistent.cached.bget.bind ?_
    rintro ⟨b, c⟩ hgot
    cases hgot with
    | found hb hdev hblock =>
      refine ⟨.setBuf rfl (fun q hq => goto_of_ne hq) (fun _ _ => rfl) (fun _ => ⟨rfl, rfl⟩) rfl
        ⟨b, goto_self⟩, xs, ?_⟩
      rw [← hblock]
      exact h.finds hp hrun ⟨hb, hdev⟩
    | recycled hb hfree hnone =>
      obtain ⟨hmark, hpins⟩ := h.idle hb hfree
      exact ⟨.setBuf rfl (fun q hq => goto_of_ne hq) (fun hm => absurd hmark hm)
        (fun hpos => absurd hpins hpos.ne') rfl ⟨b, goto_self⟩, xs,
        h.recycles hp hrun hb hfree hnone⟩
    | grown halloc hbusy hnone =>
      have hnew : alloc ∉ xs := fun hmem => (hfresh halloc).2.1 (h.consistent.cached.mem_live.mpr hmem)
      refine ⟨.grows (fun q hq => goto_of_ne hq) (fun a ha => update_of_ne ha ..)
        (fun a ha => List.mem_cons_of_mem _ ha) (h.free_of_not_mem hnew) (fun ha => ?_) rfl
        ⟨alloc, goto_self⟩, _, h.grows hp hrun hfresh halloc hnone⟩
      exact hnew (h.consistent.cached.mem_live.mp ha)
  | acquiresleep p =>
    rw [Sys.step]
    split
    case h_1 b hwait =>
      split
      case isTrue hfree =>
        have hmark : w.mark b = .free := by_contra fun hm => by
          obtain ⟨_, q, hq, _⟩ := (h.held b).mp hm
          grind
        exact ⟨.setBuf rfl (fun q hq => goto_of_ne hq) (fun hm => absurd hmark hm) (fun _ => ⟨rfl, rfl⟩)
          rfl (.inr ⟨b, hwait, goto_self⟩), xs, h.acquires hallowed hwait hfree⟩
      case isFalse => exact ⟨.refl rfl rfl (.inl rfl), xs, h⟩
    case h_2 => exact ⟨.refl rfl rfl (.inl rfl), xs, h⟩
  | fill p =>
    rw [Sys.step]
    split
    case h_1 b hread =>
      rw [note_fill hread]
      refine ⟨.setBuf fill_eq (fun q hq => goto_of_ne hq) (fun hm => absurd (h.reads hread).2 hm)
        (fun _ => ⟨rfl, rfl⟩) rfl (.inr ⟨b, hread, goto_self, ?_⟩), xs, h.fills hallowed hread⟩
      exact (congrArg (Bcache.bufs · b) fill_eq).trans setBuf_self
    case h_2 hnot =>
      rw [note_fill_of_not hnot]
      exact ⟨.refl rfl rfl (.inl ⟨rfl, hnot⟩), xs, h⟩
  | modify p b data =>
    exact ⟨.setBuf rfl (fun _ _ => rfl) (fun _ hb => absurd rfl hb) (fun _ => ⟨rfl, rfl⟩) rfl
      ⟨rfl, setBuf_self⟩, xs, h.modifies hallowed.2 data⟩
  | bwrite p b =>
    rw [Sys.step, if_pos hallowed.2.2.2]
    exact ⟨⟨fun _ _ => rfl, fun _ _ _ => rfl, fun a ha _ => ⟨ha, rfl, rfl⟩, rfl, rfl, rfl⟩, xs,
      h.writes hallowed.2⟩
  | releasesleep p b =>
    rw [Sys.step, if_pos hallowed.2.2.2]
    exact ⟨.setBuf rfl (fun q hq => goto_of_ne hq) (fun _ hb => absurd rfl hb) (fun _ => ⟨rfl, rfl⟩)
      rfl goto_self, xs, h.releases hallowed.1 hallowed.2 hmore⟩
  | brelse p =>
    rw [Sys.step]
    split
    case h_1 b hrel =>
      obtain ⟨c', xs', hc', hshrunk, hcoh⟩ := h.brelses hallowed hrel
      rw [hc']
      have hunref : Kept w (.brelse p) ((w.sys.withCache (w.sys.cache.setBuf b Buf.unref)).goto p .running) :=
        .setBuf rfl (fun q hq => goto_of_ne hq) (fun _ _ => rfl) (fun _ => ⟨rfl, rfl⟩) rfl (.inr ⟨b, hrel, goto_self⟩)
      have hbufs : ((w.sys.withCache c').goto p .running).cache.bufs =
        ((w.sys.withCache (w.sys.cache.setBuf b Buf.unref)).goto p .running).cache.bufs := hshrunk.bufs
      refine ⟨⟨hunref.pc, fun a hm hb => ?_, fun a ha hpin => ?_, rfl, hunref.does⟩, xs', hcoh⟩
      · rw [hbufs]
        exact hunref.returned a hm hb
      · rw [hbufs]
        refine ⟨hcoh.consistent.cached.mem_live.mpr (hcoh.consistent.pinned a hpin), (hunref.pinned a ha hpin).2⟩
    case h_2 => exact ⟨.refl rfl rfl (.inl rfl), xs, h⟩
  | bpin p b =>
    obtain ⟨hb, hmark⟩ := h.holds hallowed.2
    refine ⟨.setBuf rfl (fun _ _ => rfl) (fun _ _ => rfl) (fun _ => ⟨rfl, rfl⟩) rfl rfl, xs,
      h.pins hallowed.2 (fun _ => rfl) ?_ (h.sound hb).pin⟩
    · show (w.sys.cache.bufs b).refcnt + 1 + w.sys.pins b = (w.sys.cache.bufs b).refcnt + (w.sys.pins b + 1)
      omega
  | bunpin p b =>
    obtain ⟨hholds, hwritten⟩ := hmore
    obtain ⟨hb, hmark⟩ := h.holds hholds
    refine ⟨.setBuf rfl (fun _ _ => rfl) (fun _ _ => rfl) (fun _ => ⟨rfl, rfl⟩) rfl rfl, xs,
      h.pins hholds (fun _ => rfl) ?_ ?_⟩
    · have hpos : 0 < w.sys.pins b := hallowed.2
      have hsum := h.consistent.refcnt b hb.1
      show (w.sys.cache.bufs b).refcnt - 1 + w.sys.pins b = (w.sys.cache.bufs b).refcnt + (w.sys.pins b - 1)
      omega
    grind [Coherent.sound, Cache.Line.Sound.unpin]

theorem read_eq (hread : w.sys.pc p = .reading b) :
    ((w.sys.cache.bufs b).read w.sys.cache.disk).data = w.view (w.sys.cache.bufs b).blockno := by
  obtain ⟨hb, hfree⟩ := h.reads hread
  have hsound := h.sound hb
  rw [hfree] at hsound
  exact hsound.read

/-- A step changes what holders have done to their buffers only for the buffer that it is
about. -/
theorem note_mark {e : Event} (hm : w.mark b ≠ .free)
    (hb : e.buf ≠ some b) : (w.note e).mark b = w.mark b := by
  cases e with
  | fill p =>
    rw [Watched.note]
    split
    case h_1 a hread =>
      have hne : b ≠ a := fun heq => hm (heq ▸ (h.reads hread).2)
      exact update_of_ne hne ..
    case h_2 => rfl
  | modify p a data => exact update_of_ne (fun heq => hb (congrArg some heq.symm)) ..
  | bwrite p a => exact update_of_ne (fun heq => hb (congrArg some heq.symm)) ..
  | releasesleep p a => exact update_of_ne (fun heq => hb (congrArg some heq.symm)) ..
  | bget | acquiresleep | brelse | bpin | bunpin => rfl

theorem note_view {e : Event} (ha : w.allowed head n dev e)
    (hm : w.mark b ≠ .free) (hb : e.buf ≠ some b) :
    (w.note e).view (w.sys.cache.bufs b).blockno = w.view (w.sys.cache.bufs b).blockno := by
  cases e with
  | releasesleep p a =>
    refine update_of_ne (fun heq => ?_) ..
    have hheld := (h.held b).mp hm
    obtain ⟨q, hq, _⟩ := hheld.2
    have hbdev := h.mem_onDevice hheld.1 (h.locked hheld.1 (by rw [hq]; rfl))
    have hadev := (h.holds ha.1.2).1
    exact hb (congrArg some (h.faithful.unique hadev hbdev heq.symm))
  | fill p =>
    rw [Watched.note]
    split <;> rfl
  | modify | bwrite | bget | acquiresleep | brelse | bpin | bunpin => rfl

theorem back {e : Event} {s' : Sys} (ha : w.allowed head n dev e)
    (hk : Kept w e s') (hm : (w.note e).mark b ≠ .free) (hlock : (s'.cache.bufs b).lock = some q)
    (hq : q ≠ e.proc) : w.mark b ≠ .free ∧ e.buf ≠ some b := by
  cases e with
  | bget | acquiresleep | brelse | bpin | bunpin => exact ⟨hm, nofun⟩
  | fill p =>
    refine ⟨fun hfree => ?_, nofun⟩
    rcases hk.does with ⟨_, hnot⟩ | ⟨a, hread, hrun, hbuf⟩
    · rw [note_fill_of_not hnot] at hm
      exact hm hfree
    · by_cases hba : b = a
      · subst hba
        rw [hbuf] at hlock
        exact hq (Option.some.inj (hlock.symm.trans (h.consistent.reading p b hread).2))
      · rw [note_fill hread] at hm
        exact hm ((update_of_ne hba ..).trans hfree)
  | modify p a data =>
    by_cases hba : b = a
    · subst hba
      rw [hk.does.2] at hlock
      exact absurd (Option.some.inj (hlock.symm.trans ha.1.2.2.2)) hq
    · have hne : Event.buf (.modify p a data) ≠ some b := fun heq => hba (Option.some.inj heq).symm
      have hnote : (w.note (.modify p a data)).mark b = w.mark b := update_of_ne hba ..
      exact ⟨hnote ▸ hm, hne⟩
  | bwrite p a =>
    by_cases hba : b = a
    · subst hba
      rw [hk.does.2] at hlock
      exact absurd (Option.some.inj (hlock.symm.trans ha.1.2.2.2)) hq
    · have hne : Event.buf (.bwrite p a) ≠ some b := fun heq => hba (Option.some.inj heq).symm
      have hnote : (w.note (.bwrite p a)).mark b = w.mark b := update_of_ne hba ..
      exact ⟨hnote ▸ hm, hne⟩
  | releasesleep p a =>
    have hba : b ≠ a := fun heq => hm (heq ▸ update_self a _ w.mark)
    have hne : Event.buf (.releasesleep p a) ≠ some b := fun heq => hba (Option.some.inj heq).symm
    have hnote : (w.note (.releasesleep p a)).mark b = w.mark b := update_of_ne hba ..
    exact ⟨hnote ▸ hm, hne⟩

end

end Coherent

end Xv6.Bio
