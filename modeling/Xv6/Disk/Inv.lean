import Xv6.Disk.Calls

/-! What holds while processes use the cache and the log.

A commit has the buffers that its calls say it has, and the logged blocks that it has not
come to unpin are pinned (`Works`). If processes are disciplined, it also knows what data
it has, and which blocks it has copied to the log (`Tracks`). Other processes that use the
cache leave all that as it is (`Used.works`, `Used.tracks`). -/
namespace Xv6.Disk
open Function
open Bio Cache
open Log (Stage)

variable {head dev start n p q b k : ℕ} {D : Prop} {s s' : Sys} {stage : Stage} {W : Work} {pend : Option Reg}
  {xs : List ℕ} {e : Bio.Event} {r : Reg} {x : Held}

def Pinned (dev : ℕ) (s : Sys) (k : ℕ) : Prop :=
  ∃ b ∈ s.bio.sys.cache.live, (s.buf b).dev = dev ∧ (s.buf b).blockno = k ∧ 0 < s.bio.sys.pins b

/-- The logged blocks that a commit has not come to unpin. -/
def left (lh : List ℕ) : Stage → List ℕ
  | .test | .writeLog _ | .writeHead => lh
  | .installTrans tail => lh.drop (tail + 1)
  | .erase | .finish => []

/-- The calls `cs` that are left of a stage of a commit go through with `W`. -/
abbrev Continues (start : ℕ) (s : Sys) (stage : Stage) (W : Work) (cs : List Call) : Prop :=
  Runs start (Owned start s.log.log.lh) (sameIn start s.log.log.lh stage) W cs

/-- What a commit has, while other processes go on. It is waiting for the buffer `pend`. -/
structure Works (dev start : ℕ) (s : Sys) (p : ℕ) (stage : Stage) (W : Work) (pend : Option Reg) : Prop where
  runs : Runs start (Owned start s.log.log.lh) (sameIn start s.log.log.lh stage) W (s.todo p)
  pending : ∀ r, pend = some r → W.held r = some ⟨s.bio.asked p, .clean, some (s.bio.asked p)⟩ ∧
    (s.bio.sys.pc p = .waiting (s.reg p r) ∨ s.bio.sys.pc p = .reading (s.reg p r))
  settled : pend = none → ∀ b, s.bio.sys.pc p ≠ .waiting b ∧ s.bio.sys.pc p ≠ .reading b
  held : ∀ r x, W.held r = some x → pend ≠ some r → x.mark ≠ .free ∧ s.bio.mark (s.reg p r) = x.mark ∧
    (s.buf (s.reg p r)).lock = some p ∧ (s.buf (s.reg p r)).blockno = x.block
  distinct : ∀ r r' x x', r ≠ r' → W.held r = some x → W.held r' = some x' → pend ≠ some r →
    pend ≠ some r' → s.reg p r ≠ s.reg p r'
  pinned : ∀ k ∈ left s.log.log.lh stage, Pinned dev s k
  unpin : ∀ k, W.unpin = some k → Pinned dev s k ∧
    ∃ tail, stage = .installTrans tail ∧ s.log.log.lh[tail]? = some k

/-- The blocks that a commit has copied to the log. -/
def Copies (start : ℕ) (s : Sys) (copy : Option (ℕ × ℕ)) : Stage → Prop
  | .writeLog tail =>
    (∀ i k, s.log.log.lh[i]? = some k → i < tail ∨ i = tail ∧ copy = none →
      s.bio.view (start + i + 1) = s.bio.view k) ∧
    (copy = none ∨ ∃ k, s.log.log.lh[tail]? = some k ∧ copy = some (start + tail + 1, k))
  | .writeHead | .installTrans _ =>
    (∀ i k, s.log.log.lh[i]? = some k → s.bio.view (start + i + 1) = s.bio.view k) ∧ copy = none
  | .test | .erase | .finish => copy = none

/-- What a commit knows of the data. -/
structure Tracks (start : ℕ) (s : Sys) (p : ℕ) (stage : Stage) (W : Work) (pend : Option Reg) : Prop where
  content : ∀ r x k, W.held r = some x → x.content = some k →
    Owned start s.log.log.lh k ∧ (pend ≠ some r → (s.buf (s.reg p r)).data = s.bio.view k)
  only : ∀ b, s.bio.mark b ≠ .free → (s.buf b).lock = some p →
    ∃ r x, W.held r = some x ∧ pend ≠ some r ∧ s.reg p r = b
  copies : Copies start s W.copy stage

/-- What disciplined processes keep. -/
structure Tidy (start : ℕ) (s : Sys) : Prop where
  home : ∀ k, Log.Machine.Home start k → s.bio.view k = s.home k
  logged : ∀ k ∈ s.log.log.lh, Log.Machine.Home start k
  /-- Buffers of the log's own blocks, and of logged blocks outside of operations. -/
  untouched : ∀ b q, s.bio.mark b ≠ .free → (s.buf b).lock = some q → (s.log.pc q).stage = none →
    (¬ Log.Machine.Home start (s.buf b).blockno ∨
      (s.buf b).blockno ∈ s.log.log.lh ∧ (s.log.pc q).logged = none) →
    (s.buf b).data = s.bio.view (s.buf b).blockno

/-- What holds between any two steps; `D` says that processes are disciplined. -/
structure Inv (head dev start n : ℕ) (D : Prop) (s : Sys) : Prop where
  coherent : ∃ xs, Coherent head n dev s.bio xs
  log : Log.Inv s.log
  room : s.log.log.lh.length ≤ Log.logBlocks
  quiet : ∀ p, (s.log.pc p).stage = none → s.todo p = []
  openLog : s.log.log.committing = false → ∀ k ∈ s.log.log.lh, Pinned dev s k
  works : ∀ p stage, s.log.pc p = .commit stage →
    ∃ W pend, Works dev start s p stage W pend ∧ (D → Tracks start s p stage W pend)
  tidy : D → Tidy start s

/-! ### Steps of the cache -/

/-- The state after process `e.proc` has used the cache. -/
structure Used (head dev n : ℕ) (e : Bio.Event) (s s' : Sys) : Prop where
  allowed : s.bio.allowed head n dev e
  kept : Kept s.bio e s'.bio.sys
  bio : s'.bio = {s.bio.note e with sys := s'.bio.sys}
  coherent : ∃ xs, Coherent head n dev s'.bio xs
  log : s'.log = s.log
  todo : ∀ q, q ≠ e.proc → s'.todo q = s.todo q
  reg : ∀ q, q ≠ e.proc → s'.reg q = s.reg q

namespace Used

variable (u : Used head dev n e s s')
include u

theorem mark : s'.bio.mark = (s.bio.note e).mark := by
  rw [u.bio]

theorem view : s'.bio.view = (s.bio.note e).view := by
  rw [u.bio]

theorem same (h : Coherent head n dev s.bio xs) (hm : s.bio.mark b ≠ .free) (hb : e.buf ≠ some b) :
    s'.bio.mark b = s.bio.mark b ∧ s'.buf b = {s.buf b with refcnt := (s'.buf b).refcnt} ∧
      s'.bio.view (s.buf b).blockno = s.bio.view (s.buf b).blockno := by
  refine ⟨?_, u.kept.returned b hm hb, ?_⟩
  · rw [u.mark]
    exact h.note_mark hm hb
  · rw [u.view]
    exact h.note_view u.allowed hm hb

theorem asked (hq : q ≠ e.proc) : s'.bio.asked q = s.bio.asked q := by
  rw [u.bio]
  cases e with
  | bget p => exact update_of_ne hq ..
  | fill p =>
    show (s.bio.note (.fill p)).asked q = _
    rw [Watched.note]
    split <;> rfl
  | acquiresleep | modify | bwrite | releasesleep | brelse | bpin | bunpin => rfl

theorem holder (hb : e.buf = some b) : (s.buf b).lock = some e.proc ∧ s.bio.sys.pc e.proc = .running := by
  have ha := u.allowed.1
  cases e with
  | modify | bwrite | releasesleep =>
    cases hb
    exact ⟨ha.2.2.2, ha.2.1⟩
  | bget | acquiresleep | fill | brelse | bpin | bunpin => cases hb

theorem not_buf (hlock : (s.buf b).lock = some q) (hq : q ≠ e.proc) : e.buf ≠ some b := fun heq =>
  hq (Option.some.inj (hlock.symm.trans (u.holder heq).1))

theorem pinned (hpins : s.bio.sys.pins ≤ s'.bio.sys.pins) (h : Pinned dev s k) : Pinned dev s' k := by
  obtain ⟨b, hb, hdev, hblock, hpin⟩ := h
  obtain ⟨hb', hdev', hblock'⟩ := u.kept.pinned b hb hpin
  exact ⟨b, hb', hdev'.trans hdev, hblock'.trans hblock, hpin.trans_le (hpins b)⟩

theorem works (hq : q ≠ e.proc) (hpins : s.bio.sys.pins ≤ s'.bio.sys.pins)
    (hcoh : Coherent head n dev s.bio xs) (h : Works dev start s q stage W pend) :
    Works dev start s' q stage W pend := by
  have hreg := u.reg q hq
  have hpc := u.kept.pc q hq
  have hsame : ∀ r x, W.held r = some x → pend ≠ some r →
      s'.bio.mark (s.reg q r) = s.bio.mark (s.reg q r) ∧
      s'.buf (s.reg q r) = {s.buf (s.reg q r) with refcnt := (s'.buf (s.reg q r)).refcnt} := fun r x hr hp => by
    obtain ⟨hfree, hmark, hlock, _⟩ := h.held r x hr hp
    obtain ⟨hm, hbuf, _⟩ := u.same hcoh (hmark ▸ hfree) (u.not_buf hlock hq)
    exact ⟨hm, hbuf⟩
  refine ⟨?_, fun r hr => ?_, fun hnone b => ?_, fun r x hr hp => ?_, fun r r' x x' hne hr hr' hp hp' => ?_,
    fun k hk => ?_, fun k hk => ?_⟩
  · rw [u.log, u.todo q hq]
    exact h.runs
  · rw [u.asked hq, hpc, hreg]
    exact h.pending r hr
  · rw [hpc]
    exact h.settled hnone b
  · obtain ⟨hfree, hmark, hlock, hblock⟩ := h.held r x hr hp
    grind
  · rw [hreg]
    exact h.distinct r r' x x' hne hr hr' hp hp'
  · rw [u.log] at hk
    exact u.pinned hpins (h.pinned k hk)
  · obtain ⟨hpin, htail⟩ := h.unpin k hk
    rw [u.log]
    exact ⟨u.pinned hpins hpin, htail⟩

/-- A process outside of operations and commits does not change what is viewed for blocks
that the log owns. -/
theorem view_owned (htidy : Tidy start s) (hcoh : Coherent head n dev s.bio xs)
    (hstage : (s.log.pc e.proc).stage = none) (hop : (s.log.pc e.proc).logged = none)
    (hk : Owned start s.log.log.lh k) : s'.bio.view k = s.bio.view k := by
  rw [u.view]
  cases e with
  | releasesleep p b =>
    have hholds := u.allowed.1.2
    by_cases hkb : k = (s.buf b).blockno
    · have hdata := htidy.untouched b p (hcoh.holds hholds).2 hholds.2.2 hstage
        (hkb ▸ hk.imp id fun hmem => ⟨hmem, hop⟩)
      show update s.bio.view (s.buf b).blockno (s.buf b).data k = s.bio.view k
      rw [hkb, update_self, hdata]
    · exact update_of_ne hkb ..
  | fill p =>
    rw [Watched.note]
    split <;> rfl
  | bget | acquiresleep | modify | bwrite | brelse | bpin | bunpin => rfl

end Used

/-- What is copied depends on the data of logged blocks and of their blocks in the log. -/
theorem Copies.congr {copy : Option (ℕ × ℕ)} (h : Copies start s copy stage)
    (hlog : s'.log.log.lh = s.log.log.lh)
    (hview : ∀ i k, s.log.log.lh[i]? = some k →
      s'.bio.view (start + i + 1) = s.bio.view (start + i + 1) ∧ s'.bio.view k = s.bio.view k) :
    Copies start s' copy stage := by
  have hcopied : ∀ {i k}, s.log.log.lh[i]? = some k → s.bio.view (start + i + 1) = s.bio.view k →
      s'.bio.view (start + i + 1) = s'.bio.view k := fun {i k} hi heq => by
    rw [(hview i k hi).1, (hview i k hi).2, heq]
  cases stage with
  | writeLog tail =>
    rw [Copies, hlog]
    exact ⟨fun i k hi ht => hcopied hi (h.1 i k hi ht), h.2⟩
  | writeHead =>
    grind [Copies]
  | installTrans tail =>
    rw [Copies, hlog]
    exact ⟨fun i k hi => hcopied hi (h.1 i k hi), h.2⟩
  | test | erase | finish => exact h

theorem Copies.of_owned {copy : Option (ℕ × ℕ)} (h : Copies start s copy stage)
    (hlog : s'.log.log.lh = s.log.log.lh) (hroom : s.log.log.lh.length ≤ Log.logBlocks)
    (hview : ∀ k, Owned start s.log.log.lh k → s'.bio.view k = s.bio.view k) : Copies start s' copy stage :=
  h.congr hlog fun _ k hi =>
    ⟨hview _ (.inl (not_home_log hroom hi)), hview k (.inr (List.mem_of_getElem? hi))⟩

namespace Used

variable (u : Used head dev n e s s')
include u

theorem tracks (hq : q ≠ e.proc) (hcoh : Coherent head n dev s.bio xs) (htidy : Tidy start s)
    (hroom : s.log.log.lh.length ≤ Log.logBlocks)
    (hstage : (s.log.pc e.proc).stage = none) (hop : (s.log.pc e.proc).logged = none)
    (hw : Works dev start s q stage W pend) (h : Tracks start s q stage W pend) :
    Tracks start s' q stage W pend := by
  have hreg := u.reg q hq
  refine ⟨fun r x k hr hk => ?_, fun b hm hlock => ?_, ?_⟩
  · obtain ⟨howned, hdata⟩ := h.content r x k hr hk
    refine ⟨?_, fun hp => ?_⟩
    · rw [u.log]
      exact howned
    · obtain ⟨hfree, hmark, hlock, _⟩ := hw.held r x hr hp
      obtain ⟨_, hbuf, _⟩ := u.same hcoh (hmark ▸ hfree) (u.not_buf hlock hq)
      grind [Used.view_owned, u.view_owned]
  · rw [u.mark] at hm
    obtain ⟨hm', hb⟩ := hcoh.back u.allowed u.kept hm hlock hq
    obtain ⟨_, hbuf, _⟩ := u.same hcoh hm' hb
    grind [Tracks.only]
  · exact h.copies.of_owned (by rw [u.log]) hroom fun k hk => u.view_owned htidy hcoh hstage hop hk

theorem tidy (hcoh : Coherent head n dev s.bio xs) (h : Tidy start s)
    (hhome : ∀ k, Log.Machine.Home start k → s'.bio.view k = s'.home k)
    (hmodify : ∀ b data, e = .modify e.proc b data → (s.log.pc e.proc).stage = none →
      (¬ Log.Machine.Home start (s.buf b).blockno ∨
        (s.buf b).blockno ∈ s.log.log.lh ∧ (s.log.pc e.proc).logged = none) →
      data = s.bio.view (s.buf b).blockno) :
    Tidy start s' := by
  refine ⟨hhome, by rw [u.log]; exact h.logged, fun b q hm hlock hstage hown => ?_⟩
  rw [u.log] at hstage hown
  -- What somebody had before and is not changed now.
  have hold : s.bio.mark b ≠ .free → e.buf ≠ some b →
      (s'.buf b).data = s'.bio.view (s'.buf b).blockno := fun hm' hb => by
    obtain ⟨_, hbuf, hview⟩ := u.same hcoh hm' hb
    rw [hbuf] at hlock hown ⊢
    rw [hview]
    exact h.untouched b q hm' hlock hstage hown
  rw [u.mark] at hm
  by_cases hq : q = e.proc
  · subst hq
    cases he : e with
    | bget | acquiresleep | brelse | bpin | bunpin =>
      subst he
      exact hold hm nofun
    | fill p =>
      subst he
      rcases u.kept.does with ⟨_, hnot⟩ | ⟨a, hread, _, hbuf⟩
      · rw [note_fill_of_not hnot] at hm
        exact hold hm nofun
      · rw [note_fill hread] at hm
        by_cases hba : b = a
        · subst hba
          have hbuf' : s'.buf b = (s.buf b).read s.bio.sys.cache.disk := hbuf
          rw [hbuf', u.view, note_fill hread]
          exact hcoh.read_eq hread
        · have hmark : update s.bio.mark a .clean b = s.bio.mark b := update_of_ne hba ..
          exact hold (hmark ▸ hm) nofun
    | modify p a data =>
      subst he
      by_cases hba : b = a
      · subst hba
        have hbuf : s'.buf b = (s.buf b).setData data := u.kept.does.2
        rw [hbuf] at hown ⊢
        rw [u.view]
        exact hmodify b data rfl hstage hown
      · have hnote : (s.bio.note (.modify p a data)).mark b = s.bio.mark b := update_of_ne hba ..
        exact hold (hnote ▸ hm) fun heq => hba (Option.some.inj heq).symm
    | bwrite p a =>
      subst he
      by_cases hba : b = a
      · subst hba
        have hbuf : s'.buf b = s.buf b := u.kept.does.2
        rw [hbuf] at hlock hown ⊢
        rw [u.view]
        exact h.untouched b p (hcoh.holds u.allowed.1.2).2 hlock hstage hown
      · have hnote : (s.bio.note (.bwrite p a)).mark b = s.bio.mark b := update_of_ne hba ..
        exact hold (hnote ▸ hm) fun heq => hba (Option.some.inj heq).symm
    | releasesleep p a =>
      subst he
      have hba : b ≠ a := fun heq => hm (heq ▸ update_self a _ s.bio.mark)
      have hnote : (s.bio.note (.releasesleep p a)).mark b = s.bio.mark b := update_of_ne hba ..
      exact hold (hnote ▸ hm) fun heq => hba (Option.some.inj heq).symm
  · obtain ⟨hm', hb⟩ := hcoh.back u.allowed u.kept hm hlock hq
    exact hold hm' hb

end Used

namespace Inv

theorem byClient (h : Inv head dev start n D s) (u : Used head dev n e s s')
    (hstage : (s.log.pc e.proc).stage = none) (hpins : s.bio.sys.pins ≤ s'.bio.sys.pins)
    (htodo : s'.todo e.proc = s.todo e.proc) (htidy : D → Tidy start s') : Inv head dev start n D s' := by
  obtain ⟨xs, hcoh⟩ := h.coherent
  refine ⟨u.coherent, u.log ▸ h.log, u.log ▸ h.room, fun q hq => ?_, fun hc k hk => ?_,
    fun q stage hq => ?_, htidy⟩
  · grind [Used.log, Inv.quiet, Used.todo, u.log, u.todo]
  · rw [u.log] at hc hk
    exact u.pinned hpins (h.openLog hc k hk)
  · rw [u.log] at hq
    have hqe : q ≠ e.proc := by
      rintro rfl
      rw [hq] at hstage
      cases hstage
    obtain ⟨W, pend, hworks, htracks⟩ := h.works q stage hq
    refine ⟨W, pend, u.works hqe hpins hcoh hworks, fun hD => ?_⟩
    have hop : (s.log.pc e.proc).logged = none := by
      cases hpc : s.log.pc e.proc with
      | inOp w => exact absurd hpc (h.log.not_inOp (h.log.committing hq) _ w)
      | idle | asleep | commit => rfl
    exact u.tracks hqe hcoh (h.tidy hD) h.room hstage hop hworks (htracks hD)

theorem byCommit (h : Inv head dev start n D s) (u : Used head dev n e s s')
    (hp : s.log.pc e.proc = .commit stage)
    (hworks : ∃ W pend, Works dev start s' e.proc stage W pend ∧ (D → Tracks start s' e.proc stage W pend))
    (htidy : D → Tidy start s') : Inv head dev start n D s' := by
  refine ⟨u.coherent, u.log ▸ h.log, u.log ▸ h.room, fun q hq => ?_, fun hc k hk => ?_,
    fun q stage' hq => ?_, htidy⟩
  · rw [u.log] at hq
    have hqe : q ≠ e.proc := by
      rintro rfl
      rw [hp] at hq
      cases hq
    rw [u.todo q hqe, h.quiet q hq]
  · rw [u.log, h.log.committing hp] at hc
    cases hc
  grind [Used.log, Inv.log, Log.Inv.alone, u.log]

end Inv

theorem use_used (hcoh : Coherent head n dev s.bio xs) (ha : s.bio.allowed head n dev e) :
    Outcome (· = .bio (.panic .bgetNoMemory)) (s.use head e) fun s' =>
      Used head dev n e s s' ∧ s' = {s with bio := s'.bio} := by
  have hstep := hcoh.step ha
  rw [Sys.use, Watched.step]
  cases hs : s.bio.sys.step head e with
  | error stop =>
    rw [hs] at hstep
    exact congrArg Stop.bio hstep
  | ok sys =>
    rw [hs] at hstep
    obtain ⟨hkept, hcoh'⟩ := hstep
    exact ⟨⟨ha, hkept, rfl, hcoh', rfl, fun _ _ => rfl, fun _ _ => rfl⟩, rfl⟩

end Xv6.Disk
