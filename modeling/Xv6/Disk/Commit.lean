import Xv6.Disk.Inv

/-! The steps of a commit.

Each call changes what a commit has as `Runs` says. While it is in `bread` or `brelse`, it
waits for locks like any other process. -/
namespace Xv6.Disk
open Function
open Bio Cache
open Log (Stage)

variable {head dev start n p b k : ℕ} {D : Prop} {s s' : Sys} {stage : Stage} {W : Work} {pend : Option Reg}
  {xs : List ℕ} {e : Bio.Event} {r : Reg} {x : Held}

/-! ### Waiting -/

theorem Works.progress (h : Works dev start s e.proc stage W pend) (u : Used head dev n e s s')
    (hcoh : Coherent head n dev s.bio xs) (hbuf : e.buf = none) (hnote : s.bio.note e = s.bio)
    (hpins : s.bio.sys.pins ≤ s'.bio.sys.pins) (hs : s' = {s with bio := s'.bio})
    (hpending : ∀ r, pend = some r → s'.bio.sys.pc e.proc = .waiting (s.reg e.proc r) ∨
      s'.bio.sys.pc e.proc = .reading (s.reg e.proc r))
    (hsettled : pend = none → ∀ b, s'.bio.sys.pc e.proc ≠ .waiting b ∧ s'.bio.sys.pc e.proc ≠ .reading b) :
    Works dev start s' e.proc stage W pend := by
  have hreg : s'.reg = s.reg := by rw [hs]
  have htodo : s'.todo = s.todo := by rw [hs]
  have hasked : s'.bio.asked = s.bio.asked := by rw [u.bio, hnote]
  refine ⟨?_, fun r hr => ?_, hsettled, fun r x hr hp => ?_, ?_, fun k hk => ?_, fun k hk => ?_⟩
  · rw [u.log, htodo]
    exact h.runs
  · rw [hasked, hreg]
    exact ⟨(h.pending r hr).1, hpending r hr⟩
  · obtain ⟨hfree, hmark, hlock, hblock⟩ := h.held r x hr hp
    grind [Used.same]
  · rw [hreg]
    exact h.distinct
  · rw [u.log] at hk
    exact u.pinned hpins (h.pinned k hk)
  grind [Works.unpin, Used.log, Used.pinned, u.log]

theorem Tracks.progress (h : Tracks start s e.proc stage W pend) (hw : Works dev start s e.proc stage W pend)
    (u : Used head dev n e s s') (hcoh : Coherent head n dev s.bio xs) (hbuf : e.buf = none)
    (hnote : s.bio.note e = s.bio) (hs : s' = {s with bio := s'.bio}) : Tracks start s' e.proc stage W pend := by
  have hreg : s'.reg = s.reg := by rw [hs]
  have hview : s'.bio.view = s.bio.view := by rw [u.view, hnote]
  refine ⟨fun r x k hr hk => ?_, fun b hm hlock => ?_, ?_⟩
  · obtain ⟨howned, hdata⟩ := h.content r x k hr hk
    rw [u.log, hview, hreg]
    refine ⟨howned, fun hp => ?_⟩
    obtain ⟨hfree, hmark, _⟩ := hw.held r x hr hp
    obtain ⟨_, hbuf', _⟩ := u.same hcoh (hmark ▸ hfree) (hbuf ▸ nofun)
    rw [hbuf']
    exact hdata hp
  · rw [u.mark, hnote] at hm
    obtain ⟨_, hbuf', _⟩ := u.same hcoh hm (hbuf ▸ nofun)
    grind [Tracks.only]
  · exact h.copies.congr (by rw [u.log]) fun i k _ => by rw [hview]; exact ⟨rfl, rfl⟩

theorem Used.filled (u : Used head dev n (.fill p) s s') (hread : s.bio.sys.pc p = .reading b) :
    s'.bio.sys.pc p = .running ∧ s'.buf b = (s.buf b).read s.bio.sys.cache.disk ∧
      s'.bio.mark = update s.bio.mark b .clean ∧ s'.bio.view = s.bio.view := by
  have hmark := u.mark
  have hview := u.view
  rw [note_fill hread] at hmark hview
  rcases u.kept.does with ⟨_, hnot⟩ | ⟨a, ha, hrun, hbuf⟩
  · exact absurd hread (hnot b)
  · cases hread.symm.trans ha
    exact ⟨hrun, hbuf, hmark, hview⟩

theorem Works.reading (h : Works dev start s p stage W (some r)) (hread : s.bio.sys.pc p = .reading b) :
    s.reg p r = b ∧ W.held r = some ⟨s.bio.asked p, .clean, some (s.bio.asked p)⟩ := by
  grind [Works.pending]

theorem Works.fills (h : Works dev start s p stage W (some r)) (u : Used head dev n (.fill p) s s')
    (hcoh : Coherent head n dev s.bio xs) (hs : s' = {s with bio := s'.bio})
    (hread : s.bio.sys.pc p = .reading b) : Works dev start s' p stage W none := by
  have hreg : s'.reg = s.reg := by rw [hs]
  have htodo : s'.todo = s.todo := by rw [hs]
  have hpins : s.bio.sys.pins ≤ s'.bio.sys.pins := u.kept.pins.ge
  obtain ⟨hb, hr⟩ := h.reading hread
  obtain ⟨hrun, hbuf, hmark, -⟩ := u.filled hread
  have hfree : s.bio.mark b = .free := (hcoh.reads hread).2
  -- The other register's buffer is another one, since the commit has it already.
  have hother : ∀ r' x, r' ≠ r → W.held r' = some x → s.reg p r' ≠ b := fun r' x hne hr' heq => by
    obtain ⟨hm, hmark', _⟩ := h.held r' x hr' fun hsome => hne (Option.some.inj hsome).symm
    grind
  refine ⟨?_, nofun, fun _ a => ?_, fun r' x hr' _ => ?_, fun r1 r2 x1 x2 hne h1 h2 _ _ => ?_, fun k hk => ?_,
    fun k hk => ?_⟩
  · rw [u.log, htodo]
    exact h.runs
  · rw [hrun]
    exact ⟨nofun, nofun⟩
  · rw [hreg]
    by_cases hrr : r' = r
    · subst hrr
      cases hr.symm.trans hr'
      rw [hb, hbuf, hmark, update_self]
      exact ⟨nofun, rfl, (hcoh.consistent.reading p b hread).2, hcoh.asked p b (.inr hread)⟩
    · obtain ⟨hm, hmark', hlock, hblock⟩ := h.held r' x hr' fun hsome => hrr (Option.some.inj hsome).symm
      obtain ⟨hsame, hbuf', _⟩ := u.same hcoh (hmark' ▸ hm) nofun
      grind
  · rw [hreg]
    by_cases h₁r : r1 = r
    · grind
    · by_cases h₂r : r2 = r
      · grind
      · exact h.distinct r1 r2 x1 x2 hne h1 h2 (fun hsome => h₁r (Option.some.inj hsome).symm)
          fun hsome => h₂r (Option.some.inj hsome).symm
  · rw [u.log] at hk
    exact u.pinned hpins (h.pinned k hk)
  grind [Works.unpin, Used.log, Used.pinned, u.log]

theorem Tracks.fills (h : Tracks start s p stage W (some r)) (hw : Works dev start s p stage W (some r))
    (u : Used head dev n (.fill p) s s') (hcoh : Coherent head n dev s.bio xs)
    (hs : s' = {s with bio := s'.bio}) (hread : s.bio.sys.pc p = .reading b) :
    Tracks start s' p stage W none := by
  have hreg : s'.reg = s.reg := by rw [hs]
  obtain ⟨hb, hr⟩ := hw.reading hread
  obtain ⟨-, hbuf, hmark, hview⟩ := u.filled hread
  refine ⟨fun r' x k hr' hk => ?_, fun a hm hlock => ?_, ?_⟩
  · obtain ⟨howned, hdata⟩ := h.content r' x k hr' hk
    rw [u.log, hview, hreg]
    refine ⟨howned, fun _ => ?_⟩
    by_cases hrr : r' = r
    · subst hrr
      cases hr.symm.trans hr'
      cases hk
      rw [hb, hbuf, ← hcoh.asked p b (.inr hread)]
      exact hcoh.read_eq hread
    · have hne : some r ≠ some r' := fun hsome => hrr (Option.some.inj hsome).symm
      obtain ⟨hfree, hmark', _⟩ := hw.held r' x hr' hne
      obtain ⟨_, hbuf', _⟩ := u.same hcoh (hmark' ▸ hfree) nofun
      rw [hbuf']
      exact hdata hne
  · rw [hreg]
    by_cases hab : a = b
    · exact ⟨r, _, hr, nofun, hb.trans hab.symm⟩
    · rw [hmark, update_of_ne hab] at hm
      obtain ⟨_, hbuf', _⟩ := u.same hcoh hm nofun
      grind [Tracks.only]
  · exact h.copies.congr (by rw [u.log]) fun i k _ => by rw [hview]; exact ⟨rfl, rfl⟩

/-! ### Calls -/

namespace Work

variable {r' : Reg} {x? : Option Held}

@[simp] theorem held_set : (W.set r x?).held r = x? := update_self ..

theorem held_set_of_ne (hne : r' ≠ r) : (W.set r x?).held r' = W.held r' := update_of_ne hne ..

end Work

theorem Works.pend_eq_none (h : Works dev start s p stage W pend) (hrun : s.bio.sys.pc p = .running) :
    pend = none := by
  cases pend with
  | none => rfl
  | some r =>
    obtain ⟨_, hpc⟩ := h.pending r rfl
    grind

theorem Works.pins (h : Works dev start s p stage W pend) (u : Used head dev n e s s')
    (hpins : s.bio.sys.pins ≤ s'.bio.sys.pins) :
    (∀ k ∈ left s'.log.log.lh stage, Pinned dev s' k) ∧ ∀ k, W.unpin = some k → Pinned dev s' k ∧
      ∃ tail, stage = .installTrans tail ∧ s'.log.log.lh[tail]? = some k := by
  rw [u.log]
  refine ⟨fun k hk => u.pinned hpins (h.pinned k hk), fun k hk => ?_⟩
  grind [Works.unpin, Used.pinned]

theorem Works.untouched {r' : Reg} {x' : Held} (h : Works dev start s p stage W none)
    (u : Used head dev n e s s') (hcoh : Coherent head n dev s.bio xs) (hr' : W.held r' = some x')
    (hbuf : e.buf ≠ some (s.reg p r')) :
    (x'.mark ≠ .free ∧ s'.bio.mark (s.reg p r') = x'.mark ∧ (s'.buf (s.reg p r')).lock = some p ∧
      (s'.buf (s.reg p r')).blockno = x'.block) ∧
    (s'.buf (s.reg p r')).data = (s.buf (s.reg p r')).data := by
  grind [Works.held, Used.same]

section Bread

variable {alloc : ℕ} {cs : List Call}

theorem Works.breads (h : Works dev start s p stage W none) (u : Used head dev n (.bget p dev k alloc) s s')
    (hcoh : Coherent head n dev s.bio xs) (hpc : s'.bio.sys.pc p = .waiting b)
    (hreg : s'.reg p = update (s.reg p) r b)
    (hruns : Continues start s stage (W.set r (some ⟨k, .clean, some k⟩)) (s'.todo p)) :
    Works dev start s' p stage (W.set r (some ⟨k, .clean, some k⟩)) (some r) := by
  have hasked : s'.bio.asked p = k := by
    rw [u.bio]
    exact update_self p k s.bio.asked
  have hreg' : ∀ r', some r ≠ some r' → s'.reg p r' = s.reg p r' := fun r' hne => by
    rw [hreg, update_of_ne fun heq => hne (congrArg some heq.symm)]
  have hheld : ∀ r', some r ≠ some r' → (W.set r (some ⟨k, .clean, some k⟩)).held r' = W.held r' :=
    fun r' hne => Work.held_set_of_ne fun heq => hne (congrArg some heq.symm)
  obtain ⟨hpinned, hunpin⟩ := h.pins u u.kept.pins.ge
  refine ⟨u.log ▸ hruns, fun r' hr' => ?_, nofun, fun r' x hr' hp => ?_,
    fun r1 r2 x1 x2 hne h1 h2 hp1 hp2 => ?_, hpinned, hunpin⟩
  · cases hr'
    rw [Work.held_set, hasked, hreg, update_self]
    exact ⟨rfl, .inl hpc⟩
  · rw [hheld r' hp] at hr'
    rw [hreg' r' hp]
    exact (h.untouched u hcoh hr' nofun).1
  grind [Works.distinct]

theorem Tracks.breads (h : Tracks start s p stage W none) (hw : Works dev start s p stage W none)
    (u : Used head dev n (.bget p dev k alloc) s s') (hcoh : Coherent head n dev s.bio xs)
    (hreg : s'.reg p = update (s.reg p) r b) (hr : W.held r = none)
    (hown : Owned start s.log.log.lh k) :
    Tracks start s' p stage (W.set r (some ⟨k, .clean, some k⟩)) (some r) := by
  have hview : s'.bio.view = s.bio.view := u.view
  refine ⟨fun r' x k' hr' hk' => ?_, fun a hm hlock => ?_, ?_⟩
  · rw [u.log, hview]
    by_cases hrr : r' = r
    · grind [Work.held_set]
    · rw [Work.held_set_of_ne hrr] at hr'
      obtain ⟨howned, hdata⟩ := h.content r' x k' hr' hk'
      rw [hreg, update_of_ne hrr, (hw.untouched u hcoh hr' nofun).2]
      exact ⟨howned, fun _ => hdata nofun⟩
  · have hm' : s.bio.mark a ≠ .free := u.mark ▸ hm
    obtain ⟨_, hbuf', _⟩ := u.same hcoh hm' nofun
    rw [hbuf'] at hlock
    obtain ⟨r', x, hr', _, hra⟩ := h.only a hm' hlock
    have hrr : r' ≠ r := fun heq => by
      grind
    refine ⟨r', x, ?_, fun hsome => hrr (Option.some.inj hsome).symm, ?_⟩
    · rw [Work.held_set_of_ne hrr, hr']
    · rw [hreg, update_of_ne hrr, hra]
  · exact h.copies.congr (by rw [u.log]) fun i k _ => by rw [hview]; exact ⟨rfl, rfl⟩

end Bread

section Change

variable {y : Held}

theorem Works.buf_ne {r' : Reg} {x' : Held} (h : Works dev start s p stage W none) (hr : W.held r = some x)
    (hr' : W.held r' = some x') (hne : r' ≠ r) (hbuf : e.buf = some (s.reg p r)) :
    e.buf ≠ some (s.reg p r') := fun heq =>
  h.distinct r' r x' x hne hr' hr nofun nofun (Option.some.inj (heq.symm.trans hbuf))

theorem Works.changes (h : Works dev start s p stage W none) (u : Used head dev n e s s')
    (hcoh : Coherent head n dev s.bio xs) (hr : W.held r = some x) (hbuf : e.buf = some (s.reg p r))
    (hpins : s.bio.sys.pins ≤ s'.bio.sys.pins) (hreg : s'.reg p = s.reg p) (hrun : s'.bio.sys.pc p = .running)
    (hfree : y.mark ≠ .free) (hmark : s'.bio.mark (s.reg p r) = y.mark)
    (hlock : (s'.buf (s.reg p r)).lock = some p) (hblock : (s'.buf (s.reg p r)).blockno = y.block)
    (hruns : Continues start s stage (W.set r (some y)) (s'.todo p)) :
    Works dev start s' p stage (W.set r (some y)) none := by
  obtain ⟨hpinned, hunpin⟩ := h.pins u hpins
  have hold : ∀ {r' x'}, (W.set r (some y)).held r' = some x' → ∃ x'', W.held r' = some x'' := by
    grind [Work.held_set_of_ne]
  refine ⟨u.log ▸ hruns, nofun, fun _ a => ?_, fun r' x' hr' _ => ?_, fun r1 r2 x1 x2 hne h1 h2 _ _ => ?_,
    hpinned, hunpin⟩
  · rw [hrun]
    exact ⟨nofun, nofun⟩
  · rw [hreg]
    by_cases hrr : r' = r
    · grind [Work.held_set]
    grind [Work.held_set_of_ne, Works.untouched, Works.buf_ne]
  · obtain ⟨_, h1'⟩ := hold h1
    obtain ⟨_, h2'⟩ := hold h2
    rw [hreg]
    exact h.distinct r1 r2 _ _ hne h1' h2' nofun nofun

theorem Tracks.changes (h : Tracks start s p stage W none) (hw : Works dev start s p stage W none)
    (u : Used head dev n e s s') (hcoh : Coherent head n dev s.bio xs) (hr : W.held r = some x)
    (hbuf : e.buf = some (s.reg p r)) (hreg : s'.reg p = s.reg p) (hview : s'.bio.view = s.bio.view)
    (hcontent : ∀ k, y.content = some k → Owned start s.log.log.lh k ∧
      (s'.buf (s.reg p r)).data = s.bio.view k)
    (hmark : ∀ a, a ≠ s.reg p r → s'.bio.mark a = s.bio.mark a) :
    Tracks start s' p stage (W.set r (some y)) none := by
  refine ⟨fun r' x' k hr' hk => ?_, fun a hm hlock => ?_, ?_⟩
  · rw [u.log, hview, hreg]
    by_cases hrr : r' = r
    · grind [Work.held_set]
    · rw [Work.held_set_of_ne hrr] at hr'
      obtain ⟨howned, hdata⟩ := h.content r' x' k hr' hk
      rw [(hw.untouched u hcoh hr' (hw.buf_ne hr hr' hrr hbuf)).2]
      exact ⟨howned, hdata⟩
  · rw [hreg]
    by_cases hab : a = s.reg p r
    · exact ⟨r, y, Work.held_set, by simp, hab.symm⟩
    · rw [hmark a hab] at hm
      have hne : e.buf ≠ some a := fun heq => hab (Option.some.inj (heq.symm.trans hbuf))
      grind [Used.same, Tracks.only, Work.held_set_of_ne]
  · exact h.copies.congr (by rw [u.log]) fun i k _ => by rw [hview]; exact ⟨rfl, rfl⟩

end Change

section Unpin

theorem not_mem_drop {lh : List ℕ} {tail : ℕ} (hnodup : lh.Nodup) (hk : lh[tail]? = some k) :
    k ∉ lh.drop (tail + 1) := by
  have hdrop := hnodup.sublist (List.drop_sublist tail lh)
  grind [List.drop_eq_getElem_cons]

theorem Works.unpins (h : Works dev start s p stage W none) (u : Used head dev n (.bunpin p (s.reg p r)) s s')
    (hcoh : Coherent head n dev s.bio xs) (hlog : Log.Inv s.log) (hr : W.held r = some x)
    (hunpin : W.unpin = some x.block) (hreg : s'.reg p = s.reg p) (hrun : s.bio.sys.pc p = .running)
    (hruns : Continues start s stage {W with unpin := none} (s'.todo p)) :
    Works dev start s' p stage {W with unpin := none} none := by
  obtain ⟨_, tail, rfl, hk⟩ := h.unpin x.block hunpin
  have hrun' : s'.bio.sys.pc p = .running := Eq.trans u.kept.does hrun
  refine ⟨u.log ▸ hruns, nofun, fun _ a => ?_, fun r' x' hr' _ => ?_, fun r1 r2 x1 x2 hne h1 h2 _ _ => ?_,
    fun k hleft => ?_, nofun⟩
  · grind
  · rw [hreg]
    exact (h.untouched u hcoh hr' nofun).1
  · rw [hreg]
    exact h.distinct r1 r2 x1 x2 hne h1 h2 nofun nofun
  · -- The other logged blocks have other buffers.
    rw [u.log] at hleft
    obtain ⟨b, hb, hdev, hblock, hpin⟩ := h.pinned k hleft
    have hne : b ≠ s.reg p r := fun heq => by
      have hsame : k = x.block := by
        rw [← hblock, heq]
        exact (h.held r x hr nofun).2.2.2
      exact not_mem_drop hlog.nodup hk (hsame ▸ hleft)
    obtain ⟨hb', hdev', hblock'⟩ := u.kept.pinned b hb hpin
    refine ⟨b, hb', hdev'.trans hdev, hblock'.trans hblock, ?_⟩
    have hsame : s'.bio.sys.pins b = s.bio.sys.pins b := by
      rw [u.kept.pins]
      exact update_of_ne hne ..
    rwa [hsame]

theorem Tracks.unpins (h : Tracks start s p stage W none) (hw : Works dev start s p stage W none)
    (u : Used head dev n (.bunpin p (s.reg p r)) s s') (hcoh : Coherent head n dev s.bio xs)
    (hreg : s'.reg p = s.reg p) : Tracks start s' p stage {W with unpin := none} none := by
  have hview : s'.bio.view = s.bio.view := u.view
  refine ⟨fun r' x' k hr' hk => ?_, fun a hm hlock => ?_, ?_⟩
  · obtain ⟨howned, hdata⟩ := h.content r' x' k hr' hk
    rw [u.log, hview, hreg, (hw.untouched u hcoh hr' nofun).2]
    exact ⟨howned, hdata⟩
  · have hm' : s.bio.mark a ≠ .free := u.mark ▸ hm
    obtain ⟨_, hbuf', _⟩ := u.same hcoh hm' nofun
    grind [Tracks.only]
  · exact h.copies.congr (by rw [u.log]) fun i k _ => by rw [hview]; exact ⟨rfl, rfl⟩

end Unpin

section Release

variable {copy : Option (ℕ × ℕ)}

theorem Works.releases (h : Works dev start s p stage W none)
    (u : Used head dev n (.releasesleep p (s.reg p r)) s s') (hcoh : Coherent head n dev s.bio xs)
    (hr : W.held r = some x) (hreg : s'.reg p = s.reg p)
    (hruns : Continues start s stage {W.set r none with copy := copy} (s'.todo p)) :
    Works dev start s' p stage {W.set r none with copy := copy} none := by
  obtain ⟨hpinned, hunpin⟩ := h.pins u u.kept.pins.ge
  have hpc : s'.bio.sys.pc p = .releasing (s.reg p r) := u.kept.does
  have hold : ∀ {r' x'}, (W.set r none).held r' = some x' → r' ≠ r ∧ W.held r' = some x' := by
    grind [Work.held_set, Work.held_set_of_ne]
  refine ⟨u.log ▸ hruns, nofun, fun _ a => ?_, fun r' x' hr' _ => ?_, fun r1 r2 x1 x2 hne h1 h2 _ _ => ?_,
    hpinned, hunpin⟩
  · grind
  · obtain ⟨hrr, hr''⟩ := hold hr'
    rw [hreg]
    exact (h.untouched u hcoh hr'' (h.buf_ne hr hr'' hrr rfl)).1
  · rw [hreg]
    exact h.distinct r1 r2 x1 x2 hne (hold h1).2 (hold h2).2 nofun nofun

/-- After a release the data of the released buffer is viewed; that of other blocks is as
before. -/
theorem Tracks.releases (h : Tracks start s p stage W none) (hw : Works dev start s p stage W none)
    (u : Used head dev n (.releasesleep p (s.reg p r)) s s') (hcoh : Coherent head n dev s.bio xs)
    (hr : W.held r = some x) (hreg : s'.reg p = s.reg p)
    (hview : (∀ k, s'.bio.view k = s.bio.view k) ∨ ∀ r', r' ≠ r → W.held r' = none)
    (hcopies : Copies start s' copy stage) :
    Tracks start s' p stage {W.set r none with copy := copy} none := by
  refine ⟨fun r' x' k hr' hk => ?_, fun a hm hlock => ?_, hcopies⟩
  · have hrr : r' ≠ r := by
      rintro rfl
      rw [show (W.set r' none).held r' = none from Work.held_set] at hr'
      cases hr'
    have hr'' : W.held r' = some x' := (Work.held_set_of_ne hrr).symm.trans hr'
    obtain ⟨howned, hdata⟩ := h.content r' x' k hr'' hk
    rcases hview with hview | hnone
    · rw [u.log, hview, hreg, (hw.untouched u hcoh hr'' (hw.buf_ne hr hr'' hrr rfl)).2]
      exact ⟨howned, hdata⟩
    grind
  · have hab : a ≠ s.reg p r := fun heq => hm (u.mark ▸ heq ▸ update_self (s.reg p r) _ s.bio.mark)
    have hm' : s.bio.mark a ≠ .free := by
      rw [u.mark] at hm
      exact (update_of_ne hab _ s.bio.mark) ▸ hm
    obtain ⟨_, hbuf', _⟩ := u.same hcoh hm' fun heq => hab (Option.some.inj heq).symm
    rw [hbuf'] at hlock
    obtain ⟨r', x', hr', _, hra⟩ := h.only a hm' hlock
    have hrr : r' ≠ r := fun heq => hab (hra.symm.trans (congrArg (s.reg p) heq))
    rw [hreg]
    exact ⟨r', x', (Work.held_set_of_ne hrr).trans hr', nofun, hra⟩

end Release

end Xv6.Disk
