import Xv6.Disk.Commit

/-! The buffer cache and the log are one coherent disk.

Whatever processes do, and however commits, recycling and freeing of buffers interleave,
`bread` returns what was released last. And if processes change logged blocks only in
operations, a commit changes nothing outside of the log: what `bread` returns was released
by a process that is not in `commit` (`processes_coherent`). -/
namespace Xv6.Disk
open Function
open Bio Cache
open Log (Stage)

variable {head dev start n p b k alloc : ℕ} {D : Prop} {s s' s'' : Sys} {stage : Stage} {W : Work}
  {pend : Option Reg} {xs : List ℕ} {e : Bio.Event} {r : Reg} {x : Held} {cs : List Call}

def Fails (stop : Stop) : Prop := stop = .bio (.panic .bgetNoMemory) ∨ stop = .log .tooBigATransaction

/-! ### Calls of a commit -/

theorem Used.own (u : Used head dev n e s s') (hbio : s''.bio = s'.bio)
    (hlog : s''.log = s.log) (htodo : ∀ q, q ≠ e.proc → s''.todo q = s.todo q)
    (hreg : ∀ q, q ≠ e.proc → s''.reg q = s.reg q) : Used head dev n e s s'' := by
  refine ⟨u.allowed, ?_, ?_, ?_, hlog, htodo, hreg⟩
  · rw [hbio]
    exact u.kept
  · rw [hbio]
    exact u.bio
  · rw [hbio]
    exact u.coherent

theorem Inv.doesCall (h : Inv head dev start n D s) (u : Used head dev n e s s')
    (hp : s.log.pc e.proc = .commit stage) (hhome : s'.home = s.home)
    (hview : D → ∀ k, Log.Machine.Home start k → s'.bio.view k = s.bio.view k)
    (hworks : ∃ W pend, Works dev start s' e.proc stage W pend ∧ (D → Tracks start s' e.proc stage W pend)) :
    Inv head dev start n D s' := by
  obtain ⟨xs, hcoh⟩ := h.coherent
  refine h.byCommit u hp hworks fun hD => u.tidy hcoh (h.tidy hD) (fun k hk => ?_) fun _ _ _ hstage => ?_
  · rw [hview hD k hk, hhome]
    exact (h.tidy hD).home k hk
  · rw [hp] at hstage
    cases hstage

theorem Inv.call_of (h : Inv head dev start n D s) (ha : s.bio.allowed head n dev e)
    (hp : s.log.pc e.proc = .commit stage)
    (hdo : ∀ s', Used head dev n e s s' → s'.reg e.proc = s.reg e.proc → s'.todo e.proc = cs →
      (D → ∀ k, Log.Machine.Home start k → s'.bio.view k = s.bio.view k) ∧
      ∃ W pend, Works dev start s' e.proc stage W pend ∧ (D → Tracks start s' e.proc stage W pend)) :
    Outcome Fails (s.use head e >>= fun s' => pure (s'.setTodo e.proc cs)) (Inv head dev start n D) := by
  obtain ⟨xs, hcoh⟩ := h.coherent
  refine ((use_used hcoh ha).imp fun _ => Or.inl).bind fun s' ⟨u, hs⟩ => ?_
  have u' : Used head dev n e s (s'.setTodo e.proc cs) := by
    refine u.own rfl u.log (fun q hq => ?_) u.reg
    exact (update_of_ne hq ..).trans (u.todo q hq)
  have hreg : (s'.setTodo e.proc cs).reg e.proc = s.reg e.proc := by
    show s'.reg e.proc = _
    rw [hs]
  obtain ⟨hview, hworks⟩ := hdo _ u' hreg (update_self ..)
  refine h.doesCall u' hp ?_ hview hworks
  show s'.home = s.home
  rw [hs]

theorem Works.holds (h : Works dev start s p stage W none) (hcoh : Coherent head n dev s.bio xs)
    (hrun : s.bio.sys.pc p = .running) (hr : W.held r = some x) : s.bio.sys.Holds p (s.reg p r) := by
  obtain ⟨hfree, hmark, hlock, _⟩ := h.held r x hr nofun
  have hmem := ((hcoh.held _).mp (hmark ▸ hfree)).1
  exact ⟨hrun, hcoh.consistent.cached.mem_live.mpr hmem, hlock⟩

theorem Copies.copied {x : ℕ} (h : Copies start s (some (x, k)) stage) (hlog : s'.log = s.log)
    (hroom : s.log.log.lh.length ≤ Log.logBlocks) (hhome : ∀ k ∈ s.log.log.lh, Log.Machine.Home start k)
    (hview : s'.bio.view = update s.bio.view x (s.bio.view k)) :
    (∀ k, Log.Machine.Home start k → s'.bio.view k = s.bio.view k) ∧ Copies start s' none stage := by
  cases stage with
  | writeLog tail =>
    obtain ⟨hcopied, hcopy⟩ := h
    rcases hcopy with hcopy | ⟨k', hk', hcopy⟩
    · cases hcopy
    cases hcopy
    have hkeep : ∀ k, k ≠ start + tail + 1 → s'.bio.view k = s.bio.view k := fun k hk => by
      rw [hview]
      exact update_of_ne hk ..
    have hhome' : ∀ k, Log.Machine.Home start k → s'.bio.view k = s.bio.view k := fun k hk =>
      hkeep k fun heq => not_home_log hroom hk' (heq ▸ hk)
    refine ⟨hhome', ?_, .inl rfl⟩
    rw [hlog]
    intro i k1 hi ht
    rw [hhome' k1 (hhome k1 (List.mem_of_getElem? hi))]
    rcases ht with hlt | ⟨rfl, _⟩
    · grind
    · cases hk'.symm.trans hi
      rw [hview, update_self]
  | writeHead => cases h.2
  | installTrans tail => cases h.2
  | test | erase | finish => cases h

namespace Inv

variable {content : Option ℕ}

section
variable (h : Inv head dev start n D s)
include h

section
variable (hp : p < n) (hrun : s.bio.sys.pc p = .running) (hpc : s.log.pc p = .commit stage)
  (hcoh : Coherent head n dev s.bio xs) (hw : Works dev start s p stage W none)
  (htr : D → Tracks start s p stage W none)
include hp hrun hpc hcoh hw htr

section
variable (hr : W.held r = some x)
include hr

theorem callModify (data : Block)
    (hcontent : D → ∀ k, content = some k → Owned start s.log.log.lh k ∧ data = s.bio.view k)
    (hrest : Continues start s stage (W.set r (some ⟨x.block, x.mark.modify, content⟩)) cs) :
    Outcome Fails (s.use head (.modify p (s.reg p r) data) >>= fun s' => pure (s'.setTodo p cs))
      (Inv head dev start n D) := by
  obtain ⟨hfree, hmark, hlock, hblock⟩ := hw.held r x hr nofun
  refine h.call_of (e := .modify p (s.reg p r) data) ⟨⟨hp, hw.holds hcoh hrun hr⟩, trivial⟩ hpc
    fun s' u hreg htodo => ?_
  have hview : s'.bio.view = s.bio.view := u.view
  have hbuf : s'.buf (s.reg p r) = (s.buf (s.reg p r)).setData data := u.kept.does.2
  have hmark' : s'.bio.mark = update s.bio.mark (s.reg p r) (s.bio.mark (s.reg p r)).modify := u.mark
  refine ⟨fun _ k _ => by rw [hview], _, none, hw.changes u hcoh hr rfl u.kept.pins.ge hreg
    (u.kept.does.1.trans hrun) ?_ ?_ ?_ ?_ (htodo.symm ▸ hrest), fun hD => (htr hD).changes hw u hcoh hr rfl
    hreg hview (fun k hk => ?_) fun a ha => ?_⟩
  · cases hx : x.mark <;> simp [Mark.modify]
  · rw [hmark', update_self, hmark]
  · rw [hbuf]
    exact hlock
  · rw [hbuf]
    exact hblock
  · rw [hbuf]
    exact hcontent hD k hk
  · rw [hmark']
    exact update_of_ne ha ..

theorem callBwrite (hrest : Continues start s stage
      (W.set r (some ⟨x.block, x.mark.write, x.content⟩)) cs) :
    Outcome Fails (s.use head (.bwrite p (s.reg p r)) >>= fun s' => pure (s'.setTodo p cs))
      (Inv head dev start n D) := by
  obtain ⟨hfree, hmark, hlock, hblock⟩ := hw.held r x hr nofun
  refine h.call_of (e := .bwrite p (s.reg p r)) ⟨⟨hp, hw.holds hcoh hrun hr⟩, trivial⟩ hpc
    fun s' u hreg htodo => ?_
  have hview : s'.bio.view = s.bio.view := u.view
  have hbuf : s'.buf (s.reg p r) = s.buf (s.reg p r) := u.kept.does.2
  have hmark' : s'.bio.mark = update s.bio.mark (s.reg p r) (s.bio.mark (s.reg p r)).write := u.mark
  refine ⟨fun _ k _ => by rw [hview], _, none, hw.changes u hcoh hr rfl u.kept.pins.ge hreg
    (u.kept.does.1.trans hrun) ?_ ?_ ?_ ?_ (htodo.symm ▸ hrest), fun hD => (htr hD).changes hw u hcoh hr rfl
    hreg hview (fun k hk => ?_) fun a ha => ?_⟩
  · cases hx : x.mark <;> simp [Mark.write]
  · rw [hmark', update_self, hmark]
  · rw [hbuf]
    exact hlock
  · rw [hbuf]
    exact hblock
  · rw [hbuf]
    obtain ⟨howned, hdata⟩ := (htr hD).content r x k hr hk
    exact ⟨howned, hdata nofun⟩
  · rw [hmark']
    exact update_of_ne ha ..

theorem callBunpin (hwritten : x.mark = .written) (hunpin : W.unpin = some x.block)
    (hrest : Continues start s stage {W with unpin := none} cs) :
    Outcome Fails (s.use head (.bunpin p (s.reg p r)) >>= fun s' => pure (s'.setTodo p cs))
      (Inv head dev start n D) := by
  obtain ⟨hfree, hmark, hlock, hblock⟩ := hw.held r x hr nofun
  have hholds := hw.holds hcoh hrun hr
  -- The pinned buffer of the block is the one in the register.
  have hpos : 0 < s.bio.sys.pins (s.reg p r) := by
    obtain ⟨⟨a, ha, hdev, hblock', hpin⟩, _⟩ := hw.unpin _ hunpin
    have hreg := (hcoh.holds hholds).1
    have hsame : a = s.reg p r :=
      hcoh.faithful.unique ⟨hcoh.consistent.cached.mem_live.mp ha, hdev⟩ hreg (hblock'.trans hblock.symm)
    rwa [← hsame]
  refine h.call_of (e := .bunpin p (s.reg p r)) ⟨⟨hp, hpos⟩, hholds, hmark.trans hwritten⟩ hpc
    fun s' u hreg htodo => ?_
  have hview : s'.bio.view = s.bio.view := u.view
  exact ⟨fun _ k _ => by rw [hview], _, none,
    hw.unpins u hcoh h.log hr hunpin hreg hrun (htodo.symm ▸ hrest),
    fun hD => (htr hD).unpins hw u hcoh hreg⟩

theorem callBrelse (copy : Option (ℕ × ℕ)) (hdirty : x.mark ≠ .dirty)
    (hview : D → ∀ s', s'.log = s.log →
      s'.bio.view = update s.bio.view x.block (s.buf (s.reg p r)).data →
      (∀ k, Log.Machine.Home start k → s'.bio.view k = s.bio.view k) ∧
      ((∀ k, s'.bio.view k = s.bio.view k) ∨ ∀ r', r' ≠ r → W.held r' = none) ∧ Copies start s' copy stage)
    (hrest : Continues start s stage {W.set r none with copy := copy} cs) :
    Outcome Fails (s.use head (.releasesleep p (s.reg p r)) >>= fun s' => pure (s'.setTodo p cs))
      (Inv head dev start n D) := by
  obtain ⟨hfree, hmark, hlock, hblock⟩ := hw.held r x hr nofun
  have hmark' : s.bio.mark (s.reg p r) ≠ .dirty := fun heq => hdirty (hmark.symm.trans heq)
  refine h.call_of (e := .releasesleep p (s.reg p r)) ⟨⟨hp, hw.holds hcoh hrun hr⟩, hmark'⟩ hpc
    fun s' u hreg htodo => ?_
  have hupdate : s'.bio.view = update s.bio.view x.block (s.buf (s.reg p r)).data := by
    rw [u.view, ← hblock]
    rfl
  refine ⟨fun hD => (hview hD s' u.log hupdate).1, _, none, hw.releases u hcoh hr hreg (htodo.symm ▸ hrest),
    fun hD => ?_⟩
  obtain ⟨_, hothers, hcopies⟩ := hview hD s' u.log hupdate
  exact (htr hD).releases hw u hcoh hr hreg hothers hcopies

end

theorem callBread (hfresh : s.bio.sys.Fresh head alloc) (hr : W.held r = none) (hown : Owned start s.log.log.lh k)
    (hrest : Continues start s stage (W.set r (some ⟨k, .clean, some k⟩)) cs) :
    Outcome Fails (s.doCall head dev p alloc (.bread r k) >>= fun s' => pure (s'.setTodo p cs))
      (Inv head dev start n D) := by
  have ha : s.bio.allowed head n dev (.bget p dev k alloc) := ⟨⟨hp, hrun, hfresh⟩, rfl⟩
  suffices hdo : Outcome Fails (s.doCall head dev p alloc (.bread r k)) fun s' =>
      Inv head dev start n D (s'.setTodo p cs) from hdo.bind fun s' hs' => hs'
  refine ((use_used hcoh ha).imp fun _ => Or.inl).bind fun s' ⟨u, hs⟩ => ?_
  obtain ⟨b, hwait⟩ := u.kept.does
  have hset : s'.setReg p r = {s' with reg := update s'.reg p (update (s'.reg p) r b)} := by
    simp only [Sys.setReg, hwait]
  show Inv head dev start n D ((s'.setReg p r).setTodo p cs)
  rw [hset]
  have u' : Used head dev n (.bget p dev k alloc) s
      ({s' with reg := update s'.reg p (update (s'.reg p) r b)}.setTodo p cs) := by
    refine u.own rfl u.log (fun q hq => ?_) fun q hq => ?_
    · exact (update_of_ne hq ..).trans (u.todo q hq)
    · exact (update_of_ne hq ..).trans (u.reg q hq)
  have hreg : update s'.reg p (update (s'.reg p) r b) p =
      update (s.reg p) r b := by
    rw [update_self, hs]
  refine h.doesCall u' hpc ?_ (fun _ k _ => ?_) ⟨_, some r, hw.breads u' hcoh hwait hreg ?_,
    fun hD => (htr hD).breads hw u' hcoh hreg hr hown⟩
  · show s'.home = s.home
    rw [hs]
  · rw [u'.view]
    rfl
  · have htodo : update s'.todo p cs p = cs := update_self ..
    show Runs _ _ _ _ (update s'.todo p cs p)
    rw [htodo]
    exact hrest

end

theorem call {c : Call} (hp : p < n) (hrun : s.bio.sys.pc p = .running)
    (hfresh : s.bio.sys.Fresh head alloc) (htodo : s.todo p = c :: cs) :
    Outcome Fails (s.doCall head dev p alloc c >>= fun s' => pure (s'.setTodo p cs))
      (Inv head dev start n D) := by
  obtain ⟨stage, hpc⟩ : ∃ stage, s.log.pc p = .commit stage := by
    cases hpc : s.log.pc p with
    | commit stage => exact ⟨stage, rfl⟩
    | idle | asleep | inOp =>
      rw [h.quiet p (by rw [hpc]; rfl)] at htodo
      cases htodo
  obtain ⟨xs, hcoh⟩ := h.coherent
  obtain ⟨W, pend, hw, htr⟩ := h.works p stage hpc
  obtain rfl := hw.pend_eq_none hrun
  have hruns := hw.runs
  rw [htodo] at hruns
  cases hruns with
  | bread hr hown hrest => exact h.callBread hp hrun hpc hcoh hw htr hfresh hr hown hrest
  | @memmove _ dst src x y content _ hne hdst hsrc hcontent hrest =>
    refine h.callModify hp hrun hpc hcoh hw htr hdst _ (fun hD k hk => ?_) hrest
    rcases hcontent with rfl | ⟨rfl, k', hk', hsame⟩
    · obtain ⟨howned, hdata⟩ := (htr hD).content src y k hsrc hk
      exact ⟨howned, hdata nofun⟩
    · -- The block and its copy in the log have the same data.
      obtain ⟨_, hdata⟩ := (htr hD).content src y k' hsrc hk'
      cases hk
      have hcopies := (htr hD).copies
      cases stage with
      | installTrans tail =>
        obtain ⟨i, hi, rfl⟩ := hsame
        exact ⟨.inr (List.mem_of_getElem? hi), (hdata nofun).trans (hcopies.1 i _ hi)⟩
      | test | writeLog | writeHead | erase | finish => exact hsame.elim
  | putHead hr hrest => exact h.callModify hp hrun hpc hcoh hw htr hr _ (fun _ _ hk => by cases hk) hrest
  | bwrite hr hrest => exact h.callBwrite hp hrun hpc hcoh hw htr hr hrest
  | bunpin hr hmark hunpin hrest => exact h.callBunpin hp hrun hpc hcoh hw htr hr hmark hunpin hrest
  | @brelse _ r x _ hr hmark hcontent hrest =>
    refine h.callBrelse hp hrun hpc hcoh hw htr hr W.copy hmark (fun hD s' hlog hview => ?_) hrest
    have hcopies := (htr hD).copies
    rcases hcontent with hsame | ⟨hstart, hlast⟩
    · have hdata := ((htr hD).content r x _ hr hsame).2 nofun
      grind [Copies.congr, update_eq_self]
    · have hkeep : ∀ k, k ≠ start → s'.bio.view k = s.bio.view k := fun k hk => by
        rw [hview]
        exact update_of_ne (hstart ▸ hk) ..
      have hhome : ∀ k, Log.Machine.Home start k → k ≠ start := fun k hk heq => not_home_start (heq ▸ hk)
      refine ⟨fun k hk => hkeep k (hhome k hk), .inr hlast, hcopies.congr (by rw [hlog]) fun i k hi => ?_⟩
      exact ⟨hkeep _ (by omega), hkeep k (hhome k ((h.tidy hD).logged k (List.mem_of_getElem? hi)))⟩
  | @copied _ r x k _ hr hmark hcopy hcontent hlast hrest =>
    refine h.callBrelse hp hrun hpc hcoh hw htr hr none hmark (fun hD s' hlog hview => ?_) hrest
    have hcopies := (htr hD).copies
    rw [((htr hD).content r x k hr hcontent).2 nofun] at hview
    rw [hcopy] at hcopies
    obtain ⟨hkeep, hcopied⟩ := hcopies.copied hlog h.room (h.tidy hD).logged hview
    exact ⟨hkeep, .inr hlast, hcopied⟩

/-! ### Processes use the cache -/

theorem clientUses (u : Used head dev n e s s') (hs : s' = {s with bio := s'.bio})
    (hstage : (s.log.pc e.proc).stage = none) (hpins : s.bio.sys.pins ≤ s'.bio.sys.pins)
    (hview : s'.bio.view = s.bio.view)
    (hmodify : D → ∀ b data, e = .modify e.proc b data →
      (¬ Log.Machine.Home start (s.buf b).blockno ∨
        (s.buf b).blockno ∈ s.log.log.lh ∧ (s.log.pc e.proc).logged = none) →
      data = s.bio.view (s.buf b).blockno) : Inv head dev start n D s' := by
  obtain ⟨xs, hcoh⟩ := h.coherent
  refine h.byClient u hstage hpins (by rw [hs]) fun hD => u.tidy hcoh (h.tidy hD) (fun k hk => ?_)
    fun b data he _ => hmodify hD b data he
  have hhome : s'.home = s.home := by rw [hs]
  rw [hview, hhome]
  exact (h.tidy hD).home k hk

theorem progresses (ha : s.bio.allowed head n dev e) (hbuf : e.buf = none)
    (hnote : s.bio.note e = s.bio) (hpins : ∀ pins, e.pins pins = pins)
    (hpending : ∀ s' : Bio.Sys, e.Does s.bio.sys s' → ∀ b,
      s.bio.sys.pc e.proc = .waiting b ∨ s.bio.sys.pc e.proc = .reading b →
        s'.pc e.proc = .waiting b ∨ s'.pc e.proc = .reading b)
    (hsettled : ∀ s' : Bio.Sys, e.Does s.bio.sys s' → ∀ b,
      s'.pc e.proc = .waiting b ∨ s'.pc e.proc = .reading b →
        ∃ a, s.bio.sys.pc e.proc = .waiting a ∨ s.bio.sys.pc e.proc = .reading a) :
    Outcome Fails (s.use head e) (Inv head dev start n D) := by
  obtain ⟨xs, hcoh⟩ := h.coherent
  refine ((use_used hcoh ha).imp fun _ => Or.inl).mono fun s' ⟨u, hs⟩ => ?_
  have hview : s'.bio.view = s.bio.view := by rw [u.view, hnote]
  have hpins' : s.bio.sys.pins ≤ s'.bio.sys.pins := (u.kept.pins.trans (hpins _)).ge
  cases hpc : s.log.pc e.proc with
  | commit stage =>
    obtain ⟨W, pend, hw, htr⟩ := h.works e.proc stage hpc
    refine h.doesCall u hpc (by rw [hs]) (fun _ k _ => by rw [hview]) ⟨W, pend, ?_, fun hD =>
      (htr hD).progress hw u hcoh hbuf hnote hs⟩
    refine hw.progress u hcoh hbuf hnote hpins' hs (fun r hr => ?_) fun hnone b => ?_
    · exact hpending _ u.kept.does _ (hw.pending r hr).2
    · refine not_or.mp fun hpc' => ?_
      obtain ⟨a, ha'⟩ := hsettled _ u.kept.does b hpc'
      exact ha'.elim (hw.settled hnone a).1 (hw.settled hnone a).2
  | idle | asleep | inOp =>
    refine h.clientUses u hs (by rw [hpc]; rfl) hpins' hview fun _ b data he => ?_
    rw [he] at hbuf
    cases hbuf

theorem acquiresleep (hp : p < n) :
    Outcome Fails (s.use head (.acquiresleep p)) (Inv head dev start n D) := by
  refine h.progresses ⟨hp, trivial⟩ rfl rfl (fun _ => rfl) (fun s' hdoes b hb => ?_) fun s' hdoes b hb => ?_
  · rcases hdoes with hsame | ⟨a, ha, ha'⟩
    · exact hsame.symm ▸ hb
    · have hb' : s.bio.sys.pc p = .waiting b ∨ s.bio.sys.pc p = .reading b := hb
      rw [ha] at hb'
      rcases hb' with hb' | hb' <;> cases hb'
      exact .inr ha'
  · rcases hdoes with hsame | ⟨a, ha, _⟩
    · exact ⟨b, hsame ▸ hb⟩
    · exact ⟨a, .inl ha⟩

theorem brelse (hp : p < n) : Outcome Fails (s.use head (.brelse p)) (Inv head dev start n D) := by
  refine h.progresses ⟨hp, trivial⟩ rfl rfl (fun _ => rfl) (fun s' hdoes b hb => ?_) fun s' hdoes b hb => ?_
  · rcases hdoes with hsame | ⟨a, ha, _⟩
    · exact hsame.symm ▸ hb
    · have hb' : s.bio.sys.pc p = .waiting b ∨ s.bio.sys.pc p = .reading b := hb
      grind
  · rcases hdoes with hsame | ⟨a, _, ha'⟩
    · exact ⟨b, hsame ▸ hb⟩
    · have hb' : s'.pc p = .waiting b ∨ s'.pc p = .reading b := hb
      grind

theorem fill (hp : p < n) : Outcome Fails (s.use head (.fill p)) (Inv head dev start n D) := by
  by_cases hread : ∃ b, s.bio.sys.pc p = .reading b
  · obtain ⟨b, hread⟩ := hread
    obtain ⟨xs, hcoh⟩ := h.coherent
    refine ((use_used (e := .fill p) hcoh ⟨hp, trivial⟩).imp fun _ => Or.inl).mono fun s' ⟨u, hs⟩ => ?_
    obtain ⟨_, _, _, hview⟩ := u.filled hread
    cases hpc : s.log.pc p with
    | commit stage =>
      obtain ⟨W, pend, hw, htr⟩ := h.works p stage hpc
      cases pend with
      | none => exact absurd hread (hw.settled rfl b).2
      | some r =>
        exact h.doesCall u hpc (by rw [hs]) (fun _ k _ => by rw [hview])
          ⟨W, none, hw.fills u hcoh hs hread, fun hD => (htr hD).fills hw u hcoh hs hread⟩
    | idle | asleep | inOp =>
      exact h.clientUses u hs (by rw [Bio.Event.proc, hpc]; rfl) u.kept.pins.ge hview fun _ _ _ => nofun
  · have hnot : ∀ b, s.bio.sys.pc p ≠ .reading b := fun b hb => hread ⟨b, hb⟩
    refine h.progresses ⟨hp, trivial⟩ rfl (note_fill_of_not hnot) (fun _ => rfl) (fun s' hdoes b hb => ?_)
      fun s' hdoes b hb => ?_
    · rcases hdoes with ⟨hsame, _⟩ | ⟨a, ha, _⟩
      · exact hsame.symm ▸ hb
      · exact absurd ha (hnot a)
    · rcases hdoes with ⟨hsame, _⟩ | ⟨a, ha, _⟩
      · exact ⟨b, hsame ▸ hb⟩
      · exact absurd ha (hnot a)

theorem clientStep (ha : s.bio.allowed head n dev e)
    (hclient : s.Client e.proc) (hpins : ∀ pins, e.pins pins = pins)
    (hview : (s.bio.note e).view = s.bio.view)
    (hmodify : D → ∀ b data, e = .modify e.proc b data → Log.Machine.Home start (s.buf b).blockno ∧
      ((s.log.pc e.proc).logged.isSome ∨ (s.buf b).blockno ∉ s.log.log.lh)) :
    Outcome Fails (s.use head e) (Inv head dev start n D) := by
  obtain ⟨xs, hcoh⟩ := h.coherent
  refine ((use_used hcoh ha).imp fun _ => Or.inl).mono fun s' ⟨u, hs⟩ => ?_
  refine h.clientUses u hs hclient.2 (u.kept.pins.trans (hpins _)).ge (u.view.trans hview) fun hD b data he hown => ?_
  grind

theorem releasesleep (hp : p < n) (hclient : s.Client p)
    (hholds : s.bio.sys.Holds p b) (hdirty : s.bio.mark b ≠ .dirty) :
    Outcome Fails (s.step head dev start (.releasesleep p b)) (Inv head dev start n D) := by
  obtain ⟨xs, hcoh⟩ := h.coherent
  have ha : s.bio.allowed head n dev (.releasesleep p b) := ⟨⟨hp, hholds⟩, hdirty⟩
  refine ((use_used hcoh ha).imp fun _ => Or.inl).bind fun s' ⟨u, hs⟩ => ?_
  have u' : Used head dev n (.releasesleep p b) s
      {s' with home := update s.home (s.buf b).blockno (s.buf b).data} :=
    u.own rfl u.log u.todo u.reg
  refine h.byClient u' hclient.2 u.kept.pins.ge ?_ fun hD => u'.tidy hcoh (h.tidy hD) (fun k hk => ?_) nofun
  · grind
  · show s'.bio.view k = update s.home (s.buf b).blockno (s.buf b).data k
    have hview : s'.bio.view = update s.bio.view (s.buf b).blockno (s.buf b).data := u.view
    rw [hview, update_apply, update_apply, (h.tidy hD).home k hk]

end

end Inv

/-! ### Processes use the log -/

section Log

variable {log : Log.Sys}

theorem Works.withLog (h : Works dev start s p stage W pend) (hlh : log.log.lh = s.log.log.lh) :
    Works dev start {s with log := log} p stage W pend := by
  refine ⟨?_, h.pending, h.settled, h.held, h.distinct, ?_, ?_⟩
  · grind [Works.runs]
  · show ∀ k ∈ left log.log.lh stage, Pinned dev s k
    rw [hlh]
    exact h.pinned
  · show ∀ k, W.unpin = some k → Pinned dev s k ∧ ∃ tail, stage = .installTrans tail ∧ log.log.lh[tail]? = some k
    rw [hlh]
    exact h.unpin

theorem Tracks.withLog (h : Tracks start s p stage W pend) (hlh : log.log.lh = s.log.log.lh) :
    Tracks start {s with log := log} p stage W pend := by
  refine ⟨fun r x k hr hk => ?_, h.only, h.copies.congr hlh fun _ _ _ => ⟨rfl, rfl⟩⟩
  show Owned start log.log.lh k ∧ _
  rw [hlh]
  exact h.content r x k hr hk

theorem Tidy.setTodo (h : Tidy start s) (p : ℕ) (todo : List Call) : Tidy start (s.setTodo p todo) :=
  ⟨h.home, h.logged, h.untouched⟩

theorem Tidy.withLog (h : Tidy start s) (hlh : log.log.lh ⊆ s.log.log.lh)
    (hpc : ∀ b q, s.bio.mark b ≠ .free → (s.buf b).lock = some q → (log.pc q).stage = none →
      (s.log.pc q).stage = none ∧ ((log.pc q).logged = none → (s.log.pc q).logged = none)) :
    Tidy start {s with log := log} := by
  refine ⟨h.home, fun k hk => h.logged k (hlh hk), fun b q hm hlock hstage hown => ?_⟩
  obtain ⟨hstage', hlogged⟩ := hpc b q hm hlock hstage
  exact h.untouched b q hm hlock hstage' (hown.imp id fun ⟨hmem, hnone⟩ => ⟨hlh hmem, hlogged hnone⟩)

theorem left_next (start : ℕ) {lh : List ℕ} (h : k ∈ left lh (stage.next lh.length) ∨
    (work start lh (stage.next lh.length)).unpin = some k) : k ∈ left lh stage := by
  cases stage with
  | test =>
    grind [Stage.next, left, work, Work.none]
  | writeLog tail =>
    by_cases ht : tail < lh.length <;> simpa [Stage.next, ht, left, work, Work.none] using h
  | writeHead =>
    rcases h with h | h
    · exact List.mem_of_mem_drop h
    · exact List.mem_of_getElem? h
  | installTrans tail =>
    by_cases ht : tail < lh.length
    · rw [Stage.next, if_pos ht] at h
      rcases h with h | h
      · rw [left, ← List.drop_drop] at h
        exact List.mem_of_mem_drop h
      · have hfirst : (lh.drop (tail + 1))[0]? = some k := by
          rw [List.getElem?_drop]
          exact h
        exact List.mem_of_getElem? hfirst
    · simp [Stage.next, ht, left, work, Work.none] at h
  | erase | finish => simp [Stage.next, left, work, Work.none] at h

theorem unpin_work {lh : List ℕ} (h : (work start lh stage).unpin = some k) :
    ∃ tail, stage = .installTrans tail ∧ lh[tail]? = some k := by
  cases stage with
  | installTrans tail => exact ⟨tail, rfl, h⟩
  | test | writeLog | writeHead | erase | finish => cases h

theorem copies_writeLog {tail : ℕ}
    (h : ∀ i k, s.log.log.lh[i]? = some k → i < tail → s.bio.view (start + i + 1) = s.bio.view k) :
    Copies start s (work start s.log.log.lh (.writeLog tail)).copy (.writeLog tail) := by
  refine ⟨fun i k hi ht => ?_, ?_⟩
  · grind [work]
  grind [work]

theorem Copies.next (h : Copies start s none stage) :
    Copies start s (work start s.log.log.lh (stage.next s.log.log.lh.length)).copy
      (stage.next s.log.log.lh.length) := by
  cases stage with
  | test =>
    rw [Stage.next]
    split
    case isTrue => exact copies_writeLog fun i k _ hi => absurd hi (Nat.not_lt_zero i)
    case isFalse => rfl
  | writeLog tail =>
    rw [Stage.next]
    split
    case isTrue =>
      refine copies_writeLog fun i k hi hlt => h.1 i k hi ?_
      exact (Nat.lt_succ_iff_lt_or_eq.mp hlt).imp id fun heq => ⟨heq, rfl⟩
    case isFalse hge =>
      refine ⟨fun i k hi => h.1 i k hi (.inl ?_), rfl⟩
      grind
  | writeHead => exact ⟨h.1, rfl⟩
  | installTrans tail =>
    rw [Stage.next]
    split
    case isTrue => exact ⟨h.1, rfl⟩
    case isFalse => rfl
  | erase | finish => rfl

namespace Inv

theorem advance_outcome {e : Log.Event} {Q : Sys → Prop}
    (h : Outcome (· = .tooBigATransaction) (s.log.step e) fun log => Q {s with log := log}) :
    Outcome Fails (s.advance e) Q := by
  unfold Sys.advance
  cases hs : s.log.step e with
  | error stop =>
    rw [hs] at h
    exact .inr (congrArg Stop.log h)
  | ok log =>
    rw [hs] at h
    exact h

theorem beginOp (h : Inv head dev start n D s) (ha : s.log.allowed (.beginOp p)) :
    Outcome Fails (s.advance (.beginOp p)) (Inv head dev start n D) := by
  refine advance_outcome ?_
  have hinv := h.log.step ha
  have hnone : (s.log.pc p).stage = none ∧ (s.log.pc p).logged = none := by
    rcases ha with hp | hp <;> rw [hp] <;> exact ⟨rfl, rfl⟩
  -- Only `p` has moved, from outside of operations.
  have hmoved : ∀ {log : Log.Sys} {pc : Log.Pc}, log.log.lh = s.log.log.lh → log.pc = s.log.pc →
      log.log.committing = s.log.log.committing → pc.stage = none → Log.Inv (log.goto p pc) →
      Inv head dev start n D {s with log := log.goto p pc} := by
    intro log pc hlh hpc hcommitting hstage hinv
    have hpc' : ∀ q, q ≠ p → (log.goto p pc).pc q = s.log.pc q := fun q hq => by
      rw [Log.goto_of_ne pc hq, hpc]
    refine ⟨h.coherent, hinv, hlh.symm ▸ h.room, fun q hq => ?_, fun hc k hk => ?_, fun q stage hq => ?_,
      fun hD => (h.tidy hD).withLog (by rw [show (log.goto p pc).log.lh = _ from hlh]; exact List.Subset.refl _)
        fun b q _ _ hq => ?_⟩
    · grind [Inv.quiet]
    · exact h.openLog (hcommitting ▸ hc) k (hlh ▸ hk)
    · have hqp : q ≠ p := by
        rintro rfl
        have hq' : (log.goto q pc).pc q = .commit stage := hq
        rw [Log.goto_self] at hq'
        rw [hq'] at hstage
        cases hstage
      obtain ⟨W, pend, hw, htr⟩ := h.works q stage (hpc' q hqp ▸ hq)
      exact ⟨W, pend, hw.withLog hlh, fun hD => (htr hD).withLog hlh⟩
    · grind
  unfold Log.Sys.step at hinv ⊢
  rcases Log.beginOp_eq s.log.log with hwait | ⟨_, _, hgo⟩
  · rw [hwait] at hinv ⊢
    exact hmoved rfl rfl rfl rfl hinv
  · rw [hgo] at hinv ⊢
    exact hmoved rfl rfl rfl rfl hinv

theorem works_test (hcoh : Coherent head n dev s.bio xs) (hrun : s.bio.sys.pc p = .running)
    (htodo : s.todo p = []) (hpinned : ∀ k ∈ s.log.log.lh, Pinned dev s k)
    (hnone : D → ∀ b ∈ s.bio.sys.cache.live, (s.buf b).lock ≠ some p) :
    Works dev start s p .test .none none ∧ (D → Tracks start s p .test .none none) := by
  refine ⟨⟨?_, nofun, fun _ b => ?_, nofun, nofun, hpinned, nofun⟩, fun hD => ⟨nofun, fun b hm hlock => ?_, rfl⟩⟩
  · rw [htodo]
    exact runs_nil
  · grind
  · exact absurd hlock (hnone hD b (hcoh.consistent.cached.mem_live.mpr ((hcoh.held b).mp hm).1))

theorem endOp (h : Inv head dev start n D s) (ha : s.log.allowed (.endOp p))
    (hrun : s.bio.sys.pc p = .running)
    (hnone : D → ∀ b ∈ s.bio.sys.cache.live, (s.buf b).lock ≠ some p) :
    Outcome Fails (s.advance (.endOp p)) (Inv head dev start n D) := by
  refine advance_outcome ?_
  obtain ⟨xs, hcoh⟩ := h.coherent
  obtain ⟨w, hp⟩ := Log.logged_isSome.mp ha
  have hc := h.log.not_committing hp
  have htodo : s.todo p = [] := h.quiet p (by rw [hp]; rfl)
  rw [Log.step_endOp hp hc]
  have hinv := h.log.ends hp
  generalize hnew : (if s.log.log.outstanding = 1 then Log.Pc.commit .test else .idle) = new at hinv
  generalize hlog : ({s.log with
    log := ⟨s.log.log.lh, s.log.log.outstanding - 1, decide (s.log.log.outstanding = 1)⟩
    ended := s.log.ended ++ [w]} : Log.Sys).goto p new = log at hinv
  have hlh : log.log.lh = s.log.log.lh := by rw [← hlog]; rfl
  have hself : log.pc p = new := by rw [← hlog]; exact Log.goto_self new
  have hothers : ∀ q, q ≠ p → log.pc q = s.log.pc q := fun q hq => by
    rw [← hlog]
    exact Log.goto_of_ne new hq
  refine ⟨h.coherent, hinv, hlh.symm ▸ h.room, fun q hq => ?_, fun _ k hk => ?_, fun q stage hq => ?_,
    fun hD => (h.tidy hD).withLog (by rw [hlh]; exact List.Subset.refl _) fun b q hm hlock hq => ?_⟩
  · grind [Inv.quiet]
  · exact h.openLog hc k (hlh ▸ hk)
  · by_cases hqp : q = p
    · subst hqp
      obtain rfl : stage = .test := by
        grind
      refine ⟨.none, none, works_test hcoh hrun htodo (fun k hk => h.openLog hc k ?_) hnone⟩
      exact hlh ▸ hk
    · exact absurd (hothers q hqp ▸ hq) (h.log.not_commit hc q stage)
  · by_cases hqp : q = p
    · subst hqp
      exact absurd hlock (hnone hD b (hcoh.consistent.cached.mem_live.mpr ((hcoh.held b).mp hm).1))
    grind

theorem works_done (hw : Works dev start s p stage W pend) (hrun : s.bio.sys.pc p = .running)
    (htodo : s.todo p = []) : (∀ r, W.held r = none) ∧ W.copy = none ∧ pend = none := by
  have hruns := hw.runs
  rw [htodo] at hruns
  cases hruns with
  | done hheld _ hcopy => exact ⟨hheld, hcopy, hw.pend_eq_none hrun⟩

section
variable (h : Inv head dev start n D s)
include h

theorem works_next (hw : Works dev start s p stage W none)
    (htr : D → Tracks start s p stage W none) (hrun : s.bio.sys.pc p = .running) (htodo : s.todo p = [])
    (hne : stage ≠ .erase) :
    let stage' := stage.next s.log.log.lh.length
    let s' := s.setTodo p (callsAfter start s.log.log.lh stage)
    Works dev start s' p stage' (work start s.log.log.lh stage') none ∧
      (D → Tracks start s' p stage' (work start s.log.log.lh stage') none) := by
  obtain ⟨hheld, hcopy, _⟩ := works_done hw hrun htodo
  have hcalls : callsAfter start s.log.log.lh stage =
      calls start s.log.log.lh (stage.next s.log.log.lh.length) := by
    cases stage <;> first | rfl | exact absurd rfl hne
  have hnone : ∀ stage' r, (work start s.log.log.lh stage').held r = none := fun stage' r => by
    cases stage' <;> rfl
  refine ⟨⟨?_, nofun, fun _ b => hw.settled rfl b, fun r x hr => ?_, fun r _ x _ _ hr => ?_, fun k hk => ?_,
    fun k hk => ?_⟩, fun hD => ⟨fun r x k hr => ?_, fun b hm hlock => ?_, ?_⟩⟩
  · show Runs _ _ _ _ (update s.todo p _ p)
    rw [update_self, hcalls]
    exact runs_calls h.room _
  · rw [hnone] at hr
    cases hr
  · rw [hnone] at hr
    cases hr
  · exact hw.pinned k (left_next start (.inl hk))
  · exact ⟨hw.pinned k (left_next start (.inr hk)), unpin_work hk⟩
  · rw [hnone] at hr
    cases hr
  · obtain ⟨r, x, hr, _⟩ := (htr hD).only b hm hlock
    rw [hheld] at hr
    cases hr
  · have hcopies := (htr hD).copies
    rw [hcopy] at hcopies
    exact hcopies.next

theorem advances {todo : List Call} {pc : Log.Pc}
    (hp : s.log.pc p = .commit stage) (hlog : Log.Inv log) (hself : log.pc p = pc)
    (hothers : ∀ q, q ≠ p → log.pc q = s.log.pc q) (hlh : log.log.lh ⊆ s.log.log.lh)
    (hroom : log.log.lh.length ≤ Log.logBlocks) (hopen : pc.stage = none → todo = [] ∧ log.log.lh = [])
    (hworks : ∀ stage', pc = .commit stage' → ∃ W pend,
      Works dev start {s.setTodo p todo with log := log} p stage' W pend ∧
      (D → Tracks start {s.setTodo p todo with log := log} p stage' W pend))
    (htidy : D → pc.stage = none → ∀ b, s.bio.mark b ≠ .free → (s.buf b).lock ≠ some p) :
    Inv head dev start n D {s.setTodo p todo with log := log} := by
  refine ⟨h.coherent, hlog, hroom, fun q hq => ?_, fun hc k hk => ?_, fun q stage' hq => ?_,
    fun hD => (((h.tidy hD).setTodo p todo).withLog hlh fun b q hm hlock hq => ?_)⟩
  · by_cases hqp : q = p
    · subst hqp
      exact (update_self ..).trans (hopen (hself ▸ hq)).1
    · exact (update_of_ne hqp ..).trans (h.quiet q (hothers q hqp ▸ hq))
  · -- A process in `commit` is there unless `p` has left.
    cases hpc : pc with
    | commit stage' =>
      grind [Log.Inv.committing]
    | idle | asleep | inOp =>
      have hk' : k ∈ log.log.lh := hk
      rw [(hopen (by rw [hpc]; rfl)).2] at hk'
      cases hk'
  · grind [Inv.log, Log.Inv.alone]
  · by_cases hqp : q = p
    · subst hqp
      exact absurd hlock (htidy hD (hself ▸ hq) b hm)
    · rw [hothers q hqp] at hq ⊢
      exact ⟨hq, id⟩

theorem next (ha : s.log.allowed (.next p))
    (hrun : s.bio.sys.pc p = .running) (htodo : s.todo p = []) :
    Outcome Fails (s.step head dev start (.next p)) (Inv head dev start n D) := by
  obtain ⟨stage, hp⟩ := Log.stage_isSome.mp ha
  obtain ⟨W, pend, hw, htr⟩ := h.works p stage hp
  obtain ⟨hheld, hcopy, rfl⟩ := works_done hw hrun htodo
  have hnothing : D → ∀ b, s.bio.mark b ≠ .free → (s.buf b).lock ≠ some p := fun hD b hm hlock => by
    grind [Tracks.only]
  have hothers : ∀ (log : Log.Sys) (pc : Log.Pc), log.pc = s.log.pc → ∀ q, q ≠ p →
      (log.goto p pc).pc q = s.log.pc q := fun log pc hpc q hq => by
    rw [Log.goto_of_ne pc hq, hpc]
  simp only [Sys.step, hp, Sys.advance]
  by_cases hfin : stage = .finish
  · subst hfin
    rw [Log.step_finish hp]
    exact h.advances hp (h.log.finish hp) (Log.goto_self _) (hothers _ _ rfl) (List.Subset.refl _) h.room
      (fun _ => ⟨rfl, h.log.erased hp⟩) nofun fun hD _ => hnothing hD
  · rw [Log.step_next hp hfin]
    have hinv := h.log.doStage hp hfin
    by_cases herase : stage = .erase
    · subst herase
      refine h.advances hp hinv (Log.goto_self _) (hothers _ _ rfl) (List.nil_subset _) (Nat.zero_le _) nofun
        (fun stage' hstage => ?_) fun hD _ => hnothing hD
      cases hstage
      refine ⟨.none, none, ⟨?_, nofun, fun _ b => hw.settled rfl b, nofun, nofun, nofun, nofun⟩,
        fun hD => ⟨nofun, fun b hm hlock => absurd hlock (hnothing hD b hm), rfl⟩⟩
      show Runs _ _ _ _ (update s.todo p _ p)
      rw [update_self]
      exact runs_writeHead (.inl not_home_start)
    · have hlh : (s.log.doStage stage).log.lh = s.log.log.lh := by
        cases stage <;> first | rfl | exact absurd rfl herase
      have hpc : (s.log.doStage stage).pc = s.log.pc := by cases stage <;> rfl
      have hworks := h.works_next hw htr hrun htodo herase
      refine h.advances hp hinv (Log.goto_self _) (hothers _ _ hpc) (hlh ▸ List.Subset.refl _) (hlh.symm ▸ h.room)
        nofun (fun stage' hstage => ?_) fun hD _ => hnothing hD
      cases hstage
      exact ⟨_, none, hworks.1.withLog hlh, fun hD => (hworks.2 hD).withLog hlh⟩

theorem logged {w : List ℕ} (hp : s.log.pc p = .inOp w)
    (hstep : s.log.step (.logWrite p (s.buf b).blockno) = .ok log) (hholds : s.bio.sys.Holds p b)
    (hpins : 0 < s.bio.sys.pins b) (hhome : D → Log.Machine.Home start (s.buf b).blockno) :
    Inv head dev start n D {s with bio := s.bio.log b, log := log} := by
  obtain ⟨xs, hcoh⟩ := h.coherent
  have hc := h.log.not_committing hp
  have hdev := (hcoh.holds hholds).1
  have hroom : s.log.log.lh.length < Log.logBlocks := by
    by_contra hfull
    rw [Log.Sys.step, Log.logWrite, if_pos (Nat.not_lt.mp hfull)] at hstep
    cases hstep
  have hinv := h.log.logs hp (s.buf b).blockno
  rw [Log.step_logWrite hp hroom (h.log.outstanding_pos hp)] at hstep
  generalize hlh' : (if (s.buf b).blockno ∈ s.log.log.lh then s.log.log.lh
    else s.log.log.lh ++ [(s.buf b).blockno]) = lh' at hinv hstep
  have hmem : ∀ k ∈ lh', k ∈ s.log.log.lh ∨ k = (s.buf b).blockno := fun k hk => by
    grind
  have hlog := Except.ok.inj hstep
  rw [hlog] at hinv
  have hothers : ∀ q, q ≠ p → log.pc q = s.log.pc q := fun q hq => by
    rw [← hlog]
    exact Log.goto_of_ne _ hq
  have hself : log.pc p = .inOp (w.insert (s.buf b).blockno) := by
    rw [← hlog]
    exact Log.goto_self _
  have hlh : log.log.lh = lh' := by rw [← hlog]; rfl
  refine ⟨⟨xs, hcoh.logs hholds hpins⟩, hinv, ?_, fun q hq => ?_, fun _ k hk => ?_, fun q stage hq => ?_,
    fun hD => ⟨(h.tidy hD).home, fun k hk => ?_, fun a q hm hlock hstage hown => ?_⟩⟩
  · grind
  · by_cases hqp : q = p
    · exact h.quiet q (by rw [hqp, hp]; rfl)
    · exact h.quiet q (hothers q hqp ▸ hq)
  · rcases hmem k (hlh ▸ hk) with hk | rfl
    · exact h.openLog hc k hk
    · exact ⟨b, hholds.2.1, hdev.2, rfl, hpins⟩
  · grind [Inv.log, Log.Inv.not_commit]
  · rcases hmem k (hlh ▸ hk) with hk | rfl
    · exact (h.tidy hD).logged k hk
    · exact hhome hD
  · by_cases hab : a = b
    · subst hab
      obtain rfl : q = p := Option.some.inj (hlock.symm.trans hholds.2.2)
      rcases hown with hnot | ⟨_, hnone⟩
      · exact absurd (hhome hD) hnot
      · have hnone' : (log.pc q).logged = none := hnone
        rw [hself] at hnone'
        cases hnone'
    · have hm' : s.bio.mark a ≠ .free := (update_of_ne hab _ s.bio.mark) ▸ hm
      by_cases hqp : q = p
      · subst hqp
        refine (h.tidy hD).untouched a q hm' hlock (by rw [hp]; rfl) (.inl ?_)
        rcases hown with hnot | ⟨_, hnone⟩
        · exact hnot
        · have hnone' : (log.pc q).logged = none := hnone
          rw [hself] at hnone'
          cases hnone'
      · have hstage' : (log.pc q).stage = none := hstage
        rw [hothers q hqp] at hstage'
        refine (h.tidy hD).untouched a q hm' hlock hstage' (hown.imp id fun hin => ?_)
        obtain ⟨hin, hnone⟩ := hin
        have hnone' : (log.pc q).logged = none := hnone
        rw [hothers q hqp] at hnone'
        refine ⟨(hmem _ (hlh ▸ hin)).resolve_right fun heq => hab ?_, hnone'⟩
        -- No other buffer has the block.
        have hax := ((hcoh.held a).mp hm').1
        exact hcoh.faithful.unique (hcoh.mem_onDevice hax (hcoh.locked hax (by
          rw [show (s.bio.sys.cache.bufs a).lock = some q from hlock]
          rfl))) hdev heq

theorem pins (hp : p < n) (hholds : s.bio.sys.Holds p b)
    (hstage : (s.log.pc p).stage = none) :
    Inv head dev start n D {s with bio := {s.bio with
      sys := {s.bio.sys with
        cache := s.bio.sys.cache.bpin b
        pins := update s.bio.sys.pins b (s.bio.sys.pins b + 1)}}} := by
  obtain ⟨xs, hcoh⟩ := h.coherent
  obtain ⟨u, hs⟩ := Outcome.of_ok (use_used (e := .bpin p b) (s := s) hcoh ⟨⟨hp, hholds⟩, trivial⟩) rfl
  refine h.clientUses u hs hstage (fun a => ?_) rfl fun _ _ _ => nofun
  grind

theorem logWrite (ha : s.log.allowed (.logWrite p (s.buf b).blockno))
    (hlt : p < n) (hholds : s.bio.sys.Holds p b) (hhome : D → Log.Machine.Home start (s.buf b).blockno) :
    Outcome Fails (s.logWrite head p b) (Inv head dev start n D) := by
  obtain ⟨xs, hcoh⟩ := h.coherent
  obtain ⟨w, hp⟩ := Log.logged_isSome.mp ha
  by_cases hroom : s.log.log.lh.length < Log.logBlocks
  · have hop := h.log.outstanding_pos hp
    obtain ⟨log, hstep⟩ : ∃ log, s.log.step (.logWrite p (s.buf b).blockno) = .ok log :=
      ⟨_, Log.step_logWrite hp hroom hop⟩
    rw [Sys.logWrite, Log.logWrite_eq _ hroom hop, Sys.advance, hstep]
    by_cases hk : (s.buf b).blockno ∈ s.log.log.lh
    · -- The block is in the log, and its buffer is pinned.
      have hpos : 0 < s.bio.sys.pins b := by
        obtain ⟨a, ha', hdev, hblock, hpin⟩ := h.openLog (h.log.not_committing hp) _ hk
        have hsame : a = b := hcoh.faithful.unique ⟨hcoh.consistent.cached.mem_live.mp ha', hdev⟩
          (hcoh.holds hholds).1 hblock
        exact hsame ▸ hpin
      rw [decide_eq_false (not_not_intro hk)]
      exact h.logged hp hstep hholds hpos hhome
    · rw [decide_eq_true hk]
      have hpinned := h.pins hlt hholds (by rw [hp]; rfl)
      have hbuf : (s.bio.sys.cache.bpin b).bufs b = (s.buf b).ref := setBuf_self
      have hblock : ((s.bio.sys.cache.bpin b).bufs b).blockno = (s.buf b).blockno := by rw [hbuf]; rfl
      refine hpinned.logged hp (hblock.symm ▸ hstep) ⟨hholds.1, hholds.2.1, ?_⟩ ?_ (hblock.symm ▸ hhome)
      · exact (lock_setBuf Buf.ref (fun _ => rfl) b).trans hholds.2.2
      grind
  · rw [Sys.logWrite, Log.logWrite, if_pos (Nat.not_lt.mp hroom)]
    exact .inr rfl

theorem step {e : Event} (ha : s.allowed head dev n e) (hd : D → s.Disciplined start e) :
    Outcome Fails (s.step head dev start e) (Inv head dev start n D) := by
  cases e with
  | bread p blockno alloc =>
    exact h.clientStep (e := .bget p dev blockno alloc) ⟨ha.2, rfl⟩ ha.1 (fun _ => rfl) rfl fun _ _ _ => nofun
  | acquiresleep p => exact h.acquiresleep ha
  | fill p => exact h.fill ha
  | modify p b data =>
    refine h.clientStep (e := .modify p b data) ⟨ha.2, trivial⟩ ha.1 (fun _ => rfl) rfl fun hD a data' he => ?_
    cases he
    exact hd hD
  | bwrite p b =>
    exact h.clientStep (e := .bwrite p b) ⟨ha.2, trivial⟩ ha.1 (fun _ => rfl) rfl fun _ _ _ => nofun
  | logWrite p b => exact h.logWrite ha.1 ha.2.1 ha.2.2 hd
  | releasesleep p b => exact h.releasesleep ha.2.1 ha.1 ha.2.2.1 ha.2.2.2
  | brelse p => exact h.brelse ha
  | beginOp p => exact h.beginOp ha.1
  | endOp p => exact h.endOp ha.1 ha.2.2 hd
  | next p => exact h.next ha.1 ha.2.2.1 ha.2.2.2
  | call p alloc =>
    rw [Sys.step]
    split
    case h_1 => exact h
    case h_2 c cs htodo => exact h.call ha.1 ha.2.1 ha.2.2 htodo

theorem reads : Reads dev s := by
  obtain ⟨xs, hcoh⟩ := h.coherent
  intro p b hread
  have hbuf : (s.bio.sys.cache.fill b).bufs b = (s.buf b).read s.bio.sys.cache.disk := by
    rw [fill_eq]
    exact setBuf_self
  have hasked := hcoh.asked p b (.inr hread)
  refine ⟨?_, ?_, ?_⟩
  · rw [hbuf]
    exact (hcoh.reads hread).1.2
  · rw [hbuf]
    exact hasked
  · rw [hbuf, ← hasked]
    exact hcoh.read_eq hread

end

end Inv

end Log

/-! ### From the start on -/

theorem Clean.inv {c : Bcache} (h : Clean head dev c xs) (hdev : dev ≠ 0) :
    Inv head dev start n D (Sys.start c) := by
  have hwaiters : ∀ b, (Bio.Sys.start c).waiters n b = 0 := fun b => Finset.sum_eq_zero fun p _ => rfl
  have hcons : Consistent head n (Bio.Sys.start c) xs := by
    refine ⟨h.cached, h.unique, fun b hb => ?_, fun _ _ ht => ?_, fun _ _ hr => ?_, fun b hb => ?_, fun _ _ => rfl⟩
    · rw [hwaiters]
      show (c.bufs b).refcnt = (c.bufs b).holders + 0 + 0
      rw [(h.unused b hb).1, Buf.holders, (h.unused b hb).2]
      rfl
    · cases ht
    · cases hr
    · exact absurd hb (Nat.lt_irrefl 0)
  have hcoh : Coherent head n dev (Sys.start c).bio xs := by
    refine ⟨hcons, fun b hb hused => absurd (h.unused b hb).1 hused, fun _ _ hp => ?_, fun b => ?_, ?_⟩
    · rcases hp with hp | hp <;> cases hp
    · refine iff_of_false (fun hm => hm rfl) ?_
      rintro ⟨hb, p, hp, _⟩
      cases (h.unused b hb).2.symm.trans hp
    · refine ⟨fun a ha b hb heq => ?_, fun b hb => ⟨fun _ hv => ?_, fun _ => ⟨rfl, rfl⟩, fun hm => ?_, fun hv _ _ => ?_,
        fun hm => ?_⟩, fun _ _ => rfl⟩
      · have hne : (c.bufs a).dev ≠ 0 := by
          rw [show (c.bufs a).dev = dev from ha.2]
          exact hdev
        exact h.unique a ha.1 b hb.1 hne (ha.2.trans hb.2.symm) heq
      · exact h.data b hb.1 hb.2 hv
      · cases hm
      · exact (h.data b hb.1 hb.2 hv).symm
      · cases hm
  refine ⟨⟨xs, hcoh⟩, .start, Nat.zero_le _, fun _ _ => rfl, fun _ k hk => ?_, fun _ _ hp => ?_, fun _ =>
    ⟨fun _ _ => rfl, fun k hk => ?_, fun _ _ hm => absurd rfl hm⟩⟩
  · exact absurd hk List.not_mem_nil
  · cases hp
  · exact absurd hk List.not_mem_nil

/-- **The cache and the log are one coherent disk.** However processes, commits, recycling
and freeing of buffers interleave, `bread` returns what was released last for the block,
or what was on the disk at the start. If processes are disciplined, that was released by
a process that is not in `commit`: commits change nothing outside of the log. -/
theorem processes_coherent {c : Bcache} (hdev : dev ≠ 0) (hc : Clean head dev c xs) {es : List Event}
    (hp : (processes head dev start n).Proper (Sys.start c) es) :
    Outcome Fails ((processes head dev start n).run (Sys.start c) es) fun s =>
      Reads dev s ∧
      (((processes head dev start n).restrict (Sys.Disciplined start)).Proper (Sys.start c) es →
        ∀ k, Log.Machine.Home start k → s.bio.view k = s.home k) := by
  have hany := Protocol.run_outcome (I := Inv head dev start n False)
    (fun _ _ _ h ha => h.step ha False.elim) (hc.inv hdev) hp
  have htidy : Outcome (fun _ => True) ((processes head dev start n).run (Sys.start c) es) fun s =>
      ((processes head dev start n).restrict (Sys.Disciplined start)).Proper (Sys.start c) es →
        ∀ k, Log.Machine.Home start k → s.bio.view k = s.home k := by
    by_cases hd : ((processes head dev start n).restrict (Sys.Disciplined start)).Proper (Sys.start c) es
    · have hrun := Protocol.run_outcome (P := (processes head dev start n).restrict (Sys.Disciplined start))
        (I := Inv head dev start n True) (fun _ _ _ h ha => h.step ha.1 fun _ => ha.2) (hc.inv hdev) hd
      rw [Protocol.restrict_run] at hrun
      exact (hrun.imp fun _ _ => trivial).mono fun s hs _ => (hs.tidy trivial).home
    · cases (processes head dev start n).run (Sys.start c) es with
      | error => trivial
      | ok s => exact fun hd' => absurd hd' hd
  exact (hany.and htidy).mono fun s hs => ⟨hs.1.reads, hs.2⟩

theorem booted_clean : Clean 1 1 booted (List.range' 2 nbuf).reverse := by
  have hboot : Bcache.binit 1 1 (List.range' 2 nbuf) uncached = .ok booted := rfl
  have hzero : ∀ b ∈ (List.range' 2 nbuf).reverse, (booted.bufs b).refcnt = 0 ∧ (booted.bufs b).lock = none ∧
      (booted.bufs b).valid = false := by decide +kernel
  generalize booted = c at hboot hzero ⊢
  obtain hcons := Outcome.of_ok (binit_cached (n := 0) (c := uncached) rfl rfl (by decide) (by decide)
    (by decide)) hboot
  refine ⟨hcons.cached, hcons.unique, fun b hb => ⟨(hzero b hb).1, (hzero b hb).2.1⟩, fun b hb _ hv => ?_⟩
  grind

/-- A process changes and logs a block and ends its operation; while it commits, another
process reads the block. -/
def logging : List Event :=
  [.beginOp 0, .bread 0 45 0, .acquiresleep 0, .fill 0, .modify 0 2 fun _ => 7, .logWrite 0 2,
    .releasesleep 0 2, .brelse 0, .endOp 0, .next 0, .call 0 0, .bread 1 45 0, .acquiresleep 1]

theorem processes_coherent_logging :
    ∃ s, (processes 1 1 2 2).run (Sys.start booted) logging = .ok s ∧ s.log.pc 0 = .commit (.writeLog 0) ∧
      s.bio.sys.pc 1 = .reading 2 ∧ ((s.bio.sys.cache.fill 2).bufs 2).data 0 = 7 ∧ s.bio.view 45 = s.home 45 := by
  have hproper : (processes 1 1 2 2).Proper (Sys.start booted) logging := by decide +kernel
  have hdisciplined : ((processes 1 1 2 2).restrict (Sys.Disciplined 2)).Proper (Sys.start booted) logging := by
    decide +kernel
  have hsees : ((processes 1 1 2 2).run (Sys.start booted) logging).toOption.map
      (fun s => (s.log.pc 0, s.bio.sys.pc 1, s.bio.asked 1, s.bio.view 45 0)) =
        some (.commit (.writeLog 0), .reading 2, 45, 7) := by
    decide +kernel
  have hclean := booted_clean
  generalize booted = c at hproper hdisciplined hsees hclean ⊢
  have hrun := processes_coherent (by decide) hclean hproper
  cases hs : (processes 1 1 2 2).run (Sys.start c) logging with
  | error e =>
    rw [hs] at hsees
    cases hsees
  | ok s =>
    rw [hs] at hsees hrun
    obtain ⟨hstage, hrest⟩ := Prod.mk.inj (Option.some.inj hsees)
    obtain ⟨hreading, hrest⟩ := Prod.mk.inj hrest
    obtain ⟨hasked, hview⟩ := Prod.mk.inj hrest
    obtain ⟨hreads, hhome⟩ := hrun
    have hdata := (hreads 1 2 hreading).2.2
    rw [hasked] at hdata
    exact ⟨s, rfl, hstage, hreading, (congrFun hdata 0).trans hview, hhome hdisciplined 45 (by decide)⟩

end Xv6.Disk
