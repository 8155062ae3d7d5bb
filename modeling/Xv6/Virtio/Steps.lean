import Xv6.Virtio.Requests

/-! The steps of processes, of the interrupt handler and of the disk keep the invariant. -/
namespace Xv6.Virtio

open Function

variable {s s' : State} {queue unread : List Entry} {p q b : ℕ} {r t : Request} {e : Entry} {pc : Pc}

theorem format_written {write : Bool} (hnodup : r.chain.Nodup) :
    Written (s.format p r write) r ∧ (s.format p r write).infoBuf r.idx0 = r.b := by
  obtain ⟨⟨h01, h02⟩, h12⟩ : (r.idx0 ≠ r.idx1 ∧ r.idx0 ≠ r.idx2) ∧ r.idx1 ≠ r.idx2 := by
    simpa [Request.chain] using hnodup
  refine ⟨⟨?_, ⟨write, ?_⟩, ?_⟩, update_self ..⟩
  · simp [State.format, State.goto, h01, h02]
  · simp [State.format, State.goto, h12]
  · simp [State.format, State.goto]

theorem format_desc_of_notMem {write : Bool} {i : ℕ} (hi : i ∉ r.chain) : (s.format p r write).desc i = s.desc i := by
  simp only [Request.chain, List.mem_cons, List.not_mem_nil, or_false, not_or] at hi
  simp [State.format, State.goto, hi]

namespace Inv

/-! ### Locks and calls -/

section
variable (h : Inv s queue unread)
include h

theorem locks {lock : Option Holder} {locked : ℕ → Option ℕ}
    (howners : Owners {s with lock := lock, locked := locked}) :
    Inv {s with lock := lock, locked := locked} queue unread :=
  ⟨howners, h.layout.congr (fun _ => rfl) (fun _ => rfl) (fun _ => rfl) (fun _ _ _ _ _ => rfl) fun _ _ _ => rfl,
    h.traffic.congr rfl (fun _ => rfl) (fun _ => rfl) rfl rfl,
    h.numbers.congr rfl rfl (fun _ => rfl) (fun _ => rfl) rfl⟩

theorem lockBuf (hb : b ≠ 0) (hfree : s.locked b = none) :
    Inv {s with locked := update s.locked b (some p)} queue unread := by
  refine h.locks ⟨h.owners.lock, fun q c hq => ?_, ?_⟩
  · grind [Inv.owners, Owners.buffer]
  · exact (update_of_ne hb.symm ..).trans h.owners.null

theorem unlockBuf (hb : s.locked b = some p) (hidle : s.pc p = .idle) :
    Inv {s with locked := update s.locked b none} queue unread := by
  refine h.locks ⟨h.owners.lock, fun q c hq => ?_, ?_⟩
  · have hlocked := h.owners.buffer q c hq
    have hne : c ≠ b := by
      rintro rfl
      cases hb.symm.trans hlocked
      rw [hidle] at hq
      cases hq
    exact (update_of_ne hne ..).trans hlocked
  grind [Inv.owners, Owners.null]

theorem goto (howners : Owners s') (hpc : s'.pc = (s.goto p pc).pc)
    (hrequest : pc.request = (s.pc p).request) (hwritten : pc.written = (s.pc p).written)
    (hsent : pc.sent = (s.pc p).sent) (hstaged : pc.staged = (s.pc p).staged) (hrings : s'.rings = s.rings)
    (hfree : ∀ i, s'.free i = s.free i)
    (hdesc : ∀ q r, (s.pc q).written = some r → ∀ i ∈ r.chain, s'.desc i = s.desc i)
    (hinfo : s'.infoBuf = s.infoBuf) (hstatus : s'.infoStatus = s.infoStatus) (hdisk : s'.disk = s.disk)
    (hcount : s'.count = s.count) (hreturned : s'.returned = s.returned) : Inv s' queue unread := by
  have hsame : ∀ {β : Type} (f : Pc → β), f pc = f (s.pc p) → ∀ q, f (s'.pc q) = f (s.pc q) := by
    intro β f hf q
    rw [hpc]
    exact same_goto f hf q
  exact ⟨howners,
    h.layout.congr hfree (hsame _ hrequest) (hsame _ hwritten) hdesc fun _ _ _ => by rw [hinfo],
    h.traffic.congr hrings (hsame _ hsent) (hsame _ hstaged) hdisk hstatus,
    h.numbers.congr hrings hcount (hsame _ hsent) (hsame _ hrequest) hreturned⟩

theorem virtioDiskRw (hb : s.locked b = some p) (hidle : s.pc p = .idle) (write : Bool) :
    Inv (s.goto p (.entering b write)) queue unread := by
  refine h.goto ⟨fun q hq => ?_, fun q c hq => ?_, h.owners.null⟩ rfl (by rw [hidle]; rfl) (by rw [hidle]; rfl)
    (by rw [hidle]; rfl) (by rw [hidle]; rfl) rfl (fun _ => rfl) (fun _ _ _ _ _ => rfl) rfl rfl rfl rfl rfl
  · rw [same_goto Pc.hasLock (by rw [hidle]; rfl)] at hq
    exact h.owners.lock q hq
  · rw [pc_goto] at hq
    split at hq
    · rename_i hqp
      cases hq
      rw [hqp]
      exact hb
    · exact h.owners.buffer q c hq

theorem acquire (hfree : s.lock = none) :
    Inv ({s with lock := some (.proc p)}.goto p (s.pc p).entered) queue unread := by
  have hcases : ∀ {β : Type} (f : Pc → β), (∀ b w, f (.allocating b w) = f (.entering b w)) →
      (∀ r, f (.waiting r) = f (.sleeping r)) → f (s.pc p).entered = f (s.pc p) := by
    intro β f hentering hsleeping
    cases hp : s.pc p with
    | entering b write => exact hentering b write
    | sleeping r => exact hsleeping r
    | _ => rfl
  refine h.goto (h.owners.goto (.inl (hcases _ (fun _ _ => rfl) fun _ => rfl)) (fun _ => rfl) rfl fun q hq => ?_) rfl
    (hcases _ (fun _ _ => rfl) fun _ => rfl) (hcases _ (fun _ _ => rfl) fun _ => rfl)
    (hcases _ (fun _ _ => rfl) fun _ => rfl) (hcases _ (fun _ _ => rfl) fun _ => rfl) rfl (fun _ => rfl)
    (fun _ _ _ _ _ => rfl) rfl rfl rfl rfl rfl
  -- The lock was free, so that nobody else has it.
  rw [pc_goto] at hq
  split at hq
  · rename_i hqp
    rw [hqp]
    rfl
  · cases hfree.symm.trans (h.owners.lock q hq)

theorem intr (hfree : s.lock = none) : Inv {s with lock := some .intr} queue unread := by
  refine h.locks ⟨fun q hq => ?_, h.owners.buffer, h.owners.null⟩
  cases hfree.symm.trans (h.owners.lock q hq)

/-! ### Descriptors -/

theorem allocated {write : Bool} (hp : s.pc p = .allocating b write) (r : Request)
    (hb : r.b = b) (hr : r.number = s.count) (hnodup : r.chain.Nodup)
    (hfree : ∀ i ∈ r.chain, i < num ∧ s.free i = true) :
    Inv ({s with free := fun i => s.free i && !decide (i ∈ r.chain), count := s.count + 1}.goto p
      (.formatting r write)) queue unread := by
  have hlock : (s.pc p).hasLock = true := by rw [hp]; rfl
  have hwritten : ∀ q, (({s with free := fun i => s.free i && !decide (i ∈ r.chain), count := s.count + 1}.goto p
      (.formatting r write)).pc q).written = (s.pc q).written := same_goto (s := s) Pc.written (by rw [hp]; rfl)
  have hsent : ∀ q, (({s with free := fun i => s.free i && !decide (i ∈ r.chain), count := s.count + 1}.goto p
      (.formatting r write)).pc q).sent = (s.pc q).sent := same_goto (s := s) Pc.sent (by rw [hp]; rfl)
  refine ⟨h.owners.goto (.inl (by rw [hp, ← hb]; rfl)) (fun _ => rfl) rfl
    (h.owners.lock_goto hlock (fun _ => rfl) fun _ => rfl), ⟨?_, fun q t hq => ?_⟩,
    h.traffic.congr rfl hsent (same_goto (s := s) Pc.staged (by rw [hp]; rfl)) rfl rfl,
    ⟨h.numbers.nodup, fun e he => (h.numbers.bound e he).trans (Nat.lt_succ_self _), fun q t hq hs => ?_,
      h.numbers.returned⟩⟩
  · refine h.layout.chains.alloc (p := p) (by rw [hp]; rfl) hnodup hfree (fun _ => rfl) (funext fun q => ?_)
    by_cases hq : q = p
    · subst hq
      simp [State.goto, Pc.request]
    · simp [State.goto, hq]
  · rw [hwritten] at hq
    obtain ⟨⟨h0, h1, h2⟩, hbuf⟩ := h.layout.written q t hq
    exact ⟨⟨h0, h1, h2⟩, hbuf⟩
  · rw [pc_goto] at hq
    split at hq
    · cases hq
      refine ⟨hr ▸ Nat.lt_succ_self _, fun hmem => ?_⟩
      obtain ⟨e, he, heq⟩ := List.mem_map.mp hmem
      exact absurd (h.numbers.bound e he) (by omega)
    · rw [hsent] at hs
      obtain ⟨hlt, hnot⟩ := h.numbers.fresh q t hq hs
      exact ⟨hlt.trans (Nat.lt_succ_self _), hnot⟩

theorem alloc {write : Bool} (hp : s.pc p = .allocating b write) :
    ∃ s', s.alloc p b write = .ok s' ∧ Inv s' queue unread := by
  have hlock : (s.pc p).hasLock = true := by rw [hp]; rfl
  obtain ⟨o, s1, hrun, ho⟩ := allocLoop_spec 3 [] s List.nodup_nil nofun
  unfold State.alloc
  rw [hrun]
  cases o with
  | none =>
    obtain ⟨is, his, htouches, hfree⟩ := ho
    obtain ⟨free', desc', rfl⟩ := htouches.eq
    refine ⟨_, rfl, h.goto (h.owners.goto (.inl (by rw [hp]; rfl)) (fun _ => rfl) rfl
      (h.owners.lock_goto hlock (fun _ => rfl) (fun hl => nomatch hl))) rfl (by rw [hp]; rfl) (by rw [hp]; rfl)
      (by rw [hp]; rfl) (by rw [hp]; rfl) rfl (fun i => ?_) (fun q r hq i hi => htouches.desc i fun hmem => ?_)
      rfl rfl rfl rfl rfl⟩
    · exact (hfree i).trans (by simp)
    · -- What was freed again was free before, and in no chain.
      have hf := (his i hmem).resolve_left List.not_mem_nil
      rw [(h.layout.chains.taken q r (Pc.request_of_written hq) i hi).2] at hf
      cases hf
  | some l =>
    obtain ⟨new, rfl, hlen, hnodup, hnew, rfl⟩ := ho
    obtain ⟨i, j, k, rfl⟩ := List.length_eq_three.mp hlen
    refine ⟨_, rfl, ?_⟩
    exact h.allocated hp ⟨b, i, j, k, s.count⟩ rfl rfl hnodup hnew

/-! ### Room in the rings -/

theorem owner (hp : (s.pc p).request = some r) (he : e ∈ tokens s.rings queue unread)
    (hid : e.id ∈ r.chain) : (s.pc p).sent = some r ∧ r.entry = e ∧ s.disk r.b = true := by
  obtain ⟨q, t, hq, rfl, hdisk⟩ := h.traffic.of_mem he
  have hreq := Pc.request_of_written (Pc.written_of_sent hq)
  obtain rfl := h.layout.chains.eq_of_mem hreq hp (Chains.idx0_mem t) hid
  grind

theorem id_lt (he : e ∈ tokens s.rings queue unread) : e.id < num := by
  obtain ⟨q, t, hq, rfl, -⟩ := h.traffic.of_mem he
  exact (h.layout.chains.taken q t (Pc.request_of_written (Pc.written_of_sent hq)) _ (Chains.idx0_mem t)).1

theorem length_le : (tokens s.rings queue unread).length ≤ num := by
  have hsub : (tokens s.rings queue unread).map Entry.id ⊆ List.range num := by
    grind [Inv.id_lt]
  simpa using (List.subperm_of_subset h.traffic.ids hsub).length_le

theorem idx0_notMem (hp : (s.pc p).request = some r) (hsent : (s.pc p).sent = none) :
    r.idx0 ∉ (tokens s.rings queue unread).map Entry.id := by
  grind [Inv.owner, Chains.idx0_mem]

theorem queue_length_lt (hp : (s.pc p).request = some r) (hsent : (s.pc p).sent = none) :
    queue.length < num := by
  have hnodup := List.nodup_cons.mpr ⟨h.idx0_notMem hp hsent, h.traffic.ids⟩
  have hsub : r.idx0 :: (tokens s.rings queue unread).map Entry.id ⊆ List.range num := by
    refine List.cons_subset.mpr ⟨?_, fun i hi => ?_⟩
    · exact List.mem_range.mpr (h.layout.chains.taken p r hp _ (Chains.idx0_mem r)).1
    grind [Inv.id_lt]
  have hlen := (List.subperm_of_subset hnodup hsub).length_le
  simp only [tokens, List.length_cons, List.length_map, List.length_append, List.length_range] at hlen
  omega

/-! ### A request -/

theorem format {write : Bool} (hp : s.pc p = .formatting r write) :
    Inv (s.format p r write) queue unread := by
  have hlock : (s.pc p).hasLock = true := by rw [hp]; rfl
  have hreq : (s.pc p).request = some r := by rw [hp]; rfl
  have hunsent : (s.pc p).sent = none := by rw [hp]; rfl
  have hpc : ∀ q, (s.format p r write).pc q = (s.goto p (.publishing r)).pc q := fun _ => rfl
  have hsent : ∀ q, ((s.format p r write).pc q).sent = (s.pc q).sent := same_goto (s := s) Pc.sent (by rw [hp]; rfl)
  have hrequest : ∀ q, ((s.format p r write).pc q).request = (s.pc q).request :=
    same_goto (s := s) Pc.request (by rw [hp]; rfl)
  -- The disk and the other processes have other buffers.
  have hdisk : ∀ q t, (s.pc q).sent = some t → (s.format p r write).disk t.b = s.disk t.b := by
    intro q t hq
    refine update_of_ne (fun hb => ?_) ..
    obtain rfl := h.owners.eq_of_request (Pc.request_of_written (Pc.written_of_sent hq)) hreq hb
    cases hunsent.symm.trans hq
  refine ⟨h.owners.goto (.inl (by rw [hp]; rfl)) hpc rfl (h.owners.lock_goto hlock hpc fun _ => rfl),
    ⟨h.layout.chains.congr (fun _ => rfl) hrequest, fun q t hq => ?_⟩, ⟨?_, h.traffic.ids, fun e => ?_, fun q t hq hd => ?_,
      fun e he => ?_, fun q t hq => ?_⟩, ⟨h.numbers.nodup, h.numbers.bound, fun q t hq hs => ?_, h.numbers.returned⟩⟩
  · rw [hpc, pc_goto] at hq
    split at hq
    · cases hq
      exact format_written (h.layout.chains.nodup p r hreq)
    · rename_i hqp
      exact h.layout.other hreq hqp hq (fun i hi => format_desc_of_notMem hi) fun i hi => update_of_ne hi ..
  · exact h.traffic.flow.stage (h.queue_length_lt hreq hunsent) r.entry
  · refine (h.traffic.tokens e).trans (exists_congr fun q => exists_congr fun t => ?_)
    grind
  · rw [hsent] at hq
    rw [hdisk q t hq] at hd
    exact h.traffic.handled q t hq hd
  · refine (update_of_ne (fun heq => ?_) ..).trans (h.traffic.status e he)
    exact h.idx0_notMem hreq hunsent (List.mem_map.mpr ⟨e, List.mem_append_right _ he, heq⟩)
  · rw [hpc, pc_goto] at hq
    split at hq
    · cases hq
      exact ⟨update_self .., update_self ..⟩
    · rename_i hqp
      exact absurd (h.owners.eq_of_lock (Pc.hasLock_of_staged hq) hlock) hqp
  · rw [hrequest] at hq
    rw [hsent] at hs
    exact h.numbers.fresh q t hq hs

theorem publish (hp : s.pc p = .publishing r) : ∃ queue', Inv (s.publish p r) queue' unread := by
  have hlock : (s.pc p).hasLock = true := by rw [hp]; rfl
  have hreq : (s.pc p).request = some r := by rw [hp]; rfl
  have hunsent : (s.pc p).sent = none := by rw [hp]; rfl
  have hpc : ∀ q, (s.publish p r).pc q = (s.goto p (.waiting r)).pc q := fun _ => rfl
  have hrequest : ∀ q, ((s.publish p r).pc q).request = (s.pc q).request :=
    same_goto (s := s) Pc.request (by rw [hp]; rfl)
  have hwritten : ∀ q, ((s.publish p r).pc q).written = (s.pc q).written :=
    same_goto (s := s) Pc.written (by rw [hp]; rfl)
  obtain ⟨hring, hdisk⟩ := h.traffic.staged p r (by rw [hp]; rfl)
  obtain ⟨hflow, hperm⟩ := h.traffic.flow.publish (h.queue_length_lt hreq hunsent) hring
  have hrings : (s.publish p r).rings = s.rings.publish r.entry := rfl
  -- Nobody else is before publishing, since nobody else has the lock.
  have hlocked : ∀ q, q ≠ p → (s.pc q).hasLock ≠ true := fun q hqp hq => hqp (h.owners.eq_of_lock hq hlock)
  refine ⟨queue ++ [r.entry], h.owners.goto (.inl (by rw [hp]; rfl)) hpc rfl (h.owners.lock_goto hlock hpc fun _ => rfl),
    h.layout.congr (fun _ => rfl) hrequest hwritten (fun _ _ _ _ _ => rfl) (fun _ _ _ => rfl),
    ⟨hflow, ?_, fun e => ?_, fun q t hq hd => ?_, h.traffic.status, fun q t hq => ?_⟩,
    ⟨?_, fun e he => ?_, fun q t hq hs => ?_, h.numbers.returned⟩⟩
  · rw [hrings, (hperm.map Entry.id).nodup_iff]
    exact List.nodup_cons.mpr ⟨h.idx0_notMem hreq hunsent, h.traffic.ids⟩
  · rw [hrings, hperm.mem_iff, List.mem_cons, h.traffic.tokens e]
    constructor
    · rintro (rfl | ⟨q, t, hq, rfl, hd⟩)
      · exact ⟨p, r, by rw [hpc, pc_goto, if_pos rfl]; rfl, rfl, hdisk⟩
      · have hqp : q ≠ p := by
          rintro rfl
          cases hunsent.symm.trans hq
        exact ⟨q, t, by rw [hpc, pc_goto, if_neg hqp]; exact hq, rfl, hd⟩
    · rintro ⟨q, t, hq, rfl, hd⟩
      rw [hpc, pc_goto] at hq
      split at hq
      · cases hq
        exact .inl rfl
      · exact .inr ⟨q, t, hq, rfl, hd⟩
  · rw [hpc, pc_goto] at hq
    split at hq
    · cases hq
      cases hdisk.symm.trans hd
    · exact h.traffic.handled q t hq hd
  · rw [hpc, pc_goto] at hq
    split at hq
    · cases hq
    grind [Pc.hasLock_of_staged]
  · change ((s.rings.published ++ [r.entry]).map Entry.number).Nodup
    rw [List.map_append, List.nodup_append']
    exact ⟨h.numbers.nodup, List.nodup_singleton _,
      List.disjoint_singleton.mpr (h.numbers.fresh p r hreq hunsent).2⟩
  · rcases List.mem_append.mp he with he | he
    · exact h.numbers.bound e he
    · cases List.mem_singleton.mp he
      exact (h.numbers.fresh p r hreq hunsent).1
  · rw [hpc, pc_goto] at hq hs
    split at hq
    · rename_i hqp
      rw [if_pos hqp] at hs
      cases hs
    · rename_i hqp
      rw [if_neg hqp] at hs
      exact absurd (Pc.hasLock_of_request hq hs) (hlocked q hqp)

theorem sleep (hp : s.pc p = .waiting r) :
    Inv ({s with lock := none}.goto p (.sleeping r)) queue unread := by
  have hlock : (s.pc p).hasLock = true := by rw [hp]; rfl
  exact h.goto (h.owners.goto (.inl (by rw [hp]; rfl)) (fun _ => rfl) rfl
    (h.owners.lock_goto hlock (fun _ => rfl) nofun)) rfl (by rw [hp]; rfl) (by rw [hp]; rfl) (by rw [hp]; rfl)
    (by rw [hp]; rfl) rfl (fun _ => rfl) (fun _ _ _ _ _ => rfl) rfl rfl rfl rfl rfl

theorem released {free : ℕ → Bool} {desc : ℕ → Desc} (hp : s.pc p = .waiting r)
    (hdisk : s.disk r.b = false) (hfree : ∀ i, free i = (s.free i || decide (i ∈ r.chain)))
    (hdesc : ∀ i ∉ r.chain, desc i = s.desc i) :
    Inv ({s with
      free := free, desc := desc, infoBuf := update s.infoBuf r.idx0 0, lock := none,
      returned := r.number :: s.returned}.goto p .idle) queue unread := by
  have hlock : (s.pc p).hasLock = true := by rw [hp]; rfl
  have hreq : (s.pc p).request = some r := by rw [hp]; rfl
  have hhandled := h.traffic.handled p r (by rw [hp]; rfl) hdisk
  -- The other processes are where they were.
  have hold : ∀ {β : Type} (f : Pc → Option β) {q : ℕ} {x : β}, f .idle = none →
      f ((s.goto p .idle).pc q) = some x → q ≠ p ∧ f (s.pc q) = some x := by
    intro β f q x hidle hq
    rw [pc_goto] at hq
    split at hq
    · cases hidle.symm.trans hq
    · exact ⟨‹_›, hq⟩
  refine ⟨h.owners.goto (.inr rfl) (fun _ => rfl) rfl (h.owners.lock_goto hlock (fun _ => rfl) nofun),
    ⟨h.layout.chains.release hreq hfree (funext fun q => ?_), fun q t hq => ?_⟩,
    ⟨h.traffic.flow, h.traffic.ids, fun e => (h.traffic.tokens e).trans ⟨?_, ?_⟩, fun q t hq hd => ?_, h.traffic.status,
      fun q t hq => ?_⟩, ⟨h.numbers.nodup, h.numbers.bound, fun q t hq hs => ?_, fun n hn => ?_⟩⟩
  · by_cases hq : q = p
    · subst hq
      simp [State.goto, Pc.request]
    · simp [State.goto, hq]
  · obtain ⟨hqp, hq⟩ := hold Pc.written rfl hq
    exact h.layout.other hreq hqp hq hdesc fun i hi => update_of_ne hi ..
  · rintro ⟨q, t, hq, rfl, hd⟩
    refine ⟨q, t, ?_, rfl, hd⟩
    have hqp : q ≠ p := by
      rintro rfl
      rw [hp] at hq
      cases hq
      cases hdisk.symm.trans hd
    exact (congrArg Pc.sent ((pc_goto s p .idle q).trans (if_neg hqp))).trans hq
  · rintro ⟨q, t, hq, rfl, hd⟩
    exact ⟨q, t, (hold Pc.sent rfl hq).2, rfl, hd⟩
  · exact h.traffic.handled q t (hold Pc.sent rfl hq).2 hd
  · exact h.traffic.staged q t (hold Pc.staged rfl hq).2
  · obtain ⟨hqp, hq⟩ := hold Pc.request rfl hq
    exact h.numbers.fresh q t hq ((congrArg Pc.sent ((pc_goto s p .idle q).trans (if_neg hqp))).symm.trans hs)
  · rcases List.mem_cons.mp hn with rfl | hn
    · have hfinished : r.entry ∈ s.rings.finished := by
        rw [h.traffic.flow.finished]
        exact List.mem_append_left _ hhandled
      exact List.mem_map.mpr ⟨_, hfinished, rfl⟩
    · exact h.numbers.returned n hn

theorem test (hp : s.pc p = .waiting r) : ∃ s', s.test p r = .ok s' ∧ Inv s' queue unread := by
  unfold State.test
  cases hdisk : s.disk r.b with
  | true => exact ⟨_, if_pos rfl, h.sleep hp⟩
  | false =>
    have hreq : (s.pc p).request = some r := by rw [hp]; rfl
    obtain ⟨hw, -⟩ := h.layout.written p r (by rw [hp]; rfl)
    obtain ⟨_, hcall, ⟨⟨free, desc, rfl⟩, hdesc⟩, hfree⟩ :=
      freeChain_spec (s := {s with infoBuf := update s.infoBuf r.idx0 0}) (loopFuel - 3)
        (hw.congr fun _ _ => rfl) (h.layout.chains.nodup p r hreq) (h.layout.chains.taken p r hreq)
    refine ⟨_, (if_neg Bool.false_ne_true).trans ?_, h.released hp hdisk hfree hdesc⟩
    rw [Nat.sub_add_cancel (by decide)] at hcall
    dsimp only
    rw [hcall]
    rfl

/-! ### The interrupt handler -/

theorem see (hlock : s.lock = some .intr) (hne : s.rings.seenIdx ≠ s.rings.usedIdx) :
    ∃ p r rest, (s.pc p).sent = some r ∧ s.disk r.b = true ∧ unread = r.entry :: rest ∧
      s.intrLoop = .ok {s with disk := update s.disk r.b false, rings := s.rings.see r.entry} ∧
      Inv {s with disk := update s.disk r.b false, rings := s.rings.see r.entry} queue rest := by
  obtain ⟨rest, hunread, hflow⟩ := h.traffic.flow.see hne
  have hmem : s.rings.usedRing (s.rings.seenIdx % num) ∈ tokens s.rings queue unread := by
    rw [hunread]
    simp [tokens]
  obtain ⟨p, r, hsent, hentry, hdisk⟩ := h.traffic.of_mem hmem
  have hreq := Pc.request_of_written (Pc.written_of_sent hsent)
  have hbuf := (h.layout.written p r (Pc.written_of_sent hsent)).2
  have hb := h.owners.buf_ne_zero hreq
  rw [← hentry] at hunread hflow
  have hstatus : s.infoStatus r.idx0 = 0 := h.traffic.status r.entry (by rw [hunread]; exact List.mem_cons_self)
  -- One token less.
  have hperm : (tokens s.rings queue unread).Perm (r.entry :: tokens (s.rings.see r.entry) queue rest) := by
    rw [hunread]
    exact List.perm_middle
  have hids := (hperm.map Entry.id).nodup_iff.mp h.traffic.ids
  obtain ⟨hnot, hids⟩ := List.nodup_cons.mp hids
  have hsame : ∀ q t, (s.pc q).sent = some t → t.b = r.b → q = p ∧ t = r := by
    intro q t hq hbt
    obtain rfl := h.owners.eq_of_request (Pc.request_of_written (Pc.written_of_sent hq)) hreq hbt
    exact ⟨rfl, Option.some.inj (hq.symm.trans hsent)⟩
  refine ⟨p, r, rest, hsent, hdisk, hunread, ?_, ⟨h.owners.lock, h.owners.buffer, h.owners.null⟩,
    h.layout.congr (fun _ => rfl) (fun _ => rfl) (fun _ => rfl) (fun _ _ _ _ _ => rfl) (fun _ _ _ => rfl),
    ⟨hflow, hids, fun e => ⟨fun he => ?_, ?_⟩, fun q t hq hd => ?_, fun e he => ?_, fun q t hq => ?_⟩,
    ⟨h.numbers.nodup, h.numbers.bound, h.numbers.fresh, h.numbers.returned⟩⟩
  · unfold State.intrLoop
    rw [if_pos hne, ← hentry]
    change (if s.infoStatus r.idx0 ≠ 0 then _ else if s.infoBuf r.idx0 = 0 then _ else
      Except.ok {s with disk := update s.disk (s.infoBuf r.idx0) false, rings := s.rings.see r.entry}) = _
    rw [if_neg (not_not.mpr hstatus), hbuf, if_neg hb]
  · obtain ⟨q, t, hq, rfl, hd⟩ := h.traffic.of_mem (hperm.mem_iff.mpr (List.mem_cons_of_mem _ he))
    grind
  · rintro ⟨q, t, hq, rfl, hd⟩
    have hbt : t.b ≠ r.b := by
      grind
    have hd : s.disk t.b = true := (update_of_ne hbt ..).symm.trans hd
    rcases List.mem_cons.mp (hperm.mem_iff.mp ((h.traffic.tokens t.entry).mpr ⟨q, t, hq, rfl, hd⟩)) with heq | hmem
    · have hid : t.idx0 = r.idx0 := congrArg Entry.id heq
      obtain rfl := h.layout.chains.eq_of_mem (Pc.request_of_written (Pc.written_of_sent hq)) hreq (Chains.idx0_mem t)
        (hid ▸ Chains.idx0_mem r)
      cases hq.symm.trans hsent
      exact absurd rfl hbt
    · exact hmem
  · by_cases hbt : t.b = r.b
    · obtain ⟨-, rfl⟩ := hsame q t hq hbt
      exact List.mem_append_right _ (List.mem_singleton_self _)
    · exact List.mem_append_left _ (h.traffic.handled q t hq ((update_of_ne hbt ..).symm.trans hd))
  · exact h.traffic.status e (by rw [hunread]; exact List.mem_cons_of_mem _ he)
  · cases hlock.symm.trans (h.owners.lock q (Pc.hasLock_of_staged hq))

theorem intrLoop (hlock : s.lock = some .intr) :
    ∃ s' unread', s.intrLoop = .ok s' ∧ Inv s' queue unread' := by
  by_cases hne : s.rings.seenIdx = s.rings.usedIdx
  · refine ⟨_, unread, if_neg (not_not.mpr hne), h.locks ⟨fun q hq => ?_, h.owners.buffer, h.owners.null⟩⟩
    cases hlock.symm.trans (h.owners.lock q hq)
  grind [Inv.see]

/-! ### The disk -/

theorem device {g : Rings} {queue' unread' : List Entry} {status : ℕ → ℕ}
    (hflow : Flow g queue' unread') (hperm : (tokens g queue' unread').Perm (tokens s.rings queue unread))
    (hstatus : ∀ e ∈ unread', status e.id = 0) (hring : g.availRing = s.rings.availRing)
    (hidx : g.availIdx = s.rings.availIdx) (hhandled : g.handled = s.rings.handled)
    (hpublished : g.published = s.rings.published) (hfinished : s.rings.finished ⊆ g.finished) :
    Inv {s with rings := g, infoStatus := status} queue' unread' := by
  refine ⟨⟨h.owners.lock, h.owners.buffer, h.owners.null⟩,
    h.layout.congr (fun _ => rfl) (fun _ => rfl) (fun _ => rfl) (fun _ _ _ _ _ => rfl) (fun _ _ _ => rfl),
    ⟨hflow, (hperm.map Entry.id).nodup_iff.mpr h.traffic.ids, fun e => hperm.mem_iff.trans (h.traffic.tokens e),
      fun q t hq hd => hhandled ▸ h.traffic.handled q t hq hd, hstatus, fun q t hq => ?_⟩,
    ⟨hpublished ▸ h.numbers.nodup, hpublished ▸ h.numbers.bound, fun q t hq hs => ?_, fun n hn => ?_⟩⟩
  · dsimp only
    rw [hring, hidx]
    exact h.traffic.staged q t hq
  · dsimp only
    rw [hpublished]
    exact h.numbers.fresh q t hq hs
  · exact List.map_subset _ hfinished (h.numbers.returned n hn)

theorem take : ∃ queue', Inv {s with rings := s.rings.take} queue' unread := by
  obtain ⟨queue', hflow, hperm⟩ := h.traffic.flow.take
  have hsame : s.rings.take.availRing = s.rings.availRing ∧ s.rings.take.availIdx = s.rings.availIdx ∧
      s.rings.take.handled = s.rings.handled ∧ s.rings.take.published = s.rings.published ∧
      s.rings.take.finished = s.rings.finished := by
    unfold Rings.take
    split <;> exact ⟨rfl, rfl, rfl, rfl, rfl⟩
  obtain ⟨hring, hidx, hhandled, hpublished, hfinished⟩ := hsame
  exact ⟨queue', h.device hflow hperm h.traffic.status hring hidx hhandled hpublished (hfinished ▸ List.Subset.refl _)⟩

theorem statusAddr_eq (he : e ∈ tokens s.rings queue unread) :
    s.statusAddr e.id = .status e.id := by
  obtain ⟨p, r, hsent, rfl, -⟩ := h.traffic.of_mem he
  obtain ⟨⟨h0, ⟨write, h1⟩, h2⟩, -⟩ := h.layout.written p r (Pc.written_of_sent hsent)
  have h0 : (s.desc r.idx0).next = r.idx1 := by rw [h0]; rfl
  have h1 : (s.desc r.idx1).next = r.idx2 := by rw [h1]; rfl
  change (s.desc (s.desc (s.desc r.idx0).next).next).addr = .status r.idx0
  rw [h0, h1, h2]
  rfl

theorem complete (he : e ∈ s.rings.pending) : Inv (s.complete e) queue (unread ++ [e]) := by
  have hmem : e ∈ tokens s.rings queue unread := by simp [tokens, he]
  have hroom : unread.length < num := by
    grind [Inv.length_le, tokens, List.length_append]
  obtain ⟨hflow, hperm⟩ := h.traffic.flow.complete hroom he
  have hstep : s.complete e =
      {s with rings := s.rings.complete e, infoStatus := update s.infoStatus e.id 0} := by
    unfold State.complete
    rw [h.statusAddr_eq hmem]
    rfl
  rw [hstep]
  refine h.device hflow hperm (fun d hd => ?_) rfl rfl rfl rfl (List.subset_append_left ..)
  by_cases hde : d.id = e.id
  · rw [hde, update_self]
  · rw [update_of_ne hde]
    rcases List.mem_append.mp hd with hd | hd
    · exact h.traffic.status d hd
    · exact absurd (congrArg Entry.id (List.mem_singleton.mp hd)) hde

end

end Inv

end Xv6.Virtio
