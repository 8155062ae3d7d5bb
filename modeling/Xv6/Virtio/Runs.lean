import Xv6.Virtio.Steps

/-! What holds in every run of processes, interrupt handler and disk. -/
namespace Xv6.Virtio

open Function (update)

variable {s s' : State} {queue unread : List Entry} {c : Call}

namespace Inv

theorem go {p : ℕ} (h : Inv s queue unread) (hp : (s.pc p).hasLock = true) :
    ∃ s' queue', s.go p = .ok s' ∧ Inv s' queue' unread := by
  unfold State.go
  cases hpc : s.pc p with
  | idle | entering | sleeping =>
    rw [hpc] at hp
    cases hp
  | allocating b write =>
    grind [Inv.alloc]
  | formatting r write => exact ⟨_, queue, rfl, h.format hpc⟩
  | publishing r =>
    grind [Inv.publish]
  | waiting r =>
    grind [Inv.test]

theorem step (h : Inv s queue unread) (hc : allowed s c) :
    ∃ s' queue' unread', Virtio.step s c = .ok s' ∧ Inv s' queue' unread' := by
  cases c with
  | lockBuf p b => exact ⟨_, queue, unread, rfl, h.lockBuf hc.1 hc.2.1⟩
  | unlockBuf p b => exact ⟨_, queue, unread, rfl, h.unlockBuf hc.1 hc.2⟩
  | virtioDiskRw p b write => exact ⟨_, queue, unread, rfl, h.virtioDiskRw hc.1 hc.2 write⟩
  | acquire p => exact ⟨_, queue, unread, rfl, h.acquire hc.1⟩
  | go p =>
    obtain ⟨s', queue', hcall, hinv⟩ := h.go hc
    exact ⟨s', queue', unread, hcall, hinv⟩
  | intr => exact ⟨_, queue, unread, rfl, h.intr hc⟩
  | goIntr =>
    obtain ⟨s', unread', hcall, hinv⟩ := h.intrLoop hc
    exact ⟨s', queue, unread', hcall, hinv⟩
  | take =>
    obtain ⟨queue', hinv⟩ := h.take
    exact ⟨_, queue', unread, rfl, hinv⟩
  | complete e => exact ⟨_, queue, unread ++ [e], rfl, h.complete hc⟩

/-- The handler marks a buffer as done only for a request that the disk has finished. -/
theorem intr_clears {b : ℕ} (h : Inv s queue unread) (hlock : s.lock = some .intr) (hcall : s.intrLoop = .ok s')
    (hbefore : s.disk b = true) (hafter : s'.disk b = false) :
    ∃ p r, (s.pc p).sent = some r ∧ r.b = b ∧ r.entry ∈ s.rings.finished := by
  by_cases hne : s.rings.seenIdx = s.rings.usedIdx
  · rw [State.intrLoop, if_neg (not_not.mpr hne)] at hcall
    cases hcall
    cases hbefore.symm.trans hafter
  obtain ⟨p, r, rest, hsent, -, hunread, hcall', -⟩ := h.see hlock hne
  cases hcall.symm.trans hcall'
  refine ⟨p, r, hsent, ?_, ?_⟩
  · grind
  · rw [h.traffic.flow.finished, hunread]
    exact List.mem_append_right _ List.mem_cons_self

end Inv

theorem init_inv (blockno : ℕ → ℕ) : Inv (init blockno) [] [] where
  owners := ⟨nofun, nofun, rfl⟩
  layout := by
    refine ⟨⟨nofun, nofun, nofun, fun i hi hfree => ?_⟩, nofun⟩
    exact absurd hi (of_decide_eq_false hfree)
  traffic := by
    refine ⟨.init, List.nodup_nil, fun e => ⟨nofun, ?_⟩, nofun, nofun, nofun⟩
    rintro ⟨p, r, hp, -⟩
    cases hp
  numbers := ⟨List.nodup_nil, nofun, nofun, nofun⟩

/-- Processes, handler and disk never panic, however their steps are interleaved. The chains of the
requests are apart and leave the other descriptors free; what the disk has not taken of the published
entries is in `avail`; it finishes each request once, and before the call returns; and the handler
marks the buffer of such a request. -/
theorem requests_are_served (blockno : ℕ → ℕ) (cs : List Call) (hp : driver.Proper (init blockno) cs) :
    ∃ s, driver.run (init blockno) cs = .ok s ∧
      (∀ p r, (s.pc p).request = some r → r.chain.Nodup ∧ ∀ i ∈ r.chain, i < num ∧ s.free i = false) ∧
      (∀ p q r t, (s.pc p).request = some r → (s.pc q).request = some t → p ≠ q → ∀ i ∈ r.chain, i ∉ t.chain) ∧
      ({p | (s.pc p).request.isSome}.Finite ∧
        ((Finset.range num).filter fun i => s.free i = true).card + 3 * {p | (s.pc p).request.isSome}.ncard = num) ∧
      (∃ queue, s.rings.published = s.rings.taken ++ queue ∧
        queue = (List.range queue.length).map fun k => s.rings.availRing ((s.rings.deviceIdx + k) % 2 ^ 16 % num)) ∧
      ((s.rings.published.map Entry.number).Nodup ∧ s.rings.taken.Perm (s.rings.finished ++ s.rings.pending)) ∧
      (∀ n ∈ s.returned, n ∈ s.rings.finished.map Entry.number) ∧
      ∀ s' b, s.lock = some .intr → s.intrLoop = .ok s' → s.disk b = true → s'.disk b = false →
        ∃ p r, (s.pc p).sent = some r ∧ r.b = b ∧ r.entry ∈ s.rings.finished := by
  obtain ⟨s, hrun, queue, unread, h⟩ := Protocol.run_invariant (P := driver) (I := fun s => ∃ queue unread, Inv s queue unread)
    (fun c _ s ⟨_, _, h⟩ hc => by
      obtain ⟨s', queue', unread', hstep, hinv⟩ := h.step hc
      exact ⟨s', hstep, queue', unread', hinv⟩) ⟨[], [], init_inv blockno⟩ hp
  have hchains := h.layout.chains
  exact ⟨s, hrun, fun p r hr => ⟨hchains.nodup p r hr, hchains.taken p r hr⟩, hchains.apart, hchains.count,
    ⟨queue, h.traffic.flow.published, h.traffic.flow.avail.contents num_dvd⟩,
    ⟨h.numbers.nodup, h.traffic.flow.taken⟩, h.numbers.returned,
    fun s' b hlock hcall hbefore hafter => h.intr_clears hlock hcall hbefore hafter⟩

instance (s : State) : ∀ c, Decidable (driver.allowed s c)
  | .lockBuf p b => inferInstanceAs (Decidable (b ≠ 0 ∧ s.locked b = none ∧ s.pc p = .idle))
  | .unlockBuf p b => inferInstanceAs (Decidable (s.locked b = some p ∧ s.pc p = .idle))
  | .virtioDiskRw p b _ => inferInstanceAs (Decidable (s.locked b = some p ∧ s.pc p = .idle))
  | .acquire p => inferInstanceAs (Decidable (s.lock = none ∧ (s.pc p).wantsLock = true))
  | .go p => inferInstanceAs (Decidable ((s.pc p).hasLock = true))
  | .intr => inferInstanceAs (Decidable (s.lock = none))
  | .goIntr => inferInstanceAs (Decidable (s.lock = some .intr))
  | .take => .isTrue trivial
  | .complete e => inferInstanceAs (Decidable (e ∈ s.rings.pending))

/-- A process sends a request and sleeps. -/
def sending (p b : ℕ) (write : Bool) : List Call :=
  [.lockBuf p b, .virtioDiskRw p b write, .acquire p, .go p, .go p, .go p, .go p]

/-- Three processes, of which the last waits for descriptors; the disk finishes the second request
before the first. -/
def crossing : List Call :=
  sending 1 10 true ++ sending 2 20 false ++ [.lockBuf 3 30, .virtioDiskRw 3 30 false, .acquire 3, .go 3] ++
    [.take, .take, .complete ⟨3, 1⟩, .intr, .goIntr, .goIntr, .complete ⟨0, 0⟩, .acquire 2, .go 2] ++
    [.intr, .goIntr, .goIntr, .acquire 3, .go 3, .go 3, .go 3, .go 3, .acquire 1, .go 1, .unlockBuf 1 10]

theorem requests_are_served_crossing : driver.Proper (init fun b => b) crossing ∧
    ∃ s, driver.run (init fun b => b) crossing = .ok s ∧
      (∀ p r, (s.pc p).request = some r → r.chain.Nodup ∧ ∀ i ∈ r.chain, i < num ∧ s.free i = false) ∧
      (∀ p q r t, (s.pc p).request = some r → (s.pc q).request = some t → p ≠ q → ∀ i ∈ r.chain, i ∉ t.chain) ∧
      ((s.rings.published.map Entry.number).Nodup ∧ s.rings.taken.Perm (s.rings.finished ++ s.rings.pending)) ∧
      ∀ n ∈ s.returned, n ∈ s.rings.finished.map Entry.number := by
  have hp : driver.Proper (init fun b => b) crossing := by decide +kernel
  obtain ⟨s, hrun, hchain, hapart, -, -, honce, hreturned, -⟩ := requests_are_served (fun b => b) crossing hp
  exact ⟨hp, s, hrun, hchain, hapart, honce, hreturned⟩

end Xv6.Virtio
