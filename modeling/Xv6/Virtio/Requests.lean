import Xv6.Virtio.Chains
import Xv6.Virtio.Flow

/-! What holds between the steps of the driver and the disk.

The locks keep processes apart (`Owners`), each request has a chain of its own, written as the
disk reads it (`Layout`), the entries on their way are those of the requests whose buffer the disk
owns (`Traffic`), and no number is used twice (`Numbers`). -/
namespace Xv6.Virtio

open Function (update)

variable {s s' : State} {queue unread : List Entry} {p q b : ℕ} {r t : Request} {e : Entry} {pc : Pc}

def Pc.request : Pc → Option Request
  | .formatting r _ | .publishing r | .waiting r | .sleeping r => some r
  | .idle | .entering _ _ | .allocating _ _ => none

def Pc.written : Pc → Option Request
  | .publishing r | .waiting r | .sleeping r => some r
  | .idle | .entering _ _ | .allocating _ _ | .formatting _ _ => none

def Pc.sent : Pc → Option Request
  | .waiting r | .sleeping r => some r
  | .idle | .entering _ _ | .allocating _ _ | .formatting _ _ | .publishing _ => none

def Pc.staged : Pc → Option Request
  | .publishing r => some r
  | .idle | .entering _ _ | .allocating _ _ | .formatting _ _ | .waiting _ | .sleeping _ => none

def Pc.buffer : Pc → Option ℕ
  | .entering b _ | .allocating b _ => some b
  | .formatting r _ | .publishing r | .waiting r | .sleeping r => some r.b
  | .idle => none

structure Owners (s : State) : Prop where
  lock : ∀ p, (s.pc p).hasLock = true → s.lock = some (.proc p)
  buffer : ∀ p b, (s.pc p).buffer = some b → s.locked b = some p
  null : s.locked 0 = none

structure Layout (s : State) : Prop where
  chains : Chains s.free fun p => (s.pc p).request
  written : ∀ p r, (s.pc p).written = some r → Written s r ∧ s.infoBuf r.idx0 = r.b

structure Traffic (s : State) (queue unread : List Entry) : Prop where
  flow : Flow s.rings queue unread
  ids : ((tokens s.rings queue unread).map Entry.id).Nodup
  tokens : ∀ e, e ∈ tokens s.rings queue unread ↔ ∃ p r, (s.pc p).sent = some r ∧ r.entry = e ∧ s.disk r.b = true
  handled : ∀ p r, (s.pc p).sent = some r → s.disk r.b = false → r.entry ∈ s.rings.handled
  status : ∀ e ∈ unread, s.infoStatus e.id = 0
  staged : ∀ p r, (s.pc p).staged = some r → s.rings.availRing (s.rings.availIdx % num) = r.entry ∧ s.disk r.b = true

structure Numbers (s : State) : Prop where
  nodup : (s.rings.published.map Entry.number).Nodup
  bound : ∀ e ∈ s.rings.published, e.number < s.count
  fresh : ∀ p r, (s.pc p).request = some r → (s.pc p).sent = none →
    r.number < s.count ∧ r.number ∉ s.rings.published.map Entry.number
  returned : ∀ n ∈ s.returned, n ∈ s.rings.finished.map Entry.number

structure Inv (s : State) (queue unread : List Entry) : Prop where
  owners : Owners s
  layout : Layout s
  traffic : Traffic s queue unread
  numbers : Numbers s

/-! ### Processes -/

theorem pc_goto (s : State) (p : ℕ) (pc : Pc) (q : ℕ) : (s.goto p pc).pc q = if q = p then pc else s.pc q := by
  by_cases hq : q = p
  · simp [State.goto, hq]
  · simp [State.goto, hq]

theorem same_goto {β : Type} (f : Pc → β) (h : f pc = f (s.pc p)) (q : ℕ) : f ((s.goto p pc).pc q) = f (s.pc q) := by
  grind [pc_goto]

theorem Pc.request_of_written (h : pc.written = some r) : pc.request = some r := by
  cases pc <;> first | exact h | cases h

theorem Pc.written_of_sent (h : pc.sent = some r) : pc.written = some r := by
  cases pc <;> first | exact h | cases h

theorem Pc.hasLock_of_staged (h : pc.staged = some r) : pc.hasLock = true := by
  cases pc <;> first | rfl | cases h

theorem Pc.hasLock_of_request (h : pc.request = some r) (hsent : pc.sent = none) : pc.hasLock = true := by
  cases pc with
  | idle | entering => cases h
  | sleeping => cases hsent
  | _ => rfl

theorem Pc.buffer_of_request (h : pc.request = some r) : pc.buffer = some r.b := by
  cases pc <;> first | (cases h; rfl) | cases h

namespace Owners

section
variable (h : Owners s)
include h

theorem eq_of_lock (hp : (s.pc p).hasLock = true) (hq : (s.pc q).hasLock = true) : p = q := by
  have heq := (h.lock p hp).symm.trans (h.lock q hq)
  cases heq
  rfl

theorem eq_of_buffer (hp : (s.pc p).buffer = some b) (hq : (s.pc q).buffer = some b) : p = q :=
  Option.some.inj ((h.buffer p b hp).symm.trans (h.buffer q b hq))

theorem eq_of_request (hp : (s.pc p).request = some r) (hq : (s.pc q).request = some t)
    (hb : r.b = t.b) : p = q :=
  h.eq_of_buffer (Pc.buffer_of_request hp) (hb ▸ Pc.buffer_of_request hq)

theorem buf_ne_zero (hp : (s.pc p).request = some r) : r.b ≠ 0 := by
  intro hb
  have hlocked := h.buffer p r.b (Pc.buffer_of_request hp)
  rw [hb, h.null] at hlocked
  cases hlocked

theorem goto (hbuffer : pc.buffer = (s.pc p).buffer ∨ pc.buffer = none)
    (hpc : ∀ q, s'.pc q = (s.goto p pc).pc q) (hlocked : s'.locked = s.locked)
    (hlock : ∀ q, (s'.pc q).hasLock = true → s'.lock = some (.proc q)) : Owners s' := by
  refine ⟨hlock, fun q b hq => ?_, hlocked ▸ h.null⟩
  rw [hpc, pc_goto] at hq
  rw [hlocked]
  grind [Owners.buffer]

theorem lock_goto (hp : (s.pc p).hasLock = true) (hpc : ∀ q, s'.pc q = (s.goto p pc).pc q)
    (hlock : pc.hasLock = true → s'.lock = s.lock) : ∀ q, (s'.pc q).hasLock = true → s'.lock = some (.proc q) := by
  intro q hq
  grind [pc_goto, Owners.lock, Owners.eq_of_lock]

end

end Owners

namespace Layout

theorem congr (h : Layout s) (hfree : ∀ i, s'.free i = s.free i) (hrequest : ∀ q, (s'.pc q).request = (s.pc q).request)
    (hwritten : ∀ q, (s'.pc q).written = (s.pc q).written)
    (hdesc : ∀ q r, (s.pc q).written = some r → ∀ i ∈ r.chain, s'.desc i = s.desc i)
    (hinfo : ∀ q r, (s.pc q).written = some r → s'.infoBuf r.idx0 = s.infoBuf r.idx0) : Layout s' where
  chains := h.chains.congr hfree hrequest
  written q r hq := by
    rw [hwritten] at hq
    obtain ⟨hw, hbuf⟩ := h.written q r hq
    exact ⟨hw.congr (hdesc q r hq), (hinfo q r hq).trans hbuf⟩

/-- A process does something with its own chain and its own `info`: the others keep theirs. -/
theorem other (h : Layout s) (hp : (s.pc p).request = some r) (hqp : q ≠ p) (hq : (s.pc q).written = some t)
    (hdesc : ∀ i ∉ r.chain, s'.desc i = s.desc i) (hinfo : ∀ i ≠ r.idx0, s'.infoBuf i = s.infoBuf i) :
    Written s' t ∧ s'.infoBuf t.idx0 = t.b := by
  have hapart := h.chains.apart q p t r (Pc.request_of_written hq) hp hqp
  obtain ⟨hw, hbuf⟩ := h.written q t hq
  grind [Written.congr, Chains.idx0_mem]

end Layout

namespace Traffic

theorem congr (h : Traffic s queue unread) (hrings : s'.rings = s.rings) (hsent : ∀ q, (s'.pc q).sent = (s.pc q).sent)
    (hstaged : ∀ q, (s'.pc q).staged = (s.pc q).staged) (hdisk : s'.disk = s.disk)
    (hstatus : s'.infoStatus = s.infoStatus) : Traffic s' queue unread where
  flow := hrings ▸ h.flow
  ids := hrings ▸ h.ids
  tokens e := by
    simp only [hrings, hsent, hdisk]
    exact h.tokens e
  handled q r hq hd := by
    grind [Traffic.handled]
  status e he := by
    rw [hstatus]
    exact h.status e he
  staged q r hq := by
    grind [Traffic.staged]

theorem of_mem (h : Traffic s queue unread) (he : e ∈ Virtio.tokens s.rings queue unread) :
    ∃ p r, (s.pc p).sent = some r ∧ r.entry = e ∧ s.disk r.b = true := (h.tokens e).mp he

end Traffic

theorem Numbers.congr (h : Numbers s) (hrings : s'.rings = s.rings) (hcount : s'.count = s.count)
    (hsent : ∀ q, (s'.pc q).sent = (s.pc q).sent) (hrequest : ∀ q, (s'.pc q).request = (s.pc q).request)
    (hreturned : s'.returned = s.returned) : Numbers s' where
  nodup := hrings ▸ h.nodup
  bound := by
    rw [hrings, hcount]
    exact h.bound
  fresh q r hq hs := by
    rw [hrequest] at hq
    rw [hsent] at hs
    rw [hrings, hcount]
    exact h.fresh q r hq hs
  returned := by
    rw [hrings, hreturned]
    exact h.returned

end Xv6.Virtio
