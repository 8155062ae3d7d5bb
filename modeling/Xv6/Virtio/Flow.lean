import Mathlib.Data.List.Perm.Basic
import Xv6.Queue.Ring
import Xv6.Virtio.Model

/-! The way of an entry through the rings.

An entry is in `avail` until the disk takes it, pending until the disk finishes it, and in `used`
until the driver has seen it (`tokens`). The rings hold what is between the two sides however
often their indices have wrapped around, as long as they are not full (`Flow`). -/
namespace Xv6.Virtio

open Queue (Ring)
open scoped List

variable {g : Rings} {queue unread : List Entry} {e : Entry}

structure Flow (g : Rings) (queue unread : List Entry) : Prop where
  avail : Ring num (2 ^ 16) g.availRing g.deviceIdx g.availIdx g.taken queue
  used : Ring num (2 ^ 16) g.usedRing g.seenIdx g.usedIdx g.handled unread
  published : g.published = g.taken ++ queue
  finished : g.finished = g.handled ++ unread
  taken : g.taken.Perm (g.finished ++ g.pending)

def tokens (g : Rings) (queue unread : List Entry) : List Entry := queue ++ g.pending ++ unread

theorem num_dvd : num ∣ 2 ^ 16 := by decide

theorem num_lt : num < 2 ^ 16 := by decide

namespace Flow

theorem init : Flow .init [] [] := ⟨.nil _, .nil _, rfl, rfl, .refl _⟩

section
variable (h : Flow g queue unread)
include h

theorem stage (hroom : queue.length < num) (e : Entry) : Flow (g.stage e) queue unread :=
  ⟨h.avail.stage num_dvd hroom e, h.used, h.published, h.finished, h.taken⟩

theorem publish (hroom : queue.length < num) (he : g.availRing (g.availIdx % num) = e) :
    Flow (g.publish e) (queue ++ [e]) unread ∧
      (tokens (g.publish e) (queue ++ [e]) unread).Perm (e :: tokens g queue unread) := by
  refine ⟨⟨h.avail.publish num_dvd hroom he, h.used, ?_, h.finished, h.taken⟩, ?_⟩
  · change g.published ++ [e] = g.taken ++ (queue ++ [e])
    rw [h.published, List.append_assoc]
  · change (queue ++ [e] ++ g.pending ++ unread).Perm (e :: (queue ++ g.pending ++ unread))
    simp

theorem take :
    ∃ queue', Flow g.take queue' unread ∧ (tokens g.take queue' unread).Perm (tokens g queue unread) := by
  unfold Rings.take
  by_cases hempty : g.deviceIdx = g.availIdx
  · grind
  rw [if_pos hempty]
  cases queue with
  | nil => exact absurd ((h.avail.empty_iff num_lt).mpr rfl) hempty
  | cons e queue =>
    have he := h.avail.head num_dvd
    rw [he]
    refine ⟨queue, ⟨h.avail.pop, h.used, ?_, h.finished, ?_⟩, ?_⟩
    · grind [Flow.published, List.append_assoc]
    · grind [Flow.taken, List.append_assoc]
    · change (queue ++ e :: g.pending ++ unread).Perm (e :: queue ++ g.pending ++ unread)
      exact List.perm_middle.append_right unread

theorem complete (hroom : unread.length < num) (he : e ∈ g.pending) :
    Flow (g.complete e) queue (unread ++ [e]) ∧
      (tokens (g.complete e) queue (unread ++ [e])).Perm (tokens g queue unread) := by
  have hperm := List.perm_cons_erase he
  refine ⟨⟨h.avail, h.used.push num_dvd hroom e, h.published, ?_, ?_⟩, ?_⟩
  · change g.finished ++ [e] = g.handled ++ (unread ++ [e])
    rw [h.finished, List.append_assoc]
  · change g.taken.Perm (g.finished ++ [e] ++ g.pending.erase e)
    grind [Flow.taken, List.append_assoc]
  · change (queue ++ g.pending.erase e ++ (unread ++ [e])).Perm (queue ++ g.pending ++ unread)
    rw [List.append_assoc, List.append_assoc]
    refine List.Perm.append_left queue ?_
    calc g.pending.erase e ++ (unread ++ [e])
        = g.pending.erase e ++ unread ++ [e] := (List.append_assoc ..).symm
      _ ~ e :: (g.pending.erase e ++ unread) := List.perm_append_singleton ..
      _ ~ g.pending ++ unread := hperm.symm.append_right unread

theorem see (hne : g.seenIdx ≠ g.usedIdx) :
    ∃ rest, unread = g.usedRing (g.seenIdx % num) :: rest ∧ Flow (g.see (g.usedRing (g.seenIdx % num))) queue rest := by
  cases unread with
  | nil => exact absurd ((h.used.empty_iff num_lt).mpr rfl) hne
  | cons e rest =>
    have he := h.used.head num_dvd
    rw [he]
    refine ⟨rest, rfl, h.avail, h.used.pop, h.published, ?_, h.taken⟩
    change g.finished = g.handled ++ [e] ++ rest
    rw [h.finished, List.append_assoc]
    rfl

end

end Flow

end Xv6.Virtio
