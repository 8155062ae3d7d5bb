import Xv6.Console.Model
import Xv6.Queue.Ring

/-! The line editor that the console is.

An `Editor` has no indices: there is the text committed so far, how much of it has been read,
and the line that is being typed. `Shows s a` says that the ring holds what the editor has not
yet given to readers. The handler keeps that (`Shows.consoleintr`), and a reader gets the same
bytes from both (`Shows.readLoop`). -/
namespace Xv6.Console

/-- The reference. -/
structure Editor where
  /-- Everything committed so far. -/
  text : List UInt8
  /-- How much of it has been read. -/
  read : ℕ
  /-- What is typed and not committed. -/
  pending : List UInt8
  echo : List ℕ
  deriving DecidableEq

namespace Editor

def start : Editor := ⟨[], 0, [], []⟩

def unread (a : Editor) : List UInt8 := a.text.drop a.read

def buffered (a : Editor) : ℕ := a.unread.length + a.pending.length

def type (a : Editor) (c : UInt8) : Editor :=
  {a with pending := a.pending ++ [c], echo := a.echo ++ [c.toNat]}

def commit (a : Editor) : Editor := {a with text := a.text ++ a.pending, pending := []}

def erase (a : Editor) (n : ℕ) : Editor :=
  {a with
    pending := a.pending.take (a.pending.length - n)
    echo := a.echo ++ List.replicate (min n a.pending.length) backspace}

def intr (c : UInt8) (a : Editor) : Editor :=
  if c = 0 ∨ c = control 'P' then a
  else if c = control 'U' then a.erase a.pending.length
  else if c = control 'H' ∨ c = delete then a.erase 1
  else if inputBufSize ≤ a.buffered then a
  else
    let c := if c = carriageReturn then newline else c
    let a := a.type c
    if c = newline ∨ c = control 'D' ∨ a.buffered = inputBufSize then a.commit else a

/-- Reads up to `n` bytes: to the end of a line at most, and not past `^D`, which only a read
that has got nothing takes. -/
def readLine (killed : Bool) (target : ℕ) : ℕ → Editor → List UInt8 × Editor × Turn
  | 0, a => ([], a, .returns target false)
  | n + 1, a =>
    match a.unread with
    | [] => ([], a, if killed then .returns (-1) false else .sleeps (n + 1))
    | c :: _ =>
      let next := {a with read := a.read + 1}
      if c = control 'D' then
        if n + 1 < target then ([], a, .returns (target - (n + 1)) false)
        else ([], next, .returns (target - (n + 1)) true)
      else if c = newline then ([c], next, .returns (target - n) false)
      else
        let (cs, a, turn) := readLine killed target n next
        (c :: cs, a, turn)

end Editor

def editor : Device Editor := ⟨fun c a => .ok (a.intr c), Editor.readLine⟩

/-! ### The ring shows the editor -/

/-- The ring holds what is not read yet, and the line. -/
structure Shows (s : Cons) (a : Editor) : Prop where
  ring : Queue.Ring inputBufSize (2 ^ 32) s.buf s.r s.e (a.text.take a.read) (a.unread ++ a.pending)
  write : s.w = a.text.length % 2 ^ 32
  read : a.read ≤ a.text.length
  line : newline ∉ a.pending
  echo : s.echo = a.echo

variable {s s' : Cons} {a : Editor} {c : UInt8} {killed : Bool} {n target : ℕ}

theorem Editor.length_text (h : a.read ≤ a.text.length) :
    (a.text.take a.read).length + a.unread.length = a.text.length := by
  unfold Editor.unread
  grind

namespace Shows

theorem start (buf : ℕ → UInt8) : Shows ⟨buf, 0, 0, 0, []⟩ .start :=
  ⟨.nil buf, rfl, le_rfl, List.not_mem_nil, rfl⟩

section
variable (h : Shows s a)
include h

theorem buffered_le : a.buffered ≤ inputBufSize := by
  have hbound := h.ring.bound
  rwa [List.length_append] at hbound

theorem edit_eq : s.e = (a.text.length + a.pending.length) % 2 ^ 32 := by
  rw [h.ring.nwrite, List.length_append, ← Nat.add_assoc, Editor.length_text h.read]

theorem edit_eq_write : s.e = s.w ↔ a.pending = [] := by
  have hbound := h.buffered_le
  grind [Shows.edit_eq, Shows.write, List.length_eq_zero_iff, Editor.buffered, inputBufSize]

theorem read_eq_write : s.r = s.w ↔ a.unread = [] := by
  have hbound := h.buffered_le
  have hlen := Editor.length_text h.read
  have hzero : (a.text.take a.read).length % 2 ^ 32 = ((a.text.take a.read).length + 0) % 2 ^ 32 := rfl
  unfold Editor.buffered inputBufSize at hbound
  rw [h.ring.nread, h.write, ← hlen, hzero, Queue.Ring.mod_eq_iff (by decide) (by omega), eq_comm,
    List.length_eq_zero_iff]

theorem read_lt : s.r < 2 ^ 32 := by
  rw [h.ring.nread]
  exact Nat.mod_lt _ (by decide)

theorem edit_sub_read : uint32 (s.e - s.r) = a.buffered := by
  rw [uint32_sub h.read_lt.le, h.ring.length_eq (by decide), List.length_append]
  rfl

theorem write_sub_read : uint32 (s.w - s.r) = a.unread.length := by
  have hbound := h.buffered_le
  have hlen := Editor.length_text h.read
  unfold Editor.buffered inputBufSize at hbound
  rw [uint32_sub h.read_lt.le, h.write, h.ring.nread, ← hlen]
  omega

/-! ### Editing -/

theorem erase (hne : a.pending ≠ []) :
    Shows s.erase (a.erase 1) ∧ s.buf (uint32 (s.e - 1) % inputBufSize) ≠ newline := by
  obtain ⟨line, b, hline⟩ := (List.eq_nil_or_concat a.pending).resolve_left hne
  have hring := h.ring
  rw [hline, List.concat_eq_append, ← List.append_assoc] at hring
  have hpred : uint32 (s.e - 1) = (s.e + (2 ^ 32 - 1)) % 2 ^ 32 := uint32_sub (b := 1) (by decide)
  have hpending : (a.erase 1).pending = line := by
    simp [Editor.erase, hline]
  refine ⟨⟨?_, h.write, h.read, ?_, ?_⟩, ?_⟩
  · rw [hpending]
    have hback := hring.unpush (by decide)
    rw [← hpred] at hback
    exact hback
  · grind [Shows.line]
  · show s.echo ++ [backspace] = a.echo ++ List.replicate (min 1 a.pending.length) backspace
    grind [Shows.echo]
  · rw [hpred, hring.last (by decide) (by decide)]
    grind [Shows.line]

end

theorem erase_nil (h : a.pending = []) : a.erase n = a := by
  cases a
  simp_all [Editor.erase]

theorem erase_erase (a : Editor) (hne : a.pending ≠ []) :
    (a.erase 1).erase (a.erase 1).pending.length = a.erase a.pending.length := by
  have hpos := List.length_pos_iff.mpr hne
  have hlen : min (a.pending.length - 1) a.pending.length = a.pending.length - 1 := by omega
  simp only [Editor.erase, List.length_take, hlen, Nat.sub_self, List.take_zero, min_self]
  rw [List.append_assoc, ← List.replicate_add, show min 1 a.pending.length + (a.pending.length - 1) =
    a.pending.length by omega]

theorem killLoop (fuel : ℕ) (h : Shows s a) (hfuel : a.pending.length < fuel) :
    ∃ s', killLoop fuel s = .ok s' ∧ Shows s' (a.erase a.pending.length) := by
  induction fuel generalizing s a with
  | zero => exact absurd hfuel (Nat.not_lt_zero _)
  | succ fuel ih =>
    unfold Console.killLoop
    by_cases hempty : a.pending = []
    · grind [Shows.edit_eq_write, Shows.erase_nil]
    · obtain ⟨herase, hlast⟩ := h.erase hempty
      rw [if_pos ⟨fun heq => hempty (h.edit_eq_write.mp heq), hlast⟩, ← erase_erase a hempty]
      refine ih herase ?_
      have hpos := List.length_pos_iff.mpr hempty
      simp only [Editor.erase, List.length_take]
      omega

section
variable (h : Shows s a)
include h

section
variable (hroom : a.buffered < inputBufSize)
include hroom

theorem put (c : UInt8) :
    Queue.Ring inputBufSize (2 ^ 32) (s.put c).buf (s.put c).r (s.put c).e (a.text.take a.read)
      (a.unread ++ (a.type c).pending) := by
  have hlen : (a.unread ++ a.pending).length < inputBufSize := by
    rw [List.length_append]
    exact hroom
  have hsucc : uint32 (s.e + 1) = (s.e + 1) % 2 ^ 32 := uint32_natCast (s.e + 1)
  have hpush := h.ring.push (by decide) hlen c
  rw [← hsucc, List.append_assoc] at hpush
  exact hpush

theorem type (hc : c ≠ newline) : Shows (s.put c) (a.type c) := by
  refine ⟨h.put hroom c, h.write, h.read, fun hmem => ?_, ?_⟩
  · rcases List.mem_append.mp hmem with hmem | hmem
    · exact h.line hmem
    · exact hc (List.mem_singleton.mp hmem).symm
  · show s.echo ++ _ = a.echo ++ _
    rw [h.echo]

theorem type_commit (c : UInt8) : Shows {s.put c with w := (s.put c).e} (a.type c).commit := by
  have htake : (a.text ++ (a.type c).pending).take a.read = a.text.take a.read :=
    List.take_append_of_le_length h.read
  have hdrop : (a.text ++ (a.type c).pending).drop a.read = a.unread ++ (a.type c).pending :=
    List.drop_append_of_le_length h.read
  have hring := h.put hroom c
  refine ⟨?_, ?_, ?_, List.not_mem_nil, ?_⟩
  · show Queue.Ring _ _ _ _ _ ((a.text ++ (a.type c).pending).take a.read)
      ((a.text ++ (a.type c).pending).drop a.read ++ [])
    grind
  · show (s.put c).e = (a.text ++ (a.type c).pending).length % 2 ^ 32
    rw [hring.nwrite, List.length_append, ← Nat.add_assoc, Editor.length_text h.read, List.length_append]
  · show a.read ≤ (a.text ++ (a.type c).pending).length
    grind [Shows.read, List.length_append]
  · show s.echo ++ _ = a.echo ++ _
    rw [h.echo]

theorem put_full (c : UInt8) : uint32 ((s.put c).e - (s.put c).r) = (a.type c).buffered := by
  have hring := h.put hroom c
  have hlt : (s.put c).r ≤ 2 ^ 32 := h.read_lt.le
  rw [uint32_sub hlt, hring.length_eq (by decide), List.length_append]
  rfl

end

theorem consoleintr (c : UInt8) : ∃ s', consoleintr c s = .ok s' ∧ Shows s' (a.intr c) := by
  unfold Console.consoleintr Editor.intr
  by_cases hp : c = control 'P'
  · rw [if_pos hp, if_pos (.inr hp)]
    exact ⟨s, rfl, h⟩
  rw [if_neg hp]
  by_cases h0 : c = 0
  · -- NUL is none of the characters of the `switch`.
    rw [h0, if_neg (by decide), if_neg (by decide), if_neg fun hc => hc.1 rfl, if_pos (.inl rfl)]
    exact ⟨s, rfl, h⟩
  rw [if_neg (not_or.mpr ⟨h0, hp⟩)]
  by_cases hu : c = control 'U'
  · rw [if_pos hu, if_pos hu]
    have hle := h.buffered_le
    refine h.killLoop loopFuel ?_
    unfold Editor.buffered inputBufSize at hle
    unfold loopFuel
    omega
  rw [if_neg hu, if_neg hu]
  by_cases hh : c = control 'H' ∨ c = delete
  · rw [if_pos hh, if_pos hh]
    by_cases hempty : a.pending = []
    · rw [if_neg (not_not.mpr (h.edit_eq_write.mpr hempty))]
      grind [Shows.erase_nil]
    · rw [if_pos fun heq => hempty (h.edit_eq_write.mp heq)]
      exact ⟨_, rfl, (h.erase hempty).1⟩
  rw [if_neg hh, if_neg hh, h.edit_sub_read]
  by_cases hroom : a.buffered < inputBufSize
  · rw [if_pos ⟨h0, hroom⟩, if_neg hroom.not_ge]
    dsimp only
    generalize (if c = carriageReturn then newline else c) = d
    rw [h.put_full hroom d]
    by_cases hd : d = newline ∨ d = control 'D' ∨ (a.type d).buffered = inputBufSize
    · rw [if_pos hd, if_pos hd]
      exact ⟨_, rfl, h.type_commit hroom d⟩
    · rw [if_neg hd, if_neg hd]
      exact ⟨_, rfl, h.type hroom fun hc => hd (.inl hc)⟩
  grind

/-! ### Reading -/

theorem take {cs : List UInt8} (hunread : a.unread = c :: cs) : s.buf (s.r % inputBufSize) = c ∧
      Shows {s with r := uint32 (s.r + 1)} {a with read := a.read + 1} := by
  have hring := h.ring
  rw [hunread, List.cons_append] at hring
  refine ⟨hring.head (by decide), ?_⟩
  have hlt : a.read < a.text.length := by
    have hlen : a.unread.length = a.text.length - a.read := List.length_drop
    grind
  have hget : a.text[a.read] = c ∧ a.text.drop (a.read + 1) = cs := by
    have hcons := List.drop_eq_getElem_cons hlt
    exact List.cons.inj (hcons.symm.trans hunread)
  have hsucc : uint32 (s.r + 1) = (s.r + 1) % 2 ^ 32 := uint32_natCast (s.r + 1)
  refine ⟨?_, h.write, hlt, h.line, h.echo⟩
  have hpop := hring.pop
  rw [← hsucc] at hpop
  show Queue.Ring _ _ _ _ _ (a.text.take (a.read + 1)) (a.text.drop (a.read + 1) ++ a.pending)
  grind [List.take_succ_eq_append_getElem]

theorem readLoop (killed : Bool) (target n : ℕ) :
    ∃ bytes s' a' turn, readLoop killed target n s = (bytes, s', turn) ∧
      a.readLine killed target n = (bytes, a', turn) ∧ Shows s' a' := by
  induction n generalizing s a with
  | zero => exact ⟨_, _, _, _, rfl, rfl, h⟩
  | succ n ih =>
    unfold Console.readLoop Editor.readLine
    cases hunread : a.unread with
    | nil =>
      rw [if_pos (h.read_eq_write.mpr hunread)]
      exact ⟨_, _, _, _, rfl, rfl, h⟩
    | cons c cs =>
      have hne : s.r ≠ s.w := fun heq => by
        rw [h.read_eq_write.mp heq] at hunread
        cases hunread
      obtain ⟨hget, hnext⟩ := h.take hunread
      rw [if_neg hne, hget]
      dsimp only
      by_cases hd : c = control 'D'
      · rw [if_pos hd, if_pos hd]
        by_cases hlt : n + 1 < target
        · rw [if_pos hlt, if_pos hlt]
          have hback : uint32 ((uint32 (s.r + 1) : ℕ) - 1) = s.r := by
            have := h.read_lt
            unfold uint32
            omega
          refine ⟨_, _, _, _, rfl, rfl, ?_⟩
          rw [hback]
          exact h
        · rw [if_neg hlt, if_neg hlt]
          exact ⟨_, _, _, _, rfl, rfl, hnext⟩
      grind

end

end Shows

end Xv6.Console
