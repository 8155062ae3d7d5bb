import Xv6.Console.Editor

/-! What readers of the console get, over whole runs.

The readers of the console and those of the reference editor cannot be told apart
(`Alike.run`). Their bytes are the text of the editor in order, without `^D` (`Faithful`), and
no read gets more than the rest of a line (`Return.WithinLine`). -/
namespace Xv6.Console
open Function
open List (append_nil length_cons length_append not_mem_nil mem_append)

variable {w : World Cons} {v : World Editor} {s : Cons} {a : Editor} {killed : Bool}
  {n target p : ℕ} {got : List UInt8}

/-! ### Steps -/

namespace World

variable {σ : Type} {D : Device σ}

/-- What one step can do. -/
inductive Moves (D : Device σ) (w : World σ) : World σ → Prop where
  | intr (c : UInt8) {s : σ} (h : D.intr c w.console = .ok s) : Moves D w {w with console := s}
  | read (p n : ℕ) : Moves D w (w.turn D p n n [])
  | wake {p target n : ℕ} {got : List UInt8} (h : w.readers p = .sleeping target n got) :
    Moves D w (w.turn D p target n got)
  | kill (killed : ℕ → Bool) : Moves D w {w with killed := killed}
  | stay : Moves D w w

theorem step_moves {w w' : World σ} {c : Call} (h : w.step D c = .ok w') : w.Moves D w' := by
  cases c with
  | intr c =>
    unfold step at h
    dsimp only at h
    cases hs : D.intr c w.console with
    | error e =>
      rw [hs] at h
      cases h
    | ok s =>
      rw [hs] at h
      cases h
      exact .intr c hs
  | read p n =>
    unfold step at h
    dsimp only at h
    split at h <;> cases h
    · exact .read p n.toNat
    · exact .stay
  | wake p =>
    unfold step at h
    dsimp only at h
    split at h <;> cases h
    · exact .stay
    · rename_i hp
      exact .wake hp
  | kill p =>
    cases h
    exact .kill _

theorem run_moves {I : World σ → Prop} (hI : ∀ {w w'}, I w → w.Moves D w' → I w') {w w' : World σ}
    (h : I w) {cs : List Call} (hrun : (calls D).run w cs = .ok w') : I w' := by
  have hinv := Protocol.run_outcome (P := calls D) (E := fun _ => True) (I := I) (s := w)
    (fun c _ s hs _ => ?_) h (Protocol.proper_of_forall (fun _ _ => trivial) w cs)
  · exact hinv.of_ok hrun
  · show Outcome _ (s.step D c) I
    cases hstep : s.step D c with
    | error e => trivial
    | ok s' => exact hI hs (step_moves hstep)

end World

/-! ### The console and the editor -/

/-- The same readers, with a console that shows the editor. -/
structure Alike (w : World Cons) (v : World Editor) : Prop where
  console : Shows w.console v.console
  readers : w.readers = v.readers
  killed : w.killed = v.killed
  delivered : w.delivered = v.delivered
  returned : w.returned = v.returned

namespace Alike

theorem turn (h : Alike w v) (p target n : ℕ) (got : List UInt8) :
    Alike (w.turn ring p target n got) (v.turn editor p target n got) := by
  obtain ⟨bytes, s', a', turn, hs', ha', hshows⟩ := h.console.readLoop (v.killed p) target n
  have hring : ring.read (w.killed p) target n w.console = (bytes, s', turn) := h.killed ▸ hs'
  have heditor : editor.read (v.killed p) target n v.console = (bytes, a', turn) := ha'
  unfold World.turn
  rw [hring, heditor, h.readers, h.delivered, h.returned]
  cases turn <;> exact ⟨hshows, rfl, h.killed, rfl, rfl⟩

theorem step (h : Alike w v) (c : Call) :
    ∃ w' v', w.step ring c = .ok w' ∧ v.step editor c = .ok v' ∧ Alike w' v' := by
  cases c with
  | intr c =>
    obtain ⟨s', hs', hshows⟩ := h.console.consoleintr c
    refine ⟨{w with console := s'}, {v with console := v.console.intr c}, ?_, rfl, hshows, h.readers,
      h.killed, h.delivered, h.returned⟩
    show (consoleintr c w.console >>= _) = _
    rw [hs']
    rfl
  | read p n =>
    unfold World.step
    dsimp only
    rw [h.readers]
    cases v.readers p with
    | idle => exact ⟨_, _, rfl, rfl, h.turn ..⟩
    | sleeping => exact ⟨w, v, rfl, rfl, h⟩
  | wake p =>
    unfold World.step
    dsimp only
    rw [h.readers]
    cases v.readers p with
    | idle => exact ⟨w, v, rfl, rfl, h⟩
    | sleeping => exact ⟨_, _, rfl, rfl, h.turn ..⟩
  | kill p =>
    refine ⟨_, _, rfl, rfl, h.console, h.readers, ?_, h.delivered, h.returned⟩
    show update w.killed p true = update v.killed p true
    rw [h.killed]

theorem run (h : Alike w v) (cs : List Call) :
    ∃ w' v', (calls ring).run w cs = .ok w' ∧ (calls editor).run v cs = .ok v' ∧ Alike w' v' := by
  induction cs generalizing w v with
  | nil => exact ⟨w, v, rfl, rfl, h⟩
  | cons c cs ih =>
    obtain ⟨w1, v1, hw1, hv1, h1⟩ := h.step c
    obtain ⟨w', v', hw', hv', h'⟩ := ih h1
    refine ⟨w', v', ?_, ?_, h'⟩
    · rw [Protocol.run_cons cs (P := calls ring) hw1, hw']
    · rw [Protocol.run_cons cs (P := calls editor) hv1, hv']

end Alike

/-! ### Every byte once, and in order -/

/-- What the readers have got is the text that has been read, without `^D`. Each `^D` of it has
been taken by a call of its own. -/
structure Faithful (v : World Editor) : Prop where
  read : v.console.read ≤ v.console.text.length
  bytes : v.delivered.map Prod.snd =
    (v.console.text.take v.console.read).filter (· ≠ control 'D')
  eofs : v.returned.countP (·.eof) = (v.console.text.take v.console.read).count (control 'D')

def Turn.eof : Turn → Bool
  | .returns _ eof => eof
  | .sleeps _ => false

theorem Editor.readLine_takes (h : a.read ≤ a.text.length) (killed : Bool) (target n : ℕ) :
    ∃ bytes a' turn taken, a.readLine killed target n = (bytes, a', turn) ∧ a'.text = a.text ∧
      a'.read ≤ a.text.length ∧ a.text.take a'.read = a.text.take a.read ++ taken ∧
      bytes = taken.filter (· ≠ control 'D') ∧ taken.count (control 'D') = turn.eof.toNat := by
  have hsame : a.text.take a.read = a.text.take a.read ++ [] := (append_nil _).symm
  induction n generalizing a with
  | zero => exact ⟨_, _, _, [], rfl, rfl, h, hsame, rfl, rfl⟩
  | succ n ih =>
    unfold Editor.readLine
    cases hunread : a.unread with
    | nil => exact ⟨_, _, _, [], rfl, rfl, h, hsame, rfl, by cases killed <;> rfl⟩
    | cons c cs =>
      have hlt : a.read < a.text.length := by
        have hlen : a.unread.length = a.text.length - a.read := List.length_drop
        rw [hunread, length_cons] at hlen
        omega
      have hget : a.text[a.read] = c := by
        have hcons := List.drop_eq_getElem_cons hlt
        exact (List.cons.inj (hcons.symm.trans hunread)).1
      have hnext : a.text.take (a.read + 1) = a.text.take a.read ++ [c] := by
        rw [List.take_succ_eq_append_getElem hlt, hget]
      dsimp only
      by_cases hd : c = control 'D'
      · rw [if_pos hd]
        by_cases hmore : n + 1 < target
        · rw [if_pos hmore]
          exact ⟨_, _, _, [], rfl, rfl, h, hsame, rfl, rfl⟩
        · rw [if_neg hmore]
          exact ⟨_, _, _, [c], rfl, rfl, hlt, hnext, by simp [hd], by simp [hd, Turn.eof]⟩
      · rw [if_neg hd]
        by_cases hl : c = newline
        · rw [if_pos hl]
          exact ⟨_, _, _, [c], rfl, rfl, hlt, hnext, by simp [hd], by simp [hd, Turn.eof]⟩
        · rw [if_neg hl]
          obtain ⟨bytes, a', turn, taken, heq, htext, hread, htake, hbytes, hcount⟩ :=
            ih (a := {a with read := a.read + 1}) hlt (append_nil _).symm
          rw [heq]
          refine ⟨_, _, _, c :: taken, rfl, htext, hread, ?_, by simp [hd, hbytes], by simp [hd, hcount]⟩
          rw [htake, hnext, List.append_assoc]
          rfl

theorem Editor.intr_text (a : Editor) (c : UInt8) :
    (a.intr c).read = a.read ∧ ∃ line, (a.intr c).text = a.text ++ line := by
  have hsame : ∃ line, a.text = a.text ++ line := ⟨[], (append_nil _).symm⟩
  unfold Editor.intr
  dsimp only
  split
  · exact ⟨rfl, hsame⟩
  split
  · exact ⟨rfl, hsame⟩
  split
  · exact ⟨rfl, hsame⟩
  split
  · exact ⟨rfl, hsame⟩
  generalize (if c = carriageReturn then newline else c) = d
  split
  · exact ⟨rfl, _, rfl⟩
  · exact ⟨rfl, hsame⟩

namespace Faithful

theorem turn (h : Faithful v) (p target n : ℕ) (got : List UInt8) :
    Faithful (v.turn editor p target n got) := by
  obtain ⟨bytes, a', turn, taken, heq, htext, hread, htake, hbytes, hcount⟩ :=
    Editor.readLine_takes h.read (v.killed p) target n
  have heditor : editor.read (v.killed p) target n v.console = (bytes, a', turn) := heq
  have hdelivered : (v.delivered ++ bytes.map (p, ·)).map Prod.snd =
      (a'.text.take a'.read).filter (· ≠ control 'D') := by
    rw [htext, htake, List.filter_append, ← h.bytes, ← hbytes, List.map_append, List.map_map]
    exact congrArg _ (List.map_id _)
  have heofs : v.returned.countP (·.eof) + turn.eof.toNat =
      (a'.text.take a'.read).count (control 'D') := by
    rw [htext, htake, List.count_append, ← h.eofs, hcount]
  unfold World.turn
  rw [heditor]
  cases turn with
  | returns value eof =>
    refine ⟨htext ▸ hread, hdelivered, ?_⟩
    show (⟨p, got ++ bytes, value, eof⟩ :: v.returned).countP (·.eof) = _
    rw [← heofs, List.countP_cons]
    cases eof <;> rfl
  | sleeps k => exact ⟨htext ▸ hread, hdelivered, heofs⟩

theorem moves {v' : World Editor} (h : Faithful v) (hm : v.Moves editor v') : Faithful v' := by
  cases hm with
  | intr c hc =>
    cases hc
    obtain ⟨hread, line, htext⟩ := v.console.intr_text c
    have htake : (v.console.intr c).text.take (v.console.intr c).read =
        v.console.text.take v.console.read := by
      rw [hread, htext, List.take_append_of_le_length h.read]
    refine ⟨?_, ?_, ?_⟩
    · show (v.console.intr c).read ≤ (v.console.intr c).text.length
      rw [hread, htext, length_append]
      exact h.read.trans (Nat.le_add_right ..)
    · show _ = List.filter _ ((v.console.intr c).text.take (v.console.intr c).read)
      rw [htake]
      exact h.bytes
    · show _ = List.count _ ((v.console.intr c).text.take (v.console.intr c).read)
      rw [htake]
      exact h.eofs
  | read p n => exact h.turn ..
  | wake hp => exact h.turn ..
  | kill killed => exact ⟨h.read, h.bytes, h.eofs⟩
  | stay => exact h

end Faithful

/-! ### One read -/

/-- The call got the rest of a line at most, no `^D` with it, and returned how much it got; or it
was killed. It took a `^D` only with nothing else. -/
structure Return.WithinLine (ρ : Return) : Prop where
  line : newline ∉ ρ.bytes.dropLast
  noEof : control 'D' ∉ ρ.bytes
  value : ρ.value = ρ.bytes.length ∨ ρ.value = -1
  eof : ρ.eof = true → ρ.bytes = [] ∧ ρ.value = 0

def Turn.Within (target n : ℕ) (bytes : List UInt8) : Turn → Prop
  | .returns value eof => newline ∉ bytes.dropLast ∧
      (value = (target - n + bytes.length : ℕ) ∨ value = -1) ∧
      (eof = true → bytes = [] ∧ n = target ∧ value = 0)
  | .sleeps k => newline ∉ bytes ∧ 0 < k ∧ bytes.length + k = n

theorem readLoop_within {n target : ℕ} (hn : n ≤ target) (killed : Bool) (s : Cons) :
    ∃ bytes s' turn, readLoop killed target n s = (bytes, s', turn) ∧ control 'D' ∉ bytes ∧
      turn.Within target n bytes := by
  induction n generalizing s with
  | zero =>
    refine ⟨_, _, _, rfl, not_mem_nil, not_mem_nil, .inl ?_, nofun⟩
    simp
  | succ n ih =>
    unfold readLoop
    by_cases hempty : s.r = s.w
    · rw [if_pos hempty]
      refine ⟨_, _, _, rfl, not_mem_nil, ?_⟩
      cases killed
      · exact ⟨not_mem_nil, Nat.succ_pos n, Nat.zero_add _⟩
      · exact ⟨not_mem_nil, .inr rfl, nofun⟩
    rw [if_neg hempty]
    generalize s.buf (s.r % inputBufSize) = c
    by_cases hd : c = control 'D'
    · rw [if_pos hd]
      by_cases hmore : n + 1 < target
      · rw [if_pos hmore]
        refine ⟨_, _, _, rfl, not_mem_nil, not_mem_nil, .inl ?_, nofun⟩
        rw [List.length_nil]
        omega
      · rw [if_neg hmore]
        refine ⟨_, _, _, rfl, not_mem_nil, not_mem_nil, .inl ?_, fun _ => ⟨rfl, ?_, ?_⟩⟩
        · rw [List.length_nil]
          omega
        · omega
        · omega
    rw [if_neg hd]
    by_cases hl : c = newline
    · rw [if_pos hl]
      refine ⟨_, _, _, rfl, ?_, not_mem_nil, .inl ?_, nofun⟩
      · exact fun hmem => hd (List.mem_singleton.mp hmem).symm
      · rw [List.length_singleton]
        omega
    rw [if_neg hl]
    obtain ⟨bytes, s', turn, heq, hnone, hwithin⟩ := ih (by omega) {s with r := uint32 (s.r + 1)}
    rw [heq]
    refine ⟨_, _, _, rfl, List.not_mem_cons_of_ne_of_not_mem (Ne.symm hd) hnone, ?_⟩
    cases turn with
    | returns value eof =>
      obtain ⟨hline, hvalue, heof⟩ := hwithin
      refine ⟨?_, hvalue.imp_left fun hv => ?_, fun he => ?_⟩
      · cases bytes with
        | nil => exact not_mem_nil
        | cons b bytes => exact List.not_mem_cons_of_ne_of_not_mem (Ne.symm hl) hline
      · rw [hv, length_cons]
        omega
      · obtain ⟨-, hfull, -⟩ := heof he
        omega
    | sleeps k =>
      obtain ⟨hline, hpos, hlen⟩ := hwithin
      refine ⟨List.not_mem_cons_of_ne_of_not_mem (Ne.symm hl) hline, hpos, ?_⟩
      rw [length_cons]
      omega

/-- Reads so far, and the bytes that sleeping readers have got. -/
structure WithinLines (w : World Cons) : Prop where
  sleeping : ∀ {p target n got}, w.readers p = .sleeping target n got →
    0 < n ∧ got.length + n = target ∧ newline ∉ got ∧ control 'D' ∉ got
  returned : ∀ ρ ∈ w.returned, ρ.WithinLine

namespace WithinLines

theorem notMem_dropLast {got bytes : List UInt8} (hgot : newline ∉ got)
    (hbytes : newline ∉ bytes.dropLast) : newline ∉ (got ++ bytes).dropLast := by
  cases bytes with
  | nil =>
    rw [append_nil]
    exact fun hmem => hgot (List.dropLast_subset got hmem)
  | cons b bytes =>
    rw [List.dropLast_append_of_ne_nil (List.cons_ne_nil b bytes)]
    exact fun hmem => (mem_append.mp hmem).elim hgot hbytes

theorem turn (h : WithinLines w) (hlen : got.length + n = target) (hline : newline ∉ got)
    (hnone : control 'D' ∉ got) : WithinLines (w.turn ring p target n got) := by
  obtain ⟨bytes, s', turn, heq, hnone', hwithin⟩ :=
    readLoop_within (by omega : n ≤ target) (w.killed p) w.console
  have hring : ring.read (w.killed p) target n w.console = (bytes, s', turn) := heq
  have hboth : control 'D' ∉ got ++ bytes := fun hmem => (mem_append.mp hmem).elim hnone hnone'
  unfold World.turn
  rw [hring]
  cases turn with
  | returns value eof =>
    obtain ⟨hl, hvalue, heof⟩ := hwithin
    refine ⟨fun {q _ _ _} hq => ?_, fun ρ hρ => ?_⟩
    · replace hq : update w.readers p .idle q = .sleeping _ _ _ := hq
      by_cases hqp : q = p
      · rw [hqp, update_self] at hq
        cases hq
      · rw [update_of_ne hqp] at hq
        exact h.sleeping hq
    · rcases List.mem_cons.mp hρ with rfl | hρ
      · refine ⟨notMem_dropLast hline hl, hboth, hvalue.imp_left fun hv => ?_, fun he => ?_⟩
        · show value = ((got ++ bytes).length : ℤ)
          rw [hv, length_append]
          omega
        · obtain ⟨hnil, hfull, hzero⟩ := heof he
          have hgot : got = [] := List.length_eq_zero_iff.mp (by omega)
          exact ⟨by rw [hnil, hgot]; rfl, hzero⟩
      · exact h.returned ρ hρ
  | sleeps k =>
    obtain ⟨hl, hpos, hk⟩ := hwithin
    refine ⟨fun {q _ _ _} hq => ?_, h.returned⟩
    replace hq : update w.readers p (.sleeping target k (got ++ bytes)) q = .sleeping _ _ _ := hq
    by_cases hqp : q = p
    · rw [hqp, update_self] at hq
      cases hq
      refine ⟨hpos, ?_, fun hmem => (mem_append.mp hmem).elim hline hl, hboth⟩
      rw [length_append]
      omega
    · rw [update_of_ne hqp] at hq
      exact h.sleeping hq

theorem moves {w' : World Cons} (h : WithinLines w) (hm : w.Moves ring w') : WithinLines w' := by
  cases hm with
  | intr c hc => exact ⟨h.sleeping, h.returned⟩
  | read p n => exact h.turn (Nat.zero_add _) not_mem_nil not_mem_nil
  | wake hp =>
    obtain ⟨-, hlen, hline, hnone⟩ := h.sleeping hp
    exact h.turn hlen hline hnone
  | kill killed => exact ⟨h.sleeping, h.returned⟩
  | stay => exact h

end WithinLines

/-- **The console is a line editor.** Whatever characters arrive and whoever reads: every call returns, and
readers get what they get from the reference editor, byte by byte and call by call. That is the
committed text in order without `^D`, of which each is taken by a call that returns nothing. No call
returns more than the rest of a line. The indices are at most the size of the buffer apart. -/
theorem console_is_line_editor (buf : ℕ → UInt8) (cs : List Call) :
    ∃ w v, (calls ring).run (.start ⟨buf, 0, 0, 0, []⟩) cs = .ok w ∧
      (calls editor).run (.start .start) cs = .ok v ∧
      w.delivered = v.delivered ∧ w.returned = v.returned ∧ w.readers = v.readers ∧
      w.console.echo = v.console.echo ∧
      (uint32 (w.console.w - w.console.r) ≤ uint32 (w.console.e - w.console.r) ∧
        uint32 (w.console.e - w.console.r) ≤ inputBufSize) ∧
      Faithful v ∧ ∀ ρ ∈ w.returned, ρ.WithinLine := by
  have hstart : Alike (.start ⟨buf, 0, 0, 0, []⟩) (.start .start) := ⟨.start buf, rfl, rfl, rfl, rfl⟩
  obtain ⟨w, v, hw, hv, h⟩ := hstart.run cs
  have hfaithful : Faithful v :=
    World.run_moves Faithful.moves (w := .start .start) ⟨le_rfl, rfl, rfl⟩ hv
  have hwithin : WithinLines w :=
    World.run_moves WithinLines.moves (w := .start ⟨buf, 0, 0, 0, []⟩) ⟨nofun, nofun⟩ hw
  refine ⟨w, v, hw, hv, h.delivered, h.returned, h.readers, h.console.echo, ⟨?_, ?_⟩, hfaithful,
    hwithin.returned⟩
  · rw [h.console.write_sub_read, h.console.edit_sub_read]
    exact Nat.le_add_right ..
  · rw [h.console.edit_sub_read]
    exact h.console.buffered_le

-- `ab`, a backspace and return.
example : ∃ w, (calls ring).run (.start ⟨fun _ => 0, 0, 0, 0, []⟩) [.read 1 10, .intr 97, .intr 98,
    .intr (control 'H'), .intr carriageReturn, .wake 1] = .ok w ∧
    w.returned = [⟨1, [97, newline], 2, false⟩] := by
  decide +kernel

end Xv6.Console
