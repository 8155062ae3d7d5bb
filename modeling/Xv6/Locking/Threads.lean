import Xv6.Locking.Program
import Xv6.Machine.Run

/-! Any number of threads that take and give back locks, one step at a time.

If all their calls are in order of a rank, no thread takes a lock that it holds, and there is
no set of threads that wait for each other: along a chain of threads that wait the rank grows. -/
namespace Xv6.Locking

open Function

variable {L κ : Type} [DecidableEq L]

/-- The checks that `acquire` and `release` make. -/
inductive Fault where
  | acquire
  | release
  deriving DecidableEq, Repr

structure State (L : Type) where
  owner : L → Option ℕ
  /-- The locks that are there. -/
  alive : L → Bool
  thread : ℕ → Thread L
  prog : ℕ → Prog L Unit

/-- What a step of a thread does to the owners, and to what is there. -/
def Act.owner (p : ℕ) : Act L → (L → Option ℕ) → L → Option ℕ
  | acquire l, owner => update owner l (some p)
  | release l, owner | create l, owner => update owner l none
  | enter, owner | leave, owner | discard _, owner | read, owner => owner

def Act.alive : Act L → (L → Bool) → L → Bool
  | create l, alive => update alive l true
  | discard l, alive => update alive l false
  | acquire _, alive | release _, alive | enter, alive | leave, alive | read, alive => alive

/-- Whether a thread goes on; it spins while another one has the lock. -/
def State.ready (s : State L) (p : ℕ) : Act L → Except Fault Bool
  | .acquire l => if s.owner l = some p then .error .acquire else .ok (s.owner l = none)
  | .release l => if s.owner l = some p then .ok true else .error .release
  | .enter | .leave | .create _ | .discard _ | .read => .ok true

def State.advance (s : State L) (p : ℕ) (a : Act L) (next : Prog L Unit) : State L where
  owner := a.owner p s.owner
  alive := a.alive s.alive
  thread := update s.thread p (a.effect (s.thread p))
  prog := update s.prog p next

def State.go (s : State L) (p n : ℕ) : Except Fault (State L) :=
  match s.prog p with
  | .act a next => do
    if ← s.ready p a then return s.advance p a (next n)
    return s
  | .done _ | .panic _ => .ok s

inductive Label (κ : Type) where
  | start (p : ℕ) (c : κ)
  /-- A step, with the value it reads. -/
  | go (p n : ℕ)

def step (body : κ → Prog L Unit) (s : State L) : Label κ → Except Fault (State L)
  | .start p c => .ok {s with prog := update s.prog p (body c)}
  | .go p n => s.go p n

/-- A thread takes only a lock that is there, a new one was not there before, and what one
thread discards no other has. -/
def State.may (s : State L) (p : ℕ) : Act L → Prop
  | .acquire l => s.alive l = true
  | .create l => s.alive l = false
  | .discard l => s.owner l = none ∨ s.owner l = some p
  | .release _ | .enter | .leave | .read => True

def allowed (s : State L) : Label κ → Prop
  | .start p _ => (s.prog p).isDone = true
  | .go p _ =>
    match s.prog p with
    | .act a _ => s.may p a
    | .done _ | .panic _ => True

def threads (body : κ → Prog L Unit) : Protocol Fault (State L) (Label κ) := ⟨step body, allowed⟩

instance (s : State L) (p : ℕ) : ∀ a, Decidable (s.may p a)
  | .acquire l => inferInstanceAs (Decidable (s.alive l = true))
  | .create l => inferInstanceAs (Decidable (s.alive l = false))
  | .discard l => inferInstanceAs (Decidable (s.owner l = none ∨ s.owner l = some p))
  | .release _ | .enter | .leave | .read => .isTrue trivial

instance (body : κ → Prog L Unit) (s : State L) : ∀ c, Decidable ((threads body).allowed s c)
  | .start p _ => inferInstanceAs (Decidable ((s.prog p).isDone = true))
  | .go p n =>
    match h : s.prog p with
    | .act a _ => decidable_of_iff (s.may p a) (by simp [threads, allowed, h])
    | .done _ | .panic _ => .isTrue (by simp [threads, allowed, h])

/-- Nobody does anything, and no lock is taken. -/
def start (alive : L → Bool) : State L := ⟨fun _ => none, alive, fun _ => .rest, fun _ => .done ()⟩

/-! ### Invariant -/

structure Inv (rank : L → ℕ) (s : State L) : Prop where
  ordered : ∀ p, Ordered rank (s.thread p) (s.prog p) fun _ t => t = .rest
  owner : ∀ p l, l ∈ (s.thread p).held ↔ s.owner l = some p
  nodup : ∀ p, (s.thread p).held.Nodup
  alive : ∀ p l, s.owner l = some p → s.alive l = true

variable {rank : L → ℕ} {s : State L} {p q : ℕ} {l : L} {a : Act L} {next : ℕ → Prog L Unit}

theorem go_of_ready {n : ℕ} {b : Bool} (hp : s.prog p = .act a next) (hready : s.ready p a = .ok b) :
    s.go p n = .ok (if b then s.advance p a (next n) else s) := by
  rw [State.go, hp]
  dsimp only
  rw [hready]
  cases b <;> rfl

namespace Inv

theorem start (alive : L → Bool) : Inv rank (start alive) where
  ordered _ := rfl
  owner _ _ := ⟨nofun, nofun⟩
  nodup _ := List.nodup_nil
  alive := nofun

section
variable (h : Inv rank s)
include h

theorem safe (hp : s.prog p = .act a next) :
    a.Safe rank (s.thread p) ∧ ∀ n, Ordered rank (a.effect (s.thread p)) (next n) fun _ t => t = .rest := by
  have hordered := h.ordered p
  rw [hp] at hordered
  exact hordered

/-! ### Steps -/

/-- A step that keeps the owners and what is there in line with what the threads hold. -/
theorem advance (hp : s.prog p = .act a next) (n : ℕ)
    (howner : ∀ q l, l ∈ (update s.thread p (a.effect (s.thread p)) q).held ↔ a.owner p s.owner l = some q)
    (hnodup : (a.effect (s.thread p)).held.Nodup)
    (halive : ∀ q l, a.owner p s.owner l = some q → a.alive s.alive l = true) :
    Inv rank (s.advance p a (next n)) where
  ordered q := by
    by_cases hq : q = p
    · subst hq
      simp only [State.advance, update_self]
      exact (h.safe hp).2 n
    · simp only [State.advance, update_of_ne hq]
      exact h.ordered q
  owner := howner
  nodup q := by
    by_cases hq : q = p
    · subst hq
      simp only [State.advance, update_self]
      exact hnodup
    · simp only [State.advance, update_of_ne hq]
      exact h.nodup q
  alive := halive

theorem quiet (hp : s.prog p = .act a next) (n : ℕ)
    (hheld : (a.effect (s.thread p)).held = (s.thread p).held) (howner : a.owner p s.owner = s.owner)
    (halive : ∀ q l, s.owner l = some q → a.alive s.alive l = true) : Inv rank (s.advance p a (next n)) := by
  refine h.advance hp n (fun q l => ?_) (hheld ▸ h.nodup p) (howner.symm ▸ halive)
  rw [howner, ← h.owner]
  grind

theorem acquire (hp : s.prog p = .act (.acquire l) next) (n : ℕ) (hfree : s.owner l = none)
    (halive : s.alive l = true) : Inv rank (s.advance p (.acquire l) (next n)) := by
  have hnot := Thread.Below.notMem (h.safe hp).1
  refine h.advance hp n (fun q l' => ?_) (List.nodup_cons.mpr ⟨hnot, h.nodup p⟩) fun q l' hl' => ?_
  · by_cases hl : l' = l
    · subst hl
      simp only [Act.owner, update_self]
      by_cases hq : q = p
      · simp [hq, Act.effect]
      · rw [update_of_ne hq, h.owner, hfree]
        simp [Ne.symm hq]
    · simp only [Act.owner, update_of_ne hl]
      grind [Inv.owner, Act.effect, update_of_ne]
  · by_cases hl : l' = l
    · rw [hl]
      exact halive
    · simp only [Act.owner, update_of_ne hl] at hl'
      exact h.alive q l' hl'

theorem release (hp : s.prog p = .act (.release l) next) (n : ℕ) :
    Inv rank (s.advance p (.release l) (next n)) := by
  have hmem : l ∈ (s.thread p).held := (h.safe hp).1
  refine h.advance hp n (fun q l' => ?_) ((h.nodup p).erase l) fun q l' hl' => ?_
  · by_cases hl : l' = l
    · subst hl
      simp only [Act.owner, update_self]
      by_cases hq : q = p
      · simp [hq, Act.effect, (h.nodup p).not_mem_erase]
      · rw [update_of_ne hq, h.owner, (h.owner p l').mp hmem]
        simp [Ne.symm hq]
    · simp only [Act.owner, update_of_ne hl]
      grind [Inv.owner, Act.effect, update_of_ne]
  · by_cases hl : l' = l
    · rw [hl] at hl'
      simp [Act.owner] at hl'
    · simp only [Act.owner, update_of_ne hl] at hl'
      exact h.alive q l' hl'

theorem create (hp : s.prog p = .act (.create l) next) (n : ℕ) (hnew : s.alive l = false) :
    Inv rank (s.advance p (.create l) (next n)) := by
  have hfree : s.owner l = none := by
    cases hl : s.owner l with
    | none => rfl
    | some q => cases hnew.symm.trans (h.alive q l hl)
  have howner : update s.owner l none = s.owner := by rw [← hfree, update_eq_self]
  refine h.quiet hp n rfl howner fun q l' hl' => ?_
  by_cases hl : l' = l
  · grind
  · exact (update_of_ne hl ..).trans (h.alive q l' hl')

theorem discard (hp : s.prog p = .act (.discard l) next) (n : ℕ)
    (hmine : s.owner l = none ∨ s.owner l = some p) : Inv rank (s.advance p (.discard l) (next n)) := by
  have hnot : l ∉ (s.thread p).held := (h.safe hp).1
  have hfree : s.owner l = none := hmine.resolve_right fun hl => hnot ((h.owner p l).mpr hl)
  refine h.quiet hp n rfl rfl fun q l' hl' => ?_
  have hl : l' ≠ l := by
    grind
  exact (update_of_ne hl ..).trans (h.alive q l' hl')

theorem go (n : ℕ) (hmay : ∀ a next, s.prog p = .act a next → s.may p a) :
    ∃ s', s.go p n = .ok s' ∧ Inv rank s' := by
  cases hp : s.prog p with
  | done _ | panic _ => exact ⟨s, by rw [State.go, hp], h⟩
  | act a next =>
    have hmay := hmay a next hp
    cases a with
    | acquire l =>
      have hother : s.owner l ≠ some p := fun hl => Thread.Below.notMem (h.safe hp).1 ((h.owner p l).mpr hl)
      have hready : s.ready p (.acquire l) = .ok (s.owner l = none : Bool) := if_neg hother
      by_cases hfree : s.owner l = none
      · rw [decide_eq_true hfree] at hready
        exact ⟨_, go_of_ready hp hready, h.acquire hp n hfree hmay⟩
      · -- Another thread has the lock.
        rw [decide_eq_false hfree] at hready
        exact ⟨s, go_of_ready hp hready, h⟩
    | release l =>
      have hmine : s.owner l = some p := (h.owner p l).mp (h.safe hp).1
      exact ⟨_, go_of_ready hp (if_pos hmine), h.release hp n⟩
    | create l => exact ⟨_, go_of_ready hp rfl, h.create hp n hmay⟩
    | discard l => exact ⟨_, go_of_ready hp rfl, h.discard hp n hmay⟩
    | enter | leave | read => exact ⟨_, go_of_ready hp rfl, h.quiet hp n rfl rfl h.alive⟩

theorem rest_of_isDone (hp : (s.prog p).isDone = true) : s.thread p = .rest := by
  have hrest := h.ordered p
  cases hprog : s.prog p with
  | done _ =>
    rw [hprog] at hrest
    exact hrest
  | panic _ | act _ _ =>
    rw [hprog] at hp
    cases hp

theorem begin (hp : (s.prog p).isDone = true) {x : Prog L Unit} (hx : Keeps rank .rest x) :
    Inv rank {s with prog := update s.prog p x} := by
  refine ⟨fun q => ?_, h.owner, h.nodup, h.alive⟩
  by_cases hq : q = p
  · subst hq
    simp only [update_self]
    rw [h.rest_of_isDone hp]
    exact hx
  · simp only [update_of_ne hq]
    exact h.ordered q

end

theorem run {body : κ → Prog L Unit} (hbody : ∀ c, Keeps rank .rest (body c)) {cs : List (Label κ)} (h : Inv rank s)
    (hp : (threads body).Proper s cs) : ∃ s', (threads body).run s cs = .ok s' ∧ Inv rank s' := by
  refine Protocol.run_invariant (I := Inv rank) (fun c _ s h hc => ?_) h hp
  cases c with
  | start p c => exact ⟨_, rfl, h.begin hc (hbody c)⟩
  | go p n =>
    refine h.go n fun a next hprog => ?_
    change allowed s (.go p n : Label κ) at hc
    rw [allowed, hprog] at hc
    exact hc

/-! ### What follows -/

theorem notMem (h : Inv rank s) (hp : s.prog p = .act (.acquire l) next) : l ∉ (s.thread p).held :=
  Thread.Below.notMem (h.safe hp).1

/-- No threads wait for each other: whoever has the lock that a thread waits for waits for a
lock of higher rank. -/
theorem not_deadlocked (h : Inv rank s) {bound : ℕ} (hbound : ∀ l, rank l < bound) {S : Set ℕ}
    (hS : ∀ p ∈ S, ∃ l next, s.prog p = .act (.acquire l) next ∧ ∃ q ∈ S, s.owner l = some q) : ¬ S.Nonempty := by
  rintro ⟨p0, hp0⟩
  have hrank : ∀ n, ∃ p ∈ S, ∃ l next, s.prog p = .act (.acquire l) next ∧ n ≤ rank l := by
    intro n
    induction n with
    | zero =>
      grind
    | succ n ih =>
      obtain ⟨p, hp, l, next, hprog, hn⟩ := ih
      obtain ⟨l1, next1, hprog1, q, hq, howner⟩ := hS p hp
      cases hprog.symm.trans hprog1
      obtain ⟨l', next', hprog', -⟩ := hS q hq
      have hlt : rank l < rank l' := (h.safe hprog').1 l ((h.owner q l).mpr howner)
      exact ⟨q, hq, l', next', hprog', hn.trans_lt hlt⟩
  obtain ⟨p, -, l, -, -, hn⟩ := hrank bound
  exact (hbound l).not_ge hn

end Inv

end Xv6.Locking
