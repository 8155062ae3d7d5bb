import Mathlib.Data.Nat.Basic
import Xv6.Machine.Run

/-! Where pipes come from and where they go back to (`kernel/pipe.c`).

The first `pipealloc` creates the cache that all pipes come from. It tests `pipe_cache` and assigns
it without a lock, so that each read and write of `pipe_cache` is a step. What the slab allocator
returns is given with the step: an object that is not in use, or none.

Two processes can both find that there is no cache and create one each (`two_caches`). If that does
not happen, every pipe goes back to its own cache (`processes_own_cache`). -/
namespace Xv6.Pipe
open Function

/-- A pipe, as far as its ends are concerned. -/
structure Ends where
  /-- The cache that it was allocated from. -/
  origin : ℕ
  readopen : Bool
  writeopen : Bool
  deriving DecidableEq

inductive Alloc where
  /-- Neither in `pipealloc` nor in `pipeclose`. -/
  | running
  | testing
  | creating
  /-- Before the assignment to `pipe_cache`. -/
  | assigning (cache : ℕ)
  /-- Before the test whether there is a cache now. -/
  | checking
  | allocating
  | buffering (pi : ℕ)
  /-- In `bad`, before the test of `pipe_cache`. -/
  | failing (pi : ℕ)
  /-- Before `kmem_cache_free`, in `bad` or in `pipeclose`. -/
  | freeing (pi : ℕ)
  deriving DecidableEq

structure Freed where
  cache : ℕ
  pi : ℕ
  /-- The cache that the pipe was allocated from. -/
  origin : ℕ
  deriving DecidableEq

structure Pipes where
  pipeCache : ℕ
  pipes : ℕ → Option Ends
  pc : ℕ → Alloc
  /-- The caches that were created, the latest first. -/
  created : List ℕ
  /-- The pipes that were freed, the latest first. -/
  freed : List Freed

inductive Call where
  /-- `pipealloc`; `files` says whether it gets two files. -/
  | pipealloc (p : ℕ) (files : Bool)
  | test (p : ℕ)
  | create (p cache : ℕ)
  | assign (p : ℕ)
  | alloc (p pi : ℕ)
  | kmalloc (p : ℕ) (memory : Bool)
  | pipeclose (p pi : ℕ) (writable : Bool)
  | free (p : ℕ)

namespace Ends

def close (writable : Bool) (pi : Ends) : Ends :=
  if writable then {pi with writeopen := false} else {pi with readopen := false}

def Closed (pi : Ends) : Prop := pi.readopen = false ∧ pi.writeopen = false

instance (pi : Ends) : Decidable pi.Closed := inferInstanceAs (Decidable (_ ∧ _))

end Ends

namespace Pipes

def goto (s : Pipes) (p : ℕ) (pc : Alloc) : Pipes := {s with pc := update s.pc p pc}

def setPipe (s : Pipes) (pi : ℕ) (ends : Option Ends) : Pipes := {s with pipes := update s.pipes pi ends}

/-- What a test of `pipe_cache` leads to, from each of the places where there is one. -/
def test (s : Pipes) (p : ℕ) : Pipes :=
  match s.pc p with
  | .testing => s.goto p (if s.pipeCache = 0 then .creating else .allocating)
  | .checking => s.goto p (if s.pipeCache = 0 then .running else .allocating)
  | .failing pi => s.goto p (if s.pipeCache = 0 then .running else .freeing pi)
  | _ => s

def pipeclose (s : Pipes) (p pi : ℕ) (writable : Bool) : Pipes :=
  match s.pipes pi with
  | some ends =>
    let s' := s.setPipe pi (some (ends.close writable))
    if (ends.close writable).Closed then s'.goto p (.freeing pi) else s'
  | none => s

def free (s : Pipes) (p pi : ℕ) : Pipes :=
  let origin := ((s.pipes pi).map Ends.origin).getD 0
  ({s with freed := ⟨s.pipeCache, pi, origin⟩ :: s.freed}.setPipe pi none).goto p .running

def step (s : Pipes) : Call → Except Empty Pipes
  | .pipealloc p files => .ok (if files then s.goto p .testing else s)
  | .test p => .ok (s.test p)
  | .create p cache =>
    .ok ({s with created := if cache = 0 then s.created else cache :: s.created}.goto p (.assigning cache))
  | .assign p =>
    match s.pc p with
    | .assigning cache => .ok ({s with pipeCache := cache}.goto p .checking)
    | _ => .ok s
  | .alloc p pi =>
    .ok (if pi = 0 then s.goto p .running
      else (s.setPipe pi (some ⟨s.pipeCache, false, false⟩)).goto p (.buffering pi))
  | .kmalloc p memory =>
    match s.pc p with
    | .buffering pi =>
      .ok (if memory then (s.setPipe pi ((s.pipes pi).map fun ends => {ends with readopen := true, writeopen := true})).goto
        p .running else s.goto p (.failing pi))
    | _ => .ok s
  | .pipeclose p pi writable => .ok (s.pipeclose p pi writable)
  | .free p =>
    match s.pc p with
    | .freeing pi => .ok (s.free p pi)
    | _ => .ok s

def Open (s : Pipes) (pi : ℕ) (writable : Bool) : Prop :=
  (s.pipes pi).any fun ends => if writable then ends.writeopen else ends.readopen
deriving Decidable

/-- When a call can be made; a process that is not at its place does nothing. The
allocators return objects that are not in use, and `fileclose` closes each end of a pipe
once. -/
def allowed (s : Pipes) : Call → Prop
  | .pipealloc p _ => s.pc p = .running
  | .create p cache => s.pc p = .creating ∧ cache ∉ s.created
  | .alloc p pi => s.pc p = .allocating ∧ (pi ≠ 0 → s.pipeCache ≠ 0 ∧ s.pipes pi = none)
  | .pipeclose p pi writable => s.pc p = .running ∧ s.Open pi writable
  | .test _ | .assign _ | .kmalloc _ _ | .free _ => True

def boot : Pipes := ⟨0, fun _ => none, fun _ => .running, [], []⟩

end Pipes

/-- Processes that open and close pipes in any order. -/
def allocs : Protocol Empty Pipes Call := ⟨Pipes.step, Pipes.allowed⟩

instance (s : Pipes) : ∀ c, Decidable (allocs.allowed s c)
  | .pipealloc .. => inferInstanceAs (Decidable (_ = _))
  | .create .. | .alloc .. | .pipeclose .. => inferInstanceAs (Decidable (_ ∧ _))
  | .test _ | .assign _ | .kmalloc .. | .free _ => .isTrue trivial

/-- The cache that a process between its test and its assignment will assign, as far as
it knows. -/
def Alloc.cache : Alloc → Option ℕ
  | .creating => some 0
  | .assigning cache => some cache
  | _ => none

/-- The pipe that only this process knows of. -/
def Alloc.pipe : Alloc → Option ℕ
  | .buffering pi | .failing pi | .freeing pi => some pi
  | _ => none

/-- A process that finds no cache is the only one that creates one. -/
def Pipes.NoRace (s : Pipes) : Call → Prop
  | .test p => s.pc p = .testing → s.pipeCache = 0 → ∀ q, (s.pc q).cache = none
  | _ => True

variable {p q pi cache : ℕ} {s s' : Pipes} {c : Call} {pc : Alloc} {ends : Ends} {writable memory : Bool}

@[simp] theorem goto_self : (s.goto p pc).pc p = pc := update_self ..

theorem goto_of_ne (h : q ≠ p) : (s.goto p pc).pc q = s.pc q := update_of_ne h ..

/-! ### One cache -/

structure OneCache (s : Pipes) : Prop where
  one : ∀ p q c d, (s.pc p).cache = some c → (s.pc q).cache = some d → p = q
  between : ∀ p c, (s.pc p).cache = some c → s.pipeCache = 0 ∧ s.created = if c = 0 then [] else [c]
  after : (∀ p, (s.pc p).cache = none) → s.created = if s.pipeCache = 0 then [] else [s.pipeCache]

namespace OneCache

section
variable (h : OneCache s)
include h

theorem goto (hpc : s'.pc = (s.goto p pc).pc) (hp : pc.cache = (s.pc p).cache)
    (hcache : s'.pipeCache = s.pipeCache) (hcreated : s'.created = s.created) : OneCache s' := by
  have hsame : ∀ q, (s'.pc q).cache = (s.pc q).cache := fun q => by
    rw [hpc]
    grind [goto_self, goto_of_ne]
  constructor
  case one =>
    grind [OneCache.one]
  case between =>
    intro q c
    rw [hsame, hcache, hcreated]
    exact h.between q c
  grind [OneCache.after]

theorem tests (hzero : s.pipeCache = 0) (hnone : ∀ q, (s.pc q).cache = none) :
    OneCache (s.goto p .creating) := by
  have honly : ∀ q c, ((s.goto p .creating).pc q).cache = some c → q = p ∧ c = 0 := fun q c hq => by
    by_cases hqp : q = p
    · rw [hqp, goto_self] at hq
      exact ⟨hqp, (Option.some.inj hq).symm⟩
    grind [goto_of_ne]
  constructor
  case one => exact fun q r c d hq hr => (honly q c hq).1.trans (honly r d hr).1.symm
  case between =>
    intro q c hq
    rw [if_pos (honly q c hq).2]
    refine ⟨hzero, ?_⟩
    have hcreated := h.after hnone
    rw [if_pos hzero] at hcreated
    exact hcreated
  case after =>
    intro hnone'
    have hp := hnone' p
    rw [goto_self] at hp
    cases hp

theorem creates (hp : s.pc p = .creating) :
    OneCache ({s with created := if cache = 0 then s.created else cache :: s.created}.goto p (.assigning cache)) := by
  have hcache : (s.pc p).cache = some 0 := by rw [hp]; rfl
  obtain ⟨hzero, hcreated⟩ := h.between p 0 hcache
  rw [if_pos rfl] at hcreated
  have honly : ∀ q c, (((s.goto p (.assigning cache))).pc q).cache = some c → q = p ∧ c = cache := fun q c hq => by
    by_cases hqp : q = p
    · rw [hqp, goto_self] at hq
      exact ⟨hqp, (Option.some.inj hq).symm⟩
    grind [goto_of_ne, OneCache.one]
  constructor
  case one => exact fun q r c d hq hr => (honly q c hq).1.trans (honly r d hr).1.symm
  case between =>
    intro q c hq
    rw [(honly q c hq).2]
    refine ⟨hzero, ?_⟩
    show (if cache = 0 then s.created else cache :: s.created) = _
    rw [hcreated]
  case after =>
    intro hnone'
    have hp := hnone' p
    rw [goto_self] at hp
    cases hp

theorem assigns (hp : s.pc p = .assigning cache) :
    OneCache ({s with pipeCache := cache}.goto p .checking) := by
  have hcache : (s.pc p).cache = some cache := by rw [hp]; rfl
  have hnone : ∀ q, (((s.goto p .checking)).pc q).cache = none := fun q => by
    by_cases hqp : q = p
    · rw [hqp, goto_self]
      rfl
    · rw [goto_of_ne hqp]
      by_contra hsome
      obtain ⟨c, hq⟩ := Option.ne_none_iff_exists'.mp hsome
      exact hqp (h.one q p c cache hq hcache)
  constructor
  case one => exact fun q r c d hq => absurd ((hnone q).symm.trans hq) nofun
  case between => exact fun q c hq => absurd ((hnone q).symm.trans hq) nofun
  case after => exact fun _ => (h.between p cache hcache).2

theorem test (hrace : s.NoRace (.test p)) : OneCache (s.test p) := by
  unfold Pipes.test
  split
  case h_1 hp =>
    split
    case isTrue hzero => exact h.tests hzero (hrace hp hzero)
    case isFalse => exact h.goto rfl (by rw [hp]; rfl) rfl rfl
  case h_2 hp =>
    refine h.goto rfl ?_ rfl rfl
    rw [hp]
    split <;> rfl
  case h_3 pi hp =>
    refine h.goto rfl ?_ rfl rfl
    rw [hp]
    split <;> rfl
  case h_4 => exact h

theorem pipeclose (hp : s.pc p = .running) : OneCache (s.pipeclose p pi writable) := by
  unfold Pipes.pipeclose
  split
  case h_1 ends _ =>
    split
    case isTrue => exact h.goto rfl (by rw [hp]; rfl) rfl rfl
    case isFalse => exact ⟨h.one, h.between, h.after⟩
  case h_2 => exact h

theorem step (ha : s.allowed c) (hrace : s.NoRace c) (hs : s.step c = .ok s') : OneCache s' := by
  cases c with
  | pipealloc p files =>
    cases hs
    have hp : s.pc p = .running := ha
    split
    case isTrue => exact h.goto rfl (by rw [hp]; rfl) rfl rfl
    case isFalse => exact h
  | test p =>
    cases hs
    exact h.test hrace
  | create p cache =>
    cases hs
    exact h.creates ha.1
  | assign p =>
    rw [Pipes.step] at hs
    grind [OneCache.assigns]
  | alloc p pi =>
    cases hs
    split
    case isTrue => exact h.goto rfl (by rw [ha.1]; rfl) rfl rfl
    case isFalse => exact h.goto rfl (by rw [ha.1]; rfl) rfl rfl
  | kmalloc p memory =>
    rw [Pipes.step] at hs
    split at hs <;> cases hs
    case h_1 pi hp =>
      split
      case isTrue => exact h.goto rfl (by rw [hp]; rfl) rfl rfl
      case isFalse => exact h.goto rfl (by rw [hp]; rfl) rfl rfl
    case h_2 => exact h
  | pipeclose p pi writable =>
    cases hs
    exact h.pipeclose ha.1
  | free p =>
    rw [Pipes.step] at hs
    split at hs <;> cases hs
    case h_1 pi hp => exact h.goto rfl (by rw [hp]; rfl) rfl rfl
    case h_2 => exact h

end

end OneCache

/-! ### Pipes and their cache -/

structure Home (s : Pipes) : Prop where
  origin : ∀ pi ends, s.pipes pi = some ends → s.pipeCache ≠ 0 ∧ ends.origin = s.pipeCache
  held : ∀ p pi, (s.pc p).pipe = some pi → ∃ ends, s.pipes pi = some ends ∧ ends.Closed
  holder : ∀ p q pi, (s.pc p).pipe = some pi → (s.pc q).pipe = some pi → p = q
  freed : ∀ f ∈ s.freed, f.cache = f.origin

namespace Home

section
variable (h : Home s)
include h

theorem goto (hpipes : s'.pipes = s.pipes) (hpc : s'.pc = (s.goto p pc).pc)
    (hp : pc.pipe = (s.pc p).pipe ∨ pc.pipe = none) (hcache : s.pipeCache ≠ 0 → s'.pipeCache = s.pipeCache)
    (hfreed : s'.freed = s.freed) : Home s' := by
  have hold : ∀ q pi, (s'.pc q).pipe = some pi → (s.pc q).pipe = some pi := fun q pi hq => by
    rw [hpc] at hq
    grind [goto_self, goto_of_ne]
  constructor
  case origin =>
    intro pi ends hpi
    rw [hpipes] at hpi
    grind [Home.origin]
  case held =>
    grind [Home.held]
  case holder => exact fun q r pi hq hr => h.holder q r pi (hold q pi hq) (hold r pi hr)
  case freed =>
    rw [hfreed]
    exact h.freed

theorem change {new : Option Ends} (hothers : ∀ q, q ≠ p → (s.pc q).pipe ≠ some pi)
    (hpipes : s'.pipes = update s.pipes pi new) (hpc : s'.pc = (s.goto p pc).pc)
    (hcache : s'.pipeCache = s.pipeCache) (hp : pc.pipe = none ∨ pc.pipe = some pi ∧ ∃ ends, new = some ends ∧ ends.Closed)
    (hnew : ∀ ends, new = some ends → s.pipeCache ≠ 0 ∧ ends.origin = s.pipeCache)
    (hfreed : ∀ f ∈ s'.freed, f.cache = f.origin) : Home s' := by
  have hold : ∀ q pi', (s'.pc q).pipe = some pi' → q = p ∧ pi' = pi ∧ pc.pipe = some pi ∨
      q ≠ p ∧ pi' ≠ pi ∧ (s.pc q).pipe = some pi' := fun q pi' hq => by
    rw [hpc] at hq
    by_cases hqp : q = p
    · grind [goto_self]
    · rw [goto_of_ne hqp] at hq
      exact .inr ⟨hqp, fun heq => hothers q hqp (heq ▸ hq), hq⟩
  constructor
  case origin =>
    intro pi' ends hpi
    rw [hcache]
    rw [hpipes] at hpi
    grind [Home.origin, update_of_ne]
  case held =>
    rw [hpipes]
    grind [Home.held, update_of_ne]
  case holder =>
    grind [Home.holder]
  case freed => exact hfreed

theorem not_held (hp : (s.pc p).pipe = some pi) (q : ℕ) (hq : q ≠ p) : (s.pc q).pipe ≠ some pi :=
  fun hq' => hq (h.holder q p pi hq' hp)

theorem test : Home (s.test p) := by
  unfold Pipes.test
  split
  case h_1 hp => exact h.goto rfl rfl (.inr (by split <;> rfl)) (fun _ => rfl) rfl
  case h_2 hp => exact h.goto rfl rfl (.inr (by split <;> rfl)) (fun _ => rfl) rfl
  case h_3 pi hp =>
    refine h.goto rfl rfl ?_ (fun _ => rfl) rfl
    rw [hp]
    split
    case isTrue => exact .inr rfl
    case isFalse => exact .inl rfl
  case h_4 => exact h

theorem kmalloc (hp : s.pc p = .buffering pi) :
    Home ((s.setPipe pi ((s.pipes pi).map fun ends => {ends with readopen := true, writeopen := true})).goto p .running) := by
  have hpipe : (s.pc p).pipe = some pi := by rw [hp]; rfl
  obtain ⟨ends, hends, _⟩ := h.held p pi hpipe
  refine h.change (h.not_held hpipe) rfl rfl rfl (.inl rfl) (fun ends' hends' => ?_) h.freed
  grind [Home.origin]

theorem pipeclose (hp : s.pc p = .running) (hopen : s.Open pi writable) :
    Home (s.pipeclose p pi writable) := by
  unfold Pipes.pipeclose
  split
  case h_1 ends hends =>
    -- nobody holds a pipe with an open end
    have hothers : ∀ q, q ≠ p → (s.pc q).pipe ≠ some pi := fun q _ hq => by
      obtain ⟨ends', hends', hclosed⟩ := h.held q pi hq
      unfold Pipes.Open at hopen
      rw [hends'] at hopen
      cases writable
      · exact absurd (hclosed.1.symm.trans hopen) nofun
      · exact absurd (hclosed.2.symm.trans hopen) nofun
    have horigin : ∀ ends', some (ends.close writable) = some ends' → s.pipeCache ≠ 0 ∧ ends'.origin = s.pipeCache := by
      grind [Home.origin, Ends.close]
    split
    case isTrue hclosed => exact h.change hothers rfl rfl rfl (.inr ⟨rfl, _, rfl, hclosed⟩) horigin h.freed
    case isFalse =>
      refine h.change hothers rfl (?_ : _ = update s.pc p .running) rfl (.inl rfl) horigin h.freed
      rw [← hp]
      exact (update_eq_self p s.pc).symm
  case h_2 => exact h

theorem free (hp : s.pc p = .freeing pi) : Home (s.free p pi) := by
  have hpipe : (s.pc p).pipe = some pi := by rw [hp]; rfl
  obtain ⟨ends, hends, _⟩ := h.held p pi hpipe
  refine h.change (h.not_held hpipe) rfl rfl rfl (.inl rfl) nofun fun f hf => ?_
  rcases List.mem_cons.mp hf with rfl | hf
  · grind [Home.origin]
  · exact h.freed f hf

theorem step (hone : OneCache s) (ha : s.allowed c) (hs : s.step c = .ok s') : Home s' := by
  cases c with
  | pipealloc p files =>
    cases hs
    split
    case isTrue => exact h.goto rfl rfl (.inr rfl) (fun _ => rfl) rfl
    case isFalse => exact h
  | test p =>
    cases hs
    exact h.test
  | create p cache =>
    cases hs
    exact h.goto rfl rfl (.inr rfl) (fun _ => rfl) rfl
  | assign p =>
    rw [Pipes.step] at hs
    split at hs <;> cases hs
    case h_1 cache hp =>
      have hzero := (hone.between p cache (by rw [hp]; rfl)).1
      exact h.goto rfl rfl (.inr rfl) (fun hne => absurd hzero hne) rfl
    case h_2 => exact h
  | alloc p pi =>
    cases hs
    split
    case isTrue => exact h.goto rfl rfl (.inr rfl) (fun _ => rfl) rfl
    case isFalse hne =>
      obtain ⟨hcache, hfresh⟩ := ha.2 hne
      have hothers : ∀ q, q ≠ p → (s.pc q).pipe ≠ some pi := fun q _ hq => by
        grind [Home.held]
      refine h.change hothers rfl rfl rfl (.inr ⟨rfl, _, rfl, rfl, rfl⟩) (fun ends heq => ?_) h.freed
      grind
  | kmalloc p memory =>
    rw [Pipes.step] at hs
    split at hs <;> cases hs
    case h_1 pi hp =>
      split
      case isTrue => exact h.kmalloc hp
      case isFalse => exact h.goto rfl rfl (.inl (by rw [hp]; rfl)) (fun _ => rfl) rfl
    case h_2 => exact h
  | pipeclose p pi writable =>
    cases hs
    exact h.pipeclose ha.1 ha.2
  | free p =>
    rw [Pipes.step] at hs
    grind [Home.free]

end

end Home

/-! ### Runs -/

theorem OneCache.length_le (h : OneCache s) : s.created.length ≤ 1 := by
  by_cases hnone : ∀ p, (s.pc p).cache = none
  · rw [h.after hnone]
    split <;> simp
  · push Not at hnone
    obtain ⟨p, hp⟩ := hnone
    obtain ⟨cache, hcache⟩ := Option.ne_none_iff_exists'.mp hp
    rw [(h.between p cache hcache).2]
    split <;> simp

/-- **Every pipe goes back to its own cache**, and there is one at most, unless two
processes create one at the same time. -/
theorem processes_own_cache {cs : List Call} (hp : (allocs.restrict Pipes.NoRace).Proper .boot cs) :
    ∃ s, allocs.run .boot cs = .ok s ∧ (∀ f ∈ s.freed, f.cache = f.origin) ∧ s.created.length ≤ 1 := by
  have hstart : OneCache .boot ∧ Home .boot := by
    refine ⟨⟨nofun, nofun, fun _ => rfl⟩, ⟨nofun, nofun, nofun, nofun⟩⟩
  have hrun := Protocol.run_outcome (P := allocs.restrict Pipes.NoRace) (E := fun _ => False)
    (I := fun s => OneCache s ∧ Home s) (fun c _ s h ha => ?_) hstart hp
  · rw [Protocol.restrict_run] at hrun
    exact Outcome.total.mp (hrun.mono fun _ h => ⟨h.2.freed, h.1.length_le⟩)
  · show Outcome _ (s.step c) _
    cases hs : s.step c with
    | error err => exact err.elim
    | ok s' => exact ⟨h.1.step ha.1 ha.2 hs, h.2.step h.1 ha.1 hs⟩

/-- A process opens a pipe and closes it. -/
def closing : List Call :=
  [.pipealloc 0 true, .test 0, .create 0 1, .assign 0, .test 0, .alloc 0 10, .kmalloc 0 true, .pipeclose 0 10 false,
    .pipeclose 0 10 true, .free 0]

theorem processes_own_cache_closing :
    ∃ s, allocs.run .boot closing = .ok s ∧ s.freed = [⟨1, 10, 1⟩] ∧ (∀ f ∈ s.freed, f.cache = f.origin) ∧
      s.created.length ≤ 1 := by
  have hproper : (allocs.restrict Pipes.NoRace).Proper .boot closing := by
    -- only the first test finds no cache
    have hfirst : ∀ q, ((Pipes.boot.goto 0 .testing).pc q).cache = none := fun q => by
      by_cases hq : q = 0
      · rw [hq, goto_self]
        rfl
      · rw [goto_of_ne hq]
        rfl
    refine ⟨⟨rfl, trivial⟩, ?_⟩
    rintro _ ⟨⟩
    refine ⟨⟨trivial, fun _ _ => hfirst⟩, ?_⟩
    rintro _ ⟨⟩
    refine ⟨⟨⟨rfl, by decide⟩, trivial⟩, ?_⟩
    rintro _ ⟨⟩
    refine ⟨⟨trivial, trivial⟩, ?_⟩
    rintro _ ⟨⟩
    refine ⟨⟨trivial, nofun⟩, ?_⟩
    rintro _ ⟨⟩
    refine ⟨⟨⟨rfl, fun _ => ⟨by decide, rfl⟩⟩, trivial⟩, ?_⟩
    rintro _ ⟨⟩
    refine ⟨⟨trivial, trivial⟩, ?_⟩
    rintro _ ⟨⟩
    refine ⟨⟨⟨rfl, rfl⟩, trivial⟩, ?_⟩
    rintro _ ⟨⟩
    refine ⟨⟨⟨rfl, rfl⟩, trivial⟩, ?_⟩
    rintro _ ⟨⟩
    exact ⟨⟨trivial, trivial⟩, fun _ _ => trivial⟩
  have hsees : (allocs.run .boot closing).toOption.map (fun s => s.freed) = some [⟨1, 10, 1⟩] := by decide +kernel
  obtain ⟨s, hs, hfreed, hcreated⟩ := processes_own_cache hproper
  rw [hs] at hsees
  exact ⟨s, hs, Option.some.inj hsees, hfreed, hcreated⟩

/-- Two processes find no cache and create one each. A pipe from the first goes back to
the second. -/
def racing : List Call :=
  [.pipealloc 0 true, .pipealloc 1 true, .test 0, .test 1, .create 0 1, .assign 0, .test 0, .alloc 0 10, .kmalloc 0 true,
    .create 1 2, .assign 1, .pipeclose 0 10 false, .pipeclose 0 10 true, .free 0]

theorem two_caches : allocs.Proper .boot racing ∧
      (allocs.run .boot racing).toOption.map (fun s => (s.created, s.freed)) = some ([2, 1], [⟨2, 10, 1⟩]) :=
  ⟨by decide +kernel, by decide +kernel⟩

end Xv6.Pipe
