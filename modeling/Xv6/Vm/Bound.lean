import Xv6.Vm.Image
import Xv6.Vm.Start

/-! The memory of processes over whole runs.

`changes` are the calls that change the memory of processes: `sbrk`, faults, `fork`, `exec`, and
how a process goes away, by any processes in any order. Each returns and leaves a sound state
(`Sound.change_spec`), so that no run of them stops. In every state reached a process maps user
pages below its size only, and freeing it gives each of its pages back once. -/
namespace Xv6.Vm
open Function
open Linked Radix

variable {L : Linker} {s s' : Os} {own : ℕ → Owner} {T U : Set ℕ} {p : ℕ} {E : Stop → Prop}

inductive Change where
  | sbrk (p : ℕ) (n t : ℤ)
  | fault (p va : ℕ)
  | fork (p : ℕ)
  | exec (p : ℕ) (file : Option File) (argv : List (List ℕ))
  | exit (p : ℕ) (status : ℤ)
  /-- What `wait` does with a child that has exited. -/
  | reap (p : ℕ)

def change (L : Linker) (s : Os) : Change → Except Stop Os
  | .sbrk p n t => do
    let (_, s) ← sysSbrk L p n t s
    return s
  | .fault p va => do
    let (_, s) ← vmfault p (s.proc p).pagetable va s
    return s
  | .fork p => do
    let (_, s) ← kfork L p s
    return s
  | .exec p file argv => do
    let (_, s) ← kexec L p file argv s
    return s
  | .exit p status => kexit p status s
  | .reap p => freeproc L p s

/-- A process that was started and has not exited. -/
def Started (s : Os) (p : ℕ) : Prop := (s.proc p).state ∉ [.unused, .used, .zombie]
deriving Decidable

/-- Arguments are `int` values, bytes, and strings that fit in memory. A page fault does not lack a
page for the page table. -/
def mayChange (s : Os) : Change → Prop
  | .sbrk p n _ => Started s p ∧ -2 ^ 31 ≤ n ∧ n < 2 ^ 31
  | .fault p va => Started s p ∧ ¬ NoTablePage p va s
  | .fork p => Started s p
  | .exec p file argv =>
    Started s p ∧ (∀ f ∈ file, f.Bytes) ∧ ∀ arg ∈ argv, arg.length < 2 ^ 63
  | .exit p _ => Started s p ∧ p ≠ s.initproc
  | .reap p => (s.proc p).state = .zombie

/-- The same, with page faults that lack a page for the page table. -/
def mayCall (s : Os) : Change → Prop
  | .fault p _ => Started s p
  | c => mayChange s c

theorem mayChange.mayCall {c : Change} (h : mayChange s c) : mayCall s c := by
  cases c with
  | fault p va => exact h.1
  | _ => exact h

def changes (L : Linker) : Protocol Stop Os Change := ⟨change L, mayChange⟩

instance (L : Linker) (s : Os) : ∀ c, Decidable ((changes L).allowed s c)
  | .sbrk .. | .fault .. | .exec .. | .exit .. => inferInstanceAs (Decidable (_ ∧ _))
  | .fork _ => inferInstanceAs (Decidable (Started _ _))
  | .reap _ => inferInstanceAs (Decidable (_ = _))

/-! ### The calls -/

namespace Sound

theorem started (h : Sound L s own T U) (hp : Started s p) : Live L own U s.mem (s.proc p) := by
  refine h.live fun hunused => hp ?_
  rw [hunused]
  decide

theorem kexit_spec (h : Sound L s own T U) (hp : Live L own U s.mem (s.proc p)) (hinit : p ≠ s.initproc)
    (status : ℤ) : Outcome E (kexit p status s) fun s' => Moves L s own T U s' own T U := by
  have hreparent : Sound L (reparent p s) own T U := by
    refine h.relabel rfl (fun q => ?_) (fun q => ?_) (fun q => ?_) fun q => ?_
    all_goals
      unfold reparent
      dsimp only
      split
    · rename_i hchild
      -- An unused slot has no parent.
      have hstate : (s.proc q).state ≠ .unused := by
        intro hunused
        rcases h.slot q with hzero | hlive
        · rw [hzero] at hchild
          cases hchild.2
        · exact hlive.started hunused
      exact .inr ⟨hstate, hstate⟩
    · exact .inl rfl
    all_goals rfl
  have hstarted : ((reparent p s).proc p).state ≠ .unused := by
    grind [Live.started, reparent]
  unfold kexit
  rw [if_neg hinit]
  refine ⟨hreparent.mark hstarted nofun rfl rfl rfl, rfl, le_rfl, fun _ _ _ => rfl, fun q => .inl ?_⟩
  simp only [Os.setProc, reparent, update_apply]
  grind

theorem change_spec (h : Sound L s own T U) {c : Change} (hc : mayCall s c) :
    Outcome (fun _ => ¬ mayChange s c) (change L s c) fun s' => ∃ own' T' U', Moves L s own T U s' own' T' U' := by
  cases c with
  | sbrk p n t =>
    obtain ⟨hp, _, hn⟩ := hc
    refine (h.sysSbrk_spec (h.started hp) t hn).bind ?_
    rintro res ⟨own', h'⟩
    exact ⟨own', T, U, h'⟩
  | fault p va =>
    refine ((h.vmfault_spec (h.started hc) va).imp fun _ hmissing hc => hc.2 hmissing).bind ?_
    rintro res ⟨own', h'⟩
    exact ⟨own', T, U, h'⟩
  | fork p =>
    have hp := h.started hc
    refine (h.kfork_spec hp).bind ?_
    rintro ⟨pid, s'⟩ (⟨_, m', n, hs', hsame⟩ | ⟨np, r, frame, m1, own1, m', own', _, _, heq, hspawn, hcopies⟩)
    · cases hs'
      exact ⟨own, T, U, h.unchanged hsame n⟩
    · cases heq
      have hrT := h.owned.free_notMem hspawn.root_fresh
      refine ⟨own', _, _, h.forked_sound hp _ hspawn hcopies, rfl, fun q hq => ?_, fun x hx _ => ?_,
        fun q => ?_⟩
      · grind
      · rw [hcopies.extended.grows.keeps (by rwa [hspawn.keeps hx]), hspawn.keeps hx]
      · simp only [forked, newProc, update_apply]
        grind [Spawned.root_fresh]
  | exec p file argv =>
    obtain ⟨hp, hfile, hargv⟩ := hc
    refine (h.kexec_spec (h.started hp) hfile hargv).bind ?_
    rintro ⟨argc, s'⟩ (⟨_, m', hs', hsame⟩ | ⟨_, hmoves⟩)
    · cases hs'
      exact ⟨own, T, U, h.unchanged hsame s.nextpid⟩
    · exact hmoves
  | exit p status =>
    exact (h.kexit_spec (h.started hc.1) hc.2 status).mono fun s' h' => ⟨own, T, U, h'⟩
  | reap p =>
    have hp := h.live (p := p) (by rw [hc]; decide)
    obtain ⟨m', own', hm', hd⟩ := h.freeproc_spec hp
    refine .of_returns ⟨_, hm', own', _, _, h.drop hp hd, rfl, fun q hq => ?_, fun x hx hx' => ?_,
      fun q => ?_⟩
    · grind [Live.root]
    · have hkeep := hd.drops.keeps hx'
      grind
    · simp only [Os.setProc, update_apply]
      grind [Proc.zero]

end Sound

/-! ### Sizes and pages -/

/-- User pages are mapped below the size only. -/
structure BelowSize (s : Os) (p : ℕ) : Prop where
  size : (s.proc p).sz ≤ trapframe
  below : ∀ va < maxva, va % pgsize = 0 → valid (entry (s.proc p).pagetable va s.mem) = true →
    va ≠ trapframe → va ≠ trampoline → va < pgroundup (s.proc p).sz

/-- The pages of a process: its trapframe, its page table, and what that maps below. -/
def OfProcess (s : Os) (p x : ℕ) : Prop :=
  x = (s.proc p).trapframe ∨ x ∈ Nodes (child s.mem) (s.proc p).pagetable 2 ∨
    ∃ va < trapframe, va % pgsize = 0 ∧ valid (entry (s.proc p).pagetable va s.mem) = true ∧
      pte2pa (entry (s.proc p).pagetable va s.mem) = x

/-- Freeing the process puts its pages on the free list, each once. -/
def GivesBack (L : Linker) (s : Os) (p : ℕ) : Prop :=
  ∃ s' xs ys, freeproc L p s = .ok s' ∧ Chain s.mem.next s.mem.freelist xs ∧
    Chain s'.mem.next s'.mem.freelist ys ∧ ys.Nodup ∧
    ∀ x, (x ∈ ys ↔ x ∈ xs ∨ OfProcess s p x) ∧ ¬ (x ∈ xs ∧ OfProcess s p x)

theorem not_belongsTo_free {r : ℕ} : ¬ BelongsTo r .free := by
  rintro (hc | ⟨_, hc⟩) <;> cases hc

theorem Drops.free_iff {r x : ℕ} {own' : ℕ → Owner} (h : Drops r own own') :
    own' x = .free ↔ BelongsTo r (own x) ∨ own x = .free := by
  rcases h x with ⟨hof, hfree⟩ | ⟨hnot, hsame⟩
  · exact ⟨fun _ => .inl hof, fun _ => hfree⟩
  grind

def OnFreeList (m : Memory) (x : ℕ) : Prop := ∃ F, Chain m.next m.freelist F ∧ x ∈ F

theorem Owned.onFreeList_iff {m : Memory} {x : ℕ} (h : Owned L m own T U) : OnFreeList m x ↔ own x = .free := by
  obtain ⟨F, hF, hfree⟩ := h.list
  rw [← hfree]
  constructor
  · rintro ⟨F', hF', hx⟩
    rwa [hF.unique hF']
  · exact fun hx => ⟨F, hF, hx⟩

theorem Owned.ofProcess_iff (h : Owned L s.mem own T U) (hr : (s.proc p).pagetable ∈ U) (x : ℕ) :
    OfProcess s p x ↔ x = (s.proc p).trapframe ∨ BelongsTo (s.proc p).pagetable (own x) := by
  refine or_congr_right (or_congr (h.nodes (h.sub hr)) ?_)
  constructor
  · rintro ⟨va, hva, hal, hv, rfl⟩
    exact ⟨va, h.mapped hr hva hal hv⟩
  · rintro ⟨va, hx⟩
    obtain ⟨_, hva, hal, hv, hpa⟩ := h.user hx
    exact ⟨va, hva, hal, hv, hpa⟩

namespace Sound

theorem belowSize (h : Sound L s own T U) (hp : Live L own U s.mem (s.proc p)) : BelowSize s p := by
  refine ⟨hp.size, fun va hva hal hv hframe hcode => ?_⟩
  by_cases hlt : va < trapframe
  · exact hp.below _ va (h.owned.mapped hp.root hlt hal hv)
  · have hcases := hp.layout.high va (maxva_lt_sv39 hva) (not_lt.mp hlt) hv
    have hframe' : trapframe % pgsize = 0 := by decide
    have hcode' : trampoline % pgsize = 0 := by decide
    grind [pgsize]

theorem givesBack (h : Sound L s own T U) (hp : Live L own U s.mem (s.proc p)) : GivesBack L s p := by
  obtain ⟨m', own', hm', hd⟩ := h.freeproc_spec hp
  obtain ⟨xs, hxs, hfree⟩ := h.owned.list
  obtain ⟨ys, hys, hfree'⟩ := hd.owned.list
  refine ⟨_, xs, ys, hm', hxs, hys, hys.nodup, fun x => ?_⟩
  rw [h.owned.ofProcess_iff hp.root, hfree, hfree', hd.drops.free_iff]
  grind [Live.frame, not_belongsTo_free]

end Sound

/-- One state comes from another by a call. The kernel has a page table of its own. -/
def Follows (L : Linker) (s s' : Os) : Prop :=
  ∃ own T U own' T' U', Sound L s own T U ∧ Moves L s own T U s' own' T' U' ∧ s.kernelPagetable ∈ T \ U

/-- Pages and page tables are as they should be, with one of the kernel. -/
def Settled (L : Linker) (s : Os) : Prop :=
  ∃ own T U, Sound L s own T U ∧ s.kernelPagetable ∈ T \ U

theorem Follows.settled (h : Follows L s s') : Settled L s' := by
  obtain ⟨own, T, U, own', T', U', -, hmoves, hk⟩ := h
  refine ⟨own', T', U', hmoves.sound, ?_⟩
  rw [hmoves.kernel]
  exact hmoves.fixed hk

theorem Settled.change (h : Settled L s) {c : Change} (hc : mayCall s c) :
    Outcome (fun _ => True) (change L s c) (Follows L s) := by
  obtain ⟨own, T, U, h, hk⟩ := h
  exact ((h.change_spec hc).imp fun _ _ => trivial).mono fun s' ⟨own', T', U', hmoves⟩ =>
    ⟨own, T, U, own', T', U', h, hmoves, hk⟩

theorem Settled.run (h : Settled L s) {cs : List Change} (hproper : (changes L).Proper s cs)
    (hrun : (changes L).run s cs = .ok s') : Settled L s' :=
  (Protocol.run_outcome (E := fun _ => True) (fun _ _ _ ht hc =>
    (ht.change hc.mayCall).mono fun _ => Follows.settled) h hproper).of_ok hrun

theorem changes_total {s₀ : Os} (hfresh : Fresh L s₀) (hinit : userinit L s₀ = .ok s)
    {cs : List Change} (hproper : (changes L).Proper s cs) :
    ∃ s', (changes L).run s cs = .ok s' ∧ Consistent L s' := by
  obtain ⟨own, h0⟩ := hfresh.sound
  obtain ⟨-, own', r, -, h1⟩ := h0.userinit_spec hinit
  exact Protocol.run_invariant
    (fun c _ s ⟨own, T, U, h⟩ hc => Outcome.total.mp <|
      ((h.change_spec hc.mayCall).imp fun _ hn => hn hc).mono fun _ ⟨own', T', U', h'⟩ => ⟨own', T', U', h'.sound⟩) ⟨own', _, _, h1⟩ hproper

theorem changes_consistent {s₀ : Os} (hfresh : Fresh L s₀) (hinit : userinit L s₀ = .ok s)
    {cs : List Change} (hproper : (changes L).Proper s cs) (hrun : (changes L).run s cs = .ok s') :
    Consistent L s' := by
  grind [changes_total]

/-- In every state reached each process maps user pages below its size only, and its pages can be
given back. -/
theorem user_memory_below_size {s₀ : Os} (hfresh : Fresh L s₀) (hinit : userinit L s₀ = .ok s)
    {cs : List Change} (hproper : (changes L).Proper s cs) :
    ∃ s', (changes L).run s cs = .ok s' ∧
      ∀ p, (s'.proc p).state ≠ .unused → BelowSize s' p ∧ GivesBack L s' p := by
  obtain ⟨s', hrun, own, T, U, hsound⟩ := changes_total hfresh hinit hproper
  refine ⟨s', hrun, fun p hp => ?_⟩
  have hlive := hsound.live hp
  exact ⟨hsound.belowSize hlive, hsound.givesBack hlive⟩

/-- The first process grows lazily, touches its second page, and forks. -/
theorem user_memory_below_size_of_fork : ∃ s s', userinit .small (.small 16) = .ok s ∧
      (changes .small).run s [.sbrk 0 5000 0, .fault 0 4100, .fork 0] = .ok s' ∧
      (s'.proc 1).sz = 5000 ∧ valid (entry (s'.proc 1).pagetable 0 s'.mem) = false ∧
      valid (entry (s'.proc 1).pagetable pgsize s'.mem) = true ∧
      BelowSize s' 1 ∧ GivesBack .small s' 1 := by
  have hsees : ∃ s, userinit .small (.small 16) = .ok s ∧
      (changes .small).Proper s [.sbrk 0 5000 0, .fault 0 4100, .fork 0] ∧
      ∃ s', (changes .small).run s [.sbrk 0 5000 0, .fault 0 4100, .fork 0] = .ok s' ∧
        (s'.proc 1).state ≠ .unused ∧ (s'.proc 1).sz = 5000 ∧
        valid (entry (s'.proc 1).pagetable 0 s'.mem) = false ∧
        valid (entry (s'.proc 1).pagetable pgsize s'.mem) = true := by decide +kernel
  obtain ⟨s, hs, hproper, s', hs', hused, hsz, hhole, hpage⟩ := hsees
  obtain ⟨t, ht, hall⟩ := user_memory_below_size (fresh_small 15 (by decide)) hs hproper
  cases hs'.symm.trans ht
  obtain ⟨hbelow, hgives⟩ := hall 1 hused
  exact ⟨s, s', hs, hs', hsz, hhole, hpage, hbelow, hgives⟩

end Xv6.Vm
