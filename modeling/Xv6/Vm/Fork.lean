import Xv6.Vm.Processes

/-! Processes come and go: `allocproc`, `freeproc`, `kfork` (`kernel/proc.c`).

A process that is allocated takes a trapframe and an address space from the free list
(`Spawned`). A call that fails half-way frees what it took, and then no page has changed its
owner. -/
namespace Xv6.Vm
open Function
open Linked Radix

variable {L : Linker} {s s' : Os} {m m' : Memory} {own own1 own' : ℕ → Owner} {T U : Set ℕ}
  {p q r x va sz frame : ℕ} {E : Stop → Prop}

theorem Grows.release {V : Set ℕ} (hx : own x = .free)
    (h : Grows r V (update own x .held) own') :
    Grows r V own (update own' x .free) := by
  intro y
  by_cases hy : y = x
  · grind
  · have hcase := h y
    rwa [update_of_ne hy] at hcase ⊢

/-- The pages of a new process: its trapframe, and its address space without user pages. -/
structure Spawned (L : Linker) (T U : Set ℕ) (r frame : ℕ) (own : ℕ → Owner) (m : Memory)
    (own' : ℕ → Owner) (m' : Memory) : Prop where
  root_ne_zero : r ≠ 0
  frame_ne_zero : frame ≠ 0
  root_fresh : own r = .free
  frame_fresh : own frame = .free
  owned : Owned L m' own' (insert r T) (insert r U)
  grows : Grows r ∅ (update own frame .held) own'
  entries : SameEntries T m m'
  bytes : SameBytes own m m'
  layout : Layout L r frame m'

namespace Spawned

section
variable (h : Spawned L T U r frame own m own' m')
include h

theorem held : own' frame = .held := by
  rw [h.grows.keeps (by rw [update_self]; nofun), update_self]

theorem keeps (hx : own x ≠ .free) : own' x = own x := by
  have hne : x ≠ frame := by
    rintro rfl
    exact hx h.frame_fresh
  have hsame := update_of_ne hne Owner.held own
  exact (h.grows.keeps (by rwa [hsame])).trans hsame

theorem user (hx : own' x = .user q va) : own x = .user q va := by
  have hown := h.grows.user hx
  grind

end

end Spawned

namespace Sound

section
variable (h : Sound L s own T U)
include h

theorem pagetable_ne_free (hr : own r = .free) (h0 : r ≠ 0) (q : ℕ) : (s.proc q).pagetable ≠ r := by
  intro heq
  rcases h.slot q with hzero | hlive
  · rw [hzero] at heq
    exact h0 heq.symm
  · exact h.owned.free_notMem hr (heq ▸ h.owned.sub hlive.root)

theorem trapframe_ne_free (hx : own frame = .free) (h0 : frame ≠ 0) (q : ℕ) :
    (s.proc q).trapframe ≠ frame := by
  intro heq
  rcases h.slot q with hzero | hlive
  · rw [hzero] at heq
    exact h0 heq.symm
  · cases hx.symm.trans (heq ▸ hlive.frame)

/-! ### Freeing -/

theorem freeproc_spec (hp : Live L own U s.mem (s.proc p)) :
    ∃ m' own', freeproc L p s = .ok ({s with mem := m'}.setProc p fun _ => .zero) ∧
      Dropped L T U (s.proc p).pagetable (update own (s.proc p).trapframe .free) s.mem own' m' := by
  obtain ⟨m1, hm1, hs1, hb1, h1⟩ := h.owned.pageKfree_spec hp.frame
  have huser : ∀ x va, update own (s.proc p).trapframe .free x = .user (s.proc p).pagetable va →
      va < pgroundup (s.proc p).sz := by
    intro x va hx
    by_cases hne : x = (s.proc p).trapframe
    · grind
    · rw [update_of_ne hne] at hx
      exact hp.below x va hx
  have hent := h.owned.sameEntries hs1
  have hhigh := (hp.layout.sameEntries (h.owned.sub hp.root) hent).high
  obtain ⟨m', own', hm', hd⟩ := h1.procFreepagetable_spec hp.root hp.size huser hhigh
  refine ⟨m', own', ?_, hd.owned, hd.drops, hent.others.trans hd.entries, fun x hx => ?_⟩
  · unfold freeproc
    rw [if_pos (h.trapframe_ne_zero hp), hm1]
    simp only [returns_bind, if_pos (h.pagetable_ne_zero hp), hm', pure_returns]
  · refine (hd.bytes x hx).trans (hb1 x ?_)
    rintro rfl
    refine hx ?_
    rcases hd.drops (s.proc p).trapframe with ⟨_, hfree⟩ | ⟨_, hsame⟩
    · exact hfree
    · rw [hsame, update_self]

theorem drop (hp : Live L own U s.mem (s.proc p))
    (hd : Dropped L T U (s.proc p).pagetable (update own (s.proc p).trapframe .free) s.mem own' m') :
    Sound L ({s with mem := m'}.setProc p fun _ => .zero) own' (T \ {(s.proc p).pagetable})
      (U \ {(s.proc p).pagetable}) := by
  refine h.setProc rfl hd.owned (fun q hq hlive => ?_) (.inl rfl) (fun h0 => absurd rfl h0)
    fun h0 => absurd rfl h0
  have hne := h.pagetable_ne hp hq
  refine hlive.congr ⟨hlive.root, hne⟩ ?_ (fun va hva _ => ?_) fun x va hx => ?_
  · rcases hd.drops (s.proc q).trapframe with ⟨hof, _⟩ | ⟨_, hsame⟩
    · rw [update_of_ne (h.trapframe_ne hp hq), hlive.frame] at hof
      rcases hof with hc | ⟨_, hc⟩ <;> cases hc
    · rw [hsame, update_of_ne (h.trapframe_ne hp hq), hlive.frame]
  · exact hd.entries _ (h.owned.sub hlive.root) va hva (.inl hne)
  · have hsame := hd.drops.keeps (x := x) (by rw [hx]; nofun)
    grind

end

/-! ### Allocating -/

/-- The slot of a process that was just allocated. -/
def newProc (pid : ℤ) (frame table : ℕ) : Proc :=
  {Proc.zero with pid := pid, state := .used, trapframe := frame, pagetable := table}

/-- The state after `allocproc` has found the slot `p`. -/
def allocated (s : Os) (p frame table : ℕ) (m : Memory) : Os :=
  {s with
    mem := m
    nextpid := int32 (s.nextpid + 1)
    proc := update s.proc p (newProc s.nextpid frame table)}

theorem freeproc_allocated (hzero : s.proc p = .zero)
    (hfree : (if frame ≠ 0 then pageKfree L frame m else pure m) = .ok m') :
    freeproc L p (allocated s p frame 0 m) =
      .ok {s with mem := m', nextpid := int32 (s.nextpid + 1)} := by
  have hself : update s.proc p .zero = s.proc := by
    rw [← hzero, update_eq_self]
  have hslot : (allocated s p frame 0 m).proc p = newProc s.nextpid frame 0 := update_self ..
  unfold freeproc
  rw [hslot]
  by_cases hframe : frame = 0
  · subst hframe
    cases hfree
    simp only [newProc, Proc.zero, ne_eq, not_true, if_false, pure_returns, returns_bind, allocated,
      Os.setProc, update_idem]
    rw [← Proc.zero, hself]
  · rw [if_pos hframe] at hfree
    simp only [newProc, Proc.zero, ne_eq, not_true, if_false, pure_returns, returns_bind, allocated,
      Os.setProc, update_idem, hframe, not_false_eq_true, if_true, hfree]
    rw [← Proc.zero, hself]

theorem allocproc_some
    (hfind : (List.range nproc).find? (fun p => (s.proc p).state = .unused) = some p)
    (hzero : s.proc p = .zero) :
    allocproc L s =
      if (kalloc s.mem).1 = 0 then do
        let s' ← freeproc L p (allocated s p 0 0 (kalloc s.mem).2)
        return (none, s')
      else do
        let (table, m) ← procPagetable L (kalloc s.mem).1 (kalloc s.mem).2
        if table = 0 then
          let s' ← freeproc L p (allocated s p (kalloc s.mem).1 0 m)
          return (none, s')
        return (some p, allocated s p (kalloc s.mem).1 table m) := by
  unfold allocproc
  rw [hfind]
  simp only [Os.setProc, update_self, update_idem, hzero]
  by_cases h0 : (kalloc s.mem).1 = 0
  · simp only [h0, if_true]
    rfl
  · simp only [if_neg h0]
    cases procPagetable L (kalloc s.mem).1 (kalloc s.mem).2 with
    | error e => rfl
    | ok res =>
      simp only [returns_bind]
      by_cases ht : res.1 = 0
      · simp only [ht, if_true]
        rfl
      · simp only [if_neg ht]
        rfl

section
variable (h : Sound L s own T U)
include h

theorem allocproc_spec :
    Outcome E (allocproc L s) fun res =>
      (res.1 = none ∧ ∃ m' n, res.2 = {s with mem := m', nextpid := n} ∧
        Unchanged L T U own s.mem m') ∨
      ∃ p r frame m' own', p < nproc ∧ s.proc p = .zero ∧
        res = (some p, allocated s p frame r m') ∧ Spawned L T U r frame own s.mem own' m' := by
  cases hfind : (List.range nproc).find? fun p => (s.proc p).state = .unused with
  | none =>
    unfold allocproc
    rw [hfind]
    exact .inl ⟨rfl, s.mem, s.nextpid, rfl, h.owned, .refl, fun _ _ => rfl⟩
  | some p =>
    have hlt : p < nproc := List.mem_range.mp (List.mem_of_find?_eq_some hfind)
    have hfound := List.find?_some hfind
    have hunused : (s.proc p).state = .unused := of_decide_eq_true hfound
    have hzero : s.proc p = .zero := (h.slot p).resolve_right fun hlive => hlive.started hunused
    rw [allocproc_some hfind hzero]
    rcases h.owned.kalloc_spec with hnull | ⟨frame, m1, hk, hframe, hframe0, hs1, hb1, h1⟩
    · simp only [hnull, if_true]
      rw [freeproc_allocated hzero rfl]
      exact .inl ⟨rfl, s.mem, _, rfl, h.owned, .refl, fun _ _ => rfl⟩
    simp only [hk, if_neg hframe0]
    have hheld : update own frame Owner.held frame = .held := update_self ..
    refine (h1.procPagetable_spec frame).bind ?_
    rintro ⟨r, m2⟩ (⟨hr, hsame⟩ | ⟨own', hnew⟩)
    · obtain rfl : r = 0 := hr
      obtain ⟨m3, hm3, hs3, hb3, h3⟩ := hsame.owned.pageKfree_spec hheld
      have hback : update (update own frame .held) frame .free = own := by
        rw [update_idem, ← hframe, update_eq_self]
      rw [hback] at h3
      simp only [if_true]
      rw [freeproc_allocated hzero (by rw [if_pos hframe0]; exact hm3)]
      refine .inl ⟨rfl, m3, _, rfl, h3, ?_, fun x hx => ?_⟩
      · exact ((h.owned.sameEntries hs1).trans hsame.entries).trans (hsame.owned.sameEntries hs3)
      · have hne : x ≠ frame := by
          rintro rfl
          exact hx hframe
        rw [hb3 x hne, hsame.bytes x (by rwa [update_of_ne hne]), hb1 x hx]
    · have hrf : r ≠ frame := fun heq => by
        have hfresh := hnew.fresh
        rw [heq, hheld] at hfresh
        cases hfresh
      rw [if_neg hnew.ne_zero]
      refine .inr ⟨p, r, frame, m2, own', hlt, hzero, rfl, hnew.ne_zero, hframe0, ?_, hframe,
        hnew.extended.owned, hnew.extended.grows, (h.owned.sameEntries hs1).trans hnew.entries,
        fun x hx => ?_, hnew.layout⟩
      · grind [Created.fresh, update_of_ne]
      · have hne : x ≠ frame := by
          rintro rfl
          exact hx hframe
        rw [hnew.extended.bytes x (by rwa [update_of_ne hne]), hb1 x hx]

theorem spawn (pr : Proc) (hspawn : Spawned L T U pr.pagetable pr.trapframe own s.mem own' s'.mem)
    (hstate : pr.state ≠ .unused) (hsz : pr.sz ≤ trapframe)
    (hproc : s'.proc = update s.proc p pr) :
    Sound L s' own' (insert pr.pagetable T) (insert pr.pagetable U) := by
  refine h.setProc hproc hspawn.owned (fun q hq hlive => ?_) (.inr ?_)
    (fun _ q _ => h.pagetable_ne_free hspawn.root_fresh hspawn.root_ne_zero q)
    fun _ q _ => h.trapframe_ne_free hspawn.frame_fresh hspawn.frame_ne_zero q
  · refine hlive.congr (Set.mem_insert_of_mem _ hlive.root) ?_
      (fun va hva _ => hspawn.entries _ (h.owned.sub hlive.root) va hva) fun x va hx => hspawn.user hx
    rw [hspawn.keeps (by rw [hlive.frame]; nofun), hlive.frame]
  · refine ⟨hstate, Set.mem_insert .., hspawn.held, hspawn.layout, hsz, fun x va hx => ?_⟩
    exact absurd (.inr ⟨va, hspawn.user hx⟩)
      (h.owned.not_belongsTo (h.owned.free_notMem hspawn.root_fresh) x)

theorem unspawn {m1 m2 : Memory} {own2 : ℕ → Owner}
    (hspawn : Spawned L T U r frame own s.mem own1 m1)
    (hext : Extends L (insert r T) (insert r U) r ∅ own1 m1 own2 m2)
    (hent : SameElse (insert r T) r 0 trapframe m1 m2)
    (hd : Dropped L (insert r T) (insert r U) r (update own2 frame .free) m2 own' m') :
    Unchanged L T U own s.mem m' := by
  have hrT := h.owned.free_notMem hspawn.root_fresh
  have hgrows := (hspawn.grows.trans hext.grows).release hspawn.frame_fresh
  refine hd.unchanged h.owned hspawn.root_fresh hgrows (hspawn.entries.trans (hent.rest hrT)) fun x hx => ?_
  rw [hext.bytes x (by rwa [hspawn.keeps hx]), hspawn.bytes x hx]

/-! ### Forking -/

/-- The state after `kfork` of `p` has made the process `np`. -/
def forked (s : Os) (p np frame table : ℕ) (m : Memory) : Os :=
  {s with
    mem := m
    nextpid := int32 (s.nextpid + 1)
    proc := update s.proc np {newProc s.nextpid frame table with
      sz := (s.proc p).sz, parent := some p, state := .runnable}}

section
variable (hp : Live L own U s.mem (s.proc p))
include hp

theorem forkMemory_spec :
    Outcome E (forkMemory L p s) fun res =>
      (res.1 = none ∧ ∃ m' n, res.2 = {s with mem := m', nextpid := n} ∧
        Unchanged L T U own s.mem m') ∨
      ∃ np r frame m1 own1 m' own', np < nproc ∧ s.proc np = .zero ∧
        res = (some np, forked s p np frame r m') ∧ Spawned L T U r frame own s.mem own1 m1 ∧
        Copies L (insert r T) (insert r U) (s.proc p).pagetable r (pgroundup (s.proc p).sz)
          own1 m1 own' m' := by
  unfold forkMemory
  refine h.allocproc_spec.bind ?_
  rintro ⟨found, s1⟩ (⟨hnone, m', n, hs1, hsame⟩ | ⟨np, r, frame, m1, own1, hlt, hzero, heq, hspawn⟩)
  · obtain rfl : found = none := hnone
    exact .inl ⟨rfl, m', n, hs1, hsame⟩
  obtain ⟨rfl, rfl⟩ : found = some np ∧ s1 = allocated s np frame r m1 := Prod.mk.inj heq
  have hne : p ≠ np := by
    rintro rfl
    exact hp.started (by rw [hzero]; rfl)
  have hparent : (allocated s np frame r m1).proc p = s.proc p := update_of_ne hne ..
  have hchild : (allocated s np frame r m1).proc np = newProc s.nextpid frame r := update_self ..
  have hsound : Sound L (allocated s np frame r m1) own1 (insert r T) (insert r U) :=
    h.spawn (newProc s.nextpid frame r) hspawn nofun (Nat.zero_le _) rfl
  have hlive := hsound.live (p := np) (by rw [hchild]; nofun)
  have hroot : (s.proc p).pagetable ≠ r := h.pagetable_ne_free hspawn.root_fresh hspawn.root_ne_zero p
  have hfresh : ∀ x va, own1 x ≠ .user r va := fun x va hx =>
    h.owned.not_belongsTo (h.owned.free_notMem hspawn.root_fresh) x (.inr ⟨va, hspawn.user hx⟩)
  dsimp only
  rw [hparent, hchild]
  refine (hspawn.owned.uvmcopy_spec (Set.mem_insert_of_mem r hp.root) (Set.mem_insert ..) hroot
    hp.size hfresh).bind ?_
  rintro ⟨result, m2⟩ ⟨own2, ⟨hres, hcopies⟩ | ⟨hres, hext, hent⟩⟩
  · obtain rfl : result = 0 := hres
    refine .inr ⟨np, r, frame, m1, own1, m2, own2, hlt, hzero, ?_, hspawn, hcopies⟩
    simp only [Os.setProc, allocated, forked, update_self, update_idem]
  · obtain rfl : result = -1 := hres
    simp only [if_pos (show (-1 : ℤ) < 0 by decide)]
    have hsound2 : Sound L {allocated s np frame r m1 with mem := m2} own2 (insert r T) (insert r U) := by
      have hpt : ((allocated s np frame r m1).proc np).pagetable = r := by
        rw [hchild]
        rfl
      exact hsound.fill hlive hpt hext hent le_rfl fun va hva => absurd hva (Set.notMem_empty va)
    have hlive2 := hsound2.live (p := np) hlive.started
    obtain ⟨m3, own3, hm3, hd⟩ := hsound2.freeproc_spec hlive2
    rw [hchild] at hd
    rw [hm3]
    refine .inl ⟨rfl, m3, int32 (s.nextpid + 1), ?_, h.unspawn hspawn hext hent hd⟩
    simp only [Os.setProc, allocated, update_idem]
    rw [← hzero, update_eq_self]

theorem kfork_spec :
    Outcome E (kfork L p s) fun res =>
      (res.1 = -1 ∧ ∃ m' n, res.2 = {s with mem := m', nextpid := n} ∧
        Unchanged L T U own s.mem m') ∨
      ∃ np r frame m1 own1 m' own', np < nproc ∧ s.proc np = .zero ∧
        res = (s.nextpid, forked s p np frame r m') ∧ Spawned L T U r frame own s.mem own1 m1 ∧
        Copies L (insert r T) (insert r U) (s.proc p).pagetable r (pgroundup (s.proc p).sz)
          own1 m1 own' m' := by
  unfold kfork
  refine (h.forkMemory_spec hp).bind ?_
  rintro ⟨child, s'⟩ (⟨hnone, hun⟩ | ⟨np, r, frame, m1, own1, m', own', hlt, hzero, heq, hspawn, hcopies⟩)
  · obtain rfl : child = none := hnone
    exact .inl ⟨rfl, hun⟩
  · obtain ⟨rfl, rfl⟩ : child = some np ∧ s' = forked s p np frame r m' := Prod.mk.inj heq
    refine .inr ⟨np, r, frame, m1, own1, m', own', hlt, hzero, ?_, hspawn, hcopies⟩
    dsimp only [forked]
    rw [update_self]
    rfl

theorem forked_sound (np : ℕ) {m1 : Memory} (hspawn : Spawned L T U r frame own s.mem own1 m1)
    (hcopies : Copies L (insert r T) (insert r U) (s.proc p).pagetable r (pgroundup (s.proc p).sz)
      own1 m1 own' m') :
    Sound L (forked s p np frame r m') own' (insert r T) (insert r U) := by
  have hsound : Sound L (forked s p np frame r m1) own1 (insert r T) (insert r U) :=
    h.spawn (p := np) {newProc s.nextpid frame r with
      sz := (s.proc p).sz, parent := some p, state := .runnable} hspawn nofun hp.size rfl
  have hchild : (forked s p np frame r m1).proc np = {newProc s.nextpid frame r with
      sz := (s.proc p).sz, parent := some p, state := .runnable} := update_self ..
  have hlive := hsound.live (p := np) (by rw [hchild]; nofun)
  have hpt : ((forked s p np frame r m1).proc np).pagetable = r := by
    rw [hchild]
    rfl
  have hsz : ((forked s p np frame r m1).proc np).sz = (s.proc p).sz := by rw [hchild]
  exact hsound.fill hlive hpt hcopies.extended hcopies.entries (pgroundup_le hp.size) fun va hva => by
    rw [hsz]
    exact hva.2

end

end

end Sound

end Xv6.Vm
