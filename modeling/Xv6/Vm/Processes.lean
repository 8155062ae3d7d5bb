import Xv6.Vm.Copy
import Xv6.Vm.Spaces

/-! Processes and the pages they own (`kernel/proc.c`).

`Sound L s own T U`: each slot of the process table is unused, or its process has a page
table and a trapframe of its own and maps no user page from its size on (`Live`). Every call
below returns from such a state, and says what it does to the owners of pages; one that
fails leaves them as they were (`Unchanged`). -/
namespace Xv6.Vm
open Function
open Linked Radix

variable {L : Linker} {s s' : Os} {m m' : Memory} {own own1 own' : ℕ → Owner} {T U T' U' : Set ℕ}
  {p q r x va sz frame lo hi : ℕ} {pr : Proc} {E : Stop → Prop}

/-- A process: its page table, its trapframe, and user memory up to its size. -/
structure Live (L : Linker) (own : ℕ → Owner) (U : Set ℕ) (m : Memory) (pr : Proc) : Prop where
  started : pr.state ≠ .unused
  root : pr.pagetable ∈ U
  frame : own pr.trapframe = .held
  layout : Layout L pr.pagetable pr.trapframe m
  size : pr.sz ≤ trapframe
  below : ∀ x va, own x = .user pr.pagetable va → va < pgroundup pr.sz

structure Sound (L : Linker) (s : Os) (own : ℕ → Owner) (T U : Set ℕ) : Prop where
  owned : Owned L s.mem own T U
  slot : ∀ p, s.proc p = .zero ∨ Live L own U s.mem (s.proc p)
  tables : ∀ {p q}, (s.proc p).pagetable ≠ 0 → (s.proc p).pagetable = (s.proc q).pagetable → p = q
  frames : ∀ {p q}, (s.proc p).trapframe ≠ 0 → (s.proc p).trapframe = (s.proc q).trapframe → p = q

/-- A page changes its owner only from the free list or to it. -/
def Passes (own own' : ℕ → Owner) : Prop := ∀ x, own x ≠ .free → own' x ≠ .free → own' x = own x

/-- What a call does to pages and page tables: those of the kernel stay, and a process has the one that
it had, a new one, or none. -/
structure Moves (L : Linker) (s : Os) (own : ℕ → Owner) (T U : Set ℕ) (s' : Os) (own' : ℕ → Owner)
    (T' U' : Set ℕ) : Prop where
  sound : Sound L s' own' T' U'
  kernel : s'.kernelPagetable = s.kernelPagetable
  fixed : T \ U ⊆ T' \ U'
  passes : Passes own own'
  tables : ∀ q, (s'.proc q).pagetable = (s.proc q).pagetable ∨ own (s'.proc q).pagetable = .free ∨
    (s'.proc q).pagetable = 0

def Consistent (L : Linker) (s : Os) : Prop := ∃ own T U, Sound L s own T U

/-- What growing by `n` returns, and the size it leaves. A size cannot fall by more than there is. -/
def Resized (p : ℕ) (n : ℤ) (s : Os) (res : ℤ × Os) : Prop :=
  ∃ sz, res.2.proc = update s.proc p {s.proc p with sz := sz} ∧ (res.1 = -1 ∧ sz = (s.proc p).sz ∨
    res.1 = 0 ∧ sz ≤ (s.proc p).sz + n.toNat ∧ (0 ≤ n → sz = (s.proc p).sz + n.toNat))

theorem Live.congr (h : Live L own U m pr) (hroot : pr.pagetable ∈ U')
    (hframe : own' pr.trapframe = .held)
    (hent : ∀ va < sv39, trapframe ≤ va → entry pr.pagetable va m' = entry pr.pagetable va m)
    (huser : ∀ x va, own' x = .user pr.pagetable va → own x = .user pr.pagetable va) :
    Live L own' U' m' pr :=
  ⟨h.started, hroot, hframe, h.layout.congr hent, h.size, fun x va hx => h.below x va (huser x va hx)⟩

theorem Moves.refl (h : Sound L s own T U) : Moves L s own T U s own T U :=
  ⟨h, rfl, le_rfl, fun _ _ _ => rfl, fun _ => .inl rfl⟩

theorem Moves.resized (h : Sound L s' own' T U) (hkernel : s'.kernelPagetable = s.kernelPagetable)
    (hproc : s'.proc = update s.proc p {s.proc p with sz := sz}) (hpasses : Passes own own') :
    Moves L s own T U s' own' T U := by
  refine ⟨h, hkernel, le_rfl, hpasses, fun q => .inl ?_⟩
  rw [hproc]
  grind

namespace Sound

section
variable (h : Sound L s own T U)
include h

theorem live (hp : (s.proc p).state ≠ .unused) : Live L own U s.mem (s.proc p) := by
  refine (h.slot p).resolve_left fun hzero => hp ?_
  rw [hzero]
  rfl

theorem pagetable_ne_zero (hp : Live L own U s.mem (s.proc p)) : (s.proc p).pagetable ≠ 0 := by
  have hown := (h.owned.nodes (h.owned.sub hp.root)).mp root_mem_nodes
  exact h.owned.ne_zero (Owned.table_ne_other hown)

theorem trapframe_ne_zero (hp : Live L own U s.mem (s.proc p)) : (s.proc p).trapframe ≠ 0 := by
  refine h.owned.ne_zero ?_
  rw [hp.frame]
  nofun

/-- One slot and memory change. The other processes stay as they are, and the new page table
and trapframe are no other's. -/
theorem setProc (hproc : s'.proc = update s.proc p pr) (howned : Owned L s'.mem own' T' U')
    (hothers : ∀ q, q ≠ p → Live L own U s.mem (s.proc q) → Live L own' U' s'.mem (s.proc q))
    (hp : pr = .zero ∨ Live L own' U' s'.mem pr)
    (htable : pr.pagetable ≠ 0 → ∀ q, q ≠ p → (s.proc q).pagetable ≠ pr.pagetable)
    (hframe : pr.trapframe ≠ 0 → ∀ q, q ≠ p → (s.proc q).trapframe ≠ pr.trapframe) :
    Sound L s' own' T' U' := by
  refine ⟨howned, fun q => ?_, fun {q q'} h0 heq => ?_, fun {q q'} h0 heq => ?_⟩
  · rw [hproc]
    by_cases hq : q = p
    · subst hq
      rw [update_self]
      exact hp
    · rw [update_of_ne hq]
      exact (h.slot q).imp_right (hothers q hq)
  all_goals
    rw [hproc] at h0 heq
    by_cases hq : q = p
    · grind
    · grind [Sound.tables, Sound.frames, update_of_ne]

theorem pagetable_ne (hp : Live L own U s.mem (s.proc p)) (hq : q ≠ p) :
    (s.proc q).pagetable ≠ (s.proc p).pagetable := fun heq =>
  hq (h.tables (h.pagetable_ne_zero hp) heq.symm).symm

theorem trapframe_ne (hp : Live L own U s.mem (s.proc p)) (hq : q ≠ p) :
    (s.proc q).trapframe ≠ (s.proc p).trapframe := fun heq =>
  hq (h.frames (h.trapframe_ne_zero hp) heq.symm).symm

theorem transfer (hproc : s'.proc = s.proc) (howned : Owned L s'.mem own' T U)
    (hent : SameEntries U s.mem s'.mem) (hheld : ∀ x, own x = .held → own' x = .held)
    (huser : ∀ x r va, own' x = .user r va → own x = .user r va) : Sound L s' own' T U := by
  refine ⟨howned, fun q => ?_, fun {q q'} => ?_, fun {q q'} => ?_⟩
  · rw [hproc]
    refine (h.slot q).imp_right fun hq => ?_
    exact hq.congr hq.root (hheld _ hq.frame) (fun va hva _ => hent _ hq.root va hva)
      fun x va hx => huser x _ va hx
  · rw [hproc]
    exact h.tables
  · rw [hproc]
    exact h.frames

theorem unchanged (hm : Unchanged L T U own s.mem m') (n : ℤ) :
    Moves L s own T U {s with mem := m', nextpid := n} own T U :=
  ⟨h.transfer rfl hm.owned (fun r hr => hm.entries r (h.owned.sub hr)) (fun _ hx => hx) fun _ _ _ hx => hx,
    rfl, le_rfl, fun _ _ _ => rfl, fun _ => .inl rfl⟩

theorem relabel (hmem : s'.mem = s.mem)
    (hslot : ∀ q, s'.proc q = s.proc q ∨ (s.proc q).state ≠ .unused ∧ (s'.proc q).state ≠ .unused)
    (htable : ∀ q, (s'.proc q).pagetable = (s.proc q).pagetable)
    (hframe : ∀ q, (s'.proc q).trapframe = (s.proc q).trapframe)
    (hsz : ∀ q, (s'.proc q).sz = (s.proc q).sz) : Sound L s' own T U := by
  refine ⟨hmem ▸ h.owned, fun q => ?_, fun {q q'} h0 heq => ?_, fun {q q'} h0 heq => ?_⟩
  · rw [hmem]
    rcases hslot q with hsame | ⟨hold, hnew⟩
    · rw [hsame]
      exact h.slot q
    · have hlive := h.live hold
      refine .inr ⟨hnew, ?_, ?_, ?_, ?_, ?_⟩
      · exact htable q ▸ hlive.root
      · exact hframe q ▸ hlive.frame
      · exact htable q ▸ hframe q ▸ hlive.layout
      · exact hsz q ▸ hlive.size
      · exact htable q ▸ hsz q ▸ hlive.below
  · grind [Sound.tables]
  grind [Sound.frames]

theorem mark {f : Proc → Proc} (hp : (s.proc p).state ≠ .unused)
    (hstate : (f (s.proc p)).state ≠ .unused) (htable : (f (s.proc p)).pagetable = (s.proc p).pagetable)
    (hframe : (f (s.proc p)).trapframe = (s.proc p).trapframe) (hsz : (f (s.proc p)).sz = (s.proc p).sz) :
    Sound L (s.setProc p f) own T U := by
  have hself : (s.setProc p f).proc p = f (s.proc p) := update_self ..
  have hother : ∀ q, q ≠ p → (s.setProc p f).proc q = s.proc q := fun q hq => update_of_ne hq ..
  refine h.relabel rfl (fun q => ?_) (fun q => ?_) (fun q => ?_) fun q => ?_
  all_goals
    by_cases hq : q = p
    · grind
    · grind

section
variable (hp : Live L own U s.mem (s.proc p))
include hp

theorem extend {V : Set ℕ}
    (hproc : s'.proc = update s.proc p {s.proc p with sz := sz})
    (hext : Extends L T U (s.proc p).pagetable V own s.mem own' s'.mem)
    (hent : SameElse T (s.proc p).pagetable lo hi s.mem s'.mem) (hhi : hi ≤ trapframe)
    (hle : (s.proc p).sz ≤ sz) (hsz : sz ≤ trapframe) (hV : ∀ va ∈ V, va < pgroundup sz) :
    Sound L s' own' T U := by
  have hkeep : ∀ {o}, own o = .held → own' o = .held := fun {o} ho =>
    (hext.grows.keeps (by rw [ho]; nofun)).trans ho
  have hhigh : ∀ q ∈ T, ∀ va < sv39, trapframe ≤ va → entry q va s'.mem = entry q va s.mem :=
    fun q hq va hva hle => hent q hq va hva (.inr (.inr (hhi.trans hle)))
  refine h.setProc hproc hext.owned (fun q hq hlive => ?_) (.inr ?_)
    (fun _ q hq => h.pagetable_ne hp hq) fun _ q hq => h.trapframe_ne hp hq
  · refine hlive.congr hlive.root (hkeep hlive.frame) (hhigh _ (h.owned.sub hlive.root)) ?_
    intro x va hx
    rcases hext.grows x with hsame | ⟨_, htable | ⟨b, _, huser⟩⟩
    · exact hsame.symm.trans hx
    · cases htable.symm.trans hx
    grind [Sound.pagetable_ne]
  · refine ⟨hp.started, hp.root, hkeep hp.frame, hp.layout.congr (hhigh _ (h.owned.sub hp.root)),
      hsz, fun x va hx => ?_⟩
    rcases hext.grows x with hsame | ⟨_, htable | ⟨b, hb, huser⟩⟩
    · exact Nat.lt_of_lt_of_le (hp.below x va (hsame.symm.trans hx)) (pgroundup_mono hle hsz)
    · cases htable.symm.trans hx
    grind

theorem shrink (hle : sz ≤ (s.proc p).sz)
    (hs : Shrinks L T U (s.proc p).pagetable (pgroundup sz) (pgroundup (s.proc p).sz) own s.mem own' m') :
    Sound L ({s with mem := m'}.setProc p fun pr => {pr with sz := sz}) own' T U := by
  have hkeep : ∀ {o}, own o = .held → own' o = .held := by
    intro o ho
    rcases hs.unmaps o with ⟨⟨va, hva, _⟩, _⟩ | ⟨_, hsame⟩
    · cases ho.symm.trans hva
    · exact hsame.trans ho
  have hhigh : ∀ q ∈ T, ∀ va < sv39, trapframe ≤ va → entry q va m' = entry q va s.mem :=
    fun q hq va hva hle => hs.entries q hq va hva (.inr (.inr (Nat.le_trans (pgroundup_le hp.size) hle)))
  have huser : ∀ {x q va}, own' x = .user q va → own x = .user q va := fun {x q va} hx =>
    (hs.unmaps.keeps (by rw [hx]; nofun)).symm.trans hx
  refine h.setProc rfl hs.owned (fun q hq hlive => ?_) (.inr ?_)
    (fun _ q hq => h.pagetable_ne hp hq) fun _ q hq => h.trapframe_ne hp hq
  · exact hlive.congr hlive.root (hkeep hlive.frame) (hhigh _ (h.owned.sub hlive.root))
      fun _ _ hx => huser hx
  · refine ⟨hp.started, hp.root, hkeep hp.frame, hp.layout.congr (hhigh _ (h.owned.sub hp.root)),
      hle.trans hp.size, fun x va hx => ?_⟩
    have hlt := hp.below x va (huser hx)
    rcases hs.unmaps x with ⟨_, hfree⟩ | ⟨hnot, _⟩
    · cases hfree.symm.trans hx
    · by_contra hge
      exact hnot ⟨va, huser hx, not_lt.mp hge, hlt⟩

theorem fill {V : Set ℕ}
    (hr : (s.proc p).pagetable = r) (hext : Extends L T U r V own s.mem own' m')
    (hent : SameElse T r lo hi s.mem m') (hhi : hi ≤ trapframe)
    (hV : ∀ va ∈ V, va < pgroundup (s.proc p).sz) : Sound L {s with mem := m'} own' T U := by
  subst hr
  have hproc : s.proc = update s.proc p {s.proc p with sz := (s.proc p).sz} :=
    (update_eq_self p s.proc).symm
  exact h.extend hp hproc hext hent hhi le_rfl hp.size hV

/-! ### Growing and shrinking -/

theorem growproc_spec {n : ℤ} (hn : n < 2 ^ 31) : Outcome E (growproc L p n s) fun res =>
      (∃ own', Moves L s own T U res.2 own' T U) ∧ Resized p n s res := by
  unfold growproc
  by_cases hpos : 0 < n
  · have hsum : uint64 ((s.proc p).sz + n) = (s.proc p).sz + n.toNat := by
      have hcast : (((s.proc p).sz : ℤ) + n) = (((s.proc p).sz + n.toNat : ℕ) : ℤ) := by omega
      have hsz := hp.size
      rw [trapframe_eq] at hsz
      rw [hcast]
      refine uint64_of_lt ?_
      unfold pgsize at hsz
      omega
    simp only [if_pos hpos, hsum]
    by_cases htop : trapframe < (s.proc p).sz + n.toNat
    · rw [if_pos htop]
      exact ⟨⟨own, .refl h⟩, _, (update_eq_self ..).symm, .inl ⟨rfl, rfl⟩⟩
    rw [if_neg htop]
    refine (h.owned.uvmalloc_spec hp.root hp.size (by decide) hp.below
      (.inl (not_lt.mp htop))).bind ?_
    rintro ⟨sz, m'⟩ ⟨own', ⟨hsz, hle, hfill⟩ | ⟨hsz, hext, hent⟩⟩
    · dsimp only at hsz hle hfill
      have hne : sz ≠ 0 := by omega
      have hsum' : sz = (s.proc p).sz + n.toNat := by omega
      rw [if_neg hne]
      refine ⟨⟨own', .resized (h.extend hp rfl hfill.extended hfill.entries (pgroundup_le hle) (by omega)
        hle ?_) rfl rfl fun x hx _ => hfill.extended.grows.keeps hx⟩,
        sz, rfl, .inr ⟨rfl, hsum'.le, fun _ => hsum'⟩⟩
      exact fun va hva => hva.2
    · dsimp only at hsz hext hent
      rw [if_pos hsz]
      have hsame := (update_eq_self p s.proc).symm
      exact ⟨⟨own', .resized (h.fill hp rfl hext hent le_rfl fun va hva => absurd hva (Set.notMem_empty va))
        rfl hsame fun x hx _ => hext.grows.keeps hx⟩, _, hsame, .inl ⟨rfl, rfl⟩⟩
  simp only [if_neg hpos]
  by_cases hneg : n < 0
  · simp only [if_pos hneg]
    refine (h.owned.uvmdealloc_spec hp.root hp.size).bind ?_
    rintro ⟨sz, m'⟩ ⟨hsz, own', hs⟩
    dsimp only at hsz
    have hle : sz ≤ (s.proc p).sz := hsz ▸ min_le_left ..
    rw [← hsz] at hs
    exact ⟨⟨own', .resized (h.shrink hp hle hs) rfl rfl fun x _ hx => hs.unmaps.keeps hx⟩, sz, rfl,
      .inr ⟨rfl, Nat.le_add_right_of_le hle, fun hn => absurd hneg (not_lt.mpr hn)⟩⟩
  · simp only [if_neg hneg]
    have hzero : n.toNat = 0 := by omega
    exact ⟨⟨own, .refl h⟩, _, (update_eq_self ..).symm,
      .inr ⟨rfl, Nat.le_add_right .., fun _ => by rw [hzero, Nat.add_zero]⟩⟩

theorem sysSbrk_spec {n : ℤ} (t : ℤ) (hn : n < 2 ^ 31) :
    Outcome E (sysSbrk L p n t s) fun res => ∃ own', Moves L s own T U res.2 own' T U := by
  unfold sysSbrk
  dsimp only
  split
  · refine (h.growproc_spec hp hn).bind ?_
    rintro ⟨result, s'⟩ ⟨hs', -⟩
    split <;> exact hs'
  · split
    · exact ⟨own, .refl h⟩
    · rename_i hge
      split
      · exact ⟨own, .refl h⟩
      · rename_i hle
        have hent : SameElse T (s.proc p).pagetable 0 0 s.mem s.mem := .refl
        refine ⟨own, .resized (h.extend hp rfl (V := ∅) (.refl h.owned) hent
          (Nat.zero_le _) (not_lt.mp hge) (not_lt.mp hle) ?_) rfl rfl fun _ _ _ => rfl⟩
        exact fun va hva => absurd hva (Set.notMem_empty va)

end

end

end Sound

/-! ### Faults -/

def faultPerm : ℕ := pteW ||| pteU ||| pteR

theorem pgrounddown_mod (va : ℕ) : pgrounddown va % pgsize = 0 := Nat.mul_mod_left ..

theorem pgrounddown_le (va : ℕ) : pgrounddown va ≤ va := Nat.div_mul_le_self ..

theorem pgrounddown_page (va : ℕ) : va / pgsize = pgrounddown va / pgsize := by
  rw [pgrounddown, Nat.mul_div_cancel _ (by decide)]

/-- The page `mem` is mapped where a process faulted. -/
structure Faulted (L : Linker) (T U : Set ℕ) (r va mem : ℕ) (own : ℕ → Owner) (m : Memory)
    (own' : ℕ → Owner) (m' : Memory) : Prop where
  fresh : own mem = .free
  mine : own' mem = .user r (pgrounddown va)
  extended : Extends L T U r {pgrounddown va} own m own' m'
  entry : SetEntry T r (pgrounddown va) (mkPte mem faultPerm) m m'
  missing : valid (Vm.entry r (pgrounddown va) m) = false

/-- The page `mem` could not be mapped where a process faulted, and is still held. -/
structure Unmappable (L : Linker) (T U : Set ℕ) (r mem : ℕ) (own : ℕ → Owner) (m : Memory)
    (own' : ℕ → Owner) (m' : Memory) : Prop where
  fresh : own mem = .free
  held : own' mem = .held
  owned : Owned L m' own' T U
  grows : Grows r ∅ own (update own' mem .free)
  entries : SameEntries T m m'
  bytes : SameBytes own m m'

namespace Unmappable

variable {mem : ℕ}

theorem keeps (h : Unmappable L T U r mem own m own' m') (hx : own x ≠ .free) : own' x = own x := by
  have hne : x ≠ mem := by
    rintro rfl
    exact hx h.fresh
  have hkeep := h.grows.keeps hx
  rwa [update_of_ne hne] at hkeep

theorem user (h : Unmappable L T U r mem own m own' m') (hx : own' x = .user q va) :
    own x = .user q va := by
  have hne : x ≠ mem := by
    rintro rfl
    cases h.held.symm.trans hx
  refine h.grows.user ?_
  rwa [update_of_ne hne]

end Unmappable

/-- A fault of the process `p` in its user memory gets a page, and then a page for the page table
is missing. -/
def NoTablePage (p va : ℕ) (s : Os) : Prop :=
  va < (s.proc p).sz ∧ valid (entry (s.proc p).pagetable (pgrounddown va) s.mem) = false ∧
    (kalloc s.mem).1 ≠ 0 ∧
    (mappages (s.proc p).pagetable (pgrounddown va) pgsize (kalloc s.mem).1 faultPerm
      (memset (kalloc s.mem).1 0 (kalloc s.mem).2)).toOption.map Prod.fst = some (-1)
deriving Decidable

namespace Sound

section
variable (h : Sound L s own T U)
include h

section
variable (hp : Live L own U s.mem (s.proc p))
include hp

theorem fault_cases (hlt : va < (s.proc p).sz)
    (hinv : valid (entry (s.proc p).pagetable (pgrounddown va) s.mem) = false) :
    kalloc s.mem = (0, s.mem) ∨ ∃ mem m1 m2 own', kalloc s.mem = (mem, m1) ∧ mem ≠ 0 ∧
      ((mappages (s.proc p).pagetable (pgrounddown va) pgsize mem faultPerm (memset mem 0 m1) =
          .ok (0, m2) ∧ Faulted L T U (s.proc p).pagetable va mem own s.mem own' m2) ∨
        (mappages (s.proc p).pagetable (pgrounddown va) pgsize mem faultPerm (memset mem 0 m1) =
          .ok (-1, m2) ∧ Unmappable L T U (s.proc p).pagetable mem own s.mem own' m2)) := by
  rcases h.owned.kalloc_spec with hnull | ⟨mem, m1, hk, hmem, hmem0, hs1, hb1, h1⟩
  · exact .inl hnull
  have hheld : update own mem Owner.held mem = .held := update_self ..
  have htop : pgrounddown va < trapframe :=
    Nat.lt_of_le_of_lt (pgrounddown_le va) (hlt.trans_le hp.size)
  have hent : SameEntries T s.mem (memset mem 0 m1) := (h.owned.sameEntries hs1).trans
    (h1.sameEntries (Owned.sameTables_memset (Owned.held_ne_table hheld)))
  have hb : SameBytes own s.mem (memset mem 0 m1) := by
    intro x hx
    have hne : x ≠ mem := by
      rintro rfl
      exact hx hmem
    exact (Owned.memset_bytes_ne hne).trans (hb1 x hx)
  obtain ⟨⟨res, m2⟩, heq, hb2, hcases⟩ := Outcome.total.mp (h.owned.mapFresh hmem
    (h1.fill hheld 0) hent hb hp.root htop (pgrounddown_mod va) hinv (by decide : faultPerm < 2 ^ 10) rfl)
  rcases hcases with ⟨hres, hset, _, own', hmine, hext⟩ | ⟨hres, hent2, own', h2, hheld2, hgrows⟩
  · obtain rfl : res = 0 := hres
    exact .inr ⟨mem, m1, m2, own', hk, hmem0, .inl ⟨heq, hmem, hmine, hext, hset, hinv⟩⟩
  · obtain rfl : res = -1 := hres
    exact .inr ⟨mem, m1, m2, own', hk, hmem0, .inr ⟨heq, hmem, hheld2, h2, hgrows, hent2, hb2⟩⟩

/-- What `vmfault` does for a process: nothing, or it maps a page. A page that it cannot map
it hands to `kfree` of the slab allocator. -/
theorem vmfault_cases (va : ℕ) :
    (¬ NoTablePage p va s ∧ vmfault p (s.proc p).pagetable va s = .ok (0, s)) ∨
      (va < (s.proc p).sz ∧ ¬ NoTablePage p va s ∧
        ∃ mem own' m', vmfault p (s.proc p).pagetable va s = .ok (mem, {s with mem := m'}) ∧
          Faulted L T U (s.proc p).pagetable va mem own s.mem own' m') ∨
      (NoTablePage p va s ∧ ∃ mem own' m', Unmappable L T U (s.proc p).pagetable mem own s.mem own' m' ∧
        vmfault p (s.proc p).pagetable va s =
          liftFault (Slab.kfree mem s.slab) >>= fun k => .ok (0, {s with mem := m', slab := k})) := by
  unfold vmfault
  by_cases hsz : (s.proc p).sz ≤ va
  · rw [if_pos hsz]
    exact .inl ⟨fun hmissing => absurd hmissing.1 hsz.not_gt, rfl⟩
  have hlt : va < (s.proc p).sz := not_le.mp hsz
  have hmax : ¬ maxva ≤ pgrounddown va := Nat.not_le_of_lt (Nat.lt_of_le_of_lt (pgrounddown_le va)
    (trapframe_lt_maxva (hlt.trans_le hp.size)))
  simp only [if_neg hsz, ismapped, if_neg hmax, returns_bind]
  cases hv : valid (entry (s.proc p).pagetable (pgrounddown va) s.mem) with
  | true => exact .inl ⟨fun hmissing => absurd (hv.symm.trans hmissing.2.1) (by decide), rfl⟩
  | false =>
    simp only [Bool.false_eq_true, if_false]
    rcases h.fault_cases hp hlt hv with hnull | ⟨mem, m1, m2, own', hk, hmem0, ⟨hmap, hf⟩ | ⟨hmap, hu⟩⟩
    · rw [hnull]
      exact .inl ⟨fun hmissing => hmissing.2.2.1 (by rw [hnull]), rfl⟩
    all_goals
      have hmap' := hmap
      unfold faultPerm at hmap'
      simp only [hk, if_neg hmem0, hmap', returns_bind]
    · refine .inr (.inl ⟨hlt, fun hmissing => ?_, mem, own', m2, rfl, hf⟩)
      have hminus := hmissing.2.2.2
      simp only [hk, hmap] at hminus
      cases hminus
    · have hmissing : NoTablePage p va s := by
        refine ⟨hlt, hv, ?_, ?_⟩
        · rw [hk]
          exact hmem0
        · simp only [hk, hmap]
          rfl
      exact .inr (.inr ⟨hmissing, mem, own', m2, hu, rfl⟩)

theorem fault {mem : ℕ}
    (hlt : va < (s.proc p).sz) (hf : Faulted L T U (s.proc p).pagetable va mem own s.mem own' m') :
    Sound L {s with mem := m'} own' T U := by
  have htop : pgrounddown va + pgsize ≤ trapframe := by
    have hle := pgrounddown_le va
    have hmod := pgrounddown_mod va
    have hframe : trapframe % pgsize = 0 := by decide
    have hsz := hp.size
    unfold pgsize at *
    omega
  refine h.fill hp rfl hf.extended (hf.entry.others (pgrounddown_mod va)) htop ?_
  grind [pgrounddown_le, le_pgroundup, Live.size]

theorem vmfault_spec (va : ℕ) :
    Outcome (fun _ => NoTablePage p va s) (vmfault p (s.proc p).pagetable va s) fun res =>
      ∃ own', Moves L s own T U res.2 own' T U := by
  rcases h.vmfault_cases hp va with ⟨-, heq⟩ | ⟨hlt, _, mem, own', m', heq, hf⟩ |
    ⟨hmissing, mem, own', m', hu, heq⟩
  · rw [heq]
    exact ⟨own, .refl h⟩
  · rw [heq]
    exact ⟨own', .resized (h.fault hp hlt hf) rfl (update_eq_self p s.proc).symm
      fun x hx _ => hf.extended.grows.keeps hx⟩
  · rw [heq]
    cases liftFault (Slab.kfree mem s.slab) with
    | error e => exact hmissing
    | ok k =>
      refine ⟨own', h.transfer rfl hu.owned (fun r hr => hu.entries r (h.owned.sub hr)) (fun x hx => ?_)
        (fun x r va => hu.user), rfl, le_rfl, fun x hx _ => hu.keeps hx, fun _ => .inl rfl⟩
      rw [hu.keeps (by rw [hx]; nofun), hx]

end

end

end Sound

end Xv6.Vm
