import Xv6.Vm.Bound

/-! What one process writes, no other reads.

Every user page belongs to one page table, so that writes through the page table of a process leave
the bytes that others read as they are (`Unseen`). Writes are those of the kernel, with `copyout`,
and those of user code (`userStore`), in any number and order. A child of `fork` starts with equal
bytes in pages of its own. -/
namespace Xv6.Vm
open Function
open Linked Radix

variable {L : Linker} {s s' : Os} {m m' : Memory} {own own' : ℕ → Owner} {T U : Set ℕ}
  {p q r x va pa frame : ℕ}

/-- The byte that the process reads at a user address. -/
def readByte (p va : ℕ) (s : Os) : Option ℕ :=
  let pa := walkaddr (s.proc p).pagetable va s.mem
  if pa = 0 then none else some (s.mem.bytes pa (va % pgsize))

def writable (pte : ℕ) : Bool := pte &&& pteW ≠ 0

/-- The hardware lets user code write at the address. -/
def storable (table va : ℕ) (m : Memory) : Bool :=
  walkaddr table va m ≠ 0 && writable (entry table va m)

/-- A store instruction of user code: where it faults, `usertrap` lets it try again once the page
is there, or kills the process. -/
def userStore (p va byte : ℕ) (s : Os) : Except Stop Os := do
  let table := (s.proc p).pagetable
  if storable table va s.mem then
    return {s with mem := s.mem.writeBytes (walkaddr table va s.mem) (va % pgsize) [byte]}
  let (pa, s) ← vmfault p table va s
  if pa ≠ 0 ∧ storable table va s.mem then
    return {s with mem := s.mem.writeBytes (walkaddr table va s.mem) (va % pgsize) [byte]}
  return s.setProc p fun pr => {pr with killed := 1}

/-- The slab allocator stops at a page that `vmfault` gives back to it. -/
def KfreeStops (e : Stop) : Prop := ∃ page k f, Slab.kfree page k = .error f ∧ e = .fault f

inductive Store where
  | copyout (dst : ℕ) (src : List ℕ)
  | user (va byte : ℕ)

/-- Writes through the page table of the process `p`. -/
def stores (p : ℕ) : Protocol Stop Os Store where
  step s
    | .copyout dst src => do
      let (_, s) ← copyout p (s.proc p).pagetable dst src s
      return s
    | .user va byte => userStore p va byte s
  allowed _ _ := True

/-- No process but `p` sees a difference. -/
def Unseen (p : ℕ) (s s' : Os) : Prop :=
  ∀ q, (s'.proc q).state = (s.proc q).state ∧
    (q ≠ p → (s.proc q).state ≠ .unused → ∀ va, readByte q va s' = readByte q va s)

theorem Unseen.refl : Unseen p s s := fun _ => ⟨rfl, fun _ _ _ => rfl⟩

theorem Unseen.trans {s'' : Os} (h : Unseen p s s') (h' : Unseen p s' s'') : Unseen p s s'' := by
  intro q
  refine ⟨(h' q).1.trans (h q).1, fun hq hstate va => ?_⟩
  rw [(h' q).2 hq ((h q).1 ▸ hstate) va, (h q).2 hq hstate va]

/-! ### Who owns what is read -/

theorem user_pteFlags {pte : ℕ} : user (pteFlags pte) = user pte := by
  unfold user pteFlags
  rw [Nat.and_assoc]
  rfl

theorem Layout.not_user (h : Layout L r frame m) (hlt : va < sv39) (hva : trapframe ≤ va)
    (hv : valid (entry r va m) = true) : user (entry r va m) = false := by
  rcases h.high va hlt hva hv with hpage | hpage
  · rw [entry_of_page hpage, h.frame, ← user_pteFlags, pteFlags_mkPte (by decide)]
    decide
  · rw [entry_of_page hpage, h.code, ← user_pteFlags, pteFlags_mkPte (by decide)]
    decide

theorem Layout.below (h : Layout L r frame m) (hlt : va < sv39) (hv : valid (entry r va m) = true)
    (hu : user (entry r va m) = true) : va < trapframe := by
  by_contra hge
  cases hu.symm.trans (h.not_user hlt (not_lt.mp hge) hv)

namespace Sound

section
variable (h : Sound L s own T U)
include h

theorem own_entry (hp : Live L own U s.mem (s.proc p)) (hva : va < trapframe)
    (hv : valid (entry (s.proc p).pagetable va s.mem) = true) :
    own (pte2pa (entry (s.proc p).pagetable va s.mem)) = .user (s.proc p).pagetable (pgrounddown va) := by
  have hentry := entry_of_page (pgrounddown_page va).symm (s.proc p).pagetable s.mem
  rw [← hentry] at hv ⊢
  exact h.owned.mapped hp.root (Nat.lt_of_le_of_lt (pgrounddown_le va) hva) (pgrounddown_mod va) hv

theorem own_walkaddr (hq : Live L own U s.mem (s.proc q))
    (hpa : walkaddr (s.proc q).pagetable va s.mem ≠ 0) :
    own (walkaddr (s.proc q).pagetable va s.mem) = .user (s.proc q).pagetable (pgrounddown va) := by
  unfold walkaddr at hpa ⊢
  by_cases hva : maxva ≤ va
  · grind
  rw [if_neg hva] at hpa ⊢
  by_cases hpte : (valid (entry (s.proc q).pagetable va s.mem) &&
      user (entry (s.proc q).pagetable va s.mem)) = true
  · rw [if_pos hpte]
    obtain ⟨hv, hu⟩ := Bool.and_eq_true_iff.mp hpte
    have hlt := hq.layout.below (maxva_lt_sv39 (not_le.mp hva)) hv hu
    exact h.own_entry hq hlt hv
  grind

theorem readByte_congr (hq : Live L own U s.mem (s.proc q))
    (htable : (s'.proc q).pagetable = (s.proc q).pagetable)
    (hent : ∀ va < sv39, entry (s.proc q).pagetable va s'.mem = entry (s.proc q).pagetable va s.mem)
    (hbytes : ∀ x va, own x = .user (s.proc q).pagetable va → s'.mem.bytes x = s.mem.bytes x) (va : ℕ) :
    readByte q va s' = readByte q va s := by
  have hwalk : walkaddr (s.proc q).pagetable va s'.mem = walkaddr (s.proc q).pagetable va s.mem := by
    unfold walkaddr
    by_cases hva : maxva ≤ va
    · rw [if_pos hva, if_pos hva]
    · rw [if_neg hva, if_neg hva, hent va (maxva_lt_sv39 (not_le.mp hva))]
  unfold readByte
  rw [htable, hwalk]
  by_cases hpa : walkaddr (s.proc q).pagetable va s.mem = 0
  · rw [if_pos hpa, if_pos hpa]
  · rw [if_neg hpa, if_neg hpa, hbytes _ _ (h.own_walkaddr hq hpa)]

theorem unseen (hproc : s'.proc = s.proc)
    (hent : ∀ r ∈ T, r ≠ (s.proc p).pagetable → ∀ va < sv39, entry r va s'.mem = entry r va s.mem)
    (hbytes : ∀ x r va, own x = .user r va → r ≠ (s.proc p).pagetable →
      s'.mem.bytes x = s.mem.bytes x) (hp : Live L own U s.mem (s.proc p)) : Unseen p s s' := by
  intro q
  rw [hproc]
  refine ⟨rfl, fun hq hstate va => ?_⟩
  have hlive := h.live hstate
  have hne := h.pagetable_ne hp hq
  exact h.readByte_congr hlive (by rw [hproc]) (hent _ (h.owned.sub hlive.root) hne)
    (fun x va hx => hbytes x _ va hx hne) va

/-! ### Writing -/

section
variable (hp : Live L own U s.mem (s.proc p))
include hp

theorem write
    (hpa : own pa = .user (s.proc p).pagetable va) (start : ℕ) (src : List ℕ) :
    Sound L {s with mem := s.mem.writeBytes pa start src} own T U ∧
      Unseen p s {s with mem := s.mem.writeBytes pa start src} := by
  refine ⟨h.transfer rfl (h.owned.setBytes _)
    (fun r hr => h.owned.sameEntries_setBytes _ r (h.owned.sub hr)) (fun _ hx => hx) fun _ _ _ hx => hx, ?_⟩
  refine h.unseen rfl (fun r hr _ va hva => h.owned.sameEntries_setBytes _ r hr va hva)
    (fun x r va' hx hne => ?_) hp
  have hxpa : x ≠ pa := by
    grind
  exact update_of_ne hxpa ..

theorem vmfault_unseen (va : ℕ) :
    Outcome KfreeStops (vmfault p (s.proc p).pagetable va s) fun res =>
      ∃ own', Sound L res.2 own' T U ∧ Unseen p s res.2 ∧ res.2.proc = s.proc ∧
        (res.1 ≠ 0 → own' res.1 = .user (s.proc p).pagetable (pgrounddown va)) := by
  rcases h.vmfault_cases hp va with ⟨-, heq⟩ | ⟨hlt, _, mem, own', m', heq, hf⟩ |
    ⟨_, mem, own', m', hu, heq⟩
  · rw [heq]
    exact ⟨own, h, .refl, rfl, fun h0 => absurd rfl h0⟩
  · rw [heq]
    have hsame := hf.entry.others (pgrounddown_mod va)
    refine ⟨own', h.fault hp hlt hf, h.unseen rfl (fun r hr hne va hva => hsame r hr va hva (.inl hne))
      (fun x r va hx _ => hf.extended.bytes x ?_) hp, rfl, fun _ => hf.mine⟩
    grind
  · rw [heq]
    cases hfree : Slab.kfree mem s.slab with
    | error f => exact ⟨mem, s.slab, f, hfree, rfl⟩
    | ok k =>
      refine ⟨own', h.transfer rfl hu.owned (fun r hr => hu.entries r (h.owned.sub hr)) (fun x hx => ?_)
        (fun x r va => hu.user), h.unseen rfl (fun r hr _ va hva => hu.entries r hr va hva) (fun x r va hx _ => hu.bytes x ?_) hp,
        rfl, fun h0 => absurd rfl h0⟩
      · rw [hu.keeps (by rw [hx]; nofun), hx]
      grind

theorem userPage_unseen (va : ℕ) :
    Outcome (fun _ => True) (userPage p (s.proc p).pagetable va s) fun res =>
      ∃ own', Sound L res.2 own' T U ∧ Unseen p s res.2 ∧ res.2.proc = s.proc ∧
        (res.1 ≠ 0 → own' res.1 = .user (s.proc p).pagetable (pgrounddown va)) := by
  unfold userPage
  dsimp only
  split
  · exact (h.vmfault_unseen hp va).imp fun _ _ => trivial
  · rename_i hpa
    exact ⟨own, h, .refl, rfl, fun _ => h.own_walkaddr hp hpa⟩

end

section
variable (hp : (s.proc p).state ≠ .unused)
include hp

theorem copyoutLoop_unseen (fuel dst : ℕ) (src : List ℕ) :
    Outcome (fun _ => True) (copyoutLoop p (s.proc p).pagetable fuel dst src s) fun res =>
      Consistent L res.2 ∧ Unseen p s res.2 := by
  induction fuel generalizing s own dst src with
  | zero =>
    cases src with
    | nil => exact ⟨⟨own, T, U, h⟩, .refl⟩
    | cons _ _ => trivial
  | succ fuel ih =>
    cases src with
    | nil => exact ⟨⟨own, T, U, h⟩, .refl⟩
    | cons b src =>
      unfold copyoutLoop
      dsimp only
      split
      · exact ⟨⟨own, T, U, h⟩, .refl⟩
      refine (h.userPage_unseen (h.live hp) (pgrounddown dst)).bind ?_
      rintro ⟨pa, s₁⟩ ⟨own₁, h1, hseen, hproc, hpa⟩
      split
      · exact ⟨⟨own₁, T, U, h1⟩, hseen⟩
      rename_i hpa0
      unfold walk
      split
      · trivial
      dsimp only [returns_bind]
      split
      · trivial
      split
      · exact ⟨⟨own₁, T, U, h1⟩, hseen⟩
      rw [← hproc] at hp hpa
      obtain ⟨h2, hseen2⟩ := h1.write (h1.live hp) (hpa hpa0) (dst - pgrounddown dst)
        ((b :: src).take (min (pgsize - (dst - pgrounddown dst)) (b :: src).length))
      rw [← hproc]
      refine (ih h2 hp _ _).mono ?_
      grind [Unseen.trans]

theorem storeThrough
    (hst : storable (s.proc p).pagetable va s.mem = true) (src : List ℕ) :
    let s' := {s with
      mem := s.mem.writeBytes (walkaddr (s.proc p).pagetable va s.mem) (va % pgsize) src}
    Consistent L s' ∧ Unseen p s s' := by
  have hpa : walkaddr (s.proc p).pagetable va s.mem ≠ 0 :=
    of_decide_eq_true (Bool.and_eq_true_iff.mp hst).1
  obtain ⟨h', hseen⟩ := h.write (h.live hp) (h.own_walkaddr (h.live hp) hpa) (va % pgsize) src
  exact ⟨⟨own, T, U, h'⟩, hseen⟩

theorem setKilled :
    Consistent L (s.setProc p fun pr => {pr with killed := 1}) ∧
      Unseen p s (s.setProc p fun pr => {pr with killed := 1}) := by
  refine ⟨⟨own, T, U, h.mark hp hp rfl rfl rfl⟩, fun q => ?_⟩
  by_cases hq : q = p
  · subst hq
    simp [Os.setProc, update_self]
  · have hsame : (s.setProc p fun pr => {pr with killed := 1}).proc q = s.proc q :=
      update_of_ne hq ..
    refine ⟨congrArg Proc.state hsame, fun _ _ va => ?_⟩
    unfold readByte
    rw [hsame]
    rfl

theorem userStore_unseen (va byte : ℕ) : Outcome KfreeStops (userStore p va byte s) fun s' =>
      (Consistent L s' ∧ Unseen p s s') ∧ (s'.proc p).sz = (s.proc p).sz := by
  unfold userStore
  dsimp only
  split
  · exact ⟨h.storeThrough hp ‹_› [byte], rfl⟩
  refine (h.vmfault_unseen (h.live hp) va).bind ?_
  rintro ⟨pa, s₁⟩ ⟨own₁, h1, hseen, hproc, _⟩
  rw [← hproc] at hp ⊢
  split
  · rename_i hst
    obtain ⟨h2, hseen2⟩ := h1.storeThrough hp hst.2 [byte]
    exact ⟨⟨h2, hseen.trans hseen2⟩, rfl⟩
  · obtain ⟨h2, hseen2⟩ := h1.setKilled hp
    refine ⟨⟨h2, hseen.trans hseen2⟩, ?_⟩
    simp only [Os.setProc, update_self]

end

end

end Sound

theorem stores_step (h : Consistent L s) (hp : (s.proc p).state ≠ .unused) (c : Store) :
    Outcome (fun _ => True) ((stores p).step s c) fun s' => Consistent L s' ∧ Unseen p s s' := by
  obtain ⟨own, T, U, h⟩ := h
  cases c with
  | copyout dst src => exact (h.copyoutLoop_unseen hp src.length dst src).bind fun res hres => hres
  | user va byte =>
    exact ((h.userStore_unseen hp va byte).imp fun _ _ => trivial).mono fun _ hs' => hs'.1

theorem stores_spec (h : Consistent L s) (hp : (s.proc p).state ≠ .unused) {cs : List Store}
    (hrun : (stores p).run s cs = .ok s') : Consistent L s' ∧ Unseen p s s' := by
  have hall : Outcome (fun _ => True) ((stores p).run s cs) fun s' => Consistent L s' ∧ Unseen p s s' := by
    refine Protocol.run_outcome (fun c _ t ht _ => ?_) ⟨h, .refl⟩ ?_
    · have hstate := (ht.2 p).1
      grind [stores_step, Outcome.mono, Unseen.trans]
    · exact Protocol.proper_of_forall (fun _ _ => trivial) s cs
  rw [hrun] at hall
  exact hall

/-! ### Forking -/

/-- The process `np` has the user memory of `p`: the same pages are mapped, with the same flags and
bytes. -/
def EqualMemory (s : Os) (p np : ℕ) : Prop :=
  (s.proc np).sz = (s.proc p).sz ∧ ∀ va < (s.proc p).sz,
    valid (entry (s.proc np).pagetable va s.mem) = valid (entry (s.proc p).pagetable va s.mem) ∧
    (valid (entry (s.proc p).pagetable va s.mem) = true →
      pteFlags (entry (s.proc np).pagetable va s.mem) = pteFlags (entry (s.proc p).pagetable va s.mem) ∧
      s.mem.bytes (pte2pa (entry (s.proc np).pagetable va s.mem)) =
        s.mem.bytes (pte2pa (entry (s.proc p).pagetable va s.mem)))

/-- A page that `np` maps is mapped nowhere else, by no process. -/
def OwnPages (s : Os) (np : ℕ) : Prop :=
  ∀ q va va', (s.proc q).state ≠ .unused → va < trapframe → va' < trapframe →
    valid (entry (s.proc np).pagetable va s.mem) = true →
    valid (entry (s.proc q).pagetable va' s.mem) = true →
    pte2pa (entry (s.proc np).pagetable va s.mem) = pte2pa (entry (s.proc q).pagetable va' s.mem) →
    q = np ∧ va / pgsize = va' / pgsize

namespace Sound

theorem ownPages (h : Sound L s own T U) (hp : (s.proc p).state ≠ .unused) : OwnPages s p := by
  intro q va va' hq hva hva' hv hv' heq
  grind [Sound.live, Sound.own_entry, Sound.tables, Sound.pagetable_ne_zero, pgrounddown_page]

theorem equalMemory (h : Sound L s own T U) (hp : Live L own U s.mem (s.proc p)) {np : ℕ} {m₁ : Memory}
    {own₁ : ℕ → Owner} (hne : np ≠ p) (hspawn : Spawned L T U r frame own s.mem own₁ m₁)
    (hcopies : Copies L (insert r T) (insert r U) (s.proc p).pagetable r (pgroundup (s.proc p).sz)
      own₁ m₁ own' m') : EqualMemory (forked s p np frame r m') p np := by
  have hparent : (forked s p np frame r m').proc p = s.proc p := update_of_ne hne.symm ..
  have hchild : (forked s p np frame r m').proc np = {newProc s.nextpid frame r with
      sz := (s.proc p).sz, parent := some p, state := .runnable} := update_self ..
  have hroot : (s.proc p).pagetable ≠ r := h.pagetable_ne_free hspawn.root_fresh hspawn.root_ne_zero p
  rw [EqualMemory, hparent, hchild]
  refine ⟨rfl, fun va hva => ?_⟩
  have htrap : va < trapframe := hva.trans_le hp.size
  have hpage := pgrounddown_page va
  have hold : ∀ va < sv39, entry (s.proc p).pagetable va m' = entry (s.proc p).pagetable va m₁ :=
    fun va hva => hcopies.old_entry (Set.mem_insert_of_mem r (h.owned.sub hp.root)) hroot hva
  have hround : pgrounddown va < pgroundup (s.proc p).sz :=
    Nat.lt_of_le_of_lt (pgrounddown_le va) (hva.trans_le (le_pgroundup hp.size))
  have hlow : pgrounddown va < trapframe := Nat.lt_of_le_of_lt (pgrounddown_le va) htrap
  obtain ⟨hvalid, hsame⟩ := hcopies.copied (pgrounddown va) hround (pgrounddown_mod va)
  show valid (entry r va m') = valid (entry (s.proc p).pagetable va m') ∧
    (valid (entry (s.proc p).pagetable va m') = true →
      pteFlags (entry r va m') = pteFlags (entry (s.proc p).pagetable va m') ∧
      m'.bytes (pte2pa (entry r va m')) = m'.bytes (pte2pa (entry (s.proc p).pagetable va m')))
  rw [entry_of_page hpage r, entry_of_page hpage (s.proc p).pagetable, hold _ (trapframe_lt_sv39 hlow)]
  refine ⟨hvalid, fun hv => ?_⟩
  obtain ⟨hflags, hbytes⟩ := hsame hv
  -- The parent's page is in use while the copy is made.
  have hown := hspawn.owned.mapped (Set.mem_insert_of_mem r hp.root) hlow (pgrounddown_mod va) hv
  refine ⟨hflags, hbytes.trans (hcopies.extended.bytes _ ?_).symm⟩
  grind

end Sound

/-- A child has equal memory of its own, and later writes through the page table of one process do
not change what another reads. -/
theorem kfork_isolates {np : ℕ} {pid : ℤ} (h : Consistent L s) (hp : (s.proc p).state ≠ .unused)
    (hfork : kfork L p s = .ok (pid, s')) (hnew : (s.proc np).state = .unused)
    (hchild : (s'.proc np).state ≠ .unused) :
    EqualMemory s' p np ∧ OwnPages s' np ∧
      ∀ a b, a ≠ b → (s'.proc a).state ≠ .unused → (s'.proc b).state ≠ .unused →
        ∀ cs s'', (stores a).run s' cs = .ok s'' → ∀ va, readByte b va s'' = readByte b va s' := by
  obtain ⟨own, T, U, h⟩ := h
  have hspec := h.kfork_spec (E := fun _ => False) (h.live hp)
  rw [hfork] at hspec
  rcases hspec with ⟨_, m', n, hs', _⟩ | ⟨np', r, frame, m₁, own₁, m', own', _, hzero, heq, hspawn, hcopies⟩
  · rw [show s' = _ from hs'] at hchild
    exact absurd hnew hchild
  · obtain ⟨rfl, rfl⟩ := Prod.mk.inj heq
    have hnp : np = np' := by
      by_contra hne
      have hsame : (Sound.forked s p np' frame r m').proc np = s.proc np := update_of_ne hne ..
      rw [hsame] at hchild
      exact hchild hnew
    subst hnp
    have hne : np ≠ p := by
      rintro rfl
      exact hp hnew
    have hsound := h.forked_sound (h.live hp) np hspawn hcopies
    refine ⟨h.equalMemory (h.live hp) hne hspawn hcopies, hsound.ownPages hchild,
      fun a b hab ha hb cs s'' hrun va => ?_⟩
    exact ((stores_spec ⟨own', _, _, hsound⟩ ha hrun).2 b).2 hab.symm hb va

/-- The first process writes a byte and forks; the child writes another. -/
theorem kfork_isolates_store :
    ∃ s s' s'' pid, kfork .small 0 s = .ok (pid, s') ∧ (stores 1).run s' [.user 4100 9] = .ok s'' ∧
      EqualMemory s' 0 1 ∧ OwnPages s' 1 ∧ readByte 1 4100 s' = some 7 ∧
      readByte 1 4100 s'' = some 9 ∧ readByte 0 4100 s'' = some 7 := by
  have hparent : ∃ s₀, userinit .small (.small 16) = .ok s₀ ∧
      (changes .small).Proper s₀ [.sbrk 0 5000 0] ∧
      ∃ s₁, (changes .small).run s₀ [.sbrk 0 5000 0] = .ok s₁ ∧ (s₁.proc 0).state ≠ .unused ∧
        ∃ s, (stores 0).run s₁ [.user 4100 7] = .ok s ∧
          (s.proc 0).state ≠ .unused ∧ (s.proc 1).state = .unused := by decide +kernel
  have hchild : ∃ res, (do
      let s₀ ← userinit .small (.small 16)
      let s₁ ← (changes .small).run s₀ [.sbrk 0 5000 0]
      let s ← (stores 0).run s₁ [.user 4100 7]
      kfork .small 0 s) = .ok res ∧ (res.2.proc 0).state ≠ .unused ∧ (res.2.proc 1).state ≠ .unused ∧
        readByte 0 4100 res.2 = some 7 ∧ readByte 1 4100 res.2 = some 7 ∧
        ∃ s'', (stores 1).run res.2 [.user 4100 9] = .ok s'' ∧
          readByte 1 4100 s'' = some 9 := by decide +kernel
  obtain ⟨s₀, hinit, hproper, s₁, hrun, hused, s, hstore, hp, hnew⟩ := hparent
  simp only [hinit, hrun, hstore, returns_bind] at hchild
  obtain ⟨⟨pid, s'⟩, hfork, hused₀, hused₁, hold, hcopy, s'', hstore', hbyte⟩ := hchild
  have hmine := (stores_spec (changes_consistent (fresh_small 15 (by decide)) hinit hproper hrun) hused hstore).1
  obtain ⟨hequal, hpages, hunseen⟩ := kfork_isolates hmine hp hfork hnew hused₁
  refine ⟨s, s', s'', pid, hfork, hstore', hequal, hpages, hcopy, hbyte, ?_⟩
  rw [hunseen 1 0 (by decide) hused₁ hused₀ _ _ hstore', hold]

end Xv6.Vm
