import Xv6.Vm.Entry

/-! Who owns a physical page.

`Owned L m own T U`: each page that the page allocator ever hands out has one owner. It is
on the free list, held by the kernel, a page of one page table, or mapped at one address by
one user page table. `T` are the roots of all page tables and `U` those of user ones. As
`own` is a function, a page cannot have two owners. Each lemma below moves one page from an
owner to another. -/
namespace Xv6.Vm
open Function
open Linked Radix

inductive Owner where
  /-- Not a page of the page allocator. -/
  | other
  | free
  /-- Taken from the free list and in no page table. -/
  | held
  /-- Part of the page table with this root. -/
  | table (root : ℕ)
  /-- Mapped at a user address. -/
  | user (root va : ℕ)
  deriving DecidableEq

structure Owned (L : Linker) (m : Memory) (own : ℕ → Owner) (T U : Set ℕ) : Prop where
  list : ∃ F, Chain m.next m.freelist F ∧ ∀ x, x ∈ F ↔ own x = .free
  page : ∀ {x}, own x ≠ .other → x % pgsize = 0 ∧ L.kernelEnd ≤ x ∧ x < slabMem
  tree : ∀ {r}, r ∈ T → IsTree (child m) r 2
  nodes : ∀ {r}, r ∈ T → ∀ {x}, x ∈ Nodes (child m) r 2 ↔ own x = .table r
  root : ∀ {x r}, own x = .table r → r ∈ T
  inner : ∀ {r}, r ∈ T → ∀ {is : List ℕ} {x}, is.length < 2 → lookup (child m) r is = some x →
    ∀ i < 512, valid (m.ptes x i) = true → leaf (m.ptes x i) = false
  sub : U ⊆ T
  mapped : ∀ {r va}, r ∈ U → va < trapframe → va % pgsize = 0 →
    valid (entry r va m) = true → own (pte2pa (entry r va m)) = .user r va
  user : ∀ {x r va}, own x = .user r va → r ∈ U ∧ va < trapframe ∧ va % pgsize = 0 ∧
    valid (entry r va m) = true ∧ pte2pa (entry r va m) = x
  flags : ∀ {r}, r ∈ U → ∀ {is : List ℕ} {x}, is.length = 2 → lookup (child m) r is = some x →
    ∀ i < 512, valid (m.ptes x i) = true → leaf (m.ptes x i) = true

variable {L : Linker} {m m' : Memory} {own own' : ℕ → Owner} {T U : Set ℕ}
  {r x y va pte : ℕ}

/-- Two memories with the same entries in all pages of page tables. -/
def SameTables (own : ℕ → Owner) (m m' : Memory) : Prop :=
  ∀ x r, own x = .table r → m'.ptes x = m.ptes x

/-- Two memories with the same bytes in all pages that are in use. -/
def SameBytes (own : ℕ → Owner) (m m' : Memory) : Prop :=
  ∀ x, own x ≠ .free → m'.bytes x = m.bytes x

theorem child_congr (h : m'.ptes x = m.ptes x) : child m' x = child m x := by
  funext i
  rw [child, child, h]

namespace Owned

theorem kernelEnd_pos (L : Linker) : 0 < L.kernelEnd :=
  Nat.lt_of_lt_of_le (Nat.lt_trans (by decide) L.kernbase_lt) L.etext_le

section
variable (h : Owned L m own T U)
include h

theorem ne_zero (hx : own x ≠ .other) : x ≠ 0 := by
  have hle := (h.page hx).2.1
  have hpos := kernelEnd_pos L
  omega

theorem table_of_lookup (hr : r ∈ T) {is : List ℕ} (hd : is.length ≤ 2)
    (hx : lookup (child m) r is = some x) : own x = .table r :=
  (h.nodes hr).mp ⟨is, hd, hx⟩

theorem lookup_congr (hs : SameTables own m m') (hr : r ∈ T) {is : List ℕ} (hd : is.length ≤ 2) :
    lookup (child m') r is = lookup (child m) r is := by
  refine Radix.lookup_congr (fun js y hjs hy => ?_) hd
  exact child_congr (hs _ _ (h.table_of_lookup hr hjs.le hy))

theorem entry_congr (hs : SameTables own m m') (hr : r ∈ T) : entry r va m' = entry r va m := by
  have hlook : lookup (child m') r (path va) = lookup (child m) r (path va) :=
    h.lookup_congr hs hr le_rfl
  cases hlow : lookup (child m) r (path va) with
  | none => rw [entry_of_lookup_none hlow, entry_of_lookup_none (hlook.trans hlow)]
  | some low =>
    have hown := h.table_of_lookup hr le_rfl hlow
    have h0 : low ≠ 0 := h.ne_zero (by rw [hown]; nofun)
    rw [entry_of_lookup hlow h0, entry_of_lookup (hlook.trans hlow) h0, hs _ _ hown]

/-- A change outside page tables, of the owner of pages that are neither in page tables nor
mapped. -/
theorem change (hs : SameTables own m m')
    (hlist : ∃ F, Chain m'.next m'.freelist F ∧ ∀ x, x ∈ F ↔ own' x = .free)
    (htable : ∀ x r, own' x = .table r ↔ own x = .table r)
    (huser : ∀ x r va, own' x = .user r va ↔ own x = .user r va)
    (hpage : ∀ x, own' x ≠ .other → own x ≠ .other) : Owned L m' own' T U where
  list := hlist
  page hx := h.page (hpage _ hx)
  tree hr := by
    intro is js x his hjs hx hy
    rw [h.lookup_congr hs hr his] at hx
    rw [h.lookup_congr hs hr hjs] at hy
    exact h.tree hr his hjs hx hy
  nodes {r} hr x := by
    rw [htable, ← h.nodes hr]
    constructor
    · rintro ⟨is, his, hx⟩
      exact ⟨is, his, (h.lookup_congr hs hr his).symm.trans hx⟩
    · rintro ⟨is, his, hx⟩
      exact ⟨is, his, (h.lookup_congr hs hr his).trans hx⟩
  root hx := h.root ((htable _ _).mp hx)
  inner hr is x hlen hx i hi hv := by
    rw [h.lookup_congr hs hr hlen.le] at hx
    rw [hs _ _ (h.table_of_lookup hr hlen.le hx)] at hv ⊢
    exact h.inner hr hlen hx i hi hv
  sub := h.sub
  mapped hr hva hal hv := by
    rw [h.entry_congr hs (h.sub hr)] at hv ⊢
    exact (huser ..).mpr (h.mapped hr hva hal hv)
  user hx := by
    obtain ⟨hr, hva, hal, hv, hpa⟩ := h.user ((huser ..).mp hx)
    rw [h.entry_congr hs (h.sub hr)]
    exact ⟨hr, hva, hal, hv, hpa⟩
  flags hr is x hlen hx i hi hv := by
    rw [h.lookup_congr hs (h.sub hr) hlen.le] at hx
    have hown := h.table_of_lookup (h.sub hr) hlen.le hx
    rw [hs _ _ hown] at hv ⊢
    exact h.flags hr hlen hx i hi hv

end

/-! ### The free list -/

theorem memset_ptes_ne {c : ℕ} (h : y ≠ x) : (memset x c m).ptes y = m.ptes y :=
  update_of_ne h ..

theorem memset_bytes_ne {c : ℕ} (h : y ≠ x) : (memset x c m).bytes y = m.bytes y :=
  update_of_ne h ..

theorem sameTables_memset {c : ℕ} (hx : ∀ r, own x ≠ .table r) :
    SameTables own m (memset x c m) := by
  intro y r hy
  exact memset_ptes_ne fun heq => hx r (heq ▸ hy)

theorem update_iff {a b : Owner} (hx : own x = a) {c : Owner} (hca : c ≠ a) (hcb : c ≠ b) (y : ℕ) :
    update own x b y = c ↔ own y = c := by
  grind

theorem kalloc_spec (h : Owned L m own T U) :
    kalloc m = (0, m) ∨ ∃ x m', kalloc m = (x, m') ∧ own x = .free ∧ x ≠ 0 ∧
      SameTables own m m' ∧ SameBytes own m m' ∧
      Owned L m' (update own x .held) T U := by
  obtain ⟨F, hF, hfree⟩ := h.list
  unfold kalloc
  cases F with
  | nil => exact .inl (if_pos hF)
  | cons x F =>
    obtain ⟨hhead, h0, hrest⟩ := hF
    have hx : own x = .free := (hfree x).mp (List.mem_cons_self ..)
    have hnodup := (show Chain m.next m.freelist (x :: F) from ⟨hhead, h0, hrest⟩).nodup
    have hs : SameTables own m (memset x 5 {m with freelist := m.next x}) :=
      sameTables_memset (m := m) (c := 5) fun r hr => by cases hx.symm.trans hr
    refine .inr ⟨x, memset x 5 {m with freelist := m.next x}, ?_, hx, h0, hs, fun y hy => ?_, ?_⟩
    · rw [if_neg (hhead ▸ h0), hhead]
    · exact memset_bytes_ne (m := {m with freelist := m.next x}) fun heq => hy (heq ▸ hx)
    · refine h.change hs
        ⟨F, hrest, fun y => ?_⟩ (fun y r => ?_) (fun y r va => ?_) fun y hy => ?_
      · grind
      · exact update_iff hx (by nofun) (by nofun) y
      · exact update_iff hx (by nofun) (by nofun) y
      grind

theorem pageKfree_spec (h : Owned L m own T U) (hx : own x = .held) :
    ∃ m', pageKfree L x m = .ok m' ∧ SameTables own m m' ∧
      (∀ y, y ≠ x → m'.bytes y = m.bytes y) ∧ Owned L m' (update own x .free) T U := by
  have hne : own x ≠ .other := by
    grind
  obtain ⟨hal, hle, hlt⟩ := h.page hne
  obtain ⟨F, hF, hfree⟩ := h.list
  have hxF : x ∉ F := fun hm => by cases hx.symm.trans ((hfree x).mp hm)
  have hok : ¬ (x % pgsize ≠ 0 ∨ x < L.kernelEnd ∨ phystop ≤ x) := by
    unfold slabMem at hlt
    omega
  have hs : SameTables own m (memset x 1 m) :=
    sameTables_memset fun r hr => by cases hx.symm.trans hr
  refine ⟨_, if_neg hok, hs, fun y hy => memset_bytes_ne hy, ?_⟩
  refine h.change hs
    ⟨x :: F, hF.push (h.ne_zero hne) hxF, fun y => ?_⟩ (fun y r => ?_) (fun y r va => ?_)
    fun y hy => ?_
  · grind
  · exact update_iff hx (by nofun) (by nofun) y
  · exact update_iff hx (by nofun) (by nofun) y
  grind

end Owned

end Xv6.Vm
