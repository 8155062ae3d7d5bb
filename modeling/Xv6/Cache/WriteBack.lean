import Mathlib.Data.Set.Function

/-! Write-back caches.

Some lines of a cache hold the data of keys of a store. A user that has a line may change its data.
Before the user gives it back, the data is written to the store, or the line is pinned, to be written
later. What was given back last under each key is the `view`.

`Faithful`: a line without a user has the viewed data, and wherever no line has them, the store has.
So a read returns what is viewed (`Line.Sound.read`), and a line without user or pin may go
(`Faithful.evict`). -/
namespace Xv6.Cache

variable {ι κ δ : Type*}

structure Line (κ δ : Type*) where
  key : κ
  /-- The data was read from the store. -/
  valid : Bool
  data : δ

/-- What the user of a line has done to it. -/
inductive Mark where
  | free
  | clean
  | dirty
  /-- The user has not changed the data since it was written to the store. -/
  | written
  /-- The user has pinned the line, or found it pinned. -/
  | logged
  deriving DecidableEq

namespace Mark

def modify : Mark → Mark
  | .logged => .logged
  | _ => .dirty

def write : Mark → Mark
  | .logged => .logged
  | _ => .written

end Mark

/-- A line against what its key has in the store, and what is viewed. -/
structure Line.Sound (l : Line κ δ) (mark : Mark) (pins : ℕ) (stored viewed : δ) : Prop where
  same : mark = .free → l.valid = true → l.data = viewed
  unread : l.valid = false → mark = .free ∧ stored = viewed
  pinned : mark = .logged → 0 < pins
  saved : l.valid = true → pins = 0 → mark = .free ∨ mark = .clean → stored = l.data
  written : mark = .written → stored = l.data

structure Faithful (lines : ι → Line κ δ) (mark : ι → Mark) (pins : ι → ℕ) (store view : κ → δ)
    (X : Set ι) : Prop where
  unique : Set.InjOn (fun a => (lines a).key) X
  sound : ∀ a ∈ X, (lines a).Sound (mark a) (pins a) (store (lines a).key) (view (lines a).key)
  absent : ∀ k, (∀ a ∈ X, (lines a).key ≠ k) → store k = view k

namespace Line.Sound

variable {l : Line κ δ} {mark : Mark} {pins : ℕ} {stored viewed : δ}

theorem stored_eq (h : l.Sound .free 0 stored viewed) : stored = viewed := by
  cases hvalid : l.valid with
  | false => exact (h.unread hvalid).2
  | true => exact (h.saved hvalid rfl (.inl rfl)).trans (h.same rfl hvalid)

theorem read (h : l.Sound .free pins stored viewed) :
    (if l.valid then l.data else stored) = viewed := by
  grind [Line.Sound.unread, Line.Sound.same]

theorem fill (h : l.Sound .free pins stored viewed) :
    Sound ⟨l.key, true, if l.valid then l.data else stored⟩ .clean pins stored viewed where
  same hm := by cases hm
  unread hv := by cases hv
  pinned hm := by cases hm
  saved _ hpins _ := by
    cases hvalid : l.valid with
    | false => rfl
    | true => exact h.saved hvalid hpins (.inl rfl)
  written hm := by cases hm

section
variable (h : l.Sound mark pins stored viewed)
include h

section
variable (hm : mark ≠ .free)
include hm

theorem valid : l.valid = true := by
  grind [Line.Sound.unread]

theorem modify (data : δ) :
    Sound {l with data := data} mark.modify pins stored viewed where
  same hfree := by cases mark <;> cases hfree
  unread hv := by
    rw [h.valid hm] at hv
    cases hv
  pinned hlogged := h.pinned (by cases mark <;> first | rfl | cases hlogged)
  saved _ _ hclean := by cases mark <;> rcases hclean with hc | hc <;> cases hc
  written hw := by cases mark <;> cases hw

theorem write :
    Sound l mark.write pins l.data viewed where
  same hfree := by cases mark <;> cases hfree
  unread hv := by
    rw [h.valid hm] at hv
    cases hv
  pinned hlogged := h.pinned (by cases mark <;> first | rfl | cases hlogged)
  saved _ _ _ := rfl
  written _ := rfl

theorem release (hdirty : mark ≠ .dirty) :
    l.Sound .free pins stored l.data where
  same _ _ := rfl
  unread hv := by
    rw [h.valid hm] at hv
    cases hv
  pinned hlogged := by cases hlogged
  saved hv hpins _ := by
    cases mark with
    | free => exact absurd rfl hm
    | clean => exact h.saved hv hpins (.inr rfl)
    | dirty => exact absurd rfl hdirty
    | written => exact h.written rfl
    | logged => exact absurd (h.pinned rfl) (hpins ▸ Nat.lt_irrefl 0)
  written hw := by cases hw

theorem log (hpins : 0 < pins) :
    l.Sound .logged pins stored viewed where
  same hfree := by cases hfree
  unread hv := by
    rw [h.valid hm] at hv
    cases hv
  pinned _ := hpins
  saved _ _ hclean := by rcases hclean with hc | hc <;> cases hc
  written hw := by cases hw

end

theorem pin : l.Sound mark (pins + 1) stored viewed :=
  ⟨h.same, h.unread, fun _ => Nat.succ_pos _, fun _ hpins => absurd hpins (Nat.succ_ne_zero _), h.written⟩

end

theorem unpin (h : l.Sound .written pins stored viewed) (n : ℕ) : l.Sound .written n stored viewed :=
  ⟨h.same, h.unread, nofun, fun _ _ => nofun, h.written⟩

end Line.Sound

namespace Faithful

variable {lines lines' : ι → Line κ δ} {mark mark' : ι → Mark} {pins pins' : ι → ℕ}
  {store store' view view' : κ → δ} {X : Set ι} {a : ι}

section
variable (h : Faithful lines mark pins store view X)
include h

theorem change (ha : a ∈ X) (hkey : (lines' a).key = (lines a).key)
    (hlines : ∀ b ∈ X, b ≠ a → lines' b = lines b ∧ mark' b = mark b ∧ pins' b = pins b)
    (hstore : ∀ k, k ≠ (lines a).key → store' k = store k ∧ view' k = view k)
    (hsound : (lines' a).Sound (mark' a) (pins' a) (store' (lines a).key) (view' (lines a).key)) :
    Faithful lines' mark' pins' store' view' X := by
  have hkeys : ∀ b ∈ X, (lines' b).key = (lines b).key := fun b hb => by
    by_cases hba : b = a
    · rw [hba, hkey]
    · rw [(hlines b hb hba).1]
  refine ⟨fun b hb c hc heq => ?_, fun b hb => ?_, fun k hk => ?_⟩
  · simp only [hkeys b hb, hkeys c hc] at heq
    exact h.unique hb hc heq
  · by_cases hba : b = a
    · grind
    · obtain ⟨hline, hm, hp⟩ := hlines b hb hba
      have hne : (lines b).key ≠ (lines a).key := fun heq => hba (h.unique hb ha heq)
      grind [Faithful.sound]
  · have hne : k ≠ (lines a).key := fun heq => hk a ha (hkey.trans heq.symm)
    rw [(hstore k hne).1, (hstore k hne).2]
    exact h.absent k fun b hb => hkeys b hb ▸ hk b hb

theorem evict {Y : Set ι} (hY : Y ⊆ X) (hfree : ∀ a ∈ X, a ∉ Y → mark a = .free ∧ pins a = 0) :
    Faithful lines mark pins store view Y := by
  refine ⟨h.unique.mono hY, fun a ha => h.sound a (hY ha), fun k hk => ?_⟩
  by_cases hthere : ∃ a ∈ X, (lines a).key = k
  · obtain ⟨a, ha, rfl⟩ := hthere
    obtain ⟨hm, hp⟩ := hfree a ha fun haY => hk a haY rfl
    have hsound := h.sound a ha
    rw [hm, hp] at hsound
    exact hsound.stored_eq
  · exact h.absent k fun a ha heq => hthere ⟨a, ha, heq⟩

theorem load (ha : a ∉ X) (hlines : ∀ b ∈ X, lines' b = lines b) (hvalid : (lines' a).valid = false)
    (hmark : mark a = .free) (hnone : ∀ b ∈ X, (lines b).key ≠ (lines' a).key) :
    Faithful lines' mark pins store view (insert a X) := by
  refine ⟨fun b hb c hc heq => ?_, fun b hb => ?_, fun k hk => ?_⟩
  · rcases hb with rfl | hb <;> rcases hc with rfl | hc
    · rfl
    · exact absurd (hlines c hc ▸ heq.symm) (hnone c hc)
    · exact absurd (hlines b hb ▸ heq) (hnone b hb)
    · simp only [hlines b hb, hlines c hc] at heq
      exact h.unique hb hc heq
  · rcases hb with rfl | hb
    · rw [hmark]
      refine ⟨fun _ hv => ?_, fun _ => ⟨rfl, h.absent _ hnone⟩, nofun, fun hv => ?_, nofun⟩
      · rw [hvalid] at hv
        cases hv
      grind
    · rw [hlines b hb]
      exact h.sound b hb
  · exact h.absent k fun b hb => hlines b hb ▸ hk b (Set.mem_insert_of_mem _ hb)

end

end Faithful

end Xv6.Cache
