import Xv6.Linked.Chain

/-! Doubly linked lists in memory.

`Double K back head xs`: from `head`, whose `prev` is `back`, the links visit `xs`
and end in null, and every `prev` points to the record before. `Links.push` and
`Links.remove` are the stores that put a record in front and take one out of the
middle; both keep the list, and leave every record outside it alone. A `Family` is
several such lists over the same records, no record on two of them. -/
namespace Xv6.Linked
open Function

/-- The `next` and `prev` fields of the records in memory. -/
structure Links (α : Type*) where
  next : α → α
  prev : α → α

variable {α : Type*} [Zero α]

def Double (K : Links α) : α → α → List α → Prop
  | _, head, [] => head = 0
  | back, head, x :: xs => head = x ∧ x ≠ 0 ∧ K.prev x = back ∧ Double K x (K.next x) xs

variable {K K' : Links α} {back head x z : α} {xs ys : List α}

namespace Double

section
variable (h : Double K back head xs)
include h

theorem chain : Chain K.next head xs := by
  induction xs generalizing back head with
  | nil => exact h
  | cons y ys ih => exact ⟨h.1, h.2.1, ih h.2.2.2⟩

theorem congr
    (hK : ∀ z ∈ xs, K'.next z = K.next z ∧ K'.prev z = K.prev z) : Double K' back head xs := by
  induction xs generalizing back head with
  | nil => exact h
  | cons y ys ih =>
    obtain ⟨hy, hrest⟩ := List.forall_mem_cons.mp hK
    refine ⟨h.1, h.2.1, hy.2.trans h.2.2.1, ?_⟩
    rw [hy.1]
    exact ih h.2.2.2 hrest

theorem next_mem (hx : x ∈ xs) : K.next x = 0 ∨ K.next x ∈ xs := by
  induction xs generalizing back head with
  | nil => exact absurd hx List.not_mem_nil
  | cons y ys ih =>
    rcases List.mem_cons.mp hx with rfl | hx
    · cases ys with
      | nil => exact .inl h.2.2.2
      | cons z zs =>
        rw [h.2.2.2.1]
        exact .inr (List.mem_cons_of_mem _ (List.mem_cons_self ..))
    · exact (ih h.2.2.2 hx).imp_right (List.mem_cons_of_mem _)

theorem prev_mem (hx : x ∈ xs) : head = x ∧ K.prev x = back ∨ head ≠ x ∧ K.prev x ∈ xs := by
  have hnd := h.chain.nodup
  induction xs generalizing back head with
  | nil => exact absurd hx List.not_mem_nil
  | cons y ys ih =>
    obtain ⟨rfl, _, hback, htail⟩ := h
    grind

end

theorem prev_eq_zero (h : Double K 0 head xs) (hx : x ∈ xs) : K.prev x = 0 ↔ head = x := by
  rcases h.prev_mem hx with ⟨hh, hp⟩ | ⟨hh, hp⟩
  · exact ⟨fun _ => hh, fun _ => hp⟩
  · exact ⟨fun h0 => absurd h0 (h.chain.ne_zero _ hp), fun heq => absurd heq hh⟩

end Double

variable [DecidableEq α]

def Links.push (K : Links α) (head x : α) : Links α where
  next := update K.next x head
  prev := if head = 0 then update K.prev x 0
    else update (update K.prev x 0) head x

def Links.remove (K : Links α) (x : α) : Links α :=
  let next := if K.prev x = 0 then K.next else update K.next (K.prev x) (K.next x)
  let prev := if next x = 0 then K.prev else update K.prev (next x) (K.prev x)
  { next := update next x 0, prev := update prev x 0 }

theorem Links.push_next (hz : z ≠ x) : (K.push head x).next z = K.next z :=
  update_of_ne hz _ _

theorem Links.push_prev (hz : z ≠ x) :
    (K.push head x).prev z = if head ≠ 0 ∧ z = head then x else K.prev z := by
  unfold push
  grind

theorem Links.remove_next (hz : z ≠ x) :
    (K.remove x).next z = if K.prev x ≠ 0 ∧ z = K.prev x then K.next x else K.next z := by
  unfold remove
  grind

theorem Links.remove_prev (hx : K.prev x ≠ x) (hz : z ≠ x) :
    (K.remove x).prev z = if K.next x ≠ 0 ∧ z = K.next x then K.prev x else K.prev z := by
  have hnext : (if K.prev x = 0 then K.next
      else update K.next (K.prev x) (K.next x)) x = K.next x := by
    split
    · rfl
    · exact update_of_ne hx.symm _ _
  unfold remove
  grind

namespace Double

theorem push (h : Double K 0 head xs) (hx : x ∉ xs) (h0 : x ≠ 0) :
    Double (K.push head x) 0 x (x :: xs) := by
  have hnext : (K.push head x).next x = head := update_self ..
  have hnd := h.chain.nodup
  cases xs with
  | nil =>
    have hhead : head = 0 := h
    exact ⟨rfl, h0, by simp [Links.push, hhead], hnext.trans hhead⟩
  | cons y ys =>
    obtain ⟨rfl, hy0, _, htail⟩ := h
    obtain ⟨hxy, hxs⟩ := List.ne_and_not_mem_of_not_mem_cons hx
    refine ⟨rfl, h0, by simp [Links.push, hy0, hxy], hnext, hy0, ?_, ?_⟩
    · rw [Links.push_prev (Ne.symm hxy), if_pos ⟨hy0, rfl⟩]
    · rw [Links.push_next (Ne.symm hxy)]
      refine htail.congr fun z hz => ?_
      have hzx : z ≠ x := fun heq => hxs (heq ▸ hz)
      have hzh : z ≠ head := fun heq => (List.nodup_cons.mp hnd).1 (heq ▸ hz)
      rw [Links.push_next hzx, Links.push_prev hzx, if_neg fun hc => hzh hc.2]
      exact ⟨rfl, rfl⟩

theorem push_apart (h : Double K back head xs) (hz : z ∉ x :: xs) :
    (K.push head x).next z = K.next z ∧ (K.push head x).prev z = K.prev z := by
  obtain ⟨hzx, hzs⟩ := List.ne_and_not_mem_of_not_mem_cons hz
  rw [Links.push_next hzx, Links.push_prev hzx, if_neg]
  · exact ⟨rfl, rfl⟩
  · rintro ⟨hne, rfl⟩
    exact hzs (h.chain.head_mem hne)

theorem remove_aux (h : Double K back head xs) (hx : x ∈ xs) (hback : back ∉ xs) :
    K.prev x ≠ x ∧ Double (K.remove x) back (if head = x then K.next x else head) (xs.erase x) := by
  have hnd := h.chain.nodup
  induction xs generalizing back head with
  | nil => exact absurd hx List.not_mem_nil
  | cons y ys ih =>
    obtain ⟨rfl, hy0, hprev, htail⟩ := h
    obtain ⟨hyy, hys⟩ := List.nodup_cons.mp hnd
    obtain ⟨hbh, hbs⟩ := List.ne_and_not_mem_of_not_mem_cons hback
    rcases eq_or_ne head x with rfl | hne
    · -- `x` is first: the record after it becomes the first one.
      have hself : K.prev head ≠ head := hprev ▸ hbh
      rw [if_pos rfl, List.erase_cons_head]
      refine ⟨hself, ?_⟩
      cases ys with
      | nil => exact htail
      | cons z zs =>
        obtain ⟨hz, hz0, _, hrest⟩ := htail
        have hzx : z ≠ head := fun heq => hyy (heq ▸ List.mem_cons_self ..)
        have hzb : z ≠ back := fun heq => hbs (heq ▸ List.mem_cons_self ..)
        refine ⟨hz, hz0, ?_, ?_⟩
        · rw [Links.remove_prev hself hzx, if_pos ⟨hz ▸ hz0, hz.symm⟩, hprev]
        · rw [Links.remove_next hzx, hprev, if_neg (not_and_of_not_right _ hzb)]
          refine hrest.congr fun w hw => ?_
          have hwx : w ≠ head := fun heq => hyy (heq ▸ List.mem_cons_of_mem _ hw)
          have hwb : w ≠ back := fun heq => hbs (heq ▸ List.mem_cons_of_mem _ hw)
          have hwz : w ≠ z := fun heq => (List.nodup_cons.mp hys).1 (heq ▸ hw)
          rw [Links.remove_next hwx, Links.remove_prev hself hwx, hprev, hz,
            if_neg (not_and_of_not_right _ hwb), if_neg (not_and_of_not_right _ hwz)]
          exact ⟨rfl, rfl⟩
    · have hmem : x ∈ ys := (List.mem_cons.mp hx).resolve_left (Ne.symm hne)
      obtain ⟨hself, hrec⟩ := ih htail hmem hyy hys
      rw [if_neg hne, List.erase_cons_tail (by simpa using hne)]
      refine ⟨hself, rfl, hy0, ?_, ?_⟩
      · rw [Links.remove_prev hself hne, if_neg, hprev]
        grind [Double.next_mem]
      · rw [Links.remove_next hne]
        rcases htail.prev_mem hmem with ⟨hhead, hp⟩ | ⟨hhead, hp⟩
        · grind
        grind

theorem remove (h : Double K 0 head xs) (hx : x ∈ xs) :
    Double (K.remove x) 0 (if K.prev x = 0 then K.next x else head) (xs.erase x) := by
  have hback : (0 : α) ∉ xs := fun hmem => h.chain.ne_zero 0 hmem rfl
  have hrem := (h.remove_aux hx hback).2
  rwa [← if_congr (h.prev_eq_zero hx) rfl rfl] at hrem

theorem remove_apart (h : Double K 0 head xs) (hx : x ∈ xs) (hz : z ∉ xs) :
    (K.remove x).next z = K.next z ∧ (K.remove x).prev z = K.prev z := by
  have hback : (0 : α) ∉ xs := fun hmem => h.chain.ne_zero 0 hmem rfl
  have hself := (h.remove_aux hx hback).1
  have hzx : z ≠ x := fun heq => hz (heq ▸ hx)
  rw [Links.remove_next hzx, Links.remove_prev hself hzx, if_neg, if_neg]
  · exact ⟨rfl, rfl⟩
  · grind [Double.next_mem]
  grind [Double.prev_mem]

end Double

/-! ### Several lists -/

/-- The lists `L i` at `heads i`, with no record in common. -/
structure Family {ι : Type*} (K : Links α) (heads : ι → α) (L : ι → List α) : Prop where
  list : ∀ i, Double K 0 (heads i) (L i)
  apart : ∀ {i j : ι} {z : α}, z ∈ L i → z ∈ L j → i = j

section Lists

variable {ι : Type*} [DecidableEq ι] {heads : ι → α} {L : ι → List α} {i j : ι}

omit [Zero α] in
theorem mem_of_mem_update_erase (hz : z ∈ update L i ((L i).erase x) j) : z ∈ L j := by
  grind

omit [Zero α] [DecidableEq α] in
theorem mem_update_cons : z ∈ update L i (x :: L i) j ↔ z = x ∧ j = i ∨ z ∈ L j := by
  grind

namespace Family

theorem not_mem_remove (h : Family K heads L) (hx : x ∈ L i) (j : ι) :
    x ∉ update L i ((L i).erase x) j := by
  intro hj
  by_cases hji : j = i
  · subst hji
    rw [update_self] at hj
    exact (h.list j).chain.nodup.not_mem_erase hj
  · rw [update_of_ne hji] at hj
    exact hji (h.apart hj hx)

theorem remove (h : Family K heads L) (hx : x ∈ L i) :
    Family (K.remove x) (update heads i (if K.prev x = 0 then K.next x else heads i))
      (update L i ((L i).erase x)) := by
  refine ⟨fun l => ?_,
    fun hz hz' => h.apart (mem_of_mem_update_erase hz) (mem_of_mem_update_erase hz')⟩
  by_cases hl : l = i
  · subst hl
    rw [update_self, update_self]
    exact (h.list l).remove hx
  · rw [update_of_ne hl, update_of_ne hl]
    refine (h.list l).congr fun z hz => (h.list i).remove_apart hx fun hzi => ?_
    exact hl (h.apart hz hzi)

theorem push (h : Family K heads L) (hx : ∀ l, x ∉ L l) (h0 : x ≠ 0) (i : ι) :
    Family (K.push (heads i) x) (update heads i x) (update L i (x :: L i)) := by
  refine ⟨fun l => ?_, fun hz hz' => ?_⟩
  · by_cases hl : l = i
    · subst hl
      rw [update_self, update_self]
      exact (h.list l).push (hx l) h0
    · rw [update_of_ne hl, update_of_ne hl]
      refine (h.list l).congr fun z hz => (h.list i).push_apart fun hzi => ?_
      rcases List.mem_cons.mp hzi with rfl | hzi
      · exact hx l hz
      · exact hl (h.apart hz hzi)
  · rcases mem_update_cons.mp hz with ⟨rfl, rfl⟩ | hold
    · grind
    · rcases mem_update_cons.mp hz' with ⟨rfl, rfl⟩ | hold'
      · exact absurd hold (hx _)
      · exact h.apart hold hold'

end Family

end Lists

end Xv6.Linked
