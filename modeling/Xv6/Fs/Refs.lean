import Xv6.Fs.Owned
import Xv6.Fs.Table
import Xv6.Shared.Keyed

/-! References to inodes.

In a `Good` state no two entries in use are for the same inode, and an entry that has been read from
the disk is the same as there. `Held s0 s l` says that since `s0` the references in `l` have been taken
and not been given back, and that everything that was in use in `s0` still is: a call that gives back
what it takes ends with `Held s0 s []`. -/
namespace Xv6.Fs
open Function
open Shared (Keyed total)

def At (s : State) (p i : ℕ) : Prop := p < ninode ∧ s.Names i p
deriving Decidable

def Ready (s : State) (p i : ℕ) : Prop := At s p i ∧ (s.inode p).valid = true

/-- The references to inode `i` in memory. -/
def refs (s : State) (i : ℕ) : ℕ :=
  total ninode (fun p => (s.inode p).inum) (fun p => (s.inode p).ref) i

def State.used (s : State) : ℕ := (Shared.inUse ninode fun p => (s.inode p).ref).card

def State.Allocated (s : State) (i : ℕ) : Prop := Fs.Allocated s.store s.store.dinode i
deriving Decidable

structure Good (s : State) : Prop where
  keyed : Keyed ninode (fun p => (s.inode p).inum) fun p => (s.inode p).ref
  synced : ∀ p i, Ready s p i → (s.inode p).copy = s.store.dinode i ∧ s.Allocated i

variable {s s' s0 : State} {l l' : List (ℕ × ℕ)} {E : Panic → Prop} {e : Entry} {st : Store}
  {p q i j n : ℕ}

/-! ### Entries -/

def State.put (s : State) (p : ℕ) (e : Entry) (st : Store) : State := ⟨st, update s.inode p e⟩

theorem setEntry_eq (s : State) (p : ℕ) (e : Entry) : s.setEntry p e = s.put p e s.store := rfl

@[simp] theorem put_store (s : State) (p : ℕ) (e : Entry) (st : Store) : (s.put p e st).store = st := rfl

@[simp] theorem put_self (s : State) (p : ℕ) (e : Entry) (st : Store) : (s.put p e st).inode p = e :=
  update_self ..

@[simp] theorem put_ip (s : State) (p : ℕ) (e : Entry) (st : Store) : (s.put p e st).ip p = ⟨e.copy, e.inum⟩ := by
  unfold State.ip
  rw [put_self]

@[simp] theorem put_put (s : State) (p : ℕ) (e e' : Entry) (st st' : Store) :
    (s.put p e st).put p e' st' = s.put p e' st' := by
  unfold State.put
  rw [update_idem]

@[simp] theorem put_withStore (s : State) (p : ℕ) (e : Entry) (st st' : Store) :
    ({s.put p e st with store := st'} : State) = s.put p e st' := rfl

theorem put_of_ne (h : q ≠ p) : (s.put p e st).inode q = s.inode q := update_of_ne h ..

theorem put_inum (s : State) (p : ℕ) (e : Entry) (st : Store) : (fun q => ((s.put p e st).inode q).inum) =
    update (fun q => (s.inode q).inum) p e.inum := by
  grind [put_self, put_of_ne, update_of_ne]

theorem put_ref (s : State) (p : ℕ) (e : Entry) (st : Store) : (fun q => ((s.put p e st).inode q).ref) =
    update (fun q => (s.inode q).ref) p e.ref := by
  grind [put_self, put_of_ne, update_of_ne]

theorem at_put_of_ne (h : q ≠ p) : At (s.put p e st) q j ↔ At s q j := by
  unfold At State.Names
  rw [put_of_ne h]

theorem ready_put_of_ne (h : q ≠ p) : Ready (s.put p e st) q j ↔ Ready s q j := by
  unfold Ready
  rw [at_put_of_ne h, put_of_ne h]

theorem refs_pos : 0 < refs s i ↔ ∃ p, At s p i := by
  unfold refs
  rw [Shared.total_pos]
  constructor
  · rintro ⟨p, hp, hpos, hi⟩
    exact ⟨p, hp, hpos, hi⟩
  · rintro ⟨p, hp, hpos, hi⟩
    exact ⟨p, hp, hpos, hi⟩

namespace Good

section
variable (h : Good s)
include h

theorem refs_eq (hat : At s p i) : refs s i = (s.inode p).ref := by
  obtain ⟨hp, hpos, rfl⟩ := hat
  exact h.keyed.total_eq hp hpos

theorem unique (hp : At s p i) (hq : At s q i) : p = q :=
  h.keyed p hp.1 q hq.1 hp.2.1 hq.2.1 (hp.2.2.trans hq.2.2.symm)

theorem ip_eq (hr : Ready s p i) : s.ip p = ⟨s.store.dinode i, i⟩ := by
  unfold State.ip
  rw [(h.synced p i hr).1, hr.1.2.2]

theorem allocated (hr : Ready s p i) : s.Allocated i := (h.synced p i hr).2

theorem refs_put (hat : At s p i) (hinum : e.inum = i) :
    refs (s.put p e st) = update (refs s) i e.ref := by
  obtain ⟨hp, hpos, rfl⟩ := hat
  have hkey : update (fun q => (s.inode q).inum) p e.inum = fun q => (s.inode q).inum := by
    grind
  funext j
  unfold refs
  rw [put_inum, put_ref, hkey, h.keyed.total_count hp hpos]

theorem put (hat : At s p i) (hinum : e.inum = i) (hsb : st.sb = s.store.sb)
    (hother : ∀ j, j ≠ i → st.dinode j = s.store.dinode j)
    (hsync : 0 < e.ref → e.valid = true → e.copy = st.dinode i ∧ Fs.Allocated st st.dinode i) :
    Good (s.put p e st) where
  keyed := by
    obtain ⟨hp, hpos, rfl⟩ := hat
    have hkey : update (fun q => (s.inode q).inum) p e.inum = fun q => (s.inode q).inum := by
      grind
    rw [put_inum, put_ref, hkey]
    exact h.keyed.setCount hpos
  synced := by
    intro q j hq
    by_cases hqp : q = p
    · subst hqp
      obtain ⟨⟨-, hpos, hj⟩, hvalid⟩ := hq
      rw [put_self] at hpos hj hvalid ⊢
      obtain rfl : i = j := hinum.symm.trans hj
      exact hsync hpos hvalid
    · rw [ready_put_of_ne hqp] at hq
      have hji : j ≠ i := fun hji => hqp (h.unique hq.1 (hji ▸ hat))
      grind [Good.synced, put_of_ne, put_store, State.Allocated, Fs.Allocated]

end

end Good

/-! ### References that are held -/

structure Held (s0 s : State) (l : List (ℕ × ℕ)) : Prop where
  good : Good s
  refs : ∀ i, refs s i = refs s0 i + (l.map Prod.snd).count i
  held : ∀ x ∈ l, At s x.1 x.2
  stays : ∀ p i, At s0 p i → At s p i
  valid : ∀ p i, Ready s0 p i → Ready s p i

namespace Held

theorem refl (h : Good s) : Held s s [] :=
  ⟨h, fun _ => by simp, nofun, fun _ _ => id, fun _ _ => id⟩

theorem trans (h : Held s0 s l) (h' : Held s s' l') : Held s0 s' (l' ++ l) where
  good := h'.good
  refs := by
    intro i
    rw [h'.refs, h.refs, List.map_append, List.count_append]
    omega
  held := by
    intro x hx
    grind [Held.held, Held.stays]
  stays := fun p i hp => h'.stays p i (h.stays p i hp)
  valid := fun p i hp => h'.valid p i (h.valid p i hp)

theorem perm (h : Held s0 s l) (hl : l.Perm l') : Held s0 s l' where
  good := h.good
  refs := by
    intro i
    rw [h.refs, (hl.map Prod.snd).count_eq]
  held := fun x hx => h.held x (hl.mem_iff.mpr hx)
  stays := h.stays
  valid := h.valid

theorem used_le (h : Held s0 s l) : s.used ≤ s0.used + l.length := by
  have hle := h.good.keyed.card_inUse_le (l := l.map Prod.snd) fun i => (h.refs i).le
  rw [List.length_map] at hle
  exact hle

theorem withStore (h : Held s0 s l) (hsb : st.sb = s.store.sb) (hdinode : st.dinode = s.store.dinode) :
    Held s0 {s with store := st} l where
  good := by
    refine ⟨h.good.keyed, fun p i hr => ?_⟩
    unfold State.Allocated Fs.Allocated
    rw [hdinode, hsb]
    exact h.good.synced p i hr
  refs := h.refs
  held := h.held
  stays := h.stays
  valid := h.valid

end Held

/-! ### `iget`, `idup` and `ilock` -/

theorem iget_cases (s : State) (i : ℕ) :
    (∃ p, At s p i ∧ iget i s = .ok (p, s.setEntry p {s.inode p with ref := (s.inode p).ref + 1})) ∨
    (∀ p, ¬ At s p i) ∧
      ((∃ p < ninode, (s.inode p).ref = 0 ∧
          iget i s = .ok (p, s.setEntry p {s.inode p with inum := i, ref := 1, valid := false})) ∨
        (∀ p < ninode, (s.inode p).ref ≠ 0) ∧ iget i s = .error .igetNoInodes) := by
  unfold iget
  cases hfind : (List.range ninode).find? fun p => s.Names i p with
  | some p =>
    left
    refine ⟨p, ⟨List.mem_range.mp (List.mem_of_find?_eq_some hfind), ?_⟩, rfl⟩
    simpa using List.find?_some hfind
  | none =>
    right
    have hnone := List.find?_eq_none.mp hfind
    refine ⟨fun p hp => hnone p (List.mem_range.mpr hp.1) (decide_eq_true hp.2), ?_⟩
    grind

namespace Good

section
variable (h : Good s)
include h

theorem held_put (hat : At s p i) (hgood : Good (s.put p e st)) (hinum : e.inum = i)
    (href : e.ref = (s.inode p).ref + n) (hvalid : (s.inode p).valid = true → e.valid = true) :
    Held s (s.put p e st) (List.replicate n (p, i)) := by
  have hself : At (s.put p e st) p i := by
    have := hat.2.1
    refine ⟨hat.1, ?_, ?_⟩
    · rw [put_self]
      omega
    · rw [put_self, hinum]
  have hsame : ∀ j, At s p j → j = i := fun j hj => hj.2.2.symm.trans hat.2.2
  refine ⟨hgood, fun j => ?_, fun x hx => ?_, fun q j hq => ?_, fun q j hq => ?_⟩
  · rw [h.refs_put hat hinum, List.map_replicate]
    grind [Good.refs_eq, List.count_replicate_self]
  · grind
  · grind [at_put_of_ne]
  · by_cases hqp : q = p
    · subst hqp
      rw [hsame j hq.1]
      refine ⟨hself, ?_⟩
      rw [put_self]
      exact hvalid hq.2
    · exact (ready_put_of_ne hqp).mpr hq

theorem put_entry (hat : At s p i) (hinum : e.inum = i)
    (hsync : 0 < e.ref → e.valid = true → e.copy = s.store.dinode i ∧ s.Allocated i) :
    Good (s.put p e s.store) :=
  h.put hat hinum rfl (fun _ _ => rfl) hsync

theorem retain (hat : At s p i) :
    Held s (s.setEntry p {s.inode p with ref := (s.inode p).ref + 1}) [(p, i)] :=
  h.held_put (n := 1) hat
    (h.put_entry hat hat.2.2 fun _ hvalid => h.synced p i ⟨hat, hvalid⟩) hat.2.2 rfl id

theorem recycle (hp : p < ninode) (hempty : (s.inode p).ref = 0) (hnone : ∀ q, ¬ At s q i) :
    Held s (s.setEntry p {s.inode p with inum := i, ref := 1, valid := false}) [(p, i)] := by
  have hunused : ∀ q < ninode, 0 < (s.inode q).ref → (s.inode q).inum ≠ i :=
    fun q hq hpos hi => hnone q ⟨hq, hpos, hi⟩
  have hne : ∀ q j, At s q j → q ≠ p := by
    rintro q j hq rfl
    have := hq.2.1
    omega
  rw [setEntry_eq]
  constructor
  · refine ⟨?_, fun q j hq => ?_⟩
    · rw [put_inum, put_ref]
      exact h.keyed.recycle hunused
    · by_cases hqp : q = p
      · have hvalid := hq.2
        grind [put_self]
      · rw [put_of_ne hqp]
        exact h.synced q j ((ready_put_of_ne hqp).mp hq)
  · intro j
    unfold Fs.refs
    rw [put_inum, put_ref, Shared.total_recycle hp hempty hunused]
    by_cases hj : j = i
    · have hzero : ¬ 0 < total ninode (fun q => (s.inode q).inum) (fun q => (s.inode q).ref) i := by
        intro hpos
        obtain ⟨q, hq⟩ := refs_pos.mp hpos
        exact hnone q hq
      subst hj
      simp [Nat.eq_zero_of_not_pos hzero]
    · simp [update_of_ne hj, Ne.symm hj]
  · intro x hx
    rw [List.mem_singleton.mp hx]
    refine ⟨hp, ?_, ?_⟩
    · rw [put_self]
      exact Nat.one_pos
    · rw [put_self]
  · grind [at_put_of_ne]
  · intro q j hq
    exact (ready_put_of_ne (hne q j hq.1)).mpr hq

theorem iget (hroom : (∃ p, At s p i) ∨ s.used < ninode ∨ E .igetNoInodes) :
    Outcome E (iget i s) fun r => r.2.store = s.store ∧ Held s r.2 [(r.1, i)] ∧
      (0 < refs s i ∨ (r.2.inode r.1).valid = false) := by
  rcases iget_cases s i with ⟨p, hat, heq⟩ | ⟨hnone, ⟨p, hp, hempty, heq⟩ | ⟨hfull, heq⟩⟩
  · rw [heq]
    exact ⟨rfl, h.retain hat, .inl (refs_pos.mpr ⟨p, hat⟩)⟩
  · rw [heq]
    refine ⟨rfl, h.recycle hp hempty hnone, .inr ?_⟩
    grind [setEntry_eq, put_self]
  · rw [heq]
    rcases hroom with ⟨p, hp⟩ | hused | hpanic
    · exact absurd hp (hnone p)
    · obtain ⟨p, hp, hempty⟩ := Shared.exists_free hused
      exact absurd hempty (hfull p hp)
    · exact hpanic

theorem idup (hat : At s p i) :
    Outcome E (idup p s) fun r => r.1 = p ∧ r.2.store = s.store ∧ Held s r.2 [(p, i)] :=
  ⟨rfl, rfl, h.retain hat⟩

theorem ilock (hat : At s p i) (hi : i < s.store.sb.ninodes)
    (htype : (s.store.dinode i).type ≠ .free ∨ E .ilockNoType) :
    Outcome E (ilock p s) fun r => r.2.store = s.store ∧ Held s r.2 [] ∧ Ready r.2 p i := by
  have hpos := hat.2.1
  have hdip : s.store.dinode (s.inode p).inum = s.store.dinode i := by rw [hat.2.2]
  unfold Fs.ilock
  rw [if_neg (by omega)]
  split
  · rename_i hvalid
    exact ⟨rfl, .refl h, hat, hvalid⟩
  dsimp only
  rw [hdip]
  split
  · rename_i hfree
    rcases htype with htype | hpanic
    · exact absurd hfree htype
    · exact hpanic
  · rename_i hinvalid hused
    have hgood := h.put_entry (e := {s.inode p with copy := s.store.dinode i, valid := true}) hat hat.2.2
      fun _ _ => ⟨rfl, hi, hused⟩
    have hheld := h.held_put (n := 0) hat hgood hat.2.2 rfl fun _ => rfl
    refine ⟨rfl, hheld, hheld.stays p i hat, ?_⟩
    grind [setEntry_eq, put_self]

end

end Good

theorem At.iunlock {α : Type} {f : Unit → FsM α} {Q : α × State → Prop} (hat : At s p i)
    (h : Outcome E (f () s) Q) : Outcome E ((iunlock p >>= f) s) Q := by
  have hpos := hat.2.1
  have hunlock : Fs.iunlock p s = .ok ((), s) := by
    unfold Fs.iunlock
    rw [if_neg (by omega)]
  show Outcome E (Fs.iunlock p s >>= fun r => f r.1 r.2) Q
  rw [hunlock]
  exact h

/-! ### `iput` -/

section
variable (h : Held s0 s ((p, i) :: l))
include h

theorem Held.ref_eq : (s.inode p).ref = Fs.refs s0 i + (l.map Prod.snd).count i + 1 := by
  have hat : At s p i := h.held (p, i) List.mem_cons_self
  rw [← h.good.refs_eq hat, h.refs, List.map_cons, List.count_cons_self]
  omega

theorem Held.drop (hgood : Good (s.put p e st)) (hinum : e.inum = i)
    (href : e.ref + 1 = (s.inode p).ref)
    (hvalid : 1 < (s.inode p).ref → (s.inode p).valid = true → e.valid = true) :
    Held s0 (s.put p e st) l := by
  have hat : At s p i := h.held (p, i) List.mem_cons_self
  have hrefs := h.ref_eq
  -- Whoever else is at the entry has a reference of its own.
  have hmore : ∀ j, (At s0 p j ∨ (p, j) ∈ l) → j = i ∧ 1 < (s.inode p).ref := by
    rintro j (hj | hj)
    · obtain rfl : j = i := (h.stays p j hj).2.2.symm.trans hat.2.2
      grind [refs_pos]
    · obtain rfl : j = i := (h.held (p, j) (List.mem_cons_of_mem _ hj)).2.2.symm.trans hat.2.2
      have hmem : j ∈ l.map Prod.snd := List.mem_map_of_mem (f := Prod.snd) hj
      grind
  have hstill : 1 < (s.inode p).ref → At (s.put p e st) p i := by
    intro hone
    refine ⟨hat.1, ?_, ?_⟩
    · rw [put_self]
      omega
    · rw [put_self, hinum]
  constructor
  · exact hgood
  · intro j
    rw [h.good.refs_put hat hinum]
    by_cases hj : j = i
    · grind
    · rw [update_of_ne hj, h.refs, List.map_cons, List.count_cons_of_ne (Ne.symm hj)]
  · intro x hx
    grind [at_put_of_ne, Held.held]
  · grind [at_put_of_ne, Held.stays]
  · intro q j hq
    by_cases hqp : q = p
    · subst hqp
      obtain ⟨rfl, hone⟩ := hmore j (.inl hq.1)
      refine ⟨hstill hone, ?_⟩
      rw [put_self]
      exact hvalid hone (h.valid q j hq).2
    · exact (ready_put_of_ne hqp).mpr (h.valid q j hq)

theorem Held.iput (hkeep : (s.inode p).valid = true →
      (s.store.dinode i).nlink ≠ 0 ∨ 0 < Fs.refs s0 i ∨ i ∈ l.map Prod.snd) :
    Outcome E (iput p s) fun r => r.2.store = s.store ∧ Held s0 r.2 l := by
  have hat : At s p i := h.held (p, i) List.mem_cons_self
  have hpos := hat.2.1
  have hrefs := h.ref_eq
  have hnot : ¬ ((s.inode p).ref = 1 ∧ (s.inode p).valid = true ∧ (s.inode p).copy.nlink = 0) := by
    rintro ⟨hone, hvalid, hlink⟩
    rw [(h.good.synced p i ⟨hat, hvalid⟩).1] at hlink
    grind
  unfold Fs.iput
  rw [if_neg hnot]
  refine ⟨rfl, h.drop (h.good.put_entry hat hat.2.2 fun _ hvalid => ?_) hat.2.2 ?_ fun _ => id⟩
  · exact h.good.synced p i ⟨hat, hvalid⟩
  grind

theorem Held.iunlockput
    (hkeep : (s.store.dinode i).nlink ≠ 0 ∨ 0 < Fs.refs s0 i ∨ i ∈ l.map Prod.snd) :
    Outcome E (iunlockput p s) fun r => r.2.store = s.store ∧ Held s0 r.2 l := by
  have hat : At s p i := h.held (p, i) List.mem_cons_self
  exact hat.iunlock (h.iput fun _ => hkeep)

end

end Xv6.Fs
