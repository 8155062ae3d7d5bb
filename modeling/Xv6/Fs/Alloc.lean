import Xv6.Fs.Update

/-! Allocating inodes.

`ialloc` takes the first free inode. It has no blocks yet, so that the blocks belong to the same places
as before, and all other inodes are what they were. -/
namespace Xv6.Fs

variable {s : State} {st : Store} {type : FileType} {E : Panic → Prop} {i j : ℕ}

theorem claim_self : (claim i type st).dinode i = {Dinode.zero with type := type} := Function.update_self ..

theorem claim_of_ne (h : j ≠ i) : (claim i type st).dinode j = st.dinode j := Function.update_of_ne h ..

theorem claim_quiet (i : ℕ) (type : FileType) (st : Store) : Quiet st (claim i type st) (· = i) where
  sb := rfl
  fields := by
    intro j hj
    rw [claim_of_ne hj]
  bytes := by
    intro j hj _ x _
    rw [claim_of_ne hj]
    rfl

theorem place_claim (hfree : (st.dinode i).type = .free) :
    place (claim i type st) (claim i type st).dinode = place st st.dinode := by
  funext p
  obtain ⟨j, k⟩ := p
  by_cases hj : j = i
  · subst hj
    have hbefore : ¬ Allocated st st.dinode j := fun h => h.2 hfree
    unfold place
    rw [if_neg hbefore, claim_self]
    grind [addrOf, Dinode.zero]
  · refine place_congr ((claim_quiet i type st).allocated hj) fun _ => ?_
    rw [claim_of_ne hj]
    rfl

theorem Consistent.claim (h : Consistent st st.dinode) (hfree : (st.dinode i).type = .free) :
    Consistent (claim i type st) (claim i type st).dinode where
  layout := h.layout
  owners := by
    rw [place_claim hfree]
    exact h.owners
  metadata := h.metadata
  noHoles := by
    intro j hj
    by_cases hji : j = i
    · rw [hji, claim_self]
      intro bn hbn
      exact absurd hbn (Nat.not_lt_zero _)
    · rw [claim_of_ne hji]
      exact h.noHoles j (((claim_quiet i type st).allocated hji).mp hj)
  size := by
    intro j hj
    by_cases hji : j = i
    · rw [hji, claim_self]
      exact Nat.zero_le _
    · rw [claim_of_ne hji]
      exact h.size j (((claim_quiet i type st).allocated hji).mp hj)

theorem Good.claim (h : Good s) (hfree : (s.store.dinode i).type = .free) :
    Held s {s with store := Fs.claim i type s.store} [] where
  good := by
    refine ⟨h.keyed, fun p j hr => ?_⟩
    obtain ⟨hcopy, hall⟩ := h.synced p j hr
    have hji : j ≠ i := by
      rintro rfl
      exact hall.2 hfree
    refine ⟨?_, ((claim_quiet i type s.store).allocated hji).mpr hall⟩
    show _ = (Fs.claim i type s.store).dinode j
    rw [claim_of_ne hji]
    exact hcopy
  refs := fun _ => (Nat.add_zero _).symm
  held := nofun
  stays := fun _ _ => id
  valid := fun _ _ => id

theorem Good.ialloc (h : Good s) (hroom : s.used < ninode ∨ E .igetNoInodes) :
    Outcome E (ialloc type s) fun r => r = (none, s) ∨
      ∃ p i, r.1 = some p ∧ 0 < i ∧ i < s.store.sb.ninodes ∧ (s.store.dinode i).type = .free ∧
        r.2.store = Fs.claim i type s.store ∧ Held s r.2 [(p, i)] := by
  unfold Fs.ialloc
  split
  · exact .inl rfl
  · rename_i i hfind
    have hfree : (s.store.dinode i).type = .free := by simpa using List.find?_some hfind
    have hmem := List.mem_range'_1.mp (List.mem_of_find?_eq_some hfind)
    have hclaim : Held s {s with store := Fs.claim i type s.store} [] := h.claim hfree
    refine (hclaim.good.iget (.inr hroom)).andThen ?_
    rintro p s' ⟨hst, hheld, -⟩
    exact .inr ⟨p, i, rfl, by omega, by omega, hfree, hst, hclaim.trans hheld⟩

end Xv6.Fs
