import Xv6.Fs.Trunc
import Xv6.Fs.Update

/-! Freeing inodes.

`iput` frees an inode that has no links when it gives up the last reference to it. All its blocks are
free then, and everything else is as before (`FreedInode`). -/
namespace Xv6.Fs
open Function

variable {s s' s0 : State} {st st' : Store} {l : List (ℕ × ℕ)} {E : Panic → Prop} {X : ℕ → Prop}
  {p i j x : ℕ}

def Dinode.freed (d : Dinode) : Dinode :=
  {d with type := .free, size := 0, addrs := fun k => if k < ndirect + 1 then 0 else d.addrs k}

/-- The disk after inode `i` has been freed, with all its blocks. -/
structure FreedInode (st st' : Store) (i : ℕ) : Prop extends
    Cleared st st' (Holds st (st.dinode i) fun _ => True) where
  dinode : st'.dinode = update st.dinode i (st.dinode i).freed

theorem Good.itruncAt (h : Good s) (ho : Owned s.store s.store.dinode) (hr : Ready s p i) :
    Outcome E (itruncAt p s) fun r => ∃ t, Freed s.store t (Holds s.store (s.store.dinode i) fun _ => True) ∧
      r.2 = s.put p {s.inode p with copy := (s.ip p).truncated.toDinode} (iupdate (s.ip p).truncated t) := by
  have hip := h.ip_eq hr
  have hview : view s.store.dinode (s.ip p) = s.store.dinode := by
    rw [hip]
    exact update_eq_self ..
  have htrunc : Outcome E (itrunc (s.ip p) s.store) _ :=
    Owned.itrunc (hview.symm ▸ ho) (by rw [hview, hip]; exact h.allocated hr)
  have hplaces : (s.ip p).toDinode = s.store.dinode i := by rw [hip]
  refine Outcome.bind (Q := fun r => ∃ t, Freed s.store t (Holds s.store (s.store.dinode i) fun _ => True) ∧
    r.2 = ((s.ip p).truncated, iupdate (s.ip p).truncated t)) (htrunc.bind ?_) ?_
  · rintro ⟨ip, store⟩ ⟨rfl, t, hfreed, rfl⟩
    exact ⟨t, hplaces ▸ hfreed, rfl⟩
  · rintro ⟨a, ip, store⟩ ⟨t, hfreed, hr⟩
    obtain ⟨rfl, rfl⟩ := Prod.mk.inj hr
    exact ⟨t, hfreed, rfl⟩

theorem Good.ifree (h : Good s) (ho : Owned s.store s.store.dinode) (hr : Ready s p i) :
    Outcome E (ifree p s) fun r => FreedInode s.store r.2.store i ∧
      ∃ e : Entry, r.2 = s.put p e r.2.store ∧ e.inum = i ∧ e.ref = (s.inode p).ref ∧ e.valid = false := by
  have hip := h.ip_eq hr
  refine (h.itruncAt ho hr).andThen ?_
  rintro ⟨⟩ s' ⟨t, hfreed, rfl⟩
  have hfree : {(s.ip p).truncated.toDinode with type := .free} = (s.store.dinode i).freed := by
    rw [hip]
    rfl
  have hinum : (s.inode p).inum = i := hr.1.2.2
  have hip' : (s.ip p).truncated.inum = i := hinum
  refine ⟨⟨⟨hfreed.sb, hfreed.used, hfreed.block⟩, ?_⟩,
    {s.inode p with copy := (s.store.dinode i).freed, valid := false}, ?_, hinum, rfl, rfl⟩
  · simp only [iupdate, setEntry_eq, put_put, put_self, put_ip, put_store, hfree, hinum, hip',
      Store.logWrite, update_idem, hfreed.dinode]
  · simp only [setEntry_eq, put_put, put_self, put_store, put_withStore, hfree]

theorem FreedInode.owned (h : FreedInode st st' i) (ho : Owned st st.dinode)
    (hi : Allocated st st.dinode i) : Owned st' st'.dinode := by
  refine ho.freed hi h.toCleared (fun hall => ?_) fun j hj => ?_
  · have htype := hall.2
    rw [h.dinode, update_self] at htype
    exact absurd rfl htype
  · rw [h.dinode, update_of_ne hj]

theorem Held.iputFrees (h : Held s0 s ((p, i) :: l)) (ho : Owned s.store s.store.dinode)
    (hvalid : (s.inode p).valid = true) (hone : (s.inode p).ref = 1)
    (hlink : (s.store.dinode i).nlink = 0) :
    Outcome E (Fs.iput p s) fun r => FreedInode s.store r.2.store i ∧ Held s0 r.2 l := by
  have hat : At s p i := h.held (p, i) List.mem_cons_self
  have hr : Ready s p i := ⟨hat, hvalid⟩
  have hcond : (s.inode p).ref = 1 ∧ (s.inode p).valid = true ∧ (s.inode p).copy.nlink = 0 := by
    grind [Held.good, Good.synced]
  unfold Fs.iput
  rw [if_pos hcond]
  refine (h.good.ifree ho hr).andThen ?_
  rintro ⟨⟩ s' ⟨hfreed, e, hs', hinum, href, hinvalid⟩
  dsimp only at hfreed hs'
  have hfinal : s'.setEntry p {s'.inode p with ref := (s'.inode p).ref - 1} =
      s.put p {e with ref := e.ref - 1} s'.store := by
    rw [hs', setEntry_eq, put_put, put_self, put_store]
  show FreedInode s.store (s'.setEntry p _).store i ∧ Held s0 (s'.setEntry p _) l
  rw [hfinal]
  refine ⟨hfreed, h.drop (h.good.put hat hinum hfreed.sb (fun j hj => ?_) ?_) hinum ?_ ?_⟩
  · rw [hfreed.dinode, update_of_ne hj]
  · grind
  · show e.ref - 1 + 1 = _
    omega
  · omega

theorem FreedInode.quiet (h : FreedInode st st' i) (ho : Owned st st.dinode) : Quiet st st' (· = i) where
  sb := h.sb
  fields := by
    intro j hj
    rw [h.dinode, update_of_ne hj]
  bytes := by
    intro j hj hall x hx
    rw [h.dinode, update_of_ne hj]
    exact ho.cleared_byteAt h.toCleared hall hx

theorem Consistent.cleared (hc : Consistent st st.dinode) (hi : Allocated st st.dinode i)
    (hf : Cleared st st' (Holds st (st.dinode i) fun _ => True)) (hother : ∀ j, j ≠ i → st'.dinode j = st.dinode j)
    (hnone : Allocated st' st'.dinode i → (st'.dinode i).size = 0 ∧ ∀ k, addrOf st' (st'.dinode i) k = 0) :
    Consistent st' st'.dinode := by
  have hall : ∀ j, j ≠ i → Allocated st' st'.dinode j → Allocated st st.dinode j := by
    intro j hji hj
    unfold Allocated at hj ⊢
    rwa [hother j hji, hf.sb] at hj
  refine ⟨hc.toOwned.freed hi hf (fun hj => (hnone hj).2) hother, fun j hj bn hbn => ?_, fun j hj => ?_⟩
  · by_cases hji : j = i
    · rw [hji, (hnone (hji ▸ hj)).1] at hbn
      exact absurd hbn (Nat.not_lt_zero _)
    rw [hother j hji] at hbn ⊢
    have hsize := hc.size j (hall j hji hj)
    have hmax : bn < maxfile := by
      unfold bsize at *
      omega
    rw [blockOf_eq hmax, hc.toOwned.cleared_addrOf hf (hall j hji hj), ← blockOf_eq hmax]
    exact hc.noHoles j (hall j hji hj) bn hbn
  · by_cases hji : j = i
    · rw [hji, (hnone (hji ▸ hj)).1]
      exact Nat.zero_le _
    · rw [hother j hji]
      exact hc.size j (hall j hji hj)

theorem FreedInode.consistent (h : FreedInode st st' i) (hc : Consistent st st.dinode)
    (hi : Allocated st st.dinode i) : Consistent st' st'.dinode := by
  refine hc.cleared hi h.toCleared (fun j hj => ?_) fun hall => ?_
  · rw [h.dinode, update_of_ne hj]
  · have htype := hall.2
    rw [h.dinode, update_self] at htype
    exact absurd rfl htype

theorem Held.iputAny (h : Held s0 s ((p, i) :: l)) (ho : Owned s.store s.store.dinode) :
    Outcome E (Fs.iput p s) fun r => Held s0 r.2 l ∧ (r.2.store = s.store ∨
      FreedInode s.store r.2.store i ∧ s.Allocated i ∧ (s.store.dinode i).nlink = 0 ∧
        Fs.refs s0 i = 0 ∧ i ∉ l.map Prod.snd) := by
  have hat : At s p i := h.held (p, i) List.mem_cons_self
  have hrefs := h.ref_eq
  by_cases hfree : (s.inode p).valid = true ∧ (s.inode p).ref = 1 ∧ (s.store.dinode i).nlink = 0
  · obtain ⟨hvalid, hone, hlink⟩ := hfree
    refine (h.iputFrees ho hvalid hone hlink).mono fun r hr => ⟨hr.2, .inr ⟨hr.1, ?_, hlink, ?_, ?_⟩⟩
    · exact h.good.allocated ⟨hat, hvalid⟩
    · omega
    grind
  grind [Held.iput, Outcome.mono]

theorem Held.iputQuiet (h : Held s0 s ((p, i) :: l)) (hc : Consistent s.store s.store.dinode) :
    Outcome E (Fs.iput p s) fun r => Held s0 r.2 l ∧ Consistent r.2.store r.2.store.dinode ∧
      Quiet s.store r.2.store fun j => j = i ∧ (s.store.dinode i).nlink = 0 ∧ Fs.refs s0 i = 0 ∧
        i ∉ l.map Prod.snd := by
  refine (h.iputAny hc.toOwned).mono fun r ⟨hheld, hcases⟩ => ⟨hheld, ?_⟩
  rcases hcases with hst | ⟨hfreed, hall, hlink, hrefs, hnot⟩
  · rw [hst]
    exact ⟨hc, .refl _⟩
  · exact ⟨hfreed.consistent hc hall, (hfreed.quiet hc.toOwned).mono fun j hj => ⟨hj, hlink, hrefs, hnot⟩⟩

end Xv6.Fs
