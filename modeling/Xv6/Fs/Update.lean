import Xv6.Fs.ByteFile
import Xv6.Fs.Refs

/-! Changing an inode that is in the table.

A function that changes an inode in memory writes it to the disk before it returns, so that the entry
stays `Ready` (`Good.withInode`). `Quiet` says that a program sees no difference: all inodes are as
before but for the places where their blocks are, and all files have the same bytes. -/
namespace Xv6.Fs

open Function

variable {s s' : State} {st st' st'' : Store} {mem : Memory} {E : Panic → Prop} {X Y : ℕ → Prop}
  {p i j n x off addr len : ℕ}

/-! ### What is left as it was -/

/-- The inodes but for those in `X` are as before, with their contents. -/
structure Quiet (st st' : Store) (X : ℕ → Prop) : Prop where
  sb : st'.sb = st.sb
  fields : ∀ j, ¬ X j → st'.dinode j = {st.dinode j with addrs := (st'.dinode j).addrs}
  bytes : ∀ j, ¬ X j → Allocated st st.dinode j → ∀ x < maxfile * bsize,
    byteAt st' (st'.dinode j) x = byteAt st (st.dinode j) x

namespace Quiet

theorem refl (st : Store) : Quiet st st X := ⟨rfl, fun _ _ => rfl, fun _ _ _ _ _ => rfl⟩

section
variable (h : Quiet st st' X)
include h

theorem type (hj : ¬ X j) : (st'.dinode j).type = (st.dinode j).type := by
  rw [h.fields j hj]

theorem size (hj : ¬ X j) : (st'.dinode j).size = (st.dinode j).size := by
  rw [h.fields j hj]

theorem allocated (hj : ¬ X j) : Allocated st' st'.dinode j ↔ Allocated st st.dinode j := by
  unfold Allocated
  rw [h.sb, h.type hj]

theorem mono (hXY : ∀ j, X j → Y j) : Quiet st st' Y :=
  ⟨h.sb, fun j hj => h.fields j fun hX => hj (hXY j hX), fun j hj => h.bytes j fun hX => hj (hXY j hX)⟩

end

end Quiet

/-! ### The inode in an entry -/

theorem Good.withInode {α : Type} {f : Inode → Store → Except Panic (α × Inode × Store)}
    {P : α × Inode × Store → Prop} (h : Good s) (hr : Ready s p i)
    (hf : Outcome E (f ⟨s.store.dinode i, i⟩ s.store) P)
    (hP : ∀ a ip st, P (a, ip, st) → ip.type ≠ .free ∧ st.sb = s.store.sb ∧
      st.dinode = update s.store.dinode i ip.toDinode) :
    Outcome E (withInode p f s) fun r => Held s r.2 [] ∧ Ready r.2 p i ∧
      ∃ ip, P (r.1, ip, r.2.store) ∧ r.2.store.dinode i = ip.toDinode := by
  have hat := hr.1
  unfold Fs.withInode
  rw [h.ip_eq hr]
  refine hf.bind ?_
  rintro ⟨a, ip, st⟩ ha
  obtain ⟨htype, hsb, hdinode⟩ := hP a ip st ha
  have hself : st.dinode i = ip.toDinode := by rw [hdinode, update_self]
  have hgood : Good (s.put p {s.inode p with copy := ip.toDinode} st) := by
    refine h.put hat hat.2.2 hsb (fun j hj => by rw [hdinode, update_of_ne hj]) fun _ _ => ?_
    refine ⟨hself.symm, ?_, ?_⟩
    · rw [hsb]
      exact (h.allocated hr).1
    · rw [hself]
      exact htype
  have hheld := h.held_put (n := 0) hat hgood hat.2.2 rfl id
  exact ⟨hheld, hheld.valid p i hr, ip, ha, hself⟩

/-! ### Writing to a file -/

/-- `len` bytes of `src` are in file `i` from `off` on. -/
structure WroteAt (st st' : Store) (i off : ℕ) (src : Bytes) (len : ℕ) : Prop where
  sb : st'.sb = st.sb
  consistent : Consistent st' st'.dinode
  others : ∀ j, j ≠ i → st'.dinode j = st.dinode j
  inode : st'.dinode i =
    {st.dinode i with addrs := (st'.dinode i).addrs, size := max (st.dinode i).size (off + len)}
  bytes : ∀ j, Allocated st st.dinode j → ∀ x < maxfile * bsize, byteAt st' (st'.dinode j) x =
    if j = i ∧ off ≤ x ∧ x < off + len then src (x - off) else byteAt st (st.dinode j) x

theorem WroteAt.quiet {src : Bytes} (h : WroteAt st st' i off src 0) (hoff : off ≤ (st.dinode i).size) :
    Quiet st st' X where
  sb := h.sb
  fields := by
    intro j _
    by_cases hj : j = i
    · have hinode := h.inode
      grind
    · rw [h.others j hj]
  bytes := by
    intro j _ hall x hx
    rw [h.bytes j hall x hx, if_neg (by omega)]

theorem view_eq (st : Store) (i : ℕ) : view st.dinode ⟨st.dinode i, i⟩ = st.dinode :=
  update_eq_self ..

theorem Written.wroteAt {r : ℤ × Inode × Store}
    (h : Written mem n off addr st st.dinode ⟨st.dinode i, i⟩ r len 0) :
    WroteAt st r.2.2 i off (mem.from addr) len := by
  have hinum : r.2.1.inum = i := h.inum
  have hdinode : r.2.2.dinode = view st.dinode r.2.1 := by
    rw [h.dinode, view, hinum]
  have hself : r.2.2.dinode i = r.2.1.toDinode := by
    rw [hdinode, ← hinum, view_self]
  refine ⟨h.sb, ?_, fun j hj => ?_, ?_, fun j hall x hx => ?_⟩
  · rw [hdinode]
    exact h.consistent
  · rw [h.dinode]
    exact update_of_ne hj ..
  · rw [hself, h.inode]
  · rw [hdinode, h.bytes j (by rwa [view_eq]) x hx, view_eq, Nat.add_zero]

theorem Good.writei (h : Good s) (hc : Consistent s.store s.store.dinode) (hr : Ready s p i)
    (ha : addr < 2 ^ 64) (hn : n < 2 ^ 32) :
    Outcome E (Fs.withInode p (fun ip st => writei ip mem addr off n st) s) fun r =>
      Held s r.2 [] ∧ Ready r.2 p i ∧ Consistent r.2.store r.2.store.dinode ∧
        (r.1 = -1 ∧ r.2.store = s.store ∧ ((s.store.dinode i).size < off ∨ maxfile * bsize < off + n) ∨
          off ≤ (s.store.dinode i).size ∧
          ∃ ip len extra, Written mem n off addr s.store s.store.dinode ⟨s.store.dinode i, i⟩
            (r.1, ip, r.2.store) len extra) := by
  have hall := h.allocated hr
  have hview := view_eq s.store i
  have hc' : Consistent s.store (view s.store.dinode ⟨s.store.dinode i, i⟩) := hview.symm ▸ hc
  have hwrite : Outcome E (Fs.writei ⟨s.store.dinode i, i⟩ mem addr off n s.store) _ :=
    hc'.writei (hview.symm ▸ hall) ha hn
  refine (h.withInode hr hwrite ?_).mono ?_
  · rintro a ip st (⟨heq, -⟩ | ⟨-, -, len, extra, hw⟩)
    · obtain ⟨rfl, rfl, rfl⟩ := heq
      exact ⟨hall.2, rfl, (update_eq_self ..).symm⟩
    · refine ⟨?_, hw.sb, hw.dinode⟩
      rw [show ip = _ from hw.inode]
      exact hall.2
  · rintro ⟨a, s'⟩ ⟨hheld, hready, ip, hcases, hself⟩
    refine ⟨hheld, hready, ?_⟩
    rcases hcases with ⟨heq, hbad⟩ | ⟨hoff, -, len, extra, hw⟩
    · grind
    · refine ⟨?_, .inr ⟨hoff, ip, len, extra, hw⟩⟩
      have hinum : ip.inum = i := hw.inum
      have hdinode : s'.store.dinode = view s.store.dinode ip := by
        rw [show s'.store.dinode = _ from hw.dinode, view, hinum]
      show Consistent s'.store s'.store.dinode
      rw [hdinode]
      exact hw.consistent

end Xv6.Fs
