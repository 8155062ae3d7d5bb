import Xv6.Fs.Free

/-! Inodes that a crash has left without links.

`ireclaim` gets each of them and puts it back, which frees it: afterwards exactly these inodes and
their blocks are free, and the table has the same references as before (`ireclaim_exact`). -/
namespace Xv6.Fs

open Function

variable {s s' s0 : State} {st st' st0 : Store} {E : Panic → Prop} {K : ℕ → Prop} {p i j b x : ℕ}

def Orphan (st : Store) (i : ℕ) : Prop := (st.dinode i).type ≠ .free ∧ (st.dinode i).nlink = 0
deriving Decidable

/-- The inodes in `K` have been freed, and nothing else has changed. -/
structure Swept (st0 st : Store) (K : ℕ → Prop) : Prop where
  owned : Owned st st.dinode
  cleared : Cleared st0 st fun b => ∃ j, K j ∧ Holds st0 (st0.dinode j) (fun _ => True) b
  free : ∀ j, K j → (st.dinode j).type = .free
  kept : ∀ j, ¬ K j → st.dinode j = st0.dinode j

theorem Swept.refl (h : Owned st st.dinode) : Swept st st fun _ => False :=
  ⟨h, ⟨rfl, fun _ _ => by simp, fun _ _ => rfl⟩, nofun, fun _ _ => rfl⟩

theorem Swept.next (h : Swept st0 st K) (ho : Owned st0 st0.dinode) (hi : Allocated st0 st0.dinode i)
    (hK : ¬ K i) (hfreed : FreedInode st st' i) : Swept st0 st' fun j => K j ∨ j = i := by
  have hdinode := h.kept i hK
  have hi' : Allocated st st.dinode i := by
    unfold Allocated
    rw [h.cleared.sb, hdinode]
    exact hi
  have hholds : ∀ b, Holds st (st.dinode i) (fun _ => True) b ↔ Holds st0 (st0.dinode i) (fun _ => True) b := by
    intro b
    unfold Holds
    simp only [hdinode, ho.cleared_addrOf h.cleared hi]
  refine ⟨hfreed.owned h.owned hi', ⟨hfreed.sb.trans h.cleared.sb, fun b hb => ?_, fun b hb => ?_⟩, ?_, ?_⟩
  · rw [hfreed.used b (h.cleared.sb.symm ▸ hb), h.cleared.used b hb, hholds]
    grind
  · rw [hfreed.block b (h.cleared.sb.symm ▸ hb), h.cleared.block b hb]
  · rintro j hj
    rw [hfreed.dinode]
    by_cases hji : j = i
    · rw [hji, update_self]
      rfl
    grind [Swept.free, update_of_ne]
  · intro j hj
    rw [hfreed.dinode, update_of_ne fun hji => hj (.inr hji)]
    exact h.kept j fun hK => hj (.inl hK)

theorem reclaim_frees (h : Held s0 s [(p, i)]) (ho : Owned s.store s.store.dinode) (hrefs : refs s0 i = 0)
    (hi : i < s.store.sb.ninodes) (horphan : Orphan s.store i) :
    Outcome E ((do beginOp; ilock p; iunlock p; iput p; endOp : FsM Unit) s) fun r =>
      Held s0 r.2 [] ∧ FreedInode s.store r.2.store i := by
  have hat : At s p i := h.held (p, i) List.mem_cons_self
  have hbegin : Held s0 {s with store := s.store.beginOp} [(p, i)] := h.withStore rfl rfl
  have hlock : Outcome E (ilock p {s with store := s.store.beginOp}) _ :=
    hbegin.good.ilock hat hi (.inl horphan.1)
  show Outcome E ((do ilock p; iunlock p; iput p; endOp : FsM Unit) {s with store := s.store.beginOp}) _
  refine hlock.andThen ?_
  rintro ⟨⟩ s' ⟨hstore, h', hr⟩
  have hheld : Held s0 s' [(p, i)] := hbegin.trans h'
  have hone := hheld.ref_eq
  simp only [hrefs, List.map_nil, List.count_nil, Nat.zero_add] at hone
  have hdinode : s'.store.dinode = s.store.dinode := by
    rw [hstore]
    rfl
  have hput : Outcome E (iput p s') _ :=
    hheld.iputFrees (by rw [hstore]; exact ⟨ho.layout, ho.owners, ho.metadata⟩) hr.2 hone
      (by rw [hdinode]; exact horphan.2)
  refine hr.1.iunlock (hput.andThen ?_)
  rintro ⟨⟩ s'' ⟨hfreed, h''⟩
  rw [hstore] at hfreed
  exact ⟨h''.withStore rfl rfl, ⟨hfreed.sb, hfreed.used, hfreed.block⟩, hfreed.dinode⟩

theorem reclaim_step (h : Held s0 s []) (hsweep : Swept s0.store s.store K) (ho : Owned s0.store s0.store.dinode)
    (hroom : s0.used < ninode) (hrefs : ∀ j, Orphan s0.store j → refs s0 j = 0)
    (hK : ¬ K i) (hi : i < s0.store.sb.ninodes) :
    Outcome E (reclaim i s) fun r => Held s0 r.2 [] ∧
      Swept s0.store r.2.store fun j => K j ∨ j = i ∧ Orphan s0.store i := by
  have hdinode := hsweep.kept i hK
  unfold reclaim
  rw [hdinode]
  by_cases horphan : Orphan s0.store i
  · rw [if_pos (by exact horphan)]
    have hused : s.used < ninode := by
      have := h.used_le
      grind
    refine (h.good.iget (.inr (.inl hused))).andThen fun p s1 ⟨hstore, h₁, _⟩ => ?_
    have hfrees : Outcome E ((do beginOp; ilock p; iunlock p; iput p; endOp : FsM Unit) s1) _ :=
      reclaim_frees (h.trans h₁) (hstore ▸ hsweep.owned) (hrefs i horphan)
        (by rw [hstore, hsweep.cleared.sb]; exact hi) (by unfold Orphan; rw [hstore, hdinode]; exact horphan)
    refine hfrees.mono fun r ⟨hheld, hfreed⟩ => ⟨hheld, ?_⟩
    simp only [horphan, and_true]
    exact hsweep.next ho ⟨hi, horphan.1⟩ hK (hstore ▸ hfreed)
  · rw [if_neg (by exact horphan)]
    refine ⟨h, ?_⟩
    simp only [horphan, and_false, or_false]
    exact hsweep

theorem Swept.congr {L : ℕ → Prop} (h : Swept st0 st K) (hK : ∀ j, L j ↔ K j) : Swept st0 st L := by
  obtain rfl : L = K := funext fun j => propext (hK j)
  exact h

theorem ireclaimLoop_sweeps (n : ℕ) (h : Held s0 s [])
    (hsweep : Swept s0.store s.store fun j => (1 ≤ j ∧ j < i) ∧ Orphan s0.store j)
    (ho : Owned s0.store s0.store.dinode) (hroom : s0.used < ninode)
    (hrefs : ∀ j, Orphan s0.store j → refs s0 j = 0) (hi : 1 ≤ i) (hn : i + n ≤ s0.store.sb.ninodes) :
    Outcome E (ireclaimLoop n i s) fun r => Held s0 r.2 [] ∧
      Swept s0.store r.2.store fun j => (1 ≤ j ∧ j < i + n) ∧ Orphan s0.store j := by
  induction n generalizing s i with
  | zero => exact ⟨h, hsweep⟩
  | succ n ih =>
    refine (reclaim_step h hsweep ho hroom hrefs (by omega) (by omega)).andThen ?_
    grind

/-- **Orphans are reclaimed exactly.** Let every block of the disk be owned, let no inode without links
be referenced in memory, and let the table have an unused entry, as when the system starts. Then
`ireclaim` returns. Every inode from 1 on that was in use without links is free, and so are the blocks
that it had, and no others. All other inodes are as before, and so are the references in the table. -/
theorem ireclaim_exact (s : State) (h : Good s) (ho : Owned s.store s.store.dinode)
    (hroom : s.used < ninode) (hrefs : ∀ i, Orphan s.store i → refs s i = 0) :
    ∃ s', ireclaim s = .ok ((), s') ∧
      (∀ i, 1 ≤ i → i < s.store.sb.ninodes → Orphan s.store i → (s'.store.dinode i).type = .free) ∧
      (∀ i, ¬ ((1 ≤ i ∧ i < s.store.sb.ninodes) ∧ Orphan s.store i) →
        s'.store.dinode i = s.store.dinode i ∧ (s.Allocated i → ∀ x < maxfile * bsize,
          byteAt s'.store (s'.store.dinode i) x = byteAt s.store (s.store.dinode i) x)) ∧
      (∀ b < s.store.sb.size, Used s.store b ∧ ¬ Used s'.store b ↔
        ∃ i, ((1 ≤ i ∧ i < s.store.sb.ninodes) ∧ Orphan s.store i) ∧
          b ≠ 0 ∧ ∃ k, addrOf s.store (s.store.dinode i) k = b) ∧
      (∀ b < s.store.sb.size, Used s'.store b → Used s.store b) ∧
      Owned s'.store s'.store.dinode ∧ ∀ i, refs s' i = refs s i := by
  have hstart : Swept s.store s.store fun j => (1 ≤ j ∧ j < 1) ∧ Orphan s.store j :=
    (Swept.refl ho).congr fun j => iff_of_false (fun hj => by omega) id
  have hloop : Outcome (fun _ => False) (ireclaim s) fun r => Held s r.2 [] ∧
      Swept s.store r.2.store fun j => (1 ≤ j ∧ j < s.store.sb.ninodes) ∧ Orphan s.store j := by
    unfold ireclaim
    by_cases hn : s.store.sb.ninodes = 0
    · rw [hn]
      exact ⟨.refl h, hstart.congr fun j => iff_of_false (fun hj => by omega) fun hj => by omega⟩
    · have hall := ireclaimLoop_sweeps (E := fun _ => False) (s.store.sb.ninodes - 1) (.refl h) hstart ho hroom
        hrefs le_rfl (by omega)
      have hend : 1 + (s.store.sb.ninodes - 1) = s.store.sb.ninodes := by omega
      rw [hend] at hall
      exact hall
  obtain ⟨⟨⟨⟩, s'⟩, hs', hheld, hsweep⟩ := Outcome.total.mp hloop
  dsimp only at hheld hsweep
  refine ⟨s', hs', fun i h1 hn horphan => hsweep.free i ⟨⟨h1, hn⟩, horphan⟩, fun i hi => ?_, fun b hb => ?_,
    fun b hb hused => ((hsweep.cleared.used b hb).mp hused).1, hsweep.owned, fun i => ?_⟩
  · have hkept := hsweep.kept i hi
    refine ⟨hkept, fun hall x hx => ?_⟩
    rw [hkept]
    exact ho.cleared_byteAt hsweep.cleared hall hx
  · rw [hsweep.cleared.used b hb]
    constructor
    · rintro ⟨hused, hnot⟩
      by_contra hnone
      refine hnot ⟨hused, ?_⟩
      rintro ⟨i, hi, h0, k, -, hk⟩
      exact hnone ⟨i, hi, h0, k, hk⟩
    · rintro ⟨i, hi, h0, k, rfl⟩
      have hall : Allocated s.store s.store.dinode i := ⟨hi.1.2, hi.2.1⟩
      exact ⟨(ho.dataUsed hall h0).2.2, fun hboth => hboth.2 ⟨i, hi, h0, k, trivial, rfl⟩⟩
  · simpa using hheld.refs i

/-- The table when `ireclaim` is called: `userinit` has got the root directory. -/
def bootTable : ℕ → Entry := fun p => if p = 0 then ⟨1, 1, false, .zero⟩ else ⟨0, 0, false, .zero⟩

/-- The small disk, and the file `a` has lost its link. -/
def orphanDisk : Store :=
  {sampleDisk with dinode := update sampleDisk.dinode 2 {sampleDisk.dinode 2 with nlink := 0}}

theorem orphanDisk_owned : Owned orphanDisk orphanDisk.dinode := by
  have hnode : ∀ j, (orphanDisk.dinode j).type = (sampleDisk.dinode j).type ∧
      (orphanDisk.dinode j).addrs = (sampleDisk.dinode j).addrs := by
    intro j
    by_cases hj : j = 2
    · subst hj
      exact ⟨rfl, rfl⟩
    · have hsame : orphanDisk.dinode j = sampleDisk.dinode j := update_of_ne hj ..
      grind
  have howned := sampleDisk_consistent.toOwned.congr_node (fun j => (hnode j).1) fun j => (hnode j).2
  exact ⟨howned.layout, howned.owners, howned.metadata⟩

theorem bootTable_at {st : Store} (h : At ⟨st, bootTable⟩ p i) : p = 0 ∧ i = 1 := by
  obtain ⟨-, hpos, hinum⟩ := h
  grind [bootTable]

theorem bootTable_good (st : Store) : Good ⟨st, bootTable⟩ := by
  refine ⟨fun p hp q hq hp0 hq0 _ => ?_, fun p i hr => ?_⟩
  · rw [(bootTable_at ⟨hp, hp0, rfl⟩).1, (bootTable_at ⟨hq, hq0, rfl⟩).1]
  · have hvalid := hr.2
    rw [(bootTable_at hr.1).1] at hvalid
    cases hvalid

/-- The inode and its block are free when the system has started. -/
theorem ireclaim_exact_file :
    ∃ s', ireclaim ⟨orphanDisk, bootTable⟩ = .ok ((), s') ∧ (s'.store.dinode 2).type = .free ∧
      Used orphanDisk 48 ∧ ¬ Used s'.store 48 := by
  obtain ⟨s', hs', hfree, -, hused, -⟩ := ireclaim_exact ⟨orphanDisk, bootTable⟩ (bootTable_good _)
    orphanDisk_owned (by decide) (fun i hi => by
      by_contra hpos
      obtain ⟨p, hp⟩ := refs_pos.mp (Nat.pos_of_ne_zero hpos)
      rw [(bootTable_at hp).2] at hi
      exact absurd hi.2 (by decide))
  have horphan : Orphan orphanDisk 2 := by decide
  refine ⟨s', hs', hfree 2 (by decide) (by decide) horphan, (hused 48 (by decide)).mpr ?_⟩
  exact ⟨2, ⟨by decide, horphan⟩, by decide, 0, by decide⟩

end Xv6.Fs
