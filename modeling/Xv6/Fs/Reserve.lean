import Mathlib.Data.Finset.Card
import Xv6.Fs.Content

/-! What a transaction of `filewrite` logs.

`filewrite` reserves `MAXOPBLOCKS` blocks of the log for each piece that it writes. A piece touches
at most four data blocks, and logs a bitmap block for each of them that it allocates, the indirect
block, a bitmap block for that, and the block of the inode: eleven, if all of this happened. But a
piece that touches four blocks starts inside the first, which is then not allocated, or is an
indirect one and the indirect block is not. That holds for any bitmap. -/
namespace Xv6.Fs

variable {E : Panic → Prop} {s : Store} {ip : Inode} {mem : Memory} {d m n tot off src : ℕ}

/-! ### Blocks that were logged -/

/-- The blocks logged are the indirect block of the inode and up to `d + m` others. Of these, `m`
counts the bitmap blocks, and the one for the indirect block while that is not allocated. -/
def Covered (ip : Inode) (s : Store) (d m : ℕ) : Prop :=
  ∃ D M : List ℕ, D.length ≤ d ∧ M.length + (if ip.addrs ndirect = 0 then 1 else 0) ≤ m ∧
    ∀ b ∈ s.logged, b ∈ D ∨ b ∈ M ∨ b = ip.addrs ndirect ∧ b ≠ 0

theorem Covered.mono {s' : Store} {d' m' : ℕ} (h : Covered ip s d m) (hs : s'.logged ⊆ s.logged)
    (hd : d ≤ d') (hm : m ≤ m') : Covered ip s' d' m' := by
  obtain ⟨D, M, hD, hM, hcover⟩ := h
  exact ⟨D, M, hD.trans hd, hM.trans hm, fun b hb => hcover b (hs hb)⟩

theorem Covered.cons {s' : Store} {ip' : Inode} {a : ℕ} {B : List ℕ} (h : Covered ip s d m)
    (hB : B.length + (if ip'.addrs ndirect = 0 then 1 else 0) ≤
      1 + if ip.addrs ndirect = 0 then 1 else 0)
    (hind : ip.addrs ndirect ≠ 0 → ip'.addrs ndirect = ip.addrs ndirect)
    (hs : ∀ b ∈ s'.logged, b = a ∨ b ∈ B ∨ (b = ip'.addrs ndirect ∧ b ≠ 0) ∨ b ∈ s.logged) :
    Covered ip' (s'.logWrite a) (d + 1) (m + 1) := by
  obtain ⟨D, M, hD, hM, hcover⟩ := h
  refine ⟨a :: D, B ++ M, by simpa using hD, ?_, fun b hb => ?_⟩
  · rw [List.length_append]
    omega
  · rw [List.mem_cons, List.mem_append]
    rcases List.mem_cons.mp hb with rfl | hb
    · exact .inl (.inl rfl)
    grind

theorem balloc_logged (s : Store) :
    ∃ bno, ∀ b ∈ (balloc s).2.logged, b = (balloc s).1 ∨ b = bno ∨ b ∈ s.logged := by
  rcases balloc_cases s with ⟨_, heq⟩ | ⟨b, _, _, heq⟩
  · rw [heq]
    exact ⟨0, fun b hb => .inr (.inr hb)⟩
  · rw [heq]
    refine ⟨bblock s.sb b, fun c hc => ?_⟩
    rcases List.mem_cons.mp hc with rfl | hc
    · exact .inl rfl
    · exact .inr (List.mem_cons.mp hc)

theorem bmapAddr_logged (ip : Inode) (k : ℕ) (s : Store) :
    ∃ B : List ℕ, B.length ≤ (if ip.addrs k = 0 then 1 else 0) ∧
      ∀ b ∈ (bmapAddr ip k s).2.2.logged, b = (bmapAddr ip k s).1 ∨ b ∈ B ∨ b ∈ s.logged := by
  by_cases hk : ip.addrs k = 0
  · obtain ⟨bno, hlogged⟩ := balloc_logged s
    refine ⟨[bno], by simp [hk], fun b hb => ?_⟩
    grind [bmapAddr_full, bmapAddr_takes, List.mem_singleton]
  · refine ⟨[], Nat.zero_le _, fun b hb => ?_⟩
    grind [bmapAddr_of_ne]

theorem bmapEntry_logged (ind j : ℕ) (s : Store) : ∃ bno, ∀ b ∈ (bmapEntry ind j s).2.logged,
      b = (bmapEntry ind j s).1 ∨ b = bno ∨ b = ind ∨ b ∈ s.logged := by
  by_cases hj : entry (s.block ind) j = 0
  · obtain ⟨bno, hlogged⟩ := balloc_logged s
    refine ⟨bno, fun b hb => ?_⟩
    by_cases h0 : (balloc s).1 = 0
    · grind [bmapEntry_full]
    · rw [bmapEntry_takes hj h0] at hb ⊢
      rcases List.mem_cons.mp hb with rfl | hb
      · exact .inr (.inr (.inl rfl))
      · have hmem := hlogged b hb
        tauto
  · refine ⟨0, fun b hb => ?_⟩
    grind [bmapEntry_of_ne]

theorem bmapIndirect_covered (h : Covered ip s d m) (j : ℕ) :
    Covered (bmapIndirect ip j s).2.1 ((bmapIndirect ip j s).2.2.logWrite (bmapIndirect ip j s).1)
      (d + 1) (m + 1) := by
  obtain ⟨B, hB, hlogged⟩ := bmapAddr_logged ip ndirect s
  have hself : (bmapAddr ip ndirect s).2.1.addrs ndirect = (bmapAddr ip ndirect s).1 := by
    rw [bmapAddr_inode]
    simp
  have hind : ip.addrs ndirect ≠ 0 →
      (bmapAddr ip ndirect s).2.1.addrs ndirect = ip.addrs ndirect := by
    intro hne
    rw [bmapAddr_of_ne hne]
  by_cases h0 : (bmapAddr ip ndirect s).1 = 0
  · -- There is no block for the indirect block.
    rw [bmapIndirect_full h0]
    apply h.cons _ hind
    · intro b hb
      rw [← h0]
      have hmem := hlogged b hb
      tauto
    grind
  · rw [bmapIndirect_of_ne h0]
    obtain ⟨bno, hentry⟩ := bmapEntry_logged (bmapAddr ip ndirect s).1 j (bmapAddr ip ndirect s).2.2
    apply h.cons (B := bno :: B) _ hind
    · grind
    grind

theorem bmap_covered {bn : ℕ} (h : Covered ip s d m) (hbn : bn < maxfile) :
    Outcome E (bmap ip bn s) fun r => Covered r.2.1 (r.2.2.logWrite r.1) (d + 1) (m + 1) := by
  unfold bmap
  by_cases hdirect : bn < ndirect
  · rw [if_pos hdirect]
    obtain ⟨B, hB, hlogged⟩ := bmapAddr_logged ip bn s
    have hne : ndirect ≠ bn := by omega
    have hsame : (bmapAddr ip bn s).2.1.addrs ndirect = ip.addrs ndirect := by
      rw [bmapAddr_inode]
      exact Function.update_of_ne hne ..
    apply h.cons _ fun _ => hsame
    · intro b hb
      have hmem := hlogged b hb
      tauto
    grind
  · have hlt : bn - ndirect < nindirect := by
      unfold maxfile at hbn
      omega
    rw [if_neg hdirect, if_pos hlt]
    exact bmapIndirect_covered h _

/-! ### One piece -/

/-- A write at `off` that starts inside a block starts in one that is there, or at least the indirect
block is. -/
def Begun (ip : Dinode) (off : ℕ) : Prop :=
  off % bsize ≠ 0 → off / bsize < ndirect ∧ ip.addrs (off / bsize) ≠ 0 ∨ ip.addrs ndirect ≠ 0

theorem NoHoles.begun (h : NoHoles s ip.toDinode) (hoff : off ≤ ip.size) : Begun ip.toDinode off := by
  intro hmod
  have hblock := h (off / bsize) (by unfold bsize at *; omega)
  by_cases hdirect : off / bsize < ndirect
  · grind [blockOf_direct]
  · right
    intro hind
    rw [blockOf, if_neg hdirect, if_pos hind] at hblock
    exact hblock rfl

/-- The blocks that `len` bytes at `off` are in. -/
def spans (off len : ℕ) : ℕ := if len = 0 then 0 else (off % bsize + len - 1) / bsize + 1

theorem spans_step (off : ℕ) {len : ℕ} (h : 0 < len) :
    spans off len = spans (off + min len (bsize - off % bsize)) (len - min len (bsize - off % bsize)) + 1 := by
  have hlt : off % bsize < bsize := Nat.mod_lt _ (by decide)
  unfold spans
  rw [if_neg (by omega)]
  by_cases hlast : len ≤ bsize - off % bsize
  · rw [min_eq_left hlast, Nat.sub_self, if_pos rfl, Nat.div_eq_of_lt (by omega)]
  · rw [min_eq_right (by omega), if_neg (by omega)]
    unfold bsize at *
    omega

/-- The loop of `writei` covers a data block and a bitmap block more for each block it comes to. -/
theorem writeLoop_covered (fuel : ℕ) (h : Covered ip s d m) (htot : tot ≤ n) (hfuel : n - tot ≤ fuel)
    (hfit : off + (n - tot) ≤ maxfile * bsize) :
    Outcome E (writeLoop mem n fuel tot off src ip s) fun (tot', off', ip', s') =>
      Covered ip' s' (d + spans off (n - tot)) (m + spans off (n - tot)) ∧
        (∃ len ≤ n - tot, tot' = tot + len ∧ off' = off + len) ∧ s'.ops = s.ops ∧ s'.sb = s.sb ∧
        MoreAddrs ip ip' ∧ (tot < n → tot' = n → Begun ip'.toDinode off') := by
  induction fuel generalizing tot off src ip s d m with
  | zero =>
    have hdone : n - tot = 0 := by omega
    refine ⟨h.mono (List.Subset.refl _) (by omega) (by omega), ⟨0, by simp⟩, rfl, rfl, .refl ip, ?_⟩
    omega
  | succ fuel ih =>
    unfold writeLoop
    by_cases hlt : tot < n
    · rw [if_pos hlt]
      have hbn : off / bsize < maxfile := by
        unfold bsize at *
        omega
      refine ((bmap_covered h hbn).and (bmap_frame ip hbn s)).bind ?_
      rintro ⟨addr, ip1, s1⟩ ⟨hcovered, hsame, hip, hfound⟩
      have hstep := spans_step off (show 0 < n - tot by omega)
      -- The loop ends here, with what `bmap` has logged.
      have hstop : ∀ {s2 : Store}, s2.logged = s1.logged →
          Covered ip1 s2 (d + spans off (n - tot)) (m + spans off (n - tot)) := by
        intro s2 hs2
        apply hcovered.mono _ (by omega) (by omega)
        rw [hs2]
        exact List.subset_cons_self ..
      dsimp only at hip hfound ⊢
      by_cases h0 : addr = 0
      · rw [if_pos h0]
        refine ⟨hstop rfl, ⟨0, by simp⟩, hsame.ops, hsame.sb, hip, fun _ heq => ?_⟩
        omega
      · rw [if_neg h0]
        split
        · refine ⟨hstop rfl, ⟨0, by simp⟩, hsame.ops, hsame.sb, hip, fun _ heq => ?_⟩
          omega
        · rename_i data _
          have hm : min (n - tot) (bsize - off % bsize) ≤ n - tot := min_le_left ..
          have hrest : n - (tot + min (n - tot) (bsize - off % bsize)) =
              n - tot - min (n - tot) (bsize - off % bsize) := by omega
          have hpos : 0 < min (n - tot) (bsize - off % bsize) := by
            have := Nat.mod_lt off (show 0 < bsize by decide)
            omega
          generalize hmin : min (n - tot) (bsize - off % bsize) = c at *
          have hnext : Covered ip1 ((s1.setBlock addr data).logWrite addr) (d + 1) (m + 1) :=
            hcovered.mono (List.Subset.refl _) le_rfl le_rfl
          apply (ih hnext (by omega) (by omega) (by omega)).mono
          rintro ⟨tot', off', ip', s'⟩ ⟨hcovered', ⟨len, hlen, htot', hoff'⟩, hops, hsb, hip', hbegun⟩
          rw [hrest] at hcovered'
          refine ⟨hcovered'.mono (List.Subset.refl _) (by omega) (by omega),
            ⟨c + len, by omega, ?_, ?_⟩, hops.trans hsame.ops, hsb.trans hsame.sb, hip.trans hip',
            fun _ heq => show Begun ip'.toDinode off' from ?_⟩
          · rw [htot', Nat.add_assoc]
          · rw [hoff', Nat.add_assoc]
          · by_cases hlast : tot + c < n
            · exact hbegun hlast heq
            · -- The last block was looked up just now.
              intro hmod
              grind [MoreAddrs.kept, bsize]
    · rw [if_neg hlt]
      have hdone : n - tot = 0 := by omega
      refine ⟨h.mono (List.Subset.refl _) (by omega) (by omega), ⟨0, by simp⟩, rfl, rfl, .refl ip, ?_⟩
      omega

theorem covered_nil (ip : Inode) (h : s.logged = []) : Covered ip s 0 (if ip.addrs ndirect = 0 then 1 else 0) := by
  refine ⟨[], [], le_rfl, by simp, fun b hb => ?_⟩
  rw [h] at hb
  cases hb

theorem spans_le (off : ℕ) (hn : n ≤ maxwrite) : spans off n ≤ if off % bsize = 0 then 3 else 4 := by
  grind [spans, maxwrite, maxopblocks, bsize]

theorem writeLoop_begun (h : Begun ip.toDinode off) (hn : n ≤ maxwrite) (hlog : s.logged = [])
    (hfit : off + n ≤ maxfile * bsize) :
    Outcome E (writeLoop mem n n 0 off src ip s) fun r => Covered r.2.2.1 r.2.2.2 4 4 := by
  have hspans := spans_le off hn
  -- The loop from the start, where `m` bitmap blocks are reserved.
  have hloop : ∀ m, Covered ip s 0 m → m + spans off n ≤ 4 →
      Outcome E (writeLoop mem n n 0 off src ip s) fun r => Covered r.2.2.1 r.2.2.2 4 4 := by
    intro m hcovered hm
    apply (writeLoop_covered n hcovered (Nat.zero_le n) (by omega) (by omega)).mono
    intro r hr
    exact hr.1.mono (List.Subset.refl _) (by rw [Nat.sub_zero]; omega) (by rw [Nat.sub_zero]; omega)
  have hnil := covered_nil ip hlog
  by_cases hmod : off % bsize = 0
  · rw [if_pos hmod] at hspans
    apply hloop _ hnil
    split <;> omega
  · rw [if_neg hmod] at hspans
    by_cases hind : ip.addrs ndirect = 0
    · -- The write starts inside a direct block, for which nothing is allocated.
      obtain ⟨hdirect, hne⟩ := (h hmod).resolve_right (not_not.mpr hind)
      rw [if_pos hind] at hnil
      cases n with
      | zero => exact hnil.mono (List.Subset.refl _) (by omega) (by omega)
      | succ n =>
        have hbn : off / bsize < maxfile := hdirect.trans_le (Nat.le_add_right ..)
        have hblock : blockOf s ip.toDinode (off / bsize) ≠ 0 := by
          rw [blockOf_direct hdirect]
          exact hne
        have hstep := spans_step off (show 0 < n + 1 from Nat.succ_pos n)
        have hm : min (n + 1) (bsize - off % bsize) ≤ n + 1 := min_le_left ..
        have hpos : 0 < min (n + 1) (bsize - off % bsize) := by
          grind
        unfold writeLoop
        rw [if_pos (Nat.succ_pos n), bmap_of_ne hbn hblock]
        show Outcome E (if _ then _ else _) _
        rw [if_neg hblock, Nat.sub_zero]
        generalize min (n + 1) (bsize - off % bsize) = c at *
        split
        · exact hnil.mono (List.Subset.refl _) (by omega) (by omega)
        · rename_i data _
          obtain ⟨D, M, hD, hM, hcover⟩ := hnil
          have hfirst : Covered ip ((s.setBlock (blockOf s ip.toDinode (off / bsize)) data).logWrite
              (blockOf s ip.toDinode (off / bsize))) 1 1 := by
            refine ⟨[blockOf s ip.toDinode (off / bsize)], M, le_rfl, hM, fun b hb => .inl ?_⟩
            rcases List.mem_cons.mp hb with rfl | hb
            · exact List.mem_singleton_self _
            · rw [show (s.setBlock _ data).logged = s.logged from rfl, hlog] at hb
              cases hb
          grind [writeLoop_covered, Outcome.mono, Covered.mono]
    grind

theorem Covered.card_le (h : Covered ip s 4 4) (b : ℕ) : (b :: s.logged).dedup.length ≤ maxopblocks := by
  obtain ⟨D, M, hD, hM, hcover⟩ := h
  have hsub : (b :: s.logged).toFinset ⊆ (b :: ip.addrs ndirect :: (D ++ M)).toFinset := by
    grind [List.mem_toFinset]
  rw [← List.card_toFinset]
  refine (Finset.card_le_card hsub).trans ((List.toFinset_card_le _).trans ?_)
  simp only [List.length_cons, List.length_append]
  unfold maxopblocks
  omega

theorem writei_fits (h : off ≤ ip.size → Begun ip.toDinode off) (hn : n ≤ maxwrite)
    (hlog : s.logged = []) :
    Outcome E (writei ip mem src off n s) fun (r, ip', s') =>
      s'.logged.dedup.length ≤ maxopblocks ∧ s'.ops = s.ops ∧
        (0 < n → r = n → Begun ip'.toDinode (off + n) ∧ off + n < 2 ^ 32) := by
  have hreject : Outcome E (.ok (-1, ip, s) : Except Panic (ℤ × Inode × Store)) fun (r, ip', s') =>
      s'.logged.dedup.length ≤ maxopblocks ∧ s'.ops = s.ops ∧
        (0 < n → r = n → Begun ip'.toDinode (off + n) ∧ off + n < 2 ^ 32) := by
    refine ⟨?_, rfl, fun _ heq => ?_⟩
    · show s.logged.dedup.length ≤ _
      rw [hlog]
      exact Nat.zero_le _
    · exact absurd heq (by show (-1 : ℤ) ≠ n; omega)
  have hn32 : n < 2 ^ 32 := hn.trans_lt (by decide)
  unfold writei
  split
  · exact hreject
  rename_i hoff
  split
  · exact hreject
  rename_i hmax
  obtain ⟨hsize, hfit⟩ := writei_accepts hn32 hoff hmax
  refine ((writeLoop_covered n (covered_nil ip hlog) (Nat.zero_le n) (by omega) (by omega)).and
    (writeLoop_begun (h hsize) hn hlog hfit)).bind ?_
  rintro ⟨tot, off', ip', s'⟩ ⟨⟨_, ⟨len, hlen, htot, hoff'⟩, hops, _, _, hbegun⟩, hcovered⟩
  refine ⟨hcovered.card_le _, hops, fun hpos heq => ⟨?_, ?_⟩⟩
  · have hend : tot = n := by exact_mod_cast heq
    have hbegun' := hbegun hpos hend
    obtain rfl : off' = off + n := by omega
    split <;> exact hbegun'
  · refine hfit.trans_lt (by decide)

/-! ### `filewrite` -/

theorem filewriteLoop_fits (addr : ℕ) {size : ℕ} (fuel : ℕ) {i : ℕ} {f : File}
    (h : f.off ≤ f.ip.size → Begun f.ip.toDinode f.off) :
    Outcome E (filewriteLoop mem addr size fuel i f s) fun r => ∃ ops, r.2.2.ops = ops ++ s.ops ∧
      ∀ op ∈ ops, op.dedup.length ≤ maxopblocks := by
  induction fuel generalizing i f s with
  | zero => exact ⟨[], rfl, fun op hop => absurd hop List.not_mem_nil⟩
  | succ fuel ih =>
    unfold filewriteLoop
    split
    · rename_i hi
      refine (writei_fits h (min_le_right _ _) rfl).bind ?_
      rintro ⟨r, ip', s'⟩ ⟨hfit, hops, hbegun⟩
      have hop : s'.endOp.ops = [s'.logged] ++ s.ops := congrArg (s'.logged :: ·) hops
      dsimp only
      split
      · refine ⟨_, hop, fun op hmem => ?_⟩
        rw [List.mem_singleton.mp hmem]
        exact hfit
      · rename_i hr
        have hr := not_not.mp hr
        have hpos : 0 < min (size - i) maxwrite := lt_min (by omega) (by decide)
        grind [uint32_of_lt, Outcome.mono]
    · exact ⟨[], rfl, fun op hop => absurd hop List.not_mem_nil⟩

/-- **Each transaction fits its reservation.** Whatever the size of the disk and the bitmap are, a
`filewrite` to a file without holes returns, and no transaction of it logs more than `MAXOPBLOCKS`
different blocks. -/
theorem filewrite_fits (s : Store) (f : File) (mem : Memory) (addr : ℕ) (n : ℤ)
    (h : NoHoles s f.ip.toDinode) :
    ∃ r, filewrite f mem addr n s = .ok r ∧ ∃ ops, r.2.2.ops = ops ++ s.ops ∧
      ∀ op ∈ ops, op.dedup.length ≤ maxopblocks := by
  rw [← Outcome.total]
  unfold filewrite
  split
  · exact ⟨[], rfl, fun op hop => absurd hop List.not_mem_nil⟩
  · exact (filewriteLoop_fits addr n.toNat h.begun).bind fun r hr => hr

/-- The superblock that `mkfs` writes for 2000 blocks and 200 inodes. -/
def mkfsSuperblock : Superblock := ⟨2000, 1953, 200, 33, 46⟩

/-- A file that ends inside its last direct block, on a disk that has nothing marked as used. -/
theorem filewrite_fits_crossing :
    ∃ r, filewrite ⟨true, true, 11776, ⟨⟨.file, 0, 0, 1, 11776, fun k => if k < 12 then 100 + k else 0⟩, 5⟩⟩
        ⟨true, fun _ => true, fun _ => 7⟩ 0 4096 ⟨mkfsSuperblock, fun _ _ => 0, fun _ => .zero, [], []⟩ =
          .ok r ∧
      ∃ ops, r.2.2.ops = ops ++ [] ∧ ∀ op ∈ ops, op.dedup.length ≤ maxopblocks := by
  apply filewrite_fits
  intro bn hbn
  have hlt : bn < 12 := by
    replace hbn : bn * 1024 < 11776 := hbn
    omega
  show (if bn < 12 then (if bn < 12 then 100 + bn else 0) else _) ≠ 0
  rw [if_pos hlt, if_pos hlt]
  omega

end Xv6.Fs
