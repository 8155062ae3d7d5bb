import Xv6.Fs.Store
import Xv6.Machine.Outcome

/-! The cases of `balloc` and `bmap`.

`blockOf` is what `bmap` looks up. Where there is a block, `bmap` returns it and changes nothing;
where there is none it allocates one, and for a block behind the direct ones it may have to allocate
the indirect block before. Any of these allocations can fail. -/
namespace Xv6.Fs
open Function

variable {s : Store} {ip : Inode} {k j ind b bi bn : ℕ}

/-- The block of a file at index `bn`, or zero. -/
def blockOf (s : Store) (ip : Dinode) (bn : ℕ) : ℕ :=
  if bn < ndirect then ip.addrs bn
  else if ip.addrs ndirect = 0 then 0
  else entry (s.block (ip.addrs ndirect)) (bn - ndirect)

theorem blockOf_direct (h : bn < ndirect) : blockOf s ip.toDinode bn = ip.addrs bn := if_pos h

theorem blockOf_indirect {d : Dinode} (h : ¬ bn < ndirect) (hind : d.addrs ndirect ≠ 0) :
    blockOf s d bn = entry (s.block (d.addrs ndirect)) (bn - ndirect) := by
  rw [blockOf, if_neg h, if_neg hind]

/-- Every block below the size of the file is there. -/
def NoHoles (s : Store) (ip : Dinode) : Prop := ∀ bn, bn * bsize < ip.size → blockOf s ip bn ≠ 0

/-- The bit of block `b` is set, `b` in use. -/
def Used (s : Store) (b : ℕ) : Prop := (s.block (bblock s.sb b)).bit (b % bpb)
deriving Decidable

/-- Block `b` in use, in the bitmap and on the log. -/
def Store.mark (s : Store) (b : ℕ) : Store :=
  (s.setBlock (bblock s.sb b) ((s.block (bblock s.sb b)).setBit (b % bpb))).logWrite (bblock s.sb b)

/-! ### Searching the bitmap -/

theorem findFree_some {data : Bytes} {size n : ℕ} (h : findFree data b size n k = some bi) :
    k ≤ bi ∧ bi < k + n ∧ b + bi < size ∧ ¬ data.bit bi := by
  induction n generalizing k with
  | zero => cases h
  | succ n ih =>
    grind [findFree]

theorem findFree_none {data : Bytes} {size n : ℕ} (h : findFree data b size n k = none) :
    ∀ bi, k ≤ bi → bi < k + n → b + bi < size → data.bit bi := by
  induction n generalizing k with
  | zero => intro bi hle hlt; omega
  | succ n ih =>
    grind [findFree]

theorem ballocLoop_some {fuel : ℕ} (hk : k % bpb = 0) (h : ballocLoop s fuel k = some (b, bi)) :
    b % bpb = 0 ∧ bi < bpb ∧ b + bi < s.sb.size ∧ ¬ Used s (b + bi) := by
  induction fuel generalizing k with
  | zero => cases h
  | succ fuel ih =>
    unfold ballocLoop at h
    split at h
    · split at h
      · rename_i bi' hfind
        obtain ⟨_, hlt, hsize, hfree⟩ := findFree_some hfind
        grind [Used, bblock, bpb, bsize]
      · refine ih ?_ h
        rw [Nat.add_mod_right, hk]
    · cases h

theorem ballocLoop_none {fuel : ℕ} (hk : k % bpb = 0) (hf : s.sb.size ≤ k + fuel * bpb)
    (h : ballocLoop s fuel k = none) : ∀ b, k ≤ b → b < s.sb.size → Used s b := by
  induction fuel generalizing k with
  | zero => intro b hle hlt; omega
  | succ fuel ih =>
    intro b hle hlt
    unfold ballocLoop at h
    rw [if_pos (by omega)] at h
    split at h
    · cases h
    · rename_i hfind
      by_cases hb : b < k + bpb
      · have hdiv : b / bpb = k / bpb := by
          unfold bpb bsize at *
          omega
        have hmod : k + b % bpb = b := by
          unfold bpb bsize at *
          omega
        grind [findFree_none, Used, bblock]
      grind [Nat.add_mod_right]

theorem balloc_cases (s : Store) : (∀ b < s.sb.size, Used s b) ∧ balloc s = (0, s) ∨
      ∃ b < s.sb.size, ¬ Used s b ∧ balloc s = (b, bzero b (s.mark b)) := by
  unfold balloc
  split
  · rename_i hloop
    refine .inl ⟨fun b hb => ?_, rfl⟩
    have hfuel : s.sb.size ≤ 0 + s.sb.size * bpb := by
      unfold bpb bsize
      omega
    exact ballocLoop_none (Nat.zero_mod _) hfuel hloop b (Nat.zero_le _) hb
  · rename_i b bi hloop
    obtain ⟨hb, hbi, hsize, hfree⟩ := ballocLoop_some (Nat.zero_mod _) hloop
    grind [Store.mark, bblock, bpb, bsize]

/-- Blocks have changed and were logged, and nothing else. -/
structure OnlyBlocks (s s' : Store) : Prop where
  sb : s'.sb = s.sb
  dinode : s'.dinode = s.dinode
  ops : s'.ops = s.ops

theorem OnlyBlocks.refl (s : Store) : OnlyBlocks s s := ⟨rfl, rfl, rfl⟩

theorem OnlyBlocks.trans {s' s'' : Store} (h : OnlyBlocks s s') (h' : OnlyBlocks s' s'') :
    OnlyBlocks s s'' :=
  ⟨h'.sb.trans h.sb, h'.dinode.trans h.dinode, h'.ops.trans h.ops⟩

theorem balloc_onlyBlocks (s : Store) : OnlyBlocks s (balloc s).2 := by
  rcases balloc_cases s with ⟨_, heq⟩ | ⟨b, _, _, heq⟩
  · rw [heq]
    exact .refl s
  · rw [heq]
    exact ⟨rfl, rfl, rfl⟩

/-! ### Looking up a block -/

theorem bmapAddr_of_ne (h : ip.addrs k ≠ 0) : bmapAddr ip k s = (ip.addrs k, ip, s) := if_pos h

theorem bmapAddr_full (h : ip.addrs k = 0) (h0 : (balloc s).1 = 0) :
    bmapAddr ip k s = (0, ip, (balloc s).2) := by
  rw [bmapAddr, if_neg (not_not.mpr h)]
  exact if_pos h0

theorem bmapAddr_takes (h : ip.addrs k = 0) (h0 : (balloc s).1 ≠ 0) :
    bmapAddr ip k s = ((balloc s).1, {ip with addrs := update ip.addrs k (balloc s).1},
      (balloc s).2) := by
  rw [bmapAddr, if_neg (not_not.mpr h)]
  exact if_neg h0

theorem bmapEntry_of_ne (h : entry (s.block ind) j ≠ 0) :
    bmapEntry ind j s = (entry (s.block ind) j, s) := if_pos h

theorem bmapEntry_full (h : entry (s.block ind) j = 0) (h0 : (balloc s).1 = 0) :
    bmapEntry ind j s = (0, (balloc s).2) := by
  rw [bmapEntry, if_neg (not_not.mpr h)]
  exact if_pos h0

theorem bmapEntry_takes (h : entry (s.block ind) j = 0) (h0 : (balloc s).1 ≠ 0) :
    bmapEntry ind j s = ((balloc s).1, ((balloc s).2.setBlock ind
      (((balloc s).2.block ind).putLe (4 * j) 4 (balloc s).1)).logWrite ind) := by
  rw [bmapEntry, if_neg (not_not.mpr h)]
  exact if_neg h0

theorem bmapIndirect_full (h : (bmapAddr ip ndirect s).1 = 0) :
    bmapIndirect ip j s = (0, (bmapAddr ip ndirect s).2.1, (bmapAddr ip ndirect s).2.2) :=
  if_pos h

theorem bmapIndirect_of_ne (h : (bmapAddr ip ndirect s).1 ≠ 0) : bmapIndirect ip j s =
      ((bmapEntry (bmapAddr ip ndirect s).1 j (bmapAddr ip ndirect s).2.2).1,
        (bmapAddr ip ndirect s).2.1, (bmapEntry (bmapAddr ip ndirect s).1 j (bmapAddr ip ndirect s).2.2).2) :=
  if_neg h

theorem bmapAddr_inode (ip : Inode) (k : ℕ) (s : Store) :
    (bmapAddr ip k s).2.1 = {ip with addrs := update ip.addrs k (bmapAddr ip k s).1} := by
  by_cases hk : ip.addrs k = 0
  · by_cases h0 : (balloc s).1 = 0
    · rw [bmapAddr_full hk h0, ← hk, update_eq_self]
    · rw [bmapAddr_takes hk h0]
  · rw [bmapAddr_of_ne hk, update_eq_self]

theorem bmapAddr_onlyBlocks (ip : Inode) (k : ℕ) (s : Store) : OnlyBlocks s (bmapAddr ip k s).2.2 := by
  grind [balloc_onlyBlocks, bmapAddr_full, bmapAddr_takes, bmapAddr_of_ne, OnlyBlocks.refl]

theorem bmapEntry_onlyBlocks (ind j : ℕ) (s : Store) : OnlyBlocks s (bmapEntry ind j s).2 := by
  by_cases hj : entry (s.block ind) j = 0
  · have hsame := balloc_onlyBlocks s
    by_cases h0 : (balloc s).1 = 0
    · rw [bmapEntry_full hj h0]
      exact hsame
    · rw [bmapEntry_takes hj h0]
      exact ⟨hsame.sb, hsame.dinode, hsame.ops⟩
  · rw [bmapEntry_of_ne hj]
    exact .refl s

/-- The inode has more addresses than before. -/
structure MoreAddrs (ip ip' : Inode) : Prop where
  fields : ip' = {ip with addrs := ip'.addrs}
  kept : ∀ k, ip.addrs k ≠ 0 → ip'.addrs k = ip.addrs k

theorem MoreAddrs.refl (ip : Inode) : MoreAddrs ip ip := ⟨rfl, fun _ _ => rfl⟩

theorem MoreAddrs.inum {ip' : Inode} (h : MoreAddrs ip ip') : ip'.inum = ip.inum := by
  rw [h.fields]

theorem MoreAddrs.trans {ip' ip'' : Inode} (h : MoreAddrs ip ip') (h' : MoreAddrs ip' ip'') :
    MoreAddrs ip ip'' := by
  constructor
  · rw [h'.fields, h.fields]
  · intro k hk
    rw [h'.kept k (by rw [h.kept k hk]; exact hk), h.kept k hk]

theorem bmapAddr_moreAddrs (ip : Inode) (k : ℕ) (s : Store) : MoreAddrs ip (bmapAddr ip k s).2.1 := by
  have hip := bmapAddr_inode ip k s
  constructor
  · rw [hip]
  · intro l hl
    by_cases hlk : l = k
    · subst hlk
      rw [bmapAddr_of_ne hl]
    · rw [hip]
      exact update_of_ne hlk ..

/-- `bmap` writes the addresses of the inode and blocks, and what it returns is in the inode or
behind its indirect block. -/
theorem bmap_frame {E : Panic → Prop} (ip : Inode) (hbn : bn < maxfile) (s : Store) :
    Outcome E (bmap ip bn s) fun r => OnlyBlocks s r.2.2 ∧ MoreAddrs ip r.2.1 ∧
      (r.1 ≠ 0 → bn < ndirect ∧ r.2.1.addrs bn ≠ 0 ∨ r.2.1.addrs ndirect ≠ 0) := by
  have hself : ∀ k, (bmapAddr ip k s).2.1.addrs k = (bmapAddr ip k s).1 := by
    intro k
    rw [bmapAddr_inode]
    simp
  unfold bmap
  by_cases hdirect : bn < ndirect
  · rw [if_pos hdirect]
    refine ⟨bmapAddr_onlyBlocks ip bn s, bmapAddr_moreAddrs ip bn s, fun h0 => .inl ⟨hdirect, ?_⟩⟩
    rw [hself]
    exact h0
  · have hlt : bn - ndirect < nindirect := by
      unfold maxfile at hbn
      omega
    rw [if_neg hdirect, if_pos hlt]
    by_cases h0 : (bmapAddr ip ndirect s).1 = 0
    · rw [bmapIndirect_full h0]
      exact ⟨bmapAddr_onlyBlocks .., bmapAddr_moreAddrs .., fun hne => absurd rfl hne⟩
    · rw [bmapIndirect_of_ne h0]
      refine ⟨(bmapAddr_onlyBlocks ip ndirect s).trans (bmapEntry_onlyBlocks ..),
        bmapAddr_moreAddrs .., fun _ => .inr ?_⟩
      rw [hself]
      exact h0

theorem bmap_of_ne (hbn : bn < maxfile) (h : blockOf s ip.toDinode bn ≠ 0) :
    bmap ip bn s = .ok (blockOf s ip.toDinode bn, ip, s) := by
  unfold bmap
  by_cases hdirect : bn < ndirect
  · rw [blockOf_direct hdirect] at h ⊢
    rw [if_pos hdirect, bmapAddr_of_ne h]
  · have hind : ip.addrs ndirect ≠ 0 := by
      intro hind
      rw [blockOf, if_neg hdirect, if_pos hind] at h
      exact h rfl
    rw [blockOf_indirect hdirect hind] at h ⊢
    have haddr := bmapAddr_of_ne (s := s) hind
    have hlt : bn - ndirect < nindirect := by
      unfold maxfile at hbn
      omega
    rw [if_neg hdirect, if_pos hlt, bmapIndirect_of_ne (by rw [haddr]; exact hind), haddr,
      bmapEntry_of_ne h]

/-! ### Logging -/

/-- Every buffer that was modified was logged. -/
def LogsChanges (s s' : Store) : Prop :=
  ∃ new, s'.logged = new ++ s.logged ∧ (∀ b, s'.block b ≠ s.block b → b ∈ new) ∧
    ∀ i, s'.dinode i ≠ s.dinode i → iblock s.sb i ∈ new

/-- So it was, but for the buffer of block `b`. -/
def LogsBut (b : ℕ) (s s' : Store) : Prop := ∃ s₁ data, LogsChanges s s₁ ∧ s' = s₁.setBlock b data

namespace LogsChanges

variable {s' s'' : Store} {data : Bytes}

theorem refl (s : Store) : LogsChanges s s :=
  ⟨[], rfl, fun _ hb => absurd rfl hb, fun _ hi => absurd rfl hi⟩

theorem trans (h : LogsChanges s s') (h' : LogsChanges s' s'') (hsb : s'.sb = s.sb) :
    LogsChanges s s'' := by
  obtain ⟨new, hlog, hblock, hdinode⟩ := h
  obtain ⟨new', hlog', hblock', hdinode'⟩ := h'
  refine ⟨new' ++ new, by rw [hlog', hlog, List.append_assoc], fun b hb => ?_, fun i hi => ?_⟩
  · grind
  grind

theorem setBlock (s : Store) (b : ℕ) (data : Bytes) : LogsChanges s ((s.setBlock b data).logWrite b) := by
  refine ⟨[b], rfl, fun c hc => List.mem_singleton.mpr ?_, fun _ hi => absurd rfl hi⟩
  by_contra hne
  exact hc (update_of_ne hne _ _)

theorem iupdate (ip : Inode) (s : Store) : LogsChanges s (iupdate ip s) := by
  refine ⟨[iblock s.sb ip.inum], rfl, fun _ hb => absurd rfl hb, fun i hi => List.mem_singleton.mpr ?_⟩
  by_contra hne
  refine hi (update_of_ne ?_ _ _)
  grind

theorem balloc (s : Store) : LogsChanges s (balloc s).2 := by
  rcases balloc_cases s with ⟨_, heq⟩ | ⟨b, _, _, heq⟩
  · rw [heq]
    exact .refl s
  · rw [heq]
    exact (setBlock s _ _).trans (setBlock (s.mark b) b _) rfl

theorem bmapAddr (ip : Inode) (k : ℕ) (s : Store) : LogsChanges s (bmapAddr ip k s).2.2 := by
  grind [bmapAddr_full, LogsChanges.balloc, bmapAddr_takes, bmapAddr_of_ne, LogsChanges.refl]

theorem bmapEntry (ind j : ℕ) (s : Store) : LogsChanges s (bmapEntry ind j s).2 := by
  by_cases hj : entry (s.block ind) j = 0
  · grind [bmapEntry_full, LogsChanges.balloc, bmapEntry_takes, LogsChanges.trans, LogsChanges.setBlock, balloc_onlyBlocks, OnlyBlocks.sb]
  · rw [bmapEntry_of_ne hj]
    exact .refl s

theorem bmap {E : Panic → Prop} (ip : Inode) (hbn : bn < maxfile) (s : Store) :
    Outcome E (bmap ip bn s) fun r => LogsChanges s r.2.2 := by
  unfold Fs.bmap
  by_cases hdirect : bn < ndirect
  · rw [if_pos hdirect]
    exact bmapAddr ip bn s
  · have hlt : bn - ndirect < nindirect := by
      unfold maxfile at hbn
      omega
    rw [if_neg hdirect, if_pos hlt]
    by_cases h0 : (Fs.bmapAddr ip ndirect s).1 = 0
    · rw [bmapIndirect_full h0]
      exact bmapAddr ip ndirect s
    · rw [bmapIndirect_of_ne h0]
      exact (bmapAddr ip ndirect s).trans (bmapEntry _ _ _) (bmapAddr_onlyBlocks ip ndirect s).sb

end LogsChanges

end Xv6.Fs
