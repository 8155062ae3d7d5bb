import Xv6.Fs.Content

/-! Freeing the blocks of a file.

`Freed` says what a number of calls of `bfree` do: some blocks are no longer in use, and no data block
has changed. On a disk on which every block is owned, `itrunc` does not come across a free block, since
no block is in two places, and afterwards the blocks of the file are free and all others are as before
(`Owned.itrunc`). -/
namespace Xv6.Fs
open Function

variable {s s' s'' : Store} {node node' : ℕ → Dinode} {ip : Inode} {E : Panic → Prop}
  {F G : ℕ → Prop} {b c i j k x : ℕ}

/-- The blocks in `F` are no longer in use, and the data blocks are as before. -/
structure Cleared (s s' : Store) (F : ℕ → Prop) : Prop where
  sb : s'.sb = s.sb
  used : ∀ b < s.sb.size, Used s' b ↔ Used s b ∧ ¬ F b
  block : ∀ b, s.sb.dataStart ≤ b → s'.block b = s.block b

structure Freed (s s' : Store) (F : ℕ → Prop) : Prop extends Cleared s s' F where
  dinode : s'.dinode = s.dinode
  ops : s'.ops = s.ops
  logged : LogsChanges s s'

namespace Freed

theorem refl (s : Store) : Freed s s fun _ => False :=
  ⟨⟨rfl, fun _ _ => by simp, fun _ _ => rfl⟩, rfl, rfl, .refl s⟩

theorem trans (h : Freed s s' F) (h' : Freed s' s'' G) : Freed s s'' fun b => F b ∨ G b where
  sb := h'.sb.trans h.sb
  dinode := h'.dinode.trans h.dinode
  ops := h'.ops.trans h.ops
  used := by
    intro b hb
    rw [h'.used b (h.sb ▸ hb), h.used b hb]
    tauto
  block := by
    intro b hb
    rw [h'.block b (h.sb ▸ hb), h.block b hb]
  logged := h.logged.trans h'.logged h.sb

theorem congr (h : Freed s s' F) (hF : ∀ b, G b ↔ F b) : Freed s s' G := by
  obtain rfl : G = F := funext fun b => propext (hF b)
  exact h

end Freed

theorem bfree_freed (hlay : Layout s.sb) (hb : b < s.sb.size) (hu : Used s b) :
    Outcome E (bfree b s) fun s' => Freed s s' (· = b) := by
  unfold bfree
  rw [if_pos (by exact hu)]
  refine ⟨⟨rfl, fun c hc => ?_, fun c hc => ?_⟩, rfl, rfl, .setBlock s _ _⟩
  · show (update s.block (bblock s.sb b) _ (bblock s.sb c)).bit (c % bpb) ↔ _
    by_cases hblock : bblock s.sb c = bblock s.sb b
    · have hmod : c % bpb = b % bpb ↔ c = b := by
        unfold bblock bpb bsize at *
        omega
      unfold Used
      rw [hblock, update_self, Bytes.bit_clearBit, ne_eq, hmod]
      tauto
    grind [update_of_ne, Used]
  · have hne : c ≠ bblock s.sb b := by
      have := hlay.bitmap b hb
      omega
    exact update_of_ne hne _ _

/-- The blocks in the places `K` of an inode. -/
def Holds (s : Store) (d : Dinode) (K : ℕ → Prop) (b : ℕ) : Prop := b ≠ 0 ∧ ∃ k, K k ∧ addrOf s d k = b

variable {K L : ℕ → Prop} {d : Dinode}

theorem holds_congr (hK : ∀ k, addrOf s d k ≠ 0 → (L k ↔ K k)) (b : ℕ) : Holds s d L b ↔ Holds s d K b := by
  constructor
  · rintro ⟨hb, k, hk, rfl⟩
    exact ⟨hb, k, (hK k hb).mp hk, rfl⟩
  · rintro ⟨hb, k, hk, rfl⟩
    exact ⟨hb, k, (hK k hb).mpr hk, rfl⟩

theorem Owned.freeNext (h : Owned s node) (hi : Allocated s node i) (hf : Freed s s' (Holds s (node i) K))
    (hk : ¬ K k) (hb : addrOf s (node i) k ≠ 0) :
    Outcome E (bfree (addrOf s (node i) k) s') fun s'' =>
      Freed s s'' (Holds s (node i) fun l => K l ∨ l = k) := by
  obtain ⟨-, hsize, hused⟩ := h.dataUsed hi hb
  have hstill : Used s' (addrOf s (node i) k) := by
    refine (hf.used _ hsize).mpr ⟨hused, ?_⟩
    rintro ⟨-, l, hl, heq⟩
    exact hk ((h.once hi hi hb heq.symm).2 ▸ hl)
  refine (bfree_freed (hf.sb.symm ▸ h.layout) (hf.sb.symm ▸ hsize) hstill).mono fun s'' hfree => ?_
  refine (hf.trans hfree).congr fun b => ?_
  constructor
  · rintro ⟨hb', l, hl | rfl, rfl⟩
    · exact .inl ⟨hb', l, hl, rfl⟩
    · exact .inr rfl
  · rintro (⟨hb', l, hl, rfl⟩ | rfl)
    · exact ⟨hb', l, .inl hl, rfl⟩
    · exact ⟨hb, k, .inr rfl, rfl⟩

/-! ### `itrunc` -/

/-- The inode without its first `n` addresses. -/
def Inode.without (ip : Inode) (n : ℕ) : Inode := {ip with addrs := fun l => if l < n then 0 else ip.addrs l}

theorem Inode.without_addrs (ip : Inode) (n l : ℕ) :
    (ip.without n).addrs l = if l < n then 0 else ip.addrs l := rfl

theorem Inode.without_next (ip : Inode) (n : ℕ) :
    {ip.without n with addrs := update (ip.without n).addrs n 0} = ip.without (n + 1) := by
  have haddrs : update (ip.without n).addrs n 0 = (ip.without (n + 1)).addrs := by
    funext l
    rw [without_addrs]
    by_cases hl : l = n
    · rw [hl, update_self, if_pos (by omega)]
    · rw [update_of_ne hl, without_addrs]
      grind
  rw [haddrs]
  rfl

theorem Inode.without_of_zero (h : ip.addrs k = 0) : ip.without (k + 1) = ip.without k := by
  rw [← ip.without_next k]
  have haddrs : update (ip.without k).addrs k 0 = (ip.without k).addrs := by
    apply update_eq_self_iff.mpr
    exact (if_neg (lt_irrefl k)).trans h |>.symm
  rw [haddrs]

variable (h : Owned s (view node ip)) (hi : Allocated s (view node ip) ip.inum)

include h hi in
theorem Owned.truncAddr (hk : k ≤ ndirect) (hK : ¬ K k) (hf : Freed s s' (Holds s ip.toDinode K)) :
    Outcome E (truncAddr (ip.without k) s' k) fun r =>
      r.1 = ip.without (k + 1) ∧ Freed s r.2 (Holds s ip.toDinode fun l => K l ∨ l = k) := by
  have haddr : (ip.without k).addrs k = ip.addrs k := if_neg (lt_irrefl k)
  have hplace : addrOf s ip.toDinode k = ip.addrs k := addrOf_direct hk
  unfold Fs.truncAddr
  rw [haddr]
  by_cases h0 : ip.addrs k = 0
  · rw [if_pos h0]
    refine ⟨(Inode.without_of_zero h0).symm, hf.congr (holds_congr fun l hl => ?_)⟩
    grind
  · rw [if_neg h0]
    have hnext := h.freeNext (E := E) (k := k) (K := K) hi (by rwa [view_self])
    rw [view_self, hplace] at hnext
    refine (hnext hK h0).bind fun s'' hs'' => ⟨?_, hs''⟩
    exact ip.without_next k

include h hi in
theorem Owned.truncEntry (hj : j < nindirect) (hind : ip.addrs ndirect ≠ 0) (hK : ¬ K (ndirect + 1 + j))
    (hf : Freed s s' (Holds s ip.toDinode K)) :
    Outcome E (truncEntry (ip.addrs ndirect) s' j) fun s'' =>
      Freed s s'' (Holds s ip.toDinode fun l => K l ∨ l = ndirect + 1 + j) := by
  have hplace : addrOf s ip.toDinode (ndirect + 1 + j) = entry (s.block (ip.addrs ndirect)) j :=
    addrOf_entry hj hind
  have hused := h.dataUsed (k := ndirect) hi
  rw [view_self, addrOf_direct le_rfl] at hused
  unfold Fs.truncEntry
  rw [hf.block _ (hused hind).1]
  by_cases h0 : entry (s.block (ip.addrs ndirect)) j = 0
  · rw [if_pos h0]
    refine hf.congr (holds_congr fun l hl => ?_)
    grind
  · rw [if_neg h0]
    grind [Owned.freeNext, view_self]

include h hi in
theorem Owned.truncIndirect (hf : Freed s s' (Holds s ip.toDinode (· < ndirect))) :
    Outcome E (truncIndirect (ip.without ndirect) s') fun r =>
      r.1 = ip.without (ndirect + 1) ∧ Freed s r.2 (Holds s ip.toDinode fun _ => True) := by
  have haddr : (ip.without ndirect).addrs ndirect = ip.addrs ndirect := by
    rw [Inode.without_addrs, if_neg (lt_irrefl _)]
  unfold Fs.truncIndirect
  rw [haddr]
  by_cases h0 : ip.addrs ndirect = 0
  · rw [if_pos h0]
    refine ⟨(Inode.without_of_zero h0).symm, hf.congr (holds_congr fun l hl => ?_)⟩
    grind [addrOf_direct, addrOf_noIndirect]
  rw [if_neg h0]
  have hentries : Outcome E ((List.range nindirect).foldlM (Fs.truncEntry (ip.addrs ndirect)) s')
      fun t => Freed s t (Holds s ip.toDinode fun l => l < ndirect ∨ ndirect < l ∧ l < ndirect + 1 + nindirect) := by
    apply Outcome.foldlM_range nindirect (P := fun j t =>
      Freed s t (Holds s ip.toDinode fun l => l < ndirect ∨ ndirect < l ∧ l < ndirect + 1 + j))
    · grind
    · intro j hj t ht
      refine (h.truncEntry hi hj h0 (by omega) ht).mono fun t' ht' => ht'.congr (holds_congr fun l _ => ?_)
      omega
  refine hentries.bind fun t ht => ?_
  refine (h.truncAddr hi le_rfl (by omega) ht).mono fun r hr => ⟨hr.1, hr.2.congr (holds_congr fun l hl => ?_)⟩
  have hmax : l ≤ maxfile := not_lt.mp fun hlt => hl (addrOf_beyond hlt)
  unfold maxfile at hmax
  simp only [true_iff]
  omega

def Inode.truncated (ip : Inode) : Inode := {ip.without (ndirect + 1) with size := 0}

include h hi in
theorem Owned.itrunc : Outcome E (itrunc ip s) fun r =>
    r.1 = ip.truncated ∧ ∃ t, Freed s t (Holds s ip.toDinode fun _ => True) ∧ r.2 = iupdate ip.truncated t := by
  have hdirect : Outcome E ((List.range ndirect).foldlM (fun r k => Fs.truncAddr r.1 r.2 k) (ip, s))
      fun r => r.1 = ip.without ndirect ∧ Freed s r.2 (Holds s ip.toDinode (· < ndirect)) := by
    apply Outcome.foldlM_range ndirect (P := fun k (r : Inode × Store) =>
      r.1 = ip.without k ∧ Freed s r.2 (Holds s ip.toDinode (· < k)))
    · refine ⟨rfl, (Freed.refl s).congr fun b => ?_⟩
      simp [Holds]
    · rintro k hk ⟨jp, t⟩ ⟨rfl, hf⟩
      refine (h.truncAddr (K := (· < k)) hi (by omega) (lt_irrefl k) hf).mono fun r hr => ⟨hr.1, hr.2.congr ?_⟩
      grind
  refine hdirect.bind ?_
  rintro ⟨jp, t⟩ ⟨rfl, hf⟩
  refine (h.truncIndirect hi hf).bind ?_
  rintro ⟨jp, t'⟩ ⟨rfl, hf'⟩
  exact ⟨rfl, t', hf', rfl⟩

/-! ### What is left -/

theorem Owned.cleared_addrOf (h : Owned s node) (hf : Cleared s s' F) (hj : Allocated s node j) (k : ℕ) :
    addrOf s' (node j) k = addrOf s (node j) k := by
  refine addrOf_congr (fun hind => hf.block _ ?_) k
  have hused := h.dataUsed (k := ndirect) hj
  rw [addrOf_direct le_rfl] at hused
  exact (hused hind).1

/-- The blocks of inode `i` are free, and it has none in its places, or is free itself. -/
theorem Owned.freed (h : Owned s node) (hi : Allocated s node i)
    (hf : Cleared s s' (Holds s (node i) fun _ => True))
    (hnone : Allocated s' node' i → ∀ k, addrOf s' (node' i) k = 0) (hother : ∀ j, j ≠ i → node' j = node j) :
    Owned s' node' := by
  have hplace : ∀ p : ℕ × ℕ, p.1 ≠ i → place s' node' p = place s node p := by
    grind [place_congr, Cleared.sb, Owned.cleared_addrOf, Allocated]
  refine ⟨hf.sb.symm ▸ h.layout, ?_, fun b hb => ?_⟩
  · have hgone : ∀ p : ℕ × ℕ, p.1 = i → place s' node' p = 0 := by
      rintro ⟨j, k⟩ rfl
      by_cases hall : Allocated s' node' j
      · exact (if_pos hall).trans (hnone hall k)
      · exact if_neg hall
    refine (h.owners.drop hgone hplace).congr (fun _ => rfl) fun b => ?_
    · have hpos := h.layout.pos
      unfold DataUsed
      rw [hf.sb]
      constructor
      · rintro ⟨hlow, hhigh, hused⟩
        obtain ⟨hused, hnot⟩ := (hf.used b hhigh).mp hused
        refine ⟨⟨hlow, hhigh, hused⟩, ?_⟩
        rintro ⟨j, k⟩ rfl heq
        exact hnot ⟨by omega, k, trivial, (if_pos hi).symm.trans heq⟩
      · rintro ⟨⟨hlow, hhigh, hused⟩, hnot⟩
        refine ⟨hlow, hhigh, (hf.used b hhigh).mpr ⟨hused, ?_⟩⟩
        rintro ⟨-, k, -, heq⟩
        exact hnot (i, k) rfl ((if_pos hi).trans heq)
  · have hlt := hf.sb ▸ hb
    refine (hf.used b (metadata_lt h.layout hlt)).mpr ⟨h.metadata b hlt, ?_⟩
    rintro ⟨h0, k, -, rfl⟩
    exact absurd (h.dataUsed hi h0).1 (by omega)

theorem Owned.cleared_byteAt (h : Owned s node) (hf : Cleared s s' F) (hj : Allocated s node j)
    (hx : x < maxfile * bsize) : byteAt s' (node j) x = byteAt s (node j) x := by
  have hbn := index_lt hx
  have hblock : blockOf s' (node j) (x / bsize) = blockOf s (node j) (x / bsize) := by
    rw [blockOf_eq hbn, blockOf_eq hbn, h.cleared_addrOf hf hj]
  unfold byteAt
  rw [hblock]
  by_cases h0 : blockOf s (node j) (x / bsize) = 0
  · rw [if_pos h0, if_pos h0]
  · rw [if_neg h0, if_neg h0]
    have hplace := blockOf_eq (s := s) (d := node j) hbn
    rw [hf.block _ (hplace ▸ (h.dataUsed hj (hplace ▸ h0)).1)]

end Xv6.Fs
