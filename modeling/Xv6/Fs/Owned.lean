import Xv6.Blocks.Owners
import Xv6.Fs.Bmap

/-! Who owns a block.

`node` is what the inodes of the disk are, the ones in memory taken from there. Each allocated inode
has 269 places for block numbers: its direct addresses, that of its indirect block, and the entries
of the indirect block. Under `Owned` no block is in two places, and the bitmap has exactly the
blocks in the places, and the metadata. `Extends` says what an allocation does: the inode has a
place more, and every byte of every file is what it was. -/
namespace Xv6.Fs
open Function
open Blocks (Owners)

def Superblock.dataStart (sb : Superblock) : ℕ := sb.size - sb.nblocks

/-- The disk begins with the metadata, the bitmap among it. -/
structure Layout (sb : Superblock) : Prop where
  pos : 0 < sb.dataStart
  bitmap : ∀ b < sb.size, bblock sb b < sb.dataStart
  small : sb.size < 2 ^ 32

/-- The block number in place `k` of an inode. -/
def addrOf (s : Store) (d : Dinode) (k : ℕ) : ℕ :=
  if k ≤ ndirect then d.addrs k
  else if d.addrs ndirect = 0 ∨ maxfile < k then 0
  else entry (s.block (d.addrs ndirect)) (k - ndirect - 1)

def Allocated (s : Store) (node : ℕ → Dinode) (i : ℕ) : Prop :=
  i < s.sb.ninodes ∧ (node i).type ≠ .free
deriving Decidable

/-- The block number in a place of an allocated inode. -/
def place (s : Store) (node : ℕ → Dinode) (p : ℕ × ℕ) : ℕ :=
  if Allocated s node p.1 then addrOf s (node p.1) p.2 else 0

def DataUsed (s : Store) (b : ℕ) : Prop := s.sb.dataStart ≤ b ∧ b < s.sb.size ∧ Used s b

def DataFree (s : Store) (b : ℕ) : Prop := s.sb.dataStart ≤ b ∧ b < s.sb.size ∧ ¬ Used s b

structure Owned (s : Store) (node : ℕ → Dinode) : Prop where
  layout : Layout s.sb
  owners : Owners (place s node) (DataUsed s)
  metadata : ∀ b < s.sb.dataStart, Used s b

variable {s s' s'' : Store} {node node' node'' : ℕ → Dinode} {d : Dinode} {data : Bytes}
  {b c i j k l x off bn : ℕ}

/-! ### Places -/

theorem addrOf_direct (h : k ≤ ndirect) : addrOf s d k = d.addrs k := if_pos h

theorem addrOf_entry (hj : j < nindirect) (hind : d.addrs ndirect ≠ 0) :
    addrOf s d (ndirect + 1 + j) = entry (s.block (d.addrs ndirect)) j := by
  have hk : ¬ (d.addrs ndirect = 0 ∨ maxfile < ndirect + 1 + j) := by
    unfold maxfile
    omega
  rw [addrOf, if_neg (by omega), if_neg hk]
  congr 1
  omega

theorem place_cases (k : ℕ) : k ≤ ndirect ∨ (∃ j < nindirect, k = ndirect + 1 + j) ∨ maxfile < k := by
  by_cases hk : k ≤ ndirect
  · exact .inl hk
  · by_cases hmax : ndirect + nindirect < k
    · exact .inr (.inr hmax)
    · exact .inr (.inl ⟨k - ndirect - 1, by omega, by omega⟩)

theorem addrOf_beyond (h : maxfile < k) : addrOf s d k = 0 := by
  have hk : ¬ k ≤ ndirect := by
    unfold maxfile at h
    omega
  rw [addrOf, if_neg hk, if_pos (.inr h)]

theorem addrOf_noIndirect (hk : ndirect < k) (h : d.addrs ndirect = 0) : addrOf s d k = 0 := by
  rw [addrOf, if_neg (by omega), if_pos (.inl h)]

theorem addrOf_congr (h : d.addrs ndirect ≠ 0 → s'.block (d.addrs ndirect) = s.block (d.addrs ndirect))
    (k : ℕ) : addrOf s' d k = addrOf s d k := by
  unfold addrOf
  grind

theorem place_congr {p : ℕ × ℕ} (hall : Allocated s' node' p.1 ↔ Allocated s node p.1)
    (haddr : Allocated s node p.1 → addrOf s' (node' p.1) p.2 = addrOf s (node p.1) p.2) :
    place s' node' p = place s node p := by
  unfold place
  grind

/-- The place of the block at index `bn` of a file. -/
def indexOf (bn : ℕ) : ℕ := if bn < ndirect then bn else bn + 1

theorem blockOf_eq (hbn : bn < maxfile) : blockOf s d bn = addrOf s d (indexOf bn) := by
  unfold indexOf
  by_cases hdirect : bn < ndirect
  · rw [if_pos hdirect, addrOf_direct (by omega)]
    exact if_pos hdirect
  · rw [if_neg hdirect]
    by_cases hind : d.addrs ndirect = 0
    · rw [addrOf_noIndirect (by omega) hind, blockOf, if_neg hdirect, if_pos hind]
    · have hbn' : bn + 1 = ndirect + 1 + (bn - ndirect) := by omega
      rw [hbn', addrOf_entry (by unfold maxfile at hbn; omega) hind, blockOf_indirect hdirect hind]

theorem indexOf_ne (bn : ℕ) : indexOf bn ≠ ndirect := by
  unfold indexOf
  split <;> omega

theorem indexOf_injective {bn' : ℕ} (h : indexOf bn = indexOf bn') : bn = bn' := by
  grind [indexOf]

namespace Owned

theorem dataUsed (h : Owned s node) (hi : Allocated s node i) (hk : addrOf s (node i) k ≠ 0) :
    DataUsed s (addrOf s (node i) k) := by
  have hplace : place s node (i, k) = addrOf s (node i) k := if_pos hi
  have hused := h.owners.used_place (hplace ▸ hk)
  rwa [hplace] at hused

theorem once (h : Owned s node) (hi : Allocated s node i) (hj : Allocated s node j)
    (hk : addrOf s (node i) k ≠ 0) (heq : addrOf s (node i) k = addrOf s (node j) l) :
    i = j ∧ k = l := by
  have hik : place s node (i, k) = addrOf s (node i) k := if_pos hi
  have hjl : place s node (j, l) = addrOf s (node j) l := if_pos hj
  have hp := h.owners.once (i, k) (j, l) (by rw [hik, hjl, heq]) (hik ▸ hk)
  exact Prod.mk.inj hp

theorem indirect (h : Owned s node) (hi : Allocated s node i) (hind : (node i).addrs ndirect ≠ 0) :
    DataUsed s ((node i).addrs ndirect) := by
  have haddr := addrOf_direct (s := s) (d := node i) (le_refl ndirect)
  grind [Owned.dataUsed]

end Owned

/-! ### The bitmap -/

theorem used_mark : Used (s.mark b) c ↔ c = b ∨ Used s c := by
  show (update s.block (bblock s.sb b) _ (bblock s.sb c)).bit (c % bpb) ↔ _
  grind [Bytes.bit_setBit, update_of_ne, Used, bblock, bpb, bsize]

theorem used_setBlock (hlay : Layout s.sb) (hx : s.sb.dataStart ≤ x) (hc : c < s.sb.size) :
    Used (s.setBlock x data) c ↔ Used s c := by
  have hne : bblock s.sb c ≠ x := by
    have := hlay.bitmap c hc
    omega
  show (update s.block x data (bblock s.sb c)).bit (c % bpb) ↔ _
  rw [update_of_ne hne]
  rfl

theorem mark_block (hlay : Layout s.sb) (hb : b < s.sb.size) (hx : s.sb.dataStart ≤ x) :
    (s.mark b).block x = s.block x := by
  have hne : x ≠ bblock s.sb b := by
    have := hlay.bitmap b hb
    omega
  exact update_of_ne hne _ _

theorem metadata_lt (hlay : Layout s.sb) (h : b < s.sb.dataStart) : b < s.sb.size := by
  have := hlay.pos
  unfold Superblock.dataStart at *
  omega

/-! ### Files as bytes -/

/-- The byte of a file at `off`; blocks that are not there hold zeros. -/
def byteAt (s : Store) (d : Dinode) (off : ℕ) : UInt8 :=
  if blockOf s d (off / bsize) = 0 then 0 else s.block (blockOf s d (off / bsize)) (off % bsize)

/-- The blocks of inode `i` may have become more, and inodes have not changed otherwise. -/
structure Keeps (i : ℕ) (s : Store) (node : ℕ → Dinode) (s' : Store) (node' : ℕ → Dinode) : Prop where
  owned : Owned s' node'
  sb : s'.sb = s.sb
  fields : node' i = {node i with addrs := (node' i).addrs}
  others : ∀ j ≠ i, node' j = node j
  kept : ∀ j, Allocated s node j → ∀ bn < maxfile, blockOf s (node j) bn ≠ 0 →
    blockOf s' (node' j) bn = blockOf s (node j) bn

namespace Keeps

theorem type (h : Keeps i s node s' node') (j : ℕ) : (node' j).type = (node j).type := by
  by_cases hj : j = i
  · rw [hj, h.fields]
  · rw [h.others j hj]

theorem allocated (h : Keeps i s node s' node') : Allocated s' node' j ↔ Allocated s node j := by
  unfold Allocated
  rw [h.sb, h.type]

theorem trans (h : Keeps i s node s' node') (h' : Keeps i s' node' s'' node'') :
    Keeps i s node s'' node'' := by
  refine ⟨h'.owned, h'.sb.trans h.sb, ?_, fun j hj => (h'.others j hj).trans (h.others j hj),
    fun j hj bn hbn hne => ?_⟩
  · rw [h'.fields, h.fields]
  · have hkept := h.kept j hj bn hbn hne
    rw [h'.kept j (h.allocated.mpr hj) bn hbn (hkept ▸ hne), hkept]

end Keeps

/-- The blocks of inode `i` have become more, and nothing else has changed. -/
structure Extends (i : ℕ) (s : Store) (node : ℕ → Dinode) (s' : Store) (node' : ℕ → Dinode) : Prop
    extends Keeps i s node s' node' where
  bytes : ∀ j, Allocated s node j → ∀ off < maxfile * bsize,
    byteAt s' (node' j) off = byteAt s (node j) off

theorem Extends.refl (h : Owned s node) (i : ℕ) : Extends i s node s node :=
  ⟨⟨h, rfl, rfl, fun _ _ => rfl, fun _ _ _ _ _ => rfl⟩, fun _ _ _ _ => rfl⟩

theorem Extends.trans (h : Extends i s node s' node') (h' : Extends i s' node' s'' node'') :
    Extends i s node s'' node'' := by
  refine ⟨h.toKeeps.trans h'.toKeeps, fun j hj off hoff => ?_⟩
  rw [h'.bytes j (h.allocated.mpr hj) off hoff, h.bytes j hj off hoff]

theorem Owned.congr (h : Owned s node) (hsb : s'.sb = s.sb) (hblock : s'.block = s.block) :
    Owned s' node := by
  have hused : ∀ b, Used s' b ↔ Used s b := fun b => by rw [Used, hsb, hblock]; rfl
  refine ⟨hsb ▸ h.layout, h.owners.congr (fun p => ?_) fun b => ?_, fun b hb => ?_⟩
  · grind [place_congr, addrOf_congr, Allocated]
  · unfold DataUsed
    rw [hsb, hused]
  · rw [hused]
    exact h.metadata b (hsb ▸ hb)

/-- A place of inode `i` takes a free block. Its indirect block is the only one that may have changed
beside the new one, which holds zeros. -/
theorem Owned.extend (h : Owned s node) (hi : Allocated s node i) (hb : DataFree s b)
    (hsb : s'.sb = s.sb) (hfields : node' i = {node i with addrs := (node' i).addrs})
    (hothers : ∀ j ≠ i, node' j = node j) (h0 : addrOf s (node i) k = 0)
    (hown : ∀ l, addrOf s' (node' i) l = if l = k then b else addrOf s (node i) l)
    (hused : ∀ c < s.sb.size, Used s' c ↔ c = b ∨ Used s c)
    (hblock : ∀ x, s.sb.dataStart ≤ x → x ≠ b → x ≠ (node i).addrs ndirect → s'.block x = s.block x)
    (hzero : ∀ y, s'.block b y = 0) : Extends i s node s' node' := by
  obtain ⟨hdata, hsize, hfree⟩ := hb
  have hb0 : b ≠ 0 := by
    have := h.layout.pos
    omega
  have htype : ∀ j, (node' j).type = (node j).type := by
    grind
  have hall : ∀ j, Allocated s' node' j ↔ Allocated s node j := by
    intro j
    unfold Allocated
    rw [hsb, htype]
  -- A block in use is not the new one.
  have hne : ∀ {x}, DataUsed s x → x ≠ b := fun hx heq => hfree (heq ▸ hx.2.2)
  have hind : (node i).addrs ndirect = addrOf s (node i) ndirect := (addrOf_direct le_rfl).symm
  have hother : ∀ j ≠ i, Allocated s node j → ∀ l, addrOf s' (node' j) l = addrOf s (node j) l := by
    intro j hj hja l
    rw [hothers j hj]
    apply addrOf_congr
    intro hj0
    have hju := h.indirect hja hj0
    apply hblock _ hju.1 (hne hju)
    intro heq
    have haddr := addrOf_direct (s := s) (d := node j) (le_refl ndirect)
    exact hj (h.once hja hi (haddr ▸ hj0) (by rw [haddr, heq, hind])).1
  -- The blocks that hold the bytes of files have not changed.
  have hbytes : ∀ j l, Allocated s node j → l ≠ ndirect → addrOf s (node j) l ≠ 0 →
      s'.block (addrOf s (node j) l) = s.block (addrOf s (node j) l) := by
    intro j l hja hl hjl
    have hju := h.dataUsed hja hjl
    apply hblock _ hju.1 (hne hju)
    intro heq
    exact hl (h.once hja hi hjl (heq.trans hind)).2
  refine ⟨⟨⟨hsb ▸ h.layout, ?_, ?_⟩, hsb, hfields, hothers, fun j hja bn hbn hjb => ?_⟩,
    fun j hja off hoff => ?_⟩
  · have htake := h.owners.take (p := (i, k)) (b := b) (by rw [place, if_pos hi]; exact h0)
      (fun hu => hfree hu.2.2) hb0
    refine htake.congr (fun p => ?_) fun c => ?_
    · by_cases hp : p.1 = i
      · obtain ⟨j, l⟩ := p
        obtain rfl : j = i := hp
        rw [place, if_pos ((hall j).mpr hi)]
        show addrOf s' (node' j) l = _
        rw [hown]
        by_cases hl : l = k
        · rw [if_pos hl, hl, update_self]
        · rw [if_neg hl, update_of_ne fun heq => hl (Prod.mk.inj heq).2, place, if_pos hi]
      · rw [update_of_ne fun heq => hp (by rw [heq])]
        exact place_congr (hall p.1) fun hja => hother p.1 hp hja p.2
    grind [DataUsed]
  · intro c hc
    rw [hsb] at hc
    exact (hused c (metadata_lt h.layout hc)).mpr (.inr (h.metadata c hc))
  · rw [blockOf_eq hbn] at hjb ⊢
    rw [blockOf_eq hbn]
    grind
  · have hbn : off / bsize < maxfile := Nat.div_lt_of_lt_mul (by rw [mul_comm]; exact hoff)
    unfold byteAt
    rw [blockOf_eq hbn, blockOf_eq hbn]
    by_cases hnew : j = i ∧ indexOf (off / bsize) = k
    · obtain ⟨rfl, rfl⟩ := hnew
      rw [hown, if_pos rfl, if_neg hb0, if_pos h0, hzero]
    · have hsame : addrOf s' (node' j) (indexOf (off / bsize)) =
          addrOf s (node j) (indexOf (off / bsize)) := by
        by_cases hj : j = i
        · subst hj
          rw [hown, if_neg fun heq => hnew ⟨rfl, heq⟩]
        · exact hother j hj hja _
      grind [indexOf_ne]

/-! ### Allocating -/

theorem used_take (hlay : Layout s.sb) (hb : DataFree s b) (hc : c < s.sb.size) :
    Used (bzero b (s.mark b)) c ↔ c = b ∨ Used s c := by
  rw [← used_mark]
  exact used_setBlock (s := s.mark b) hlay hb.1 hc

theorem take_block (hlay : Layout s.sb) (hb : DataFree s b) (hx : s.sb.dataStart ≤ x) (hne : x ≠ b) :
    (bzero b (s.mark b)).block x = s.block x :=
  (update_of_ne hne _ _).trans (mark_block hlay hb.2.1 hx)

theorem take_block_self (b y : ℕ) (s : Store) : (bzero b (s.mark b)).block b y = 0 := by
  simp [bzero, Store.setBlock, Store.logWrite]

theorem entry_zero (h : ∀ y, data y = 0) (j : ℕ) : entry data j = 0 := Bytes.le_zero h _ _

theorem entry_put {v : ℕ} (hv : v < 2 ^ 32) :
    entry (data.putLe (4 * k) 4 v) j = if j = k then v else entry data j := by
  unfold entry
  grind [Bytes.le_putLe, Bytes.le_putLe_of_apart]

theorem Owned.takeAddr (h : Owned s node) (hi : Allocated s node i) (hk : k ≤ ndirect)
    (h0 : (node i).addrs k = 0) (hb : DataFree s b) :
    Extends i s node (bzero b (s.mark b))
      (update node i {node i with addrs := update (node i).addrs k b}) := by
  have hself : update node i {node i with addrs := update (node i).addrs k b} i =
      {node i with addrs := update (node i).addrs k b} := update_self ..
  have hb0 : b ≠ 0 := by
    have := h.layout.pos
    have := hb.1
    omega
  refine h.extend hi hb rfl (by rw [hself]) (fun j hj => update_of_ne hj _ _)
    (by rw [addrOf_direct hk]; exact h0) (fun l => ?_) (fun c hc => used_take h.layout hb hc)
    (fun x hx hne _ => take_block h.layout hb hx hne) fun y => take_block_self b y s
  rw [hself]
  rcases place_cases l with hl | ⟨j, hj, rfl⟩ | hl
  · grind [addrOf_direct]
  · rw [if_neg (by omega)]
    by_cases hind : k = ndirect
    · -- A new indirect block is empty.
      grind [addrOf_noIndirect, addrOf_entry, entry_zero, take_block_self, update_self]
    · have hsame : update (node i).addrs k b ndirect = (node i).addrs ndirect :=
        update_of_ne (Ne.symm hind) _ _
      by_cases hnone : (node i).addrs ndirect = 0
      · rw [addrOf_noIndirect (by omega) hnone, addrOf_noIndirect (by omega) (hsame.trans hnone)]
      · have hu := h.indirect hi hnone
        have hne : (node i).addrs ndirect ≠ b := fun heq => hb.2.2 (heq ▸ hu.2.2)
        rw [addrOf_entry hj hnone, addrOf_entry hj (by simpa only [hsame] using hnone)]
        simp only [hsame]
        rw [take_block h.layout hb hu.1 hne]
  · have hlk : l ≠ k := by
      unfold maxfile at hl
      omega
    rw [addrOf_beyond hl, addrOf_beyond hl, if_neg hlk]

theorem Owned.takeEntry {ind : ℕ} (h : Owned s node) (hi : Allocated s node i) (hj : j < nindirect)
    (hind : (node i).addrs ndirect = ind) (hind0 : ind ≠ 0) (h0 : entry (s.block ind) j = 0)
    (hb : DataFree s b) :
    Extends i s node (((bzero b (s.mark b)).setBlock ind
      (((bzero b (s.mark b)).block ind).putLe (4 * j) 4 b)).logWrite ind) node := by
  have hu := h.indirect hi (hind ▸ hind0)
  rw [hind] at hu
  have hne : ind ≠ b := fun heq => hb.2.2 (heq ▸ hu.2.2)
  have hold := take_block h.layout hb hu.1 hne
  have hb32 : b < 2 ^ 32 := hb.2.1.trans h.layout.small
  have hself : (((bzero b (s.mark b)).setBlock ind
      (((bzero b (s.mark b)).block ind).putLe (4 * j) 4 b)).logWrite ind).block ind =
      ((bzero b (s.mark b)).block ind).putLe (4 * j) 4 b := update_self ..
  have hblock : ∀ x, x ≠ ind → (((bzero b (s.mark b)).setBlock ind
      (((bzero b (s.mark b)).block ind).putLe (4 * j) 4 b)).logWrite ind).block x =
      (bzero b (s.mark b)).block x := fun x hx => update_of_ne hx _ _
  refine h.extend hi hb rfl rfl (fun _ _ => rfl)
    (by rw [addrOf_entry hj (hind ▸ hind0), hind]; exact h0) (fun l => ?_) (fun c hc => ?_)
    (fun x hx hxb hxi => ?_) fun y => ?_
  · rcases place_cases l with hl | ⟨l, hl, rfl⟩ | hl
    · rw [addrOf_direct hl, addrOf_direct hl, if_neg (by omega)]
    · rw [addrOf_entry hl (hind ▸ hind0), addrOf_entry hl (hind ▸ hind0), hind]
      rw [hself, hold, entry_put hb32]
      simp only [Nat.add_left_cancel_iff]
    · have hlj : l ≠ ndirect + 1 + j := by
        unfold maxfile at hl
        omega
      rw [addrOf_beyond hl, addrOf_beyond hl, if_neg hlj]
  · rw [← used_take h.layout hb hc]
    exact used_setBlock (s := bzero b (s.mark b)) h.layout hu.1 hc
  · rw [hblock x (hind ▸ hxi), take_block h.layout hb hx hxb]
  · rw [hblock b (Ne.symm hne), take_block_self]

/-! ### `bmap` -/

/-- The inodes, with `ip` as it is in memory. -/
def view (node : ℕ → Dinode) (ip : Inode) : ℕ → Dinode := update node ip.inum ip.toDinode

@[simp] theorem view_self (node : ℕ → Dinode) (ip : Inode) : view node ip ip.inum = ip.toDinode :=
  update_self ..

theorem view_of_ne {ip : Inode} (h : i ≠ ip.inum) : view node ip i = node i := update_of_ne h ..

theorem Owned.balloc (h : Owned s node) :
    Fs.balloc s = (0, s) ∨ ∃ b, DataFree s b ∧ b ≠ 0 ∧ Fs.balloc s = (b, bzero b (s.mark b)) := by
  rcases balloc_cases s with ⟨_, heq⟩ | ⟨b, hsize, hfree, heq⟩
  · exact .inl heq
  · have hdata : s.sb.dataStart ≤ b := not_lt.mp fun hlt => hfree (h.metadata b hlt)
    have hpos := h.layout.pos
    exact .inr ⟨b, ⟨hdata, hsize, hfree⟩, by omega, heq⟩

variable {ip : Inode} {E : Panic → Prop}

theorem Owned.bmapAddr (h : Owned s (view node ip)) (hi : Allocated s (view node ip) ip.inum)
    (hk : k ≤ ndirect) :
    Extends ip.inum s (view node ip) (bmapAddr ip k s).2.2 (view node (bmapAddr ip k s).2.1) ∧
      (bmapAddr ip k s).1 = (bmapAddr ip k s).2.1.addrs k := by
  by_cases hk0 : ip.addrs k = 0
  · rcases h.balloc with hfull | ⟨b, hb, hb0, htake⟩
    · grind [bmapAddr_full, Extends.refl]
    · have hext := h.takeAddr hi hk (by simpa using hk0) hb
      rw [bmapAddr_takes hk0 (by rw [htake]; exact hb0), htake]
      grind [view_self, update_idem, view]
  · rw [bmapAddr_of_ne hk0]
    exact ⟨.refl h _, rfl⟩

theorem Owned.bmapEntry {ind : ℕ} (h : Owned s node) (hi : Allocated s node i) (hj : j < nindirect)
    (hind : (node i).addrs ndirect = ind) (hind0 : ind ≠ 0) :
    Extends i s node (bmapEntry ind j s).2 node ∧
      (bmapEntry ind j s).1 = entry ((bmapEntry ind j s).2.block ind) j := by
  by_cases hj0 : entry (s.block ind) j = 0
  · rcases h.balloc with hfull | ⟨b, hb, hb0, htake⟩
    · grind [bmapEntry_full, Extends.refl]
    · have hb32 : b < 2 ^ 32 := hb.2.1.trans h.layout.small
      rw [bmapEntry_takes hj0 (by rw [htake]; exact hb0), htake]
      refine ⟨h.takeEntry hi hj hind hind0 hj0 hb, ?_⟩
      show b = entry (update (bzero b (s.mark b)).block ind _ ind) j
      rw [update_self, entry_put hb32, if_pos rfl]
  · rw [bmapEntry_of_ne hj0]
    exact ⟨.refl h _, rfl⟩

theorem Owned.bmap (h : Owned s (view node ip)) (hi : Allocated s (view node ip) ip.inum)
    (hbn : bn < maxfile) :
    Outcome E (bmap ip bn s) fun (addr, ip', s') =>
      Extends ip.inum s (view node ip) s' (view node ip') ∧ addr = blockOf s' ip'.toDinode bn := by
  unfold Fs.bmap
  by_cases hdirect : bn < ndirect
  · obtain ⟨hext, haddr⟩ := h.bmapAddr hi hdirect.le
    rw [if_pos hdirect]
    refine ⟨hext, ?_⟩
    rw [blockOf_direct hdirect]
    exact haddr
  · have hlt : bn - ndirect < nindirect := by
      unfold maxfile at hbn
      omega
    obtain ⟨hext, haddr⟩ := h.bmapAddr hi (le_refl ndirect)
    have hinum : (Fs.bmapAddr ip ndirect s).2.1.inum = ip.inum := by rw [bmapAddr_inode]
    rw [if_neg hdirect, if_pos hlt]
    by_cases h0 : (Fs.bmapAddr ip ndirect s).1 = 0
    · rw [bmapIndirect_full h0]
      refine ⟨hext, ?_⟩
      rw [blockOf, if_neg hdirect, if_pos (haddr ▸ h0)]
    · rw [bmapIndirect_of_ne h0]
      have hview : view node (Fs.bmapAddr ip ndirect s).2.1 ip.inum =
          (Fs.bmapAddr ip ndirect s).2.1.toDinode := by rw [← hinum, view_self]
      obtain ⟨hext', hentry⟩ := hext.owned.bmapEntry (hext.allocated.mpr hi) hlt
        (by rw [hview]; exact haddr.symm) h0
      refine ⟨hext.trans hext', ?_⟩
      grind [blockOf_indirect]

end Xv6.Fs
