import Xv6.Fs.Reserve

/-! A file is an array of bytes.

`contents` is the array. `readi` returns a piece of it and changes nothing, so that to know what a
file `Reads` as is to know what every `readi` on it does, and `writei` overwrites a piece of it, or
appends to it. A copy from a process that fails in the middle of a block is different: it leaves its
bytes in the buffer, which is not logged, and `writei` does not count them. -/
namespace Xv6.Fs

open Function

variable {s s' : Store} {node : ℕ → Dinode} {ip jp : Inode} {mem : Memory} {E : Panic → Prop}
  {tot off dst addr n len extra i j : ℕ}

/-! ### Reading -/

theorem readLoop_store (fuel : ℕ) (h : NoHoles s ip.toDinode) (hsize : ip.size ≤ maxfile * bsize)
    (hend : off + (n - tot) ≤ ip.size) :
    Outcome E (readLoop n fuel tot off dst mem ip s) fun r => r.2.2 = (ip, s) := by
  induction fuel generalizing tot off dst mem with
  | zero => rfl
  | succ fuel ih =>
    unfold readLoop
    by_cases hlt : tot < n
    · rw [if_pos hlt]
      have hoff : off < ip.size := by omega
      have hbn : off / bsize < maxfile := index_lt (by omega)
      have hblock := h (off / bsize) (by unfold bsize at *; omega)
      rw [bmap_of_ne hbn hblock]
      show Outcome E (if _ then _ else _) _
      rw [if_neg hblock]
      split
      · rfl
      · exact ih (by omega)
    · rw [if_neg hlt]
      rfl

theorem readi_store (h : NoHoles s ip.toDinode) (hsize : ip.size ≤ maxfile * bsize) (hn : n < 2 ^ 32) :
    Outcome E (readi ip mem dst off n s) fun r => r.2.2 = (ip, s) := by
  unfold readi
  split
  · rfl
  grind [readLoop_store, uint32, maxfile, bsize]

/-- Memory with `m` bytes written to it at `dst`. -/
def Memory.put (mem : Memory) (dst m : ℕ) (src : Bytes) : Memory :=
  {mem with byte := mem.byte.copy dst m src}

theorem readLoop_kernel (fuel : ℕ) (hk : mem.user = false) (h : NoHoles s ip.toDinode)
    (hsize : ip.size ≤ maxfile * bsize) (hfuel : n - tot ≤ fuel) (htot : tot ≤ n)
    (hend : off + (n - tot) ≤ ip.size) (hdst : dst + (n - tot) < 2 ^ 64) :
    readLoop n fuel tot off dst mem ip s =
      .ok (n, mem.put dst (n - tot) fun j => byteAt s ip.toDinode (off + j), ip, s) := by
  induction fuel generalizing tot off dst mem with
  | zero =>
    obtain rfl : tot = n := by omega
    simp [readLoop, Memory.put]
  | succ fuel ih =>
    unfold readLoop
    by_cases hlt : tot < n
    · have hoff : off < ip.size := by omega
      have hbn : off / bsize < maxfile := index_lt (by omega)
      have hblock := h (off / bsize) (by unfold bsize at *; omega)
      have hmod : off % bsize < bsize := Nat.mod_lt _ (by decide)
      generalize hm : min (n - tot) (bsize - off % bsize) = m
      have hcopy : eitherCopyout mem dst (s.block (blockOf s ip.toDinode (off / bsize))) (off % bsize) m =
          (true, mem.put dst m fun j => byteAt s ip.toDinode (off + j)) := by
        unfold eitherCopyout Memory.put
        rw [if_neg (by rw [hk]; decide)]
        congr 2
        apply Bytes.copy_congr
        intro j hj
        have hdiv : (off + j) / bsize = off / bsize := by
          unfold bsize at *
          omega
        have hrem : (off + j) % bsize = off % bsize + j := by
          unfold bsize at *
          omega
        rw [byteAt, hdiv, hrem, if_neg hblock]
      have h64 : uint64 (dst + m) = dst + m := by
        unfold uint64
        omega
      rw [if_pos hlt, bmap_of_ne hbn hblock]
      show (if _ then _ else _) = _
      rw [if_neg hblock, hcopy, h64]
      grind [Bytes.copy_copy, Memory.put]
    · obtain rfl : tot = n := by omega
      rw [if_neg hlt]
      simp [Memory.put]

def contents (s : Store) (d : Dinode) : List UInt8 := (List.range d.size).map (byteAt s d)

theorem length_contents (s : Store) (d : Dinode) : (contents s d).length = d.size := by
  simp [contents]

def readBytes (c : List UInt8) (off n : ℕ) : List UInt8 := (c.drop off).take n

theorem length_readBytes (s : Store) (d : Dinode) (off n : ℕ) :
    (readBytes (contents s d) off n).length = min n (d.size - off) := by
  simp [readBytes, length_contents]

theorem getD_readBytes {d : Dinode} {j : ℕ} (hj : j < min n (d.size - off)) :
    (readBytes (contents s d) off n).getD j 0 = byteAt s d (off + j) := by
  grind [readBytes, contents]

/-- Memory with a list of bytes written to it. -/
def Memory.store (mem : Memory) (dst : ℕ) (bytes : List UInt8) : Memory :=
  mem.put dst bytes.length fun j => bytes.getD j 0

theorem Memory.store_byte {bytes : List UInt8} (h : j < bytes.length) :
    (mem.store dst bytes).byte (dst + j) = bytes.getD j 0 := by
  unfold Memory.store Memory.put
  grind [Bytes.copy_inside, Nat.add_sub_cancel_left]

theorem readi_kernel (hk : mem.user = false) (h : NoHoles s ip.toDinode)
    (hsize : ip.size ≤ maxfile * bsize) (hn : n < 2 ^ 32) (hdst : dst + n < 2 ^ 64) :
    readi ip mem dst off n s =
      if off ≤ ip.size ∧ off + n < 2 ^ 32 then
        .ok ((min n (ip.size - off) : ℕ), mem.store dst (readBytes (contents s ip.toDinode) off n), ip, s)
      else .ok (0, mem, ip, s) := by
  unfold readi
  by_cases hoff : off ≤ ip.size ∧ off + n < 2 ^ 32
  · have h32 : uint32 (off + n) = off + n := by
      unfold uint32
      omega
    rw [if_neg (by omega), if_pos hoff, h32]
    have hlen : (if off + n > ip.size then ip.size - off else n) = min n (ip.size - off) := by
      split <;> omega
    rw [hlen, readLoop_kernel _ hk h hsize (by omega) (Nat.zero_le _) (by omega) (by omega)]
    unfold Memory.store Memory.put
    rw [length_readBytes, Nat.sub_zero]
    grind [Bytes.copy_congr, getD_readBytes]
  · rw [if_neg hoff, if_pos]
    unfold uint32
    omega

theorem readi_inside {d : Dinode} (hk : mem.user = false) (h : NoHoles s d) (hsize : d.size ≤ maxfile * bsize)
    (hle : off + n ≤ d.size) (hdst : dst + n < 2 ^ 64) :
    readi ⟨d, i⟩ mem dst off n s =
      .ok (n, mem.put dst n fun j => byteAt s d (off + j), ⟨d, i⟩, s) := by
  have hsmall : maxfile * bsize < 2 ^ 31 := by decide
  have h32 : uint32 (off + n) = off + n := by
    unfold uint32
    omega
  unfold readi
  dsimp only
  rw [h32, if_neg (by omega), if_neg (by omega)]
  exact readLoop_kernel n hk h hsize le_rfl (Nat.zero_le _) hle hdst

/-- Every `readi` into the memory of the kernel answers from `c`. -/
def Reads (s : Store) (ip : Inode) (c : List UInt8) : Prop :=
  ∀ (mem : Memory) (dst off n : ℕ), mem.user = false → n < 2 ^ 32 → dst + n < 2 ^ 64 →
    readi ip mem dst off n s =
      if off ≤ c.length ∧ off + n < 2 ^ 32 then
        .ok ((min n (c.length - off) : ℕ), mem.store dst (readBytes c off n), ip, s)
      else .ok (0, mem, ip, s)

/-- A file cannot read as two arrays. -/
theorem Reads.unique {c c' : List UInt8} (h : Reads s ip c) (h' : Reads s ip c') (hlength : c.length = c'.length)
    {x : ℕ} (hx : x < c.length) (hmax : x + 1 < 2 ^ 32) : c.getD x 0 = c'.getD x 0 := by
  have hread := h ⟨false, fun _ => true, fun _ => 0⟩ 0 x 1 rfl (by decide) (by decide)
  rw [h' _ _ _ _ rfl (by decide) (by decide), if_pos ⟨by omega, hmax⟩, if_pos ⟨by omega, hmax⟩] at hread
  have hbyte := congrArg (fun r => r.2.1.byte (0 + 0)) (Except.ok.inj hread)
  have hone : ∀ {c : List UInt8}, x < c.length → (readBytes c x 1).length = 1 ∧ (readBytes c x 1).getD 0 0 = c.getD x 0 := by
    intro c hc
    grind [readBytes]
  obtain ⟨hlen, hget⟩ := hone hx
  obtain ⟨hlen', hget'⟩ := hone (hlength ▸ hx)
  dsimp only at hbyte
  rw [Memory.store_byte (by omega), Memory.store_byte (by omega), hget, hget'] at hbyte
  exact hbyte.symm

theorem reads_contents (h : NoHoles s ip.toDinode) (hsize : ip.size ≤ maxfile * bsize) :
    Reads s ip (contents s ip.toDinode) := by
  intro mem dst off n hk hn hdst
  rw [readi_kernel hk h hsize hn hdst, length_contents]

theorem Consistent.reads (h : Consistent s node) (hip : node ip.inum = ip.toDinode)
    (hi : Allocated s node ip.inum) : Reads s ip (contents s ip.toDinode) := by
  grind [reads_contents, Consistent.noHoles, Consistent.size]

/-! ### Writing -/

def Memory.bytes (mem : Memory) (addr n : ℕ) : List UInt8 := (List.range n).map (mem.from addr)

/-- An array with `w` in place of what is there from `off` on. -/
def overwrite (c : List UInt8) (off : ℕ) (w : List UInt8) : List UInt8 :=
  c.take off ++ w ++ c.drop (off + w.length)

theorem length_overwrite {d : Dinode} (hoff : off ≤ d.size) :
    (overwrite (contents s d) off (mem.bytes addr n)).length = max d.size (off + n) := by
  simp only [overwrite, Memory.bytes, List.length_append, List.length_take, List.length_drop,
    List.length_map, List.length_range, length_contents]
  omega

theorem getD_contents {d : Dinode} {x : ℕ} (hx : x < d.size) : (contents s d).getD x 0 = byteAt s d x := by
  simp [contents, hx]

theorem getD_overwrite {d : Dinode} {x : ℕ} (hoff : off ≤ d.size) (hlo : off + n ≤ x) (hx : x < d.size) :
    (overwrite (contents s d) off (mem.bytes addr n)).getD x 0 = byteAt s d x := by
  have hw : (mem.bytes addr n).length = n := by simp [Memory.bytes]
  have hlen := length_contents s d
  rw [← getD_contents hx]
  unfold overwrite
  grind

theorem overwrite_contents (s' : Store) {d : Dinode} (d' : Dinode) (hoff : off ≤ d.size) (hsize : d'.size = max d.size (off + n))
    (hbytes : ∀ x < d'.size, byteAt s' d' x =
      if off ≤ x ∧ x < off + n then mem.from addr (x - off) else byteAt s d x) :
    contents s' d' = overwrite (contents s d) off (mem.bytes addr n) := by
  have hlength : (overwrite (contents s d) off (mem.bytes addr n)).length = d'.size :=
    (length_overwrite hoff).trans hsize.symm
  apply List.ext_getElem
  · rw [hlength, length_contents]
  · intro x hx hx'
    rw [length_contents] at hx
    have hmin : min off d.size = off := by omega
    simp only [contents, overwrite, Memory.bytes, List.getElem_map, List.getElem_range,
      List.getElem_append, List.getElem_take, List.getElem_drop, List.length_append, List.length_take,
      List.length_map, List.length_range, hbytes x hx, hmin]
    grind

namespace Written

variable {r : ℤ × Inode × Store}

section
variable (h : Written mem n off addr s node ip r len extra)
include h

theorem inum : r.2.1.inum = ip.inum := by
  rw [h.inode]

theorem size : r.2.1.size = max ip.size (off + len) := by
  rw [h.inode]

theorem allocated (hj : Allocated s (view node ip) j) : Allocated r.2.2 (view node r.2.1) j := by
  refine ⟨h.sb ▸ hj.1, ?_⟩
  by_cases hji : j = ip.inum
  · have htype : r.2.1.type = ip.type := by rw [h.inode]
    have hj := hj.2
    grind [view_self, Written.inum]
  · rw [view_of_ne (h.inum ▸ hji)]
    have hj := hj.2
    rwa [view_of_ne hji] at hj

theorem extra_eq_zero (hk : mem.user = false) : extra = 0 := by
  by_contra hextra
  exact (h.stopped hextra).2.2 fun hu => absurd hu (by rw [hk]; decide)

end

/-- A write from the memory of the kernel stops short only behind the end of the file. -/
theorem size_le (h : Written mem n off addr s node ip r len 0) (hi : Allocated s (view node ip) ip.inum)
    (hk : mem.user = false) (hlt : len < n) : ip.size ≤ off + len := by
  have hhole : blockOf r.2.2 r.2.1.toDinode ((off + len) / bsize) = 0 :=
    (h.ended rfl hlt).resolve_left fun hnot => hnot fun hu => absurd hu (by rw [hk]; decide)
  have hi' : Allocated r.2.2 (view node r.2.1) r.2.1.inum := h.inum ▸ h.allocated hi
  by_contra hgt
  refine h.consistent.noHoles _ hi' ((off + len) / bsize) ?_ (by rwa [view_self])
  have hsize := h.size
  have hstart := Nat.div_mul_le_self (off + len) bsize
  rw [view_self]
  omega

/-- The bytes that were not counted are in the file, up to its end. -/
theorem byteAt_eq (h : Written mem n off addr s node ip r len extra) (hi : Allocated s (view node ip) ip.inum)
    {x : ℕ} (hx : x < r.2.1.size) : byteAt r.2.2 r.2.1.toDinode x =
      if off ≤ x ∧ x < off + (len + extra) then mem.from addr (x - off) else byteAt s ip.toDinode x := by
  have hmax := h.consistent.size _ (h.inum ▸ h.allocated hi : Allocated r.2.2 (view node r.2.1) r.2.1.inum)
  rw [view_self] at hmax
  have hbytes := h.bytes ip.inum hi x (by omega)
  grind [Written.inum, view_self]

theorem reads_iff (h : Written mem n off addr s node ip r len extra) (hi : Allocated s (view node ip) ip.inum)
    (hoff : off ≤ ip.size) :
    Reads r.2.2 r.2.1 (overwrite (contents s ip.toDinode) off (mem.bytes addr len)) ↔
      ∀ x < ip.size, off + len ≤ x → x < off + (len + extra) → mem.from addr (x - off) = byteAt s ip.toDinode x := by
  have hi' : Allocated r.2.2 (view node r.2.1) r.2.1.inum := h.inum ▸ h.allocated hi
  have hreads := h.consistent.reads (view_self ..) hi'
  have hsize := h.size
  have hlength : (overwrite (contents s ip.toDinode) off (mem.bytes addr len)).length = r.2.1.size := by
    rw [length_overwrite hoff, hsize]
  constructor
  · intro hover x hx hlo hhi
    have hx' : x < r.2.1.size := by omega
    have hmax := h.consistent.size _ hi'
    rw [view_self] at hmax
    have hsame := hover.unique hreads (hlength.trans (length_contents ..).symm) (hlength ▸ hx')
      (lt_of_lt_of_le (Nat.succ_lt_succ (hx'.trans_le hmax)) (by decide))
    rw [getD_overwrite hoff hlo hx, getD_contents hx', h.byteAt_eq hi hx', if_pos ⟨by omega, hhi⟩] at hsame
    exact hsame.symm
  · intro hsame
    rw [← overwrite_contents r.2.2 r.2.1.toDinode hoff hsize]
    · exact hreads
    · intro x hx
      rw [h.byteAt_eq hi hx]
      grind

theorem reads (h : Written mem n off addr s node ip r len 0) (hi : Allocated s (view node ip) ip.inum)
    (hoff : off ≤ ip.size) :
    Reads r.2.2 r.2.1 (overwrite (contents s ip.toDinode) off (mem.bytes addr len)) :=
  (h.reads_iff hi hoff).mpr fun x _ hlo hhi => by omega

theorem reads_other (h : Written mem n off addr s node ip r len extra)
    (hc : Consistent s (view node ip)) (hjp : node jp.inum = jp.toDinode)
    (hj : Allocated s (view node ip) jp.inum) (hne : jp.inum ≠ ip.inum) :
    Reads r.2.2 jp (contents s jp.toDinode) := by
  have hold : view node ip jp.inum = jp.toDinode := by rw [view_of_ne hne, hjp]
  have hnew : view node r.2.1 jp.inum = jp.toDinode := by rw [view_of_ne (h.inum ▸ hne), hjp]
  have hmax := hc.size _ hj
  rw [hold] at hmax
  have hsame : contents r.2.2 jp.toDinode = contents s jp.toDinode := by
    apply List.map_congr_left
    intro x hx
    have hbytes := h.bytes jp.inum hj x (by have := List.mem_range.mp hx; omega)
    grind
  rw [← hsame]
  exact h.consistent.reads hnew (h.allocated hj)

end Written

theorem view_dinode (hip : s.dinode ip.inum = ip.toDinode) : view s.dinode ip = s.dinode := by
  rw [view, ← hip]
  exact update_eq_self ..

/-- **Files refine arrays of bytes.** On a consistent disk, an inode that is in memory as on the disk
reads as its contents. After a `writei` from the memory of the kernel that returns all that it was to
write, the file is as long as it has to be and reads as the same array with the bytes of the source in
it. All other files read as before. -/
theorem writei_overwrites (s : Store) (ip : Inode) (h : Consistent s s.dinode)
    (hip : s.dinode ip.inum = ip.toDinode) (hi : Allocated s s.dinode ip.inum) :
    Reads s ip (contents s ip.toDinode) ∧
    ∀ (mem : Memory) (src off n : ℕ), mem.user = false → src < 2 ^ 64 → off ≤ ip.size →
      off + n ≤ maxfile * bsize →
      ∃ r ip' s', writei ip mem src off n s = .ok (r, ip', s') ∧ (r = n →
        ip'.size = max ip.size (off + n) ∧
        s'.dinode = update s.dinode ip.inum ip'.toDinode ∧ Consistent s' s'.dinode ∧
        Reads s' ip' (overwrite (contents s ip.toDinode) off (mem.bytes src n)) ∧
        ∀ jp : Inode, s.dinode jp.inum = jp.toDinode → Allocated s s.dinode jp.inum →
          jp.inum ≠ ip.inum → Reads s' jp (contents s jp.toDinode)) := by
  refine ⟨h.reads hip hi, fun mem src off n hk hsrc hoff hn => ?_⟩
  have hn32 : n < 2 ^ 32 := by
    unfold maxfile ndirect nindirect bsize at hn
    omega
  rw [← view_dinode hip] at h hi
  obtain ⟨⟨r, ip', s'⟩, hr, hcases⟩ := Outcome.total.mp (h.writei hi hsrc hn32)
  refine ⟨r, ip', s', hr, fun hrn => ?_⟩
  rcases hcases with ⟨-, hbad⟩ | ⟨-, -, len, extra, hw⟩
  · omega
  have hlen : len = n := by
    have := hw.counted
    omega
  obtain rfl := hw.extra_eq_zero hk
  subst hlen
  have hdinode := hw.dinode
  have hnode : view s.dinode ip' = s'.dinode := by
    rw [hdinode, view, hw.inum]
  refine ⟨hw.size, hdinode, hnode ▸ hw.consistent, hw.reads hi hoff, ?_⟩
  intro jp hjp hj hne
  rw [← view_dinode hip] at hj
  exact hw.reads_other h hjp hj hne

/-! A small disk: the root directory has the entry `a`, which is a file of one block. -/

def sampleRoot : Bytes := fun j =>
  [1, 0, 46, 0, 0, 0, 0, 0, 0, 0, 0, 0, 0, 0, 0, 0,
    1, 0, 46, 46, 0, 0, 0, 0, 0, 0, 0, 0, 0, 0, 0, 0,
    2, 0, 97, 0, 0, 0, 0, 0, 0, 0, 0, 0, 0, 0, 0, 0].getD j 0

def sampleDisk : Store where
  sb := mkfsSuperblock
  block := fun b =>
    if b = 46 then fun j => if j < 6 then 255 else if j = 6 then 1 else 0
    else if b = 47 then sampleRoot
    else fun _ => 0
  dinode := fun i =>
    if i = 1 then ⟨.dir, 0, 0, 1, 48, fun k => if k = 0 then 47 else 0⟩
    else if i = 2 then ⟨.file, 0, 0, 1, 1024, fun k => if k = 0 then 48 else 0⟩
    else .zero
  logged := []
  ops := []

theorem sampleDisk_allocated : Allocated sampleDisk sampleDisk.dinode i ↔ i = 1 ∨ i = 2 := by
  unfold Allocated sampleDisk Dinode.zero mkfsSuperblock
  grind

theorem sampleDisk_used {b : ℕ} (hb : b < 2000) : Used sampleDisk b ↔ b < 49 := by
  have hfull : ∀ k < 8, (255 : UInt8) &&& Bytes.mask k ≠ 0 := by decide
  have hfirst : ∀ k < 8, (1 : UInt8) &&& Bytes.mask k ≠ 0 ↔ k = 0 := by decide
  have hblock : bblock sampleDisk.sb b = 46 := by
    show b / 8192 + 46 = 46
    omega
  have hmod : b % bpb = b := Nat.mod_eq_of_lt (show b < 8192 by omega)
  have hk : b % 8 < 8 := Nat.mod_lt _ (by decide)
  unfold Used Bytes.bit
  rw [hblock, hmod]
  show (if b / 8 < 6 then (255 : UInt8) else if b / 8 = 6 then 1 else 0) &&& _ ≠ 0 ↔ _
  split
  · exact iff_of_true (hfull _ hk) (by omega)
  split
  · rw [hfirst _ hk]
    omega
  · exact iff_of_false (by simp) (by omega)

theorem addrOf_single {d : Dinode} {b : ℕ} (h : d.addrs = fun k => if k = 0 then b else 0) (k : ℕ) :
    addrOf s d k = if k = 0 then b else 0 := by
  unfold addrOf
  rw [h]
  by_cases hk : k ≤ ndirect
  · rw [if_pos hk]
  · rw [if_neg hk, if_pos (.inl rfl), if_neg (by omega)]

theorem sampleDisk_place (p : ℕ × ℕ) : place sampleDisk sampleDisk.dinode p =
    if p = (1, 0) then 47 else if p = (2, 0) then 48 else 0 := by
  obtain ⟨i, k⟩ := p
  unfold place
  simp only [Prod.mk.injEq]
  by_cases hi : Allocated sampleDisk sampleDisk.dinode i
  · rw [if_pos hi]
    rcases sampleDisk_allocated.mp hi with rfl | rfl
    · rw [addrOf_single (b := 47) rfl]
      simp
    · rw [addrOf_single (b := 48) rfl]
      simp
  · have hne := sampleDisk_allocated.not.mp hi
    rw [if_neg hi, if_neg (by omega), if_neg (by omega)]

theorem sampleDisk_consistent : Consistent sampleDisk sampleDisk.dinode where
  layout := ⟨by decide, fun b (hb : b < 2000) => by
    show b / 8192 + 46 < 47
    omega, by decide⟩
  owners := by
    constructor
    · grind [sampleDisk_place]
    · intro b
      constructor
      · rintro ⟨hlow : 47 ≤ b, hhigh, hused⟩
        have hlt := (sampleDisk_used hhigh).mp hused
        refine ⟨by omega, if b = 47 then (1, 0) else (2, 0), ?_⟩
        grind [sampleDisk_place]
      · rintro ⟨hb, p, hp⟩
        rw [sampleDisk_place] at hp
        obtain rfl | rfl : b = 47 ∨ b = 48 := by
          split_ifs at hp <;> omega
        · exact ⟨by decide, by decide, by decide⟩
        · exact ⟨by decide, by decide, by decide⟩
  metadata := by
    intro b (hb : b < 47)
    exact (sampleDisk_used (by omega)).mpr (by omega)
  noHoles := by
    intro i hi bn hbn
    obtain rfl : bn = 0 := by
      rcases sampleDisk_allocated.mp hi with rfl | rfl
      · replace hbn : bn * 1024 < 48 := hbn
        omega
      · replace hbn : bn * 1024 < 1024 := hbn
        omega
    rcases sampleDisk_allocated.mp hi with rfl | rfl <;> decide
  size := by
    intro i hi
    rcases sampleDisk_allocated.mp hi with rfl | rfl <;> decide

/-- The file `a` of the small disk, in memory. -/
def sampleFile : Inode := ⟨sampleDisk.dinode 2, 2⟩

/-- Half a block is written into the middle of a file of one block. -/
theorem writei_overwrites_half :
    ∃ ip' s', writei sampleFile ⟨false, fun _ => true, fun _ => 7⟩ 0 256 512 sampleDisk =
        .ok (512, ip', s') ∧ ip'.size = 1024 ∧
      Reads s' ip' (overwrite (contents sampleDisk sampleFile.toDinode) 256
        (Memory.bytes ⟨false, fun _ => true, fun _ => 7⟩ 0 512)) := by
  obtain ⟨r, ip', s', hr, hw⟩ := (writei_overwrites sampleDisk sampleFile sampleDisk_consistent rfl
    (sampleDisk_allocated.mpr (.inr rfl))).2 ⟨false, fun _ => true, fun _ => 7⟩ 0 256 512 rfl
    (by decide) (by decide) (by decide)
  have hall : (writei sampleFile ⟨false, fun _ => true, fun _ => 7⟩ 0 256 512 sampleDisk).map Prod.fst =
      .ok 512 := rfl
  obtain rfl : r = 512 := by
    rw [hr] at hall
    exact Except.ok.inj hall
  exact ⟨ip', s', hr, (hw rfl).1, (hw rfl).2.2.2.1⟩

/-! ### Copies that fail -/

end Xv6.Fs
