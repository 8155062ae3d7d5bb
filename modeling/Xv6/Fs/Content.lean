import Xv6.Fs.File
import Xv6.Fs.Owned

/-! What `writei` does to the bytes of the files.

A consistent disk is one on which every block is owned and no file has a hole. There `writei` changes
the bytes that it is to write, makes the file longer if it has to, and leaves all other files alone
(`Consistent.writei`). If the copy from the process stops in the middle of a block, then the bytes
that were copied to the buffer before are in the file too, although `writei` does not count them and
does not log the buffer. -/
namespace Xv6.Fs
open Function

variable {s s' s'' : Store} {node node' node'' : ℕ → Dinode} {ip : Inode} {mem : Memory}
  {data src : Bytes} {E : Panic → Prop} {i j k b x n off len pos bn tot dst addr : ℕ}

structure Consistent (s : Store) (node : ℕ → Dinode) : Prop extends Owned s node where
  noHoles : ∀ i, Allocated s node i → NoHoles s (node i)
  size : ∀ i, Allocated s node i → (node i).size ≤ maxfile * bsize

theorem index_lt (h : x < maxfile * bsize) : x / bsize < maxfile :=
  Nat.div_lt_of_lt_mul (by rw [mul_comm]; exact h)

/-! ### Copying -/

def Memory.from (mem : Memory) (addr : ℕ) : Bytes := fun j => mem.byte (uint64 (addr + j))

/-- A copy can read the byte at an address. -/
def Memory.Readable (mem : Memory) (addr : ℕ) : Prop :=
  mem.user = true → mem.page (uint64 addr / pgsize) = true
deriving Decidable

theorem Memory.from_add (mem : Memory) (addr m j : ℕ) :
    mem.from (uint64 (addr + m)) j = mem.from addr (m + j) := by
  unfold Memory.from uint64
  congr 1
  omega

theorem Memory.readable_add (mem : Memory) (addr m j : ℕ) :
    mem.Readable (uint64 (addr + m) + j) ↔ mem.Readable (addr + (m + j)) := by
  grind [uint64, Memory.Readable]

/-- `k` bytes are copied: all of them, or those before the first that cannot be read. -/
structure Copied (mem : Memory) (data : Bytes) (pos addr len : ℕ) (r : Bool × Bytes) (k : ℕ) :
    Prop where
  le : k ≤ len
  data : r.2 = data.copy pos k (mem.from addr)
  readable : ∀ j < k, mem.Readable (addr + j)
  all : r.1 = true → k = len
  stopped : r.1 = false → k < len ∧ ¬ mem.Readable (addr + k)

theorem Copied.append {m : ℕ} {r : Bool × Bytes} (hm : m ≤ len) (hread : ∀ j < m, mem.Readable (addr + j))
    (h : Copied mem (data.copy pos m (mem.from addr)) (pos + m) (uint64 (addr + m)) (len - m) r k) :
    Copied mem data pos addr len r (m + k) := by
  have hle := h.le
  refine ⟨by omega, ?_, fun j hj => ?_, fun hr => ?_, fun hr => ?_⟩
  · have hfrom : mem.from (uint64 (addr + m)) = fun j => mem.from addr (m + j) :=
      funext fun j => mem.from_add addr m j
    rw [h.data, hfrom, Bytes.copy_copy]
  · by_cases hjm : j < m
    · exact hread j hjm
    · have hrest := h.readable (j - m) (by omega)
      rwa [mem.readable_add, Nat.add_sub_of_le (by omega)] at hrest
  · have := h.all hr
    omega
  · obtain ⟨hlt, hstop⟩ := h.stopped hr
    rw [mem.readable_add] at hstop
    exact ⟨by omega, hstop⟩

theorem copyinLoop_zero (fuel : ℕ) : copyinLoop mem fuel data pos addr 0 = (true, data) := by
  cases fuel with
  | zero => rfl
  | succ fuel => exact if_neg (Nat.lt_irrefl 0)

theorem copyinLoop_copied (fuel : ℕ) (hu : mem.user = true) (hf : len ≤ fuel) (ha : addr < 2 ^ 64) :
    ∃ k, Copied mem data pos addr len (copyinLoop mem fuel data pos addr len) k := by
  induction fuel generalizing data pos addr len with
  | zero =>
    obtain rfl : len = 0 := by omega
    exact ⟨0, le_rfl, by simp [copyinLoop], by simp, fun _ => rfl, nofun⟩
  | succ fuel ih =>
    unfold copyinLoop
    by_cases hlen : 0 < len
    · rw [if_pos hlen]
      dsimp only
      have hmod : addr % pgsize < pgsize := Nat.mod_lt _ (by decide)
      have hround : addr - (addr - addr % pgsize) = addr % pgsize := by
        have := Nat.mod_le addr pgsize
        omega
      -- The bytes up to the end of the page.
      have hpage : ∀ j < pgsize - addr % pgsize, uint64 (addr + j) = addr + j ∧
          (addr + j) / pgsize = (addr - addr % pgsize) / pgsize := by
        unfold uint64 pgsize at *
        omega
      have hread : ∀ j < pgsize - addr % pgsize,
          (mem.Readable (addr + j) ↔ mem.page ((addr - addr % pgsize) / pgsize) = true) := by
        intro j hj
        obtain ⟨h64, hdiv⟩ := hpage j hj
        unfold Memory.Readable
        rw [← Nat.cast_add] at h64
        rw [h64, hdiv]
        simp [hu]
      rw [hround]
      by_cases hp : mem.page ((addr - addr % pgsize) / pgsize) = true
      · rw [if_pos hp]
        generalize hm : min (pgsize - addr % pgsize) len = m
        have hfrom : data.copy pos m (fun j => mem.byte (addr + j)) = data.copy pos m (mem.from addr) := by
          apply Bytes.copy_congr
          intro j hj
          unfold Memory.from
          rw [(hpage j (by omega)).1]
        have hnext : len - m ≠ 0 → uint64 ((addr - addr % pgsize : ℕ) + (pgsize : ℕ)) = uint64 (addr + m) := by
          intro hne
          congr 1
          omega
        have hsome : ∀ j < m, mem.Readable (addr + j) := fun j hj => (hread j (by omega)).mpr hp
        rw [hfrom]
        by_cases hlast : len - m = 0
        · rw [hlast, copyinLoop_zero]
          obtain rfl : m = len := by omega
          exact ⟨m, le_rfl, rfl, hsome, fun _ => rfl, nofun⟩
        · rw [hnext hlast]
          have h64 : uint64 (addr + m) < 2 ^ 64 := by
            unfold uint64
            omega
          have hpos : 0 < pgsize - addr % pgsize := by omega
          obtain ⟨k, hk⟩ := ih (show len - m ≤ fuel by omega) h64
          exact ⟨m + k, hk.append (by omega) hsome⟩
      · rw [if_neg hp]
        refine ⟨0, Nat.zero_le _, by simp, by simp, nofun, fun _ => ⟨hlen, ?_⟩⟩
        rw [hread 0 (by omega)]
        exact hp
    · rw [if_neg hlen]
      obtain rfl : len = 0 := by omega
      exact ⟨0, le_rfl, by simp, by simp, fun _ => rfl, nofun⟩

theorem eitherCopyin_copied (mem : Memory) (data : Bytes) (pos len : ℕ) (ha : addr < 2 ^ 64) :
    ∃ k, Copied mem data pos addr len (eitherCopyin mem data pos addr len) k := by
  unfold eitherCopyin
  split
  · rename_i hu
    exact copyinLoop_copied len hu le_rfl ha
  · rename_i hu
    exact ⟨len, le_rfl, rfl, fun j _ hu' => absurd hu' hu, fun _ => rfl, nofun⟩

/-! ### Writing -/

/-- `len` bytes of inode `i` from `off` on are those of `src` now; its blocks may have become more, and
nothing else has changed. -/
structure Wrote (i off len : ℕ) (src : Bytes) (s : Store) (node : ℕ → Dinode) (s' : Store)
    (node' : ℕ → Dinode) : Prop extends Keeps i s node s' node' where
  bytes : ∀ j, Allocated s node j → ∀ x < maxfile * bsize, byteAt s' (node' j) x =
    if j = i ∧ off ≤ x ∧ x < off + len then src (x - off) else byteAt s (node j) x
  mapped : ∀ x < maxfile * bsize, off ≤ x → x < off + len → blockOf s' (node' i) (x / bsize) ≠ 0

namespace Wrote

theorem append {m : ℕ} (h : Wrote i off len src s node s' node') (hi : Allocated s node i)
    (h' : Wrote i (off + len) m (fun j => src (len + j)) s' node' s'' node'') :
    Wrote i off (len + m) src s node s'' node'' := by
  refine ⟨h.toKeeps.trans h'.toKeeps, fun j hj x hx => ?_, fun x hx hle hlt => ?_⟩
  · rw [h'.bytes j (h.allocated.mpr hj) x hx, h.bytes j hj x hx]
    grind
  · by_cases hlow : x < off + len
    · have hmapped := h.mapped x hx hle hlow
      rw [h'.kept i (h.allocated.mpr hi) _ (index_lt hx) hmapped]
      exact hmapped
    · exact h'.mapped x hx (by omega) (by omega)

theorem of_extends (h : Extends i s node s' node') (off : ℕ) (src : Bytes) :
    Wrote i off 0 src s node s' node' := by
  refine ⟨h.toKeeps, fun j hj x hx => ?_, fun x _ hle hlt => ?_⟩
  · rw [if_neg (by omega)]
    exact h.bytes j hj x hx
  · omega

theorem congr (h : Wrote i off len src s node s' node') (hsb : s''.sb = s'.sb)
    (hblock : s''.block = s'.block) : Wrote i off len src s node s'' node' := by
  have hof : ∀ d bn, blockOf s'' d bn = blockOf s' d bn := fun d bn => by rw [blockOf, hblock]; rfl
  refine ⟨⟨h.owned.congr hsb hblock, hsb.trans h.sb, h.fields, h.others, fun j hj bn hbn hne => ?_⟩,
    fun j hj x hx => ?_, fun x hx hle hlt => ?_⟩
  · rw [hof]
    exact h.kept j hj bn hbn hne
  · rw [byteAt, hof, hblock]
    exact h.bytes j hj x hx
  · rw [hof]
    exact h.mapped x hx hle hlt

end Wrote

theorem Owned.setData (h : Owned s node) (hi : Allocated s node i) (hbn : bn < maxfile)
    (hb : blockOf s (node i) bn = b) (hb0 : b ≠ 0) (hpos : pos + k ≤ bsize) (src : Bytes) :
    Wrote i (bn * bsize + pos) k src s node (s.setBlock b ((s.block b).copy pos k src)) node := by
  have haddr : addrOf s (node i) (indexOf bn) = b := by rw [← blockOf_eq hbn, hb]
  have hu := h.dataUsed hi (k := indexOf bn) (haddr ▸ hb0)
  rw [haddr] at hu
  have hself : (s.setBlock b ((s.block b).copy pos k src)).block b = (s.block b).copy pos k src :=
    update_self ..
  have hne : ∀ {x}, x ≠ b → (s.setBlock b ((s.block b).copy pos k src)).block x = s.block x :=
    fun hx => update_of_ne hx _ _
  -- The block is in no other place, and is not an indirect block.
  have honce : ∀ j l, Allocated s node j → addrOf s (node j) l = b → j = i ∧ l = indexOf bn :=
    fun j l hj hl => h.once hj hi (hl ▸ hb0) (hl.trans haddr.symm)
  have haddrs : ∀ j l, Allocated s node j →
      addrOf (s.setBlock b ((s.block b).copy pos k src)) (node j) l = addrOf s (node j) l := by
    intro j l hj
    apply addrOf_congr
    intro _
    apply hne
    intro heq
    exact indexOf_ne bn (honce j ndirect hj ((addrOf_direct le_rfl).trans heq)).2.symm
  have hof : ∀ j bn', Allocated s node j → bn' < maxfile →
      blockOf (s.setBlock b ((s.block b).copy pos k src)) (node j) bn' = blockOf s (node j) bn' := by
    intro j bn' hj hbn'
    rw [blockOf_eq hbn', blockOf_eq hbn', haddrs j _ hj]
  have hused : ∀ c < s.sb.size,
      (Used (s.setBlock b ((s.block b).copy pos k src)) c ↔ Used s c) :=
    fun c hc => used_setBlock h.layout hu.1 hc
  refine ⟨⟨⟨h.layout, h.owners.congr (fun p => ?_) fun c => ?_, fun c hc => ?_⟩, rfl, rfl,
    fun _ _ => rfl, fun j hj bn' hbn' _ => hof j bn' hj hbn'⟩, fun j hj x hx => ?_, fun x hx hle hlt => ?_⟩
  · exact place_congr Iff.rfl fun hp => haddrs p.1 p.2 hp
  · exact and_congr_right fun _ => and_congr_right fun hc => hused c hc
  · exact (hused c (metadata_lt h.layout hc)).mpr (h.metadata c hc)
  · have hbn' := index_lt hx
    unfold byteAt
    rw [hof j _ hj hbn']
    by_cases hsame : blockOf s (node j) (x / bsize) = b
    · -- The block that is written to.
      obtain ⟨rfl, hl⟩ := honce j _ hj ((blockOf_eq hbn').symm.trans hsame)
      obtain rfl := indexOf_injective hl
      have hoff : x / bsize * bsize + x % bsize = x := by
        rw [mul_comm]
        exact Nat.div_add_mod x bsize
      rw [hsame, if_neg hb0, if_neg hb0, hself]
      unfold Bytes.copy
      grind
    · have hout : ¬ (j = i ∧ bn * bsize + pos ≤ x ∧ x < bn * bsize + pos + k) := by
        rintro ⟨rfl, hle, hlt⟩
        have hdiv : x / bsize = bn := by
          unfold bsize at *
          omega
        exact hsame (hdiv ▸ hb)
      rw [if_neg hout]
      split
      · rfl
      · rw [hne hsame]
  · grind [bsize]

theorem Extends.wrote (h : Extends i s node s' node') (hi : Allocated s node i)
    (h' : Wrote i off len src s' node' s'' node'') : Wrote i off len src s node s'' node'' := by
  have happ := (Wrote.of_extends h off src).append hi (m := len) (by simpa using h')
  rwa [Nat.zero_add] at happ

/-- What the loop of `writei` does: `len` bytes are written and counted, and `extra` bytes of the
block in which the copy failed are written and not counted. -/
structure LoopWrote (mem : Memory) (n tot off addr : ℕ) (s : Store) (node : ℕ → Dinode) (ip : Inode)
    (r : ℕ × ℕ × Inode × Store) (len extra : ℕ) : Prop where
  counted : r.1 = tot + len
  position : r.2.1 = off + len
  within : len + extra ≤ n - tot
  wrote : Wrote ip.inum off (len + extra) (mem.from addr) s (view node ip) r.2.2.2 (view node r.2.2.1)
  addrs : MoreAddrs ip r.2.2.1
  dinode : r.2.2.2.dinode = s.dinode
  ops : r.2.2.2.ops = s.ops
  readable : ∀ j < len + extra, mem.Readable (addr + j)
  /-- The copy failed inside a block. -/
  stopped : extra ≠ 0 → (off + len + extra) % bsize ≠ 0 ∧ len + extra < n - tot ∧
    ¬ mem.Readable (addr + (len + extra))
  /-- It stops where a block begins. -/
  whole : len < n - tot → len = 0 ∨ (off + len) % bsize = 0
  /-- The first byte of the block cannot be read, or there is no block. -/
  ended : extra = 0 → len < n - tot →
    ¬ mem.Readable (addr + len) ∨ blockOf r.2.2.2 r.2.2.1.toDinode ((off + len) / bsize) = 0
  logged : extra = 0 → LogsChanges s r.2.2.2
  torn : extra ≠ 0 → LogsBut (blockOf r.2.2.2 r.2.2.1.toDinode ((off + len) / bsize)) s r.2.2.2

namespace LoopWrote

variable {ip' : Inode} {r : ℕ × ℕ × Inode × Store} {m extra : ℕ}

theorem none (hext : Extends ip.inum s (view node ip) s' (view node ip')) (hmore : MoreAddrs ip ip')
    (honly : OnlyBlocks s s') (hlog : LogsChanges s s')
    (hend : tot < n → blockOf s' ip'.toDinode (off / bsize) = 0) :
    LoopWrote mem n tot off addr s node ip (tot, off, ip', s') 0 0 :=
  ⟨rfl, rfl, Nat.zero_le _, .of_extends hext _ _, hmore, honly.dinode, honly.ops, by simp,
    fun hne => absurd rfl hne, fun _ => .inl rfl, fun _ hlt => .inr (hend (by omega)), fun _ => hlog,
    fun hne => absurd rfl hne⟩

theorem append (hi : Allocated s (view node ip) ip.inum) (hmore : MoreAddrs ip ip')
    (hdinode : s'.dinode = s.dinode) (hops : s'.ops = s.ops) (hlog : LogsChanges s s') (hm : m ≤ n - tot)
    (hround : m < n - tot → (off + m) % bsize = 0) (hread : ∀ j < m, mem.Readable (addr + j))
    (hw : Wrote ip.inum off m (mem.from addr) s (view node ip) s' (view node ip'))
    (h : LoopWrote mem n (tot + m) (off + m) (uint64 (addr + m)) s' node ip' r len extra) :
    LoopWrote mem n tot off addr s node ip r (m + len) extra := by
  have hwithin := h.within
  have hrest := h.wrote
  have hfrom : mem.from (uint64 (addr + m)) = fun j => mem.from addr (m + j) :=
    funext fun j => mem.from_add addr m j
  rw [hmore.inum, hfrom] at hrest
  refine ⟨by rw [h.counted, Nat.add_assoc], by rw [h.position, Nat.add_assoc], by omega, ?_,
    hmore.trans h.addrs, h.dinode.trans hdinode, h.ops.trans hops, fun j hj => ?_, fun hne => ?_,
    fun hlt => ?_, fun h0 hlt => ?_, fun h0 => hlog.trans (h.logged h0) hw.sb, fun hne => ?_⟩
  · rw [Nat.add_assoc]
    exact hw.append hi hrest
  · by_cases hjm : j < m
    · exact hread j hjm
    · have hr := h.readable (j - m) (by omega)
      rwa [mem.readable_add, Nat.add_sub_of_le (by omega)] at hr
  · obtain ⟨hmod, hlt, hstop⟩ := h.stopped hne
    grind [Memory.readable_add, mem.readable_add, Nat.add_assoc]
  · grind [LoopWrote.whole, Nat.add_assoc]
  · have hended := h.ended h0 (by omega)
    rwa [mem.readable_add, Nat.add_assoc] at hended
  · obtain ⟨s1, data, hs1, heq⟩ := h.torn hne
    rw [Nat.add_assoc] at heq
    exact ⟨s1, data, hlog.trans hs1 hw.sb, heq⟩

end LoopWrote

theorem Owned.writeLoop (fuel : ℕ) (h : Owned s (view node ip))
    (hi : Allocated s (view node ip) ip.inum) (ha : addr < 2 ^ 64) (hfuel : n - tot ≤ fuel)
    (hfit : off + (n - tot) ≤ maxfile * bsize) :
    Outcome E (writeLoop mem n fuel tot off addr ip s) fun r =>
      ∃ len extra, LoopWrote mem n tot off addr s node ip r len extra := by
  induction fuel generalizing tot off addr ip s with
  | zero => exact ⟨0, 0, .none (.refl h _) (.refl ip) (.refl s) (.refl s) fun hlt => by omega⟩
  | succ fuel ih =>
    unfold Fs.writeLoop
    by_cases hlt : tot < n
    · rw [if_pos hlt]
      have hbn : off / bsize < maxfile := index_lt (by omega)
      refine (((h.bmap hi hbn).and (bmap_frame ip hbn s)).and (LogsChanges.bmap ip hbn s)).bind ?_
      rintro ⟨b, ip1, s1⟩ ⟨⟨⟨hext, hb⟩, honly, hmore, _⟩, hlog⟩
      have hinum : ip1.inum = ip.inum := hmore.inum
      dsimp only at hb ⊢
      by_cases h0 : b = 0
      · rw [if_pos h0]
        exact ⟨0, 0, .none hext hmore honly hlog fun _ => hb.symm.trans h0⟩
      · rw [if_neg h0]
        have hmod : off % bsize < bsize := Nat.mod_lt _ (by decide)
        generalize hm : min (n - tot) (bsize - off % bsize) = m
        have hmpos : 0 < m := by omega
        have hmle : m ≤ n - tot := by omega
        obtain ⟨k, hk⟩ := eitherCopyin_copied mem (s1.block b) (off % bsize) m ha
        have hkm := hk.le
        have hi1 : Allocated s1 (view node ip1) ip.inum := hext.allocated.mpr hi
        have hview : view node ip1 ip.inum = ip1.toDinode := by rw [← hinum, view_self]
        have hdata : Wrote ip.inum off k (mem.from addr) s1 (view node ip1)
            (s1.setBlock b (eitherCopyin mem (s1.block b) (off % bsize) addr m).2) (view node ip1) := by
          have hdata := hext.owned.setData hi1 hbn (by rw [hview, hb]) h0
            (show off % bsize + k ≤ bsize by omega) (mem.from addr)
          rwa [mul_comm, Nat.div_add_mod, ← hk.data] at hdata
        have hset := hext.wrote hi hdata
        split
        · rename_i data heq
          obtain ⟨hkm', hstop⟩ := hk.stopped (by rw [heq])
          rw [heq] at hset hdata
          refine ⟨0, k, rfl, rfl, by omega, by rwa [Nat.zero_add], hmore, honly.dinode, honly.ops,
            fun j hj => hk.readable j (by omega), fun hk0 => ⟨?_, by omega, by rwa [Nat.zero_add]⟩,
            fun _ => .inl rfl, fun hk0 _ => .inl (hk0 ▸ hstop), fun hk0 => ?_, fun _ => ⟨s1, data, hlog, ?_⟩⟩
          · unfold bsize at *
            omega
          · -- Nothing was copied, so the buffer is as it was.
            have hcopy := hk.data
            rw [heq, hk0, Bytes.copy_zero] at hcopy
            have hsame : s1.setBlock b data = s1 := by
              rw [show data = s1.block b from hcopy, Store.setBlock, update_eq_self]
            grind
          · have hkept := hdata.kept ip.inum hi1 _ hbn (by rw [hview, ← hb]; exact h0)
            rw [hview, ← hb] at hkept
            exact congrArg (s1.setBlock · data) hkept.symm
        · rename_i data heq
          obtain rfl : k = m := hk.all (by rw [heq])
          rw [heq] at hset
          have hnext : Wrote ip.inum off k (mem.from addr) s (view node ip)
              ((s1.setBlock b data).logWrite b) (view node ip1) := hset.congr rfl rfl
          have h64 : uint64 (addr + k) < 2 ^ 64 := by
            unfold uint64
            omega
          have hi2 : Allocated ((s1.setBlock b data).logWrite b) (view node ip1) ip1.inum :=
            hinum ▸ hnext.allocated.mpr hi
          refine (ih hnext.owned hi2 h64 (by omega) (by omega)).mono ?_
          rintro r ⟨len, extra, hr⟩
          have hlog2 := hlog.trans (LogsChanges.setBlock s1 b data) honly.sb
          have hround : k < n - tot → (off + k) % bsize = 0 := by
            grind [bsize]
          exact ⟨k + len, extra, .append hi hmore (by exact honly.dinode) (by exact honly.ops) hlog2 hmle
            hround hk.readable hnext hr⟩
    · rw [if_neg hlt]
      exact ⟨0, 0, .none (.refl h _) (.refl ip) (.refl s) (.refl s) fun hlt' => absurd hlt' hlt⟩

/-- What `writei` does when it accepts its arguments. -/
structure Written (mem : Memory) (n off addr : ℕ) (s : Store) (node : ℕ → Dinode) (ip : Inode)
    (r : ℤ × Inode × Store) (len extra : ℕ) : Prop where
  counted : r.1 = len
  within : len + extra ≤ n
  consistent : Consistent r.2.2 (view node r.2.1)
  sb : r.2.2.sb = s.sb
  inode : r.2.1 = {ip with addrs := r.2.1.addrs, size := max ip.size (off + len)}
  dinode : r.2.2.dinode = update s.dinode ip.inum r.2.1.toDinode
  ops : r.2.2.ops = s.ops
  bytes : ∀ j, Allocated s (view node ip) j → ∀ x < maxfile * bsize,
    byteAt r.2.2 (view node r.2.1 j) x = if j = ip.inum ∧ off ≤ x ∧ x < off + (len + extra)
      then mem.from addr (x - off) else byteAt s (view node ip j) x
  readable : ∀ j < len + extra, mem.Readable (addr + j)
  stopped : extra ≠ 0 → (off + len + extra) % bsize ≠ 0 ∧ len + extra < n ∧
    ¬ mem.Readable (addr + (len + extra))
  whole : len < n → len = 0 ∨ (off + len) % bsize = 0
  ended : extra = 0 → len < n →
    ¬ mem.Readable (addr + len) ∨ blockOf r.2.2 r.2.1.toDinode ((off + len) / bsize) = 0
  logged : extra = 0 → LogsChanges s r.2.2
  mapped : extra ≠ 0 → blockOf r.2.2 r.2.1.toDinode ((off + len) / bsize) ≠ 0
  torn : extra ≠ 0 → LogsBut (blockOf r.2.2 r.2.1.toDinode ((off + len) / bsize)) s r.2.2

theorem Owned.congr_node (h : Owned s node) (htype : ∀ j, (node' j).type = (node j).type)
    (haddrs : ∀ j, (node' j).addrs = (node j).addrs) : Owned s node' := by
  refine ⟨h.layout, h.owners.congr (fun p => place_congr ?_ fun _ => ?_) fun _ => Iff.rfl, h.metadata⟩
  · unfold Allocated
    rw [htype]
  · unfold addrOf
    rw [haddrs]

theorem blockOf_congr {d d' : Dinode} (hblock : s'.block = s.block) (haddrs : d'.addrs = d.addrs)
    (bn : ℕ) : blockOf s' d' bn = blockOf s d bn := by
  unfold blockOf
  rw [hblock, haddrs]

theorem byteAt_congr {d d' : Dinode} (hblock : s'.block = s.block) (haddrs : d'.addrs = d.addrs)
    (x : ℕ) : byteAt s' d' x = byteAt s d x := by
  unfold byteAt
  rw [blockOf_congr hblock haddrs, hblock]

theorem writei_accepts (hn : n < 2 ^ 32) (hoff : ¬ (off > ip.size ∨ uint32 (off + n) < off))
    (hmax : ¬ uint32 (off + n) > maxfile * bsize) : off ≤ ip.size ∧ off + n ≤ maxfile * bsize := by
  unfold uint32 maxfile ndirect nindirect bsize at *
  omega

theorem writei_rejects (hsize : ip.size ≤ maxfile * bsize)
    (h : (off > ip.size ∨ uint32 (off + n) < off) ∨ uint32 (off + n) > maxfile * bsize) :
    ip.size < off ∨ maxfile * bsize < off + n := by
  unfold uint32 maxfile ndirect nindirect bsize at *
  omega

def Inode.extend (ip : Inode) (off : ℕ) : Inode := if off > ip.size then {ip with size := off} else ip

theorem Inode.extend_eq (ip : Inode) (off : ℕ) : ip.extend off = {ip with size := max ip.size off} := by
  unfold Inode.extend
  split
  · rw [max_eq_right (by omega)]
  · rw [max_eq_left (by omega)]

theorem Consistent.writei (h : Consistent s (view node ip)) (hi : Allocated s (view node ip) ip.inum)
    (ha : addr < 2 ^ 64) (hn : n < 2 ^ 32) :
    Outcome E (writei ip mem addr off n s) fun r =>
      r = (-1, ip, s) ∧ (ip.size < off ∨ maxfile * bsize < off + n) ∨
        off ≤ ip.size ∧ off + n ≤ maxfile * bsize ∧
          ∃ len extra, Written mem n off addr s node ip r len extra := by
  have hsize := h.size _ hi
  rw [view_self] at hsize
  unfold Fs.writei
  split
  · rename_i hoff
    exact .inl ⟨rfl, writei_rejects hsize (.inl hoff)⟩
  rename_i hoff
  split
  · rename_i hmax
    exact .inl ⟨rfl, writei_rejects hsize (.inr hmax)⟩
  rename_i hmax
  obtain ⟨hle, hfit⟩ := writei_accepts hn hoff hmax
  refine (h.toOwned.writeLoop (n := n) n hi ha (by omega) (by omega)).bind ?_
  rintro ⟨tot, off', ip', s'⟩ ⟨len, extra, hr⟩
  refine .inr ⟨hle, hfit, len, extra, ?_⟩
  have hcounted := hr.counted
  have hpos := hr.position
  have hwithin := hr.within
  dsimp only at hcounted hpos
  rw [Nat.zero_add] at hcounted
  subst hcounted hpos
  show Written mem n off addr s node ip (_, ip'.extend (off + tot), iupdate (ip'.extend (off + tot)) s')
    tot extra
  have hw := hr.wrote
  have hinum : ip'.inum = ip.inum := hr.addrs.inum
  have hext : ip'.extend (off + tot) =
      {ip with addrs := ip'.addrs, size := max ip.size (off + tot)} := by
    rw [Inode.extend_eq, show ip' = {ip with addrs := ip'.addrs} from hr.addrs.fields]
  -- The new length of the file makes no difference to its blocks.
  have hview : ∀ j, (view node (ip'.extend (off + tot)) j).type = (view node ip' j).type ∧
      (view node (ip'.extend (off + tot)) j).addrs = (view node ip' j).addrs := by
    intro j
    unfold view
    rw [hext, show ip' = {ip with addrs := ip'.addrs} from hr.addrs.fields]
    by_cases hj : j = ip.inum
    · subst hj
      simp only [update_self, and_self]
    · simp only [update_of_ne hj, and_self]
  have howned : Owned (iupdate (ip'.extend (off + tot)) s') (view node (ip'.extend (off + tot))) :=
    (hw.owned.congr_node (fun j => (hview j).1) fun j => (hview j).2).congr rfl rfl
  have hblock : ∀ j bn, blockOf (iupdate (ip'.extend (off + tot)) s')
      (view node (ip'.extend (off + tot)) j) bn = blockOf s' (view node ip' j) bn :=
    fun j bn => blockOf_congr rfl (hview j).2 bn
  have hall : ∀ j, Allocated (iupdate (ip'.extend (off + tot)) s')
      (view node (ip'.extend (off + tot))) j ↔ Allocated s (view node ip) j := by
    intro j
    rw [← hw.allocated]
    unfold Allocated
    rw [(hview j).1]
    rfl
  have hnew : view node (ip'.extend (off + tot)) ip.inum = (ip'.extend (off + tot)).toDinode := by
    have hself := view_self node (ip'.extend (off + tot))
    rwa [hext] at hself ⊢
  have hold : ∀ j ≠ ip.inum, view node (ip'.extend (off + tot)) j = view node ip j := by
    grind [view_of_ne]
  have hself : ∀ bn, blockOf (iupdate (ip'.extend (off + tot)) s') (ip'.extend (off + tot)).toDinode bn =
      blockOf s' ip'.toDinode bn := fun bn => blockOf_congr rfl (by rw [hext]) bn
  refine ⟨rfl, by omega, ⟨howned, fun j hj bn hbn => ?_, fun j hj => ?_⟩, hw.sb, ?_, ?_, hr.ops,
    fun j hj x hx => ?_, hr.readable, fun hne => by simpa using hr.stopped hne,
    fun hlt => hr.whole (by omega), fun h0 hlt => ?_, fun h0 => ?_, fun hne => ?_, fun hne => ?_⟩
  · have hja := (hall j).mp hj
    rw [hblock]
    -- A block that was there before is still there.
    have hkept : bn * bsize < (view node ip j).size → blockOf s' (view node ip' j) bn ≠ 0 := by
      intro hlt
      have hbn' : bn < maxfile := by
        grind [Consistent.size, bsize]
      have hne := h.noHoles j hja bn hlt
      rw [show blockOf s' (view node ip' j) bn = _ from hw.kept j hja bn hbn' hne]
      exact hne
    by_cases hj' : j = ip.inum
    · grind [view_self, Wrote.mapped, Nat.mul_div_cancel]
    · rw [hold j hj'] at hbn
      exact hkept hbn
  · grind [Consistent.size]
  · rw [hext]
  · show update s'.dinode (ip'.extend (off + tot)).inum _ = _
    rw [show s'.dinode = s.dinode from hr.dinode, show (ip'.extend (off + tot)).inum = ip.inum by rw [hext]]
  · rw [← hw.bytes j hj x hx]
    exact byteAt_congr rfl (hview j).2 x
  · have hended := hr.ended h0 (by omega)
    rwa [← hself] at hended
  · exact (hr.logged h0).trans (.iupdate _ _) hw.sb
  · dsimp only
    rw [hself]
    have hmapped := hw.mapped (off + tot) (by omega) (by omega) (by omega)
    rwa [← hinum, view_self] at hmapped
  · obtain ⟨s1, data, hs1, heq⟩ := hr.torn hne
    dsimp only at heq
    refine ⟨iupdate (ip'.extend (off + tot)) s1, data, ?_, ?_⟩
    · exact hs1.trans (.iupdate _ _) ((congrArg Store.sb heq).symm.trans hw.sb)
    · dsimp only
      rw [hself]
      generalize blockOf s' ip'.toDinode ((off + tot) / bsize) = b at heq
      rw [heq]
      rfl

end Xv6.Fs
