import Xv6.Fs.Dir
import Xv6.Fs.Update
import Xv6.Shared.Assoc

/-! Directories as finite maps.

The key of a name is what `namecmp` looks at: its bytes before the NUL, and 14 of them at most. The
entries of a directory are an array of keys and inode numbers, and `dirlookup` finds the slot of a key
in it. Under `DirAt` an inode is such a directory, in memory and on the disk. -/
namespace Xv6.Fs

open Function

variable {s s' : State} {st st' : Store} {E : Panic → Prop} {X : ℕ → Prop} {name p q t : Bytes} {de de' : Bytes}
  {dp d i j k n off fuel inum : ℕ}

/-! ### Names -/

/-- The bytes of a string before the NUL, `n` at most. -/
def cstr (name : Bytes) : ℕ → List UInt8
  | 0 => []
  | n + 1 => if name 0 = 0 then [] else name 0 :: cstr (fun j => name (j + 1)) n

def key (name : Bytes) : List UInt8 := cstr name dirsiz

theorem strncmp_eq_zero (p q : Bytes) (n : ℕ) : strncmp p q n = 0 ↔ cstr p n = cstr q n := by
  induction n generalizing p q with
  | zero => simp [strncmp, cstr]
  | succ n ih =>
    grind [sub_eq_zero, Nat.cast_inj, UInt8.toNat_inj, strncmp, cstr]

theorem namecmp_eq_zero (p q : Bytes) : namecmp p q = 0 ↔ key p = key q := strncmp_eq_zero p q dirsiz

theorem cstr_eq (h : ∀ j < n, (∀ l < j, t l ≠ 0) → q j = t j) : cstr q n = cstr t n := by
  induction n generalizing q t with
  | zero => rfl
  | succ n ih =>
    have h0 : q 0 = t 0 := h 0 (by omega) fun l hl => by omega
    unfold cstr
    rw [h0]
    by_cases ht : t 0 = 0
    · rw [if_pos ht, if_pos ht]
    · rw [if_neg ht, if_neg ht]
      congr 1
      apply ih
      intro j hj hbefore
      apply h (j + 1) (by omega)
      intro l hl
      cases l with
      | zero => exact ht
      | succ l => exact hbefore l (by omega)

theorem strncpyFrom_spec (s t : Bytes) (i n : ℕ) : (∀ j < i, strncpyFrom s t i n j = s j) ∧
      ∀ j, i ≤ j → j < i + n → (∀ l < j, t l ≠ 0) → strncpyFrom s t i n j = t j := by
  induction n generalizing s i with
  | zero => exact ⟨fun _ _ => rfl, fun j hj hj' => by omega⟩
  | succ n ih =>
    unfold strncpyFrom
    by_cases ht : t i = 0
    · rw [if_neg (not_not.mpr ht)]
      refine ⟨fun j hj => ?_, fun j hj hj' hbefore => ?_⟩
      · rw [Bytes.copy_outside (by omega), update_of_ne (by omega)]
      · obtain rfl : j = i := by
          by_contra hne
          exact hbefore i (by omega) ht
        rw [Bytes.copy_outside (by omega), update_self]
    grind

theorem cstr_strncpy (s t : Bytes) (n : ℕ) : cstr (strncpy s t n) n = cstr t n :=
  cstr_eq fun j hj => (strncpyFrom_spec s t 0 n).2 j (by omega) (by omega)

/-! ### Entries -/

def direntOf (de : Bytes) : Option (List UInt8 × ℕ) :=
  if direntInum de = 0 then none else some (key (direntName de), direntInum de)

theorem direntOf_congr (h : ∀ j < direntSize, de' j = de j) :
    direntInum de' = direntInum de ∧ key (direntName de') = key (direntName de) := by
  constructor
  · exact Bytes.le_congr fun j _ hj => h j (by unfold direntSize; omega)
  · apply cstr_eq
    intro j hj _
    exact h (2 + j) (by unfold dirsiz at hj; unfold direntSize; omega)

theorem newDirent_spec (name : Bytes) (inum : ℕ) :
    direntInum (newDirent name inum) = inum % 2 ^ 16 ∧ key (direntName (newDirent name inum)) = key name := by
  constructor
  · exact Bytes.le_putLe (Nat.mod_lt _ (by decide))
  · unfold key
    rw [← cstr_strncpy (fun _ => 0) name dirsiz]
    apply cstr_eq
    intro j _ _
    unfold direntName newDirent Bytes.putLe
    rw [Bytes.copy_outside (by omega), Nat.add_sub_cancel_left]

def direntAt (st : Store) (dir : Dinode) (k : ℕ) : Option (List UInt8 × ℕ) :=
  direntOf fun j => byteAt st dir (direntSize * k + j)

def Dinode.entries (dir : Dinode) : ℕ := dir.size / direntSize

/-- The first entry of the directory `d` that has the name. -/
abbrev State.findDirent (s : State) (d : ℕ) (name : Bytes) : Option ℕ :=
  Assoc.find (direntAt s.store (s.store.dinode d)) (s.store.dinode d).entries (key name)

/-- Inode `d` is a directory, and it is in entry `dp` of the table. -/
structure DirAt (s : State) (dp d : ℕ) : Prop where
  good : Good s
  consistent : Consistent s.store s.store.dinode
  ready : Ready s dp d
  type : (s.store.dinode d).type = .dir
  aligned : direntSize ∣ (s.store.dinode d).size

namespace DirAt

section
variable (h : DirAt s dp d)
include h

theorem size_eq :
    (s.store.dinode d).size = direntSize * (s.store.dinode d).entries := (Nat.mul_div_cancel' h.aligned).symm

theorem size_le : (s.store.dinode d).size ≤ maxfile * bsize :=
  h.consistent.size d (h.good.allocated h.ready)

theorem readDirent (hk : k < (s.store.dinode d).entries) :
    ∃ de, readDirent dp (direntSize * k) s = .ok ((direntSize, de), s) ∧
      direntInum de = direntInum (fun j => byteAt s.store (s.store.dinode d) (direntSize * k + j)) ∧
      key (direntName de) =
        key (direntName fun j => byteAt s.store (s.store.dinode d) (direntSize * k + j)) := by
  have hall := h.good.allocated h.ready
  have hle : direntSize * k + direntSize ≤ (s.store.dinode d).size := by
    rw [h.size_eq]
    exact Nat.mul_le_mul_left direntSize hk
  have hread : readi ⟨s.store.dinode d, d⟩ ⟨false, fun _ => false, fun _ => 0⟩ 0 (direntSize * k)
      direntSize s.store = _ :=
    readi_inside rfl (h.consistent.noHoles d hall) h.size_le hle (by decide)
  refine ⟨Bytes.copy (fun _ => 0) 0 direntSize fun j => byteAt s.store (s.store.dinode d) (direntSize * k + j),
    ?_, direntOf_congr fun j hj => ?_⟩
  · unfold Fs.readDirent withInode
    rw [h.good.ip_eq h.ready]
    dsimp only
    rw [hread]
    have hsame : s.put dp {s.inode dp with copy := s.store.dinode d} s.store = s := by
      rw [← (h.good.synced dp d h.ready).1]
      unfold State.put
      rw [update_eq_self]
    show Except.ok ((_, _), s.put dp {s.inode dp with copy := s.store.dinode d} s.store) = _
    rw [hsame]
    rfl
  · rw [Bytes.copy_inside (Nat.zero_le j) (by omega), Nat.sub_zero]

theorem offset_lt : direntSize * k < (s.ip dp).size ↔ k < (s.store.dinode d).entries := by
  rw [h.good.ip_eq h.ready]
  show direntSize * k < (s.store.dinode d).size ↔ _
  rw [h.size_eq]
  exact Nat.mul_lt_mul_left (by decide)

theorem offset_next (hk : k < (s.store.dinode d).entries) :
    uint32 ((direntSize * k : ℕ) + direntSize) = direntSize * (k + 1) := by
  have hle : direntSize * (k + 1) ≤ (s.store.dinode d).size := by
    rw [h.size_eq]
    exact Nat.mul_le_mul_left direntSize hk
  have hmax := h.size_le
  have hsmall : maxfile * bsize < 2 ^ 31 := by decide
  rw [Nat.mul_succ] at hle ⊢
  unfold uint32
  omega

theorem dirscan (name : Bytes) (fuel : ℕ) (hfuel : (s.store.dinode d).entries ≤ k + fuel)
    (hbefore : Assoc.Absent (direntAt s.store (s.store.dinode d)) k (key name)) :
    dirscan dp name fuel (direntSize * k) s =
      .ok ((s.findDirent d name).bind fun i =>
        (direntAt s.store (s.store.dinode d) i).map fun x => (x.2, direntSize * i), s) := by
  induction fuel generalizing k with
  | zero =>
    have hnone : s.findDirent d name = none := Assoc.find_eq_none.mpr fun i hi => hbefore i (by omega)
    rw [hnone]
    rfl
  | succ fuel ih =>
    unfold Fs.dirscan
    by_cases hk : k < (s.store.dinode d).entries
    · rw [if_pos (h.offset_lt.mpr hk)]
      obtain ⟨de, hread, hinum, hkey⟩ := h.readDirent hk
      show (Fs.readDirent dp (direntSize * k) s >>= _) = _
      rw [hread]
      dsimp only [Bind.bind, Except.bind]
      rw [if_neg (by simp), h.offset_next hk]
      by_cases hmatch : direntInum de ≠ 0 ∧ namecmp name (direntName de) = 0
      · rw [if_pos hmatch]
        have hentry : direntAt s.store (s.store.dinode d) k = some (key name, direntInum de) := by
          unfold direntAt direntOf
          rw [← hinum, if_neg hmatch.1, ← hkey, (namecmp_eq_zero ..).mp hmatch.2]
        rw [show s.findDirent d name = _ from Assoc.find_first hbefore hk hentry, Option.bind_some, hentry]
        rfl
      · rw [if_neg hmatch]
        apply ih (by omega)
        intro i hi v hv
        by_cases hik : i = k
        · subst hik
          grind [namecmp_eq_zero, direntAt, direntOf]
        · exact hbefore i (by omega) v hv
    · have hnone : s.findDirent d name = none := Assoc.find_eq_none.mpr fun i hi => hbefore i (by omega)
      rw [if_neg fun hlt => hk (h.offset_lt.mp hlt), hnone]
      rfl

theorem type_eq : (s.ip dp).type = .dir := by
  rw [h.good.ip_eq h.ready]
  exact h.type

theorem entries_le : (s.store.dinode d).entries ≤ (s.ip dp).size := by
  rw [h.good.ip_eq h.ready]
  exact Nat.div_le_self ..

theorem scan_eq (name : Bytes) : Fs.dirscan dp name (s.ip dp).size 0 s =
    .ok ((s.findDirent d name).bind fun i =>
      (direntAt s.store (s.store.dinode d) i).map fun x => (x.2, direntSize * i), s) :=
  h.dirscan (k := 0) name _ (by have := h.entries_le; omega) nofun

theorem dirlookup_absent
    (hnone : Assoc.Absent (direntAt s.store (s.store.dinode d)) (s.store.dinode d).entries (key name)) :
    dirlookup dp name s = .ok (none, s) := by
  have hscan := h.scan_eq name
  rw [show s.findDirent d name = _ from Assoc.find_eq_none.mpr hnone] at hscan
  unfold dirlookup
  rw [if_neg (not_not.mpr h.type_eq)]
  show (Fs.dirscan dp name (s.ip dp).size 0 s >>= _) = _
  rw [hscan]
  rfl

theorem dirlookup_found (hfind : s.findDirent d name = some i)
    (hi : direntAt s.store (s.store.dinode d) i = some (key name, inum)) :
    dirlookup dp name s = do
      let r ← iget inum s
      return (some (r.1, direntSize * i), r.2) := by
  have hscan := h.scan_eq name
  rw [hfind, Option.bind_some, hi] at hscan
  unfold dirlookup
  rw [if_neg (not_not.mpr h.type_eq)]
  show (Fs.dirscan dp name (s.ip dp).size 0 s >>= _) = _
  rw [hscan]
  rfl

theorem dirlookup_gets (hroom : s.used < ninode ∨ E .igetNoInodes)
    (hfind : s.findDirent d name = some i)
    (hi : direntAt s.store (s.store.dinode d) i = some (key name, inum)) :
    Outcome E (dirlookup dp name s) fun r => ∃ q, r.1 = some (q, direntSize * i) ∧
      r.2.store = s.store ∧ Held s r.2 [(q, inum)] ∧ (0 < refs s inum ∨ (r.2.inode q).valid = false) := by
  rw [h.dirlookup_found hfind hi]
  exact (h.good.iget (.inr hroom)).bind fun r hr => ⟨r.1, rfl, hr⟩

theorem emptyDirent (fuel : ℕ) (hfuel : (s.store.dinode d).entries ≤ k + fuel)
    (hk : k ≤ (s.store.dinode d).entries) :
    ∃ i ≤ (s.store.dinode d).entries, emptyDirent dp fuel (direntSize * k) s = .ok (direntSize * i, s) ∧
      (i < (s.store.dinode d).entries → direntAt s.store (s.store.dinode d) i = none) := by
  induction fuel generalizing k with
  | zero => exact ⟨k, hk, rfl, fun hlt => by omega⟩
  | succ fuel ih =>
    unfold Fs.emptyDirent
    by_cases hlt : k < (s.store.dinode d).entries
    · rw [if_pos (h.offset_lt.mpr hlt)]
      obtain ⟨de, hread, hinum, -⟩ := h.readDirent hlt
      show ∃ i ≤ _, (Fs.readDirent dp (direntSize * k) s >>= _) = _ ∧ _
      rw [hread]
      dsimp only [Bind.bind, Except.bind]
      rw [if_neg (by simp), h.offset_next hlt]
      by_cases hempty : direntInum de = 0
      · rw [if_pos hempty]
        refine ⟨k, hk, rfl, fun _ => ?_⟩
        unfold direntAt direntOf
        rw [← hinum, if_pos hempty]
      grind
    · rw [if_neg fun hoff => hlt (h.offset_lt.mp hoff)]
      exact ⟨k, hk, rfl, fun h' => absurd h' hlt⟩

end

end DirAt

/-! ### Writing an entry -/

theorem direntOf_eq (h : ∀ j < direntSize, de' j = de j) : direntOf de' = direntOf de := by
  grind [direntOf_congr, direntOf]

theorem WroteAt.dirents {src : Bytes} (h : WroteAt st st' d (direntSize * k) src direntSize)
    (hj : Allocated st st.dinode j) (hi : direntSize * i + direntSize ≤ maxfile * bsize) :
    direntAt st' (st'.dinode j) i = if j = d ∧ i = k then direntOf src else direntAt st (st.dinode j) i := by
  have hbytes : ∀ l < direntSize, byteAt st' (st'.dinode j) (direntSize * i + l) =
      if j = d ∧ i = k then src l else byteAt st (st.dinode j) (direntSize * i + l) := by
    intro l hl
    rw [h.bytes j hj _ (by omega)]
    by_cases hjd : j = d
    · by_cases hik : i = k
      · grind
      · rw [if_neg, if_neg fun h => hik h.2]
        unfold direntSize at *
        omega
    · rw [if_neg fun h => hjd h.1, if_neg fun h => hjd h.1]
  unfold Fs.direntAt
  grind [direntOf_eq]

theorem Quiet.dirents (h : Quiet st st' X) (hX : ¬ X j) (hj : Allocated st st.dinode j)
    (hi : direntSize * i + direntSize ≤ maxfile * bsize) :
    direntAt st' (st'.dinode j) i = direntAt st (st.dinode j) i := by
  apply direntOf_eq
  intro l hl
  exact h.bytes j hX hj _ (by omega)

theorem WroteAt.entries {src : Bytes} (h : WroteAt st st' d (direntSize * k) src direntSize) :
    (st'.dinode d).entries = max (st.dinode d).entries (k + 1) := by
  unfold Dinode.entries
  rw [h.inode]
  grind [direntSize]

section
variable (h : DirAt s dp d)
include h

theorem DirAt.of_held {l : List (ℕ × ℕ)} (hheld : Held s s' l) (hc : Consistent s'.store s'.store.dinode)
    (htype : (s'.store.dinode d).type = (s.store.dinode d).type)
    (hsize : direntSize ∣ (s'.store.dinode d).size) : DirAt s' dp d :=
  ⟨hheld.good, hc, hheld.valid dp d h.ready, htype.trans h.type, hsize⟩

theorem DirAt.of_quiet (hgood : Good s') (hready : Ready s' dp d)
    (hc : Consistent s'.store s'.store.dinode) (hq : Quiet s.store s'.store X) (hX : ¬ X d) : DirAt s' dp d :=
  ⟨hgood, hc, hready, (hq.type hX).trans h.type, by rw [hq.size hX]; exact h.aligned⟩

theorem DirAt.writeDirent (de : Bytes) (hk : k ≤ (s.store.dinode d).entries) :
    Outcome E (writeDirent dp de (direntSize * k) s) fun r => Held s r.2 [] ∧ DirAt r.2 dp d ∧
      (r.1 ≠ direntSize ∧ k = (s.store.dinode d).entries ∧ Quiet s.store r.2.store (fun _ => False) ∨
        r.1 = direntSize ∧ WroteAt s.store r.2.store d (direntSize * k) de direntSize) := by
  have hoff : direntSize * k ≤ (s.store.dinode d).size := by
    rw [h.size_eq]
    exact Nat.mul_le_mul_left direntSize hk
  refine (h.good.writei h.consistent h.ready (by decide) (by decide)).mono ?_
  rintro ⟨a, s'⟩ ⟨hheld, -, hc, hcases⟩
  dsimp only at hheld hc hcases ⊢
  refine ⟨hheld, ?_⟩
  have hsize := h.size_eq
  have hmax := h.size_le
  rcases hcases with ⟨rfl, hst, hbad⟩ | ⟨-, ip, len, extra, hwritten⟩
  · have hlast : k = (s.store.dinode d).entries := by
      unfold direntSize at hoff hsize hbad
      omega
    grind [DirAt.of_held, DirAt.aligned, Quiet.refl]
  · obtain rfl := hwritten.extra_eq_zero rfl
    obtain rfl : a = len := hwritten.counted
    have hw := hwritten.wroteAt
    have hwithin := hwritten.within
    have hwhole := hwritten.whole
    -- An entry is all in one block.
    have hall : len = 0 ∨ len = direntSize := by
      grind [direntSize, bsize]
    rcases hall with rfl | rfl
    · have hq : Quiet s.store s'.store fun _ => False := hw.quiet hoff
      refine ⟨h.of_held hheld hc (hq.type id) ?_, .inl ⟨by decide, ?_, hq⟩⟩
      · rw [hq.size id]
        exact h.aligned
      · have hend := hwritten.size_le ((view_eq s.store d).symm ▸ h.good.allocated h.ready) rfl (by decide)
        dsimp only at hend
        unfold direntSize at hoff hsize hend
        omega
    · refine ⟨h.of_held hheld hc (by rw [hw.inode]) ?_, .inr ⟨rfl, hw.sb, hw.consistent, hw.others, hw.inode, ?_⟩⟩
      · rw [hw.inode]
        show direntSize ∣ max (s.store.dinode d).size (direntSize * k + direntSize)
        have haligned := h.aligned
        unfold direntSize at *
        omega
      · intro j hj x hx
        rw [hw.bytes j hj x hx]
        split
        · have hsmall : maxfile * bsize < 2 ^ 31 := by decide
          have h64 : uint64 ((0 : ℕ) + (x - direntSize * k : ℕ)) = x - direntSize * k := by
            unfold uint64
            omega
          show de (uint64 _) = _
          rw [h64]
        · rfl

/-! ### `dirlink` -/

theorem DirAt.dirlink_present (hroom : s.used < ninode ∨ E .igetNoInodes)
    (hpresent : ¬ Assoc.Absent (direntAt s.store (s.store.dinode d)) (s.store.dinode d).entries (key name)) :
    Outcome E (dirlink dp name inum s) fun r => r.1 = -1 ∧ Held s r.2 [] ∧ r.2.store = s.store := by
  cases hfind : s.findDirent d name with
  | none => exact absurd (Assoc.find_eq_none.mp hfind) hpresent
  | some i =>
    obtain ⟨-, v, hv⟩ := Assoc.find_some hfind
    refine (h.dirlookup_gets hroom hfind hv).andThen ?_
    rintro _ s1 ⟨q, rfl, hst, hheld, hkeep⟩
    have hput : Outcome E (iput q s1) _ := hheld.iput fun hvalid => ?_
    · refine hput.andThen ?_
      rintro ⟨⟩ s2 ⟨hst2, hheld2⟩
      exact ⟨rfl, hheld2, hst2.trans hst⟩
    grind

theorem DirAt.dirlink_absent
    (hnone : Assoc.Absent (direntAt s.store (s.store.dinode d)) (s.store.dinode d).entries (key name)) :
    Outcome E (dirlink dp name inum s) fun r => Held s r.2 [] ∧ DirAt r.2 dp d ∧
      (r.1 = -1 ∧ Quiet s.store r.2.store (fun _ => False) ∨
        r.1 = 0 ∧ ∃ k ≤ (s.store.dinode d).entries,
          (k < (s.store.dinode d).entries → direntAt s.store (s.store.dinode d) k = none) ∧
          WroteAt s.store r.2.store d (direntSize * k) (newDirent name inum) direntSize) := by
  obtain ⟨k, hk, hempty, hfree⟩ := h.emptyDirent (k := 0) (s.ip dp).size
    (by have := h.entries_le; omega) (Nat.zero_le _)
  have hlookup := h.dirlookup_absent hnone
  rw [Nat.mul_zero] at hempty
  show Outcome E (dirlookup dp name s >>= _) _
  rw [hlookup]
  show Outcome E (Fs.emptyDirent dp (s.ip dp).size 0 s >>= _) _
  rw [hempty]
  show Outcome E ((do
    let r ← Fs.writeDirent dp (newDirent name inum) (direntSize * k)
    return if r ≠ direntSize then -1 else 0 : FsM ℤ) s) _
  refine (h.writeDirent (newDirent name inum) hk).andThen ?_
  rintro r s' ⟨hheld, hdir, hcases⟩
  refine ⟨hheld, hdir, ?_⟩
  grind

end

end Xv6.Fs
