import Xv6.Fs.Alloc
import Xv6.Fs.Entries
import Xv6.Fs.Free
import Xv6.Machine.Run

/-! A directory that is used.

Entries are made by `dirlink` and erased by `sys_unlink`. Whatever is done to a directory that was
empty at first, no key is in two entries of it, so that it is a finite map from keys to inodes
(`dirmap`): `dirlookup` looks a key up in the map, and `dirlink` adds one that is not there. -/
namespace Xv6.Fs
open Function (update)

variable {s s' : State} {st st' : Store} {E : Panic → Prop} {X : ℕ → Prop} {name : Bytes}
  {dp d i j k n p inum : ℕ}

def dirmap (st : Store) (d : ℕ) : List UInt8 → Option ℕ :=
  Assoc.lookup (direntAt st (st.dinode d)) (st.dinode d).entries

def DistinctKeys (st : Store) (d : ℕ) : Prop := Assoc.Distinct (direntAt st (st.dinode d)) (st.dinode d).entries

/-! ### Other disks -/

theorem entry_lt (hsize : (st.dinode j).size ≤ maxfile * bsize) (hi : i < (st.dinode j).entries) :
    direntSize * i + direntSize ≤ maxfile * bsize := by
  unfold Dinode.entries direntSize at *
  omega

theorem Quiet.entries (h : Quiet st st' X) (hX : ¬ X j) : (st'.dinode j).entries = (st.dinode j).entries := by
  unfold Dinode.entries
  rw [h.size hX]

theorem Quiet.dirmap (h : Quiet st st' X) (hX : ¬ X j) (hj : Allocated st st.dinode j)
    (hsize : (st.dinode j).size ≤ maxfile * bsize) : dirmap st' j = dirmap st j := by
  funext l
  unfold Fs.dirmap
  grind [Quiet.entries, Assoc.lookup_congr, Quiet.dirents, entry_lt]

theorem Quiet.distinctKeys (h : Quiet st st' X) (hX : ¬ X j) (hj : Allocated st st.dinode j)
    (hsize : (st.dinode j).size ≤ maxfile * bsize) (hd : DistinctKeys st j) : DistinctKeys st' j := by
  unfold DistinctKeys
  rw [h.entries hX]
  exact hd.congr fun i hi => h.dirents hX hj (entry_lt hsize hi)

theorem WroteAt.direntAt_self {src : Bytes} (h : WroteAt st st' d (direntSize * k) src direntSize)
    (hd : Allocated st st.dinode d) (hi : i < (st'.dinode d).entries) :
    direntAt st' (st'.dinode d) i = update (direntAt st (st.dinode d)) k (direntOf src) i := by
  have hd' : Allocated st' st'.dinode d := by
    unfold Allocated
    rw [h.inode, h.sb]
    exact hd
  rw [h.dirents hd (entry_lt (h.consistent.size d hd') hi)]
  grind

theorem WroteAt.entries_lt {src : Bytes} (h : WroteAt st st' d (direntSize * k) src direntSize)
    (hk : k ≤ (st.dinode d).entries) : i < (st'.dinode d).entries ↔ i < (st.dinode d).entries ∨ i = k := by
  rw [h.entries]
  omega

theorem WroteAt.link (h : WroteAt st st' d (direntSize * k) (newDirent name inum) direntSize)
    (hd : Allocated st st.dinode d) (hdistinct : DistinctKeys st d) (hk : k ≤ (st.dinode d).entries)
    (hfree : k < (st.dinode d).entries → direntAt st (st.dinode d) k = none)
    (hnone : Assoc.Absent (direntAt st (st.dinode d)) (st.dinode d).entries (key name)) :
    DistinctKeys st' d ∧ (inum % 2 ^ 16 ≠ 0 →
      Fs.dirmap st' d = update (Fs.dirmap st d) (key name) (some (inum % 2 ^ 16))) := by
  obtain ⟨hinum, hkey⟩ := newDirent_spec name inum
  have hself : ∀ i < (st'.dinode d).entries, _ := fun i hi => h.direntAt_self hd hi
  have hlt : ∀ i, i < (st'.dinode d).entries ↔ _ := fun i => h.entries_lt hk
  by_cases h0 : inum % 2 ^ 16 = 0
  · have hsrc : direntOf (newDirent name inum) = none := by
      unfold direntOf
      rw [hinum, if_pos h0]
    rw [hsrc] at hself
    exact ⟨(hdistinct.clear fun i hi => (hlt i).mp hi).congr hself, fun hne => absurd h0 hne⟩
  · have hsrc : direntOf (newDirent name inum) = some (key name, inum % 2 ^ 16) := by
      unfold direntOf
      rw [hinum, if_neg h0, hkey]
    rw [hsrc] at hself
    refine ⟨(hdistinct.set hnone fun i hi => (hlt i).mp hi).congr hself, fun _ => ?_⟩
    funext l
    unfold Fs.dirmap
    rw [Assoc.lookup_congr hself, Assoc.lookup_set hdistinct hnone hfree hlt]
    grind

theorem WroteAt.unlink (h : WroteAt st st' d (direntSize * k) (fun _ => 0) direntSize)
    (hd : Allocated st st.dinode d) (hdistinct : DistinctKeys st d) (hk : k < (st.dinode d).entries) :
    DistinctKeys st' d := by
  have hzero : direntOf (fun _ => 0) = none := if_pos (Bytes.le_zero (fun _ => rfl) ..)
  have hself : ∀ i < (st'.dinode d).entries, _ := fun i hi => h.direntAt_self hd hi
  rw [hzero] at hself
  exact (hdistinct.clear fun i hi => (h.entries_lt hk.le).mp hi).congr hself

/-! ### Using a directory -/

inductive DirOp where
  | link (name : Bytes) (inum : ℕ)
  | unlink (name : Bytes)

/-- What is done to a directory. `sys_unlink` puts the inode back after it has erased the entry. -/
def dirOp (dp : ℕ) : DirOp → FsM Unit
  | .link name inum => do
    let _ ← dirlink dp name inum
  | .unlink name => do
    match ← dirlookup dp name with
    | none => pure ()
    | some (ip, off) =>
      clearDirent dp off
      iput ip

/-- The directory in entry `dp` of the table is used in any way. -/
def directory (dp : ℕ) : Protocol Panic State DirOp :=
  ⟨fun s op => (dirOp dp op s).map Prod.snd, fun _ _ => True⟩

theorem DirAt.link (h : DirAt s dp d) (hd : DistinctKeys s.store d) (name : Bytes) (inum : ℕ) :
    Outcome (fun _ => True) (dirlink dp name inum s) fun r => DirAt r.2 dp d ∧ DistinctKeys r.2.store d := by
  have hall := h.good.allocated h.ready
  by_cases hnone : Assoc.Absent (direntAt s.store (s.store.dinode d)) (s.store.dinode d).entries (key name)
  · refine (h.dirlink_absent hnone).mono fun r ⟨hheld, hdir, hcases⟩ => ⟨hdir, ?_⟩
    rcases hcases with ⟨-, hq⟩ | ⟨-, k, hk, hfree, hw⟩
    · exact hq.distinctKeys id hall h.size_le hd
    · exact (hw.link hall hd hk hfree hnone).1
  grind [DirAt.dirlink_present, Outcome.mono, DirAt.consistent, DirAt.of_held, DirAt.aligned]

theorem DirAt.unlink (h : DirAt s dp d) (hd : DistinctKeys s.store d) (name : Bytes) :
    Outcome (fun _ => True) (dirOp dp (.unlink name) s) fun r => DirAt r.2 dp d ∧ DistinctKeys r.2.store d := by
  show Outcome _ ((dirlookup dp name >>= _) s) _
  cases hfind : s.findDirent d name with
  | none =>
    show Outcome _ (dirlookup dp name s >>= _) _
    rw [h.dirlookup_absent (Assoc.find_eq_none.mp hfind)]
    exact ⟨h, hd⟩
  | some i =>
    obtain ⟨hi, v, hv⟩ := Assoc.find_some hfind
    refine (h.dirlookup_gets (.inr trivial) hfind hv).andThen ?_
    rintro _ s1 ⟨q, rfl, hst, hheld, -⟩
    have hdir : DirAt s1 dp d :=
      h.of_held hheld (hst.symm ▸ h.consistent) (by rw [hst]) (by rw [hst]; exact h.aligned)
    have hclear : Outcome (fun _ => True) (clearDirent dp (direntSize * i) s1) fun r =>
        Held s1 r.2 [] ∧ DirAt r.2 dp d ∧ DistinctKeys r.2.store d := by
      refine (hdir.writeDirent _ (by rw [hst]; exact hi.le)).andThen ?_
      rintro r s2 ⟨hheld2, hdir2, hcases⟩
      rcases hcases with ⟨hr, -⟩ | ⟨hr, hw⟩
      · rw [if_pos hr]
        trivial
      · rw [if_neg (not_not.mpr hr)]
        refine ⟨hheld2, hdir2, hw.unlink (hdir.good.allocated hdir.ready) ?_ (by rw [hst]; exact hi)⟩
        rw [hst]
        exact hd
    refine hclear.andThen ?_
    rintro ⟨⟩ s2 ⟨hheld2, hdir2, hd2⟩
    refine ((hheld.trans hheld2).iputQuiet hdir2.consistent).mono ?_
    rintro ⟨⟨⟩, s3⟩ ⟨hheld3, hc3, hq⟩
    -- The directory is referenced itself.
    replace hq : Quiet s2.store s3.store fun j => refs s j = 0 := hq.mono fun j hj => hj.1 ▸ hj.2.2.1
    have hother : refs s d ≠ 0 := (refs_pos.mpr ⟨dp, h.ready.1⟩).ne'
    exact ⟨hdir2.of_quiet hheld3.good (hheld3.valid dp d h.ready) hc3 hq hother,
      hq.distinctKeys hother (hdir2.good.allocated hdir2.ready) hdir2.size_le hd2⟩

theorem directory_keeps (h : DirAt s dp d ∧ DistinctKeys s.store d) (op : DirOp) :
    Outcome (fun _ => True) ((directory dp).step s op) fun s' => DirAt s' dp d ∧ DistinctKeys s'.store d := by
  apply Outcome.map
  cases op with
  | link name inum => exact (h.1.link h.2 name inum).andThen fun _ _ h' => h'
  | unlink name => exact h.1.unlink h.2 name

/-- **A directory is a finite map.** Let a directory be empty at first, and let entries be made and
erased in any order. Then no key is in two entries, and `dirlookup` returns what the key of the name is
bound to, with the offset of its entry. `dirlink` of a key in the map returns -1 and changes nothing; if
it returns 0 for another, the key and the number are in the map too. An inode that is looked up is put
into the table, and the only panic is that of a full table. -/
theorem directory_is_map (s s' : State) (dp d : ℕ) (h : DirAt s dp d) (hempty : (s.store.dinode d).size = 0)
    (hreach : (directory dp).Reaches s s') :
    DistinctKeys s'.store d ∧
    (∀ name, dirmap s'.store d (key name) = none → dirlookup dp name s' = .ok (none, s')) ∧
    (∀ name inum, dirmap s'.store d (key name) = some inum →
      ∃ k < (s'.store.dinode d).entries, direntAt s'.store (s'.store.dinode d) k = some (key name, inum) ∧
        Outcome (fun e => e = .igetNoInodes ∧ ninode ≤ s'.used) (dirlookup dp name s') fun r =>
          ∃ ip, r.1 = some (ip, direntSize * k) ∧ At r.2 ip inum ∧ r.2.store = s'.store) ∧
    ∀ name inum, 1 ≤ inum → inum ≤ 65535 →
      (dirmap s'.store d (key name) ≠ none →
        Outcome (fun e => e = .igetNoInodes ∧ ninode ≤ s'.used) (dirlink dp name inum s') fun r =>
          r.1 = -1 ∧ dirmap r.2.store d = dirmap s'.store d) ∧
      (dirmap s'.store d (key name) = none → ∃ r s'', dirlink dp name inum s' = .ok (r, s'') ∧
        (r = -1 ∧ dirmap s''.store d = dirmap s'.store d ∨
          r = 0 ∧ dirmap s''.store d = update (dirmap s'.store d) (key name) (some inum))) := by
  have hstart : DistinctKeys s.store d := by
    unfold DistinctKeys Dinode.entries
    rw [hempty]
    nofun
  obtain ⟨hdir, hdistinct⟩ := hreach.keeps (fun s op hs _ => directory_keeps hs op) ⟨h, hstart⟩
  have hall := hdir.good.allocated hdir.ready
  have hroom : s'.used < ninode ∨ Panic.igetNoInodes = .igetNoInodes ∧ ninode ≤ s'.used := by
    by_cases hfull : s'.used < ninode
    · exact .inl hfull
    · exact .inr ⟨rfl, by omega⟩
  refine ⟨hdistinct, fun name hnone => ?_, fun name inum hsome => ?_, fun name inum hlow hhigh => ⟨?_, ?_⟩⟩
  · exact hdir.dirlookup_absent (Assoc.lookup_eq_none.mp hnone)
  · obtain ⟨k, hk, hentry⟩ := (Assoc.lookup_eq_some hdistinct).mp hsome
    refine ⟨k, hk, hentry, ?_⟩
    refine (hdir.dirlookup_gets hroom ((Assoc.find_eq_some hdistinct).mpr ⟨hk, inum, hentry⟩) hentry).mono ?_
    intro r ⟨ip, hr, hst, hheld, _⟩
    exact ⟨ip, hr, hheld.held (ip, inum) List.mem_cons_self, hst⟩
  · intro hpresent
    refine (hdir.dirlink_present hroom fun hnone => hpresent (Assoc.lookup_eq_none.mpr hnone)).mono ?_
    intro r ⟨hr, _, hst⟩
    rw [hst]
    exact ⟨hr, rfl⟩
  · intro hnone
    replace hnone := Assoc.lookup_eq_none.mp hnone
    have hlink : Outcome (fun _ => False) (dirlink dp name inum s') _ := hdir.dirlink_absent hnone
    obtain ⟨⟨r, s''⟩, hr, -, -, hcases⟩ := Outcome.total.mp hlink
    refine ⟨r, s'', hr, ?_⟩
    rcases hcases with ⟨hr, hq⟩ | ⟨hr, k, hk, hfree, hw⟩
    · exact .inl ⟨hr, hq.dirmap id hall hdir.size_le⟩
    · have hmod : inum % 2 ^ 16 = inum := Nat.mod_eq_of_lt (by omega)
      have hadd := (hw.link hall hdistinct hk hfree hnone).2
      rw [hmod] at hadd
      exact .inr ⟨hr, hadd (by omega)⟩

/-- The small disk with a new directory, which is in entry 0 of the table. -/
def freshDirectory : State where
  store := claim 3 .dir sampleDisk
  inode := fun p => if p = 0 then ⟨3, 1, true, {Dinode.zero with type := .dir}⟩ else ⟨0, 0, false, .zero⟩

theorem freshDirectory_at (h : At freshDirectory p i) : p = 0 ∧ i = 3 := by
  obtain ⟨-, hpos, hinum⟩ := h
  grind [freshDirectory]

theorem freshDirectory_good : Good freshDirectory := by
  refine ⟨fun p hp q hq hp0 hq0 _ => ?_, fun p i hr => ?_⟩
  · rw [(freshDirectory_at ⟨hp, hp0, rfl⟩).1, (freshDirectory_at ⟨hq, hq0, rfl⟩).1]
  · obtain ⟨rfl, rfl⟩ := freshDirectory_at hr.1
    exact ⟨rfl, by decide⟩

theorem freshDirectory_dirAt : DirAt freshDirectory 0 3 where
  good := freshDirectory_good
  consistent := sampleDisk_consistent.claim rfl
  ready := ⟨by decide, rfl⟩
  type := rfl
  aligned := ⟨0, rfl⟩

/-- The name of one letter. -/
def letter (c : UInt8) : Bytes := fun j => if j = 0 then c else 0

/-- The directory gets a name, and then another. -/
theorem directory_is_map_second : ∃ s', (directory 0).step freshDirectory (.link (letter 97) 2) = .ok s' ∧
    dirmap s'.store 3 [97] = some 2 ∧ ∃ s'', dirlink 0 (letter 98) 2 s' = .ok (0, s'') ∧
      dirmap s''.store 3 = update (dirmap s'.store 3) [98] (some 2) := by
  obtain ⟨s', hs, hfirst, hnone, ⟨r, s''⟩, hr, hzero⟩ : ∃ s',
      (directory 0).step freshDirectory (.link (letter 97) 2) = .ok s' ∧
      dirmap s'.store 3 [97] = some 2 ∧ dirmap s'.store 3 (key (letter 98)) = none ∧
      ∃ r, dirlink 0 (letter 98) 2 s' = .ok r ∧ r.1 = 0 := by decide +kernel
  obtain rfl : r = 0 := hzero
  obtain ⟨-, -, -, hlink⟩ := directory_is_map freshDirectory s' 0 3 freshDirectory_dirAt rfl
    (.head (c := .link (letter 97) 2) trivial hs (.refl _))
  obtain ⟨r, t, ht, hcases⟩ := (hlink (letter 98) 2 (by decide) (by decide)).2 hnone
  cases hr.symm.trans ht
  rcases hcases with ⟨h0, -⟩ | ⟨-, hmap⟩
  · cases h0
  · exact ⟨s', hs, hfirst, s'', hr, hmap⟩

end Xv6.Fs
