import Mathlib.Data.List.DropRight
import Xv6.Fs.Operations

/-! Paths.

`resolve` is the walk along a path through the directories as maps: there are no locks in it and no
references, and the path is a list of keys. `namex` does that walk if every inode on the way is in use and
the inode table has room for it (`Walkable`), and panics otherwise. It returns the inode with one
reference, or no inode, and what it took on the way it has given back. -/
namespace Xv6.Fs
open Function

variable {s0 s : State} {E : Panic → Prop} {name q : Bytes} {path l p : List UInt8} {parent : Bool}
  {ip i n fuel : ℕ}

/-! ### Components -/

/-- What is between the slashes, as directories know it. -/
def components (path : List UInt8) : List (List UInt8) :=
  ((path.splitOn slash).filter (· ≠ [])).map (·.take dirsiz)

theorem components_slash (path : List UInt8) : components (slash :: path) = components path := by
  unfold components
  rw [List.splitOn_cons_eq_if_modifyHead]
  simp

theorem components_dropWhile (path : List UInt8) : components (path.dropWhile (· = slash)) = components path := by
  induction path with
  | nil => rfl
  | cons c path ih =>
    rw [List.dropWhile_cons]
    by_cases hc : c = slash
    · subst hc
      rw [if_pos (by simp), ih, components_slash]
    · rw [if_neg (by simpa using hc)]

theorem components_eq_nil : components path = [] ↔ path.dropWhile (· = slash) = [] := by
  induction path with
  | nil => simp [components]
  | cons c path ih =>
    by_cases hc : c = slash
    · subst hc
      rw [components_slash, ih, List.dropWhile_cons_of_pos (by simp)]
    · obtain ⟨l, ls, hsplit⟩ := List.exists_cons_of_ne_nil (List.splitOn_ne_nil slash path)
      unfold components
      rw [List.dropWhile_cons_of_neg (by simpa using hc), List.splitOn_cons_eq_if_modifyHead,
        if_neg (by simpa using hc), hsplit]
      simp

theorem components_append (hno : slash ∉ l) (hne : l ≠ []) (hp : ∀ c ∈ p.head?, c = slash) :
    components (l ++ p) = l.take dirsiz :: components p := by
  cases p with
  | nil =>
    unfold components
    rw [List.append_nil, List.splitOn_eq_singleton hno]
    simp [hne]
  | cons c p =>
    obtain rfl := hp c rfl
    rw [components_slash]
    unfold components
    rw [List.splitOn_append_cons_self_of_not_mem hno]
    simp [hne]

theorem cstr_take (h0 : 0 ∉ l) (h : ∀ j ≤ l.length, j < n → q j = l.getD j 0) : cstr q n = l.take n := by
  induction n generalizing q l with
  | zero => rfl
  | succ n ih =>
    unfold cstr
    cases l with
    | nil =>
      have hq : q 0 = 0 := h 0 (Nat.zero_le _) (by omega)
      rw [if_pos hq, List.take_nil]
    | cons c l =>
      have hq : q 0 = c := h 0 (Nat.zero_le _) (by omega)
      have hc : c ≠ 0 := fun hc => h0 (hc ▸ List.mem_cons_self)
      rw [hq, if_neg hc, List.take_succ_cons, ih (fun hl => h0 (List.mem_cons_of_mem c hl))]
      intro j hj hjn
      exact h (j + 1) (Nat.succ_le_succ hj) (by omega)

theorem skipelem_none (h : skipelem path name = none) : components path = [] := by
  unfold skipelem at h
  by_cases hnil : path.dropWhile (· = slash) = []
  · exact components_eq_nil.mpr hnil
  · rw [if_neg hnil] at h
    cases h

theorem skipelem_some (h : skipelem path name = some (p, q)) (h0 : 0 ∉ path) :
    components path = key q :: components p ∧ 0 ∉ p ∧ p.length < path.length ∧ (p = [] ↔ components p = []) := by
  unfold skipelem at h
  by_cases hnil : path.dropWhile (· = slash) = []
  · rw [if_pos hnil] at h
    cases h
  rw [if_neg hnil] at h
  obtain ⟨rfl, rfl⟩ := Prod.mk.inj (Option.some.inj h)
  have hhead := List.head?_dropWhile_not (· = slash) path
  have hsub : (path.dropWhile (· = slash)).Sublist path := List.dropWhile_sublist _
  have hcomponents := components_dropWhile path
  generalize path.dropWhile (· = slash) = tail at *
  have hsplit : tail.takeWhile (· ≠ slash) ++ tail.dropWhile (· ≠ slash) = tail := List.takeWhile_append_dropWhile
  have hne : tail.takeWhile (· ≠ slash) ≠ [] := by
    cases tail with
    | nil => exact hnil
    | cons c tail =>
      rw [List.takeWhile_cons_of_pos (by simpa using hhead)]
      exact List.cons_ne_nil _ _
  have hno : slash ∉ tail.takeWhile (· ≠ slash) := by
    intro hmem
    simpa using List.all_eq_true.mp List.all_takeWhile slash hmem
  have hrest := List.head?_dropWhile_not (· ≠ slash) tail
  generalize tail.takeWhile (· ≠ slash) = elem at *
  generalize tail.dropWhile (· ≠ slash) = rest at *
  subst hsplit
  refine ⟨?_, ?_, ?_, ?_⟩
  · rw [← hcomponents, components_append hno hne (by cases rest <;> simp_all), components_dropWhile]
    congr 1
    symm
    refine cstr_take (fun h => h0 (hsub.subset (List.mem_append_left _ h))) fun j hj hjn => ?_
    split
    · rw [Bytes.copy_inside (Nat.zero_le j) (by omega), Nat.sub_zero]
    · by_cases hlast : j = elem.length
      · rw [hlast, update_self]
        simp
      · rw [update_of_ne hlast, Bytes.copy_inside (Nat.zero_le j) (by omega), Nat.sub_zero]
  · exact fun h => h0 (hsub.subset (List.mem_append_right _ ((List.dropWhile_sublist _).subset h)))
  · have hlen := hsub.length_le
    have hle := (List.dropWhile_sublist (l := rest) (· = slash)).length_le
    have hpos := List.length_pos_of_ne_nil hne
    rw [List.length_append] at hlen
    omega
  · rw [components_eq_nil, List.dropWhile_idempotent]

/-! ### The walk -/

/-- Where the keys lead from inode `i`, and the last of them. With `parent` the last is not looked up. -/
def resolve (st : Store) (parent : Bool) : List (List UInt8) → ℕ → List UInt8 → Option (ℕ × List UInt8)
  | [], i, k => if parent then none else some (i, k)
  | k :: ks, i, _ =>
    if (st.dinode i).type ≠ .dir then none
    else if parent ∧ ks = [] then some (i, k)
    else (dirmap st i k).bind fun j => resolve st parent ks j k

/-- The disk has the inode, and if it is in use, then `iput` does not free it. -/
def Kept (s : State) (i : ℕ) : Prop :=
  i < s.store.sb.ninodes ∧ (s.Allocated i → (s.store.dinode i).nlink ≠ 0 ∨ 0 < refs s i)

/-- What has a name may be free, but it is not about to be freed. -/
structure Rooted (s : State) : Prop where
  root : Kept s rootino
  aligned : ∀ d, s.Allocated d → (s.store.dinode d).type = .dir → direntSize ∣ (s.store.dinode d).size
  named : ∀ d k j, s.Allocated d → (s.store.dinode d).type = .dir → dirmap s.store d k = some j → Kept s j

/-- The table has an entry for inode `j`, or room for one, while inode `i` is held. -/
def Room (s : State) (i j : ℕ) : Prop :=
  0 < refs s j ∨ j = i ∨ s.used + (if 0 < refs s i then 0 else 1) < ninode

/-- Along the keys, every inode whose type is looked at is in use, and there is room for the next one. -/
def Walks (s : State) (parent : Bool) : List (List UInt8) → ℕ → Prop
  | [], _ => True
  | k :: ks, i => s.Allocated i ∧ ((s.store.dinode i).type = .dir → ¬ (parent ∧ ks = []) →
      ∀ j, dirmap s.store i k = some j → Room s i j ∧ Walks s parent ks j)

/-- So it is along a path, from the root or from inode `c`. -/
def Walkable (s : State) (parent : Bool) (path : List UInt8) (c : ℕ) : Prop :=
  if path.head? = some slash then
    (0 < refs s rootino ∨ s.used < ninode) ∧ Walks s parent (components path) rootino
  else Walks s parent (components path) c

/-- An inode comes with one reference to it, and nothing else is held. -/
def Found (s0 : State) (ip : Option ℕ) (s : State) : Option ℕ → Prop
  | none => ip = none ∧ Held s0 s []
  | some i => ∃ p, ip = some p ∧ Held s0 s [(p, i)]

/-- The walk ended where it should, and the disk is as it was. -/
def Arrived (s0 : State) (r : (Option ℕ × Bytes) × State) (found : Option (ℕ × List UInt8)) : Prop :=
  r.2.store = s0.store ∧ Found s0 r.1.1 r.2 (found.map Prod.fst) ∧ ∀ x ∈ found, key r.1.2 = x.2

theorem Held.used_eq (h : Held s0 s [(ip, i)]) (h₀ : Good s0) :
    s.used = s0.used + if 0 < Fs.refs s0 i then 0 else 1 := by
  refine h₀.keyed.card_inUse_insert h.good.keyed fun j => ?_
  have hj := h.refs j
  unfold Fs.refs at hj
  rw [hj]
  by_cases hji : j = i
  · subst hji
    simp
  · simp [hji, Ne.symm hji]

theorem allocated_congr (h : s.store = s0.store) : s.Allocated i ↔ s0.Allocated i := by
  unfold State.Allocated
  rw [h]

theorem used_le_ninode (s : State) : s.used ≤ ninode :=
  (Finset.card_filter_le ..).trans (Finset.card_range ninode).le

/-- An inode that was taken had an entry, or there was room for one. -/
theorem Held.room {s' : State} {j : ℕ} (h : Held s0 s [(ip, i)]) (h₀ : Good s0) (h' : Held s s' [(n, j)]) :
    Room s0 i j := by
  have hused := h.used_eq h₀
  have hused' := h'.used_eq h.good
  have hle := used_le_ninode s'
  have hrefs := h.refs j
  by_cases hpos : 0 < Fs.refs s j
  · by_cases hji : j = i
    · exact .inr (.inl hji)
    · simp [Ne.symm hji] at hrefs
      exact .inl (by omega)
  · rw [if_neg hpos] at hused'
    exact .inr (.inr (by omega))

theorem DirAt.dirlookup_map (h : DirAt s ip i) (name : Bytes)
    (hroom : ∀ j, dirmap s.store i (key name) = some j → (∃ p, At s p j) ∨ s.used < ninode ∨ E .igetNoInodes) :
    Outcome E (dirlookup ip name s) fun r => r.2.store = s.store ∧
      match dirmap s.store i (key name) with
      | none => r.1 = none ∧ Held s r.2 []
      | some j => ∃ q off, r.1 = some (q, off) ∧ Held s r.2 [(q, j)] := by
  unfold dirmap Assoc.lookup at hroom ⊢
  cases hfind : Assoc.find (direntAt s.store (s.store.dinode i)) (s.store.dinode i).entries (key name) with
  | none =>
    rw [h.dirlookup_absent (Assoc.find_eq_none.mp hfind)]
    exact ⟨rfl, rfl, .refl h.good⟩
  | some k =>
    obtain ⟨-, j, hj⟩ := Assoc.find_some hfind
    rw [hfind, Option.bind_some, hj] at hroom
    rw [Option.bind_some, hj, h.dirlookup_found hfind hj]
    refine (h.good.iget (hroom j rfl)).bind ?_
    rintro ⟨q, s'⟩ ⟨hst, hheld, -⟩
    exact ⟨hst, q, _, rfl, hheld⟩

section
variable (h₀ : Good s0) (hc : Consistent s0.store s0.store.dinode) (hroot : Rooted s0)
include h₀ hc hroot

/-- The induction is on the rounds of the loop. Whoever holds the inode at the start of a round may put it
without freeing it. -/
theorem namexLoop_resolves (hst : s.store = s0.store) (h : Held s0 s [(ip, i)]) (hi : Kept s0 i)
    (hpath : 0 ∉ path) (hfuel : path.length < fuel) :
    Outcome (fun _ => ¬ Walks s0 parent (components path) i) (namexLoop parent fuel ip path name s) fun r =>
      Walks s0 parent (components path) i ∧
        Arrived s0 r (resolve s0.store parent (components path) i (key name)) := by
  induction fuel generalizing s ip i path name with
  | zero => omega
  | succ fuel ih =>
    unfold namexLoop
    have hat : At s ip i := h.held (ip, i) List.mem_cons_self
    have hkept : (s.inode ip).valid = true → (s0.store.dinode i).nlink ≠ 0 ∨ 0 < refs s0 i := fun hvalid =>
      hi.2 ((allocated_congr hst).mp (h.good.allocated ⟨hat, hvalid⟩))
    cases hskip : skipelem path name with
    | none =>
      rw [skipelem_none hskip]
      cases parent with
      | false => exact ⟨trivial, hst, ⟨ip, rfl, h⟩, fun x hx => by cases hx; rfl⟩
      | true =>
        refine (h.iput fun hvalid => hst ▸ (hkept hvalid).imp_right .inl).andThen ?_
        rintro ⟨⟩ s1 ⟨hst1, h1⟩
        exact ⟨trivial, hst1.trans hst, ⟨rfl, h1⟩, fun x hx => by cases hx⟩
    | some r =>
      obtain ⟨path', name'⟩ := r
      obtain ⟨hpath', hzero, hshort, hlast⟩ := skipelem_some hskip hpath
      rw [hpath', resolve, Walks]
      refine (h.good.ilock hat (hst ▸ hi.1) ?_).andThen ?_
      · rw [hst]
        exact (em _).imp_right fun hfree hw => hfree hw.1.2
      rintro ⟨⟩ s1 ⟨hst1, h1, hready⟩
      replace hst1 : s1.store = s0.store := hst1.trans hst
      replace h1 : Held s0 s1 [(ip, i)] := h.trans h1
      have hall : s0.Allocated i := (allocated_congr hst1).mp (h1.good.allocated hready)
      have hip : (s1.ip ip).type = (s0.store.dinode i).type := by
        rw [h1.good.ip_eq hready, hst1]
      -- To put the inode changes nothing, whatever else is held.
      have hput : ∀ {E s l}, s.store = s0.store → Held s0 s ((ip, i) :: l) →
          Outcome E (iunlockput ip s) fun r => r.2.store = s0.store ∧ Held s0 r.2 l := by
        intro E s l hs hl
        rw [← hs]
        exact hl.iunlockput (hs ▸ (hi.2 hall).imp_right .inl)
      show Outcome _ (if (s1.ip ip).type ≠ .dir then _ else _) _
      rw [hip]
      split
      · rename_i hnot
        refine (hput hst1 h1).andThen ?_
        rintro ⟨⟩ s2 ⟨hst2, h2⟩
        exact ⟨⟨hall, fun hdir => absurd hdir hnot⟩, hst2, ⟨rfl, h2⟩, fun x hx => by cases hx⟩
      rename_i hdir
      replace hdir := not_not.mp hdir
      simp only [← hlast]
      split
      · rename_i hstop
        exact (h1.held (ip, i) List.mem_cons_self).iunlock
          ⟨⟨hall, fun _ hgo => absurd hstop hgo⟩, hst1, ⟨ip, rfl, h1⟩, fun x hx => by cases hx; rfl⟩
      rename_i hgo
      have hdirAt : DirAt s1 ip i :=
        ⟨h1.good, hst1 ▸ hc, hready, hst1 ▸ hdir, hst1 ▸ hroot.aligned i hall hdir⟩
      refine (hdirAt.dirlookup_map name' fun j hj => ?_).andThen ?_
      · rw [hst1] at hj
        by_cases hroom : Room s0 i j
        · rw [← refs_pos, h1.refs, h1.used_eq h₀]
          rcases hroom with hpos | rfl | hused
          · exact .inl (by omega)
          · exact .inl (by simp)
          · exact .inr (.inl hused)
        · exact .inr (.inr fun hw => hroom (hw.2 hdir hgo j hj).1)
      rintro found s2 ⟨hst2, hfound⟩
      rw [hst1] at hst2 hfound
      cases hnext : dirmap s0.store i (key name') with
      | none =>
        rw [hnext] at hfound
        obtain ⟨rfl, h2⟩ := hfound
        refine (hput hst2 (h1.trans h2)).andThen ?_
        rintro ⟨⟩ s3 ⟨hst3, h3⟩
        exact ⟨⟨hall, fun _ _ j hj => by cases hj⟩, hst3, ⟨rfl, h3⟩, fun x hx => by cases hx⟩
      | some j =>
        rw [hnext] at hfound
        obtain ⟨q, off, rfl, h2⟩ := hfound
        have hj := hroot.named i (key name') j hall hdir hnext
        have hroom : Room s0 i j := h1.room h₀ h2
        refine (hput hst2 ((h1.trans h2).perm (.swap ..))).andThen ?_
        rintro ⟨⟩ s3 ⟨hst3, h3⟩
        refine ((ih hst3 h3 hj hzero (by omega)).imp fun _ hnot hw => hnot (hw.2 hdir hgo j rfl).2).mono ?_
        rintro r ⟨hw, harrived⟩
        exact ⟨⟨hall, fun _ _ j' hj' => by cases hj'; exact ⟨hroom, hw⟩⟩, harrived⟩

end

theorem namex_walks (cwd c : ℕ) (path : List UInt8) (parent : Bool) (name : Bytes) (h : Good s)
    (hc : Consistent s.store s.store.dinode) (hroot : Rooted s) (hat : At s cwd c)
    (hin : c < s.store.sb.ninodes) (hpath : 0 ∉ path) :
    Outcome (fun _ => ¬ Walkable s parent path c) (namex cwd path parent name s) fun r =>
      Walkable s parent path c ∧ Arrived s r (resolve s.store parent (components path)
        (if path.head? = some slash then rootino else c) (key name)) := by
  unfold namex Walkable
  split
  · refine (h.iget ?_).andThen ?_
    · rw [← refs_pos, ← or_assoc]
      exact (em _).imp_right fun hfull hw => hfull hw.1
    rintro ip s1 ⟨hst, hheld, -⟩
    refine ((namexLoop_resolves h hc hroot hst hheld hroot.root hpath (by omega)).imp
      fun _ hnot hw => hnot hw.2).mono fun r hr => ⟨⟨?_, hr.1⟩, hr.2⟩
    have hused : s1.used = _ := hheld.used_eq h
    have hle := used_le_ninode s1
    by_cases hpos : 0 < refs s rootino
    · exact .inl hpos
    · rw [if_neg hpos] at hused
      exact .inr (by omega)
  · refine (h.idup hat).andThen ?_
    rintro ip s1 ⟨rfl, hst, hheld⟩
    exact namexLoop_resolves h hc hroot hst hheld ⟨hin, fun _ => .inr (refs_pos.mpr ⟨_, hat⟩)⟩ hpath (by omega)

/-- **`namei` and `nameiparent` walk along a path.** Let no inode that has a name be about to be freed. They
return, and the walk ends where `resolve` says, exactly when every inode on the way is in use and the table
has room for it. The inode comes with one reference to it, and `nameiparent` with the name of the last
component; every other reference has been given back, and the disk is as it was. -/
theorem namex_resolves (s : State) (cwd c : ℕ) (path : List UInt8) (name : Bytes) (h : Good s)
    (hc : Consistent s.store s.store.dinode) (hroot : Rooted s) (hat : At s cwd c)
    (hin : c < s.store.sb.ninodes) (hpath : 0 ∉ path) :
    let start := if path.head? = some slash then rootino else c
    ((∃ r, namei cwd path s = .ok r ∧ r.2.store = s.store ∧
      Found s r.1 r.2 ((resolve s.store false (components path) start []).map Prod.fst)) ↔
        Walkable s false path c) ∧
    ((∃ r, nameiparent cwd path name s = .ok r ∧
      Arrived s r (resolve s.store true (components path) start (key name))) ↔ Walkable s true path c) := by
  have hall := fun parent name => namex_walks cwd c path parent name h hc hroot hat hin hpath
  have hkey : key (fun _ => 0) = [] := rfl
  refine ⟨⟨?_, fun hw => ?_⟩, ⟨?_, fun hw => ?_⟩⟩
  · rintro ⟨r, hr, -⟩
    have hnamei : Outcome _ (namei cwd path s) fun _ => Walkable s false path c :=
      (hall false fun _ => 0).bind fun _ hr => hr.1
    exact hnamei.of_ok hr
  · obtain ⟨r, hr, -, hst, hfound, -⟩ := Outcome.total.mp ((hall false fun _ => 0).imp fun _ hnot => hnot hw)
    refine ⟨(r.1.1, r.2), ?_, hst, hkey ▸ hfound⟩
    show (namex cwd path false (fun _ => 0) s >>= _) = _
    rw [hr]
    rfl
  · rintro ⟨r, hr, -⟩
    exact ((hall true name).of_ok hr).1
  · obtain ⟨r, hr, -, harrived⟩ := Outcome.total.mp ((hall true name).imp fun _ hnot => hnot hw)
    exact ⟨r, hr, harrived⟩

theorem freshDirectory_rooted : Rooted freshDirectory := by
  have hdir : ∀ d, (freshDirectory.store.dinode d).type = .dir → d = 1 ∨ d = 3 := by
    intro d hd
    by_contra hne
    replace hd : (update sampleDisk.dinode 3 {Dinode.zero with type := .dir} d).type = .dir := hd
    rw [update_of_ne (by omega)] at hd
    unfold sampleDisk Dinode.zero at hd
    grind
  refine ⟨⟨by decide, fun _ => .inl (by decide)⟩, fun d _ hd => ?_, fun d k j _ hd hj => ?_⟩
  · rcases hdir d hd with rfl | rfl <;> decide
  · obtain ⟨i, hi, hj⟩ := Option.bind_eq_some_iff.mp hj
    replace hi := (Assoc.find_some hi).1
    rcases hdir d hd with rfl | rfl
    · replace hi : i < 3 := hi
      obtain rfl | rfl | rfl : i = 0 ∨ i = 1 ∨ i = 2 := by omega
      all_goals
        obtain rfl := Option.some.inj hj
        exact ⟨by decide, fun _ => .inl (by decide)⟩
    · exact absurd hi (Nat.not_lt_zero i)

/-- The path `/a`, from a directory that has no name. -/
theorem namex_resolves_file : ∃ r, namei 0 [slash, 97] freshDirectory = .ok r ∧
    Found freshDirectory r.1 r.2 (some 2) := by
  have hpath : components [slash, 97] = [[97]] := by decide
  have hwalk : resolve freshDirectory.store false [[97]] rootino [] = some (2, [97]) := by decide
  have hwalks : Walks freshDirectory false [[97]] rootino :=
    ⟨by decide, fun _ _ j _ => ⟨.inr (.inr (by decide)), trivial⟩⟩
  have hwalkable : Walkable freshDirectory false [slash, 97] 3 := by
    rw [Walkable, if_pos List.head?_cons, hpath]
    exact ⟨.inr (by decide), hwalks⟩
  obtain ⟨r, hr, -, hfound⟩ := (namex_resolves freshDirectory 0 3 [slash, 97] (fun _ => 0) freshDirectory_good
    freshDirectory_dirAt.consistent freshDirectory_rooted (by decide) (by decide) (by decide)).1.mpr hwalkable
  rw [hpath, if_pos List.head?_cons, hwalk] at hfound
  exact ⟨r, hr, hfound⟩

/-- A directory, inode 4, is the parent of inode 3, and is removed: `..` of inode 3 names a free inode then. -/
def orphaned : List Operation :=
  [.ialloc .dir, .ilock 1, .dirlink 0 (fun j => if j < 2 then 46 else 0) 4, .iput 1]

/-- The path `../a`, from there. -/
theorem namex_panics : ∃ s, operations.run freshDirectory orphaned = .ok s ∧
    namei 0 [46, 46, slash, 97] s = .error .ilockNoType := by
  obtain ⟨s, hs, hpanic⟩ : ∃ s, operations.run freshDirectory orphaned = .ok s ∧
      (namei 0 [46, 46, slash, 97] s).map (fun _ => ()) = .error .ilockNoType := by
    decide +kernel
  refine ⟨s, hs, ?_⟩
  cases hx : namei 0 [46, 46, slash, 97] s with
  | ok r =>
    rw [hx] at hpanic
    cases hpanic
  | error e =>
    rw [hx] at hpanic
    cases hpanic
    rfl

end Xv6.Fs
