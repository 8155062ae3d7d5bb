import Mathlib.Algebra.Order.BigOperators.Group.Finset
import Xv6.Bio.Cache

/-! The buffer cache under many processes.

Whatever the processes do, and in whatever order, the ring has each live buffer once, no
block has two buffers, and the reference count of a buffer is the number of its users
(`binit_consistent`). So a buffer that is recycled or freed has no users. -/
namespace Xv6.Bio
open Function
open Linked
open List (mem_cons mem_cons_of_mem range')

namespace Sys

/-- Processes that wait for the lock of a buffer, or have released it and not yet given
their reference back. -/
def waiters (n : ℕ) (s : Sys) (b : ℕ) : ℕ :=
  ∑ p ∈ Finset.range n, if (s.pc p).target = some b then 1 else 0

end Sys

/-- Processes that have the lock of a buffer: one or none. -/
def Buf.holders (buf : Buf) : ℕ := if buf.lock.isSome then 1 else 0

/-- No block has two buffers. Device 0 is that of buffers that were never used. -/
def Unique (bufs : ℕ → Buf) (xs : List ℕ) : Prop :=
  ∀ a ∈ xs, ∀ b ∈ xs, (bufs a).dev ≠ 0 → (bufs a).dev = (bufs b).dev →
    (bufs a).blockno = (bufs b).blockno → a = b

structure Consistent (head n : ℕ) (s : Sys) (xs : List ℕ) : Prop where
  cached : Cached head s.cache xs
  unique : Unique s.cache.bufs xs
  refcnt : ∀ b ∈ xs, (s.cache.bufs b).refcnt = (s.cache.bufs b).holders + s.waiters n b + s.pins b
  /-- Every buffer that is in use is there. -/
  target : ∀ p b, (s.pc p).target = some b → b ∈ xs
  reading : ∀ p b, s.pc p = .reading b → b ∈ xs ∧ (s.cache.bufs b).lock = some p
  pinned : ∀ b, 0 < s.pins b → b ∈ xs
  outside : ∀ p, n ≤ p → s.pc p = .running

variable {head n p b a dev blockno alloc : ℕ} {s s' : Sys} {c : Bcache} {xs : List ℕ} {pc : Pc}
  {e : Event}

@[simp] theorem goto_self : (s.goto p pc).pc p = pc := update_self ..

theorem goto_of_ne {q : ℕ} (h : q ≠ p) : (s.goto p pc).pc q = s.pc q := update_of_ne h ..

@[simp] theorem setBuf_self {f : Buf → Buf} : (c.setBuf b f).bufs b = f (c.bufs b) :=
  update_self ..

theorem setBuf_of_ne {f : Buf → Buf} (h : a ≠ b) : (c.setBuf b f).bufs a = c.bufs a :=
  update_of_ne h ..

/-- A buffer after `bread` has got the lock. -/
def Buf.read (disk : ℕ → Block) (buf : Buf) : Buf :=
  {buf with valid := true, data := if buf.valid then buf.data else disk buf.blockno}

theorem fill_eq : c.fill b = c.setBuf b (Buf.read c.disk) := by
  unfold Bcache.fill
  split
  case isTrue hvalid =>
    have hsame : (c.bufs b).read c.disk = c.bufs b := by
      simp only [Buf.read, hvalid, if_true]
      rw [← hvalid]
    rw [Bcache.setBuf, hsame, update_eq_self]
  case isFalse hvalid =>
    have hread : (c.bufs b).read c.disk = (c.bufs b).fill c.disk := by
      simp only [Buf.read, Buf.fill, hvalid, if_false, Bool.false_eq_true]
    rw [Bcache.setBuf, Bcache.setBuf, hread]

theorem Unique.setBuf (h : Unique c.bufs xs) {f : Buf → Buf} (hdev : ∀ buf, (f buf).dev = buf.dev)
    (hblock : ∀ buf, (f buf).blockno = buf.blockno) : Unique (c.setBuf b f).bufs xs := by
  have hid : ∀ a, ((c.setBuf b f).bufs a).dev = (c.bufs a).dev ∧
      ((c.setBuf b f).bufs a).blockno = (c.bufs a).blockno := by
    intro a
    by_cases hab : a = b
    · grind [setBuf_self]
    · rw [setBuf_of_ne hab]
      exact ⟨rfl, rfl⟩
  intro a ha x hx
  rw [(hid a).1, (hid a).2, (hid x).1, (hid x).2]
  exact h a ha x hx

theorem Unique.assign (h : Unique c.bufs xs)
    (hnone : ∀ a ∈ xs, ¬ ((c.bufs a).dev = dev ∧ (c.bufs a).blockno = blockno)) {buf : Buf} :
    Unique (update c.bufs b (buf.assign dev blockno)) (b :: xs) := by
  intro a ha x hx
  by_cases hab : a = b
  · by_cases hxb : x = b
    · exact fun _ _ _ => hab.trans hxb.symm
    · have hx' := hnone x ((mem_cons.mp hx).resolve_left hxb)
      rw [hab, update_self, update_of_ne hxb]
      exact fun _ hd hb => absurd ⟨hd.symm, hb.symm⟩ hx'
  · have ha' := (mem_cons.mp ha).resolve_left hab
    by_cases hxb : x = b
    · rw [hxb, update_of_ne hab, update_self]
      exact fun _ hd hb => absurd ⟨hd, hb⟩ (hnone a ha')
    · rw [update_of_ne hab, update_of_ne hxb]
      exact h a ha' x ((mem_cons.mp hx).resolve_left hxb)

theorem waiters_goto (pc : Pc) (hp : p < n) (b : ℕ) :
    (s.goto p pc).waiters n b + (if (s.pc p).target = some b then 1 else 0) =
      s.waiters n b + if pc.target = some b then 1 else 0 := by
  have hmem : p ∈ Finset.range n := Finset.mem_range.mpr hp
  unfold Sys.waiters
  rw [← Finset.add_sum_erase _ _ hmem, ← Finset.add_sum_erase _ (fun q => if (s.pc q).target = _ then 1 else 0) hmem,
    goto_self]
  have hrest : ∑ q ∈ (Finset.range n).erase p, (if ((s.goto p pc).pc q).target = some b then 1 else 0) =
      ∑ q ∈ (Finset.range n).erase p, if (s.pc q).target = some b then 1 else 0 := by
    refine Finset.sum_congr rfl fun q hq => ?_
    rw [goto_of_ne (Finset.ne_of_mem_erase hq)]
  rw [hrest]
  omega

theorem waiters_enter (hp : p < n) (hold : (s.pc p).target = none) (hnew : pc.target = some b) (a : ℕ) :
    (s.goto p pc).waiters n a = s.waiters n a + if a = b then 1 else 0 := by
  grind [waiters_goto]

theorem waiters_pos (hp : p < n) (ht : (s.pc p).target = some b) : 0 < s.waiters n b := by
  refine Finset.sum_pos' (fun _ _ => Nat.zero_le _) ⟨p, Finset.mem_range.mpr hp, ?_⟩
  rw [if_pos ht]
  exact Nat.one_pos

namespace Consistent

section
variable (h : Consistent head n s xs)
include h

theorem unused (hb : b ∈ xs) (hfree : (s.cache.bufs b).refcnt = 0) :
    (s.cache.bufs b).lock = none ∧ s.pins b = 0 ∧ ∀ p, (s.pc p).target ≠ some b ∧ s.pc p ≠ .reading b := by
  have hsum := h.refcnt b hb
  rw [hfree] at hsum
  have hlock : (s.cache.bufs b).lock = none := by
    cases hl : (s.cache.bufs b).lock with
    | none => rfl
    | some q =>
      grind [Buf.holders]
  refine ⟨hlock, by omega, fun p => ⟨fun ht => ?_, fun hr => ?_⟩⟩
  · by_cases hp : p < n
    · have := waiters_pos (s := s) hp ht
      omega
    · rw [h.outside p (Nat.not_lt.mp hp)] at ht
      cases ht
  · have := (h.reading p b hr).2
    rw [hlock] at this
    cases this

theorem unused_of_not_mem (hb : b ∉ xs) :
    s.pins b = 0 ∧ s.waiters n b = 0 ∧ ∀ p, (s.pc p).target ≠ some b ∧ s.pc p ≠ .reading b := by
  have htarget : ∀ p, (s.pc p).target ≠ some b := fun p ht => hb (h.target p b ht)
  refine ⟨Nat.eq_zero_of_not_pos fun hpos => hb (h.pinned b hpos), ?_,
    fun p => ⟨htarget p, fun hr => hb (h.reading p b hr).1⟩⟩
  exact Finset.sum_eq_zero fun p _ => if_neg (htarget p)

theorem goto_target (hnew : ∀ b, pc.target = some b → b ∈ xs) (q b : ℕ)
    (hq : ((s.goto p pc).pc q).target = some b) : b ∈ xs := by
  grind [goto_self, goto_of_ne, Consistent.target]

section
variable (hp : p < n)
include hp

theorem goto_outside (q : ℕ) (hq : n ≤ q) : (s.goto p pc).pc q = .running := by
  rw [goto_of_ne (by omega)]
  exact h.outside q hq

/-! ### The steps -/

/-- Process `p` goes on and changes the buffer `b`: the references it takes and gives back
are counted. -/
theorem moves (hb : b ∈ xs) {f : Buf → Buf} (hunique : Unique (s.cache.setBuf b f).bufs xs)
    (hold : ∀ a, (s.pc p).target = some a → a = b) (hnew : ∀ a, pc.target = some a → a = b)
    (hreads : ∀ a, pc = .reading a → a = b ∧ (f (s.cache.bufs b)).lock = some p)
    (hothers : ∀ q, q ≠ p → s.pc q = .reading b → (f (s.cache.bufs b)).lock = (s.cache.bufs b).lock)
    (hsum : (f (s.cache.bufs b)).refcnt + (s.cache.bufs b).holders +
        (if (s.pc p).target.isSome then 1 else 0) =
      (s.cache.bufs b).refcnt + (f (s.cache.bufs b)).holders + if pc.target.isSome then 1 else 0) :
    Consistent head n ((s.withCache (s.cache.setBuf b f)).goto p pc) xs := by
  have hind : ∀ {o : Option ℕ}, (∀ a, o = some a → a = b) → ∀ a,
      (if o = some a then 1 else 0) = if a = b then (if o.isSome then 1 else 0) else 0 := by
    intro o ho a
    cases o with
    | none => simp
    | some x =>
      grind
  refine ⟨h.cached.setBuf b f, hunique, fun a ha => ?_, h.goto_target fun a ha => ?_,
    fun q a hq => ?_, h.pinned, h.goto_outside hp⟩
  · have hw := waiters_goto (s := s) pc hp a
    rw [hind hold, hind hnew] at hw
    have hrefcnt := h.refcnt a ha
    show ((s.cache.setBuf b f).bufs a).refcnt = ((s.cache.setBuf b f).bufs a).holders +
      Sys.waiters n (s.goto p pc) a + s.pins a
    grind [setBuf_self, setBuf_of_ne]
  · rw [hnew a ha]
    exact hb
  · by_cases hqp : q = p
    · subst hqp
      rw [goto_self] at hq
      obtain ⟨rfl, hl⟩ := hreads a hq
      exact ⟨hb, by rw [← hl]; exact congrArg Buf.lock setBuf_self⟩
    · rw [goto_of_ne hqp] at hq
      obtain ⟨ha, hl⟩ := h.reading q a hq
      refine ⟨ha, ?_⟩
      show ((s.cache.setBuf b f).bufs a).lock = some q
      by_cases hab : a = b
      · subst hab
        rw [setBuf_self, hothers q hqp hq]
        exact hl
      · rw [setBuf_of_ne hab]
        exact hl

theorem found (hrun : s.pc p = .running) (hb : b ∈ xs) :
    Consistent head n ((s.withCache (s.cache.setBuf b Buf.ref)).goto p (.waiting b)) xs := by
  refine h.moves hp hb (h.unique.setBuf (fun _ => rfl) fun _ => rfl) ?_ ?_ (by simp) (fun _ _ _ => rfl) ?_
  · simp [hrun, Pc.target]
  · simp [Pc.target]
  · rw [hrun]
    show (s.cache.bufs b).refcnt + 1 + (s.cache.bufs b).holders + 0 =
      (s.cache.bufs b).refcnt + (s.cache.bufs b).holders + 1
    omega

theorem acquires (hwait : s.pc p = .waiting b) (hfree : (s.cache.bufs b).lock = none) :
    Consistent head n ((s.withCache (s.cache.setBuf b (Buf.setLock (some p)))).goto p (.reading b)) xs := by
  have hb : b ∈ xs := h.target p b (by rw [hwait]; rfl)
  refine h.moves hp hb (h.unique.setBuf (fun _ => rfl) fun _ => rfl) ?_ (by simp [Pc.target]) ?_ (fun q _ hq => ?_) ?_
  · simp [hwait, Pc.target]
  · simp [Buf.setLock]
  · rw [(h.reading q b hq).2] at hfree
    cases hfree
  · rw [hwait, Buf.holders, hfree]
    rfl

theorem fills (hread : s.pc p = .reading b) :
    Consistent head n ((s.withCache (s.cache.fill b)).goto p .running) xs := by
  rw [fill_eq]
  refine h.moves hp (h.reading p b hread).1 (h.unique.setBuf (fun _ => rfl) fun _ => rfl) ?_
    (by simp [Pc.target]) (by simp) (fun _ _ _ => rfl) ?_
  · simp [hread, Pc.target]
  · rw [hread]
    rfl

theorem releases (hholds : s.Holds p b) :
    Consistent head n ((s.withCache (s.cache.setBuf b (Buf.setLock none))).goto p (.releasing b)) xs := by
  obtain ⟨hrun, hlive, hlock⟩ := hholds
  have hb : b ∈ xs := h.cached.mem_live.mp hlive
  refine h.moves hp hb (h.unique.setBuf (fun _ => rfl) fun _ => rfl) ?_ (by simp [Pc.target]) (by simp) (fun q hqp hq => ?_) ?_
  · simp [hrun, Pc.target]
  · rw [(h.reading q b hq).2] at hlock
    exact absurd (Option.some.inj hlock) hqp
  · rw [hrun, Buf.holders, hlock]
    rfl

end

theorem modifies (b : ℕ) (data : Block) :
    Consistent head n (s.withCache (s.cache.setBuf b (Buf.setData data))) xs := by
  have hbuf : ∀ a, ((s.cache.setBuf b (Buf.setData data)).bufs a).lock = (s.cache.bufs a).lock ∧
      ((s.cache.setBuf b (Buf.setData data)).bufs a).refcnt = (s.cache.bufs a).refcnt := by
    intro a
    by_cases hab : a = b
    · subst hab
      rw [setBuf_self]
      exact ⟨rfl, rfl⟩
    · rw [setBuf_of_ne hab]
      exact ⟨rfl, rfl⟩
  refine ⟨h.cached.setBuf b _, h.unique.setBuf (fun _ => rfl) fun _ => rfl, fun a ha => ?_, h.target,
    fun q a hq => ?_, h.pinned, h.outside⟩
  · show ((s.cache.setBuf b (Buf.setData data)).bufs a).refcnt =
      ((s.cache.setBuf b (Buf.setData data)).bufs a).holders + s.waiters n a + s.pins a
    rw [Buf.holders, (hbuf a).1, (hbuf a).2]
    exact h.refcnt a ha
  · refine ⟨(h.reading q a hq).1, ?_⟩
    show ((s.cache.setBuf b (Buf.setData data)).bufs a).lock = some q
    rw [(hbuf a).1]
    exact (h.reading q a hq).2

theorem writes (b : ℕ) : Consistent head n (s.withCache (s.cache.write b)) xs :=
  ⟨⟨h.cached.ring, h.cached.live, h.cached.count, h.cached.enough, h.cached.bounded, h.cached.freed⟩,
    h.unique, h.refcnt, h.target, h.reading, h.pinned, h.outside⟩

theorem recycles (hp : p < n) (hrun : s.pc p = .running) (hb : b ∈ xs)
    (hfree : (s.cache.bufs b).refcnt = 0)
    (hnone : ∀ a ∈ xs, ¬ ((s.cache.bufs a).dev = dev ∧ (s.cache.bufs a).blockno = blockno)) :
    Consistent head n ((s.withCache (s.cache.setBuf b (Buf.assign dev blockno))).goto p (.waiting b))
      xs := by
  have hunique : Unique (s.cache.setBuf b (Buf.assign dev blockno)).bufs xs := fun a ha x hx =>
    h.unique.assign hnone a (mem_cons_of_mem _ ha) x (mem_cons_of_mem _ hx)
  refine h.moves hp hb hunique ?_ (by simp [Pc.target]) (by simp) (fun _ _ _ => rfl) ?_
  · simp [hrun, Pc.target]
  · rw [hrun, hfree]
    show 1 + (s.cache.bufs b).holders + 0 = 0 + (s.cache.bufs b).holders + 1
    omega

theorem grows (hp : p < n) (hrun : s.pc p = .running)
    (hfresh : s.Fresh head alloc) (halloc : alloc ≠ 0)
    (hnone : ∀ a ∈ xs, ¬ ((s.cache.bufs a).dev = dev ∧ (s.cache.bufs a).blockno = blockno)) :
    Consistent head n ((s.withCache {s.cache.insert head alloc (Buf.zero.assign dev blockno) with
      count := s.cache.count + 1}).goto p (.waiting alloc)) (alloc :: xs) := by
  obtain ⟨hhead, hlive, hlt⟩ := hfresh halloc
  have hnew : alloc ∉ xs := fun hmem => hlive (h.cached.mem_live.mpr hmem)
  have hmem : alloc ∉ head :: xs := fun hmem => (mem_cons.mp hmem).elim hhead hnew
  obtain ⟨hpins, hwaiters, huse⟩ := h.unused_of_not_mem hnew
  refine ⟨h.cached.insert hmem hlt _, h.unique.assign hnone, fun a ha => ?_, fun q a hq => ?_,
    fun q a hq => ?_, fun a ha => mem_cons_of_mem _ (h.pinned a ha), h.goto_outside hp⟩
  · have hw : Sys.waiters n (s.goto p (.waiting alloc)) a = s.waiters n a + if a = alloc then 1 else 0 :=
      waiters_enter hp (by rw [hrun]; rfl) rfl a
    show (update s.cache.bufs alloc (Buf.zero.assign dev blockno) a).refcnt =
      (update s.cache.bufs alloc (Buf.zero.assign dev blockno) a).holders +
        Sys.waiters n (s.goto p (.waiting alloc)) a + s.pins a
    rw [hw]
    by_cases hab : a = alloc
    · rw [hab, update_self, hwaiters, hpins, if_pos rfl]
      rfl
    · rw [update_of_ne hab, if_neg hab]
      exact h.refcnt a ((mem_cons.mp ha).resolve_left hab)
  · by_cases hqp : q = p
    · subst hqp
      rw [goto_self] at hq
      cases hq
      exact List.mem_cons_self ..
    · rw [goto_of_ne hqp] at hq
      exact mem_cons_of_mem _ (h.target q a hq)
  · have hqp : q ≠ p := by
      rintro rfl
      rw [goto_self] at hq
      cases hq
    rw [goto_of_ne hqp] at hq
    obtain ⟨ha, hl⟩ := h.reading q a hq
    refine ⟨mem_cons_of_mem _ ha, ?_⟩
    show (update s.cache.bufs alloc _ a).lock = some q
    grind

theorem shrinks {c' : Bcache} {xs' : List ℕ} (hc : Cached head c' xs')
    (hs : Shrunk s.cache c' xs xs') : Consistent head n (s.withCache c') xs' := by
  have hstay : ∀ {b}, b ∈ xs → (s.cache.bufs b).refcnt ≠ 0 → b ∈ xs' := fun {b} hb hne => by
    by_contra hnot
    exact hne (hs.unused b hb hnot)
  have hbufs : (s.withCache c').cache.bufs = s.cache.bufs := hs.bufs
  refine ⟨hc, ?_, ?_, fun q b hq => ?_, fun q b hq => ?_, fun b hb => ?_, h.outside⟩
  · rw [hbufs]
    exact fun a ha b hb => h.unique a (hs.subset ha) b (hs.subset hb)
  · rw [hbufs]
    exact fun b hb => h.refcnt b (hs.subset hb)
  · exact hstay (h.target q b hq) fun hzero => ((h.unused (h.target q b hq) hzero).2.2 q).1 hq
  · rw [hbufs]
    have hb := (h.reading q b hq).1
    exact ⟨hstay hb fun hzero => ((h.unused hb hzero).2.2 q).2 hq, (h.reading q b hq).2⟩
  · exact hstay (h.pinned b hb) fun hzero => hb.ne' (h.unused (h.pinned b hb) hzero).2.1

theorem brelses (hp : p < n) (hrel : s.pc p = .releasing b) :
    ∃ c' xs', Bcache.brelse head b s.cache = .ok c' ∧ Shrunk (s.cache.setBuf b Buf.unref) c' xs xs' ∧
      (∀ a ∈ xs, a ∉ xs' → ((s.cache.setBuf b Buf.unref).bufs a).lock = none ∧ s.pins a = 0) ∧
      Consistent head n ((s.withCache c').goto p .running) xs' := by
  have htarget : (s.pc p).target = some b := by rw [hrel]; rfl
  have hb : b ∈ xs := h.target p b htarget
  have hpos : 0 < (s.cache.bufs b).refcnt := by
    have := h.refcnt b hb
    grind [waiters_pos]
  obtain ⟨c', xs', hc', hcached, hshrunk⟩ := h.cached.brelse hb
  have hmoved : Consistent head n ((s.withCache (s.cache.setBuf b Buf.unref)).goto p .running) xs := by
    refine h.moves hp hb (h.unique.setBuf (fun _ => rfl) fun _ => rfl) ?_ (by simp [Pc.target]) (by simp)
      (fun _ _ _ => rfl) ?_
    · simp [hrel, Pc.target]
    · rw [hrel]
      show (s.cache.bufs b).refcnt - 1 + (s.cache.bufs b).holders + 1 =
        (s.cache.bufs b).refcnt + (s.cache.bufs b).holders + 0
      omega
  refine ⟨c', xs', hc', hshrunk, fun a ha hnot => ?_, hmoved.shrinks hcached hshrunk⟩
  obtain ⟨hlock, hpins, _⟩ := hmoved.unused ha (hshrunk.unused a ha hnot)
  exact ⟨hlock, hpins⟩

theorem pins (hb : b ∈ xs) {f : Buf → Buf} {k : ℕ}
    (hdev : ∀ buf, (f buf).dev = buf.dev) (hblock : ∀ buf, (f buf).blockno = buf.blockno)
    (hlock : ∀ buf, (f buf).lock = buf.lock)
    (hsum : (f (s.cache.bufs b)).refcnt + s.pins b = (s.cache.bufs b).refcnt + k) :
    Consistent head n {s with cache := s.cache.setBuf b f, pins := update s.pins b k} xs := by
  refine ⟨h.cached.setBuf b f, h.unique.setBuf hdev hblock, fun a ha => ?_, h.target, fun q a hq => ?_,
    fun a ha => ?_, h.outside⟩
  · have hrefcnt := h.refcnt a ha
    show ((s.cache.setBuf b f).bufs a).refcnt = ((s.cache.setBuf b f).bufs a).holders + s.waiters n a +
      update s.pins b k a
    by_cases hab : a = b
    · subst hab
      rw [setBuf_self, update_self, Buf.holders, hlock, ← Buf.holders]
      omega
    · rw [setBuf_of_ne hab, update_of_ne hab]
      exact hrefcnt
  · grind [Consistent.reading, setBuf_self, setBuf_of_ne]
  · grind [Consistent.pinned, update_of_ne]

theorem step (ha : s.allowed head n e) :
    Outcome (· = .panic .bgetNoMemory) (s.step head e) fun s' => ∃ xs', Consistent head n s' xs' := by
  cases e with
  | bget p dev blockno alloc =>
    obtain ⟨hp, hrun, hfresh⟩ := ha
    refine h.cached.bget.bind ?_
    rintro ⟨b, c⟩ hgot
    cases hgot with
    | found hb hdev hblock => exact ⟨xs, h.found hp hrun hb⟩
    | recycled hb hfree hnone => exact ⟨xs, h.recycles hp hrun hb hfree hnone⟩
    | grown halloc _ hnone => exact ⟨_, h.grows hp hrun hfresh halloc hnone⟩
  | acquiresleep p =>
    rw [Sys.step]
    split
    case h_1 b hwait =>
      split
      case isTrue hfree => exact ⟨xs, h.acquires ha hwait hfree⟩
      case isFalse => exact ⟨xs, h⟩
    case h_2 => exact ⟨xs, h⟩
  | fill p =>
    rw [Sys.step]
    split
    case h_1 b hread => exact ⟨xs, h.fills ha hread⟩
    case h_2 => exact ⟨xs, h⟩
  | modify p b data => exact ⟨xs, h.modifies b data⟩
  | bwrite p b =>
    rw [Sys.step, if_pos ha.2.2.2]
    exact ⟨xs, h.writes b⟩
  | releasesleep p b =>
    rw [Sys.step, if_pos ha.2.2.2]
    exact ⟨xs, h.releases ha.1 ha.2⟩
  | brelse p =>
    rw [Sys.step]
    split
    case h_1 b hrel =>
      obtain ⟨c', xs', hc', _, _, hcons⟩ := h.brelses ha hrel
      rw [hc']
      exact ⟨xs', hcons⟩
    case h_2 => exact ⟨xs, h⟩
  | bpin p b =>
    have hb := h.cached.mem_live.mp ha.2.2.1
    refine ⟨xs, h.pins hb (fun _ => rfl) (fun _ => rfl) (fun _ => rfl) ?_⟩
    show (s.cache.bufs b).refcnt + 1 + s.pins b = (s.cache.bufs b).refcnt + (s.pins b + 1)
    omega
  | bunpin p b =>
    have hpos : 0 < s.pins b := ha.2
    have hb := h.pinned b hpos
    refine ⟨xs, h.pins hb (fun _ => rfl) (fun _ => rfl) (fun _ => rfl) ?_⟩
    have hrefcnt := h.refcnt b hb
    show (s.cache.bufs b).refcnt - 1 + s.pins b = (s.cache.bufs b).refcnt + (s.pins b - 1)
    omega

theorem run {es : List Event} (hp : (buffers head n).Proper s es) :
    Outcome (· = .panic .bgetNoMemory) ((buffers head n).run s es) fun s' =>
      ∃ xs', Consistent head n s' xs' :=
  Protocol.run_outcome (fun _ _ _ ⟨_, hs⟩ ha => hs.step ha) ⟨xs, h⟩ hp

end

end Consistent

/-! ### From `binit` on -/

theorem binitLoop_ring {allocs : List ℕ} (hring : Ring c.links head xs) (hlive : c.live = xs)
    (hnodup : (head :: (allocs.reverse ++ xs)).Nodup) :
    Outcome (· = .panic .binitAlloc) (Bcache.binitLoop head allocs c) fun c' =>
      Ring c'.links head (allocs.reverse ++ xs) ∧ c'.live = allocs.reverse ++ xs ∧
        c'.freed = c.freed ∧ ∀ b, (b ∈ allocs → c'.bufs b = .zero) ∧ (b ∉ allocs → c'.bufs b = c.bufs b) := by
  induction allocs generalizing c xs with
  | nil => exact ⟨hring, hlive, rfl, fun b => ⟨fun hb => absurd hb List.not_mem_nil, fun _ => rfl⟩⟩
  | cons x allocs ih =>
    rw [List.reverse_cons, List.append_assoc] at hnodup ⊢
    have hx : x ∉ head :: xs ∧ x ∉ allocs := by
      grind [List.nodup_append]
    unfold Bcache.binitLoop
    split
    case isTrue => rfl
    case isFalse =>
      refine (ih (hring.insertAfter hx.1) (congrArg (x :: ·) hlive) hnodup).mono ?_
      rintro c' ⟨hring', hlive', hfreed, hbufs⟩
      refine ⟨hring', hlive', hfreed, fun b => ⟨fun hb => ?_, fun hb => ?_⟩⟩
      · by_cases hin : b ∈ allocs
        · exact (hbufs b).1 hin
        · rw [(hbufs b).2 hin, (mem_cons.mp hb).resolve_right hin]
          exact update_self ..
      · rw [mem_cons, not_or] at hb
        rw [(hbufs b).2 hb.2]
        exact update_of_ne hb.1 ..

theorem binit_cached {bufCache : ℕ} {allocs : List ℕ} (hlive : c.live = []) (hfreed : c.freed = [])
    (hnodup : (head :: allocs).Nodup) (hlen : allocs.length = nbuf)
    (hlt : ∀ b ∈ head :: allocs, b < 2 ^ 64) :
    Outcome (fun e => e = .panic .bufCache ∨ e = .panic .binitAlloc) (Bcache.binit head bufCache allocs c)
      fun c' => Consistent head n (Sys.start c') allocs.reverse := by
  have hring : Ring ⟨update c.links.next head head, update c.links.prev head head⟩ head [] :=
    ⟨List.nodup_singleton _, List.isChain_pair.mpr ⟨update_self .., update_self ..⟩⟩
  have hperm : allocs.reverse.Perm allocs := List.reverse_perm allocs
  have hlength : allocs.reverse.length = nbuf := List.length_reverse.trans hlen
  have hnodup' : (head :: (allocs.reverse ++ [])).Nodup := by
    rwa [List.append_nil, (hperm.cons head).nodup_iff]
  unfold Bcache.binit
  split
  case isTrue => exact .inl rfl
  case isFalse =>
    have hloop := binitLoop_ring (c := {c with links := _}) hring hlive hnodup'
    refine (hloop.imp fun e he => Or.inr he).bind ?_
    rintro c' ⟨hring', hlive', hfreed', hbufs⟩
    rw [List.append_nil] at hring' hlive'
    have hzero : ∀ b ∈ allocs.reverse, c'.bufs b = .zero := fun b hb => (hbufs b).1 (hperm.mem_iff.mp hb)
    have hnone : ∀ b, (Sys.start {c' with count := nbuf}).waiters n b = 0 := fun b =>
      Finset.sum_eq_zero fun p _ => rfl
    refine ⟨⟨hring', hlive' ▸ List.Perm.refl _, ?_, ?_, fun b hb => ?_, ?_⟩, fun a ha b hb hdev => ?_,
      fun b hb => ?_, ?_, ?_, ?_, fun _ _ => rfl⟩
    · exact hlength.symm
    · exact hlength.ge
    · exact hlt b ((hperm.cons head).mem_iff.mp hb)
    · show ∀ buf ∈ c'.freed, _
      grind
    · rw [show (Sys.start {c' with count := nbuf}).cache.bufs a = .zero from hzero a ha] at hdev
      exact absurd rfl hdev
    · rw [hnone, show (Sys.start {c' with count := nbuf}).cache.bufs b = .zero from hzero b hb]
      rfl
    · exact fun p b hp => by cases hp
    · exact fun p b hp => by cases hp
    · exact fun b hb => absurd hb (Nat.lt_irrefl 0)

/-- After `binit`, processes that use buffers in any order never stop but for lack of memory,
and every state they reach is consistent. -/
theorem binit_consistent (head n bufCache : ℕ) (allocs : List ℕ) (hlive : c.live = []) (hfreed : c.freed = [])
    (hnodup : (head :: allocs).Nodup) (hlen : allocs.length = nbuf)
    (hlt : ∀ b ∈ head :: allocs, b < 2 ^ 64) :
    Outcome (fun e => e = .panic .bufCache ∨ e = .panic .binitAlloc) (Bcache.binit head bufCache allocs c)
      fun c' => ∀ es, (buffers head n).Proper (Sys.start c') es →
        Outcome (· = .panic .bgetNoMemory) ((buffers head n).run (Sys.start c') es) fun s =>
          ∃ xs, Consistent head n s xs :=
  (binit_cached hlive hfreed hnodup hlen hlt).mono fun _ h _ hp => h.run hp

def uncached : Bcache := ⟨⟨fun _ => 0, fun _ => 0⟩, fun _ => .zero, 0, fun _ _ => 0, [], []⟩

/-- The cache after `binit`, with buffers at 2 to 31. -/
def booted : Bcache := (Bcache.binit 1 1 (range' 2 nbuf) uncached).toOption.getD uncached

/-- Two processes read one block; the first one pins it while the second one waits. -/
def sharing : List Event :=
  [.bget 0 1 45 0, .bget 1 1 45 0, .acquiresleep 0, .fill 0, .acquiresleep 1, .modify 0 2 fun _ => 7,
    .bpin 0 2, .releasesleep 0 2, .brelse 0]

theorem binit_consistent_sharing : Bcache.binit 1 1 (range' 2 nbuf) uncached = .ok booted ∧
      ∃ s, (buffers 1 2).run (Sys.start booted) sharing = .ok s ∧ s.pc 1 = .waiting 2 ∧
        (s.cache.bufs 2).refcnt = 2 ∧ ∃ xs, Consistent 1 2 s xs := by
  have hboot : Bcache.binit 1 1 (range' 2 nbuf) uncached = .ok booted := rfl
  have hproper : (buffers 1 2).Proper (Sys.start booted) sharing := by decide +kernel
  have hsees : ((buffers 1 2).run (Sys.start booted) sharing).toOption.map
      (fun s => (s.pc 1, (s.cache.bufs 2).refcnt)) = some (.waiting 2, 2) := by decide +kernel
  generalize booted = c at hboot hproper hsees ⊢
  have hafter := Outcome.of_ok (binit_consistent (c := uncached) 1 2 1 (range' 2 nbuf) rfl rfl
    (by decide) (by decide) (by decide)) hboot
  have hrun := hafter sharing hproper
  cases hs : (buffers 1 2).run (Sys.start c) sharing with
  | error e =>
    rw [hs] at hsees
    cases hsees
  | ok s =>
    rw [hs] at hsees hrun
    obtain ⟨hpc, hrefcnt⟩ := Prod.mk.inj (Option.some.inj hsees)
    exact ⟨hboot, s, rfl, hpc, hrefcnt, hrun⟩

end Xv6.Bio
