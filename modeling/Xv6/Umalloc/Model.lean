import Xv6.Machine.Basic
import Xv6.Machine.Run

/-! The allocator of user programs (user/umalloc.c).

Every block starts with a header: the address of the next free block and the size of the block
in headers, its own counted. The free blocks are on a list that comes back to `base`, and `freep`
is where the next search starts. A header can be read at any address.

Each `malloc` is given what `sbrk` answers to the calls it makes, in order: the address of new memory,
or `SBRK_ERROR` once the answers are used up. A process that cannot store a header there is killed at
the store, and its `malloc` does not return. -/
namespace Xv6.Umalloc

open Function (update)

def sizeofHeader : ℕ := 16

structure Heap where
  /-- `s.ptr` of the header at an address. -/
  ptr : ℕ → ℕ
  /-- `s.size` of the header at an address. -/
  size : ℕ → ℕ
  freep : ℕ
  /-- The memory `morecore` was given, as a start and a number of headers, the latest first. The
  code does not keep it. -/
  obtained : List (ℕ × ℕ)

/-- The search of `free` for the free block in front of `bp`. -/
def freeLoop (h : Heap) (bp : ℕ) : ℕ → ℕ → Result ℕ
  | 0, _ => .error .diverges
  | fuel + 1, p =>
    if bp > p ∧ bp < h.ptr p then .ok p
    -- At the end of the list, where it goes back to the lowest address.
    else if p ≥ h.ptr p ∧ (bp > p ∨ bp < h.ptr p) then .ok p
    else freeLoop h bp fuel (h.ptr p)

/-- `bp` takes in the free block behind it, or is linked to it. -/
def joinUpper (bp p : ℕ) (h : Heap) : Heap :=
  if bp + sizeofHeader * h.size bp = h.ptr p then
    let h := { h with size := update h.size bp (uint32 (h.size bp + h.size (h.ptr p))) }
    { h with ptr := update h.ptr bp (h.ptr (h.ptr p)) }
  else { h with ptr := update h.ptr bp (h.ptr p) }

/-- The free block in front takes in `bp`, or is linked to it. -/
def joinLower (bp p : ℕ) (h : Heap) : Heap :=
  if p + sizeofHeader * h.size p = bp then
    let h := { h with size := update h.size p (uint32 (h.size p + h.size bp)) }
    { h with ptr := update h.ptr p (h.ptr bp) }
  else { h with ptr := update h.ptr p bp }

def free (ap : ℕ) (h : Heap) : Result Heap := do
  let bp := ap - sizeofHeader
  let p ← freeLoop h bp loopFuel h.freep
  pure { joinLower bp p (joinUpper bp p h) with freep := p }

def request (nu : ℕ) : ℕ := if nu < 4096 then 4096 else nu

/-- New memory becomes a block, which is freed. Returns `freep`, or `0`, with the answers that
are left. -/
def morecore (nu : ℕ) : List ℕ → Heap → Result (ℕ × List ℕ × Heap)
  | [], h => .ok (0, [], h)
  | hp :: answers, h => do
    let nu := request nu
    let h ← free (hp + sizeofHeader)
      { h with size := update h.size hp nu, obtained := (hp, nu) :: h.obtained }
    pure (h.freep, answers, h)

/-- What `malloc` does with a block that is large enough: it is taken off the list, or cut and its
end taken. -/
def carve (nunits prevp p : ℕ) (h : Heap) : ℕ × Heap :=
  if h.size p = nunits then
    (p + sizeofHeader, { h with ptr := update h.ptr prevp (h.ptr p), freep := prevp })
  else
    let h := { h with size := update h.size p (h.size p - nunits) }
    let p := p + sizeofHeader * h.size p
    (p + sizeofHeader, { h with size := update h.size p nunits, freep := prevp })

def mallocLoop (nunits : ℕ) : ℕ → ℕ → ℕ → List ℕ → Heap → Result (ℕ × Heap)
  | 0, _, _, _, _ => .error .diverges
  | fuel + 1, prevp, p, answers, h =>
    if h.size p ≥ nunits then .ok (carve nunits prevp p h)
    else if p = h.freep then do
      let (p, answers, h) ← morecore nunits answers h
      if p = 0 then pure (0, h)
      else mallocLoop nunits fuel p (h.ptr p) answers h
    else mallocLoop nunits fuel p (h.ptr p) answers h

/-- The headers for `nbytes` bytes and the header in front. -/
def units (nbytes : ℕ) : ℕ := uint32 ((nbytes + sizeofHeader - 1) / sizeofHeader + 1 : ℕ)

/-- The list is set up at the first call, with `base` alone on it. -/
def Heap.setup (base : ℕ) (h : Heap) : Heap :=
  if h.freep = 0 then
    { h with ptr := update h.ptr base base, size := update h.size base 0, freep := base }
  else h

def malloc (base nbytes : ℕ) (answers : List ℕ) (h : Heap) : Result (ℕ × Heap) :=
  let h := h.setup base
  mallocLoop (units nbytes) loopFuel h.freep (h.ptr h.freep) answers h

/-! ### Programs -/

/-- A heap and the pointers the program holds, each with the bytes it asked for. -/
structure World where
  heap : Heap
  live : List (ℕ × ℕ)

inductive Call where
  | malloc (nbytes : ℕ) (answers : List ℕ)
  | free (ap : ℕ)
  /-- The program stores into its memory: the headers that would be read afterwards. -/
  | store (ptr size : ℕ → ℕ)

def step (base : ℕ) (w : World) : Call → Result World
  | .malloc nbytes answers => do
    let (r, h) ← malloc base nbytes answers w.heap
    pure ⟨h, if r = 0 then w.live else (r, nbytes) :: w.live⟩
  | .free ap => do
    let h ← free ap w.heap
    pure ⟨h, w.live.filter (·.1 ≠ ap)⟩
  | .store ptr size => pure ⟨{ w.heap with ptr := ptr, size := size }, w.live⟩

def Heap.top (base : ℕ) (h : Heap) : ℕ :=
  match h.obtained with
  | [] => base + sizeofHeader
  | (start, nu) :: _ => start + sizeofHeader * nu

/-- Each answer is the start of `nu` headers above `top` and above what the answers before gave. -/
def Fresh (nu : ℕ) : ℕ → List ℕ → Prop
  | _, [] => True
  | top, hp :: answers => top ≤ hp ∧ Fresh nu (hp + sizeofHeader * nu) answers

instance decidableFresh (nu : ℕ) : ∀ top answers, Decidable (Fresh nu top answers)
  | _, [] => .isTrue trivial
  | top, hp :: answers =>
    have := decidableFresh nu (hp + sizeofHeader * nu) answers
    inferInstanceAs (Decidable (top ≤ hp ∧ Fresh nu (hp + sizeofHeader * nu) answers))

/-- The program frees what it holds, and stores only into the bytes it asked for: a header that
overlaps none of them stays as it is. -/
def World.allowed (base : ℕ) (w : World) : Call → Prop
  | .malloc nbytes answers =>
    nbytes < 2 ^ 32 ∧ Fresh (request (units nbytes)) (w.heap.top base) answers
  | .free ap => ap ∈ w.live.map Prod.fst
  | .store ptr size => ∀ a, (∀ r ∈ w.live, a + sizeofHeader ≤ r.1 ∨ r.1 + r.2 ≤ a) →
      ptr a = w.heap.ptr a ∧ size a = w.heap.size a

def program (base : ℕ) : Protocol Fault World Call := ⟨step base, World.allowed base⟩

/-- A program starts with no list; what its memory holds does not matter. -/
def start (ptr size : ℕ → ℕ) : World := ⟨⟨ptr, size, 0, []⟩, []⟩

end Xv6.Umalloc
