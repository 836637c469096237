import MallocLab.Skeleton.Bare

/-! The allocator of `bestfit.c`, which means to search for the smallest block that fits. -/

namespace MallocLab.BestFit

/-- The static variable of `bestfit.c`. -/
structure Statics where
  heapListp : Nat

/-- The machine with this static variable. -/
abbrev State := Heap Statics

/-- Joins a free block with its free neighbours. -/
def coalesce : State → Nat → Option (State × Nat) := Skeleton.bareCoalesce fun h _ => h

/-- Extends the heap by a number of words and returns the free block at its end. -/
def extendHeap : State → Nat → Option (State × Nat) := Skeleton.extendHeap coalesce

/-- `SIZE_MAX` -/
def sizeMax : Nat := 2 ^ 32 - 1

/-- `MIN(x, y)` -/
def minWord (x y : Nat) : Nat := if x < y then x else y

/-- The variables of `find_fit`. -/
structure Search where
  asize : Nat
  bp : Nat
  min : Nat
  findBp : Nat

/-- One turn of the loop of `find_fit`, and what follows the loop. -/
def findTurn (h : State) (s : Search) : Search ⊕ Nat :=
  if getSize h (hdrp s.bp) > 0 then
    if ¬ getAlloc h (hdrp s.bp) ≠ 0 ∧ s.asize ≤ getSize h (hdrp s.bp) then
      -- The condition assigns the size of the block, and holds unless that is zero.
      let s := { s with asize := getSize h (hdrp s.bp) }
      if s.asize ≠ 0 then .inr s.bp
      else .inl { s with bp := nextBlkp h s.bp, min := minWord (getSize h (hdrp s.bp)) s.min, findBp := s.bp }
    else .inl { s with bp := nextBlkp h s.bp }
  else if s.findBp = null then .inr null
  else .inr s.findBp

/-- Searches the heap from its prologue on; null when nothing fits. -/
def findFit (h : State) (asize : Nat) : Option (State × Nat) :=
  (loop (findTurn h) pointerTurns
    { asize := asize, bp := h.statics.heapListp, min := sizeMax, findBp := null }).map fun bp => (h, bp)

/-- Allocates from a free block, splitting it when the rest can be a block, which is then coalesced. -/
def place : State → Nat → Nat → Option State :=
  Skeleton.place (fun h _ => some h) fun h bp => (coalesce h bp).map Prod.fst

/-- The block size for a request. -/
def adjustedSize (size : Nat) : Nat :=
  if size ≤ dsize then 2 * dsize else mul32 dsize (add32 (add32 size dsize) (dsize - 1) / dsize)

/-- Creates the prologue, the epilogue and the first free block. -/
def mmInit (h : State) : Option (State × Int) := do
  let (h, p) := memSbrk h (toInt32 (4 * wsize))
  let h := { h with statics := { heapListp := p } }
  if p = minusOne then return (h, -1)
  let h := h.put p 0
  let h := h.put (add32 p (1 * wsize)) (pack dsize 1)
  let h := h.put (add32 p (2 * wsize)) (pack dsize 1)
  let h := h.put (add32 p (3 * wsize)) (pack 0 1)
  let h := { h with statics := { heapListp := add32 p (2 * wsize) } }
  let (h, bp) ← extendHeap h (chunksize / wsize)
  if bp = null then return (h, -1)
  return (h, 0)

/-- Returns a payload of at least `size` bytes, or null. -/
def mmMalloc : State → Nat → Option (State × Nat) := Skeleton.mmMalloc adjustedSize findFit place extendHeap

/-- Frees a block. -/
def mmFree : State → Nat → Option State := Skeleton.mmFree coalesce

/-- Moves a block into a new one of the requested size. -/
def mmRealloc : State → Nat → Nat → Option (State × Nat) :=
  Skeleton.mmRealloc mmMalloc Skeleton.headerSize mmFree

/-- `bestfit.c` as its client sees it. -/
def mm : Allocator Statics where
  mmMalloc := mmMalloc
  mmFree := mmFree
  mmRealloc := mmRealloc

/-- No address wraps during the call. -/
abbrev NoWrap : State → Call → Prop := Skeleton.NoWrap adjustedSize findFit

end MallocLab.BestFit
