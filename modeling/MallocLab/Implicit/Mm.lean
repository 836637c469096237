import MallocLab.Machine.Loop
import MallocLab.Skeleton.Policy

/-! The next-fit allocator of `implicit.c`, as it is compiled with `NEXT_FIT`. -/

namespace MallocLab.Implicit

/-- The static variables of `implicit.c`. -/
structure Statics where
  heapListp : Nat
  lastFreep : Nat

/-- The machine with these statics. -/
abbrev State := Heap Statics

/-- `last_freep = bp` -/
def remember (h : State) (bp : Nat) : State := { h with statics := { h.statics with lastFreep := bp } }

/-- Joins a free block with its free neighbours; the search goes on from a block that was joined. -/
def coalesce (h : State) (bp : Nat) : Option (State × Nat) :=
  let prevAlloc := getAlloc h (ftrp h (prevBlkp h bp))
  let nextAlloc := getAlloc h (hdrp (nextBlkp h bp))
  let size := getSize h (hdrp bp)
  -- The early return leaves `last_freep` alone.
  if prevAlloc ≠ 0 ∧ nextAlloc ≠ 0 then some (h, bp)
  else if prevAlloc ≠ 0 ∧ ¬ nextAlloc ≠ 0 then
    let size := add32 size (getSize h (hdrp (nextBlkp h bp)))
    let h := h.put (hdrp bp) (pack size 0)
    let h := h.put (ftrp h bp) (pack size 0)
    some (remember h bp, bp)
  else if ¬ prevAlloc ≠ 0 ∧ nextAlloc ≠ 0 then
    let size := add32 size (getSize h (hdrp (prevBlkp h bp)))
    let h := h.put (ftrp h bp) (pack size 0)
    let h := h.put (hdrp (prevBlkp h bp)) (pack size 0)
    let bp := prevBlkp h bp
    some (remember h bp, bp)
  else
    let size := add32 size
      (add32 (getSize h (hdrp (prevBlkp h bp))) (getSize h (ftrp h (nextBlkp h bp))))
    let h := h.put (hdrp (prevBlkp h bp)) (pack size 0)
    let h := h.put (ftrp h (nextBlkp h bp)) (pack size 0)
    let bp := prevBlkp h bp
    some (remember h bp, bp)

/-- Extends the heap by a number of words and returns the free block at its end. -/
def extendHeap : State → Nat → Option (State × Nat) := Skeleton.extendHeap coalesce

/-- One turn of the search from `last_freep` to the epilogue. -/
def forwardStep (h : State) (asize bp : Nat) : Nat ⊕ Option Nat :=
  if getSize h (hdrp bp) ≠ 0 then
    if ¬ getAlloc h (hdrp bp) ≠ 0 ∧ asize ≤ getSize h (hdrp bp) then .inr (some bp)
    else .inl (nextBlkp h bp)
  else .inr none

/-- One turn of the search from `heap_listp` to where the first one began; it may end at that pointer. -/
def wrappedStep (h : State) (asize oldLastFreep bp : Nat) : Nat ⊕ (Nat ⊕ Nat) :=
  if bp < oldLastFreep then
    if ¬ getAlloc h (hdrp bp) ≠ 0 ∧ asize ≤ getSize h (hdrp bp) then .inr (.inl bp)
    else .inl (nextBlkp h bp)
  else .inr (.inr bp)

/-- Searches from `last_freep` on, and then from the start of the heap; null when nothing fits. -/
def findFit (h : State) (asize : Nat) : Option (State × Nat) := do
  let oldLastFreep := h.statics.lastFreep
  match ← loop (forwardStep h asize) pointerTurns h.statics.lastFreep with
  | some bp => return (h, bp)
  | none =>
    match ← loop (wrappedStep h asize oldLastFreep) pointerTurns h.statics.heapListp with
    | .inl bp => return (h, bp)
    | .inr bp => return (remember h bp, null)

/-- One turn of the search that is compiled without `NEXT_FIT`. -/
def firstStep (h : State) (asize bp : Nat) : Nat ⊕ Nat :=
  if getSize h (hdrp bp) > 0 then
    if ¬ getAlloc h (hdrp bp) ≠ 0 ∧ asize ≤ getSize h (hdrp bp) then .inr bp
    else .inl (nextBlkp h bp)
  else .inr null

/-- `find_fit` as it is compiled without `NEXT_FIT`: it searches from the start of the heap. -/
def firstFit (h : State) (asize : Nat) : Option (State × Nat) :=
  (loop (firstStep h asize) pointerTurns h.statics.heapListp).map fun bp => (h, bp)

/-- Allocates from a free block, splitting it when the rest can be a block, which is then coalesced. -/
def place : State → Nat → Nat → Option State :=
  -- There is no list that the block has to be taken off.
  Skeleton.place (fun h _ => some h) fun h bp => (coalesce h bp).map Prod.fst

/-- The block size for a request. -/
def adjustedSize (size : Nat) : Nat :=
  if size ≤ dsize then 2 * dsize else mul32 dsize (add32 (add32 size dsize) (dsize - 1) / dsize)

/-- Creates the prologue, the epilogue and the first free block. -/
def mmInit (h : State) : Option (State × Int) := do
  let (h, p) := memSbrk h (toInt32 (4 * wsize))
  let h := { h with statics := { h.statics with heapListp := p } }
  if p = minusOne then return (h, -1)
  let h := h.put p 0
  let h := h.put (add32 p (1 * wsize)) (pack dsize 1)
  let h := h.put (add32 p (2 * wsize)) (pack dsize 1)
  let h := h.put (add32 p (3 * wsize)) (pack 0 1)
  let heapListp := add32 p (2 * wsize)
  let h := { h with statics := { heapListp := heapListp, lastFreep := heapListp } }
  let (h, bp) ← extendHeap h (chunksize / wsize)
  if bp = null then return (h, -1)
  return (h, 0)

/-- Returns a payload of at least `size` bytes, or null. -/
def mmMalloc : State → Nat → Option (State × Nat) := Skeleton.mmMalloc adjustedSize findFit place extendHeap

/-- Frees a block. -/
def mmFree : State → Nat → Option State := Skeleton.mmFree coalesce

/-- Moves a block into a new one of the requested size. -/
def mmRealloc : State → Nat → Nat → Option (State × Nat) :=
  Skeleton.mmRealloc mmMalloc Skeleton.headerSize mmFree

/-- `implicit.c` as its client sees it. -/
def mm : Allocator Statics where
  mmMalloc := mmMalloc
  mmFree := mmFree
  mmRealloc := mmRealloc

/-- No address wraps during the call. -/
abbrev NoWrap : State → Call → Prop := Skeleton.NoWrap adjustedSize findFit

end MallocLab.Implicit
