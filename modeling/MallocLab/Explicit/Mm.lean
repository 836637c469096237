import MallocLab.Machine.Loop
import MallocLab.Skeleton.Policy

/-! The explicit free-list allocator of `mm.c`. -/

namespace MallocLab.Explicit

/-- The static variables of `mm.c`. -/
structure Statics where
  heapListp : Nat
  freeListp : Nat

/-- The machine with the statics of `mm.c`. -/
abbrev State := Heap Statics

/-- The least block that can be free. -/
def minimum : Nat := 16

/-- The word `PREC_FREEP(bp)` -/
def precFreep (bp : Nat) : Nat := bp

/-- The word `SUCC_FREEP(bp)` -/
def succFreep (bp : Nat) : Nat := add32 bp wsize

/-- Unlinks a block from the free list; a null link would be dereferenced and fault. -/
def removeBlock (h : State) (bp : Nat) : Option State :=
  if bp = h.statics.freeListp then do
    let succ := h.get (succFreep bp)
    let h ← h.putChecked succ (precFreep succ) null
    return { h with statics := { h.statics with freeListp := h.get (succFreep bp) } }
  else do
    let prec := h.get (precFreep bp)
    let h ← h.putChecked prec (succFreep prec) (h.get (succFreep bp))
    let succ := h.get (succFreep bp)
    h.putChecked succ (precFreep succ) (h.get (precFreep bp))

/-- Links a block in at the front of the free list. -/
def putFreeBlock (h : State) (bp : Nat) : Option State := do
  let h := h.put (succFreep bp) h.statics.freeListp
  let h := h.put (precFreep bp) null
  let h ← h.putChecked h.statics.freeListp (precFreep h.statics.freeListp) bp
  return { h with statics := { h.statics with freeListp := bp } }

/-- Joins a free block with its free neighbours and lists the result. -/
def coalesce (h : State) (bp : Nat) : Option (State × Nat) :=
  let prevAlloc := getAlloc h (ftrp h (prevBlkp h bp))
  let nextAlloc := getAlloc h (hdrp (nextBlkp h bp))
  let size := getSize h (hdrp bp)
  if prevAlloc ≠ 0 ∧ nextAlloc ≠ 0 then do
    let h ← putFreeBlock h bp
    return (h, bp)
  else if prevAlloc ≠ 0 ∧ ¬ nextAlloc ≠ 0 then do
    let h ← removeBlock h (nextBlkp h bp)
    let size := add32 size (getSize h (hdrp (nextBlkp h bp)))
    let h := h.put (hdrp bp) (pack size 0)
    let h := h.put (ftrp h bp) (pack size 0)
    let h ← putFreeBlock h bp
    return (h, bp)
  else if ¬ prevAlloc ≠ 0 ∧ nextAlloc ≠ 0 then do
    let h ← removeBlock h (prevBlkp h bp)
    let size := add32 size (getSize h (hdrp (prevBlkp h bp)))
    let bp := prevBlkp h bp
    let h := h.put (hdrp bp) (pack size 0)
    let h := h.put (ftrp h bp) (pack size 0)
    let h ← putFreeBlock h bp
    return (h, bp)
  else do
    let h ← removeBlock h (prevBlkp h bp)
    let h ← removeBlock h (nextBlkp h bp)
    let size := add32 size
      (add32 (getSize h (hdrp (prevBlkp h bp))) (getSize h (ftrp h (nextBlkp h bp))))
    let bp := prevBlkp h bp
    let h := h.put (hdrp bp) (pack size 0)
    let h := h.put (ftrp h bp) (pack size 0)
    let h ← putFreeBlock h bp
    return (h, bp)

/-- Extends the heap by a number of words and returns the free block at its end. -/
def extendHeap : State → Nat → Option (State × Nat) := Skeleton.extendHeap coalesce

/-- One turn of the search: a large enough free block, the end of the list, or the next block. -/
def findFitStep (h : State) (asize bp : Nat) : Nat ⊕ Nat :=
  if getAlloc h (hdrp bp) ≠ 1 then
    if asize ≤ getSize h (hdrp bp) then .inr bp else .inl (h.get (succFreep bp))
  else .inr null

/-- First fit along the free list, up to the allocated prologue; the search changes nothing. -/
def findFit (h : State) (asize : Nat) : Option (State × Nat) :=
  (loop (findFitStep h asize) pointerTurns h.statics.freeListp).map fun bp => (h, bp)

/-- Allocates from a free block, splitting it when the rest can be a block. -/
def place : State → Nat → Nat → Option State := Skeleton.place removeBlock putFreeBlock

/-- Creates the prologue, the epilogue and the first free block; the result is zero on success. -/
def mmInit (h : State) : Option (State × Int) := do
  let (h, heapListp) := memSbrk h (toInt32 (6 * wsize))
  let h := { h with statics := { h.statics with heapListp := heapListp } }
  if heapListp = minusOne then return (h, -1)
  let h := h.put heapListp 0
  let h := h.put (add32 heapListp (1 * wsize)) (pack minimum 1)
  let h := h.put (add32 heapListp (2 * wsize)) null
  let h := h.put (add32 heapListp (3 * wsize)) null
  let h := h.put (add32 heapListp (4 * wsize)) (pack minimum 1)
  let h := h.put (add32 heapListp (5 * wsize)) (pack 0 1)
  let h := { h with statics := { h.statics with freeListp := add32 heapListp (2 * wsize) } }
  let (h, bp) ← extendHeap h (chunksize / wsize)
  if bp = null then return (h, -1)
  return (h, 0)

/-- Returns a payload of at least `size` bytes, or null. -/
def mmMalloc : State → Nat → Option (State × Nat) :=
  Skeleton.mmMalloc Skeleton.adjustedSize findFit place extendHeap

/-- Frees a block. -/
def mmFree : State → Nat → Option State := Skeleton.mmFree coalesce

/-- `mm_realloc`, with any function in the place of `memcpy`. -/
def mmReallocBy (memcpy : Memcpy Statics) : State → Nat → Nat → Option (State × Nat) :=
  Skeleton.reallocBy memcpy mmMalloc Skeleton.headerSize mmFree

/-- Moves a block into a new one of the requested size. -/
def mmRealloc : State → Nat → Nat → Option (State × Nat) := mmReallocBy Heap.memcpy

/-- `mm.c` as its client sees it. -/
def mm : Allocator Statics where
  mmMalloc := mmMalloc
  mmFree := mmFree
  mmRealloc := mmRealloc

/-- No address wraps during the call. -/
abbrev NoWrap : State → Call → Prop := Skeleton.NoWrap Skeleton.adjustedSize findFit

end MallocLab.Explicit
