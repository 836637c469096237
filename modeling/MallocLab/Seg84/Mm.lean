import MallocLab.Segregated.Nodes
import MallocLab.Skeleton.Policy

/-! The segregated allocator of `segreted(84).c`. -/

namespace MallocLab.Seg84

open Segregated

/-- The word `PRED_FREE(bp)` -/
def predFree (bp : Nat) : Nat := bp

/-- The word `SUCC_FREE(bp)` -/
def succFree (bp : Nat) : Nat := add32 bp wsize

/-- The lists are followed along `SUCC_FREE`. -/
def entries : Entries where
  next := succFree
  prev := predFree

/-- Unlinks a block from the list of its size. -/
def removeBlock (h : State) (bp : Nat) : Option State := deleteNode entries h bp

/-- Links a block into the list of its size, before the first block that is not smaller. -/
def insertBlock (h : State) (bp size : Nat) : Option State := do
  let (list, searchPtr, insertPtr) ← insertPlace entries h size
  if searchPtr ≠ null then
    if insertPtr ≠ null then
      let h := h.put (succFree bp) searchPtr
      let h := h.put (predFree bp) insertPtr
      let h := h.put (predFree searchPtr) bp
      return h.put (succFree insertPtr) bp
    else
      let h := h.put (succFree bp) searchPtr
      let h := h.put (predFree bp) null
      let h := h.put (predFree searchPtr) bp
      return setList h list bp
  else
    if insertPtr ≠ null then
      let h := h.put (succFree bp) null
      let h := h.put (predFree bp) insertPtr
      return h.put (succFree insertPtr) bp
    else
      let h := h.put (succFree bp) null
      let h := h.put (predFree bp) null
      return setList h list bp

/-- Joins a free block with its free neighbours and lists the result. -/
def coalesce (h : State) (bp : Nat) : Option (State × Nat) :=
  let prevAlloc := getAlloc h (ftrp h (prevBlkp h bp))
  let nextAlloc := getAlloc h (hdrp (nextBlkp h bp))
  let size := getSize h (hdrp bp)
  if prevAlloc ≠ 0 ∧ nextAlloc ≠ 0 then do
    let h ← insertBlock h bp size
    return (h, bp)
  else if prevAlloc ≠ 0 ∧ ¬ nextAlloc ≠ 0 then do
    let h ← removeBlock h (nextBlkp h bp)
    let size := add32 size (getSize h (hdrp (nextBlkp h bp)))
    let h := h.put (hdrp bp) (pack size 0)
    let h := h.put (ftrp h bp) (pack size 0)
    let h ← insertBlock h bp size
    return (h, bp)
  else if ¬ prevAlloc ≠ 0 ∧ nextAlloc ≠ 0 then do
    let h ← removeBlock h (prevBlkp h bp)
    let size := add32 size (getSize h (hdrp (prevBlkp h bp)))
    let h := h.put (ftrp h bp) (pack size 0)
    let h := h.put (hdrp (prevBlkp h bp)) (pack size 0)
    let bp := prevBlkp h bp
    let h ← insertBlock h bp size
    return (h, bp)
  else do
    let h ← removeBlock h (prevBlkp h bp)
    let h ← removeBlock h (nextBlkp h bp)
    let size := add32 size
      (add32 (getSize h (hdrp (prevBlkp h bp))) (getSize h (ftrp h (nextBlkp h bp))))
    let h := h.put (hdrp (prevBlkp h bp)) (pack size 0)
    let h := h.put (ftrp h (nextBlkp h bp)) (pack size 0)
    let bp := prevBlkp h bp
    let h ← insertBlock h bp size
    return (h, bp)

/-- Extends the heap by a number of words and returns the free block at its end. -/
def extendHeap : State → Nat → Option (State × Nat) := Skeleton.extendHeap coalesce

/-- First fit in the list of the request's class, then in the larger classes; the search changes nothing. -/
def findFit (h : State) (asize : Nat) : Option (State × Nat) :=
  (searchLists entries (fun _ _ => false) h asize listLimit 0 asize).map fun bp => (h, bp)

/-- Allocates from a free block, splitting it when the rest can be a block, which is then coalesced. -/
def place : State → Nat → Nat → Option State :=
  Skeleton.place removeBlock fun h bp => (coalesce h bp).map Prod.fst

/--
Empties the lists and creates the prologue, the epilogue and the first free block.

`heap_listp` is a local name here, since no other function reads it.
-/
def mmInit (h : State) : Option (State × Int) := do
  let h := emptyLists h
  let (h, heapListp) := memSbrk h (toInt32 (4 * wsize))
  if heapListp = minusOne then return (h, -1)
  let h := h.put heapListp 0
  let h := h.put (add32 heapListp (1 * wsize)) (pack dsize 1)
  let h := h.put (add32 heapListp (2 * wsize)) (pack dsize 1)
  let h := h.put (add32 heapListp (3 * wsize)) (pack 0 1)
  let (h, bp) ← extendHeap h (chunksize / wsize)
  if bp = null then return (h, -1)
  return (h, 0)

/-- Returns a payload of at least `size` bytes, or null. -/
def mmMalloc : State → Nat → Option (State × Nat) :=
  Skeleton.mmMalloc Skeleton.adjustedSize findFit place extendHeap

/-- Frees a block. -/
def mmFree : State → Nat → Option State := Skeleton.mmFree coalesce

/-- Moves a block into a new one of the requested size. -/
def mmRealloc : State → Nat → Nat → Option (State × Nat) :=
  Skeleton.mmRealloc mmMalloc Skeleton.headerSize mmFree

/-- `segreted(84).c` as its client sees it. -/
def mm : Allocator (Nat → Nat) where
  mmMalloc := mmMalloc
  mmFree := mmFree
  mmRealloc := mmRealloc

/-- No address wraps during the call. -/
abbrev NoWrap : State → Call → Prop := Skeleton.NoWrap Skeleton.adjustedSize findFit

end MallocLab.Seg84
