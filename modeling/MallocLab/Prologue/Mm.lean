import MallocLab.Machine.Loop
import MallocLab.Skeleton.Policy

/-! The segregated allocator of `prologue.c`, whose list roots are blocks in front of the heap. -/

namespace MallocLab.Prologue

/-- `OVERHEAD`, the size of a root. -/
def overhead : Nat := 16

/-- `MIN_BLKSIZE` -/
def minBlksize : Nat := 24

/-- `NUM_FREELIST` -/
def numFreelist : Nat := 10

/-- The static variable of `prologue.c`. -/
structure Statics where
  heapListp : Nat

/-- The machine with this variable. -/
abbrev State := Heap Statics

/-- `NEXTP(bp)` -/
def nextp (bp : Nat) : Nat := bp

/-- `PREVP(bp)` -/
def prevp (bp : Nat) : Nat := add32 bp dsize

/-- The largest number of double words in a block of a class. -/
def getrangeforclass (cls : Int) : Nat := 1 <<< (cls + 2).toNat

/-- The loop of `getclass` from class `i` on, with this many turns left to go. -/
def getclassFrom (block : Nat) : Nat → Nat → Nat
  | 0, _ => numFreelist - 1
  | remaining + 1, i =>
    if block ≤ getrangeforclass i ∧ block > getrangeforclass (i - 1) then i
    else getclassFrom block remaining (i + 1)

/-- The class of a size. -/
def getclass (size : Nat) : Nat := getclassFrom (size / dsize) (numFreelist - 1) 0

/-- The root node of a class. -/
def getroot (h : State) (cls : Nat) : Nat := add32 h.statics.heapListp (cls * 2 * dsize)

/-- Takes a block off its free list. -/
def deleteFreenode (h : State) (bp : Nat) : Option State := do
  let nextFreeBlockAddr := h.get (nextp bp)
  let prevFreeBlockAddr := h.get (prevp bp)
  let h ← h.putChecked prevFreeBlockAddr (nextp prevFreeBlockAddr) nextFreeBlockAddr
  if nextFreeBlockAddr ≠ null then return h.put (prevp nextFreeBlockAddr) prevFreeBlockAddr
  return h

/-- Puts a block at the front of the free list of its class. -/
def insertFreenode (h : State) (bp : Nat) : Option State :=
  let size := getSize h (hdrp bp)
  let root := getroot h (getclass size)
  let nextFreeBlockAddr := h.get (nextp root)
  let h := h.put (nextp bp) (h.get (nextp root))
  let h := h.put (prevp bp) root
  let h := h.put (nextp root) bp
  if nextFreeBlockAddr ≠ null then some (h.put (prevp nextFreeBlockAddr) bp) else some h

/-- Joins a free block with its free neighbours and lists the result. -/
def coalesce (h : State) (bp : Nat) : Option (State × Nat) :=
  let prevAlloc := getAlloc h (ftrp h (prevBlkp h bp))
  let nextAlloc := getAlloc h (hdrp (nextBlkp h bp))
  let size := getSize h (hdrp bp)
  if prevAlloc ≠ 0 ∧ nextAlloc ≠ 0 then do
    let h ← insertFreenode h bp
    return (h, bp)
  else if prevAlloc ≠ 0 ∧ ¬ nextAlloc ≠ 0 then do
    let size := add32 size (getSize h (hdrp (nextBlkp h bp)))
    let h ← deleteFreenode h (nextBlkp h bp)
    let h := h.put (hdrp bp) (pack size 0)
    let h := h.put (ftrp h bp) (pack size 0)
    let h ← insertFreenode h bp
    return (h, bp)
  else if ¬ prevAlloc ≠ 0 ∧ nextAlloc ≠ 0 then do
    let size := add32 size (getSize h (hdrp (prevBlkp h bp)))
    let h ← deleteFreenode h (prevBlkp h bp)
    let h := h.put (ftrp h bp) (pack size 0)
    let h := h.put (hdrp (prevBlkp h bp)) (pack size 0)
    let h ← insertFreenode h (prevBlkp h bp)
    -- The result is read back from the old footer, inside the merged block.
    return (h, prevBlkp h bp)
  else do
    let size := add32 size
      (add32 (getSize h (hdrp (prevBlkp h bp))) (getSize h (ftrp h (nextBlkp h bp))))
    let h ← deleteFreenode h (prevBlkp h bp)
    let h ← deleteFreenode h (nextBlkp h bp)
    let h := h.put (hdrp (prevBlkp h bp)) (pack size 0)
    let h := h.put (ftrp h (nextBlkp h bp)) (pack size 0)
    let h ← insertFreenode h (prevBlkp h bp)
    return (h, prevBlkp h bp)

/-- Extends the heap by a number of words and returns the free block at its end. -/
def extendHeap : State → Nat → Option (State × Nat) := Skeleton.extendHeap coalesce

/-- Allocates from a free block, splitting it when the rest can be a block. -/
def place (h : State) (bp asize : Nat) : Option State := do
  let csize := getSize h (hdrp bp)
  if sub32 csize asize ≥ minBlksize then
    let h := h.put (hdrp bp) (pack asize 1)
    let h := h.put (ftrp h bp) (pack asize 1)
    -- The block is taken off its list after its tags have been rewritten.
    let h ← deleteFreenode h bp
    let bp := nextBlkp h bp
    let h := h.put (hdrp bp) (pack (sub32 csize asize) 0)
    let h := h.put (ftrp h bp) (pack (sub32 csize asize) 0)
    insertFreenode h bp
  else
    let h := h.put (hdrp bp) (pack csize 1)
    let h := h.put (ftrp h bp) (pack csize 1)
    deleteFreenode h bp

/-- One turn of the search of one list. -/
def findStep (h : State) (asize bp : Nat) : Nat ⊕ Nat :=
  if bp ≠ null then
    if ¬ getAlloc h (hdrp bp) ≠ 0 ∧ asize ≤ getSize h (hdrp bp) then .inr bp
    else .inl (h.get (nextp bp))
  else .inr null

/-- The search of the lists from class `i` on, with this many lists left to go. -/
def findFrom (h : State) (asize : Nat) : Nat → Nat → Option Nat
  | 0, _ => some null
  | remaining + 1, i => do
    let bp ← loop (findStep h asize) pointerTurns (getroot h i)
    if bp ≠ null then return bp
    findFrom h asize remaining (i + 1)

/-- First fit in the lists from the class of the request on; the search changes nothing. -/
def findFit (h : State) (asize : Nat) : Option (State × Nat) :=
  (findFrom h asize (numFreelist - getclass asize) (getclass asize)).map fun bp => (h, bp)

/-- The block size for a request. -/
def adjustedSize (size : Nat) : Nat := maxWord (align (add32 size sizeTSize)) minBlksize

/-- What `mm_init` writes for one root. -/
def initRoot (h : State) (i : Nat) : State :=
  let root := getroot h i
  let h := h.put (sub32 root wsize) (pack overhead 1)
  let h := h.put root null
  h.put (add32 root dsize) (pack overhead 1)

/-- Creates the roots, the epilogue and the first free block. -/
def mmInit (h : State) : Option (State × Int) := do
  let (h, p) := memSbrk h (toInt32 (dsize + numFreelist * dsize * 2))
  let h := { h with statics := { heapListp := p } }
  -- A refusal of `mem_sbrk` is not null.
  if p = null then return (h, -1)
  let h := h.put p 0
  let h := h.put (add32 p (2 * numFreelist * dsize + wsize)) (pack 0 1)
  let h := { h with statics := { heapListp := add32 p dsize } }
  let h := (List.range numFreelist).foldl initRoot h
  let (h, bp) ← extendHeap h (chunksize / wsize)
  if bp = null then return (h, -1)
  return (h, 0)

/-- `malloc`, which the driver calls `mm_malloc`. -/
def mmMalloc : State → Nat → Option (State × Nat) := Skeleton.mmMalloc adjustedSize findFit place extendHeap

/-- `free`, which the driver calls `mm_free`. -/
def mmFree (h : State) (bp : Nat) : Option State :=
  if bp = null then some h else Skeleton.mmFree coalesce h bp

/-- `*SIZE_PTR(p)`, the word two words below a payload. -/
def sizeWord (h : State) (p : Nat) : Nat := h.get (sub32 p sizeTSize)

/-- `realloc`, with any function in the place of `memcpy`. -/
def mmReallocBy (memcpy : Memcpy Statics) (h : State) (oldptr size : Nat) : Option (State × Nat) :=
  if size = 0 then (mmFree h oldptr).map fun h => (h, null)
  else if oldptr = null then mmMalloc h size
  else Skeleton.reallocBy memcpy mmMalloc sizeWord mmFree h oldptr size

/-- `realloc`, which the driver calls `mm_realloc`. -/
def mmRealloc : State → Nat → Nat → Option (State × Nat) := mmReallocBy Heap.memcpy

/-- `calloc` -/
def calloc (h : State) (nmemb size : Nat) : Option (State × Nat) := do
  let bytes := mul32 nmemb size
  let (h, newptr) ← mmMalloc h bytes
  let h ← h.memset newptr 0 bytes
  return (h, newptr)

/-- `prologue.c` as its client sees it. -/
def mm : Allocator Statics where
  mmMalloc := mmMalloc
  mmFree := mmFree
  mmRealloc := mmRealloc

/-- `prologue.c` on a machine whose `memcpy` faults on every copy that C does not define. -/
def strict : Allocator Statics := { mm with mmRealloc := mmReallocBy Heap.memcpyStrict }

/-- No address wraps during the call. -/
abbrev NoWrap : State → Call → Prop := Skeleton.NoWrap adjustedSize findFit

/-- The errors that `mm_checkheap` can print. -/
inductive Complaint
  | badPrologueHeader
  | notAligned (bp : Nat)
  | headerMismatch (bp : Nat)
  | badEpilogueHeader
deriving DecidableEq, Repr

/-- The errors that `checkblock` prints for one block. -/
def checkblock (h : State) (bp : Nat) : List Complaint :=
  (if bp % 8 ≠ 0 then [.notAligned bp] else []) ++
    if h.get (hdrp bp) ≠ h.get (ftrp h bp) then [.headerMismatch bp] else []

/-- One turn of the walk over the blocks, with the errors printed so far. -/
def checkStep (h : State) : Nat × List Complaint → (Nat × List Complaint) ⊕ (Nat × List Complaint)
  | (bp, printed) =>
    if getSize h (hdrp bp) > 0 then .inl (nextBlkp h bp, printed ++ checkblock h bp) else .inr (bp, printed)

/-- One turn of the walk along a list in `printfreelist`. -/
def printStep (h : State) (bp : Nat) : Nat ⊕ Unit :=
  if bp ≠ null then .inl (h.get (nextp bp)) else .inr ()

/-- The errors that `mm_checkheap` prints; it has no result when one of its walks never ends. -/
def mmCheckheap (h : State) : Option (List Complaint) := do
  let first := h.statics.heapListp
  let printed := if getSize h (hdrp first) ≠ overhead ∨ getAlloc h (hdrp first) = 0
    then [.badPrologueHeader] else []
  let printed := printed ++ checkblock h first
  let (bp, printed) ← loop (checkStep h) pointerTurns (first, printed)
  let printed := printed ++ if getSize h (hdrp bp) ≠ 0 ∨ getAlloc h (hdrp bp) = 0
    then [.badEpilogueHeader] else []
  let _ ← (List.range numFreelist).mapM fun i => loop (printStep h) pointerTurns (getroot h i)
  return printed

end MallocLab.Prologue
