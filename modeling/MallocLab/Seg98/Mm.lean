import MallocLab.Segregated.Nodes
import MallocLab.Skeleton.Policy

/-! The functions that `(98)분석.c` and `(98)정리.c` share, up to their entries and to reallocation tags. -/

namespace MallocLab.Seg98

open Segregated

/-- `INITCHUNKSIZE` -/
def initchunksize : Nat := 1 <<< 6

/-- `REALLOC_BUFFER`, the spare room that `mm_realloc` of the file with tags asks for. -/
def reallocBuffer : Nat := 1 <<< 7

/-- `GET_TAG(p)` -/
def getTag (h : State) (p : Nat) : Nat := h.get p &&& 2

/--
What the two files do differently in the functions that they share.

`next` of the entries is the one along which the lists are followed.
Only a file that is `tagged` keeps a tag in the second bit of a header.
-/
structure File where
  entries : Entries
  tagged : Bool

variable (f : File)

/-- `PUT(p, val)`; the file with tags keeps the tag of the word. -/
def put (h : State) (p val : Nat) : State := h.put p (if f.tagged then val ||| getTag h p else val)

/-- Whether the file reads a tag in the word. -/
def marked (h : State) (p : Nat) : Bool := f.tagged && getTag h p != 0

/-- `insert_node(ptr, size)` -/
def insertNode (h : State) (ptr size : Nat) : Option State := do
  let (list, searchPtr, insertPtr) ← insertPlace f.entries h size
  if searchPtr ≠ null then
    if insertPtr ≠ null then
      let h := h.put (f.entries.next ptr) searchPtr
      let h := h.put (f.entries.prev searchPtr) ptr
      let h := h.put (f.entries.prev ptr) insertPtr
      return h.put (f.entries.next insertPtr) ptr
    else
      let h := h.put (f.entries.next ptr) searchPtr
      let h := h.put (f.entries.prev searchPtr) ptr
      let h := h.put (f.entries.prev ptr) null
      return setList h list ptr
  else
    if insertPtr ≠ null then
      let h := h.put (f.entries.next ptr) null
      let h := h.put (f.entries.prev ptr) insertPtr
      return h.put (f.entries.next insertPtr) ptr
    else
      let h := h.put (f.entries.next ptr) null
      let h := h.put (f.entries.prev ptr) null
      return setList h list ptr

/-- `delete_node(ptr)` -/
def removeNode (h : State) (ptr : Nat) : Option State := deleteNode f.entries h ptr

/-- `coalesce(ptr)`, for a block that is already listed; a tagged block before it is left alone. -/
def coalesce (h : State) (ptr : Nat) : Option (State × Nat) :=
  let prevAlloc := if marked f h (hdrp (prevBlkp h ptr)) then 1 else getAlloc h (hdrp (prevBlkp h ptr))
  let nextAlloc := getAlloc h (hdrp (nextBlkp h ptr))
  let size := getSize h (hdrp ptr)
  if prevAlloc ≠ 0 ∧ nextAlloc ≠ 0 then some (h, ptr)
  else if prevAlloc ≠ 0 ∧ ¬ nextAlloc ≠ 0 then do
    let h ← removeNode f h ptr
    let h ← removeNode f h (nextBlkp h ptr)
    let size := add32 size (getSize h (hdrp (nextBlkp h ptr)))
    let h := put f h (hdrp ptr) (pack size 0)
    let h := put f h (ftrp h ptr) (pack size 0)
    let h ← insertNode f h ptr size
    return (h, ptr)
  else if ¬ prevAlloc ≠ 0 ∧ nextAlloc ≠ 0 then do
    let h ← removeNode f h ptr
    let h ← removeNode f h (prevBlkp h ptr)
    let size := add32 size (getSize h (hdrp (prevBlkp h ptr)))
    let h := put f h (ftrp h ptr) (pack size 0)
    let h := put f h (hdrp (prevBlkp h ptr)) (pack size 0)
    let ptr := prevBlkp h ptr
    let h ← insertNode f h ptr size
    return (h, ptr)
  else do
    let h ← removeNode f h ptr
    let h ← removeNode f h (prevBlkp h ptr)
    let h ← removeNode f h (nextBlkp h ptr)
    let size := add32 size (add32 (getSize h (hdrp (prevBlkp h ptr))) (getSize h (hdrp (nextBlkp h ptr))))
    let h := put f h (hdrp (prevBlkp h ptr)) (pack size 0)
    let h := put f h (ftrp h (nextBlkp h ptr)) (pack size 0)
    let ptr := prevBlkp h ptr
    let h ← insertNode f h ptr size
    return (h, ptr)

/-- `extend_heap(size)`, whose three words keep no tag in either file. -/
def extendHeap (h : State) (size : Nat) : Option (State × Nat) :=
  let asize := align size
  let (h, ptr) := memSbrk h (toInt32 asize)
  if ptr = minusOne then some (h, null)
  else do
    let h := h.put (hdrp ptr) (pack asize 0)
    let h := h.put (ftrp h ptr) (pack asize 0)
    let h := h.put (hdrp (nextBlkp h ptr)) (pack 0 1)
    let h ← insertNode f h ptr asize
    coalesce f h ptr

/-- `place(ptr, asize)`; a large request is served from the end of the block. -/
def place (h : State) (ptr asize : Nat) : Option (State × Nat) := do
  let ptrSize := getSize h (hdrp ptr)
  let remainder := sub32 ptrSize asize
  let h ← removeNode f h ptr
  if remainder ≤ dsize * 2 then
    let h := put f h (hdrp ptr) (pack ptrSize 1)
    let h := put f h (ftrp h ptr) (pack ptrSize 1)
    return (h, ptr)
  else if asize ≥ 100 then
    let h := put f h (hdrp ptr) (pack remainder 0)
    let h := put f h (ftrp h ptr) (pack remainder 0)
    let h := h.put (hdrp (nextBlkp h ptr)) (pack asize 1)
    let h := h.put (ftrp h (nextBlkp h ptr)) (pack asize 1)
    let h ← insertNode f h ptr remainder
    return (h, nextBlkp h ptr)
  else
    let h := put f h (hdrp ptr) (pack asize 1)
    let h := put f h (ftrp h ptr) (pack asize 1)
    let h := h.put (hdrp (nextBlkp h ptr)) (pack remainder 0)
    let h := h.put (ftrp h (nextBlkp h ptr)) (pack remainder 0)
    let h ← insertNode f h (nextBlkp h ptr) remainder
    return (h, ptr)

/-- `mm_init()` -/
def mmInit (h : State) : Option (State × Int) := do
  let h := emptyLists h
  let (h, heapStart) := memSbrk h (toInt32 (4 * wsize))
  if heapStart = minusOne then return (h, -1)
  let h := h.put heapStart 0
  let h := h.put (add32 heapStart (1 * wsize)) (pack dsize 1)
  let h := h.put (add32 heapStart (2 * wsize)) (pack dsize 1)
  let h := h.put (add32 heapStart (3 * wsize)) (pack 0 1)
  let (h, ptr) ← extendHeap f h initchunksize
  if ptr = null then return (h, -1)
  return (h, 0)

/-- The block size for a request. -/
def adjustedSize (size : Nat) : Nat := if size ≤ dsize then 2 * dsize else align (add32 size dsize)

/-- The search of `mm_malloc`, which passes over tagged blocks and changes nothing. -/
def findFit (h : State) (asize : Nat) : Option (State × Nat) :=
  (searchLists f.entries (fun h ptr => marked f h (hdrp ptr)) h asize listLimit 0 asize).map fun ptr => (h, ptr)

/-- `mm_malloc(size)` -/
def mmMalloc : State → Nat → Option (State × Nat) :=
  Skeleton.mallocOf adjustedSize (findFit f) (place f) (extendHeap f)

/-- What `mm_free(ptr)` does once it has read the size of the block. -/
def release (h : State) (ptr size : Nat) : Option State := do
  let h := put f h (hdrp ptr) (pack size 0)
  let h := put f h (ftrp h ptr) (pack size 0)
  let h ← insertNode f h ptr size
  let (h, _) ← coalesce f h ptr
  return h

/-- `remainder`, what the block and the one behind it have beyond the size that is asked for. -/
def remainder (h : State) (ptr newSize : Nat) : Int :=
  toInt32 (sub32 (add32 (getSize h (hdrp ptr)) (getSize h (hdrp (nextBlkp h ptr)))) newSize)

/-- Takes the block behind off its list, and gives the block this size. -/
def absorb (h : State) (ptr size : Nat) : Option (State × Nat) := do
  let h ← removeNode f h (nextBlkp h ptr)
  let h := h.put (hdrp ptr) (pack size 1)
  let h := h.put (ftrp h ptr) (pack size 1)
  return (h, ptr)

/--
The branch of `mm_realloc` that enlarges a block in place.

It takes over what is free behind the block, after it has extended the heap when that is not enough.
-/
def enlarge (h : State) (ptr newSize : Nat) : Option (State × Nat) :=
  let left := remainder h ptr newSize
  if left < 0 then do
    let extendsize := max (neg32 left) chunksize
    let (h, bp) ← extendHeap f h (ofInt32 extendsize)
    if bp = null then return (h, null)
    absorb f h ptr (add32 newSize (ofInt32 (left + extendsize)))
  else absorb f h ptr (add32 newSize (ofInt32 left))

/-- Whether the block behind is free or the epilogue, so that `mm_realloc` enlarges in place. -/
def open_ (h : State) (ptr : Nat) : Bool :=
  getAlloc h (hdrp (nextBlkp h ptr)) = 0 || getSize h (hdrp (nextBlkp h ptr)) = 0

/-- No address wraps during the call, for calls other than `mm_realloc`. -/
abbrev NoWrap : State → Call → Prop := Skeleton.NoWrap adjustedSize (findFit f)

end MallocLab.Seg98
