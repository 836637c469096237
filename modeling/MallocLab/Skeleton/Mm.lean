import MallocLab.Machine.Macros

/-! The entry points that several allocator files write alike, up to their own lists and searches. -/

namespace MallocLab.Skeleton

variable {γ : Type}

/-- `extend_heap(words)`, which ends in the file's own `coalesce`. -/
def extendHeap (coalesce : Heap γ → Nat → Option (Heap γ × Nat)) (h : Heap γ) (words : Nat) :
    Option (Heap γ × Nat) :=
  -- An odd number of words is rounded up, which keeps the size a multiple of eight.
  let size := if words % 2 = 1 then mul32 (add32 words 1) wsize else mul32 words wsize
  let (h, bp) := memSbrk h (toInt32 size)
  if bp = minusOne then return (h, null)
  else
    let h := h.put (hdrp bp) (pack size 0)
    let h := h.put (ftrp h bp) (pack size 0)
    -- The old epilogue has become the header of the new block.
    let h := h.put (hdrp (nextBlkp h bp)) (pack 0 1)
    coalesce h bp

/-- `place(bp, asize)`, which ends in the way the file lists the rest of a split block. -/
def place (remove : Heap γ → Nat → Option (Heap γ)) (settle : Heap γ → Nat → Option (Heap γ)) (h : Heap γ)
    (bp asize : Nat) : Option (Heap γ) := do
  let csize := getSize h (hdrp bp)
  -- The block leaves its list before its header is overwritten.
  let h ← remove h bp
  if sub32 csize asize ≥ 2 * dsize then
    let h := h.put (hdrp bp) (pack asize 1)
    let h := h.put (ftrp h bp) (pack asize 1)
    let bp := nextBlkp h bp
    let h := h.put (hdrp bp) (pack (sub32 csize asize) 0)
    let h := h.put (ftrp h bp) (pack (sub32 csize asize) 0)
    settle h bp
  else
    let h := h.put (hdrp bp) (pack csize 1)
    return h.put (ftrp h bp) (pack csize 1)

/-- `mm_malloc(size)`; a search may change the statics, and `adjust` gives the block size of a request. -/
def mmMalloc (adjust : Nat → Nat) (findFit : Heap γ → Nat → Option (Heap γ × Nat))
    (place : Heap γ → Nat → Nat → Option (Heap γ)) (extendHeap : Heap γ → Nat → Option (Heap γ × Nat))
    (h : Heap γ) (size : Nat) : Option (Heap γ × Nat) := do
  -- Spurious requests are ignored.
  if size = 0 then return (h, null)
  let asize := adjust size
  let (h, bp) ← findFit h asize
  if bp ≠ null then
    let h ← place h bp asize
    return (h, bp)
  -- Nothing fits, so the heap has to grow by a chunk at least.
  let extendsize := maxWord asize chunksize
  let (h, bp) ← extendHeap h (extendsize / wsize)
  if bp = null then return (h, null)
  let h ← place h bp asize
  return (h, bp)

/-- `mm_free(bp)`, which ends in the file's own `coalesce`. -/
def mmFree (coalesce : Heap γ → Nat → Option (Heap γ × Nat)) (h : Heap γ) (bp : Nat) :
    Option (Heap γ) := do
  let size := getSize h (hdrp bp)
  let h := h.put (hdrp bp) (pack size 0)
  let h := h.put (ftrp h bp) (pack size 0)
  let (h, _) ← coalesce h bp
  return h

/-- `mm_realloc(ptr, size)` over any `memcpy`; `oldSize` reads how much of the old block there is to copy. -/
def reallocBy (memcpy : Memcpy γ) (mmMalloc : Heap γ → Nat → Option (Heap γ × Nat))
    (oldSize : Heap γ → Nat → Nat) (mmFree : Heap γ → Nat → Option (Heap γ)) (h : Heap γ) (ptr size : Nat) :
    Option (Heap γ × Nat) := do
  let oldptr := ptr
  let (h, newptr) ← mmMalloc h size
  -- The old block stays as it is when there is no new one.
  if newptr = null then return (h, null)
  let copySize := oldSize h oldptr
  let copySize := if size < copySize then size else copySize
  let h ← memcpy h newptr oldptr copySize
  let h ← mmFree h oldptr
  return (h, newptr)

/-- `mm_realloc(ptr, size)` -/
def mmRealloc (mmMalloc : Heap γ → Nat → Option (Heap γ × Nat)) (oldSize : Heap γ → Nat → Nat)
    (mmFree : Heap γ → Nat → Option (Heap γ)) : Heap γ → Nat → Nat → Option (Heap γ × Nat) :=
  reallocBy Heap.memcpy mmMalloc oldSize mmFree

/-- `ALIGN(size + SIZE_T_SIZE)` -/
def adjustedSize (size : Nat) : Nat := align (add32 size sizeTSize)

/-- `GET_SIZE(HDRP(ptr))`, the size that most files read from the old block. -/
def headerSize (h : Heap γ) (ptr : Nat) : Nat := getSize h (hdrp ptr)

end MallocLab.Skeleton
