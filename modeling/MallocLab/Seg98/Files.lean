import MallocLab.Seg98.Mm

/-! The segregated allocators of `(98)분석.c`, which tags blocks for reallocation, and of `(98)정리.c`, which does not. -/

namespace MallocLab.Seg98

open Segregated

namespace Tagged

/-- `SUCC_PTR(ptr)` -/
def succPtr (ptr : Nat) : Nat := ptr

/-- `PRED_PTR(ptr)` -/
def predPtr (ptr : Nat) : Nat := add32 ptr wsize

/-- The lists of `(98)분석.c` are followed along `SUCC`, and `PUT` keeps tags. -/
def file : File where
  entries := { next := succPtr, prev := predPtr }
  tagged := true

/-- `SET_RATAG(p)` -/
def setRatag (h : State) (p : Nat) : State := h.put p (h.get p ||| 2)

/-- `REMOVE_RATAG(p)` -/
def removeRatag (h : State) (p : Nat) : State := h.put p (h.get p &&& 0xFFFFFFFD)

/-- `mm_init()` -/
def mmInit : State → Option (State × Int) := Seg98.mmInit file

/-- `mm_malloc(size)` -/
def mmMalloc : State → Nat → Option (State × Nat) := Seg98.mmMalloc file

/-- `mm_free(ptr)`, which first takes the tag off the next block. -/
def mmFree (h : State) (ptr : Nat) : Option State :=
  let size := getSize h (hdrp ptr)
  let h := removeRatag h (hdrp (nextBlkp h ptr))
  release file h ptr size

/-- The size of a block that has the reallocation buffer to spare. -/
def bufferedSize (size : Nat) : Nat := add32 (adjustedSize size) reallocBuffer

/-- `block_buffer`, what the block has beyond the size that is asked for. -/
def blockBuffer (h : State) (ptr newSize : Nat) : Int := toInt32 (sub32 (getSize h (hdrp ptr)) newSize)

/-- The branch of `mm_realloc` that moves a block. -/
def move (h : State) (ptr size newSize : Nat) : Option (State × Nat) := do
  let (h, newPtr) ← mmMalloc h (sub32 newSize dsize)
  let h ← h.memcpy newPtr ptr (min size newSize)
  let h ← mmFree h ptr
  return (h, newPtr)

/-- The end of `mm_realloc`, which tags the next block when little room is left. -/
def tagNext (h : State) (newPtr newSize : Nat) : State :=
  if blockBuffer h newPtr newSize < 2 * reallocBuffer then setRatag h (hdrp (nextBlkp h newPtr)) else h

/-- `mm_realloc(ptr, size)` -/
def mmRealloc (h : State) (ptr size : Nat) : Option (State × Nat) := do
  if size = 0 then return (h, null)
  let newSize := bufferedSize size
  if blockBuffer h ptr newSize < 0 then
    let (h, newPtr) ← if open_ h ptr then enlarge file h ptr newSize else move h ptr size newSize
    -- A block is moved to null only by a copy that faults, so null says that the heap was not extended.
    if newPtr = null then return (h, null)
    return (tagNext h newPtr newSize, newPtr)
  return (tagNext h ptr newSize, ptr)

/-- `(98)분석.c` as its client sees it. -/
def mm : Allocator (Nat → Nat) where
  mmMalloc := mmMalloc
  mmFree := mmFree
  mmRealloc := mmRealloc

end Tagged

namespace Plain

/-- `PRED_PTR(ptr)` -/
def predPtr (ptr : Nat) : Nat := ptr

/-- `SUCC_PTR(ptr)` -/
def succPtr (ptr : Nat) : Nat := add32 ptr wsize

/-- The lists of `(98)정리.c` are followed along `PRED`, and no word carries a tag. -/
def file : File where
  entries := { next := predPtr, prev := succPtr }
  tagged := false

/-- `mm_init()` -/
def mmInit : State → Option (State × Int) := Seg98.mmInit file

/-- `mm_malloc(size)` -/
def mmMalloc : State → Nat → Option (State × Nat) := Seg98.mmMalloc file

/-- `mm_free(ptr)` -/
def mmFree (h : State) (ptr : Nat) : Option State := release file h ptr (getSize h (hdrp ptr))

/-- The branch of `mm_realloc` that moves a block; it copies as many bytes as are asked for. -/
def moveBy (memcpy : Memcpy (Nat → Nat)) (h : State) (ptr size newSize : Nat) : Option (State × Nat) := do
  let (h, newPtr) ← mmMalloc h (sub32 newSize dsize)
  let h ← memcpy h newPtr ptr size
  let h ← mmFree h ptr
  return (h, newPtr)

/-- `mm_realloc(ptr, size)`, with any function in the place of `memcpy`. -/
def mmReallocBy (memcpy : Memcpy (Nat → Nat)) (h : State) (ptr size : Nat) : Option (State × Nat) :=
  if size = 0 then some (h, null)
  else if open_ h ptr then enlarge file h ptr (adjustedSize size)
  else moveBy memcpy h ptr size (adjustedSize size)

/-- `mm_realloc(ptr, size)` -/
def mmRealloc : State → Nat → Nat → Option (State × Nat) := mmReallocBy Heap.memcpy

/-- `(98)정리.c` as its client sees it. -/
def mm : Allocator (Nat → Nat) where
  mmMalloc := mmMalloc
  mmFree := mmFree
  mmRealloc := mmRealloc

end Plain

end MallocLab.Seg98
