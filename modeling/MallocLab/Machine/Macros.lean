import MallocLab.Machine.Memlib

/-! The boundary-tag macros that every allocator file of the repository repeats. -/

namespace MallocLab

/-- Word size in bytes. -/
def wsize : Nat := 4

/-- Double word size in bytes. -/
def dsize : Nat := 8

/-- The least number of bytes by which the heap is extended. -/
def chunksize : Nat := 1 <<< 12

/-- The alignment of every payload. -/
def alignment : Nat := 8

/-- `ALIGN(size)` -/
def align (size : Nat) : Nat := add32 size (alignment - 1) &&& flagMask

/-- `SIZE_T_SIZE`, the room a header and a footer take. -/
def sizeTSize : Nat := align 4

/-- `PACK(size, alloc)` -/
def pack (size alloc : Nat) : Nat := size ||| alloc

/-- `HDRP(bp)` -/
def hdrp (bp : Nat) : Nat := sub32 bp wsize

variable {γ : Type} (h : Heap γ)

/-- `GET_SIZE(p)` -/
def getSize (p : Nat) : Nat := h.get p &&& flagMask

/-- `GET_ALLOC(p)` -/
def getAlloc (p : Nat) : Nat := h.get p &&& 1

/-- `FTRP(bp)` -/
def ftrp (bp : Nat) : Nat := sub32 (add32 bp (getSize h (hdrp bp))) dsize

/-- `NEXT_BLKP(bp)` -/
def nextBlkp (bp : Nat) : Nat := add32 bp (getSize h (sub32 bp wsize))

/-- `PREV_BLKP(bp)` -/
def prevBlkp (bp : Nat) : Nat := sub32 bp (getSize h (sub32 bp dsize))

variable {h}

/-- The header of a payload address lies one word below it. -/
theorem hdrp_eq {bp : Nat} (above : 4 ≤ bp) (word : bp < 2 ^ 32) : hdrp bp = bp - 4 :=
  sub32_eq above word

/-- The size field of a word is the word without its flags. -/
theorem getSize_eq (p : Nat) : getSize h p = h.get p / 8 * 8 := and_flagMask (loadWord_lt h.mem p)

/-- The allocation bit of a word is its parity. -/
theorem getAlloc_eq (p : Nat) : getAlloc h p = h.get p % 2 := Nat.and_one_is_mod _

/-- Packing an aligned size with its allocation bit adds them. -/
theorem pack_eq {size alloc : Nat} (aligned : size % 8 = 0) (small : alloc < 8) :
    pack size alloc = size + alloc := or_flags aligned small

/-- Rounding up to the alignment, below the top of the range. -/
theorem align_eq {size : Nat} (fits : size + 7 < 2 ^ 32) : align size = (size + 7) / 8 * 8 := by
  unfold align alignment
  rw [add32_eq (by omega), and_flagMask (by omega)]

/-- A header and a footer take eight bytes. -/
theorem sizeTSize_eq : sizeTSize = 8 := by decide

/-- The size field of another word is read as before a store. -/
theorem getSize_put {p q v : Nat} (apart : p + 4 ≤ q ∨ q + 4 ≤ p) :
    getSize (h.put q v) p = getSize h p := by
  unfold getSize Heap.get
  -- The two words share no byte, so the store does not reach the one that is read.
  rw [Heap.put_mem, loadWord_storeWord_other apart]

/-- A store away from the footer below a block leaves `PREV_BLKP` alone. -/
theorem prevBlkp_put {bp q v : Nat} (above : 8 ≤ bp) (word : bp < 2 ^ 32)
    (apart : bp ≤ q + 4 ∨ q + 12 ≤ bp) : prevBlkp (h.put q v) bp = prevBlkp h bp := by
  unfold prevBlkp dsize
  rw [sub32_eq above word, getSize_put (by omega)]

/-- A store away from the header of a block leaves `NEXT_BLKP` alone. -/
theorem nextBlkp_put {bp q v : Nat} (above : 4 ≤ bp) (word : bp < 2 ^ 32)
    (apart : bp ≤ q ∨ q + 8 ≤ bp) : nextBlkp (h.put q v) bp = nextBlkp h bp := by
  unfold nextBlkp wsize
  rw [sub32_eq above word, getSize_put (by omega)]

/-- A store away from the header of a block leaves `FTRP` alone. -/
theorem ftrp_put {bp q v : Nat} (above : 4 ≤ bp) (word : bp < 2 ^ 32)
    (apart : bp ≤ q ∨ q + 8 ≤ bp) : ftrp (h.put q v) bp = ftrp h bp := by
  unfold ftrp
  rw [hdrp_eq above word, getSize_put (by omega)]

end MallocLab
