import MallocLab.Traces.Pipeline

/-! The scripts that generate traces; with any constants their files are declared and proper. -/

namespace MallocLab.Traces

open Driver (TraceOp OpType Surroundings allocatedAfter ValidOps readTrace)

/-- The line `a id size`. -/
def allocOp (index size : Nat) : TraceOp := { type := .alloc, index := index, size := size }

/-- The line `r id size`. -/
def reallocOp (index size : Nat) : TraceOp := { type := .realloc, index := index, size := size }

/-- The requests of `gen_binary.pl` and `gen_binary2.pl`. -/
def binaryOps (blkSize1 blkSize2 numIters : Nat) : List TraceOp :=
  ((List.range numIters).flatMap fun i => [allocOp (2 * i) blkSize1, allocOp (2 * i + 1) blkSize2]) ++
    ((List.range numIters).map fun i => freeOp (2 * i + 1)) ++
    (List.range numIters).map fun i => allocOp (2 * numIters + i) (blkSize1 + blkSize2)

/-- Their file. -/
def binaryFile (blkSize1 blkSize2 numIters : Nat) : Text :=
  let blkSize12 := blkSize1 + blkSize2
  fileText
    { suggHeapsize := (blkSize1 + blkSize2 + blkSize12) * numIters + 100, numIds := 3 * numIters
      numOps := 4 * numIters, weight := 1 } (binaryOps blkSize1 blkSize2 numIters) true

/-- The output of `gen_binary2.pl`. -/
def genBinary2 : Text := binaryFile 16 (128 - 16) 4000

/-- The requests of `gen_coalescing.pl`. -/
def coalescingOps (blkSize numIters : Nat) : List TraceOp :=
  (List.range numIters).flatMap fun i =>
    let blk1 := 3 * i
    let blk2 := blk1 + 1
    let blk3 := blk1 + 2
    [allocOp blk1 blkSize, allocOp blk2 blkSize, freeOp blk1, freeOp blk2, allocOp blk3 (2 * blkSize), freeOp blk3]

/-- The loop of `gen_realloc.pl` and `gen_realloc2.pl`, with its two variables. -/
def reallocLoop (sizeIncrement mallocSize : Nat) : Nat → Nat → Nat → List TraceOp
  | 0, blk, _ => [freeOp blk, freeOp 0]
  | turns + 1, blk, reallocSize =>
    let blk := blk + 1
    let reallocSize := reallocSize + sizeIncrement
    let prevblk := blk - 1
    reallocOp 0 reallocSize :: allocOp blk mallocSize :: freeOp prevblk ::
      reallocLoop sizeIncrement mallocSize turns blk reallocSize

/-- Their requests. -/
def reallocOps (reallocSize sizeIncrement mallocSize numIters : Nat) : List TraceOp :=
  allocOp 0 reallocSize :: allocOp 1 mallocSize :: reallocLoop sizeIncrement mallocSize (numIters - 1) 1 reallocSize

/-- Their header. -/
def reallocHeader (suggHeapsize numIters : Nat) : Header where
  suggHeapsize := suggHeapsize
  numIds := numIters + 1
  numOps := 3 * numIters + 1
  weight := 1

/-- The output of `gen_realloc2.pl`. -/
def genRealloc2 : Text :=
  fileText (reallocHeader (4092 + 5 * (4800 - 1) + 16 * 4800 + 100) 4800) (reallocOps 4092 5 16 4800) false

variable {ops more : List TraceOp} {allocated : List Nat} {i j n size size' turns blk : Nat}

/-- An allocation adds its id. -/
@[simp] theorem allocated_allocOp : (allocOp i size).allocated allocated = i :: allocated := rfl

/-- A reallocation keeps the ids. -/
@[simp] theorem allocated_reallocOp : (reallocOp i size).allocated allocated = allocated := rfl

/-- A free request removes its id. -/
@[simp] theorem allocated_freeOp : (freeOp i).allocated allocated = allocated.filter (· ≠ i) := rfl

/-- A turn of a coalescing trace leaves nothing allocated, and neither do any number of them. -/
theorem coalescingOps_proper (blkSize n : Nat) :
    ProperOps [] (coalescingOps blkSize n) ∧ allocatedAfter [] (coalescingOps blkSize n) = [] := by
  unfold coalescingOps
  -- The turns are independent, since nothing is left allocated between them.
  induction List.range n with
  | nil => exact ⟨trivial, rfl⟩
  | cons i rest ih =>
    rw [List.flatMap_cons, properOps_append]
    -- After a turn none of its three ids is allocated.
    have turn : allocatedAfter [] [allocOp (3 * i) blkSize, allocOp (3 * i + 1) blkSize, freeOp (3 * i),
        freeOp (3 * i + 1), allocOp (3 * i + 2) (2 * blkSize), freeOp (3 * i + 2)] = [] := by
      simp [allocatedAfter]
    refine ⟨⟨by simp [ProperOps, allocOp, freeOp, TraceOp.allocated], ?_⟩, ?_⟩
    · simp only [turn]
      exact ih.1
    · simp only [allocatedAfter_append, turn]
      exact ih.2

/-- The requests of one turn of `gen_coalescing.pl`. -/
def coalescingTurn (blkSize i : Nat) : List TraceOp :=
  [allocOp (3 * i) blkSize, allocOp (3 * i + 1) blkSize, freeOp (3 * i), freeOp (3 * i + 1),
    allocOp (3 * i + 2) (2 * blkSize), freeOp (3 * i + 2)]

/-- The script writes its turns one after the other. -/
theorem coalescingOps_eq (blkSize numIters : Nat) :
    coalescingOps blkSize numIters = (List.range numIters).flatMap (coalescingTurn blkSize) := rfl

/-- The requests are small, and their ids are in range. -/
theorem coalescingOps_fits {blkSize : Nat} (numIters : Nat) (positive : 1 ≤ blkSize) :
    ∀ op ∈ coalescingOps blkSize numIters, op.index < 3 * numIters ∧ op.size ≤ 2 * blkSize ∧
      (op.type ≠ .free → 0 < op.size) ∧ op.type ≠ .realloc := by
  intro op member
  obtain ⟨i, below, here⟩ := List.mem_flatMap.mp (coalescingOps_eq blkSize numIters ▸ member)
  have := List.mem_range.mp below
  simp only [coalescingTurn, List.mem_cons, List.not_mem_nil, or_false] at here
  -- There are six requests in a turn.
  rcases here with rfl | rfl | rfl | rfl | rfl | rfl
  all_goals simp [allocOp, freeOp]
  all_goals omega

end MallocLab.Traces
