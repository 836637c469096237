import MallocLab.Driver.Accepts
import MallocLab.Machine.Interpret

/-! The evaluations of `mdriver.c` for space and for speed, which make the requests of a trace once more. -/

namespace MallocLab.Driver

variable {γ : Type}

/-- `mem_heapsize()` -/
def memHeapsize (h : Heap γ) : Nat := sub32 h.memBrk h.memStartBrk

/-- The sum of two `int`s; an overflow is undefined. -/
def addInt (a b : Int) : Option Int := if -2 ^ 31 ≤ a + b ∧ a + b < 2 ^ 31 then some (a + b) else none

/-- The variables of `eval_mm_util`; the last two are of type `int`. -/
structure Usage (γ : Type) where
  heap : Heap γ
  blocks : List Nat
  blockSizes : List Nat
  totalSize : Int
  maxTotalSize : Int

/-- Counts what has been allocated, and remembers the most. -/
def Usage.count (s : Usage γ) (change : Int) : Option (Usage γ) := do
  let totalSize ← addInt s.totalSize change
  let maxTotalSize := if totalSize > s.maxTotalSize then totalSize else s.maxTotalSize
  return { s with totalSize := totalSize, maxTotalSize := maxTotalSize }

/-- One turn of the loop of `eval_mm_util`, which goes on or leaves the program with a message. -/
def utilTurn (A : Allocator γ) (s : Usage γ) (op : TraceOp) : Option (Except String (Usage γ)) :=
  match op.type with
  | .alloc => do
    let (h, p) ← A.mmMalloc s.heap op.size
    if p = null then return .error "mm_malloc failed in eval_mm_util"
    let blocks ← storeAt s.blocks op.index p
    let blockSizes ← storeAt s.blockSizes op.index op.size
    let s := { s with heap := h, blocks := blocks, blockSizes := blockSizes }
    return .ok (← s.count (toInt32 op.size))
  | .realloc => do
    let oldsize ← s.blockSizes[op.index]?
    let oldp ← s.blocks[op.index]?
    let (h, newp) ← A.mmRealloc s.heap oldp op.size
    if newp = null then return .error "mm_realloc failed in eval_mm_util"
    let blocks ← storeAt s.blocks op.index newp
    let blockSizes ← storeAt s.blockSizes op.index op.size
    let s := { s with heap := h, blocks := blocks, blockSizes := blockSizes }
    return .ok (← s.count (← addInt (toInt32 op.size) (-toInt32 oldsize)))
  | .free => do
    let size ← s.blockSizes[op.index]?
    let p ← s.blocks[op.index]?
    let h ← A.mmFree s.heap p
    -- The most is not updated here.
    let totalSize ← addInt s.totalSize (-toInt32 size)
    return .ok { s with heap := h, totalSize := totalSize }

/--
`eval_mm_util(trace, tracenum, ranges)`, with its variables at the end.

The result is the quotient of `maxTotalSize` and `memHeapsize heap`.
-/
def evalMmUtil (A : Package γ) (h : Heap γ) (trace : Trace) : Option (Except String (Usage γ)) := do
  let (h, code) ← A.mmInit (memResetBrk h)
  if code < 0 then return .error "mm_init failed in eval_mm_util"
  interpret (utilTurn A.toAllocator)
    { heap := h, blocks := trace.blocks, blockSizes := trace.blockSizes, totalSize := 0, maxTotalSize := 0 } trace.ops

/-- What `eval_mm_speed` works on. -/
structure Timed (γ : Type) where
  heap : Heap γ
  blocks : List Nat

/-- One turn of the loop of `eval_mm_speed`. -/
def speedTurn (A : Allocator γ) (s : Timed γ) (op : TraceOp) : Option (Except String (Timed γ)) :=
  match op.type with
  | .alloc => do
    let (h, p) ← A.mmMalloc s.heap op.size
    if p = null then return .error "mm_malloc error in eval_mm_speed"
    return .ok { heap := h, blocks := ← storeAt s.blocks op.index p }
  | .realloc => do
    let oldp ← s.blocks[op.index]?
    let (h, newp) ← A.mmRealloc s.heap oldp op.size
    if newp = null then return .error "mm_realloc error in eval_mm_speed"
    return .ok { heap := h, blocks := ← storeAt s.blocks op.index newp }
  | .free => do
    let block ← s.blocks[op.index]?
    let h ← A.mmFree s.heap block
    return .ok { s with heap := h }

/-- `eval_mm_speed(ptr)` for the trace that it is given, with its variables at the end. -/
def evalMmSpeed (A : Package γ) (h : Heap γ) (trace : Trace) : Option (Except String (Timed γ)) := do
  let (h, code) ← A.mmInit (memResetBrk h)
  if code < 0 then return .error "mm_init failed in eval_mm_speed"
  interpret (speedTurn A.toAllocator) { heap := h, blocks := trace.blocks } trace.ops

/-- The loop of `eval_mm_valid` as an interpreter, which counts the requests. -/
def validTurn (A : Allocator γ) (tracenum : Nat) (s : Nat × Session γ) (op : TraceOp) :
    Option (Except Report (Nat × Session γ)) :=
  (evalOp A tracenum s.1 s.2 op).map fun result => result.map fun next => (s.1 + 1, next)

/-- The two loops go through the same turns. -/
theorem evalOps_eq {A : Allocator γ} {tracenum i : Nat} {s : Session γ} {ops : List TraceOp} :
    evalOps A tracenum i s ops =
      (interpret (validTurn A tracenum) (i, s) ops).map fun result => result.map Prod.snd := by
  induction ops generalizing i s with
  | nil => rfl
  | cons op ops ih =>
    cases turn : evalOp A tracenum i s op with
    | none => simp [evalOps, interpret, validTurn, turn]
    | some result =>
      cases result with
      | error report => simp [evalOps, interpret, validTurn, turn, Except.map]
      | ok next =>
        -- One turn has passed, and the rest of the trace is the same for both.
        have later := @ih (i + 1) next
        simp [evalOps, interpret, validTurn, turn, Except.map, later]

/--
The blocks that are allocated, by id, with the sizes that they were asked to have; the newest come first.

The trace alone decides this.
-/
def TraceOp.heldAfter (held : List (Nat × Nat)) (op : TraceOp) : List (Nat × Nat) :=
  match op.type with
  | .alloc => (op.index, op.size) :: held
  | .realloc => (op.index, op.size) :: held.eraseP fun entry => entry.1 = op.index
  | .free => held.eraseP fun entry => entry.1 = op.index

/-- How many bytes the allocated blocks were asked to have. -/
def totalHeld (held : List (Nat × Nat)) : Nat := (held.map Prod.snd).sum

/-- The largest number of bytes that are ever allocated at once in a trace: what an ideal allocator needs. -/
def peakFrom : List (Nat × Nat) → List TraceOp → Nat
  | _, [] => 0
  | held, op :: ops => max (totalHeld (op.heldAfter held)) (peakFrom (op.heldAfter held) ops)

/-- The peak of a whole trace. -/
def Trace.peak (trace : Trace) : Nat := peakFrom [] trace.ops

end MallocLab.Driver
