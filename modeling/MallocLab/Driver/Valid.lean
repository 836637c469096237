import MallocLab.Client.Run
import MallocLab.Driver.Ranges

/-! The validity check of `mdriver.c`, which makes the requests of a trace and inspects the results. -/

namespace MallocLab.Driver

/-- The type of a request. -/
inductive OpType
  | alloc
  | free
  | realloc
deriving DecidableEq, Repr

/-- A request of a trace; the size of a `free` is not used. -/
structure TraceOp where
  type : OpType
  index : Nat
  size : Nat
deriving DecidableEq, Repr

/-- A trace with its two arrays, which need not be initialized. -/
structure Trace where
  numIds : Nat
  ops : List TraceOp
  blocks : List Nat
  blockSizes : List Nat

/-- An allocator file as the driver links it. -/
structure Package (γ : Type) extends Allocator γ where
  mmInit : Heap γ → Option (Heap γ × Int)

/-- What changes while the check goes through a trace. -/
structure Session (γ : Type) where
  heap : Heap γ
  ranges : List Range
  blocks : List Nat
  blockSizes : List Nat

/-- Stores into an array; past its end the store is undefined. -/
def storeAt (array : List Nat) (index value : Nat) : Option (List Nat) :=
  if index < array.length then some (array.set index value) else none

/-- A `char` is signed, and is promoted to an `int` when it is compared with one. -/
def signedChar (byte : UInt8) : Int := if byte.toNat < 128 then byte.toNat else byte.toNat - 256

/-- The byte the driver fills the block of an id with, `index & 0xFF`. -/
def fillByte (index : Nat) : Nat := index &&& 0xFF

variable {γ : Type}

/-- The loop that compares the first bytes at `newp` with the filler of the id. -/
def preserves (h : Heap γ) (newp index oldsize : Nat) : Bool :=
  (List.range oldsize).all fun j => signedChar (h.mem (add32 newp j)) == fillByte index

/-- Tests the range of a new block, and remembers it. -/
def testRange (s : Session γ) (h : Heap γ) (p size tracenum opnum : Nat) : Option (Except Report (List Range)) :=
  addRange (memHeapLo h) (memHeapHi h) s.ranges p size tracenum opnum

/-- Fills a new block with the low byte of its id, and remembers where it is. -/
def remember (s : Session γ) (h : Heap γ) (ranges : List Range) (op : TraceOp) (p : Nat) : Option (Session γ) := do
  let h ← h.memset p (fillByte op.index) op.size
  let blocks ← storeAt s.blocks op.index p
  let blockSizes ← storeAt s.blockSizes op.index op.size
  return { heap := h, ranges := ranges, blocks := blocks, blockSizes := blockSizes }

/-- One turn of the loop of `eval_mm_valid`, which goes on with a session or returns zero after a report. -/
def evalOp (A : Allocator γ) (tracenum opnum : Nat) (s : Session γ) (op : TraceOp) :
    Option (Except Report (Session γ)) :=
  let mallocError := fun complaint => some (.error { tracenum := tracenum, opnum := opnum, complaint := complaint })
  match op.type with
  | .alloc => do
    let (h, p) ← A.mmMalloc s.heap op.size
    if p = null then mallocError .mallocFailed
    else match ← testRange s h p op.size tracenum opnum with
      | .error report => return .error report
      | .ok ranges => return .ok (← remember s h ranges op p)
  | .realloc => do
    let oldp ← s.blocks[op.index]?
    let (h, newp) ← A.mmRealloc s.heap oldp op.size
    if newp = null then mallocError .reallocFailed
    else
      let s := { s with ranges := removeRange s.ranges oldp }
      match ← testRange s h newp op.size tracenum opnum with
      | .error report => return .error report
      | .ok ranges =>
        let oldsize ← s.blockSizes[op.index]?
        let oldsize := if op.size < oldsize then op.size else oldsize
        if preserves h newp op.index oldsize = false then mallocError .notPreserved
        else return .ok (← remember s h ranges op newp)
  | .free => do
    let p ← s.blocks[op.index]?
    let h ← A.mmFree s.heap p
    return .ok { s with heap := h, ranges := removeRange s.ranges p }

/-- The loop of `eval_mm_valid` from the request with number `i` on. -/
def evalOps (A : Allocator γ) (tracenum : Nat) : Nat → Session γ → List TraceOp → Option (Except Report (Session γ))
  | _, s, [] => some (.ok s)
  | i, s, op :: ops => do
    match ← evalOp A tracenum i s op with
    | .error report => return .error report
    | .ok s => evalOps A tracenum (i + 1) s ops

/--
`eval_mm_valid(trace, tracenum, ranges)`, with the errors that it reported.

The range list is cleared first, so what it held before does not matter.
-/
def evalMmValid (A : Package γ) (h : Heap γ) (trace : Trace) (tracenum : Nat) : Option (Int × List Report) := do
  let (h, code) ← A.mmInit (memResetBrk h)
  if code < 0 then return (0, [{ tracenum := tracenum, opnum := 0, complaint := .initFailed }])
  let s : Session γ := { heap := h, ranges := [], blocks := trace.blocks, blockSizes := trace.blockSizes }
  match ← evalOps A.toAllocator tracenum 0 s trace.ops with
  | .error report => return (0, [report])
  | .ok _ => return (1, [])

end MallocLab.Driver
