import MallocLab.Driver.Ledger
import MallocLab.Driver.Verdict
import Mathlib.Algebra.Order.BigOperators.Group.List
import Mathlib.Algebra.Order.Group.Nat

/-! How the evaluations of `mdriver.c` go on `mm.c`: each of them follows one abstract run of the trace. -/

namespace MallocLab.Driver

open Explicit (mm lifo initial)

/-- A request of a trace on the abstract allocator; a null result is a failure of that type of request. -/
def lifoTurn (base : Nat) (s : Shelves × Ids) (op : TraceOp) : Option (Except OpType (Shelves × Ids)) :=
  let (next, r) := lifo.move (base + maxHeap) s.1 (op.call s.2)
  some (if op.type ≠ .free ∧ r = null then .error op.type else .ok (next, op.moved s.2 r))

/-- All requests of a trace on the abstract allocator. -/
def lifoReplay (base : Nat) (ops : List TraceOp) : Option (Except OpType (Shelves × Ids)) :=
  interpret (lifoTurn base) (initial base, fun _ => (0, 0)) ops

/-- A request so small that no address wraps when a heap over the area at `base` has to be extended for it. -/
def TraceOp.Small (base : Nat) (op : TraceOp) : Prop := op.type ≠ .free → base + maxHeap + op.size + 4096 < 2 ^ 32

/-- The machine and the client's blocks agree with an abstract state and the ids of a trace. -/
structure Serving (base : Nat) (tags : List Tag) (w : World Explicit.Statics) (a : Shelves × Ids)
    (allocated : List Nat) : Prop where
  holds : Holds (Explicit.Stands base) Shelves.blocks w a.1
  opened : base + 24 < a.1.brk
  inside : a.1.brk ≤ base + maxHeap
  ledger : Ledger tags w.live a.2 allocated

/-- The ids that are allocated once these requests have been made, too. -/
def allocatedAfter (allocated : List Nat) (ops : List TraceOp) : List Nat :=
  ops.foldl (fun ids op => op.allocated ids) allocated

/-- What every evaluation of `mm.c` knows between two requests; `final` are the ids that the trace leaves allocated. -/
structure Following (base numIds : Nat) (final : List Nat) (tags : List Tag) (w : World Explicit.Statics)
    (allocated : List Nat) (ops : List TraceOp) (a : Shelves × Ids) : Prop where
  serving : Serving base tags w a allocated
  valid : ValidOps numIds allocated ops
  small : ∀ op ∈ ops, op.Small base
  final : allocatedAfter allocated ops = final

/-- What a request on `mm.c` and the same request on the abstract allocator lead to. -/
inductive Turned (base : Nat) (tags : List Tag) (w : World Explicit.Statics) (a : Shelves × Ids)
    (allocated : List Nat) (op : TraceOp) (next : World Explicit.Statics) (r : Nat) : Prop
  /-- Both refuse it. -/
  | refused (request : op.type ≠ .free) (null_ : r = null) (abstract : lifoTurn base a op = some (.error op.type))
  /-- Both serve it, with the same result. -/
  | served {tags' : List Tag} {a' : Shelves × Ids} (real : op.type ≠ .free → r ≠ null)
      (abstract : lifoTurn base a op = some (.ok a')) (moved : a'.2 = op.moved a.2 r)
      (serving : Serving base tags' next a' (op.allocated allocated)) (held : heldOf tags' = op.heldAfter (heldOf tags))
      (grows : w.heap.memBrk ≤ next.heap.memBrk)

variable {base numIds : Nat} {tags : List Tag} {w : World Explicit.Statics} {a : Shelves × Ids} {allocated : List Nat}
variable {op : TraceOp} {ops : List TraceOp} {h : Explicit.State} {s : Shelves} {n : Nat} {final : List Nat}
variable {tags' : List Tag} {next : World Explicit.Statics} {a' : Shelves × Ids} {trace : Trace}

/-- When the break is inside the area, a small request does not wrap. -/
theorem requestFits (stands : Explicit.Stands base h s) (inside : s.brk ≤ base + maxHeap) (positive : 1 ≤ n)
    (legal : n ≤ maxRequest) (small : base + maxHeap + n + 4096 < 2 ^ 32) :
    Skeleton.RequestFits Skeleton.adjustedSize Explicit.findFit h n := by
  refine (Explicit.parts base).requestFits stands inside positive legal ?_ small
  show Explicit.blockSize n ≤ n + 4096
  unfold Explicit.blockSize
  omega

/-- A valid request is legal, and it does not wrap when it is small. -/
theorem Serving.ready (serving : Serving base tags w a allocated) (valid : op.Valid numIds allocated)
    (small : op.Small base) : w.Legal (op.call a.2) ∧ Explicit.NoWrap w.heap (op.call a.2) := by
  refine ⟨serving.ledger.legal valid, ?_⟩
  have most : maxRequest = 4294967280 := rfl
  obtain ⟨type, index, size⟩ := op
  cases type with
  | free => trivial
  | alloc | realloc =>
    obtain ⟨positive, int⟩ := valid.size (by simp)
    have below := small (by simp)
    simp only at positive int below
    exact requestFits serving.holds.rep serving.inside positive (by show size ≤ _; omega) below

/-- A valid request on `mm.c` does what it does on the abstract allocator. -/
theorem Serving.turn (serving : Serving base tags w a allocated) (valid : op.Valid numIds allocated)
    (small : op.Small base) :
    ∃ next r, w.call mm (op.call a.2) = some (next, r) ∧ Turned base tags w a allocated op next r := by
  -- The services of the machine follow the abstract allocator, and only its result decides.
  obtain ⟨legal, fine⟩ := serving.ready valid small
  obtain ⟨next, s', r, returned, moved, holds', _⟩ := (Explicit.services base).call serving.holds legal fine
  refine ⟨next, r, returned, ?_⟩
  by_cases refused : op.type ≠ .free ∧ r = null
  · refine .refused refused.1 refused.2 ?_
    simp only [lifoTurn, moved]
    exact congrArg some (if_pos refused)
  · -- The break has not gone down, and it is still inside the area.
    have real : op.type ≠ .free → r ≠ null := fun request null_ => refused ⟨request, null_⟩
    have moves : a.1.brk ≤ (lifo.move (base + maxHeap) a.1 (op.call a.2)).1.brk ∧
        (lifo.move (base + maxHeap) a.1 (op.call a.2)).1.brk ≤ base + maxHeap :=
      Skeleton.shelved_move_brk serving.inside _
    rw [moved] at moves
    obtain ⟨tags', ledger, held⟩ := serving.ledger.step serving.holds.owned.nodup valid returned real
    have brk : w.heap.memBrk = a.1.brk := serving.holds.rep.rep.brk
    have brk' : next.heap.memBrk = s'.brk := holds'.rep.rep.brk
    have abstract : lifoTurn base a op = some (.ok (s', op.moved a.2 r)) := by
      simp only [lifoTurn, moved]
      exact congrArg some (if_neg refused)
    refine .served real abstract rfl ⟨holds', serving.opened.trans_le moves.1, moves.2, ledger⟩ held ?_
    rw [brk, brk']
    exact moves.1

/-- The bytes that are allocated fit between the end of the prologue and the break. -/
theorem Serving.total_le (serving : Serving base tags w a allocated) :
    base + 24 + totalHeld (heldOf tags) ≤ w.heap.memBrk := by
  have tiles := Explicit.rep_tiles serving.holds.rep.rep
  rw [serving.holds.rep.start] at tiles
  have bytes := serving.holds.owned.bytes_le tiles
  -- The tags of the blocks only add to the requests.
  have fewer : (w.live.map Prod.snd).sum ≤ (w.live.map fun entry => entry.2 + 8).sum :=
    List.sum_le_sum fun entry _ => Nat.le_add_right entry.2 8
  rw [serving.ledger.total]
  omega

/-- The heap goes from the start of the area to the break. -/
theorem Serving.heapsize (serving : Serving base tags w a allocated) : memHeapsize w.heap + base = w.heap.memBrk := by
  have stands := serving.holds.rep
  have start := stands.start
  have high := stands.rep.arena.high
  have low := serving.total_le
  -- The break lies behind the start, so the difference does not wrap.
  unfold memHeapsize
  rw [sub32_eq (by omega) high]
  omega

/-- The machine has the area at `base` that `mem_init` obtained; its heap is in any state. -/
structure Over {γ : Type} (base : Nat) (h : Heap γ) : Prop where
  start : h.memStartBrk = base
  limit : h.memMaxAddr = add32 base maxHeap

/-- A heap that stands has its area. -/
theorem Over.of_stands (stands : Explicit.Stands base h s) : Over base h := by
  have limit := stands.rep.area.limit
  have fits := stands.rep.area.fits
  rw [stands.start] at limit
  refine ⟨stands.start, limit.trans ?_⟩
  unfold add32
  omega

/-- While the client is served, the machine still has its area. -/
theorem Serving.over (serving : Serving base tags w a allocated) : Over base w.heap := .of_stands serving.holds.rep

/-- Even a request that is refused leaves the area alone. -/
theorem Serving.leaves_over {r : Nat} (serving : Serving base tags w a allocated) (valid : op.Valid numIds allocated)
    (small : op.Small base) (returned : w.call mm (op.call a.2) = some (next, r)) : Over base next.heap := by
  -- After the call the heap stands again, whether or not the result is null.
  obtain ⟨legal, fine⟩ := serving.ready valid small
  obtain ⟨next', _, _, returned', _, holds', _⟩ := (Explicit.services base).call serving.holds legal fine
  rw [returned] at returned'
  obtain ⟨rfl, _⟩ := Prod.mk.inj (Option.some.inj returned')
  exact .of_stands holds'.rep

/-- Resetting the break is as good as a new area, whose bytes and statics are arbitrary. -/
theorem Over.reset {γ : Type} {h : Heap γ} (area : Over base h) : memResetBrk h = memInit h.mem base h.statics := by
  obtain ⟨rfl, limit⟩ := area
  -- The break goes back to the start, and the limit is where it was.
  unfold memResetBrk memInit
  rw [← limit]

/-- So `mm_init` succeeds again. -/
theorem Over.init (ok : Base base) (area : Over base h) :
    ∃ h', Explicit.mmInit (memResetBrk h) = some (h', 0) ∧
      Explicit.mmInit (memInit h.mem base h.statics) = some (h', 0) := by
  obtain ⟨h', init, _⟩ := Explicit.mmInit_holds ok h.mem h.statics
  exact ⟨h', area.reset ▸ init, init⟩

/-- After `mm_init` the heap serves the first request of a trace. -/
theorem Serving.start {m : Mem} {statics : Explicit.Statics} (ok : Base base)
    (init : Explicit.mmInit (memInit m base statics) = some (h, 0)) :
    Serving base [] { heap := h, live := [] } (initial base, fun _ => (0, 0)) [] where
  holds := Explicit.mmInit_stands ok init
  opened := by
    show base + 24 < base + 24 + 4096
    omega
  inside := by
    show base + 24 + 4096 ≤ base + maxHeap
    unfold maxHeap
    omega
  ledger := ⟨rfl, by simp⟩

/-- One request fewer is to come. -/
theorem Following.advance (following : Following base numIds final tags w allocated (op :: ops) a)
    (serving : Serving base tags' next a' (op.allocated allocated)) :
    Following base numIds final tags' next (op.allocated allocated) ops a' where
  serving := serving
  valid := following.valid.2
  small := fun op member => following.small op (List.mem_cons_of_mem _ member)
  final := following.final

/-- Before the first request every evaluation knows about the new heap. -/
theorem Following.start {m : Mem} {statics : Explicit.Statics} (ok : Base base)
    (init : Explicit.mmInit (memInit m base statics) = some (h, 0)) (valid : trace.Valid)
    (small : ∀ op ∈ trace.ops, op.Small base) :
    Following base trace.numIds (allocatedAfter [] trace.ops) [] { heap := h, live := [] } [] trace.ops
      (Explicit.initial base, fun _ => (0, 0)) where
  serving := .start ok init
  valid := valid.ops
  small := small
  final := rfl

/-- The zeroed area of the small runs lies far below the top of the address space. -/
theorem over_zeroed : Over 8 Explicit.zeroed := ⟨rfl, rfl⟩

/-- The requests of the small trace do not wrap over that area. -/
theorem sampleTrace_small (index : Nat) : ∀ op ∈ (sampleTrace index).ops, op.Small 8 := by
  simp [sampleTrace, TraceOp.Small, maxHeap]

end MallocLab.Driver
