import MallocLab.Traces.Reclaim

/-! From a trace file to the verdict of the driver on `mm.c`, through `checktrace.pl` and `read_trace`. -/

namespace MallocLab.Traces

open Driver
open Explicit (mm)

/-- A trace in memory has what `read_trace` stored, and otherwise whatever was in its arrays before. -/
structure Loaded (o : Outcome) (trace : Trace) : Prop extends o.Loads trace where
  sizes : ∀ store ∈ o.stores, ∀ op ∈ trace.ops[store.opIndex]?, ∀ size ∈ store.size, (op.size : Int) = size

/-- Two requests that differ in the size of a free request at most, which nothing reads. -/
def SameRequest (op op' : TraceOp) : Prop :=
  op'.type = op.type ∧ op'.index = op.index ∧ (op.type ≠ .free → op'.size = op.size)

/-- What the driver finds when `mm.c` refuses a request: that request is the only thing that it reports. -/
def Refused (h : Explicit.State) (trace : Trace) : Prop :=
  ∀ tracenum, ∃ opnum complaint, (complaint = .mallocFailed ∨ complaint = .reallocFailed) ∧
    evalMmValid mmPackage h trace tracenum =
      some (0, [{ tracenum := tracenum, opnum := opnum, complaint := complaint }])

variable {base numIds : Nat} {ops ops' : List TraceOp} {op op' : TraceOp} {allocated : List Nat} {o : Outcome}
variable {trace : Trace} {h : Explicit.State} {header : Header} {env : Surroundings} {newline : Bool}

/-- The requests of a loaded trace are those whose stores were made. -/
theorem Loaded.same (loaded : Loaded o trace) (stores : o.stores = storesOf ops) (counted : o.numOps = ops.length) :
    List.Forall₂ SameRequest ops trace.ops := by
  have length : trace.ops.length = ops.length := by
    have := loaded.numOps
    omega
  -- The entries are compared one by one, as the stores were made.
  refine List.forall₂_iff_get.mpr ⟨length.symm, fun i below below' => ?_⟩
  have member : storeOf i ops[i] ∈ o.stores := by
    rw [stores]
    exact List.mem_mapIdx.mpr ⟨i, below, rfl⟩
  obtain ⟨op, entry, type, index⟩ := loaded.stored _ member
  have size := loaded.sizes _ member op entry
  -- The store with this number went into this entry.
  obtain rfl : trace.ops[i] = op := (List.getElem?_eq_some_iff.mp entry).2
  refine ⟨type, Int.ofNat_inj.mp index, fun real => ?_⟩
  exact Int.ofNat_inj.mp (size _ (if_neg real))

/-- Memory with these requests is a loaded trace. -/
theorem exists_loaded (stores : o.stores = storesOf ops) (counted : o.numOps = ops.length)
    (ids : o.numIds = (numIds : Int)) : ∃ trace, Loaded o trace := by
  -- The loop has stored every request, and the arrays can be filled with anything.
  refine ⟨{ numIds := numIds, ops := ops, blocks := List.replicate (entries o.numIds 4) 0
            blockSizes := List.replicate (entries o.numIds 4) 0 },
    ⟨ids.symm, counted.symm, List.length_replicate, List.length_replicate, fun store member => ?_⟩,
    fun store member op here size written => ?_⟩
  · -- Each store is the one of its request.
    rw [stores] at member
    obtain ⟨i, below, rfl⟩ := List.mem_mapIdx.mp member
    exact ⟨ops[i], List.getElem?_eq_getElem below, rfl, rfl⟩
  · -- A size is stored only with a request that has one.
    rw [stores] at member
    obtain ⟨i, below, rfl⟩ := List.mem_mapIdx.mp member
    obtain rfl : ops[i] = op := (List.getElem?_eq_some_iff.mp here).2
    unfold storeOf at written
    split at written
    · simp at written
    · simpa using written

/-- Such requests allocate and free the same ids. -/
theorem SameRequest.moves (same : SameRequest op op') (ids : List Nat) : op'.allocated ids = op.allocated ids := by
  obtain ⟨type, index, _⟩ := same
  unfold TraceOp.allocated
  rw [type, index]

/-- The same requests allocate the same ids. -/
theorem allocatedAfter_same (same : List.Forall₂ SameRequest ops ops') (allocated : List Nat) :
    allocatedAfter allocated ops' = allocatedAfter allocated ops := by
  -- The sizes of free requests do not matter.
  induction same generalizing allocated with
  | nil => rfl
  | cons here _ ih => rw [allocatedAfter_cons, allocatedAfter_cons, here.moves, ih]

/-- So they are proper at the same time. -/
theorem ProperOps.same (proper : ProperOps allocated ops) (same : List.Forall₂ SameRequest ops ops') :
    ProperOps allocated ops' := by
  induction same generalizing allocated with
  | nil => trivial
  | cons here _ ih =>
    obtain ⟨first, later⟩ := proper
    refine ⟨?_, here.moves _ ▸ ih later⟩
    rw [here.1, here.2.1]
    exact first

/-- And they are valid at the same time. -/
theorem validOps_same (valid : ValidOps numIds allocated ops) (same : List.Forall₂ SameRequest ops ops') :
    ValidOps numIds allocated ops' := by
  induction same generalizing allocated with
  | nil => trivial
  | cons here _ ih =>
    obtain ⟨⟨size, index, known⟩, later⟩ := valid
    obtain ⟨type', index', size'⟩ := here
    refine ⟨⟨fun real => ?_, index' ▸ index, fun request => ?_⟩, SameRequest.moves ⟨type', index', size'⟩ _ ▸ ih later⟩
    · rw [type'] at real
      rw [size' real]
      exact size real
    · rw [type'] at request
      exact index' ▸ known request

/-- What holds of every request that is no free request holds of the other requests, too. -/
theorem forall_same {P : OpType → Nat → Nat → Prop} (each : ∀ op ∈ ops, op.type ≠ .free → P op.type op.index op.size)
    (same : List.Forall₂ SameRequest ops ops') : ∀ op ∈ ops', op.type ≠ .free → P op.type op.index op.size := by
  induction same with
  | nil => simp
  | cons here _ ih =>
    obtain ⟨type, index, size⟩ := here
    intro op member real
    rcases List.mem_cons.mp member with rfl | later
    · rw [type] at real ⊢
      rw [index, size real]
      exact each _ List.mem_cons_self real
    · exact ih (fun other inside => each other (List.mem_cons_of_mem _ inside)) op later real

/-- A balanced valid trace in memory succeeds, or one of its requests is refused. -/
theorem succeeds_or_refused (ok : Base base) (area : Over base h) (valid : trace.Valid)
    (small : ∀ op ∈ trace.ops, op.Small base) (low : ∀ op ∈ trace.ops, op.type = .realloc → op.index % 256 < 128)
    (proper : ProperOps [] trace.ops) (balanced : allocatedAfter [] trace.ops = []) :
    (∃ heapsize, Succeeds base h trace trace.peak heapsize) ∨ Refused h trace := by
  have util := evalMmUtil_inStep ok area valid small
  obtain ⟨result, replayed⟩ := util.defined
  cases result with
  | ok a =>
    -- The abstract run gets to its end with nothing held.
    obtain ⟨w, allocated, idle⟩ := lifoReplay_idle ok area valid.ops small proper balanced replayed
    exact .inl ⟨_, .of_replay ok area valid small low replayed idle⟩
  | error type =>
    -- The abstract allocator has refused a request of this type.
    refine .inr fun tracenum => ?_
    have check := validSession_inStep tracenum ok area valid small low
    rw [replayed] at check
    obtain ⟨⟨tracenum', opnum, complaint⟩, session, number, failure⟩ := check.error
    obtain rfl : tracenum' = tracenum := number
    refine ⟨opnum, complaint, failure.imp And.right And.right, ?_⟩
    rw [evalMmValid_eq ok area, session]
    rfl

/--
From the file to the verdict: a file of proper requests is balanced, read, and it succeeds unless a request is refused.

The requests must be small, and those that reallocate must have fillers that are no negative characters.
There must be so few requests and ids that the bytes of the arrays do not wrap, even with a free request for each id.
-/
theorem mm_trace_verdict (other : Text → Nat → Text) (ok : Base base) (area : Over base h)
    (declares : header.Declares ops) (proper : ProperOps [] ops) (sizes : ∀ op ∈ ops, op.type ≠ .free → 0 < op.size)
    (fits : Ints header ops) (total : 12 * (header.numOps + header.numIds) < 2 ^ 32) (allows : AllowsFrees env header)
    (small : ∀ op ∈ ops, op.Small base) (low : ∀ op ∈ ops, op.type = .realloc → op.index % 256 < 128) :
    ∃ out o, checktrace other false (fileText header ops newline) = .ok out ∧ readTrace env out = some o ∧
      o.ending = .returned ∧ o.Admits ∧ (∃ trace, Loaded o trace) ∧ ∀ trace, Loaded o trace →
        (∃ heapsize, Succeeds base h trace trace.peak heapsize) ∨ Refused h trace := by
  -- The file has been balanced by `checktrace.pl`.
  obtain ⟨ids, checked, balanced⟩ := checktrace_balanced newline other declares proper sizes fits (by omega)
  have read := readTrace_written true balanced.declares balanced.ints (allows ids.length balanced.few)
  have counted : ((header.counting ids.length).numOps : Int) = ((ops ++ ids.map freeOp).length : Nat) :=
    congrArg _ balanced.declares.numOps
  have few := balanced.few
  -- The arrays are large enough for the balanced file.
  have bytes : 12 * (header.numOps + ids.length) < 2 ^ 32 := by omega
  have idBytes : 4 * header.numIds < 2 ^ 32 := by omega
  have admits := readBack_admits balanced.declares ⟨balanced.ints, bytes, idBytes⟩
  refine ⟨_, _, checked, read, rfl, admits, exists_loaded rfl counted rfl, fun trace loaded => ?_⟩
  -- The trace that is loaded is the one of the file.
  have same := loaded.same rfl counted
  have numIds : trace.numIds = header.numIds := Int.ofNat_inj.mp loaded.numIds
  -- The arrays for the blocks have an entry for each id.
  have whole : entries (header.numIds : Int) 4 = header.numIds := by
    unfold entries mul32
    rw [ofInt32_small fits.numIds]
    omega
  -- The requests that `checktrace.pl` has added are free requests.
  have old : ∀ op ∈ ops ++ ids.map freeOp, op.type ≠ .free → op ∈ ops := by
    intro op member real
    rcases List.mem_append.mp member with old | free
    · exact old
    · obtain ⟨i, _, rfl⟩ := List.mem_map.mp free
      exact absurd rfl real
  -- So what holds of every request of the file holds of every request that is loaded.
  have each : ∀ {P : OpType → Nat → Nat → Prop}, (∀ op ∈ ops, op.type ≠ .free → P op.type op.index op.size) →
      ∀ op ∈ trace.ops, op.type ≠ .free → P op.type op.index op.size := fun holds =>
    forall_same (fun op member real => holds op (old op member real) real) same
  refine succeeds_or_refused ok area ⟨(loaded.blocks.trans whole).trans numIds.symm,
    (loaded.blockSizes.trans whole).trans numIds.symm, numIds ▸ validOps_same balanced.valid same⟩ ?_ ?_
    (balanced.proper.same same) ((allocatedAfter_same same []).trans balanced.done)
  · exact each (P := fun _ _ size => base + maxHeap + size + 4096 < 2 ^ 32) fun op member => small op member
  · intro op member type
    refine each (P := fun type index _ => type = .realloc → index % 256 < 128)
      (fun op member _ => low op member) op member ?_ type
    simp [type]

/-- The first six requests of the example, from the script to the verdict. -/
theorem mm_trace_verdict_sample :
    ∃ out o, checktrace (fun _ n => decimal n) false (fileText shortHeader (sampleOps.take 6) true) = .ok out ∧
      readTrace plenty out = some o ∧ o.ending = .returned ∧ o.Admits ∧ (∃ trace, Loaded o trace) ∧
        ∀ trace, Loaded o trace →
          (∃ heapsize, Succeeds 8 Explicit.zeroed trace trace.peak heapsize) ∨ Refused Explicit.zeroed trace :=
  mm_trace_verdict _ base_eight over_zeroed short_declares (by simp [ProperOps, sampleOps, TraceOp.allocated])
    (by decide) short_fits.toInts (by decide) (fun _ _ => ⟨rfl, rfl, rfl, rfl⟩)
    (by simp [sampleOps, TraceOp.Small, maxHeap]) (by decide)

end MallocLab.Traces
