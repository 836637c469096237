import MallocLab.Driver.Serving
import MallocLab.Driver.Turns

/-! What `eval_mm_util` computes for `mm.c`: the peak of the trace, over a heap that is at least as large. -/

namespace MallocLab.Driver

open Explicit (mm)

/-- A loop on `mm.c` follows the abstract allocator, while these requests are still to come. -/
def Follows {S : Type} (base numIds : Nat) (final : List Nat)
    (knows : List Tag → World Explicit.Statics → Ids → List Nat → List TraceOp → S → Prop) (ops : List TraceOp) (s : S)
    (a : Shelves × Ids) : Prop :=
  ∃ tags w allocated, Following base numIds final tags w allocated ops a ∧ knows tags w a.2 allocated ops s

variable {base numIds peak : Nat} {tags : List Tag} {w : World Explicit.Statics} {a : Shelves × Ids}
variable {allocated : List Nat} {op : TraceOp} {ops : List TraceOp} {u : Usage Explicit.Statics}
variable {final : List Nat}

/-- A turn of such a loop follows the turn of the abstract allocator. -/
theorem Evaluates.inStep {S : Type} {turn : S → TraceOp → Option (Except String S)} {s : S}
    {failure : String → OpType → Prop}
    {knows : List Tag → World Explicit.Statics → Ids → List Nat → List TraceOp → S → Prop}
    (evaluates : Evaluates mm (base + 24) numIds turn failure knows)
    (follows : Follows base numIds final knows (op :: ops) s a) :
    InStep failure (Follows base numIds final knows ops) (turn s op) (lifoTurn base a op) := by
  obtain ⟨tags, w, allocated, following, known⟩ := follows
  have valid := following.valid.1
  obtain ⟨next, r, returned, turned⟩ := following.serving.turn valid (following.small op List.mem_cons_self)
  cases turned with
  -- The request is refused, and both stop.
  | refused request null_ abstract =>
    subst null_
    obtain ⟨message, failed, fails⟩ := evaluates.refused known valid request returned
    rw [failed, abstract]
    exact .failed fails
  | served real abstract moved serving held grows =>
    -- All that is held lies in the heap behind the prologue, and the heap inside the area.
    have inside := serving.inside
    have brk : next.heap.memBrk = _ := serving.holds.rep.rep.brk
    obtain ⟨s', passed, known'⟩ := evaluates.served known following.serving.ledger valid returned real held
      serving.total_le grows (by omega)
    rw [passed, abstract]
    exact .done ⟨_, _, _, following.advance serving, moved ▸ known'⟩

/-- So the whole loop follows the abstract run of the trace. -/
theorem Evaluates.follows {S : Type} {turn : S → TraceOp → Option (Except String S)} {s : S}
    {failure : String → OpType → Prop}
    {knows : List Tag → World Explicit.Statics → Ids → List Nat → List TraceOp → S → Prop}
    (evaluates : Evaluates mm (base + 24) numIds turn failure knows)
    (follows : Follows base numIds final knows ops s a) :
    InStep failure (Follows base numIds final knows []) (interpret turn s ops) (interpret (lifoTurn base) a ops) := by
  have turns : ∀ {op ops s a}, Follows base numIds final knows (op :: ops) s a →
      InStep failure (Follows base numIds final knows ops) (turn s op) (lifoTurn base a op) :=
    fun follows => evaluates.inStep follows
  exact interpret_inStep turns follows

variable {h : Explicit.State} {trace : Trace}

/-- The whole evaluation follows the abstract run of the trace. -/
theorem evalMmUtil_inStep (ok : Base base) (area : Over base h) (valid : trace.Valid)
    (small : ∀ op ∈ trace.ops, op.Small base) :
    InStep UtilFailure
      (Follows base trace.numIds (allocatedAfter [] trace.ops) (Metered (base + 24) trace.numIds trace.peak) [])
      (evalMmUtil mmPackage h trace) (lifoReplay base trace.ops) := by
  obtain ⟨h', init, fresh⟩ := area.init ok
  have serving := Serving.start ok fresh
  have room := serving.total_le
  -- The evaluation is a loop over the requests.
  have loop : evalMmUtil mmPackage h trace = interpret (utilTurn mm)
      { heap := h', blocks := trace.blocks, blockSizes := trace.blockSizes, totalSize := 0, maxTotalSize := 0 }
      trace.ops := bind_step init (if_neg (by decide))
  -- Nothing is allocated yet, and the peak is still ahead.
  have start : Follows base trace.numIds (allocatedAfter [] trace.ops) (Metered (base + 24) trace.numIds trace.peak)
      trace.ops
      { heap := h', blocks := trace.blocks, blockSizes := trace.blockSizes, totalSize := 0, maxTotalSize := 0 }
      (Explicit.initial base, fun _ => (0, 0)) := by
    simp only [heldOf, totalHeld, List.map_nil, List.sum_nil] at room
    refine ⟨[], { heap := h', live := [] }, [], .start ok fresh valid small, rfl, ⟨valid.blocks, by simp⟩,
      ⟨valid.blockSizes, by simp⟩, rfl, Int.le_refl 0, ?_, ?_⟩
    · show (0 : Int) + (base + 24 : Nat) ≤ (h'.memBrk : Int)
      omega
    · exact Int.max_eq_right (Int.natCast_nonneg _)
  rw [loop]
  exact util_evaluates.follows start

/-- At the end of a trace the numerator is its peak, and the denominator is the size of the heap. -/
theorem Following.finished (following : Following base numIds final tags w allocated [] a)
    (metered : Metered (base + 24) numIds peak tags w a.2 allocated [] u) :
    u.maxTotalSize = peak ∧ memHeapsize u.heap = a.1.brk - base ∧ peak + 24 ≤ memHeapsize u.heap := by
  obtain ⟨bytes, least, room, reaches⟩ := metered.counted
  have most : max u.maxTotalSize (0 : Int) = peak := reaches
  have size := following.serving.heapsize
  have brk : w.heap.memBrk = a.1.brk := following.serving.holds.rep.rep.brk
  -- No request is left, so the peak has been reached.
  rw [metered.heap]
  omega

/--
On a valid trace `eval_mm_util` leaves the program at a request that is refused, or it returns a proper fraction.

Its numerator is the peak of the trace, and the heap is larger by the prologue and the epilogue at least.
-/
theorem mm_utilization (ok : Base base) (area : Over base h) (valid : trace.Valid)
    (small : ∀ op ∈ trace.ops, op.Small base) :
    ∃ result, evalMmUtil mmPackage h trace = some result ∧
      (result = .error "mm_malloc failed in eval_mm_util" ∨ result = .error "mm_realloc failed in eval_mm_util" ∨
        ∃ u, result = .ok u ∧ u.maxTotalSize = trace.peak ∧ trace.peak + 24 ≤ memHeapsize u.heap) := by
  have inStep := evalMmUtil_inStep ok area valid small
  -- The evaluation ends as the abstract run of the trace does.
  generalize evalMmUtil mmPackage h trace = left at inStep
  generalize lifoReplay base trace.ops = right at inStep
  cases inStep with
  -- It stops with one of the two messages.
  | failed same =>
    rcases same with ⟨_, rfl⟩ | ⟨_, rfl⟩
    · exact ⟨_, rfl, .inl rfl⟩
    · exact ⟨_, rfl, .inr (.inl rfl)⟩
  -- It ends with the counters of the whole trace.
  | done follows =>
    obtain ⟨tags, w, allocated, following, metered⟩ := follows
    obtain ⟨most, _, room⟩ := following.finished metered
    exact ⟨_, rfl, .inr (.inr ⟨_, rfl, most, room⟩)⟩

/-- The utilization of `mm.c` on the small trace with id zero. -/
theorem mm_utilization_sample : ∃ result, evalMmUtil mmPackage Explicit.zeroed (sampleTrace 0) = some result ∧
    (result = .error "mm_malloc failed in eval_mm_util" ∨ result = .error "mm_realloc failed in eval_mm_util" ∨
      ∃ u, result = .ok u ∧ u.maxTotalSize = (sampleTrace 0).peak ∧
        (sampleTrace 0).peak + 24 ≤ memHeapsize u.heap) :=
  mm_utilization base_eight over_zeroed (sampleTrace_valid 0) (sampleTrace_small 0)

end MallocLab.Driver
