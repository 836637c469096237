import MallocLab.Driver.Utilization
import MallocLab.Explicit.Frees

/-! The three evaluations of a trace place its blocks alike, although only one of them writes into the blocks. -/

namespace MallocLab.Driver

open Explicit (mm heapBlocks)

/-- `eval_mm_valid` follows the abstract allocator. -/
def Checks (base numIds : Nat) (final : List Nat) (ops : List TraceOp) (s : Nat × Session Explicit.Statics)
    (a : Shelves × Ids) : Prop :=
  ∃ tags w allocated, Following base numIds final tags w allocated ops a ∧ Agrees numIds w a.2 allocated s.2

/-- The reports of `eval_mm_valid` for the types of requests that may fail. -/
def ValidFailure (tracenum : Nat) (report : Report) (type : OpType) : Prop :=
  report.tracenum = tracenum ∧
    (type = .alloc ∧ report.complaint = .mallocFailed ∨ type = .realloc ∧ report.complaint = .reallocFailed)

/-- The blocks of these ids, and all blocks of the heap, are where the abstract allocator has put them. -/
structure Placed (base : Nat) (ids : List Nat) (a : Shelves × Ids) (h : Explicit.State) (blocks : List Nat) :
    Prop where
  area : Over base h
  brk : h.memBrk = a.1.brk
  tiling : heapBlocks h = Explicit.prologue base :: a.1.blocks
  entries : ∀ i ∈ ids, blocks[i]? = some (a.2 i).1

/-- Two evaluations have put the blocks of these ids, and all blocks of the heap, at the same places. -/
structure SamePlaces (ids : List Nat) (h h' : Explicit.State) (blocks blocks' : List Nat) : Prop where
  brk : h.memBrk = h'.memBrk
  tiling : heapBlocks h = heapBlocks h'
  entries : ∀ i ∈ ids, blocks[i]? = blocks'[i]?

variable {base numIds tracenum r : Nat} {final allocated : List Nat} {tags tags' : List Tag}
variable {w next : World Explicit.Statics} {a a' : Shelves × Ids} {op : TraceOp} {ops : List TraceOp}
variable {t : Timed Explicit.Statics} {s : Nat × Session Explicit.Statics} {h : Explicit.State} {trace : Trace}

/-- What the driver writes into a new block makes no difference to the allocator. -/
theorem Serving.filled (serving : Serving base tags next a' allocated)
    (member : op.type ≠ .free → (r, op.size) ∈ next.live) : Serving base tags (op.filled next r) a' allocated := by
  -- A free request does not fill anything.
  by_cases request : op.type = .free
  · have same : op.filled next r = next := by simp [TraceOp.filled, request]
    rw [same]
    exact serving
  · rw [TraceOp.filled_eq request]
    obtain ⟨⟨rep, owned⟩, opened, inside, ledger⟩ := serving
    obtain ⟨b, block, used, _, payload⟩ := owned.payload (member request)
    refine ⟨⟨(Explicit.services base).written rep fun x outside => fillBytes_other ?_, owned⟩, opened, inside, ledger⟩
    -- The payload that is filled lies in a used block.
    by_contra within_
    exact outside b block used (payload x (by omega) (by omega))

/-- What becomes of a request in `eval_mm_valid`, beside the same request on the abstract allocator. -/
inductive Inspected (base numIds tracenum : Nat) (final : List Nat) (ops : List TraceOp)
    (s : Nat × Session Explicit.Statics) (a : Shelves × Ids) (op : TraceOp) : Prop
  /-- The request is refused, which is reported. -/
  | refused {report : Report} (failed : validTurn mm tracenum s op = some (.error report))
      (abstract : lifoTurn base a op = some (.error op.type)) (failure : ValidFailure tracenum report op.type)
  /-- The request is served, and the block passes the check. -/
  | passed {s' : Nat × Session Explicit.Statics} {a' : Shelves × Ids}
      (passed : validTurn mm tracenum s op = some (.ok s')) (abstract : lifoTurn base a op = some (.ok a'))
      (low : op.type = .realloc → op.index % 256 < 128) (checks : Checks base numIds final ops s' a')
  /-- The contents of a block seem to be lost, since the filler of its id is negative as a `char`. -/
  | rejected {report : Report} (failed : validTurn mm tracenum s op = some (.error report))
      (type : op.type = .realloc) (high : ¬ op.index % 256 < 128)

/-- A turn that passes counts the request. -/
theorem validTurn_ok {s' : Session Explicit.Statics} (turn : evalOp mm tracenum s.1 s.2 op = some (.ok s')) :
    validTurn mm tracenum s op = some (.ok (s.1 + 1, s')) := by
  unfold validTurn
  rw [turn]
  rfl

/-- A turn that fails reports what the check has found. -/
theorem validTurn_error {report : Report} (turn : evalOp mm tracenum s.1 s.2 op = some (.error report)) :
    validTurn mm tracenum s op = some (.error report) := by
  unfold validTurn
  rw [turn]
  rfl

/-- A request that `mm.c` serves is served correctly. -/
theorem Serving.serves (serving : Serving base tags w a allocated) (valid : op.Valid numIds allocated)
    (small : op.Small base) (returned : w.call mm (op.call a.2) = some (next, r)) (real : op.type ≠ .free → r ≠ null) :
    Serves mm w a.2 op next r := by
  obtain ⟨legal, fine⟩ := serving.ready valid small
  -- What a dependable allocator returns is what this call has returned.
  obtain ⟨next', r', done, upholds, _, data⟩ := (mm_dependable base).serves ⟨_, serving.holds⟩ legal fine
  rw [returned] at done
  obtain ⟨rfl, rfl⟩ := Prod.mk.inj (Option.some.inj done)
  refine ⟨returned, upholds, real, fun type => ?_⟩
  have live := serving.ledger.mem (valid.known (by simp [type]))
  exact data (a.2 op.index).1 op.size (a.2 op.index).2 (TraceOp.call_of_realloc _ type) (real (by simp [type])) live

/-- Every request takes one of these three ways. -/
theorem validTurn_inspected (checks : Checks base numIds final (op :: ops) s a) :
    Inspected base numIds tracenum final ops s a op := by
  obtain ⟨tags, w, allocated, following, agrees⟩ := checks
  have valid := following.valid.1
  have small := following.small op List.mem_cons_self
  obtain ⟨next, r, returned, turned⟩ := following.serving.turn valid small
  -- A request is refused, or it is served and the driver looks at the block.
  cases turned with
  | refused request null_ abstract =>
    subst null_
    have failed : validTurn mm tracenum s op = _ := validTurn_error (agrees.refused valid request returned)
    refine .refused failed abstract ⟨rfl, ?_⟩
    -- The message is the one for the type of the request.
    cases type : op.type with
    | alloc => exact .inl ⟨rfl, rfl⟩
    | realloc => exact .inr ⟨rfl, rfl⟩
    | free => exact absurd type request
  | served real abstract moved serving _ _ =>
    have serves := following.serving.serves valid small returned real
    -- The new block is live, so filling it does not disturb the allocator.
    have member : op.type ≠ .free → (r, op.size) ∈ next.live := by
      intro request
      cases type : op.type with
      | alloc =>
        have call := TraceOp.call_of_alloc a.2 type
        rw [(call_malloc (call ▸ returned) (real request)).2]
        exact List.mem_cons_self
      | realloc =>
        have call := TraceOp.call_of_realloc a.2 type
        rw [(call_realloc (call ▸ returned) (real request)).2]
        exact List.mem_cons_self
      | free => exact absurd type request
    have filled := serving.filled member
    cases type : op.type with
    -- The driver accepts the new block.
    | alloc =>
      obtain ⟨s', passed, agrees'⟩ := agrees.alloc type valid serves
      exact .passed (validTurn_ok passed) abstract (by simp [type])
        ⟨_, _, _, following.advance filled, moved ▸ agrees'⟩
    -- It forgets the old block.
    | free =>
      obtain ⟨s', passed, agrees'⟩ := agrees.free type valid serves
      exact .passed (validTurn_ok passed) abstract (by simp [type])
        ⟨_, _, _, following.advance filled, moved ▸ agrees'⟩
    -- The bytes are compared with the filler, whose character is signed.
    | realloc =>
      obtain ⟨passes, fails⟩ := agrees.realloc type valid serves
      by_cases low : op.index % 256 < 128
      · obtain ⟨s', passed, agrees'⟩ := passes low
        exact .passed (validTurn_ok passed) abstract (fun _ => low)
          ⟨_, _, _, following.advance filled, moved ▸ agrees'⟩
      · -- With a filler from 128 on the comparison fails.
        obtain ⟨report, failed⟩ := fails low
        exact .rejected (validTurn_error failed) type low

/-- `eval_mm_valid` up to the end of its loop. -/
def validSession (A : Package Explicit.Statics) (h : Explicit.State) (trace : Trace) (tracenum : Nat) :
    Option (Except Report (Nat × Session Explicit.Statics)) := do
  let (h, _) ← A.mmInit (memResetBrk h)
  interpret (validTurn A.toAllocator tracenum)
    (0, { heap := h, ranges := [], blocks := trace.blocks, blockSizes := trace.blockSizes }) trace.ops

/-- The verdict of `eval_mm_valid` on `mm.c` is that of its loop. -/
theorem evalMmValid_eq (ok : Base base) (area : Over base h) :
    evalMmValid mmPackage h trace tracenum = (validSession mmPackage h trace tracenum).map fun result =>
      match result with
      | .error report => (0, [report])
      | .ok _ => (1, []) := by
  obtain ⟨h', init, _⟩ := area.init ok
  have init' : mmPackage.mmInit (memResetBrk h) = some (h', 0) := init
  unfold evalMmValid validSession
  rw [init']
  simp only [Option.bind_eq_bind, Option.bind_some]
  rw [if_neg (by decide), evalOps_eq]
  -- Both sides look at how the loop has ended.
  cases interpret (validTurn mmPackage.toAllocator tracenum) _ trace.ops with
  | none => rfl
  | some result => cases result <;> rfl

/-- `eval_mm_valid` follows the abstract allocator, and no request in sight has a filler that it misreads. -/
def Passes (base numIds : Nat) (final : List Nat) (ops : List TraceOp) (s : Nat × Session Explicit.Statics)
    (a : Shelves × Ids) : Prop :=
  (∀ op ∈ ops, op.type = .realloc → op.index % 256 < 128) ∧ Checks base numIds final ops s a

/-- `eval_mm_valid` reports what the abstract allocator refuses, when it does not misread a filler. -/
theorem validSession_inStep (tracenum : Nat) (ok : Base base) (area : Over base h) (valid : trace.Valid)
    (small : ∀ op ∈ trace.ops, op.Small base) (low : ∀ op ∈ trace.ops, op.type = .realloc → op.index % 256 < 128) :
    InStep (ValidFailure tracenum) (Passes base trace.numIds (allocatedAfter [] trace.ops) [])
      (validSession mmPackage h trace tracenum) (lifoReplay base trace.ops) := by
  obtain ⟨h', init, fresh⟩ := area.init ok
  have loop : validSession mmPackage h trace tracenum = interpret (validTurn mm tracenum)
      (0, { heap := h', ranges := [], blocks := trace.blocks, blockSizes := trace.blockSizes }) trace.ops :=
    bind_step init rfl
  -- The loop and the abstract run start together.
  have start : Passes base trace.numIds (allocatedAfter [] trace.ops) trace.ops
      (0, { heap := h', ranges := [], blocks := trace.blocks, blockSizes := trace.blockSizes })
      (Explicit.initial base, fun _ => (0, 0)) :=
    ⟨low, [], _, [], .start ok fresh valid small, .start valid⟩
  -- Fillers below 128 rule out the third way.
  rw [loop]
  refine interpret_inStep (fun related => ?_) start
  obtain ⟨low, checks⟩ := related
  cases validTurn_inspected checks with
  -- Both stop at the request.
  | refused failed abstract failure =>
    rw [failed, abstract]
    exact .failed failure
  -- Both go on.
  | passed passed abstract _ checks =>
    rw [passed, abstract]
    exact .done ⟨fun op member => low op (List.mem_cons_of_mem _ member), checks⟩
  | rejected _ type high => exact absurd (low _ List.mem_cons_self type) high

/-- `eval_mm_speed` ends as the abstract run of the trace does. -/
theorem evalMmSpeed_inStep (ok : Base base) (area : Over base h) (valid : trace.Valid)
    (small : ∀ op ∈ trace.ops, op.Small base) :
    InStep SpeedFailure
      (Follows base trace.numIds (allocatedAfter [] trace.ops)
        (fun _ w ids allocated _ => Replays trace.numIds w ids allocated) [])
      (evalMmSpeed mmPackage h trace) (lifoReplay base trace.ops) := by
  obtain ⟨h', init, fresh⟩ := area.init ok
  have loop : evalMmSpeed mmPackage h trace =
      interpret (speedTurn mm) { heap := h', blocks := trace.blocks } trace.ops := bind_step init (if_neg (by decide))
  -- At the start no id is allocated, and the arrays have their lengths.
  have start : Follows base trace.numIds (allocatedAfter [] trace.ops)
      (fun _ w ids allocated _ => Replays trace.numIds w ids allocated) trace.ops
      { heap := h', blocks := trace.blocks } (Explicit.initial base, fun _ => (0, 0)) :=
    ⟨[], _, [], .start ok fresh valid small, rfl, valid.blocks, by simp⟩
  rw [loop]
  exact speed_evaluates.follows start

/-- A check that has been passed has followed the abstract allocator, whatever the fillers are. -/
theorem validSession_follows (ok : Base base) (area : Over base h) (valid : trace.Valid)
    (small : ∀ op ∈ trace.ops, op.Small base) (passed : validSession mmPackage h trace tracenum = some (.ok s)) :
    ∃ a, lifoReplay base trace.ops = some (.ok a) ∧
      Checks base trace.numIds (allocatedAfter [] trace.ops) [] s a := by
  obtain ⟨h', init, fresh⟩ := area.init ok
  have loop : validSession mmPackage h trace tracenum = interpret (validTurn mm tracenum)
      (0, { heap := h', ranges := [], blocks := trace.blocks, blockSizes := trace.blockSizes }) trace.ops :=
    bind_step init rfl
  -- The check starts with empty tables.
  have start : Checks base trace.numIds (allocatedAfter [] trace.ops) trace.ops
      (0, { heap := h', ranges := [], blocks := trace.blocks, blockSizes := trace.blockSizes })
      (Explicit.initial base, fun _ => (0, 0)) := ⟨[], _, [], .start ok fresh valid small, .start valid⟩
  rw [loop] at passed
  refine interpret_follows (fun checks turn => ?_) start passed
  have inspected : Inspected _ _ tracenum _ _ _ _ _ := validTurn_inspected checks
  -- A turn that goes on is neither refused nor rejected.
  cases inspected with
  | refused failed _ _ => simp [failed] at turn
  | rejected failed _ _ => simp [failed] at turn
  | passed passed abstract _ checks =>
    obtain rfl := Except.ok.inj (Option.some.inj (passed.symm.trans turn))
    exact ⟨_, abstract, checks⟩

/-- At the end of a trace the blocks are where the abstract allocator has put them. -/
theorem Following.placed {blocks : List Nat} (following : Following base numIds final tags w allocated [] a)
    (noted : Noted numIds allocated (fun i => (a.2 i).1) blocks) : Placed base final a w.heap blocks where
  area := following.serving.over
  brk := following.serving.holds.rep.rep.brk
  tiling := Explicit.heapBlocks_eq following.serving.holds.rep
  entries i member := by
    have same : allocated = final := following.final
    exact noted.entries i (same ▸ member)

/-- Two evaluations that have followed the same abstract run agree with each other. -/
theorem Placed.same {ids blocks blocks' : List Nat} {h' : Explicit.State} (first : Placed base ids a h blocks)
    (second : Placed base ids a h' blocks') : SamePlaces ids h h' blocks blocks' where
  brk := first.brk.trans second.brk.symm
  tiling := first.tiling.trans second.tiling.symm
  entries i member := (first.entries i member).trans (second.entries i member).symm

/--
On a valid trace whose reallocated ids have fillers below 128 the driver never blames `mm.c` for anything but a refusal.

A refusal is the only report, and without one the trace is passed.
-/
theorem mm_validity (ok : Base base) (area : Over base h) (valid : trace.Valid)
    (small : ∀ op ∈ trace.ops, op.Small base) (low : ∀ op ∈ trace.ops, op.type = .realloc → op.index % 256 < 128)
    (tracenum : Nat) :
    evalMmValid mmPackage h trace tracenum = some (1, []) ∨
      ∃ opnum, evalMmValid mmPackage h trace tracenum =
          some (0, [{ tracenum := tracenum, opnum := opnum, complaint := .mallocFailed }]) ∨
        evalMmValid mmPackage h trace tracenum =
          some (0, [{ tracenum := tracenum, opnum := opnum, complaint := .reallocFailed }]) := by
  have inStep : InStep (ValidFailure tracenum) _ _ _ := validSession_inStep tracenum ok area valid small low
  rw [evalMmValid_eq ok area]
  -- The check ends as the abstract run does, and a failure is a refusal.
  generalize validSession mmPackage h trace tracenum = left at inStep
  generalize lifoReplay base trace.ops = right at inStep
  cases inStep with
  | done _ => exact .inl rfl
  | @failed report _ failure =>
    obtain ⟨number, opnum, complaint⟩ := report
    obtain ⟨rfl, ⟨_, rfl⟩ | ⟨_, rfl⟩⟩ := failure
    · -- The two messages are those of the two types.
      exact .inr ⟨opnum, .inl rfl⟩
    · exact .inr ⟨opnum, .inr rfl⟩

/-- On the small trace with id zero the driver has nothing to report but a refusal. -/
theorem mm_validity_sample : evalMmValid mmPackage Explicit.zeroed (sampleTrace 0) 0 = some (1, []) ∨
    ∃ opnum, evalMmValid mmPackage Explicit.zeroed (sampleTrace 0) 0 =
        some (0, [{ tracenum := 0, opnum := opnum, complaint := .mallocFailed }]) ∨
      evalMmValid mmPackage Explicit.zeroed (sampleTrace 0) 0 =
        some (0, [{ tracenum := 0, opnum := opnum, complaint := .reallocFailed }]) :=
  mm_validity base_eight over_zeroed (sampleTrace_valid 0) (sampleTrace_small 0) (by simp [sampleTrace]) 0

/--
A trace that `mm.c` has passed is served by it in the other two evaluations as well, at the same places.

They may start with any heap and with anything in their arrays, and they do not write into the blocks.
-/
theorem mm_evaluations_agree {hUtil hSpeed : Explicit.State} {blocks blockSizes : List Nat} (ok : Base base)
    (area : Over base h) (areaUtil : Over base hUtil) (areaSpeed : Over base hSpeed) (valid : trace.Valid)
    (small : ∀ op ∈ trace.ops, op.Small base) (length : blocks.length = trace.numIds)
    (length' : blockSizes.length = trace.numIds) (passed : evalMmValid mmPackage h trace tracenum = some (1, [])) :
    ∃ s u t, validSession mmPackage h trace tracenum = some (.ok s) ∧
      evalMmUtil mmPackage hUtil { trace with blocks := blocks, blockSizes := blockSizes } = some (.ok u) ∧
      evalMmSpeed mmPackage hSpeed { trace with blocks := blocks, blockSizes := blockSizes } = some (.ok t) ∧
      (Over base s.2.heap ∧ Over base u.heap ∧ Over base t.heap) ∧
      SamePlaces (allocatedAfter [] trace.ops) s.2.heap u.heap s.2.blocks u.blocks ∧
      SamePlaces (allocatedAfter [] trace.ops) u.heap t.heap u.blocks t.blocks := by
  -- The verdict is that of the loop, which has come to its end.
  rw [evalMmValid_eq ok area] at passed
  obtain ⟨result, session, verdict⟩ := Option.map_eq_some_iff.mp passed
  cases result with
  | error report => exact absurd (congrArg Prod.fst verdict) (by simp)
  | ok s =>
    -- The abstract run has come to its end, so the other evaluations do so, too.
    obtain ⟨a, abstract, tags, w, allocated, following, agrees⟩ := validSession_follows ok area valid small session
    -- The other arrays have the same lengths, so the trace is valid with them.
    have valid' : Trace.Valid { trace with blocks := blocks, blockSizes := blockSizes } :=
      ⟨length, length', valid.ops⟩
    have util := evalMmUtil_inStep ok areaUtil valid' small
    have speed := evalMmSpeed_inStep ok areaSpeed valid' small
    rw [abstract] at util speed
    obtain ⟨u, utilized, tagsU, wU, allocatedU, followingU, metered⟩ := util.ok
    obtain ⟨t, timed, tagsT, wT, allocatedT, followingT, heapT, notedT⟩ := speed.ok
    -- The three heaps have the same blocks in the same places.
    have placed : Placed base (allocatedAfter [] trace.ops) a s.2.heap s.2.blocks := by
      rw [agrees.heap]
      exact following.placed ⟨agrees.blocks, fun i member => (agrees.recorded i member).1⟩
    have placedU := metered.heap ▸ followingU.placed metered.blocks
    have placedT := heapT ▸ followingT.placed notedT
    exact ⟨s, u, t, session, utilized, timed, ⟨placed.area, placedU.area, placedT.area⟩, placed.same placedU,
      placedU.same placedT⟩

/-- The small trace with id zero passes, and the other evaluations agree, whatever their arrays contain at first. -/
theorem mm_evaluations_agree_sample : ∃ s u t,
    validSession mmPackage Explicit.zeroed (sampleTrace 0) 0 = some (.ok s) ∧
      evalMmUtil mmPackage Explicit.zeroed { sampleTrace 0 with blocks := [7], blockSizes := [9] } = some (.ok u) ∧
      evalMmSpeed mmPackage Explicit.zeroed { sampleTrace 0 with blocks := [7], blockSizes := [9] } = some (.ok t) ∧
      (Over 8 s.2.heap ∧ Over 8 u.heap ∧ Over 8 t.heap) ∧
      SamePlaces (allocatedAfter [] (sampleTrace 0).ops) s.2.heap u.heap s.2.blocks u.blocks ∧
      SamePlaces (allocatedAfter [] (sampleTrace 0).ops) u.heap t.heap u.blocks t.blocks :=
  mm_evaluations_agree base_eight over_zeroed over_zeroed over_zeroed (sampleTrace_valid 0) (sampleTrace_small 0) rfl
    rfl (by decide +kernel)

end MallocLab.Driver
