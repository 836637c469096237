import MallocLab.Driver.Agreement

/-! How `main` of `mdriver.c` scores an allocator file on one trace after another, over one memory system. -/

namespace MallocLab.Driver

open Explicit (mm)

variable {γ : Type}

/-- The heap once the allocator has been called for a request, before the driver looks at the result. -/
def TraceOp.leaves (op : TraceOp) (A : Allocator γ) (s : Session γ) : Option (Heap γ) :=
  match op.type with
  | .alloc => do
    let (h, _) ← A.mmMalloc s.heap op.size
    return h
  | .realloc => do
    let oldp ← s.blocks[op.index]?
    let (h, _) ← A.mmRealloc s.heap oldp op.size
    return h
  | .free => do
    let p ← s.blocks[op.index]?
    A.mmFree s.heap p

/-- The loop of `eval_mm_valid` with everything that it leaves behind, and its report if there is one. -/
def checkOps (A : Allocator γ) (tracenum : Nat) :
    Nat → Session γ → List TraceOp → Option (Session γ × Option Report)
  | _, s, [] => some (s, none)
  | i, s, op :: ops => do
    match ← evalOp A tracenum i s op with
    -- What is wrong is found before anything is written into the new block or into the arrays.
    | .error report => return ({ s with heap := ← op.leaves A s }, some report)
    | .ok s => checkOps A tracenum (i + 1) s ops

/-- `eval_mm_valid` as `main` calls it: its result, what it leaves behind, and the errors that it reported. -/
def checkTrace (A : Package γ) (h : Heap γ) (trace : Trace) (tracenum : Nat) :
    Option (Int × Session γ × List Report) := do
  let (h, code) ← A.mmInit (memResetBrk h)
  let s : Session γ := { heap := h, ranges := [], blocks := trace.blocks, blockSizes := trace.blockSizes }
  if code < 0 then return (0, s, [{ tracenum := tracenum, opnum := 0, complaint := .initFailed }])
  match ← checkOps A.toAllocator tracenum 0 s trace.ops with
  | (s, some report) => return (0, s, [report])
  | (s, none) => return (1, s, [])

/-- `fsecs(eval_mm_speed, &speed_params)`, which calls the function as often as `ftimer_gettod` is told. -/
def timeTrace (A : Package γ) (trace : Trace) : Nat → Timed γ → Option (Except String (Timed γ))
  | 0, t => some (.ok t)
  | n + 1, t => do
    match ← evalMmSpeed A t.heap { trace with blocks := t.blocks } with
    | .error message => return .error message
    | .ok t => timeTrace A trace n t

/--
A line of `mm_stats`, without the running time.

The utilization is a quotient; where there is none `calloc` has left a zero.
-/
structure Stats where
  ops : Nat
  valid : Int
  util : Option (Int × Nat)
deriving DecidableEq

/-- What `main` has after some of the traces: the memory system, the lines so far, and all that was reported. -/
structure Scores (γ : Type) where
  heap : Heap γ
  stats : List Stats
  reports : List Report

/-- `errors`, which `malloc_error` counts. -/
def Scores.errors (s : Scores γ) : Nat := s.reports.length

/-- `numcorrect` -/
def Scores.numcorrect (s : Scores γ) : Nat := (s.stats.filter fun line => line.valid ≠ 0).length

/-- `main` prints a performance index unless there were errors. -/
def Scores.printsIndex (s : Scores γ) : Bool := s.errors = 0

/-- One turn of the loop over the traces, which goes on or leaves the program with a message. -/
def scoreTurn (A : Package γ) (n : Nat) (s : Scores γ) (trace : Trace) : Option (Except String (Scores γ)) := do
  let (valid, left, reports) ← checkTrace A s.heap trace s.stats.length
  let line : Stats := { ops := trace.ops.length, valid := valid, util := none }
  if valid = 0 then
    return .ok { heap := left.heap, stats := s.stats ++ [line], reports := s.reports ++ reports }
  match ← evalMmUtil A left.heap { trace with blocks := left.blocks, blockSizes := left.blockSizes } with
  | .error message => return .error message
  | .ok u =>
    let line := { line with util := some (u.maxTotalSize, memHeapsize u.heap) }
    match ← timeTrace A { trace with blockSizes := u.blockSizes } n { heap := u.heap, blocks := u.blocks } with
    | .error message => return .error message
    | .ok t => return .ok { heap := t.heap, stats := s.stats ++ [line], reports := s.reports ++ reports }

/-- The loop of `main` over the traces; each speed is measured by `n` evaluations. -/
def scoreTraces (A : Package γ) (n : Nat) (h : Heap γ) (traces : List Trace) : Option (Except String (Scores γ)) :=
  interpret (scoreTurn A n) { heap := h, stats := [], reports := [] } traces

/-- The table of `main` is right about these traces, whatever the allocator has done. -/
structure Tallied (traces : List Trace) (s : Scores γ) : Prop where
  ops : s.stats.map Stats.ops = traces.map fun trace => trace.ops.length
  lines : ∀ line ∈ s.stats, line.valid = 1 ∧ line.util.isSome ∨ line.valid = 0 ∧ line.util = none
  /-- Each trace that is not valid has been reported once, under its number. -/
  reported : s.reports.map Report.tracenum = s.stats.findIdxs fun line => line.valid = 0

/-- The table is right about the traces that have been scored before the rest. -/
def Underway (traces rest : List Trace) (s : Scores γ) : Prop := ∃ first, traces = first ++ rest ∧ Tallied first s

/-- A request on the abstract allocator, with the driver misreading a filler that is not a positive `char`. -/
def judgeTurn (base : Nat) (a : Shelves × Ids) (op : TraceOp) : Option (Except OpType (Shelves × Ids)) :=
  if op.type = .realloc ∧ ¬ op.index % 256 < 128 then some (.error op.type) else lifoTurn base a op

/-- The line that a trace deserves, by the abstract allocator and the trace alone. -/
def lineOf (base : Nat) (trace : Trace) : Stats :=
  match interpret (judgeTurn base) (Explicit.initial base, fun _ => (0, 0)) trace.ops with
  | some (.ok a) => { ops := trace.ops.length, valid := 1, util := some (trace.peak, a.1.brk - base) }
  | _ => { ops := trace.ops.length, valid := 0, util := none }

variable {A : Allocator γ} {base numIds tracenum i n : Nat} {s s' : Session γ} {op : TraceOp} {ops : List TraceOp}
variable {report : Report} {ranges : List Range} {heapLo heapHi lo size opnum : Nat}

/-- Whatever is wrong with a payload, the report names the trace. -/
theorem addRange_tracenum (failed : addRange heapLo heapHi ranges lo size tracenum opnum = some (.error report)) :
    report.tracenum = tracenum := by
  -- The four branches of the function report with the same numbers.
  unfold addRange at failed
  simp only at failed
  split at failed
  · -- The payload is recorded, so nothing is reported.
    exact nomatch failed
  · split at failed
    · -- It is not aligned.
      obtain rfl := Except.error.inj (Option.some.inj failed)
      rfl
    · split at failed
      · -- It is outside the heap.
        obtain rfl := Except.error.inj (Option.some.inj failed)
        rfl
      · split at failed
        · -- It overlaps a recorded payload.
          obtain rfl := Except.error.inj (Option.some.inj failed)
          rfl
        · exact nomatch Option.some.inj failed

/-- A request that is found wrong has been made, and the report names the trace. -/
theorem evalOp_error (failed : evalOp A tracenum i s op = some (.error report)) :
    report.tracenum = tracenum ∧ ∃ h, op.leaves A s = some h := by
  -- Each branch calls the allocator first, and then looks for something wrong.
  unfold evalOp at failed
  cases type : op.type with
  | alloc =>
    simp only [type] at failed
    -- `mm_malloc` is called first, and the heap it leaves is the one that is kept.
    obtain ⟨⟨h, p⟩, done, failed⟩ := Option.bind_eq_some_iff.mp failed
    have left : op.leaves A s = some h := by
      unfold TraceOp.leaves
      simp only [type]
      exact bind_step done rfl
    refine ⟨?_, h, left⟩
    split at failed
    · -- It has returned null.
      obtain rfl := Except.error.inj (Option.some.inj failed)
      rfl
    · obtain ⟨tested, test, failed⟩ := Option.bind_eq_some_iff.mp failed
      cases tested with
      | error report' =>
        -- The payload does not pass `add_range`.
        obtain rfl := Except.error.inj (Option.some.inj failed)
        exact addRange_tracenum test
      | ok ranges =>
        -- The block passes the test, so nothing is reported.
        obtain ⟨_, _, failed⟩ := Option.bind_eq_some_iff.mp failed
        exact nomatch Option.some.inj failed
  | realloc =>
    simp only [type] at failed
    obtain ⟨oldp, entry, failed⟩ := Option.bind_eq_some_iff.mp failed
    -- `mm_realloc` is called with the recorded payload.
    obtain ⟨⟨h, newp⟩, done, failed⟩ := Option.bind_eq_some_iff.mp failed
    have left : op.leaves A s = some h := by
      unfold TraceOp.leaves
      simp only [type]
      exact bind_step entry (bind_step done rfl)
    refine ⟨?_, h, left⟩
    split at failed
    · -- The request has been refused.
      obtain rfl := Except.error.inj (Option.some.inj failed)
      rfl
    · obtain ⟨tested, test, failed⟩ := Option.bind_eq_some_iff.mp failed
      cases tested with
      | error report' =>
        -- The new payload does not pass `add_range`.
        obtain rfl := Except.error.inj (Option.some.inj failed)
        exact addRange_tracenum test
      | ok ranges =>
        -- It passes, so what is left is the test of the data.
        obtain ⟨oldsize, _, failed⟩ := Option.bind_eq_some_iff.mp failed
        simp only at failed
        generalize (if op.size < oldsize then op.size else oldsize) = kept at failed
        split at failed
        · -- A byte of the data is lost.
          obtain rfl := Except.error.inj (Option.some.inj failed)
          rfl
        · obtain ⟨_, _, failed⟩ := Option.bind_eq_some_iff.mp failed
          exact nomatch Option.some.inj failed
  | free =>
    -- Freeing a block is never found wrong.
    simp only [type] at failed
    obtain ⟨_, _, failed⟩ := Option.bind_eq_some_iff.mp failed
    obtain ⟨_, _, failed⟩ := Option.bind_eq_some_iff.mp failed
    exact nomatch Option.some.inj failed

/-- What the loop leaves behind makes no difference to its verdict. -/
theorem evalOps_eq_checkOps : evalOps A tracenum i s ops = (checkOps A tracenum i s ops).map fun result =>
    match result with
    | (_, some report) => .error report
    | (s, none) => .ok s := by
  -- Both loops take the same turns and stop at the same request.
  induction ops generalizing i s with
  | nil => rfl
  | cons op ops ih =>
    cases turn : evalOp A tracenum i s op with
    -- The turn does not return, so neither does the loop.
    | none => simp [evalOps, checkOps, turn]
    | some result =>
      cases result with
      -- The turn reports, and the heap is the one that its call left.
      | error report =>
        obtain ⟨_, h, left⟩ := evalOp_error turn
        simp [evalOps, checkOps, turn, left]
      -- The turn passes, and the rest of the loop is the same.
      | ok next =>
        have later := @ih (i + 1) next
        simp [evalOps, checkOps, turn, later]

/-- A report of the loop names the trace. -/
theorem checkOps_tracenum {left : Session γ} (done : checkOps A tracenum i s ops = some (left, some report)) :
    report.tracenum = tracenum := by
  -- The report comes from the turn that fails.
  induction ops generalizing i s with
  | nil => exact nomatch (Prod.mk.inj (Option.some.inj done)).2
  | cons op ops ih =>
    obtain ⟨result, turn, done⟩ := Option.bind_eq_some_iff.mp done
    cases result with
    | error report' =>
      obtain ⟨h, _, done⟩ := Option.bind_eq_some_iff.mp done
      obtain ⟨_, same⟩ := Prod.mk.inj (Option.some.inj done)
      obtain rfl := Option.some.inj same
      exact (evalOp_error turn).1
    | ok next => exact ih done

variable {P : Package γ} {h : Heap γ} {trace : Trace} {traces : List Trace}

/-- `main` gets the verdict of `eval_mm_valid`. -/
theorem evalMmValid_eq_checkTrace :
    evalMmValid P h trace tracenum = (checkTrace P h trace tracenum).map fun result => (result.1, result.2.2) := by
  unfold evalMmValid checkTrace
  -- `mm_init` does not return.
  cases init : P.mmInit (memResetBrk h) with
  | none => rfl
  | some result =>
    obtain ⟨h', code⟩ := result
    simp only [Option.bind_eq_bind, Option.bind_some]
    split
    · -- `mm_init` fails, and both report it.
      rfl
    · rw [evalOps_eq_checkOps]
      -- Both sides look at how the loop has ended.
      cases checkOps P.toAllocator tracenum 0 _ trace.ops with
      | none => rfl
      | some result =>
        obtain ⟨left, found⟩ := result
        cases found <;> rfl

/-- A trace is valid, or there is one report, which names it. -/
theorem checkTrace_reports {valid : Int} {left : Session γ} {reports : List Report}
    (done : checkTrace P h trace tracenum = some (valid, left, reports)) :
    valid = 1 ∧ reports = [] ∨ valid = 0 ∧ ∃ report, reports = [report] ∧ report.tracenum = tracenum := by
  obtain ⟨⟨h', code⟩, _, done⟩ := Option.bind_eq_some_iff.mp done
  -- There are three ways out: `mm_init` fails, a request fails, or all requests pass.
  simp only at done
  split at done
  · -- `mm_init` has failed.
    obtain ⟨rfl, rest⟩ := Prod.mk.inj (Option.some.inj done)
    obtain ⟨_, rfl⟩ := Prod.mk.inj rest
    exact .inr ⟨rfl, _, rfl, rfl⟩
  · obtain ⟨⟨_, found⟩, checked, done⟩ := Option.bind_eq_some_iff.mp done
    cases found with
    -- All requests have passed.
    | none =>
      obtain ⟨rfl, rest⟩ := Prod.mk.inj (Option.some.inj done)
      obtain ⟨_, rfl⟩ := Prod.mk.inj rest
      exact .inl ⟨rfl, rfl⟩
    -- One request has failed, and it is reported with the number of the trace.
    | some report =>
      obtain ⟨rfl, rest⟩ := Prod.mk.inj (Option.some.inj done)
      obtain ⟨_, rfl⟩ := Prod.mk.inj rest
      exact .inr ⟨rfl, _, rfl, checkOps_tracenum checked⟩

variable {before after : Scores γ}

/-- A turn adds the line of its trace, and a report when the trace is not valid. -/
theorem scoreTurn_line (done : scoreTurn P n before trace = some (.ok after)) :
    ∃ line, after.stats = before.stats ++ [line] ∧ line.ops = trace.ops.length ∧
      (line.valid = 1 ∧ line.util.isSome ∧ after.reports = before.reports ∨
        line.valid = 0 ∧ line.util = none ∧
          ∃ report, after.reports = before.reports ++ [report] ∧ report.tracenum = before.stats.length) := by
  obtain ⟨⟨valid, left, reports⟩, checked, done⟩ := Option.bind_eq_some_iff.mp done
  simp only at done
  -- The verdict decides whether the other two evaluations take place.
  rcases checkTrace_reports checked with ⟨rfl, rfl⟩ | ⟨rfl, report, rfl, named⟩
  · rw [if_neg (by decide)] at done
    obtain ⟨utilized, _, done⟩ := Option.bind_eq_some_iff.mp done
    cases utilized with
    | error message => exact nomatch Option.some.inj done
    | ok u =>
      obtain ⟨timed, _, done⟩ := Option.bind_eq_some_iff.mp done
      cases timed with
      | error message => exact nomatch Option.some.inj done
      | ok t =>
        obtain rfl := Except.ok.inj (Option.some.inj done)
        exact ⟨_, rfl, rfl, .inl ⟨rfl, rfl, List.append_nil _⟩⟩
  · -- Neither the utilization nor the speed of such a trace is measured.
    rw [if_pos rfl] at done
    obtain rfl := Except.ok.inj (Option.some.inj done)
    exact ⟨_, rfl, rfl, .inr ⟨rfl, rfl, report, rfl, named⟩⟩

/-- So the table stays right. -/
theorem Tallied.turn (tallied : Tallied traces before) (done : scoreTurn P n before trace = some (.ok after)) :
    Tallied (traces ++ [trace]) after := by
  obtain ⟨line, stats, ops, judged⟩ := scoreTurn_line done
  -- The failed lines so far, and the new one if it has failed.
  have whole : after.stats.findIdxs (fun line => line.valid = 0) = before.stats.findIdxs (fun line => line.valid = 0) ++
      if line.valid = 0 then [before.stats.length] else [] := by
    rw [stats, List.findIdxs_append, List.findIdxs_singleton]
    simp
  have same := tallied.ops
  -- The new line is the last one, so the earlier numbers stay.
  refine ⟨by simp [stats, ops, same], fun other member => ?_, ?_⟩
  · rw [stats] at member
    -- An earlier line is judged as before.
    rcases List.mem_append.mp member with old | new
    · exact tallied.lines other old
    · -- The new line is judged by this turn.
      obtain rfl := List.mem_singleton.mp new
      rcases judged with ⟨valid, some_, _⟩ | ⟨valid, none_, _⟩
      · exact .inl ⟨valid, some_⟩
      · exact .inr ⟨valid, none_⟩
  · rw [whole]
    rcases judged with ⟨valid, _, reports⟩ | ⟨valid, _, report, reports, named⟩
    · -- The trace has passed, so there is no new report.
      rw [reports, if_neg (by omega), List.append_nil]
      exact tallied.reported
    · -- The trace has failed, and its report is the last one.
      rw [reports, if_pos valid, List.map_append, tallied.reported, List.map_singleton, named]

/-- At the end of the loop it is right about all traces. -/
theorem Tallied.of_done (done : scoreTraces P n h traces = some (.ok after)) : Tallied traces after := by
  have start : Underway traces traces { heap := h, stats := [], reports := [] } := ⟨[], rfl, rfl, by simp, rfl⟩
  have all : Underway traces [] after := by
    refine interpret_invariant (fun kept turn => ?_) start done
    obtain ⟨first, whole, tallied⟩ := kept
    exact ⟨first ++ [_], by rw [whole, List.append_assoc]; rfl, tallied.turn turn⟩
  obtain ⟨first, whole, tallied⟩ := all
  rw [List.append_nil] at whole
  exact whole ▸ tallied

/-- The errors are the traces that are not valid. -/
theorem Tallied.errors_eq (tallied : Tallied traces after) :
    after.errors = after.stats.countP fun line => line.valid = 0 := by
  have length := congrArg List.length tallied.reported
  rwa [List.length_map, List.length_findIdxs] at length

/-- The other traces are correct. -/
theorem Tallied.counts (tallied : Tallied traces after) : after.numcorrect + after.errors = traces.length := by
  have lines : after.stats.length = traces.length := by
    simpa using congrArg List.length tallied.ops
  -- A line is counted as correct or as an error.
  have all := List.length_eq_countP_add_countP (l := after.stats) fun line => decide (line.valid = 0)
  unfold Scores.numcorrect
  rw [tallied.errors_eq, ← List.countP_eq_length_filter, ← lines, all, Nat.add_comm]
  simp

/-- An index is printed when no trace has failed. -/
theorem Tallied.prints (tallied : Tallied traces after) :
    after.printsIndex = true ↔ ∀ line ∈ after.stats, line.valid = 1 := by
  have index : after.printsIndex = true ↔ after.stats.countP (fun line => line.valid = 0) = 0 := by
    rw [← tallied.errors_eq]
    exact decide_eq_true_iff
  rw [index, List.countP_eq_zero]
  refine forall₂_congr fun line member => ?_
  rcases tallied.lines line member with ⟨valid, _⟩ | ⟨valid, _⟩ <;> simp [valid]

/-- When the driver has been served so far, its call has an effect that it finds in the heap. -/
theorem Agrees.leaves {w next : World γ} {ids : Ids} {allocated : List Nat} {r : Nat}
    (agrees : Agrees numIds w ids allocated s) (valid : op.Valid numIds allocated)
    (returned : w.call A (op.call ids) = some (next, r)) : op.leaves A s = some next.heap := by
  unfold TraceOp.leaves
  rw [agrees.heap]
  cases type : op.type with
  | alloc =>
    -- The heap is the one that `mm_malloc` leaves.
    have call := TraceOp.call_of_alloc ids type
    exact bind_step (mmMalloc_of_call (call ▸ returned)) rfl
  | realloc =>
    have call := TraceOp.call_of_realloc ids type
    -- The payload recorded for the id is the one that is passed on.
    have oldp := (agrees.recorded op.index (valid.known (by simp [type]))).1
    exact bind_step oldp (bind_step (mmRealloc_of_call (call ▸ returned)) rfl)
  | free =>
    have call := TraceOp.call_of_free ids type
    have oldp := (agrees.recorded op.index (valid.known (by simp [type]))).1
    exact bind_step oldp (call_free (call ▸ returned)).1

variable {final : List Nat} {a : Shelves × Ids} {t : Timed Explicit.Statics} {hm : Explicit.State}
variable {sm : Session Explicit.Statics} {sc : Scores Explicit.Statics}

/-- Every request of `eval_mm_valid` on `mm.c` goes as the abstract allocator and the filler say. -/
theorem evalOp_judged (checks : Checks base numIds final (op :: ops) (i, sm) a) :
    (∃ report t hm, evalOp mm tracenum i sm op = some (.error report) ∧ op.leaves mm sm = some hm ∧ Over base hm ∧
        judgeTurn base a op = some (.error t)) ∨
      ∃ next a', evalOp mm tracenum i sm op = some (.ok next) ∧ judgeTurn base a op = some (.ok a') ∧
        Checks base numIds final ops (i + 1, next) a' := by
  have inspected : Inspected base numIds tracenum final ops (i, sm) a op := validTurn_inspected checks
  obtain ⟨tags, w, allocated, following, agrees⟩ := checks
  have valid := following.valid.1
  have small := following.small op List.mem_cons_self
  obtain ⟨next, r, returned, _⟩ := following.serving.turn valid small
  have left := agrees.leaves valid returned
  have area := following.serving.leaves_over valid small returned
  -- What the driver has found out about the request is what the judge says.
  cases inspected with
  | refused failed abstract _ =>
    obtain ⟨result, turn, failed⟩ := Option.map_eq_some_iff.mp failed
    cases result with
    | ok _ => exact nomatch failed
    | error report =>
      refine .inl ⟨report, op.type, next.heap, turn, left, area, ?_⟩
      unfold judgeTurn
      split
      · rfl
      · exact abstract
  | rejected failed type high =>
    obtain ⟨result, turn, failed⟩ := Option.map_eq_some_iff.mp failed
    cases result with
    | ok _ => exact nomatch failed
    | error report => exact .inl ⟨report, op.type, next.heap, turn, left, area, if_pos ⟨type, high⟩⟩
  | passed passed abstract low checks' =>
    obtain ⟨result, turn, passed⟩ := Option.map_eq_some_iff.mp passed
    cases result with
    | error _ => exact nomatch passed
    | ok next =>
      obtain rfl := Except.ok.inj passed
      exact .inr ⟨next, _, turn, (if_neg fun both => both.2 (low both.1)).trans abstract, checks'⟩

/-- The whole loop goes so, and it leaves the area and the arrays as they have to be. -/
theorem checkOps_judged (tracenum : Nat) (checks : Checks base numIds final ops (i, sm) a) :
    ∃ left, Over base left.heap ∧
      ((∃ report t, checkOps mm tracenum i sm ops = some (left, some report) ∧
          interpret (judgeTurn base) a ops = some (.error t)) ∨
        ∃ a', checkOps mm tracenum i sm ops = some (left, none) ∧ interpret (judgeTurn base) a ops = some (.ok a') ∧
          left.blocks.length = numIds ∧ left.blockSizes.length = numIds) := by
  -- The loop and the judge go on together, or they stop together.
  induction ops generalizing i sm a with
  | nil =>
    obtain ⟨tags, w, allocated, following, agrees⟩ := checks
    have area := following.serving.over
    rw [← agrees.heap] at area
    exact ⟨sm, area, .inr ⟨a, rfl, rfl, agrees.blocks, agrees.blockSizes⟩⟩
  | cons op ops ih =>
    rcases evalOp_judged checks with ⟨report, t, h', failed, left, area, abstract⟩ | ⟨next, a', turn, abstract, checks'⟩
    · exact ⟨{ sm with heap := h' }, area, .inl ⟨report, t, bind_step failed (bind_step left rfl),
        interpret_failed abstract⟩⟩
    · have loop : checkOps mm tracenum i sm (op :: ops) = checkOps mm tracenum (i + 1) next ops := bind_step turn rfl
      rw [loop, interpret_done abstract]
      exact ih checks'

/-- Judging does what the abstract allocator does, as long as it goes on. -/
theorem judged_replay {a' : Shelves × Ids} (judged : interpret (judgeTurn base) a ops = some (.ok a')) :
    interpret (lifoTurn base) a ops = some (.ok a') := by
  -- The judge only adds failures.
  induction ops generalizing a with
  | nil => exact judged
  | cons op ops ih =>
    obtain ⟨result, turn, judged⟩ := Option.bind_eq_some_iff.mp judged
    cases result with
    | error type => exact nomatch Option.some.inj judged
    | ok next =>
      unfold judgeTurn at turn
      split at turn
      · exact nomatch Option.some.inj turn
      · rw [interpret_done turn]
        exact ih judged

/-- `eval_mm_valid` finds in a trace what its line says. -/
theorem checkTrace_judged (tracenum : Nat) (ok : Base base) (area : Over base hm) (valid : trace.Valid)
    (small : ∀ op ∈ trace.ops, op.Small base) :
    ∃ left, Over base left.heap ∧
      ((∃ report, checkTrace mmPackage hm trace tracenum = some (0, left, [report]) ∧
          lineOf base trace = { ops := trace.ops.length, valid := 0, util := none }) ∨
        ∃ a, checkTrace mmPackage hm trace tracenum = some (1, left, []) ∧
          lineOf base trace = { ops := trace.ops.length, valid := 1, util := some (trace.peak, a.1.brk - base) } ∧
          lifoReplay base trace.ops = some (.ok a) ∧ left.blocks.length = trace.numIds ∧
          left.blockSizes.length = trace.numIds) := by
  obtain ⟨h', init, fresh⟩ := area.init ok
  have start : Checks base trace.numIds (allocatedAfter [] trace.ops) trace.ops
      (0, { heap := h', ranges := [], blocks := trace.blocks, blockSizes := trace.blockSizes })
      (Explicit.initial base, fun _ => (0, 0)) := ⟨[], _, [], .start ok fresh valid small, .start valid⟩
  obtain ⟨left, area', judged⟩ := checkOps_judged tracenum start
  refine ⟨left, area', ?_⟩
  rcases judged with ⟨report, t, checked, abstract⟩ | ⟨a, checked, abstract, blocks, blockSizes⟩
  · refine .inl ⟨report, bind_step init ((if_neg (by decide)).trans (bind_step checked rfl)), ?_⟩
    unfold lineOf
    rw [abstract]
  · refine .inr ⟨a, bind_step init ((if_neg (by decide)).trans (bind_step checked rfl)), ?_, judged_replay abstract,
      blocks, blockSizes⟩
    unfold lineOf
    rw [abstract]

/-- A trace that is served can be timed any number of times. -/
theorem timeTrace_done {a : Shelves × Ids} (ok : Base base) (valid : trace.Valid)
    (small : ∀ op ∈ trace.ops, op.Small base) (replay : lifoReplay base trace.ops = some (.ok a))
    (area : Over base t.heap) (length : t.blocks.length = trace.numIds) :
    ∃ t', timeTrace mmPackage trace n t = some (.ok t') ∧ Over base t'.heap := by
  -- Every evaluation starts anew, so one more is as good as the first one.
  induction n generalizing t with
  | zero => exact ⟨t, rfl, area⟩
  | succ n ih =>
    have valid' : Trace.Valid { trace with blocks := t.blocks } := ⟨length, valid.blockSizes, valid.ops⟩
    have speed := evalMmSpeed_inStep ok area valid' small
    rw [replay] at speed
    obtain ⟨t', timed, tags, w, allocated, following, heap, noted⟩ := speed.ok
    -- The next evaluation starts with what this one has left.
    obtain ⟨last, rest, area'⟩ := ih (heap ▸ following.serving.over) noted.length
    exact ⟨last, bind_step timed rest, area'⟩

/-- A turn of `main` on `mm.c` adds the line that the trace deserves, and leaves the area alone. -/
theorem scoreTurn_judged (ok : Base base) (area : Over base sc.heap) (valid : trace.Valid)
    (small : ∀ op ∈ trace.ops, op.Small base) :
    ∃ next, scoreTurn mmPackage n sc trace = some (.ok next) ∧ Over base next.heap ∧
      next.stats = sc.stats ++ [lineOf base trace] := by
  obtain ⟨left, area', judged⟩ := checkTrace_judged sc.stats.length ok area valid small
  -- Only a trace that has passed goes through the other evaluations, which then succeed, too.
  rcases judged with ⟨report, checked, line⟩ | ⟨a, checked, line, replay, blocks, blockSizes⟩
  · refine ⟨{ heap := left.heap, stats := sc.stats ++ [lineOf base trace], reports := sc.reports ++ [report] },
      bind_step checked ?_, area', rfl⟩
    rw [line]
    exact if_pos rfl
  · have valid' : Trace.Valid { trace with blocks := left.blocks, blockSizes := left.blockSizes } :=
      ⟨blocks, blockSizes, valid.ops⟩
    have util := evalMmUtil_inStep ok area' valid' small
    rw [replay] at util
    obtain ⟨u, utilized, tags, w, allocated, following, metered⟩ := util.ok
    obtain ⟨most, size, _⟩ := following.finished metered
    have areaU : Over base u.heap := metered.heap ▸ following.serving.over
    have valid'' : Trace.Valid { trace with blockSizes := u.blockSizes } :=
      ⟨valid.blocks, metered.sizes.length, valid.ops⟩
    obtain ⟨t, timed, areaT⟩ := timeTrace_done (n := n) (t := { heap := u.heap, blocks := u.blocks }) ok valid'' small
      replay areaU metered.blocks.length
    refine ⟨{ heap := t.heap, stats := sc.stats ++ [lineOf base trace], reports := sc.reports ++ [] },
      bind_step checked ((if_neg (by decide)).trans (bind_step utilized (bind_step timed ?_))), areaT, rfl⟩
    rw [line, most, size]
    rfl

/-- The loop of `main` on `mm.c` adds the lines that the traces deserve. -/
theorem scoreTraces_lines (n : Nat) (sc : Scores Explicit.Statics) (ok : Base base)
    (area : Over base sc.heap) (valid : ∀ trace ∈ traces, trace.Valid)
    (small : ∀ trace ∈ traces, ∀ op ∈ trace.ops, op.Small base) :
    ∃ s, interpret (scoreTurn mmPackage n) sc traces = some (.ok s) ∧
      s.stats = sc.stats ++ traces.map (lineOf base) := by
  -- All that a turn hands to the next one is the area, which is the same.
  induction traces generalizing sc with
  | nil => exact ⟨sc, rfl, (List.append_nil _).symm⟩
  | cons trace traces ih =>
    obtain ⟨next, turn, area', stats⟩ :=
      scoreTurn_judged (n := n) ok area (valid trace List.mem_cons_self) (small trace List.mem_cons_self)
    obtain ⟨s, done, rest⟩ := ih next area' (fun trace member => valid trace (List.mem_cons_of_mem _ member))
      fun trace member => small trace (List.mem_cons_of_mem _ member)
    refine ⟨s, (interpret_done turn).trans done, ?_⟩
    rw [rest, stats, List.map_cons, List.append_assoc]
    rfl

/-- The utilization in a line is a proper fraction. -/
theorem lineOf_util {numerator : Int} {denominator : Nat} (ok : Base base) (valid : trace.Valid)
    (small : ∀ op ∈ trace.ops, op.Small base) (util : (lineOf base trace).util = some (numerator, denominator)) :
    numerator = trace.peak ∧ trace.peak + 24 ≤ denominator := by
  -- There is a utilization when the judge lets every request pass.
  unfold lineOf at util
  split at util
  · rename_i a judged
    obtain ⟨rfl, rfl⟩ := Prod.mk.inj (Option.some.inj util)
    -- Some machine has counted these bytes.
    have area : Over base (memInit Explicit.zeroed.mem base Explicit.zeroed.statics) := ⟨rfl, rfl⟩
    have inStep := evalMmUtil_inStep ok area valid small
    have replay : lifoReplay base trace.ops = some (.ok a) := judged_replay judged
    rw [replay] at inStep
    obtain ⟨u, _, tags, w, allocated, following, metered⟩ := inStep.ok
    obtain ⟨_, size, room⟩ := following.finished metered
    exact ⟨rfl, size ▸ room⟩
  · exact nomatch util

/-- Two small traces, for the loop of `main`. -/
theorem sampleTraces_valid : ∀ trace ∈ [sampleTrace 0, sampleTrace 200], trace.Valid := by
  intro trace member
  rcases List.mem_pair.mp member with rfl | rfl <;> exact sampleTrace_valid _

/-- Their requests do not wrap. -/
theorem sampleTraces_small : ∀ trace ∈ [sampleTrace 0, sampleTrace 200], ∀ op ∈ trace.ops, op.Small 8 := by
  intro trace member
  rcases List.mem_pair.mp member with rfl | rfl <;> exact sampleTrace_small _

/--
When the loop of `main` gets to its end, its table is right about every trace, for any allocator file.

The errors are the traces that are not valid, so an index is printed when all of them are.
-/
theorem scoreTraces_tallied (done : scoreTraces P n h traces = some (.ok after)) :
    Tallied traces after ∧ after.numcorrect + after.errors = traces.length ∧
      (after.printsIndex = true ↔ ∀ line ∈ after.stats, line.valid = 1) := by
  have tallied := Tallied.of_done done
  exact ⟨tallied, tallied.counts, tallied.prints⟩

/-- The tallies of `mm.c` on the two small traces. -/
theorem scoreTraces_tallied_sample : ∃ s,
    scoreTraces mmPackage 10 Explicit.zeroed [sampleTrace 0, sampleTrace 200] = some (.ok s) ∧
      Tallied [sampleTrace 0, sampleTrace 200] s ∧ s.numcorrect + s.errors = [sampleTrace 0, sampleTrace 200].length ∧
      (s.printsIndex = true ↔ ∀ line ∈ s.stats, line.valid = 1) := by
  have lines := scoreTraces_lines 10 { heap := Explicit.zeroed, stats := [], reports := [] } base_eight over_zeroed
    sampleTraces_valid sampleTraces_small
  obtain ⟨s, done, _⟩ := lines
  exact ⟨s, done, scoreTraces_tallied done⟩

/--
`main` scores `mm.c` on any list of valid traces, and no trace makes a difference to another one.

Each line depends on its trace alone, though all of them share one memory system, which may hold anything at first,
and the evaluations are repeated any number of times. The program never leaves the loop.
-/
theorem mm_scores (ok : Base base) (area : Over base hm) (valid : ∀ trace ∈ traces, trace.Valid)
    (small : ∀ trace ∈ traces, ∀ op ∈ trace.ops, op.Small base) (n : Nat) :
    ∃ s, scoreTraces mmPackage n hm traces = some (.ok s) ∧ s.stats = traces.map (lineOf base) ∧
      s.errors = traces.countP (fun trace => (lineOf base trace).valid = 0) ∧
      ∀ trace ∈ traces, ∀ numerator denominator, (lineOf base trace).util = some (numerator, denominator) →
        numerator = trace.peak ∧ trace.peak + 24 ≤ denominator := by
  have lines := scoreTraces_lines n { heap := hm, stats := [], reports := [] } ok area valid small
  obtain ⟨s, done, stats⟩ := lines
  refine ⟨s, done, stats, ?_, fun trace member numerator denominator =>
    lineOf_util ok (valid trace member) (small trace member)⟩
  rw [(Tallied.of_done done).errors_eq, stats, List.nil_append, List.countP_map]
  rfl

/-- The lines of `mm.c` for the two small traces. -/
theorem mm_scores_sample : ∃ s,
    scoreTraces mmPackage 10 Explicit.zeroed [sampleTrace 0, sampleTrace 200] = some (.ok s) ∧
      s.stats = [sampleTrace 0, sampleTrace 200].map (lineOf 8) ∧
      s.errors = [sampleTrace 0, sampleTrace 200].countP (fun trace => (lineOf 8 trace).valid = 0) ∧
      ∀ trace ∈ [sampleTrace 0, sampleTrace 200], ∀ numerator denominator,
        (lineOf 8 trace).util = some (numerator, denominator) →
          numerator = trace.peak ∧ trace.peak + 24 ≤ denominator :=
  mm_scores base_eight over_zeroed sampleTraces_valid sampleTraces_small 10

/-- The second trace fails, since the driver misreads the filler of its id. -/
example : [sampleTrace 0, sampleTrace 200].map (lineOf 8) =
    [{ ops := 3, valid := 1, util := some (16, 4120) }, { ops := 3, valid := 0, util := none }] := by decide +kernel

end MallocLab.Driver
