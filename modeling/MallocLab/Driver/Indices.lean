import MallocLab.Driver.Evaluate

/-! The evaluations of `mdriver.c` index their arrays with the ids of the requests, and with nothing else. -/

namespace MallocLab.Driver

variable {γ : Type} {A : Allocator γ} {op : TraceOp} {ops : List TraceOp} {array more more' : List Nat} {i v : Nat}

/-- The trace with more entries at the ends of its two arrays. -/
def Trace.longer (trace : Trace) (more more' : List Nat) : Trace :=
  { trace with blocks := trace.blocks ++ more, blockSizes := trace.blockSizes ++ more' }

/-- The session with more entries at the ends of its arrays. -/
def Session.longer (more more' : List Nat) (s : Session γ) : Session γ :=
  { s with blocks := s.blocks ++ more, blockSizes := s.blockSizes ++ more' }

/-- The variables of `eval_mm_util` with more entries at the ends of the arrays. -/
def Usage.longer (more more' : List Nat) (s : Usage γ) : Usage γ :=
  { s with blocks := s.blocks ++ more, blockSizes := s.blockSizes ++ more' }

/-- The variables of `eval_mm_speed` with more entries at the end of the array. -/
def Timed.longer (more : List Nat) (s : Timed γ) : Timed γ := { s with blocks := s.blocks ++ more }

/--
No evaluation of the trace reads or writes past the ends of its arrays.

Over longer arrays each evaluation is the same, and it leaves the additional entries as they are.
-/
def Trace.InBounds (trace : Trace) : Prop :=
  ∀ (γ : Type) (A : Package γ) (h : Heap γ) (tracenum : Nat) (more more' : List Nat),
    evalMmValid A h (trace.longer more more') tracenum = evalMmValid A h trace tracenum ∧
      evalMmUtil A h (trace.longer more more') =
        (evalMmUtil A h trace).map (fun result => result.map (Usage.longer more more')) ∧
      evalMmSpeed A h (trace.longer more more') =
        (evalMmSpeed A h trace).map fun result => result.map (Timed.longer more)

/-- A store inside an array is made. -/
theorem storeAt_inside (v : Nat) (inside : i < array.length) : storeAt array i v = some (array.set i v) := if_pos inside

/-- In a longer array it is made alike. -/
theorem storeAt_longer (more : List Nat) (v : Nat) (inside : i < array.length) :
    storeAt (array ++ more) i v = some (array.set i v ++ more) := by
  rw [storeAt_inside v (by rw [List.length_append]; omega), List.set_append_left _ _ inside]

/-- What is read inside an array is read in a longer one, too. -/
theorem getElem?_longer (more : List Nat) (inside : i < array.length) :
    ∃ v, array[i]? = some v ∧ (array ++ more)[i]? = some v :=
  ⟨_, List.getElem?_eq_getElem inside, (List.getElem?_append_left inside).trans (List.getElem?_eq_getElem inside)⟩

/-- One turn of `eval_mm_util` over longer arrays. -/
theorem utilTurn_longer {s : Usage γ} (inside : op.index < s.blocks.length) (inside' : op.index < s.blockSizes.length) :
    utilTurn A (s.longer more more') op = (utilTurn A s op).map fun result => result.map (Usage.longer more more') := by
  -- Every access is inside, so both sides read and write the same entries.
  have stores := fun v => And.intro (storeAt_inside v inside) (storeAt_longer more v inside)
  have stores' := fun v => And.intro (storeAt_inside v inside') (storeAt_longer more' v inside')
  obtain ⟨oldp, here, there⟩ := getElem?_longer more inside
  obtain ⟨oldsize, here', there'⟩ := getElem?_longer more' inside'
  unfold utilTurn
  cases op.type with
  | alloc =>
    -- Both sides make the same request.
    cases request : A.mmMalloc s.heap op.size with
    | none => simp [Usage.longer, request]
    | some served =>
      by_cases refused : served.2 = null
      · simp [Usage.longer, request, refused, Except.map]
      · cases sum : addInt s.totalSize (toInt32 op.size) <;>
          simp [Usage.longer, request, refused, stores, stores', Usage.count, sum, Except.map]
  | realloc =>
    -- Here the old pointer is read first, and the old size at the end.
    cases request : A.mmRealloc s.heap oldp op.size with
    | none => simp [Usage.longer, here, there, here', there', request]
    | some served =>
      by_cases refused : served.2 = null
      · simp [Usage.longer, here, there, here', there', request, refused, Except.map]
      · cases change : addInt (toInt32 op.size) (-toInt32 oldsize) with
        | none => simp [Usage.longer, here, there, here', there', request, refused, stores, stores', change]
        | some change_ =>
          cases sum : addInt s.totalSize change_ <;>
            simp [Usage.longer, here, there, here', there', request, refused, stores, stores', change, Usage.count, sum,
              Except.map]
  | free =>
    -- Freeing changes nothing in the arrays.
    cases freed : A.mmFree s.heap oldp with
    | none => simp [Usage.longer, here, there, here', there', freed]
    | some h =>
      cases sum : addInt s.totalSize (-toInt32 oldsize) <;>
        simp [Usage.longer, here, there, here', there', freed, sum, Except.map]

/-- One turn of `eval_mm_speed` over a longer array. -/
theorem speedTurn_longer {s : Timed γ} (inside : op.index < s.blocks.length) :
    speedTurn A (s.longer more) op = (speedTurn A s op).map fun result => result.map (Timed.longer more) := by
  -- Every access is inside, so both sides read and write the same entries.
  have stores := fun v => And.intro (storeAt_inside v inside) (storeAt_longer more v inside)
  obtain ⟨oldp, here, there⟩ := getElem?_longer more inside
  unfold speedTurn
  cases op.type with
  -- One store is made.
  | alloc =>
    cases request : A.mmMalloc s.heap op.size with
    | none => simp [Timed.longer, request]
    | some served =>
      by_cases refused : served.2 = null <;> simp [Timed.longer, request, refused, stores, Except.map]
  -- One entry is read, and one is written.
  | realloc =>
    cases request : A.mmRealloc s.heap oldp op.size with
    | none => simp [Timed.longer, here, there, request]
    | some served =>
      by_cases refused : served.2 = null <;> simp [Timed.longer, here, there, request, refused, stores, Except.map]
  -- One entry is read.
  | free =>
    cases freed : A.mmFree s.heap oldp <;> simp [Timed.longer, here, there, freed, Except.map]

/-- Remembering a block changes an entry inside the arrays. -/
theorem remember_longer {s : Session γ} {h : Heap γ} {ranges : List Range} {p : Nat} (inside : op.index < s.blocks.length)
    (inside' : op.index < s.blockSizes.length) :
    remember (s.longer more more') h ranges op p = (remember s h ranges op p).map (Session.longer more more') := by
  unfold remember
  cases h.memset p (fillByte op.index) op.size <;>
    simp [Session.longer, fun v => storeAt_inside v inside, fun v => storeAt_inside v inside',
      fun v => storeAt_longer more v inside, fun v => storeAt_longer more' v inside']

/-- One turn of `eval_mm_valid` over longer arrays. -/
theorem evalOp_longer {s : Session γ} {tracenum opnum : Nat} (inside : op.index < s.blocks.length)
    (inside' : op.index < s.blockSizes.length) :
    evalOp A tracenum opnum (s.longer more more') op =
      (evalOp A tracenum opnum s op).map fun result => result.map (Session.longer more more') := by
  -- Both sides read the same pointer and the same size.
  obtain ⟨oldp, here, there⟩ := getElem?_longer more inside
  obtain ⟨oldsize, here', there'⟩ := getElem?_longer more' inside'
  obtain ⟨heap, ranges, blocks, blockSizes⟩ := s
  have kept := fun ranges h ranges' p => @remember_longer _ _ more more' { heap, ranges, blocks, blockSizes } h ranges' p
    inside inside'
  simp only [Session.longer] at here there here' there' kept ⊢
  unfold evalOp testRange
  cases op.type with
  | alloc =>
    -- What the allocator returns does not depend on the arrays.
    cases A.mmMalloc heap op.size with
    | none => rfl
    | some served =>
      by_cases refused : served.2 = null
      · simp [refused, Except.map]
      · -- The block passes the test or not, whatever is in the arrays.
        cases tested : addRange (memHeapLo served.1) (memHeapHi served.1) ranges served.2 op.size tracenum opnum with
        | none => simp [refused, tested]
        | some result =>
          cases result with
          | error report => simp [refused, tested, Except.map]
          | ok ranges' =>
            cases remembered : remember { heap, ranges, blocks, blockSizes } served.1 ranges' op served.2 <;>
              simp [refused, tested, kept, remembered, Except.map, Session.longer]
  | realloc =>
    cases request : A.mmRealloc heap oldp op.size with
    | none => simp [here, there, request]
    | some served =>
      by_cases refused : served.2 = null
      · simp [here, there, request, refused, Except.map]
      · -- The test knows the range list only, which is the same on both sides.
        cases tested : addRange (memHeapLo served.1) (memHeapHi served.1) (removeRange ranges oldp) served.2 op.size
            tracenum opnum with
        | none => simp [here, there, request, refused, tested]
        | some result =>
          cases result with
          | error report => simp [here, there, request, refused, tested, Except.map]
          | ok ranges' =>
            -- The old size is read inside the array, and then the bytes are compared in memory.
            by_cases lost : preserves served.1 served.2 op.index (if op.size < oldsize then op.size else oldsize) = false
            · simp [here, there, here', there', request, refused, tested, lost, Except.map]
            · cases remembered : remember { heap, ranges := removeRange ranges oldp, blocks, blockSizes } served.1 ranges'
                  op served.2 <;>
                simp [here, there, here', there', request, refused, tested, lost, kept, remembered, Except.map,
                  Session.longer]
  | free =>
    cases freed : A.mmFree heap oldp <;> simp [here, there, freed, Except.map, Session.longer]

/-- A store does not change the length of an array. -/
theorem storeAt_length {array' : List Nat} (stored : storeAt array i v = some array') :
    array'.length = array.length := by
  unfold storeAt at stored
  split at stored
  · rw [← Option.some.inj stored, List.length_set]
  · simp at stored

/-- Remembering a block leaves the lengths of the arrays alone. -/
theorem remember_length {s s' : Session γ} {h : Heap γ} {ranges : List Range} {p : Nat}
    (kept : remember s h ranges op p = some s') :
    s'.blocks.length = s.blocks.length ∧ s'.blockSizes.length = s.blockSizes.length := by
  obtain ⟨_, _, kept⟩ := Option.bind_eq_some_iff.mp kept
  obtain ⟨_, stored, kept⟩ := Option.bind_eq_some_iff.mp kept
  obtain ⟨_, stored', kept⟩ := Option.bind_eq_some_iff.mp kept
  rw [← Option.some.inj kept]
  exact ⟨storeAt_length stored, storeAt_length stored'⟩

/-- Counting leaves the arrays alone. -/
theorem Usage.count_arrays {s s' : Usage γ} {change : Int} (counted : s.count change = some s') :
    s'.blocks = s.blocks ∧ s'.blockSizes = s.blockSizes := by
  obtain ⟨_, _, counted⟩ := Option.bind_eq_some_iff.mp counted
  rw [← Option.some.inj counted]
  exact ⟨rfl, rfl⟩

/-- A turn of `eval_mm_util` leaves the lengths of its arrays alone. -/
theorem utilTurn_length {s s' : Usage γ} (done : utilTurn A s op = some (.ok s')) :
    s'.blocks.length = s.blocks.length ∧ s'.blockSizes.length = s.blockSizes.length := by
  unfold utilTurn at done
  cases type : op.type with
  | alloc =>
    rw [type] at done
    -- Two stores are made, one in each array.
    obtain ⟨⟨h, p⟩, _, done⟩ := Option.bind_eq_some_iff.mp done
    by_cases refused : p = null
    · simp [refused] at done
    · simp only [if_neg refused] at done
      obtain ⟨_, stored, done⟩ := Option.bind_eq_some_iff.mp done
      obtain ⟨_, stored', done⟩ := Option.bind_eq_some_iff.mp done
      obtain ⟨_, counted, done⟩ := Option.bind_eq_some_iff.mp done
      obtain ⟨same, same'⟩ := Usage.count_arrays counted
      rw [← Except.ok.inj (Option.some.inj done), same, same']
      exact ⟨storeAt_length stored, storeAt_length stored'⟩
  | realloc =>
    rw [type] at done
    -- The old size and the old pointer are read before the stores.
    obtain ⟨_, _, done⟩ := Option.bind_eq_some_iff.mp done
    obtain ⟨_, _, done⟩ := Option.bind_eq_some_iff.mp done
    obtain ⟨⟨h, p⟩, _, done⟩ := Option.bind_eq_some_iff.mp done
    by_cases refused : p = null
    · simp [refused] at done
    · simp only [if_neg refused] at done
      obtain ⟨_, stored, done⟩ := Option.bind_eq_some_iff.mp done
      obtain ⟨_, stored', done⟩ := Option.bind_eq_some_iff.mp done
      obtain ⟨_, _, done⟩ := Option.bind_eq_some_iff.mp done
      obtain ⟨_, counted, done⟩ := Option.bind_eq_some_iff.mp done
      obtain ⟨same, same'⟩ := Usage.count_arrays counted
      rw [← Except.ok.inj (Option.some.inj done), same, same']
      exact ⟨storeAt_length stored, storeAt_length stored'⟩
  | free =>
    -- Freeing reads the arrays and stores nothing.
    rw [type] at done
    obtain ⟨_, _, done⟩ := Option.bind_eq_some_iff.mp done
    obtain ⟨_, _, done⟩ := Option.bind_eq_some_iff.mp done
    obtain ⟨_, _, done⟩ := Option.bind_eq_some_iff.mp done
    obtain ⟨_, _, done⟩ := Option.bind_eq_some_iff.mp done
    rw [← Except.ok.inj (Option.some.inj done)]
    exact ⟨rfl, rfl⟩

/-- So does a turn of `eval_mm_speed`. -/
theorem speedTurn_length {s s' : Timed γ} (done : speedTurn A s op = some (.ok s')) :
    s'.blocks.length = s.blocks.length := by
  unfold speedTurn at done
  cases type : op.type with
  | alloc =>
    rw [type] at done
    -- One store is made.
    obtain ⟨⟨h, p⟩, _, done⟩ := Option.bind_eq_some_iff.mp done
    -- A refused request ends the loop.
    by_cases refused : p = null
    · simp [refused] at done
    · simp only [if_neg refused] at done
      obtain ⟨_, stored, done⟩ := Option.bind_eq_some_iff.mp done
      rw [← Except.ok.inj (Option.some.inj done)]
      exact storeAt_length stored
  | realloc =>
    rw [type] at done
    -- The old entry is read, and then the same store is made.
    obtain ⟨_, _, done⟩ := Option.bind_eq_some_iff.mp done
    obtain ⟨⟨h, p⟩, _, done⟩ := Option.bind_eq_some_iff.mp done
    by_cases refused : p = null
    · simp [refused] at done
    · simp only [if_neg refused] at done
      obtain ⟨_, stored, done⟩ := Option.bind_eq_some_iff.mp done
      rw [← Except.ok.inj (Option.some.inj done)]
      exact storeAt_length stored
  | free =>
    -- Freeing stores nothing.
    rw [type] at done
    obtain ⟨_, _, done⟩ := Option.bind_eq_some_iff.mp done
    obtain ⟨_, _, done⟩ := Option.bind_eq_some_iff.mp done
    rw [← Except.ok.inj (Option.some.inj done)]

/-- So does a turn of `eval_mm_valid`. -/
theorem evalOp_length {s s' : Session γ} {tracenum opnum : Nat} (done : evalOp A tracenum opnum s op = some (.ok s')) :
    s'.blocks.length = s.blocks.length ∧ s'.blockSizes.length = s.blockSizes.length := by
  unfold evalOp at done
  cases type : op.type with
  | alloc =>
    rw [type] at done
    obtain ⟨⟨h, p⟩, _, done⟩ := Option.bind_eq_some_iff.mp done
    by_cases refused : p = null
    · simp [refused] at done
    · simp only [if_neg refused] at done
      -- The block has been accepted and is remembered, in one entry of each array.
      obtain ⟨result, _, done⟩ := Option.bind_eq_some_iff.mp done
      -- The block may be misplaced, which ends the check.
      cases result with
      | error report => simp at done
      | ok ranges =>
        obtain ⟨_, kept, done⟩ := Option.bind_eq_some_iff.mp done
        rw [← Except.ok.inj (Option.some.inj done)]
        exact remember_length kept
  | realloc =>
    -- The old block is read, and its range is removed.
    rw [type] at done
    obtain ⟨oldp, _, done⟩ := Option.bind_eq_some_iff.mp done
    obtain ⟨⟨h, p⟩, _, done⟩ := Option.bind_eq_some_iff.mp done
    by_cases refused : p = null
    · simp [refused] at done
    · simp only [if_neg refused] at done
      obtain ⟨result, _, done⟩ := Option.bind_eq_some_iff.mp done
      cases result with
      | error report => simp at done
      | ok ranges =>
        -- The bytes are compared before the new block is remembered.
        obtain ⟨oldsize, _, done⟩ := Option.bind_eq_some_iff.mp done
        by_cases lost : preserves h p op.index (if op.size < oldsize then op.size else oldsize) = false
        · simp [lost] at done
        · simp only [if_neg lost] at done
          obtain ⟨_, kept, done⟩ := Option.bind_eq_some_iff.mp done
          rw [← Except.ok.inj (Option.some.inj done)]
          exact remember_length kept
  -- Freeing stores nothing in the arrays.
  | free =>
    rw [type] at done
    obtain ⟨_, _, done⟩ := Option.bind_eq_some_iff.mp done
    obtain ⟨_, _, done⟩ := Option.bind_eq_some_iff.mp done
    rw [← Except.ok.inj (Option.some.inj done)]
    exact ⟨rfl, rfl⟩

/-- The loop of `eval_mm_valid` does the same over longer arrays, when all requests name entries of the arrays. -/
theorem evalOps_longer {s : Session γ} {tracenum i : Nat}
    (inside : ∀ op ∈ ops, op.index < s.blocks.length ∧ op.index < s.blockSizes.length) :
    evalOps A tracenum i (s.longer more more') ops =
      (evalOps A tracenum i s ops).map fun result => result.map (Session.longer more more') := by
  -- The induction is on the requests, whose indices are all inside.
  induction ops generalizing i s with
  | nil => rfl
  | cons op ops ih =>
    obtain ⟨here, here'⟩ := inside op List.mem_cons_self
    unfold evalOps
    rw [evalOp_longer here here']
    cases turn : evalOp A tracenum i s op with
    -- The turn does not return.
    | none => rfl
    | some result =>
      cases result with
      -- The turn has reported, which ends the loop on both sides.
      | error report => rfl
      | ok next =>
        -- The turn has kept the lengths, so the other requests are inside, too.
        obtain ⟨same, same'⟩ := evalOp_length turn
        exact ih fun op member => same.symm ▸ same'.symm ▸ inside op (List.mem_cons_of_mem _ member)

/-- A trace whose requests name entries of both arrays stays in bounds in every evaluation. -/
theorem Trace.inBounds {trace : Trace}
    (inside : ∀ op ∈ trace.ops, op.index < trace.blocks.length ∧ op.index < trace.blockSizes.length) :
    trace.InBounds := by
  intro γ A h tracenum more more'
  unfold evalMmValid evalMmUtil evalMmSpeed
  cases A.mmInit (memResetBrk h) with
  -- Without a heap nothing is read.
  | none => exact ⟨rfl, rfl, rfl⟩
  | some fresh =>
    by_cases failed : fresh.2 < 0
    · simp [failed, Except.map]
    · -- The heap has been set up, and then the requests are taken one by one.
      let session : Session γ := { heap := fresh.1, ranges := [], blocks := trace.blocks, blockSizes := trace.blockSizes }
      let usage : Usage γ := { heap := fresh.1, blocks := trace.blocks, blockSizes := trace.blockSizes
                               totalSize := 0, maxTotalSize := 0 }
      let timed : Timed γ := { heap := fresh.1, blocks := trace.blocks }
      have valid : evalOps A.toAllocator tracenum 0 (session.longer more more') trace.ops =
          (evalOps A.toAllocator tracenum 0 session trace.ops).map fun result =>
            result.map (Session.longer more more') := evalOps_longer inside
      have util : interpret (utilTurn A.toAllocator) (usage.longer more more') trace.ops =
          (interpret (utilTurn A.toAllocator) usage trace.ops).map fun result =>
            result.map (Usage.longer more more') := by
        -- Every turn keeps the lengths, so the next request is inside, too.
        refine interpret_map (Usage.longer more more')
          (fun s => s.blocks.length = trace.blocks.length ∧ s.blockSizes.length = trace.blockSizes.length)
          (fun op member s lengths => ?_) ⟨rfl, rfl⟩
        obtain ⟨same, same'⟩ := lengths
        obtain ⟨here, here'⟩ := inside op member
        exact ⟨utilTurn_longer (same ▸ here) (same' ▸ here'), fun s' done =>
          ⟨(utilTurn_length done).1.trans same, (utilTurn_length done).2.trans same'⟩⟩
      -- The third loop has one array only.
      have speed : interpret (speedTurn A.toAllocator) (timed.longer more) trace.ops =
          (interpret (speedTurn A.toAllocator) timed trace.ops).map fun result => result.map (Timed.longer more) := by
        refine interpret_map (Timed.longer more)
          (fun s => s.blocks.length = trace.blocks.length) (fun op member s same => ?_) rfl
        exact ⟨speedTurn_longer (same ▸ (inside op member).1), fun s' done => (speedTurn_length done).trans same⟩
      simp only [Option.bind_eq_bind, Option.bind_some, if_neg failed]
      refine ⟨?_, util, speed⟩
      change (evalOps A.toAllocator tracenum 0 (session.longer more more') trace.ops).bind _ =
        (evalOps A.toAllocator tracenum 0 session trace.ops).bind _
      rw [valid]
      -- The verdict does not contain the arrays.
      cases evalOps A.toAllocator tracenum 0 session trace.ops with
      | none => rfl
      | some result => cases result <;> rfl

end MallocLab.Driver
