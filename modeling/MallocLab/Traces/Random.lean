import MallocLab.Traces.Generators

/-! The script `gen_random.pl`: whatever numbers it draws, its trace is proper and balanced. -/

namespace MallocLab.Traces

open Driver (TraceOp OpType Surroundings Stored allocatedAfter ValidOps readTrace)

/-- The random numbers of a run: `int(rand(bound))` at each call; without a bound the number is below one. -/
structure Draws where
  rand : Nat → Nat → Nat
  below : ∀ call bound, rand call bound < max bound 1

/-- The series of allocations. -/
def randomAllocs (draws : Draws) (numBlocks maxBlkSize : Nat) : List TraceOp :=
  (List.range numBlocks).map fun i => allocOp i (draws.rand i maxBlkSize)

/-- Inserts the request that frees a block somewhere after its allocation. -/
def insertFree (draws : Draws) (numBlocks : Nat) (trace : List TraceOp) (i : Nat) : List TraceOp :=
  let minval := i + (trace.drop i).findIdx fun op => decide (op.type = .alloc ∧ op.index = i)
  let pos := draws.rand (numBlocks + i) (numBlocks + i - minval - 1) + minval + 1
  trace.take pos ++ freeOp i :: trace.drop pos

/-- Its header. -/
def randomHeader (draws : Draws) (numBlocks maxBlkSize : Nat) : Header where
  suggHeapsize := ((randomAllocs draws numBlocks maxBlkSize).map TraceOp.size).sum + 100
  numIds := numBlocks
  numOps := 2 * numBlocks
  weight := 1

/-- What is known after the blocks below `i` have their free requests. -/
structure Inserted (allocs : List TraceOp) (i : Nat) (trace : List TraceOp) : Prop where
  length : trace.length = allocs.length + i
  kept : trace.filter (fun op => op.type = .alloc) = allocs
  frees : ∀ op ∈ trace, op.type = .alloc ∨ op.type = .free ∧ op.index < i ∧ op.size = 0
  proper : ProperOps [] trace
  after : ∀ k, k ∈ allocatedAfter [] trace ↔ i ≤ k ∧ k < allocs.length

variable {ops more xs ys : List TraceOp} {allocated allocated' : List Nat} {i k n size bound : Nat} {draws : Draws}

/-- Requests for other ids do not tell whether an id is allocated. -/
theorem ProperOps.apart (proper : ProperOps allocated ops) (others : ∀ op ∈ ops, op.index ≠ i)
    (same : ∀ k, k ≠ i → (k ∈ allocated' ↔ k ∈ allocated)) :
    ProperOps allocated' ops ∧ (i ∈ allocatedAfter allocated' ops ↔ i ∈ allocated') ∧
      ∀ k, k ≠ i → (k ∈ allocatedAfter allocated' ops ↔ k ∈ allocatedAfter allocated ops) := by
  induction ops generalizing allocated allocated' with
  | nil => exact ⟨trivial, Iff.rfl, same⟩
  | cons op ops ih =>
    -- The first request is proper for its own id, which is another one.
    obtain ⟨here, later⟩ := proper
    have other := others op List.mem_cons_self
    -- What happens to the id of this request happens on both sides.
    have step : ∀ k, k ≠ i → (k ∈ op.allocated allocated' ↔ k ∈ op.allocated allocated) := by
      intro k apart
      cases type : op.type <;> simp [TraceOp.allocated, type, same k apart]
    have kept : i ∈ op.allocated allocated' ↔ i ∈ allocated' := by
      cases type : op.type <;> simp [TraceOp.allocated, type, Ne.symm other]
    obtain ⟨proper', still, rest⟩ := ih later (fun next member => others next (List.mem_cons_of_mem _ member)) step
    -- So the request is proper on this side too.
    refine ⟨⟨?_, proper'⟩, still.trans kept, rest⟩
    rwa [same op.index other]

/-- Freeing an id early is proper when it is not named any more. -/
theorem ProperOps.insert (proper : ProperOps allocated (xs ++ ys)) (known : i ∈ allocatedAfter allocated xs)
    (others : ∀ op ∈ ys, op.index ≠ i) :
    ProperOps allocated (xs ++ freeOp i :: ys) ∧
      ∀ k, k ∈ allocatedAfter allocated (xs ++ freeOp i :: ys) ↔ k ∈ allocatedAfter allocated (xs ++ ys) ∧ k ≠ i := by
  obtain ⟨first, second⟩ := properOps_append.mp proper
  have free : ∀ k, k ≠ i →
      (k ∈ (freeOp i).allocated (allocatedAfter allocated xs) ↔ k ∈ allocatedAfter allocated xs) := by
    intro k apart
    simp [apart]
  -- The requests behind it go on as if the id were still there.
  obtain ⟨later, gone, rest⟩ := second.apart others free
  refine ⟨properOps_append.mpr ⟨first, known, later⟩, fun k => ?_⟩
  rw [allocatedAfter_append, allocatedAfter_append, allocatedAfter_cons]
  -- The id itself is gone, and nothing happens to the others.
  by_cases here : k = i
  · rw [here, gone]
    simp
  · rw [rest k here]
    simp [here]

/-- An id stays allocated as long as it is not freed. -/
theorem mem_allocatedAfter (known : i ∈ allocated) (kept : ∀ op ∈ ops, op.type = .free → op.index ≠ i) :
    i ∈ allocatedAfter allocated ops := by
  -- Only a free request of the id itself takes it away.
  induction ops generalizing allocated with
  | nil => exact known
  | cons op ops ih =>
    refine ih ?_ fun next member => kept next (List.mem_cons_of_mem _ member)
    have here := kept op List.mem_cons_self
    cases type : op.type <;> simp [TraceOp.allocated, type, known]
    exact (here type).symm

/-- Where the search for the allocation of a block ends, and what follows it. -/
theorem Inserted.found {trace : List TraceOp} (inserted : Inserted (randomAllocs draws n bound) i trace)
    (below : i < n) :
    ∃ xs ys, trace = xs ++ allocOp i (draws.rand i bound) :: ys ∧ i ≤ xs.length ∧
      (trace.drop i).findIdx (fun op => decide (op.type = .alloc ∧ op.index = i)) = xs.length - i ∧
      ∀ op ∈ ys, op.index ≠ i := by
  -- The allocation of the id stands between those of the smaller and of the larger ids.
  have split : randomAllocs draws n bound = ((List.range i).map fun k => allocOp k (draws.rand k bound)) ++
      allocOp i (draws.rand i bound) ::
        (List.range' (i + 1) (n - (i + 1))).map fun k => allocOp k (draws.rand k bound) := by
    have range : List.range n = List.range i ++ i :: List.range' (i + 1) (n - (i + 1)) := by
      rw [List.range_eq_range', List.range_eq_range', ← List.range'_succ, show n - (i + 1) + 1 = n - i by omega]
      have joined := List.range'_append_1 (s := 0) (m := i) (n := n - i)
      rw [Nat.zero_add, show i + (n - i) = n by omega] at joined
      exact joined.symm
    unfold randomAllocs
    rw [range, List.map_append, List.map_cons]
  -- The allocations of the trace are these, so they lie in the trace in this order.
  obtain ⟨first, rest, rfl, before, later⟩ := List.filter_eq_append_iff.mp (inserted.kept.trans split)
  obtain ⟨gap, ys, rfl, others, _, after⟩ := List.filter_eq_cons_iff.mp later
  -- At least one request has been inserted for each smaller id, so the search may start there.
  have long : i ≤ first.length := by
    have count := List.length_filter_le (fun op : TraceOp => op.type = .alloc) first
    rw [before, List.length_map, List.length_range] at count
    exact count
  -- None of the requests in front is the allocation of the id.
  have early : ∀ op ∈ first ++ gap, ¬ (op.type = .alloc ∧ op.index = i) := by
    rintro op member ⟨alloc, index⟩
    rcases List.mem_append.mp member with inside | inside
    · have listed : op ∈ first.filter fun op => op.type = .alloc := List.mem_filter.mpr ⟨inside, by simpa using alloc⟩
      rw [before] at listed
      obtain ⟨k, small, rfl⟩ := List.mem_map.mp listed
      have := List.mem_range.mp small
      simp only [allocOp] at index
      omega
    · exact others op inside (by simpa using alloc)
  refine ⟨first ++ gap, ys, by simp, by rw [List.length_append]; omega, ?_, ?_⟩
  · -- The search passes all of them.
    have shape : (first ++ (gap ++ allocOp i (draws.rand i bound) :: ys)).drop i =
        (first ++ gap).drop i ++ allocOp i (draws.rand i bound) :: ys := by
      rw [← List.append_assoc, List.drop_append_of_le_length (by rw [List.length_append]; omega)]
    have passed : ((first ++ gap).drop i).findIdx (fun op => decide (op.type = .alloc ∧ op.index = i)) =
        ((first ++ gap).drop i).length :=
      List.findIdx_eq_length.mpr fun op member => decide_eq_false (early op (List.mem_of_mem_drop member))
    rw [shape, List.findIdx_append, passed, if_neg (Nat.lt_irrefl _), List.findIdx_cons, List.length_drop]
    simp [allocOp]
  · -- Behind it no request is about the id.
    intro op member index
    rcases inserted.frees op (by simp [member]) with alloc | ⟨_, small, _⟩
    · have listed : op ∈ ys.filter fun op => op.type = .alloc := List.mem_filter.mpr ⟨member, by simpa using alloc⟩
      rw [after] at listed
      obtain ⟨k, large, rfl⟩ := List.mem_map.mp listed
      have := (List.mem_range'_1.mp large).1
      simp only [allocOp] at index
      omega
    · -- A free request that is already there is about a smaller id.
      omega

/-- One more block gets its free request. -/
theorem Inserted.step {trace : List TraceOp} (inserted : Inserted (randomAllocs draws n bound) i trace)
    (below : i < n) :
    Inserted (randomAllocs draws n bound) (i + 1) (insertFree draws n trace i) := by
  obtain ⟨xs, ys, rfl, long, found, others⟩ := inserted.found below
  have count : (randomAllocs draws n bound).length = n := by simp [randomAllocs]
  have length := inserted.length
  simp only [List.length_append, List.length_cons, count] at length
  -- The position is somewhere behind the allocation, and not behind the end.
  obtain ⟨d, drawn, few⟩ : ∃ d, draws.rand (n + i) (n + i - xs.length - 1) = d ∧ d ≤ ys.length := by
    refine ⟨_, rfl, ?_⟩
    have small := draws.below (n + i) (n + i - xs.length - 1)
    omega
  -- The free request is put there.
  have place : insertFree draws n (xs ++ allocOp i (draws.rand i bound) :: ys) i =
      (xs ++ allocOp i (draws.rand i bound) :: ys.take d) ++ freeOp i :: ys.drop d := by
    have pos : d + xs.length + 1 = xs.length + (d + 1) := by omega
    unfold insertFree
    simp only [found, show i + (xs.length - i) = xs.length by omega, drawn, pos]
    rw [List.take_length_add_append, List.drop_length_add_append, List.take_succ_cons, List.drop_succ_cons]
  have whole : xs ++ allocOp i (draws.rand i bound) :: ys =
      (xs ++ allocOp i (draws.rand i bound) :: ys.take d) ++ ys.drop d := by
    rw [List.append_assoc, List.cons_append, List.take_append_drop]
  -- The id is allocated at that point.
  have known : i ∈ allocatedAfter [] (xs ++ allocOp i (draws.rand i bound) :: ys.take d) := by
    rw [allocatedAfter_append, allocatedAfter_cons]
    exact mem_allocatedAfter (by simp) fun op member _ => others op (List.mem_of_mem_take member)
  have proper := inserted.proper
  have after := inserted.after
  rw [whole] at proper after
  obtain ⟨proper', after'⟩ := proper.insert known fun op member => others op (List.mem_of_mem_drop member)
  rw [place]
  -- One request more does not disturb what is known about the others.
  refine ⟨?_, ?_, fun op member => ?_, proper', fun k => ?_⟩
  · simp only [List.length_append, List.length_cons, List.length_take, List.length_drop, count]
    omega
  · -- The new request is no allocation.
    have kept := inserted.kept
    rw [whole, List.filter_append] at kept
    rw [List.filter_append, List.filter_cons_of_neg (by simp [freeOp]), kept]
  · -- The old free requests are about smaller ids.
    by_cases new : op = freeOp i
    · exact .inr (by simp [new, freeOp])
    · have old : op ∈ xs ++ allocOp i (draws.rand i bound) :: ys := by
        rw [whole]
        simp only [List.mem_append, List.mem_cons] at member ⊢
        tauto
      exact (inserted.frees op old).imp_right fun free => ⟨free.1, Nat.lt_succ_of_lt free.2.1, free.2.2⟩
  · -- The ids that are left are the ones that have no free request yet.
    rw [after', after]
    omega

/-- The requests of the finished trace: an allocation and a free request for each id. -/
theorem Inserted.declared {trace : List TraceOp} (inserted : Inserted (randomAllocs draws n bound) n trace)
    (some_ : 1 ≤ n) : (randomHeader draws n bound).Declares trace where
  numOps := by
    have length := inserted.length
    simp only [randomAllocs, List.length_map, List.length_range] at length
    simp only [randomHeader]
    omega
  bound op member := by
    -- A request of the trace is one of the allocations, or a free request for an id below `n`.
    rcases inserted.frees op member with alloc | ⟨_, small, _⟩
    · have listed : op ∈ trace.filter fun op => op.type = .alloc := List.mem_filter.mpr ⟨member, by simpa using alloc⟩
      rw [inserted.kept] at listed
      obtain ⟨k, small, rfl⟩ := List.mem_map.mp listed
      exact List.mem_range.mp small
    · exact small
  -- The last id is allocated somewhere.
  last := by
    have listed : allocOp (n - 1) (draws.rand (n - 1) bound) ∈ randomAllocs draws n bound :=
      List.mem_map.mpr ⟨n - 1, List.mem_range.mpr (by omega), rfl⟩
    rw [← inserted.kept] at listed
    exact .inr ⟨_, (List.mem_filter.mp listed).1, by simp [allocOp], by simp only [allocOp, randomHeader]; omega⟩

/-- An allocation of the finished trace is one of those that were drawn. -/
theorem Inserted.drawn {trace : List TraceOp} (inserted : Inserted (randomAllocs draws n bound) i trace) {op : TraceOp}
    (member : op ∈ trace) (real : op.type ≠ .free) : ∃ k < n, op = allocOp k (draws.rand k bound) := by
  have alloc : op.type = .alloc := (inserted.frees op member).resolve_right fun free => real free.1
  have listed : op ∈ trace.filter fun op => op.type = .alloc := List.mem_filter.mpr ⟨member, by simpa using alloc⟩
  rw [inserted.kept] at listed
  obtain ⟨k, small, same⟩ := List.mem_map.mp listed
  exact ⟨k, List.mem_range.mp small, same.symm⟩

end MallocLab.Traces
