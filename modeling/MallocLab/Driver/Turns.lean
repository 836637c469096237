import MallocLab.Driver.Ledger
import Mathlib.Algebra.Order.BigOperators.Group.List
import Mathlib.Algebra.Order.Group.Nat

/-! What a turn of each evaluation of `mdriver.c` does, given what the call of the allocator has returned. -/

namespace MallocLab.Driver

/-- The messages of `eval_mm_util` for the types of requests that may fail. -/
def UtilFailure (message : String) (type : OpType) : Prop :=
  type = .alloc ∧ message = "mm_malloc failed in eval_mm_util" ∨
    type = .realloc ∧ message = "mm_realloc failed in eval_mm_util"

/-- The two counters of `eval_mm_util`, while these requests are still to come. -/
structure Counted (low peak brk : Nat) (held : List (Nat × Nat)) (ops : List TraceOp) (total most : Int) : Prop where
  bytes : total = totalHeld held
  least : total ≤ most
  room : most + low ≤ brk
  reaches : max most (peakFrom held ops) = peak

/-- What `eval_mm_util` has in its arrays and counters between two requests. -/
structure Metered {γ : Type} (low numIds peak : Nat) (tags : List Tag) (w : World γ) (ids : Ids) (allocated : List Nat)
    (ops : List TraceOp) (u : Usage γ) : Prop where
  heap : u.heap = w.heap
  blocks : Noted numIds allocated (fun i => (ids i).1) u.blocks
  sizes : Noted numIds allocated (fun i => (ids i).2) u.blockSizes
  counted : Counted low peak w.heap.memBrk (heldOf tags) ops u.totalSize u.maxTotalSize

/-- The messages of `eval_mm_speed` for the types of requests that may fail. -/
def SpeedFailure (message : String) (type : OpType) : Prop :=
  type = .alloc ∧ message = "mm_malloc error in eval_mm_speed" ∨
    type = .realloc ∧ message = "mm_realloc error in eval_mm_speed"

/-- What `eval_mm_speed` has in its array between two requests. -/
structure Replays {γ : Type} (numIds : Nat) (w : World γ) (ids : Ids) (allocated : List Nat) (t : Timed γ) : Prop where
  heap : t.heap = w.heap
  blocks : Noted numIds allocated (fun i => (ids i).1) t.blocks

/--
A loop over the requests of a trace that knows something about its variables between two requests.

A refused request ends the loop with the message for its type.
After one that is served, in a heap with room for all that is held, the loop knows as much about the rest.
-/
structure Evaluates {γ S : Type} (A : Allocator γ) (low numIds : Nat)
    (turn : S → TraceOp → Option (Except String S)) (failure : String → OpType → Prop)
    (knows : List Tag → World γ → Ids → List Nat → List TraceOp → S → Prop) : Prop where
  refused : ∀ {tags w ids allocated op ops s next}, knows tags w ids allocated (op :: ops) s →
    op.Valid numIds allocated → op.type ≠ .free → w.call A (op.call ids) = some (next, null) →
    ∃ message, turn s op = some (.error message) ∧ failure message op.type
  served : ∀ {tags tags' w ids allocated op ops s next r}, knows tags w ids allocated (op :: ops) s →
    Ledger tags w.live ids allocated → op.Valid numIds allocated → w.call A (op.call ids) = some (next, r) →
    (op.type ≠ .free → r ≠ null) → heldOf tags' = op.heldAfter (heldOf tags) →
    low + totalHeld (heldOf tags') ≤ next.heap.memBrk → w.heap.memBrk ≤ next.heap.memBrk →
    next.heap.memBrk ≤ low + maxHeap →
    ∃ s', turn s op = some (.ok s') ∧ knows tags' next (op.moved ids r) (op.allocated allocated) ops s'

variable {γ : Type} {A : Allocator γ} {w next : World γ} {u : Usage γ} {t : Timed γ} {tags tags' : List Tag} {ids : Ids}
variable {allocated : List Nat} {held : List (Nat × Nat)} {op : TraceOp} {ops : List TraceOp}
variable {low numIds peak brk brk' n p r i : Nat} {total most change : Int}

/-- What `mm_malloc` returned to the client is what the call of the client returned. -/
theorem mmMalloc_of_call (returned : w.call A (.malloc n) = some (next, r)) :
    A.mmMalloc w.heap n = some (next.heap, r) := by
  obtain ⟨⟨h, p⟩, done, rest⟩ := Option.bind_eq_some_iff.mp returned
  by_cases refused : p = null
  · -- A refused call has left the live pointers alone.
    simp only [refused, if_true] at rest done
    obtain ⟨rfl, rfl⟩ := Prod.mk.inj (Option.some.inj rest)
    exact done
  · simp only [refused, if_false] at rest
    obtain ⟨rfl, rfl⟩ := Prod.mk.inj (Option.some.inj rest)
    exact done

/-- So is what `mm_realloc` returned. -/
theorem mmRealloc_of_call (returned : w.call A (.realloc p n) = some (next, r)) :
    A.mmRealloc w.heap p n = some (next.heap, r) := by
  obtain ⟨⟨h, q⟩, done, rest⟩ := Option.bind_eq_some_iff.mp returned
  by_cases refused : q = null
  · simp only [refused, if_true] at rest done
    obtain ⟨rfl, rfl⟩ := Prod.mk.inj (Option.some.inj rest)
    exact done
  · simp only [refused, if_false] at rest
    obtain ⟨rfl, rfl⟩ := Prod.mk.inj (Option.some.inj rest)
    exact done

/-- What the validity check says of a refused request of each type. -/
def refusal : OpType → Complaint
  | .realloc => .reallocFailed
  | _ => .mallocFailed

/-- A request that is refused ends the validity check with its message. -/
theorem Agrees.refused {s : Session γ} {tracenum opnum : Nat} (agrees : Agrees numIds w ids allocated s)
    (valid : op.Valid numIds allocated) (request : op.type ≠ .free)
    (returned : w.call A (op.call ids) = some (next, null)) :
    evalOp A tracenum opnum s op =
      some (.error { tracenum := tracenum, opnum := opnum, complaint := refusal op.type }) := by
  have heap := agrees.heap
  unfold evalOp
  cases type : op.type with
  -- The message is the one for a refused allocation.
  | alloc =>
    have call := TraceOp.call_of_alloc ids type
    simp only [heap]
    exact bind_step (mmMalloc_of_call (call ▸ returned)) (if_pos rfl)
  -- The old block is in the array, and its data is not touched.
  | realloc =>
    have call := TraceOp.call_of_realloc ids type
    have oldp := (agrees.recorded op.index (valid.known (by simp [type]))).1
    simp only [heap]
    exact bind_step oldp (bind_step (mmRealloc_of_call (call ▸ returned)) (if_pos rfl))
  | free => exact absurd type request

/-- A `free` leaves fewer ids allocated. -/
theorem TraceOp.allocated_fewer (allocated : List Nat) (type : op.type = .free) :
    ∀ i ∈ op.allocated allocated, i ∈ allocated := by
  intro i member
  have still : i ∈ allocated ∧ i ≠ op.index := by simpa [TraceOp.allocated, type] using member
  exact still.1

/-- Without the newest block of an id, its bytes are missing from the total. -/
theorem totalHeld_eraseP (found : tags.find? (fun tag => tag.1 = i) = some (i, p, n)) :
    totalHeld ((heldOf tags).eraseP fun entry => entry.1 = i) + n = totalHeld (heldOf tags) := by
  induction tags with
  | nil => exact nomatch found
  | cons tag tags ih =>
    -- The newest block of the id is this one.
    by_cases here : tag.1 = i
    · rw [List.find?_cons_of_pos (by simpa using here)] at found
      obtain rfl := Option.some.inj found
      simp [heldOf, totalHeld, Nat.add_comm]
    · -- The newest block is a later one.
      rw [List.find?_cons_of_neg (by simpa using here)] at found
      have rest := ih found
      simp only [heldOf, totalHeld, List.map_cons, List.sum_cons] at rest ⊢
      rw [List.eraseP_cons_of_neg (by simpa using here), List.map_cons, List.sum_cons]
      omega

/-- The block of an allocated id is not larger than all blocks together. -/
theorem Ledger.size_le {live : List (Nat × Nat)} (ledger : Ledger tags live ids allocated)
    (known : i ∈ allocated) : (ids i).2 ≤ totalHeld (heldOf tags) := by
  rw [ledger.total]
  exact List.le_sum_of_mem (List.mem_map_of_mem (ledger.mem known))

/-- A sum that is a number of bytes in the area is an `int`. -/
theorem addInt_bytes {bytes : Nat} (sum : total + change = bytes) (inside : bytes ≤ maxHeap) :
    addInt total change = some (bytes : Int) := by
  have area : maxHeap = 20971520 := rfl
  unfold addInt
  rw [sum, if_pos (by omega)]

/-- After a request the counters are right for the rest of the trace, whether or not the most is updated. -/
theorem Counted.advance (counted : Counted low peak brk held (op :: ops) total most)
    (fits : low + totalHeld (op.heldAfter held) ≤ brk') (grows : brk ≤ brk') :
    Counted low peak brk' (op.heldAfter held) ops (totalHeld (op.heldAfter held) : Nat)
      (if (totalHeld (op.heldAfter held) : Int) > most then (totalHeld (op.heldAfter held) : Nat) else most) := by
  obtain ⟨_, least, room, reaches⟩ := counted
  have whole : max most (max (totalHeld (op.heldAfter held)) (peakFrom (op.heldAfter held) ops) : Nat) = peak := reaches
  -- The most is updated exactly when more is held than ever before.
  split
  · exact ⟨rfl, Int.le_refl _, by omega, by omega⟩
  · exact ⟨rfl, by omega, by omega, by omega⟩

/-- The variables of `eval_mm_util` after a request, when this many bytes are allocated. -/
def Usage.after (u : Usage γ) (h : Heap γ) (blocks sizes : List Nat) (bytes : Nat) : Usage γ where
  heap := h
  blocks := blocks
  blockSizes := sizes
  totalSize := bytes
  maxTotalSize := if (bytes : Int) > u.maxTotalSize then bytes else u.maxTotalSize

/-- The counter goes to the bytes that are held after the request. -/
theorem Usage.count_eq {h : Heap γ} {blocks sizes : List Nat} {bytes : Nat}
    (sum : u.totalSize + change = bytes) (inside : bytes ≤ maxHeap) :
    ({ u with heap := h, blocks := blocks, blockSizes := sizes } : Usage γ).count change =
      some (u.after h blocks sizes bytes) := by
  unfold Usage.count
  simp only
  rw [addInt_bytes sum inside]
  rfl

/-- A request that is refused ends `eval_mm_util` with its message. -/
theorem Metered.refused (metered : Metered low numIds peak tags w ids allocated (op :: ops) u)
    (valid : op.Valid numIds allocated) (request : op.type ≠ .free)
    (returned : w.call A (op.call ids) = some (next, null)) :
    ∃ message, utilTurn A u op = some (.error message) ∧ UtilFailure message op.type := by
  have heap := metered.heap
  unfold utilTurn
  cases type : op.type with
  -- `mm_malloc` is called first.
  | alloc =>
    have call := TraceOp.call_of_alloc ids type
    refine ⟨_, ?_, .inl ⟨rfl, rfl⟩⟩
    simp only [heap]
    exact bind_step (mmMalloc_of_call (call ▸ returned)) (if_pos rfl)
  -- The two entries of the old block are read, and then `mm_realloc` is called.
  | realloc =>
    have known := valid.known (by simp [type])
    have call := TraceOp.call_of_realloc ids type
    have oldsize := metered.sizes.entries op.index known
    have oldp := metered.blocks.entries op.index known
    refine ⟨_, ?_, .inr ⟨rfl, rfl⟩⟩
    simp only [heap]
    exact bind_step oldsize (bind_step oldp (bind_step (mmRealloc_of_call (call ▸ returned)) (if_pos rfl)))
  | free => exact absurd type request

/-- The recorded size of an allocated id is an `int`, because no block is larger than the area. -/
theorem Metered.size_int (metered : Metered low numIds peak tags w ids allocated ops u)
    (ledger : Ledger tags w.live ids allocated) (known : i ∈ allocated) (inside : w.heap.memBrk ≤ low + maxHeap) :
    toInt32 (ids i).2 = ((ids i).2 : Int) ∧ ((ids i).2 : Int) ≤ u.totalSize ∧ u.totalSize ≤ maxHeap := by
  obtain ⟨bytes, least, room, _⟩ := metered.counted
  have size := ledger.size_le known
  have area : maxHeap = 20971520 := rfl
  exact ⟨toInt32_eq (by omega), by omega, by omega⟩

/-- A request that is served is counted by `eval_mm_util`, and no counter overflows. -/
theorem Metered.served (metered : Metered low numIds peak tags w ids allocated (op :: ops) u)
    (ledger : Ledger tags w.live ids allocated) (valid : op.Valid numIds allocated)
    (returned : w.call A (op.call ids) = some (next, r)) (real : op.type ≠ .free → r ≠ null)
    (held : heldOf tags' = op.heldAfter (heldOf tags)) (fits : low + totalHeld (heldOf tags') ≤ next.heap.memBrk)
    (grows : w.heap.memBrk ≤ next.heap.memBrk) (inside : next.heap.memBrk ≤ low + maxHeap) :
    ∃ u', utilTurn A u op = some (.ok u') ∧
      Metered low numIds peak tags' next (op.moved ids r) (op.allocated allocated) ops u' := by
  have heap := metered.heap
  have total := metered.counted.bytes
  rw [held] at fits
  have counted := metered.counted.advance fits grows
  rw [← held] at counted
  have few : totalHeld (op.heldAfter (heldOf tags)) ≤ maxHeap := by omega
  -- Each type of request has its own branch in the loop.
  cases type : op.type with
  -- The bytes of the request are added.
  | alloc =>
    have request : op.type ≠ .free := by simp [type]
    have call := TraceOp.call_of_alloc ids type
    have size : toInt32 op.size = (op.size : Int) := toInt32_eq (valid.size request).2
    obtain ⟨stored, noted⟩ := metered.blocks.pointer (r := r) request valid.index
    obtain ⟨stored', sized⟩ := metered.sizes.size (r := r) request valid.index
    have sum : totalHeld (op.heldAfter (heldOf tags)) = op.size + totalHeld (heldOf tags) := by
      simp [TraceOp.heldAfter, type, totalHeld]
    refine ⟨u.after next.heap (u.blocks.set op.index r) (u.blockSizes.set op.index op.size)
      (totalHeld (op.heldAfter (heldOf tags))), ?_, rfl, noted, sized, held ▸ counted⟩
    unfold utilTurn
    simp only [type, heap]
    -- The two stores are inside the arrays.
    refine bind_step (mmMalloc_of_call (call ▸ returned))
      ((if_neg (real request)).trans (bind_step stored (bind_step stored' ?_)))
    exact bind_step (Usage.count_eq (by omega) few) rfl
  | realloc =>
    have request : op.type ≠ .free := by simp [type]
    have known := valid.known (by simp [type])
    have call := TraceOp.call_of_realloc ids type
    have size : toInt32 op.size = (op.size : Int) := toInt32_eq (valid.size request).2
    obtain ⟨old, part, whole⟩ := metered.size_int ledger known (grows.trans inside)
    have oldp := metered.blocks.entries op.index known
    have oldsize := metered.sizes.entries op.index known
    obtain ⟨stored, noted⟩ := metered.blocks.pointer (r := r) request valid.index
    obtain ⟨stored', sized⟩ := metered.sizes.size (r := r) request valid.index
    -- The bytes of the old block go, and those of the new one come.
    have rest : totalHeld ((heldOf tags).eraseP fun entry => entry.1 = op.index) + (ids op.index).2 =
        totalHeld (heldOf tags) := totalHeld_eraseP (ledger.latest op.index known)
    have sum : totalHeld (op.heldAfter (heldOf tags)) =
        op.size + totalHeld ((heldOf tags).eraseP fun entry => entry.1 = op.index) := by
      simp [TraceOp.heldAfter, type, totalHeld]
    -- The difference of the two sizes is an `int`.
    have change : addInt (toInt32 op.size) (-toInt32 (ids op.index).2) =
        some ((op.size : Int) - (ids op.index).2) := by
      have int := (valid.size request).2
      have area : maxHeap = 20971520 := rfl
      unfold addInt
      rw [size, old, if_pos (by omega)]
      rfl
    refine ⟨u.after next.heap (u.blocks.set op.index r) (u.blockSizes.set op.index op.size)
      (totalHeld (op.heldAfter (heldOf tags))), ?_, rfl, noted, sized, held ▸ counted⟩
    unfold utilTurn
    simp only [type, heap]
    refine bind_step oldsize (bind_step oldp (bind_step (mmRealloc_of_call (call ▸ returned))
      ((if_neg (real request)).trans (bind_step stored (bind_step stored' (bind_step change ?_))))))
    exact bind_step (Usage.count_eq (by omega) few) rfl
  -- The bytes of the block are taken off, and the maximum stays.
  | free =>
    have known := valid.known (by simp [type])
    have call := TraceOp.call_of_free ids type
    obtain ⟨old, _, _⟩ := metered.size_int ledger known (grows.trans inside)
    have oldp := metered.blocks.entries op.index known
    have oldsize := metered.sizes.entries op.index known
    -- Fewer ids are allocated, with the same blocks.
    have same := TraceOp.moved_of_free ids r type
    have fewer := TraceOp.allocated_fewer allocated type
    have rest := totalHeld_eraseP (ledger.latest op.index known)
    have sum : totalHeld (op.heldAfter (heldOf tags)) + (ids op.index).2 = totalHeld (heldOf tags) := by
      simp only [TraceOp.heldAfter, type]
      exact rest
    -- The maximum is not passed.
    have most : ¬ (totalHeld (op.heldAfter (heldOf tags)) : Int) > u.maxTotalSize := by
      have least := metered.counted.least
      omega
    rw [held, if_neg most] at counted
    rw [same]
    refine ⟨{ u with heap := next.heap, totalSize := (totalHeld (op.heldAfter (heldOf tags)) : Nat) }, ?_, rfl,
      metered.blocks.mono fewer, metered.sizes.mono fewer, held ▸ counted⟩
    unfold utilTurn
    simp only [type, heap]
    exact bind_step oldsize (bind_step oldp (bind_step (call_free (call ▸ returned)).1
      (bind_step (addInt_bytes (by rw [total, old]; omega) few) rfl)))

/-- A request that is refused ends `eval_mm_speed` with its message. -/
theorem Replays.refused (replays : Replays numIds w ids allocated t) (valid : op.Valid numIds allocated)
    (request : op.type ≠ .free) (returned : w.call A (op.call ids) = some (next, null)) :
    ∃ message, speedTurn A t op = some (.error message) ∧ SpeedFailure message op.type := by
  have heap := replays.heap
  unfold speedTurn
  cases type : op.type with
  -- The loop stops at a null pointer.
  | alloc =>
    have call := TraceOp.call_of_alloc ids type
    refine ⟨_, ?_, .inl ⟨rfl, rfl⟩⟩
    simp only [heap]
    exact bind_step (mmMalloc_of_call (call ▸ returned)) (if_pos rfl)
  -- So it does after a reallocation.
  | realloc =>
    have call := TraceOp.call_of_realloc ids type
    have oldp := replays.blocks.entries op.index (valid.known (by simp [type]))
    refine ⟨_, ?_, .inr ⟨rfl, rfl⟩⟩
    simp only [heap]
    exact bind_step oldp (bind_step (mmRealloc_of_call (call ▸ returned)) (if_pos rfl))
  | free => exact absurd type request

/-- A request that is served leaves `eval_mm_speed` with its pointer. -/
theorem Replays.served (replays : Replays numIds w ids allocated t) (valid : op.Valid numIds allocated)
    (returned : w.call A (op.call ids) = some (next, r)) (real : op.type ≠ .free → r ≠ null) :
    ∃ t', speedTurn A t op = some (.ok t') ∧ Replays numIds next (op.moved ids r) (op.allocated allocated) t' := by
  have heap := replays.heap
  -- The branches are those of `eval_mm_util`, without the counters.
  cases type : op.type with
  -- The new pointer is stored.
  | alloc =>
    have request : op.type ≠ .free := by simp [type]
    have call := TraceOp.call_of_alloc ids type
    obtain ⟨stored, noted⟩ := replays.blocks.pointer (r := r) request valid.index
    refine ⟨{ heap := next.heap, blocks := t.blocks.set op.index r }, ?_, rfl, noted⟩
    unfold speedTurn
    simp only [type, heap]
    exact bind_step (mmMalloc_of_call (call ▸ returned)) ((if_neg (real request)).trans (bind_step stored rfl))
  -- The pointer takes the place of the old one.
  | realloc =>
    have request : op.type ≠ .free := by simp [type]
    have call := TraceOp.call_of_realloc ids type
    have oldp := replays.blocks.entries op.index (valid.known (by simp [type]))
    obtain ⟨stored, noted⟩ := replays.blocks.pointer (r := r) request valid.index
    refine ⟨{ heap := next.heap, blocks := t.blocks.set op.index r }, ?_, rfl, noted⟩
    unfold speedTurn
    simp only [type, heap]
    exact bind_step oldp (bind_step (mmRealloc_of_call (call ▸ returned))
      ((if_neg (real request)).trans (bind_step stored rfl)))
  -- The array keeps the old pointer.
  | free =>
    have call := TraceOp.call_of_free ids type
    have oldp := replays.blocks.entries op.index (valid.known (by simp [type]))
    have same := TraceOp.moved_of_free ids r type
    rw [same]
    refine ⟨{ t with heap := next.heap }, ?_, rfl, replays.blocks.mono (TraceOp.allocated_fewer allocated type)⟩
    unfold speedTurn
    simp only [type, heap]
    exact bind_step oldp (bind_step (call_free (call ▸ returned)).1 rfl)

/-- The loop of `eval_mm_util` knows its arrays and counters. -/
theorem util_evaluates : Evaluates A low numIds (utilTurn A) UtilFailure (Metered low numIds peak) where
  refused metered := metered.refused
  served metered := metered.served

/-- The loop of `eval_mm_speed` knows its array. -/
theorem speed_evaluates : Evaluates A low numIds (speedTurn A) SpeedFailure
    fun _ w ids allocated _ => Replays numIds w ids allocated where
  refused replays := replays.refused
  served replays _ valid returned real _ _ _ _ := replays.served valid returned real

end MallocLab.Driver
