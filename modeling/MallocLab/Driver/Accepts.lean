import MallocLab.Client.Owned
import MallocLab.Driver.Valid
import MallocLab.Machine.Loop

/-! What the validity check of `mdriver.c` does with an allocator that serves a trace correctly. -/

namespace MallocLab.Driver

/-- Where the block of each id is, and how many bytes it was asked to have. -/
abbrev Ids := Nat → Nat × Nat

/-- The call that a request makes. -/
def TraceOp.call (op : TraceOp) (ids : Ids) : Call :=
  match op.type with
  | .alloc => .malloc op.size
  | .free => .free (ids op.index).1
  | .realloc => .realloc (ids op.index).1 op.size

/-- The blocks of the ids once a request has returned `r`. -/
def TraceOp.moved (op : TraceOp) (ids : Ids) (r : Nat) : Ids :=
  match op.type with
  | .free => ids
  | _ => fun index => if index = op.index then (r, op.size) else ids index

variable {γ : Type}

/-- The world once the driver has filled the block that a request returned. -/
def TraceOp.filled (op : TraceOp) (w : World γ) (r : Nat) : World γ :=
  match op.type with
  | .free => w
  | _ => { w with heap := { w.heap with
      mem := fillBytes w.heap.mem r op.size (UInt8.ofNat (fillByte op.index)) } }

/-- The ids that are allocated after a request, in any order. -/
def TraceOp.allocated (op : TraceOp) (ids : List Nat) : List Nat :=
  match op.type with
  | .alloc => op.index :: ids
  | .free => ids.filter (· ≠ op.index)
  | .realloc => ids

/-- A size is positive and an `int`, an id is in range, and only allocated ids are freed or reallocated. -/
structure TraceOp.Valid (op : TraceOp) (numIds : Nat) (ids : List Nat) : Prop where
  size : op.type ≠ .free → 0 < op.size ∧ op.size < 2 ^ 31
  index : op.index < numIds
  known : op.type ≠ .alloc → op.index ∈ ids

/-- Every request of a trace is valid when it is made. -/
def ValidOps (numIds : Nat) : List Nat → List TraceOp → Prop
  | _, [] => True
  | ids, op :: ops => op.Valid numIds ids ∧ ValidOps numIds (op.allocated ids) ops

/-- A trace as `read_trace` should find it in a file. -/
structure Trace.Valid (trace : Trace) : Prop where
  blocks : trace.blocks.length = trace.numIds
  blockSizes : trace.blockSizes.length = trace.numIds
  ops : ValidOps trace.numIds [] trace.ops

/-- The allocator serves one request correctly, and returns `r`. -/
structure Serves (A : Allocator γ) (w : World γ) (ids : Ids) (op : TraceOp) (next : World γ) (r : Nat) : Prop where
  returned : w.call A (op.call ids) = some (next, r)
  upholds : Upholds w (op.call ids) next r
  real : op.type ≠ .free → r ≠ null
  data : op.type = .realloc → ∀ i < min (ids op.index).2 op.size,
    next.heap.mem (r + i) = w.heap.mem ((ids op.index).1 + i)

/-- The allocator serves every request of a trace, with the driver writing in between. -/
def Correct (A : Allocator γ) : World γ → Ids → List TraceOp → Prop
  | _, _, [] => True
  | w, ids, op :: ops => ∃ next r, Serves A w ids op next r ∧ Correct A (op.filled next r) (op.moved ids r) ops

/-- Live payloads are not empty and share no byte. -/
structure Packed (live : List (Nat × Nat)) : Prop where
  sized : ∀ entry ∈ live, 0 < entry.2
  apart : live.Pairwise fun a b => a.1 + a.2 ≤ b.1 ∨ b.1 + b.2 ≤ a.1

/-- The record of a live payload. -/
def extent (entry : Nat × Nat) : Range := { lo := entry.1, hi := entry.1 + entry.2 - 1 }

/-- What the check knows about the client's blocks between two requests. -/
structure Agrees (numIds : Nat) (w : World γ) (ids : Ids) (allocated : List Nat) (s : Session γ) : Prop where
  heap : s.heap = w.heap
  ranges : s.ranges = w.live.map extent
  packed : Packed w.live
  blocks : s.blocks.length = numIds
  blockSizes : s.blockSizes.length = numIds
  live : ∀ index ∈ allocated, ids index ∈ w.live
  distinct : ∀ i ∈ allocated, ∀ j ∈ allocated, (ids i).1 = (ids j).1 → i = j
  recorded : ∀ index ∈ allocated, s.blocks[index]? = some (ids index).1 ∧ s.blockSizes[index]? = some (ids index).2
  filled : ∀ index ∈ allocated, ∀ x, (ids index).1 ≤ x → x < (ids index).1 + (ids index).2 →
    w.heap.mem x = UInt8.ofNat (fillByte index)

variable {A : Allocator γ} {w next : World γ} {live : List (Nat × Nat)} {ids : Ids} {s : Session γ} {op : TraceOp}
variable {allocated allocated' : List Nat} {numIds tracenum opnum p q n r index size : Nat}

/-- Every non-empty payload begins in itself, so two live ones begin at different addresses. -/
theorem Packed.drop (packed : Packed live) : Packed (dropLive live p) where
  sized entry member := packed.sized entry (mem_dropLive.mp member).1
  apart := packed.apart.sublist List.filter_sublist

/-- Removing the record of a pointer removes exactly its payload. -/
theorem Packed.removeRange (packed : Packed live) :
    removeRange (live.map extent) p = (dropLive live p).map extent := by
  induction live with
  | nil => rfl
  | cons entry live ih =>
    obtain ⟨apart, rest⟩ := List.pairwise_cons.mp packed.apart
    have positive := packed.sized entry List.mem_cons_self
    have tail : Packed live := ⟨fun e member => packed.sized e (List.mem_cons_of_mem _ member), rest⟩
    -- The list is searched from its front, in the order of the live pointers.
    by_cases here : entry.1 = p
    · -- The later payloads are apart from this one, so none of them begins at its address.
      have others : dropLive live p = live := by
        refine List.filter_eq_self.mpr fun e member => ?_
        have clear := apart e member
        have own := tail.sized e member
        simp only [bne_iff_ne, ne_eq]
        omega
      have removed : Driver.removeRange ((entry :: live).map extent) p = live.map extent :=
        List.eraseP_cons_of_pos (by simp [extent, here])
      have dropped : dropLive (entry :: live) p = dropLive live p := List.filter_cons_of_neg (by simp [here])
      rw [removed, dropped, others]
    · have removed : Driver.removeRange ((entry :: live).map extent) p =
          extent entry :: Driver.removeRange (live.map extent) p :=
        List.eraseP_cons_of_neg (by simp [extent, here])
      have dropped : dropLive (entry :: live) p = entry :: dropLive live p :=
        List.filter_cons_of_pos (by simp [here])
      rw [removed, dropped, ih tail, List.map_cons]

/-- A successful allocation adds its payload to the live ones. -/
theorem call_malloc (returned : w.call A (.malloc n) = some (next, r)) (real : r ≠ null) :
    A.mmMalloc w.heap n = some (next.heap, r) ∧ next.live = (r, n) :: w.live := by
  obtain ⟨⟨h, p⟩, done, rest⟩ := Option.bind_eq_some_iff.mp returned
  by_cases refused : p = null
  · -- A null pointer would have been the result.
    simp only [refused, if_true] at rest
    exact absurd (Prod.mk.inj (Option.some.inj rest)).2.symm real
  · simp only [refused, if_false] at rest
    obtain ⟨rfl, rfl⟩ := Prod.mk.inj (Option.some.inj rest)
    exact ⟨done, rfl⟩

/-- A successful reallocation replaces the old payload by its own. -/
theorem call_realloc (returned : w.call A (.realloc q n) = some (next, r)) (real : r ≠ null) :
    A.mmRealloc w.heap q n = some (next.heap, r) ∧ next.live = (r, n) :: dropLive w.live q := by
  obtain ⟨⟨h, p⟩, done, rest⟩ := Option.bind_eq_some_iff.mp returned
  by_cases refused : p = null
  · simp only [refused, if_true] at rest
    exact absurd (Prod.mk.inj (Option.some.inj rest)).2.symm real
  · simp only [refused, if_false] at rest
    obtain ⟨rfl, rfl⟩ := Prod.mk.inj (Option.some.inj rest)
    exact ⟨done, rfl⟩

/-- Freeing ends the life of the payload. -/
theorem call_free (returned : w.call A (.free q) = some (next, r)) :
    A.mmFree w.heap q = some next.heap ∧ next.live = dropLive w.live q := by
  obtain ⟨h, done, rest⟩ := Option.bind_eq_some_iff.mp returned
  obtain ⟨rfl, rfl⟩ := Prod.mk.inj (Option.some.inj rest)
  exact ⟨done, rfl⟩

/-- An allocation asks for its size. -/
theorem TraceOp.call_of_alloc (ids : Ids) (type : op.type = .alloc) : op.call ids = .malloc op.size := by
  simp [TraceOp.call, type]

/-- A reallocation names the block of its id, and it asks for its size. -/
theorem TraceOp.call_of_realloc (ids : Ids) (type : op.type = .realloc) :
    op.call ids = .realloc (ids op.index).1 op.size := by
  simp [TraceOp.call, type]

/-- A `free` names the block of its id. -/
theorem TraceOp.call_of_free (ids : Ids) (type : op.type = .free) : op.call ids = .free (ids op.index).1 := by
  simp [TraceOp.call, type]

/-- A `free` leaves the blocks of the ids alone. -/
theorem TraceOp.moved_of_free (ids : Ids) (r : Nat) (type : op.type = .free) : op.moved ids r = ids := by
  simp [TraceOp.moved, type]

/-- A request that is not a `free` asks for its size. -/
theorem TraceOp.call_request (ids : Ids) (request : op.type ≠ .free) : (op.call ids).request = some op.size := by
  obtain ⟨type, index, size⟩ := op
  cases type with
  | free => exact absurd rfl request
  | alloc => rfl
  | realloc => rfl

/-- No request of a trace is a store of the client. -/
theorem TraceOp.call_ne_store (addr : Nat) (byte : UInt8) : op.call ids ≠ .store addr byte := by
  obtain ⟨type, index, size⟩ := op
  cases type <;> exact nofun

/-- The block of its id is all that a request changes. -/
theorem TraceOp.moved_apply (request : op.type ≠ .free) :
    op.moved ids r = fun index => if index = op.index then (r, op.size) else ids index := by
  obtain ⟨type, index, size⟩ := op
  cases type with
  | free => exact absurd rfl request
  | alloc => rfl
  | realloc => rfl

/-- The driver fills exactly the new payload. -/
theorem TraceOp.filled_eq (request : op.type ≠ .free) :
    op.filled next r = { next with heap := { next.heap with
      mem := fillBytes next.heap.mem r op.size (UInt8.ofNat (fillByte op.index)) } } := by
  obtain ⟨type, index, size⟩ := op
  cases type with
  | free => exact absurd rfl request
  | alloc => rfl
  | realloc => rfl

/-- A request that is not a `free` allocates no other id than its own. -/
theorem TraceOp.mem_allocated (request : op.type ≠ .free) (member : index ∈ op.allocated allocated) :
    index = op.index ∨ index ∈ allocated := by
  obtain ⟨type, i, size⟩ := op
  cases type with
  | free => exact absurd rfl request
  | alloc => exact List.mem_cons.mp member
  | realloc => exact .inr member

/-- A payload as the allocator owes it passes the test of its range. -/
theorem testRange_passed {h : Heap γ} (packed : Packed live) (recorded : s.ranges = live.map extent)
    (positive : 0 < n) (aligned : p % 8 = 0) (inside : memHeapLo h ≤ p ∧ p + n - 1 ≤ memHeapHi h)
    (apart : ∀ other ∈ live, p + n ≤ other.1 ∨ other.1 + other.2 ≤ p) :
    testRange s h p n tracenum opnum = some (.ok (((p, n) :: live).map extent)) := by
  have word : memHeapHi h < 2 ^ 32 := Nat.mod_lt _ (by decide)
  -- The payload ends inside the heap, so its last byte is computed without wrapping.
  have final : last p n = p + n - 1 := last_eq positive (by omega)
  unfold testRange
  rw [addRange_passed positive aligned (by omega), final, recorded]
  · rfl
  · -- A live payload that shares no byte with the new one contains neither of its ends.
    intro q member
    obtain ⟨other, old, rfl⟩ := List.mem_map.mp (recorded ▸ member)
    have clear := apart other old
    have own := packed.sized other old
    refine meets_false.mpr ?_
    simp only [extent, final]
    omega

/-- A new payload is remembered, and the check still knows about all blocks. -/
theorem Agrees.remember (agrees : Agrees numIds w ids allocated s) (request : op.type ≠ .free)
    (valid : op.Valid numIds allocated) (serves : Serves A w ids op next r)
    (gained : next.live = (r, op.size) :: w.others (op.call ids)) (packed : Packed (w.others (op.call ids)))
    (stays : ∀ i ∈ allocated, i ≠ op.index → ids i ∈ w.others (op.call ids)) :
    ∃ s', remember s next.heap (next.live.map extent) op r = some s' ∧
      Agrees numIds (op.filled next r) (op.moved ids r) (op.allocated allocated) s' := by
  obtain ⟨positive, int⟩ := valid.size request
  have real := serves.real request
  have apart := serves.upholds.disjoint op.size (TraceOp.call_request ids request) real
  have kept := serves.upholds.preserved fun addr byte => TraceOp.call_ne_store addr byte
  -- The two arrays have an element for every id.
  have inRange : op.index < s.blocks.length ∧ op.index < s.blockSizes.length :=
    ⟨agrees.blocks ▸ valid.index, agrees.blockSizes ▸ valid.index⟩
  refine ⟨{ heap := (op.filled next r).heap, ranges := next.live.map extent
            blocks := s.blocks.set op.index r, blockSizes := s.blockSizes.set op.index op.size }, ?_, ?_⟩
  · unfold Driver.remember storeAt
    rw [Heap.memset_real real, if_pos inRange.1, if_pos inRange.2, TraceOp.filled_eq request]
    rfl
  · rw [TraceOp.filled_eq request, TraceOp.moved_apply request]
    -- The blocks of the other ids are among those that the request leaves alone.
    have old : ∀ i ∈ op.allocated allocated, i ≠ op.index → i ∈ allocated ∧ ids i ∈ w.others (op.call ids) := by
      intro i member other
      have before := (TraceOp.mem_allocated request member).resolve_left other
      exact ⟨before, stays i before other⟩
    -- Such a block is apart from the new one and not empty, so it begins elsewhere.
    have fresh : ∀ i ∈ op.allocated allocated, i ≠ op.index → (ids i).1 ≠ r := by
      intro i member other same
      have clear := apart (ids i) (old i member other).2
      have own := packed.sized (ids i) (old i member other).2
      omega
    refine ⟨rfl, rfl, ?_, ?_, ?_, ?_, ?_, ?_, ?_⟩
    · -- The new payload is apart from all others, which were apart from one another.
      show Packed next.live
      rw [gained]
      refine ⟨fun entry member => ?_, List.pairwise_cons.mpr ⟨apart, packed.apart⟩⟩
      rcases List.mem_cons.mp member with rfl | member
      · exact positive
      · exact packed.sized entry member
    · exact (List.length_set ..).trans agrees.blocks
    · exact (List.length_set ..).trans agrees.blockSizes
    · intro i member
      show _ ∈ next.live
      rw [gained]
      -- The id of the request has the new block; every other id has the one it had.
      by_cases here : i = op.index
      · simp [here]
      · simp [here, (old i member here).2]
    · intro i first j second same
      by_cases here : i = op.index <;> by_cases there : j = op.index
      · rw [here, there]
      · simp only [here, there, if_true, if_false] at same
        exact absurd same.symm (fresh j second there)
      · simp only [here, there, if_true, if_false] at same
        exact absurd same (fresh i first here)
      · simp only [here, there, if_false] at same
        exact agrees.distinct i (old i first here).1 j (old j second there).1 same
    · intro i member
      by_cases here : i = op.index
      · simp [here, inRange.1, inRange.2]
      · simp only [here, if_false]
        rw [List.getElem?_set_ne (Ne.symm here), List.getElem?_set_ne (Ne.symm here)]
        exact agrees.recorded i (old i member here).1
    · intro i member x lower upper
      by_cases here : i = op.index
      · simp only [here, if_true] at lower upper ⊢
        exact fillBytes_inside lower upper
      · -- Neither the allocator nor the driver has written into the block of another id.
        simp only [here, if_false] at lower upper
        have clear := apart (ids i) (old i member here).2
        show fillBytes next.heap.mem r op.size _ x = _
        rw [fillBytes_other (by omega), kept (ids i) (old i member here).2 x lower upper]
        exact agrees.filled i (old i member here).1 x lower upper

/-- The first byte of a payload compares equal with the filler only when the filler is below 128. -/
theorem signedChar_eq_iff {byte : UInt8} : signedChar byte = fillByte index ↔ byte.toNat = fillByte index ∧ fillByte index < 128 := by
  have small := byte.toNat_lt
  have mask : fillByte index = index % 256 := Nat.and_two_pow_sub_one_eq_mod index 8
  -- A byte from 128 on is read as a negative number, and no filler is negative.
  unfold signedChar
  split <;> omega

/-- A filled stretch passes the comparison when the filler is below 128. -/
theorem preserves_filled {h : Heap γ} (low : index % 256 < 128) (fits : p + n ≤ 2 ^ 32)
    (same : ∀ i < n, h.mem (p + i) = UInt8.ofNat (fillByte index)) : preserves h p index n = true := by
  have mask : fillByte index = index % 256 := Nat.and_two_pow_sub_one_eq_mod index 8
  refine List.all_eq_true.mpr fun i member => beq_iff_eq.mpr ?_
  have below := List.mem_range.mp member
  rw [add32_eq (by omega), same i below, signedChar_eq_iff, UInt8.toNat_ofNat']
  omega

/-- No memory passes the comparison when the filler is a negative `char`. -/
theorem preserves_negative {h : Heap γ} (high : ¬ index % 256 < 128) (positive : 0 < n) :
    preserves h p index n = false := by
  have mask : fillByte index = index % 256 := Nat.and_two_pow_sub_one_eq_mod index 8
  -- Already the first byte differs from the filler, whatever it is.
  refine List.all_eq_false.mpr ⟨0, List.mem_range.mpr positive, fun equal => ?_⟩
  have low := (signedChar_eq_iff.mp (beq_iff_eq.mp equal)).2
  omega

/-- A correct allocation passes the check. -/
theorem Agrees.alloc (agrees : Agrees numIds w ids allocated s) (type : op.type = .alloc)
    (valid : op.Valid numIds allocated) (serves : Serves A w ids op next r) :
    ∃ s', evalOp A tracenum opnum s op = some (.ok s') ∧
      Agrees numIds (op.filled next r) (op.moved ids r) (op.allocated allocated) s' := by
  have request : op.type ≠ .free := by simp [type]
  have call := TraceOp.call_of_alloc ids type
  have real := serves.real request
  obtain ⟨done, gained⟩ := call_malloc (call ▸ serves.returned) real
  have others : w.others (op.call ids) = w.live := by rw [call]; rfl
  obtain ⟨s', remembered, agrees'⟩ := agrees.remember request valid serves (others ▸ gained)
    (others ▸ agrees.packed) fun i member _ => others ▸ agrees.live i member
  -- The allocator owes exactly what the range test asks for.
  have passed : testRange s next.heap r op.size tracenum opnum = some (.ok (next.live.map extent)) := by
    rw [gained]
    have asks := TraceOp.call_request ids request
    exact testRange_passed agrees.packed agrees.ranges (valid.size request).1
      (serves.upholds.aligned _ asks real) (serves.upholds.inside _ asks real)
      (others ▸ serves.upholds.disjoint _ asks real)
  refine ⟨s', ?_, agrees'⟩
  -- The turn of the loop goes through malloc, range test and bookkeeping in this order.
  unfold evalOp
  simp only [type, agrees.heap, done, Option.bind_eq_bind, Option.bind_some, real, if_false, passed, remembered]
  rfl

/-- After a correct reallocation the check can go on with the new block of the id. -/
theorem Agrees.replace (agrees : Agrees numIds w ids allocated s) (type : op.type = .realloc)
    (valid : op.Valid numIds allocated) (serves : Serves A w ids op next r) :
    ∃ s', Driver.remember s next.heap (next.live.map extent) op r = some s' ∧
      Agrees numIds (op.filled next r) (op.moved ids r) (op.allocated allocated) s' := by
  have request : op.type ≠ .free := by simp [type]
  have known := valid.known (by simp [type])
  have call := TraceOp.call_of_realloc ids type
  have others : w.others (op.call ids) = dropLive w.live (ids op.index).1 := by rw [call]; rfl
  obtain ⟨_, gained⟩ := call_realloc (call ▸ serves.returned) (serves.real request)
  refine agrees.remember request valid serves (others ▸ gained) (others ▸ agrees.packed.drop) ?_
  -- Another allocated id has another pointer, so its block stays live.
  intro i member other
  rw [others]
  exact mem_dropLive.mpr ⟨agrees.live i member, fun same => other (agrees.distinct i member _ known same)⟩

/-- A correct reallocation passes the check exactly when the filler of its id is below 128. -/
theorem Agrees.realloc (agrees : Agrees numIds w ids allocated s) (type : op.type = .realloc)
    (valid : op.Valid numIds allocated) (serves : Serves A w ids op next r) :
    (op.index % 256 < 128 → ∃ s', evalOp A tracenum opnum s op = some (.ok s') ∧
      Agrees numIds (op.filled next r) (op.moved ids r) (op.allocated allocated) s') ∧
    (¬ op.index % 256 < 128 → ∃ report, evalOp A tracenum opnum s op = some (.error report)) := by
  have request : op.type ≠ .free := by simp [type]
  have known := valid.known (by simp [type])
  have call := TraceOp.call_of_realloc ids type
  have real := serves.real request
  obtain ⟨done, gained⟩ := call_realloc (call ▸ serves.returned) real
  obtain ⟨blocks, blockSizes⟩ := agrees.recorded op.index known
  have others : w.others (op.call ids) = dropLive w.live (ids op.index).1 := by rw [call]; rfl
  have asks := TraceOp.call_request ids request
  have inside := serves.upholds.inside _ asks real
  -- The record of the old block is removed before the new range is tested.
  have passed : testRange { s with heap := w.heap, ranges := removeRange s.ranges (ids op.index).1 } next.heap r
      op.size tracenum opnum = some (.ok (next.live.map extent)) := by
    rw [gained]
    refine testRange_passed agrees.packed.drop ?_ (valid.size request).1
      (serves.upholds.aligned _ asks real) inside (others ▸ serves.upholds.disjoint _ asks real)
    show removeRange s.ranges _ = _
    rw [agrees.ranges, agrees.packed.removeRange]
  -- The number of bytes that are compared is the smaller of the two sizes.
  have count : (if op.size < (ids op.index).2 then op.size else (ids op.index).2) =
      min (ids op.index).2 op.size := by split <;> omega
  -- A filler below 128 is the same as a character and as a byte.
  constructor
  · intro low
    obtain ⟨s', remembered, agrees'⟩ := agrees.replace type valid serves
    -- The old bytes were the filler, and the reallocation has kept them.
    have same : preserves next.heap r op.index (min (ids op.index).2 op.size) = true := by
      have word : memHeapHi next.heap < 2 ^ 32 := Nat.mod_lt _ (by decide)
      refine preserves_filled low (by omega) fun i below => ?_
      rw [serves.data type i below]
      exact agrees.filled _ known _ (by omega) (by omega)
    refine ⟨s', ?_, agrees'⟩
    unfold evalOp
    simp only [type, agrees.heap, blocks, done, Option.bind_eq_bind, Option.bind_some, real, if_false, passed,
      blockSizes, count, same]
    exact bind_step remembered rfl
  · -- A filler from 128 on is negative as a character, so no byte is equal to it.
    intro high
    -- The block and the request are not empty, so there is a first byte to compare.
    have sized := agrees.packed.sized _ (agrees.live _ known)
    have differs : preserves next.heap r op.index (min (ids op.index).2 op.size) = false :=
      preserves_negative high (by have positive := (valid.size request).1; omega)
    refine ⟨{ tracenum := tracenum, opnum := opnum, complaint := .notPreserved }, ?_⟩
    unfold evalOp
    simp only [type, agrees.heap, blocks, done, Option.bind_eq_bind, Option.bind_some, real, if_false, passed,
      blockSizes, count, differs, if_true]

/-- A correct `free` passes the check. -/
theorem Agrees.free (agrees : Agrees numIds w ids allocated s) (type : op.type = .free)
    (valid : op.Valid numIds allocated) (serves : Serves A w ids op next r) :
    ∃ s', evalOp A tracenum opnum s op = some (.ok s') ∧
      Agrees numIds (op.filled next r) (op.moved ids r) (op.allocated allocated) s' := by
  have known := valid.known (by simp [type])
  have call := TraceOp.call_of_free ids type
  obtain ⟨done, rest⟩ := call_free (call ▸ serves.returned)
  have others : w.others (op.call ids) = dropLive w.live (ids op.index).1 := by rw [call]; rfl
  have kept := serves.upholds.preserved fun addr byte => TraceOp.call_ne_store addr byte
  have moved := TraceOp.moved_of_free ids r type
  have filled : op.filled next r = next := by simp [TraceOp.filled, type]
  -- The blocks of the ids that stay allocated are still live.
  have stays : ∀ i ∈ op.allocated allocated, i ∈ allocated ∧ ids i ∈ dropLive w.live (ids op.index).1 := by
    intro i member
    obtain ⟨before, other⟩ : i ∈ allocated ∧ i ≠ op.index := by simpa [TraceOp.allocated, type] using member
    exact ⟨before, mem_dropLive.mpr
      ⟨agrees.live i before, fun same => other (agrees.distinct i before _ known same)⟩⟩
  refine ⟨{ s with heap := next.heap, ranges := removeRange s.ranges (ids op.index).1 }, ?_, ?_⟩
  · -- The pointer is the one that the driver has recorded.
    unfold evalOp
    simp only [type, agrees.heap, (agrees.recorded op.index known).1, done, Option.bind_eq_bind, Option.bind_some]
    rfl
  · rw [moved, filled]
    refine ⟨rfl, ?_, rest ▸ agrees.packed.drop, agrees.blocks, agrees.blockSizes,
      fun i member => rest ▸ (stays i member).2, ?_, fun i member => agrees.recorded i (stays i member).1, ?_⟩
    · -- The record that goes is that of the pointer that is no longer live.
      show removeRange s.ranges _ = _
      rw [agrees.ranges, agrees.packed.removeRange, rest]
    · -- Different ids have different blocks.
      exact fun i first j second => agrees.distinct i (stays i first).1 j (stays j second).1
    · -- The bytes of the other blocks are not touched.
      intro i member x lower upper
      rw [kept (ids i) (others ▸ (stays i member).2) x lower upper]
      exact agrees.filled i (stays i member).1 x lower upper

/-- The loop passes all requests when the fillers of reallocated ids are below 128; else it reports an error. -/
def Judged (A : Allocator γ) (tracenum opnum : Nat) (s : Session γ) (ops : List TraceOp) : Prop :=
  (∃ s', evalOps A tracenum opnum s ops = some (.ok s')) ∧
      (∀ op ∈ ops, op.type = .realloc → op.index % 256 < 128) ∨
    (∃ report, evalOps A tracenum opnum s ops = some (.error report)) ∧
      ∃ op ∈ ops, op.type = .realloc ∧ ¬ op.index % 256 < 128

/-- A request that passes leaves the verdict to the rest of the trace. -/
theorem Judged.cons {s' : Session γ} {ops : List TraceOp} (passed : evalOp A tracenum opnum s op = some (.ok s'))
    (low : op.type = .realloc → op.index % 256 < 128) (rest : Judged A tracenum (opnum + 1) s' ops) :
    Judged A tracenum opnum s (op :: ops) := by
  rcases rest with ⟨⟨last, done⟩, all⟩ | ⟨⟨report, done⟩, bad, member, which⟩
  · exact .inl ⟨⟨last, bind_step passed done⟩, List.forall_mem_cons.mpr ⟨low, all⟩⟩
  · exact .inr ⟨⟨report, bind_step passed done⟩, bad, List.mem_cons_of_mem _ member, which⟩

/-- A valid trace that a correct allocator serves is judged by the fillers of its reallocated ids alone. -/
theorem Agrees.judged {ops : List TraceOp} (agrees : Agrees numIds w ids allocated s)
    (valid : ValidOps numIds allocated ops) (correct : Correct A w ids ops) : Judged A tracenum opnum s ops := by
  induction ops generalizing w ids allocated s opnum with
  | nil => exact .inl ⟨⟨s, rfl⟩, by simp⟩
  | cons op ops ih =>
    obtain ⟨here, later⟩ := valid
    obtain ⟨next, r, serves, correct⟩ := correct
    -- Only a reallocation can be reported, and then the loop ends.
    cases type : op.type with
    -- The block of an allocation is always accepted.
    | alloc =>
      obtain ⟨s', passed, agrees'⟩ := agrees.alloc type here serves
      exact .cons passed (by simp [type]) (ih agrees' later correct)
    -- So is a free.
    | free =>
      obtain ⟨s', passed, agrees'⟩ := agrees.free type here serves
      exact .cons passed (by simp [type]) (ih agrees' later correct)
    | realloc =>
      obtain ⟨passes, fails⟩ := agrees.realloc type here serves
      by_cases low : op.index % 256 < 128
      · obtain ⟨s', passed, agrees'⟩ := passes low
        exact .cons passed (fun _ => low) (ih agrees' later correct)
      · obtain ⟨report, failed⟩ := fails low
        exact .inr ⟨⟨report, bind_step failed rfl⟩, op, List.mem_cons_self, type, low⟩

/-- Before the first request the check knows about no block. -/
theorem Agrees.start {trace : Trace} {h : Heap γ} {ids : Ids} (valid : trace.Valid) :
    Agrees trace.numIds { heap := h, live := [] } ids []
      { heap := h, ranges := [], blocks := trace.blocks, blockSizes := trace.blockSizes } where
  heap := rfl
  ranges := rfl
  packed := ⟨by simp, .nil⟩
  blocks := valid.blocks
  blockSizes := valid.blockSizes
  live := by simp
  distinct := by simp
  recorded := by simp
  filled := by simp

end MallocLab.Driver
