import MallocLab.Driver.Files

/-! What a verdict of the validity check of `mdriver.c` says about an allocator, whatever the allocator does. -/

namespace MallocLab.Driver

variable {γ : Type}

/-- The memory system has its area at `base`, and the break is inside it. -/
structure Within (base : Nat) (h : Heap γ) : Prop extends Over base h where
  low : base ≤ h.memBrk
  high : h.memBrk ≤ base + maxHeap

/-- The entry points keep the area and the break inside it; apart from that they may do anything. -/
structure Confined (A : Package γ) (base : Nat) : Prop where
  init : ∀ {h h' code}, Within base h → A.mmInit h = some (h', code) → Within base h'
  malloc : ∀ {h h' n p}, Within base h → A.mmMalloc h n = some (h', p) → Within base h'
  realloc : ∀ {h h' q n p}, Within base h → A.mmRealloc h q n = some (h', p) → Within base h'
  free : ∀ {h h' p}, Within base h → A.mmFree h p = some h' → Within base h'

/-- A payload contains a live one and more on both sides of it. -/
def Encloses (r n : Nat) (entry : Nat × Nat) : Prop := r < entry.1 ∧ entry.1 + entry.2 < r + n

/-- A new payload is aligned, inside the heap, and meets no live payload unless it encloses it. -/
structure Placeable (h : Heap γ) (live : List (Nat × Nat)) (r n : Nat) : Prop where
  aligned : r % 8 = 0
  inside : memHeapLo h ≤ r ∧ r + n ≤ h.memBrk
  apart : ∀ entry ∈ live, r + n ≤ entry.1 ∨ entry.1 + entry.2 ≤ r ∨ Encloses r n entry

/-- The filler of an id is what its new block begins with, and a `char` can be compared with it. -/
structure Kept (h : Heap γ) (index r n : Nat) : Prop where
  low : index % 256 < 128
  data : ∀ i < n, h.mem (r + i) = UInt8.ofNat (fillByte index)

/-- What a pass says about one request that returned `r`. -/
structure Approved (w : World γ) (ids : Ids) (op : TraceOp) (next : World γ) (r : Nat) : Prop where
  real : r ≠ null
  place : Placeable next.heap (w.others (op.call ids)) r op.size
  kept : op.type = .realloc → Kept next.heap op.index r (min (ids op.index).2 op.size)

/-- What is wrong with a new payload when the range test complains about it. -/
inductive Misplaced (h : Heap γ) (live : List (Nat × Nat)) (r n : Nat) : Complaint → Prop
  | misaligned (odd : r % 8 ≠ 0) : Misplaced h live r n (.misaligned r)
  | outside (out : ¬ (memHeapLo h ≤ r ∧ r + n ≤ h.memBrk)) :
    Misplaced h live r n (.outside r (last r n) (memHeapLo h) (memHeapHi h))
  | overlaps {entry : Nat × Nat} (member : entry ∈ live) (meet : r < entry.1 + entry.2 ∧ entry.1 < r + n)
      (notEnclosed : ¬ Encloses r n entry) :
    Misplaced h live r n (.overlaps r (r + n - 1) entry.1 (entry.1 + entry.2 - 1))

/-- What is wrong with one request that returned `r` when the check reports it. -/
inductive Fault (w : World γ) (ids : Ids) (op : TraceOp) (next : World γ) (r : Nat) : Complaint → Prop
  | refused (null_ : r = null) : Fault w ids op next r (refusal op.type)
  | misplaced {c : Complaint} (wrong : Misplaced next.heap (w.others (op.call ids)) r op.size c) :
    Fault w ids op next r c
  | lost (type : op.type = .realloc) (differs : ¬ Kept next.heap op.index r (min (ids op.index).2 op.size)) :
    Fault w ids op next r .notPreserved

/--
The verdict on the requests from number `opnum` on: none of them is reported, or the first one at fault is.

The driver fills each block in between.
-/
inductive Verdict (A : Allocator γ) (tracenum : Nat) :
    Nat → World γ → Ids → List TraceOp → Option Report → Prop
  | passed {opnum : Nat} {w : World γ} {ids : Ids} : Verdict A tracenum opnum w ids [] none
  | onward {opnum : Nat} {w next : World γ} {ids : Ids} {op : TraceOp} {ops : List TraceOp} {r : Nat}
      {verdict : Option Report} (returned : w.call A (op.call ids) = some (next, r))
      (approved : op.type ≠ .free → Approved w ids op next r)
      (rest : Verdict A tracenum (opnum + 1) (op.filled next r) (op.moved ids r) ops verdict) :
    Verdict A tracenum opnum w ids (op :: ops) verdict
  | blamed {opnum : Nat} {w next : World γ} {ids : Ids} {op : TraceOp} {ops : List TraceOp} {r : Nat} {c : Complaint}
      (returned : w.call A (op.call ids) = some (next, r)) (request : op.type ≠ .free)
      (fault : Fault w ids op next r c) :
    Verdict A tracenum opnum w ids (op :: ops) (some { tracenum := tracenum, opnum := opnum, complaint := c })

variable {A : Package γ} {w next : World γ} {ids : Ids} {s : Session γ} {op : TraceOp} {live : List (Nat × Nat)}
variable {h : Heap γ} {allocated : List Nat} {base numIds tracenum opnum r n index : Nat} {c : Complaint}

/-- What is wrong with a payload keeps it from being placeable. -/
theorem Misplaced.not_placeable (wrong : Misplaced h live r n c) : ¬ Placeable h live r n := by
  rintro ⟨aligned, inside, apart⟩
  cases wrong with
  | misaligned odd => exact odd aligned
  | outside out => exact out inside
  | overlaps member meet notEnclosed =>
    -- Two payloads that share a byte are neither before nor behind one another.
    rcases apart _ member with before | behind | encloses
    · omega
    · omega
    · exact notEnclosed encloses

/-- No request at fault is approved. -/
theorem Fault.not_approved (fault : Fault w ids op next r c) : ¬ Approved w ids op next r := by
  rintro ⟨real, place, kept⟩
  cases fault with
  | refused null_ => exact real null_
  | misplaced wrong => exact wrong.not_placeable place
  | lost type differs => exact differs (kept type)

/-- The comparison with the filler finds out whether the data have been kept. -/
theorem preserves_iff (fits : r + n ≤ 2 ^ 32) (positive : 0 < n) : preserves h r index n = true ↔ Kept h index r n := by
  constructor
  · -- Every turn of the loop has compared a byte with the filler.
    intro same
    have each : ∀ i < n, (h.mem (r + i)).toNat = fillByte index ∧ fillByte index < 128 := by
      intro i below
      have equal := List.all_eq_true.mp same i (List.mem_range.mpr below)
      rw [add32_eq (by omega)] at equal
      exact signedChar_eq_iff.mp (beq_iff_eq.mp equal)
    have mask : fillByte index = index % 256 := Nat.and_two_pow_sub_one_eq_mod index 8
    refine ⟨by have first := (each 0 positive).2; omega, fun i below => ?_⟩
    rw [← (each i below).1, UInt8.ofNat_toNat]
  · exact fun kept => preserves_filled kept.low fits kept.data

/-- The last byte of a heap is where it should be. -/
theorem Within.heapHi (within : Within base h) (real : Base base) : memHeapHi h = h.memBrk - 1 := by
  have low := within.low
  have high := within.high
  have fits := real.fits
  have nonzero : base ≠ 0 := real.real
  -- The break is above the start of the area, so it is not zero.
  unfold memHeapHi
  exact sub32_eq (by omega) (by omega)

/-- The range test passes the placeable payloads, and says of all others what is wrong with them. -/
theorem testRange_judged (real : Base base) (within : Within base h) (recorded : s.ranges = live.map extent)
    (sized : ∀ entry ∈ live, 0 < entry.2) (positive : 0 < n) (int : n < 2 ^ 31) (r tracenum opnum : Nat) :
    (∃ c, testRange s h r n tracenum opnum =
        some (.error { tracenum := tracenum, opnum := opnum, complaint := c }) ∧ Misplaced h live r n c) ∨
      testRange s h r n tracenum opnum = some (.ok (((r, n) :: live).map extent)) ∧ Placeable h live r n := by
  have top := within.heapHi real
  have fits := real.fits
  have nonzero : base ≠ 0 := real.real
  have room : maxHeap = 20971520 := rfl
  have low := within.low
  have high := within.high
  have lowest : memHeapLo h = base := within.start
  unfold testRange addRange
  simp only
  rw [if_neg (by omega)]
  split_ifs with odd out
  · exact .inl ⟨_, rfl, .misaligned odd⟩
  · -- A payload inside the heap ends where it should.
    refine .inl ⟨_, rfl, .outside fun inside => ?_⟩
    have final : last r n = r + n - 1 := last_eq positive (by omega)
    omega
  · have aligned : r % 8 = 0 := not_not.mp odd
    -- The heap is so small that a payload with both ends inside it does not wrap.
    have whole : r + n ≤ 2 ^ 32 := by
      by_contra wraps
      have below : last r n < r := last_lt (by omega) int (by omega)
      have value : last r n = r + n - 1 - 2 ^ 32 := by
        unfold last sub32 add32
        omega
      omega
    have final : last r n = r + n - 1 := last_eq positive whole
    rw [final] at out
    cases found : s.ranges.find? (meets r (last r n)) with
    | some q =>
      -- One of the two ends lies in the payload that the report names.
      obtain ⟨entry, member, rfl⟩ := List.mem_map.mp (recorded ▸ List.mem_of_find?_eq_some found)
      have own := sized entry member
      have meet := List.find?_some found
      simp only [meets, Bool.or_eq_true, Bool.and_eq_true, decide_eq_true_eq] at meet
      simp only [extent, final] at meet
      refine .inl ⟨.overlaps r (r + n - 1) entry.1 (entry.1 + entry.2 - 1), by rw [final]; rfl, .overlaps member ?_ ?_⟩
      · omega
      · rintro ⟨left, right⟩
        omega
    | none =>
      refine .inr ⟨?_, aligned, ⟨by omega, by omega⟩, fun entry member => ?_⟩
      · rw [final, recorded]
        rfl
      · -- Both ends lie outside a live payload, so the two are apart, or the new one goes beyond it on both sides.
        have own := sized entry member
        have clear := List.find?_eq_none.mp found (extent entry) (recorded ▸ List.mem_map_of_mem member)
        have ends := meets_false.mp (Bool.eq_false_iff.mpr clear)
        simp only [extent, final] at ends
        unfold Encloses
        omega

/-- What the check knows about the client's blocks when the allocator may do anything. -/
structure Knows (base numIds : Nat) (w : World γ) (ids : Ids) (allocated : List Nat) (s : Session γ) : Prop where
  heap : s.heap = w.heap
  within : Within base w.heap
  ranges : s.ranges = w.live.map extent
  sized : ∀ entry ∈ w.live, 0 < entry.2
  starts : (w.live.map Prod.fst).Nodup
  blocks : s.blocks.length = numIds
  blockSizes : s.blockSizes.length = numIds
  live : ∀ index ∈ allocated, ids index ∈ w.live
  distinct : ∀ i ∈ allocated, ∀ j ∈ allocated, (ids i).1 = (ids j).1 → i = j
  recorded : ∀ index ∈ allocated, s.blocks[index]? = some (ids index).1 ∧ s.blockSizes[index]? = some (ids index).2

/-- Removing the record of an address removes exactly the payload that starts there. -/
theorem removeRange_starts (starts : (live.map Prod.fst).Nodup) (r : Nat) :
    removeRange (live.map extent) r = (dropLive live r).map extent := by
  -- The list is searched from its front, and at most one payload starts at the address.
  induction live with
  | nil => rfl
  | cons entry live ih =>
    obtain ⟨fresh, starts⟩ := List.nodup_cons.mp starts
    by_cases here : entry.1 = r
    · -- No other payload starts there.
      have others : dropLive live r = live := List.filter_eq_self.mpr fun e member => bne_iff_ne.mpr fun same =>
        fresh (here.trans same.symm ▸ List.mem_map_of_mem member)
      have dropped : dropLive (entry :: live) r = dropLive live r := List.filter_cons_of_neg (by simp [here])
      rw [dropped, others]
      exact List.eraseP_cons_of_pos (by simp [extent, here])
    · have dropped : dropLive (entry :: live) r = entry :: dropLive live r :=
        List.filter_cons_of_pos (by simp [here])
      rw [dropped, List.map_cons, List.map_cons, ← ih starts]
      exact List.eraseP_cons_of_neg (by simp [extent, here])

/-- The blocks that an action leaves alone are some of the live ones. -/
theorem others_sublist (w : World γ) (c : Call) : (w.others c).Sublist w.live := by
  cases c with
  | malloc => exact List.Sublist.refl _
  | store => exact List.Sublist.refl _
  | free => exact List.filter_sublist
  | realloc => exact List.filter_sublist

/-- A request keeps the break inside the area. -/
theorem Confined.call (confined : Confined A base) (within : Within base w.heap)
    (returned : w.call A.toAllocator (op.call ids) = some (next, r)) : Within base next.heap := by
  -- Each type of request is one call of the allocator.
  obtain ⟨type, index, size⟩ := op
  cases type with
  | alloc => exact confined.malloc within (mmMalloc_of_call returned)
  | realloc => exact confined.realloc within (mmRealloc_of_call returned)
  | free => exact confined.free within (call_free returned).1

/-- An approved block is remembered, and the check still knows about all blocks. -/
theorem Knows.remember (knows : Knows base numIds w ids allocated s) (request : op.type ≠ .free)
    (valid : op.Valid numIds allocated) (within : Within base next.heap) (nonnull : r ≠ null)
    (place : Placeable next.heap (w.others (op.call ids)) r op.size)
    (gained : next.live = (r, op.size) :: w.others (op.call ids))
    (stays : ∀ i ∈ allocated, i ≠ op.index → ids i ∈ w.others (op.call ids)) :
    ∃ s', remember s next.heap (next.live.map extent) op r = some s' ∧
      Knows base numIds (op.filled next r) (op.moved ids r) (op.allocated allocated) s' := by
  have positive := (valid.size request).1
  have fewer := others_sublist w (op.call ids)
  have inRange : op.index < s.blocks.length ∧ op.index < s.blockSizes.length :=
    ⟨knows.blocks ▸ valid.index, knows.blockSizes ▸ valid.index⟩
  -- Not even a payload that encloses a live one starts where that one does.
  have fresh : ∀ entry ∈ w.others (op.call ids), entry.1 ≠ r := by
    intro entry member same
    have own := knows.sized entry (fewer.subset member)
    rcases place.apart entry member with before | behind | ⟨left, _⟩ <;> omega
  refine ⟨{ heap := (op.filled next r).heap, ranges := next.live.map extent
            blocks := s.blocks.set op.index r, blockSizes := s.blockSizes.set op.index op.size }, ?_, ?_⟩
  · -- The byte writes and the two stores are inside the arrays.
    unfold Driver.remember storeAt
    rw [Heap.memset_real nonnull, if_pos inRange.1, if_pos inRange.2, TraceOp.filled_eq request]
    rfl
  · rw [TraceOp.filled_eq request, TraceOp.moved_apply request]
    -- The blocks of the other ids are among those that the request leaves alone.
    have old : ∀ i ∈ op.allocated allocated, i ≠ op.index → i ∈ allocated ∧ ids i ∈ w.others (op.call ids) := by
      intro i member other
      have before := (TraceOp.mem_allocated request member).resolve_left other
      exact ⟨before, stays i before other⟩
    constructor
    case heap => rfl
    case within => exact ⟨⟨within.start, within.limit⟩, within.low, within.high⟩
    case ranges => rfl
    case blocks => exact (List.length_set ..).trans knows.blocks
    case blockSizes => exact (List.length_set ..).trans knows.blockSizes
    case sized =>
      intro entry member
      -- The new block is as large as the request, which is not zero.
      rcases List.mem_cons.mp (gained ▸ member : entry ∈ (r, op.size) :: w.others (op.call ids)) with rfl | member
      · exact positive
      · exact knows.sized entry (fewer.subset member)
    case starts =>
      -- No other live block starts at the new one.
      show (next.live.map Prod.fst).Nodup
      rw [gained, List.map_cons]
      refine List.nodup_cons.mpr ⟨fun member => ?_, knows.starts.sublist (fewer.map Prod.fst)⟩
      obtain ⟨entry, member, same⟩ := List.mem_map.mp member
      exact fresh entry member same
    case live =>
      intro i member
      show _ ∈ next.live
      rw [gained]
      -- The id of the request has the new block; every other id has the one it had.
      by_cases here : i = op.index
      · simp [here]
      · simp [here, (old i member here).2]
    case distinct =>
      intro i first j second same
      by_cases here : i = op.index <;> by_cases there : j = op.index
      · -- It is the same id.
        rw [here, there]
      · -- No old block starts where the new one does.
        simp only [here, there, if_true, if_false] at same
        exact absurd same.symm (fresh _ (old j second there).2)
      · simp only [here, there, if_true, if_false] at same
        exact absurd same (fresh _ (old i first here).2)
      · -- Both blocks are old ones.
        simp only [here, there, if_false] at same
        exact knows.distinct i (old i first here).1 j (old j second there).1 same
    case recorded =>
      intro i member
      -- What is recorded for the id is what the request has just stored.
      by_cases here : i = op.index
      · simp [here, inRange.1, inRange.2]
      · -- The records of the other ids are not touched.
        simp only [here, if_false]
        rw [List.getElem?_set_ne (Ne.symm here), List.getElem?_set_ne (Ne.symm here)]
        exact knows.recorded i (old i member here).1

/-- The check reports a request at fault, and goes on after any other. -/
def Judges (base numIds tracenum opnum : Nat) (w : World γ) (ids : Ids) (op : TraceOp) (next : World γ)
    (r : Nat) (allocated : List Nat) (result : Option (Except Report (Session γ))) : Prop :=
  (∃ c, result = some (.error { tracenum := tracenum, opnum := opnum, complaint := c }) ∧ op.type ≠ .free ∧
      Fault w ids op next r c) ∨
    ∃ s', result = some (.ok s') ∧ (op.type ≠ .free → Approved w ids op next r) ∧
      Knows base numIds (op.filled next r) (op.moved ids r) (op.allocated allocated) s'

/-- An allocation is reported when it is refused or its block is misplaced. -/
theorem Knows.alloc (real : Base base) (confined : Confined A base) (knows : Knows base numIds w ids allocated s)
    (type : op.type = .alloc) (valid : op.Valid numIds allocated)
    (returned : w.call A.toAllocator (op.call ids) = some (next, r)) :
    Judges base numIds tracenum opnum w ids op next r allocated (evalOp A.toAllocator tracenum opnum s op) := by
  have request : op.type ≠ .free := by simp [type]
  have call := TraceOp.call_of_alloc ids type
  have others : w.others (op.call ids) = w.live := by rw [call]; rfl
  have within := confined.call knows.within returned
  have done := mmMalloc_of_call (call ▸ returned)
  obtain ⟨positive, int⟩ := valid.size request
  unfold evalOp
  simp only [type, knows.heap, done, Option.bind_eq_bind, Option.bind_some]
  by_cases nonnull : r = null
  · -- The message for a refused allocation is that of its type.
    have message : refusal op.type = .mallocFailed := by rw [type]; rfl
    exact .inl ⟨_, if_pos nonnull, request, message ▸ .refused nonnull⟩
  · -- The payload is real, and so it is live in the next state.
    rw [if_neg nonnull]
    have gained : next.live = (r, op.size) :: w.others (op.call ids) :=
      others ▸ (call_malloc (call ▸ returned) nonnull).2
    rcases testRange_judged real within knows.ranges knows.sized positive int r tracenum opnum
      with ⟨c, failed, wrong⟩ | ⟨passed, place⟩
    · -- The range test has found something wrong with it.
      simp only [failed, Option.bind_some]
      exact .inl ⟨c, rfl, request, .misplaced (others ▸ wrong)⟩
    · -- The payload passes, so it is filled and remembered.
      obtain ⟨s', remembered, knows'⟩ := knows.remember request valid within nonnull (others ▸ place) gained
        fun i member _ => others ▸ knows.live i member
      refine .inr ⟨s', ?_, fun _ => ⟨nonnull, others ▸ place, by simp [type]⟩, knows'⟩
      rw [gained, others] at remembered
      simp only [passed, Option.bind_some, remembered]
      rfl

/-- A reallocation is reported for these reasons, too, or because the data have been lost. -/
theorem Knows.realloc (real : Base base) (confined : Confined A base) (knows : Knows base numIds w ids allocated s)
    (type : op.type = .realloc) (valid : op.Valid numIds allocated)
    (returned : w.call A.toAllocator (op.call ids) = some (next, r)) :
    Judges base numIds tracenum opnum w ids op next r allocated (evalOp A.toAllocator tracenum opnum s op) := by
  have request : op.type ≠ .free := by simp [type]
  have known := valid.known (by simp [type])
  have call := TraceOp.call_of_realloc ids type
  have others : w.others (op.call ids) = dropLive w.live (ids op.index).1 := by rw [call]; rfl
  have within := confined.call knows.within returned
  have done := mmRealloc_of_call (call ▸ returned)
  obtain ⟨positive, int⟩ := valid.size request
  obtain ⟨blocks, blockSizes⟩ := knows.recorded op.index known
  unfold evalOp
  simp only [type, knows.heap, blocks, done, Option.bind_eq_bind, Option.bind_some]
  by_cases nonnull : r = null
  · -- The message for a refused reallocation is that of its type.
    have message : refusal op.type = .reallocFailed := by rw [type]; rfl
    exact .inl ⟨_, if_pos nonnull, request, message ▸ .refused nonnull⟩
  · rw [if_neg nonnull]
    have gained : next.live = (r, op.size) :: w.others (op.call ids) :=
      others ▸ (call_realloc (call ▸ returned) nonnull).2
    -- The record of the old block is gone when the new block is tested.
    have recorded : removeRange s.ranges (ids op.index).1 = (w.others (op.call ids)).map extent := by
      rw [knows.ranges, removeRange_starts knows.starts, others]
    have sized : ∀ entry ∈ w.others (op.call ids), 0 < entry.2 := fun entry member =>
      knows.sized entry ((others_sublist w _).subset member)
    rcases testRange_judged (s := { s with heap := w.heap, ranges := removeRange s.ranges (ids op.index).1 }) real
      within recorded sized positive int r tracenum opnum with ⟨c, failed, wrong⟩ | ⟨passed, place⟩
    · -- The block is misplaced, and its contents are not looked at.
      simp only [failed, Option.bind_some]
      exact .inl ⟨c, rfl, request, .misplaced wrong⟩
    · simp only [passed, blockSizes, Option.bind_some]
      have count : (if op.size < (ids op.index).2 then op.size else (ids op.index).2) =
          min (ids op.index).2 op.size := by split <;> omega
      rw [count]
      -- Neither block is empty, so there is a byte to compare, and the new one does not wrap.
      have old := knows.sized _ (knows.live _ known)
      have inside := place.inside.2.trans within.high
      have fits := real.fits
      have compared : preserves next.heap r op.index (min (ids op.index).2 op.size) = true ↔
          Kept next.heap op.index r (min (ids op.index).2 op.size) := preserves_iff (by omega) (by omega)
      -- The data has been kept, so the driver goes on.
      by_cases kept : Kept next.heap op.index r (min (ids op.index).2 op.size)
      · have stays : ∀ i ∈ allocated, i ≠ op.index → ids i ∈ w.others (op.call ids) := fun i member other =>
          others ▸ mem_dropLive.mpr ⟨knows.live i member, fun same => other (knows.distinct i member _ known same)⟩
        obtain ⟨s', remembered, knows'⟩ := knows.remember request valid within nonnull place gained stays
        refine .inr ⟨s', ?_, fun _ => ⟨nonnull, place, fun _ => kept⟩, knows'⟩
        rw [gained] at remembered
        rw [if_neg (by rw [compared.mpr kept]; decide)]
        exact bind_step remembered rfl
      · -- A byte is lost, and that is what is reported.
        refine .inl ⟨_, if_pos (Bool.eq_false_iff.mpr fun same => kept (compared.mp same)), request, .lost type kept⟩

/-- A request to free a block is never reported. -/
theorem Knows.free (confined : Confined A base) (knows : Knows base numIds w ids allocated s)
    (type : op.type = .free) (valid : op.Valid numIds allocated)
    (returned : w.call A.toAllocator (op.call ids) = some (next, r)) :
    Judges base numIds tracenum opnum w ids op next r allocated (evalOp A.toAllocator tracenum opnum s op) := by
  have known := valid.known (by simp [type])
  have call := TraceOp.call_of_free ids type
  have within := confined.call knows.within returned
  obtain ⟨done, rest⟩ := call_free (call ▸ returned)
  have moved := TraceOp.moved_of_free ids r type
  have filled : op.filled next r = next := by simp [TraceOp.filled, type]
  -- The blocks of the ids that stay allocated are still live.
  have stays : ∀ i ∈ op.allocated allocated, i ∈ allocated ∧ ids i ∈ dropLive w.live (ids op.index).1 := by
    intro i member
    obtain ⟨before, other⟩ : i ∈ allocated ∧ i ≠ op.index := by simpa [TraceOp.allocated, type] using member
    exact ⟨before, mem_dropLive.mpr ⟨knows.live i before, fun same => other (knows.distinct i before _ known same)⟩⟩
  refine .inr ⟨{ s with heap := next.heap, ranges := removeRange s.ranges (ids op.index).1 }, ?_,
    fun request => absurd type request, ?_⟩
  · -- The old pointer is the one that the driver has remembered.
    unfold evalOp
    simp only [type, knows.heap, (knows.recorded op.index known).1, done, Option.bind_eq_bind, Option.bind_some]
    rfl
  · -- The ids that stay are recorded as before.
    rw [moved, filled]
    refine ⟨rfl, within, ?_, fun entry member => ?_, ?_, knows.blocks, knows.blockSizes,
      fun i member => rest ▸ (stays i member).2, ?_, fun i member => knows.recorded i (stays i member).1⟩
    · show removeRange s.ranges _ = _
      rw [knows.ranges, removeRange_starts knows.starts, rest]
    · -- The blocks that stay are not empty.
      exact knows.sized entry (mem_dropLive.mp (rest ▸ member)).1
    · -- They still start at different addresses.
      rw [rest]
      exact knows.starts.sublist (List.filter_sublist.map Prod.fst)
    · exact fun i first j second => knows.distinct i (stays i first).1 j (stays j second).1

/-- The check judges every valid request for which the allocator returns. -/
theorem Knows.judges (real : Base base) (confined : Confined A base) (knows : Knows base numIds w ids allocated s)
    (valid : op.Valid numIds allocated) (returned : w.call A.toAllocator (op.call ids) = some (next, r))
    (tracenum opnum : Nat) :
    Judges base numIds tracenum opnum w ids op next r allocated (evalOp A.toAllocator tracenum opnum s op) := by
  cases type : op.type with
  | alloc => exact knows.alloc real confined type valid returned
  | realloc => exact knows.realloc real confined type valid returned
  | free => exact knows.free confined type valid returned

/-- A call of the client that has no result is a call of the allocator that has none. -/
theorem mmMalloc_stuck (stuck : w.call A.toAllocator (.malloc n) = none) : A.mmMalloc w.heap n = none := by
  cases done : A.mmMalloc w.heap n with
  | none => rfl
  | some result => by_cases refused : result.2 = null <;> simp [World.call, done, refused] at stuck

/-- A reallocation that does not return for the client does not return at all. -/
theorem mmRealloc_stuck {q : Nat} (stuck : w.call A.toAllocator (.realloc q n) = none) :
    A.mmRealloc w.heap q n = none := by
  cases done : A.mmRealloc w.heap q n with
  | none => rfl
  | some result => by_cases refused : result.2 = null <;> simp [World.call, done, refused] at stuck

/-- Neither does a call of `mm_free`. -/
theorem mmFree_stuck {q : Nat} (stuck : w.call A.toAllocator (.free q) = none) : A.mmFree w.heap q = none := by
  cases done : A.mmFree w.heap q with
  | none => rfl
  | some h => simp [World.call, done] at stuck

/-- The check does not return when the allocator does not. -/
theorem Knows.stuck (knows : Knows base numIds w ids allocated s) (valid : op.Valid numIds allocated)
    (stuck : w.call A.toAllocator (op.call ids) = none) : evalOp A.toAllocator tracenum opnum s op = none := by
  obtain ⟨type, index, size⟩ := op
  unfold evalOp
  cases type with
  -- `mm_malloc` does not return, and nothing is done before it.
  | alloc =>
    simp only [knows.heap, mmMalloc_stuck stuck]
    rfl
  | realloc =>
    -- The driver finds the old block in its array before it calls the allocator.
    have blocks := (knows.recorded index (valid.known (by simp))).1
    simp only [knows.heap, blocks, Option.bind_eq_bind, Option.bind_some, mmRealloc_stuck stuck]
    rfl
  -- `mm_free` gets the block that the driver finds in its array.
  | free =>
    have blocks := (knows.recorded index (valid.known (by simp))).1
    simp only [knows.heap, blocks, Option.bind_eq_bind, Option.bind_some, mmFree_stuck stuck]
    rfl

/-- A pass says that the next request is in order, and that the rest passes. -/
theorem Verdict.passed_cons {A : Allocator γ} {ops : List TraceOp}
    (verdict : Verdict A tracenum opnum w ids (op :: ops) none)
    (returned : w.call A (op.call ids) = some (next, r)) :
    (op.type ≠ .free → Approved w ids op next r) ∧
      Verdict A tracenum (opnum + 1) (op.filled next r) (op.moved ids r) ops none := by
  cases verdict with
  | onward returned' approved rest =>
    -- The call has only one result.
    rw [returned] at returned'
    obtain ⟨rfl, rfl⟩ := Prod.mk.inj (Option.some.inj returned')
    exact ⟨approved, rest⟩

/-- The loop ends with the verdict on the requests, and it passes them whenever that is the verdict. -/
theorem Knows.verdict {ops : List TraceOp} (real : Base base) (confined : Confined A base)
    (knows : Knows base numIds w ids allocated s) (valid : ValidOps numIds allocated ops) :
    (∀ report, evalOps A.toAllocator tracenum opnum s ops = some (.error report) →
        Verdict A.toAllocator tracenum opnum w ids ops (some report)) ∧
      ((∃ s', evalOps A.toAllocator tracenum opnum s ops = some (.ok s')) ↔
        Verdict A.toAllocator tracenum opnum w ids ops none) := by
  -- What the check knows holds before every request that the loop reaches.
  induction ops generalizing w ids allocated s opnum with
  | nil => exact ⟨by simp [evalOps], fun _ => .passed, fun _ => ⟨s, rfl⟩⟩
  | cons op ops ih =>
    cases returned : w.call A.toAllocator (op.call ids) with
    | none =>
      -- Neither the check nor the requests go on from here.
      have stuck : evalOps A.toAllocator tracenum opnum s (op :: ops) = none := by
        simp [evalOps, knows.stuck valid.1 returned]
      rw [stuck]
      refine ⟨by simp, by simp, fun verdict => ?_⟩
      cases verdict with
      | onward returned' => simp [returned] at returned'
    | some result =>
      obtain ⟨next, r⟩ := result
      rcases knows.judges real confined valid.1 returned tracenum opnum
        with ⟨c, failed, request, fault⟩ | ⟨s', passed, approved, knows'⟩
      · have ends : evalOps A.toAllocator tracenum opnum s (op :: ops) =
            some (.error { tracenum := tracenum, opnum := opnum, complaint := c }) := bind_step failed rfl
        rw [ends]
        -- The loop stops here, and so does the verdict: the request is not in order.
        refine ⟨fun report same => ?_, by simp, fun verdict => ?_⟩
        · obtain rfl := Except.error.inj (Option.some.inj same)
          exact .blamed returned request fault
        · exact absurd ((verdict.passed_cons returned).1 request) fault.not_approved
      · have goes : evalOps A.toAllocator tracenum opnum s (op :: ops) =
            evalOps A.toAllocator tracenum (opnum + 1) s' ops := bind_step passed rfl
        rw [goes]
        -- The request is in order, so the rest decides.
        have later : (∀ report, evalOps A.toAllocator tracenum (opnum + 1) s' ops = some (.error report) → _) ∧ _ :=
          ih knows' valid.2
        obtain ⟨blames, passes⟩ := later
        exact ⟨fun report failed => .onward returned approved (blames report failed),
          fun done => .onward returned approved (passes.mp done),
          fun verdict => passes.mpr (verdict.passed_cons returned).2⟩

/-- The verdict on an allocator file: its initialization is reported, or the requests of the trace are judged. -/
def Judgement (A : Package γ) (h : Heap γ) (trace : Trace) (tracenum : Nat) (verdict : Option Report) : Prop :=
  ∃ h' code, A.mmInit (memResetBrk h) = some (h', code) ∧
    (code < 0 ∧ verdict = some { tracenum := tracenum, opnum := 0, complaint := .initFailed } ∨
      0 ≤ code ∧ Verdict A.toAllocator tracenum 0 { heap := h', live := [] } (fun _ => (0, 0)) trace.ops verdict)

variable {h' : Heap γ} {code : Int} {trace : Trace} {verdict : Option Report}

/-- A failed initialization is all that is judged. -/
theorem judgement_failed (init : A.mmInit (memResetBrk h) = some (h', code)) (negative : code < 0) :
    Judgement A h trace tracenum verdict ↔
      verdict = some { tracenum := tracenum, opnum := 0, complaint := .initFailed } := by
  constructor
  · rintro ⟨h₁, code₁, done, ⟨_, same⟩ | ⟨positive, _⟩⟩
    · exact same
    · rw [init] at done
      obtain ⟨rfl, rfl⟩ := Prod.mk.inj (Option.some.inj done)
      omega
  · exact fun same => ⟨h', code, init, .inl ⟨negative, same⟩⟩

/-- After any other initialization the requests are judged. -/
theorem judgement_started (init : A.mmInit (memResetBrk h) = some (h', code)) (started : ¬ code < 0) :
    Judgement A h trace tracenum verdict ↔
      Verdict A.toAllocator tracenum 0 { heap := h', live := [] } (fun _ => (0, 0)) trace.ops verdict := by
  constructor
  · rintro ⟨h₁, code₁, done, ⟨negative, _⟩ | ⟨_, judged⟩⟩ <;> rw [init] at done
    · obtain ⟨rfl, rfl⟩ := Prod.mk.inj (Option.some.inj done)
      exact absurd negative started
    · obtain ⟨rfl, rfl⟩ := Prod.mk.inj (Option.some.inj done)
      exact judged
  · exact fun judged => ⟨h', code, init, .inr ⟨not_lt.mp started, judged⟩⟩

/-- Before the first request the check knows that nothing is allocated. -/
theorem Knows.start (within : Within base h) (valid : trace.Valid) :
    Knows base trace.numIds { heap := h, live := [] } (fun _ => (0, 0)) []
      { heap := h, ranges := [], blocks := trace.blocks, blockSizes := trace.blockSizes } where
  heap := rfl
  within := within
  ranges := rfl
  sized := by simp
  starts := List.nodup_nil
  blocks := valid.blocks
  blockSizes := valid.blockSizes
  live := by simp
  distinct := by simp
  recorded := by simp

/-- Resetting the break puts it at the start of the area. -/
theorem Over.within_reset (area : Over base h) : Within base (memResetBrk h) where
  start := area.start
  limit := area.limit
  low := Nat.le_of_eq area.start.symm
  high := (Nat.le_of_eq area.start).trans (Nat.le_add_right _ _)

/--
The validity check is right about every allocator that keeps the break inside the area.

It passes the file exactly when no request is at fault, and what it reports is true of the request it names.
It does not see a payload that encloses a live one, nor damage to a block that is not reallocated later.
-/
theorem driver_verdict (real : Base base) (confined : Confined A base) (area : Over base h)
    (valid : trace.Valid) (tracenum : Nat) :
    (evalMmValid A h trace tracenum = some (1, []) ↔ Judgement A h trace tracenum none) ∧
      ∀ v reports, evalMmValid A h trace tracenum = some (v, reports) →
        v = 1 ∧ reports = [] ∨ ∃ report, v = 0 ∧ reports = [report] ∧ Judgement A h trace tracenum (some report) := by
  cases init : A.mmInit (memResetBrk h) with
  -- `mm_init` does not return, so there is no verdict at all.
  | none =>
    have stuck : evalMmValid A h trace tracenum = none := by simp [evalMmValid, init]
    rw [stuck]
    refine ⟨iff_of_false (by simp) ?_, by simp⟩
    rintro ⟨h', code, done, _⟩
    simp [init] at done
  | some result =>
    obtain ⟨h', code⟩ := result
    -- A negative code is reported, and no request is made.
    by_cases negative : code < 0
    · have failed : evalMmValid A h trace tracenum =
          some (0, [{ tracenum := tracenum, opnum := 0, complaint := .initFailed }]) :=
        bind_step init (if_pos negative)
      rw [failed]
      refine ⟨iff_of_false (by simp) (by simp [judgement_failed init negative]), fun v reports same => ?_⟩
      obtain ⟨rfl, rfl⟩ := Prod.mk.inj (Option.some.inj same)
      exact .inr ⟨_, rfl, rfl, (judgement_failed init negative).mpr rfl⟩
    · -- From here on the verdict is that on the requests of the trace.
      have within := confined.init area.within_reset init
      have looped : (∀ report, evalOps A.toAllocator tracenum 0
          { heap := h', ranges := [], blocks := trace.blocks, blockSizes := trace.blockSizes } trace.ops =
            some (.error report) → _) ∧ _ := (Knows.start within valid).verdict real confined valid.ops
      obtain ⟨blames, passes⟩ := looped
      rw [judgement_started init negative, ← passes]
      unfold evalMmValid
      simp only [init, Option.bind_eq_bind, Option.bind_some, negative, if_false]
      -- The loop never comes to an end, or it reports a request, or it gets through the trace.
      cases ended : evalOps A.toAllocator tracenum 0
          { heap := h', ranges := [], blocks := trace.blocks, blockSizes := trace.blockSizes } trace.ops with
      | none => exact ⟨iff_of_false (by simp) (by simp), by simp⟩
      | some result =>
        cases result with
        -- The report is the one that the judgement names.
        | error report =>
          refine ⟨iff_of_false (by simp) (by simp), fun v reports same => ?_⟩
          obtain ⟨rfl, rfl⟩ := Prod.mk.inj (Option.some.inj same)
          exact .inr ⟨report, rfl, rfl, (judgement_started init negative).mpr (blames report ended)⟩
        -- No request is reported.
        | ok s' =>
          refine ⟨iff_of_true rfl ⟨s', rfl⟩, fun v reports same => ?_⟩
          obtain ⟨rfl, rfl⟩ := Prod.mk.inj (Option.some.inj same)
          exact .inl ⟨rfl, rfl⟩

/-- In an area this low `mem_sbrk` never wraps, so the break stays inside. -/
theorem memSbrk_within {size : Nat} (within : Within base h) (low : base + maxHeap ≤ 2 ^ 31) (word : size < 2 ^ 32) :
    Within base (memSbrk h (toInt32 size)).1 := by
  have start := within.start
  have limit := within.limit
  have above := within.low
  have below := within.high
  rw [add32_eq (by omega)] at limit
  unfold memSbrk
  simp only
  split_ifs with refused
  · -- A refused request leaves the break where it is.
    exact within
  · -- The request is not negative, and the new break is below the limit.
    obtain ⟨positive, room⟩ := not_or.mp refused
    have small : size < 2 ^ 31 := by
      unfold toInt32 at positive
      split at positive <;> omega
    have sum : ofInt32 ((h.memBrk : Int) + toInt32 size) = h.memBrk + size := by
      rw [toInt32_eq small]
      unfold ofInt32
      omega
    rw [sum] at room ⊢
    exact ⟨⟨start, within.limit⟩, show base ≤ h.memBrk + size by omega, show h.memBrk + size ≤ base + maxHeap by omega⟩

/-- Copying writes into memory only. -/
theorem memcpy_within {h' : Heap γ} {dst src : Nat} (within : Within base h) (copied : h.memcpy dst src n = some h') :
    Within base h' := by
  unfold Heap.memcpy at copied
  split at copied
  · simp at copied
  · obtain rfl := Option.some.inj copied
    exact ⟨⟨within.start, within.limit⟩, within.low, within.high⟩

/-- So the file that only moves the break keeps it inside. -/
theorem naive_confined (low : base + maxHeap ≤ 2 ^ 31) : Confined naivePackage base := by
  have malloc : ∀ {h h' : Heap Unit} {n p}, Within base h → Naive.mmMalloc h n = some (h', p) → Within base h' := by
    intro h h' n p within done
    -- The argument of `mem_sbrk` has been masked by `ALIGN`.
    have word : align (add32 n sizeTSize) < 2 ^ 32 := (Nat.and_le_right.trans_lt (by decide))
    have moved := memSbrk_within within low word
    unfold Naive.mmMalloc at done
    simp only at done
    -- The heap is the one that `mem_sbrk` leaves.
    split at done
    · obtain ⟨rfl, _⟩ := Prod.mk.inj (Option.some.inj done)
      exact moved
    · -- The size is stored in front of the payload, which moves no border.
      obtain ⟨rfl, _⟩ := Prod.mk.inj (Option.some.inj done)
      exact ⟨⟨moved.start, moved.limit⟩, moved.low, moved.high⟩
  constructor
  · -- `mm_init` does nothing.
    rintro h h' code within done
    obtain ⟨rfl, _⟩ := Prod.mk.inj (Option.some.inj done)
    exact within
  · exact malloc
  · -- `mm_realloc` allocates, copies and frees, and only the first of these moves the break.
    rintro h h' q n p within done
    obtain ⟨⟨h₁, newptr⟩, first, done⟩ := Option.bind_eq_some_iff.mp done
    have within₁ := malloc within first
    by_cases refused : newptr = null
    · -- The request is refused.
      obtain ⟨rfl, _⟩ := Prod.mk.inj (Option.some.inj ((if_pos refused).symm.trans done))
      exact within₁
    · simp only [refused, if_false] at done
      obtain ⟨h₂, copied, done⟩ := Option.bind_eq_some_iff.mp done
      obtain ⟨h₃, freed, done⟩ := Option.bind_eq_some_iff.mp done
      obtain ⟨rfl, _⟩ := Prod.mk.inj (Option.some.inj done)
      obtain rfl := Option.some.inj freed
      exact memcpy_within within₁ copied
  · -- `mm_free` does nothing.
    rintro h h' p within done
    obtain rfl := Option.some.inj done
    exact within

/-- The verdict on `naive.c` for the small trace with id 128. -/
theorem driver_verdict_sample :
    (evalMmValid naivePackage (emptyArea ()) (sampleTrace 128) 0 = some (1, []) ↔
        Judgement naivePackage (emptyArea ()) (sampleTrace 128) 0 none) ∧
      ∀ v reports, evalMmValid naivePackage (emptyArea ()) (sampleTrace 128) 0 = some (v, reports) →
        v = 1 ∧ reports = [] ∨ ∃ report, v = 0 ∧ reports = [report] ∧
          Judgement naivePackage (emptyArea ()) (sampleTrace 128) 0 (some report) :=
  driver_verdict base_eight (naive_confined (by decide)) (over_emptyArea ()) (sampleTrace_valid 128) 0

end MallocLab.Driver
