import MallocLab.Machine.Macros

/-! The range list of `mdriver.c`, which keeps track of the extent of every allocated payload. -/

namespace MallocLab.Driver

/-- A record of the list: the first and the last byte of a payload. -/
structure Range where
  lo : Nat
  hi : Nat
deriving DecidableEq, Repr

/-- What the driver finds wrong with an allocator. -/
inductive Complaint
  | initFailed
  | mallocFailed
  | reallocFailed
  | misaligned (lo : Nat)
  | outside (lo hi heapLo heapHi : Nat)
  | overlaps (lo hi otherLo otherHi : Nat)
  | notPreserved
deriving DecidableEq, Repr

/-- The message of a complaint: a format of `sprintf`, and what stands in its place holders. -/
def Complaint.message : Complaint → String × List Nat
  | .initFailed => ("mm_init failed.", [])
  | .mallocFailed => ("mm_malloc failed.", [])
  | .reallocFailed => ("mm_realloc failed.", [])
  | .misaligned lo => ("Payload address (%p) not aligned to %d bytes", [lo, alignment])
  | .outside lo hi heapLo heapHi => ("Payload (%p:%p) lies outside heap (%p:%p)", [lo, hi, heapLo, heapHi])
  | .overlaps lo hi otherLo otherHi =>
    ("Payload (%p:%p) overlaps another payload (%p:%p)\n", [lo, hi, otherLo, otherHi])
  | .notPreserved => ("mm_realloc did not preserve the data from old block", [])

/-- `malloc_error(tracenum, opnum, msg)`, which counts and prints the error. -/
structure Report where
  tracenum : Nat
  opnum : Nat
  complaint : Complaint
deriving DecidableEq, Repr

/-- The address of the last byte of a payload. -/
def last (lo size : Nat) : Nat := sub32 (add32 lo size) 1

/-- One of the two ends of a payload lies in a recorded one. -/
def meets (lo hi : Nat) (p : Range) : Bool :=
  (lo ≥ p.lo && lo ≤ p.hi) || (hi ≥ p.lo && hi ≤ p.hi)

/--
`add_range(ranges, lo, size, tracenum, opnum)` over a heap from `heapLo` to `heapHi`.

It aborts when the size is not positive, it returns zero with a report, or it returns one with the new list.
-/
def addRange (heapLo heapHi : Nat) (ranges : List Range) (lo size tracenum opnum : Nat) :
    Option (Except Report (List Range)) :=
  let hi := last lo size
  let mallocError := fun complaint => some (.error { tracenum := tracenum, opnum := opnum, complaint := complaint })
  if ¬ size > 0 then none
  else if lo % alignment ≠ 0 then mallocError (.misaligned lo)
  else if lo < heapLo ∨ lo > heapHi ∨ hi < heapLo ∨ hi > heapHi then
    mallocError (.outside lo hi heapLo heapHi)
  else match ranges.find? (meets lo hi) with
    | some p => mallocError (.overlaps lo hi p.lo p.hi)
    | none => some (.ok ({ lo := lo, hi := hi } :: ranges))

/-- `remove_range(ranges, lo)` -/
def removeRange (ranges : List Range) (lo : Nat) : List Range := ranges.eraseP fun p => p.lo == lo

variable {heapLo heapHi lo hi size tracenum opnum : Nat} {ranges : List Range} {p : Range}

/-- Below the top of the address space the last byte is where it should be. -/
theorem last_eq (positive : 0 < size) (fits : lo + size ≤ 2 ^ 32) : last lo size = lo + size - 1 := by
  unfold last sub32 add32
  omega

/-- A payload that wraps ends below its start. -/
theorem last_lt (word : lo < 2 ^ 32) (int : size < 2 ^ 31) (wraps : 2 ^ 32 < lo + size) : last lo size < lo := by
  unfold last sub32 add32
  omega

/-- A payload ends inside the address space exactly when its last byte is not below its first. -/
theorem wraps_iff (word : lo < 2 ^ 32) (positive : 0 < size) (int : size < 2 ^ 31) :
    last lo size < lo ↔ 2 ^ 32 < lo + size := by
  constructor
  · intro below
    by_contra fits
    have final : last lo size = lo + size - 1 := last_eq positive (by omega)
    omega
  · exact last_lt word int

/-- Both ends of a payload lie outside a recorded one. -/
theorem meets_false : meets lo hi p = false ↔ (lo < p.lo ∨ p.hi < lo) ∧ (hi < p.lo ∨ p.hi < hi) := by
  simp only [meets, Bool.or_eq_false_iff, Bool.and_eq_false_iff, decide_eq_false_iff_not]
  omega

/-- Two payloads share no byte. -/
def Range.Apart (p q : Range) : Prop := p.hi < q.lo ∨ q.hi < p.lo

/-- The payload is aligned, lies inside the heap and meets no recorded one. -/
structure Admissible (heapLo heapHi : Nat) (ranges : List Range) (lo size : Nat) : Prop where
  aligned : lo % 8 = 0
  lower : heapLo ≤ lo
  upper : lo + size - 1 ≤ heapHi
  apart : ∀ p ∈ ranges, Range.Apart { lo := lo, hi := lo + size - 1 } p

/-- A call of `add_range` records the payload and returns one exactly when it is admissible. -/
def AddSound (heapLo heapHi : Nat) (ranges : List Range) (lo size tracenum opnum : Nat) : Prop :=
  (Admissible heapLo heapHi ranges lo size ∧ addRange heapLo heapHi ranges lo size tracenum opnum =
      some (.ok ({ lo := lo, hi := lo + size - 1 } :: ranges))) ∨
    ¬ Admissible heapLo heapHi ranges lo size ∧
      ∃ report, addRange heapLo heapHi ranges lo size tracenum opnum = some (.error report)

/--
The payload passes every test, since the tests look at its two ends only.

Still a recorded payload lies strictly between the ends, or the payload wraps around the address space.
-/
structure Slips (heapLo heapHi : Nat) (ranges : List Range) (lo size : Nat) : Prop where
  aligned : lo % 8 = 0
  inside : heapLo ≤ lo ∧ lo ≤ heapHi ∧ heapLo ≤ last lo size ∧ last lo size ≤ heapHi
  ends : ∀ p ∈ ranges, meets lo (last lo size) p = false
  missed : last lo size < lo ∨ ∃ p ∈ ranges, lo < p.lo ∧ p.hi < last lo size

/-- The lists that sequences of calls lead to, when no payload slips through. -/
inductive Recorded : List Range → Prop
  /-- At first nothing is recorded. -/
  | empty : Recorded []
  /-- A payload that the call accepts is recorded. -/
  | added {heapLo heapHi lo size tracenum opnum : Nat} {ranges ranges' : List Range} (before : Recorded ranges)
      (words : lo < 2 ^ 32 ∧ heapHi < 2 ^ 32) (int : size < 2 ^ 31)
      (caught : ¬ Slips heapLo heapHi ranges lo size)
      (returned : addRange heapLo heapHi ranges lo size tracenum opnum = some (.ok ranges')) : Recorded ranges'
  /-- A payload that the call rejects leaves the list as it was. -/
  | rejected {heapLo heapHi lo size tracenum opnum : Nat} {ranges : List Range} {report : Report}
      (before : Recorded ranges)
      (returned : addRange heapLo heapHi ranges lo size tracenum opnum = some (.error report)) : Recorded ranges
  /-- Records are removed by their first byte. -/
  | removed {lo : Nat} {ranges : List Range} (before : Recorded ranges) : Recorded (removeRange ranges lo)

/-- Every record is a payload, and no two of them share a byte. -/
structure Disjoint (ranges : List Range) : Prop where
  payload : ∀ p ∈ ranges, p.lo ≤ p.hi
  apart : ranges.Pairwise Range.Apart

/-- What the call returns once the payload has passed every test. -/
theorem addRange_passed (positive : 0 < size) (aligned : lo % 8 = 0)
    (inside : heapLo ≤ lo ∧ lo ≤ heapHi ∧ heapLo ≤ last lo size ∧ last lo size ≤ heapHi)
    (ends : ∀ p ∈ ranges, meets lo (last lo size) p = false) :
    addRange heapLo heapHi ranges lo size tracenum opnum =
      some (.ok ({ lo := lo, hi := last lo size } :: ranges)) := by
  have clear : ranges.find? (meets lo (last lo size)) = none :=
    List.find?_eq_none.mpr fun p member => by simp [ends p member]
  have eight : lo % alignment = 0 := aligned
  -- Neither of the tests complains, and no record meets the payload.
  unfold addRange
  simp only [clear]
  rw [if_neg (by omega), if_neg (by omega), if_neg (by omega)]

/-- Otherwise the call returns a report. -/
theorem addRange_failed (positive : 0 < size)
    (failed : ¬ (lo % 8 = 0 ∧ (heapLo ≤ lo ∧ lo ≤ heapHi ∧ heapLo ≤ last lo size ∧ last lo size ≤ heapHi) ∧
      ∀ p ∈ ranges, meets lo (last lo size) p = false)) :
    ∃ report, addRange heapLo heapHi ranges lo size tracenum opnum = some (.error report) := by
  unfold addRange
  simp only
  rw [if_neg (by omega)]
  -- The first two tests report what they see.
  split_ifs with misaligned outside
  · exact ⟨_, rfl⟩
  · exact ⟨_, rfl⟩
  · -- The payload is aligned and inside, so one of its ends lies in a recorded one.
    cases found : ranges.find? (meets lo (last lo size)) with
    | some p => exact ⟨_, rfl⟩
    | none =>
      refine absurd ⟨?_, by omega, fun p member => ?_⟩ failed
      · exact not_not.mp misaligned
      · simpa using List.find?_eq_none.mp found p member

/-- On a list of disjoint payloads a call does what it should, unless the payload slips through. -/
theorem addSound_iff (disjoint : Disjoint ranges) (words : lo < 2 ^ 32 ∧ heapHi < 2 ^ 32) (positive : 0 < size)
    (int : size < 2 ^ 31) :
    AddSound heapLo heapHi ranges lo size tracenum opnum ↔ ¬ Slips heapLo heapHi ranges lo size := by
  obtain ⟨word, high⟩ := words
  have wraps := wraps_iff word positive int
  constructor
  · -- A payload that slips through is recorded although it is not admissible.
    rintro sound ⟨aligned, inside, ends, missed⟩
    have passed : addRange heapLo heapHi ranges lo size tracenum opnum = _ :=
      addRange_passed positive aligned inside ends
    rcases sound with ⟨admissible, _⟩ | ⟨_, report, failed⟩
    · have upper := admissible.upper
      have final : last lo size = lo + size - 1 := last_eq positive (by omega)
      rcases missed with below | ⟨p, member, left, right⟩
      · omega
      · -- The recorded payload in between shares its bytes with the new one.
        have own := disjoint.payload p member
        have apart : lo + size - 1 < p.lo ∨ p.hi < lo := admissible.apart p member
        omega
    · rw [passed] at failed
      exact nomatch failed
  · -- A payload that does not slip through is recorded or rejected for its own faults.
    intro caught
    by_cases tests : lo % 8 = 0 ∧ (heapLo ≤ lo ∧ lo ≤ heapHi ∧ heapLo ≤ last lo size ∧ last lo size ≤ heapHi) ∧
        ∀ p ∈ ranges, meets lo (last lo size) p = false
    · obtain ⟨aligned, inside, ends⟩ := tests
      have fits : ¬ last lo size < lo := fun below => caught ⟨aligned, inside, ends, .inl below⟩
      have final : last lo size = lo + size - 1 := last_eq positive (by omega)
      refine .inl ⟨⟨aligned, inside.1, by omega, fun p member => ?_⟩, ?_⟩
      · by_contra meeting
        -- Two intervals that meet, where neither end of the first lies in the second, are nested.
        have own := disjoint.payload p member
        have clear := meets_false.mp (ends p member)
        have joined : ¬ (lo + size - 1 < p.lo ∨ p.hi < lo) := meeting
        exact caught ⟨aligned, inside, ends, .inr ⟨p, member, by omega, by omega⟩⟩
      · rw [← final]
        exact addRange_passed positive aligned inside ends
    · -- One of the tests fails; on an admissible payload none of them does.
      refine .inr ⟨fun admissible => tests ?_, addRange_failed positive tests⟩
      obtain ⟨aligned, lower, upper, apart⟩ := admissible
      have final : last lo size = lo + size - 1 := last_eq positive (by omega)
      refine ⟨aligned, by omega, fun p member => ?_⟩
      have own := disjoint.payload p member
      have clear : lo + size - 1 < p.lo ∨ p.hi < lo := apart p member
      exact meets_false.mpr (by omega)

/-- A call that records a payload has been given a positive size. -/
theorem addRange_positive {result : Except Report (List Range)}
    (returned : addRange heapLo heapHi ranges lo size tracenum opnum = some result) : 0 < size := by
  by_contra zero
  unfold addRange at returned
  rw [if_pos zero] at returned
  exact nomatch returned

/-- Every list that is recorded without a slip consists of disjoint payloads. -/
theorem Recorded.disjoint (recorded : Recorded ranges) : Disjoint ranges := by
  induction recorded with
  | empty => exact ⟨by simp, .nil⟩
  | added _ words int caught returned ih =>
    have positive := addRange_positive returned
    -- What was caught is admissible, so the new record is apart from all others.
    rcases (addSound_iff ih words positive int).mpr caught with ⟨admissible, passed⟩ | ⟨_, report, failed⟩
    · rw [returned] at passed
      obtain rfl := Except.ok.inj (Option.some.inj passed)
      refine ⟨fun p member => ?_, List.pairwise_cons.mpr ⟨admissible.apart, ih.apart⟩⟩
      rcases List.mem_cons.mp member with rfl | member
      · exact Nat.le_sub_one_of_lt (Nat.lt_add_of_pos_right positive)
      · exact ih.payload p member
    · -- A payload that is reported is not added.
      rw [returned] at failed
      exact nomatch failed
  | rejected _ _ ih => exact ih
  -- Removing a record keeps the others apart.
  | removed _ ih =>
    exact ⟨fun p member => ih.payload p (List.mem_of_mem_eraseP member), ih.apart.sublist (List.eraseP_sublist ..)⟩

/--
After every sequence of calls in which no payload slipped through, the records are disjoint.

The next call then does what it should exactly when its payload does not slip through either.
-/
theorem range_list_sound (recorded : Recorded ranges) :
    ranges.Pairwise Range.Apart ∧
      ∀ heapLo heapHi lo size tracenum opnum, lo < 2 ^ 32 ∧ heapHi < 2 ^ 32 → 0 < size → size < 2 ^ 31 →
        (AddSound heapLo heapHi ranges lo size tracenum opnum ↔ ¬ Slips heapLo heapHi ranges lo size) :=
  ⟨recorded.disjoint.apart, fun _ _ _ _ _ _ words positive int => addSound_iff recorded.disjoint words positive int⟩

/-- The only record is the payload from 16 to 23 in a heap of one page. -/
theorem recorded_sample : Recorded [{ lo := 16, hi := 23 }] := by
  have returned : addRange 8 4103 [] 16 8 0 0 = some (.ok [{ lo := 16, hi := 23 }]) := rfl
  exact .added .empty (by decide) (by decide) (fun slips => by simpa [last, sub32, add32] using slips.missed) returned

/-- A payload right behind the recorded one is added soundly. -/
theorem range_list_sound_sample : [Range.mk 16 23].Pairwise Range.Apart ∧
    AddSound 8 4103 [{ lo := 16, hi := 23 }] 24 8 0 1 := by
  obtain ⟨apart, exactly⟩ := range_list_sound recorded_sample
  refine ⟨apart, (exactly 8 4103 24 8 0 1 (by decide) (by decide) (by decide)).mpr fun slips => ?_⟩
  simpa [last, sub32, add32] using slips.missed

/-- The payload from 8 to 31 contains the recorded one, and the call records it as well. -/
theorem range_list_overlaps : Recorded [{ lo := 16, hi := 23 }] ∧
    ¬ Admissible 8 4103 [{ lo := 16, hi := 23 }] 8 24 ∧
    addRange 8 4103 [{ lo := 16, hi := 23 }] 8 24 0 1 = some (.ok [{ lo := 8, hi := 31 }, { lo := 16, hi := 23 }]) ∧
    ¬ [Range.mk 8 31, Range.mk 16 23].Pairwise Range.Apart := by
  refine ⟨recorded_sample, fun admissible => ?_, rfl, fun pairwise => ?_⟩
  · have apart : 8 + 24 - 1 < 16 ∨ 23 < 8 := admissible.apart { lo := 16, hi := 23 } (by simp)
    omega
  · have apart : 31 < 16 ∨ 23 < 8 := (List.pairwise_cons.mp pairwise).1 { lo := 16, hi := 23 } (by simp)
    omega

end MallocLab.Driver
