import MallocLab.Seg84.Invariant

/-! What the search of `segreted(84).c` finds, and that it passes over no list that could serve the request. -/

namespace MallocLab.Seg84

open Segregated

variable {base a n p : Nat} {m : Mem} {statics : Nat → Nat} {h : State} {w : World (Nat → Nat)} {s : Shelves}
variable {cs : List Call} {rs rest : List Nat} {chains : Nat → List Nat}

/-- When the search finds nothing, no free block is large enough. -/
theorem pick_none (stands : Stands base h s) (found : pick s a = none) :
    ∀ b ∈ s.blocks, b.used = false → b.size < a := by
  intro b block free
  obtain ⟨pre, post, _, located⟩ := Skeleton.Rep.locate stands.rep block
  by_contra large
  have missed := List.findSome?_eq_none_iff.mp found (sizeClass b.size)
    (List.mem_range.mpr (sizeClass_lt _))
  -- The block would be found in the list of its class.
  rw [if_pos (sizeClass_mono (Nat.le_of_not_lt large)), List.find?_eq_none] at missed
  refine missed b.addr (stands.filed b block free _ rfl) ?_
  rw [Shelves.fits_eq located, decide_eq_true_eq]
  omega

/--
What the search for a block of size `asize` has returned.

`rest` are the blocks of the heap after the prologue and `chains` those on each list.
-/
structure Found (h : State) (rest : List Nat) (chains : Nat → List Nat) (asize p : Nat) : Prop where
  fits : (∃ q ∈ rest, getAlloc h (hdrp q) = 0 ∧ asize ≤ getSize h (hdrp q)) →
    p ∈ rest ∧ getAlloc h (hdrp p) = 0 ∧ asize ≤ getSize h (hdrp p)
  missed : (¬ ∃ q ∈ rest, getAlloc h (hdrp q) = 0 ∧ asize ≤ getSize h (hdrp q)) → p = null
  lowest : p ≠ null → ∃ k < listLimit, p ∈ chains k ∧
    ∀ j < k, ∀ q ∈ chains j, getSize h (hdrp q) < asize

/-- The search of a standing state returns a block that fits whenever there is one. -/
theorem findFit_found (stands : Stands base h s) (positive : a ≠ 0) :
    ∃ p, findFit h a = some (h, p) ∧ Found h (s.blocks.map Blk.addr) s.lists a p := by
  refine ⟨_, findFit_result stands.rep positive, ?_⟩
  cases found : pick s a with
  -- Nothing is found, so no free block is large enough.
  | none =>
    have small := pick_none stands found
    refine ⟨?_, fun _ => rfl, fun real => absurd rfl real⟩
    rintro ⟨q, fit⟩
    obtain ⟨b, block, _, free, large⟩ := (Skeleton.read_free stands.rep).mp fit
    have := small b block free
    omega
  | some p =>
    -- The first block that fits of the first list that has one.
    obtain ⟨k, below, reach, here, none_⟩ := pickList_first found
    have member := List.mem_of_find?_eq_some here
    have large := List.find?_some here
    obtain ⟨b, block, rfl, free, _⟩ := stands.rep.threaded.listed k p member
    obtain ⟨pre, post, _, located⟩ := Skeleton.Rep.locate stands.rep block
    rw [Shelves.fits_eq located, decide_eq_true_eq] at large
    -- It is a free block, large enough.
    have fit := (Skeleton.read_free stands.rep).mpr ⟨b, block, rfl, free, large⟩
    refine ⟨fun _ => fit, fun missed => absurd ⟨b.addr, fit⟩ missed, fun _ => ⟨k, below, member, ?_⟩⟩
    intro j lower q listed
    -- A listed block of a list below is read back as an abstract block.
    obtain ⟨c, cBlock, rfl, _, class_⟩ := stands.rep.threaded.listed j q listed
    obtain ⟨cPre, cPost, _, cLocated⟩ := Skeleton.Rep.locate stands.rep cBlock
    rw [stands.rep.arena.size (List.mem_append_right _ cBlock)]
    by_contra wide
    -- A block that fits has the class of the size or a larger one, so its list has been searched.
    have inReach : sizeClass a ≤ j := by
      rw [← Option.some.inj class_]
      exact sizeClass_mono (by omega)
    have missed := none_ j lower inReach
    rw [List.find?_eq_none] at missed
    refine missed c.addr listed ?_
    rw [Shelves.fits_eq cLocated, decide_eq_true_eq]
    omega

/-- In every reachable state the search is complete, and it returns a block of the lowest list that has one. -/
theorem mm_search_complete (ok : Base base) (init : mmInit (memInit m base statics) = some (h, 0))
    (run : Run mm NoWrap { heap := h, live := [] } cs rs w) (positive : 1 ≤ n) (small : n ≤ maxRequest) :
    ∃ rest chains p, WellFormed w.heap (base + 8) [base + 8] rest 16 ∧ Lists w.heap rest chains ∧
      findFit w.heap (Skeleton.adjustedSize n) = some (w.heap, p) ∧
      Found w.heap rest chains (Skeleton.adjustedSize n) p := by
  obtain ⟨s, holds⟩ := (services base).run (mmInit_stands ok init) run
  have least := (Skeleton.adjustedSize_adjusted positive small).2.least
  obtain ⟨p, done, found⟩ := findFit_found holds.rep (a := Skeleton.adjustedSize n) (by omega)
  exact ⟨_, _, p, Skeleton.wellFormed rfl holds, stands_lists holds.rep, done, found⟩

/-- After the small run the search for twenty bytes ends with a block that is found. -/
theorem mm_search_complete_sample :
    ∃ h w, mmInit zeroed = some (h, 0) ∧
      Run mm NoWrap { heap := h, live := [] } sampleCalls [24, 40, 0, 72, 88, 0, 0, 128] w ∧
      ∃ rest chains p, WellFormed w.heap (8 + 8) [8 + 8] rest 16 ∧ Lists w.heap rest chains ∧
        findFit w.heap (Skeleton.adjustedSize 20) = some (w.heap, p) ∧
        Found w.heap rest chains (Skeleton.adjustedSize 20) p := by
  obtain ⟨h, w, init, run⟩ := sample_run
  exact ⟨h, w, init, run, mm_search_complete base_eight init run (by decide) (by decide)⟩

end MallocLab.Seg84
