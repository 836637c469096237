import MallocLab.Explicit.Wrapping

/-! What `mm_malloc` does for every size that a word can hold, also where the block size wraps. -/

namespace MallocLab.Explicit

variable {base n r p : Nat} {m : Mem} {statics : Statics} {h h' : State} {w : World Statics}
variable {s : Shelves} {cs : List Call} {rs : List Nat}

/-- `r` is an allocated block between the prologue and the break, with room for `n` bytes and two tags. -/
structure Allocated (h : State) (rest : List Nat) (r n : Nat) : Prop where
  member : r ∈ rest
  alloc : getAlloc h (hdrp r) = 1
  room : n + 8 ≤ getSize h (hdrp r)
  above : h.memStartBrk + 8 < r
  below : r + getSize h (hdrp r) ≤ h.memBrk

/--
`mm_malloc` for `n` bytes returns an allocated block in a sound heap, or null.

When it returns null, nothing has changed.
-/
def MallocSound (h : State) (n : Nat) : Prop :=
  ∃ h' r, mmMalloc h n = some (h', r) ∧
    (r = null ∧ h' = h ∨ r ≠ null ∧ ∃ rest passed,
      WellFormed h' (h'.memStartBrk + 8) [h'.memStartBrk + 8] rest 16 ∧
      FreeListSound h' (h'.memStartBrk + 8) rest passed ∧ Allocated h' rest r n)

/--
The requests that `mm_malloc` handles as it should.

Either the size is zero, or neither the block size nor the end of the extension wraps.
A size so large that its block size wraps is refused only without free blocks and without room.
-/
def Manageable (h : State) (n : Nat) : Prop :=
  n = 0 ∨ n ≤ maxRequest ∧ NoWrap h (.malloc n) ∨
    maxRequest < n ∧ h.statics.freeListp = h.memStartBrk + 8 ∧ h.memMaxAddr < h.memBrk + chunksize ∧
      h.memBrk + chunksize < 2 ^ 32

/-- A request whose block size does not wrap is served by an allocated block of a sound heap. -/
theorem mmMalloc_serves (holds : Holds (Stands base) Shelves.blocks w s) (positive : 1 ≤ n)
    (small : n ≤ maxRequest) (fine : NoWrap w.heap (.malloc n)) : MallocSound w.heap n := by
  obtain ⟨stands, owned⟩ := holds
  obtain ⟨h', s', r, done, _, stands', _, outcome⟩ := (services base).malloc stands positive small fine
  refine ⟨h', r, done, ?_⟩
  rcases outcome with ⟨refused, _⟩ | ⟨real, served⟩
  · -- A refused request has changed nothing.
    obtain ⟨h'', r', done', refuses⟩ := mmMalloc_refuses stands small fun _ => fine
    rw [show mmMalloc w.heap n = some (h', r) from done] at done'
    obtain ⟨rfl, rfl⟩ := Prod.mk.inj (Option.some.inj done')
    exact .inl ⟨refused, refuses.atomic refused⟩
  · -- The new block is live afterwards, so the invariants of the heap speak about it.
    have holds' : Holds (Stands base) Shelves.blocks { heap := h', live := (r, n) :: w.live } s' :=
      ⟨stands', owned.malloc served⟩
    have start : h'.memStartBrk = base := stands'.start
    obtain ⟨member, alloc⟩ := (Skeleton.live_iff_used holds' r).mpr ⟨n, List.mem_cons_self⟩
    obtain ⟨size, ⟨b, block, rfl, rfl, _⟩, room⟩ := holds'.owned.block r n List.mem_cons_self
    have size : getSize h' (hdrp b.addr) = b.size := stands'.rep.arena.size (by simp [block])
    have inside := (rep_tiles stands'.rep).within block
    have lower := inside.lower
    refine .inr ⟨real, _, _, start ▸ Skeleton.wellFormed rfl holds', start ▸ stands_freeList holds', member,
      alloc, size ▸ room, by omega, size ▸ inside.upper⟩

/-- A request whose extension wraps is not served soundly. -/
theorem mmMalloc_unsound (stands : Stands base h s) (inside : s.brk ≤ base + maxHeap) (asked : n ≠ 0)
    (wraps : ¬ NoWrap h (.malloc n)) : ¬ MallocSound h n := by
  rintro ⟨h', r, done, outcome⟩
  obtain ⟨start, escaped⟩ := mmMalloc_escapes stands inside asked wraps done
  simp only at start escaped
  have low := (rep_tiles stands.rep).le
  rcases outcome with ⟨_, rfl⟩ | ⟨_, _, _, _, _, allocated⟩
  · omega
  · -- No block can lie between the prologue and a break below it.
    have above := allocated.above
    have below := allocated.below
    omega

/-- The free list is empty exactly when the search for the smallest block finds nothing. -/
theorem empty_iff (stands : Stands base h s) {a : Nat} (tiny : a ≤ 16) :
    h.statics.freeListp = h.memStartBrk + 8 ↔ firstFit s a = none := by
  have head : h.statics.freeListp = (s.lists 0).headD (h.memStartBrk + 8) := stands.rep.heads
  rw [head]
  cases stack : s.lists 0 with
  -- An empty stack has the prologue as its head.
  | nil => simp [firstFit, stack]
  | cons p rest =>
    -- A listed block lies above the prologue, and it serves the smallest requests.
    obtain ⟨b, block, rfl, free⟩ := rep_listed stands.rep (p := p) (by simp [stack])
    obtain ⟨pre, post, _, located⟩ := Skeleton.Rep.locate stands.rep block
    have lower := ((rep_tiles stands.rep).within block).lower
    have least : 16 ≤ b.size := stands.rep.least block
    have fits : s.fits a b.addr = true := by
      rw [Shelves.fits_eq located, decide_eq_true_eq]
      omega
    -- So the head is no prologue, and the search does not fail.
    constructor
    · intro same
      rw [List.headD_cons] at same
      omega
    · intro missed
      simp [firstFit, stack, fits] at missed

/-- `mm_malloc` returns the block that its search has found, if it returns. -/
theorem mmMalloc_found {result : State × Nat} (asked : n ≠ 0)
    (found : findFit h (Skeleton.adjustedSize n) = some (h', p)) (real : p ≠ null)
    (done : mmMalloc h n = some result) : result.2 = p := by
  rw [mmMalloc_eq] at done
  unfold Skeleton.mallocOf at done
  rw [if_neg asked, found] at done
  simp only [Option.bind_some] at done
  rw [if_pos real] at done
  obtain ⟨_, _, rfl⟩ := Option.map_eq_some_iff.mp done
  rfl

/-- Otherwise it returns the block that the extension has made, if it returns. -/
theorem mmMalloc_extended {h₂ : State} {result : State × Nat} (asked : n ≠ 0)
    (found : findFit h (Skeleton.adjustedSize n) = some (h', null))
    (extended : Skeleton.extended extendHeap h' (maxWord (Skeleton.adjustedSize n) chunksize) = some (h₂, p))
    (real : p ≠ null) (done : mmMalloc h n = some result) : result.2 = p := by
  rw [mmMalloc_eq] at done
  unfold Skeleton.mallocOf at done
  rw [if_neg asked, found] at done
  simp only [Option.bind_some] at done
  rw [if_neg (by simp), extended] at done
  simp only [Option.bind_some] at done
  rw [if_neg real] at done
  obtain ⟨_, _, rfl⟩ := Option.map_eq_some_iff.mp done
  rfl

/-- At the top of the range the block size wraps, and the least extension is asked for. -/
theorem adjustedSize_top (large : maxRequest < n) (word : n < 2 ^ 32) :
    Skeleton.adjustedSize n ≤ 8 ∧ maxWord (Skeleton.adjustedSize n) chunksize = 4096 := by
  have wrapped := Skeleton.adjustedSize_eq n
  unfold maxRequest at large
  have tiny : Skeleton.adjustedSize n ≤ 8 := by omega
  refine ⟨tiny, (maxWord_eq _ _).trans (Nat.max_eq_right ?_)⟩
  show Skeleton.adjustedSize n ≤ 4096
  omega

/-- A size at the top of the range is handled soundly exactly when it is refused. -/
theorem mmMalloc_top (stands : Stands base h s) (inside : s.brk ≤ base + maxHeap) (large : maxRequest < n)
    (word : n < 2 ^ 32) : MallocSound h n ↔ h.statics.freeListp = h.memStartBrk + 8 ∧
      h.memMaxAddr < h.memBrk + chunksize ∧ h.memBrk + chunksize < 2 ^ 32 := by
  obtain ⟨tiny, chunk⟩ := adjustedSize_top large word
  have asked : n ≠ 0 := by omega
  have least : chunksize = 4096 := rfl
  have brk : h.memBrk = s.brk := stands.rep.brk
  have searched := findFit_result stands.rep (Skeleton.adjustedSize n)
  rw [empty_iff stands (show Skeleton.adjustedSize n ≤ 16 by omega), least]
  constructor
  · rintro ⟨h', r, done, outcome⟩
    -- No block is as large as such a size, so the call can only have returned null.
    have refused : r = null ∧ h' = h := by
      refine outcome.resolve_right ?_
      rintro ⟨_, rest, _, _, _, allocated⟩
      have room := allocated.room
      have bounded := loadWord_lt h'.mem (hdrp r)
      rw [getSize_eq] at room
      unfold Heap.get at room
      unfold maxRequest at large
      omega
    obtain ⟨rfl, rfl⟩ := refused
    have missed : firstFit s (Skeleton.adjustedSize n) = none := by
      -- A block that the search finds would be returned, but null was returned.
      cases found : firstFit s (Skeleton.adjustedSize n) with
      | none => rfl
      | some p =>
        rw [found] at searched
        obtain ⟨b, block, rfl, _⟩ := rep_listed stands.rep (List.mem_of_find?_eq_some found)
        have real := stands.rep.arena.real (List.mem_append_right _ block)
        exact absurd (mmMalloc_found asked searched real done).symm real
    rw [missed] at searched
    refine ⟨missed, ?_, ?_⟩
    · -- An extension that finds room would be returned as well.
      by_contra room
      obtain ⟨h₂, extended, _, _, real, _⟩ := (parts base).granted stands (show 4096 % 8 = 0 by decide) (by decide)
        (show s.brk + 4096 ≤ h'.memMaxAddr by omega)
      rw [← chunk] at extended
      exact absurd (mmMalloc_extended asked searched extended (chunk ▸ real) done).symm (chunk ▸ real)
    · -- And one that wraps would leave the break below the area.
      by_contra wide
      have wraps : ¬ NoWrap h' (.malloc n) := by
        intro fine
        have below := fine (by rw [searched]; rfl)
        rw [chunk] at below
        exact wide (below (by decide))
      exact mmMalloc_unsound stands inside asked wraps ⟨h', null, done, outcome⟩
  · rintro ⟨missed, full, fits⟩
    rw [missed] at searched
    have refused := (parts base).refused stands (show 4096 % 8 = 0 by decide) (by decide) (fun _ => fits)
      (show h.memMaxAddr < s.brk + 4096 by omega)
    rw [← chunk] at refused
    refine ⟨h, null, ?_, .inl ⟨rfl, rfl⟩⟩
    rw [mmMalloc_eq]
    exact Skeleton.mallocOf_refused asked searched refused

/-- After every run without wrapping, `mm_malloc` is sound for exactly these of all sizes. -/
theorem mm_malloc_sound (ok : Base base) (init : mmInit (memInit m base statics) = some (h, 0))
    (run : Run mm NoWrap { heap := h, live := [] } cs rs w) (word : n < 2 ^ 32) :
    MallocSound w.heap n ↔ Manageable w.heap n := by
  obtain ⟨s, holds, _, inside⟩ := run_inside ok init run
  unfold Manageable
  rcases Nat.eq_zero_or_pos n with rfl | positive
  · -- A request for nothing is sound.
    exact ⟨fun _ => .inl rfl, fun _ => ⟨w.heap, null, mmMalloc_zero _, .inl ⟨rfl, rfl⟩⟩⟩
  have asked : n ≠ 0 := by omega
  -- The block size wraps for the sizes above the largest request, and only for those.
  by_cases small : n ≤ maxRequest
  · -- A size that does not wrap is served, unless the break wraps.
    constructor
    · intro sound
      refine .inr (.inl ⟨small, ?_⟩)
      by_contra wraps
      exact mmMalloc_unsound holds.rep inside asked wraps sound
    · rintro (zero | ⟨_, fine⟩ | ⟨large, _⟩)
      · exact absurd zero asked
      · exact mmMalloc_serves holds positive small fine
      · omega
  · -- A size that wraps asks for a block that is too small for it.
    rw [mmMalloc_top holds.rep inside (by omega) word]
    constructor
    · exact fun refused => .inr (.inr ⟨by omega, refused⟩)
    · rintro (zero | ⟨small', _⟩ | ⟨_, refused⟩)
      · exact absurd zero asked
      · exact absurd small' small
      · exact refused

/-- After the small run the condition decides about the largest request of all. -/
theorem mm_malloc_sound_sample :
    ∃ h w, mmInit zeroed = some (h, 0) ∧
      Run mm NoWrap { heap := h, live := [] } sampleCalls [32, 48, 0, 80, 0, 96] w ∧
      (MallocSound w.heap (2 ^ 32 - 1) ↔ Manageable w.heap (2 ^ 32 - 1)) := by
  obtain ⟨h, w, init, run, _⟩ := sample_run
  exact ⟨h, w, init, run, mm_malloc_sound base_eight init run (by decide)⟩

/-- A request for all but fifteen bytes of the address space is served by a block that stays free. -/
theorem mm_malloc_tears : ∃ h h' r, mmInit zeroed = some (h, 0) ∧ mmMalloc h (2 ^ 32 - 15) = some (h', r) ∧
    r ≠ null ∧ getAlloc h' (hdrp r) = 0 ∧ ¬ MallocSound h (2 ^ 32 - 15) := by
  have seen : ((mmInit zeroed).bind fun start => (mmMalloc start.1 (2 ^ 32 - 15)).map fun served =>
      (start.2, decide (served.2 ≠ null ∧ getAlloc served.1 (hdrp served.2) = 0))) = some (0, true) := by
    decide +kernel
  -- The two calls have been evaluated.
  obtain ⟨⟨h, code⟩, init, called⟩ := Option.bind_eq_some_iff.mp seen
  obtain ⟨⟨h', r⟩, done, same⟩ := Option.map_eq_some_iff.mp called
  obtain ⟨rfl, passed⟩ := Prod.mk.inj same
  obtain ⟨real, free⟩ := of_decide_eq_true passed
  refine ⟨h, h', r, init, done, real, free, ?_⟩
  rintro ⟨h'', r', done', outcome⟩
  rw [done] at done'
  obtain ⟨rfl, rfl⟩ := Prod.mk.inj (Option.some.inj done')
  -- The block that is returned is marked as free.
  rcases outcome with ⟨refused, _⟩ | ⟨_, _, _, _, _, allocated⟩
  · exact real refused
  · rw [allocated.alloc] at free
    exact absurd free (by decide)

end MallocLab.Explicit
