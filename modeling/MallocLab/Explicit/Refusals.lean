import MallocLab.Explicit.Contract

/-! When `mm_malloc` refuses a request, and that a refused call leaves the machine as it was. -/

namespace MallocLab.Explicit

variable {base n a : Nat} {m : Mem} {statics : Statics} {h : State} {w : World Statics} {s : Shelves}
variable {cs : List Call} {rs : List Nat}

/-- Some block among `rest` is free and has at least this size. -/
def HasFit (h : State) (rest : List Nat) (asize : Nat) : Prop :=
  ∃ p ∈ rest, getAlloc h (hdrp p) = 0 ∧ asize ≤ getSize h (hdrp p)

/-- The headers show which blocks of the abstract state are free and how large they are. -/
theorem hasFit_iff (stands : Stands base h s) :
    HasFit h (s.blocks.map Blk.addr) a ↔ ∃ b ∈ s.blocks, b.used = false ∧ a ≤ b.size := by
  constructor
  · rintro ⟨p, fit⟩
    obtain ⟨b, block, _, free, large⟩ := (Skeleton.read_free stands.rep).mp fit
    exact ⟨b, block, free, large⟩
  · rintro ⟨b, block, free, large⟩
    exact ⟨b.addr, (Skeleton.read_free stands.rep).mpr ⟨b, block, rfl, free, large⟩⟩

/-- The search finds nothing exactly when no free block is large enough. -/
theorem firstFit_none (stands : Stands base h s) :
    firstFit s a = none ↔ ¬ HasFit h (s.blocks.map Blk.addr) a := by
  rw [hasFit_iff stands]
  unfold firstFit
  rw [List.find?_eq_none]
  constructor
  · -- A free block is on the stack, so the search looks at it.
    rintro missed ⟨b, block, free, large⟩
    obtain ⟨pre, post, _, located⟩ := Skeleton.Rep.locate stands.rep block
    refine missed b.addr (stands.filed b block free 0 rfl) ?_
    rw [Shelves.fits_eq located, decide_eq_true_eq]
    exact large
  · -- A block of the stack that fits is a free block that fits.
    intro none_ p member fits
    obtain ⟨b, block, rfl, free⟩ := rep_listed stands.rep member
    obtain ⟨pre, post, _, located⟩ := Skeleton.Rep.locate stands.rep block
    rw [Shelves.fits_eq located, decide_eq_true_eq] at fits
    exact none_ ⟨b, block, free, fits⟩

/-- `mm_malloc` in the terms of the abstract allocator. -/
theorem mmMalloc_eq : mmMalloc = Skeleton.mallocOf Skeleton.adjustedSize findFit (Skeleton.placed place)
    (Skeleton.extended extendHeap) :=
  Skeleton.mmMalloc_eq place extendHeap

/-- A request that no free block can serve and that finds no room changes nothing at all. -/
theorem mmMalloc_full (stands : Stands base h s) (positive : 1 ≤ n) (small : n ≤ maxRequest)
    (fine : NoWrap h (.malloc n)) (found : firstFit s (blockSize n) = none)
    (full : base + maxHeap < s.brk + max (blockSize n) 4096) : mmMalloc h n = some (h, null) := by
  obtain ⟨h₁, searched, done, _⟩ :=
    (parts base).malloc_full stands positive small fine found (show ¬ s.brk + max (blockSize n) 4096 ≤ base + maxHeap by omega)
  -- The search has not changed the machine either.
  have same := findFit_result stands.rep (blockSize n)
  rw [found, show findFit h (blockSize n) = some (h₁, null) from searched] at same
  obtain ⟨rfl, _⟩ := Prod.mk.inj (Option.some.inj same)
  exact mmMalloc_eq ▸ done

/-- A request of size zero changes nothing at all. -/
theorem mmMalloc_zero (h : State) : mmMalloc h 0 = some (h, null) := rfl

/-- The three ways in which `mm_malloc` can serve or refuse a request for a block of size `asize`. -/
inductive Outcome (h h' : State) (rest : List Nat) (asize r : Nat) : Prop
  /-- A free block that is large enough is handed out, and the break stays. -/
  | found (fit : HasFit h rest asize) (real : r ≠ null) (start : h'.memStartBrk = h.memStartBrk)
      (limit : h'.memMaxAddr = h.memMaxAddr) (brk : h'.memBrk = h.memBrk)
  /-- Without one the heap is extended. -/
  | grown (missed : ¬ HasFit h rest asize) (room : h.memBrk + max asize 4096 ≤ h.memMaxAddr) (real : r ≠ null)
      (start : h'.memStartBrk = h.memStartBrk) (limit : h'.memMaxAddr = h.memMaxAddr)
      (brk : h'.memBrk = h.memBrk + max asize 4096)
  /-- Without room nothing changes. -/
  | full (missed : ¬ HasFit h rest asize) (full : h.memMaxAddr < h.memBrk + max asize 4096) (refused : r = null)
      (same : h' = h)

/-- A request for some bytes takes one of the three ways. -/
theorem mmMalloc_outcome (stands : Stands base h s) (positive : 1 ≤ n) (small : n ≤ maxRequest)
    (fine : NoWrap h (.malloc n)) :
    ∃ h' r, mmMalloc h n = some (h', r) ∧
      Outcome h h' (s.blocks.map Blk.addr) (Skeleton.adjustedSize n) r := by
  have limit := (parts base).limit stands
  have brk : h.memBrk = s.brk := stands.rep.brk
  rw [(blockSize_adjusted positive small).1, mmMalloc_eq]
  cases found : firstFit s (blockSize n) with
  | some p =>
    obtain ⟨h', done, rep', keeps, real, _⟩ := (parts base).malloc_found stands positive small found
    -- The search has found a block, so there is one.
    have fit : HasFit h (s.blocks.map Blk.addr) (blockSize n) := by
      by_contra missed
      rw [(firstFit_none stands).mpr missed] at found
      exact nomatch found
    have brk' : h'.memBrk = s.brk := rep'.rep.brk.trans Shelves.carve_brk
    exact ⟨h', _, done, .found fit real keeps.start keeps.limit (brk'.trans brk.symm)⟩
  | none =>
    have missed := (firstFit_none stands).mp found
    by_cases room : s.brk + max (blockSize n) 4096 ≤ base + maxHeap
    · -- The extension moves the break by its size, and carving does not move it again.
      obtain ⟨h', _, s₁, q, grown, _, done, rep', keeps, real, _⟩ :=
        (parts base).malloc_grown stands positive small found room
      have brk' : h'.memBrk = s.brk + max (blockSize n) 4096 := by
        refine rep'.rep.brk.trans (Shelves.carve_brk.trans ?_)
        rw [← show (s.extend style (max (blockSize n) 4096)).1.brk = _ from Shelves.extend_brk _]
        exact congrArg (fun served => served.1.brk) grown.symm
      exact ⟨h', _, done, .grown missed (by rw [brk, limit]; exact room) real keeps.start keeps.limit
        (by rw [brk', brk])⟩
    · -- The extension is refused, and null is returned.
      exact ⟨h, null, mmMalloc_eq ▸ mmMalloc_full stands positive small fine found (by omega),
        .full missed (by rw [brk, limit]; omega) rfl rfl⟩

/--
A call of `mm_malloc` for `n` bytes that returned `r`, beside the blocks that were in the heap.

It refuses exactly when it must, and a refusal leaves every byte, `free_listp` and the break alone.
-/
structure Refuses (h h' : State) (rest : List Nat) (n r : Nat) : Prop where
  null_iff : r = null ↔ n = 0 ∨ ¬ HasFit h rest (Skeleton.adjustedSize n) ∧
    h.memMaxAddr < h.memBrk + max (Skeleton.adjustedSize n) 4096
  atomic : r = null → h' = h
  extends_ : r ≠ null → h'.memBrk ≠ h.memBrk → ¬ HasFit h rest (Skeleton.adjustedSize n)

/-- A call in a standing state refuses exactly when it must. -/
theorem mmMalloc_refuses (stands : Stands base h s) (small : n ≤ maxRequest)
    (fine : 1 ≤ n → NoWrap h (.malloc n)) :
    ∃ h' r, mmMalloc h n = some (h', r) ∧ Refuses h h' (s.blocks.map Blk.addr) n r := by
  -- A request for nothing returns null at once.
  rcases Nat.eq_zero_or_pos n with rfl | positive
  · exact ⟨h, null, mmMalloc_zero h, by simp, fun _ => rfl, fun real => absurd rfl real⟩
  have asked : n ≠ 0 := by omega
  obtain ⟨h', r, done, outcome⟩ := mmMalloc_outcome stands positive small (fine positive)
  refine ⟨h', r, done, ?_⟩
  -- Only the third way returns null, and its conditions exclude the other two.
  cases outcome with
  -- A block has been found.
  | found fit real _ _ brk => exact ⟨by simp [real, asked, fit], fun refused => absurd refused real,
      fun _ moved => absurd brk moved⟩
  -- The heap has grown.
  | grown missed room real _ _ _ =>
    refine ⟨?_, fun refused => absurd refused real, fun _ _ => missed⟩
    simp only [real, asked, false_iff, false_or, not_and, not_lt]
    exact fun _ => room
  -- The heap is full.
  | full missed full refused same => exact ⟨⟨fun _ => .inr ⟨missed, full⟩, fun _ => refused⟩, fun _ => same,
      fun real => absurd refused real⟩

/-- After every run `mm_malloc` refuses exactly when it must, and then nothing changes. -/
theorem mm_malloc_refuses (ok : Base base) (init : mmInit (memInit m base statics) = some (h, 0))
    (run : Run mm NoWrap { heap := h, live := [] } cs rs w) (small : n ≤ maxRequest)
    (fine : 1 ≤ n → NoWrap w.heap (.malloc n)) :
    ∃ rest h' r, WellFormed w.heap (base + 8) [base + 8] rest 16 ∧ mmMalloc w.heap n = some (h', r) ∧
      Refuses w.heap h' rest n r := by
  obtain ⟨s, stands⟩ := run_stands ok init run
  obtain ⟨h', r, done, refuses⟩ := mmMalloc_refuses stands.rep small fine
  exact ⟨_, h', r, Skeleton.wellFormed rfl stands, done, refuses⟩

/-- After the small run a request of 24 bytes is refused or served as it should be. -/
theorem mm_malloc_refuses_sample :
    ∃ h w, mmInit zeroed = some (h, 0) ∧
      Run mm NoWrap { heap := h, live := [] } sampleCalls [32, 48, 0, 80, 0, 96] w ∧
      ∃ rest h' r, WellFormed w.heap (8 + 8) [8 + 8] rest 16 ∧ mmMalloc w.heap 24 = some (h', r) ∧
        Refuses w.heap h' rest 24 r := by
  obtain ⟨h, w, init, run, _, fine⟩ := sample_run
  exact ⟨h, w, init, run, mm_malloc_refuses base_eight init run (by decide) fun _ => fine⟩

end MallocLab.Explicit
