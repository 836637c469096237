import MallocLab.Implicit.Invariant

/-! The two searches that `implicit.c` can be compiled with find a block on the same heaps. -/

namespace MallocLab.Implicit

variable {base a found first : Nat} {m : Mem} {statics : Statics} {h : State} {w : World Statics} {r : Roving}
variable {b : Blk} {cs : List Call} {rs : List Nat}

/-- The test of the abstract search is that of the headers. -/
theorem Tracks.fits_iff (tracks : Tracks base h r) (member : b ∈ [Skeleton.prologue base] ++ r.shelves.blocks) :
    Skeleton.Fits h a b.addr ↔ suits a b = true := by
  obtain ⟨size, alloc, _, _⟩ := tracks.stands.reads member
  unfold Skeleton.Fits
  rw [size, alloc, ← suits_iff, not_not]

/-- Some block fits exactly when some block of the abstract heap suits. -/
theorem Tracks.exists_fit (tracks : Tracks base h r) :
    (∃ p ∈ (base + 8) :: r.shelves.blocks.map Blk.addr, Skeleton.Fits h a p) ↔
      ∃ b ∈ [Skeleton.prologue base] ++ r.shelves.blocks, suits a b = true := by
  constructor
  · rintro ⟨p, member, fits⟩
    have listed : p ∈ ([Skeleton.prologue base] ++ r.shelves.blocks).map Blk.addr := member
    obtain ⟨b, block, rfl⟩ := List.mem_map.mp listed
    exact ⟨b, block, (tracks.fits_iff block).mp fits⟩
  · rintro ⟨b, block, suit⟩
    exact ⟨b.addr, List.mem_map_of_mem (f := Blk.addr) block, (tracks.fits_iff block).mpr suit⟩

/-- A search of all blocks is not null exactly when some block suits. -/
theorem Tracks.found_iff {bs : List Blk} (tracks : Tracks base h r)
    (all : ∀ b, b ∈ bs ↔ b ∈ [Skeleton.prologue base] ++ r.shelves.blocks) :
    ((bs.find? (suits a)).map Blk.addr).getD null ≠ null ↔
      ∃ b ∈ [Skeleton.prologue base] ++ r.shelves.blocks, suits a b = true := by
  cases here : bs.find? (suits a) with
  | none =>
    -- Nothing suits, so the search has returned null.
    refine iff_of_false (by simp) ?_
    rintro ⟨b, block, suit⟩
    exact List.find?_eq_none.mp here b ((all b).mpr block) suit
  | some b =>
    have block := (all b).mp (List.mem_of_find?_eq_some here)
    exact iff_of_true (tracks.stands.real block) ⟨b, block, List.find?_some here⟩

/-- The search without `NEXT_FIT` returns the first block that suits, else null. -/
theorem firstFit_result (tracks : Tracks base h r) (a : Nat) :
    firstFit h a =
      some (h, ((([Skeleton.prologue base] ++ r.shelves.blocks).find? (suits a)).map Blk.addr).getD null) := by
  have place : h.statics.heapListp = h.memStartBrk + 8 := tracks.stands.rep.heads
  -- It goes round as the first search of the other variant does, but it starts at the prologue.
  have alike : ∀ bp, firstStep h a bp = (forwardStep h a bp).map id fun found => found.getD null := by
    intro bp
    unfold firstStep forwardStep
    by_cases last : getSize h (hdrp bp) = 0
    · simp [last]
    · rw [if_pos (Nat.pos_of_ne_zero last), if_pos last]
      split_ifs <;> rfl
  -- The search without `NEXT_FIT` starts at the prologue.
  have whole : [Skeleton.prologue base] ++ r.shelves.blocks = [] ++ Skeleton.prologue base :: r.shelves.blocks := rfl
  have walk := forward_result tracks whole a
  unfold firstFit
  rw [place, tracks.stands.start, loop_map _ alike]
  exact congrArg (Option.map fun bp => (h, bp)) (congrArg (Option.map fun found => found.getD null) walk)

/--
What the two searches for a block of size `asize` find in a heap with these blocks, and that they end.

The search with `NEXT_FIT` finds the first block that fits in cyclic order from `last_freep` on.
-/
structure Agreement (h : State) (all : List Nat) (asize found first : Nat) : Prop where
  nextFit : findFit h asize = some (h, found)
  firstFit : firstFit h asize = some (h, first)
  agree : found ≠ null ↔ first ≠ null
  complete : found ≠ null ↔ ∃ p ∈ all, Skeleton.Fits h asize p
  cyclic : found ≠ null → ∃ before after passed later, all = before ++ h.statics.lastFreep :: after ∧
    h.statics.lastFreep :: after ++ before = passed ++ found :: later ∧ Skeleton.Fits h asize found ∧
    ∀ p ∈ passed, ¬ Skeleton.Fits h asize p

/-- Both searches end in every state between two calls, and they agree on whether a block fits. -/
theorem Tracks.agreement (tracks : Tracks base h r) (a : Nat) :
    ∃ found first, Agreement h ((base + 8) :: r.shelves.blocks.map Blk.addr) a found first := by
  obtain ⟨b, member, here⟩ := tracks.starts
  obtain ⟨before, after, split⟩ := List.append_of_mem member
  -- The two halves of the search with `NEXT_FIT` are one search in cyclic order.
  have cyclic : nextFit r a = ((b :: after ++ before).find? (suits a)).map Blk.addr := by
    rw [nextFit_split tracks split here, List.find?_append]
  -- The blocks are the same, in another order.
  have all : ∀ c, c ∈ b :: after ++ before ↔ c ∈ [Skeleton.prologue base] ++ r.shelves.blocks := by
    intro c
    rw [split]
    simp only [List.mem_append]
    exact or_comm
  have found := tracks.found_iff (a := a) all
  rw [← cyclic] at found
  have first := tracks.found_iff (a := a) fun c => Iff.rfl
  refine ⟨_, _, findFit_result tracks a, firstFit_result tracks a, found.trans first.symm,
    found.trans tracks.exists_fit.symm, fun real => ?_⟩
  have addrs : (base + 8) :: r.shelves.blocks.map Blk.addr =
      before.map Blk.addr ++ h.statics.lastFreep :: after.map Blk.addr := by
    have shape := congrArg (List.map Blk.addr) split
    rw [List.map_append, List.map_append, List.map_cons (l := after), here, ← tracks.last] at shape
    exact shape
  -- What the cyclic search finds is the first block in its order.
  cases hit : (b :: after ++ before).find? (suits a) with
  | none =>
    rw [cyclic, hit] at real
    exact absurd rfl real
  | some c =>
    obtain ⟨suit, passed, later, cut, missed⟩ := List.find?_eq_some_iff_append.mp hit
    have block : ∀ d ∈ passed ++ c :: later, d ∈ [Skeleton.prologue base] ++ r.shelves.blocks := fun d inside =>
      (all d).mp (cut ▸ inside)
    have shape := congrArg (List.map Blk.addr) cut
    rw [List.map_append, List.map_append, List.map_cons, List.map_cons, here, ← tracks.last] at shape
    rw [cyclic, hit]
    refine ⟨_, _, passed.map Blk.addr, later.map Blk.addr, addrs, shape,
      (tracks.fits_iff (block c (by simp))).mpr suit, List.forall_mem_map.mpr fun d inside fits => ?_⟩
    have suit' := (tracks.fits_iff (block d (List.mem_append_left _ inside))).mp fits
    have missed' := missed d inside
    rw [suit'] at missed'
    exact absurd missed' (by decide)

/--
In every reachable state both searches end, and both find a block exactly when a free one is large enough.

The search with `NEXT_FIT` finds the first such block in cyclic order from `last_freep` on.
-/
theorem mm_searches_agree (ok : Base base) (init : mmInit (memInit m base statics) = some (h, 0))
    (run : Run mm NoWrap { heap := h, live := [] } cs rs w) :
    ∃ rest, WellFormed w.heap (base + 8) [base + 8] rest 16 ∧
      ∀ asize, ∃ found first, Agreement w.heap ((base + 8) :: rest) asize found first := by
  obtain ⟨r, tracks, owned⟩ := (services base).run (mmInit_tracks ok init) run
  exact ⟨_, Skeleton.wellFormed (w := w) rfl ⟨tracks.stands, owned⟩, tracks.agreement⟩

/-- After the small run the two searches agree. -/
theorem mm_searches_agree_sample :
    ∃ h w, mmInit zeroed = some (h, 0) ∧
      Run mm NoWrap { heap := h, live := [] } sampleCalls [24, 40, 72, 0, 0, 88, 0, 128] w ∧
      ∃ rest, WellFormed w.heap (8 + 8) [8 + 8] rest 16 ∧
        ∀ asize, ∃ found first, Agreement w.heap ((8 + 8) :: rest) asize found first := by
  obtain ⟨h, w, init, run⟩ := sample_run
  exact ⟨h, w, init, run, mm_searches_agree base_eight init run⟩

end MallocLab.Implicit
