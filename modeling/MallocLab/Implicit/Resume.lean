import MallocLab.Implicit.Search

/-! Where the searches of `implicit.c` start, and where the searches before them have ended. -/

namespace MallocLab.Implicit

/-- All blocks with the prologue as the first of them, as their headers describe them. -/
def heapBlocks (h : State) : List Blk := readBlocks h pointerTurns h.statics.heapListp

/-- The start of the block in which an address lies. -/
def blockOf (h : State) (x : Nat) : Option Nat :=
  ((heapBlocks h).find? fun b => x < b.addr + b.size).map Blk.addr

/-- Where `find_fit` ends: at the block that it returns, and else at the pointer that it remembers. -/
def searchEnd (h : State) (asize : Nat) : Option Nat :=
  (findFit h asize).map fun (h, bp) => if bp = null then h.statics.lastFreep else bp

/-- The next search starts at a block, and it looks at no block before that one on its way to the epilogue. -/
structure Resumes (h : State) (p : Nat) : Prop where
  start : h.statics.lastFreep = p
  onward : ∀ asize q, Visits (forwardStep h asize) h.statics.lastFreep q → p ≤ q

/-- The free neighbours of a block, which it joins when it is freed. -/
def freeNeighbours (h : State) (bp : Nat) : List Nat :=
  (if getAlloc h (ftrp h (prevBlkp h bp)) = 0 then [prevBlkp h bp] else []) ++
    (if getAlloc h (hdrp (nextBlkp h bp)) = 0 then [nextBlkp h bp] else [])

/--
A request for a block of this size leaves `last_freep` where its search ends.

Either the block at `last_freep` fits.
Or none does, and the extension is refused or joins no other block than the one at `last_freep`.
-/
def Stays (h : State) (asize : Nat) : Prop :=
  Skeleton.Fits h asize h.statics.lastFreep ∨
    (∀ b ∈ heapBlocks h, suits asize b = false) ∧
      (h.memMaxAddr < h.memBrk + maxWord asize chunksize ∨
        ∀ b ∈ (heapBlocks h).getLast?, b.used = false → b.addr = h.statics.lastFreep)

instance (h : State) (asize : Nat) : Decidable (Stays h asize) := inferInstanceAs (Decidable (_ ∨ _ ∧ (_ ∨ _)))

/--
What a run remembers of its last search.

`ended` is the block where that search ended, or the one that has absorbed it since.
`kept` is decided anew by every search and by every free that joins blocks.
-/
structure Mark where
  ended : Option Nat
  kept : Bool

/-- A request has been served or refused by the step from `h` to `h'`; a request for nothing is not searched for. -/
def Mark.malloc (m : Mark) (h h' : State) (size : Nat) : Mark :=
  if size = 0 then m
  else
    { ended := (searchEnd h (adjustedSize size)).bind (blockOf h')
      kept := decide (Stays h (adjustedSize size)) }

/-- A block has been freed by the step from `h` to `h'`. -/
def Mark.free (m : Mark) (h h' : State) (bp : Nat) : Mark where
  ended := m.ended.bind (blockOf h')
  kept :=
    if freeNeighbours h bp = [] then m.kept
    -- The joined block is where the next search starts, so the last one must have ended in it.
    else m.ended.any fun p => decide (p ∈ bp :: freeNeighbours h bp)

/-- An action has been carried out by the step from `h` to `h'`. -/
def Mark.next (m : Mark) (h h' : State) : Call → Mark
  | .malloc size => m.malloc h h' size
  | .free ptr => m.free h h' ptr
  | .realloc ptr size =>
    match mmMalloc h size with
    | none => m
    | some (served, newptr) =>
      if newptr = null then m.malloc h served size else (m.malloc h served size).free served h' ptr
  | .store _ _ => m

/-- The mark after a list of actions. -/
def markAfter (m : Mark) (w : World Statics) : List Call → Mark
  | [] => m
  | c :: cs =>
    match w.call mm c with
    | none => m
    | some (next, _) => markAfter (m.next w.heap next.heap c) next cs

variable {base a n p q : Nat} {m : Mark} {mem : Mem} {statics : Statics} {h h' : State} {w last : World Statics}
variable {r r' : Roving} {s : Shelves} {b c : Blk} {pre post before after : List Blk} {cs : List Call} {rs : List Nat}

/-- The headers describe the prologue and the blocks of the abstract heap. -/
theorem Tracks.heapBlocks_eq (tracks : Tracks base h r) :
    heapBlocks h = [Skeleton.prologue base] ++ r.shelves.blocks := by
  have place : h.statics.heapListp = h.memStartBrk + 8 := tracks.stands.rep.heads
  unfold heapBlocks
  rw [place, tracks.stands.start]
  exact tracks.stands.readBlocks rfl

/-- An address lies in the block that covers it. -/
theorem Tracks.blockOf_eq (tracks : Tracks base h r) (member : b ∈ [Skeleton.prologue base] ++ r.shelves.blocks)
    (lower : b.addr ≤ p) (upper : p < b.addr + b.size) : blockOf h p = some b.addr := by
  obtain ⟨before, after, split⟩ := List.append_of_mem member
  -- The blocks before it end where it starts, or earlier.
  have earlier : ∀ c ∈ before, decide (p < c.addr + c.size) ≠ true := by
    intro c inside
    have := (tracks.tiles split).before inside
    simp only [ne_eq, decide_eq_true_eq]
    omega
  have found : (before ++ b :: after).find? (fun c => decide (p < c.addr + c.size)) = some b := by
    rw [List.find?_append, List.find?_eq_none.mpr earlier, Option.none_or]
    exact List.find?_cons_of_pos (decide_eq_true upper)
  -- The block that holds the address is the first one that ends behind it.
  unfold blockOf
  rw [tracks.heapBlocks_eq, split, found]
  rfl

/-- A block lies in itself. -/
theorem Tracks.blockOf_start (tracks : Tracks base h r)
    (starts : Starts ([Skeleton.prologue base] ++ r.shelves.blocks) p) : blockOf h p = some p := by
  obtain ⟨b, member, rfl⟩ := starts
  have positive := (tracks.stands.reads member).2.2.2
  exact tracks.blockOf_eq member (Nat.le_refl _) (by omega)

/-- On its way to the epilogue a search looks only at blocks from `last_freep` on. -/
theorem Tracks.onward (tracks : Tracks base h r) (visits : Visits (forwardStep h a) h.statics.lastFreep q) :
    h.statics.lastFreep ≤ q := by
  obtain ⟨b, member, here⟩ := tracks.starts
  obtain ⟨before, after, split⟩ := List.append_of_mem member
  have tiles := tracks.tiles split
  have first : h.statics.lastFreep = b.addr := tracks.last.trans here.symm
  -- A turn of the loop goes from a block to the next one.
  have steps : ∀ left c right next, b :: after = left ++ c :: right →
      forwardStep h a (((c :: right).map Blk.addr).headD h.memBrk) = .inl next →
      next = (right.map Blk.addr).headD h.memBrk := by
    intro left c right next shape goes
    have split' : [Skeleton.prologue base] ++ r.shelves.blocks = (before ++ left) ++ c :: right := by
      rw [split, shape, List.append_assoc]
    have block : c ∈ [Skeleton.prologue base] ++ r.shelves.blocks := by simp [split']
    obtain ⟨size, _, follows, positive⟩ := tracks.stands.reads block
    simp only [forwardStep, List.map_cons, List.headD_cons, size, follows] at goes
    rw [if_pos positive] at goes
    split at goes
    · -- The turn ends the search, so it does not go on.
      exact absurd goes (by simp)
    · exact (Sum.inl.inj goes).symm.trans (tracks.stands.onward split')
  -- The header at the end stops the loop.
  have stops : forwardStep h a ((([] : List Blk).map Blk.addr).headD h.memBrk) = .inr none :=
    if_neg fun on => on tracks.stands.rep.arena.last
  rw [first] at visits ⊢
  -- So every place that is visited is a block of the rest, or the end.
  obtain ⟨passed, rest, cut, rfl⟩ :=
    Visits.suffix (fun rest => (rest.map Blk.addr).headD h.memBrk) steps stops visits
  cases rest with
  | nil =>
    -- The end of the heap is behind every block.
    have upper := tiles.cut.2.2.upper
    show b.addr ≤ h.memBrk
    omega
  | cons c rest =>
    show b.addr ≤ c.addr
    cases passed with
    | nil =>
      -- It is the block where the loop starts.
      obtain ⟨rfl, _⟩ := List.cons.inj cut
      exact Nat.le_refl _
    | cons d passed =>
      -- It is a block behind that one.
      obtain ⟨_, inside⟩ := List.cons.inj cut
      have := tiles.after (c := c) (by simp [inside])
      omega

/-- The next search starts at a block exactly when `last_freep` is that block. -/
theorem Tracks.resumes_iff (tracks : Tracks base h r) : Resumes h p ↔ r.last = p := by
  constructor
  · intro resumes
    exact tracks.last.symm.trans resumes.start
  · rintro rfl
    exact ⟨tracks.last, fun a q visits => tracks.last ▸ tracks.onward visits⟩

/-- The free neighbours that the code sees are the blocks that joining takes over. -/
theorem freeNeighbours_eq (b' : Blk) (rep : Rep layout heads h s) (split : s.blocks = pre ++ b :: post) :
    freeNeighbours h b.addr = (join Blk.used pre b' post).gone := by
  obtain ⟨front, x, last⟩ := layout.exists_prev h.memStartBrk pre
  have seen := rep.seen last split
  unfold freeNeighbours
  rw [seen.prev, seen.prevAlloc, seen.next, seen.nextAlloc]
  have behind : (if x.used.toNat = 0 then [x.addr] else []) = (joinPrev Blk.used pre b').2.2 := by
    -- The block before, when it is free.
    rcases prev_cases Blk.used pre with shut | ⟨rest, y, rfl, free⟩
    · rw [joinPrev_closed shut, Layout.prev_used last shut]
      rfl
    · have same : x = y := by
        rcases layout.prev_eq last with ⟨empty, _⟩ | here
        · simp at empty
        · exact (Option.some.inj ((List.getLast?_concat ..).symm.trans here)).symm
      rw [joinPrev_open free, same, free]
      rfl
  have ahead : ∀ c : Blk, (if (following post h.memBrk s.mark).used.toNat = 0
      then [(following post h.memBrk s.mark).addr] else []) = (joinNext c post).2.2 := by
    intro c
    -- The block behind, when it is free.
    rcases next_cases post with used | ⟨d, rest, rfl, free⟩
    · rw [joinNext_closed used, following_used used]
      rfl
    · rw [joinNext_open free]
      show (if d.used.toNat = 0 then [d.addr] else []) = _
      rw [free]
      rfl
  rw [behind, ahead (joinPrev Blk.used pre b').2.1]
  rfl

/-- The mark is about blocks of the heap, and it knows whether the next search starts where the last one ended. -/
def Marks (base : Nat) (r : Roving) (m : Mark) : Prop :=
  ∀ p, m.ended = some p →
    Starts ([Skeleton.prologue base] ++ r.shelves.blocks) p ∧ (m.kept = true ↔ r.last = p)

/-- After a join an address lies in the block that has absorbed its block. -/
theorem Tracks.blockOf_moved {lo hi : Nat} (tracks : Tracks base h r)
    (blocks : r.shelves.blocks = (join Blk.used pre b post).blocks) (tiles : Tiles lo (pre ++ b :: post) hi)
    (starts : Starts ([Skeleton.prologue base] ++ (pre ++ b :: post)) p) :
    blockOf h p = some (moved (join Blk.used pre b post) b p) := by
  have starts' := moved_starts tiles starts
  rw [← blocks] at starts'
  -- A place of the three blocks lies in the joined one.
  by_cases inside : p ∈ b.addr :: (join Blk.used pre b post).gone
  · obtain ⟨lower, upper⟩ := join_starts Blk.used tiles inside
    have member : (join Blk.used pre b post).blk ∈ [Skeleton.prologue base] ++ r.shelves.blocks := by
      rw [blocks]
      exact List.mem_append_right _ ((mem_join tiles).mpr (.inl rfl))
    rw [tracks.blockOf_eq member lower upper]
    exact congrArg some (if_pos inside).symm
  · -- Every other place is the start of a block that has not changed.
    have same : moved (join Blk.used pre b post) b p = p := if_neg inside
    rw [same] at starts' ⊢
    exact tracks.blockOf_start starts'

/-- Where the search ends, in terms of what it finds. -/
theorem Tracks.searchEnd_eq (tracks : Tracks base h r) (a : Nat) :
    searchEnd h a = some ((nextFit r a).getD r.last) := by
  unfold searchEnd
  rw [findFit_result tracks a]
  cases found : nextFit r a with
  | none => exact congrArg some tracks.last
  | some p =>
    obtain ⟨b, member, rfl, _⟩ := nextFit_fits found
    have real := tracks.stands.real (List.mem_append_right _ member)
    exact congrArg some (if_neg real)

/-- The search takes the block where it starts exactly when that one fits. -/
theorem Tracks.fits_last (tracks : Tracks base h r) (found : nextFit r a = some p) :
    Skeleton.Fits h a r.last ↔ r.last = p := by
  obtain ⟨b, member, here⟩ := tracks.starts
  constructor
  · intro fits
    rw [← here, tracks.fits_iff member] at fits
    obtain ⟨before, after, split⟩ := List.append_of_mem member
    rw [nextFit_split tracks split here, List.find?_cons_of_pos fits] at found
    exact here.symm.trans (Option.some.inj found)
  · rintro rfl
    obtain ⟨c, block, same, free, large⟩ := nextFit_fits found
    rw [← same]
    exact (tracks.fits_iff (List.mem_append_right _ block)).mpr (by simp [suits, free, large])

/-- The search finds nothing exactly when no block suits. -/
theorem Tracks.none_suits (tracks : Tracks base h r) :
    (∀ b ∈ heapBlocks h, suits a b = false) ↔ nextFit r a = none := by
  obtain ⟨b, member, here⟩ := tracks.starts
  obtain ⟨before, after, split⟩ := List.append_of_mem member
  rw [tracks.heapBlocks_eq, nextFit_split tracks split here, split]
  simp only [Option.map_eq_none_iff, Option.or_eq_none_iff, List.find?_eq_none, Bool.not_eq_true,
    List.forall_mem_append]
  exact and_comm

/-- An extension leaves the search where it is exactly when it joins no other block than the one there. -/
theorem Tracks.extend_stays (tracks : Tracks base h r) (size : Nat) :
    (∀ b ∈ (heapBlocks h).getLast?, b.used = false → b.addr = r.last) ↔ (r.extend size).1.last = r.last := by
  rw [tracks.heapBlocks_eq]
  show _ ↔ follow r.last (join Blk.used r.shelves.blocks _ []) = r.last
  rcases prev_cases Blk.used r.shelves.blocks with shut | ⟨front, x, split, free⟩
  · -- The last block is in use, so nothing is joined.
    refine iff_of_true ?_ (by simp [follow, join, joinPrev_closed shut, joinNext])
    intro b last free
    have used : b.used = true :=
      Layout.prev_used (L := layout) (List.getLast?_eq_some_iff.mp last).choose_spec shut
    exact absurd free (by simp [used])
  · -- The extension joins the block at the end of the heap.
    have joins : follow r.last (join Blk.used r.shelves.blocks { addr := r.shelves.brk, size := size, used := false }
        []) = x.addr := by
      rw [split]
      simp [follow, join, joinPrev_open free, joinNext]
    rw [joins, split, ← List.append_assoc, List.getLast?_concat]
    simp [free]

/-- A search ends at a block. -/
theorem Tracks.end_starts (tracks : Tracks base h r) (a : Nat) :
    Starts ([Skeleton.prologue base] ++ r.shelves.blocks) ((nextFit r a).getD r.last) := by
  cases found : nextFit r a with
  | none => exact tracks.starts
  | some p =>
    obtain ⟨b, member, here, _⟩ := nextFit_fits found
    exact ⟨b, List.mem_append_right _ member, here⟩

/-- Serving a request moves no start. -/
theorem malloc_starts {fixed : List Blk} {limit : Nat} (step : policy.malloc limit r n = (r', q))
    (starts : Starts (fixed ++ r.shelves.blocks) p) : Starts (fixed ++ r'.shelves.blocks) p := by
  cases found : policy.pick r (policy.adjust n) with
  | some e =>
    rw [Skeleton.Policy.malloc_picked found] at step
    obtain ⟨rfl, -⟩ := Prod.mk.inj step
    -- The block that is found is carved where it lies.
    exact carve_starts starts
  | none =>
    by_cases room : policy.brk r + max (policy.adjust n) 4096 ≤ limit
    · rw [Skeleton.Policy.malloc_extended found room rfl] at step
      obtain ⟨rfl, -⟩ := Prod.mk.inj step
      -- The extension may join the last block, whose start stays.
      exact carve_starts (join_end_starts starts)
    · rw [Skeleton.Policy.malloc_refused found room] at step
      obtain ⟨rfl, -⟩ := Prod.mk.inj step
      exact starts

/-- After a request the next search starts where its search ended exactly in the states that are said to stay. -/
theorem Tracks.stays_iff (tracks : Tracks base h r) (step : policy.malloc (base + maxHeap) r n = (r', q)) :
    Stays h (blockSize n) ↔ r'.last = (nextFit r (blockSize n)).getD r.last := by
  have limit : h.memMaxAddr = base + maxHeap := (parts base).limit tracks
  have brk : h.memBrk = policy.brk r := (parts base).brk tracks
  have chunk : maxWord (blockSize n) chunksize = max (blockSize n) 4096 := maxWord_eq _ _
  unfold Stays
  rw [tracks.last, tracks.none_suits, limit, brk, chunk]
  cases found : nextFit r (blockSize n) with
  | some e =>
    -- A search that succeeds leaves `last_freep` alone.
    rw [Skeleton.Policy.malloc_picked found] at step
    obtain ⟨rfl, -⟩ := Prod.mk.inj step
    rw [tracks.fits_last found]
    exact or_iff_left fun missed => by simp at missed
  | none =>
    -- No block fits, so the one where the search starts does not.
    have misses : ¬ Skeleton.Fits h (blockSize n) r.last := by
      obtain ⟨b, member, here⟩ := tracks.starts
      have unsuited := tracks.none_suits.mpr found b (tracks.heapBlocks_eq ▸ member)
      rw [← here, tracks.fits_iff member, unsuited]
      decide
    rw [or_iff_right misses, and_iff_right rfl]
    by_cases room : policy.brk r + max (policy.adjust n) 4096 ≤ base + maxHeap
    · rw [Skeleton.Policy.malloc_extended found room rfl] at step
      -- The block is placed in the extension, which does not move `last_freep` again.
      have last : (r.extend (max (blockSize n) 4096)).1.last = r'.last := congrArg (fun result => result.1.last) step
      rw [← last]
      exact (or_iff_right (Nat.not_lt_of_le room)).trans (tracks.extend_stays _)
    · rw [Skeleton.Policy.malloc_refused found room] at step
      obtain ⟨rfl, -⟩ := Prod.mk.inj step
      -- A refused request moves nothing.
      exact iff_of_true (.inl (Nat.lt_of_not_le room)) rfl

/-- A request keeps the mark. -/
theorem Tracks.malloc_marks (tracks : Tracks base h r) (tracks' : Tracks base h' r') (positive : 1 ≤ n)
    (small : n ≤ maxRequest) (step : policy.malloc (base + maxHeap) r n = (r', q)) :
    Marks base r' (m.malloc h h' n) := by
  unfold Mark.malloc
  rw [if_neg (by omega), (adjustedSize_eq positive small).1]
  intro p ended
  obtain ⟨e, before, now⟩ := Option.bind_eq_some_iff.mp ended
  rw [tracks.searchEnd_eq] at before
  obtain rfl := Option.some.inj before
  -- The search ends at a block, which is one of the new blocks too.
  have starts := malloc_starts step (tracks.end_starts (blockSize n))
  obtain rfl := Option.some.inj ((tracks'.blockOf_start starts).symm.trans now)
  exact ⟨starts, decide_eq_true_iff.trans (tracks.stays_iff step)⟩

/-- Freeing a block keeps the mark. -/
theorem Tracks.free_marks {size : Nat} (tracks : Tracks base h r) (tracks' : Tracks base h' (r.free p))
    (occupied : Occupied r.shelves.blocks p size) (marks : Marks base r m) :
    Marks base (r.free p) (m.free h h' p) := by
  obtain ⟨b, member, rfl, -, used⟩ := occupied
  have rep := tracks.stands.rep
  obtain ⟨pre, post, split, located⟩ := Skeleton.Rep.locate rep member
  obtain ⟨shape, blocks⟩ := Roving.free_eq located
  obtain ⟨rep₁, _⟩ := Skeleton.Rep.release rep heads_stable rfl split used
  obtain ⟨_, _, _, _, tiles⟩ := rep₁.tiles
  -- What the code reads of the two neighbours is what the join takes away.
  have taken := freeNeighbours_eq { b with used := false } rep split
  rw [shape] at tracks' ⊢
  intro p' ended
  obtain ⟨p, before, now⟩ := Option.bind_eq_some_iff.mp ended
  obtain ⟨starts, iff⟩ := marks p before
  rw [split] at starts
  have stood : Starts ([Skeleton.prologue base] ++ (pre ++ { b with used := false } :: post)) p :=
    starts.congr (by simp)
  have here := tracks'.blockOf_moved blocks tiles stood
  rw [now] at here
  obtain rfl := Option.some.inj here
  refine ⟨?_, ?_⟩
  · have starts' := moved_starts tiles stood
    rw [← blocks] at starts'
    exact starts'
  · -- The mark is asked whether one of the joined blocks is the one it follows.
    refine Iff.trans ?_ follow_moved.symm
    unfold Mark.free
    simp only [taken, before, Option.any_some]
    split
    · exact iff
    · exact decide_eq_true_iff

/-- Moving a block is a request and then a free. -/
theorem Mark.next_realloc {served : State} (done : mmMalloc h n = some (served, q)) :
    m.next h h' (.realloc p n) = if q = null then m.malloc h served n else (m.malloc h served n).free served h' p := by
  simp only [Mark.next, done]

/-- Every action keeps the mark. -/
theorem next_marks {c : Call} (holds : Holds (Tracks base) policy.blocks w r) (legal : w.Legal c)
    (fine : NoWrap w.heap c) (marks : Marks base r m) :
    ∃ next r' q, w.call mm c = some (next, q) ∧ Holds (Tracks base) policy.blocks next r' ∧
      Marks base r' (m.next w.heap next.heap c) := by
  obtain ⟨next, r', q, done, step, holds', _⟩ := (services base).call holds legal fine
  refine ⟨next, r', q, done, holds', ?_⟩
  cases c with
  | malloc n => exact holds.rep.malloc_marks holds'.rep legal.1 legal.2 step
  | free p =>
    obtain ⟨size, live⟩ := legal
    obtain ⟨_, occupied, _⟩ := holds.owned.block p size live
    obtain ⟨rfl, -⟩ := Prod.mk.inj step
    exact holds.rep.free_marks holds'.rep occupied marks
  -- A reallocation searches first, and then it frees the old block.
  | realloc p n =>
    obtain ⟨⟨size, live⟩, positive, small⟩ := legal
    obtain ⟨_, occupied, _⟩ := holds.owned.block p size live
    obtain ⟨h₁, r₁, q₁, served, done₁, tracks₁, _, outcome⟩ := (parts base).malloc holds.rep positive small fine
    rw [← Skeleton.mmMalloc_eq place extendHeap] at done₁
    have searched := holds.rep.malloc_marks (m := m) tracks₁ positive small served
    have move : policy.realloc (base + maxHeap) r p n = (r', q) := step
    unfold Skeleton.Policy.realloc at move
    rw [served] at move
    rw [Mark.next_realloc done₁]
    rcases outcome with ⟨rfl, rfl⟩ | ⟨real, ⟨_, _, _, gained⟩⟩
    · obtain ⟨rfl, -⟩ := Prod.mk.inj ((if_pos rfl).symm.trans move)
      rw [if_pos rfl]
      exact searched
    · obtain ⟨rfl, -⟩ := Prod.mk.inj ((if_neg real).symm.trans move)
      rw [if_neg real]
      exact tracks₁.free_marks holds'.rep ((gained p _).mpr (.inl occupied)) searched
  | store addr byte =>
    obtain ⟨rfl, -⟩ := Prod.mk.inj step
    exact marks

/-- The mark is kept along every run. -/
theorem run_marks (run : Run mm NoWrap w cs rs last) (holds : Holds (Tracks base) policy.blocks w r)
    (marks : Marks base r m) :
    ∃ r', Holds (Tracks base) policy.blocks last r' ∧ Marks base r' (markAfter m w cs) := by
  induction run generalizing r m with
  | nil w => exact ⟨r, holds, marks⟩
  | cons legal fine step _ ih =>
    obtain ⟨next, r', q, done, holds', marks'⟩ := next_marks holds legal fine marks
    -- The action returns only once, so the run goes on from there.
    rw [step] at done
    obtain ⟨rfl, rfl⟩ := Prod.mk.inj (Option.some.inj done)
    simp only [markAfter, step]
    exact ih holds' marks'

/--
When the search after a run starts at the block where the last search of the run ended.

It does exactly when the last search, or the last free since then that joined blocks, left the two equal.
-/
theorem mm_search_resumes (ok : Base base) (init : mmInit (memInit mem base statics) = some (h, 0))
    (run : Run mm NoWrap { heap := h, live := [] } cs rs w)
    (ended : (markAfter { ended := none, kept := true } { heap := h, live := [] } cs).ended = some p) :
    Resumes w.heap p ↔ (markAfter { ended := none, kept := true } { heap := h, live := [] } cs).kept = true := by
  have start : Marks base (initial base) { ended := none, kept := true } := fun _ none => nomatch none
  obtain ⟨r, holds, marks⟩ := run_marks run (mmInit_tracks ok init) start
  exact holds.rep.resumes_iff.trans (marks p ended).2.symm

/-- The last search of the small run ended at 24, and the next one starts there. -/
theorem mm_search_resumes_sample :
    ∃ h w, mmInit zeroed = some (h, 0) ∧
      Run mm NoWrap { heap := h, live := [] } sampleCalls [24, 40, 72, 0, 0, 88, 0, 128] w ∧
      (markAfter { ended := none, kept := true } { heap := h, live := [] } sampleCalls).ended = some 24 ∧
      Resumes w.heap 24 := by
  obtain ⟨h, w, init, run⟩ := sample_run
  have seen : (mmInit zeroed).map (fun (h, _) =>
      let m := markAfter { ended := none, kept := true } { heap := h, live := [] } sampleCalls
      (m.ended, m.kept)) = some (some 24, true) := by decide +kernel
  rw [init] at seen
  obtain ⟨ended, kept⟩ := Prod.mk.inj (Option.some.inj seen)
  exact ⟨h, w, init, run, ended, (mm_search_resumes base_eight init run ended).mpr kept⟩

/-- A search that succeeded at 40 is not resumed there: the next one starts at the prologue and returns 24. -/
theorem mm_search_restarts :
    ∃ h w, mmInit zeroed = some (h, 0) ∧
      Run mm NoWrap { heap := h, live := [] } [.malloc 8, .malloc 20, .free 24] [24, 40, 0] w ∧
      (markAfter { ended := none, kept := true } { heap := h, live := [] }
        [.malloc 8, .malloc 20, .free 24]).ended = some 40 ∧
      w.heap.statics.lastFreep = 16 ∧ (findFit w.heap 16).map Prod.snd = some 24 ∧ ¬ Resumes w.heap 40 := by
  obtain ⟨h, w, init, run, test⟩ := trial_run (show trial mm NoWrap (mmInit zeroed)
    [.malloc 8, .malloc 20, .free 24]
    (fun w => decide (w.heap.statics.lastFreep = 16 ∧ (findFit w.heap 16).map Prod.snd = some 24)) =
      some (0, [24, 40, 0], true) by decide +kernel)
  have seen : (mmInit zeroed).map (fun (h, _) =>
      (markAfter { ended := none, kept := true } { heap := h, live := [] } [.malloc 8, .malloc 20, .free 24]).ended) =
      some (some 40) := by decide +kernel
  rw [init] at seen
  obtain ⟨last, found⟩ := of_decide_eq_true test
  refine ⟨h, w, init, run, Option.some.inj seen, last, found, fun resumes => ?_⟩
  exact absurd (last.symm.trans resumes.start) (by decide)

end MallocLab.Implicit
