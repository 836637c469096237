import MallocLab.Implicit.Mm
import MallocLab.Implicit.Roving
import MallocLab.Skeleton.Bare
import MallocLab.Skeleton.Frame
import MallocLab.Skeleton.Reader

/-! The functions of `implicit.c` do to the blocks what the abstract next-fit allocator does. -/

namespace MallocLab.Implicit

/-- No block is linked anywhere, so the offsets make no difference. -/
abbrev links : Offsets := .prevFirst

/-- The blocks after the prologue, and no lists. -/
def layout : Layout where
  links := links
  loose := false
  least := 16
  style := style
  fixed := fun base => [Skeleton.prologue base]
  before := fun _ _ => null
  sentinel := fun _ _ => none
  room := by decide
  solid := Skeleton.prologue_solid
  guarded := Skeleton.prologue_guarded
  pinned := by simp
  single := single_bare

/-- The heap is searched from its prologue on. -/
def heads (h : State) (_ : Nat → List Nat) : Prop := h.statics.heapListp = h.memStartBrk + 8

/-- The same, while the search is to go on from a given pointer. -/
def headsAt (last : Nat) (h : State) (_ : Nat → List Nat) : Prop :=
  h.statics = { heapListp := h.memStartBrk + 8, lastFreep := last }

/-- Stores into the blocks leave the statics alone. -/
theorem heads_stable : Stable layout heads :=
  stable_statics fun (statics : Statics) start _ => statics.heapListp = start + 8

/-- They leave `last_freep` alone, too. -/
theorem headsAt_stable (last : Nat) : Stable layout (headsAt last) :=
  stable_statics fun (statics : Statics) start _ => statics = { heapListp := start + 8, lastFreep := last }

variable {h h' : State} {s : Shelves} {b : Blk} {pre post : List Blk} {base a n p last : Nat}

/-- No block is on a shelf. -/
theorem shelfless : ∀ size, layout.style.cls size = none := fun _ => rfl

/-- Remembering a block keeps everything else. -/
theorem keeper : Keeper layout heads (fun h _ => some h) fun h bp _ => some (remember h bp) where
  stable := heads_stable
  remove := (Skeleton.idle shelfless heads_stable).remove
  insert := fun {h _ b} rep _ _ _ => ⟨remember h b.addr, rfl,
    ⟨rep.threaded, rep.heads, rep.plain, rep.unmarked, rep.brk, ⟨rep.area.limit, rep.area.fits⟩⟩,
    ⟨rfl, rfl, fun _ _ _ _ _ => rfl⟩, fun _ _ _ => rfl⟩

/-- The turns of `coalesce` mark the merged block and remember it. -/
theorem turns : Turns layout coalesce (fun h _ => some h) (fun h _ _ => some h)
    fun h bp _ => some (remember h bp) := Skeleton.bareTurns layout (by decide) remember

/-- `place` looks up nothing but the block, wherever the search is to go on. -/
theorem places {heads : State → (Nat → List Nat) → Prop} (stable : Stable layout heads) :
    Skeleton.Places layout heads place :=
  Skeleton.place_rep (Skeleton.idle shelfless stable)
    (Skeleton.settles_coalesce (Skeleton.idle shelfless stable) turns) rfl rfl (fun _ => rfl) fun _ => rfl

/-- The parts of the file, which has no lists but remembers a block. -/
theorem scheme : Skeleton.Scheme layout heads coalesce (fun h _ => some h) place (fun h _ _ => some h)
    fun h bp _ => some (remember h bp) where
  keeper := keeper
  single := Skeleton.idle shelfless heads_stable
  turns := turns
  places := places heads_stable
  tight := rfl
  small := by decide
  closed := rfl

/-- The block size that the code computes. -/
theorem adjustedSize_eq (positive : 1 ≤ n) (small : n ≤ maxRequest) :
    adjustedSize n = blockSize n ∧ Skeleton.Adjusted n (blockSize n) := by
  unfold maxRequest at small
  have rounded : adjustedSize n = blockSize n := by
    unfold adjustedSize blockSize dsize
    split
    · omega
    · rw [add32_eq (a := n) (by omega), add32_eq (by omega), mul32_eq (by omega)]
  refine ⟨rounded, ?_⟩
  unfold blockSize
  constructor <;> omega

/-- Every return of `coalesce` but the first remembers the block that is returned. -/
theorem coalesce_last (done : coalesce h p = some (h', n)) :
    (getAlloc h (ftrp h (prevBlkp h p)) ≠ 0 ∧ getAlloc h (hdrp (nextBlkp h p)) ≠ 0 ∧ h' = h) ∨
      h'.statics.lastFreep = n := by
  unfold coalesce at done
  simp only at done
  -- Both neighbours are used.
  split at done
  next shut =>
    obtain ⟨rfl, _⟩ := Prod.mk.inj (Option.some.inj done)
    exact .inl ⟨shut.1, shut.2, rfl⟩
  next =>
    split at done
    -- The next block is joined, and `last_freep` is set.
    next =>
      obtain ⟨rfl, rfl⟩ := Prod.mk.inj (Option.some.inj done)
      exact .inr rfl
    next =>
      split at done
      -- The block before is joined.
      next =>
        obtain ⟨rfl, rfl⟩ := Prod.mk.inj (Option.some.inj done)
        exact .inr rfl
      -- Both neighbours are joined.
      next =>
        obtain ⟨rfl, rfl⟩ := Prod.mk.inj (Option.some.inj done)
        exact .inr rfl

/-- After `coalesce` the search goes on from the merged block, or from where it was when nothing was merged. -/
theorem coalesce_follows (rep : Rep layout heads h s) (split : s.blocks = pre ++ b :: post)
    (done : coalesce h b.addr = some (h', (join Blk.used pre b post).blk.addr)) :
    h'.statics.lastFreep = follow h.statics.lastFreep (join Blk.used pre b post) := by
  obtain ⟨front, a, last⟩ := layout.exists_prev h.memStartBrk pre
  have seen := rep.seen last split
  unfold follow
  rcases prev_cases Blk.used pre with shut | ⟨rest, x, rfl, prevFree⟩
  · rcases next_cases post with used | ⟨c, rest, rfl, nextFree⟩
    · -- Neither neighbour is free, so the code returns early.
      have turn := turns.alone seen (Layout.prev_used last shut) (following_used used) rfl
      rw [turn] at done
      obtain ⟨rfl, _⟩ := Prod.mk.inj (Option.some.inj done)
      simp [join, joinPrev_closed shut, joinNext_closed used]
    · -- The next block is free, and `last_freep` follows the joined block.
      rcases coalesce_last done with ⟨_, shut', _⟩ | followed
      · have clear : getAlloc h (hdrp (nextBlkp h b.addr)) = 0 := by
          rw [seen.next, seen.nextAlloc]
          show (c.used).toNat = 0
          rw [nextFree]
          rfl
        -- The code would have to see a used block there.
        exact absurd clear shut'
      · rw [followed]
        simp [join, joinPrev_closed shut, joinNext_open nextFree]
  · -- The block before is free, and `last_freep` follows as well.
    rcases coalesce_last done with ⟨shut', _, _⟩ | followed
    · have here : a.used = false := by
        rcases layout.prev_eq last with ⟨empty, _⟩ | same
        · simp at empty
        · rw [List.getLast?_concat, Option.some.injEq] at same
          exact same ▸ prevFree
      have clear : getAlloc h (ftrp h (prevBlkp h b.addr)) = 0 := by
        rw [seen.prev, seen.prevAlloc, here]
        rfl
      -- The code would have to see a used block before.
      exact absurd clear shut'
    · have gone : (join Blk.used (rest ++ [x]) b post).gone ≠ [] := by
        simp [join, joinPrev_open prevFree]
      rw [followed, if_neg gone]

/-- The machine between two calls: the search goes on from the prologue or from a block of the heap. -/
structure Tracks (base : Nat) (h : State) (r : Roving) : Prop where
  stands : Skeleton.Stands layout heads base h r.shelves
  last : h.statics.lastFreep = r.last
  starts : Starts ([Skeleton.prologue base] ++ r.shelves.blocks) r.last

/-- The machine with its place to go on from, as the layouts with such a place see it. -/
theorem Tracks.rep {r : Roving} (tracks : Tracks base h r) : Rep layout (headsAt r.last) h r.shelves := by
  obtain ⟨⟨rep, _, _, _⟩, last, _⟩ := tracks
  refine ⟨rep.threaded, ?_, rep.plain, rep.unmarked, rep.brk, rep.area⟩
  have place : h.statics.heapListp = h.memStartBrk + 8 := rep.heads
  unfold headsAt
  rw [← place, ← last]

/-- The prologue and the blocks tile the heap. -/
theorem Tracks.tiles {r : Roving} {before after : List Blk} (tracks : Tracks base h r)
    (split : [Skeleton.prologue base] ++ r.shelves.blocks = before ++ after) :
    Tiles (base + 8) (before ++ after) h.memBrk := by
  have tiles := tracks.stands.rep.arena.tiles
  rw [tracks.stands.start] at tiles
  exact split ▸ tiles

/-- `place` leaves the place to go on from alone. -/
theorem place_last {r : Roving} (tracks : Tracks base h r) (adjusted : Skeleton.Adjusted n a)
    (fit : policy.Fits r a p) (done : place h p a = some h') : h'.statics.lastFreep = r.last := by
  obtain ⟨b, member, rfl, free, large⟩ := fit
  obtain ⟨h'', done', rep', _, _⟩ := places (headsAt_stable r.last) tracks.rep tracks.stands.filed
    tracks.stands.separated member free large adjusted.whole adjusted.least
  rw [done'] at done
  obtain rfl := Option.some.inj done
  have found : h''.statics = _ := rep'.heads
  rw [found]

/-- A search for the first element is a search for the first answer. -/
theorem findSome?_guard {α β : Type} (l : List α) (ok : α → Bool) (f : α → β) :
    l.findSome? (Option.map f ∘ Option.guard fun x => ok x) = (l.find? ok).map f := by
  rw [List.find?_eq_findSome?_guard, List.map_findSome?]

/-- The test of the code, once it has read the header. -/
theorem suits_iff : (¬ b.used.toNat ≠ 0 ∧ a ≤ b.size) ↔ suits a b = true := by
  cases used : b.used <;> simp [suits, used]

section Search

variable {r : Roving} {before after : List Blk}

/-- The first search finds the first block that suits from the last one on. -/
theorem forward_result (tracks : Tracks base h r)
    (split : [Skeleton.prologue base] ++ r.shelves.blocks = before ++ b :: after) (a : Nat) :
    loop (forwardStep h a) pointerTurns b.addr = some (((b :: after).find? (suits a)).map Blk.addr) := by
  -- The loop goes along the blocks from the place where it starts.
  have walk : loop (forwardStep h a) pointerTurns b.addr =
      some (((b :: after).findSome? (Option.map (fun c => some c.addr) ∘ Option.guard fun c => suits a c)).getD
        none) := by
    refine loop_walk (fun rest => (rest.map Blk.addr).headD h.memBrk) (tracks.stands.short split).2 ?_ ?_
    · intro left c right shape
      have split' : [Skeleton.prologue base] ++ r.shelves.blocks = (before ++ left) ++ c :: right := by
        rw [split, shape, List.append_assoc]
      have member : c ∈ [Skeleton.prologue base] ++ r.shelves.blocks := by simp [split']
      obtain ⟨size, alloc, next, positive⟩ := tracks.stands.reads member
      simp only [forwardStep, List.map_cons, List.headD_cons, size, alloc, next, tracks.stands.onward split']
      rw [if_pos positive]
      by_cases fine : suits a c = true
      · -- A free block that is large enough ends the search.
        rw [if_pos (suits_iff.mpr fine)]
        simp [Option.guard, fine]
      · -- Every other block is passed.
        rw [if_neg fun on => fine (suits_iff.mp on)]
        simp [Option.guard, fine]
    · -- The header at the end of the heap stops it.
      exact if_neg (fun on => on tracks.stands.rep.arena.last)
  rw [walk, findSome?_guard]
  cases (b :: after).find? (suits a) <;> rfl

/-- The second search finds the first block that suits before the last one. -/
theorem wrapped_result (tracks : Tracks base h r)
    (split : [Skeleton.prologue base] ++ r.shelves.blocks = before ++ b :: after) (a : Nat) :
    loop (wrappedStep h a b.addr) pointerTurns (h.memStartBrk + 8) =
      some ((((before.find? (suits a)).map fun c => Sum.inl c.addr)).getD (Sum.inr b.addr)) := by
  have tiles := tracks.tiles split
  -- It starts at the prologue.
  have first : h.memStartBrk + 8 = (before.map Blk.addr).headD b.addr := by
    rw [tracks.stands.start]
    cases before with
    | nil => exact tiles.1.symm
    | cons c before => exact tiles.1.symm
  -- The loop goes along the blocks in front of that place.
  have walk : loop (wrappedStep h a b.addr) pointerTurns (h.memStartBrk + 8) =
      some ((before.findSome? (Option.map (fun c => Sum.inl c.addr) ∘ Option.guard fun c => suits a c)).getD
        (Sum.inr b.addr)) := by
    rw [first]
    refine loop_walk (fun rest => (rest.map Blk.addr).headD b.addr) (tracks.stands.short split).1 ?_ ?_
    · intro left c right cut
      have split' : [Skeleton.prologue base] ++ r.shelves.blocks = left ++ c :: (right ++ b :: after) := by
        rw [split, cut, List.append_assoc, List.cons_append]
      have member : c ∈ [Skeleton.prologue base] ++ r.shelves.blocks := by simp [split']
      obtain ⟨size, alloc, next, positive⟩ := tracks.stands.reads member
      -- Such a block starts below the place.
      have below : c.addr < b.addr := by
        have := tiles.before (c := c) (by simp [cut])
        omega
      have onward : c.addr + c.size = (right.map Blk.addr).headD b.addr := by
        rw [tracks.stands.onward split']
        cases right <;> rfl
      simp only [wrappedStep, List.map_cons, List.headD_cons, size, alloc, next, onward]
      rw [if_pos below]
      by_cases fine : suits a c = true
      · -- A free block that is large enough ends the search.
        rw [if_pos (suits_iff.mpr fine)]
        simp [Option.guard, fine]
      · -- Every other block is passed.
        rw [if_neg fun on => fine (suits_iff.mp on)]
        simp [Option.guard, fine]
    · -- The place where the search began stops it.
      exact if_neg (by simp)
  rw [walk, findSome?_guard]

/-- The two halves of the abstract search are the blocks from the last one on, and those before it. -/
theorem nextFit_split (tracks : Tracks base h r)
    (split : [Skeleton.prologue base] ++ r.shelves.blocks = before ++ b :: after) (here : b.addr = r.last) (a : Nat) :
    nextFit r a = (((b :: after).find? (suits a)).or (before.find? (suits a))).map Blk.addr := by
  have tiles := tracks.tiles split
  have used : suits a (Skeleton.prologue base) = false := rfl
  show ((r.shelves.blocks.dropWhile _ ++ r.shelves.blocks.takeWhile _).find? (suits a)).map Blk.addr = _
  -- The search either starts at the prologue, which is not free, or at a block of the heap proper.
  cases before with
  | nil =>
    obtain ⟨rfl, rest⟩ : Skeleton.prologue base = b ∧ r.shelves.blocks = after := by simpa using split
    -- From the prologue on, no block is behind.
    have ahead : ∀ c ∈ r.shelves.blocks, ¬ c.addr < r.last := by
      intro c member
      rw [rest] at member
      have := tiles.after member
      omega
    -- Then all blocks are searched in the order of the heap.
    rw [← rest]
    cases blocks : r.shelves.blocks with
    | nil => simp [used]
    | cons c after' =>
      have above := ahead c (by simp [blocks])
      simp [List.find?_cons, used, above]
  | cons first before =>
    obtain ⟨rfl, rest⟩ : Skeleton.prologue base = first ∧ r.shelves.blocks = before ++ b :: after := by
      simpa using split
    -- The blocks in front of the place are the ones that are left to the end.
    have behind : ∀ c ∈ before, decide (c.addr < r.last) = true := by
      intro c member
      have := tiles.before (c := c) (by simp [member])
      have := (tiles.within (b := c) (by simp [member])).least
      rw [decide_eq_true_eq]
      omega
    -- The block at the place is searched first.
    have stays : decide (b.addr < r.last) = false := by simp [here]
    have skip : (Skeleton.prologue base :: before).find? (suits a) = before.find? (suits a) :=
      List.find?_cons_of_neg (by simp [used])
    rw [rest, List.takeWhile_append_of_pos behind, List.dropWhile_append_of_pos behind,
      List.takeWhile_cons_of_neg (by simp [stays]), List.dropWhile_cons_of_neg (by simp [stays]),
      List.append_nil, List.find?_append, skip]

/-- `find_fit` finds what the abstract search finds, and the next search goes on from the same block. -/
theorem findFit_result (tracks : Tracks base h r) (a : Nat) :
    findFit h a = some (h, (nextFit r a).getD null) := by
  obtain ⟨stands, last, b, member, here⟩ := tracks
  have tracks : Tracks base h r := ⟨stands, last, b, member, here⟩
  obtain ⟨before, after, split⟩ := List.append_of_mem member
  have forward := forward_result tracks split a
  have wrapped := wrapped_result tracks split a
  have place : h.statics.heapListp = h.memStartBrk + 8 := stands.rep.heads
  rw [here, ← last] at forward wrapped
  rw [← place] at wrapped
  rw [nextFit_split tracks split here]
  -- The second loop runs only when the first one finds nothing.
  unfold findFit
  refine bind_step forward ?_
  cases (b :: after).find? (suits a) with
  | some c => rfl
  | none =>
    refine bind_step wrapped ?_
    cases before.find? (suits a) with
    | some c => rfl
    | none => rfl

end Search

/-- What the search finds is a free block that is large enough. -/
theorem nextFit_fits {r : Roving} (found : nextFit r a = some p) : policy.Fits r a p := by
  obtain ⟨b, here, rfl⟩ := Option.map_eq_some_iff.mp found
  have suit := List.find?_some here
  have member : b ∈ r.shelves.blocks := by
    rcases List.mem_append.mp (List.mem_of_find?_eq_some here) with ahead | behind
    · exact (List.dropWhile_sublist _).subset ahead
    · exact (List.takeWhile_sublist _).subset behind
  obtain ⟨free, large⟩ : b.used = false ∧ a ≤ b.size := by simpa [suits] using suit
  exact ⟨b, member, rfl, free, large⟩

/-- The parts of the file apart from its search. -/
theorem quiet (base : Nat) : Skeleton.Parts (Skeleton.shelved style blockSize fun _ _ => none) base
    (Skeleton.Stands layout heads base) adjustedSize (fun h _ => some (h, null)) (Skeleton.placed place)
    (Skeleton.extended extendHeap) mmFree :=
  scheme.parts adjustedSize_eq (fun fits _ => fits.least) (fun _ _ => rfl) fun _ _ found => nomatch found

/-- After an extension the search goes on from the new block if that one took another over. -/
theorem extend_last {size : Nat} (rep : Rep layout heads h s) (whole : size % 8 = 0) (least : 16 ≤ size)
    (room : h.memBrk + size ≤ h.memMaxAddr)
    (done : extendHeap h (size / wsize) =
      some (h', (join Blk.used s.blocks { addr := s.brk, size := size, used := false } []).blk.addr)) :
    h'.statics.lastFreep =
      follow h.statics.lastFreep (join Blk.used s.blocks { addr := s.brk, size := size, used := false } []) := by
  have brk := rep.brk
  have limit := rep.area.fits
  let fresh : Blk := { addr := s.brk, size := size, used := false }
  have start : fresh.addr = h.memBrk := brk.symm
  obtain ⟨grew, _⟩ := rep.grow heads_stable whole least room
  -- The new space is one more block, which is coalesced.
  have merged : coalesce { h with mem := grown h.mem h.memBrk size, memBrk := h.memBrk + size } fresh.addr =
      some (h', (join Blk.used s.blocks fresh []).blk.addr) := by
    rw [start]
    exact (Skeleton.extendHeap_eq whole (by omega) rep (by omega) room).symm.trans done
  have last := coalesce_follows grew rfl merged
  exact last

/-- The functions of `implicit.c` are the parts of its abstract allocator. -/
theorem parts (base : Nat) : Skeleton.Parts policy base (Tracks base) adjustedSize findFit
    (Skeleton.placed place) (Skeleton.extended extendHeap) mmFree where
  adjusted := adjustedSize_eq
  limit := fun tracks => (quiet base).limit tracks.stands
  brk := fun tracks => (quiet base).brk tracks.stands
  tiles := fun tracks => (quiet base).tiles tracks.stands
  written := fun tracks same => ⟨(quiet base).written tracks.stands same, tracks.last, tracks.starts⟩
  find := fun tracks _ => ⟨_, findFit_result tracks _, tracks, Keeps.refl _ _⟩
  picked := by
    -- The payload that was found is not null.
    intro h r n a p tracks _ found
    have fit := nextFit_fits found
    refine ⟨?_, fit⟩
    obtain ⟨b, member, rfl, _⟩ := fit
    exact tracks.stands.rep.arena.real (List.mem_append_right _ member)
  place := by
    intro h r n a p tracks adjusted asked fit
    obtain ⟨h', done, stands, keeps, real, served⟩ := (quiet base).place tracks.stands adjusted asked fit
    obtain ⟨h'', placed, same⟩ := Option.map_eq_some_iff.mp done
    obtain ⟨rfl, _⟩ := Prod.mk.inj same
    have last := place_last tracks adjusted fit placed
    -- `last_freep` still points to a block.
    exact ⟨h'', done, ⟨stands, last, carve_starts tracks.starts⟩, keeps, real, served⟩
  granted := by
    intro h r size tracks whole least room
    obtain ⟨h', done, stands, keeps, real, fits, same⟩ := (quiet base).granted tracks.stands whole least room
    have rep := tracks.stands.rep
    have large : 16 ≤ size := by omega
    have enough : h.memBrk + size ≤ h.memMaxAddr := by
      rw [rep.brk]
      exact room
    have last := extend_last rep whole large enough done
    -- The joined block is where `last_freep` goes.
    obtain ⟨grew, _⟩ := rep.grow heads_stable whole large enough
    obtain ⟨_, _, _, _, tiles⟩ := grew.tiles
    refine ⟨h', done, ⟨stands, last.trans ?_, ?_⟩, keeps, real, fits, same⟩
    · exact congrArg (fun last => follow last _) tracks.last
    · refine follow_starts tiles ?_
      -- An old block keeps its start, also with the new one behind it.
      obtain ⟨c, member, here⟩ := tracks.starts
      refine ⟨c, ?_, here⟩
      rw [← List.append_assoc]
      exact List.mem_append_left _ member
  refused := fun tracks => (quiet base).refused tracks.stands
  free := by
    intro h r p size tracks occupied
    obtain ⟨h', done, stands, released, keeps⟩ := (quiet base).free tracks.stands occupied
    obtain ⟨b, member, rfl, rfl, used⟩ := occupied
    have rep := tracks.stands.rep
    obtain ⟨pre, post, split, located⟩ := Skeleton.Rep.locate rep member
    obtain ⟨rep₁, _⟩ := Skeleton.Rep.release rep heads_stable rfl split used
    have unlisted := rep.unlisted member used
    obtain ⟨h₁, merged, rep', _⟩ := coalesce_rep keeper turns rfl (Skeleton.idle shelfless heads_stable) rfl rep₁ rfl rfl
      unlisted fun c _ _ k class_ => by simp [layout, style] at class_
    -- The calls of the code are the marking and then the coalescing.
    have freed : mmFree h b.addr = some h₁ := Skeleton.mmFree_eq rep member merged
    rw [freed] at done
    obtain rfl := Option.some.inj done
    -- `last_freep` moves only when the block it points to is joined to the one before.
    have last := coalesce_follows rep₁ rfl merged
    obtain ⟨_, _, _, _, tiles⟩ := rep₁.tiles
    obtain ⟨shape, blocks⟩ := Roving.free_eq located
    rw [show policy.free r b.addr = _ from shape]
    refine ⟨h₁, freed, ⟨stands, last.trans ?_, ?_⟩, released, keeps⟩
    · exact congrArg (fun last => follow last _) tracks.last
    · show Starts (_ ++ (r.shelves.free style b.addr).blocks) (follow r.last _)
      rw [blocks]
      -- Marking the block free moves no start either.
      have starts := tracks.starts
      rw [split] at starts
      exact follow_starts tiles (starts.congr (by simp))

end MallocLab.Implicit
