import MallocLab.Explicit.Refusals
import MallocLab.Shelves.Undo
import MallocLab.Skeleton.Frees

/-! What becomes of the layout of the heap when blocks are freed, in any order or right after `mm_malloc`. -/

namespace MallocLab.Explicit

variable {base n a p k : Nat} {m : Mem} {statics : Statics} {h h₁ h₂ : State} {w : World Statics}
variable {s : Shelves} {cs : List Call} {rs ps qs : List Nat} {b : Blk}

/-- The blocks from the prologue to the epilogue, as their headers describe them. -/
def heapBlocks (h : State) : List Blk := readBlocks h pointerTurns (h.memStartBrk + 8)

/-- The free list passes these blocks on its way from `free_listp` to the prologue. -/
def FreeList (h : State) (passed : List Nat) : Prop :=
  Trail (fun p => h.get (succFreep p)) (fun p => p = h.memStartBrk + 8) h.statics.freeListp passed
    (h.memStartBrk + 8)

/-- The headers describe the prologue and the blocks of the abstract state. -/
theorem heapBlocks_eq (stands : Stands base h s) : heapBlocks h = prologue base :: s.blocks := by
  unfold heapBlocks
  rw [stands.start]
  exact Skeleton.Stands.readBlocks stands rfl

/-- The free list of the machine is the stack of the abstract state. -/
theorem freeList_eq (stands : Stands base h s) : FreeList h (s.lists 0) := stack_trail stands.rep

/-- In any two orders, freeing the same live blocks gives the same blocks and the same set of free ones. -/
theorem mm_free_order (ok : Base base) (init : mmInit (memInit m base statics) = some (h, 0))
    (run : Run mm NoWrap { heap := h, live := [] } cs rs w) (distinct : ps.Nodup)
    (live : ∀ p ∈ ps, ∃ n, (p, n) ∈ w.live) (perm : ps.Perm qs) :
    ∃ h₁ h₂ passed₁ passed₂, ps.foldlM mmFree w.heap = some h₁ ∧ qs.foldlM mmFree w.heap = some h₂ ∧
      heapBlocks h₁ = heapBlocks h₂ ∧ FreeList h₁ passed₁ ∧ FreeList h₂ passed₂ ∧ passed₁.Perm passed₂ ∧
      ((∀ entry ∈ w.live, entry.1 ∈ ps) → heapBlocks h₁ = [prologue base,
        { addr := base + 24, size := w.heap.memBrk - (base + 24), used := false }]) := by
  obtain ⟨s, ⟨stands, owned⟩, opened, _⟩ := run_inside ok init run
  have used : ∀ p ∈ ps, ∃ size, Occupied s.blocks p size := by
    intro p member
    obtain ⟨n, entry⟩ := live p member
    obtain ⟨size, occupied, _⟩ := owned.block p n entry
    exact ⟨size, occupied⟩
  obtain ⟨h₁, done₁, stands₁, _, gone₁⟩ := (parts base).frees stands distinct used
  obtain ⟨h₂, done₂, stands₂, _, gone₂⟩ := (parts base).frees stands (perm.nodup_iff.mp distinct)
    fun p member => used p (perm.mem_iff.mpr member)
  -- Freeing does not move the break, in whatever order.
  have brk₁ : (ps.foldl lifo.free s).brk = s.brk := Skeleton.foldl_free_brk
  have brk₂ : (qs.foldl lifo.free s).brk = s.brk := Skeleton.foldl_free_brk
  -- After both orders the same blocks are in use, and that determines the whole layout.
  have same : (ps.foldl lifo.free s).blocks = (qs.foldl lifo.free s).blocks := by
    refine stands₁.determined rfl stands₂ (brk₁.trans brk₂.symm) fun p size => ?_
    exact (gone₁ p size).trans (.trans (and_congr_right fun _ => by rw [perm.mem_iff]) (gone₂ p size).symm)
  refine ⟨h₁, h₂, _, _, done₁, done₂, ?_, freeList_eq stands₁, freeList_eq stands₂,
    stands₁.lists_perm stands₂ same 0, fun all => ?_⟩
  · rw [heapBlocks_eq stands₁, heapBlocks_eq stands₂, same]
  · -- With nothing left in use, the heap is one free block from the prologue to the break.
    have tiles := rep_tiles stands₁.rep
    have brk := stands.rep.brk
    rw [stands₁.start, stands₁.rep.brk, brk₁, ← brk] at tiles
    rw [heapBlocks_eq stands₁]
    refine congrArg (prologue base :: ·) (Separated.alone tiles stands₁.separated (stands₁.rep.plain rfl) ?_ ?_)
    · rw [brk]
      exact opened
    · intro p size occupied
      obtain ⟨before, stays⟩ := (gone₁ p size).mp occupied
      obtain ⟨n, entry⟩ := owned.owner p size before
      exact stays (all (p, n) entry)

/-- After the small run the two live blocks are freed in both orders. -/
theorem mm_free_order_sample :
    ∃ h w, mmInit zeroed = some (h, 0) ∧
      Run mm NoWrap { heap := h, live := [] } sampleCalls [32, 48, 0, 80, 0, 96] w ∧
      ∃ h₁ h₂ passed₁ passed₂, [80, 96].foldlM mmFree w.heap = some h₁ ∧
        [96, 80].foldlM mmFree w.heap = some h₂ ∧ heapBlocks h₁ = heapBlocks h₂ ∧ FreeList h₁ passed₁ ∧
        FreeList h₂ passed₂ ∧ passed₁.Perm passed₂ ∧
        ((∀ entry ∈ w.live, entry.1 ∈ [80, 96]) → heapBlocks h₁ = [prologue 8,
          { addr := 8 + 24, size := w.heap.memBrk - (8 + 24), used := false }]) := by
  obtain ⟨h, w, init, run, passed⟩ := trial_run (show trial mm NoWrap (mmInit zeroed) sampleCalls
    (fun w => decide ((80, 8) ∈ w.live ∧ (96, 5000) ∈ w.live)) =
      some (0, [32, 48, 0, 80, 0, 96], true) by decide +kernel)
  -- Both payloads are live.
  obtain ⟨first, second⟩ := of_decide_eq_true passed
  exact ⟨h, w, init, run, mm_free_order base_eight init run (by decide)
    (by simpa using ⟨⟨8, first⟩, ⟨5000, second⟩⟩) (by decide)⟩

/-- Freeing a block right after it has been carved restores the blocks and moves one to the front. -/
theorem mmFree_carved (stands₁ : Stands base h₁ s) (member : b ∈ s.blocks) (free : b.used = false)
    (large : a ≤ b.size) (whole : a % 8 = 0) (least : 16 ≤ a)
    (stands : Stands base h (s.carve style b.addr a).1) :
    ∃ h₂, mmFree h b.addr = some h₂ ∧ Stands base h₂ ((s.drop b.addr).file style b) := by
  obtain ⟨pre, post, split⟩ := List.append_of_mem member
  have tiles := rep_tiles stands₁.rep
  have wide : ∀ left, style.splits left = true → 8 ≤ left := by
    intro left enough
    have : 16 ≤ left := of_decide_eq_true enough
    omega
  -- The block has been carved, so its address is that of a used block.
  have taken : ∃ size, Occupied (s.carve style b.addr a).1.blocks b.addr size := by
    obtain ⟨_, _, size, _, gained⟩ := Shelves.carve_law stands₁.filed tiles split free large (by omega)
    rw [Shelves.carve_snd split tiles rfl] at gained
    exact ⟨size, (gained b.addr size).mpr (.inr ⟨rfl, rfl⟩)⟩
  obtain ⟨size, occupied⟩ := taken
  obtain ⟨h₂, done, stands₂, _⟩ := (parts base).free stands occupied
  -- Freeing it joins the remainder again, and the block is back as it was.
  have undone : (s.carve style b.addr a).1.free style b.addr = (s.drop b.addr).file style b :=
    Shelves.carve_free split tiles stands₁.separated free large whole (by omega) rfl rfl wide
      fun below k => Skeleton.Rep.not_within stands₁.rep member (by omega) (by omega) k
  exact ⟨h₂, done, undone ▸ stands₂⟩

/--
The blocks and the free list after the heap has grown by one free block at the front of the list.

A free block at the end of the heap has become part of it.
-/
inductive Regrown (before after : List Blk) (brk grown : Nat) (passed passed' : List Nat) : Prop
  /-- The last block was free, and it now reaches to the new break. -/
  | merged {front : List Blk} {b : Blk} (last : before = front ++ [b]) (free : b.used = false)
      (blocks : after = front ++ [{ b with size := b.size + grown }])
      (list : passed' = b.addr :: passed.erase b.addr)
  /-- The last block was in use, and the new space is a block of its own. -/
  | apart (used : ∀ b ∈ before.getLast?, b.used = true)
      (blocks : after = before ++ [{ addr := brk, size := grown, used := false }])
      (list : passed' = brk :: passed)

/-- The free block that an extension by `a` bytes leaves at the end of the heap. -/
def trailing (s : Shelves) (a : Nat) : Blk :=
  (join Blk.used s.blocks { addr := s.brk, size := a, used := false } []).blk

/-- The blocks and the stack of an extended heap, once the trailing block is in front. -/
theorem extend_regrown {front : Blk} (used : front.used = true) :
    Regrown (front :: s.blocks) (front :: (s.extend style a).1.blocks) s.brk a (s.lists 0)
      ((((s.extend style a).1.drop (trailing s a).addr).file style (trailing s a)).lists 0) := by
  -- The trailing block is listed, taken off and listed again.
  have twice : ∀ (p : Nat) (l : List Nat), p :: (p :: l).erase p = p :: l := by simp
  rcases prev_cases Blk.used s.blocks with shut | ⟨pre, last, split, free⟩
  · -- The last block is in use, so the new space stays a block of its own.
    have joined := join_alone (b := { addr := s.brk, size := a, used := false }) shut
      (show ∀ x ∈ ([] : List Blk).head?, x.used = true by simp)
    refine .apart ?_ ?_ ?_
    · rw [List.getLast?_cons]
      intro b here
      cases end_ : s.blocks.getLast? with
      | none => simp_all
      | some c => simp_all
    · show front :: (join Blk.used s.blocks _ []).blocks = _
      rw [joined]
      rfl
    · unfold trailing Shelves.extend Shelves.merge
      simp only [show style.closed = Blk.used from rfl, joined]
      exact twice _ _
  · -- The last block is free, and the new space becomes part of it.
    have joined : join Blk.used s.blocks { addr := s.brk, size := a, used := false } [] =
        { pre := pre, blk := { last with size := last.size + a }, post := [], gone := [last.addr] } := by
      simp [join, split, joinPrev_open free, joinNext]
    refine .merged (show front :: s.blocks = (front :: pre) ++ [last] by rw [split]; rfl) free ?_ ?_
    · show front :: (join Blk.used s.blocks _ []).blocks = _
      rw [joined]
      rfl
    · unfold trailing Shelves.extend Shelves.merge
      simp only [show style.closed = Blk.used from rfl, joined]
      exact twice _ _

/--
What `mm_malloc` followed by `mm_free` on its result does to the layout of the heap.

When the break stays, only the block that was chosen moves to the front of the free list.
When it moves, the heap has one more free block, or a larger one, at the front of the free list.
-/
structure Neutral (h h₁ h₂ : State) (asize p : Nat) (passed passed' : List Nat) : Prop where
  before : FreeList h passed
  after : FreeList h₂ passed'
  brk : h₂.memBrk = h₁.memBrk
  stays : h₁.memBrk = h.memBrk → heapBlocks h₂ = heapBlocks h ∧ p ∈ passed ∧ passed' = p :: passed.erase p
  moves : h₁.memBrk ≠ h.memBrk → h₁.memBrk = h.memBrk + max asize 4096 ∧
    Regrown (heapBlocks h) (heapBlocks h₂) h.memBrk (max asize 4096) passed passed'

/-- In a standing state, freeing what `mm_malloc` has just returned restores the layout. -/
theorem mmFree_mmMalloc (stands : Stands base h s) (positive : 1 ≤ n) (small : n ≤ maxRequest)
    (fine : NoWrap h (.malloc n)) :
    ∃ h₁ p, mmMalloc h n = some (h₁, p) ∧ (p ≠ null → ∃ h₂ passed passed', mmFree h₁ p = some h₂ ∧
      Neutral h h₁ h₂ (Skeleton.adjustedSize n) p passed passed') := by
  obtain ⟨same, adjusted⟩ := blockSize_adjusted positive small
  have whole := adjusted.whole
  have least := adjusted.least
  have brk : h.memBrk = s.brk := stands.rep.brk
  rw [same, mmMalloc_eq]
  cases found : firstFit s (blockSize n) with
  | some p =>
    -- The search has found a block: the break stays, and that block is freed again.
    obtain ⟨h₁, done, stands₁, _⟩ := (parts base).malloc_found stands positive small found
    obtain ⟨_, b, member, rfl, free, large⟩ := (parts base).picked stands adjusted found
    obtain ⟨pre, post, split⟩ := List.append_of_mem member
    -- The lower part of the block is handed out.
    have lower : (s.carve style b.addr (blockSize n)).2 = b.addr := Shelves.carve_snd split (rep_tiles stands.rep) rfl
    obtain ⟨h₂, freed, stands₂⟩ := mmFree_carved stands member free large whole least stands₁
    have stays : h₁.memBrk = h.memBrk := (stands₁.rep.brk.trans Shelves.carve_brk).trans brk.symm
    have stays' : h₂.memBrk = h.memBrk := stands₂.rep.brk.trans brk.symm
    refine ⟨h₁, b.addr, lower ▸ done, fun _ => ⟨h₂, _, _, freed, freeList_eq stands, freeList_eq stands₂,
      stays'.trans stays.symm, fun _ => ⟨?_, stands.filed b member free 0 rfl, rfl⟩,
      fun moved => absurd stays moved⟩⟩
    rw [heapBlocks_eq stands, heapBlocks_eq stands₂]
    rfl
  | none =>
    by_cases room : s.brk + max (blockSize n) 4096 ≤ base + maxHeap
    · -- The heap is extended for the request.
      obtain ⟨h₁, h', s₁, q, extended, stands', done, stands₁, _, _, _, _⟩ :=
        (parts base).malloc_grown stands positive small found room
      -- The block that is carved is the trailing one of the extended heap.
      obtain ⟨rfl, rfl⟩ := Prod.mk.inj extended
      have member : trailing s (max (blockSize n) 4096) ∈ (s.extend style (max (blockSize n) 4096)).1.blocks :=
        List.mem_append_right _ List.mem_cons_self
      have free : (trailing s (max (blockSize n) 4096)).used = false :=
        join_free rfl fun _ _ => id
      have large : max (blockSize n) 4096 ≤ (trailing s (max (blockSize n) 4096)).size :=
        join_size (b := { addr := s.brk, size := max (blockSize n) 4096, used := false })
      obtain ⟨pre, post, split⟩ := List.append_of_mem member
      have lower := Shelves.carve_snd split (rep_tiles stands'.rep)
        (show style.high (blockSize n) = false from rfl)
      -- Freeing it restores the extended heap.
      obtain ⟨h₂, freed, stands₂⟩ := mmFree_carved stands' member free (by omega) whole least stands₁
      have moves : h₁.memBrk = h.memBrk + max (blockSize n) 4096 := by
        rw [brk]
        exact stands₁.rep.brk.trans (Shelves.carve_brk.trans (Shelves.extend_brk _))
      have moves' : h₂.memBrk = h.memBrk + max (blockSize n) 4096 := by
        rw [brk]
        exact stands₂.rep.brk.trans (Shelves.extend_brk _)
      refine ⟨h₁, _, lower ▸ done, fun _ => ⟨h₂, _, _, freed, freeList_eq stands, freeList_eq stands₂,
        moves'.trans moves.symm, fun stayed => by omega, fun _ => ⟨moves, ?_⟩⟩⟩
      -- The heap afterwards is the one with a free block of that size at its end.
      rw [heapBlocks_eq stands, heapBlocks_eq stands₂, brk]
      exact extend_regrown rfl
    · -- The request is refused, and then there is nothing to show.
      have refused := mmMalloc_full stands positive small fine found (by omega)
      exact ⟨h, null, mmMalloc_eq ▸ refused, fun real => absurd rfl real⟩

/-- After every run, `mm_malloc` followed by `mm_free` on its result restores the layout. -/
theorem mm_malloc_free (ok : Base base) (init : mmInit (memInit m base statics) = some (h, 0))
    (run : Run mm NoWrap { heap := h, live := [] } cs rs w) (positive : 1 ≤ n) (small : n ≤ maxRequest)
    (fine : NoWrap w.heap (.malloc n)) :
    ∃ h₁ p, mmMalloc w.heap n = some (h₁, p) ∧ (p ≠ null → ∃ h₂ passed passed', mmFree h₁ p = some h₂ ∧
      Neutral w.heap h₁ h₂ (Skeleton.adjustedSize n) p passed passed') := by
  obtain ⟨s, holds⟩ := run_stands ok init run
  exact mmFree_mmMalloc holds.rep positive small fine

/-- After the small run a block of 24 bytes is obtained and freed again. -/
theorem mm_malloc_free_sample :
    ∃ h w, mmInit zeroed = some (h, 0) ∧
      Run mm NoWrap { heap := h, live := [] } sampleCalls [32, 48, 0, 80, 0, 96] w ∧
      ∃ h₁ p, mmMalloc w.heap 24 = some (h₁, p) ∧ (p ≠ null → ∃ h₂ passed passed', mmFree h₁ p = some h₂ ∧
        Neutral w.heap h₁ h₂ (Skeleton.adjustedSize 24) p passed passed') := by
  obtain ⟨h, w, init, run, _, fine⟩ := sample_run
  exact ⟨h, w, init, run, mm_malloc_free base_eight init run (by decide) (by decide) fine⟩

end MallocLab.Explicit
