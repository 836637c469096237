import MallocLab.Explicit.Runs
import MallocLab.Skeleton.Reader

/-! What every run of `mm.c` guarantees to its client and to a reader of its heap. -/

namespace MallocLab.Explicit

variable {base asize p : Nat} {m : Mem} {statics : Statics} {h : State} {w : World Statics} {s : Shelves}
variable {c : Call} {cs : List Call} {rs : List Nat}

/-- Whatever `mm_init` returned, it left the state that stands for the initial abstract state. -/
theorem mmInit_stands (ok : Base base) (init : mmInit (memInit m base statics) = some (h, 0)) :
    Holds (Stands base) Shelves.blocks { heap := h, live := [] } (initial base) :=
  .started (mmInit_holds ok m statics) init

/-- Every run ends in a state that stands for an abstract state. -/
theorem run_stands (ok : Base base) (init : mmInit (memInit m base statics) = some (h, 0))
    (run : Run mm NoWrap { heap := h, live := [] } cs rs w) :
    ∃ s, Holds (Stands base) Shelves.blocks w s :=
  (services base).run (mmInit_stands ok init) run

/-- The break of the abstract state is past the first free block and inside the area. -/
theorem run_inside (ok : Base base) (init : mmInit (memInit m base statics) = some (h, 0))
    (run : Run mm NoWrap { heap := h, live := [] } cs rs w) :
    ∃ s, Holds (Stands base) Shelves.blocks w s ∧ base + 24 < s.brk ∧ s.brk ≤ base + maxHeap := by
  obtain ⟨_, stands⟩ := (services base).refines (mmInit_stands ok init) run
  have start : base + 24 < (initial base).brk ∧ (initial base).brk ≤ base + maxHeap := by
    show base + 24 < base + 24 + 4096 ∧ base + 24 + 4096 ≤ base + maxHeap
    unfold maxHeap
    omega
  -- No call moves the break down, and none moves it past the end of the area.
  have inside : base + 24 < (play (lifo.move (base + maxHeap)) (initial base) cs).1.brk ∧
      (play (lifo.move (base + maxHeap)) (initial base) cs).1.brk ≤ base + maxHeap := by
    -- The induction is on the calls of the abstract run.
    refine play_invariant (I := fun s : Shelves => base + 24 < s.brk ∧ s.brk ≤ base + maxHeap) ?_ start cs
    rintro s c ⟨low, high⟩
    have moves : s.brk ≤ (lifo.move (base + maxHeap) s c).1.brk ∧
        (lifo.move (base + maxHeap) s c).1.brk ≤ base + maxHeap := Skeleton.shelved_move_brk high c
    exact ⟨low.trans_le moves.1, moves.2⟩
  exact ⟨_, stands, inside⟩

/-- After every run one more call returns, and what it returns and writes is safe for the client. -/
theorem mm_contract (ok : Base base) (init : mmInit (memInit m base statics) = some (h, 0))
    (run : Run mm NoWrap { heap := h, live := [] } cs rs w) (legal : w.Legal c)
    (fine : NoWrap w.heap c) :
    ∃ next r, w.call mm c = some (next, r) ∧ Upholds w c next r :=
  (services base).contract (mmInit_stands ok init) run legal fine

/-- A zeroed area for a small run; it starts at address eight. -/
def zeroed : State := memInit (fun _ => 0) 8 { heapListp := 0, freeListp := 0 }

/-- The calls of the small run. -/
def sampleCalls : List Call :=
  [.malloc 8, .malloc 20, .store 33 7, .malloc 8, .free 48, .realloc 32 5000]

/-- The small run takes place, and may go on. -/
theorem sample_run : ∃ h w, mmInit zeroed = some (h, 0) ∧
    Run mm NoWrap { heap := h, live := [] } sampleCalls [32, 48, 0, 80, 0, 96] w ∧
    w.Legal (.malloc 24) ∧ NoWrap w.heap (.malloc 24) := by
  obtain ⟨h, w, init, run, passed⟩ := trial_run (show trial mm NoWrap (mmInit zeroed) sampleCalls
    (fun w => decide (w.Legal (.malloc 24) ∧ NoWrap w.heap (.malloc 24))) =
      some (0, [32, 48, 0, 80, 0, 96], true) by decide +kernel)
  exact ⟨h, w, init, run, of_decide_eq_true passed⟩

/-- After the small run the contract holds for a request of 24 bytes. -/
theorem mm_contract_sample :
    ∃ h w, mmInit zeroed = some (h, 0) ∧
      Run mm NoWrap { heap := h, live := [] } sampleCalls [32, 48, 0, 80, 0, 96] w ∧
      ∃ next r, w.call mm (.malloc 24) = some (next, r) ∧ Upholds w (.malloc 24) next r := by
  obtain ⟨h, w, init, run, legal, fine⟩ := sample_run
  exact ⟨h, w, init, run, mm_contract base_eight init run legal fine⟩

/-- In every reachable state the heap is tiled by tagged blocks, the live ones and no others in use. -/
theorem mm_heap_invariant (ok : Base base) (init : mmInit (memInit m base statics) = some (h, 0))
    (run : Run mm NoWrap { heap := h, live := [] } cs rs w) :
    ∃ rest, WellFormed w.heap (base + 8) [base + 8] rest 16 ∧
      getSize w.heap (hdrp (base + 8)) = 16 ∧
      ∀ p, (p ∈ rest ∧ getAlloc w.heap (hdrp p) = 1) ↔ ∃ n, (p, n) ∈ w.live := by
  obtain ⟨s, stands⟩ := run_stands ok init run
  refine ⟨s.blocks.map Blk.addr, Skeleton.wellFormed rfl stands, ?_, Skeleton.live_iff_used stands⟩
  obtain ⟨⟨rep, _, _, rfl⟩, _⟩ := stands
  exact rep.arena.size (b := prologue w.heap.memStartBrk) (by simp [layout])

/-- After the small run the headers describe a well-formed heap. -/
theorem mm_heap_invariant_sample :
    ∃ h w, mmInit zeroed = some (h, 0) ∧
      Run mm NoWrap { heap := h, live := [] } sampleCalls [32, 48, 0, 80, 0, 96] w ∧
      ∃ rest, WellFormed w.heap (8 + 8) [8 + 8] rest 16 ∧ getSize w.heap (hdrp (8 + 8)) = 16 ∧
        ∀ p, (p ∈ rest ∧ getAlloc w.heap (hdrp p) = 1) ↔ ∃ n, (p, n) ∈ w.live := by
  obtain ⟨h, w, init, run, _⟩ := sample_run
  exact ⟨h, w, init, run, mm_heap_invariant base_eight init run⟩

/--
The free list from `free_listp` to the prologue, as the code follows it.

`rest` are the blocks of the heap after the prologue, and `passed` the blocks on the list.
-/
structure FreeListSound (h : State) (prologue : Nat) (rest passed : List Nat) : Prop where
  tiling : HeapWalk h prologue (prologue :: rest) h.memBrk
  trail : Trail (fun p => h.get (succFreep p)) (fun p => p = prologue) h.statics.freeListp passed prologue
  distinct : passed.Nodup
  exact : ∀ p, p ∈ passed ↔ p ∈ rest ∧ getAlloc h (hdrp p) = 0
  first : h.get (precFreep h.statics.freeListp) = null
  back : ∀ p ∈ passed, h.get (precFreep (h.get (succFreep p))) = p
  removable : ∀ p ∈ passed, (removeBlock h p).isSome = true
  searchable : ∀ asize, (findFit h asize).isSome = true

/-- From `free_listp` the code passes the blocks of the stack and stops at the prologue. -/
theorem stack_trail (rep : Rep layout heads h s) :
    Trail (fun p => h.get (succFreep p)) (fun p => p = h.memStartBrk + 8) h.statics.freeListp (s.lists 0)
      (h.memStartBrk + 8) := by
  have linked := rep.threaded.linked 0
  rw [chain_eq] at linked
  obtain ⟨front, _⟩ := linked_append.mp linked
  rw [show h.statics.freeListp = (s.lists 0).headD (h.memStartBrk + 8) from rep.heads]
  refine front.trail ?_ ?_ rfl
  · -- Each listed block leads to the next one.
    intro p member
    have node : layout.Node h.memStartBrk s.blocks p :=
      rep.threaded.node (k := 0) (by rw [chain_eq]; simp [member])
    show h.get (succFreep p) = _
    rw [rep_succ rep node]
    rfl
  · -- Listed blocks lie above the prologue.
    rintro p member rfl
    obtain ⟨b, block, here, _⟩ := rep_listed rep member
    have above := ((rep_tiles rep).within block).lower
    omega

/-- The list in memory is the abstract stack. -/
theorem stands_freeList (stands : Holds (Stands base) Shelves.blocks w s) :
    FreeListSound w.heap (base + 8) (s.blocks.map Blk.addr) (s.lists 0) := by
  have tiling := (Skeleton.wellFormed rfl stands).walk
  obtain ⟨⟨rep, filed, _, rfl⟩, _⟩ := stands
  have linked := rep.threaded.linked 0
  have head : w.heap.statics.freeListp = (s.lists 0).headD (w.heap.memStartBrk + 8) := rep.heads
  -- The nodes of the list are blocks, or the prologue at its end.
  have node : ∀ p ∈ layout.chain w.heap.memStartBrk 0 (s.lists 0),
      layout.Node w.heap.memStartBrk s.blocks p := fun p member => rep.threaded.node member
  have inner : ∀ p ∈ s.lists 0, p ∈ layout.chain w.heap.memStartBrk 0 (s.lists 0) := by
    simp +contextual [chain_eq]
  rw [chain_eq] at linked inner node
  refine ⟨tiling, stack_trail rep, rep.threaded.nodup 0, ?_, ?_, ?_, ?_, ?_⟩
  · -- What is listed is free, and what is free is listed.
    intro p
    constructor
    · intro member
      obtain ⟨b, block, rfl, free⟩ := rep_listed rep member
      exact ⟨List.mem_map_of_mem block, (rep.arena.alloc_free (by simp [block])).mpr free⟩
    · rintro ⟨member, alloc⟩
      obtain ⟨b, block, rfl⟩ := List.mem_map.mp member
      exact filed b block ((rep.arena.alloc_free (by simp [block])).mp alloc) 0 rfl
  · -- The predecessor link of the first node is null, also when that node is the prologue.
    rw [head]
    cases stack : s.lists 0 with
    | nil =>
      rw [stack] at linked
      exact linked.1
    | cons p rest =>
      rw [stack] at linked
      exact linked.1
  · -- The next block leads back.
    intro p member
    -- Some node follows every listed block, and its predecessor link leads back.
    obtain ⟨left, right, split⟩ := List.append_of_mem member
    obtain ⟨c, rest, chained⟩ := exists_chain w.heap.memStartBrk right
    rw [chain_eq] at chained
    rw [split, List.append_assoc, List.cons_append, chained] at linked
    have forth : w.heap.get (succFreep p) = c := by
      rw [rep_succ rep (node p (inner p member))]
      exact linked.links.2
    rw [forth]
    have shifted : left ++ p :: c :: rest = (left ++ [p]) ++ c :: rest := by simp
    rw [shifted] at linked
    have back := linked.links.1
    rwa [List.getLastD_concat] at back
  · -- Every listed block can be unlinked without following a null link.
    intro p member
    obtain ⟨b, block, rfl, free⟩ := rep_listed rep member
    obtain ⟨h', done, _⟩ := keeper.remove rep block free fun k class_ => Option.some.inj class_ ▸ member
    rw [done]
    rfl
  · -- A search returns for every size.
    intro asize
    rw [findFit_result rep]
    rfl

/-- In every reachable state the free list holds every free block once, and no call follows a null link. -/
theorem mm_freeList_invariant (ok : Base base) (init : mmInit (memInit m base statics) = some (h, 0))
    (run : Run mm NoWrap { heap := h, live := [] } cs rs w) :
    (∃ rest passed, FreeListSound w.heap (base + 8) rest passed) ∧
      ∀ c, w.Legal c → NoWrap w.heap c → (w.call mm c).isSome = true := by
  obtain ⟨s, stands⟩ := run_stands ok init run
  refine ⟨⟨_, _, stands_freeList stands⟩, fun c legal fine => ?_⟩
  obtain ⟨next, _, r, done, _⟩ := (services base).call stands legal fine
  rw [done]
  rfl

/-- After the small run the free list is in order. -/
theorem mm_freeList_invariant_sample :
    ∃ h w, mmInit zeroed = some (h, 0) ∧
      Run mm NoWrap { heap := h, live := [] } sampleCalls [32, 48, 0, 80, 0, 96] w ∧
      (∃ rest passed, FreeListSound w.heap (8 + 8) rest passed) ∧
      ∀ c, w.Legal c → NoWrap w.heap c → (w.call mm c).isSome = true := by
  obtain ⟨h, w, init, run, _⟩ := sample_run
  exact ⟨h, w, init, run, mm_freeList_invariant base_eight init run⟩

/-- The machine has the break, the blocks, the free list and the live pointers of an abstract state. -/
structure Agrees (w : World Statics) (s : Shelves) : Prop where
  brk : w.heap.memBrk = s.brk
  walk : HeapWalk w.heap (w.heap.memStartBrk + 8)
    ((w.heap.memStartBrk + 8) :: s.blocks.map Blk.addr) w.heap.memBrk
  sizes : ∀ b ∈ s.blocks, getSize w.heap (hdrp b.addr) = b.size
  allocs : ∀ b ∈ s.blocks, getAlloc w.heap (hdrp b.addr) = b.used.toNat
  live : ∀ p, (∃ n, (p, n) ∈ w.live) ↔ ∃ b ∈ s.blocks, b.addr = p ∧ b.used = true
  stack : Trail (fun p => w.heap.get (succFreep p)) (fun p => p = w.heap.memStartBrk + 8)
    w.heap.statics.freeListp (s.lists 0) (w.heap.memStartBrk + 8)

/-- Every run returns what the abstract allocator returns, and ends in the same layout. -/
theorem mm_refines_lifo (ok : Base base) (init : mmInit (memInit m base statics) = some (h, 0))
    (run : Run mm NoWrap { heap := h, live := [] } cs rs w) :
    (play (lifo.move (base + maxHeap)) (initial base) cs).2 = rs ∧
      Agrees w (play (lifo.move (base + maxHeap)) (initial base) cs).1 ∧
      ∀ c, w.Legal c → NoWrap w.heap c → (w.call mm c).isSome = true := by
  -- The results are those of the abstract run.
  obtain ⟨results, stands⟩ := (services base).refines (mmInit_stands ok init) run
  refine ⟨results, ?_, fun c legal fine => ?_⟩
  · -- The final state stands for where the abstract run ends, and a reader sees that layout.
    have walk := (Skeleton.wellFormed rfl stands).walk
    have trail := (stands_freeList stands).trail
    obtain ⟨⟨rep, _, _, rfl⟩, owned⟩ := stands
    refine ⟨rep.brk, walk, fun b block => rep.arena.size (by simp [block]),
      fun b block => rep.arena.alloc (by simp [block]), fun p => ⟨?_, ?_⟩, trail⟩
    · -- The payload of a live block is the one of a used block.
      rintro ⟨n, live⟩
      obtain ⟨size, ⟨b, block, here, _, used⟩, _⟩ := owned.block p n live
      exact ⟨b, block, here, used⟩
    · rintro ⟨b, block, rfl, used⟩
      exact owned.owner b.addr b.size ⟨b, block, rfl, rfl, used⟩
  · -- Every further legal call returns.
    obtain ⟨next, _, r, done, _⟩ := (services base).call stands legal fine
    rw [done]
    rfl

/-- The abstract allocator returns the results of the small run. -/
theorem mm_refines_lifo_sample :
    ∃ h w, mmInit zeroed = some (h, 0) ∧
      Run mm NoWrap { heap := h, live := [] } sampleCalls [32, 48, 0, 80, 0, 96] w ∧
      (play (lifo.move (8 + maxHeap)) (initial 8) sampleCalls).2 = [32, 48, 0, 80, 0, 96] ∧
      Agrees w (play (lifo.move (8 + maxHeap)) (initial 8) sampleCalls).1 ∧
      ∀ c, w.Legal c → NoWrap w.heap c → (w.call mm c).isSome = true := by
  obtain ⟨h, w, init, run, _⟩ := sample_run
  exact ⟨h, w, init, run, mm_refines_lifo base_eight init run⟩

end MallocLab.Explicit
