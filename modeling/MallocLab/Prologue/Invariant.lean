import MallocLab.Prologue.Runs
import MallocLab.Skeleton.Reader

/-! What `mm_checkheap` and a reader of the lists of `prologue.c` see after every run. -/

namespace MallocLab.Prologue

variable {base k : Nat} {m : Mem} {statics : Statics} {h : State} {w : World Statics} {s : Shelves} {b : Blk}
variable {cs : List Call} {rs : List Nat}

/-- The walk of `mm_checkheap` passes every block without an error, and stops at the epilogue. -/
theorem checkStep_walk (rep : Rep layout heads h s) :
    loop (checkStep h) pointerTurns (h.memStartBrk + 8, []) = some (h.memBrk, []) := by
  have arena := rep.arena
  have count := arena.tiles.count
  have high := arena.high
  have plain : ∀ b ∈ layout.fixed h.memStartBrk ++ s.blocks, b.tag = false := by
    intro b member
    rcases List.mem_append.mp member with fixed | block
    · exact (layout.guarded h.memStartBrk b fixed).2
    · exact rep.plain rfl b block
  -- The loop visits the roots and then the blocks.
  let blocks := layout.fixed h.memStartBrk ++ s.blocks
  let place (rest : List Blk) : Nat × List Complaint := ((rest.map Blk.addr).headD h.memBrk, [])
  have start : place blocks = (h.memStartBrk + 8, []) := rfl
  -- It stops at the header behind the last block.
  have stops : checkStep h (place []) = .inr (h.memBrk, []) := if_neg (by
    show ¬ getSize h (hdrp h.memBrk) > 0
    rw [arena.last]
    decide)
  have short : blocks.length < pointerTurns := by
    unfold pointerTurns
    show (layout.fixed h.memStartBrk ++ s.blocks).length < _
    omega
  rw [← start]
  refine (walk_through place short ?_ stops)
  intro before b after split
  -- Each of them is checked in its own turn.
  have member : b ∈ layout.fixed h.memStartBrk ++ s.blocks := by
    show b ∈ blocks
    simp [split]
  have tiles := arena.tiles
  rw [show layout.fixed h.memStartBrk ++ s.blocks = blocks from rfl, split] at tiles
  obtain ⟨_, rest, inside⟩ := tiles.cut
  have low := arena.aligned
  have aligned := inside.aligned
  have least := inside.least
  -- Nothing is printed for it.
  have clean : checkblock h b.addr = [] := by
    have same := arena.header_footer member (plain b member)
    simp [checkblock, same, show b.addr % 8 = 0 by omega]
  -- The next turn is at the next one.
  have onward : (after.map Blk.addr).headD h.memBrk = b.addr + b.size := by
    cases after with
    | nil => exact (tiles_nil.mp rest).symm
    | cons c after => exact rest.1
  show checkStep h (b.addr, []) = .inl ((after.map Blk.addr).headD h.memBrk, [])
  unfold checkStep
  simp only [arena.size member, arena.next member, clean, onward]
  exact if_pos (by omega)

/-- The walk of `printfreelist` along a list ends. -/
theorem printStep_walk (rep : Rep layout heads h s) (below : k < numFreelist) :
    loop (printStep h) pointerTurns (getroot h k) = some () := by
  obtain ⟨real, _, first⟩ := root_reads rep below
  have passed : printStep h (getroot h k) = .inl ((s.lists k).headD null) := by
    unfold printStep
    rw [if_pos real, first]
  rw [loop_again passed (by decide)]
  refine walk_through (fun rest => rest.headD null) (list_short rep k) ?_ (if_neg (by simp))
  intro before p after split
  obtain ⟨b, block, rfl, free, _⟩ := rep.threaded.listed k p (by simp [split])
  have bounds := node_bounds rep (.inr ⟨b, block, rfl, free⟩)
  unfold printStep
  rw [List.headD_cons, if_pos bounds.2.2, list_next rep split]

/-- Reading every element of a list reads the list. -/
theorem mapM_some {α β : Type} {read : α → Option β} {result : β} {items : List α}
    (all : ∀ item ∈ items, read item = some result) : items.mapM read = some (items.map fun _ => result) := by
  induction items with
  | nil => rfl
  | cons item items ih =>
    rw [List.mapM_cons, all item List.mem_cons_self, ih fun i member => all i (List.mem_cons_of_mem _ member)]
    rfl

/-- `mm_checkheap` finds no error in a standing state. -/
theorem mmCheckheap_clean (rep : Rep layout heads h s) : mmCheckheap h = some [] := by
  have arena := rep.arena
  have fixed : root h.memStartBrk 0 ∈ layout.fixed h.memStartBrk ++ s.blocks :=
    List.mem_append_left _ (List.mem_map_of_mem (List.mem_range.mpr (by decide)))
  have place : h.statics.heapListp = h.memStartBrk + 8 := rep.heads.1
  -- The prologue is the first root.
  have here : (root h.memStartBrk 0).addr = h.memStartBrk + 8 := by simp [root, rootAddr]
  have size : getSize h (hdrp (root h.memStartBrk 0).addr) = 16 := arena.size fixed
  have alloc : getAlloc h (hdrp (root h.memStartBrk 0).addr) = 1 := arena.alloc fixed
  have same : h.get (hdrp (root h.memStartBrk 0).addr) = h.get (ftrp h (root h.memStartBrk 0).addr) :=
    arena.header_footer fixed rfl
  rw [here] at size alloc same
  have low := arena.aligned
  have clean : checkblock h (h.memStartBrk + 8) = [] := by simp [checkblock, same, low]
  -- The epilogue has size zero and is marked as used.
  have last : getSize h (hdrp h.memBrk) = 0 := arena.last
  have closed : getAlloc h (hdrp h.memBrk) = 1 := by
    have rise := arena.tiles.le
    rw [getAlloc_eq, hdrp_eq (by omega) arena.high, Heap.get, arena.closing, rep.unmarked rfl]
    rfl
  -- The lists are printed without any complaint.
  have printed := mapM_some fun i (member : i ∈ List.range numFreelist) =>
    printStep_walk rep (List.mem_range.mp member)
  unfold mmCheckheap
  simp only [place, size, alloc, clean, show overhead = 16 from rfl]
  refine bind_step (checkStep_walk rep) ?_
  simp only [last, closed]
  exact bind_step printed rfl

/-- The lists of a state, from their roots in front of the heap. -/
abbrev Lists (h : State) (base : Nat) (rest : List Nat) : (Nat → List Nat) → Prop :=
  Skeleton.ListsSound (fun p => h.get (nextp p)) (fun p => h.get (prevp p)) (fun k => h.get (nextp (getroot h k)))
    (rootAddr base) numFreelist (fun p => p ∈ rest ∧ getAlloc h (hdrp p) = 0)
    fun p => getclass (getSize h (hdrp p))

/-- The lists in memory are the abstract shelves. -/
theorem stands_lists (stands : Stands base h s) : Lists h base (s.blocks.map Blk.addr) s.lists := by
  refine Skeleton.listsSound stands.rep stands.filed (fun _ => rfl) (fun k => congrArg (rootAddr · k) stands.start)
    (fun _ => rfl) ?_ (fun k below => (root_reads stands.rep below).2.2) fun _ => rfl
  intro b block free
  have bounds := node_bounds stands.rep (.inr ⟨b, block, rfl, free⟩)
  have prev : prevp b.addr = b.addr + 8 := add32_eq (by unfold dsize; omega)
  exact ⟨rfl, congrArg h.get prev⟩

/-- What `prologue.c` does on the strict machine it does on the usual one. -/
theorem strict_call {c : Call} {result : World Statics × Nat} (done : w.call strict c = some result) :
    w.call mm c = some result := by
  cases c with
  | malloc n => exact done
  | free p => exact done
  | store addr byte => exact done
  -- What the strict machine returns, the machine returns as well.
  | realloc p n =>
    obtain ⟨⟨h', r⟩, returned, rest⟩ := Option.bind_eq_some_iff.mp done
    have returned : mmReallocBy Heap.memcpyStrict w.heap p n = some (h', r) := returned
    refine bind_step (show mmReallocBy Heap.memcpy w.heap p n = some (h', r) from ?_) rest
    unfold mmReallocBy at returned ⊢
    split_ifs at returned ⊢ with nothing fresh
    · exact returned
    · exact returned
    · exact Skeleton.reallocBy_strict returned

/-- After every run `mm_checkheap` prints no error, and every free block is on the list of its class. -/
theorem mm_prologue_invariant (ok : Base base) (init : mmInit (memInit m base statics) = some (h, 0))
    (run : Run mm NoWrap { heap := h, live := [] } cs rs w) :
    mmCheckheap w.heap = some [] ∧
      (∀ k < numFreelist, getroot w.heap k = rootAddr base k ∧ getSize w.heap (hdrp (rootAddr base k)) = 16 ∧
        getAlloc w.heap (hdrp (rootAddr base k)) = 1) ∧
      (∃ rest chains, WellFormed w.heap (base + 8) ((List.range numFreelist).map (rootAddr base)) rest 24 ∧
        Lists w.heap base rest chains) ∧
      ∀ c, w.Legal c → NoWrap w.heap c → (w.call mm c).isSome = true := by
  obtain ⟨s, stands⟩ := (services base).run (mmInit_stands ok init) run
  refine ⟨mmCheckheap_clean stands.rep.rep, fun k below => ?_, ⟨_, _, ?_, stands_lists stands.rep⟩,
    fun c legal fine => ?_⟩
  · -- The header and the footer of a root are those of a used block.
    obtain ⟨⟨rep, _, _, rfl⟩, _⟩ := stands
    have member : root w.heap.memStartBrk k ∈ layout.fixed w.heap.memStartBrk ++ s.blocks :=
      List.mem_append_left _ (List.mem_map_of_mem (List.mem_range.mpr below))
    have size := rep.arena.size member
    have alloc := rep.arena.alloc member
    exact ⟨getroot_eq rep below, size, alloc⟩
  · -- The headers of the blocks are read back from the abstract state.
    have read := Skeleton.wellFormed rfl stands
    rwa [show (layout.fixed base).map Blk.addr = (List.range numFreelist).map (rootAddr base) from
      List.map_map] at read
  · -- Every further legal call returns.
    obtain ⟨next, _, r, done, _⟩ := (services base).call stands legal fine
    rw [done]
    rfl

/-- A zeroed area for a small run; it starts at address eight. -/
def zeroed : State := memInit (fun _ => 0) 8 { heapListp := 0 }

/-- The calls of the small run. -/
def sampleCalls : List Call :=
  [.malloc 8, .malloc 20, .malloc 8, .free 176, .malloc 30, .free 200, .realloc 232 5000, .malloc 8]

/-- The small run takes place, and the heap may grow further. -/
theorem sample_run : ∃ h w, mmInit zeroed = some (h, 0) ∧
    Run strict NoWrap { heap := h, live := [] } sampleCalls [176, 200, 232, 0, 256, 0, 296, 176] w ∧
      w.heap.memBrk + chunksize ≤ w.heap.memMaxAddr := by
  obtain ⟨h, w, init, run, room⟩ := trial_run (show trial strict NoWrap (mmInit zeroed) sampleCalls
    (fun w => decide (w.heap.memBrk + chunksize ≤ w.heap.memMaxAddr)) =
      some (0, [176, 200, 232, 0, 256, 0, 296, 176], true) by decide +kernel)
  exact ⟨h, w, init, run, of_decide_eq_true room⟩

/-- After the small run `mm_checkheap` finds no error. -/
theorem mm_prologue_invariant_sample :
    ∃ h w, mmInit zeroed = some (h, 0) ∧
      Run mm NoWrap { heap := h, live := [] } sampleCalls [176, 200, 232, 0, 256, 0, 296, 176] w ∧
      mmCheckheap w.heap = some [] ∧
      (∀ k < numFreelist, getroot w.heap k = rootAddr 8 k ∧ getSize w.heap (hdrp (rootAddr 8 k)) = 16 ∧
        getAlloc w.heap (hdrp (rootAddr 8 k)) = 1) ∧
      (∃ rest chains, WellFormed w.heap (8 + 8) ((List.range numFreelist).map (rootAddr 8)) rest 24 ∧
        Lists w.heap 8 rest chains) ∧
      ∀ c, w.Legal c → NoWrap w.heap c → (w.call mm c).isSome = true := by
  obtain ⟨h, w, init, run, _⟩ := sample_run
  have usual := run.extend fun _ _ _ => strict_call
  exact ⟨h, w, init, usual, mm_prologue_invariant base_eight init usual⟩

/-- A legal call that returns on the usual machine only comes to a copy that C does not define. -/
theorem strict_faults {c : Call} {result : World Statics × Nat} (done : w.call mm c = some result)
    (faults : w.call strict c = none) (entered : ∀ p n, c = .realloc p n → p ≠ null ∧ n ≠ 0) :
    ∃ p n served r k, c = .realloc p n ∧
      Copies (fun memcpy => mmReallocBy memcpy w.heap p n) served r p k ∧ ¬ Defined served r p k := by
  cases c with
  -- The other calls are the same on both machines.
  | malloc n => exact absurd (faults.symm.trans done) (by simp)
  | free p => exact absurd (faults.symm.trans done) (by simp)
  | store addr byte => exact absurd (faults.symm.trans done) (by simp)
  -- Only a reallocation copies bytes.
  | realloc p n =>
    obtain ⟨real, asked⟩ := entered p n rfl
    have enters : ∀ memcpy, mmReallocBy memcpy w.heap p n =
        Skeleton.reallocBy memcpy mmMalloc sizeWord mmFree w.heap p n := fun _ => (if_neg asked).trans (if_neg real)
    obtain ⟨⟨h', r⟩, returned, _⟩ := Option.bind_eq_some_iff.mp done
    -- So it is the reallocation itself that has no result.
    have stuck : mmReallocBy Heap.memcpyStrict w.heap p n = none := by
      by_contra returns
      obtain ⟨⟨h₁, q⟩, returns⟩ := Option.ne_none_iff_exists'.mp returns
      have finishes : w.call strict (.realloc p n) = if q = null then some ({ w with heap := h₁ }, null)
          else some ({ heap := h₁, live := (q, n) :: dropLive w.live p }, q) := bind_step returns rfl
      rw [faults] at finishes
      split at finishes <;> simp at finishes
    -- It has none because the copy has none.
    obtain ⟨served, q, k, comes, undefined_⟩ :=
      Skeleton.reallocBy_undefined ((enters _).symm.trans returned) ((enters _).symm.trans stuck)
    refine ⟨p, n, served, q, k, rfl, ?_, undefined_⟩
    simp only [enters]
    exact comes

/--
Every run of `prologue.c` returns what the abstract allocator with its classes returns, whatever the area contains.

After it every further action is safe for the client, unless it is a reallocation whose copy C does not define.
-/
theorem mm_refines_classes (ok : Base base) (init : mmInit (memInit m base statics) = some (h, 0))
    (run : Run strict NoWrap { heap := h, live := [] } cs rs w) :
    (play (policy.move (base + maxHeap)) (initial base) cs).2 = rs ∧ ∀ c, w.Legal c → NoWrap w.heap c →
      (∃ next r, w.call strict c = some (next, r) ∧ Upholds w c next r) ∨
        ∃ p n served r k, c = .realloc p n ∧
          Copies (fun memcpy => mmReallocBy memcpy w.heap p n) served r p k ∧ ¬ Defined served r p k := by
  -- The services relate every run to a run of the abstract allocator.
  have usual := run.extend fun _ _ _ => strict_call
  obtain ⟨same, _⟩ := (services base).refines (mmInit_stands ok init) usual
  obtain ⟨s, holds⟩ := (services base).run (mmInit_stands ok init) usual
  refine ⟨same, fun c legal fine => ?_⟩
  obtain ⟨next, r, done, upholds⟩ := (services base).contract (mmInit_stands ok init) usual legal fine
  cases called : w.call strict c with
  | some result =>
    rw [strict_call called] at done
    exact .inl ⟨next, r, done, upholds⟩
  | none =>
    refine .inr (strict_faults done called ?_)
    rintro p n rfl
    obtain ⟨⟨k, live⟩, positive, _⟩ := legal
    obtain ⟨_, occupied, _⟩ := holds.owned.block p k live
    exact ⟨(parts base).occupied_real holds.rep occupied, by omega⟩

/-- The small run is one of the strict machine, too. -/
theorem mm_refines_classes_sample :
    ∃ h w, mmInit zeroed = some (h, 0) ∧
      Run strict NoWrap { heap := h, live := [] } sampleCalls [176, 200, 232, 0, 256, 0, 296, 176] w ∧
      (play (policy.move (8 + maxHeap)) (initial 8) sampleCalls).2 = [176, 200, 232, 0, 256, 0, 296, 176] ∧
      ∀ c, w.Legal c → NoWrap w.heap c →
        (∃ next r, w.call strict c = some (next, r) ∧ Upholds w c next r) ∨
          ∃ p n served r k, c = .realloc p n ∧
            Copies (fun memcpy => mmReallocBy memcpy w.heap p n) served r p k ∧ ¬ Defined served r p k := by
  obtain ⟨h, w, init, run, _⟩ := sample_run
  exact ⟨h, w, init, run, mm_refines_classes base_eight init run⟩

end MallocLab.Prologue
