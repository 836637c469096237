import MallocLab.Explicit.FreeList

/-! The functions of `mm.c` do to the blocks and the stack what the abstract allocator does. -/

namespace MallocLab.Explicit

variable {h : State} {s : Shelves} {a n : Nat}

/-- The turns of `coalesce` remove the free neighbours, mark the merged block and list it. -/
theorem turns : Turns layout coalesce removeBlock (fun h bp _ => putFreeBlock h bp)
    fun h bp _ => putFreeBlock h bp where
  -- Neither neighbour is free.
  alone := by
    intro h h' a b c seen prevUsed nextUsed done
    unfold coalesce
    simp only [seen.prev, seen.prevAlloc, seen.next, seen.nextAlloc, prevUsed, nextUsed]
    rw [if_pos (by decide), done]
    rfl
  -- The block behind is free, and it is taken off the list.
  next := by
    intro h h₁ h' a b c seen prevUsed nextFree removed seen₁ done
    have ⟨_, low, adjoin, onward, top, whole, least⟩ := seen₁
    have sum := seen₁.sum_next
    unfold coalesce
    simp only [seen.prev, seen.prevAlloc, seen.next, seen.nextAlloc, seen.size, prevUsed, nextFree]
    rw [if_neg (by decide), if_pos (by decide)]
    simp only [removed, Option.bind_eq_bind, Option.bind_some, seen₁.next, seen₁.nextSize, sum]
    rw [put_tags (by omega) (by omega) (by omega) (by omega) (by omega)]
    exact bind_step done rfl
  -- The block before is free.
  prev := by
    intro h h₁ h' a b c seen prevFree nextUsed _ removed seen₁ done _
    have ⟨_, low, adjoin, onward, top, whole, least⟩ := seen₁
    have sum := seen₁.sum_prev.1
    unfold coalesce
    simp only [seen.prev, seen.prevAlloc, seen.next, seen.nextAlloc, seen.size, prevFree, nextUsed]
    rw [if_neg (by decide), if_neg (by decide), if_pos (by decide)]
    simp only [removed, Option.bind_eq_bind, Option.bind_some, seen₁.prev, seen₁.prevSize, sum]
    rw [put_tags (by omega) (by omega) (by omega) (by omega) (by omega)]
    exact bind_step done rfl
  -- Both are free, and both are taken off.
  both := by
    intro h h₁ h₂ h' a b c seen prevFree nextFree _ removed₁ seen₁ removed₂ seen₂ _ _ _ foot₂ footSize₂ done _
    have ⟨_, low, adjoin, onward, top, whole, least⟩ := seen₂
    have sum := seen₂.sum_both.1
    unfold coalesce
    simp only [seen.prev, seen.prevAlloc, seen.next, seen.nextAlloc, seen.size, prevFree, nextFree]
    rw [if_neg (by decide), if_neg (by decide), if_neg (by decide)]
    simp only [removed₁, removed₂, Option.bind_eq_bind, Option.bind_some, seen₁.next, seen₂.prev,
      seen₂.next, seen₂.prevSize, foot₂, footSize₂, sum]
    rw [put_tags (by omega) (by omega) (by omega) (by omega) (by omega)]
    exact bind_step done rfl

/-- The parts of `mm.c` keep the free list, the whole of which is one shelf. -/
theorem scheme : Skeleton.Scheme layout heads coalesce removeBlock place
    (fun h bp _ => putFreeBlock h bp) fun h bp _ => putFreeBlock h bp where
  keeper := keeper
  single := keeper
  turns := turns
  places := Skeleton.place_rep keeper (Skeleton.settles_insert keeper rfl) rfl rfl (fun _ => rfl) fun _ => rfl
  tight := rfl
  small := by decide
  closed := rfl

/-- `find_fit` returns the first block of the stack that is large enough, else null. -/
theorem findFit_result (rep : Rep layout heads h s) (a : Nat) :
    findFit h a = some (h, (firstFit s a).getD null) := by
  have found : loop (findFitStep h a) pointerTurns h.statics.freeListp =
      some ((firstFit s a).getD null) := by
    unfold firstFit
    rw [List.find?_eq_findSome?_guard, show h.statics.freeListp = _ from rep.heads]
    -- The loop stands at the prologue when the rest of the stack is empty.
    refine loop_walk (fun rest => rest.headD (h.memStartBrk + 8)) (rep.threaded.length_lt 0) ?_ ?_
    · intro before p after split
      obtain ⟨b, block, rfl, free⟩ := rep_listed rep (p := p) (by simp [split])
      obtain ⟨pre, post, _, located⟩ := Skeleton.Rep.locate rep block
      have member : b ∈ [prologue h.memStartBrk] ++ s.blocks := by simp [block]
      have linked := rep.threaded.linked 0
      have shape : layout.chain h.memStartBrk 0 (s.lists 0) =
          before ++ b.addr :: layout.chain h.memStartBrk 0 after := by simp [split, Layout.chain]
      -- The successor link of a listed block leads to what is left of the stack.
      rw [shape] at linked
      have next : h.get (succFreep b.addr) = after.headD (h.memStartBrk + 8) := by
        rw [← headD_chain, ← linked.links.2, rep_succ rep (.inr ⟨b, block, rfl, free⟩)]
        rfl
      simp only [findFitStep, List.headD_cons, rep.arena.alloc member, rep.arena.size member, free, next]
      rw [if_pos (by decide)]
      by_cases large : a ≤ b.size
      · simp [Option.guard, Shelves.fits, located, large]
      · simp [Option.guard, Shelves.fits, located, large]
    · -- The prologue is marked allocated, which ends the search with null.
      have alloc := rep.arena.alloc (b := prologue h.memStartBrk) (by simp [layout])
      simp only [prologue] at alloc
      simp [findFitStep, alloc]
  exact congrArg (Option.map fun bp => (h, bp)) found

/-- The code rounds a request up to the block size of the abstract allocator. -/
theorem blockSize_adjusted (positive : 1 ≤ n) (small : n ≤ maxRequest) :
    Skeleton.adjustedSize n = blockSize n ∧ Skeleton.Adjusted n (blockSize n) := by
  obtain ⟨rounded, adjusted⟩ := Skeleton.adjustedSize_adjusted positive small
  rw [rounded] at adjusted
  exact ⟨rounded, adjusted⟩

/-- The functions of `mm.c` are the parts of its abstract allocator. -/
theorem parts (base : Nat) : Skeleton.Parts lifo base (Skeleton.Stands layout heads base)
    Skeleton.adjustedSize findFit (Skeleton.placed place) (Skeleton.extended extendHeap) mmFree :=
  scheme.parts blockSize_adjusted (fun fits _ => fits.least) (fun stands _ => findFit_result stands.rep _)
    fun {h s n a p} stands _ found => by
    obtain ⟨b, block, rfl, free⟩ := rep_listed stands.rep (List.mem_of_find?_eq_some found)
    obtain ⟨pre, post, _, located⟩ := Skeleton.Rep.locate stands.rep block
    have large := List.find?_some found
    rw [Shelves.fits_eq located, decide_eq_true_eq] at large
    exact ⟨b, block, rfl, free, large⟩

end MallocLab.Explicit
