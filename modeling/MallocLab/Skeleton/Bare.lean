import MallocLab.Skeleton.Calls

/-! Files whose free blocks are on no list: they are found only by walking along the heap. -/

namespace MallocLab.Skeleton

variable {γ : Type}

/-- `coalesce(bp)` of such a file; `finish` is what it does when a free neighbour was joined. -/
def bareCoalesce (finish : Heap γ → Nat → Heap γ) (h : Heap γ) (bp : Nat) : Option (Heap γ × Nat) :=
  let prevAlloc := getAlloc h (ftrp h (prevBlkp h bp))
  let nextAlloc := getAlloc h (hdrp (nextBlkp h bp))
  let size := getSize h (hdrp bp)
  -- The early return.
  if prevAlloc ≠ 0 ∧ nextAlloc ≠ 0 then some (h, bp)
  else if prevAlloc ≠ 0 ∧ ¬ nextAlloc ≠ 0 then
    let size := add32 size (getSize h (hdrp (nextBlkp h bp)))
    let h := h.put (hdrp bp) (pack size 0)
    let h := h.put (ftrp h bp) (pack size 0)
    some (finish h bp, bp)
  else if ¬ prevAlloc ≠ 0 ∧ nextAlloc ≠ 0 then
    let size := add32 size (getSize h (hdrp (prevBlkp h bp)))
    let h := h.put (ftrp h bp) (pack size 0)
    let h := h.put (hdrp (prevBlkp h bp)) (pack size 0)
    let bp := prevBlkp h bp
    some (finish h bp, bp)
  else
    let size := add32 size
      (add32 (getSize h (hdrp (prevBlkp h bp))) (getSize h (ftrp h (nextBlkp h bp))))
    let h := h.put (hdrp (prevBlkp h bp)) (pack size 0)
    let h := h.put (ftrp h (nextBlkp h bp)) (pack size 0)
    let bp := prevBlkp h bp
    some (finish h bp, bp)

variable {L : Layout} {heads : Heap γ → (Nat → List Nat) → Prop} {h : Heap γ} {s : Shelves}
variable {finish : Heap γ → Nat → Heap γ}

/-- No block is on a shelf. -/
theorem lists_nil (bare : ∀ size, L.style.cls size = none) (rep : Rep L heads h s) : s.lists = fun _ => [] := by
  funext k
  -- A listed block would have a class.
  refine List.eq_nil_iff_forall_not_mem.mpr fun p listed => ?_
  obtain ⟨b, _, _, _, class_⟩ := rep.threaded.listed k p listed
  rw [bare] at class_
  exact nomatch class_

/-- Taking a block off its shelf changes nothing. -/
theorem drop_eq (bare : ∀ size, L.style.cls size = none) (rep : Rep L heads h s) (p : Nat) : s.drop p = s := by
  have empty := lists_nil bare rep
  -- Erasing from an empty list leaves it empty.
  have same : (s.drop p).lists = s.lists := by
    funext k
    simp [Shelves.drop, empty]
  calc s.drop p = { s with lists := (s.drop p).lists } := rfl
    _ = s := by rw [same]

/-- Nor does filing one. -/
theorem file_eq (bare : ∀ size, L.style.cls size = none) (s : Shelves) (b : Blk) : s.file L.style b = s := by
  unfold Shelves.file
  simp [bare]

/-- Nothing is to be done when a block is taken off no list and put on none. -/
theorem idle (bare : ∀ size, L.style.cls size = none) (stable : Stable L heads) :
    Keeper L heads (fun h _ => some h) fun h _ _ => some h where
  stable := stable
  remove := fun {h _ _} rep _ _ _ => ⟨h, rfl, by rwa [drop_eq bare rep], Keeps.refl _ _⟩
  insert := fun {h s b} rep _ _ _ =>
    ⟨h, rfl, by rw [file_eq bare]; exact rep, Keeps.refl _ _, fun _ _ _ => rfl⟩

/-- The turns of such a `coalesce` mark the merged block and finish with it. -/
theorem bareTurns (L : Layout) (broad : 8 ≤ L.links.width) (finish : Heap γ → Nat → Heap γ) :
    Turns L (bareCoalesce finish) (fun h _ => some h) (fun h _ _ => some h)
      fun h bp _ => some (finish h bp) where
  alone := by
    intro h h' a b c seen prevUsed nextUsed done
    -- Nothing is joined and nothing is called.
    obtain rfl := Option.some.inj done
    unfold bareCoalesce
    simp only [seen.prev, seen.prevAlloc, seen.next, seen.nextAlloc, prevUsed, nextUsed]
    exact if_pos (by decide)
  next := by
    intro h h₁ h' a b c seen prevUsed nextFree removed _ done
    obtain rfl := Option.some.inj removed
    obtain rfl := Option.some.inj done
    have ⟨_, low, adjoin, onward, top, whole, least⟩ := seen
    -- The header of the block itself stays, and the footer is the one of the block behind.
    have sum := seen.sum_next
    unfold bareCoalesce
    simp only [seen.prev, seen.prevAlloc, seen.next, seen.nextAlloc, seen.size, prevUsed, nextFree,
      seen.nextSize, sum]
    rw [if_neg (by decide), if_pos (by decide)]
    rw [put_tags (by omega) (by omega) (by omega) (by omega) (by omega)]
    rfl
  prev := by
    intro h h₁ h' a b c seen prevFree nextUsed wide removed _ done _
    obtain rfl := Option.some.inj removed
    obtain rfl := Option.some.inj done
    obtain ⟨sum, packed⟩ := seen.sum_prev
    -- The footer is written first; the header is then found through the block before.
    obtain ⟨first, branded, second⟩ := seen.brandBack (by omega) (a.size + b.size + 0) (a.size + b.size + 0)
    unfold bareCoalesce
    simp only [seen.prev, seen.prevAlloc, seen.next, seen.nextAlloc, seen.size, prevFree, nextUsed,
      seen.prevSize, sum, packed, first, branded, second]
    rw [if_neg (by decide), if_neg (by decide), if_pos (by decide)]
    rfl
  both := by
    intro h h₁ h₂ h' a b c seen prevFree nextFree wide removed₁ _ removed₂ _ enough foot footSize _ _ done _
    obtain rfl := Option.some.inj removed₁
    obtain rfl := Option.some.inj removed₂
    obtain rfl := Option.some.inj done
    obtain ⟨sum, packed⟩ := seen.sum_both
    -- Both words are found through the neighbours, whose tags are not written yet.
    obtain ⟨ahead, foot', branded, second⟩ := seen.brandAround (by omega) enough foot
      (a.size + b.size + c.size + 0) (a.size + b.size + c.size + 0)
    unfold bareCoalesce
    simp only [seen.prev, seen.prevAlloc, seen.next, seen.nextAlloc, seen.size, prevFree, nextFree,
      seen.prevSize, foot, footSize, sum, packed, ahead, foot', branded, second]
    rw [if_neg (by decide), if_neg (by decide), if_neg (by decide)]
    rfl

end MallocLab.Skeleton
