import MallocLab.Skeleton.Shelved

/-! What `mem_sbrk` does to the break when the end of an extension lies past the top of the address space. -/

namespace MallocLab.Skeleton

variable {γ : Type} {L : Layout} {heads : Heap γ → (Nat → List Nat) → Prop} {base n p q v size : Nat}
variable {h h' : Heap γ} {s : Shelves} {result : Heap γ × Nat}

/-- The start of the area, the break and the limit. -/
def area (h : Heap γ) : Nat × Nat × Nat := (h.memStartBrk, h.memBrk, h.memMaxAddr)

/-- A store through a checked pointer moves no limit. -/
theorem putChecked_area (done : h.putChecked q p v = some h') : area h' = area h := by
  unfold Heap.putChecked at done
  split at done
  · exact nomatch done
  · exact Option.some.inj done ▸ rfl

section Limits

variable {step : Option (Heap γ)} {more : Heap γ → Option (Heap γ × Nat)} {address : Heap γ → Nat} {g : Heap γ}

/-- Linking in a block and returning an address moves no limit. -/
theorem listed_area (done : (step.bind fun h => some (h, address h)) = some result)
    (inserting : ∀ {h'}, step = some h' → area h' = area h) (same : area h = area g) : area result.1 = area g := by
  obtain ⟨h₁, inserted, rest⟩ := Option.bind_eq_some_iff.mp done
  have kept := (inserting inserted).trans same
  exact Option.some.inj rest ▸ kept

/-- Unlinking a block first moves no limit either. -/
theorem unlinked_area (done : step.bind more = some result)
    (removing : ∀ {h'}, step = some h' → area h' = area h) (same : area h = area g)
    (rest : ∀ h₁, area h₁ = area g → more h₁ = some result → area result.1 = area g) :
    area result.1 = area g := by
  obtain ⟨h₁, removed, done⟩ := Option.bind_eq_some_iff.mp done
  exact rest h₁ ((removing removed).trans same) done

/-- So does placing a block, when neither unlinking it nor treating the remainder does. -/
theorem place_area {remove settle : Heap γ → Nat → Option (Heap γ)} {a : Nat}
    (removing : ∀ {h p h'}, remove h p = some h' → area h' = area h)
    (settling : ∀ {h p h'}, settle h p = some h' → area h' = area h) (done : place remove settle h p a = some h') :
    area h' = area h := by
  unfold place at done
  obtain ⟨h₁, removed, rest⟩ := Option.bind_eq_some_iff.mp done
  have kept := removing removed
  simp only at rest
  -- The block is split, or it is taken whole.
  split_ifs at rest
  · exact (settling rest).trans kept
  · exact Option.some.inj rest ▸ kept

end Limits

/-- A sum past the top of the address space is far below the limit, and `mem_sbrk` takes it. -/
theorem memSbrk_wrapped (small : size < 2 ^ 31) (word : h.memBrk < 2 ^ 32) (wraps : 2 ^ 32 ≤ h.memBrk + size)
    (below : h.memBrk + size - 2 ^ 32 ≤ h.memMaxAddr) :
    memSbrk h (toInt32 size) = ({ h with memBrk := h.memBrk + size - 2 ^ 32 }, h.memBrk) := by
  -- The `int` is positive, and adding it to the break drops the carry.
  have sum : ofInt32 ((h.memBrk : Int) + toInt32 size) = h.memBrk + size - 2 ^ 32 := by
    rw [toInt32_eq small]
    unfold ofInt32
    omega
  have nonnegative : ¬ toInt32 size < 0 := by
    rw [toInt32_eq small]
    omega
  -- So the limit test sees a small sum.
  simp only [memSbrk, sum]
  rw [if_neg (by omega)]

section Frame

variable {adjust : Nat → Nat} {findFit : Heap γ → Nat → Option (Heap γ × Nat)}
variable {coalesce : Heap γ → Nat → Option (Heap γ × Nat)} {place : Heap γ → Nat → Nat → Option (Heap γ)}

/-- Whatever `extend_heap` returns then, the break has wrapped around. -/
theorem extendHeap_wrapped (frame : ∀ {h bp result}, coalesce h bp = some result → area result.1 = area h)
    (whole : size % 8 = 0) (small : size < 2 ^ 31) (word : h.memBrk < 2 ^ 32 - 1)
    (wraps : 2 ^ 32 ≤ h.memBrk + size) (below : h.memBrk + size - 2 ^ 32 ≤ h.memMaxAddr)
    (done : extendHeap coalesce h (size / wsize) = some result) :
    area result.1 = (h.memStartBrk, h.memBrk + size - 2 ^ 32, h.memMaxAddr) := by
  unfold extendHeap at done
  rw [words_bytes whole (by omega)] at done
  simp only [memSbrk_wrapped small (by omega) wraps below] at done
  rw [if_neg (by unfold minusOne; omega)] at done
  have kept := frame done
  exact kept

/-- Whatever `mm_malloc` returns then, the break has wrapped around. -/
theorem mmMalloc_wrapped (merging : ∀ {h bp result}, coalesce h bp = some result → area result.1 = area h)
    (placing : ∀ {h bp a h'}, place h bp a = some h' → area h' = area h) (asked : n ≠ 0)
    (whole : adjust n % 8 = 0) (found : findFit h (adjust n) = some (h, null))
    (small : max (adjust n) 4096 < 2 ^ 31) (word : h.memBrk < 2 ^ 32 - 1)
    (wraps : 2 ^ 32 ≤ h.memBrk + max (adjust n) 4096)
    (below : h.memBrk + max (adjust n) 4096 - 2 ^ 32 ≤ h.memMaxAddr)
    (done : mmMalloc adjust findFit place (extendHeap coalesce) h n = some result) :
    area result.1 = (h.memStartBrk, h.memBrk + max (adjust n) 4096 - 2 ^ 32, h.memMaxAddr) := by
  -- The call has to extend the heap.
  rw [mmMalloc_eq] at done
  unfold mallocOf at done
  rw [if_neg asked, found] at done
  have chunk : maxWord (adjust n) chunksize = max (adjust n) 4096 := maxWord_eq _ _
  simp only [Option.bind_some, chunk] at done
  rw [if_neg (by simp)] at done
  obtain ⟨⟨h₁, q⟩, extended, placed⟩ := Option.bind_eq_some_iff.mp done
  -- The extension wraps the break, and placing the block moves it no more.
  have moved := extendHeap_wrapped merging (by omega) small word wraps below extended
  simp only at placed
  split at placed
  · exact Option.some.inj placed ▸ moved
  · obtain ⟨h₂, carved, rfl⟩ := Option.map_eq_some_iff.mp placed
    exact (placing carved).trans moved

/-- When a request needs an extension whose end wraps, the break ends up below the area. -/
theorem mmMalloc_escapes (merging : ∀ {h bp result}, coalesce h bp = some result → area result.1 = area h)
    (placing : ∀ {h bp a h'}, place h bp a = some h' → area h' = area h)
    (searching : ∀ {a h' q}, findFit h a = some (h', q) → h' = h) (stands : Stands L heads base h s)
    (inside : h.memBrk ≤ h.memMaxAddr) (asked : n ≠ 0) (whole : adjust n % 8 = 0)
    (wraps : ¬ NoWrap adjust findFit h (.malloc n))
    (done : mmMalloc adjust findFit place (extendHeap coalesce) h n = some result) :
    result.1.memStartBrk = h.memStartBrk ∧ result.1.memBrk < h.memStartBrk := by
  obtain ⟨lo, aligned, _, low, tiles, _⟩ := stands.tiles
  have limit := stands.rep.area.limit
  have fits := stands.rep.area.fits
  have room : maxHeap = 20971520 := rfl
  have high := tiles.aligned
  have onward := tiles.le
  have chunk : maxWord (adjust n) chunksize = max (adjust n) 4096 := maxWord_eq _ _
  -- A request that wraps has found no block.
  simp only [NoWrap, RequestFits, SbrkFits, chunk, Classical.not_imp, Option.map_eq_some_iff] at wraps
  obtain ⟨⟨⟨h₁, q⟩, found, rfl⟩, small, beyond⟩ := wraps
  -- The search has changed nothing.
  obtain rfl := searching found
  -- The new break is below the start, since the request is shorter than the address space.
  have wrapped := mmMalloc_wrapped merging placing asked whole found small (by omega) (by omega) (by omega) done
  obtain ⟨start', brk', _⟩ : _ ∧ _ ∧ _ := by simpa [area] using wrapped
  exact ⟨start', by omega⟩

end Frame

end MallocLab.Skeleton
