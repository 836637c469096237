import MallocLab.Explicit.Parts

/-! Runs of `mm.c` from `mm_init` on, beside the runs of the abstract allocator. -/

namespace MallocLab.Explicit

/-- Between calls the machine over the area at `base` represents a state of the abstract allocator. -/
abbrev Stands (base : Nat) : State → Shelves → Prop := Skeleton.Stands layout heads base

variable {base : Nat}

/-- What `mm_init` writes into the first six words before it extends the heap. -/
def prepared (h : State) (p : Nat) : State :=
  let h := { h with statics := { h.statics with heapListp := p } }
  let h := h.put p 0
  let h := h.put (add32 p (1 * wsize)) (pack minimum 1)
  let h := h.put (add32 p (2 * wsize)) null
  let h := h.put (add32 p (3 * wsize)) null
  let h := h.put (add32 p (4 * wsize)) (pack minimum 1)
  let h := h.put (add32 p (5 * wsize)) (pack 0 1)
  { h with statics := { h.statics with freeListp := add32 p (2 * wsize) } }

/-- `mm_init` succeeds when both of its requests for space are granted. -/
theorem mmInit_eq {h h₁ h₂ : State} {p bp : Nat}
    (granted : memSbrk h (toInt32 (6 * wsize)) = (h₁, p)) (place : p ≠ minusOne)
    (extended : extendHeap (prepared h₁ p) (chunksize / wsize) = some (h₂, bp)) (real : bp ≠ null) :
    mmInit h = some (h₂, 0) := by
  unfold mmInit
  rw [granted]
  exact (if_neg place).trans (bind_step extended (if_neg real))

/-- The six words that `mm_init` writes make up an empty heap. -/
theorem prepared_rep {h : State} (ok : Base base) (area : Area h) (start : h.memStartBrk = base)
    (brk : h.memBrk = base + 24) :
    Rep layout heads (prepared h base) { blocks := [], lists := fun _ => [], brk := base + 24 } := by
  obtain ⟨aligned, real, fits⟩ := ok
  unfold null at real
  unfold maxHeap at fits
  -- Six words: padding, prologue header, two null links, prologue footer, epilogue header.
  let m := storeWord (storeWord (storeWord (storeWord (storeWord (storeWord h.mem base 0)
    (base + 4) 17) (base + 8) null) (base + 12) null) (base + 16) 17) (base + 20) 1
  have mem : (prepared h base).mem = m := by
    simp only [prepared, Heap.put_mem, wsize]
    rw [add32_eq (by omega), add32_eq (by omega), add32_eq (by omega), add32_eq (by omega),
      add32_eq (by omega)]
    rfl
  -- No block, empty lists, and the prologue as the only node of the first chain.
  have threaded : Threaded layout m base (base + 24) [] (fun _ => []) false := by
    refine ⟨⟨?_, ?_, ?_, by omega, by omega, by omega⟩, by simp, by simp, by simp, ?_⟩
    · -- The prologue is where the blocks begin.
      simp [layout, prologue, Nat.add_assoc]
    · simp only [layout, List.append_nil, List.forall_mem_singleton]
      refine ⟨?_, .inl ?_⟩
      · -- Its header and its footer are those of a used block.
        show loadWord m (base + 4) = 17
        rw [loadWord_storeWord_other (by omega), loadWord_storeWord_other (by omega),
          loadWord_storeWord_other (by omega), loadWord_storeWord_other (by omega),
          loadWord_storeWord (by decide)]
      · show loadWord m (base + 16) = 17
        rw [loadWord_storeWord_other (by omega), loadWord_storeWord (by decide)]
    · -- The epilogue is the last word.
      show loadWord m (base + 20) = 1
      rw [loadWord_storeWord (by decide)]
    · intro k
      -- The links of the prologue are null.
      by_cases zero : k = 0
      · subst zero
        refine ⟨?_, ?_, trivial⟩
        · show loadWord m (base + 8) = null
          rw [loadWord_storeWord_other (by omega), loadWord_storeWord_other (by omega),
            loadWord_storeWord_other (by omega), loadWord_storeWord (by decide)]
        · show loadWord m (base + 12) = null
          rw [loadWord_storeWord_other (by omega), loadWord_storeWord_other (by omega),
            loadWord_storeWord (by decide)]
      · -- Only the first list ends at the prologue.
        have none_ : layout.chain base k [] = [] := by simp [Layout.chain, layout, zero]
        rw [none_]
        trivial
  refine ⟨?_, ?_, by simp, by simp, brk, ⟨area.limit, area.fits⟩⟩
  · rw [mem]
    show Threaded layout m h.memStartBrk h.memBrk [] (fun _ => []) false
    rw [start, brk]
    exact threaded
  · -- The head of the list is the prologue.
    show add32 base 8 = h.memStartBrk + 8
    rw [add32_eq (by omega), start]

/-- `mm_init` succeeds on every area, whatever it contains, and leaves one free block. -/
theorem mmInit_holds (ok : Base base) (m : Mem) (statics : Statics) :
    ∃ h, mmInit (memInit m base statics) = some (h, 0) ∧
      Holds (Stands base) Shelves.blocks { heap := h, live := [] } (initial base) := by
  have real := ok.real
  have fits := ok.fits
  have room : maxHeap = 20971520 := rfl
  have area := ok.area m statics
  have empty := prepared_rep (h := { memInit m base statics with memBrk := base + 24 }) ok
    ⟨area.limit, area.fits⟩ rfl rfl
  -- The first extension is granted.
  obtain ⟨h, grown, opened, holds⟩ := scheme.opened empty (show _ = base from rfl) (by
    have limit : (memInit m base statics).memMaxAddr = base + maxHeap := area.limit
    show base + 24 + 4096 ≤ (memInit m base statics).memMaxAddr
    omega)
  exact ⟨h, mmInit_eq (ok.granted m statics (by decide)) (by unfold minusOne; omega) grown opened, holds⟩

/-- The entry points of `mm.c` serve their clients by the steps of the abstract allocator. -/
theorem services (base : Nat) : Services mm NoWrap (Stands base) Shelves.blocks
    fun s c s' r => lifo.move (base + maxHeap) s c = (s', r) :=
  (parts base).services Skeleton.headerSize (Skeleton.mmMalloc_eq place extendHeap) rfl
    fun _ _ => by
      rw [← Skeleton.mmMalloc_eq place extendHeap]
      rfl

end MallocLab.Explicit
