import MallocLab.Skeleton.Shelved

/-! The frame that most files build before they extend the heap for the first time. -/

namespace MallocLab.Skeleton

/-- The prologue block of eight bytes. -/
def prologue (base : Nat) : Blk := { addr := base + 8, size := 8, used := true }

/-- There is always a block before the first one. -/
theorem prologue_solid : ∀ base, [prologue base] ≠ [] := fun _ => List.cons_ne_nil _ _

/-- The prologue is in use and carries no tag. -/
theorem prologue_guarded : ∀ base, ∀ b ∈ [prologue base], b.used = true ∧ b.tag = false := by
  simp [prologue]

/-- The four words of an empty heap: padding, the header and the footer of the prologue, and the epilogue. -/
def framed {γ : Type} (h : Heap γ) (p : Nat) : Heap γ :=
  let h := h.put p 0
  let h := h.put (add32 p (1 * wsize)) (pack dsize 1)
  let h := h.put (add32 p (2 * wsize)) (pack dsize 1)
  h.put (add32 p (3 * wsize)) (pack 0 1)

variable {γ : Type} {L : Layout} {heads : Heap γ → (Nat → List Nat) → Prop} {h : Heap γ} {base : Nat}

/-- The four words make up an empty heap. -/
theorem framed_rep (L : Layout) (heads : Heap γ → (Nat → List Nat) → Prop) (ok : Base base) (area : Area h)
    (start : h.memStartBrk = base) (brk : h.memBrk = base + 16) (fixed : ∀ base, L.fixed base = [prologue base])
    (bare : ∀ k, L.sentinel base k = none) (found : heads (framed h base) fun _ => []) :
    Rep L heads (framed h base) { blocks := [], lists := fun _ => [], brk := base + 16 } := by
  obtain ⟨aligned, real, fits⟩ := ok
  unfold null at real
  unfold maxHeap at fits
  let m := storeWord (storeWord (storeWord (storeWord h.mem base 0) (base + 4) 9) (base + 8) 9)
    (base + 12) 1
  -- The addresses of the four words do not wrap.
  have mem : (framed h base).mem = m := by
    simp only [framed, Heap.put_mem, wsize]
    rw [add32_eq (by omega), add32_eq (by omega), add32_eq (by omega)]
    rfl
  -- The prologue is the only block, and the fourth word is the epilogue.
  have threaded : Threaded L m base (base + 16) [] (fun _ => []) false := by
    refine ⟨⟨?_, ?_, ?_, by omega, by omega, by omega⟩, by simp, by simp, by simp, ?_⟩
    · simp [fixed, prologue]
    · rw [fixed, List.append_nil, List.forall_mem_singleton]
      refine ⟨?_, .inl ?_⟩
      · show loadWord m (base + 4) = 9
        rw [loadWord_storeWord_other (by omega), loadWord_storeWord_other (by omega),
          loadWord_storeWord (by decide)]
      · show loadWord m (base + 8) = 9
        rw [loadWord_storeWord_other (by omega), loadWord_storeWord (by decide)]
    · show loadWord m (base + 12) = 1
      rw [loadWord_storeWord (by decide)]
    · -- Without sentinels there is no link to look at.
      intro k
      have empty : L.chain base k [] = [] := by simp [Layout.chain, bare]
      rw [empty]
      trivial
  refine ⟨?_, found, by simp, by simp, brk, ⟨area.limit, area.fits⟩⟩
  rw [mem]
  show Threaded L m h.memStartBrk h.memBrk [] (fun _ => []) false
  rw [start, brk]
  exact threaded

end MallocLab.Skeleton
