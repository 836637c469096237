import MallocLab.Seg98.Calls
import MallocLab.Seg98.Files
import MallocLab.Threads.Tags

/-! What the reallocation tags of `(98)분석.c` do to the blocks, and freeing in both files. -/

namespace MallocLab.Seg98

open Segregated

variable {f : File} {h : State} {s : Shelves} {b : Blk} {pre post : List Blk}

/-- The mask of `REMOVE_RATAG` keeps the size of a header. -/
theorem and_untag {size : Nat} (whole : size % 8 = 0) (word : size < 2 ^ 32) : size &&& 0xFFFFFFFD = size := by
  have mask : 0xFFFFFFFD = flagMask ||| 7 &&& 5 := by decide
  have low : size &&& 7 = 0 := (Nat.and_two_pow_sub_one_eq_mod size 3).trans whole
  rw [mask, Nat.and_or_distrib_left, and_flagMask word, ← Nat.and_assoc, low, Nat.zero_and, Nat.or_zero]
  omega

/-- Clearing the second bit of a header takes the tag off the block. -/
theorem word_untag (whole : b.size % 8 = 0) (word : b.size < 2 ^ 32) :
    b.word &&& 0xFFFFFFFD = { b with tag := false }.word := by
  have used := Bool.toNat_lt_two b.used
  have tag := Bool.toNat_lt_two b.tag
  have flags : (2 * b.tag.toNat + b.used.toNat) &&& 0xFFFFFFFD = 2 * false.toNat + b.used.toNat := by
    cases b.tag <;> cases b.used <;> decide
  have bits := Bool.toNat_lt_two false
  unfold Blk.word
  rw [← or_flags whole (by omega), Nat.and_or_distrib_right, and_untag whole word, flags,
    or_flags whole (by omega)]

/-- Setting the second bit of a header tags the block. -/
theorem word_retag (whole : b.size % 8 = 0) : b.word ||| 2 = { b with tag := true }.word := by
  have used := Bool.toNat_lt_two b.used
  have tag := Bool.toNat_lt_two b.tag
  have bits := Bool.toNat_lt_two true
  have flags : (2 * b.tag.toNat + b.used.toNat) ||| 2 = 2 * true.toNat + b.used.toNat := by
    cases b.tag <;> cases b.used <;> decide
  unfold Blk.word
  rw [← or_flags whole (by omega), Nat.or_assoc, flags, or_flags whole (by omega)]

/-- The header after a block, and where it lies. -/
structure Ahead (h : State) (s : Shelves) (b : Blk) (post : List Blk) : Prop where
  place : hdrp (nextBlkp h b.addr) = b.addr + b.size - 4
  word : h.get (b.addr + b.size - 4) = (following post h.memBrk s.mark).word
  whole : (following post h.memBrk s.mark).size % 8 = 0
  small : (following post h.memBrk s.mark).size < 2 ^ 32

/-- The header behind a block is found where the code looks for it. -/
theorem ahead (rep : Rep (layout f) heads h s) (located : locate s.blocks b.addr = some (pre, b, post)) :
    Ahead h s b post := by
  obtain ⟨split, _⟩ := locate_some located
  have arena := rep.arena
  have low := arena.low
  have high := arena.high
  rw [split, ← List.append_assoc] at arena
  have inside := arena.within (b := b) (by simp)
  have lower := inside.lower
  have upper := inside.upper
  have least := inside.least
  -- The header behind the block lies at its end.
  have place : hdrp (nextBlkp h b.addr) = b.addr + b.size - 4 := by
    rw [arena.next (by simp), hdrp_eq (by omega) (by omega)]
  refine ⟨place, ?_, ?_, ?_⟩
  · rw [← place]
    exact arena.following_header
  · -- The epilogue has no size.
    cases post with
    | nil => rfl
    | cons c post => exact (arena.within (b := c) (by simp)).whole
  · cases post with
    | nil => exact (by decide : 0 < 2 ^ 32)
    | cons c post =>
      have := (arena.within (b := c) (by simp)).upper
      show c.size < 2 ^ 32
      omega

/-- `REMOVE_RATAG` on the next header takes its tag off. -/
theorem removeRatag_rep (rep : Rep (layout f) heads h s) (kept : f.tagged = true)
    (located : locate s.blocks b.addr = some (pre, b, post)) :
    Rep (layout f) heads (Tagged.removeRatag h (hdrp (nextBlkp h b.addr))) (s.retagNext b.addr false) ∧
      Keeps h (Tagged.removeRatag h (hdrp (nextBlkp h b.addr))) s.blocks := by
  obtain ⟨place, word, whole, small⟩ := ahead rep located
  unfold Tagged.removeRatag
  rw [place, word, word_untag whole small]
  exact rep.retagNext heads_stable kept located

/-- `SET_RATAG` on the next header tags the block there. -/
theorem setRatag_rep (rep : Rep (layout f) heads h s) (kept : f.tagged = true)
    (located : locate s.blocks b.addr = some (pre, b, post)) :
    Rep (layout f) heads (Tagged.setRatag h (hdrp (nextBlkp h b.addr))) (s.retagNext b.addr true) ∧
      Keeps h (Tagged.setRatag h (hdrp (nextBlkp h b.addr))) s.blocks := by
  obtain ⟨place, word, whole, small⟩ := ahead rep located
  unfold Tagged.setRatag
  rw [place, word, word_retag whole]
  exact rep.retagNext heads_stable kept located

/-- How a file frees a block: it takes the tag off the block behind, and then merges. -/
def Frees (f : File) (free : State → Nat → Option State) : Prop :=
  ∀ {h s b}, Rep (layout f) heads h s → s.Filed style → b ∈ s.blocks → b.used = true →
    ∃ h', free h b.addr = some h' ∧ Rep (layout f) heads h' ((s.retagNext b.addr false).free style b.addr) ∧
      Keeps h h' (others s.blocks b.addr)

/-- The links of the file with tags. -/
theorem Tagged.spells : Spells Tagged.file.entries links :=
  fun p word => ⟨rfl, add32_eq (by unfold wsize; omega)⟩

/-- The links of the file without tags. -/
theorem Plain.spells : Spells Plain.file.entries links :=
  fun p word => ⟨rfl, add32_eq (by unfold wsize; omega)⟩

/-- `mm_free` of the file with tags does what the shared description says. -/
theorem Tagged.frees : Frees Tagged.file Tagged.mmFree := by
  intro h s b rep filed member used
  obtain ⟨pre, post, split, located⟩ := Skeleton.Rep.locate rep member
  have size : getSize h (hdrp b.addr) = b.size := rep.arena.size (List.mem_append_right _ member)
  -- The tag of the block behind is removed first.
  obtain ⟨rep₁, keeps₁⟩ := removeRatag_rep rep rfl located
  have alike := s.retagNext_alike b.addr false
  obtain ⟨h', done, rep', keeps₂⟩ := release_rep Tagged.spells rep₁
    (filed.alike alike (s.retagNext_lists b.addr false)) (Shelves.mem_retagNext located) used
  -- The contents of the other used blocks are not touched.
  refine ⟨h', ?_, rep', (keeps₁.transfer ?_).trans (keeps₂.transfer ?_)⟩
  · unfold Tagged.mmFree
    rw [size]
    exact done
  · exact fun q k used => (occupied_others.mp used).1
  · intro q k used
    obtain ⟨before, other⟩ := occupied_others.mp used
    exact occupied_others.mpr ⟨(alike.occupied q k).mpr before, other⟩

/-- So does `mm_free` of the file without tags. -/
theorem Plain.frees : Frees Plain.file Plain.mmFree := by
  intro h s b rep filed member used
  have size : getSize h (hdrp b.addr) = b.size := rep.arena.size (List.mem_append_right _ member)
  -- Without tags there is none to take off.
  rw [Shelves.retagNext_clear (rep.plain rfl) (rep.unmarked rfl)]
  obtain ⟨h', done, rep', keeps⟩ := release_rep Plain.spells rep filed member used
  refine ⟨h', ?_, rep', keeps⟩
  unfold Plain.mmFree
  rw [size]
  exact done

end MallocLab.Seg98
