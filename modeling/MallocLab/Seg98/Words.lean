import MallocLab.Seg98.Mm
import MallocLab.Segregated.Lists

/-! The words that `PUT` writes, and the list operations, for both files. -/

namespace MallocLab.Seg98

open Segregated

/--
One shelf for every power of two, and a leftover of sixteen bytes is no block.

A tagged block does not join the block after it, and large requests are served from the top.
-/
def style : Style where
  cls := fun size => some (sizeClass size)
  closed := fun b => b.used || b.tag
  splits := fun left => 16 < left
  high := fun a => 100 ≤ a

/-- Every block is filed on the shelf of its class. -/
theorem classed : Classed style := fun _ => rfl

/-- The link along which the lists are followed is the first payload word of a block. -/
abbrev links : Offsets := .nextFirst

variable (f : File)

/-- The lists of the file in memory; the footers of the file with tags are loose. -/
abbrev layout : Layout := Segregated.layout links rfl f.tagged style

variable {f} {h : State} {s : Shelves} {b c : Blk} {n alloc p : Nat}

/-- The tag is the second bit of the word. -/
theorem getTag_eq (h : State) (p : Nat) : getTag h p = 2 * (h.get p / 2 % 2) := by
  unfold getTag
  rw [show (2 : Nat) = 2 ^ 1 from rfl, Nat.and_two_pow, Nat.testBit_succ, Nat.testBit_zero]
  rcases Nat.mod_two_eq_zero_or_one (h.get p / 2) with even | odd
  · simp [even]
  · simp [odd]

/-- The tag of a header that a file keeps is the tag of the block. -/
theorem marked_header (word : h.get p = b.word) (whole : b.size % 8 = 0) (plain : f.tagged = false → b.tag = false) :
    marked f h p = b.tag := by
  have used := Bool.toNat_lt_two b.used
  have tag : h.get p / 2 % 2 = b.tag.toNat := by
    have := Bool.toNat_lt_two b.tag
    rw [word]
    unfold Blk.word
    omega
  unfold marked
  rw [getTag_eq, tag]
  cases kept : f.tagged with
  | false => simp [plain kept]
  | true => cases b.tag <;> rfl

/-- `PUT` packs a size and an allocation bit, and adds the tag that the word carried. -/
theorem put_eq (whole : n % 8 = 0) (small : alloc < 2) :
    put f h p (pack n alloc) = h.put p (n + (2 * (marked f h p).toNat + alloc)) := by
  unfold put marked
  congr 1
  cases kept : f.tagged with
  | false => simp [pack_eq whole (show alloc < 8 by omega)]
  | true =>
    rw [if_pos rfl, pack, Nat.lor_assoc, getTag_eq]
    rcases Nat.mod_two_eq_zero_or_one (h.get p / 2) with even | odd
    · rw [even, Nat.mul_zero, Nat.or_zero, or_flags whole (by omega)]
      simp
    · rw [odd]
      have flags : alloc ||| 2 * 1 = 2 + alloc := by
        rcases (by omega : alloc = 0 ∨ alloc = 1) with rfl | rfl <;> rfl
      rw [flags, or_flags whole (by omega)]
      simp

/-- Over the header of a block `PUT` writes the header of a block with the same tag. -/
theorem put_header (word : h.get p = b.word) (whole : b.size % 8 = 0) (plain : f.tagged = false → b.tag = false)
    (aligned : c.size % 8 = 0) (tag : c.tag = b.tag) :
    put f h p (pack c.size c.used.toNat) = h.put p c.word := by
  rw [put_eq aligned (Bool.toNat_lt_two _), marked_header word whole plain, ← tag]
  rfl

/-- Wherever `PUT` writes the size and the allocation bit of a block, they can serve as its footer. -/
theorem put_footer (h : State) (p : Nat) (aligned : c.size % 8 = 0) :
    ∃ v, put f h p (pack c.size c.used.toNat) = h.put p v ∧ Footer f.tagged c v := by
  refine ⟨_, put_eq aligned (Bool.toNat_lt_two _), ?_⟩
  cases stray : marked f h p with
  | false => exact .inl (by simp)
  | true =>
    have kept : f.tagged = true := by
      unfold marked at stray
      exact (Bool.and_eq_true_iff.mp stray).1
    exact .inr ⟨kept, by simp only [Bool.toNat_true]; omega⟩

end MallocLab.Seg98
