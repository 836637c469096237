import MallocLab.Machine.Loop

/-! The power-of-two size classes of the segregated allocators. -/

namespace MallocLab.Segregated

/-- `LISTLIMIT`, the number of lists. -/
def listLimit : Nat := 20

/-- One turn of the loop that finds the list for a size. -/
def selectStep : Nat × Nat → (Nat × Nat) ⊕ (Nat × Nat)
  | (list, size) =>
    if list < listLimit - 1 ∧ size > 1 then .inl (list + 1, size >>> 1) else .inr (list, size)

/-- The list for a size, and what the loop that finds it leaves of the size. -/
def selectList (size : Nat) : Option (Nat × Nat) := loop selectStep listLimit (0, size)

/-- The class of a size: its binary logarithm, capped at the last list. -/
def sizeClass (size : Nat) : Nat := min (Nat.log2 size) (listLimit - 1)

variable {size smaller : Nat}

/-- Every size has one of the lists. -/
theorem sizeClass_lt (size : Nat) : sizeClass size < listLimit := by
  unfold sizeClass listLimit
  omega

/-- The loop shifts a size down once for every list it passes. -/
theorem selectList_from {turns list : Nat} (inside : list ≤ 19) (enough : 19 - list < turns) :
    loop selectStep turns (list, size) =
      some (list + min (Nat.log2 size) (19 - list), size >>> min (Nat.log2 size) (19 - list)) := by
  induction turns generalizing list size with
  | zero => omega
  | succ turns ih =>
    rw [Nat.log2_def]
    -- The loop goes on as long as the size can be halved and there is a class left.
    by_cases on : list < listLimit - 1 ∧ size > 1
    · have below : list < 19 := on.1
      have large : 2 ≤ size := on.2
      have step : selectStep (list, size) = .inl (list + 1, size >>> 1) := if_pos on
      have half : size >>> 1 = size / 2 := Nat.shiftRight_eq_div_pow size 1
      have count : min ((size / 2).log2 + 1) (19 - list) =
          1 + min (size / 2).log2 (19 - (list + 1)) := by omega
      rw [loop_again step (by omega), Nat.add_sub_cancel, ih (by omega) (by omega), half, if_pos large,
        count, Nat.shiftRight_add, half]
      congr 2
      omega
    · -- It stops here.
      have step : selectStep (list, size) = .inr (list, size) := if_neg on
      have none_ : min (if 2 ≤ size then (size / 2).log2 + 1 else 0) (19 - list) = 0 := by
        unfold listLimit at on
        split
        · omega
        · omega
      rw [loop_return step (by omega), none_]
      rfl

/-- The loop finds the class of every size. -/
theorem selectList_eq (size : Nat) : selectList size = some (sizeClass size, size >>> sizeClass size) := by
  unfold selectList
  rw [selectList_from (by omega) (by decide), Nat.zero_add]
  rfl

/-- A larger size never has a smaller class. -/
theorem sizeClass_mono (le : smaller ≤ size) : sizeClass smaller ≤ sizeClass size := by
  unfold sizeClass
  by_cases zero : smaller = 0
  · subst zero
    simp
  · have positive : size ≠ 0 := by omega
    have := (Nat.le_log2 positive).mpr (Nat.le_trans (Nat.log2_self_le zero) le)
    omega

/-- What is left of a size after the loop is below every size of at least sixteen in the same class. -/
theorem shifted_le {other : Nat} (word : size < 2 ^ 32) (least : 16 ≤ other)
    (same : sizeClass other = sizeClass size) : size >>> sizeClass size ≤ other := by
  rw [Nat.shiftRight_eq_div_pow]
  by_cases last : Nat.log2 size < 19
  · -- Below the last class the loop stops only when the size is used up.
    have class_ : sizeClass size = Nat.log2 size := by unfold sizeClass listLimit; omega
    have small : size < 2 ^ (Nat.log2 size + 1) := Nat.lt_log2_self
    rw [class_]
    have quotient : size / 2 ^ Nat.log2 size < 2 :=
      Nat.div_lt_of_lt_mul (by rwa [← Nat.pow_succ])
    omega
  · -- In the last class every size is large.
    have class_ : sizeClass size = 19 := by unfold sizeClass listLimit; omega
    have large : 19 ≤ Nat.log2 other := by
      rw [class_] at same
      unfold sizeClass listLimit at same
      omega
    have bound : 2 ^ 19 ≤ other := (Nat.le_log2 (by omega)).mp large
    rw [class_]
    omega

end MallocLab.Segregated
