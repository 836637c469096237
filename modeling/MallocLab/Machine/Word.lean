import Mathlib.Data.Nat.Bitwise

/-! Thirty-two bit words as natural numbers, with the wrapping arithmetic of an `-m32` build. -/

namespace MallocLab

/-- Unsigned addition wraps at the top of the word. -/
def add32 (a b : Nat) : Nat := (a + b) % 2 ^ 32

/-- Unsigned subtraction wraps below zero. -/
def sub32 (a b : Nat) : Nat := (a + 2 ^ 32 - b) % 2 ^ 32

/-- Unsigned multiplication keeps the low thirty-two bits. -/
def mul32 (a b : Nat) : Nat := (a * b) % 2 ^ 32

/-- A word read as a signed `int`. -/
def toInt32 (w : Nat) : Int := if w < 2 ^ 31 then (w : Int) else (w : Int) - 2 ^ 32

/-- A signed `int` stored back as a word. -/
def ofInt32 (i : Int) : Nat := (i % 2 ^ 32).toNat

/-- The negation of an `int`, which leaves the least one as it is. -/
def neg32 (i : Int) : Int := toInt32 (ofInt32 (-i))

/-- The mask `~0x7`, which clears the three flag bits of a header. -/
def flagMask : Nat := 0xFFFFFFF8

/-- `MAX(x, y)` -/
def maxWord (x y : Nat) : Nat := if x > y then x else y

/-- Addition that stays below the top of the range is exact. -/
theorem add32_eq {a b : Nat} (fits : a + b < 2 ^ 32) : add32 a b = a + b :=
  Nat.mod_eq_of_lt fits

/-- Subtraction of a smaller word is exact. -/
theorem sub32_eq {a b : Nat} (below : b ≤ a) (fits : a < 2 ^ 32) : sub32 a b = a - b := by
  unfold sub32
  omega

/-- A product below the top of the range is exact. -/
theorem mul32_eq {a b : Nat} (fits : a * b < 2 ^ 32) : mul32 a b = a * b :=
  Nat.mod_eq_of_lt fits

/-- Small words are nonnegative integers. -/
theorem toInt32_eq {w : Nat} (small : w < 2 ^ 31) : toInt32 w = w := if_pos small

/-- Any other negative `int` has a negation. -/
theorem neg32_eq {i : Int} (least : -2 ^ 31 < i) (negative : i < 0) : neg32 i = -i := by
  unfold neg32 toInt32 ofInt32
  split <;> omega

/-- An `int` is below `2^31`. -/
theorem toInt32_lt (w : Nat) (word : w < 2 ^ 32) : toInt32 w < 2 ^ 31 := by
  unfold toInt32
  split <;> omega

/-- Reading a word as an `int` keeps multiples of eight. -/
theorem toInt32_whole {w : Nat} (whole : w % 8 = 0) : toInt32 w % 8 = 0 := by
  unfold toInt32
  split <;> omega

/-- Differences of multiples of eight are multiples of eight, even when they wrap. -/
theorem sub32_whole {a b : Nat} (whole : a % 8 = 0) (whole' : b % 8 = 0) : sub32 a b % 8 = 0 := by
  unfold sub32
  omega

/-- So are their negations. -/
theorem neg32_whole {i : Int} (whole : i % 8 = 0) : neg32 i % 8 = 0 := by
  refine toInt32_whole ?_
  unfold ofInt32
  omega

/-- An `int` becomes a word. -/
theorem ofInt32_lt (i : Int) : ofInt32 i < 2 ^ 32 := by
  unfold ofInt32
  omega

/-- The larger of two words is their maximum. -/
theorem maxWord_eq (x y : Nat) : maxWord x y = max x y := by
  unfold maxWord
  split <;> omega

/-- Clearing the flag bits rounds a word down to a multiple of eight. -/
theorem and_flagMask {w : Nat} (word : w < 2 ^ 32) : w &&& flagMask = w / 8 * 8 := by
  -- Both sides keep exactly the bits from position three upwards.
  have shifted : w / 8 * 8 = w >>> 3 <<< 3 := by
    rw [Nat.shiftRight_eq_div_pow, Nat.shiftLeft_eq]
  have mask : flagMask = (2 ^ 29 - 1) <<< 3 := by decide
  rw [shifted, mask]
  apply Nat.eq_of_testBit_eq
  intro i
  simp only [Nat.testBit_and, Nat.testBit_shiftLeft, Nat.testBit_shiftRight,
    Nat.testBit_two_pow_sub_one]
  -- A bit below position three is clear on both sides.
  by_cases low : 3 ≤ i
  · have restored : 3 + (i - 3) = i := by omega
    rw [restored]
    -- From there on the mask keeps the bits of a word, which end at position thirty-one.
    by_cases high : i - 3 < 29
    · simp [low, high]
    · -- A word has no bits from position thirty-two on.
      have clear : w.testBit i = false :=
        Nat.testBit_lt_two_pow (Nat.lt_of_lt_of_le word (Nat.pow_le_pow_right (by omega) (by omega)))
      simp [clear]
  · simp [low]

/-- Flags below eight fit in the bits a multiple of eight leaves clear. -/
theorem or_flags {size flags : Nat} (aligned : size % 8 = 0) (small : flags < 8) :
    size ||| flags = size + flags := by
  -- A multiple of eight has no bits where the flags lie, so nothing carries.
  have whole : size = 2 ^ 3 * (size / 8) := by omega
  rw [whole, ← Nat.two_pow_add_eq_or_of_lt small]

end MallocLab
