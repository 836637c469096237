import MallocLab.Machine.Word

/-! What `fscanf` reads from a file for the formats that `mdriver.c` uses. -/

namespace MallocLab.Driver

/-- The characters of a file that are not read yet. -/
abbrev Input := List Char

/-- `isspace(c)` -/
def isspace (c : Char) : Bool := c ∈ [' ', '\t', '\n', '\r', '\x0b', '\x0c']

/--
The words that the C library stores for numerals that do not fit, given their sign and digits.

The language leaves them open, so they are a parameter.
-/
structure Wide where
  int : Bool → Nat → Nat
  unsigned : Bool → Nat → Nat

/-- A numeral after white space: whether it is negative, and its digits; a sign is read even when no digit follows. -/
def scanNumeral (input : Input) : Option (Bool × Nat) × Input :=
  let input := input.dropWhile isspace
  let negative := input.head? = some '-'
  let input := if input.head? = some '-' ∨ input.head? = some '+' then input.tail else input
  let digits := input.takeWhile Char.isDigit
  (if digits = [] then none else some (negative, Nat.ofDigitChars 10 digits 0), input.dropWhile Char.isDigit)

/-- The `int` that a numeral denotes. -/
def intValue (wide : Wide) (negative : Bool) (n : Nat) : Int :=
  if negative ∧ n ≤ 2 ^ 31 then -(n : Int)
  else if ¬ negative ∧ n < 2 ^ 31 then n
  else toInt32 (wide.int negative n % 2 ^ 32)

/-- The `unsigned` that a numeral denotes; a minus sign negates it as a word. -/
def unsignedValue (wide : Wide) (negative : Bool) (n : Nat) : Nat :=
  if n < 2 ^ 32 then if negative then sub32 0 n else n else wide.unsigned negative n % 2 ^ 32

/-- `fscanf(f, "%d", &i)`; a variable that is not assigned keeps its value. -/
def scanInt (wide : Wide) (i : Int) (input : Input) : Int × Input :=
  match scanNumeral input with
  | (some numeral, rest) => (intValue wide numeral.1 numeral.2, rest)
  | (none, rest) => (i, rest)

/-- `fscanf(f, "%u", &u)`, and whether it assigned the variable. -/
def scanUnsigned (wide : Wide) (u : Nat) (input : Input) : Nat × Bool × Input :=
  match scanNumeral input with
  | (some numeral, rest) => (unsignedValue wide numeral.1 numeral.2, true, rest)
  | (none, rest) => (u, false, rest)

/-- `fscanf(f, "%u %u", &u, &v)`; the second number is read only after the first. -/
def scanTwoUnsigned (wide : Wide) (u v : Nat) (input : Input) : Nat × Nat × Input :=
  match scanUnsigned wide u input with
  | (u, true, rest) =>
    let (v, _, rest) := scanUnsigned wide v rest
    (u, v, rest)
  | (u, false, rest) => (u, v, rest)

/-- `fscanf(f, "%ud", &u)`, which also reads a `d` right after the number. -/
def scanUnsignedD (wide : Wide) (u : Nat) (input : Input) : Nat × Input :=
  match scanUnsigned wide u input with
  | (u, true, rest) => (u, if rest.head? = some 'd' then rest.tail else rest)
  | (u, false, rest) => (u, rest)

/-- `fscanf(f, "%s", s)`: the next characters that are no white space; at the end of the file there are none. -/
def scanString (input : Input) : Option (List Char × Input) :=
  let input := input.dropWhile isspace
  if input = [] then none
  else some (input.takeWhile fun c => ¬ isspace c, input.dropWhile fun c => ¬ isspace c)

variable {wide : Wide} {u v : Nat} {input rest : Input} {word : List Char}

/-- Reading a numeral takes nothing back. -/
theorem scanNumeral_length : (scanNumeral input).2.length ≤ input.length := by
  unfold scanNumeral
  have skipped := (List.dropWhile_sublist isspace (l := input)).length_le
  have digits := fun input : Input => (List.dropWhile_sublist Char.isDigit (l := input)).length_le
  dsimp only
  split
  · have tail := (List.tail_sublist (input.dropWhile isspace)).length_le
    exact (digits _).trans (tail.trans skipped)
  · exact (digits _).trans skipped

/-- Reading a number leaves no more input than there was. -/
theorem scanUnsigned_length : (scanUnsigned wide u input).2.2.length ≤ input.length := by
  have least : (scanNumeral input).2.length ≤ input.length := scanNumeral_length
  unfold scanUnsigned
  split
  next found => rwa [found] at least
  next found => rwa [found] at least

/-- Neither does reading two numbers. -/
theorem scanTwoUnsigned_length : (scanTwoUnsigned wide u v input).2.2.length ≤ input.length := by
  have least : (scanUnsigned wide u input).2.2.length ≤ input.length := scanUnsigned_length
  unfold scanTwoUnsigned
  split
  next found =>
    rw [found] at least
    exact scanUnsigned_length.trans least
  next found => rwa [found] at least

/-- Nor does reading a number with a `d` behind it. -/
theorem scanUnsignedD_length : (scanUnsignedD wide u input).2.length ≤ input.length := by
  have least : (scanUnsigned wide u input).2.2.length ≤ input.length := scanUnsigned_length
  unfold scanUnsignedD
  split
  next found =>
    rw [found] at least
    dsimp only
    split
    · exact (List.tail_sublist _).length_le.trans least
    · exact least
  next found => rwa [found] at least

/-- A string that was read has a character, and it is gone from the file. -/
theorem scanString_length (read : scanString input = some (word, rest)) :
    word ≠ [] ∧ rest.length < input.length := by
  unfold scanString at read
  dsimp only at read
  split at read
  next => exact nomatch read
  next real =>
    obtain ⟨rfl, rfl⟩ := Prod.mk.inj (Option.some.inj read)
    have skipped := (List.dropWhile_sublist isspace (l := input)).length_le
    cases shape : input.dropWhile isspace with
    | nil => exact absurd shape real
    | cons c after =>
      -- The first character that is left is no white space.
      have solid : isspace c = false := by
        have head := List.head_dropWhile_not isspace real
        simpa [shape] using head
      have kept := (List.dropWhile_sublist (fun c => ¬ isspace c) (l := after)).length_le
      rw [shape, List.length_cons] at skipped
      rw [List.takeWhile_cons_of_pos (by simpa using solid), List.dropWhile_cons_of_pos (by simpa using solid)]
      exact ⟨by simp, by omega⟩

/-- An unsigned number is a word. -/
theorem unsignedValue_lt (negative : Bool) (n : Nat) : unsignedValue wide negative n < 2 ^ 32 := by
  unfold unsignedValue sub32
  split
  · split <;> omega
  · omega

/-- What has been read is a word, when the old value is one. -/
theorem scanUnsigned_lt (word : u < 2 ^ 32) : (scanUnsigned wide u input).1 < 2 ^ 32 := by
  unfold scanUnsigned
  split
  · exact unsignedValue_lt _ _
  · exact word

/-- So is the first of two numbers. -/
theorem scanTwoUnsigned_lt (word : u < 2 ^ 32) : (scanTwoUnsigned wide u v input).1 < 2 ^ 32 := by
  have first : (scanUnsigned wide u input).1 < 2 ^ 32 := scanUnsigned_lt word
  unfold scanTwoUnsigned
  split
  next found => rwa [found] at first
  next found => rwa [found] at first

/-- So is a number with a `d` behind it. -/
theorem scanUnsignedD_lt (word : u < 2 ^ 32) : (scanUnsignedD wide u input).1 < 2 ^ 32 := by
  have first : (scanUnsigned wide u input).1 < 2 ^ 32 := scanUnsigned_lt word
  unfold scanUnsignedD
  split
  next found => rwa [found] at first
  next found => rwa [found] at first

/-- An `int` that is read is in its range. -/
theorem scanInt_range {i : Int} (before : -2 ^ 31 ≤ i ∧ i < 2 ^ 31) :
    -2 ^ 31 ≤ (scanInt wide i input).1 ∧ (scanInt wide i input).1 < 2 ^ 31 := by
  unfold scanInt
  split
  next numeral rest _ =>
    dsimp only
    unfold intValue toInt32
    split_ifs <;> omega
  next => exact before

end MallocLab.Driver
