import Mathlib.Data.List.AList
import Mathlib.Data.List.Sort
import Mathlib.Data.List.TakeWhile

/-! The scalars, lists and hashes of Perl, as far as the scripts of the repository use them. -/

namespace MallocLab.Traces

/-- A scalar that holds a string; an undefined one is read as the empty string. -/
abbrev Text := List Char

/-- What `\s` matches. -/
def isSpace (c : Char) : Bool := c ∈ [' ', '\t', '\n', '\r', '\x0b', '\x0c']

/-- What a condition makes of a scalar: only the empty string and `"0"` are false. -/
def truthy (s : Text) : Bool := s ≠ [] ∧ s ≠ ['0']

/-- `!s` as a scalar. -/
def negate (s : Text) : Text := if truthy s then [] else ['1']

/-- What `<STDIN>` returns one after the other: each line with its newline, which the last may lack. -/
def readLines : Text → List Text
  | [] => []
  | c :: rest =>
    if c = '\n' then ['\n'] :: readLines rest
    else
      match readLines rest with
      | [] => [[c]]
      | line :: lines => (c :: line) :: lines

/-- Removes a newline at the end. -/
def chomp (line : Text) : Text := if line.getLast? = some '\n' then line.dropLast else line

/-- `split(" ", s)`: the longest parts without white space. -/
def split (s : Text) : List Text := (s.splitOnP isSpace).filter fun field => field ≠ []

/-- The whole number that a scalar is as a number; there is none when it has a fraction, an exponent or no digits. -/
def integer (s : Text) : Option Int :=
  let s := s.dropWhile isSpace
  let negative := s.head? = some '-'
  let s := if s.head? = some '-' ∨ s.head? = some '+' then s.tail else s
  let digits := s.takeWhile Char.isDigit
  let next := (s.dropWhile Char.isDigit).head?
  if digits = [] ∨ next = some '.' ∨ next = some 'e' ∨ next = some 'E' then none
  else some (if negative then -(Nat.ofDigitChars 10 digits 0 : Int) else Nat.ofDigitChars 10 digits 0)

/-- A whole number as a string. -/
def decimal (n : Int) : Text := if n < 0 then '-' :: Nat.toDigits 10 n.natAbs else Nat.toDigits 10 n.natAbs

/-- The sum of a scalar and a count as a string; `other` is what Perl prints when the scalar is no whole number. -/
def plus (other : Text → Nat → Text) (s : Text) (count : Nat) : Text :=
  match integer s with
  | some n => decimal (n + count)
  | none => other s count

/-- A hash from strings to strings. -/
abbrev Hash := AList fun _ : Text => Text

/-- `$HASH{key}`, which is undefined when there is no such entry. -/
def Hash.get (hash : Hash) (key : Text) : Text := (hash.lookup key).getD []

/-- `exists($HASH{key})` -/
def Hash.has (hash : Hash) (key : Text) : Bool := (hash.lookup key).isSome

/-- Whether `sort` puts a string before another one: it compares their characters by their codes. -/
def sortsBefore (s t : Text) : Bool := List.lex s t fun c d => decide (c.toNat < d.toNat)

/-- `sort keys %HASH` -/
def Hash.sortedKeys (hash : Hash) : List Text := hash.keys.insertionSort fun s t => sortsBefore t s = false

/-- Characters that are all in one line. -/
def Inline (s : Text) : Prop := '\n' ∉ s

variable {s line : Text} {rest : Text}

/-- The characters up to a newline are the next line. -/
theorem readLines_cons (inline : Inline line) :
    readLines (line ++ '\n' :: rest) = (line ++ ['\n']) :: readLines rest := by
  induction line with
  | nil => simp [readLines]
  | cons c line ih =>
    obtain ⟨first, others⟩ : c ≠ '\n' ∧ Inline line := by simpa [Inline, eq_comm] using inline
    rw [List.cons_append, readLines, if_neg first, ih others]
    rfl

/-- The lines of a text that was printed line by line. -/
theorem readLines_print {lines : List Text} (inline : ∀ line ∈ lines, Inline line) :
    readLines (lines.flatMap fun line => line ++ ['\n']) = lines.map fun line => line ++ ['\n'] := by
  induction lines with
  | nil => rfl
  | cons line lines ih =>
    have others := ih fun other inside => inline other (List.mem_cons_of_mem _ inside)
    rw [List.flatMap_cons, List.append_assoc, List.singleton_append,
      readLines_cons (inline line List.mem_cons_self), others, List.map_cons]

/-- What is printed after some lines is read after them. -/
theorem readLines_append {lines : List Text} (inline : ∀ line ∈ lines, Inline line) :
    readLines ((lines.flatMap fun line => line ++ ['\n']) ++ rest) =
      (lines.map fun line => line ++ ['\n']) ++ readLines rest := by
  induction lines with
  | nil => rfl
  | cons line lines ih =>
    have others := ih fun other inside => inline other (List.mem_cons_of_mem _ inside)
    have shape : ((line :: lines).flatMap fun line => line ++ ['\n']) ++ rest =
        line ++ '\n' :: ((lines.flatMap fun line => line ++ ['\n']) ++ rest) := by simp
    rw [shape, readLines_cons (inline line List.mem_cons_self), others, List.map_cons, List.cons_append]

/-- A last line may lack its newline. -/
theorem readLines_single (inline : Inline line) (real : line ≠ []) : readLines line = [line] := by
  induction line with
  | nil => exact absurd rfl real
  | cons c line ih =>
    obtain ⟨first, others⟩ : c ≠ '\n' ∧ Inline line := by simpa [Inline, eq_comm] using inline
    rw [readLines, if_neg first]
    cases line with
    | nil => rfl
    | cons d line => rw [ih others (by simp)]

/-- A line without newline stays as it is. -/
theorem chomp_inline (inline : Inline line) : chomp line = line := by
  refine if_neg fun last => inline ?_
  exact List.mem_of_getLast? last

/-- A newline that was appended is removed again. -/
@[simp] theorem chomp_newline : chomp (line ++ ['\n']) = line := by simp [chomp]

/-- A line has a newline at its end or nowhere. -/
theorem inline_of_mem (member : line ∈ readLines s) : Inline (chomp line) ∧ line ≠ [] := by
  induction s generalizing line with
  | nil => simp [readLines] at member
  | cons c s ih =>
    unfold readLines at member
    -- The line ends here, or it goes on.
    by_cases newline : c = '\n'
    · rw [if_pos newline] at member
      rcases List.mem_cons.mp member with rfl | later
      · exact ⟨by simp [chomp, Inline], by simp⟩
      · exact ih later
    · -- The character belongs to the line that is read next.
      rw [if_neg newline] at member
      cases lines : readLines s with
      | nil =>
        rw [lines] at member
        obtain rfl := List.mem_singleton.mp member
        exact ⟨by simp [chomp, Inline, newline, eq_comm], by simp⟩
      -- The character stands in front of the first line.
      | cons first others =>
        rw [lines] at member
        rcases List.mem_cons.mp member with rfl | later
        · obtain ⟨inline, real⟩ := @ih first (by simp [lines])
          -- Another character before the line does not change how it ends.
          have same : chomp (c :: first) = c :: chomp first := by
            unfold chomp
            rw [List.getLast?_cons_of_ne_nil real, List.dropLast_cons_of_ne_nil real]
            split <;> rfl
          rw [same]
          exact ⟨by simpa [Inline, eq_comm, newline] using inline, by simp⟩
        · exact ih (by simp [lines, later])

/-- The characters up to the first white space are the first field. -/
theorem split_append {field : Text} {c : Char} (solid : ∀ d ∈ field, isSpace d = false) (real : field ≠ [])
    (space : isSpace c = true) : split (field ++ c :: rest) = field :: split rest := by
  unfold split
  rw [List.splitOnP_append_cons_of_forall_mem solid c space, List.filter_cons_of_pos (by simpa using real)]

/-- A scalar without white space is its only field. -/
theorem split_single {field : Text} (solid : ∀ d ∈ field, isSpace d = false) (real : field ≠ []) :
    split field = [field] := by
  unfold split
  rw [List.splitOnP_eq_singleton solid, List.filter_cons_of_pos (by simpa using real), List.filter_nil]

/-- The fields of a scalar are real, and they have no white space. -/
theorem solid_of_mem_split {field : Text} (member : field ∈ split s) :
    field ≠ [] ∧ ∀ c ∈ field, isSpace c = false := by
  obtain ⟨part, real⟩ := List.mem_filter.mp member
  refine ⟨by simpa using real, ?_⟩
  clear member real
  -- Each character either ends a part or joins the first of the parts after it.
  induction s generalizing field with
  | nil => simp_all
  | cons c s ih =>
    rw [List.splitOnP_cons_eq_if_modifyHead] at part
    split at part
    -- A blank starts a new part.
    next space =>
      rcases List.mem_cons.mp part with rfl | later
      · simp
      · exact ih later
    -- Another character joins the first part.
    next solid =>
      obtain ⟨first, others, parts⟩ := List.exists_cons_of_ne_nil (List.splitOnP_ne_nil isSpace s)
      rw [parts, List.modifyHead_cons] at part
      rcases List.mem_cons.mp part with rfl | later
      · have rest := @ih first (by simp [parts])
        exact List.forall_mem_cons.mpr ⟨by simpa using solid, rest⟩
      · exact ih (by simp [parts, later])

/-- White space is no digit. -/
theorem not_isSpace_of_isDigit {c : Char} (digit : c.isDigit = true) : isSpace c = false := by
  unfold isSpace
  refine decide_eq_false fun space => ?_
  have spaces : [' ', '\t', '\n', '\r', '\x0b', '\x0c'].all (fun d => !d.isDigit) = true := by decide
  have none_digit := List.all_eq_true.mp spaces c space
  rw [digit] at none_digit
  exact Bool.false_ne_true none_digit

/-- A number that was printed is read as that number. -/
theorem integer_decimal (n : Nat) : integer (decimal n) = some (n : Int) := by
  -- The number is not negative, so it is written without a sign.
  have printed : decimal n = Nat.toDigits 10 n := by
    unfold decimal
    rw [if_neg (by omega), Int.natAbs_natCast]
  have digits : ∀ c ∈ Nat.toDigits 10 n, c.isDigit = true := fun c inside =>
    Nat.isDigit_of_mem_toDigits (by decide) (by decide) inside
  have value : Nat.ofDigitChars 10 (Nat.toDigits 10 n) 0 = n := Nat.ofDigitChars_ten_toDigits
  rw [printed]
  cases shape : Nat.toDigits 10 n with
  | nil => exact absurd shape Nat.toDigits_ne_nil
  | cons c rest =>
    rw [shape] at digits value
    -- There is no white space and no sign before the digits, and nothing after them.
    have first := digits c List.mem_cons_self
    have spaceless : (c :: rest).dropWhile isSpace = c :: rest :=
      List.dropWhile_cons_of_neg (by simp [not_isSpace_of_isDigit first])
    have unsigned : c ≠ '-' ∧ c ≠ '+' := by
      constructor <;> (rintro rfl; exact absurd first (by decide))
    -- All of it is digits.
    have taken : (c :: rest).takeWhile Char.isDigit = c :: rest := List.takeWhile_eq_self_iff.mpr digits
    have dropped : (c :: rest).dropWhile Char.isDigit = [] := List.dropWhile_eq_nil_iff.mpr digits
    simp [integer, spaceless, unsigned.1, unsigned.2, taken, dropped, value]

/-- Adding nothing to a number that was printed prints it again. -/
theorem plus_decimal (other : Text → Nat → Text) (n : Nat) : plus other (decimal n) 0 = decimal n := by
  unfold plus
  rw [integer_decimal]
  simp

/-- A number that was printed has no newline. -/
theorem inline_decimal (n : Nat) : Inline (decimal n) := by
  intro newline
  unfold decimal at newline
  rw [if_neg (by omega)] at newline
  exact absurd (Nat.isDigit_of_mem_toDigits (by decide) (by decide) newline) (by decide)

end MallocLab.Traces
