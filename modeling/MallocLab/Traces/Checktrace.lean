import MallocLab.Traces.Perl

/-! The script `checktrace.pl`, which checks a trace for consistency and prints a balanced version of it. -/

namespace MallocLab.Traces

/-- The ways in which the script dies. -/
inductive Death where
  /-- A realloc request names an id that has no entry. -/
  | noPreviousAlloc (linenum : Nat)
  /-- An id is allocated that is still allocated. -/
  | noInterveningFree (linenum : Nat)
  /-- An id is allocated that is marked as freed. -/
  | reusedId (linenum : Nat) (id : Text)
  /-- A free request names an id that has no entry. -/
  | unallocated (linenum : Nat)
  /-- A free request names an id that is marked as freed. -/
  | alreadyFreed (linenum : Nat)
  /-- An entry that is left was made by no allocation. -/
  | invalidResidue
deriving DecidableEq

/-- The message the script dies with, after its own name. -/
def Death.message : Death → String
  | .noPreviousAlloc linenum => s!": ERROR[{linenum}]: realloc without previous alloc\n"
  | .noInterveningFree linenum => s!": ERROR[{linenum}]: allocate with no intervening free.\n"
  | .reusedId linenum id => s!": ERROR[{linenum}]: reused ID {String.ofList id}.\n"
  | .unallocated linenum => s!": ERROR[{linenum}]: freeing unallocated block.\n"
  | .alreadyFreed linenum => s!": ERROR[{linenum}]: freeing already freed block.\n"
  | .invalidResidue => ": ERROR: Invalid free request in residue.\n"

/-- The variables of the main loop. -/
structure Loop where
  /-- The running tally of outstanding requests. -/
  hash : Hash
  /-- The requests read so far, for the output. -/
  lines : List Text
  linenum : Nat

/-- One turn of the main loop. -/
def turn (s : Loop) (line : Text) : Except Death Loop :=
  let line := chomp line
  let s := { s with linenum := s.linenum + 1 }
  let fields := split line
  let cmd := fields[0]?.getD []
  let id := fields[1]?.getD []
  -- Blank lines are ignored.
  if ¬ truthy cmd then .ok s
  else
    let s := { s with lines := s.lines ++ [line] }
    if cmd = ['r'] then
      if ¬ truthy (s.hash.get id) then .error (.noPreviousAlloc s.linenum) else .ok s
    else if cmd = ['a'] ∧ s.hash.get id = ['a'] then .error (.noInterveningFree s.linenum)
    else if cmd = ['a'] ∧ s.hash.get id = ['f'] then .error (.reusedId s.linenum id)
    else if cmd = ['f'] ∧ ¬ s.hash.has id then .error (.unallocated s.linenum)
    -- The negation binds more tightly than the comparison.
    else if cmd = ['f'] ∧ negate (s.hash.get id) = ['f'] then .error (.alreadyFreed s.linenum)
    else if cmd = ['f'] then .ok { s with hash := s.hash.erase id }
    else .ok { s with hash := s.hash.insert id cmd }

/-- The main loop. -/
def scan : Loop → List Text → Except Death Loop
  | s, [] => .ok s
  | s, line :: lines =>
    match turn s line with
    | .ok s => scan s lines
    | .error death => .error death

/-- The free request that is printed for an entry that is left. -/
def residue (hash : Hash) (key : Text) : Except Death Text :=
  if hash.get key ≠ ['a'] ∧ hash.get key ≠ ['r'] then .error .invalidResidue
  else .ok (['f', ' '] ++ key ++ ['\n'])

/-- The free requests for all of the entries that are left. -/
def residues (hash : Hash) : List Text → Except Death Text
  | [] => .ok []
  | key :: keys =>
    match residue hash key with
    | .ok line => (residues hash keys).map fun lines => line ++ lines
    | .error death => .error death

/-- What is printed with `-s`. -/
def brief (hash : Hash) : Text :=
  if hash.keys = [] then "Balanced trace.\n".toList else "Unbalanced tree.\n".toList

/--
What the script prints for an input, unless it dies.

`other` is what Perl prints for the sum of a count and a header value that is no whole number.
-/
def checktrace (other : Text → Nat → Text) (summary : Bool) (stdin : Text) : Except Death Text :=
  let input := readLines stdin
  let heapSize := chomp (input[0]?.getD [])
  let numBlocks := chomp (input[1]?.getD [])
  let oldNumOps := chomp (input[2]?.getD [])
  let weight := chomp (input[3]?.getD [])
  match scan { hash := ∅, lines := [], linenum := 4 } (input.drop 4) with
  | .error death => .error death
  | .ok s =>
    if summary then .ok (brief s.hash)
    else
      let newOps := s.hash.keys.length
      let newNumOps := plus other oldNumOps newOps
      let header := [heapSize, numBlocks, newNumOps, weight].flatMap fun item => item ++ ['\n']
      let requests := s.lines.flatMap fun item => item ++ ['\n']
      (residues s.hash s.hash.sortedKeys).map fun frees => header ++ requests ++ frees

end MallocLab.Traces
