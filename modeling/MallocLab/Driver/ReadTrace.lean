import MallocLab.Driver.Scanf
import MallocLab.Driver.Valid
import MallocLab.Machine.Loop

/-! How `mdriver.c` reads a trace file, with the stores it makes into the array of requests. -/

namespace MallocLab.Driver

/-- `MAXLINE` -/
def maxline : Nat := 1024

/-- What `read_trace` depends on besides the contents of its file. -/
structure Surroundings where
  wide : Wide
  /-- Whether a call of `malloc`, by its number in the function, is granted this many bytes. -/
  granted : Nat → Nat → Bool
  /-- What the new trace record happens to hold. -/
  numIds : Int
  numOps : Int
  numIds_int : -2 ^ 31 ≤ numIds ∧ numIds < 2 ^ 31
  numOps_int : -2 ^ 31 ≤ numOps ∧ numOps < 2 ^ 31
  /-- What the variable `size` happens to hold. -/
  size : Nat

/-- A store into an entry of `trace->ops`; a free request leaves the size of its entry alone. -/
structure Stored where
  opIndex : Nat
  type : OpType
  index : Int
  size : Option Int
deriving DecidableEq

/-- The ways in which the program exits while it reads a trace. -/
inductive Exit where
  /-- A call of `malloc` returned null. -/
  | unixError (call : Nat)
  /-- A request has another type. -/
  | bogusType (c : Char)
  /-- `assert(max_index == trace->num_ids - 1)` fails. -/
  | maxIndex
  /-- `assert(trace->num_ops == op_index)` fails. -/
  | numOps
deriving DecidableEq

/-- What the program prints when it exits; the assertions print their own conditions. -/
def Exit.message (path : String) : Exit → String
  | .unixError 1 => "malloc 1 failed in read_trance"
  | .unixError call => s!"malloc {call} failed in read_trace"
  | .bogusType c => s!"Bogus type character ({c}) in tracefile {path}\n"
  | .maxIndex => "max_index == trace->num_ids - 1"
  | .numOps => "trace->num_ops == op_index"

/-- Why the loop over the requests stopped. -/
inductive Stop where
  /-- The file is at its end. -/
  | eof
  | bogusType (c : Char)
  /-- The array `type` is too short for what is read into it, so that anything may happen. -/
  | overrun
deriving DecidableEq

/-- How the function ended. -/
inductive Ending where
  | returned
  | exited (exit : Exit)
  | overrun
deriving DecidableEq

/-- The declared numbers, the stores that were made, and how the function ended. -/
structure Outcome where
  numIds : Int
  numOps : Int
  stores : List Stored
  ending : Ending

/-- The variables of the loop, with the stores made so far. -/
structure Reading where
  rest : Input
  index : Nat
  size : Nat
  maxIndex : Nat
  opIndex : Nat
  stores : List Stored

/-- One turn of the loop over the requests. -/
def readTurn (wide : Wide) (s : Reading) : Reading ⊕ (Stop × Reading) :=
  match scanString s.rest with
  | none => .inr (.eof, s)
  | some (type, rest) =>
    if maxline ≤ type.length then .inr (.overrun, s)
    else if type.head? = some 'a' then
      let (index, size, rest) := scanTwoUnsigned wide s.index s.size rest
      let store : Stored := { opIndex := s.opIndex, type := .alloc, index := toInt32 index, size := some (toInt32 size) }
      .inl { rest := rest, index := index, size := size, maxIndex := maxWord index s.maxIndex,
             opIndex := add32 s.opIndex 1, stores := s.stores ++ [store] }
    else if type.head? = some 'r' then
      let (index, size, rest) := scanTwoUnsigned wide s.index s.size rest
      let store : Stored := { opIndex := s.opIndex, type := .realloc, index := toInt32 index, size := some (toInt32 size) }
      .inl { rest := rest, index := index, size := size, maxIndex := maxWord index s.maxIndex,
             opIndex := add32 s.opIndex 1, stores := s.stores ++ [store] }
    else if type.head? = some 'f' then
      let (index, rest) := scanUnsignedD wide s.index rest
      let store : Stored := { opIndex := s.opIndex, type := .free, index := toInt32 index, size := none }
      -- The largest index is not updated here.
      .inl { s with rest := rest, index := index, opIndex := add32 s.opIndex 1, stores := s.stores ++ [store] }
    else .inr (.bogusType (type.headD '\x00'), s)

/-- `read_trace` on a file with these contents. -/
def readTrace (env : Surroundings) (content : Input) : Option Outcome := do
  let fail := fun call numIds numOps => some
    { numIds := numIds, numOps := numOps, stores := [], ending := .exited (.unixError call) }
  if ¬ env.granted 1 28 then fail 1 env.numIds env.numOps
  else
    let (_, rest) := scanInt env.wide 0 content
    let (numIds, rest) := scanInt env.wide env.numIds rest
    let (numOps, rest) := scanInt env.wide env.numOps rest
    let (_, rest) := scanInt env.wide 0 rest
    if ¬ env.granted 2 (mul32 (ofInt32 numOps) 12) then fail 2 numIds numOps
    else if ¬ env.granted 3 (mul32 (ofInt32 numIds) 4) then fail 3 numIds numOps
    else if ¬ env.granted 4 (mul32 (ofInt32 numIds) 4) then fail 4 numIds numOps
    else
      let start : Reading := { rest := rest, index := 0, size := env.size, maxIndex := 0, opIndex := 0, stores := [] }
      -- Every turn reads at least one character.
      let (stop, s) ← loop (readTurn env.wide) (rest.length + 1) start
      let ending := match stop with
        | .overrun => .overrun
        | .bogusType c => .exited (.bogusType c)
        | .eof =>
          if s.maxIndex ≠ ofInt32 (numIds - 1) then .exited .maxIndex
          else if ofInt32 numOps ≠ s.opIndex then .exited .numOps
          else .returned
      return { numIds := numIds, numOps := numOps, stores := s.stores, ending := ending }

end MallocLab.Driver
