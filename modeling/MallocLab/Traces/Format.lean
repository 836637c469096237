import MallocLab.Driver.Accepts
import MallocLab.Driver.Admits
import MallocLab.Traces.Balance

/-! The format of the trace files, and that `read_trace` reads back what was written in it. -/

namespace MallocLab.Traces

open Driver (TraceOp OpType Input Wide Surroundings Stored Outcome scanNumeral scanInt scanUnsigned scanTwoUnsigned
  scanUnsignedD scanString nextRequest requestsOf readTrace traceFile Granted)

/-- A request as it is written on a line. -/
def requestLine (op : TraceOp) : Text :=
  match op.type with
  | .alloc => ['a', ' '] ++ decimal op.index ++ [' '] ++ decimal op.size
  | .realloc => ['r', ' '] ++ decimal op.index ++ [' '] ++ decimal op.size
  | .free => ['f', ' '] ++ decimal op.index

/-- The numbers of the four lines at the start of a file. -/
structure Header where
  suggHeapsize : Nat
  numIds : Nat
  numOps : Nat
  weight : Nat

/-- The lines of the header. -/
def Header.lines (header : Header) : List Text :=
  [decimal header.suggHeapsize, decimal header.numIds, decimal header.numOps, decimal header.weight]

/-- The lines of a file. -/
def fileLines (header : Header) (ops : List TraceOp) : List Text := header.lines ++ ops.map requestLine

/-- A file in the format of the traces; the newline at its end may be missing. -/
def fileText (header : Header) (ops : List TraceOp) (newline : Bool) : Text :=
  if newline then text (fileLines header ops) else (text (fileLines header ops)).dropLast

/-- The store that a reader of a request should make into this entry. -/
def storeOf (opIndex : Nat) (op : TraceOp) : Stored where
  opIndex := opIndex
  type := op.type
  index := op.index
  size := if op.type = .free then none else some (op.size : Int)

/-- The stores that a reader of these requests should make. -/
def storesOf (ops : List TraceOp) : List Stored := ops.mapIdx storeOf

/-- What a reader of these requests should return. -/
def readBack (header : Header) (ops : List TraceOp) : Outcome where
  numIds := header.numIds
  numOps := header.numOps
  stores := storesOf ops
  ending := .returned

/-- A header that declares its requests correctly. -/
structure Header.Declares (header : Header) (ops : List TraceOp) : Prop where
  numOps : header.numOps = ops.length
  bound : ∀ op ∈ ops, op.index < header.numIds
  /-- The last id is allocated; without any allocation there is one id. -/
  last : header.numIds = 1 ∨ ∃ op ∈ ops, op.type ≠ .free ∧ op.index + 1 = header.numIds

/-- All numbers of a file are of type `int`. -/
structure Ints (header : Header) (ops : List TraceOp) : Prop where
  numIds : header.numIds < 2 ^ 31
  numOps : header.numOps < 2 ^ 31
  sizes : ∀ op ∈ ops, op.size < 2 ^ 31

/-- The numbers are also so small that the bytes of the three arrays do not wrap. -/
structure Fits (header : Header) (ops : List TraceOp) : Prop extends Ints header ops where
  opsBytes : 12 * header.numOps < 2 ^ 32
  idBytes : 4 * header.numIds < 2 ^ 32

/-- What may follow a number: nothing, or a character that is no digit. -/
def Ends (rest : Input) : Prop := ∀ c ∈ rest.head?, c.isDigit = false ∧ c ≠ 'd'

variable {wide : Wide} {n i size : Nat} {rest spaces : Input} {op : TraceOp} {ops : List TraceOp} {header : Header}
variable {newline : Bool} {env : Surroundings}

/-- A number may end at the end of the text. -/
theorem ends_nil : Ends [] := by simp [Ends]

/-- A number may end at a blank or at a newline. -/
theorem ends_space {c : Char} (space : c = ' ' ∨ c = '\n') : Ends (c :: rest) := by
  unfold Ends
  rcases space with rfl | rfl
  · simp
  · simp

/-- A number is written in digits. -/
theorem decimal_digits (n : Nat) : ∃ c digits, decimal n = c :: digits ∧ (∀ d ∈ c :: digits, d.isDigit = true) ∧
    Nat.ofDigitChars 10 (c :: digits) 0 = n := by
  have written : decimal n = Nat.toDigits 10 n := by
    unfold decimal
    rw [if_neg (by omega), Int.natAbs_natCast]
  have digits : ∀ c ∈ Nat.toDigits 10 n, c.isDigit = true := fun c inside =>
    Nat.isDigit_of_mem_toDigits (by decide) (by decide) inside
  have value : Nat.ofDigitChars 10 (Nat.toDigits 10 n) 0 = n := Nat.ofDigitChars_ten_toDigits
  rw [written]
  -- Even zero has a digit.
  cases shape : Nat.toDigits 10 n with
  | nil => exact absurd shape Nat.toDigits_ne_nil
  | cons c rest => exact ⟨c, rest, rfl, shape ▸ digits, shape ▸ value⟩

/-- Different numbers are written differently. -/
theorem decimal_inj {m n : Nat} (same : decimal m = decimal n) : m = n := by
  have read := congrArg integer same
  rw [integer_decimal, integer_decimal] at read
  exact Int.ofNat_inj.mp (Option.some.inj read)

/-- A number that was written is read back, with the white space in front of it. -/
theorem scanNumeral_decimal (blank : ∀ c ∈ spaces, Driver.isspace c = true) (ends : Ends rest) :
    scanNumeral (spaces ++ decimal n ++ rest) = (some (false, n), rest) := by
  obtain ⟨c, digits, written, digit, value⟩ := decimal_digits n
  have first := digit c List.mem_cons_self
  have solid : Driver.isspace c = false := not_isSpace_of_isDigit first
  have unsigned : c ≠ '-' ∧ c ≠ '+' := by
    constructor <;> (rintro rfl; exact absurd first (by decide))
  -- The white space in front is skipped.
  have skipped : (spaces ++ (c :: digits) ++ rest).dropWhile Driver.isspace = c :: digits ++ rest := by
    rw [List.append_assoc, List.dropWhile_append_of_pos blank, List.cons_append,
      List.dropWhile_cons_of_neg (by simp [solid])]
  -- The digits end where the rest begins.
  have stops : rest.takeWhile Char.isDigit = [] ∧ rest.dropWhile Char.isDigit = rest := by
    cases rest with
    | nil => exact ⟨rfl, rfl⟩
    | cons d rest =>
      have other := (ends d rfl).1
      exact ⟨List.takeWhile_cons_of_neg (by simp [other]), List.dropWhile_cons_of_neg (by simp [other])⟩
  -- The digits are taken, and nothing more.
  have taken : (c :: digits ++ rest).takeWhile Char.isDigit = c :: digits := by
    rw [List.takeWhile_append_of_pos digit, stops.1, List.append_nil]
  have dropped : (c :: digits ++ rest).dropWhile Char.isDigit = rest := by
    rw [List.dropWhile_append_of_pos digit, stops.2]
  unfold scanNumeral
  rw [written, skipped]
  simp only [List.cons_append, List.head?_cons, Option.some.injEq, unsigned.1, unsigned.2, or_self,
    if_false] at taken dropped ⊢
  rw [taken, dropped, value]
  simp

/-- An `int` that was written is read back. -/
theorem scanInt_decimal {before : Int} (blank : ∀ c ∈ spaces, Driver.isspace c = true) (ends : Ends rest)
    (int : n < 2 ^ 31) : scanInt wide before (spaces ++ decimal n ++ rest) = ((n : Int), rest) := by
  have value : Driver.intValue wide false n = n := (if_neg (by simp)).trans (if_pos ⟨by simp, int⟩)
  unfold scanInt
  rw [scanNumeral_decimal blank ends]
  exact congrArg (·, rest) value

/-- Whatever a number is, reading it takes its digits. -/
theorem scanInt_rest {before : Int} (blank : ∀ c ∈ spaces, Driver.isspace c = true) (ends : Ends rest) :
    (scanInt wide before (spaces ++ decimal n ++ rest)).2 = rest := by
  unfold scanInt
  rw [scanNumeral_decimal blank ends]

/-- So is an `unsigned`. -/
theorem scanUnsigned_decimal {before : Nat} (blank : ∀ c ∈ spaces, Driver.isspace c = true) (ends : Ends rest)
    (word : n < 2 ^ 32) : scanUnsigned wide before (spaces ++ decimal n ++ rest) = (n, true, rest) := by
  have value : Driver.unsignedValue wide false n = n := (if_pos word).trans (if_neg (by simp))
  unfold scanUnsigned
  rw [scanNumeral_decimal blank ends]
  exact congrArg (·, true, rest) value

/-- A blank is white space. -/
theorem blank_space : ∀ c ∈ ([' '] : Input), Driver.isspace c = true := by
  intro c member
  obtain rfl := List.mem_singleton.mp member
  rfl

/-- So is a newline. -/
theorem blank_newline : ∀ c ∈ (['\n'] : Input), Driver.isspace c = true := by
  intro c member
  obtain rfl := List.mem_singleton.mp member
  rfl

/-- The type of a request is read from a new line. -/
theorem scanString_type {c : Char} (solid : Driver.isspace c = false) :
    scanString ('\n' :: c :: ' ' :: rest) = some ([c], ' ' :: rest) := by
  have newline : Driver.isspace '\n' = true := by decide
  have space : Driver.isspace ' ' = true := by decide
  unfold scanString
  simp [newline, solid, space]

/-- The request of a line, as `read_trace` sees it; a free request keeps the size that was read last. -/
def requestOf (size : Nat) (op : TraceOp) : Driver.Request where
  type := op.type
  index := op.index
  size := if op.type = .free then size else op.size

/-- The next line of a file is read back. -/
theorem nextRequest_line (ends : Ends rest) (index : op.index < 2 ^ 32) (bytes : op.size < 2 ^ 32) :
    nextRequest wide i size ('\n' :: requestLine op ++ rest) = .request (requestOf size op) rest := by
  -- The two numbers stand between the blank and the end of the line.
  have pair : scanTwoUnsigned wide i size (' ' :: (decimal op.index ++ ' ' :: (decimal op.size ++ rest))) =
      (op.index, op.size, rest) := by
    have first : scanUnsigned wide i ([' '] ++ decimal op.index ++ (' ' :: (decimal op.size ++ rest))) = _ :=
      scanUnsigned_decimal blank_space (ends_space (.inl rfl)) index
    have second : scanUnsigned wide size ([' '] ++ decimal op.size ++ rest) = _ :=
      scanUnsigned_decimal blank_space ends bytes
    simp only [List.cons_append, List.nil_append] at first second
    simp only [scanTwoUnsigned, first, second]
  -- The one number of a free request is not followed by a letter `d`.
  have single : scanUnsignedD wide i (' ' :: (decimal op.index ++ rest)) = (op.index, rest) := by
    have first : scanUnsigned wide i ([' '] ++ decimal op.index ++ rest) = _ :=
      scanUnsigned_decimal blank_space ends index
    have other : ¬ rest.head? = some 'd' := fun d => (ends 'd' d).2 rfl
    simp only [List.cons_append, List.nil_append] at first
    simp only [scanUnsignedD, first, other, if_false]
  -- A free request has one number, the others have two.
  cases type : op.type with
  | alloc =>
    -- The word that names the type ends at the blank.
    have word : scanString ('\n' :: requestLine op ++ rest) =
        some (['a'], ' ' :: (decimal op.index ++ ' ' :: (decimal op.size ++ rest))) := by
      simp only [requestLine, type, List.cons_append, List.nil_append, List.append_assoc]
      exact scanString_type (by decide)
    unfold nextRequest
    rw [word]
    simp [Driver.maxline, pair, requestOf, type]
  -- The line of a reallocation has the same shape.
  | realloc =>
    have word : scanString ('\n' :: requestLine op ++ rest) =
        some (['r'], ' ' :: (decimal op.index ++ ' ' :: (decimal op.size ++ rest))) := by
      simp only [requestLine, type, List.cons_append, List.nil_append, List.append_assoc]
      exact scanString_type (by decide)
    unfold nextRequest
    rw [word]
    simp [Driver.maxline, pair, requestOf, type]
  -- The line of a free request ends after the id.
  | free =>
    have word : scanString ('\n' :: requestLine op ++ rest) = some (['f'], ' ' :: (decimal op.index ++ rest)) := by
      simp only [requestLine, type, List.cons_append, List.nil_append]
      exact scanString_type (by decide)
    unfold nextRequest
    rw [word]
    simp [Driver.maxline, single, requestOf, type]

/-- The requests of some lines, as `read_trace` sees them. -/
def requestsFrom : Nat → List TraceOp → List Driver.Request
  | _, [] => []
  | size, op :: ops => requestOf size op :: requestsFrom (requestOf size op).size ops

/-- Lines that begin with their newlines. -/
def newLines (lines : List Text) : Text := lines.flatMap fun line => '\n' :: line

/-- A text is its first line, the others after their newlines, and a newline. -/
theorem text_cons (line : Text) (lines : List Text) : text (line :: lines) = line ++ newLines lines ++ ['\n'] := by
  -- The newline of a line comes in front of the next line.
  induction lines generalizing line with
  | nil => simp [text, newLines]
  | cons next lines ih =>
    have later := ih next
    simp only [text, newLines, List.flatMap_cons, List.append_assoc, List.cons_append, List.nil_append] at later ⊢
    rw [later]

/-- A file is its header, whose last number is followed by the lines of the requests. -/
theorem fileText_eq (header : Header) (ops : List TraceOp) (newline : Bool) : ∃ tail,
    (tail = [] ∨ tail = ['\n']) ∧ fileText header ops newline =
    decimal header.suggHeapsize ++ '\n' :: decimal header.numIds ++ '\n' :: decimal header.numOps ++
      '\n' :: decimal header.weight ++ (newLines (ops.map requestLine) ++ tail) := by
  -- The first number has no newline in front of it, and each line one behind it.
  have lines : text (fileLines header ops) =
      decimal header.suggHeapsize ++ newLines (header.lines.tail ++ ops.map requestLine) ++ ['\n'] := text_cons _ _
  have parts : newLines (header.lines.tail ++ ops.map requestLine) =
      newLines header.lines.tail ++ newLines (ops.map requestLine) := List.flatMap_append
  -- The last newline is there or it is cut off.
  unfold fileText
  cases newline with
  | true => exact ⟨['\n'], .inr rfl, by simp [lines, Header.lines, newLines]⟩
  | false =>
    refine ⟨[], .inl rfl, ?_⟩
    simp only [Bool.false_eq_true, if_false]
    rw [lines, List.dropLast_concat, parts]
    simp [Header.lines, newLines]

/-- A number may end where further lines begin. -/
theorem ends_newLines {tail : Text} (lines : List Text) (last : tail = [] ∨ tail = ['\n']) :
    Ends (newLines lines ++ tail) := by
  cases lines with
  | nil =>
    rcases last with rfl | rfl
    · exact ends_nil
    · exact ends_space (.inr rfl)
  | cons line lines => exact ends_space (.inr rfl)

/-- The lines of requests are read back, up to the end of the file. -/
theorem requestsOf_lines {most : Nat} {tail : Text} (last : tail = [] ∨ tail = ['\n']) (enough : ops.length < most)
    (fits : ∀ op ∈ ops, op.index < 2 ^ 32 ∧ op.size < 2 ^ 32) :
    requestsOf wide most i size (newLines (ops.map requestLine) ++ tail) = (requestsFrom size ops, .eof) := by
  -- Every turn reads a line, and there are more turns than lines.
  induction most generalizing ops i size with
  | zero => exact absurd enough (Nat.not_lt_zero _)
  | succ most ih =>
    cases ops with
    | nil =>
      -- There is nothing but white space left.
      have done : scanString tail = none := by
        rcases last with rfl | rfl
        · rfl
        · rfl
      show requestsOf wide (most + 1) i size tail = _
      unfold requestsOf nextRequest
      rw [done]
      rfl
    -- The first line is read, and the others by the next turns.
    | cons op ops =>
      obtain ⟨index, bytes⟩ := fits op List.mem_cons_self
      have shape : newLines ((op :: ops).map requestLine) ++ tail =
          '\n' :: requestLine op ++ (newLines (ops.map requestLine) ++ tail) := by
        simp [newLines]
      -- The line ends where the next one begins.
      have next : nextRequest wide i size _ = .request _ _ :=
        nextRequest_line (ends_newLines (ops.map requestLine) last) index bytes
      have later : requestsOf wide most op.index (requestOf size op).size _ = _ :=
        ih (Nat.lt_of_succ_lt_succ enough) fun other member => fits other (List.mem_cons_of_mem _ member)
      rw [shape]
      unfold requestsOf
      rw [next]
      simp only
      rw [show (requestOf size op).index = op.index from rfl, later]
      rfl

/-- The lines are at least as long as their number. -/
theorem length_newLines (lines : List Text) : lines.length ≤ (newLines lines).length := by
  induction lines with
  | nil => simp
  | cons line lines ih =>
    simp only [newLines, List.flatMap_cons, List.length_append, List.length_cons] at ih ⊢
    omega

/-- The stores are those that the requests ask for. -/
theorem storesFrom_requests {k : Nat} (few : k + ops.length ≤ 2 ^ 32)
    (fits : ∀ op ∈ ops, op.index < 2 ^ 31 ∧ op.size < 2 ^ 31) :
    Driver.storesFrom k (requestsFrom size ops) = ops.mapIdx fun i op => storeOf (k + i) op := by
  -- The numbers of the entries go up with the requests.
  induction ops generalizing k size with
  | nil => rfl
  | cons op ops ih =>
    obtain ⟨index, bytes⟩ := fits op List.mem_cons_self
    rw [List.length_cons] at few
    -- The requests behind it are stored from the next entry on.
    have later : Driver.storesFrom (k + 1) (requestsFrom (requestOf size op).size ops) = _ :=
      ih (by omega) fun other member => fits other (List.mem_cons_of_mem _ member)
    -- The request itself is stored as it stands in the file.
    have first : (requestOf size op).stored k = storeOf k op := by
      unfold Driver.Request.stored requestOf storeOf
      rw [toInt32_eq index]
      by_cases free : op.type = .free
      · simp [free]
      · simp [free, toInt32_eq bytes]
    have shape : requestsFrom size (op :: ops) = requestOf size op :: requestsFrom (requestOf size op).size ops := rfl
    unfold Driver.storesFrom at later ⊢
    rw [shape, List.mapIdx_cons, List.mapIdx_cons]
    congr 1
    · -- The number of its entry does not wrap.
      rw [Nat.add_zero, Nat.mod_eq_of_lt (by omega), first]
    · simp only [Nat.add_assoc, Nat.add_comm 1] at later ⊢
      exact later

/-- A request of a file is one of the written requests, up to the size of a free request. -/
theorem mem_requestsFrom {r : Driver.Request} (member : r ∈ requestsFrom size ops) :
    ∃ op ∈ ops, r.type = op.type ∧ r.index = op.index := by
  induction ops generalizing size with
  | nil => exact absurd member List.not_mem_nil
  | cons op ops ih =>
    rcases List.mem_cons.mp member with rfl | later
    · exact ⟨op, List.mem_cons_self, rfl, rfl⟩
    · obtain ⟨other, inside, same⟩ := ih later
      exact ⟨other, List.mem_cons_of_mem _ inside, same⟩

/-- And each written request is one of them. -/
theorem exists_requestsFrom (size : Nat) (member : op ∈ ops) :
    ∃ r ∈ requestsFrom size ops, r.type = op.type ∧ r.index = op.index := by
  induction ops generalizing size with
  | nil => exact absurd member List.not_mem_nil
  | cons first ops ih =>
    rcases List.mem_cons.mp member with rfl | later
    · exact ⟨_, List.mem_cons_self, rfl, rfl⟩
    · obtain ⟨r, inside, same⟩ := ih (requestOf size first).size later
      exact ⟨r, List.mem_cons_of_mem _ inside, same⟩

/-- There are as many requests as lines. -/
theorem length_requestsFrom : (requestsFrom size ops).length = ops.length := by
  induction ops generalizing size with
  | nil => rfl
  | cons op ops ih => exact congrArg (· + 1) ih

/-- The largest index is the last id, when the header declares the requests. -/
theorem maxAllocated_requests (size : Nat) (declares : header.Declares ops) :
    Driver.maxAllocated (requestsFrom size ops) + 1 = header.numIds := by
  obtain ⟨bound, reached⟩ := Driver.maxAllocated_spec (requestsFrom size ops)
  -- No request has a larger id.
  have most : Driver.maxAllocated (requestsFrom size ops) = 0 ∨
      Driver.maxAllocated (requestsFrom size ops) < header.numIds := by
    refine reached.imp_right fun ⟨r, member, same⟩ => ?_
    obtain ⟨op, inside, _, index⟩ := mem_requestsFrom member
    have below := declares.bound op inside
    omega
  -- The last id is one less than the number of ids.
  rcases declares.last with one | ⟨op, member, real, last⟩
  · omega
  · -- It is the id of some request that is no free request.
    obtain ⟨r, inside, type, index⟩ := exists_requestsFrom size member
    have least := bound r inside (type ▸ real)
    omega

/-- The requests for memory of a reader of such a file are granted. -/
structure Allows (env : Surroundings) (header : Header) : Prop where
  record : env.granted 1 28 = true
  ops : env.granted 2 (mul32 header.numOps 12) = true
  blocks : env.granted 3 (mul32 header.numIds 4) = true
  blockSizes : env.granted 4 (mul32 header.numIds 4) = true

/-- What `read_trace` sees in a file of the format. -/
theorem traceFile_fileText (env : Surroundings) (newline : Bool) (declares : header.Declares ops)
    (fits : Ints header ops) :
    traceFile env (fileText header ops newline) =
      { numIds := header.numIds, numOps := header.numOps, requests := requestsFrom env.size ops, stop := .eof } := by
  obtain ⟨tail, last, shape⟩ := fileText_eq header ops newline
  -- Ids and sizes fit into the words that `fscanf` stores to.
  have words : ∀ op ∈ ops, op.index < 2 ^ 32 ∧ op.size < 2 ^ 32 := fun op member => by
    have index := declares.bound op member
    have bytes := fits.sizes op member
    have ids := fits.numIds
    omega
  -- The four numbers of the header, each up to the newline after it.
  have body : Ends (newLines (ops.map requestLine) ++ tail) := ends_newLines _ last
  have long := length_newLines (ops.map requestLine)
  rw [List.length_map] at long
  -- The requests of the file are read to its end.
  have requests : requestsOf env.wide ((newLines (ops.map requestLine) ++ tail).length + 1) 0 env.size
      (newLines (ops.map requestLine) ++ tail) = (requestsFrom env.size ops, .eof) :=
    requestsOf_lines last (by rw [List.length_append]; omega) words
  generalize newLines (ops.map requestLine) ++ tail = rest at shape body requests
  -- The numbers of the header are read one after the other, each up to the newline after it.
  let third := ['\n'] ++ decimal header.weight ++ rest
  let second := ['\n'] ++ decimal header.numOps ++ third
  let first := ['\n'] ++ decimal header.numIds ++ second
  -- The suggested heap size is read, and only what follows it matters.
  have heap : (scanInt env.wide 0 (fileText header ops newline)).2 = first := by
    have read : (scanInt env.wide 0 ([] ++ decimal header.suggHeapsize ++ first)).2 = first :=
      scanInt_rest (by simp) (ends_space (.inr rfl))
    have same : fileText header ops newline = [] ++ decimal header.suggHeapsize ++ first := by
      rw [shape]
      simp [first, second, third]
    rw [same, read]
  have ids : scanInt env.wide env.numIds first = ((header.numIds : Int), second) :=
    scanInt_decimal blank_newline (ends_space (.inr rfl)) fits.numIds
  have counts : scanInt env.wide env.numOps second = ((header.numOps : Int), third) :=
    scanInt_decimal blank_newline (ends_space (.inr rfl)) fits.numOps
  -- So is the weight.
  have weight : (scanInt env.wide 0 third).2 = rest := scanInt_rest blank_newline body
  unfold traceFile
  simp only [heap, ids, counts, weight, requests]

/-- A small `int` that is not negative is itself as a word. -/
theorem ofInt32_small {n : Nat} (small : n < 2 ^ 31) : ofInt32 (n : Int) = n := by
  unfold ofInt32
  omega

/-- A file of the format as `read_trace` sees it. -/
def writtenFile (size : Nat) (header : Header) (ops : List TraceOp) : Driver.TraceFile where
  numIds := header.numIds
  numOps := header.numOps
  requests := requestsFrom size ops
  stop := .eof

/-- The two assertions hold, since the header declares the requests. -/
theorem writtenFile_declared (size : Nat) (declares : header.Declares ops) (fits : Ints header ops) :
    (writtenFile size header ops).Declared := by
  have counted := declares.numOps
  have ids := fits.numIds
  have most := maxAllocated_requests size declares
  refine ⟨rfl, ?_, ?_⟩
  · simp only [writtenFile, length_requestsFrom]
    exact_mod_cast counted
  · have last : ((header.numIds : Int) - 1) = (header.numIds - 1 : Nat) := by omega
    simp only [writtenFile, last, ofInt32_small (n := header.numIds - 1) (by omega)]
    omega

/-- So each request is stored into its own entry, and the function returns. -/
theorem writtenFile_outcome (size : Nat) (declares : header.Declares ops) (fits : Ints header ops) :
    (writtenFile size header ops).outcome = readBack header ops := by
  have counted := declares.numOps
  have ids := fits.numIds
  have few := fits.numOps
  have declared := writtenFile_declared size declares fits
  -- The stores of the loop go to the entries in order.
  have stores : Driver.storesFrom 0 (requestsFrom size ops) = storesOf ops := by
    rw [storesFrom_requests (by omega) fun op member => ⟨(declares.bound op member).trans ids, fits.sizes op member⟩]
    simp only [Nat.zero_add]
    rfl
  -- The number of requests is the declared one, so the check after the loop passes.
  have ending : (writtenFile size header ops).ending = .returned := by
    refine (Driver.TraceFile.ending_returned ?_ ?_ (.inr ?_)).mpr declared
    · show -2 ^ 31 ≤ (header.numOps : Int)
      omega
    · show (header.numOps : Int) < 2 ^ 31
      omega
    · rw [declared.numOps]
  unfold Driver.TraceFile.outcome readBack
  rw [ending]
  simp only [writtenFile, stores]

/-- `read_trace` reads such a file as it was written. -/
theorem readTrace_written (newline : Bool) (declares : header.Declares ops) (fits : Ints header ops)
    (allows : Allows env header) : readTrace env (fileText header ops newline) = some (readBack header ops) := by
  have seen : traceFile env (fileText header ops newline) = writtenFile env.size header ops :=
    traceFile_fileText env newline declares fits
  have granted : Granted env (traceFile env (fileText header ops newline)) := by
    rw [seen]
    unfold Granted
    simp only [writtenFile, ofInt32_small fits.numIds, ofInt32_small fits.numOps]
    exact ⟨allows.record, allows.ops, allows.blocks, allows.blockSizes⟩
  rw [Driver.readTrace_granted granted, seen, writtenFile_outcome _ declares fits]

/-- When the bytes of the arrays do not wrap, every store is inside its array, and so are the evaluations. -/
theorem readBack_admits (declares : header.Declares ops) (fits : Fits header ops) :
    (readBack header ops).Admits := by
  have ints := fits.toInts
  have ids := fits.numIds
  have few := fits.numOps
  have counted := declares.numOps
  have sizes := fits.idBytes
  rw [← writtenFile_outcome 0 declares ints]
  have bytes := fits.opsBytes
  have most := maxAllocated_requests 0 declares
  -- The ids of the requests are below the number of ids.
  have indices : ∀ r ∈ requestsFrom 0 ops, r.index < header.numIds := by
    intro r member
    obtain ⟨op, inside, _, index⟩ := mem_requestsFrom member
    exact index ▸ declares.bound op inside
  -- The array for the requests has an entry for each of them.
  have room : Driver.entries header.numOps 12 = header.numOps := by
    unfold Driver.entries mul32
    rw [ofInt32_small few]
    omega
  refine (Driver.TraceFile.admits_iff ?_ ?_ ?_).mpr ⟨by simp [writtenFile], .inr ?_, fun _ => ⟨?_, ?_, ?_⟩⟩
  · simp only [writtenFile]
    omega
  · simp only [writtenFile]
    omega
  · -- The ids are below the declared number.
    exact fun r member => (indices r member).trans (by omega)
  · simp only [writtenFile, length_requestsFrom, room]
    omega
  · -- The arrays of the blocks have an entry for every id.
    simp only [writtenFile]
    omega
  · simp only [writtenFile]
    omega
  · intro r member _
    have := indices r member
    simp only [writtenFile]
    omega

/-- The requests of a small balanced trace. -/
def sampleOps : List TraceOp :=
  [{ type := .alloc, index := 0, size := 512 }, { type := .alloc, index := 1, size := 128 },
    { type := .realloc, index := 0, size := 640 }, { type := .alloc, index := 2, size := 128 },
    { type := .free, index := 1, size := 0 }, { type := .realloc, index := 0, size := 768 },
    { type := .free, index := 0, size := 0 }, { type := .free, index := 2, size := 0 }]

/-- The header of the example in the README. -/
def sampleHeader : Header := { suggHeapsize := 20000, numIds := 3, numOps := 8, weight := 1 }

/-- This is the example in the description of the format. -/
example : fileText sampleHeader sampleOps true =
    "20000\n3\n8\n1\na 0 512\na 1 128\nr 0 640\na 2 128\nf 1\nr 0 768\nf 0\nf 2\n".toList := by decide +kernel

/-- It declares the requests of the example. -/
theorem sample_declares : sampleHeader.Declares sampleOps where
  numOps := rfl
  bound := by decide
  last := .inr ⟨{ type := .alloc, index := 2, size := 128 }, by decide, by decide, rfl⟩

/-- Its numbers fit into the variables of the driver. -/
theorem sample_fits : Fits sampleHeader sampleOps := ⟨⟨by decide, by decide, by decide⟩, by decide, by decide⟩

/--
`read_trace` reads back every file of the format, with or without a newline at its end, and stays inside its arrays.

So files with the same text declare the same ids, and they have the same requests.
-/
theorem readTrace_fileText {header' : Header} {ops' : List TraceOp} {newline' : Bool} (declares : header.Declares ops)
    (fits : Fits header ops) (declares' : header'.Declares ops') (fits' : Fits header' ops')
    (allows : Allows env header) :
    readTrace env (fileText header ops newline) = some (readBack header ops) ∧ (readBack header ops).Admits ∧
    (fileText header ops newline = fileText header' ops' newline' →
      header.numIds = header'.numIds ∧ storesOf ops = storesOf ops') := by
  have read := readTrace_written newline declares fits.toInts allows
  refine ⟨read, readBack_admits declares fits, fun same => ?_⟩
  -- What is seen in the text does not depend on how it was written.
  have first := traceFile_fileText env newline declares fits.toInts
  have second := traceFile_fileText env newline' declares' fits'.toInts
  rw [same, second] at first
  obtain ⟨ids, counts, _⟩ := (Driver.TraceFile.mk.injEq ..).mp first
  have ids' : header.numIds = header'.numIds := (Int.ofNat_inj.mp ids).symm
  have counts' : header.numOps = header'.numOps := (Int.ofNat_inj.mp counts).symm
  -- So the memory that is granted for the one reading is granted for the other one, and both make the same stores.
  have allows' : Allows env header' :=
    ⟨allows.record, counts' ▸ allows.ops, ids' ▸ allows.blocks, ids' ▸ allows.blockSizes⟩
  rw [same, readTrace_written newline' declares' fits'.toInts allows'] at read
  exact ⟨ids', ((Driver.Outcome.mk.injEq ..).mp (Option.some.inj read)).2.2.1.symm⟩

/-- The same trace without its last two requests, which leaves two ids allocated. -/
def shortHeader : Header := { sampleHeader with numOps := 6 }

/-- The header declares the first six requests. -/
theorem short_declares : shortHeader.Declares (sampleOps.take 6) where
  numOps := rfl
  bound := by decide
  last := .inr ⟨{ type := .alloc, index := 2, size := 128 }, by decide, by decide, rfl⟩

/-- Its numbers fit, too. -/
theorem short_fits : Fits shortHeader (sampleOps.take 6) := ⟨⟨by decide, by decide, by decide⟩, by decide, by decide⟩

/-- The example is read back, and it is not the file of the first six requests unless they store the same. -/
theorem readTrace_fileText_sample :
    readTrace Driver.plenty (fileText sampleHeader sampleOps false) = some (readBack sampleHeader sampleOps) ∧
    (readBack sampleHeader sampleOps).Admits ∧
    (fileText sampleHeader sampleOps false = fileText shortHeader (sampleOps.take 6) true →
      sampleHeader.numIds = shortHeader.numIds ∧ storesOf sampleOps = storesOf (sampleOps.take 6)) :=
  readTrace_fileText sample_declares sample_fits short_declares short_fits ⟨rfl, rfl, rfl, rfl⟩

end MallocLab.Traces
