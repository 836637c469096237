import MallocLab.Driver.Serving
import MallocLab.Traces.Format

/-! From a file of the format through `checktrace.pl` to the driver: the trace that is read is valid and balanced. -/

namespace MallocLab.Traces

open Event
open Driver (TraceOp OpType Surroundings allocatedAfter ValidOps readTrace)

/-- Every request is allowed: an id is allocated when it is free, and otherwise named when it is allocated. -/
def ProperOps : List Nat → List TraceOp → Prop
  | _, [] => True
  | allocated, op :: ops =>
    (if op.type = .alloc then op.index ∉ allocated else op.index ∈ allocated) ∧ ProperOps (op.allocated allocated) ops

/-- A request as `checktrace.pl` sees it. -/
def requestText (op : TraceOp) : Request :=
  match op.type with
  | .alloc => .alloc (decimal op.index) (decimal op.size)
  | .realloc => .realloc (decimal op.index) (decimal op.size)
  | .free => .free (decimal op.index)

/-- A request that frees an id. -/
def freeOp (index : Nat) : TraceOp := { type := .free, index := index, size := 0 }

variable {header : Header} {ops more : List TraceOp} {op : TraceOp} {newline : Bool} {allocated : List Nat} {i : Nat}
variable {past : List (Event Text)} {stdin : Text} {other : Text → Nat → Text} {numIds : Nat}

/-- A number is a field of a line. -/
theorem word_decimal (n : Nat) : Word (decimal n) := by
  obtain ⟨c, digits, written, digit, _⟩ := decimal_digits n
  rw [written]
  exact ⟨by simp, fun d inside => not_isSpace_of_isDigit (digit d inside)⟩

/-- The fields of a line are those of the request. -/
theorem read_requestLine (op : TraceOp) : Request.ofFields (split (requestLine op)) = some (requestText op) := by
  obtain ⟨real, solid⟩ := word_decimal op.index
  obtain ⟨real', solid'⟩ := word_decimal op.size
  -- The type is one character, and the numbers have no blanks in them.
  cases type : op.type with
  | alloc =>
    have fields : split (requestLine op) = [['a'], decimal op.index, decimal op.size] := by
      simp only [requestLine, type, List.append_assoc, List.cons_append, List.nil_append]
      show split (['a'] ++ ' ' :: _) = _
      rw [split_append (List.forall_mem_singleton.mpr (by decide)) (by decide) (by decide),
        split_append solid real (by decide), split_single solid' real']
    rw [fields]
    simp [Request.ofFields, requestText, type]
  | realloc =>
    have fields : split (requestLine op) = [['r'], decimal op.index, decimal op.size] := by
      simp only [requestLine, type, List.append_assoc, List.cons_append, List.nil_append]
      show split (['r'] ++ ' ' :: _) = _
      rw [split_append (List.forall_mem_singleton.mpr (by decide)) (by decide) (by decide),
        split_append solid real (by decide), split_single solid' real']
    rw [fields]
    simp [Request.ofFields, requestText, type]
  | free =>
    have fields : split (requestLine op) = [['f'], decimal op.index] := by
      simp only [requestLine, type]
      exact split_freeLine (word_decimal op.index)
    rw [fields]
    simp [Request.ofFields, requestText, type]

/-- No line of a file has a newline in it. -/
theorem inline_fileLines (header : Header) (ops : List TraceOp) : ∀ line ∈ fileLines header ops, Inline line := by
  intro line member
  -- The header consists of numbers, and the other lines of letters, blanks and numbers.
  rcases List.mem_append.mp member with head | request
  · simp only [Header.lines, List.mem_cons, List.not_mem_nil, or_false] at head
    rcases head with rfl | rfl | rfl | rfl
    all_goals exact inline_decimal _
  · obtain ⟨op, _, rfl⟩ := List.mem_map.mp request
    have index : '\n' ∉ decimal op.index := inline_decimal op.index
    have size : '\n' ∉ decimal op.size := inline_decimal op.size
    cases type : op.type <;> simp [Inline, requestLine, type, index, size]

/-- The lines of a file, without their newlines. -/
theorem chomp_fileText : (readLines (fileText header ops newline)).map chomp = fileLines header ops := by
  have inline := inline_fileLines header ops
  cases newline with
  | true =>
    -- Every line ends with its newline, which is taken off.
    have read : readLines (fileText header ops true) = _ := readLines_print inline
    rw [read, List.map_map]
    exact (List.map_congr_left fun line _ => chomp_newline).trans (List.map_id _)
  | false =>
    -- The last line has no newline, and it is not empty.
    obtain ⟨init, last, split⟩ : ∃ init last, fileLines header ops = init ++ [last] :=
      ⟨_, _, (List.dropLast_append_getLast (by simp [fileLines, Header.lines])).symm⟩
    have shape : fileText header ops false = text init ++ last := by
      unfold fileText
      simp only [Bool.false_eq_true, if_false]
      rw [split, text, List.flatMap_append, List.flatMap_singleton, ← List.append_assoc, List.dropLast_concat]
      rfl
    have lastInline : Inline last := inline last (by simp [split])
    have real : last ≠ [] := by
      -- Every line begins with a digit or with the type of a request.
      have member : last ∈ fileLines header ops := by simp [split]
      rcases List.mem_append.mp member with head | request
      · simp only [Header.lines, List.mem_cons, List.not_mem_nil, or_false] at head
        rcases head with rfl | rfl | rfl | rfl
        -- The numbers of the header have a digit at least.
        all_goals exact (word_decimal _).1
      · obtain ⟨op, _, rfl⟩ := List.mem_map.mp request
        cases type : op.type <;> simp [requestLine, type]
    -- The lines in front of it end with their newlines.
    have read : readLines (text init ++ last) = _ :=
      readLines_append fun line member => inline line (by simp [split, member])
    rw [shape, read, readLines_single lastInline real, split, List.map_append, List.map_map, List.map_singleton,
      chomp_inline lastInline]
    congr 1
    exact (List.map_congr_left fun line _ => chomp_newline).trans (List.map_id _)

/-- The lines after the header are those of the requests. -/
theorem chomp_body : (body (fileText header ops newline)).map chomp = ops.map requestLine := by
  have lines : (readLines (fileText header ops newline)).map chomp = _ := chomp_fileText
  unfold body
  rw [List.map_drop, lines]
  rfl

/-- The script reads the requests. -/
theorem requests_fileText : requests (fileText header ops newline) = ops.map requestText := by
  have lines : (body (fileText header ops newline)).map chomp = _ := chomp_body
  have through : (body (fileText header ops newline)).filterMap Request.read =
      ((body (fileText header ops newline)).map chomp).filterMap fun line => Request.ofFields (split line) := by
    rw [List.filterMap_map]
    rfl
  -- The requests are read line by line.
  unfold requests
  rw [through, lines, List.filterMap_map, ← List.filterMap_eq_map]
  exact List.filterMap_congr fun op _ => read_requestLine op

/-- A file of the format is a trace for the script, which saves every line. -/
theorem trace_fileText (header : Header) (ops : List TraceOp) (newline : Bool) :
    IsTrace (fileText header ops newline) ∧
    saved (body (fileText header ops newline)) = ops.map requestLine := by
  have lines : (body (fileText header ops newline)).map chomp = _ := chomp_body
  -- Each line after the header is a request.
  have each : ∀ line ∈ body (fileText header ops newline), ∃ op, chomp line = requestLine op := by
    intro line member
    have listed := List.mem_map_of_mem (f := chomp) member
    rw [lines] at listed
    obtain ⟨op, _, same⟩ := List.mem_map.mp listed
    exact ⟨op, same.symm⟩
  constructor
  · intro line member
    obtain ⟨op, same⟩ := each line member
    refine .inr ?_
    unfold Request.read
    rw [same, read_requestLine]
    rfl
  · -- No request is a blank line, so all of them are kept.
    unfold saved
    rw [List.filter_eq_self.mpr, lines]
    intro line member
    obtain ⟨op, same⟩ := each line member
    have read := read_requestLine op
    simp only [decide_eq_true_eq]
    intro blank
    unfold Blank at blank
    rw [same] at blank
    rw [blank] at read
    exact nomatch read

/-- The header as the script prints it again. -/
theorem header_fileText (header : Header) (ops : List TraceOp) (newline : Bool) (numOps : Text) :
    Traces.header (fileText header ops newline) numOps =
      [decimal header.suggHeapsize, decimal header.numIds, numOps, decimal header.weight] ∧
    Traces.numOps (fileText header ops newline) = decimal header.numOps := by
  have lines : (readLines (fileText header ops newline)).map chomp = _ := chomp_fileText
  -- The first four lines are the header.
  have line : ∀ i < 4, chomp ((readLines (fileText header ops newline))[i]?.getD []) =
      (fileLines header ops)[i]?.getD [] := by
    intro i below
    have here := congrArg (·[i]?) lines
    simp only [List.getElem?_map] at here
    rw [← here]
    cases (readLines (fileText header ops newline))[i]? with
    | none => rfl
    | some line => rfl
  unfold Traces.header Traces.numOps
  rw [line 0 (by decide), line 1 (by decide), line 2 (by decide), line 3 (by decide)]
  exact ⟨rfl, rfl⟩

/-- What the requests do to their ids. -/
def eventsOf (ops : List TraceOp) : List (Event Text) := ops.map fun op => (requestText op).event

/-- The ids that are held are those that the driver counts as allocated. -/
def Tracks (past : List (Event Text)) (allocated : List Nat) : Prop :=
  ∀ i : Nat, Held past (decimal i) ↔ i ∈ allocated

/-- A request keeps the two in step. -/
theorem Tracks.step (tracks : Tracks past allocated) (op : TraceOp) :
    Tracks (past ++ [(requestText op).event]) (op.allocated allocated) := by
  intro i
  have same : ∀ j, decimal (op.index : Int) = decimal (j : Nat) → op.index = j := fun j here => decimal_inj here
  -- Ids are the same exactly when their names are.
  cases type : op.type with
  | alloc =>
    have event : (requestText op).event = .acquire (decimal op.index) := by simp [requestText, type, Request.event]
    have shape : op.allocated allocated = op.index :: allocated := by simp [TraceOp.allocated, type]
    -- The id itself is acquired.
    rw [event, shape, List.mem_cons]
    by_cases here : i = op.index
    · rw [here]
      exact iff_of_true held_acquire (.inl rfl)
    · -- Another id has another name, so nothing happens to it.
      rw [held_concat_other (by simpa using fun named => here (same i named).symm) (by simp), tracks i]
      simp [here]
  -- A reallocation uses the id, and neither acquires nor releases it.
  | realloc =>
    have event : (requestText op).event = .use (decimal op.index) := by simp [requestText, type, Request.event]
    have shape : op.allocated allocated = allocated := by simp [TraceOp.allocated, type]
    rw [event, shape, held_concat_other (by simp) (by simp), tracks i]
  -- The id itself is released.
  | free =>
    have event : (requestText op).event = .release (decimal op.index) := by simp [requestText, type, Request.event]
    have shape : op.allocated allocated = allocated.filter (· ≠ op.index) := by simp [TraceOp.allocated, type]
    rw [event, shape, List.mem_filter]
    by_cases here : i = op.index
    · rw [here]
      exact iff_of_false not_held_release (by simp)
    · -- Another id is kept as it was.
      rw [held_concat_other (by simp) (by simpa using fun named => here (same i named).symm), tracks i]
      simp [here]

/-- So they are in step after any number of requests. -/
theorem Tracks.run (tracks : Tracks past allocated) (ops : List TraceOp) :
    Tracks (past ++ eventsOf ops) (allocatedAfter allocated ops) := by
  induction ops generalizing past allocated with
  | nil => simpa [eventsOf, allocatedAfter] using tracks
  | cons op ops ih =>
    have later := ih (tracks.step op)
    rw [List.append_assoc] at later
    exact later

/-- At first the hash is empty. -/
theorem tracks_nil : Tracks [] [] := by simp [Tracks]

/-- The requests are proper for the script exactly when they are proper for the driver. -/
theorem Tracks.proper (tracks : Tracks past allocated) (ops : List TraceOp) :
    ProperAfter past (eventsOf ops) ↔ ProperOps allocated ops := by
  -- The first request is allowed on both sides or on neither.
  induction ops generalizing past allocated with
  | nil => simp [eventsOf, ProperOps]
  | cons op ops ih =>
    have first : Allowed past (requestText op).event ↔
        if op.type = .alloc then op.index ∉ allocated else op.index ∈ allocated := by
      cases type : op.type <;> simp [requestText, type, Request.event, Allowed, tracks op.index]
    have shape : eventsOf (op :: ops) = (requestText op).event :: eventsOf ops := rfl
    rw [shape, properAfter_cons, first, ih (tracks.step op)]
    rfl

/-- Proper requests of positive sizes whose ids are in range are valid for the driver. -/
theorem ProperOps.valid (proper : ProperOps allocated ops) (ids : ∀ op ∈ ops, op.index < numIds)
    (sizes : ∀ op ∈ ops, op.type ≠ .free → 0 < op.size ∧ op.size < 2 ^ 31) : ValidOps numIds allocated ops := by
  -- A proper request names an allocated id unless it allocates one.
  induction ops generalizing allocated with
  | nil => trivial
  | cons op ops ih =>
    obtain ⟨here, later⟩ := proper
    refine ⟨⟨sizes op List.mem_cons_self, ids op List.mem_cons_self, fun request => ?_⟩, ih later
      (fun other member => ids other (List.mem_cons_of_mem _ member))
      fun other member => sizes other (List.mem_cons_of_mem _ member)⟩
    rwa [if_neg request] at here

/-- The requests of two traces in a row are made one after another. -/
theorem allocatedAfter_append : allocatedAfter allocated (ops ++ more) =
    allocatedAfter (allocatedAfter allocated ops) more := List.foldl_append

/-- The first request is made first. -/
theorem allocatedAfter_cons {op : TraceOp} : allocatedAfter allocated (op :: ops) =
    allocatedAfter (op.allocated allocated) ops := rfl

/-- Requests are proper when the first ones are and the others are proper after them. -/
theorem properOps_append : ProperOps allocated (ops ++ more) ↔
    ProperOps allocated ops ∧ ProperOps (allocatedAfter allocated ops) more := by
  -- What is allocated before the second part is what the first part leaves.
  induction ops generalizing allocated with
  | nil => simp [ProperOps, allocatedAfter]
  | cons op ops ih =>
    simp only [List.cons_append, ProperOps, ih, and_assoc]
    rfl

/-- Freeing these ids. -/
theorem allocatedAfter_frees {ids : List Nat} :
    allocatedAfter allocated (ids.map freeOp) = allocated.filter fun i => i ∉ ids := by
  induction ids generalizing allocated with
  | nil => simp [allocatedAfter]
  | cons i ids ih =>
    rw [List.map_cons, allocatedAfter_cons, ih]
    show (allocated.filter (· ≠ i)).filter _ = _
    rw [List.filter_filter]
    congr 1
    funext j
    simp [Bool.and_comm]

/-- Freeing distinct ids that are allocated is proper. -/
theorem properOps_frees {ids : List Nat} (distinct : ids.Nodup) (known : ∀ i ∈ ids, i ∈ allocated) :
    ProperOps allocated (ids.map freeOp) := by
  induction ids generalizing allocated with
  | nil => trivial
  | cons i ids ih =>
    obtain ⟨fresh, distinct⟩ := List.nodup_cons.mp distinct
    refine ⟨known i List.mem_cons_self, ih distinct fun j member => ?_⟩
    have other : j ≠ i := fun same => fresh (same ▸ member)
    exact List.mem_filter.mpr ⟨known j (List.mem_cons_of_mem _ member), decide_eq_true other⟩

/-- `checktrace.pl` adds a request for each id that is left, and counts it. -/
theorem checktrace_fileText (header : Header) (newline : Bool) (other : Text → Nat → Text) (proper : ProperOps [] ops) :
    ∃ ids : List Nat, ids.Nodup ∧ (∀ i, i ∈ ids ↔ i ∈ allocatedAfter [] ops) ∧
      checktrace other false (fileText header ops newline) =
        .ok (fileText { header with numOps := header.numOps + ids.length } (ops ++ ids.map freeOp) true) := by
  obtain ⟨trace, lines⟩ := trace_fileText header ops newline
  have history : events (fileText header ops newline) = eventsOf ops := by
    unfold events eventsOf
    rw [requests_fileText, List.map_map]
    rfl
  have proper' : Proper (events (fileText header ops newline)) := by
    rw [history]
    exact (tracks_nil.proper ops).mpr proper
  -- The hash at the end has one key for every id that is still allocated.
  obtain ⟨hash, tally, _, done⟩ := checktrace_proper other trace proper'
  obtain ⟨listed, distinct, length⟩ := tally.sortedKeys
  rw [history] at listed
  -- Each name that is left is a number.
  have numbers : ∃ ids : List Nat, ids.map (fun i : Nat => decimal i) = hash.sortedKeys := by
    have named : ∀ key ∈ hash.sortedKeys, ∃ i : Nat, decimal i = key := by
      intro key member
      obtain ⟨op, _, event⟩ := List.mem_map.mp ((listed key).mp member).acquired
      refine ⟨op.index, ?_⟩
      cases type : op.type <;> simp [requestText, type, Request.event] at event
      exact event
    generalize hash.sortedKeys = keys at named
    induction keys with
    | nil => exact ⟨[], rfl⟩
    | cons key keys ih =>
      obtain ⟨i, rfl⟩ := named key List.mem_cons_self
      obtain ⟨ids, rfl⟩ := ih fun other member => named other (List.mem_cons_of_mem _ member)
      exact ⟨i :: ids, rfl⟩
  obtain ⟨ids, keys⟩ := numbers
  have count : hash.keys.length = ids.length := by rw [← length, ← keys, List.length_map]
  have tracked : Tracks (eventsOf ops) (allocatedAfter [] ops) := tracks_nil.run ops
  -- The ids that are left are the ones whose names are the keys.
  refine ⟨ids, List.Nodup.of_map _ (keys ▸ distinct), fun i => ?_, ?_⟩
  · rw [← tracked i, ← listed, ← keys]
    refine ⟨fun member => List.mem_map_of_mem member, fun member => ?_⟩
    obtain ⟨j, inside, same⟩ := List.mem_map.mp member
    exact decimal_inj same ▸ inside
  · obtain ⟨_, numOps⟩ := header_fileText header ops newline []
    have sum : plus other (decimal header.numOps) ids.length = decimal ((header.numOps + ids.length : Nat) : Int) := by
      unfold plus
      rw [integer_decimal]
      rfl
    obtain ⟨head, _⟩ := header_fileText header ops newline
      (decimal ((header.numOps + ids.length : Nat) : Int))
    -- The lines that are printed for them are free requests.
    have frees : (ids.map (fun i : Nat => decimal i)).map freeLine = (ids.map freeOp).map requestLine := by
      rw [List.map_map, List.map_map]
      rfl
    rw [done, numOps, count, sum, ← keys]
    unfold printed
    rw [head, lines, frees]
    simp [fileText, fileLines, Header.lines]

/-- The ids that are allocated are ids of the trace. -/
theorem allocatedAfter_lt (before : ∀ i ∈ allocated, i < numIds) (bound : ∀ op ∈ ops, op.index < numIds) :
    ∀ i ∈ allocatedAfter allocated ops, i < numIds := by
  induction ops generalizing allocated with
  | nil => exact before
  | cons op ops ih =>
    refine ih (fun i inside => ?_) fun other member => bound other (List.mem_cons_of_mem _ member)
    -- An allocation adds its own id.
    have index := bound op List.mem_cons_self
    cases type : op.type with
    | alloc =>
      have cases_ : i = op.index ∨ i ∈ allocated := by simpa [TraceOp.allocated, type] using inside
      exact cases_.elim (fun same => same ▸ index) (before i)
    -- A reallocation adds none.
    | realloc => exact before i (by simpa [TraceOp.allocated, type] using inside)
    -- A free takes one away.
    | free =>
      have still : i ∈ allocated ∧ i ≠ op.index := by simpa [TraceOp.allocated, type] using inside
      exact before i still.1

/-- A list of ids without repetitions is not longer than their number. -/
theorem length_le_of_lt {ids : List Nat} (distinct : ids.Nodup) (known : ∀ i ∈ ids, i < numIds) :
    ids.length ≤ numIds := by
  have inside : ids ⊆ List.range numIds := fun i member => List.mem_range.mpr (known i member)
  simpa using (distinct.subperm inside).length_le

/-- A header that declares some requests declares them with free requests for some of the ids, too. -/
theorem Header.Declares.frees {ids : List Nat} (declares : header.Declares ops) (known : ∀ i ∈ ids, i < header.numIds) :
    ({ header with numOps := header.numOps + ids.length } : Header).Declares (ops ++ ids.map freeOp) where
  numOps := by
    have counted := declares.numOps
    simp only [List.length_append, List.length_map]
    omega
  bound op member := by
    rcases List.mem_append.mp member with old | free
    · exact declares.bound op old
    · obtain ⟨i, inside, rfl⟩ := List.mem_map.mp free
      exact known i inside
  last := declares.last.imp_right fun ⟨op, member, rest⟩ => ⟨op, List.mem_append_left _ member, rest⟩

/-- The memory for the arrays of every trace with so many ids, and with at most one more request for each. -/
def AllowsFrees (env : Surroundings) (header : Header) : Prop :=
  ∀ more ≤ header.numIds, Allows env { header with numOps := header.numOps + more }

/-- A header that counts this many more requests. -/
def Header.counting (header : Header) (count : Nat) : Header := { header with numOps := header.numOps + count }

/-- What `checktrace.pl` prints for a file of proper requests: a file that frees the ids that are left, and declares it. -/
structure Rebalanced (header : Header) (ops : List TraceOp) (ids : List Nat) : Prop where
  left : ∀ i, i ∈ ids ↔ i ∈ allocatedAfter [] ops
  few : ids.length ≤ header.numIds
  declares : (header.counting ids.length).Declares (ops ++ ids.map freeOp)
  ints : Ints (header.counting ids.length) (ops ++ ids.map freeOp)
  proper : ProperOps [] (ops ++ ids.map freeOp)
  valid : ValidOps header.numIds [] (ops ++ ids.map freeOp)
  done : allocatedAfter [] (ops ++ ids.map freeOp) = []

/-- Every file of proper requests that it declares is balanced. -/
theorem checktrace_balanced (newline : Bool) (other : Text → Nat → Text) (declares : header.Declares ops)
    (proper : ProperOps [] ops) (sizes : ∀ op ∈ ops, op.type ≠ .free → 0 < op.size) (fits : Ints header ops)
    (total : header.numOps + header.numIds < 2 ^ 31) :
    ∃ ids, checktrace other false (fileText header ops newline) =
      .ok (fileText (header.counting ids.length) (ops ++ ids.map freeOp) true) ∧ Rebalanced header ops ids := by
  -- The ids that are added are ids of the trace.
  obtain ⟨ids, distinct, left, done⟩ := checktrace_fileText header newline other proper
  have known : ∀ i ∈ ids, i < header.numIds := fun i member =>
    allocatedAfter_lt (by simp) declares.bound i ((left i).mp member)
  have few := length_le_of_lt distinct known
  -- The requests are proper also with the added ones.
  have proper' := properOps_append.mpr ⟨proper, properOps_frees distinct fun i member => (left i).mp member⟩
  refine ⟨ids, done, left, few, declares.frees known, ⟨fits.numIds, ?_, fun op member => ?_⟩, proper', ?_, ?_⟩
  · show header.numOps + ids.length < 2 ^ 31
    omega
  · -- The sizes are the old ones, and a free request has none.
    rcases List.mem_append.mp member with old | free
    · exact fits.sizes op old
    · obtain ⟨i, _, rfl⟩ := List.mem_map.mp free
      exact Nat.two_pow_pos 31
  · -- So the file is a valid trace.
    refine proper'.valid (declares.frees known).bound fun op member request => ?_
    rcases List.mem_append.mp member with old | free
    · exact ⟨sizes op old request, fits.sizes op old⟩
    · obtain ⟨i, _, rfl⟩ := List.mem_map.mp free
      exact absurd rfl request
  · -- Every id that was left is freed.
    rw [allocatedAfter_append, allocatedAfter_frees]
    exact List.filter_eq_nil_iff.mpr fun i member => by simpa using (left i).mpr member

end MallocLab.Traces
