import MallocLab.Driver.Indices
import MallocLab.Driver.ReadTrace
import Mathlib.Data.List.Induction

/-! Which trace files `read_trace` admits safely: it trusts the indices of free requests, and counts too late. -/

namespace MallocLab.Driver

/-- A request as a file has it; the size is the one read last. -/
structure Request where
  type : OpType
  index : Nat
  size : Nat

/-- What comes next in a file: a request and what follows it, or an end. -/
inductive Next where
  | stop (stop : Stop)
  | request (request : Request) (rest : Input)

/-- What comes next in a file, given the index and the size that were read last. -/
def nextRequest (wide : Wide) (index size : Nat) (input : Input) : Next :=
  match scanString input with
  | none => .stop .eof
  | some (type, rest) =>
    if maxline ≤ type.length then .stop .overrun
    else if type.head? = some 'a' then
      let (index, size, rest) := scanTwoUnsigned wide index size rest
      .request { type := .alloc, index := index, size := size } rest
    else if type.head? = some 'r' then
      let (index, size, rest) := scanTwoUnsigned wide index size rest
      .request { type := .realloc, index := index, size := size } rest
    else if type.head? = some 'f' then
      let (index, rest) := scanUnsignedD wide index rest
      .request { type := .free, index := index, size := size } rest
    else .stop (.bogusType (type.headD '\x00'))

/-- The requests of a file up to where it ends, or up to this many. -/
def requestsOf (wide : Wide) : Nat → Nat → Nat → Input → List Request × Stop
  | 0, _, _, _ => ([], .eof)
  | most + 1, index, size, input =>
    match nextRequest wide index size input with
    | .stop stop => ([], stop)
    | .request r rest =>
      let (rs, stop) := requestsOf wide most r.index r.size rest
      (r :: rs, stop)

/-- A trace file: the numbers its header declares, its requests, and how it ends. -/
structure TraceFile where
  numIds : Int
  numOps : Int
  requests : List Request
  stop : Stop

/-- A file with these contents. -/
def traceFile (env : Surroundings) (content : Input) : TraceFile :=
  let rest := (scanInt env.wide 0 content).2
  let (numIds, rest) := scanInt env.wide env.numIds rest
  let (numOps, rest) := scanInt env.wide env.numOps rest
  let rest := (scanInt env.wide 0 rest).2
  let (requests, stop) := requestsOf env.wide (rest.length + 1) 0 env.size rest
  { numIds := numIds, numOps := numOps, requests := requests, stop := stop }

/-- The largest index of the requests that are not free requests. -/
def maxAllocated (rs : List Request) : Nat :=
  rs.foldl (fun most r => if r.type = .free then most else maxWord r.index most) 0

/-- The file declares its own numbers correctly, as far as the two assertions can tell. -/
structure TraceFile.Declared (file : TraceFile) : Prop where
  stop : file.stop = .eof
  numOps : file.numOps = file.requests.length
  maxIndex : maxAllocated file.requests = ofInt32 (file.numIds - 1)

/-- The entries of an array for which `malloc` is asked, when the product of their number and size is a word. -/
def entries (count : Int) (bytes : Nat) : Nat := mul32 (ofInt32 count) bytes / bytes

/-- A file that is read safely. -/
structure TraceFile.Sound (file : TraceFile) : Prop where
  /-- Every type of a request fits into the array for it. -/
  types : file.stop ≠ .overrun
  /-- There are no more requests than declared, and no more than the array has entries. -/
  counted : file.requests = [] ∨
    (file.requests.length : Int) ≤ file.numOps ∧ file.requests.length ≤ entries file.numOps 12
  /-- If the assertions do not reject the file, it has ids, arrays for all of them, and no other ids are freed. -/
  frees : file.Declared → 0 < file.numIds ∧ 4 * file.numIds < 2 ^ 32 ∧
    ∀ r ∈ file.requests, r.type = .free → (r.index : Int) < file.numIds

/-- The arrays that the declared numbers ask for are granted. -/
def Granted (env : Surroundings) (file : TraceFile) : Prop :=
  env.granted 1 28 = true ∧ env.granted 2 (mul32 (ofInt32 file.numOps) 12) = true ∧
    env.granted 3 (mul32 (ofInt32 file.numIds) 4) = true ∧ env.granted 4 (mul32 (ofInt32 file.numIds) 4) = true

/--
A trace in memory once `read_trace` has returned: its arrays have the entries that `malloc` was asked for.

Its requests have the types and ids that were stored; the sizes and the other two arrays may contain anything.
-/
structure Outcome.Loads (o : Outcome) (trace : Trace) : Prop where
  numIds : (trace.numIds : Int) = o.numIds
  numOps : (trace.ops.length : Int) = o.numOps
  blocks : trace.blocks.length = entries o.numIds 4
  blockSizes : trace.blockSizes.length = entries o.numIds 4
  stored : ∀ store ∈ o.stores, ∃ op, trace.ops[store.opIndex]? = some op ∧ op.type = store.type ∧
    (op.index : Int) = store.index

/--
No store into `type` or `trace->ops` is out of bounds, and a trace that is returned names only ids that it has.

So the evaluations of a returned trace index its arrays inside their bounds.
-/
structure Outcome.Admits (o : Outcome) : Prop where
  types : o.ending ≠ .overrun
  stores : ∀ store ∈ o.stores, (store.opIndex : Int) < o.numOps ∧ store.opIndex < entries o.numOps 12
  indices : o.ending = .returned → ∀ store ∈ o.stores,
    0 ≤ store.index ∧ store.index < o.numIds ∧ store.index < entries o.numIds 4
  evaluated : o.ending = .returned → ∀ trace, o.Loads trace → trace.InBounds

/-- The store that is made for a request. -/
def Request.stored (r : Request) (opIndex : Nat) : Stored where
  opIndex := opIndex
  type := r.type
  index := toInt32 r.index
  size := if r.type = .free then none else some (toInt32 r.size)

/-- The stores that are made for requests, from this entry on. -/
def storesFrom (opIndex : Nat) (rs : List Request) : List Stored :=
  rs.mapIdx fun i r => r.stored ((opIndex + i) % 2 ^ 32)

/-- The variables of the loop after a request. -/
def Reading.after (s : Reading) (r : Request) (rest : Input) : Reading where
  rest := rest
  index := r.index
  size := r.size
  maxIndex := if r.type = .free then s.maxIndex else maxWord r.index s.maxIndex
  opIndex := (s.opIndex + 1) % 2 ^ 32
  stores := s.stores ++ [r.stored s.opIndex]

variable {env : Surroundings} {wide : Wide} {s : Reading} {content rest : Input} {index size n : Nat}
variable {r : Request} {rs : List Request} {stop : Stop}

/-- A turn of the loop takes the next request of the file. -/
theorem readTurn_eq : readTurn wide s =
    match nextRequest wide s.index s.size s.rest with
    | .stop stop => .inr (stop, s)
    | .request r rest => .inl (s.after r rest) := by
  unfold readTurn nextRequest
  cases scanString s.rest with
  | none => rfl
  | some found =>
    dsimp only
    split_ifs <;> rfl

/-- A request takes up some of the file. -/
theorem nextRequest_length (next : nextRequest wide index size content = .request r rest) :
    rest.length < content.length ∧ (index < 2 ^ 32 → r.index < 2 ^ 32) := by
  unfold nextRequest at next
  cases read : scanString content with
  | none =>
    rw [read] at next
    exact nomatch next
  | some found =>
    -- The type has at least one character, so something has been read.
    obtain ⟨type, after⟩ := found
    obtain ⟨_, shorter⟩ := scanString_length read
    rw [read] at next
    dsimp only at next
    -- There is a branch for each of the three types, and only the last one reads a single number.
    split_ifs at next
    · obtain ⟨rfl, rfl⟩ := Next.request.inj next
      exact ⟨Nat.lt_of_le_of_lt scanTwoUnsigned_length shorter, scanTwoUnsigned_lt⟩
    · obtain ⟨rfl, rfl⟩ := Next.request.inj next
      exact ⟨Nat.lt_of_le_of_lt scanTwoUnsigned_length shorter, scanTwoUnsigned_lt⟩
    · obtain ⟨rfl, rfl⟩ := Next.request.inj next
      exact ⟨Nat.lt_of_le_of_lt scanUnsignedD_length shorter, scanUnsignedD_lt⟩

/-- Every index that is read is a word. -/
theorem requestsOf_words (found : requestsOf wide n index size content = (rs, stop)) (word : index < 2 ^ 32) :
    ∀ r ∈ rs, r.index < 2 ^ 32 := by
  induction n generalizing index size content rs with
  | zero =>
    obtain ⟨rfl, _⟩ := Prod.mk.inj found
    simp
  | succ n ih =>
    unfold requestsOf at found
    cases next : nextRequest wide index size content with
    -- Without a request the list ends.
    | stop stop =>
      rw [next] at found
      obtain ⟨rfl, _⟩ := Prod.mk.inj found
      simp
    -- The index that is kept for the next request is a word again.
    | request r rest =>
      rw [next] at found
      obtain ⟨rfl, rfl⟩ := Prod.mk.inj found
      have first := (nextRequest_length next).2 word
      exact List.forall_mem_cons.mpr ⟨first, ih rfl first⟩

/-- The loop goes through the requests of the file, and it ends. -/
theorem loop_readTurn (enough : s.rest.length < n) (word : s.opIndex < 2 ^ 32)
    (found : requestsOf wide n s.index s.size s.rest = (rs, stop)) :
    ∃ s', loop (readTurn wide) n s = some (stop, s') ∧ s'.stores = s.stores ++ storesFrom s.opIndex rs ∧
      s'.opIndex = (s.opIndex + rs.length) % 2 ^ 32 ∧
      s'.maxIndex = rs.foldl (fun most r => if r.type = .free then most else maxWord r.index most) s.maxIndex := by
  -- Each request shortens the file, so the turns do not run out.
  induction n generalizing s rs with
  | zero => omega
  | succ n ih =>
    unfold requestsOf at found
    unfold loop
    rw [readTurn_eq]
    cases next : nextRequest wide s.index s.size s.rest with
    -- The file ends, or its type is bogus, and the loop ends as well.
    | stop stop =>
      rw [next] at found
      obtain ⟨rfl, rfl⟩ := Prod.mk.inj found
      exact ⟨s, rfl, by simp [storesFrom], (Nat.mod_eq_of_lt word).symm, rfl⟩
    -- One more store has been made, and the rest of the file is shorter.
    | request r rest =>
      obtain ⟨rs', stop', later⟩ : ∃ rs' stop', requestsOf wide n r.index r.size rest = (rs', stop') := ⟨_, _, rfl⟩
      simp only [next, later] at found
      obtain ⟨rfl, rfl⟩ := Prod.mk.inj found
      have shorter := (nextRequest_length next).1
      obtain ⟨s', done, stores, opIndex, maxIndex⟩ := ih (s := s.after r rest)
        (show rest.length < n by omega) (Nat.mod_lt _ (by decide)) later
      have next' : (s.after r rest).opIndex = (s.opIndex + 1) % 2 ^ 32 := rfl
      refine ⟨s', done, ?_, ?_, ?_⟩
      · -- Counting from the next number is counting from this one with one request more.
        have shift : ∀ i, ((s.after r rest).opIndex + i) % 2 ^ 32 = (s.opIndex + (i + 1)) % 2 ^ 32 := by
          intro i
          rw [next']
          omega
        have kept : (s.after r rest).stores = s.stores ++ [r.stored s.opIndex] := rfl
        rw [stores, kept, List.append_assoc, List.singleton_append]
        simp only [storesFrom, List.mapIdx_cons, Nat.add_zero, Nat.mod_eq_of_lt word, shift]
      · rw [opIndex, List.length_cons, next']
        omega
      · rw [maxIndex, List.foldl_cons]
        rfl

/-- How the function ends on a file whose arrays are granted. -/
def TraceFile.ending (file : TraceFile) : Ending :=
  match file.stop with
  | .overrun => .overrun
  | .bogusType c => .exited (.bogusType c)
  | .eof =>
    if maxAllocated file.requests ≠ ofInt32 (file.numIds - 1) then .exited .maxIndex
    else if ofInt32 file.numOps ≠ file.requests.length % 2 ^ 32 then .exited .numOps
    else .returned

/-- What `read_trace` makes of a file whose arrays are granted. -/
def TraceFile.outcome (file : TraceFile) : Outcome where
  numIds := file.numIds
  numOps := file.numOps
  stores := storesFrom 0 file.requests
  ending := file.ending

/-- On a file whose arrays are granted, every request is stored. -/
theorem readTrace_granted (granted : Granted env (traceFile env content)) :
    readTrace env content = some (traceFile env content).outcome := by
  obtain ⟨first, second, third, fourth⟩ := granted
  unfold traceFile at second third fourth ⊢
  unfold readTrace TraceFile.outcome
  dsimp only at second third fourth ⊢
  -- The four numbers of the header are read one after another, whatever they are.
  generalize scanInt env.wide 0 content = heapSize at *
  generalize scanInt env.wide env.numIds heapSize.2 = numIds at *
  generalize scanInt env.wide env.numOps numIds.2 = numOps at *
  generalize scanInt env.wide 0 numOps.2 = weight at *
  obtain ⟨rs, stop, found⟩ : ∃ rs stop, requestsOf env.wide (weight.2.length + 1) 0 env.size weight.2 = (rs, stop) :=
    ⟨_, _, rfl⟩
  -- The loop makes a store for every request.
  obtain ⟨s, done, stores, opIndex, maxIndex⟩ := loop_readTurn
    (s := { rest := weight.2, index := 0, size := env.size, maxIndex := 0, opIndex := 0, stores := [] })
    (Nat.lt_succ_self _) (show 0 < 2 ^ 32 by decide) found
  rw [if_neg (by simp [first]), if_neg (by simp [second]), if_neg (by simp [third]), if_neg (by simp [fourth])]
  refine bind_step done ?_
  -- So the two assertions compare what the file declares with what has been read.
  have count : s.opIndex = rs.length % 2 ^ 32 := opIndex.trans (congrArg (· % 2 ^ 32) (Nat.zero_add _))
  have most : s.maxIndex = maxAllocated rs := maxIndex
  rw [found, stores, count, most]
  cases stop <;> rfl

/-- When an array is refused, nothing is stored. -/
theorem readTrace_refused (refused : ¬ Granted env (traceFile env content)) :
    ∃ outcome exit, readTrace env content = some outcome ∧ outcome.stores = [] ∧ outcome.ending = .exited exit := by
  unfold Granted traceFile at refused
  unfold readTrace
  dsimp only at refused ⊢
  by_cases first : env.granted 1 28 = true
  · -- The trace itself has been granted.
    rw [if_neg (by simp [first])]
    by_cases second : env.granted 2 (mul32 (ofInt32
        (scanInt env.wide env.numOps (scanInt env.wide env.numIds (scanInt env.wide 0 content).2).2).1) 12) = true
    · -- So has the array of requests.
      rw [if_neg (by simp [second])]
      by_cases third : env.granted 3 (mul32 (ofInt32
          (scanInt env.wide env.numIds (scanInt env.wide 0 content).2).1) 4) = true
      · -- So has the array of pointers, and only the sizes are left to be refused.
        rw [if_neg (by simp [third]), if_pos fun fourth => refused ⟨first, second, third, fourth⟩]
        exact ⟨_, .unixError 4, rfl, rfl, rfl⟩
      · rw [if_pos third]
        exact ⟨_, .unixError 3, rfl, rfl, rfl⟩
    · rw [if_pos second]
      exact ⟨_, .unixError 2, rfl, rfl, rfl⟩
  · rw [if_pos first]
    exact ⟨_, .unixError 1, rfl, rfl, rfl⟩

/-- Every store is in the array exactly when there are no more requests than entries. -/
theorem stores_inside (rs : List Request) {numOps : Int} (int : numOps < 2 ^ 31) :
    (∀ store ∈ storesFrom 0 rs, (store.opIndex : Int) < numOps) ↔ rs = [] ∨ (rs.length : Int) ≤ numOps := by
  have listed : ∀ i, ∀ inside : i < rs.length, (rs[i].stored (i % 2 ^ 32)) ∈ storesFrom 0 rs := fun i inside =>
    List.mem_mapIdx.mpr ⟨i, inside, by rw [Nat.zero_add]⟩
  constructor
  · intro inside
    by_contra wrong
    rw [not_or, Int.not_le] at wrong
    obtain ⟨some_request, many⟩ := wrong
    have positive := List.length_pos_iff.mpr some_request
    -- The first store shows that the array has an entry, and the one after the last entry is outside.
    have first := inside _ (listed 0 positive)
    have entry : (0 : Int) < numOps := first
    obtain ⟨n, rfl⟩ := Int.eq_ofNat_of_zero_le (by omega : 0 ≤ numOps)
    have last := inside _ (listed n (by omega))
    have same : ((rs[n].stored (n % 2 ^ 32)).opIndex : Int) = n := by
      show ((n % 2 ^ 32 : Nat) : Int) = n
      omega
    omega
  · -- The numbers of the stores do not wrap below the number of requests.
    intro few store member
    obtain ⟨i, inside, rfl⟩ := List.mem_mapIdx.mp member
    have small : (0 + i) % 2 ^ 32 ≤ i := by
      rw [Nat.zero_add]
      exact Nat.mod_le _ _
    have least : (((0 + i) % 2 ^ 32 : Nat) : Int) ≤ i := by exact_mod_cast small
    rcases few with rfl | few
    · exact absurd inside (by simp)
    · show (((0 + i) % 2 ^ 32 : Nat) : Int) < numOps
      omega

/-- An array has no more entries than bytes that a word can count. -/
theorem entries_lt (count : Int) : entries count 12 < 2 ^ 31 := by
  have word : mul32 (ofInt32 count) 12 < 2 ^ 32 := Nat.mod_lt _ (by decide)
  unfold entries
  omega

/-- An array of four-byte entries has all of them unless their bytes are more than a word can count. -/
theorem entries_ids {count : Int} (positive : 0 < count) (int : count < 2 ^ 31) :
    (4 * count < 2 ^ 32 → (entries count 4 : Int) = count) ∧
      (2 ^ 32 ≤ 4 * count → (entries count 4 : Int) + 1 < count) := by
  obtain ⟨n, rfl⟩ := Int.eq_ofNat_of_zero_le (Int.le_of_lt positive)
  have same : ofInt32 (n : Int) = n := by
    unfold ofInt32
    omega
  unfold entries mul32
  rw [same]
  constructor <;> intro bytes <;> omega

/-- Every store is in its array, and has a declared number, exactly when the requests are few enough for both. -/
theorem stores_counted {numOps : Int} (int : numOps < 2 ^ 31) :
    (∀ store ∈ storesFrom 0 rs, (store.opIndex : Int) < numOps ∧ store.opIndex < entries numOps 12) ↔
      rs = [] ∨ (rs.length : Int) ≤ numOps ∧ rs.length ≤ entries numOps 12 := by
  -- Being below two bounds is being few enough for both.
  have declared := stores_inside rs int
  have few : (entries numOps 12 : Int) < 2 ^ 31 := by exact_mod_cast entries_lt numOps
  have room := stores_inside rs few
  simp only [Int.ofNat_lt, Int.ofNat_le] at room
  constructor
  · intro inside
    rcases declared.mp fun store member => (inside store member).1 with none_ | few
    · exact .inl none_
    · exact (room.mp fun store member => (inside store member).2).imp_right fun fits => ⟨few, fits⟩
  · intro few store member
    exact ⟨declared.mpr (few.imp_right And.left) store member, room.mpr (few.imp_right And.right) store member⟩

/-- The largest index bounds those of the requests that are not free requests, and one of them has it. -/
theorem maxAllocated_spec (rs : List Request) :
    (∀ r ∈ rs, r.type ≠ .free → r.index ≤ maxAllocated rs) ∧
      (maxAllocated rs = 0 ∨ ∃ r ∈ rs, r.index = maxAllocated rs) := by
  unfold maxAllocated
  -- Induction from the last request back, as the fold goes on from the first.
  induction rs using List.reverseRecOn with
  | nil => simp
  | append_singleton rs r ih =>
    obtain ⟨bound, reached⟩ := ih
    rw [List.foldl_append, List.foldl_cons, List.foldl_nil]
    generalize rs.foldl (fun most r => if r.type = .free then most else maxWord r.index most) 0 = most at *
    -- A free request does not count.
    by_cases free : r.type = .free
    · rw [if_pos free]
      refine ⟨fun other member real => ?_, reached.imp_right fun ⟨other, member, same⟩ => ?_⟩
      · rcases List.mem_append.mp member with early | last
        · exact bound other early real
        · exact absurd ((List.mem_singleton.mp last) ▸ free) real
      · exact ⟨other, List.mem_append_left _ member, same⟩
    · -- Any other request raises the largest index to its own.
      rw [if_neg free, maxWord_eq]
      constructor
      · intro other member real
        rcases List.mem_append.mp member with early | last
        · have := bound other early real
          omega
        · rw [List.mem_singleton.mp last]
          omega
      · -- The largest index is the old one or that of the last request.
        rcases Nat.le_total most r.index with larger | smaller
        · exact .inr ⟨r, by simp, by omega⟩
        · rw [Nat.max_eq_right smaller]
          exact reached.imp_right fun ⟨other, member, same⟩ => ⟨other, List.mem_append_left _ member, same⟩

/-- The two assertions hold exactly when the file declares its own numbers correctly. -/
theorem TraceFile.ending_returned {file : TraceFile} (least : -2 ^ 31 ≤ file.numOps) (int : file.numOps < 2 ^ 31)
    (counted : file.requests = [] ∨ (file.requests.length : Int) ≤ file.numOps) :
    file.ending = .returned ↔ file.Declared := by
  -- A number of requests that the array has room for is no larger than an `int`.
  have same : ofInt32 file.numOps = file.requests.length % 2 ^ 32 ↔ file.numOps = file.requests.length := by
    have empty : file.requests = [] → file.requests.length = 0 := fun none => by rw [none]; rfl
    -- The two numbers are equal as words when they are equal, as neither of them wraps.
    unfold ofInt32
    constructor
    · intro same
      rcases counted with none | few
      · have := empty none
        omega
      · omega
    · intro same
      rcases counted with none | few
      · have := empty none
        omega
      · omega
  unfold TraceFile.ending
  constructor
  · -- A function that returns has got through all the tests.
    intro returned
    cases stop : file.stop with
    | overrun => simp [stop] at returned
    | bogusType c => simp [stop] at returned
    | eof =>
      simp only [stop] at returned
      split_ifs at returned with maxIndex count
      exact ⟨stop, same.mp (Decidable.not_not.mp count), Decidable.not_not.mp maxIndex⟩
  · rintro ⟨stop, count, maxIndex⟩
    simp only [stop]
    rw [if_neg (not_not.mpr maxIndex), if_neg (not_not.mpr (same.mpr count))]

/-- In a file that is not rejected, every index is in range exactly when the arrays do and the free requests are. -/
theorem indices_inside {file : TraceFile} (declared : file.Declared) (int : file.numIds < 2 ^ 31)
    (least : -2 ^ 31 ≤ file.numIds) (words : ∀ r ∈ file.requests, r.index < 2 ^ 32) :
    (∀ store ∈ storesFrom 0 file.requests,
        0 ≤ store.index ∧ store.index < file.numIds ∧ store.index < entries file.numIds 4) ↔
      0 < file.numIds ∧ 4 * file.numIds < 2 ^ 32 ∧
        ∀ r ∈ file.requests, r.type = .free → (r.index : Int) < file.numIds := by
  have maxIndex := declared.maxIndex
  obtain ⟨bound, reached⟩ := maxAllocated_spec file.requests
  -- A word is the index of an entry when it is small enough as an `int`.
  have inRange : ∀ i : Nat, i < 2 ^ 32 → 0 < file.numIds →
      (0 ≤ toInt32 i ∧ toInt32 i < file.numIds ↔ (i : Int) < file.numIds) := by
    intro i word positive
    unfold toInt32
    split <;> omega
  -- The stores have the indices of the requests.
  have each : (∀ store ∈ storesFrom 0 file.requests,
        0 ≤ store.index ∧ store.index < file.numIds ∧ store.index < entries file.numIds 4) ↔
      ∀ r ∈ file.requests,
        0 ≤ toInt32 r.index ∧ toInt32 r.index < file.numIds ∧ toInt32 r.index < entries file.numIds 4 := by
    constructor
    · intro inside r member
      obtain ⟨i, bounded, rfl⟩ := List.mem_iff_getElem.mp member
      exact inside _ (List.mem_mapIdx.mpr ⟨i, bounded, rfl⟩)
    · intro inside store member
      obtain ⟨i, bounded, rfl⟩ := List.mem_mapIdx.mp member
      exact inside _ (List.getElem_mem bounded)
  rw [each]
  constructor
  · intro inside
    -- Without ids the largest index is not zero, so some request has it, which is out of range.
    have positive : 0 < file.numIds := by
      by_contra none_left
      rcases reached with zero | ⟨r, member, _⟩
      · rw [zero] at maxIndex
        unfold ofInt32 at maxIndex
        omega
      · have := inside r member
        omega
    obtain ⟨_, short⟩ := entries_ids positive int
    refine ⟨positive, ?_, fun r member _ => (inRange r.index (words r member) positive).mp
      ⟨(inside r member).1, (inside r member).2.1⟩⟩
    -- In arrays whose bytes have wrapped there is no entry for the largest index.
    by_contra wraps
    have few := short (by omega)
    rcases reached with zero | ⟨r, member, largest⟩
    · rw [zero] at maxIndex
      unfold ofInt32 at maxIndex
      omega
    · obtain ⟨lower, upper, room⟩ := inside r member
      have index := (inRange r.index (words r member) positive).mp ⟨lower, upper⟩
      unfold ofInt32 at maxIndex
      unfold toInt32 at room lower
      split at room <;> omega
  · rintro ⟨positive, bytes, frees⟩ r member
    have whole := (entries_ids positive int).1 bytes
    -- The assertion bounds the requests that count, and the condition bounds the free requests.
    have index : (r.index : Int) < file.numIds := by
      by_cases free : r.type = .free
      · exact frees r member free
      · have := bound r member free
        unfold ofInt32 at maxIndex
        omega
    obtain ⟨lower, upper⟩ := (inRange r.index (words r member) positive).mpr index
    rw [whole]
    exact ⟨lower, upper, upper⟩

/-- The evaluations of a loaded trace index its arrays with the ids that were stored. -/
theorem Outcome.Loads.inBounds {o : Outcome} {trace : Trace} (loads : o.Loads trace) (stores : o.stores = storesFrom 0 rs)
    (counted : o.numOps = rs.length) (few : rs.length < 2 ^ 31)
    (inside : ∀ store ∈ o.stores, store.index < entries o.numIds 4) : trace.InBounds := by
  refine Trace.inBounds fun op member => ?_
  obtain ⟨i, below, rfl⟩ := List.mem_iff_getElem.mp member
  have numOps := loads.numOps
  have here : i < rs.length := by omega
  -- The store with this number went into this entry.
  have store : rs[i].stored ((0 + i) % 2 ^ 32) ∈ o.stores := by
    rw [stores]
    exact List.mem_mapIdx.mpr ⟨i, here, rfl⟩
  obtain ⟨op, entry, _, index⟩ := loads.stored _ store
  have place : (rs[i].stored ((0 + i) % 2 ^ 32)).opIndex = i := by
    show (0 + i) % 2 ^ 32 = i
    omega
  rw [place] at entry
  obtain rfl : trace.ops[i] = op := (List.getElem?_eq_some_iff.mp entry).2
  -- The index is inside the arrays, which have the same length.
  have room := inside _ store
  rw [← index] at room
  rw [loads.blocks, loads.blockSizes]
  exact ⟨by exact_mod_cast room, by exact_mod_cast room⟩

/-- The declared numbers of a file are of type `int`, and its indices are words. -/
theorem traceFile_ranges (env : Surroundings) (content : Input) :
    (-2 ^ 31 ≤ (traceFile env content).numIds ∧ (traceFile env content).numIds < 2 ^ 31) ∧
      (-2 ^ 31 ≤ (traceFile env content).numOps ∧ (traceFile env content).numOps < 2 ^ 31) ∧
      ∀ r ∈ (traceFile env content).requests, r.index < 2 ^ 32 := by
  unfold traceFile
  dsimp only
  exact ⟨scanInt_range env.numIds_int, scanInt_range env.numOps_int, requestsOf_words rfl (by decide)⟩

/-- A file whose arrays are granted is admitted in bounds exactly when it is sound. -/
theorem TraceFile.admits_iff {file : TraceFile} (ids : -2 ^ 31 ≤ file.numIds ∧ file.numIds < 2 ^ 31)
    (ops : -2 ^ 31 ≤ file.numOps ∧ file.numOps < 2 ^ 31) (words : ∀ r ∈ file.requests, r.index < 2 ^ 32) :
    file.outcome.Admits ↔ file.Sound := by
  have types : file.ending ≠ .overrun ↔ file.stop ≠ .overrun := by
    -- Only a type that is too long overruns its array.
    unfold TraceFile.ending
    cases file.stop with
    | eof => dsimp only; split_ifs <;> simp
    | bogusType c => simp
    | overrun => simp
  constructor
  · intro admits
    -- The stores tell the number of requests, and then the assertions tell the rest.
    have counted := (stores_counted ops.2).mp admits.stores
    exact ⟨types.mp admits.types, counted, fun declared => (indices_inside declared ids.2 ids.1 words).mp
      (admits.indices ((TraceFile.ending_returned ops.1 ops.2 (counted.imp_right And.left)).mpr declared))⟩
  · rintro ⟨fits, counted, frees⟩
    have declares := TraceFile.ending_returned ops.1 ops.2 (counted.imp_right And.left)
    have indices : file.ending = .returned → _ := fun returned =>
      (indices_inside (declares.mp returned) ids.2 ids.1 words).mpr (frees (declares.mp returned))
    refine ⟨types.mpr fits, (stores_counted ops.2).mpr counted, indices, fun returned trace loads => ?_⟩
    -- When the function returns, the file has as many requests as it declares.
    have numOps := (declares.mp returned).numOps
    exact loads.inBounds rfl numOps (by omega) fun store member => (indices returned store member).2.2

/--
`read_trace` admits only traces that are in bounds exactly when the file is sound, or no array is granted for it.

A sound file has no more requests than it declares and its array has entries.
Unless the assertions reject it, it has some ids, arrays for all of them, and free requests for no other ids.
-/
theorem readTrace_admits (env : Surroundings) (content : Input) :
    (∃ outcome, readTrace env content = some outcome ∧ outcome.Admits) ↔
      (Granted env (traceFile env content) → (traceFile env content).Sound) := by
  obtain ⟨ids, ops, words⟩ := traceFile_ranges env content
  have admits := TraceFile.admits_iff ids ops words
  by_cases granted : Granted env (traceFile env content)
  · -- Then the outcome is the one described, and there is no other.
    have done := readTrace_granted granted
    constructor
    · rintro ⟨outcome, found, admitted⟩ _
      obtain rfl := Option.some.inj (done.symm.trans found)
      exact admits.mp admitted
    · exact fun sound => ⟨_, done, admits.mpr (sound granted)⟩
  · -- Without an array nothing is stored at all.
    obtain ⟨outcome, exit, done, stores, ending⟩ := readTrace_refused granted
    refine iff_of_true ⟨outcome, done, ?_, ?_, ?_, ?_⟩ fun granted' => absurd granted' granted
    · simp [ending]
    · simp [stores]
    · simp [ending]
    · simp [ending]

/-- Surroundings in which every array is granted. -/
def plenty : Surroundings where
  wide := { int := fun _ _ => 2147483647, unsigned := fun _ _ => 4294967295 }
  granted := fun _ _ => true
  numIds := 0
  numOps := 0
  numIds_int := by decide
  numOps_int := by decide
  size := 0

/--
Three small files that are not admitted safely.

The first has one request more than it declares, and the second frees an id that it does not have.
The third declares so many ids that the bytes of the arrays wrap to those of one entry.
-/
theorem readTrace_not_admits :
    (∃ outcome, readTrace plenty "8
1
1
1
a 0 8
f 0
".toList = some outcome ∧ ¬ outcome.Admits) ∧
      (∃ outcome, readTrace plenty "8
1
2
1
a 0 8
f 5
".toList = some outcome ∧ outcome.ending = .returned ∧
        ¬ outcome.Admits) ∧
      ∃ outcome, readTrace plenty "8
1073741825
2
1
a 1 8
a 1073741824 8
".toList = some outcome ∧ outcome.ending = .returned ∧
        ¬ outcome.Admits := by
  refine ⟨⟨_, rfl, fun admits => ?_⟩, ⟨_, rfl, by decide +kernel, fun admits => ?_⟩,
    ⟨_, rfl, by decide +kernel, fun admits => ?_⟩⟩
  · exact absurd (admits.stores { opIndex := 1, type := .free, index := 0, size := none } (by decide +kernel)).1
      (by decide +kernel)
  · exact absurd (admits.indices (by decide +kernel) { opIndex := 1, type := .free, index := 5, size := none }
      (by decide +kernel)).2.1 (by decide +kernel)
  · exact absurd (admits.indices (by decide +kernel) { opIndex := 0, type := .alloc, index := 1, size := some 8 }
      (by decide +kernel)).2.2 (by decide +kernel)

end MallocLab.Driver
