import MallocLab.Traces.Checktrace
import MallocLab.Traces.History

/-! The tally of `checktrace.pl` holds the ids that are allocated, and the script dies on every other request. -/

namespace MallocLab.Traces

open Event

/-- A request of a trace, with its fields as they are written. -/
inductive Request where
  | alloc (id size : Text)
  | realloc (id size : Text)
  | free (id : Text)

/-- The request with these fields, in one of the three forms `a id size`, `r id size` and `f id`. -/
def Request.ofFields : List Text → Option Request
  | [cmd, id, size] =>
    if cmd = ['a'] then some (.alloc id size) else if cmd = ['r'] then some (.realloc id size) else none
  | [cmd, id] => if cmd = ['f'] then some (.free id) else none
  | _ => none

/-- The request on a line. -/
def Request.read (line : Text) : Option Request := Request.ofFields (split (chomp line))

/-- The command of a request. -/
def Request.cmd : Request → Text
  | alloc _ _ => ['a']
  | realloc _ _ => ['r']
  | free _ => ['f']

/-- The id that a request names. -/
def Request.id : Request → Text
  | alloc id _ => id
  | realloc id _ => id
  | free id => id

/-- What a request does to the id it names. -/
def Request.event : Request → Event Text
  | alloc id _ => .acquire id
  | realloc id _ => .use id
  | free id => .release id

/-- The lines after the header. -/
def body (stdin : Text) : List Text := (readLines stdin).drop 4

/-- A line without fields. -/
def Blank (line : Text) : Prop := split (chomp line) = []

instance : DecidablePred Blank := fun line => inferInstanceAs (Decidable (split (chomp line) = []))

/-- A trace of the three kinds of requests: every line after the header is one, or it is blank. -/
def IsTrace (stdin : Text) : Prop := ∀ line ∈ body stdin, Blank line ∨ (Request.read line).isSome = true

instance (stdin : Text) : Decidable (IsTrace stdin) :=
  inferInstanceAs (Decidable (∀ line ∈ body stdin, Blank line ∨ (Request.read line).isSome = true))

/-- The requests of a trace in order. -/
def requests (stdin : Text) : List Request := (body stdin).filterMap Request.read

/-- What the requests of a trace do to their ids. -/
def events (stdin : Text) : List (Event Text) := (requests stdin).map Request.event

/-- The hash has an entry for each allocated id and no other, and each was made by an allocation. -/
structure Tally (past : List (Event Text)) (hash : Hash) : Prop where
  held : ∀ id, id ∈ hash ↔ Held past id
  value : ∀ id, id ∈ hash → hash.get id = ['a']

variable {other : Text → Nat → Text} {summary : Bool} {stdin : Text}
variable {past : List (Event Text)} {hash : Hash} {s s' : Loop} {line id : Text} {lines : List Text} {request : Request}

/-- Before the first request nothing is allocated. -/
theorem tally_empty : Tally [] ∅ where
  held := fun id => by simp
  value := fun id inside => absurd inside (AList.notMem_empty id)

/-- An id without entry has no value. -/
theorem Hash.get_of_notMem (fresh : id ∉ hash) : hash.get id = [] := by
  unfold Hash.get
  rw [AList.lookup_eq_none.mpr fresh]
  rfl

/-- An allocation adds an entry. -/
theorem Tally.insert (tally : Tally past hash) : Tally (past ++ [.acquire id]) (hash.insert id ['a']) where
  held := by
    intro key
    -- The id is in the hash now.
    by_cases same : key = id
    · simp [same, held_acquire]
    · rw [AList.mem_insert, held_concat_other (by simpa using Ne.symm same) (by simp), ← tally.held key]
      simp [same]
  value := by
    intro key inside
    -- Its value is the letter.
    by_cases same : key = id
    · unfold Hash.get
      rw [same, AList.lookup_insert]
      rfl
    · unfold Hash.get
      rw [AList.lookup_insert_ne same]
      exact tally.value key (((AList.mem_insert _).mp inside).resolve_left same)

/-- A free request removes its entry. -/
theorem Tally.erase (tally : Tally past hash) : Tally (past ++ [.release id]) (hash.erase id) where
  held := by
    intro key
    by_cases same : key = id
    · simp [same, not_held_release]
    · rw [AList.mem_erase, held_concat_other (by simp) (by simpa using Ne.symm same), ← tally.held key]
      simp [same]
  value := by
    intro key inside
    obtain ⟨other, member⟩ := AList.mem_erase.mp inside
    unfold Hash.get
    rw [AList.lookup_erase_ne other]
    exact tally.value key member

/-- A realloc request changes no entry. -/
theorem Tally.use (tally : Tally past hash) : Tally (past ++ [.use id]) hash where
  held := fun key => by rw [held_concat_other (by simp) (by simp), tally.held key]
  value := tally.value

/-- A request is made of its command and its id, perhaps followed by a size. -/
theorem Request.ofFields_eq {fields : List Text} (reads : Request.ofFields fields = some request) :
    ∃ rest, fields = request.cmd :: request.id :: rest := by
  unfold Request.ofFields at reads
  split at reads
  -- Three fields are an allocation or a reallocation.
  next cmd id size =>
    split_ifs at reads with alloc realloc
    · obtain rfl := Option.some.inj reads
      exact ⟨[size], by rw [alloc]; rfl⟩
    · obtain rfl := Option.some.inj reads
      exact ⟨[size], by rw [realloc]; rfl⟩
  -- Two fields are a free request.
  next cmd id =>
    split_ifs at reads with free
    obtain rfl := Option.some.inj reads
    exact ⟨[], by rw [free]; rfl⟩
  -- No other number of fields is a request.
  next => exact nomatch reads

/-- The hash after a request that the script lets pass. -/
def Request.apply (hash : Hash) : Request → Hash
  | alloc id _ => hash.insert id ['a']
  | realloc _ _ => hash
  | free id => hash.erase id

/-- The hash is still right after a request. -/
theorem Tally.apply (tally : Tally past hash) : Tally (past ++ [request.event]) (request.apply hash) := by
  cases request with
  | alloc id size => exact tally.insert
  | realloc id size => exact tally.use
  | free id => exact tally.erase

/-- A blank line is only counted. -/
theorem turn_blank (blank : Blank line) : turn s line = .ok { s with linenum := s.linenum + 1 } := by
  have fields : split (chomp line) = [] := blank
  simp [turn, fields, truthy]

/-- The turn for a request: it passes when the request is allowed, and else the script dies. -/
theorem turn_request (tally : Tally past s.hash) (reads : Request.read line = some request) :
    (Allowed past request.event → turn s line = .ok
      { hash := request.apply s.hash, lines := s.lines ++ [chomp line], linenum := s.linenum + 1 }) ∧
    (¬ Allowed past request.event → ∃ death, turn s line = .error death) := by
  obtain ⟨rest, fields⟩ := Request.ofFields_eq reads
  -- The script looks at the first two fields.
  have first : (split (chomp line))[0]?.getD [] = request.cmd := by rw [fields]; rfl
  have second : (split (chomp line))[1]?.getD [] = request.id := by rw [fields]; rfl
  obtain ⟨key, named⟩ : ∃ key, request.id = key := ⟨_, rfl⟩
  rw [named] at second
  -- Is the id in the hash?
  by_cases member : key ∈ s.hash
  · have value := tally.value key member
    have held := (tally.held key).mp member
    have found : s.hash.has key = true := AList.lookup_isSome.mpr member
    cases request with
    -- It is there, so it has not been freed since it was allocated.
    | alloc id size =>
      obtain rfl : id = key := named
      refine ⟨fun free => absurd held free, fun _ => ⟨.noInterveningFree (s.linenum + 1), ?_⟩⟩
      simp [turn, first, second, Request.cmd, truthy, value]
    -- It is there, as a reallocation needs it.
    | realloc id size =>
      obtain rfl : id = key := named
      refine ⟨fun _ => ?_, fun loose => absurd held loose⟩
      simp [turn, first, second, Request.cmd, truthy, value, Request.apply]
    -- So does a free, which deletes it.
    | free id =>
      obtain rfl : id = key := named
      refine ⟨fun _ => ?_, fun loose => absurd held loose⟩
      simp [turn, first, second, Request.cmd, truthy, negate, value, found, Request.apply]
  · -- It is not there.
    have value := Hash.get_of_notMem member
    have loose : ¬ Held past key := fun held => member ((tally.held key).mpr held)
    have missing : s.hash.has key = false := Option.isSome_eq_false_iff.mpr
      (Option.isNone_iff_eq_none.mpr (AList.lookup_eq_none.mpr member))
    cases request with
    -- An allocation may take the id.
    | alloc id size =>
      obtain rfl : id = key := named
      refine ⟨fun _ => ?_, fun held => absurd loose held⟩
      simp [turn, first, second, Request.cmd, truthy, value, Request.apply]
    -- A reallocation finds nothing to move.
    | realloc id size =>
      obtain rfl : id = key := named
      refine ⟨fun held => absurd held loose, fun _ => ⟨.noPreviousAlloc (s.linenum + 1), ?_⟩⟩
      simp [turn, first, second, Request.cmd, truthy, value]
    -- A free finds nothing to delete.
    | free id =>
      obtain rfl : id = key := named
      refine ⟨fun held => absurd held loose, fun _ => ⟨.unallocated (s.linenum + 1), ?_⟩⟩
      simp [turn, first, second, Request.cmd, truthy, missing]

/-- A blank line is no request. -/
theorem Blank.read (blank : Blank line) : Request.read line = none := by
  have fields : split (chomp line) = [] := blank
  simp [Request.read, Request.ofFields, fields]

/-- The events of these lines. -/
def history (lines : List Text) : List (Event Text) := (lines.filterMap Request.read).map Request.event

/-- The lines that the script saves for its output. -/
def saved (lines : List Text) : List Text := (lines.filter fun line => ¬ Blank line).map chomp

/-- What the main loop leaves after requests that were all allowed. -/
structure Scanned (past : List (Event Text)) (s : Loop) (lines : List Text) (s' : Loop) : Prop where
  scan : scan s lines = .ok s'
  tally : Tally (past ++ history lines) s'.hash
  lines : s'.lines = s.lines ++ saved lines

/-- The main loop ends when every request is allowed, and else the script dies. -/
theorem scan_trace (tally : Tally past s.hash)
    (trace : ∀ line ∈ lines, Blank line ∨ (Request.read line).isSome = true) :
    (ProperAfter past (history lines) → ∃ s', Scanned past s lines s') ∧
      (¬ ProperAfter past (history lines) → ∃ death, scan s lines = .error death) := by
  -- Induction on the lines; the tally is what each turn keeps.
  induction lines generalizing past s with
  | nil =>
    refine ⟨fun _ => ⟨s, rfl, by simpa [history] using tally, by simp [saved]⟩, fun wrong => ?_⟩
    exact absurd (by simp [history]) wrong
  | cons line lines ih =>
    have later : ∀ line ∈ lines, Blank line ∨ (Request.read line).isSome = true := fun next inside =>
      trace next (List.mem_cons_of_mem _ inside)
    -- A blank line is passed over.
    rcases trace line List.mem_cons_self with blank | request
    · have turned := turn_blank (s := s) blank
      have same : history (line :: lines) = history lines := by
        unfold history
        rw [List.filterMap_cons_none blank.read]
      have unsaved : saved (line :: lines) = saved lines := by
        unfold saved
        rw [List.filter_cons_of_neg (by simpa using blank)]
      obtain ⟨passes, dies⟩ := ih (s := { s with linenum := s.linenum + 1 }) tally later
      rw [same]
      refine ⟨fun proper => ?_, fun wrong => ?_⟩
      · obtain ⟨s', done, tally', kept⟩ := passes proper
        exact ⟨s', by rw [scan, turned]; exact done, by rwa [same], by rwa [unsaved]⟩
      · obtain ⟨death, done⟩ := dies wrong
        exact ⟨death, by rw [scan, turned]; exact done⟩
    · -- A request is judged by the hash.
      obtain ⟨request, found⟩ := Option.isSome_iff_exists.mp request
      have next : history (line :: lines) = request.event :: history lines := by
        unfold history
        rw [List.filterMap_cons_some found, List.map_cons]
      have kept : saved (line :: lines) = chomp line :: saved lines := by
        have solid : ¬ Blank line := fun blank => by simp [blank.read] at found
        unfold saved
        rw [List.filter_cons_of_pos (by simpa using solid), List.map_cons]
      obtain ⟨allowed, forbidden⟩ := turn_request tally found
      rw [next, properAfter_cons]
      -- It is allowed, and the rest of the lines decides.
      by_cases fine : Allowed past request.event
      · have turned := allowed fine
        obtain ⟨passes, dies⟩ := ih
          (s := { hash := request.apply s.hash, lines := s.lines ++ [chomp line], linenum := s.linenum + 1 })
          tally.apply later
        refine ⟨fun proper => ?_, fun wrong => ?_⟩
        · obtain ⟨s', done, tally', printed⟩ := passes proper.2
          refine ⟨s', by rw [scan, turned]; exact done, ?_, ?_⟩
          · rw [next]
            simpa using tally'
          · rw [kept, printed]
            simp
        · obtain ⟨death, done⟩ := dies fun proper => wrong ⟨fine, proper⟩
          exact ⟨death, by rw [scan, turned]; exact done⟩
      · -- It is not allowed, so the script dies here.
        obtain ⟨death, done⟩ := forbidden fine
        exact ⟨fun proper => absurd proper.1 fine, fun _ => ⟨death, by rw [scan, done]⟩⟩

/-- The free requests are printed for entries that allocations made. -/
theorem residues_eq (tally : Tally past hash) {keys : List Text} (entries : ∀ key ∈ keys, key ∈ hash) :
    residues hash keys = .ok (keys.flatMap fun key => (['f', ' '] ++ key) ++ ['\n']) := by
  induction keys with
  | nil => rfl
  | cons key keys ih =>
    have value := tally.value key (entries key List.mem_cons_self)
    have line : residue hash key = .ok (['f', ' '] ++ key ++ ['\n']) := by simp [residue, value]
    rw [residues, line, ih fun other inside => entries other (List.mem_cons_of_mem _ inside), List.flatMap_cons]
    rfl

/-- The sorted keys are the ids that are allocated, each once. -/
theorem Tally.sortedKeys (tally : Tally past hash) :
    (∀ id, id ∈ hash.sortedKeys ↔ Held past id) ∧ hash.sortedKeys.Nodup ∧
      hash.sortedKeys.length = hash.keys.length := by
  have same : hash.sortedKeys.Perm hash.keys := List.perm_insertionSort _ _
  refine ⟨fun id => ?_, same.nodup_iff.mpr hash.keys_nodup, same.length_eq⟩
  rw [same.mem_iff, ← AList.mem_keys, tally.held id]

/-- The text of these lines. -/
def text (lines : List Text) : Text := lines.flatMap fun line => line ++ ['\n']

/-- The header of an input as it is printed, with this number of requests. -/
def header (stdin numOps : Text) : List Text :=
  [chomp ((readLines stdin)[0]?.getD []), chomp ((readLines stdin)[1]?.getD []), numOps,
    chomp ((readLines stdin)[3]?.getD [])]

/-- The header line that gives the number of requests. -/
def numOps (stdin : Text) : Text := chomp ((readLines stdin)[2]?.getD [])

/-- The line that frees an id. -/
def freeLine (id : Text) : Text := ['f', ' '] ++ id

/-- What is printed with this number of requests when these ids are still allocated at the end. -/
def printed (stdin numOps : Text) (ids : List Text) : Text :=
  text (header stdin numOps ++ saved (body stdin) ++ ids.map freeLine)

/-- What the script prints for a trace of allowed requests. -/
theorem checktrace_proper (other : Text → Nat → Text) (trace : IsTrace stdin) (proper : Proper (events stdin)) :
    ∃ hash : Hash, Tally (events stdin) hash ∧ checktrace other true stdin = .ok (brief hash) ∧
      checktrace other false stdin =
        .ok (printed stdin (plus other (numOps stdin) hash.keys.length) hash.sortedKeys) := by
  obtain ⟨s, done, tally, lines⟩ := (scan_trace (s := { hash := ∅, lines := [], linenum := 4 }) tally_empty trace).1
    proper
  rw [List.nil_append] at tally lines
  have frees : residues s.hash s.hash.sortedKeys = _ := residues_eq tally fun key inside =>
    (tally.held key).mpr ((tally.sortedKeys.1 key).mp inside)
  unfold body at done
  refine ⟨s.hash, tally, by simp [checktrace, done], ?_⟩
  simp only [checktrace, done, frees, lines]
  simp [printed, text, freeLine, header, numOps, Except.map, List.flatMap_map]

/-- The script dies on a trace in which some request is not allowed. -/
theorem checktrace_dies (trace : IsTrace stdin) (wrong : ¬ Proper (events stdin)) :
    ∃ death, checktrace other summary stdin = .error death := by
  obtain ⟨death, done⟩ := (scan_trace (s := { hash := ∅, lines := [], linenum := 4 }) tally_empty trace).2 wrong
  unfold body at done
  exact ⟨death, by simp [checktrace, done]⟩

/-- The script runs to its end exactly on the traces whose requests are all allowed. -/
theorem checktrace_ends_iff (trace : IsTrace stdin) :
    (∃ out, checktrace other summary stdin = .ok out) ↔ Proper (events stdin) := by
  constructor
  · rintro ⟨out, done⟩
    by_contra wrong
    obtain ⟨death, died⟩ : ∃ death, checktrace other summary stdin = .error death := checktrace_dies trace wrong
    exact nomatch done.symm.trans died
  · intro proper
    obtain ⟨hash, _, short, long⟩ := checktrace_proper other trace proper
    cases summary with
    | false => exact ⟨_, long⟩
    | true => exact ⟨_, short⟩

end MallocLab.Traces
