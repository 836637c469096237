import MallocLab.Traces.Consistency

/-! The output of `checktrace.pl` is a balanced trace, which the script leaves alone. -/

namespace MallocLab.Traces

open Event

variable {other : Text → Nat → Text} {stdin out line id : Text} {past : List (Event Text)} {hash : Hash}
variable {lines ids : List Text}

/-- Every acquired id is released exactly once before it is acquired again, and only acquired ids are named. -/
structure Balanced (events : List (Event Text)) : Prop where
  freed : ∀ before id after, events = before ++ .acquire id :: after → releases id after = 1
  named : Named events

/-- A word has characters and no white space. -/
def Word (id : Text) : Prop := id ≠ [] ∧ ∀ c ∈ id, isSpace c = false

/-- A line that was printed again is read as before. -/
theorem read_printed (line : Text) : Request.read (line ++ ['\n']) = Request.ofFields (split line) := by
  unfold Request.read
  rw [chomp_newline]

/-- The lines that are saved are the requests. -/
theorem read_saved (lines : List Text) :
    (saved lines).filterMap (fun line => Request.read (line ++ ['\n'])) = lines.filterMap Request.read := by
  unfold saved
  induction lines with
  | nil => rfl
  | cons line lines ih =>
    by_cases blank : Blank line
    · rw [List.filter_cons_of_neg (by simpa using blank), ih, List.filterMap_cons_none blank.read]
    · have same : Request.read (chomp line ++ ['\n']) = Request.read line := read_printed (chomp line)
      rw [List.filter_cons_of_pos (by simpa using blank), List.map_cons, List.filterMap_cons, same, ih,
        List.filterMap_cons]

/-- The fields of a free request. -/
theorem split_freeLine (word : Word id) : split (freeLine id) = [['f'], id] := by
  show split (['f'] ++ ' ' :: id) = _
  rw [split_append (List.forall_mem_singleton.mpr (by decide)) (by decide) (by decide), split_single word.2 word.1]

/-- A free request that was printed is read as that request. -/
theorem read_freeLine (word : Word id) : Request.read (freeLine id ++ ['\n']) = some (.free id) := by
  rw [read_printed, split_freeLine word]
  rfl

/-- The ids that are named in a trace are words. -/
theorem word_of_mem (member : .acquire id ∈ history lines) : Word id := by
  obtain ⟨request, listed, event⟩ := List.mem_map.mp member
  obtain ⟨line, _, reads⟩ := List.mem_filterMap.mp listed
  obtain ⟨rest, fields⟩ := Request.ofFields_eq reads
  have word : Word request.id := @solid_of_mem_split (chomp line) _ (by simp [fields])
  cases request with
  | alloc key size =>
    obtain rfl := Event.acquire.inj event
    exact word
  | realloc key size => exact nomatch event
  | free key => exact nomatch event

/-- What the script prints has one line for each item of the header, each request and each free request. -/
theorem inline_output {numOps : Text} (number : Inline numOps) (words : ∀ id ∈ ids, Word id) :
    ∀ line ∈ header stdin numOps ++ saved (body stdin) ++ ids.map freeLine, Inline line := by
  -- A line that has been read is cut at its newline.
  have read : ∀ i : Nat, Inline (chomp ((readLines stdin)[i]?.getD [])) := by
    intro i
    cases item : (readLines stdin)[i]? with
    | none => simp [Inline, chomp]
    | some line => exact (inline_of_mem (List.mem_of_getElem? item)).1
  intro line member
  rw [List.mem_append, List.mem_append] at member
  -- The lines are those of the header, the requests and the free requests.
  rcases member with (head | request) | free
  · simp only [header, List.mem_cons, List.not_mem_nil, or_false] at head
    rcases head with rfl | rfl | rfl | rfl
    · exact read 0
    · exact read 1
    · exact number
    · exact read 3
  · obtain ⟨line, kept, rfl⟩ := List.mem_map.mp request
    exact (inline_of_mem (List.mem_of_mem_drop (List.mem_of_mem_filter kept))).1
  · -- A key is a word, so there is no newline in it.
    obtain ⟨id, listed, rfl⟩ := List.mem_map.mp free
    have word := words id listed
    have solid : '\n' ∉ id := fun newline => absurd (word.2 _ newline) (by decide)
    simpa [Inline, freeLine] using solid

section Output

variable {numOps : Text} (number : Inline numOps) (words : ∀ id ∈ ids, Word id)
include number words

/-- The lines of what the script prints. -/
theorem readLines_printed :
    readLines (printed stdin numOps ids) =
      (header stdin numOps ++ saved (body stdin) ++ ids.map freeLine).map fun line => line ++ ['\n'] :=
  readLines_print (inline_output number words)

/-- After the header come the old requests and the free requests. -/
theorem body_printed :
    body (printed stdin numOps ids) = (saved (body stdin) ++ ids.map freeLine).map fun line => line ++ ['\n'] := by
  have lines : readLines (printed stdin numOps ids) = _ := readLines_printed number words
  rw [List.append_assoc, List.map_append] at lines
  show (readLines _).drop 4 = _
  rw [lines]
  rfl

/-- Printing the output again gives the same header, when the number of requests is the same. -/
theorem header_printed : header (printed stdin numOps ids) numOps = header stdin numOps ∧
    Traces.numOps (printed stdin numOps ids) = numOps := by
  have lines : readLines (printed stdin numOps ids) = _ := readLines_printed number words
  constructor
  · simp [header, lines]
  · simp [Traces.numOps, lines, header]

/-- The requests of the output are the old ones and the free requests. -/
theorem requests_printed : requests (printed stdin numOps ids) = requests stdin ++ ids.map Request.free := by
  have frees : ids.filterMap (fun id => Request.read (freeLine id ++ ['\n'])) = ids.map Request.free := by
    rw [← List.filterMap_eq_map]
    exact List.filterMap_congr fun id inside => read_freeLine (words id inside)
  unfold requests
  rw [body_printed number words, List.filterMap_map, List.filterMap_append, List.filterMap_map]
  exact congrArg₂ _ (read_saved (body stdin)) frees

/-- The output is a trace again. -/
theorem trace_printed (trace : IsTrace stdin) : IsTrace (printed stdin numOps ids) := by
  intro line member
  rw [body_printed number words] at member
  obtain ⟨item, listed, rfl⟩ := List.mem_map.mp member
  rcases List.mem_append.mp listed with request | free
  · obtain ⟨line, kept, rfl⟩ := List.mem_map.mp request
    obtain ⟨inside, solid⟩ := List.mem_filter.mp kept
    have reads := (trace line inside).resolve_left (by simpa using solid)
    exact .inr ((read_printed (chomp line)).symm ▸ reads)
  · obtain ⟨id, left, rfl⟩ := List.mem_map.mp free
    rw [read_freeLine (words id left)]
    exact .inr rfl

/-- No line of the output is blank, so the script saves them all as they are. -/
theorem saved_printed : saved (body (printed stdin numOps ids)) = saved (body stdin) ++ ids.map freeLine := by
  have solid : ∀ line ∈ body (printed stdin numOps ids), ¬ Blank line := by
    -- No line that has been printed is blank.
    intro line member blank
    rw [body_printed number words] at member
    obtain ⟨item, listed, rfl⟩ := List.mem_map.mp member
    unfold Blank at blank
    rw [chomp_newline] at blank
    -- It is a request that has been kept, or a free request.
    rcases List.mem_append.mp listed with request | free
    · obtain ⟨line, kept, rfl⟩ := List.mem_map.mp request
      exact of_decide_eq_true (List.mem_filter.mp kept).2 blank
    · obtain ⟨id, left, rfl⟩ := List.mem_map.mp free
      rw [split_freeLine (words id left)] at blank
      exact nomatch blank
  unfold saved
  rw [List.filter_eq_self.mpr (by simpa using solid)]
  exact (congrArg (List.map chomp) (body_printed number words)).trans
    ((List.map_map ..).trans ((List.map_congr_left fun line _ => chomp_newline).trans (List.map_id _)))

end Output

/-- What the output of the script has to do with its input, and what the script makes of it. -/
structure Balances (other : Text → Nat → Text) (stdin out : Text) : Prop where
  trace : IsTrace out
  kept : ∃ ids : List Text, saved (body out) = saved (body stdin) ++ ids.map freeLine ∧
    requests out = requests stdin ++ ids.map Request.free
  counted : integer (numOps out) = some ((requests out).length : Int)
  balanced : Balanced (events out)
  reported : checktrace other true out = .ok "Balanced trace.\n".toList
  unchanged : checktrace other false out = .ok out

/--
The script prints a balanced trace: the old requests and a free request for each id that is left.

When it runs on that output, it reports a balanced trace and prints the same again.
-/
theorem checktrace_balances (trace : IsTrace stdin) (accepted : checktrace other false stdin = .ok out)
    (counted : integer (numOps stdin) = some ((requests stdin).length : Int)) : Balances other stdin out := by
  -- The script has come to its end, so the requests are proper.
  have proper := (checktrace_ends_iff trace).mp ⟨out, accepted⟩
  obtain ⟨hash, tally, _, long⟩ := checktrace_proper other trace proper
  obtain ⟨held, distinct, length⟩ := tally.sortedKeys
  -- The number in the header is the number of requests with the added ones.
  have number : plus other (numOps stdin) hash.keys.length =
      decimal ((requests stdin).length + hash.keys.length : Nat) := by
    unfold plus
    rw [counted]
    rfl
  rw [number] at long
  obtain rfl := Except.ok.inj (accepted.symm.trans long)
  have inline := inline_decimal ((requests stdin).length + hash.keys.length)
  have words : ∀ id ∈ hash.sortedKeys, Word id := fun id inside => word_of_mem ((held id).mp inside).acquired
  have again : requests (printed stdin _ hash.sortedKeys) = _ := requests_printed inline words
  have trace' := trace_printed inline words trace
  have saved' : saved (body (printed stdin _ hash.sortedKeys)) = _ := saved_printed inline words
  obtain ⟨head, same⟩ : header (printed stdin _ hash.sortedKeys) _ = _ ∧ _ := header_printed inline words
  -- The output's requests release every id that was left, so they are proper and leave nothing.
  have events' : events (printed stdin (decimal ((requests stdin).length + hash.keys.length : Nat)) hash.sortedKeys) =
      events stdin ++ hash.sortedKeys.map .release := by
    unfold events
    rw [again, List.map_append, List.map_map]
    rfl
  -- So the script accepts its own output.
  have proper' : Proper (events stdin ++ hash.sortedKeys.map .release) :=
    properAfter_append.mpr ⟨proper, properAfter_releases (fun id inside => (held id).mp inside) distinct⟩
  have ends : ∀ id, ¬ Held (events stdin ++ hash.sortedKeys.map .release) id := fun id still =>
    (held_releases.mp still).2 ((held id).mpr (held_releases.mp still).1)
  rw [← events'] at proper' ends
  -- Nothing is left to be freed.
  obtain ⟨hash', tally', short, long'⟩ := checktrace_proper other trace' proper'
  have empty : hash'.keys = [] := List.eq_nil_iff_forall_not_mem.mpr fun id inside =>
    ends id ((tally'.held id).mp (AList.mem_keys.mpr inside))
  have sorted : hash'.sortedKeys = [] := by
    unfold Hash.sortedKeys
    rw [empty]
    rfl
  refine ⟨trace', ⟨_, saved', again⟩, ?_, ⟨fun before id after split => proper'.releases_eq_one ends split,
    proper'.named⟩, ?_, ?_⟩
  · -- The number in the header is the number of its requests.
    rw [same, integer_decimal, again, List.length_append, List.length_map, length]
  · rw [short, brief, if_pos empty]
  · -- The second output is the first one.
    rw [long', empty, sorted, same]
    have unchanged := plus_decimal other ((requests stdin).length + hash.keys.length)
    unfold printed at *
    rw [List.length_nil, unchanged, head, saved', List.map_nil, List.append_nil, List.append_assoc]

/-- A trace with a blank line that leaves two ids allocated, one of which was freed before. -/
def unbalanced : Text := "20\n2\n5\n1\na 10 8\na 9 8\n\nf 10\nr 9 16\na 10 4\n".toList

/-- The script frees the two ids that are left, the older one last. -/
theorem checktrace_balances_sample : Balances (fun s _ => s) unbalanced
    "20\n2\n7\n1\na 10 8\na 9 8\nf 10\nr 9 16\na 10 4\nf 10\nf 9\n".toList :=
  checktrace_balances (by decide +kernel) rfl (by decide +kernel)

end MallocLab.Traces
