/-! Interpreters that take requests one after another until one of them fails, and when two of them agree. -/

namespace MallocLab

variable {S T Req Err Err' : Type}

/-- Takes requests one after another; a turn may be undefined, fail, or go on with a new state. -/
def interpret (turn : S → Req → Option (Except Err S)) : S → List Req → Option (Except Err S)
  | s, [] => some (.ok s)
  | s, req :: reqs => do
    match ← turn s req with
    | .error e => return .error e
    | .ok s => interpret turn s reqs

/-- Both sides fail with related errors, or both go on in related states. -/
inductive InStep (errors : Err → Err' → Prop) (states : S → T → Prop) :
    Option (Except Err S) → Option (Except Err' T) → Prop
  | failed {e : Err} {f : Err'} (same : errors e f) : InStep errors states (some (.error e)) (some (.error f))
  | done {s : S} {t : T} (related : states s t) : InStep errors states (some (.ok s)) (some (.ok t))

/-- The requests end with such an error or in such a state. -/
inductive Ends (errors : Err → Prop) (states : S → Prop) : Option (Except Err S) → Prop
  | failed {e : Err} (error : errors e) : Ends errors states (some (.error e))
  | done {s : S} (state : states s) : Ends errors states (some (.ok s))

variable {turn : S → Req → Option (Except Err S)} {turn' : T → Req → Option (Except Err' T)}
variable {errors : Err → Err' → Prop} {s : S} {t : T} {req : Req} {reqs : List Req}

/-- A request that fails ends the interpreter. -/
theorem interpret_failed {e : Err} (failed : turn s req = some (.error e)) :
    interpret turn s (req :: reqs) = some (.error e) := by
  -- The rest of the requests is not looked at.
  simp [interpret, failed]

/-- After a request that has been taken the interpreter goes on with the rest. -/
theorem interpret_done {s' : S} (done : turn s req = some (.ok s')) :
    interpret turn s (req :: reqs) = interpret turn s' reqs := by
  -- The turn goes on, so the rest is taken from the new state.
  simp [interpret, done]

/-- Requests that have been taken are followed by the rest. -/
theorem interpret_append {first : List Req} {s' : S} (done : interpret turn s first = some (.ok s')) :
    interpret turn s (first ++ reqs) = interpret turn s' reqs := by
  induction first generalizing s with
  | nil =>
    obtain rfl := Except.ok.inj (Option.some.inj done)
    rfl
  | cons req first ih =>
    -- A turn of the first part does not end it.
    cases turned : turn s req with
    | none => simp [interpret, turned] at done
    | some result =>
      cases result with
      | error e =>
        rw [interpret_failed turned] at done
        exact nomatch Option.some.inj done
      | ok next =>
        rw [interpret_done turned] at done
        rw [List.cons_append, interpret_done turned]
        exact ih done

/--
Interpreters whose turns are in step are in step.

The states are related relative to the requests that are still to come.
-/
theorem interpret_inStep {related : List Req → S → T → Prop}
    (turns : ∀ {req reqs s t}, related (req :: reqs) s t → InStep errors (related reqs) (turn s req) (turn' t req))
    (start : related reqs s t) : InStep errors (related []) (interpret turn s reqs) (interpret turn' t reqs) := by
  -- The induction is on the requests, and each turn relates the next states.
  induction reqs generalizing s t with
  | nil => exact .done start
  | cons req reqs ih =>
    have first := turns start
    generalize here : turn s req = result at first
    generalize here' : turn' t req = result' at first
    cases first with
    | failed same =>
      -- Both interpreters stop at this request.
      rw [interpret_failed here, interpret_failed here']
      exact .failed same
    | done next =>
      rw [interpret_done here, interpret_done here']
      exact ih next

/-- An interpreter whose turns end so ends so. -/
theorem interpret_ends {failures : Err → Prop} {inv : List Req → S → Prop}
    (turns : ∀ {req reqs s}, inv (req :: reqs) s → Ends failures (inv reqs) (turn s req)) (start : inv reqs s) :
    Ends failures (inv []) (interpret turn s reqs) := by
  -- The induction is on the requests, and the first turn either ends them or keeps the invariant.
  induction reqs generalizing s with
  | nil => exact .done start
  | cons req reqs ih =>
    -- The first turn is looked at.
    have first := turns start
    generalize here : turn s req = result at first
    cases first with
    | failed error =>
      rw [interpret_failed here]
      exact .failed error
    | done next =>
      rw [interpret_done here]
      exact ih next

/-- An interpreter whose turns do the same to an image of the state does the same to the image of its result. -/
theorem interpret_map {turn' : T → Req → Option (Except Err T)} (f : S → T) (inv : S → Prop)
    (turns : ∀ req ∈ reqs, ∀ s, inv s → turn' (f s) req = (turn s req).map (Except.map f) ∧
      ∀ s', turn s req = some (.ok s') → inv s') (start : inv s) :
    interpret turn' (f s) reqs = (interpret turn s reqs).map (Except.map f) := by
  induction reqs generalizing s with
  | nil => rfl
  | cons req reqs ih =>
    obtain ⟨same, keeps⟩ := turns req List.mem_cons_self s start
    -- Both sides take the first turn in the same way.
    cases turned : turn s req with
    | none => simp [interpret, same, turned]
    | some result =>
      cases result with
      | error e =>
        rw [interpret_failed turned, interpret_failed (same.trans (congrArg _ turned))]
        rfl
      | ok next =>
        -- The rest starts from the next state and from its image.
        rw [interpret_done turned, interpret_done (same.trans (congrArg _ turned))]
        exact ih (fun req member => turns req (List.mem_cons_of_mem _ member)) (keeps next turned)

/-- One interpreter follows another one as far as that one comes. -/
theorem interpret_follows {related : List Req → S → T → Prop} {s' : S}
    (turns : ∀ {req reqs s s' t}, related (req :: reqs) s t → turn s req = some (.ok s') →
      ∃ t', turn' t req = some (.ok t') ∧ related reqs s' t')
    (start : related reqs s t) (done : interpret turn s reqs = some (.ok s')) :
    ∃ t', interpret turn' t reqs = some (.ok t') ∧ related [] s' t' := by
  -- Only the turns that go on matter, since the first interpreter gets to the end.
  induction reqs generalizing s t with
  | nil =>
    obtain rfl := Except.ok.inj (Option.some.inj done)
    exact ⟨t, rfl, start⟩
  | cons req reqs ih =>
    cases turned : turn s req with
    | none => simp [interpret, turned] at done
    | some result =>
      cases result with
      | error e =>
        -- The first interpreter would have stopped here.
        rw [interpret_failed turned] at done
        exact nomatch Option.some.inj done
      | ok next =>
        rw [interpret_done turned] at done
        obtain ⟨next', turned', related'⟩ := turns start turned
        rw [interpret_done turned']
        exact ih related' done

/-- What every turn keeps holds at the end; it may be about the requests that are still to come. -/
theorem interpret_invariant {inv : List Req → S → Prop} {s' : S}
    (turns : ∀ {req reqs s s'}, inv (req :: reqs) s → turn s req = some (.ok s') → inv reqs s')
    (start : inv reqs s) (done : interpret turn s reqs = some (.ok s')) : inv [] s' := by
  -- An interpreter that gets to the end has gone on at every turn.
  induction reqs generalizing s with
  | nil =>
    obtain rfl := Except.ok.inj (Option.some.inj done)
    exact start
  | cons req reqs ih =>
    cases turned : turn s req with
    | none => simp [interpret, turned] at done
    | some result =>
      -- An error ends it.
      cases result with
      | error e =>
        rw [interpret_failed turned] at done
        exact nomatch Option.some.inj done
      | ok next =>
        rw [interpret_done turned] at done
        exact ih (turns start turned) done

/-- Less may be said about the state at the end. -/
theorem Ends.weaken {failures : Err → Prop} {states states' : S → Prop} {result : Option (Except Err S)}
    (ends : Ends failures states result) (weaker : ∀ s, states s → states' s) : Ends failures states' result := by
  cases ends with
  | failed error => exact .failed error
  | done state => exact .done (weaker _ state)

/-- What one side ends in tells what the other side ends in. -/
theorem InStep.ok {states : S → T → Prop} {left : Option (Except Err S)}
    (inStep : InStep errors states left (some (.ok t))) : ∃ s, left = some (.ok s) ∧ states s t := by
  cases inStep with
  | done related => exact ⟨_, rfl, related⟩

/-- A failure on one side is a failure on the other. -/
theorem InStep.error {states : S → T → Prop} {left : Option (Except Err S)} {f : Err'}
    (inStep : InStep errors states left (some (.error f))) : ∃ e, left = some (.error e) ∧ errors e f := by
  cases inStep with
  | failed same => exact ⟨_, rfl, same⟩

/-- Both sides are defined. -/
theorem InStep.defined {states : S → T → Prop} {left : Option (Except Err S)} {right : Option (Except Err' T)}
    (inStep : InStep errors states left right) : ∃ result, right = some result := by
  cases inStep with
  | failed _ => exact ⟨_, rfl⟩
  | done _ => exact ⟨_, rfl⟩

/-- The side that is known to have succeeded shows that the other one has. -/
theorem InStep.ok_right {states : S → T → Prop} {right : Option (Except Err' T)}
    (inStep : InStep errors states (some (.ok s)) right) : ∃ t, right = some (.ok t) ∧ states s t := by
  cases inStep with
  | done related => exact ⟨_, rfl, related⟩

end MallocLab
