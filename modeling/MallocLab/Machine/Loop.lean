import MallocLab.Machine.Word

/-! Loops that leave by a return, run for a bounded number of turns, and the trails they follow. -/

namespace MallocLab

/--
A loop whose body either goes round again or returns.

There is no result when the turns run out before a return.
-/
def loop {σ ρ : Type} (body : σ → σ ⊕ ρ) : Nat → σ → Option ρ
  | 0, _ => none
  | turns + 1, s =>
    match body s with
    | .inl next => loop body turns next
    | .inr result => some result

/--
The turns allowed to a loop whose whole state is one pointer.

Such a loop that has not returned after `2 ^ 32` turns has met some pointer twice, so it never will.
-/
def pointerTurns : Nat := 2 ^ 32

/-- A sequence of calls goes on with the result of the first. -/
theorem bind_step {α β : Type} {first : Option α} {a : α} {rest : α → Option β} {result : Option β}
    (here : first = some a) (after : rest a = result) : first.bind rest = result := by
  subst here
  exact after

variable {σ ρ α : Type} {body : σ → σ ⊕ ρ}

/-- A body that returns ends the loop at once. -/
theorem loop_return {turns : Nat} {s : σ} {result : ρ} (returns : body s = .inr result)
    (positive : 0 < turns) : loop body turns s = some result := by
  obtain ⟨turns, rfl⟩ : ∃ n, turns = n + 1 := ⟨turns - 1, by omega⟩
  simp [loop, returns]

/-- A body that goes round again uses up one turn. -/
theorem loop_again {turns : Nat} {s next : σ} (again : body s = .inl next) (positive : 0 < turns) :
    loop body turns s = loop body (turns - 1) next := by
  obtain ⟨turns, rfl⟩ : ∃ n, turns = n + 1 := ⟨turns - 1, by omega⟩
  simp [loop, again]

/-- Two loops that go round alike and return corresponding results have corresponding results. -/
theorem loop_map {ρ' : Type} {body' : σ → σ ⊕ ρ'} (f : ρ → ρ') (alike : ∀ s, body' s = (body s).map id f)
    (turns : Nat) (s : σ) : loop body' turns s = (loop body turns s).map f := by
  induction turns generalizing s with
  | zero => rfl
  | succ turns ih =>
    -- Either both bodies go round, to the same state, or both return.
    simp only [loop, alike]
    cases body s with
    | inl next => exact ih next
    | inr result => rfl

/--
A loop that walks along a list returns what the search of that list finds.

`place` names the loop state at each remaining suffix of the list.
The body stops on the first element that answers, and otherwise steps to the next suffix.
-/
theorem loop_walk (place : List α → σ) {answer : α → Option ρ} {ending : ρ} :
    ∀ {items : List α} {turns : Nat}, items.length < turns →
      (∀ before item after, items = before ++ item :: after →
        body (place (item :: after)) =
          match answer item with
          | some result => .inr result
          | none => .inl (place after)) →
      body (place []) = .inr ending →
      loop body turns (place items) = some ((items.findSome? answer).getD ending) := by
  intro items
  -- Each element costs one turn, and the last turn is spent on the end of the list.
  induction items with
  | nil => intro turns enough _ stops; exact loop_return stops (by omega)
  | cons item after ih =>
    intro turns enough steps stops
    have here := steps [] item after rfl
    rw [List.length_cons] at enough
    cases found : answer item with
    | some result =>
      simp only [found] at here
      -- The body returns on this element, so the search ends here too.
      rw [loop_return here (by omega), List.findSome?_cons, found]
      rfl
    | none =>
      simp only [found] at here
      -- The body goes round, and the rest of the walk is the walk along the later elements.
      rw [loop_again here (by omega)]
      have rest := ih (show after.length < turns - 1 by omega)
        (fun before next later split => steps (item :: before) next later (by rw [split]; rfl)) stops
      simpa [found] using rest

/-- A loop that stops on no element of a list walks to its end. -/
theorem walk_through (place : List α → σ) {ending : ρ} {items : List α} {turns : Nat}
    (enough : items.length < turns)
    (steps : ∀ before item after, items = before ++ item :: after → body (place (item :: after)) = .inl (place after))
    (stops : body (place []) = .inr ending) : loop body turns (place items) = some ending := by
  -- A walk whose answers are all negative finds nothing.
  have walked := @loop_walk σ ρ α body place (fun _ => none) ending items turns enough steps stops
  have nothing : items.findSome? (fun _ => (none : Option ρ)) = none := List.findSome?_eq_none_iff.mpr fun _ _ => rfl
  rwa [nothing] at walked

/-- The states in which a loop takes a turn, when it is not bounded. -/
inductive Visits (body : σ → σ ⊕ ρ) (start : σ) : σ → Prop
  | first : Visits body start start
  | again {s next : σ} (here : Visits body start s) (goes : body s = .inl next) : Visits body start next

/-- A loop that steps along a list visits only the places of its suffixes. -/
theorem Visits.suffix (place : List α → σ) {ending : ρ} {items : List α} {s : σ}
    (steps : ∀ before item after next, items = before ++ item :: after →
      body (place (item :: after)) = .inl next → next = place after)
    (stops : body (place []) = .inr ending) (visits : Visits body (place items) s) :
    ∃ before after, items = before ++ after ∧ s = place after := by
  induction visits with
  | first => exact ⟨[], items, rfl, rfl⟩
  | again _ goes ih =>
    obtain ⟨before, after, split, rfl⟩ := ih
    cases after with
    | nil =>
      -- The loop returns at the end of the list.
      rw [stops] at goes
      exact absurd goes (by simp)
    -- It goes on to the next item.
    | cons item after =>
      exact ⟨before ++ [item], after, by simp [split], steps before item after _ split goes⟩

/-- Following `next` from a pointer passes these pointers and then stops for the first time. -/
inductive Trail (next : Nat → Nat) (stops : Nat → Prop) : Nat → List Nat → Nat → Prop
  /-- Nothing is passed on the way to a pointer where the trail stops. -/
  | stop {p : Nat} (here : stops p) : Trail next stops p [] p
  /-- A pointer where the trail goes on is passed. -/
  | step {p last : Nat} {rest : List Nat} (on : ¬ stops p)
      (after : Trail next stops (next p) rest last) : Trail next stops p (p :: rest) last

/-- There is only one trail from a pointer. -/
theorem Trail.unique {next : Nat → Nat} {stops : Nat → Prop} {p last last' : Nat}
    {passed passed' : List Nat} (first : Trail next stops p passed last)
    (second : Trail next stops p passed' last') : passed = passed' ∧ last = last' := by
  -- Both trails stop or go on together, because stopping is a property of the pointer.
  induction first generalizing passed' with
  | stop here =>
    cases second with
    | stop _ => exact ⟨rfl, rfl⟩
    | step on _ => exact absurd here on
  | step on _ ih =>
    cases second with
    | stop here => exact absurd here on
    | step _ after =>
      obtain ⟨rfl, rfl⟩ := ih after
      exact ⟨rfl, rfl⟩

end MallocLab
