import MallocLab.Client.Run

/-! Runs without reallocation, and allocators that carry them out in step with one another. -/

namespace MallocLab

variable {γ γ' : Type}

/-- What a client does that never reallocates; it may also ask for nothing. -/
def World.Quiet (w : World γ) : Call → Prop
  | .malloc size => size ≤ maxRequest
  | .realloc _ _ => False
  | c => w.Legal c

/-- A run of quiet actions that also meet `ok`, with the pointers they return. -/
inductive QuietRun (A : Allocator γ) (ok : Heap γ → Call → Prop) :
    World γ → List Call → List Nat → World γ → Prop
  /-- The client may stop at any time. -/
  | nil (w : World γ) : QuietRun A ok w [] [] w
  /-- One more action before the rest of the run. -/
  | cons {w next last : World γ} {c : Call} {r : Nat} {cs : List Call} {rs : List Nat}
      (quiet : w.Quiet c) (fine : ok w.heap c) (step : w.call A c = some (next, r))
      (rest : QuietRun A ok next cs rs last) : QuietRun A ok w (c :: cs) (r :: rs) last

/-- Whether an action reallocates. -/
def Call.reallocates : Call → Bool
  | .realloc _ _ => true
  | _ => false

variable {A : Allocator γ} {B : Allocator γ'} {okA : Heap γ → Call → Prop} {okB : Heap γ' → Call → Prop}
variable {w next last : World γ} {w' : World γ'} {c : Call} {r : Nat} {cs : List Call} {rs rs' : List Nat}

/-- A legal action that does not reallocate is quiet. -/
theorem World.Legal.quiet (legal : w.Legal c) (kept : c.reallocates = false) : w.Quiet c := by
  cases c with
  | malloc size => exact legal.2
  | free ptr => exact legal
  | realloc ptr size => exact nomatch kept
  | store addr byte => exact legal

/-- A quiet action is legal, unless it asks for nothing. -/
theorem World.Quiet.legal (quiet : w.Quiet c) : w.Legal c ∧ c.reallocates = false ∨ c = .malloc 0 := by
  cases c with
  | malloc size =>
    by_cases none_ : size = 0
    · exact .inr (congrArg Call.malloc none_)
    · exact .inl ⟨⟨Nat.pos_of_ne_zero none_, quiet⟩, rfl⟩
  | free ptr => exact .inl ⟨quiet, rfl⟩
  | realloc ptr size => exact quiet.elim
  | store addr byte => exact .inl ⟨quiet, rfl⟩

/-- Only the live pointers decide whether an action is quiet. -/
theorem World.Quiet.congr (quiet : w.Quiet c) (same : w'.live = w.live) : w'.Quiet c := by
  cases c with
  | malloc size => exact quiet
  | free ptr =>
    obtain ⟨size, live⟩ := quiet
    exact ⟨size, same ▸ live⟩
  | realloc ptr size => exact quiet.elim
  | store addr byte =>
    obtain ⟨ptr, size, live, inside⟩ := quiet
    exact ⟨ptr, size, same ▸ live, inside⟩

/-- A run of legal actions that never reallocates is a quiet run. -/
theorem Run.quiet (run : Run A okA w cs rs last) (kept : ∀ c ∈ cs, c.reallocates = false) :
    QuietRun A okA w cs rs last := by
  induction run with
  | nil w => exact .nil w
  | cons legal fine step _ ih =>
    exact .cons (legal.quiet (kept _ List.mem_cons_self)) fine step
      (ih fun c member => kept c (List.mem_cons_of_mem _ member))

/-- The actions of a run determine what they return and where the run ends. -/
theorem QuietRun.unique {last' : World γ} (run : QuietRun A okA w cs rs last) (again : QuietRun A okA w cs rs' last') :
    rs = rs' ∧ last = last' := by
  induction run generalizing rs' with
  | nil w =>
    cases again with
    | nil => exact ⟨rfl, rfl⟩
  | cons _ _ step _ ih =>
    cases again with
    | cons _ _ step' rest' =>
      -- Equal worlds answer the same action alike, and the rests of the runs agree by induction.
      rw [step] at step'
      obtain ⟨rfl, rfl⟩ := Prod.mk.inj (Option.some.inj step')
      obtain ⟨rfl, rfl⟩ := ih rest'
      exact ⟨rfl, rfl⟩

/-- The live pointers after an action that returned `r`. -/
def Call.liveAfter (live : List (Nat × Nat)) (r : Nat) : Call → List (Nat × Nat)
  | .malloc size => if r = null then live else (r, size) :: live
  | .free ptr => dropLive live ptr
  | .realloc ptr size => if r = null then live else (r, size) :: dropLive live ptr
  | .store _ _ => live

/-- What an action returns decides which pointers are live afterwards. -/
theorem World.call_live (step : w.call A c = some (next, r)) : next.live = c.liveAfter w.live r := by
  cases c with
  | malloc size =>
    obtain ⟨⟨h, p⟩, _, step⟩ := Option.bind_eq_some_iff.mp step
    simp only [Call.liveAfter]
    -- A null result leaves the live pointers as they were.
    by_cases refused : p = null
    · obtain ⟨rfl, rfl⟩ := Prod.mk.inj (Option.some.inj ((if_pos refused).symm.trans step))
      rfl
    · obtain ⟨rfl, rfl⟩ := Prod.mk.inj (Option.some.inj ((if_neg refused).symm.trans step))
      rw [if_neg refused]
  | free ptr =>
    obtain ⟨h, _, step⟩ := Option.bind_eq_some_iff.mp step
    obtain ⟨rfl, rfl⟩ := Prod.mk.inj (Option.some.inj step)
    rfl
  | realloc ptr size =>
    obtain ⟨⟨h, p⟩, _, step⟩ := Option.bind_eq_some_iff.mp step
    simp only [Call.liveAfter]
    by_cases refused : p = null
    · obtain ⟨rfl, rfl⟩ := Prod.mk.inj (Option.some.inj ((if_pos refused).symm.trans step))
      rfl
    · obtain ⟨rfl, rfl⟩ := Prod.mk.inj (Option.some.inj ((if_neg refused).symm.trans step))
      rw [if_neg refused]
  | store addr byte =>
    obtain ⟨rfl, rfl⟩ := Prod.mk.inj (Option.some.inj step)
    rfl

/-- Related worlds carry out every quiet action alike: both return, with the same result, and stay related. -/
structure Lockstep (A : Allocator γ) (B : Allocator γ') (okA : Heap γ → Call → Prop) (okB : Heap γ' → Call → Prop)
    (R : World γ → World γ' → Prop) : Prop where
  fine : ∀ {w w' c}, R w w' → w.Quiet c → okA w.heap c → w'.Quiet c ∧ okB w'.heap c
  call : ∀ {w w' c}, R w w' → w.Quiet c → okA w.heap c → ∃ next next' r, w.call A c = some (next, r) ∧
    w'.call B c = some (next', r) ∧ R next next'

variable {R : World γ → World γ' → Prop}

/-- Every quiet run of one allocator is a run of the other, with the same results. -/
theorem Lockstep.run (twins : Lockstep A B okA okB R) (run : QuietRun A okA w cs rs last) (start : R w w') :
    ∃ last', QuietRun B okB w' cs rs last' ∧ R last last' := by
  induction run generalizing w' with
  | nil w => exact ⟨w', .nil w', start⟩
  | cons quiet fine step _ ih =>
    obtain ⟨quiet', fine'⟩ := twins.fine start quiet fine
    -- Both answer the action alike; then the related worlds go on.
    obtain ⟨next, next', r, done, done', related⟩ := twins.call start quiet fine
    rw [step] at done
    obtain ⟨rfl, rfl⟩ := Prod.mk.inj (Option.some.inj done)
    obtain ⟨last', run', related'⟩ := ih related
    exact ⟨last', .cons quiet' fine' done' run', related'⟩

/-- A run of one of two allocators is a run of the other when an invariant makes their actions the same. -/
theorem Run.transfer {A B : Allocator γ} {okA okB : Heap γ → Call → Prop} {I : World γ → Prop} {w last : World γ}
    (run : Run A okA w cs rs last) (start : I w)
    (same : ∀ w c, I w → okA w.heap c → w.call B c = w.call A c ∧ okB w.heap c)
    (kept : ∀ w c next r, I w → w.Legal c → okA w.heap c → w.call A c = some (next, r) → I next) :
    Run B okB w cs rs last := by
  induction run with
  | nil w => exact .nil w
  | cons legal fine step _ ih =>
    obtain ⟨alike, fine'⟩ := same _ _ start fine
    exact .cons legal fine' (alike.trans step) (ih (kept _ _ _ _ start legal fine step))

end MallocLab
