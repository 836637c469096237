import MallocLab.Traces.Tally

/-! Which traces `checktrace.pl` accepts: it lets an id be allocated again once it was freed. -/

namespace MallocLab.Traces

open Event

variable {other : Text → Nat → Text} {summary : Bool} {stdin : Text}

/--
A trace is consistent when every id is allocated at most once, and realloc and free requests name allocated ids.

This is stricter than what the script checks, which looks only at the ids that are allocated at the moment.
-/
def Consistent (events : List (Event Text)) : Prop := Once events ∧ Named events

/--
The script runs to its end exactly on the consistent traces, unless an id is allocated again after its free.

Such a trace is caught only when it has another fault: an allocation of an allocated id, or another request for an
id that is not allocated.
-/
theorem checktrace_consistent (trace : IsTrace stdin) :
    ((∃ out, checktrace other summary stdin = .ok out) ↔ Consistent (events stdin)) ↔
      ¬ Reused (events stdin) ∨ ¬ Proper (events stdin) := by
  rw [checktrace_ends_iff trace]
  constructor
  · intro same
    by_cases proper : Proper (events stdin)
    · exact .inl (proper.once_iff.mp (same.mp proper).1)
    · exact .inr proper
  · rintro (fresh | wrong)
    · exact ⟨fun proper => ⟨proper.once_iff.mpr fresh, proper.named⟩, fun ⟨once, named⟩ => proper_of_once once named⟩
    · exact iff_of_false wrong fun ⟨once, named⟩ => wrong (proper_of_once once named)

/-- A trace that frees an id and then frees it again. -/
def freedTwice : Text := "20\n1\n3\n1\na 0 8\nf 0\nf 0\n".toList

/-- The condition decides about a trace that frees an id twice. -/
theorem checktrace_consistent_sample :
    ((∃ out, checktrace (fun s _ => s) true freedTwice = .ok out) ↔ Consistent (events freedTwice)) ↔
      ¬ Reused (events freedTwice) ∨ ¬ Proper (events freedTwice) :=
  checktrace_consistent (by decide +kernel)

/-- A trace that allocates an id again after its free. -/
def allocatedAgain : Text := "20\n1\n4\n1\na 0 8\nf 0\na 0 8\nf 0\n".toList

/-- The script accepts such a trace, although the id is reused. -/
theorem checktrace_accepts_reuse : IsTrace allocatedAgain ∧
    (∀ other summary, ∃ out, checktrace other summary allocatedAgain = .ok out) ∧
    ¬ Consistent (events allocatedAgain) := by
  have history : events allocatedAgain = [.acquire ['0'], .release ['0'], .acquire ['0'], .release ['0']] := by
    decide +kernel
  refine ⟨by decide +kernel, fun other summary => ?_, fun consistent => ?_⟩
  · cases summary with
    | false => exact ⟨_, rfl⟩
    | true => exact ⟨_, rfl⟩
  · rw [history] at consistent
    exact consistent.1 [] ['0'] _ rfl (by simp)

end MallocLab.Traces
