import Mathlib.Data.List.Count
import Mathlib.Data.List.Induction
import Mathlib.Data.List.Nodup

/-! Histories of objects that are acquired, used and released by name, and the rules they may keep. -/

namespace MallocLab

/-- What happens to the object of some name. -/
inductive Event (ι : Type) where
  | acquire (i : ι)
  | use (i : ι)
  | release (i : ι)
deriving DecidableEq

namespace Event

variable {ι : Type}

/-- After these events the name stands for an object: it was acquired, and it was not released since. -/
def Held (past : List (Event ι)) (i : ι) : Prop :=
  ∃ before after, past = before ++ .acquire i :: after ∧ .release i ∉ after

/-- What may happen next: only a free name is acquired, and only a held one is used or released. -/
def Allowed (past : List (Event ι)) : Event ι → Prop
  | acquire i => ¬ Held past i
  | use i => Held past i
  | release i => Held past i

/-- Each of the later events was allowed when it happened. -/
def ProperAfter (past events : List (Event ι)) : Prop :=
  ∀ before e after, events = before ++ e :: after → Allowed (past ++ before) e

/-- Every event was allowed when it happened. -/
abbrev Proper (events : List (Event ι)) : Prop := ProperAfter [] events

/-- No name is acquired twice, not even after its release. -/
def Once (events : List (Event ι)) : Prop :=
  ∀ before i after, events = before ++ .acquire i :: after → .acquire i ∉ after

/-- Some name is acquired again later than it was released. -/
def Reused (events : List (Event ι)) : Prop :=
  ∃ before i after, events = before ++ .release i :: after ∧ .acquire i ∈ after

/-- Only held names are used or released. -/
def Named (events : List (Event ι)) : Prop :=
  ∀ before i after, events = before ++ .use i :: after ∨ events = before ++ .release i :: after → Held before i

variable {past events : List (Event ι)} {e : Event ι} {i j : ι}

/-- At first nothing is held. -/
@[simp] theorem not_held_nil : ¬ Held ([] : List (Event ι)) i := by
  rintro ⟨before, after, split, _⟩
  exact List.append_ne_nil_of_right_ne_nil before (List.cons_ne_nil _ after) split.symm

/-- A last event that neither acquires nor releases a name leaves it as it was. -/
theorem held_concat_other (acquires : e ≠ .acquire i) (releases : e ≠ .release i) :
    Held (past ++ [e]) i ↔ Held past i := by
  constructor
  · -- The acquisition is in the past, or it is the last event.
    rintro ⟨before, after, split, kept⟩
    rcases after.eq_nil_or_concat with rfl | ⟨front, last, rfl⟩
    · exact absurd (List.append_inj_right' split rfl) (by simpa using acquires)
    · -- The last event comes after the acquisition, so it can be taken off.
      have shape : past ++ [e] = (before ++ .acquire i :: front) ++ [last] := by
        rw [split, List.concat_eq_append, List.append_assoc, List.cons_append]
      exact ⟨before, front, (List.append_inj' shape rfl).1, fun inside => kept (by simp [inside])⟩
  · -- An event about another name changes nothing.
    rintro ⟨before, after, rfl, kept⟩
    refine ⟨before, after ++ [e], by simp, fun inside => ?_⟩
    rcases List.mem_append.mp inside with inside | last
    · exact kept inside
    · exact releases (List.mem_singleton.mp last).symm

/-- A name is held once it is acquired. -/
theorem held_acquire : Held (past ++ [.acquire i]) i := ⟨past, [], rfl, List.not_mem_nil⟩

/-- A name is not held once it is released. -/
theorem not_held_release : ¬ Held (past ++ [.release i]) i := by
  rintro ⟨before, after, split, kept⟩
  rcases after.eq_nil_or_concat with rfl | ⟨front, last, rfl⟩
  · exact absurd (List.append_inj_right' split rfl) (by simp)
  · have shape : past ++ [.release i] = (before ++ .acquire i :: front) ++ [last] := by
      rw [split, List.concat_eq_append, List.append_assoc, List.cons_append]
    have same := List.append_inj_right' shape rfl
    exact kept (by simp [List.singleton_inj.mp same])

/-- A name that is acquired and not released later is held. -/
theorem held_of_kept {before after : List (Event ι)} (kept : .release i ∉ after) :
    Held (before ++ .acquire i :: after) i := ⟨before, after, rfl, kept⟩

/-- A held name was acquired. -/
theorem Held.acquired (held : Held past i) : .acquire i ∈ past := by
  obtain ⟨before, after, rfl, _⟩ := held
  simp

/-- No later events are always proper. -/
@[simp] theorem properAfter_nil : ProperAfter past [] := by
  intro before e after split
  exact absurd split.symm (List.append_ne_nil_of_right_ne_nil _ (List.cons_ne_nil _ _))

/-- Events are proper when the first is allowed and the others are proper after it. -/
theorem properAfter_cons :
    ProperAfter past (e :: events) ↔ Allowed past e ∧ ProperAfter (past ++ [e]) events := by
  constructor
  · -- The first event has to be allowed, and then the others after it.
    intro proper
    refine ⟨by simpa using proper [] e events rfl, fun before f after split => ?_⟩
    have shape : e :: events = (e :: before) ++ f :: after := by rw [split, List.cons_append]
    simpa using proper (e :: before) f after shape
  · -- An event is the first one or a later one.
    rintro ⟨first, others⟩ before f after split
    cases before with
    | nil =>
      obtain ⟨rfl, _⟩ := List.cons.inj split
      simpa using first
    | cons g before =>
      obtain ⟨rfl, rest⟩ := List.cons.inj split
      simpa using others before f after rest

/-- Events are proper when a first part is and the others are proper after it. -/
theorem properAfter_append {more : List (Event ι)} :
    ProperAfter past (events ++ more) ↔ ProperAfter past events ∧ ProperAfter (past ++ events) more := by
  induction events generalizing past with
  | nil => simp
  | cons e events ih =>
    rw [List.cons_append, properAfter_cons, properAfter_cons, ih, and_assoc]
    simp

/-- In a proper history only held names are used or released. -/
theorem Proper.named (proper : Proper events) : Named events := by
  rintro before i after (split | split)
  · exact proper before _ after split
  · exact proper before _ after split

/-- A name acquired once is not held before, so the history is proper. -/
theorem proper_of_once (once : Once events) (named : Named events) : Proper events := by
  intro before e after split
  rw [List.nil_append]
  cases e with
  | acquire i =>
    rintro ⟨early, late, rfl, _⟩
    refine once early i (late ++ .acquire i :: after) ?_ (by simp)
    rw [split, List.append_assoc, List.cons_append]
  | use i => exact named before i after (.inl split)
  | release i => exact named before i after (.inr split)

/-- In a proper history a name is released between two acquisitions of it. -/
theorem Proper.released_between {before mid after : List (Event ι)}
    (proper : Proper (before ++ .acquire i :: (mid ++ .acquire i :: after))) : .release i ∈ mid := by
  by_contra kept
  have free := proper (before ++ .acquire i :: mid) (.acquire i) after (by simp)
  exact free (held_of_kept kept)

/-- A proper history acquires a name twice exactly when it reuses one. -/
theorem Proper.once_iff (proper : Proper events) : Once events ↔ ¬ Reused events := by
  constructor
  · rintro once ⟨before, i, after, split, again⟩
    -- A released name was acquired before.
    obtain ⟨early, late, rfl, _⟩ := proper before (.release i) after split
    exact once early i (late ++ .release i :: after) (split.trans (by simp)) (by simp [again])
  · intro fresh before i after split again
    obtain ⟨mid, rest, rfl⟩ := List.append_of_mem again
    obtain ⟨u, v, rfl⟩ := List.append_of_mem (split ▸ proper).released_between
    exact fresh ⟨before ++ .acquire i :: u, i, v ++ .acquire i :: rest, by simp [split], by simp⟩

section Closing

variable [DecidableEq ι]

/-- How often the name is released after this point before it is acquired again. -/
def releases (i : ι) (after : List (Event ι)) : Nat := (after.takeWhile fun e => e ≠ .acquire i).count (.release i)

/-- A name that is not held is not released before it is acquired. -/
theorem releases_eq_zero (proper : ProperAfter past events) (loose : ¬ Held past i) : releases i events = 0 := by
  unfold releases
  induction events generalizing past with
  | nil => rfl
  | cons e events ih =>
    obtain ⟨first, others⟩ := properAfter_cons.mp proper
    by_cases acquires : e = .acquire i
    · simp [acquires]
    · have released : e ≠ .release i := by
        rintro rfl
        exact loose first
      rw [List.takeWhile_cons_of_pos (by simpa using acquires), List.count_cons_of_ne released]
      exact ih others fun held => loose ((held_concat_other acquires released).mp held)

/-- A proper history releases a name at most once before it is acquired again. -/
theorem releases_le_one (proper : ProperAfter past events) : releases i events ≤ 1 := by
  induction events generalizing past with
  | nil => simp [releases]
  | cons e events ih =>
    obtain ⟨_, others⟩ := properAfter_cons.mp proper
    have rest := ih others
    -- From an acquisition on nothing is counted.
    by_cases acquires : e = .acquire i
    · simp [releases, acquires]
    · by_cases released : e = .release i
      · -- The name is not held any longer.
        subst released
        have none_left := releases_eq_zero others not_held_release
        unfold releases at none_left ⊢
        rw [List.takeWhile_cons_of_pos (by simp), List.count_cons_self]
        omega
      · -- Another event is not counted.
        unfold releases at rest ⊢
        rwa [List.takeWhile_cons_of_pos (by simpa using acquires), List.count_cons_of_ne released]

/-- A held name that is not held at the end is released at least once before it is acquired again. -/
theorem releases_pos (proper : ProperAfter past events) (held : Held past i) (ends : ¬ Held (past ++ events) i) :
    0 < releases i events := by
  unfold releases
  induction events generalizing past with
  | nil => exact absurd held (by simpa using ends)
  | cons e events ih =>
    obtain ⟨first, others⟩ := properAfter_cons.mp proper
    by_cases acquires : e = .acquire i
    · -- A held name cannot be acquired.
      subst acquires
      exact absurd held first
    · rw [List.takeWhile_cons_of_pos (by simpa using acquires), List.count_cons]
      -- The first event releases the name.
      by_cases released : e = .release i
      · simp [released]
      · -- It does not, so a later one does.
        have still := (held_concat_other acquires released).mpr held
        have rest := ih others still (by simpa using ends)
        omega

/-- In a proper history that ends with nothing held, every acquired name is released exactly once. -/
theorem Proper.releases_eq_one (proper : Proper events) (ends : ∀ j, ¬ Held events j)
    {before after : List (Event ι)} (split : events = before ++ .acquire i :: after) : releases i after = 1 := by
  subst split
  obtain ⟨_, later⟩ := properAfter_append.mp proper
  obtain ⟨_, later⟩ := properAfter_cons.mp later
  have most := releases_le_one (i := i) later
  have least := releases_pos (i := i) later (by simpa using held_acquire) (by simpa using ends i)
  omega

end Closing

/-- Releasing held names one after the other is proper. -/
theorem properAfter_releases {names : List ι} (held : ∀ i ∈ names, Held past i) (distinct : names.Nodup) :
    ProperAfter past (names.map .release) := by
  induction names generalizing past with
  | nil => simp
  | cons i names ih =>
    obtain ⟨fresh, distinct⟩ := List.nodup_cons.mp distinct
    rw [List.map_cons, properAfter_cons]
    refine ⟨held i List.mem_cons_self, ih (fun j inside => ?_) distinct⟩
    have other : j ≠ i := fun same => fresh (same ▸ inside)
    exact (held_concat_other (by simp) (by simpa using other.symm)).mpr (held j (List.mem_cons_of_mem _ inside))

/-- A name is held after some releases exactly when it was held and is not among them. -/
theorem held_releases {names : List ι} : Held (past ++ names.map .release) i ↔ Held past i ∧ i ∉ names := by
  induction names using List.reverseRecOn with
  | nil => simp
  | append_singleton names j ih =>
    rw [List.map_append, ← List.append_assoc, List.map_cons, List.map_nil]
    by_cases same : i = j
    · subst same
      exact iff_of_false not_held_release (by simp)
    · rw [held_concat_other (by simp) (by simpa using Ne.symm same), ih]
      simp [same]

end Event

end MallocLab
