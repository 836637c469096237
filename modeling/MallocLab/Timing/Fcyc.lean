import MallocLab.Timing.Smallest
import Mathlib.Algebra.Ring.Int.Defs
import Mathlib.Data.List.Induction

/-! The sampling scheme of `fcyc.c`: it measures until the best values have converged, and returns the best one. -/

namespace MallocLab.Timing

/-- The parameters of the scheme, over the type of the measured values. -/
structure Settings (α : Type) where
  kbest : Nat
  maxsamples : Int
  epsilon : α

/-- The static variables that a measurement changes. -/
structure Sampler (α : Type) where
  values : List α
  samplecount : Nat

variable {α : Type}

/-- The first measurements, the last one first. -/
def measured (cyc : Nat → α) (m : Nat) : List α := (List.range m).reverse.map cyc

/-- One more measurement goes to the front. -/
theorem measured_succ (cyc : Nat → α) (m : Nat) : measured cyc (m + 1) = cyc m :: measured cyc m := by
  simp [measured, List.range_succ]

/-- There are as many as have been made. -/
theorem length_measured (cyc : Nat → α) (m : Nat) : (measured cyc m).length = m := by simp [measured]

section

variable [LinearOrder α] {l : List α}

/-- The loop "Insertion sort" of `add_sample`, with its variable `pos`. -/
def sift (values : List α) : Nat → Option (List α)
  | 0 => some values
  | pos + 1 => do
    let temp ← values[pos]?
    let value ← values[pos + 1]?
    if temp > value then sift ((values.set pos value).set (pos + 1) temp) pos else return values

/-- The loop inserts the value behind a sorted list into that list. -/
theorem sift_insert (sorted : l.Pairwise (· ≤ ·)) (x : α) (rest : List α) :
    sift (l ++ x :: rest) l.length = some (l.orderedInsert (· ≤ ·) x ++ rest) := by
  -- The loop goes from the end of the list to its front, and so does the induction.
  induction l using List.reverseRecOn generalizing rest with
  | nil => rfl
  | append_singleton l y ih =>
    obtain ⟨front, _, last⟩ := List.pairwise_append.mp sorted
    have here : ((l ++ [y]) ++ x :: rest)[l.length]? = some y := by simp
    have next : ((l ++ [y]) ++ x :: rest)[l.length + 1]? = some x := by simp
    rw [List.length_append, List.length_singleton]
    unfold sift
    rw [here, next]
    simp only [Option.bind_eq_bind, Option.bind_some]
    by_cases below : x < y
    · -- The two change places, and the loop goes on in front of them.
      have swapped : (((l ++ [y]) ++ x :: rest).set l.length x).set (l.length + 1) y = l ++ x :: y :: rest := by simp
      rw [if_pos below, swapped, ih front, orderedInsert_concat below, List.append_assoc]
      rfl
    · have above : ∀ z ∈ l ++ [y], z ≤ x := by
        intro z member
        rcases List.mem_append.mp member with earlier | same
        · exact (last z earlier y (List.mem_singleton_self y)).trans (not_lt.mp below)
        · rw [List.mem_singleton.mp same]
          exact not_lt.mp below
      rw [if_neg below, orderedInsert_last sorted above]
      simp

end

variable [LinearOrder α] [Zero α] [One α] [Add α] [Mul α]

/-- `init_sampler()`; `calloc` clears the values. -/
def initSampler (set : Settings α) : Sampler α where
  values := List.replicate set.kbest 0
  samplecount := 0

/-- `add_sample(val)` -/
def addSample (set : Settings α) (s : Sampler α) (val : α) : Option (Sampler α) := do
  if s.samplecount < set.kbest then
    let pos := s.samplecount
    return { values := ← sift (s.values.set pos val) pos, samplecount := s.samplecount + 1 }
  else
    let worst ← s.values[set.kbest - 1]?
    if val < worst then
      let pos := set.kbest - 1
      return { values := ← sift (s.values.set pos val) pos, samplecount := s.samplecount + 1 }
    else return { s with samplecount := s.samplecount + 1 }

/-- `has_converged()` -/
def hasConverged (set : Settings α) (s : Sampler α) : Option Bool :=
  if s.samplecount ≥ set.kbest then do
    let best ← s.values[0]?
    let worst ← s.values[set.kbest - 1]?
    return decide ((1 + set.epsilon) * best ≥ worst)
  else some false

/-- The loop of `fcyc`, when the counter reads `cyc i` after the `i`-th call of the function. -/
def fcycLoop (set : Settings α) (cyc : Nat → α) : Nat → Sampler α → Option (Sampler α)
  | 0, _ => none
  | turns + 1, s => do
    let s ← addSample set s (cyc s.samplecount)
    let converged ← hasConverged set s
    if ¬ converged ∧ (s.samplecount : Int) < set.maxsamples then fcycLoop set cyc turns s else return s

/-- `fcyc(f, argp)`, for at most this many turns of its loop. -/
def fcyc (set : Settings α) (cyc : Nat → α) (turns : Nat) : Option α := do
  let s ← fcycLoop set cyc turns (initSampler set)
  s.values[0]?

/-- The best of these measurements are as close as the scheme asks. -/
def Converged (set : Settings α) (samples : List α) : Prop :=
  set.kbest ≤ samples.length ∧ ∃ best worst, (smallest set.kbest samples)[0]? = some best ∧
    (smallest set.kbest samples)[set.kbest - 1]? = some worst ∧ worst ≤ (1 + set.epsilon) * best

/-- The sampler has the best of these measurements, and zeros where it has none yet. -/
structure Keeps (set : Settings α) (samples : List α) (s : Sampler α) : Prop where
  values : s.values = smallest set.kbest samples ++ List.replicate (set.kbest - samples.length) 0
  count : s.samplecount = samples.length

variable {set : Settings α} {s : Sampler α} {cyc : Nat → α} {samples : List α} {x : α} {m turns : Nat}

omit [One α] [Add α] [Mul α] in
/-- One more measurement keeps the best ones. -/
theorem Keeps.add (keeps : Keeps set samples s) (positive : 1 ≤ set.kbest) (x : α) :
    ∃ s', addSample set s x = some s' ∧ Keeps set (x :: samples) s' := by
  obtain ⟨values, count⟩ := keeps
  have sorted := smallest_sorted set.kbest samples
  have length := length_smallest set.kbest samples
  have more := smallest_cons set.kbest x samples
  unfold addSample
  by_cases few : samples.length < set.kbest
  · -- There is still a place behind the values.
    obtain ⟨j, left⟩ : ∃ j, set.kbest - samples.length = j + 1 := ⟨set.kbest - samples.length - 1, by omega⟩
    have all : (smallest set.kbest samples).length = samples.length := by omega
    have stored : s.values.set s.samplecount x = smallest set.kbest samples ++ x :: List.replicate j 0 := by
      rw [values, count, left, List.replicate_succ, ← all]
      simp
    -- The value is moved to its place among the others.
    have sifted : sift (s.values.set s.samplecount x) s.samplecount =
        some ((smallest set.kbest samples).orderedInsert (· ≤ ·) x ++ List.replicate j 0) := by
      rw [stored, count, ← all]
      exact sift_insert sorted x _
    -- All values are kept, as there are no more than `kbest`.
    have whole : smallest set.kbest (x :: samples) = (smallest set.kbest samples).orderedInsert (· ≤ ·) x := by
      rw [more, List.take_of_length_le]
      rw [List.orderedInsert_length]
      omega
    rw [if_pos (by omega)]
    simp only [sifted]
    refine ⟨_, rfl, ?_, by simp [count]⟩
    rw [whole, List.length_cons, show set.kbest - (samples.length + 1) = j by omega]
  · -- All places are taken, so the value takes the last one, if it is below it.
    have full : (smallest set.kbest samples).length = set.kbest := by omega
    obtain ⟨front, worst, split⟩ : ∃ front worst, smallest set.kbest samples = front ++ [worst] :=
      ⟨_, _, (List.dropLast_append_getLast (List.ne_nil_of_length_pos (by omega))).symm⟩
    rw [split] at sorted full more
    rw [List.length_append, List.length_singleton] at full
    have exact_ : s.values = front ++ [worst] := by
      rw [values, split, show set.kbest - samples.length = 0 by omega]
      simp
    -- The last place holds the largest of the values that are kept.
    have place : set.kbest - 1 = front.length := by omega
    have last : s.values[front.length]? = some worst := by
      rw [exact_]
      simp
    rw [if_neg (by omega), place, last]
    simp only [Option.bind_eq_bind, Option.bind_some]
    -- The value is below it, so it drives the largest one out.
    by_cases below : x < worst
    · have stored : s.values.set front.length x = front ++ [x] := by
        rw [exact_]
        simp
      have sifted : sift (front ++ [x]) front.length = some (front.orderedInsert (· ≤ ·) x ++ []) :=
        sift_insert (List.pairwise_append.mp sorted).1 x []
      rw [if_pos below]
      simp only [stored, sifted]
      refine ⟨_, rfl, ?_, by simp [count]⟩
      rw [more, orderedInsert_concat below, List.take_append_of_le_length (by rw [List.orderedInsert_length]; omega),
        List.take_of_length_le (by rw [List.orderedInsert_length]; omega), List.length_cons,
        show set.kbest - (samples.length + 1) = 0 by omega]
      rfl
    · -- The value is above it, so nothing changes.
      have above : ∀ y ∈ front ++ [worst], y ≤ x := by
        intro y member
        rcases List.mem_append.mp member with earlier | same
        · have order := (List.pairwise_append.mp sorted).2.2 y earlier worst (List.mem_singleton_self worst)
          exact order.trans (not_lt.mp below)
        · rw [List.mem_singleton.mp same]
          exact not_lt.mp below
      rw [if_neg below]
      refine ⟨_, rfl, ?_, by simp [count]⟩
      rw [more, orderedInsert_last sorted above, List.take_append_of_le_length (by simp; omega),
        List.take_of_length_le (by simp; omega), List.length_cons, show set.kbest - (samples.length + 1) = 0 by omega,
        exact_]
      simp

/-- `has_converged` tells whether the best measurements have converged. -/
theorem Keeps.converged (keeps : Keeps set samples s) (positive : 1 ≤ set.kbest) :
    ∃ answer, hasConverged set s = some answer ∧ (answer = true ↔ Converged set samples) := by
  obtain ⟨values, count⟩ := keeps
  have length := length_smallest set.kbest samples
  unfold hasConverged Converged
  -- The first and the last of the kept values are compared.
  by_cases enough : set.kbest ≤ samples.length
  · rw [if_pos (by omega), values, show set.kbest - samples.length = 0 by omega, List.replicate_zero, List.append_nil]
    have first : (smallest set.kbest samples)[0]? = some _ := List.getElem?_eq_getElem (by omega)
    have last : (smallest set.kbest samples)[set.kbest - 1]? = some _ := List.getElem?_eq_getElem (by omega)
    rw [first, last]
    refine ⟨_, rfl, ?_⟩
    simp [enough]
  · -- There are not enough measurements yet.
    rw [if_neg (by omega)]
    exact ⟨false, rfl, by simp [enough]⟩

/-- The loop stops after some number of measurements, at the first one where it may. -/
structure Stops (set : Settings α) (cyc : Nat → α) (m : Nat) : Prop where
  some_ : 1 ≤ m
  limit : (m : Int) ≤ max 1 set.maxsamples
  done : Converged set (measured cyc m) ∨ set.maxsamples ≤ m
  first : ∀ j, 1 ≤ j → j < m → ¬ Converged set (measured cyc j)

/-- From a sampler that keeps the best of the first measurements on, the loop stops with such a sampler. -/
theorem fcycLoop_stops (positive : 1 ≤ set.kbest) (keeps : Keeps set (measured cyc m) s)
    (before : (m : Int) < max 1 set.maxsamples) (first : ∀ j, 1 ≤ j → j ≤ m → ¬ Converged set (measured cyc j))
    (enough : max 1 set.maxsamples ≤ m + turns) :
    ∃ m' s', fcycLoop set cyc turns s = some s' ∧ Stops set cyc m' ∧ Keeps set (measured cyc m') s' := by
  -- Each turn makes one more measurement, and there are enough turns left.
  induction turns generalizing m s with
  | zero => omega
  | succ turns ih =>
    -- The turn adds the next measurement.
    have here : s.samplecount = m := by rw [keeps.count, length_measured]
    obtain ⟨s', added, keeps'⟩ := keeps.add positive (cyc m)
    rw [← measured_succ] at keeps'
    obtain ⟨answer, asked, means⟩ := keeps'.converged positive
    have count : s'.samplecount = m + 1 := by rw [keeps'.count, length_measured]
    have turn : fcycLoop set cyc (turns + 1) s =
        if ¬ answer ∧ (s'.samplecount : Int) < set.maxsamples then fcycLoop set cyc turns s' else some s' := by
      rw [fcycLoop, here, added]
      simp only [Option.bind_eq_bind, Option.bind_some, asked]
      rfl
    rw [turn]
    by_cases on : ¬ answer ∧ (s'.samplecount : Int) < set.maxsamples
    · -- The values have not converged, and there may be more of them.
      rw [if_pos on]
      rw [count] at on
      have open_ : ¬ Converged set (measured cyc (m + 1)) := fun converged => on.1 (means.mpr converged)
      refine ih keeps' (by omega) (fun j some_ most => ?_) (by omega)
      rcases Nat.lt_or_ge j (m + 1) with earlier | last
      · exact first j some_ (by omega)
      · rw [show j = m + 1 by omega]
        exact open_
    · -- The loop ends here.
      rw [if_neg on]
      rw [count] at on
      refine ⟨m + 1, s', rfl, ⟨by omega, by omega, ?_, fun j some_ below => first j some_ (by omega)⟩, keeps'⟩
      -- It ends because the values have converged, or because there may be no more of them.
      by_cases converged : answer = true
      · exact .inl (means.mp converged)
      · exact .inr (not_lt.mp fun less => on ⟨by simpa using converged, less⟩)

/--
The scheme always ends, at the first measurement where the best ones have converged or there may be no more.

Its result is the least of all measurements until then, even when they are fewer than `kbest`.
-/
theorem fcyc_best (positive : 1 ≤ set.kbest) (cyc : Nat → α) :
    ∃ m r, fcyc set cyc (max 1 set.maxsamples).toNat = some r ∧ Stops set cyc m ∧ (∃ i < m, cyc i = r) ∧
      ∀ i < m, r ≤ cyc i := by
  -- The new sampler keeps the best of no measurements.
  have start : Keeps set (measured cyc 0) (initSampler set) := ⟨by simp [measured, smallest, initSampler], rfl⟩
  obtain ⟨m, s, done, stops, keeps⟩ := @fcycLoop_stops α _ _ _ _ _ set (initSampler set) cyc 0
    (max 1 set.maxsamples).toNat positive start (by simp) (fun j some_ none_ => by omega) (by omega)
  have members : ∀ y, y ∈ measured cyc m ↔ ∃ i < m, cyc i = y := by
    intro y
    simp [measured]
  have real : measured cyc m ≠ [] := by
    have some_ := stops.some_
    have length := length_measured cyc m
    intro nil
    rw [nil, List.length_nil] at length
    omega
  -- There is at least one measurement, so there is a least one.
  obtain ⟨r, head, member, least⟩ := smallest_head positive real
  refine ⟨m, r, ?_, stops, (members r).mp member, fun i below => least _ ((members _).mpr ⟨i, below, rfl⟩)⟩
  -- The first value of the sampler is the first of the smallest ones.
  have inside : 0 < (smallest set.kbest (measured cyc m)).length := (List.getElem?_eq_some_iff.mp head).1
  unfold fcyc
  rw [done]
  show s.values[0]? = _
  rw [keeps.values, List.getElem?_append_left inside, head]

/-- The settings of the file, but without any tolerance. -/
def exactly : Settings Int where
  kbest := 3
  maxsamples := 20
  epsilon := 0

/-- The scheme on readings that fall by seven each time. -/
theorem fcyc_best_sample : ∃ m r, fcyc exactly (fun i => 1000 - 7 * i) (max 1 exactly.maxsamples).toNat = some r ∧
    Stops exactly (fun i => 1000 - 7 * i) m ∧ (∃ i < m, 1000 - 7 * (i : Int) = r) ∧
    ∀ i : Nat, i < m → r ≤ 1000 - 7 * (i : Int) :=
  fcyc_best (by decide) fun i => 1000 - 7 * (i : Int)

end MallocLab.Timing
