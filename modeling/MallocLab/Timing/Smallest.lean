import Mathlib.Data.List.Sort

/-! The smallest elements of a list in ascending order, and how one more element changes them. -/

namespace MallocLab

variable {α : Type} [LinearOrder α] {x y : α} {l xs : List α} {k : Nat}

/-- The `k` smallest elements of a list, in ascending order. -/
def smallest (k : Nat) (xs : List α) : List α := (xs.insertionSort (· ≤ ·)).take k

/-- The smallest values are in ascending order. -/
theorem smallest_sorted (k : Nat) (xs : List α) : (smallest k xs).Pairwise (· ≤ ·) :=
  (List.pairwise_insertionSort (· ≤ ·) xs).sublist (List.take_sublist k _)

/-- There are `k` of them unless there are fewer values. -/
theorem length_smallest (k : Nat) (xs : List α) : (smallest k xs).length = min k xs.length := by
  rw [smallest, List.length_take, List.length_insertionSort]

/-- Inserting and then cutting off depends only on the part that is kept. -/
theorem take_orderedInsert (k : Nat) (x : α) (l : List α) :
    (l.orderedInsert (· ≤ ·) x).take k = ((l.take k).orderedInsert (· ≤ ·) x).take k := by
  -- The induction goes down the list, and what is kept gets shorter with it.
  induction l generalizing k with
  | nil => simp
  | cons y l ih =>
    cases k with
    | zero => rfl
    | succ k =>
      rw [List.take_succ_cons, List.orderedInsert_cons, List.orderedInsert_cons]
      split
      · -- The new element comes first, and the others are cut off one place earlier.
        cases k with
        | zero => rfl
        | succ k => simp [List.take_take]
      · rw [List.take_succ_cons, List.take_succ_cons, ih]

/-- One more element is inserted among the smallest ones, and at most `k` are kept. -/
theorem smallest_cons (k : Nat) (x : α) (xs : List α) :
    smallest k (x :: xs) = ((smallest k xs).orderedInsert (· ≤ ·) x).take k := by
  unfold smallest
  rw [List.insertionSort_cons, take_orderedInsert]

/-- An element that is not below any other one may be put at the end. -/
theorem orderedInsert_last (sorted : l.Pairwise (· ≤ ·)) (above : ∀ y ∈ l, y ≤ x) :
    l.orderedInsert (· ≤ ·) x = l ++ [x] := by
  -- Both lists are sorted, and they have the same elements.
  have left := List.Pairwise.orderedInsert (r := (· ≤ ·)) x l sorted
  have right : (l ++ [x]).Pairwise (· ≤ ·) :=
    List.pairwise_append.mpr ⟨sorted, List.pairwise_singleton _ _, fun y member z last => by
      rw [List.mem_singleton.mp last]
      exact above y member⟩
  have perm : (l.orderedInsert (· ≤ ·) x).Perm (l ++ [x]) :=
    (List.perm_orderedInsert _ x l).trans (List.perm_append_singleton x l).symm
  exact perm.eq_of_pairwise (fun _ _ _ _ => le_antisymm) left right

/-- An element below the last one is inserted somewhere in front of it. -/
theorem orderedInsert_concat (below : x < y) :
    (l ++ [y]).orderedInsert (· ≤ ·) x = l.orderedInsert (· ≤ ·) x ++ [y] := by
  -- The last element is never reached.
  induction l with
  | nil => simp [below.le]
  | cons z l ih =>
    rw [List.cons_append, List.orderedInsert_cons, List.orderedInsert_cons, ih]
    split
    · rfl
    · rfl

/-- The first of the smallest elements is the least of all. -/
theorem smallest_head (positive : 1 ≤ k) (real : xs ≠ []) :
    ∃ least, (smallest k xs)[0]? = some least ∧ least ∈ xs ∧ ∀ y ∈ xs, least ≤ y := by
  have sorted := List.pairwise_insertionSort (· ≤ ·) xs
  -- The first element of the sorted list is below all others.
  cases shape : xs.insertionSort (· ≤ ·) with
  | nil =>
    have length := congrArg List.length shape
    rw [List.length_insertionSort] at length
    exact absurd (List.length_eq_zero_iff.mp length) real
  | cons least rest =>
    have member : ∀ y, y ∈ xs ↔ y ∈ least :: rest := fun y => by rw [← shape, List.mem_insertionSort]
    rw [shape] at sorted
    refine ⟨least, ?_, (member least).mpr List.mem_cons_self, fun y inside => ?_⟩
    · unfold smallest
      rw [shape]
      obtain ⟨j, rfl⟩ := Nat.exists_eq_add_of_le' positive
      rfl
    · rcases List.mem_cons.mp ((member y).mp inside) with rfl | later
      · exact le_rfl
      · exact (List.pairwise_cons.mp sorted).1 y later

end MallocLab
