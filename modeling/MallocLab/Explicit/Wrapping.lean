import MallocLab.Explicit.Refusals
import MallocLab.Skeleton.Wrapping

/-! Requests at the top of the range of sizes, and breaks at the top of the address space. -/

namespace MallocLab.Explicit

variable {base n a p bp size r : Nat} {m : Mem} {statics : Statics} {h h' : State} {w : World Statics}
variable {s : Shelves} {cs : List Call} {rs : List Nat} {result : State × Nat}

open Skeleton (area)

section Frame

/-- Unlinking a block moves no limit, whatever the state. -/
theorem removeBlock_area (done : removeBlock h bp = some h') : area h' = area h := by
  unfold removeBlock at done
  split at done
  · -- The first branch makes one checked store and moves `free_listp`.
    obtain ⟨h₁, first, rest⟩ := Option.bind_eq_some_iff.mp done
    exact (Option.some.inj rest ▸ rfl : area h' = area h₁).trans (Skeleton.putChecked_area first)
  · obtain ⟨h₁, first, rest⟩ := Option.bind_eq_some_iff.mp done
    exact (Skeleton.putChecked_area rest).trans (Skeleton.putChecked_area first)

/-- Linking in a block moves no limit, whatever the state. -/
theorem putFreeBlock_area (done : putFreeBlock h bp = some h') : area h' = area h := by
  unfold putFreeBlock at done
  obtain ⟨h₁, first, rest⟩ := Option.bind_eq_some_iff.mp done
  have kept := Skeleton.putChecked_area first
  exact (Option.some.inj rest ▸ rfl : area h' = area h₁).trans kept

/-- Coalescing moves no limit, whatever the state. -/
theorem coalesce_area (done : coalesce h bp = some result) : area result.1 = area h := by
  unfold coalesce at done
  simp only at done
  -- The four branches remove none, one or two blocks, and list one.
  split_ifs at done
  · exact Skeleton.listed_area done putFreeBlock_area rfl
  · refine Skeleton.unlinked_area done removeBlock_area rfl fun _ same done => ?_
    exact Skeleton.listed_area done putFreeBlock_area same
  · refine Skeleton.unlinked_area done removeBlock_area rfl fun _ same done => ?_
    exact Skeleton.listed_area done putFreeBlock_area same
  · refine Skeleton.unlinked_area done removeBlock_area rfl fun _ same done => ?_
    refine Skeleton.unlinked_area done removeBlock_area same fun _ same done => ?_
    exact Skeleton.listed_area done putFreeBlock_area same

/-- Placing a block moves no limit, whatever the state. -/
theorem place_area (done : place h bp a = some h') : area h' = area h :=
  Skeleton.place_area removeBlock_area putFreeBlock_area done

end Frame

/-- When a request needs an extension whose end wraps, the break ends up below the area. -/
theorem mmMalloc_escapes (stands : Stands base h s) (inside : s.brk ≤ base + maxHeap) (asked : n ≠ 0)
    (wraps : ¬ NoWrap h (.malloc n)) (done : mmMalloc h n = some result) :
    result.1.memStartBrk = h.memStartBrk ∧ result.1.memBrk < h.memStartBrk := by
  have limit := (parts base).limit stands
  have brk : h.memBrk = s.brk := stands.rep.brk
  have whole : Skeleton.adjustedSize n % 8 = 0 := by
    rw [Skeleton.adjustedSize_eq]
    omega
  -- The search changes nothing, whatever it finds.
  have searching : ∀ {a h' q}, findFit h a = some (h', q) → h' = h := by
    intro a h' q found
    obtain ⟨_, _, same⟩ := Option.map_eq_some_iff.mp found
    exact (Prod.mk.inj same).1.symm
  exact Skeleton.mmMalloc_escapes coalesce_area place_area searching stands (by omega) asked whole wraps done

/--
After `mm_malloc` for `n` bytes the break lies inside the area.

It has moved by nothing or by the extension for the request.
A request that no free block can serve and that finds no room returns null.
-/
def BreakKept (h : State) (n : Nat) : Prop :=
  ∃ h' r, mmMalloc h n = some (h', r) ∧ h'.memStartBrk ≤ h'.memBrk ∧ h'.memBrk ≤ h'.memMaxAddr ∧
    (h'.memBrk = h.memBrk ∨ h'.memBrk = h.memBrk + max (Skeleton.adjustedSize n) 4096) ∧
    ∀ rest, HeapWalk h (h.memStartBrk + 8) ((h.memStartBrk + 8) :: rest) h.memBrk →
      ¬ HasFit h rest (Skeleton.adjustedSize n) →
      h.memMaxAddr < h.memBrk + max (Skeleton.adjustedSize n) 4096 → r = null

/-- `mm_init` fails when its first request for space is refused. -/
theorem mmInit_refused (refused : memSbrk h (toInt32 (6 * wsize)) = (h', minusOne)) :
    mmInit h = some ({ h' with statics := { h'.statics with heapListp := minusOne } }, -1) := by
  unfold mmInit
  rw [refused]
  exact if_pos rfl

/-- `mm_init` fails on an area that ends at the top of the address space, since its limit wraps to zero. -/
theorem mmInit_fits (aligned : base % 8 = 0) (real : base ≠ null) (fits : base + maxHeap ≤ 2 ^ 32)
    (init : mmInit (memInit m base statics) = some (h, 0)) : Base base := by
  refine ⟨aligned, real, Nat.lt_of_le_of_ne fits fun top => ?_⟩
  have room : maxHeap = 20971520 := rfl
  -- The limit `base + MAX_HEAP` is zero as a word.
  have limit : (memInit m base statics).memMaxAddr = 0 := by
    show (base + maxHeap) % 2 ^ 32 = 0
    omega
  have words : toInt32 (6 * wsize) = 24 := by decide
  -- Every request for more passes that limit.
  have past : ofInt32 ((base : Int) + 24) > 0 := by
    unfold ofInt32
    omega
  have refused : memSbrk (memInit m base statics) 24 = (memInit m base statics, minusOne) :=
    if_pos (.inr (by rw [limit]; exact past))
  -- So `mm_init` does not return zero.
  rw [mmInit_refused (words ▸ refused)] at init
  obtain ⟨_, code⟩ := Prod.mk.inj (Option.some.inj init)
  omega

/--
After every run whose extensions do not wrap, `mm_malloc` keeps the break inside the area.

It does so exactly when the extension for this request does not wrap either.
-/
theorem mm_break_kept (aligned : base % 8 = 0) (real : base ≠ null) (fits : base + maxHeap ≤ 2 ^ 32)
    (init : mmInit (memInit m base statics) = some (h, 0))
    (run : Run mm NoWrap { heap := h, live := [] } cs rs w) (positive : 1 ≤ n) (small : n ≤ maxRequest) :
    BreakKept w.heap n ↔ NoWrap w.heap (.malloc n) := by
  have ok := mmInit_fits aligned real fits init
  obtain ⟨s, holds, _, inside⟩ := run_inside ok init run
  have stands := holds.rep
  have limit := (parts base).limit stands
  have brk : w.heap.memBrk = s.brk := stands.rep.brk
  have start := stands.start
  constructor
  · -- If the extension wrapped, the break would end up below the area.
    rintro ⟨h', r, done, low, _⟩
    by_contra wraps
    obtain ⟨start', escaped⟩ := mmMalloc_escapes stands inside (by omega) wraps done
    simp only at start' escaped
    omega
  · intro fine
    obtain ⟨h', r, done, outcome⟩ := mmMalloc_outcome stands positive small fine
    have low : w.heap.memStartBrk ≤ w.heap.memBrk := by
      have := (rep_tiles stands.rep).le
      omega
    have walk := (Skeleton.wellFormed rfl holds).walk
    refine ⟨h', r, done, ?_⟩
    -- Otherwise the call is served, grows the heap or is refused.
    cases outcome with
    | found fit _ start' limit' brk' =>
      refine ⟨by omega, by omega, .inl brk', fun rest walk' missed => ?_⟩
      -- There is only one walk through the heap.
      rw [start] at walk'
      obtain ⟨_, same⟩ := List.cons.inj (Trail.unique walk walk').1
      exact absurd (same ▸ fit) missed
    | grown missed room _ start' limit' brk' =>
      exact ⟨by omega, by omega, .inr brk', fun _ _ _ full => absurd room (by omega)⟩
    | full missed full refused same =>
      subst same
      exact ⟨low, by omega, .inl rfl, fun _ _ _ _ => refused⟩

/-- After the small run the condition decides about a request of 24 bytes. -/
theorem mm_break_kept_sample :
    ∃ h w, mmInit zeroed = some (h, 0) ∧
      Run mm NoWrap { heap := h, live := [] } sampleCalls [32, 48, 0, 80, 0, 96] w ∧
      (BreakKept w.heap 24 ↔ NoWrap w.heap (.malloc 24)) := by
  obtain ⟨h, w, init, run, _⟩ := sample_run
  exact ⟨h, w, init, run,
    mm_break_kept (by decide) (by decide) (by decide) init run (by decide) (by decide)⟩

/-- An area that ends eight bytes below the top of the address space. -/
def highest : State := memInit (fun _ => 0) (2 ^ 32 - maxHeap - 8) { heapListp := 0, freeListp := 0 }

/-- A request for a gigabyte wraps the break around, and it is served from below the area. -/
theorem mm_break_escapes : ∃ h h' r, mmInit highest = some (h, 0) ∧ mmMalloc h (2 ^ 30) = some (h', r) ∧
    r ≠ null ∧ h'.memBrk < h'.memStartBrk ∧ ¬ BreakKept h (2 ^ 30) := by
  have seen : ((mmInit highest).bind fun start => (mmMalloc start.1 (2 ^ 30)).map fun served =>
      (start.2, decide (served.2 ≠ null ∧ served.1.memBrk < served.1.memStartBrk))) = some (0, true) := by
    decide +kernel
  -- The two calls have been evaluated.
  obtain ⟨⟨h, code⟩, init, called⟩ := Option.bind_eq_some_iff.mp seen
  obtain ⟨⟨h', r⟩, done, same⟩ := Option.map_eq_some_iff.mp called
  obtain ⟨rfl, passed⟩ := Prod.mk.inj same
  obtain ⟨real, escaped⟩ := of_decide_eq_true passed
  refine ⟨h, h', r, init, done, real, escaped, ?_⟩
  rintro ⟨h'', r', done', low, _⟩
  rw [done] at done'
  obtain ⟨rfl, _⟩ := Prod.mk.inj (Option.some.inj done')
  exact absurd low (Nat.not_le.mpr escaped)

end MallocLab.Explicit
