import MallocLab.BestFit.Search
import MallocLab.Client.Lockstep
import MallocLab.Skeleton.Delivery

/-! `bestfit.c` beside `implicit.c` as it is compiled without `NEXT_FIT`. -/

namespace MallocLab.BestFit

namespace First

/-! Without `NEXT_FIT` the only static variable of `implicit.c` is `heap_listp`, as in `bestfit.c`. -/

/-- Joins a free block with its free neighbours. -/
def coalesce : State → Nat → Option (State × Nat) := Skeleton.bareCoalesce fun h _ => h

/-- Extends the heap by a number of words and returns the free block at its end. -/
def extendHeap : State → Nat → Option (State × Nat) := Skeleton.extendHeap coalesce

/-- One turn of the search. -/
def findTurn (h : State) (asize bp : Nat) : Nat ⊕ Nat :=
  if getSize h (hdrp bp) > 0 then
    if ¬ getAlloc h (hdrp bp) ≠ 0 ∧ asize ≤ getSize h (hdrp bp) then .inr bp
    else .inl (nextBlkp h bp)
  else .inr null

/-- Searches the heap from its prologue on; null when nothing fits. -/
def findFit (h : State) (asize : Nat) : Option (State × Nat) :=
  (loop (findTurn h asize) pointerTurns h.statics.heapListp).map fun bp => (h, bp)

/-- Allocates from a free block, splitting it when the rest can be a block, which is then coalesced. -/
def place : State → Nat → Nat → Option State :=
  Skeleton.place (fun h _ => some h) fun h bp => (coalesce h bp).map Prod.fst

/-- The block size for a request. -/
def adjustedSize (size : Nat) : Nat :=
  if size ≤ dsize then 2 * dsize else mul32 dsize (add32 (add32 size dsize) (dsize - 1) / dsize)

/-- Creates the prologue, the epilogue and the first free block. -/
def mmInit (h : State) : Option (State × Int) := do
  let (h, p) := memSbrk h (toInt32 (4 * wsize))
  let h := { h with statics := { heapListp := p } }
  if p = minusOne then return (h, -1)
  let h := h.put p 0
  let h := h.put (add32 p (1 * wsize)) (pack dsize 1)
  let h := h.put (add32 p (2 * wsize)) (pack dsize 1)
  let h := h.put (add32 p (3 * wsize)) (pack 0 1)
  let h := { h with statics := { heapListp := add32 p (2 * wsize) } }
  let (h, bp) ← extendHeap h (chunksize / wsize)
  if bp = null then return (h, -1)
  return (h, 0)

/-- Returns a payload of at least `size` bytes, or null. -/
def mmMalloc : State → Nat → Option (State × Nat) := Skeleton.mmMalloc adjustedSize findFit place extendHeap

/-- Frees a block. -/
def mmFree : State → Nat → Option State := Skeleton.mmFree coalesce

/-- Moves a block into a new one of the requested size. -/
def mmRealloc : State → Nat → Nat → Option (State × Nat) :=
  Skeleton.mmRealloc mmMalloc Skeleton.headerSize mmFree

/-- `implicit.c` without `NEXT_FIT` as its client sees it. -/
def mm : Allocator Statics where
  mmMalloc := mmMalloc
  mmFree := mmFree
  mmRealloc := mmRealloc

/-- No address wraps during the call. -/
abbrev NoWrap : State → Call → Prop := Skeleton.NoWrap adjustedSize findFit

end First

variable {base : Nat} {m : Mem} {statics : Statics} {h : State} {w next : World Statics} {s : Shelves} {c : Call}
variable {cs : List Call} {rs : List Nat} {r : Nat}

/-- Between calls both searches return the first block that fits. -/
theorem findFit_first (stands : Stands base h s) : First.findFit h = findFit h := by
  funext a
  have first : h.statics.heapListp = base + 8 := stands.rep.heads.trans (congrArg (· + 8) stands.start)
  have start : h.statics.heapListp = (([Skeleton.prologue base] ++ s.blocks).map Blk.addr).headD h.memBrk := first
  have enough : ([Skeleton.prologue base] ++ s.blocks).length < pointerTurns :=
    (stands.short (List.nil_append _).symm).2
  -- The search walks over the blocks, and the epilogue stops it.
  have walk : loop (First.findTurn h a) pointerTurns h.statics.heapListp = some
      ((([Skeleton.prologue base] ++ s.blocks).findSome?
        (Option.map Blk.addr ∘ Option.guard fun b => Implicit.suits a b)).getD null) := by
    rw [start]
    refine loop_walk (fun rest : List Blk => (rest.map Blk.addr).headD h.memBrk) enough ?_ ?_
    · intro before b after split
      have member : b ∈ [Skeleton.prologue base] ++ s.blocks := by simp [split]
      obtain ⟨size, alloc, onward, positive⟩ := stands.reads member
      simp only [First.findTurn, List.map_cons, List.headD_cons, size, alloc, onward, stands.onward split]
      rw [if_pos (Nat.pos_of_ne_zero positive)]
      -- A free block that is large enough is returned.
      by_cases fine : Implicit.suits a b = true
      · rw [if_pos (Implicit.suits_iff.mpr fine)]
        simp [Option.guard, fine]
      · rw [if_neg fun on => fine (Implicit.suits_iff.mp on)]
        simp [Option.guard, fine]
    · -- The last header has size zero.
      have last : getSize h (hdrp h.memBrk) = 0 := stands.rep.arena.last
      simp [First.findTurn, last]
  rw [findFit_result stands a]
  unfold First.findFit lowest
  rw [walk, Implicit.findSome?_guard, List.singleton_append,
    List.find?_cons_of_neg (by simp [Implicit.suits, Skeleton.prologue])]
  rfl

/-- So both files serve a request alike. -/
theorem mmMalloc_first (stands : Stands base h s) (n : Nat) : First.mmMalloc h n = mmMalloc h n := by
  have search := findFit_first stands
  unfold First.mmMalloc mmMalloc Skeleton.mmMalloc
  rw [search]
  rfl

/-- Both files start alike, since they do not search the heap for that. -/
theorem mmInit_first (h : State) : First.mmInit h = mmInit h := by
  have extends_ : First.extendHeap = extendHeap := rfl
  unfold First.mmInit mmInit
  rw [extends_]

/-- Every action is the same in both files, and so is what it must not wrap. -/
theorem call_first (stands : Stands base w.heap s) (c : Call) :
    w.call First.mm c = w.call mm c ∧ (First.NoWrap w.heap c ↔ NoWrap w.heap c) := by
  have search := findFit_first stands
  have fits : ∀ n, Skeleton.RequestFits First.adjustedSize First.findFit w.heap n ↔
      Skeleton.RequestFits adjustedSize findFit w.heap n := by
    intro n
    unfold Skeleton.RequestFits
    rw [search]
    rfl
  -- Only the actions that search the heap could differ.
  cases c with
  | malloc n =>
    have served : First.mm.mmMalloc w.heap n = mm.mmMalloc w.heap n := mmMalloc_first stands n
    refine ⟨?_, fits n⟩
    simp only [World.call, served]
  | free p => exact ⟨rfl, Iff.rfl⟩
  | realloc p n =>
    -- A reallocation differs in its request at most, and the request is served alike.
    have moved : First.mm.mmRealloc w.heap p n = mm.mmRealloc w.heap p n := by
      show Skeleton.mmRealloc First.mmMalloc Skeleton.headerSize First.mmFree w.heap p n =
        Skeleton.mmRealloc mmMalloc Skeleton.headerSize mmFree w.heap p n
      unfold Skeleton.mmRealloc Skeleton.reallocBy
      rw [mmMalloc_first stands n]
      rfl
    refine ⟨?_, fits n⟩
    simp only [World.call, moved]
  | store addr byte => exact ⟨rfl, Iff.rfl⟩

/-- A reallocation is the one that all files share, and it reads the header of the old block. -/
theorem mmRealloc_eq {p n : Nat} : mm.mmRealloc h p n = Skeleton.mmRealloc
    (Skeleton.mallocOf adjustedSize findFit (Skeleton.placed place) (Skeleton.extended extendHeap)) Skeleton.headerSize
    mmFree h p n := by
  rw [← Skeleton.mmMalloc_eq place extendHeap]
  rfl

/--
Every run of `bestfit.c` returns what a first-fit allocator returns, whatever the area contains.

After it every further action serves the client, and a reallocation moves the contents of its block.
-/
theorem mm_refines_firstFit (ok : Base base) (init : mmInit (memInit m base statics) = some (h, 0))
    (run : Run mm NoWrap { heap := h, live := [] } cs rs w) :
    (play (policy.move (base + maxHeap)) (initial base) cs).2 = rs ∧ ∀ c, w.Legal c → NoWrap w.heap c →
      ∃ next r, w.call mm c = some (next, r) ∧ Skeleton.Delivers w c next r := by
  -- The header of a used block has its size, so at least the payload is copied.
  refine (parts base).run_delivers (services base) mmRealloc_eq (fun stands occupied => ?_) (mmInit_stands ok init) run
  rw [stands.headerSize_eq occupied]
  omega

/-- The abstract allocator returns the results of the small run. -/
theorem mm_refines_firstFit_sample :
    ∃ h w, mmInit zeroed = some (h, 0) ∧
      Run mm NoWrap { heap := h, live := [] } sampleCalls [24, 136, 152, 184, 0, 0] w ∧
      (play (policy.move (8 + maxHeap)) (initial 8) sampleCalls).2 = [24, 136, 152, 184, 0, 0] ∧
      ∀ c, w.Legal c → NoWrap w.heap c → ∃ next r, w.call mm c = some (next, r) ∧ Skeleton.Delivers w c next r := by
  obtain ⟨h, w, init, run⟩ := sample_run
  exact ⟨h, w, init, run, mm_refines_firstFit base_eight init run⟩

/--
`bestfit.c` is `implicit.c` without `NEXT_FIT`: both have the same runs from the same initial state.

A run has the same calls, results and memory in both, so the search for a best fit never makes a difference.
-/
theorem mm_is_firstFit (ok : Base base) (m : Mem) (statics : Statics) :
    ∃ h, mmInit (memInit m base statics) = some (h, 0) ∧ First.mmInit (memInit m base statics) = some (h, 0) ∧
      ∀ cs rs w, Run mm NoWrap { heap := h, live := [] } cs rs w ↔
        Run First.mm First.NoWrap { heap := h, live := [] } cs rs w := by
  obtain ⟨h, init, holds⟩ := mmInit_holds ok m statics
  -- A run of one file keeps the invariant under which the other one does the same.
  refine ⟨h, init, (mmInit_first _).trans init, fun cs rs w => ⟨fun run => ?_, fun run => ?_⟩⟩
  · refine run.transfer (I := fun w => ∃ s, Holds (Stands base) Shelves.blocks w s) ⟨_, holds⟩ ?_ ?_
    · rintro w c ⟨s, holds⟩ fine
      obtain ⟨same, fits⟩ := call_first holds.rep c
      exact ⟨same, fits.mpr fine⟩
    · rintro w c next r ⟨s, holds⟩ legal fine returned
      exact (services base).run holds (.cons legal fine returned (.nil next))
  · refine run.transfer (I := fun w => ∃ s, Holds (Stands base) Shelves.blocks w s) ⟨_, holds⟩ ?_ ?_
    · rintro w c ⟨s, holds⟩ fine
      obtain ⟨same, fits⟩ := call_first holds.rep c
      exact ⟨same.symm, fits.mp fine⟩
    · -- The other file keeps the invariant because it does the same.
      rintro w c next r ⟨s, holds⟩ legal fine returned
      obtain ⟨same, fits⟩ := call_first holds.rep c
      exact (services base).run holds (.cons legal (fits.mp fine) (same.symm.trans returned) (.nil next))

/-- Over a zeroed area both files have the same runs. -/
theorem mm_is_firstFit_sample :
    ∃ h, mmInit zeroed = some (h, 0) ∧ First.mmInit zeroed = some (h, 0) ∧
      ∀ cs rs w, Run mm NoWrap { heap := h, live := [] } cs rs w ↔
        Run First.mm First.NoWrap { heap := h, live := [] } cs rs w :=
  mm_is_firstFit base_eight (fun _ => 0) { heapListp := 0 }

end MallocLab.BestFit
