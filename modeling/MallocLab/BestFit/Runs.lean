import MallocLab.BestFit.Mm
import MallocLab.Implicit.Parts

/-! Runs of `bestfit.c`: its search stops at the first block that fits, as that of `implicit.c` without next fit. -/

namespace MallocLab.BestFit

open Implicit (layout suits suits_iff style blockSize shelfless findSome?_guard)

/-- The heap is searched from its prologue on. -/
def heads (h : State) (_ : Nat → List Nat) : Prop := h.statics.heapListp = h.memStartBrk + 8

/-- Stores into the blocks leave the statics alone. -/
theorem heads_stable : Stable layout heads :=
  stable_statics fun (statics : Statics) start _ => statics.heapListp = start + 8

/-- Between calls the machine over the area at `base` represents a state of the abstract allocator. -/
abbrev Stands (base : Nat) : State → Shelves → Prop := Skeleton.Stands layout heads base

/-- The lowest block that suits. -/
def lowest (s : Shelves) (a : Nat) : Option Nat := (s.blocks.find? (suits a)).map Blk.addr

/-- The abstract allocator that `bestfit.c` refines. -/
def policy : Skeleton.Policy Shelves := Skeleton.shelved style blockSize lowest

variable {base a n p : Nat} {h : State} {s : Shelves}

/-- There are no lists, so nothing has to be kept in order. -/
theorem keeper : Keeper layout heads (fun h _ => some h) fun h _ _ => some h := Skeleton.idle shelfless heads_stable

/-- The turns of `coalesce` mark the merged block. -/
theorem turns : Turns layout coalesce (fun h _ => some h) (fun h _ _ => some h) fun h _ _ => some h :=
  Skeleton.bareTurns layout (by decide) fun h _ => h

/-- The parts of the file, with nothing to do for any list. -/
theorem scheme : Skeleton.Scheme layout heads coalesce (fun h _ => some h) place (fun h _ _ => some h)
    fun h _ _ => some h where
  keeper := keeper
  single := keeper
  turns := turns
  places := Skeleton.place_rep keeper (Skeleton.settles_coalesce keeper turns) rfl rfl (fun _ => rfl) fun _ => rfl
  tight := rfl
  small := by decide
  closed := rfl

/-- The search at the first of some blocks, when nothing has fitted before them. -/
def searching (h : State) (a : Nat) (rest : List Blk) : Search where
  asize := a
  bp := (rest.map Blk.addr).headD h.memBrk
  min := sizeMax
  findBp := null

/-- The search goes on until a block fits, and it stops there, whatever it has set out to remember. -/
theorem findFit_result (stands : Stands base h s) (a : Nat) : findFit h a = some (h, (lowest s a).getD null) := by
  have first : h.statics.heapListp = base + 8 := stands.rep.heads.trans (congrArg (· + 8) stands.start)
  have walk : loop (findTurn h) pointerTurns
      { asize := a, bp := h.statics.heapListp, min := sizeMax, findBp := null } =
      some ((([Skeleton.prologue base] ++ s.blocks).findSome?
        (Option.map Blk.addr ∘ Option.guard fun b => suits a b)).getD null) := by
    rw [first]
    show loop (findTurn h) pointerTurns (searching h a ([Skeleton.prologue base] ++ s.blocks)) = _
    have enough : ([Skeleton.prologue base] ++ s.blocks).length < pointerTurns := (stands.short (List.nil_append _).symm).2
    refine loop_walk (searching h a) enough ?_ ?_
    · -- Each turn of the loop looks at one block.
      intro before b after split
      have member : b ∈ [Skeleton.prologue base] ++ s.blocks := by simp [split]
      obtain ⟨size, alloc, next, positive⟩ := stands.reads member
      simp only [searching, findTurn, List.map_cons, List.headD_cons, size, alloc, next, stands.onward split]
      rw [if_pos (Nat.pos_of_ne_zero positive)]
      by_cases fine : suits a b = true
      · -- The assignment makes the test for an exact fit succeed.
        rw [if_pos (suits_iff.mpr fine), if_pos positive]
        simp [Option.guard, fine]
      · -- Every other block is passed.
        rw [if_neg fun on => fine (suits_iff.mp on)]
        simp [Option.guard, fine]
    · -- The header at the end stops the loop.
      have last : getSize h (hdrp h.memBrk) = 0 := stands.rep.arena.last
      simp [searching, findTurn, last]
  unfold findFit lowest
  rw [walk, findSome?_guard, List.singleton_append, List.find?_cons_of_neg (by simp [suits, Skeleton.prologue])]
  rfl

/-- The functions of `bestfit.c` are the parts of its abstract allocator. -/
theorem parts (base : Nat) : Skeleton.Parts policy base (Stands base) adjustedSize findFit
    (Skeleton.placed place) (Skeleton.extended extendHeap) mmFree :=
  scheme.parts Implicit.adjustedSize_eq (fun fits _ => fits.least) (fun stands _ => findFit_result stands _) (by
    intro h s n a p _ _ found
    obtain ⟨b, here, rfl⟩ := Option.map_eq_some_iff.mp found
    have suit := List.find?_some here
    obtain ⟨free, large⟩ : b.used = false ∧ a ≤ b.size := by simpa [suits] using suit
    exact ⟨b, List.mem_of_find?_eq_some here, rfl, free, large⟩)

/-- The state after initialization over an area that starts at `base`: one free block. -/
def initial (base : Nat) : Shelves := Shelves.opened style (base + 16) 4096

variable {m : Mem} {statics : Statics}

/-- What `mm_init` writes before it extends the heap. -/
def prepared (h : State) (p : Nat) : State := Skeleton.framed { h with statics := { heapListp := add32 p (2 * wsize) } } p

/-- `mm_init` succeeds when both of its requests for space are granted. -/
theorem mmInit_eq {h h₁ h₂ : State} {p bp : Nat}
    (granted : memSbrk h (toInt32 (4 * wsize)) = (h₁, p)) (place : p ≠ minusOne)
    (extended : extendHeap (prepared h₁ p) (chunksize / wsize) = some (h₂, bp)) (real : bp ≠ null) :
    mmInit h = some (h₂, 0) := by
  unfold mmInit
  simp only [granted]
  exact (if_neg place).trans (bind_step extended (if_neg real))

/-- `mm_init` succeeds on every area, whatever it contains, and leaves one free block. -/
theorem mmInit_holds (ok : Base base) (m : Mem) (statics : Statics) :
    ∃ h, mmInit (memInit m base statics) = some (h, 0) ∧
      Holds (Stands base) Shelves.blocks { heap := h, live := [] } (initial base) := by
  have real := ok.real
  have fits := ok.fits
  have room : maxHeap = 20971520 := rfl
  have area := ok.area m statics
  have second : add32 base (2 * wsize) = base + 8 := add32_eq (by unfold wsize; omega)
  -- The state after the words of the prologue have been stored.
  let start : State := { memInit m base statics with
    memBrk := base + 16
    statics := { heapListp := add32 base (2 * wsize) } }
  have empty := Skeleton.framed_rep layout heads (h := start) ok ⟨area.limit, area.fits⟩ rfl
    rfl (fun _ => rfl) (fun _ => rfl) second
  have limit : start.memMaxAddr = base + maxHeap := area.limit
  obtain ⟨h, grown, opened, holds⟩ := scheme.opened empty (show _ = base from rfl)
    (show base + 16 + 4096 ≤ start.memMaxAddr by omega)
  exact ⟨h, mmInit_eq (ok.granted m statics (by decide)) (by unfold minusOne; omega) grown opened, holds⟩

/-- The entry points of `bestfit.c` serve their clients by the steps of the abstract allocator. -/
theorem services (base : Nat) : Services mm NoWrap (Stands base) Shelves.blocks
    fun s c s' r => policy.move (base + maxHeap) s c = (s', r) :=
  (parts base).services Skeleton.headerSize (Skeleton.mmMalloc_eq place extendHeap) rfl
    fun _ _ => by
      rw [← Skeleton.mmMalloc_eq place extendHeap]
      rfl

/-- Whatever `mm_init` returned, it left the state that stands for the initial abstract state. -/
theorem mmInit_stands (ok : Base base) (init : mmInit (memInit m base statics) = some (h, 0)) :
    Holds (Stands base) Shelves.blocks { heap := h, live := [] } (initial base) :=
  .started (mmInit_holds ok m statics) init

end MallocLab.BestFit
