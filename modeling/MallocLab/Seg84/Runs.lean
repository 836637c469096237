import MallocLab.Seg84.Parts

/-! Runs of `segreted(84).c` from `mm_init` on, beside the runs of the abstract allocator. -/

namespace MallocLab.Seg84

open Segregated

/-- Between calls the machine over the area at `base` represents a state of the abstract allocator. -/
abbrev Stands (base : Nat) : State → Shelves → Prop := Skeleton.Stands layout heads base

/-- The state after initialization over an area that starts at `base`: one free block on its shelf. -/
def initial (base : Nat) : Shelves := Shelves.opened style (base + 16) 4096

variable {base : Nat} {m : Mem} {statics : Nat → Nat}

/-- `mm_init` succeeds when both of its requests for space are granted. -/
theorem mmInit_eq {h h₁ h₂ : State} {p bp : Nat}
    (granted : memSbrk (emptyLists h) (toInt32 (4 * wsize)) = (h₁, p)) (place : p ≠ minusOne)
    (extended : extendHeap (Skeleton.framed h₁ p) (chunksize / wsize) = some (h₂, bp)) (real : bp ≠ null) :
    mmInit h = some (h₂, 0) := by
  unfold mmInit
  simp only [granted]
  exact (if_neg place).trans (bind_step extended (if_neg real))

/-- `mm_init` succeeds on every area, whatever it contains, and leaves one free block. -/
theorem mmInit_holds (ok : Base base) (m : Mem) (statics : Nat → Nat) :
    ∃ h, mmInit (memInit m base statics) = some (h, 0) ∧
      Holds (Stands base) Shelves.blocks { heap := h, live := [] } (initial base) := by
  have real := ok.real
  have fits := ok.fits
  have room : maxHeap = 20971520 := rfl
  -- The loop has emptied the lists before anything is asked of the heap.
  let start := emptyLists (memInit m base statics)
  have area := ok.area m start.statics
  have empty := Skeleton.framed_rep layout heads
    (h := { start with memBrk := base + 16 }) ok ⟨area.limit, area.fits⟩ rfl rfl
    (fun _ => rfl) (fun _ => rfl) (fun k below => if_pos below)
  -- The words of the prologue and the first extension go through.
  obtain ⟨h, grown, opened, holds⟩ := scheme.opened empty (show _ = base from rfl) (by
    have limit : start.memMaxAddr = base + maxHeap := area.limit
    show base + 16 + 4096 ≤ start.memMaxAddr
    omega)
  exact ⟨h, mmInit_eq (ok.granted m start.statics (by decide)) (by unfold minusOne; omega) grown opened,
    holds⟩

/-- The entry points of `segreted(84).c` serve their clients by the steps of the abstract allocator. -/
theorem services (base : Nat) : Services mm NoWrap (Stands base) Shelves.blocks
    fun s c s' r => policy.move (base + maxHeap) s c = (s', r) :=
  (parts base).services Skeleton.headerSize (Skeleton.mmMalloc_eq place extendHeap) rfl
    fun _ _ => by
      rw [← Skeleton.mmMalloc_eq place extendHeap]
      rfl

/-- Whatever `mm_init` returned, it left the state that stands for the initial abstract state. -/
theorem mmInit_stands {h : State} (ok : Base base) (init : mmInit (memInit m base statics) = some (h, 0)) :
    Holds (Stands base) Shelves.blocks { heap := h, live := [] } (initial base) :=
  .started (mmInit_holds ok m statics) init

end MallocLab.Seg84
