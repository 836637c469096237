import MallocLab.BestFit.Runs

/-! When the search of `bestfit.c` finds a best fit. -/

namespace MallocLab.BestFit

open Skeleton (Fits read_free)

variable {base a p : Nat} {m : Mem} {statics : Statics} {h : State} {w : World Statics} {s : Shelves}
variable {cs : List Call} {rs : List Nat}

/-- Among these blocks, the one at `p` is free and large enough, and no smaller one is. -/
structure Best (h : State) (all : List Nat) (asize p : Nat) : Prop where
  member : p ∈ all
  fits : Fits h asize p
  least : ∀ q ∈ all, Fits h asize q → getSize h (hdrp p) ≤ getSize h (hdrp q)

/-- The search returns null exactly when no block fits, and otherwise a best fit. -/
def FindsBest (h : State) (all : List Nat) (asize : Nat) : Prop :=
  ∃ p, findFit h asize = some (h, p) ∧ (p = null ↔ ∀ q ∈ all, ¬ Fits h asize q) ∧
    (p ≠ null → Best h all asize p)

/-- No block that fits is smaller than the first of these blocks that fits. -/
def LowestIsBest (h : State) (all : List Nat) (asize : Nat) : Prop :=
  ∀ before p after, all = before ++ p :: after → Fits h asize p → (∀ q ∈ before, ¬ Fits h asize q) →
    ∀ q ∈ all, Fits h asize q → getSize h (hdrp p) ≤ getSize h (hdrp q)

/-- The test of the abstract search is that of the headers. -/
theorem fits_iff {b : Blk} (stands : Stands base h s) (member : b ∈ s.blocks) :
    Fits h a b.addr ↔ Implicit.suits a b = true := by
  obtain ⟨size, alloc, _, _⟩ := stands.reads (List.mem_append_right _ member)
  unfold Fits
  rw [size, alloc, ← Implicit.suits_iff, not_not]

/-- The search finds the first of the blocks that fits, so it finds a best fit exactly when that one is. -/
theorem findsBest_iff (stands : Stands base h s) (a : Nat) :
    FindsBest h (s.blocks.map Blk.addr) a ↔ LowestIsBest h (s.blocks.map Blk.addr) a := by
  have done := findFit_result stands a
  unfold lowest at done
  cases found : s.blocks.find? (Implicit.suits a) with
  | none =>
    -- Nothing fits, and the code returns null.
    have nothing : ∀ q ∈ s.blocks.map Blk.addr, ¬ Fits h a q := List.forall_mem_map.mpr fun b block fits =>
      List.find?_eq_none.mp found b block ((fits_iff stands block).mp fits)
    rw [found] at done
    refine iff_of_true ⟨null, done, iff_of_true rfl nothing, fun real => absurd rfl real⟩ ?_
    intro before p after split fits
    exact absurd fits (nothing p (by simp [split]))
  -- The search returns the lowest block that fits.
  | some b =>
    obtain ⟨suit, passed, later, split, missed⟩ := List.find?_eq_some_iff_append.mp found
    have block : b ∈ s.blocks := List.mem_of_find?_eq_some found
    have fits := (fits_iff stands block).mpr suit
    have listed := List.mem_map_of_mem (f := Blk.addr) block
    have real : b.addr ≠ null := stands.real (List.mem_append_right _ block)
    -- The blocks in front of it do not fit.
    have addrs : s.blocks.map Blk.addr = passed.map Blk.addr ++ b.addr :: later.map Blk.addr := by
      rw [split, List.map_append, List.map_cons]
    have unfit : ∀ q ∈ passed.map Blk.addr, ¬ Fits h a q := List.forall_mem_map.mpr fun c inside fits' => by
      have suit' := (fits_iff stands (split ▸ List.mem_append_left _ inside)).mp fits'
      have missed' := missed c inside
      rw [suit'] at missed'
      exact absurd missed' (by decide)
    rw [found] at done
    constructor
    · rintro ⟨p, done', _, best⟩ before q after split' fits' unfit'
      obtain ⟨_, rfl⟩ := Prod.mk.inj (Option.some.inj (done.symm.trans done'))
      -- The first block that fits is the one that the search found.
      have same : q = b.addr := by
        rw [addrs] at split'
        rcases List.append_eq_append_iff.mp split' with ⟨mid, rfl, rest⟩ | ⟨mid, shape, rest⟩
        · cases mid with
          | nil => exact (List.cons.inj rest).1.symm
          | cons c mid =>
            obtain ⟨rfl, _⟩ := List.cons.inj rest
            exact absurd fits (unfit' b.addr (by simp))
        · cases mid with
          | nil => exact (List.cons.inj rest).1
          | cons c mid =>
            obtain ⟨rfl, _⟩ := List.cons.inj rest
            exact absurd fits' (unfit q (by simp [shape]))
      rw [same]
      -- It is the block that is returned, which is a smallest one.
      exact (best real).least
    · -- The lowest block is a smallest one, so the search returns the right block.
      intro best
      refine ⟨b.addr, done, iff_of_false real fun nothing => nothing b.addr listed fits, fun _ => ⟨listed, fits, ?_⟩⟩
      exact best _ _ _ addrs fits unfit

/--
In every reachable state, the search finds a best fit exactly when no block that fits is smaller than the lowest one.

The test for an exact fit is an assignment that always holds, so the search stops at the lowest block that fits.
-/
theorem mm_best_fit (ok : Base base) (init : mmInit (memInit m base statics) = some (h, 0))
    (run : Run mm NoWrap { heap := h, live := [] } cs rs w) :
    ∃ rest, WellFormed w.heap (base + 8) [base + 8] rest 16 ∧
      ∀ asize, FindsBest w.heap rest asize ↔ LowestIsBest w.heap rest asize := by
  obtain ⟨s, stands, owned⟩ := (services base).run (mmInit_stands ok init) run
  exact ⟨_, Skeleton.wellFormed (w := w) rfl ⟨stands, owned⟩, fun asize => findsBest_iff stands asize⟩

/-- A zeroed area for a small run; it starts at address eight. -/
def zeroed : State := memInit (fun _ => 0) 8 { heapListp := 0 }

/-- A run that leaves two free blocks for sixteen bytes before the last one, the larger of them first. -/
def sampleCalls : List Call :=
  [.malloc 100, .malloc 8, .malloc 20, .malloc 8, .free 24, .free 152]

/-- The small run takes place. -/
theorem sample_run : ∃ h w, mmInit zeroed = some (h, 0) ∧
    Run mm NoWrap { heap := h, live := [] } sampleCalls [24, 136, 152, 184, 0, 0] w := by
  obtain ⟨h, w, init, run, _⟩ := trial_run (show trial mm NoWrap (mmInit zeroed) sampleCalls
    (fun _ => true) = some (0, [24, 136, 152, 184, 0, 0], true) by decide +kernel)
  exact ⟨h, w, init, run⟩

/-- After the small run the search finds a best fit for exactly the requests that meet the condition. -/
theorem mm_best_fit_sample :
    ∃ h w, mmInit zeroed = some (h, 0) ∧
      Run mm NoWrap { heap := h, live := [] } sampleCalls [24, 136, 152, 184, 0, 0] w ∧
      ∃ rest, WellFormed w.heap (8 + 8) [8 + 8] rest 16 ∧
        ∀ asize, FindsBest w.heap rest asize ↔ LowestIsBest w.heap rest asize := by
  obtain ⟨h, w, init, run⟩ := sample_run
  exact ⟨h, w, init, run, mm_best_fit base_eight init run⟩

/-- In this run the search for sixteen bytes returns a block of 112 bytes, although one of 32 bytes is free. -/
theorem mm_best_fit_fails :
    ∃ h w, mmInit zeroed = some (h, 0) ∧
      Run mm NoWrap { heap := h, live := [] } sampleCalls [24, 136, 152, 184, 0, 0] w ∧
      HeapWalk w.heap (8 + 8) [16, 24, 136, 152, 184, 200] w.heap.memBrk ∧
      ¬ FindsBest w.heap [24, 136, 152, 184, 200] (adjustedSize 8) := by
  obtain ⟨h, w, init, run, passed⟩ := trial_run (show trial mm NoWrap (mmInit zeroed) sampleCalls
    (fun w => decide ((findFit w.heap (adjustedSize 8)).map Prod.snd = some 24 ∧ Fits w.heap (adjustedSize 8) 152 ∧
      getSize w.heap (hdrp 152) < getSize w.heap (hdrp 24)) &&
      decide ([16, 24, 136, 152, 184, 200].map (nextBlkp w.heap) = [24, 136, 152, 184, 200, w.heap.memBrk] ∧
        (∀ p ∈ ([16, 24, 136, 152, 184, 200] : List Nat), getSize w.heap (hdrp p) ≠ 0) ∧
        getSize w.heap (hdrp w.heap.memBrk) = 0)) = some (0, [24, 136, 152, 184, 0, 0], true) by decide +kernel)
  -- The search and the layout are evaluated.
  obtain ⟨search, walk⟩ := Bool.and_eq_true_iff.mp passed
  obtain ⟨found, fits, smaller⟩ := of_decide_eq_true search
  obtain ⟨next, sizes, last⟩ := of_decide_eq_true walk
  refine ⟨h, w, init, run, HeapWalk.of_next next sizes last, ?_⟩
  rintro ⟨p, done, _, best⟩
  rw [done] at found
  obtain rfl := Option.some.inj found
  -- The block at 152 is smaller, and it fits.
  have least := (best (by decide)).least 152 (by decide) fits
  exact absurd smaller (Nat.not_lt.mpr least)

end MallocLab.BestFit
