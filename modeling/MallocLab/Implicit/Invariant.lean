import MallocLab.Implicit.Parts
import MallocLab.Skeleton.Delivery
import MallocLab.Skeleton.Reader

/-! Runs of `implicit.c` from `mm_init` on, and what a reader of the heap sees after every run. -/

namespace MallocLab.Implicit

variable {base : Nat} {m : Mem} {statics : Statics} {h : State} {w : World Statics} {r : Roving}
variable {cs : List Call} {rs : List Nat}

/-- The state after initialization: one free block, and a search that starts at the prologue. -/
def initial (base : Nat) : Roving := { shelves := Shelves.opened style (base + 16) 4096, last := base + 8 }

/-- What `mm_init` writes before it extends the heap. -/
def prepared (h : State) (p : Nat) : State :=
  Skeleton.framed { h with statics := { heapListp := add32 p (2 * wsize), lastFreep := add32 p (2 * wsize) } } p

/-- `mm_init` succeeds when both of its requests for space are granted. -/
theorem mmInit_eq {h h₁ h₂ : State} {p bp : Nat}
    (granted : memSbrk h (toInt32 (4 * wsize)) = (h₁, p)) (place : p ≠ minusOne)
    (extended : extendHeap (prepared h₁ p) (chunksize / wsize) = some (h₂, bp)) (real : bp ≠ null) :
    mmInit h = some (h₂, 0) := by
  unfold mmInit
  simp only [granted]
  exact (if_neg place).trans (bind_step extended (if_neg real))

/-- `mm_init` succeeds on every area, whatever it contains, and leaves one free block. -/
theorem mmInit_holds (ok : Base base) (m : Mem) (statics : Statics) :
    ∃ h, mmInit (memInit m base statics) = some (h, 0) ∧
      Holds (Tracks base) policy.blocks { heap := h, live := [] } (initial base) := by
  have real := ok.real
  have fits := ok.fits
  have room : maxHeap = 20971520 := rfl
  have area := ok.area m statics
  have second : add32 base (2 * wsize) = base + 8 := add32_eq (by unfold wsize; omega)
  -- `last_freep` starts at the prologue.
  let start : State := { memInit m base statics with
    memBrk := base + 16
    statics := { heapListp := add32 base (2 * wsize), lastFreep := add32 base (2 * wsize) } }
  have empty := Skeleton.framed_rep layout heads (h := start) ok ⟨area.limit, area.fits⟩ rfl
    rfl (fun _ => rfl) (fun _ => rfl) second
  have limit : start.memMaxAddr = base + maxHeap := area.limit
  have enough : base + 16 + 4096 ≤ start.memMaxAddr := by omega
  obtain ⟨h, grown, opened, stands, owned⟩ := scheme.opened empty (show _ = base from rfl) enough
  refine ⟨h, mmInit_eq (ok.granted m statics (by decide)) (by unfold minusOne; omega) grown opened,
    ⟨stands, ?_, Skeleton.prologue base, List.mem_cons_self, rfl⟩, owned⟩
  -- The first block has no free neighbour, so the search still starts at the prologue.
  exact (extend_last empty (by decide) (by decide) enough grown).trans second

/-- The entry points of `implicit.c` serve their clients by the steps of the abstract allocator. -/
theorem services (base : Nat) : Services mm NoWrap (Tracks base) policy.blocks
    fun r c r' p => policy.move (base + maxHeap) r c = (r', p) :=
  (parts base).services Skeleton.headerSize (Skeleton.mmMalloc_eq place extendHeap) rfl
    fun _ _ => by
      rw [← Skeleton.mmMalloc_eq place extendHeap]
      rfl

/-- Whatever `mm_init` returned, it left the state that stands for the initial abstract state. -/
theorem mmInit_tracks (ok : Base base) (init : mmInit (memInit m base statics) = some (h, 0)) :
    Holds (Tracks base) policy.blocks { heap := h, live := [] } (initial base) :=
  .started (mmInit_holds ok m statics) init

/--
In every reachable state the heap is tiled by tagged blocks, and `last_freep` is one of them.

The first of the blocks is the prologue, whose eight bytes are its two tags.
-/
theorem mm_lastFreep_invariant (ok : Base base) (init : mmInit (memInit m base statics) = some (h, 0))
    (run : Run mm NoWrap { heap := h, live := [] } cs rs w) :
    (∃ rest, WellFormed w.heap (base + 8) [base + 8] rest 16 ∧ getSize w.heap (hdrp (base + 8)) = 8 ∧
      w.heap.statics.lastFreep ∈ [base + 8] ++ rest ∧ w.heap.statics.lastFreep < w.heap.memBrk) ∧
      ∀ c, w.Legal c → NoWrap w.heap c → (w.call mm c).isSome = true := by
  obtain ⟨r, tracks, owned⟩ := (services base).run (mmInit_tracks ok init) run
  refine ⟨⟨r.shelves.blocks.map Blk.addr, ?_, ?_, ?_⟩, fun c legal fine => ?_⟩
  · exact Skeleton.wellFormed (w := w) rfl ⟨tracks.stands, owned⟩
  · exact (tracks.stands.reads (b := Skeleton.prologue base) (List.mem_append_left _ (List.mem_singleton.mpr rfl))).1
  · -- It is always the start of a block, so it is below the break.
    obtain ⟨b, member, here⟩ := tracks.starts
    have arena := tracks.stands.rep.arena
    have start := tracks.stands.start
    have shape : layout.fixed w.heap.memStartBrk = [Skeleton.prologue base] := start ▸ rfl
    rw [shape] at arena
    have upper := (arena.within member).upper
    have least := (arena.within member).least
    rw [tracks.last, ← here]
    refine ⟨?_, by omega⟩
    have listed := List.mem_map_of_mem (f := Blk.addr) member
    rwa [List.map_append] at listed
  · -- Every further legal call returns.
    obtain ⟨next, _, p, done, _⟩ := (services base).call ⟨tracks, owned⟩ legal fine
    rw [done]
    rfl

/-- A zeroed area for a small run; it starts at address eight. -/
def zeroed : State := memInit (fun _ => 0) 8 { heapListp := 0, lastFreep := 0 }

/-- The calls of the small run, in which `last_freep` moves. -/
def sampleCalls : List Call :=
  [.malloc 8, .malloc 20, .malloc 8, .store 73 7, .free 24, .malloc 30, .free 40, .realloc 72 5000]

/-- The small run takes place. -/
theorem sample_run : ∃ h w, mmInit zeroed = some (h, 0) ∧
    Run mm NoWrap { heap := h, live := [] } sampleCalls [24, 40, 72, 0, 0, 88, 0, 128] w := by
  obtain ⟨h, w, init, run, _⟩ := trial_run (show trial mm NoWrap (mmInit zeroed) sampleCalls
    (fun _ => true) = some (0, [24, 40, 72, 0, 0, 88, 0, 128], true) by decide +kernel)
  exact ⟨h, w, init, run⟩

/-- After the small run `last_freep` is a block. -/
theorem mm_lastFreep_invariant_sample :
    ∃ h w, mmInit zeroed = some (h, 0) ∧
      Run mm NoWrap { heap := h, live := [] } sampleCalls [24, 40, 72, 0, 0, 88, 0, 128] w ∧
      (∃ rest, WellFormed w.heap (8 + 8) [8 + 8] rest 16 ∧ getSize w.heap (hdrp (8 + 8)) = 8 ∧
        w.heap.statics.lastFreep ∈ [8 + 8] ++ rest ∧ w.heap.statics.lastFreep < w.heap.memBrk) ∧
      ∀ c, w.Legal c → NoWrap w.heap c → (w.call mm c).isSome = true := by
  obtain ⟨h, w, init, run⟩ := sample_run
  exact ⟨h, w, init, run, mm_lastFreep_invariant base_eight init run⟩

/-- A reallocation is the one that all files share, and it reads the header of the old block. -/
theorem mmRealloc_eq {p n : Nat} : mm.mmRealloc h p n = Skeleton.mmRealloc
    (Skeleton.mallocOf adjustedSize findFit (Skeleton.placed place) (Skeleton.extended extendHeap)) Skeleton.headerSize
    mmFree h p n := by
  rw [← Skeleton.mmMalloc_eq place extendHeap]
  rfl

/--
Every run of `implicit.c` returns what the next-fit allocator returns, whatever the area contains.

After it every further action serves the client, and a reallocation moves the contents of its block.
-/
theorem mm_refines_nextFit (ok : Base base) (init : mmInit (memInit m base statics) = some (h, 0))
    (run : Run mm NoWrap { heap := h, live := [] } cs rs w) :
    (play (policy.move (base + maxHeap)) (initial base) cs).2 = rs ∧ ∀ c, w.Legal c → NoWrap w.heap c →
      ∃ next r, w.call mm c = some (next, r) ∧ Skeleton.Delivers w c next r := by
  -- The header of a used block has its size, so at least the payload is copied.
  refine (parts base).run_delivers (services base) mmRealloc_eq (fun tracks occupied => ?_) (mmInit_tracks ok init) run
  rw [tracks.stands.headerSize_eq occupied]
  omega

/-- The abstract allocator returns the results of the small run. -/
theorem mm_refines_nextFit_sample :
    ∃ h w, mmInit zeroed = some (h, 0) ∧
      Run mm NoWrap { heap := h, live := [] } sampleCalls [24, 40, 72, 0, 0, 88, 0, 128] w ∧
      (play (policy.move (8 + maxHeap)) (initial 8) sampleCalls).2 = [24, 40, 72, 0, 0, 88, 0, 128] ∧
      ∀ c, w.Legal c → NoWrap w.heap c → ∃ next r, w.call mm c = some (next, r) ∧ Skeleton.Delivers w c next r := by
  obtain ⟨h, w, init, run⟩ := sample_run
  exact ⟨h, w, init, run, mm_refines_nextFit base_eight init run⟩

end MallocLab.Implicit
