import MallocLab.Seg84.Runs
import MallocLab.Skeleton.Delivery
import MallocLab.Skeleton.Reader

/-! What a reader of the heap and the lists of `segreted(84).c` sees after every run. -/

namespace MallocLab.Seg84

open Segregated

variable {base : Nat} {m : Mem} {statics : Nat → Nat} {h : State} {w : World (Nat → Nat)} {s : Shelves}
variable {cs : List Call} {rs : List Nat}

/-- The lists of a state, over the blocks after the prologue. -/
abbrev Lists (h : State) (rest : List Nat) : (Nat → List Nat) → Prop :=
  Skeleton.ListsSound (fun p => h.get (succFree p)) (fun p => h.get (predFree p)) h.statics (fun _ => null)
    listLimit (fun p => p ∈ rest ∧ getAlloc h (hdrp p) = 0)
    fun p => min (Nat.log2 (getSize h (hdrp p))) 19

/-- The lists in memory are the abstract shelves. -/
theorem stands_lists (stands : Stands base h s) : Lists h (s.blocks.map Blk.addr) s.lists := by
  refine Skeleton.listsSound stands.rep stands.filed (fun _ => rfl) (fun _ => rfl) (fun _ => rfl) ?_
    stands.rep.heads fun _ => rfl
  intro b block free
  obtain ⟨_, next, prev⟩ := entries_eq spells stands.rep (.inr ⟨b, block, rfl, free⟩)
  exact ⟨congrArg h.get next, congrArg h.get prev⟩

/-- In every reachable state the heap is tiled by tagged blocks, and every free one is on the list of its class. -/
theorem mm_segregation_invariant (ok : Base base) (init : mmInit (memInit m base statics) = some (h, 0))
    (run : Run mm NoWrap { heap := h, live := [] } cs rs w) :
    (∃ rest chains, WellFormed w.heap (base + 8) [base + 8] rest 16 ∧
      getSize w.heap (hdrp (base + 8)) = 8 ∧ Lists w.heap rest chains) ∧
      ∀ c, w.Legal c → NoWrap w.heap c → (w.call mm c).isSome = true := by
  obtain ⟨s, stands⟩ := (services base).run (mmInit_stands ok init) run
  refine ⟨⟨_, _, Skeleton.wellFormed rfl stands, ?_, stands_lists stands.rep⟩, fun c legal fine => ?_⟩
  · -- The header of the prologue still has the size that `mm_init` wrote.
    obtain ⟨⟨rep, _, _, rfl⟩, _⟩ := stands
    have member : Skeleton.prologue w.heap.memStartBrk ∈ layout.fixed w.heap.memStartBrk :=
      List.mem_cons_self
    have size := rep.arena.size (List.mem_append_left s.blocks member)
    exact size
  · -- A legal call on a state that stands for an abstract one returns.
    obtain ⟨next, _, r, done, _⟩ := (services base).call stands legal fine
    rw [done]
    rfl

/-- A zeroed area for a small run; it starts at address eight. -/
def zeroed : State := memInit (fun _ => 0) 8 fun _ => 0

/-- The calls of the small run. -/
def sampleCalls : List Call :=
  [.malloc 8, .malloc 20, .store 25 7, .malloc 8, .malloc 30, .free 24, .free 72, .realloc 40 5000]

/-- The small run takes place. -/
theorem sample_run : ∃ h w, mmInit zeroed = some (h, 0) ∧
    Run mm NoWrap { heap := h, live := [] } sampleCalls [24, 40, 0, 72, 88, 0, 0, 128] w := by
  obtain ⟨h, w, init, run, _⟩ := trial_run (show trial mm NoWrap (mmInit zeroed) sampleCalls
    (fun _ => true) = some (0, [24, 40, 0, 72, 88, 0, 0, 128], true) by decide +kernel)
  exact ⟨h, w, init, run⟩

/-- The small run is one after which the lists are as the invariant says. -/
theorem mm_segregation_invariant_sample :
    ∃ h w, mmInit zeroed = some (h, 0) ∧
      Run mm NoWrap { heap := h, live := [] } sampleCalls [24, 40, 0, 72, 88, 0, 0, 128] w ∧
      (∃ rest chains, WellFormed w.heap (8 + 8) [8 + 8] rest 16 ∧
        getSize w.heap (hdrp (8 + 8)) = 8 ∧ Lists w.heap rest chains) ∧
      ∀ c, w.Legal c → NoWrap w.heap c → (w.call mm c).isSome = true := by
  obtain ⟨h, w, init, run⟩ := sample_run
  exact ⟨h, w, init, run, mm_segregation_invariant base_eight init run⟩

/-- A reallocation is the one that all files share, and it reads the header of the old block. -/
theorem mmRealloc_eq {p n : Nat} : mm.mmRealloc h p n = Skeleton.mmRealloc
    (Skeleton.mallocOf Skeleton.adjustedSize findFit (Skeleton.placed place) (Skeleton.extended extendHeap))
    Skeleton.headerSize mmFree h p n := by
  rw [← Skeleton.mmMalloc_eq place extendHeap]
  rfl

/--
Every run of `segreted(84).c` returns what the abstract allocator with its shelves returns, whatever the area contains.

After it every further action serves the client, and a reallocation moves the contents of its block.
-/
theorem mm_refines_shelves (ok : Base base) (init : mmInit (memInit m base statics) = some (h, 0))
    (run : Run mm NoWrap { heap := h, live := [] } cs rs w) :
    (play (policy.move (base + maxHeap)) (initial base) cs).2 = rs ∧ ∀ c, w.Legal c → NoWrap w.heap c →
      ∃ next r, w.call mm c = some (next, r) ∧ Skeleton.Delivers w c next r := by
  -- The header of a used block has its size, so at least the payload is copied.
  refine (parts base).run_delivers (services base) mmRealloc_eq (fun stands occupied => ?_) (mmInit_stands ok init) run
  rw [stands.headerSize_eq occupied]
  omega

/-- The abstract allocator returns the results of the small run. -/
theorem mm_refines_shelves_sample :
    ∃ h w, mmInit zeroed = some (h, 0) ∧
      Run mm NoWrap { heap := h, live := [] } sampleCalls [24, 40, 0, 72, 88, 0, 0, 128] w ∧
      (play (policy.move (8 + maxHeap)) (initial 8) sampleCalls).2 = [24, 40, 0, 72, 88, 0, 0, 128] ∧
      ∀ c, w.Legal c → NoWrap w.heap c → ∃ next r, w.call mm c = some (next, r) ∧ Skeleton.Delivers w c next r := by
  obtain ⟨h, w, init, run⟩ := sample_run
  exact ⟨h, w, init, run, mm_refines_shelves base_eight init run⟩

end MallocLab.Seg84
