import MallocLab.Seg84.Search
import MallocLab.Shelves.Order

/-! When the lists of `segreted(84).c` are in ascending order of size, and what its search then finds. -/

namespace MallocLab.Seg84

open Segregated

variable {base a n p q k size : Nat} {m : Mem} {statics : Nat → Nat} {h : State} {w : World (Nat → Nat)}
variable {s : Shelves} {b : Blk} {c : Call} {cs : List Call} {rs : List Nat}

/-- What stands on the shelves of a represented state. -/
theorem stands_stocked (stands : Stands base h s) : s.Stocked style s.blocks :=
  ⟨stands.rep.threaded.listed, stands.rep.threaded.nodup⟩

/-- On ascending shelves the search finds a smallest block that is large enough. -/
theorem pick_tightest (stands : Stands base h s) (ascending : s.Ascending) (found : pick s a = some p) :
    ∃ b ∈ s.blocks, b.addr = p ∧ Tightest s.blocks a b := by
  obtain ⟨lo, _, _, _, tiles⟩ := stands.rep.tiles
  obtain ⟨k, _, reach, here, none_⟩ := pickList_first found
  obtain ⟨large, left, right, shelf, small⟩ := List.find?_eq_some_iff_append.mp here
  obtain ⟨b, block, rfl, free, class_⟩ := stands.rep.threaded.listed k p (by simp [shelf])
  obtain ⟨pre, post, _, located⟩ := Skeleton.Rep.locate stands.rep block
  rw [Shelves.fits_eq located, decide_eq_true_eq] at large
  refine ⟨b, block, rfl, free, large, fun c cBlock cFree cLarge => ?_⟩
  obtain ⟨cPre, cPost, _, cLocated⟩ := Skeleton.Rep.locate stands.rep cBlock
  have cFits : s.fits a c.addr = true := by
    rw [Shelves.fits_eq cLocated, decide_eq_true_eq]
    exact cLarge
  have cListed := stands.filed c cBlock cFree _ rfl
  have bClass : sizeClass b.size = k := Option.some.inj class_
  -- The other block is in the same class, in a class that was searched before, or in a larger one.
  rcases Nat.lt_trichotomy (sizeClass c.size) k with below | same | above
  · -- A list searched before has no block that fits, and this one fits.
    have missed := none_ _ below (sizeClass_mono cLarge)
    rw [List.find?_eq_none] at missed
    exact absurd cFits (missed _ cListed)
  · rw [same, shelf] at cListed
    -- In its own list it stands before the block that was found, or after it in the order of sizes.
    rcases List.mem_append.mp cListed with early | late
    · have := small _ early
      simp [cFits] at this
    · rcases List.mem_cons.mp late with same | late
      · exact le_of_eq (congrArg Blk.size (tiles.addr_inj block cBlock same.symm))
      · have order := ascending k
        rw [shelf] at order
        exact (List.pairwise_cons.mp (List.pairwise_append.mp order).2.1).1 _ late b block c cBlock rfl rfl
  · -- A smaller block that fits would be of a smaller class.
    by_contra smaller
    have := sizeClass_mono (Nat.le_of_not_le smaller)
    omega

/-- The blocks of the heap after the prologue, as their headers describe them. -/
def heapBlocks (h : State) : List Blk := readBlocks h pointerTurns (h.memStartBrk + 16)

/-- A leftover that becomes a block is no larger than the other free blocks of its class. -/
def Settled (others : List Blk) (left : Nat) : Prop := 16 ≤ left → Lowest style others left

/--
Something holds of the free block that serves a request for a block of size `a`, and of the blocks around it.

It is a smallest block that is large enough.
Without one it is new space, merged with a free block at the end of the heap.
-/
def ServedFrom (h : State) (a : Nat) (holds : List Blk → Blk → List Blk → Prop) : Prop :=
  let bs := heapBlocks h
  (∀ b ∈ bs, Tightest bs a b → ∀ found ∈ locate bs b.addr, holds found.1 found.2.1 found.2.2) ∧
    ((∀ b ∈ bs, b.used = false → b.size < a) → h.memBrk + max a 4096 ≤ h.memMaxAddr →
      let joined := join Blk.used bs { addr := h.memBrk, size := max a 4096, used := false } []
      holds joined.pre joined.blk joined.post)

/-- A request for a block of size `a` leaves over no block that is larger than another of its class. -/
def MallocAscends (h : State) (a : Nat) : Prop :=
  ServedFrom h a fun pre b post => Settled (pre ++ b :: post) (b.size - a)

/-- Freeing one of these blocks makes no free block, merged with its neighbours, larger than another of its class. -/
def FreeAscends (bs : List Blk) (p : Nat) : Prop :=
  ∀ found ∈ locate bs p,
    let joined := join Blk.used found.1 { found.2.1 with used := false } found.2.2
    Lowest style (joined.pre ++ joined.post) joined.blk.size

/-- The blocks once a block of size `a` has been handed out from the front of `b`. -/
def cut (pre : List Blk) (b : Blk) (post : List Blk) (a : Nat) : List Blk :=
  if 16 ≤ b.size - a then
    pre ++ { b with size := a, used := true } :: { addr := b.addr + a, size := b.size - a, used := false } :: post
  else pre ++ { b with used := true } :: post

/-- No block that the call makes free is larger than another free block of its class. -/
def Ascends (h : State) : Call → Prop
  | .malloc n => MallocAscends h (Skeleton.adjustedSize n)
  | .free p => FreeAscends (heapBlocks h) p
  | .realloc p n => MallocAscends h (Skeleton.adjustedSize n) ∧
      -- The old block is freed when the new one has been handed out.
      ServedFrom h (Skeleton.adjustedSize n) fun pre b post => FreeAscends (cut pre b post (Skeleton.adjustedSize n)) p
  | .store _ _ => True

/-- The headers describe the blocks of the abstract state. -/
theorem heapBlocks_eq (stands : Stands base h s) : heapBlocks h = s.blocks := by
  have arena := stands.rep.arena
  obtain ⟨lo, _, _, fixed, tiles⟩ := stands.rep.tiles
  have place : h.memStartBrk + 16 = lo := fixed.2.2.2
  rw [← place] at tiles
  exact arena.readBlocks (stands.rep.plain rfl) tiles

/-- A request for a block of size `a` is carved from `b` in the state `t`, where all other blocks are in order. -/
structure Carving (t : Shelves) (a : Nat) (pre : List Blk) (b : Blk) (post : List Blk) (result : Shelves × Nat) :
    Prop where
  split : t.blocks = pre ++ b :: post
  carved : result = t.carve style b.addr a
  ordered : (t.drop b.addr).Ascending
  stocked : t.Stocked style t.blocks
  tiles : ∃ lo hi, Tiles lo t.blocks hi
  free : b.used = false

/-- A request is refused, or it is carved from the block that serves it. -/
theorem malloc_carving {holds : List Blk → Blk → List Blk → Prop} (stands : Stands base h s)
    (ascending : s.Ascending) (adjusted : Skeleton.Adjusted n a) (same : policy.adjust n = a)
    (serves : ServedFrom h a holds) :
    policy.malloc (base + maxHeap) s n = (s, null) ∨ ∃ t pre b post, holds pre b post ∧
      Carving t a pre b post (policy.malloc (base + maxHeap) s n) := by
  obtain ⟨tight, extended⟩ := serves
  rw [heapBlocks_eq stands] at tight extended
  obtain ⟨lo, _, _, _, tiles⟩ := stands.rep.tiles
  cases found : policy.pick s (policy.adjust n) with
  | some p =>
    rw [Skeleton.Policy.malloc_picked found]
    rw [same] at found ⊢
    obtain ⟨b, block, rfl, tightest⟩ := pick_tightest stands ascending found
    -- A block is found, and it is carved where it lies.
    obtain ⟨pre, post, split, located⟩ := Skeleton.Rep.locate stands.rep block
    exact .inr ⟨s, pre, b, post, tight b block tightest _ located, split, rfl,
      ascending.narrow (fun k => List.erase_sublist) fun c inside _ _ => inside,
      stands_stocked stands, ⟨_, _, tiles⟩, tightest.1⟩
  | none =>
    by_cases room : policy.brk s + max (policy.adjust n) 4096 ≤ base + maxHeap
    · -- The heap is extended, and the new block joins a free block at the end.
      rw [Skeleton.Policy.malloc_extended found room rfl]
      rw [same] at found room ⊢
      have brk := stands.rep.brk
      have limit := (parts base).limit stands
      have whole := adjusted.whole
      have least := adjusted.least
      obtain ⟨h', _, stands', _, _, _, _⟩ := (parts base).granted stands
        (show max a 4096 % 8 = 0 by omega) (by omega) (limit ▸ room)
      let fresh : Blk := { addr := s.brk, size := max a 4096, used := false }
      let joined := join Blk.used s.blocks fresh []
      have chosen : holds joined.pre joined.blk joined.post := by
        have chosen := extended (pick_none stands found) (by rw [brk, limit]; exact room)
        rw [brk] at chosen
        exact chosen
      obtain ⟨_, _, _, _, tiles'⟩ := stands'.rep.tiles
      rw [brk] at tiles
      have grown : Tiles lo (s.blocks ++ [fresh]) (s.brk + max a 4096) := by
        refine tiles_append.mpr ⟨s.brk, tiles, rfl, ?_, ?_, rfl⟩
        · show max a 4096 % 8 = 0
          omega
        · show 8 ≤ max a 4096
          omega
      let longer : Shelves := { s with brk := s.brk + max a 4096, mark := false }
      -- The new space is taken off its shelf again, so where it was filed makes no difference.
      have ordered := Shelves.merge_drop_ascending (s := longer) ascending (stands_stocked stands')
        (fun c block => by simpa [longer] using block) grown
      exact .inr ⟨_, joined.pre, joined.blk, joined.post, chosen, rfl, rfl, ordered, stands_stocked stands',
        ⟨_, _, tiles'⟩, join_free rfl fun c _ free => free⟩
    · -- The extension is refused.
      exact .inl (Skeleton.Policy.malloc_refused found room)

/-- A request keeps the order when it leaves over no block that is larger than another of its class. -/
theorem malloc_ascending (stands : Stands base h s) (ascending : s.Ascending)
    (adjusted : Skeleton.Adjusted n a) (ascends : MallocAscends h a) (same : policy.adjust n = a) :
    (policy.malloc (base + maxHeap) s n).1.Ascending := by
  rcases malloc_carving stands ascending adjusted same ascends with refused | ⟨t, pre, b, post, settled, carving⟩
  · rw [refused]
    exact ascending
  · obtain ⟨lo, hi, tiles⟩ := carving.tiles
    have least := adjusted.least
    rw [carving.carved]
    refine Shelves.carve_ascending carving.ordered carving.stocked tiles carving.split carving.free
      (by omega) (fun left enough => ?_) rfl fun enough => ?_
    · -- The remainder is kept as a block of its own when it has room for the pointers.
      have : 16 ≤ left := of_decide_eq_true enough
      omega
    · rw [carving.split]
      exact settled (of_decide_eq_true enough)

/-- The blocks after a request are those around the block that serves it, which has been cut. -/
theorem Carving.blocks {t : Shelves} {pre post : List Blk} {result : Shelves × Nat}
    (carving : Carving t a pre b post result) : result.1.blocks = cut pre b post a := by
  obtain ⟨lo, hi, tiles⟩ := carving.tiles
  have located := tiles.locate_split carving.split
  have bottom : style.high a = false := rfl
  rw [carving.carved]
  unfold Shelves.carve cut
  simp only [located, bottom, Bool.false_eq_true, if_false]
  by_cases enough : 16 ≤ b.size - a
  · rw [if_pos enough, if_pos (show style.splits (b.size - a) = true from decide_eq_true enough)]
    rfl
  · rw [if_neg enough, if_neg (show ¬ style.splits (b.size - a) = true from fun yes => enough (of_decide_eq_true yes))]

/-- Freeing a block keeps the order when the merged block is no larger than another of its class. -/
theorem free_ascending (stands : Stands base h s) (ascending : s.Ascending)
    (occupied : Occupied s.blocks p size) (ascends : FreeAscends s.blocks p) :
    (s.free style p).Ascending := by
  obtain ⟨b, member, rfl, _, used⟩ := occupied
  obtain ⟨pre, post, split, located⟩ := Skeleton.Rep.locate stands.rep member
  obtain ⟨lo, _, _, _, tiles⟩ := stands.rep.tiles
  have low := ascends _ located
  unfold Shelves.free
  simp only [located]
  have stocked := stands_stocked stands
  have unlisted := stands.rep.unlisted member used
  -- A used block is on no shelf, so the shelves hold blocks around it.
  rw [split] at tiles
  have idle := tiles.mark false
  refine Shelves.merge_ascending ascending ⟨fun k p listed => ?_, stocked.distinct⟩ ?_ idle unlisted low
  · obtain ⟨c, block, here, free, class_⟩ := stocked.listed k p listed
    have other : c ≠ b := by
      rintro rfl
      simp [used] at free
    exact ⟨c, (mem_middle.mp (split ▸ block)).resolve_left other, here, free, class_⟩
  · exact fun c block => split ▸ mem_around block

/-- A call that meets the condition keeps the order. -/
theorem move_ascending (stands : Holds (Stands base) Shelves.blocks w s) (ascending : s.Ascending)
    (legal : w.Legal c) (fine : NoWrap w.heap c) (ascends : Ascends w.heap c) :
    (policy.move (base + maxHeap) s c).1.Ascending := by
  obtain ⟨rep, owned⟩ := stands
  cases c with
  | malloc n =>
    obtain ⟨_, adjusted⟩ := Skeleton.adjustedSize_adjusted legal.1 legal.2
    exact malloc_ascending rep ascending adjusted ascends rfl
  | free p =>
    obtain ⟨size, live⟩ := legal
    obtain ⟨_, occupied, _⟩ := owned.block p size live
    -- The headers before the call describe the blocks that the condition is about.
    exact free_ascending rep ascending occupied (heapBlocks_eq rep ▸ ascends)
  | realloc p n =>
    obtain ⟨⟨size, live⟩, positive, small⟩ := legal
    obtain ⟨_, occupied, _⟩ := owned.block p size live
    obtain ⟨_, adjusted⟩ := Skeleton.adjustedSize_adjusted positive small
    obtain ⟨first, second⟩ := ascends
    have ordered := malloc_ascending rep ascending adjusted first rfl
    obtain ⟨h', s', q, abstract, done, rep', _, outcome⟩ := (parts base).malloc rep positive small fine
    have serving := malloc_carving rep ascending adjusted rfl second
    rw [abstract] at ordered serving
    show (policy.realloc (base + maxHeap) s p n).1.Ascending
    unfold Skeleton.Policy.realloc
    simp only [abstract]
    rcases outcome with ⟨rfl, _⟩ | ⟨real, served⟩
    · -- No block was found for it, so the old one stays where it is.
      exact ordered
    · -- The old block is still there, and is freed among the blocks that the request has left.
      obtain ⟨_, _, _, gained⟩ := served
      rw [if_neg real]
      rcases serving with refused | ⟨t, pre, b, post, low, carving⟩
      · exact absurd (congrArg Prod.snd refused) real
      · exact free_ascending rep' ordered ((gained _ _).mpr (.inl occupied)) (carving.blocks ▸ low)
  | store addr byte => exact ascending

instance (others : List Blk) (left : Nat) : Decidable (Settled others left) :=
  inferInstanceAs (Decidable (_ → _))

instance (h : State) (a : Nat) (holds : List Blk → Blk → List Blk → Prop)
    [∀ pre b post, Decidable (holds pre b post)] : Decidable (ServedFrom h a holds) :=
  inferInstanceAs (Decidable ((∀ b ∈ heapBlocks h, Tightest (heapBlocks h) a b → ∀ found ∈ locate _ _, _) ∧
    (_ → _ → holds _ _ _)))

instance (h : State) (a : Nat) : Decidable (MallocAscends h a) :=
  inferInstanceAs (Decidable (ServedFrom _ _ _))

instance (bs : List Blk) (p : Nat) : Decidable (FreeAscends bs p) :=
  inferInstanceAs (Decidable (∀ found ∈ locate _ _, Lowest _ _ _))

instance (h : State) (c : Call) : Decidable (Ascends h c) :=
  match c with
  | .malloc _ => inferInstanceAs (Decidable (MallocAscends _ _))
  | .free _ => inferInstanceAs (Decidable (FreeAscends _ _))
  | .realloc _ _ => inferInstanceAs (Decidable (MallocAscends _ _ ∧ ServedFrom _ _ fun _ _ _ => FreeAscends _ _))
  | .store _ _ => inferInstanceAs (Decidable True)

/--
A run whose calls file no block in front of a smaller one keeps every list in ascending order.

The search then finds a smallest free block that is large enough, if there is one in the heap.
-/
theorem mm_ascending (ok : Base base) (init : mmInit (memInit m base statics) = some (h, 0))
    (run : Run mm (fun h c => NoWrap h c ∧ Ascends h c) { heap := h, live := [] } cs rs w) :
    ∃ rest chains, WellFormed w.heap (base + 8) [base + 8] rest 16 ∧ Lists w.heap rest chains ∧
      (∀ k < listLimit, (chains k).Pairwise fun p q => getSize w.heap (hdrp p) ≤ getSize w.heap (hdrp q)) ∧
      ∀ asize, asize ≠ 0 → ∃ bp, findFit w.heap asize = some (w.heap, bp) ∧
        ((bp = null ∧ ∀ q ∈ rest, getAlloc w.heap (hdrp q) = 0 → getSize w.heap (hdrp q) < asize) ∨
          (bp ∈ rest ∧ getAlloc w.heap (hdrp bp) = 0 ∧ asize ≤ getSize w.heap (hdrp bp) ∧
            ∀ q ∈ rest, getAlloc w.heap (hdrp q) = 0 → asize ≤ getSize w.heap (hdrp q) →
              getSize w.heap (hdrp bp) ≤ getSize w.heap (hdrp q))) := by
  -- Every state of the run stands for an abstract state whose shelves are in order.
  obtain ⟨s, stands, ascending⟩ : ∃ s, Holds (Stands base) Shelves.blocks w s ∧ s.Ascending := by
    refine run.invariant (I := fun w => ∃ s, Holds (Stands base) Shelves.blocks w s ∧ s.Ascending) ?_ ?_
    · -- One legal call keeps the order of the shelves.
      rintro w c next r ⟨s, stands, ascending⟩ legal ⟨fine, ascends⟩ stepped
      have ordered := move_ascending stands ascending legal fine ascends
      obtain ⟨next', s', r', done, moved, stands', _⟩ := (services base).call stands legal fine
      rw [stepped] at done
      obtain ⟨rfl, rfl⟩ := Prod.mk.inj (Option.some.inj done)
      rw [moved] at ordered
      exact ⟨s', stands', ordered⟩
    · -- At the start every shelf has one block at most.
      refine ⟨initial base, mmInit_stands ok init, fun k => ?_⟩
      unfold initial Shelves.opened
      simp only
      split <;> simp
  have rep := stands.rep.rep
  have size : ∀ b ∈ s.blocks, getSize w.heap (hdrp b.addr) = b.size := fun b block =>
    rep.arena.size (List.mem_append_right _ block)
  have alloc : ∀ b ∈ s.blocks, getAlloc w.heap (hdrp b.addr) = 0 ↔ b.used = false := fun b block =>
    rep.arena.alloc_free (List.mem_append_right _ block)
  refine ⟨_, _, Skeleton.wellFormed rfl stands, stands_lists stands.rep, fun k _ => ?_, fun asize positive =>
    ⟨_, findFit_result rep positive, ?_⟩⟩
  · -- The sizes of the abstract blocks are the ones in the headers.
    refine List.Pairwise.imp_of_mem ?_ (ascending k)
    intro p q first second le
    obtain ⟨b, bBlock, rfl, _⟩ := rep.threaded.listed k p first
    obtain ⟨c, cBlock, rfl, _⟩ := rep.threaded.listed k q second
    rw [size b bBlock, size c cBlock]
    exact le b bBlock c cBlock rfl rfl
  · -- The search returns the tightest block, or there is none that fits.
    cases found : pick s asize with
    | none =>
      refine .inl ⟨rfl, List.forall_mem_map.mpr fun b block clear => ?_⟩
      rw [size b block]
      exact pick_none stands.rep found b block ((alloc b block).mp clear)
    | some p =>
      obtain ⟨b, block, rfl, free, large, least⟩ := pick_tightest stands.rep ascending found
      refine .inr ⟨List.mem_map_of_mem block, ?_, ?_, List.forall_mem_map.mpr fun c cBlock clear enough => ?_⟩
      · exact (alloc b block).mpr free
      · rwa [Option.getD_some, size b block]
      · rw [size c cBlock] at enough ⊢
        rw [Option.getD_some, size b block]
        exact least c cBlock ((alloc c cBlock).mp clear) enough

/-- The calls of a run that frees blocks of different sizes in ascending order of the lists. -/
def orderedCalls : List Call :=
  [.malloc 16, .malloc 8, .malloc 8, .malloc 8, .free 24, .free 64, .realloc 48 5000]

/-- A run that keeps the condition, although it frees two blocks of different sizes in one class. -/
theorem mm_ascending_sample :
    ∃ h w, mmInit zeroed = some (h, 0) ∧
      Run mm (fun h c => NoWrap h c ∧ Ascends h c) { heap := h, live := [] } orderedCalls
        [24, 48, 64, 80, 0, 0, 96] w ∧
      ∃ rest chains, WellFormed w.heap (8 + 8) [8 + 8] rest 16 ∧ Lists w.heap rest chains ∧
        (∀ k < listLimit, (chains k).Pairwise fun p q => getSize w.heap (hdrp p) ≤ getSize w.heap (hdrp q)) ∧
        ∀ asize, asize ≠ 0 → ∃ bp, findFit w.heap asize = some (w.heap, bp) ∧
          ((bp = null ∧ ∀ q ∈ rest, getAlloc w.heap (hdrp q) = 0 → getSize w.heap (hdrp q) < asize) ∨
            (bp ∈ rest ∧ getAlloc w.heap (hdrp bp) = 0 ∧ asize ≤ getSize w.heap (hdrp bp) ∧
              ∀ q ∈ rest, getAlloc w.heap (hdrp q) = 0 → asize ≤ getSize w.heap (hdrp q) →
                getSize w.heap (hdrp bp) ≤ getSize w.heap (hdrp q))) := by
  obtain ⟨h, w, init, run, _⟩ := trial_run (show trial mm (fun h c => NoWrap h c ∧ Ascends h c)
    (mmInit zeroed) orderedCalls (fun _ => true) = some (0, [24, 48, 64, 80, 0, 0, 96], true) by decide +kernel)
  exact ⟨h, w, init, run, mm_ascending base_eight init run⟩

/-- The calls of a run that frees a small block and then a larger one of the same class. -/
def unorderedCalls : List Call :=
  [.malloc 8, .malloc 8, .malloc 16, .malloc 8, .free 24, .free 56]

/-- A larger block is filed in front of a smaller one, and the search then prefers the larger one. -/
theorem mm_ascending_fails :
    ∃ h w, mmInit zeroed = some (h, 0) ∧
      Run mm NoWrap { heap := h, live := [] } unorderedCalls [24, 40, 56, 80, 0, 0] w ∧
      Trail (fun p => w.heap.get (succFree p)) (fun p => p = null) (w.heap.statics 4) [56, 24] null ∧
      ¬ [56, 24].Pairwise (fun p q => getSize w.heap (hdrp p) ≤ getSize w.heap (hdrp q)) ∧
      (findFit w.heap 16).map Prod.snd = some 56 ∧
      getAlloc w.heap (hdrp 24) = 0 ∧ 16 ≤ getSize w.heap (hdrp 24) ∧
      getSize w.heap (hdrp 24) < getSize w.heap (hdrp 56) := by
  obtain ⟨h, w, init, run, passed⟩ := trial_run (show trial mm NoWrap (mmInit zeroed) unorderedCalls
    (fun w => decide (w.heap.statics 4 = 56 ∧ w.heap.get (succFree 56) = 24 ∧ w.heap.get (succFree 24) = null ∧
      ¬ [56, 24].Pairwise (fun p q => getSize w.heap (hdrp p) ≤ getSize w.heap (hdrp q)) ∧
      (findFit w.heap 16).map Prod.snd = some 56 ∧ getAlloc w.heap (hdrp 24) = 0 ∧
      16 ≤ getSize w.heap (hdrp 24) ∧ getSize w.heap (hdrp 24) < getSize w.heap (hdrp 56))) =
    some (0, [24, 40, 56, 80, 0, 0], true) by decide +kernel)
  obtain ⟨first, second, third, rest⟩ := of_decide_eq_true passed
  -- The list is followed word by word.
  refine ⟨h, w, init, run, ?_, rest⟩
  rw [first]
  refine .step (by decide) ?_
  rw [second]
  refine .step (by decide) ?_
  rw [third]
  exact .stop rfl

end MallocLab.Seg84
