import MallocLab.Seg98.Realloc
import MallocLab.Skeleton.Reader

/-! When `(98)분석.c` never hands out overlapping memory, and a run in which it does. -/

namespace MallocLab.Seg98

open Segregated

namespace Tagged

variable {h : State} {s : Shelves} {base n p : Nat}

/-- What is assumed of a call, and the condition under which it serves its client. -/
abbrev Proper (h : State) (c : Call) : Prop := Granted h c ∧ Adjoining h c

/-- A request for which there is room does not wrap. -/
theorem requestFits (stands : Stands file base h s) (granted : Granted h (.malloc n)) :
    Skeleton.RequestFits adjustedSize (findFit file) h n := by
  intro missed _
  have asked : asks h (.malloc n) = some (max (adjustedSize n) chunksize) := if_pos missed
  have room := granted.room _ asked
  have fits := stands.rep.area.fits
  rw [maxWord_eq]
  omega

/-- `(98)분석.c` serves its clients as long as new space adjoins what a block is enlarged by. -/
theorem services (base : Nat) : Services mm Proper (Stands file base) Shelves.blocks fun _ _ _ _ => True where
  tiles := Stands.tiling
  written := Stands.written
  store := fun _ _ _ => trivial
  malloc := by
    intro h s n stands positive small fine
    obtain ⟨h', s', r, done, _, rest⟩ :=
      (parts Tagged.spells Tagged.frees base).serves_malloc stands positive small (requestFits stands fine.1)
    exact ⟨h', s', r, done, trivial, rest⟩
  free := by
    intro h s p size stands occupied _
    obtain ⟨h', s', done, _, rest⟩ := (parts Tagged.spells Tagged.frees base).serves_free stands occupied
    exact ⟨h', s', done, trivial, rest⟩
  realloc := by
    intro h s p size n stands occupied positive _ fine
    by_cases short : blockBuffer h p (bufferedSize n) < 0
    · -- The block is enlarged where it lies.
      cases open_ : open_ h p with
      | true =>
        obtain ⟨b, member, rfl, rfl, used⟩ := occupied
        obtain ⟨pre, post, _, located⟩ := Skeleton.Rep.locate stands.rep member
        obtain ⟨h', s', grow, done, stands', keeps, served, _⟩ :=
          realloc_enlarged stands located used positive fine.1 fine.2 ⟨short, open_⟩
        exact ⟨h', s', b.addr, done, trivial, stands', keeps, .inr ⟨stands.real member, served⟩⟩
      -- It is moved to a new block.
      | false =>
        obtain ⟨h', s', r, done, stands', keeps, real, served⟩ :=
          realloc_moved stands occupied positive fine.1 short open_
        exact ⟨h', s', r, done, trivial, stands', keeps, .inr ⟨real, served⟩⟩
    · -- It is large enough already.
      obtain ⟨h', s', done, stands', keeps, served⟩ :=
        realloc_kept stands occupied positive (fine.1.small n rfl) short
      obtain ⟨b, member, rfl, _⟩ := occupied
      exact ⟨h', s', b.addr, done, trivial, stands', keeps, .inr ⟨stands.real member, served⟩⟩

/-- The block at `q` and the block at `p` do not overlap. -/
def Apart (h : State) (q p : Nat) : Prop := q + getSize h (hdrp q) ≤ p ∨ p + getSize h (hdrp p) ≤ q

/--
The block at `p` has been enlarged to the union of itself, the free block behind it and new space.

The new space adjoins these two, and no other live block and no listed block lies in the union.
-/
structure InPlace (w next : World (Nat → Nat)) (p : Nat) : Prop where
  grows : w.heap.memBrk ≤ next.heap.memBrk
  union : getSize next.heap (hdrp p) = getSize w.heap (hdrp p) + getSize w.heap (hdrp (nextBlkp w.heap p)) +
    (next.heap.memBrk - w.heap.memBrk)
  adjoins : next.heap.memBrk = w.heap.memBrk ∨
    p + getSize w.heap (hdrp p) + getSize w.heap (hdrp (nextBlkp w.heap p)) = w.heap.memBrk
  live : ∀ q n, (q, n) ∈ next.live → q ≠ p → Apart next.heap q p
  listed : ∃ chains : Nat → List Nat, (∀ k < listLimit, Trail (fun q => next.heap.get (succPtr q)) (fun q => q = null)
      (next.heap.statics k) (chains k) null) ∧ ∀ k, ∀ q ∈ chains k, Apart next.heap q p

/-- Two blocks at different addresses do not overlap. -/
theorem apart_of_mem {c d : Blk} (stands : Stands file base h s) (first : c ∈ s.blocks) (second : d ∈ s.blocks)
    (other : c.addr ≠ d.addr) : Apart h c.addr d.addr := by
  obtain ⟨lo, _, _, _, tiles, _⟩ := stands.tiles
  have arena := stands.rep.arena
  unfold Apart
  rw [arena.size (List.mem_append_right _ first), arena.size (List.mem_append_right _ second)]
  exact (tiles.apart first second).resolve_left fun same => other (same ▸ rfl)

/-- The lists in memory are the abstract shelves. -/
theorem trails (stands : Stands file base h s) : ∀ k < listLimit,
    Trail (fun q => h.get (succPtr q)) (fun q => q = null) (h.statics k) (s.lists k) null := by
  have lists : ∀ b ∈ s.blocks, b.used = false → h.get (succPtr b.addr) = h.get (b.addr + links.next) ∧
      h.get (predPtr b.addr) = h.get (b.addr + links.prev) := by
    intro b block free
    obtain ⟨_, next, prev⟩ := entries_eq Tagged.spells stands.rep (.inr ⟨b, block, rfl, free⟩)
    exact ⟨congrArg h.get next, congrArg h.get prev⟩
  have sound : Skeleton.ListsSound (fun q => h.get (succPtr q)) (fun q => h.get (predPtr q)) h.statics (fun _ => null)
      listLimit (fun q => q ∈ s.blocks.map Blk.addr ∧ getAlloc h (hdrp q) = 0)
      (fun q => sizeClass (getSize h (hdrp q))) s.lists :=
    Skeleton.listsSound stands.rep stands.filed (fun _ => rfl) (fun _ => rfl) (fun _ => rfl) lists
      stands.rep.heads fun _ => rfl
  exact sound.trail

variable {w : World (Nat → Nat)}

/-- Enlarging in place takes over exactly what it should. -/
theorem realloc_inPlace (holds : Holds (Stands file base) Shelves.blocks w s) (legal : w.Legal (.realloc p n))
    (fine : Proper w.heap (.realloc p n)) (enlarges : Enlarges w.heap p n) :
    ∃ next, w.call mm (.realloc p n) = some (next, p) ∧ InPlace w next p := by
  obtain ⟨stands, owned⟩ := holds
  obtain ⟨⟨old, live⟩, positive, _⟩ := legal
  obtain ⟨size, ⟨b, member, rfl, rfl, used⟩, _⟩ := owned.block p old live
  obtain ⟨pre, post, split, located⟩ := Skeleton.Rep.locate stands.rep member
  obtain ⟨h', s', grow, done, stands', keeps, served, grown⟩ :=
    realloc_enlarged stands located used positive fine.1 fine.2 enlarges
  have owned' := owned.realloc served
  have real : b.addr ≠ null := stands.real member
  refine ⟨{ heap := h', live := (b.addr, n) :: dropLive w.live b.addr }, bind_step done (if_neg real), ?_⟩
  -- What the headers say before and after.
  have arena := stands.rep.arena
  rw [split, ← List.append_assoc] at arena
  have before : getSize w.heap (hdrp b.addr) = b.size := arena.size (by simp)
  have next : getSize w.heap (hdrp (nextBlkp w.heap b.addr)) = behindSize post := by
    rw [arena.following_size]
    cases post <;> rfl
  obtain ⟨⟨d, block, here, large, busy⟩, brk, adjoins⟩ := grown
  have after : getSize h' (hdrp b.addr) = b.size + behindSize post + grow := by
    rw [← here, stands'.rep.arena.size (List.mem_append_right _ block), large]
  have moved : h'.memBrk = w.heap.memBrk + grow := by
    rw [stands'.rep.brk, brk, stands.rep.brk]
  -- The old block, the one behind and the new block are now numbers, and so are the two breaks.
  refine ⟨?_, ?_, ?_, ?_, s'.lists, trails stands', ?_⟩
  · show w.heap.memBrk ≤ h'.memBrk
    omega
  · show getSize h' (hdrp b.addr) = _ + (h'.memBrk - w.heap.memBrk)
    rw [before, next, after, moved]
    omega
  · show h'.memBrk = w.heap.memBrk ∨ _
    rw [before, next, moved, stands.rep.brk]
    exact adjoins.imp_left fun none_ => by rw [none_, Nat.add_zero]
  · -- The other live payloads are the ones of other used blocks.
    intro q k other distinct
    obtain ⟨_, ⟨c, cBlock, cHere, _⟩, _⟩ := owned'.block q k other
    rw [← cHere, ← here] at distinct ⊢
    exact apart_of_mem stands' cBlock block distinct
  · -- A listed block is free, and the enlarged one is not.
    intro k q listed
    obtain ⟨c, cBlock, rfl, free, _⟩ := stands'.rep.threaded.listed k q listed
    rw [← here]
    exact apart_of_mem stands' cBlock block fun same => stands'.rep.unlisted block busy k (same ▸ listed)

variable {m : Mem} {statics : Nat → Nat} {c : Call} {cs : List Call} {rs : List Nat}

/--
While new space adjoins what a block is enlarged by, `(98)분석.c` never hands out overlapping memory.

After every such run every such action returns and upholds what the client is owed.
A block that is enlarged in place becomes the union that it should be.
-/
theorem mm_payloads_apart (ok : Base base) (init : mmInit (memInit m base statics) = some (h, 0))
    (run : Run mm Proper { heap := h, live := [] } cs rs w) (legal : w.Legal c) (fine : Proper w.heap c) :
    ∃ next r, w.call mm c = some (next, r) ∧ Upholds w c next r ∧
      ∀ p n, c = .realloc p n → Enlarges w.heap p n → r = p ∧ InPlace w next p := by
  obtain ⟨h', init', holds⟩ := mmInit_holds Tagged.spells ok m statics
  obtain rfl : h' = h := (Prod.mk.inj (Option.some.inj (init'.symm.trans init))).1
  -- The run stands for an abstract state, and so does what follows it.
  obtain ⟨s, holds⟩ := (services base).run holds run
  obtain ⟨next, _, r, done, _, _, upholds⟩ := (services base).call holds legal fine
  refine ⟨next, r, done, upholds, ?_⟩
  rintro p n rfl enlarges
  -- There is only one result, so the block has been enlarged in this call.
  obtain ⟨next', done', inPlace⟩ := realloc_inPlace holds legal fine enlarges
  rw [done] at done'
  obtain ⟨rfl, rfl⟩ := Prod.mk.inj (Option.some.inj done')
  exact ⟨rfl, inPlace⟩

/-- A zeroed area for small runs; it starts at address eight. -/
def zeroed : State := memInit (fun _ => 0) 8 fun _ => 0

/-- A run in which one block is enlarged in place by new space, and another moves. -/
def properCalls : List Call :=
  [.malloc 8, .malloc 8, .malloc 8, .realloc 56 100, .realloc 40 20, .free 24, .malloc 3000]

/-- After the run a further reallocation keeps the payloads apart. -/
theorem mm_payloads_apart_sample :
    ∃ h w, mmInit zeroed = some (h, 0) ∧
      Run mm Proper { heap := h, live := [] } properCalls [24, 40, 56, 56, 8120, 0, 5112] w ∧
      ∃ next r, w.call mm (.realloc 56 4500) = some (next, r) ∧ Upholds w (.realloc 56 4500) next r ∧
        ∀ p n, Call.realloc 56 4500 = .realloc p n → Enlarges w.heap p n → r = p ∧ InPlace w next p := by
  obtain ⟨h, w, init, run, fine⟩ := trial_run (show trial mm Proper (mmInit zeroed) properCalls
    (fun w => decide (w.Legal (.realloc 56 4500) ∧ Proper w.heap (.realloc 56 4500))) =
      some (0, [24, 40, 56, 56, 8120, 0, 5112], true) by decide +kernel)
  obtain ⟨legal, fine⟩ := of_decide_eq_true fine
  exact ⟨h, w, init, run, mm_payloads_apart base_eight init run legal fine⟩

/-- A run after which the block behind the first one is free, too small and not the last. -/
def overlappingCalls : List Call := [.malloc 8, .malloc 8, .malloc 8, .free 40]

/-- Space at the end of the heap is counted as if it were behind the block, which then covers the next live one. -/
theorem mm_payloads_overlap :
    ∃ h w next, mmInit zeroed = some (h, 0) ∧
      Run mm Granted { heap := h, live := [] } overlappingCalls [24, 40, 56, 0] w ∧ w.Legal (.realloc 24 100) ∧
      Granted w.heap (.realloc 24 100) ∧ w.call mm (.realloc 24 100) = some (next, 24) ∧
      ¬ Upholds w (.realloc 24 100) next 24 := by
  obtain ⟨h, w, init, run, passed⟩ := trial_run (show trial mm Granted (mmInit zeroed) overlappingCalls
    (fun w => decide (w.Legal (.realloc 24 100) ∧ Granted w.heap (.realloc 24 100) ∧
      (56, 8) ∈ w.others (.realloc 24 100) ∧ (w.call mm (.realloc 24 100)).map Prod.snd = some 24)) =
      some (0, [24, 40, 56, 0], true) by decide +kernel)
  -- The payload at 56 is among those that should be kept apart.
  obtain ⟨legal, granted, other, served⟩ := of_decide_eq_true passed
  obtain ⟨⟨next, r⟩, called, rfl⟩ := Option.map_eq_some_iff.mp served
  refine ⟨h, w, next, init, run, legal, granted, called, fun upholds => ?_⟩
  have apart := upholds.disjoint 100 rfl (by decide) (56, 8) other
  simp at apart

end Tagged

end MallocLab.Seg98
