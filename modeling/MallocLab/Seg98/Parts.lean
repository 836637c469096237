import MallocLab.Seg98.Retag

/-! The functions of both files do to the blocks and the shelves what one abstract allocator does. -/

namespace MallocLab.Seg98

open Segregated

/-- The untagged blocks of at least this size are the ones that may serve a request. -/
def suits (s : Shelves) (a p : Nat) : Bool :=
  match locate s.blocks p with
  | some (_, b, _) => a ≤ b.size && !b.tag
  | none => false

/-- The first block that suits on the shelves from the class of the size on. -/
def pick (s : Shelves) (a : Nat) : Option Nat := pickList s a (suits s a)

/-- The abstract allocator that both files refine; freeing takes the tag off the block behind. -/
def policy : Skeleton.Policy Shelves where
  adjust := adjustedSize
  blocks := Shelves.blocks
  brk := Shelves.brk
  pick := pick
  carve := Shelves.carve style
  extend := Shelves.extend style
  free := fun s p => (s.retagNext p false).free style p

/-- The machine between two calls: every free block is filed, and tags may keep free neighbours apart. -/
structure Stands (f : File) (base : Nat) (h : State) (s : Shelves) : Prop where
  rep : Rep (layout f) heads h s
  filed : s.Filed style
  start : h.memStartBrk = base
  below : s.brk ≤ base + maxHeap

variable {f : File} {h : State} {s : Shelves} {b : Blk} {pre post : List Blk} {base n a p size : Nat}

/-- A block suits when it is large enough and has no tag. -/
theorem suits_eq (located : locate s.blocks p = some (pre, b, post)) :
    suits s a p = (decide (a ≤ b.size) && !b.tag) := by
  simp only [suits, located]

/-- A request of legal size is rounded up to a multiple of eight, with room for the tags. -/
theorem adjustedSize_adjusted (positive : 1 ≤ n) (small : n ≤ maxRequest) :
    adjustedSize n = max 16 (8 * ((n + 15) / 8)) ∧ Skeleton.Adjusted n (adjustedSize n) := by
  unfold maxRequest at small
  have rounded : adjustedSize n = max 16 (8 * ((n + 15) / 8)) := by
    unfold adjustedSize dsize
    split
    · omega
    · rw [add32_eq (by omega), align_eq (by omega)]
      omega
  refine ⟨rounded, ?_⟩
  rw [rounded]
  constructor <;> omega

/-- Blocks that are open to joining are free. -/
theorem opens (bs : List Blk) : ∀ a ∈ bs, style.closed a = false → a.used = false :=
  fun _ _ shut => (Bool.or_eq_false_iff.mp shut).1

/-- The blocks of a standing machine, and where they lie. -/
theorem Stands.tiles (stands : Stands f base h s) : ∃ lo, lo % 8 = 0 ∧ 8 ≤ lo ∧ h.memStartBrk ≤ lo ∧
    Tiles lo s.blocks h.memBrk ∧ h.memBrk < 2 ^ 32 := by
  obtain ⟨lo, low, aligned, _, tiles⟩ := stands.rep.tiles
  exact ⟨lo, aligned, by omega, by omega, tiles, stands.rep.arena.high⟩

/-- The blocks of a standing machine tile the heap from an aligned address on. -/
theorem Stands.tiling (stands : Stands f base h s) : ∃ lo, lo % 8 = 0 ∧ h.memStartBrk ≤ lo ∧
    Tiles lo s.blocks h.memBrk ∧ h.memBrk < 2 ^ 32 := by
  obtain ⟨lo, aligned, _, low, tiles, high⟩ := stands.tiles
  exact ⟨lo, aligned, low, tiles, high⟩

/-- A block of a standing machine is not null. -/
theorem Stands.real (stands : Stands f base h s) (member : b ∈ s.blocks) : b.addr ≠ null :=
  stands.rep.arena.real (List.mem_append_right _ member)

/-- Writing inside the payloads of used blocks keeps the machine standing. -/
theorem Stands.written {m : Mem} (stands : Stands f base h s)
    (same : ∀ x, (∀ b ∈ s.blocks, b.used = true → ¬ Payload b x) → m x = h.mem x) :
    Stands f base { h with mem := m } s :=
  ⟨stands.rep.written heads_stable same, stands.filed, stands.start, stands.below⟩

/-- Memory outside the heap does not matter. -/
theorem Stands.enclosed {m : Mem} (stands : Stands f base h s)
    (same : ∀ x, h.memStartBrk ≤ x → x < h.memBrk → m x = h.mem x) : Stands f base { h with mem := m } s :=
  ⟨stands.rep.enclosed heads_stable same, stands.filed, stands.start, stands.below⟩

/-- What is picked is a free block that is large enough and carries no tag. -/
theorem pick_some (stands : Stands f base h s) (found : pick s a = some p) :
    ∃ b ∈ s.blocks, b.addr = p ∧ b.used = false ∧ a ≤ b.size ∧ b.tag = false := by
  obtain ⟨k, _, _, member, fine⟩ := pickList_some found
  obtain ⟨b, block, rfl, free, _⟩ := stands.rep.threaded.listed k p member
  obtain ⟨pre, post, _, located⟩ := Skeleton.Rep.locate stands.rep block
  rw [suits_eq located] at fine
  obtain ⟨large, bare⟩ : a ≤ b.size ∧ b.tag = false := by simpa using fine
  exact ⟨b, block, rfl, free, large, bare⟩

section

variable (spells : Spells f.entries links)
include spells

/-- The search finds what the abstract allocator picks. -/
theorem findFit_result (rep : Rep (layout f) heads h s) (positive : a ≠ 0) :
    findFit f h a = some (h, (pick s a).getD null) := by
  refine congrArg (Option.map fun ptr => (h, ptr)) (searchLists_result spells rep positive ?_)
  intro b block _
  obtain ⟨pre, post, _, located⟩ := Skeleton.Rep.locate rep block
  have inside := rep.arena.within (List.mem_append_right _ block)
  have lower := inside.lower
  have upper := inside.upper
  have low := rep.arena.low
  have high := rep.arena.high
  -- The code reads the tag in the header, and a file without tags reads none.
  have header := rep.arena.header (List.mem_append_right _ block)
  rw [suits_eq located, marked_header header inside.whole fun tight => rep.plain tight b block]

/-- `place` serves a request from a free block that is large enough. -/
theorem place_stands (stands : Stands f base h s) (adjusted : Skeleton.Adjusted n a) (fit : policy.Fits s a p) :
    ∃ h', place f h p a = some (h', (s.carve style p a).2) ∧ Stands f base h' (s.carve style p a).1 ∧
      Keeps h h' s.blocks ∧ (s.carve style p a).2 ≠ null ∧
      Served s.blocks (s.carve style p a).1.blocks (s.carve style p a).2 (a - 8) := by
  obtain ⟨b, member, rfl, free, large⟩ := fit
  have least := adjusted.least
  -- The block is taken out of its shelf and split.
  obtain ⟨h', done, rep', keeps⟩ := place_rep spells stands.rep free stands.filed member large adjusted.whole least
  obtain ⟨pre, post, split, _⟩ := Skeleton.Rep.locate stands.rep member
  obtain ⟨lo, _, _, _, tiles, _⟩ := stands.tiles
  obtain ⟨filed', served⟩ := Shelves.carve_law stands.filed tiles split free large (by omega)
  have stands' : Stands f base h' (s.carve style b.addr a).1 :=
    ⟨rep', filed', keeps.start.trans stands.start, Shelves.carve_brk.trans_le stands.below⟩
  refine ⟨h', done, stands', keeps, ?_, served⟩
  -- What is handed out is the address of a used block.
  obtain ⟨taken, _, gained⟩ := served.gained
  obtain ⟨c, block, here, _⟩ := (gained _ taken).mpr (.inr ⟨rfl, rfl⟩)
  exact here ▸ stands'.real block

/-- `extend_heap` adds space, merged with what is free and untagged at the end. -/
theorem extend_stands (stands : Stands f base h s) (whole : size % 8 = 0) (least : 16 ≤ size)
    (room : s.brk + size ≤ h.memMaxAddr) :
    ∃ h', extendHeap f h size = some (h', (s.extend style size).2) ∧ Stands f base h' (s.extend style size).1 ∧
      Keeps h h' s.blocks ∧ (s.extend style size).2 ≠ null ∧
      policy.Fits (s.extend style size).1 size (s.extend style size).2 ∧
      ∀ q k, Occupied (s.extend style size).1.blocks q k ↔ Occupied s.blocks q k := by
  obtain ⟨h', done, rep', keeps⟩ := extend_rep spells stands.rep stands.filed whole least room
  -- The new block is free, and it is the one that the code returns.
  obtain ⟨lo, _, _, _, tiles, _⟩ := stands.tiles
  rw [stands.rep.brk] at tiles
  obtain ⟨filed', fit, same⟩ := Shelves.extend_law stands.filed tiles whole (by omega) (opens s.blocks)
  have limit : h.memMaxAddr = base + maxHeap := by rw [stands.rep.area.limit, stands.start]
  have stands' : Stands f base h' (s.extend style size).1 :=
    ⟨rep', filed', keeps.start.trans stands.start, (Shelves.extend_brk size).trans_le (limit ▸ room)⟩
  obtain ⟨b, member, here, free, large⟩ := fit
  exact ⟨h', done, stands', keeps, here ▸ stands'.real member, ⟨b, member, here, free, large⟩, same⟩

omit spells in
/-- Freeing a used block releases it. -/
theorem free_stands {free : State → Nat → Option State} (frees : Frees f free) (stands : Stands f base h s)
    (occupied : Occupied s.blocks p size) :
    ∃ h', free h p = some h' ∧ Stands f base h' (policy.free s p) ∧
      Released s.blocks (policy.free s p).blocks p ∧ Keeps h h' (others s.blocks p) := by
  obtain ⟨b, member, rfl, rfl, used⟩ := occupied
  -- The code untags the block behind, and joins the block with its neighbours.
  obtain ⟨h', done, rep', keeps⟩ := frees stands.rep stands.filed member used
  obtain ⟨pre, post, split, located⟩ := Skeleton.Rep.locate stands.rep member
  obtain ⟨lo, _, _, _, tiles, _⟩ := stands.tiles
  -- The tag of the block behind is no matter of who is in use.
  have alike := s.retagNext_alike b.addr false
  have member' : b ∈ (s.retagNext b.addr false).blocks := Shelves.mem_retagNext located
  obtain ⟨pre', post', split'⟩ := List.append_of_mem member'
  obtain ⟨filed', released⟩ := Shelves.free_law
    (stands.filed.alike alike (s.retagNext_lists b.addr false)) (alike.tiles tiles) split' (opens _)
  -- The break has not moved.
  have below : ((s.retagNext b.addr false).free style b.addr).brk ≤ base + maxHeap := by
    rw [Shelves.free_brk, Shelves.retagNext_brk]
    exact stands.below
  refine ⟨h', done, ⟨rep', filed', keeps.start.trans stands.start, below⟩,
    fun q k => (released q k).trans ?_, keeps⟩
  rw [alike.occupied]

/-- The functions of either file are the parts of the abstract allocator. -/
theorem parts {free : State → Nat → Option State} (frees : Frees f free) (base : Nat) :
    Skeleton.Parts policy base (Stands f base) adjustedSize (findFit f) (place f) (extendHeap f) free where
  adjusted := fun positive small => ⟨rfl, (adjustedSize_adjusted positive small).2⟩
  limit := fun stands => by rw [stands.rep.area.limit, stands.start]
  brk := fun stands => stands.rep.brk
  tiles := Stands.tiles
  written := Stands.written
  find := by
    intro h s n a stands adjusted
    have := adjusted.least
    exact ⟨h, findFit_result spells stands.rep (by omega), stands, Keeps.refl _ _⟩
  picked := by
    intro h s n a p stands adjusted found
    -- What is found is one of the blocks.
    obtain ⟨b, member, rfl, free, large, _⟩ := pick_some stands found
    exact ⟨stands.real member, b, member, rfl, free, large⟩
  place := fun stands adjusted _ fit => place_stands spells stands adjusted fit
  granted := fun stands whole least room => extend_stands spells stands whole (by omega) room
  refused := fun stands whole word fits full =>
    extendHeap_refused whole word fits (stands.rep.brk ▸ full)
  free := fun stands occupied => free_stands frees stands occupied

omit spells in
/-- `mm_init` succeeds when both of its requests for space are granted. -/
theorem mmInit_eq {h h₁ h₂ : State} {bp : Nat} (granted : memSbrk (emptyLists h) (toInt32 (4 * wsize)) = (h₁, p))
    (place : p ≠ minusOne) (extended : extendHeap f (Skeleton.framed h₁ p) initchunksize = some (h₂, bp))
    (real : bp ≠ null) : mmInit f h = some (h₂, 0) := by
  unfold mmInit
  simp only [granted]
  exact (if_neg place).trans (bind_step extended (if_neg real))

/-- `mm_init` succeeds on every area, whatever it contains, and leaves one free block. -/
theorem mmInit_holds (ok : Base base) (m : Mem) (statics : Nat → Nat) :
    ∃ h, mmInit f (memInit m base statics) = some (h, 0) ∧
      Holds (Stands f base) Shelves.blocks { heap := h, live := [] } (Shelves.opened style (base + 16) initchunksize) := by
  have fits := ok.fits
  have room : maxHeap = 20971520 := rfl
  -- The loop empties the lists before the first words are written.
  let start := emptyLists (memInit m base statics)
  have area := ok.area m start.statics
  have empty := Skeleton.framed_rep (layout f) heads
    (h := { start with memBrk := base + 16 }) ok ⟨area.limit, area.fits⟩ rfl rfl
    (fun _ => rfl) (fun _ => rfl) (fun k below => if_pos below)
  have limit : start.memMaxAddr = base + maxHeap := area.limit
  have nothing : Stands f base (Skeleton.framed { start with memBrk := base + 16 } base)
      { blocks := [], lists := fun _ => [], brk := base + 16 } :=
    ⟨empty, (fun _ member => nomatch member), rfl, show base + 16 ≤ base + maxHeap by omega⟩
  -- The prologue and the epilogue are there, and the heap is extended for the first time.
  obtain ⟨h, done, stands, _, real, _, same⟩ := extend_stands spells nothing (show initchunksize % 8 = 0 by decide)
    (by decide) (show base + 16 + initchunksize ≤ start.memMaxAddr by rw [show initchunksize = 64 from rfl]; omega)
  refine ⟨h, ?_, stands, Owned.start fun p size occupied => ?_⟩
  · exact mmInit_eq (ok.granted m start.statics (by decide)) (by unfold minusOne; omega) done real
  · -- No block is in use, so no payload is live.
    obtain ⟨b, member, _⟩ := (same p size).mp occupied
    exact nomatch member

end

end MallocLab.Seg98
