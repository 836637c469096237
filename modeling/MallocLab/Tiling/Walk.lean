import MallocLab.Machine.Loop
import MallocLab.Tiling.Arena
import MallocLab.Tiling.Join

/-! What a reader of the heap sees who follows `NEXT_BLKP` from its first block. -/

namespace MallocLab

variable {γ : Type}

/-- `NEXT_BLKP` leads from a block through these blocks to a header of size zero. -/
def HeapWalk (h : Heap γ) (start : Nat) (passed : List Nat) (stop : Nat) : Prop :=
  Trail (nextBlkp h) (fun p => getSize h (hdrp p) = 0) start passed stop

/--
The heap from `start` to its break, as the macros read it.

It has the fixed blocks in front, then blocks of at least `least` bytes, and an epilogue at the end.
-/
structure WellFormed (h : Heap γ) (start : Nat) (fixed rest : List Nat) (least : Nat) : Prop where
  walk : HeapWalk h start (fixed ++ rest) h.memBrk
  epilogue : h.get (hdrp h.memBrk) = pack 0 1
  aligned : ∀ p ∈ fixed ++ rest, p % 8 = 0
  tags : ∀ p ∈ fixed ++ rest, h.get (hdrp p) = h.get (ftrp h p)
  sizes : ∀ p ∈ fixed ++ rest, getSize h (hdrp p) % 8 = 0
  large : ∀ p ∈ rest, least ≤ getSize h (hdrp p)
  coalesced : (fixed ++ rest).IsChain fun p q => getAlloc h (hdrp p) = 1 ∨ getAlloc h (hdrp q) = 1

variable {h : Heap γ} {lo hi least : Nat} {b : Blk} {fixed bs : List Blk} {loose mark : Bool}

/-- The header at the end of an arena has no size. -/
theorem Arena.last (arena : Arena loose h.mem lo hi bs mark) : getSize h (hdrp hi) = 0 := by
  have low := arena.low
  have rise := arena.tiles.le
  -- An epilogue header consists of flags only.
  have mark' := Bool.toNat_lt_two mark
  have used : true.toNat = 1 := rfl
  rw [getSize_eq, hdrp_eq (by omega) arena.high, Heap.get, arena.closing]
  simp only [epilogue, Blk.word]
  omega

/-- A walk passes blocks each of which starts where the one before it ends. -/
theorem HeapWalk.of_next {ps : List Nat} {stop : Nat} (next : ps.map (nextBlkp h) = ps.tail ++ [stop])
    (sizes : ∀ p ∈ ps, getSize h (hdrp p) ≠ 0) (last : getSize h (hdrp stop) = 0) :
    HeapWalk h (ps.headD stop) ps stop := by
  induction ps with
  | nil => exact nomatch next
  | cons p ps ih =>
    -- The rest is a walk from the next block.
    have walk : HeapWalk h (nextBlkp h p) ps stop := by
      cases ps with
      | nil =>
        have here : nextBlkp h p = stop := by simpa using next
        rw [here]
        exact .stop last
      | cons q rest =>
        obtain ⟨here, later⟩ : nextBlkp h p = q ∧ (q :: rest).map (nextBlkp h) = rest ++ [stop] := by
          simpa using next
        rw [here]
        exact ih later fun r inside => sizes r (List.mem_cons_of_mem _ inside)
    exact .step (sizes p List.mem_cons_self) walk

/-- The walk from the first block of an arena passes exactly its blocks. -/
theorem Arena.walk (arena : Arena loose h.mem lo hi bs mark) :
    HeapWalk h lo (bs.map Blk.addr) hi := by
  -- The induction is on the blocks that are still ahead.
  have ahead : ∀ (pre : List Blk) {post : List Blk} {p : Nat}, bs = pre ++ post → Tiles p post hi →
      HeapWalk h p (post.map Blk.addr) hi := by
    intro pre post p split tiles
    induction post generalizing pre p with
    | nil =>
      -- With no block left the walk stands at the epilogue, whose size is zero.
      obtain rfl := tiles_nil.mp tiles
      exact .stop arena.last
    | cons b post ih =>
      obtain ⟨rfl, _, least, rest⟩ := tiles
      have member : b ∈ bs := by simp [split]
      -- A block has a positive size, and `NEXT_BLKP` leads to where the next one starts.
      refine .step ?_ ?_
      · show ¬ getSize h (hdrp b.addr) = 0
        rw [arena.size member]
        omega
      · rw [arena.next member]
        exact ih (pre ++ [b]) (by simp [split]) rest
  exact ahead [] rfl arena.tiles

/-- The blocks that the headers describe, from a payload address on up to a header of size zero. -/
def readBlocks (h : Heap γ) : Nat → Nat → List Blk
  | 0, _ => []
  | turns + 1, p =>
    let size := getSize h (hdrp p)
    if size = 0 then []
    else { addr := p, size := size, used := getAlloc h (hdrp p) = 1 } :: readBlocks h turns (nextBlkp h p)

/-- The headers of an untagged heap describe its blocks. -/
theorem Arena.readBlocks (arena : Arena loose h.mem lo h.memBrk (fixed ++ bs) mark) {p : Nat}
    (plain : ∀ b ∈ bs, b.tag = false) (tiles : Tiles p bs h.memBrk) :
    MallocLab.readBlocks h pointerTurns p = bs := by
  have high := arena.high
  -- The induction is on the blocks ahead; each of them takes eight bytes at least.
  have ahead : ∀ (turns : Nat) (pre : List Blk) {post : List Blk} {p : Nat}, bs = pre ++ post →
      Tiles p post h.memBrk → h.memBrk < p + turns → MallocLab.readBlocks h turns p = post := by
    intro turns
    induction turns with
    | zero =>
      intro pre post p _ tiles enough
      -- Without turns left the walk would have passed the end of the heap.
      have := tiles.le
      omega
    | succ turns ih =>
      intro pre post p split tiles enough
      unfold MallocLab.readBlocks
      cases post with
      | nil =>
        obtain rfl := tiles_nil.mp tiles
        exact if_pos arena.last
      | cons b post =>
        obtain ⟨rfl, _, least, rest⟩ := tiles
        have member : b ∈ fixed ++ bs := by simp [split]
        have free := plain b (by simp [split])
        -- The block ahead uses one turn and eight bytes or more.
        have after := ih (pre ++ [b]) (by simp [split]) rest (by omega)
        simp only [arena.size member, arena.alloc member, arena.next member, after]
        rw [if_neg (by omega)]
        -- Size, address and allocation bit are all there is to an untagged block.
        cases b with
        | mk addr size used tag =>
          obtain rfl : tag = false := free
          cases used <;> rfl
  exact ahead pointerTurns [] rfl tiles (by unfold pointerTurns; omega)

/-- The header of an untagged block repeats in its footer. -/
theorem Arena.header_footer (arena : Arena false h.mem lo hi bs mark) (member : b ∈ bs)
    (plain : b.tag = false) : h.get (hdrp b.addr) = h.get (MallocLab.ftrp h b.addr) := by
  have word : b.word = b.size + b.used.toNat := by simp [Blk.word, plain]
  have footer := (arena.tags b member).footer
  rw [arena.header member, arena.ftrp member, Heap.get, word]
  rcases footer with footer | ⟨stray, _⟩
  · exact footer.symm
  · simp at stray

/-- What a reader of an untagged heap sees. -/
theorem Arena.wellFormed (arena : Arena false h.mem lo h.memBrk (fixed ++ bs) false)
    (aligned : lo % 8 = 0) (plain : ∀ b ∈ fixed ++ bs, b.tag = false)
    (large : ∀ b ∈ bs, least ≤ b.size) (separated : Separated (fixed ++ bs)) :
    WellFormed h lo (fixed.map Blk.addr) (bs.map Blk.addr) least where
  -- The walk is the one of the blocks.
  walk := by
    rw [← List.map_append]
    exact arena.walk
  epilogue := by
    have low := arena.low
    have rise := arena.tiles.le
    -- The word below the break is that of a used block of no size.
    rw [hdrp_eq (by omega) arena.high, Heap.get, arena.closing]
    show 0 + (2 * false.toNat + true.toNat) = pack 0 1
    decide
  -- The blocks are aligned.
  aligned := by
    rw [← List.map_append]
    refine List.forall_mem_map.mpr fun b member => ?_
    have := (arena.within member).aligned
    omega
  -- The header of a block is its footer.
  tags := by
    rw [← List.map_append]
    exact List.forall_mem_map.mpr fun b member => arena.header_footer member (plain b member)
  sizes := by
    rw [← List.map_append]
    refine List.forall_mem_map.mpr fun b member => ?_
    rw [arena.size member]
    exact (arena.within member).whole
  -- The blocks behind the prologue are large enough.
  large := by
    refine List.forall_mem_map.mpr fun b member => ?_
    rw [arena.size (List.mem_append_right fixed member)]
    exact large b member
  -- No two free blocks lie next to each other.
  coalesced := by
    rw [← List.map_append, List.isChain_map]
    refine List.IsChain.imp_of_mem_imp ?_ separated
    intro a b first second one
    rw [arena.alloc first, arena.alloc second]
    -- The allocation bits that the macros read are those of the blocks.
    rcases one with used | used <;> simp [used]

end MallocLab
