import MallocLab.Skeleton.Shelved

/-! What `implicit.c` is for: a next-fit allocator that coalesces at once. -/

namespace MallocLab.Implicit

/-- There are no shelves, and a leftover of sixteen bytes is a block. -/
def style : Style where
  cls := fun _ => none
  closed := Blk.used
  splits := fun left => 16 ≤ left
  high := fun _ => false

/-- The block size for a request: eight bytes of tags, rounded up to a multiple of eight. -/
def blockSize (n : Nat) : Nat := 8 * ((n + 8 + 7) / 8)

/-- The blocks, and the address of the block from which the next search goes on. -/
structure Roving where
  shelves : Shelves
  last : Nat

/-- A free block of at least this size. -/
def suits (a : Nat) (b : Blk) : Bool := !b.used && decide (a ≤ b.size)

/-- The first block that suits from the last one on, and else the first one from the start on. -/
def nextFit (r : Roving) (a : Nat) : Option Nat :=
  let ahead := r.shelves.blocks.dropWhile fun b => b.addr < r.last
  let behind := r.shelves.blocks.takeWhile fun b => b.addr < r.last
  ((ahead ++ behind).find? (suits a)).map Blk.addr

/-- The search goes on from a block that took others over, and else from where it was. -/
def follow (last : Nat) (joined : Joined) : Nat := if joined.gone = [] then last else joined.blk.addr

/-- Moves the break up and merges the new space with a trailing free block. -/
def Roving.extend (r : Roving) (size : Nat) : Roving × Nat :=
  let joined := join Blk.used r.shelves.blocks { addr := r.shelves.brk, size := size, used := false } []
  ({ shelves := (r.shelves.extend style size).1, last := follow r.last joined }, joined.blk.addr)

/-- Makes a block free and merges it. -/
def Roving.free (r : Roving) (p : Nat) : Roving :=
  match locate r.shelves.blocks p with
  | none => r
  | some (pre, b, post) =>
    { shelves := r.shelves.free style p, last := follow r.last (join Blk.used pre { b with used := false } post) }

/-- The abstract allocator that `implicit.c` refines. -/
def policy : Skeleton.Policy Roving where
  adjust := blockSize
  blocks := fun r => r.shelves.blocks
  brk := fun r => r.shelves.brk
  pick := nextFit
  carve := fun r p a => ({ r with shelves := (r.shelves.carve style p a).1 }, (r.shelves.carve style p a).2)
  extend := Roving.extend
  free := Roving.free

/-- Some block starts at this address. -/
def Starts (bs : List Blk) (p : Nat) : Prop := ∃ b ∈ bs, b.addr = p

variable {pre post fixed : List Blk} {s : Shelves} {b : Blk} {lo hi p q a : Nat}

/-- Only the addresses of blocks matter to where blocks start. -/
theorem Starts.congr {bs cs : List Blk} (starts : Starts bs p) (same : bs.map Blk.addr = cs.map Blk.addr) :
    Starts cs p := by
  have listed : p ∈ bs.map Blk.addr := List.mem_map.mpr starts
  rw [same] at listed
  exact List.mem_map.mp listed

/-- Carving a block moves no start. -/
theorem carve_starts (starts : Starts (fixed ++ s.blocks) q) :
    Starts (fixed ++ (s.carve style p a).1.blocks) q := by
  unfold Shelves.carve
  cases found : locate s.blocks p with
  | none => exact starts
  | some place =>
    obtain ⟨pre, b, post⟩ := place
    -- The block that is carved keeps its start.
    rw [(locate_some found).1] at starts
    simp only [style, Bool.false_eq_true, if_false]
    split
    · -- The carved block starts where it did, and what is left over is one more block.
      have taken : Starts (fixed ++ (pre ++ { b with size := a, used := true } :: post)) q := starts.congr (by simp)
      obtain ⟨c, member, here⟩ := taken
      refine ⟨c, ?_, here⟩
      simp only [Shelves.file_blocks, List.mem_append, List.mem_cons] at member ⊢
      tauto
    · -- The whole block is handed out.
      exact starts.congr (by simp)

/-- Freeing a block joins it, and the search follows. -/
theorem Roving.free_eq {r : Roving} (located : locate r.shelves.blocks p = some (pre, b, post)) :
    r.free p =
        { shelves := r.shelves.free style p
          last := follow r.last (join Blk.used pre { b with used := false } post) } ∧
      (r.shelves.free style p).blocks = (join Blk.used pre { b with used := false } post).blocks := by
  constructor
  · simp only [Roving.free, located]
  · simp only [Shelves.free, located]
    rfl

/-- Where the block at an address starts once `b` has been joined to its neighbours. -/
def moved (joined : Joined) (b : Blk) (p : Nat) : Nat := if p ∈ b.addr :: joined.gone then joined.blk.addr else p

/-- Blocks go on starting where they did, but those that are joined start with the joined block. -/
theorem moved_starts (tiles : Tiles lo (pre ++ b :: post) hi) (starts : Starts (fixed ++ (pre ++ b :: post)) q) :
    Starts (fixed ++ (join Blk.used pre b post).blocks) (moved (join Blk.used pre b post) b q) := by
  unfold moved
  split
  next => exact ⟨_, List.mem_append_right _ ((mem_join tiles).mpr (.inl rfl)), rfl⟩
  next apart =>
    obtain ⟨c, member, rfl⟩ := starts
    simp only [List.mem_cons, not_or] at apart
    have other : c ≠ b := fun same => apart.1 (congrArg Blk.addr same)
    rcases List.mem_append.mp member with early | member
    · exact ⟨c, List.mem_append_left _ early, rfl⟩
    · have around := (mem_middle.mp member).resolve_left other
      exact ⟨c, List.mem_append_right _ ((mem_join tiles).mpr (.inr ⟨around, apart.2⟩)), rfl⟩

/-- The search follows a block when nothing is joined and it stood there, or when the block is joined. -/
theorem follow_moved : follow p (join Blk.used pre b post) = moved (join Blk.used pre b post) b q ↔
    if (join Blk.used pre b post).gone = [] then p = q else q ∈ b.addr :: (join Blk.used pre b post).gone := by
  have addr := join_addr Blk.used pre b post
  unfold follow moved
  generalize join Blk.used pre b post = joined at addr ⊢
  by_cases quiet : joined.gone = []
  · -- The block itself may be the one at `q`, and it has not moved.
    simp only [quiet, List.not_mem_nil, or_false] at addr
    simp only [quiet, if_true, List.mem_singleton]
    split
    next here => rw [here, addr]
    next => rfl
  · -- `last_freep` goes to the joined block if it was at one of its parts.
    simp only [quiet, if_false]
    split
    next inside => exact iff_of_true rfl inside
    next apart =>
      refine iff_of_false (fun same => apart ?_) apart
      rw [← same]
      exact List.mem_cons.mpr addr

/-- Adding a block at the end moves no start, whether or not it joins the one before it. -/
theorem join_end_starts (starts : Starts (fixed ++ pre) q) : Starts (fixed ++ (join Blk.used pre b []).blocks) q := by
  rcases prev_cases Blk.used pre with shut | ⟨front, a, rfl, free⟩
  · obtain ⟨c, member, here⟩ := starts
    refine ⟨c, ?_, here⟩
    simp only [join, joinPrev_closed shut, joinNext, Joined.blocks, ← List.append_assoc]
    exact List.mem_append_left _ member
  · exact starts.congr (by simp [join, joinPrev_open free, joinNext, Joined.blocks])

/-- After joining, the search goes on from a block again. -/
theorem follow_starts (tiles : Tiles lo (pre ++ b :: post) hi) (starts : Starts (fixed ++ (pre ++ b :: post)) q) :
    Starts (fixed ++ (join Blk.used pre b post).blocks) (follow q (join Blk.used pre b post)) := by
  by_cases quiet : (join Blk.used pre b post).gone = []
  · -- Nothing is joined, so the search goes on from a block that has not moved.
    have stays : follow q (join Blk.used pre b post) = moved (join Blk.used pre b post) b q :=
      follow_moved.mpr (by rw [if_pos quiet])
    rw [stays]
    exact moved_starts tiles starts
  · have here : follow q (join Blk.used pre b post) = (join Blk.used pre b post).blk.addr := if_neg quiet
    rw [here]
    exact ⟨_, List.mem_append_right _ ((mem_join tiles).mpr (.inl rfl)), rfl⟩

end MallocLab.Implicit
