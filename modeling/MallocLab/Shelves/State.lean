import MallocLab.Tiling.Join

/-! Abstract allocators: blocks in address order, and free blocks on shelves by the class of their size. -/

namespace MallocLab

/--
The blocks in address order, the free ones on shelves with the last filed first, and the break.

`mark` is the tag of the epilogue.
-/
structure Shelves where
  blocks : List Blk
  lists : Nat → List Nat
  brk : Nat
  mark : Bool := false

/--
The choices in which abstract allocators differ.

`cls` is the shelf for a size, if there is one, and a `closed` block does not join the block after it.
`splits` says which leftovers are blocks of their own, and `high` which requests are served from the top.
-/
structure Style where
  cls : Nat → Option Nat
  closed : Blk → Bool
  splits : Nat → Bool
  high : Nat → Bool

namespace Shelves

/-- Takes an address off the shelves. -/
def drop (s : Shelves) (p : Nat) : Shelves := { s with lists := fun k => (s.lists k).erase p }

/-- Puts a block at the front of the shelf for its size. -/
def file (style : Style) (s : Shelves) (b : Blk) : Shelves :=
  { s with lists := fun k => if style.cls b.size = some k then b.addr :: s.lists k else s.lists k }

/-- Merges a free block with its free neighbours, takes those off their shelves, and files the result. -/
def merge (style : Style) (s : Shelves) (pre : List Blk) (b : Blk) (post : List Blk) : Shelves :=
  let joined := join style.closed pre b post
  { joined.gone.foldl drop s with blocks := joined.blocks }.file style joined.blk

/-- Hands out one end of a free block and files what is left over, if that can be a block. -/
def carve (style : Style) (s : Shelves) (p a : Nat) : Shelves × Nat :=
  match locate s.blocks p with
  | none => (s, 0)
  | some (pre, b, post) =>
    let left := b.size - a
    if style.splits left then
      if style.high a then
        let rest := { b with size := left }
        let taken := { addr := b.addr + left, size := a, used := true }
        ({ s.drop p with blocks := pre ++ rest :: taken :: post }.file style rest, taken.addr)
      else
        let taken := { b with size := a, used := true }
        let rest := { addr := b.addr + a, size := left, used := false }
        ({ s.drop p with blocks := pre ++ taken :: rest :: post }.file style rest, p)
    else ({ s.drop p with blocks := pre ++ { b with used := true } :: post }, p)

/-- Moves the break up and merges the new space with a trailing free block. -/
def extend (style : Style) (s : Shelves) (size : Nat) : Shelves × Nat :=
  let fresh := { addr := s.brk, size := size, used := false }
  ({ s with brk := s.brk + size, mark := false }.merge style s.blocks fresh [],
    (join style.closed s.blocks fresh []).blk.addr)

/-- Makes a block free and merges it. -/
def free (style : Style) (s : Shelves) (p : Nat) : Shelves :=
  match locate s.blocks p with
  | none => s
  | some (pre, b, post) => s.merge style pre { b with used := false } post

/-- A block of at least this size lies at this address. -/
def fits (s : Shelves) (a p : Nat) : Bool :=
  match locate s.blocks p with
  | some (_, b, _) => a ≤ b.size
  | none => false

/-- A heap of one free block, which starts at `brk`. -/
def opened (style : Style) (brk size : Nat) : Shelves where
  blocks := [{ addr := brk, size := size, used := false }]
  lists := fun k => if style.cls size = some k then [brk] else []
  brk := brk + size

/-- Every free block is on the shelf for its size. -/
def Filed (style : Style) (s : Shelves) : Prop :=
  ∀ b ∈ s.blocks, b.used = false → ∀ k, style.cls b.size = some k → b.addr ∈ s.lists k

variable {style : Style} {s : Shelves} {b : Blk} {pre post : List Blk} {a p q k : Nat}

/-- Taking a block off its shelf leaves the blocks alone. -/
@[simp] theorem drop_blocks (s : Shelves) (p : Nat) : (s.drop p).blocks = s.blocks := rfl

/-- It leaves the break alone. -/
@[simp] theorem drop_brk (s : Shelves) (p : Nat) : (s.drop p).brk = s.brk := rfl

/-- It leaves the mark alone. -/
@[simp] theorem drop_mark (s : Shelves) (p : Nat) : (s.drop p).mark = s.mark := rfl

/-- Filing a block leaves the blocks alone. -/
@[simp] theorem file_blocks (s : Shelves) (b : Blk) : (s.file style b).blocks = s.blocks := rfl

/-- It leaves the break alone. -/
@[simp] theorem file_brk (s : Shelves) (b : Blk) : (s.file style b).brk = s.brk := rfl

/-- It leaves the mark alone. -/
@[simp] theorem file_mark (s : Shelves) (b : Blk) : (s.file style b).mark = s.mark := rfl

/-- Another address stays on its shelf. -/
theorem mem_drop (listed : p ∈ s.lists k) (other : p ≠ q) : p ∈ (s.drop q).lists k :=
  (List.mem_erase_of_ne other).mpr listed

/-- What is on a shelf after taking off another block was there before. -/
theorem mem_of_mem_drop (listed : p ∈ (s.drop q).lists k) : p ∈ s.lists k := List.mem_of_mem_erase listed

/-- Taking a block that has just been filed off its shelf again undoes the filing. -/
theorem drop_file (fresh : ∀ k, b.addr ∉ s.lists k) : (s.file style b).drop b.addr = s := by
  -- Filing puts the address in front of one shelf, where erasing finds it first.
  have lists : (fun k => (if style.cls b.size = some k then b.addr :: s.lists k else s.lists k).erase b.addr) =
      s.lists := by
    funext k
    split
    · exact List.erase_cons_head b.addr (s.lists k)
    · exact List.erase_of_not_mem (fresh k)
  unfold file drop
  simp only [lists]

/-- Addresses that are not taken off stay on their shelves. -/
theorem mem_foldl_drop {gone : List Nat} (listed : p ∈ s.lists k) (stays : p ∉ gone) :
    p ∈ (gone.foldl drop s).lists k := by
  induction gone generalizing s with
  | nil => exact listed
  | cons q gone ih =>
    -- The address differs from the first one taken off and is not among the rest.
    simp only [List.mem_cons, not_or] at stays
    exact ih (mem_drop listed stays.1) stays.2

/-- Taking addresses off the shelves is no matter of the blocks. -/
theorem foldl_drop_blocks (gone : List Nat) (bs : List Blk) :
    gone.foldl drop { s with blocks := bs } = { gone.foldl drop s with blocks := bs } := by
  induction gone generalizing s with
  | nil => rfl
  | cons q gone ih => exact ih (s := s.drop q)

/-- Taking off several blocks leaves the break alone. -/
theorem foldl_drop_brk (gone : List Nat) : (gone.foldl drop s).brk = s.brk := by
  induction gone generalizing s with
  | nil => rfl
  | cons q gone ih => exact ih (s := s.drop q)

/-- Only an extension moves the break. -/
@[simp] theorem merge_brk : (s.merge style pre b post).brk = s.brk := foldl_drop_brk _

/-- Extending the heap moves the break by the size. -/
@[simp] theorem extend_brk (size : Nat) : (s.extend style size).1.brk = s.brk + size := foldl_drop_brk _

/-- Freeing a block leaves the break alone. -/
@[simp] theorem free_brk : (s.free style p).brk = s.brk := by
  unfold free
  split
  · rfl
  · exact merge_brk

/-- Carving a block leaves the break alone. -/
@[simp] theorem carve_brk : (s.carve style p a).1.brk = s.brk := by
  unfold carve
  split
  · rfl
  · simp only
    split_ifs <;> rfl

/-- Merging replaces the blocks, whatever they were. -/
theorem merge_blocks (bs : List Blk) :
    { s with blocks := bs }.merge style pre b post = s.merge style pre b post := by
  have same := foldl_drop_blocks (s := s) (join style.closed pre b post).gone bs
  unfold merge
  generalize join style.closed pre b post = joined at same ⊢
  simp only [same]

/-- Extending merges a block that has been added at the end. -/
theorem extend_fst (size : Nat) :
    (s.extend style size).1 =
      merge style { s with
        blocks := s.blocks ++ [{ addr := s.brk, size := size, used := false }]
        brk := s.brk + size
        mark := false } s.blocks { addr := s.brk, size := size, used := false } [] :=
  (merge_blocks (s := { s with brk := s.brk + size, mark := false }) _).symm

/-- A filed block is on its shelf. -/
theorem mem_file_self (class_ : style.cls b.size = some k) : b.addr ∈ (s.file style b).lists k := by
  simp [file, class_]

/-- Filing a block keeps what is on the shelves. -/
theorem mem_file (listed : p ∈ s.lists k) : p ∈ (s.file style b).lists k := by
  unfold file
  simp only
  split
  · -- A new front pushes the rest of its shelf back.
    exact List.mem_cons_of_mem _ listed
  · exact listed

/-- Whether a located block fits is a matter of its size. -/
theorem fits_eq (located : locate s.blocks p = some (pre, b, post)) :
    s.fits a p = decide (a ≤ b.size) := by
  simp [fits, located]

end Shelves

end MallocLab
