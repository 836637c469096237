import MallocLab.Skeleton.Shelved

/-! What `mm.c` is for: a last-in first-out, first-fit allocator that coalesces at once. -/

namespace MallocLab.Explicit

/-- All free blocks are on one shelf, the stack, and a leftover of sixteen bytes is a block. -/
def style : Style where
  cls := fun _ => some 0
  closed := Blk.used
  splits := fun left => 16 ≤ left
  high := fun _ => false

/-- The block size for a request: eight bytes of tags, rounded up to a multiple of eight. -/
def blockSize (n : Nat) : Nat := 8 * ((n + 8 + 7) / 8)

/-- The first block of the stack that is large enough. -/
def firstFit (s : Shelves) (a : Nat) : Option Nat := (s.lists 0).find? (s.fits a)

/-- The abstract allocator that `mm.c` refines. -/
def lifo : Skeleton.Policy Shelves := Skeleton.shelved style blockSize firstFit

/-- The state after initialization over an area that starts at `base`: one free block on the stack. -/
def initial (base : Nat) : Shelves := Shelves.opened style (base + 24) 4096

end MallocLab.Explicit
