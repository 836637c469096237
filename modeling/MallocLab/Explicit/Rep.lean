import MallocLab.Explicit.Lifo
import MallocLab.Explicit.Mm

/-! How the words of memory represent the blocks and the stack of the abstract allocator. -/

namespace MallocLab.Explicit

/-- `PREC` is the first payload word of a block and `SUCC` the second. -/
abbrev links : Offsets := .prevFirst

/-- The prologue block, which also ends the free list. -/
def prologue (base : Nat) : Blk := { addr := base + 8, size := 16, used := true }

/-- One list of all free blocks, which ends at the prologue. -/
def layout : Layout where
  links := links
  loose := false
  least := 16
  style := style
  fixed := fun base => [prologue base]
  before := fun _ _ => null
  sentinel := fun base k => if k = 0 then some (base + 8) else none
  room := by decide
  solid := fun _ => List.cons_ne_nil _ _
  guarded := by simp [prologue]
  pinned := by
    intro base k p ends
    split at ends
    · obtain rfl := Option.some.inj ends
      exact ⟨prologue base, by simp, rfl, Nat.le_refl 16⟩
    · simp at ends
  single := by
    intro base j k p first second
    split at first <;> split at second
    · omega
    all_goals simp_all

/-- The free list starts at `free_listp`. -/
def heads (h : State) (lists : Nat → List Nat) : Prop :=
  h.statics.freeListp = (lists 0).headD (h.memStartBrk + 8)

/-- Stores into the blocks leave `free_listp` alone. -/
theorem heads_stable : Stable layout heads :=
  stable_statics fun (statics : Statics) start lists => statics.freeListp = (lists 0).headD (start + 8)

variable {h : State} {s : Shelves} {p : Nat}

/-- The free list ends at the prologue. -/
theorem chain_eq (base : Nat) (nodes : List Nat) : layout.chain base 0 nodes = nodes ++ [base + 8] :=
  rfl

/-- The chain starts where the free list starts. -/
theorem headD_chain (base : Nat) (nodes : List Nat) :
    (layout.chain base 0 nodes).headD null = nodes.headD (base + 8) := by
  cases nodes <;> rfl

/-- The chain is never empty. -/
theorem exists_chain (base : Nat) (nodes : List Nat) :
    ∃ c rest, layout.chain base 0 nodes = c :: rest := by
  cases nodes <;> exact ⟨_, _, rfl⟩

/-- The blocks after the prologue tile the rest of the heap. -/
theorem rep_tiles (rep : Rep layout heads h s) : Tiles (h.memStartBrk + 24) s.blocks h.memBrk :=
  rep.arena.tiles.tail

/-- The free list holds free blocks only. -/
theorem rep_listed (rep : Rep layout heads h s) (member : p ∈ s.lists 0) :
    ∃ b ∈ s.blocks, b.addr = p ∧ b.used = false := by
  obtain ⟨b, block, here, free, _⟩ := rep.threaded.listed 0 p member
  exact ⟨b, block, here, free⟩

end MallocLab.Explicit
