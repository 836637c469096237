import MallocLab.Client.Owned
import MallocLab.Shelves.State
import MallocLab.Tiling.Canonical

/-! What the abstract allocators do to their blocks: who is in use, and where the free blocks are. -/

namespace MallocLab

/-- The blocks around a block have other addresses. -/
theorem Tiles.addr_ne {lo hi : Nat} {pre post : List Blk} {b c : Blk}
    (tiles : Tiles lo (pre ++ b :: post) hi) (member : c ∈ pre ++ post) : c.addr ≠ b.addr := by
  have least := (tiles.within (b := b) (by simp)).least
  rcases List.mem_append.mp member with member | member
  · -- A block before it ends where it starts, or earlier.
    have before := tiles.before member
    have := (tiles.within (b := c) (by simp [member])).least
    omega
  · -- A block after it starts where it ends, or later.
    have := tiles.after member
    omega

namespace Shelves

variable {style : Style} {s : Shelves} {b c : Blk} {pre post : List Blk} {lo hi a size p q k : Nat}

/-- Filing one more block files them all when the others stay where they were. -/
theorem filed_file (member : ∀ c ∈ s.blocks, c.used = false → c ≠ b →
      ∀ k, style.cls c.size = some k → c.addr ∈ s.lists k) : (s.file style b).Filed style := by
  intro c block idle k class_
  by_cases here : c = b
  · -- The new block is on the shelf for its size, and any other was filed before.
    exact here ▸ mem_file_self (here ▸ class_)
  · exact mem_file (member c block idle here k class_)

/-- Carving hands out the located block or one end of it, and files what is left over. -/
theorem carve_law (filed : s.Filed style) (tiles : Tiles lo s.blocks hi)
    (split : s.blocks = pre ++ b :: post) (free : b.used = false) (large : a ≤ b.size) (room : 8 ≤ a) :
    (s.carve style b.addr a).1.Filed style ∧
      Served s.blocks (s.carve style b.addr a).1.blocks (s.carve style b.addr a).2 (a - 8) := by
  have located := tiles.locate_split split
  -- The block is free, so no used block starts inside it.
  have fresh : ∀ p, b.addr ≤ p → p < b.addr + b.size → ∀ size, ¬ Occupied s.blocks p size := by
    intro p lower upper size
    rw [split] at tiles ⊢
    exact tiles.not_occupied free lower upper
  -- A free block elsewhere stays filed when the carved block is taken off its shelf.
  have elsewhere : ∀ c ∈ pre ++ post, c.used = false → ∀ k, style.cls c.size = some k →
      c.addr ∈ (s.drop b.addr).lists k := by
    intro c member idle k class_
    have block : c ∈ s.blocks := split ▸ mem_around member
    rw [split] at tiles
    exact mem_drop (filed c block idle k class_) (tiles.addr_ne member)
  have least := (tiles.within (b := b) (by simp [split])).least
  unfold carve
  simp only [located]
  split_ifs with splits high
  · -- The upper end is handed out, and the leftover below it is filed.
    refine ⟨filed_file ?_, fresh _ ?_ ?_, a, ?_, ?_⟩
    · intro c member idle other
      rcases mem_middle.mp member with rfl | member
      · exact absurd rfl other
      · rcases mem_middle.mp member with rfl | member
        · simp at idle
        · exact elsewhere c member idle
    · simp only
      omega
    · simp only
      omega
    · omega
    · intro q size
      simp only [file_blocks, split, occupied_append, occupied_cons, free]
      grind
  · -- The lower end is handed out, and the leftover above it is filed.
    refine ⟨filed_file ?_, fresh _ ?_ ?_, a, ?_, ?_⟩
    · intro c member idle other
      rcases mem_middle.mp member with rfl | member
      · simp at idle
      · rcases mem_middle.mp member with rfl | member
        · exact absurd rfl other
        · exact elsewhere c member idle
    · omega
    · omega
    · omega
    · intro q size
      simp only [file_blocks, split, occupied_append, occupied_cons, free]
      grind
  · -- The whole block is handed out, so nothing new is filed.
    refine ⟨?_, fresh _ ?_ ?_, b.size, ?_, ?_⟩
    · intro c member idle
      rcases mem_middle.mp member with rfl | member
      · simp at idle
      · exact elsewhere c member idle
    · omega
    · omega
    · omega
    · intro q size
      simp only [split, occupied_append, occupied_cons, free]
      grind

/-- Carving keeps free blocks apart. -/
theorem carve_separated (separated : Separated s.blocks) (p a : Nat)
    (free : ∀ pre b post, locate s.blocks p = some (pre, b, post) → b.used = false) :
    Separated (s.carve style p a).1.blocks := by
  unfold carve
  cases located : locate s.blocks p with
  | none => exact separated
  | some found =>
    obtain ⟨pre, b, post⟩ := found
    rw [(locate_some located).1] at separated
    have idle := free pre b post located
    simp only
    split_ifs
    · -- One of the two parts is in use, so free blocks stay apart.
      exact separated.split idle (.inr rfl)
    · -- The whole block is handed out, and it is in use.
      exact separated.split idle (.inl rfl)
    · exact separated.occupy rfl

/-- Merging files the merged block and changes no used block. -/
theorem merge_law (tiles : Tiles lo (pre ++ b :: post) hi) (free : b.used = false)
    (opens : ∀ a ∈ pre, style.closed a = false → a.used = false)
    (filed : ∀ c ∈ pre ++ post, c.used = false → ∀ k, style.cls c.size = some k → c.addr ∈ s.lists k) :
    (s.merge style pre b post).Filed style ∧
      ∀ q size, Occupied (s.merge style pre b post).blocks q size ↔ Occupied (pre ++ post) q size := by
  refine ⟨filed_file ?_, fun q size => ?_⟩
  · intro c member idle other k class_
    rcases (mem_join tiles).mp member with rfl | ⟨kept, stays⟩
    · exact absurd rfl other
    · -- A block that is not taken over stays on its shelf.
      exact mem_foldl_drop (filed c kept idle k class_) stays
  · exact (join_occupied tiles free opens).trans (occupied_free free)

/-- New space is merged into a block that is at least as large. -/
theorem extend_law (filed : s.Filed style) (tiles : Tiles lo s.blocks s.brk) (whole : size % 8 = 0)
    (least : 8 ≤ size) (opens : ∀ a ∈ s.blocks, style.closed a = false → a.used = false) :
    (s.extend style size).1.Filed style ∧
      (∃ b ∈ (s.extend style size).1.blocks, b.addr = (s.extend style size).2 ∧ b.used = false ∧
        size ≤ b.size) ∧
      ∀ q n, Occupied (s.extend style size).1.blocks q n ↔ Occupied s.blocks q n := by
  let fresh : Blk := { addr := s.brk, size := size, used := false }
  -- The blocks tile the heap together with the new space.
  have grown : Tiles lo (s.blocks ++ [fresh]) (s.brk + size) :=
    tiles_append.mpr ⟨s.brk, tiles, rfl, whole, least, rfl⟩
  obtain ⟨filed', occupied⟩ := merge_law (s := { s with brk := s.brk + size, mark := false }) grown rfl
    opens (fun c member => filed c (by simpa using member))
  rw [List.append_nil] at occupied
  -- Joining only adds to the size of the new space.
  have large : size ≤ (join style.closed s.blocks fresh []).blk.size := join_size (b := fresh)
  refine ⟨filed', ⟨(join style.closed s.blocks fresh []).blk, ?_, rfl, join_free rfl opens, large⟩,
    occupied⟩
  show _ ∈ (join style.closed s.blocks fresh []).blocks
  simp [Joined.blocks]

/-- Freeing a block releases it and merges it with its free neighbours. -/
theorem free_law (filed : s.Filed style) (tiles : Tiles lo s.blocks hi)
    (split : s.blocks = pre ++ b :: post)
    (opens : ∀ a ∈ s.blocks, style.closed a = false → a.used = false) :
    (s.free style b.addr).Filed style ∧ Released s.blocks (s.free style b.addr).blocks b.addr := by
  have located := tiles.locate_split split
  rw [split] at tiles
  have idle := tiles.mark false
  have around : ∀ c ∈ pre ++ post, c ∈ s.blocks := fun c member => split ▸ mem_around member
  -- The block is marked free, and then it is joined.
  obtain ⟨filed', occupied⟩ := merge_law (s := s) idle rfl
    (fun a member => opens a (around a (by simp [member]))) (fun c member => filed c (around c member))
  simp only [free, located]
  refine ⟨filed', fun q size => (occupied q size).trans ?_⟩
  have least := (idle.within (b := { b with used := false }) (by simp)).least
  -- The freed block was the only one at its address.
  have others : ∀ size, ¬ Occupied (pre ++ post) b.addr size := by
    intro size occupied
    exact idle.not_occupied rfl (Nat.le_refl _) (by simp only at least ⊢; omega)
      ((occupied_free rfl).mpr occupied)
  rw [split]
  simp only [occupied_append, occupied_cons] at others ⊢
  grind

/-- The bytes of a block that is freed belong to a free block afterwards. -/
theorem free_covers (tiles : Tiles lo s.blocks hi) (split : s.blocks = pre ++ b :: post)
    (opens : ∀ a ∈ s.blocks, style.closed a = false → a.used = false) :
    ∃ c ∈ (s.free style b.addr).blocks, c.used = false ∧ c.addr ≤ b.addr ∧
      b.addr + b.size ≤ c.addr + c.size := by
  have located := tiles.locate_split split
  rw [split] at tiles
  have idle := tiles.mark false
  obtain ⟨low, high⟩ := join_covers style.closed idle
  simp only [free, located]
  exact ⟨(join style.closed pre { b with used := false } post).blk, List.mem_append_right _ List.mem_cons_self,
    join_free rfl fun a member => opens a (by simp [split, member]), low, high⟩

/-- Freeing leaves no two free blocks side by side when every free block is open to joining. -/
theorem free_separated (separated : Separated s.blocks) (closed : style.closed = Blk.used) (p : Nat) :
    Separated (s.free style p).blocks := by
  unfold free
  cases located : locate s.blocks p with
  | none => exact separated
  | some found =>
    obtain ⟨pre, b, post⟩ := found
    rw [(locate_some located).1] at separated
    -- What lies on either side was separated before, and joining closes the gap.
    obtain ⟨left, right, _⟩ := List.isChain_append.mp separated
    show Separated (join style.closed pre { b with used := false } post).blocks
    rw [closed]
    exact join_separated left (List.isChain_cons.mp right).2

/-- Extending leaves no two free blocks side by side when every free block is open to joining. -/
theorem extend_separated (separated : Separated s.blocks) (closed : style.closed = Blk.used)
    (size : Nat) : Separated (s.extend style size).1.blocks := by
  show Separated (join style.closed s.blocks _ []).blocks
  rw [closed]
  exact join_separated separated List.isChain_nil

end Shelves

end MallocLab
