import MallocLab.Client.Owned
import MallocLab.Shelves.State

/-! Setting and clearing the tag of the block behind another; tags matter only to joining. -/

namespace MallocLab

/-- A block without its tag. -/
def Blk.bare (b : Blk) : Blk := { b with tag := false }

variable {b c : Blk} {bs bs' pre post : List Blk} {lo hi : Nat} {style : Style} {s s' : Shelves} {p : Nat} {tag : Bool}

/-- The same blocks, up to their tags. -/
def Alike (bs bs' : List Blk) : Prop := bs'.map Blk.bare = bs.map Blk.bare

/-- Every block has a counterpart that differs in the tag only. -/
theorem Alike.mem (alike : Alike bs bs') (member : c ∈ bs') : ∃ d ∈ bs, d.bare = c.bare := by
  have mapped : c.bare ∈ bs.map Blk.bare := alike ▸ List.mem_map_of_mem member
  exact List.mem_map.mp mapped

/-- Being alike works in both directions. -/
theorem Alike.symm (alike : Alike bs bs') : Alike bs' bs := Eq.symm alike

/-- Blocks that differ in the tag only agree in everything else. -/
theorem Blk.bare_eq (same : b.bare = c.bare) : b.addr = c.addr ∧ b.size = c.size ∧ b.used = c.used := by
  obtain ⟨_, _, _, _⟩ := b
  obtain ⟨_, _, _, _⟩ := c
  simpa [Blk.bare] using same

/-- Tags make no difference to the tiling. -/
theorem tiles_bare : Tiles lo (bs.map Blk.bare) hi ↔ Tiles lo bs hi := by
  induction bs generalizing lo with
  | nil => rfl
  | cons b bs ih =>
    rw [List.map_cons, tiles_cons, tiles_cons, ih]
    rfl

/-- Tags are no matter of where blocks lie. -/
theorem Alike.tiles (alike : Alike bs bs') (tiles : Tiles lo bs hi) : Tiles lo bs' hi := by
  rw [← tiles_bare, alike, tiles_bare]
  exact tiles

/-- Tags are no matter of who occupies what. -/
theorem Alike.occupied (alike : Alike bs bs') (q size : Nat) : Occupied bs' q size ↔ Occupied bs q size := by
  -- It is enough to look from one side, because being alike is symmetric.
  have one : ∀ {bs bs' : List Blk}, Alike bs bs' → Occupied bs' q size → Occupied bs q size := by
    rintro bs bs' alike ⟨c, member, rfl, rfl, used⟩
    obtain ⟨d, member', same⟩ := alike.mem member
    obtain ⟨addr, size, flag⟩ := Blk.bare_eq same
    exact ⟨d, member', addr, size, flag.trans used⟩
  exact ⟨one alike, one alike.symm⟩

namespace Shelves

/-- Sets the tag of the block after `p`, which may be the epilogue. -/
def retagNext (s : Shelves) (p : Nat) (tag : Bool) : Shelves :=
  match locate s.blocks p with
  | none => s
  | some (_, _, []) => { s with mark := tag }
  | some (pre, b, c :: post) => { s with blocks := pre ++ b :: { c with tag := tag } :: post }

/-- Retagging the next block leaves the shelves alone. -/
@[simp] theorem retagNext_lists (s : Shelves) (p : Nat) (tag : Bool) : (s.retagNext p tag).lists = s.lists := by
  unfold retagNext
  split <;> rfl

/-- It leaves the break alone. -/
@[simp] theorem retagNext_brk (s : Shelves) (p : Nat) (tag : Bool) : (s.retagNext p tag).brk = s.brk := by
  unfold retagNext
  split <;> rfl

/-- Behind the last block it is the mark that changes. -/
theorem retagNext_last (located : locate s.blocks p = some (pre, b, [])) :
    s.retagNext p tag = { s with mark := tag } := by
  simp only [retagNext, located]

/-- Otherwise it is the tag of the block behind. -/
theorem retagNext_next (located : locate s.blocks p = some (pre, b, c :: post)) :
    s.retagNext p tag = { s with blocks := pre ++ b :: { c with tag := tag } :: post } := by
  simp only [retagNext, located]

/-- Only a tag changes. -/
theorem retagNext_alike (s : Shelves) (p : Nat) (tag : Bool) : Alike s.blocks (s.retagNext p tag).blocks := by
  unfold retagNext
  split
  · rfl
  · rfl
  -- Only the block behind the located one is replaced.
  next located =>
    rw [(locate_some located).1]
    simp [Alike, Blk.bare]

/-- The block itself keeps its tag. -/
theorem mem_retagNext (located : locate s.blocks p = some (pre, b, post)) :
    b ∈ (s.retagNext p tag).blocks := by
  cases post with
  | nil =>
    rw [retagNext_last located, (locate_some located).1]
    exact List.mem_append_right _ List.mem_cons_self
  | cons c post =>
    rw [retagNext_next located]
    exact List.mem_append_right _ List.mem_cons_self

/-- Clearing a tag that is not set changes nothing. -/
theorem retagNext_clear (bare : ∀ c ∈ s.blocks, c.tag = false) (unmarked : s.mark = false) :
    s.retagNext p false = s := by
  unfold retagNext
  split
  · rfl
  · rw [← unmarked]
  next pre b c post located =>
    obtain ⟨split, _⟩ := locate_some located
    -- The block behind has no tag to clear.
    have untagged : { c with tag := false } = c := by
      rw [← bare c (by simp [split])]
    rw [untagged, ← split]

/-- Free blocks stay filed. -/
theorem Filed.alike (filed : s.Filed style) (alike : Alike s.blocks s'.blocks) (lists : s'.lists = s.lists) :
    s'.Filed style := by
  intro c member free k class_
  obtain ⟨d, member', same⟩ := alike.mem member
  obtain ⟨addr, size, flag⟩ := Blk.bare_eq same
  rw [lists, ← addr]
  exact filed d member' (flag.trans free) k (size ▸ class_)

end Shelves

end MallocLab
