import MallocLab.Seg98.Parts

/-! Enlarging a block in place, when the space that the heap is extended by adjoins what is taken over. -/

namespace MallocLab.Seg98

open Segregated

variable {f : File} {h : State} {s : Shelves} {b c : Blk} {pre post : List Blk} {base n size newSize grow total : Nat}

/-- The size of the block behind, which is nothing at the end of the heap. -/
def behindSize (post : List Blk) : Nat := (post.head?.map Blk.size).getD 0

/--
The block has become the union of itself, what was free behind it, and `grow` bytes of new space.

New space is only asked for when it adjoins what was there.
-/
structure Enlarged (s s' : Shelves) (pre : List Blk) (b : Blk) (post : List Blk) (grow : Nat) : Prop where
  blocks : s'.blocks = pre ++ { addr := b.addr, size := b.size + behindSize post + grow, used := true } :: post.tail
  brk : s'.brk = s.brk + grow
  adjoins : grow = 0 ∨ b.addr + b.size + behindSize post = s.brk

/-- The difference of two sizes below `2^31` is exact as an `int`. -/
theorem toInt32_sub32 {x y : Nat} (small : x < 2 ^ 31) (small' : y < 2 ^ 31) :
    toInt32 (sub32 x y) = (x : Int) - y := by
  unfold toInt32 sub32
  split <;> omega

/-- Adding such a difference back to the smaller size restores the other one. -/
theorem add32_ofInt32 {x y : Nat} {i : Int} (sum : (y : Int) + i = x) (small : x < 2 ^ 31) :
    add32 y (ofInt32 i) = x := by
  unfold add32 ofInt32
  omega

/-- A block that is not in use when it is sought behind the block, or the epilogue. -/
def Open (post : List Blk) : Prop := ∀ c ∈ post.head?, c.used = false

/-- The code reads whether the block behind is free or the epilogue. -/
theorem open_iff (rep : Rep (layout f) heads h s) (split : s.blocks = pre ++ b :: post) :
    open_ h b.addr = true ↔ Open post := by
  have arena := rep.arena
  rw [split, ← List.append_assoc] at arena
  unfold open_
  rw [arena.following_alloc, arena.following_size]
  cases post with
  | nil => simp [Open, following, epilogue]
  | cons c post =>
    have least := (arena.within (b := c) (by simp)).least
    cases used : c.used <;> simp [Open, following, used]
    omega

/-- Where the block and the one behind it lie. -/
structure Room (base : Nat) (s : Shelves) (b : Blk) (post : List Blk) : Prop where
  low : base ≤ b.addr
  top : b.addr + b.size + behindSize post ≤ s.brk
  small : b.size + behindSize post < 2 ^ 31
  whole : (b.size + behindSize post) % 8 = 0

/-- In a standing state they lie inside the area, and their joint size does not wrap. -/
theorem Stands.room (stands : Stands f base h s) (split : s.blocks = pre ++ b :: post) : Room base s b post := by
  obtain ⟨lo, _, _, start, tiles, high⟩ := stands.tiles
  have begins := stands.start
  have below := stands.below
  have limit : maxHeap = 20971520 := rfl
  -- The blocks tile the heap, and so does what is behind this one.
  rw [split, stands.rep.brk] at tiles
  obtain ⟨_, right, inside⟩ := tiles.cut
  have lower := inside.lower
  have whole := inside.whole
  have top : b.addr + b.size + behindSize post ≤ s.brk ∧ behindSize post % 8 = 0 := by
    cases post with
    | nil => exact ⟨right.le, rfl⟩
    | cons c rest =>
      have upper := (right.within (b := c) (by simp)).upper
      have here : c.addr = b.addr + b.size := right.1
      exact ⟨by show b.addr + b.size + c.size ≤ s.brk; omega, right.2.1⟩
  obtain ⟨top, even⟩ := top
  exact ⟨by omega, top, by omega, by omega⟩

/-- `remainder` is what the two blocks have beyond the size that is asked for. -/
theorem remainder_eq (stands : Stands f base h s) (split : s.blocks = pre ++ b :: post) (small : newSize < 2 ^ 31) :
    remainder h b.addr newSize = (b.size + behindSize post : Nat) - (newSize : Int) := by
  have arena := stands.rep.arena
  rw [split, ← List.append_assoc] at arena
  have room := (stands.room split).small
  have size : (following post h.memBrk s.mark).size = behindSize post := by
    cases post <;> rfl
  unfold remainder
  rw [arena.size (by simp), arena.following_size, size, add32_eq (by omega), toInt32_sub32 room small]

variable (spells : Spells f.entries links)
include spells

/-- The block takes over the free block behind it. -/
theorem absorb_rep (rep : Rep (layout f) heads h s) (filed : s.Filed style) (split : s.blocks = pre ++ b :: c :: post)
    (used : b.used = true) (free : c.used = false) (total : n = b.size + c.size) :
    ∃ h', absorb f h b.addr n = some (h', b.addr) ∧
      Rep (layout f) heads h' { s.drop c.addr with
        blocks := pre ++ { addr := b.addr, size := n, used := true } :: post } ∧ Keeps h h' (pre ++ post) := by
  have member : b ∈ s.blocks := by simp [split]
  have member' : c ∈ s.blocks := by simp [split]
  -- The block behind is taken off its shelf.
  obtain ⟨h₁, removed, rep₁, keeps₁⟩ := (keeper spells).remove rep (b := c) member' free (filed c member' free)
  obtain ⟨lo, low, _, _, tiles⟩ := rep.tiles
  have high := rep.arena.high
  rw [split] at tiles
  obtain ⟨_, right, inside⟩ := tiles.cut
  obtain ⟨adjoin, cWhole, cLeast, rest⟩ := right
  have whole := inside.whole
  have lower := inside.lower
  have least := inside.least
  have top := rest.le
  have next : nextBlkp h b.addr = c.addr := (rep.arena.next (List.mem_append_right _ member)).trans adjoin.symm
  let m : Blk := { addr := b.addr, size := n, used := true }
  -- The two blocks become one.
  have region : s.blocks = pre ++ [b, c] ++ post := by simp [split]
  have covers : Tiles m.addr [b, c] (m.addr + m.size) :=
    ⟨rfl, whole, least, adjoin, cWhole, cLeast, show b.addr + b.size + c.size = b.addr + n by omega⟩
  have out : ∀ k, ∀ x ∈ [b, c], x.addr ∉ (s.drop c.addr).lists k := by
    intro k
    simp only [List.forall_mem_cons, List.not_mem_nil, false_imp_iff, implies_true, and_true]
    exact ⟨fun listed => rep.unlisted member used k (Shelves.mem_of_mem_drop listed), rep.not_mem_drop c.addr k⟩
  obtain ⟨rep', keeps'⟩ := rep₁.rebrand heads_stable (b := m) region (by simp) covers out
    (show Footer f.tagged m (n + 1) from .inl rfl) fun _ => rfl
  -- The code stores the header and the footer of the larger block.
  have written : (h₁.put (hdrp b.addr) (pack n 1)).put (ftrp (h₁.put (hdrp b.addr) (pack n 1)) b.addr) (pack n 1) =
      { h₁ with mem := stamp h₁.mem b.addr n (n + 1) } :=
    put_tags (by omega) (by omega) (by omega) (by omega) (by decide)
  refine ⟨_, ?_, rep', (keeps₁.narrow fun x block _ => split ▸ mem_around (mem_around block)).trans keeps'⟩
  unfold absorb
  rw [next]
  exact bind_step removed (congrArg (fun g => some (g, b.addr)) written)

/-- The machine stands after the block has taken over the free block behind it. -/
theorem absorb_stands (stands : Stands f base h s) (split : s.blocks = pre ++ b :: c :: post) (used : b.used = true)
    (free : c.used = false) (total : n = b.size + c.size) :
    ∃ h', absorb f h b.addr n = some (h', b.addr) ∧
      Stands f base h' { s.drop c.addr with
        blocks := pre ++ { addr := b.addr, size := n, used := true } :: post } ∧ Keeps h h' (pre ++ post) := by
  obtain ⟨h', done, rep', keeps⟩ := absorb_rep spells stands.rep stands.filed split used free total
  refine ⟨h', done, ⟨rep', ?_, keeps.start.trans stands.start, stands.below⟩, keeps⟩
  obtain ⟨lo, _, _, _, tiles, _⟩ := stands.tiles
  have split' : s.blocks = (pre ++ [b]) ++ c :: post := by simp [split]
  rw [split'] at tiles
  -- Every other free block stays on its shelf.
  have elsewhere : ∀ x ∈ (pre ++ [b]) ++ post, x.used = false → ∀ k, style.cls x.size = some k →
      x.addr ∈ (s.drop c.addr).lists k := by
    intro x member idle k class_
    exact Shelves.mem_drop (stands.filed x (split' ▸ mem_around member) idle k class_) (tiles.addr_ne member)
  intro x member idle
  rcases List.mem_append.mp member with left | right
  · -- A block before it.
    exact elsewhere x (by simp [left]) idle
  · -- The larger block itself is used.
    rcases List.mem_cons.mp right with rfl | right
    · exact nomatch idle
    · exact elsewhere x (by simp [right]) idle

/-- What is free behind the block is enough. -/
theorem enlarge_enough (stands : Stands f base h s) (split : s.blocks = pre ++ b :: c :: post) (used : b.used = true)
    (free : c.used = false) (small : newSize < 2 ^ 31) (enough : newSize ≤ b.size + c.size) :
    ∃ h' s', enlarge f h b.addr newSize = some (h', b.addr) ∧ Stands f base h' s' ∧
      Enlarged s s' pre b (c :: post) 0 ∧ Keeps h h' (pre ++ post) := by
  have seen : remainder h b.addr newSize = (b.size + c.size : Nat) - (newSize : Int) := remainder_eq stands split small
  have room : b.size + c.size < 2 ^ 31 := (stands.room split).small
  obtain ⟨h', done, stands', keeps⟩ := absorb_stands spells stands split used free rfl
  refine ⟨h', _, ?_, stands', ⟨rfl, rfl, .inl rfl⟩, keeps⟩
  unfold enlarge
  simp only [seen]
  rw [if_neg (by omega), add32_ofInt32 (x := b.size + c.size) (by omega) room]
  exact done

/-- The heap is extended, and the new space joins what is free behind the block. -/
theorem enlarge_extended {rest : List Blk} (stands : Stands f base h s) (split : s.blocks = pre ++ b :: rest) (used : b.used = true)
    (joins : rest = [] ∨ ∃ c, rest = [c] ∧ c.used = false ∧ c.tag = false) (whole : newSize % 8 = 0)
    (small : newSize < 2 ^ 31) (short : b.size + behindSize rest < newSize)
    (grow_ : grow = max (newSize - (b.size + behindSize rest)) 4096) (granted : s.brk + grow ≤ base + maxHeap) :
    ∃ h' s', enlarge f h b.addr newSize = some (h', b.addr) ∧ Stands f base h' s' ∧
      Enlarged s s' pre b rest grow ∧ Keeps h h' pre := by
  have seen : remainder h b.addr newSize = _ := remainder_eq stands split small
  obtain ⟨low, top, room, even⟩ := stands.room split
  have limit : maxHeap = 20971520 := rfl
  have fits := stands.rep.area.fits
  have area : h.memMaxAddr = base + maxHeap := by rw [stands.rep.area.limit, stands.start]
  -- The heap is extended, and the extension joins what is behind the block.
  obtain ⟨h₁, extended, stands₁, keeps₁, real, _, same⟩ := extend_stands spells stands
    (show grow % 8 = 0 by omega) (by omega) (area ▸ granted)
  -- Behind the block there is now one free block, which ends where the heap does.
  have behind_ : ∃ c, (s.extend style grow).1.blocks = pre ++ b :: c :: [] ∧ c.used = false ∧
      c.size = behindSize rest + grow := by
    have ends : ∀ x ∈ ([] : List Blk).head?, x.used = true := fun _ none_ => nomatch none_
    have blocks : (s.extend style grow).1.blocks =
        (join style.closed s.blocks { addr := s.brk, size := grow, used := false } []).blocks := rfl
    -- Nothing is behind, so the extension is a block of its own.
    rcases joins with rfl | ⟨c, rfl, free, bare⟩
    · have shut : ∀ a ∈ (pre ++ [b]).getLast?, style.closed a = true := by simp [style, used]
      refine ⟨{ addr := s.brk, size := grow, used := false }, ?_, rfl, (Nat.zero_add grow).symm⟩
      rw [blocks, split]
      simp [join, Joined.blocks, joinPrev_closed shut, joinNext_closed ends]
    · -- There is a free block behind, which the extension joins.
      have shut : style.closed c = false := by simp [style, free, bare]
      refine ⟨{ c with size := c.size + grow }, ?_, free, rfl⟩
      rw [blocks, split, show pre ++ [b, c] = (pre ++ [b]) ++ [c] by simp]
      simp only [join, Joined.blocks, joinPrev_open shut, joinNext_closed ends]
      simp
  obtain ⟨c, split₁, free, large⟩ := behind_
  -- The code takes that block over.
  obtain ⟨h', done, stands', keeps'⟩ := absorb_stands spells stands₁ split₁ used free
    (n := b.size + behindSize rest + grow) (by omega)
  have tail : rest.tail = [] := by rcases joins with rfl | ⟨c, rfl, _⟩ <;> rfl
  refine ⟨h', _, ?_, stands', ⟨?_, Shelves.extend_brk grow, ?_⟩, ?_⟩
  · -- The request is what the code computes in 32 bits.
    unfold enlarge
    simp only [seen]
    have request : max (neg32 (((b.size + behindSize rest : Nat) : Int) - newSize)) (chunksize : Nat) = (grow : Int) := by
      have chunk : chunksize = 4096 := rfl
      rw [neg32_eq (by omega) (by omega)]
      omega
    have asked : ofInt32 (grow : Int) = grow := by
      unfold ofInt32
      omega
    rw [if_pos (by omega), request, asked]
    refine bind_step extended ((if_neg real).trans ?_)
    rw [add32_ofInt32 (x := b.size + behindSize rest + grow) (by omega) (by omega)]
    exact done
  · -- Nothing is left behind.
    rw [tail]
  · -- The larger block ends at the new break.
    refine .inr ?_
    obtain ⟨lo, _, _, _, tiles, _⟩ := stands.tiles
    rw [split, stands.rep.brk] at tiles
    obtain ⟨_, right, _⟩ := tiles.cut
    rcases joins with rfl | ⟨c, rfl, _⟩
    · exact tiles_nil.mp right
    · rw [← tiles_nil.mp right.tail, right.1]
      rfl
  · -- The blocks before it keep their contents.
    refine (keeps₁.narrow fun x block _ => ?_).trans (keeps'.narrow fun x block _ => List.mem_append_left _ block)
    rw [split]
    exact List.mem_append_left _ block

end MallocLab.Seg98
