import MallocLab.Tiling.Block

/-! Joining a block to its neighbours: what the joined tiling keeps and what disappears. -/

namespace MallocLab

/-- A block with its surroundings after joining, and the addresses that stopped being blocks of their own. -/
structure Joined where
  pre : List Blk
  blk : Blk
  post : List Blk
  gone : List Nat

/-- The whole list of blocks after joining. -/
def Joined.blocks (j : Joined) : List Blk := j.pre ++ j.blk :: j.post

/-- A block joins the one before it unless that one is closed to joining. -/
def joinPrev (closed : Blk → Bool) (pre : List Blk) (b : Blk) : List Blk × Blk × List Nat :=
  match pre.getLast? with
  | none => (pre, b, [])
  | some a =>
    if closed a then (pre, b, [])
    else (pre.dropLast, { a with size := a.size + b.size }, [a.addr])

/-- A block joins the one after it when that one is free. -/
def joinNext (b : Blk) : List Blk → Blk × List Blk × List Nat
  | [] => (b, [], [])
  | c :: post =>
    if c.used then (b, c :: post, [])
    else ({ b with size := b.size + c.size }, post, [c.addr])

/-- A block joins both of its neighbours, where they allow it. -/
def join (closed : Blk → Bool) (pre : List Blk) (b : Blk) (post : List Blk) : Joined :=
  let (pre, b, left) := joinPrev closed pre b
  let (b, post, right) := joinNext b post
  { pre := pre, blk := b, post := post, gone := left ++ right }

variable {closed : Blk → Bool} {pre post : List Blk} {a b c : Blk} {lo hi : Nat}

/-- Either nothing before the block can be joined, or the last block before it can. -/
theorem prev_cases (closed : Blk → Bool) (pre : List Blk) :
    (∀ a ∈ pre.getLast?, closed a = true) ∨ ∃ front a, pre = front ++ [a] ∧ closed a = false := by
  rcases List.eq_nil_or_concat pre with rfl | ⟨front, a, rfl⟩
  · simp
  · rw [List.concat_eq_append]
    cases shut : closed a with
    | true => left; simp [shut]
    | false => exact .inr ⟨front, a, rfl, shut⟩

/-- Either nothing after the block is free, or the first block after it is. -/
theorem next_cases (post : List Blk) :
    (∀ c ∈ post.head?, c.used = true) ∨ ∃ c rest, post = c :: rest ∧ c.used = false := by
  cases post with
  | nil => simp
  | cons c rest =>
    cases used : c.used with
    | true => left; simp [used]
    | false => exact .inr ⟨c, rest, rfl, used⟩

/-- Nothing is joined with a closed block before. -/
theorem joinPrev_closed (shut : ∀ a ∈ pre.getLast?, closed a = true) :
    joinPrev closed pre b = (pre, b, []) := by
  unfold joinPrev
  cases last : pre.getLast? with
  | none => rfl
  | some a => simp [shut a (by simp [last])]

/-- An open block before takes the new one over. -/
theorem joinPrev_open (shut : closed a = false) :
    joinPrev closed (pre ++ [a]) b = (pre, { a with size := a.size + b.size }, [a.addr]) := by
  simp [joinPrev, shut]

/-- Nothing is joined with a used block behind. -/
theorem joinNext_closed (used : ∀ c ∈ post.head?, c.used = true) :
    joinNext b post = (b, post, []) := by
  cases post with
  | nil => rfl
  | cons c rest => simp [joinNext, used c (by simp)]

/-- A free block behind is taken over. -/
theorem joinNext_open (used : c.used = false) :
    joinNext b (c :: post) = ({ b with size := b.size + c.size }, post, [c.addr]) := by
  simp [joinNext, used]

/-- Joining to the left still covers the same addresses. -/
theorem joinPrev_tiles (tiles : Tiles lo (pre ++ b :: post) hi) :
    Tiles lo ((joinPrev closed pre b).1 ++ (joinPrev closed pre b).2.1 :: post) hi := by
  rcases prev_cases closed pre with shut | ⟨front, a, rfl, shut⟩
  · rw [joinPrev_closed shut]
    exact tiles
  · rw [joinPrev_open shut]
    -- The sizes add up, so the joined block ends where the block behind it starts.
    simp only [List.append_assoc, tiles_append, List.singleton_append, tiles_cons] at tiles ⊢
    obtain ⟨mid, left, start, whole, least, next, moreWhole, moreLeast, right⟩ := tiles
    exact ⟨mid, left, start, by omega, by omega, by simpa only [Nat.add_assoc] using right⟩

/-- Joining to the right still covers the same addresses. -/
theorem joinNext_tiles (tiles : Tiles lo (pre ++ b :: post) hi) :
    Tiles lo (pre ++ (joinNext b post).1 :: (joinNext b post).2.1) hi := by
  rcases next_cases post with used | ⟨c, rest, rfl, used⟩
  · rw [joinNext_closed used]
    exact tiles
  · rw [joinNext_open used]
    simp only [tiles_append, tiles_cons] at tiles ⊢
    obtain ⟨mid, left, start, whole, least, next, moreWhole, moreLeast, right⟩ := tiles
    exact ⟨mid, left, start, by omega, by omega, by simpa only [Nat.add_assoc] using right⟩

/-- Joining covers the same addresses with fewer blocks. -/
theorem join_tiles (tiles : Tiles lo (pre ++ b :: post) hi) :
    Tiles lo (join closed pre b post).blocks hi :=
  joinNext_tiles (joinPrev_tiles tiles)

/-- The blocks that joining takes over were neighbours, and they were open to joining. -/
theorem join_gone {p : Nat} (gone : p ∈ (join closed pre b post).gone) :
    (∃ a ∈ pre, a.addr = p ∧ closed a = false) ∨ ∃ c ∈ post, c.addr = p ∧ c.used = false := by
  unfold join at gone
  simp only [List.mem_append] at gone
  rcases gone with left | right
  · -- On the left only the last block before `b` can have been taken over.
    rcases prev_cases closed pre with shut | ⟨front, a, rfl, shut⟩
    · simp [joinPrev_closed shut] at left
    · simp only [joinPrev_open shut, List.mem_singleton] at left
      exact .inl ⟨a, by simp, left.symm, shut⟩
  · -- On the right only the first block behind it can.
    rcases next_cases post with used | ⟨c, rest, rfl, used⟩
    · simp [joinNext_closed used] at right
    · simp only [joinNext_open used, List.mem_singleton] at right
      exact .inr ⟨c, by simp, right.symm, used⟩

/-- Exactly the taken-over block disappears from the left. -/
theorem mem_joinPrev (tiles : Tiles lo pre hi) :
    c ∈ (joinPrev closed pre b).1 ↔ c ∈ pre ∧ c.addr ∉ (joinPrev closed pre b).2.2 := by
  -- Nothing is joined.
  rcases prev_cases closed pre with shut | ⟨front, a, rfl, shut⟩
  · simp [joinPrev_closed shut]
  · -- Every block further left starts below the last one.
    have other : c ∈ front → c.addr ≠ a.addr := by
      intro member
      have least := (tiles.within (b := c) (by simp [member])).least
      have earlier := tiles.before member
      omega
    -- The last block is the one that goes.
    simp only [joinPrev_open shut, List.mem_append, List.mem_singleton]
    constructor
    · exact fun member => ⟨.inl member, other member⟩
    · rintro ⟨member | rfl, kept⟩
      · exact member
      · exact absurd rfl kept

/-- Exactly the taken-over block disappears from the right. -/
theorem mem_joinNext (tiles : Tiles lo post hi) :
    c ∈ (joinNext b post).2.1 ↔ c ∈ post ∧ c.addr ∉ (joinNext b post).2.2 := by
  -- Nothing is joined.
  rcases next_cases post with used | ⟨d, rest, rfl, used⟩
  · simp [joinNext_closed used]
  · -- Every block further right starts above the first one.
    have other : c ∈ rest → c.addr ≠ d.addr := by
      intro member
      have least := (tiles.within (b := d) (by simp)).least
      have later := (tiles.tail.within member).lower
      omega
    -- The first block is the one that goes.
    simp only [joinNext_open used, List.mem_cons, List.not_mem_nil, or_false]
    constructor
    · exact fun member => ⟨.inr member, other member⟩
    · rintro ⟨rfl | member, kept⟩
      · exact absurd rfl kept
      · exact member

/-- The blocks after joining are the joined block and the old ones that it did not take over. -/
theorem mem_join (tiles : Tiles lo (pre ++ b :: post) hi) :
    c ∈ (join closed pre b post).blocks ↔
      c = (join closed pre b post).blk ∨
        (c ∈ pre ++ post ∧ c.addr ∉ (join closed pre b post).gone) := by
  obtain ⟨left, right, inside⟩ := tiles.cut
  -- A block on one side never has the address of one taken over on the other side.
  have leftKept : c ∈ pre → ∀ b', c.addr ∉ (joinNext b' post).2.2 := by
    intro member b' gone
    have cLeast := (left.within member).least
    have earlier := (left.within member).upper
    rcases next_cases post with used | ⟨d, rest, rfl, used⟩
    · simp [joinNext_closed used] at gone
    · simp only [joinNext_open used, List.mem_singleton] at gone
      have later := (right.within (b := d) (by simp)).lower
      omega
  have rightKept : c ∈ post → c.addr ∉ (joinPrev closed pre b).2.2 := by
    intro member gone
    have least := inside.least
    have later := (right.within member).lower
    rcases prev_cases closed pre with shut | ⟨front, a, rfl, shut⟩
    · simp [joinPrev_closed shut] at gone
    · simp only [joinPrev_open shut, List.mem_singleton] at gone
      have aInside := left.within (b := a) (by simp)
      have aLeast := aInside.least
      have aUpper := aInside.upper
      omega
  -- Each side loses exactly what was taken over on that side.
  have prev : c ∈ (joinPrev closed pre b).1 ↔ _ := mem_joinPrev left
  have next : c ∈ (joinNext (joinPrev closed pre b).2.1 post).2.1 ↔ _ := mem_joinNext right
  simp only [join, Joined.blocks, List.mem_append, List.mem_cons, prev, next]
  constructor
  · -- A block of the result is one of the left side, the joined one, or one of the right side.
    rintro (⟨member, kept⟩ | rfl | ⟨member, kept⟩)
    · exact .inr ⟨.inl member, by simp [kept, leftKept member]⟩
    · exact .inl rfl
    · exact .inr ⟨.inr member, by simp [kept, rightKept member]⟩
  · -- Each of these is in the result.
    rintro (rfl | ⟨member | member, kept⟩)
    · exact .inr (.inl rfl)
    · exact .inl ⟨member, fun gone => kept (.inl gone)⟩
    · exact .inr (.inr ⟨member, fun gone => kept (.inr gone)⟩)

/-- A free block joined to free blocks is free. -/
theorem join_free (free : b.used = false) (opens : ∀ a ∈ pre, closed a = false → a.used = false) :
    (join closed pre b post).blk.used = false := by
  -- There are four ways to join; whatever takes part in one of them is free.
  rcases prev_cases closed pre with shut | ⟨front, a, rfl, shut⟩ <;>
    rcases next_cases post with used | ⟨d, rest, rfl, used⟩
  · simp [join, joinPrev_closed shut, joinNext_closed used, free]
  · simp [join, joinPrev_closed shut, joinNext_open used, free]
  · simp [join, joinPrev_open shut, joinNext_closed used, opens a (by simp) shut]
  · simp [join, joinPrev_open shut, joinNext_open used, opens a (by simp) shut]

/-- Joining a free block to free blocks changes no used block. -/
theorem join_occupied {p size : Nat} (tiles : Tiles lo (pre ++ b :: post) hi) (free : b.used = false)
    (opens : ∀ a ∈ pre, closed a = false → a.used = false) :
    Occupied (join closed pre b post).blocks p size ↔ Occupied (pre ++ b :: post) p size := by
  have merged : (join closed pre b post).blk.used = false := join_free free opens
  constructor
  · -- A used block of the result is not the joined one, so it has been there before.
    rintro ⟨c, member, here, large, used⟩
    rcases (mem_join tiles).mp member with rfl | ⟨kept, _⟩
    · simp [merged] at used
    · exact ⟨c, mem_around kept, here, large, used⟩
  · -- A used block is not joined.
    rintro ⟨c, member, here, large, used⟩
    have kept : c ∈ pre ++ post := mem_others_free free member used
    refine ⟨c, (mem_join tiles).mpr (.inr ⟨kept, fun gone => ?_⟩), here, large, used⟩
    -- A block that is taken over is free.
    rcases join_gone gone with ⟨a, left, same, shut⟩ | ⟨a, right, same, shut⟩
    · obtain rfl := tiles.addr_inj (mem_around (by simp [left])) member same
      simp [opens a left shut] at used
    · obtain rfl := tiles.addr_inj (mem_around (by simp [right])) member same
      simp [shut] at used

/-- A joined block starts where the block did, or where a block that is gone did. -/
theorem join_addr (closed : Blk → Bool) (pre : List Blk) (b : Blk) (post : List Blk) :
    (join closed pre b post).blk.addr = b.addr ∨
      (join closed pre b post).blk.addr ∈ (join closed pre b post).gone := by
  -- Only a block before it can move the start.
  rcases prev_cases closed pre with shut | ⟨front, a, rfl, shut⟩ <;>
    rcases next_cases post with used | ⟨c, rest, rfl, used⟩
  · simp [join, joinPrev_closed shut, joinNext_closed used]
  · simp [join, joinPrev_closed shut, joinNext_open used]
  · simp [join, joinPrev_open shut, joinNext_closed used]
  · simp [join, joinPrev_open shut, joinNext_open used]

/-- A joined block is at least as large as the block that was joined. -/
theorem join_size : b.size ≤ (join closed pre b post).blk.size := by
  -- Each of the four ways to join only adds to the size.
  rcases prev_cases closed pre with shut | ⟨front, a, rfl, shut⟩ <;>
    rcases next_cases post with used | ⟨d, rest, rfl, used⟩
  · simp [join, joinPrev_closed shut, joinNext_closed used]
  · simp [join, joinPrev_closed shut, joinNext_open used]
  · simp [join, joinPrev_open shut, joinNext_closed used]
  · simp only [join, joinPrev_open shut, joinNext_open used]
    omega

/-- A joined block covers the block that was joined. -/
theorem join_covers (closed : Blk → Bool) (tiles : Tiles lo (pre ++ b :: post) hi) :
    (join closed pre b post).blk.addr ≤ b.addr ∧
      b.addr + b.size ≤ (join closed pre b post).blk.addr + (join closed pre b post).blk.size := by
  -- The block before ends where this one starts.
  have adjoin : ∀ front a, pre = front ++ [a] → a.addr + a.size = b.addr := by
    rintro front a rfl
    rw [List.append_assoc, List.singleton_append] at tiles
    exact tiles.cut.2.1.1.symm
  rcases prev_cases closed pre with shut | ⟨front, a, split, shut⟩ <;>
    rcases next_cases post with used | ⟨d, rest, rfl, used⟩
  · simp [join, joinPrev_closed shut, joinNext_closed used]
  · simp [join, joinPrev_closed shut, joinNext_open used]
  · -- The joined block starts where the block before does.
    have := adjoin front a split
    subst split
    simp only [join, joinPrev_open shut, joinNext_closed used]
    omega
  · have := adjoin front a split
    subst split
    simp only [join, joinPrev_open shut, joinNext_open used]
    omega

/-- A joined block covers the starts of the blocks that were joined. -/
theorem join_starts {p : Nat} (closed : Blk → Bool) (tiles : Tiles lo (pre ++ b :: post) hi)
    (start : p ∈ b.addr :: (join closed pre b post).gone) :
    (join closed pre b post).blk.addr ≤ p ∧
      p < (join closed pre b post).blk.addr + (join closed pre b post).blk.size := by
  obtain ⟨left, right, inside⟩ := tiles.cut
  have positive := inside.least
  have covers := join_covers closed tiles
  rcases List.mem_cons.mp start with rfl | gone
  · omega
  · rcases prev_cases closed pre with shut | ⟨front, a, rfl, shut⟩ <;>
      rcases next_cases post with used | ⟨d, rest, rfl, used⟩
    · simp [join, joinPrev_closed shut, joinNext_closed used] at gone
    · -- The block behind starts where this one ends.
      have adjoin := right.1
      have least := right.2.2.1
      simp only [join, joinPrev_closed shut, joinNext_open used, List.nil_append, List.mem_singleton] at gone ⊢
      omega
    · simp only [join, joinPrev_open shut, joinNext_closed used, List.append_nil, List.mem_singleton] at gone ⊢
      omega
    · -- The block before ends where this one starts.
      have before : a.addr + a.size = b.addr := tiles_nil.mp left.cut.2.1
      have adjoin := right.1
      have least := right.2.2.1
      simp only [join, joinPrev_open shut, joinNext_open used, List.mem_append, List.mem_singleton] at gone ⊢
      omega

/-- No two neighbouring blocks are both free. -/
def Separated (bs : List Blk) : Prop := bs.IsChain fun a b => a.used = true ∨ b.used = true

/-- The block before a free block is in use. -/
theorem Separated.before (separated : Separated (pre ++ b :: post)) (free : b.used = false) :
    ∀ x ∈ pre.getLast?, x.used = true := by
  intro x last
  -- The pair of neighbours needs a used block, and the later one is free.
  have edge := (List.isChain_append.mp separated).2.2 x last b rfl
  exact edge.resolve_right (by simp [free])

/-- The block after a free block is in use. -/
theorem Separated.after (separated : Separated (pre ++ b :: post)) (free : b.used = false) :
    ∀ x ∈ post.head?, x.used = true := by
  intro x first
  have edge := (List.isChain_cons.mp (List.isChain_append.mp separated).2.1).1 x first
  exact edge.resolve_left (by simp [free])

/-- Between used blocks there is nothing to join. -/
theorem join_alone (before : ∀ x ∈ pre.getLast?, x.used = true) (after : ∀ x ∈ post.head?, x.used = true) :
    join Blk.used pre b post = { pre := pre, blk := b, post := post, gone := [] } := by
  simp [join, joinPrev_closed before, joinNext_closed after]

/-- Only a free block after it joins. -/
theorem join_next (before : ∀ x ∈ pre.getLast?, x.used = true) (free : c.used = false) :
    join Blk.used pre b (c :: post) =
      { pre := pre, blk := { b with size := b.size + c.size }, post := post, gone := [c.addr] } := by
  simp [join, joinPrev_closed before, joinNext_open free]

/-- Used blocks may be put in front. -/
theorem Separated.prepend (separated : Separated post) (used : ∀ b ∈ pre, b.used = true) :
    Separated (pre ++ post) := by
  induction pre with
  | nil => exact separated
  | cons b pre ih =>
    have rest := ih fun c member => used c (by simp [member])
    exact List.isChain_cons.mpr ⟨fun _ _ => .inl (used b (by simp)), rest⟩

/-- Replacing a block by a used one keeps free blocks apart. -/
theorem Separated.occupy (separated : Separated (pre ++ b :: post)) (used : c.used = true) :
    Separated (pre ++ c :: post) := by
  -- Both pairs that the new block takes part in have a used block in it.
  unfold Separated at separated ⊢
  simp only [List.isChain_append, List.isChain_cons, List.head?_cons, Option.mem_some_iff] at separated ⊢
  refine ⟨separated.1, ⟨fun _ _ => .inl used, separated.2.1.2⟩, ?_⟩
  rintro x _ y rfl
  exact .inr used

/-- Splitting a free block keeps free blocks apart when one of its two parts becomes used. -/
theorem Separated.split {d : Blk} (separated : Separated (pre ++ b :: post)) (free : b.used = false)
    (one : c.used = true ∨ d.used = true) : Separated (pre ++ c :: d :: post) := by
  -- The neighbours of a free block are in use, which settles the two outer pairs.
  unfold Separated at separated ⊢
  simp only [List.isChain_append, List.isChain_cons, List.head?_cons, Option.mem_some_iff,
    forall_eq', free, Bool.false_eq_true, or_false, false_or] at separated ⊢
  exact ⟨separated.1, ⟨one, fun y next => .inr (separated.2.1.1 y next), separated.2.1.2⟩,
    fun x last => .inl (separated.2.2 x last)⟩

/-- What stays to the left of a joined block is separated and ends in a used block. -/
theorem joinPrev_separated (left : Separated pre) :
    Separated (joinPrev Blk.used pre b).1 ∧
      ∀ x ∈ (joinPrev Blk.used pre b).1.getLast?, x.used = true := by
  rcases prev_cases Blk.used pre with shut | ⟨front, a, rfl, free⟩
  · rw [joinPrev_closed shut]
    exact ⟨left, shut⟩
  · -- The block behind a free one is in use.
    unfold Separated at *
    rw [joinPrev_open free]
    simp only [List.isChain_append, List.isChain_singleton, List.head?_cons, Option.mem_some_iff,
      forall_eq', free, Bool.false_eq_true, or_false] at left
    exact ⟨left.1, left.2.2⟩

/-- What stays to the right of a joined block is separated and starts with a used block. -/
theorem joinNext_separated (right : Separated post) :
    Separated (joinNext b post).2.1 ∧ ∀ y ∈ (joinNext b post).2.1.head?, y.used = true := by
  rcases next_cases post with used | ⟨d, rest, rfl, free⟩
  · rw [joinNext_closed used]
    exact ⟨right, used⟩
  · unfold Separated at *
    rw [joinNext_open free]
    simp only [List.isChain_cons, free, Bool.false_eq_true, false_or] at right
    exact ⟨right.2, right.1⟩

/-- Joining a block with both of its free neighbours leaves no two free blocks side by side. -/
theorem join_separated (left : Separated pre) (right : Separated post) :
    Separated (join Blk.used pre b post).blocks := by
  -- What is left on each side faces the joined block with a used one.
  obtain ⟨front, frontEdge⟩ := joinPrev_separated (b := b) left
  obtain ⟨rest, restEdge⟩ := joinNext_separated (b := (joinPrev Blk.used pre b).2.1) right
  unfold Separated at *
  simp only [join, Joined.blocks, List.isChain_append, List.isChain_cons, List.head?_cons,
    Option.mem_some_iff]
  refine ⟨front, ⟨fun y next => .inr (restEdge y next), rest⟩, ?_⟩
  rintro x last _ rfl
  exact .inl (frontEdge x last)

end MallocLab
