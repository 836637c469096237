import MallocLab.Machine.Loop
import MallocLab.Threads.Rep

/-! Coalescing by boundary tags, for every way in which a file keeps its lists. -/

namespace MallocLab

variable {γ : Type}

/-- What the macros read around a block, and where its neighbours lie. -/
structure Seen (h : Heap γ) (a b c : Blk) : Prop extends Reads h a b c where
  low : 8 ≤ a.addr
  adjoin : b.addr = a.addr + a.size
  onward : c.addr = b.addr + b.size
  top : c.addr + c.size < 2 ^ 32
  whole : a.size % 8 = 0 ∧ b.size % 8 = 0 ∧ c.size % 8 = 0
  least : 8 ≤ a.size ∧ 8 ≤ b.size

variable {L : Layout} {heads : Heap γ → (Nat → List Nat) → Prop} {h : Heap γ} {s : Shelves}
variable {a b c : Blk} {front pre mid post : List Blk} {footer size : Nat}

/-- The sizes of neighbours add up below the break, so their sum does not wrap. -/
theorem Seen.sum_next (seen : Seen h a b c) : add32 b.size c.size = b.size + c.size := by
  have ⟨_, low, adjoin, onward, top, whole, least⟩ := seen
  exact add32_eq (by omega)

/-- The same for the block before, with the word that marks the sum as free. -/
theorem Seen.sum_prev (seen : Seen h a b c) :
    add32 b.size a.size = a.size + b.size ∧ pack (a.size + b.size) 0 = a.size + b.size + 0 := by
  have ⟨_, low, adjoin, onward, top, whole, least⟩ := seen
  exact ⟨by rw [add32_eq (by omega), Nat.add_comm], pack_eq (by omega) (by decide)⟩

/-- The same for both neighbours. -/
theorem Seen.sum_both (seen : Seen h a b c) :
    add32 b.size (add32 a.size c.size) = a.size + b.size + c.size ∧
      pack (a.size + b.size + c.size) 0 = a.size + b.size + c.size + 0 := by
  have ⟨_, low, adjoin, onward, top, whole, least⟩ := seen
  have inner : add32 a.size c.size = a.size + c.size := add32_eq (by omega)
  refine ⟨?_, pack_eq (by omega) (by decide)⟩
  rw [inner, add32_eq (by omega)]
  omega

/-- `FTRP(bp)` is found through the header that is read. -/
theorem Seen.ftrp (seen : Seen h a b c) : ftrp h b.addr = b.addr + b.size - 8 := by
  obtain ⟨reads, low, adjoin, onward, top, whole, least⟩ := seen
  unfold MallocLab.ftrp dsize
  rw [reads.size, add32_eq (by omega), sub32_eq (by omega) (by omega)]

/-- Setting the footer of a block and then the header of the one before brands both as one block. -/
theorem Seen.brandBack (seen : Seen h a b c) (wide : 16 ≤ a.size) (v w : Nat) :
    prevBlkp (h.put (MallocLab.ftrp h b.addr) v) b.addr = a.addr ∧
      (h.put (MallocLab.ftrp h b.addr) v).put (hdrp a.addr) w =
        { h with mem := brand h.mem a.addr (a.size + b.size) w v } ∧
      prevBlkp { h with mem := brand h.mem a.addr (a.size + b.size) w v } b.addr = a.addr := by
  -- Neither of the two words is the footer of the block before.
  rw [seen.ftrp]
  have ⟨reads, low, adjoin, onward, top, whole, least⟩ := seen
  have header : hdrp a.addr = a.addr - 4 := hdrp_eq (by omega) (by omega)
  have first : prevBlkp (h.put (b.addr + b.size - 8) v) b.addr = a.addr := by
    rw [prevBlkp_put (by omega) (by omega) (by omega), reads.prev]
  have branded : (h.put (b.addr + b.size - 8) v).put (hdrp a.addr) w =
      { h with mem := brand h.mem a.addr (a.size + b.size) w v } := by
    rw [header, show b.addr + b.size - 8 = a.addr + (a.size + b.size) - 8 by omega]
    simp only [Heap.put, brand]
    rw [storeWord_comm (by omega)]
  -- The block before is found through its own footer, which stays.
  refine ⟨first, branded, ?_⟩
  rw [← branded, header, prevBlkp_put (by omega) (by omega) (by omega), first]

/-- Setting the header of the block before and then the footer of the block after brands all three. -/
theorem Seen.brandAround (seen : Seen h a b c) (wide : 16 ≤ a.size) (enough : 8 ≤ c.size)
    (foot : MallocLab.ftrp h c.addr = c.addr + c.size - 8) (v w : Nat) :
    nextBlkp (h.put (hdrp a.addr) w) b.addr = c.addr ∧
      MallocLab.ftrp (h.put (hdrp a.addr) w) c.addr = c.addr + c.size - 8 ∧
      (h.put (hdrp a.addr) w).put (c.addr + c.size - 8) v =
        { h with mem := brand h.mem a.addr (a.size + b.size + c.size) w v } ∧
      prevBlkp { h with mem := brand h.mem a.addr (a.size + b.size + c.size) w v } b.addr = a.addr := by
  have ⟨reads, low, adjoin, onward, top, whole, least⟩ := seen
  have header : hdrp a.addr = a.addr - 4 := hdrp_eq (by omega) (by omega)
  have branded : (h.put (a.addr - 4) w).put (c.addr + c.size - 8) v =
      { h with mem := brand h.mem a.addr (a.size + b.size + c.size) w v } := by
    rw [show c.addr + c.size - 8 = a.addr + (a.size + b.size + c.size) - 8 by omega]
    rfl
  rw [header]
  -- The block behind is found through the header in the middle, which stays.
  refine ⟨?_, ?_, branded, ?_⟩
  · rw [nextBlkp_put (by omega) (by omega) (by omega), reads.next]
  · rw [ftrp_put (by omega) (by omega) (by omega), foot]
  · rw [← branded, prevBlkp_put (by omega) (by omega) (by omega),
      prevBlkp_put (by omega) (by omega) (by omega), reads.prev]

/-- The arena around a block, with the block before it named. -/
theorem Rep.around (rep : Rep L heads h s) (last : L.fixed h.memStartBrk ++ pre = front ++ [a])
    (split : s.blocks = pre ++ b :: post) :
    Arena L.loose h.mem (h.memStartBrk + 8) h.memBrk (front ++ a :: b :: post) s.mark := by
  have arena := rep.arena
  rw [split, ← List.append_assoc, last] at arena
  simpa using arena

/-- What the macros see in a represented state. -/
theorem Rep.seen (rep : Rep L heads h s) (last : L.fixed h.memStartBrk ++ pre = front ++ [a])
    (split : s.blocks = pre ++ b :: post) : Seen h a b (following post h.memBrk s.mark) := by
  have arena := rep.around last split
  obtain ⟨_, right, inside⟩ := arena.tiles.cut
  have lower := inside.lower
  have tail := right.tail
  have high := arena.high
  have start : b.addr = a.addr + a.size := right.1
  have bWhole := right.2.1
  have bLeast := right.2.2.1
  refine ⟨arena.reads, by omega, start, ?_, ?_, ?_, inside.least, bLeast⟩
  · -- The block behind begins where this one ends, or the heap ends there.
    cases post with
    | nil => exact (tiles_nil.mp tail).symm
    | cons c post => exact tail.1
  · -- All of it lies below the top of the address space.
    cases post with
    | nil => exact high
    | cons c post =>
      have rest := tail.tail.le
      show c.addr + c.size < 2 ^ 32
      omega
  · -- All sizes are multiples of eight.
    refine ⟨inside.whole, bWhole, ?_⟩
    cases post with
    | nil => rfl
    | cons c post => exact tail.2.1

/-- Some block, possibly a fixed one, lies before every place in the heap. -/
theorem Layout.exists_prev (L : Layout) (base : Nat) (pre : List Blk) :
    ∃ front a, L.fixed base ++ pre = front ++ [a] := by
  rcases List.eq_nil_or_concat (L.fixed base ++ pre) with empty | ⟨front, a, last⟩
  · exact absurd (List.append_eq_nil_iff.mp empty).1 (L.solid base)
  · exact ⟨front, a, by rw [last, List.concat_eq_append]⟩

/-- The block before is fixed, or it is the last one of the heap proper there. -/
theorem Layout.prev_eq {base : Nat} (last : L.fixed base ++ pre = front ++ [a]) :
    pre = [] ∧ a ∈ L.fixed base ∨ pre.getLast? = some a := by
  rcases List.eq_nil_or_concat pre with rfl | ⟨rest, x, rfl⟩
  · rw [List.append_nil] at last
    exact .inl ⟨rfl, by simp [last]⟩
  · right
    have := congrArg List.getLast? last
    rw [List.concat_eq_append] at *
    rw [← List.append_assoc, List.getLast?_concat, List.getLast?_concat] at this
    rw [List.getLast?_concat, this]

/-- The block before is in use when no block of the heap proper lies free there. -/
theorem Layout.prev_used {base : Nat} (last : L.fixed base ++ pre = front ++ [a])
    (shut : ∀ x ∈ pre.getLast?, x.used = true) : a.used = true := by
  rcases L.prev_eq last with ⟨_, fixed⟩ | here
  · exact (L.guarded base a fixed).1
  · exact shut a (by simp [here])

/-- The block that follows is in use when the next one is, or when there is only the epilogue. -/
theorem following_used {hi : Nat} {mark : Bool} (used : ∀ c ∈ post.head?, c.used = true) :
    (following post hi mark).used = true := by
  cases post with
  | nil => rfl
  | cons c post => exact used c (by simp)

/-- The guarantees of the functions that take a free block off its list and put one on. -/
structure Keeper (L : Layout) (heads : Heap γ → (Nat → List Nat) → Prop)
    (remove : Heap γ → Nat → Option (Heap γ)) (insert : Heap γ → Nat → Nat → Option (Heap γ)) :
    Prop where
  stable : Stable L heads
  remove : ∀ {h s b}, Rep L heads h s → b ∈ s.blocks → b.used = false →
    (∀ k, L.style.cls b.size = some k → b.addr ∈ s.lists k) →
    ∃ h', remove h b.addr = some h' ∧ Rep L heads h' (s.drop b.addr) ∧ Keeps h h' s.blocks
  insert : ∀ {h s b}, Rep L heads h s → b ∈ s.blocks → b.used = false →
    (∀ k, b.addr ∉ s.lists k) →
    ∃ h', insert h b.addr b.size = some h' ∧ Rep L heads h' (s.file L.style b) ∧ Keeps h h' s.blocks ∧
      ∀ x, b.addr + L.links.width ≤ x → x < b.addr + b.size → h'.mem x = h.mem x

variable {remove : Heap γ → Nat → Option (Heap γ)} {insert lone : Heap γ → Nat → Nat → Option (Heap γ)}

/-- One free block takes the place of a region of unlisted blocks and is then listed. -/
theorem Keeper.relist (keeper : Keeper L heads remove insert) (rep : Rep L heads h s) {m : Blk}
    (split : s.blocks = pre ++ mid ++ post) (nonempty : mid ≠ [])
    (covers : Tiles m.addr mid (m.addr + m.size)) (free : m.used = false)
    (out : ∀ k, ∀ x ∈ mid, x.addr ∉ s.lists k) (foot : Footer L.loose m footer)
    (plain : L.loose = false → m.tag = false) :
    ∃ h', insert { h with mem := brand h.mem m.addr m.size m.word footer } m.addr m.size = some h' ∧
      Rep L heads h' ({ s with blocks := pre ++ m :: post }.file L.style m) ∧
      Keeps h h' (pre ++ post) ∧ ∀ x, m.addr + L.links.width ≤ x → x < m.addr + m.size →
        h'.mem x = brand h.mem m.addr m.size m.word footer x := by
  -- The header and the footer make one block of the region.
  obtain ⟨rep', keeps⟩ := rep.rebrand keeper.stable split nonempty covers out foot plain
  obtain ⟨first, rest, rfl⟩ := List.exists_cons_of_ne_nil nonempty
  -- The new block is on no list, since none of the old ones is.
  have fresh : ∀ k, m.addr ∉ s.lists k := fun k => covers.1 ▸ out k first (by simp)
  obtain ⟨h', done, rep'', keeps', inner⟩ := keeper.insert rep' (b := m) (by simp) free fresh
  exact ⟨h', done, rep'', keeps.trans (keeps'.narrow fun b member _ => mem_around member), inner⟩

/-- An address that is dropped is on no shelf any more. -/
theorem Rep.not_mem_drop (rep : Rep L heads h s) (p k : Nat) : p ∉ (s.drop p).lists k :=
  (rep.threaded.nodup k).not_mem_erase

/-- The memory after a free block's header and footer are set, as the allocators without tags do. -/
def Heap.freed (h : Heap γ) (p size : Nat) : Heap γ := { h with mem := stamp h.mem p size (size + 0) }

/--
What the four turns of a `coalesce` do, by which neighbours are in use.

`lone` lists a block that has nothing to merge with, and `insert` lists a merged block.
-/
structure Turns (L : Layout) (coalesce : Heap γ → Nat → Option (Heap γ × Nat))
    (remove : Heap γ → Nat → Option (Heap γ)) (lone insert : Heap γ → Nat → Nat → Option (Heap γ)) :
    Prop where
  alone : ∀ {h h' a b c}, Seen h a b c → a.used = true → c.used = true →
    lone h b.addr b.size = some h' → coalesce h b.addr = some (h', b.addr)
  next : ∀ {h h₁ h' a b c}, Seen h a b c → a.used = true → c.used = false →
    remove h c.addr = some h₁ → Seen h₁ a b c →
    insert (h₁.freed b.addr (b.size + c.size)) b.addr (b.size + c.size) = some h' →
    coalesce h b.addr = some (h', b.addr)
  prev : ∀ {h h₁ h' a b c}, Seen h a b c → a.used = false → c.used = true →
    L.links.width + 8 ≤ a.size → remove h a.addr = some h₁ → Seen h₁ a b c →
    insert (h₁.freed a.addr (a.size + b.size)) a.addr (a.size + b.size) = some h' →
    (∀ x, a.addr + L.links.width ≤ x → x < a.addr + (a.size + b.size) →
      h'.mem x = (h₁.freed a.addr (a.size + b.size)).mem x) →
    coalesce h b.addr = some (h', a.addr)
  both : ∀ {h h₁ h₂ h' a b c}, Seen h a b c → a.used = false → c.used = false →
    L.links.width + 8 ≤ a.size → remove h a.addr = some h₁ → Seen h₁ a b c →
    remove h₁ c.addr = some h₂ → Seen h₂ a b c →
    8 ≤ c.size → ftrp h c.addr = c.addr + c.size - 8 → getSize h (c.addr + c.size - 8) = c.size →
    ftrp h₂ c.addr = c.addr + c.size - 8 → getSize h₂ (c.addr + c.size - 8) = c.size →
    insert (h₂.freed a.addr (a.size + b.size + c.size)) a.addr (a.size + b.size + c.size) = some h' →
    (∀ x, a.addr + L.links.width ≤ x → x < a.addr + (a.size + b.size + c.size) →
      h'.mem x = (h₂.freed a.addr (a.size + b.size + c.size)).mem x) →
    coalesce h b.addr = some (h', a.addr)

section

variable {coalesce : Heap γ → Nat → Option (Heap γ × Nat)} {h' : Heap γ}

/-- One unlisted region of an untagged heap becomes one free block, which is then listed. -/
theorem Keeper.refile (keeper : Keeper L heads remove insert)
    (rep : Rep L heads h s) {m : Blk} (split : s.blocks = pre ++ mid ++ post) (nonempty : mid ≠ [])
    (covers : Tiles m.addr mid (m.addr + m.size)) (free : m.used = false) (plain : m.tag = false)
    (out : ∀ k, ∀ x ∈ mid, x.addr ∉ s.lists k) :
    ∃ h', insert (h.freed m.addr m.size) m.addr m.size = some h' ∧
      Rep L heads h' ({ s with blocks := pre ++ m :: post }.file L.style m) ∧
      Keeps h h' (pre ++ post) ∧ ∀ x, m.addr + L.links.width ≤ x → x < m.addr + m.size →
        h'.mem x = (h.freed m.addr m.size).mem x := by
  have word : m.word = m.size + 0 := by rw [Blk.word_plain plain, free]; rfl
  have foot : Footer L.loose m (m.size + 0) := .inl (by rw [free]; rfl)
  have listed := keeper.relist rep split nonempty covers free out foot fun _ => plain
  rwa [word] at listed

variable (keeper : Keeper L heads remove insert) (turns : Turns L coalesce remove lone insert)
  (tight : L.loose = false)
include keeper turns tight

/-- `coalesce`, when the block before is in use and the block after is free. -/
theorem coalesce_next (rep : Rep L heads h s) (last : L.fixed h.memStartBrk ++ pre = front ++ [a])
    (split : s.blocks = pre ++ b :: c :: post) (free : b.used = false) (fresh : ∀ k, b.addr ∉ s.lists k)
    (prevUsed : a.used = true) (nextFree : c.used = false)
    (filed : ∀ k, L.style.cls c.size = some k → c.addr ∈ s.lists k) :
    ∃ h', coalesce h b.addr = some (h', b.addr) ∧
      Rep L heads h' ({ s.drop c.addr with
        blocks := pre ++ { b with size := b.size + c.size } :: post }.file L.style
          { b with size := b.size + c.size }) ∧ Keeps h h' (pre ++ post) := by
  have seen : Seen h a b c := rep.seen last split
  -- The code removes the block behind before it reads its size again.
  obtain ⟨h₁, removed, rep₁, keeps₁⟩ := keeper.remove rep (by simp [split]) nextFree filed
  have seen₁ : Seen h₁ a b c := rep₁.seen (by rw [keeps₁.start, last]) split
  have covers : Tiles b.addr [b, c] (b.addr + (b.size + c.size)) := by
    obtain ⟨_, _, _, _, tiles⟩ := rep.tiles
    rw [split] at tiles
    obtain ⟨_, ⟨adjoin, cWhole, cLeast, _⟩, inside⟩ := tiles.cut
    exact ⟨rfl, inside.whole, inside.least, adjoin, cWhole, cLeast, Nat.add_assoc _ _ _⟩
  -- The two blocks are one region, and neither of them is listed any more.
  have out : ∀ k, ∀ x ∈ [b, c], x.addr ∉ (s.drop c.addr).lists k := by
    intro k
    simp only [List.forall_mem_cons, List.not_mem_nil, false_imp_iff, implies_true, and_true]
    exact ⟨fun member => fresh k (Shelves.mem_of_mem_drop member), rep.not_mem_drop c.addr k⟩
  have region : s.blocks = pre ++ [b, c] ++ post := by simp [split]
  -- The tags of the joined block are stored, and it is filed.
  obtain ⟨h', done, rep', keeps', _⟩ := keeper.refile rep₁ (m := { b with size := b.size + c.size })
    region (by simp) covers free (rep.plain tight b (by simp [split])) out
  refine ⟨h', turns.next seen prevUsed nextFree removed seen₁ done, rep', (keeps₁.narrow ?_).trans keeps'⟩
  intro x member _
  exact split ▸ mem_around (mem_around member)

/-- `coalesce`, when the block before is free and the block after is in use. -/
theorem coalesce_prev (rep : Rep L heads h s) (split : s.blocks = pre ++ a :: b :: post)
    (fresh : ∀ k, b.addr ∉ s.lists k) (prevFree : a.used = false)
    (filed : ∀ k, L.style.cls a.size = some k → a.addr ∈ s.lists k)
    (nextUsed : ∀ c ∈ post.head?, c.used = true) :
    ∃ h', coalesce h b.addr = some (h', a.addr) ∧
      Rep L heads h' ({ s.drop a.addr with
        blocks := pre ++ { a with size := a.size + b.size } :: post }.file L.style
          { a with size := a.size + b.size }) ∧ Keeps h h' (pre ++ post) := by
  have split' : s.blocks = (pre ++ [a]) ++ b :: post := by simp [split]
  have seen := rep.seen (List.append_assoc ..).symm split'
  -- The code removes the block before.
  obtain ⟨h₁, removed, rep₁, keeps₁⟩ := keeper.remove rep (by simp [split]) prevFree filed
  have seen₁ := rep₁.seen (List.append_assoc ..).symm split'
  rw [Rep.brk rep₁, Shelves.drop_brk, ← rep.brk] at seen₁
  have covers : Tiles a.addr [a, b] (a.addr + (a.size + b.size)) := by
    obtain ⟨_, _, _, _, tiles⟩ := rep.tiles
    rw [split] at tiles
    obtain ⟨_, ⟨adjoin, bWhole, bLeast, _⟩, inside⟩ := tiles.cut
    exact ⟨rfl, inside.whole, inside.least, adjoin, bWhole, bLeast, Nat.add_assoc _ _ _⟩
  have out : ∀ k, ∀ x ∈ [a, b], x.addr ∉ (s.drop a.addr).lists k := by
    intro k
    simp only [List.forall_mem_cons, List.not_mem_nil, false_imp_iff, implies_true, and_true]
    exact ⟨rep.not_mem_drop a.addr k, fun member => fresh k (Shelves.mem_of_mem_drop member)⟩
  -- The two blocks are the region that gets one tag.
  have region : s.blocks = pre ++ [a, b] ++ post := by simp [split]
  obtain ⟨h', done, rep', keeps', inner⟩ :=
    keeper.refile rep₁ (m := { a with size := a.size + b.size }) region (by simp) covers
      prevFree (rep.plain tight a (by simp [split])) out
  have wide := Nat.le_trans L.room (rep.least (b := a) (by simp [split]))
  refine ⟨h', turns.prev seen prevFree (following_used nextUsed) wide removed seen₁ done inner, rep',
    (keeps₁.narrow ?_).trans keeps'⟩
  intro x member _
  -- The used blocks lie around the two.
  exact split ▸ mem_around (mem_around member)

/-- `coalesce`, when both neighbours are free. -/
theorem coalesce_both (rep : Rep L heads h s) (split : s.blocks = pre ++ a :: b :: c :: post)
    (fresh : ∀ k, b.addr ∉ s.lists k) (prevFree : a.used = false) (nextFree : c.used = false)
    (prevFiled : ∀ k, L.style.cls a.size = some k → a.addr ∈ s.lists k)
    (nextFiled : ∀ k, L.style.cls c.size = some k → c.addr ∈ s.lists k) :
    ∃ h', coalesce h b.addr = some (h', a.addr) ∧
      Rep L heads h' ({ (s.drop a.addr).drop c.addr with
        blocks := pre ++ { a with size := a.size + b.size + c.size } :: post }.file L.style
          { a with size := a.size + b.size + c.size }) ∧ Keeps h h' (pre ++ post) := by
  have split' : s.blocks = (pre ++ [a]) ++ b :: c :: post := by simp [split]
  have seen : Seen h a b c := rep.seen (List.append_assoc ..).symm split'
  obtain ⟨_, _, _, _, tiles⟩ := rep.tiles
  rw [split] at tiles
  obtain ⟨_, ⟨adjoin, bWhole, bLeast, next, cWhole, cLeast, _⟩, inside⟩ := tiles.cut
  have aLeast := inside.least
  -- The blocks are removed one after the other, and the first removal keeps the second listed.
  obtain ⟨h₁, removed₁, rep₁, keeps₁⟩ := keeper.remove rep (by simp [split]) prevFree prevFiled
  have seen₁ : Seen h₁ a b c := rep₁.seen (List.append_assoc ..).symm split'
  obtain ⟨h₂, removed₂, rep₂, keeps₂⟩ := keeper.remove rep₁ (b := c) (by simp [split]) nextFree
    fun k class_ => Shelves.mem_drop (nextFiled k class_) (by omega)
  have seen₂ : Seen h₂ a b c := rep₂.seen (List.append_assoc ..).symm split'
  have member : c ∈ L.fixed h.memStartBrk ++ s.blocks := by simp [split]
  have member₂ : c ∈ L.fixed h₂.memStartBrk ++ ((s.drop a.addr).drop c.addr).blocks := by simp [split]
  -- The three blocks tile the region of the joined one.
  have covers : Tiles a.addr [a, b, c] (a.addr + (a.size + b.size + c.size)) :=
    ⟨rfl, inside.whole, aLeast, adjoin, bWhole, bLeast, next, cWhole, cLeast, by rw [tiles_nil]; omega⟩
  have out : ∀ k, ∀ x ∈ [a, b, c], x.addr ∉ ((s.drop a.addr).drop c.addr).lists k := by
    intro k
    simp only [List.forall_mem_cons, List.not_mem_nil, false_imp_iff, implies_true, and_true]
    exact ⟨fun member => rep.not_mem_drop a.addr k (Shelves.mem_of_mem_drop member),
      fun member => fresh k (Shelves.mem_of_mem_drop (Shelves.mem_of_mem_drop member)),
      rep₁.not_mem_drop c.addr k⟩
  have region : s.blocks = pre ++ [a, b, c] ++ post := by simp [split]
  obtain ⟨h', done, rep', keeps', inner⟩ :=
    keeper.refile rep₂ (m := { a with size := a.size + b.size + c.size }) region (by simp)
      covers prevFree (rep.plain tight a (by simp [split])) out
  have wide := Nat.le_trans L.room (rep.least (b := a) (by simp [split]))
  -- In the code the fourth branch reads both neighbours, and its words are the ones of these states.
  refine ⟨h', turns.both seen prevFree nextFree wide removed₁ seen₁ removed₂ seen₂ cLeast (rep.arena.ftrp member)
    (rep.arena.footSize member) (rep₂.arena.ftrp member₂) (rep₂.arena.footSize member₂) done inner, rep',
    ((keeps₁.trans keeps₂).narrow ?_).trans keeps'⟩
  intro x member _
  exact split ▸ mem_around (mem_around (mem_around member))

/-- `coalesce` merges a free block that is not listed yet, and returns the merged block. -/
theorem coalesce_rep (single : Keeper L heads remove lone) (closed : L.style.closed = Blk.used)
    (rep : Rep L heads h s) (split : s.blocks = pre ++ b :: post) (free : b.used = false)
    (fresh : ∀ k, b.addr ∉ s.lists k)
    (filed : ∀ c ∈ pre ++ post, c.used = false → ∀ k, L.style.cls c.size = some k → c.addr ∈ s.lists k) :
    ∃ h', coalesce h b.addr = some (h', (join Blk.used pre b post).blk.addr) ∧
      Rep L heads h' (s.merge L.style pre b post) ∧ Keeps h h' (pre ++ post) := by
  unfold Shelves.merge
  rw [closed]
  -- The four turns of the code are the four ways in which the neighbours can be free.
  rcases prev_cases Blk.used pre with shut | ⟨rest, a, rfl, prevFree⟩ <;>
    rcases next_cases post with used | ⟨c, rest', rfl, nextFree⟩
  · -- Neither is free, and the block is filed as it is.
    obtain ⟨front, a, last⟩ := L.exists_prev h.memStartBrk pre
    obtain ⟨h', done, rep', keeps, _⟩ := single.insert rep (by simp [split]) free fresh
    have turn := turns.alone (rep.seen last split) (Layout.prev_used last shut) (following_used used) done
    refine ⟨h', ?_, ?_, keeps.narrow ?_⟩
    · simpa [join, joinPrev_closed shut, joinNext_closed used] using turn
    · simpa [join, Joined.blocks, joinPrev_closed shut, joinNext_closed used, ← split] using rep'
    · intro x member _
      exact split ▸ mem_around member
  · -- The block behind is free.
    obtain ⟨front, a, last⟩ := L.exists_prev h.memStartBrk pre
    obtain ⟨h', done, rep', keeps⟩ := coalesce_next keeper turns tight rep last split free fresh
      (Layout.prev_used last shut) nextFree (filed c (by simp) nextFree)
    refine ⟨h', ?_, ?_, keeps.narrow ?_⟩
    · simpa [join, joinPrev_closed shut, joinNext_open nextFree] using done
    · simpa [join, Joined.blocks, joinPrev_closed shut, joinNext_open nextFree] using rep'
    · exact fun x member used => mem_others_free nextFree member used
  · -- The block before is free.
    simp only [List.append_assoc, List.singleton_append] at split
    obtain ⟨h', done, rep', keeps⟩ := coalesce_prev keeper turns tight rep split fresh prevFree
      (filed a (by simp) prevFree) used
    refine ⟨h', ?_, ?_, keeps.narrow ?_⟩
    · simpa [join, joinPrev_open prevFree, joinNext_closed used] using done
    · simpa [join, Joined.blocks, joinPrev_open prevFree, joinNext_closed used] using rep'
    · intro x member used
      rw [← List.append_cons] at member
      exact mem_others_free prevFree member used
  · -- Both are free.
    simp only [List.append_assoc, List.singleton_append] at split
    obtain ⟨h', done, rep', keeps⟩ := coalesce_both keeper turns tight rep split fresh prevFree nextFree
      (filed a (by simp) prevFree) (filed c (by simp) nextFree)
    refine ⟨h', ?_, ?_, keeps.narrow ?_⟩
    · simpa [join, joinPrev_open prevFree, joinNext_open nextFree] using done
    · simpa [join, Joined.blocks, joinPrev_open prevFree, joinNext_open nextFree] using rep'
    · intro x member used
      have outer := mem_others_free nextFree member used
      rw [← List.append_cons] at outer
      exact mem_others_free prevFree outer used

end

end MallocLab
