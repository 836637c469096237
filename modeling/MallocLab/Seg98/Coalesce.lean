import MallocLab.Seg98.Lists

/-! What `coalesce` does to the blocks and the shelves, for both files. -/

namespace MallocLab.Seg98

open Segregated

variable {f : File} {h : State} {s : Shelves} {a b c m : Blk} {front pre post : List Blk}

/-- Setting the header of a block, and then the footer that it leads to, brands the block. -/
theorem put_block (word : h.get (m.addr - 4) = b.word) (whole : b.size % 8 = 0)
    (plain : f.tagged = false → b.tag = false) (tag : m.tag = b.tag) (above : 4 ≤ m.addr)
    (fits : m.addr + m.size < 2 ^ 32) (aligned : m.size % 8 = 0) (least : 8 ≤ m.size) :
    ∃ footer, Footer f.tagged m footer ∧
      put f (put f h (hdrp m.addr) (pack m.size m.used.toNat))
        (ftrp (put f h (hdrp m.addr) (pack m.size m.used.toNat)) m.addr) (pack m.size m.used.toNat) =
      { h with mem := brand h.mem m.addr m.size m.word footer } := by
  have header : put f h (m.addr - 4) (pack m.size m.used.toNat) = h.put (m.addr - 4) m.word :=
    put_header word whole plain aligned tag
  have flags := Bool.toNat_lt_two m.used
  have bit := Bool.toNat_lt_two m.tag
  -- The footer is found through the header that has just been written.
  have read : getSize (h.put (m.addr - 4) m.word) (m.addr - 4) = m.size := by
    rw [getSize_eq, Heap.get, Heap.put_mem, loadWord_storeWord (by unfold Blk.word; omega), Blk.word_size aligned]
  have footer : ftrp (h.put (m.addr - 4) m.word) m.addr = m.addr + m.size - 8 := by
    unfold ftrp dsize
    rw [hdrp_eq above (by omega), read, add32_eq fits, sub32_eq (by omega) (by omega)]
  obtain ⟨v, written, foot⟩ := put_footer (f := f) (c := m) (h.put (m.addr - 4) m.word) (m.addr + m.size - 8) aligned
  refine ⟨v, foot, ?_⟩
  rw [hdrp_eq above (by omega), header, footer, written]
  rfl

/-- What the code reads in the header of the block before. -/
structure Behind (f : File) (h : State) (a : Blk) : Prop where
  word : h.get (a.addr - 4) = a.word
  plain : f.tagged = false → a.tag = false
  alloc : (if marked f h (hdrp a.addr) then 1 else getAlloc h (hdrp a.addr)) = (style.closed a).toNat

/-- The block before is closed to joining when it is in use or carries a tag. -/
theorem behind (rep : Rep (layout f) heads h s) (last : (layout f).fixed h.memStartBrk ++ pre = front ++ [a])
    (split : s.blocks = pre ++ b :: post) : Behind f h a := by
  have arena := rep.around last split
  have member : a ∈ front ++ a :: b :: post := by simp
  have inside := arena.within member
  have low := arena.low
  have high := arena.high
  have lower := inside.lower
  have upper := inside.upper
  -- Without the tag bit of the file no block is marked.
  have plain : f.tagged = false → a.tag = false := by
    intro tight
    rcases (layout f).prev_eq last with ⟨_, fixed⟩ | here
    · exact ((layout f).guarded _ a fixed).2
    · exact rep.plain tight a (by simp [split, List.mem_of_getLast? here])
  have header : h.get (hdrp a.addr) = a.word := arena.header member
  have alloc := arena.alloc member
  rw [hdrp_eq (by omega) (by omega)] at header alloc
  refine ⟨header, plain, ?_⟩
  rw [hdrp_eq (by omega) (by omega), marked_header header inside.whole plain, alloc]
  show _ = (a.used || a.tag).toNat
  cases a.tag <;> cases a.used <;> rfl

/-- A fixed block is in use, so nothing joins it. -/
theorem closes {base : Nat} (last : (layout f).fixed base ++ pre = front ++ [a])
    (shut : ∀ x ∈ pre.getLast?, style.closed x = true) : style.closed a = true := by
  rcases (layout f).prev_eq last with ⟨_, fixed⟩ | here
  · have used := ((layout f).guarded base a fixed).1
    show (a.used || a.tag) = true
    rw [used]
    rfl
  · exact shut a (by simp [here])

variable (spells : Spells f.entries links)
include spells

/-- The listed block is taken off its list before it is merged. -/
theorem unfile (rep : Rep (layout f) heads h (s.file style b)) (member : b ∈ s.blocks) (free : b.used = false)
    (fresh : ∀ k, b.addr ∉ s.lists k) :
    ∃ h', removeNode f h b.addr = some h' ∧ Rep (layout f) heads h' s ∧ Keeps h h' s.blocks := by
  obtain ⟨h', removed, rep', keeps⟩ :=
    (keeper spells).remove rep (b := b) member free fun k class_ => Shelves.mem_file_self class_
  have undone : (s.file style b).drop b.addr = s := Shelves.drop_file fresh
  rw [undone] at rep'
  exact ⟨h', removed, rep', keeps⟩

/-- `coalesce`, when the block before is closed and the block after is free. -/
theorem coalesce_next (rep : Rep (layout f) heads h (s.file style b))
    (last : (layout f).fixed h.memStartBrk ++ pre = front ++ [a]) (split : s.blocks = pre ++ b :: c :: post)
    (free : b.used = false) (fresh : ∀ k, b.addr ∉ s.lists k) (shut : style.closed a = true)
    (nextFree : c.used = false) (filed : ∀ k, style.cls c.size = some k → c.addr ∈ s.lists k) :
    ∃ h', coalesce f h b.addr = some (h', b.addr) ∧
      Rep (layout f) heads h' ({ s.drop c.addr with
        blocks := pre ++ { b with size := b.size + c.size } :: post }.file style
          { b with size := b.size + c.size }) ∧ Keeps h h' (pre ++ post) := by
  -- The block is taken off the shelf where it has just been filed.
  have seen : Seen h a b c := rep.seen last split
  have prior := (behind rep last split).alloc
  obtain ⟨h₁, removed₁, rep₁, keeps₁⟩ := unfile spells rep (by simp [split]) free fresh
  have seen₁ : Seen h₁ a b c := rep₁.seen (by rw [keeps₁.start, last]) split
  obtain ⟨h₂, removed₂, rep₂, keeps₂⟩ := (keeper spells).remove rep₁ (b := c) (by simp [split]) nextFree filed
  have seen₂ : Seen h₂ a b c := rep₂.seen (by rw [keeps₂.start, keeps₁.start, last]) split
  have ⟨_, low, adjoin, onward, top, whole, least⟩ := seen₂
  let m : Blk := { b with size := b.size + c.size }
  have wide : 16 ≤ c.size := rep.least (b := c) (by simp [split])
  -- The sizes add up to the size of the joined block.
  have covers : Tiles m.addr [b, c] (m.addr + m.size) :=
    ⟨rfl, whole.2.1, least.2, onward, whole.2.2, by omega, Nat.add_assoc _ _ _⟩
  -- The two blocks are one region, and neither of them is listed any more.
  have out : ∀ k, ∀ x ∈ [b, c], x.addr ∉ (s.drop c.addr).lists k := by
    intro k
    simp only [List.forall_mem_cons, List.not_mem_nil, false_imp_iff, implies_true, and_true]
    exact ⟨fun member => fresh k (Shelves.mem_of_mem_drop member), rep₁.not_mem_drop c.addr k⟩
  have member : b ∈ (layout f).fixed h₂.memStartBrk ++ (s.drop c.addr).blocks := by simp [split]
  have header := rep₂.arena.header member
  rw [hdrp_eq (by omega) (by omega)] at header
  have plain : f.tagged = false → b.tag = false := fun tight => rep₂.plain tight b (by simp [split])
  obtain ⟨footer, foot, written⟩ := put_block (m := m) header whole.2.1 plain rfl (show 4 ≤ b.addr by omega)
    (show b.addr + (b.size + c.size) < 2 ^ 32 by omega) (show (b.size + c.size) % 8 = 0 by omega)
    (show 8 ≤ b.size + c.size by omega)
  have region : s.blocks = pre ++ [b, c] ++ post := by simp [split]
  obtain ⟨h', done, rep', keeps', _⟩ := (keeper spells).relist rep₂ region (by simp) covers free out foot plain
  -- The code reads the sizes back from the headers, which the removals have kept.
  have sum := seen₂.sum_next
  have idle : m.used.toNat = 0 := congrArg Bool.toNat free
  rw [idle] at written
  refine ⟨h', ?_, rep', ((keeps₁.trans keeps₂).narrow ?_).trans keeps'⟩
  · unfold coalesce
    simp only [seen.prev, prior, shut, seen.next, seen.nextAlloc, nextFree, seen.size]
    rw [if_neg (by decide), if_pos (by decide)]
    refine bind_step removed₁ ?_
    simp only [seen₁.next]
    refine bind_step removed₂ ?_
    simp only [seen₂.next, seen₂.nextSize, sum]
    exact bind_step ((congrArg (fun g => insertNode f g m.addr m.size) written).trans done) rfl
  · -- The used blocks lie around the two.
    intro x member _
    exact split ▸ mem_around (mem_around member)

/-- `coalesce`, when the block before is open and the block after is in use. -/
theorem coalesce_prev (rep : Rep (layout f) heads h (s.file style b)) (split : s.blocks = pre ++ a :: b :: post)
    (free : b.used = false) (fresh : ∀ k, b.addr ∉ s.lists k) (shut : style.closed a = false)
    (filed : ∀ k, style.cls a.size = some k → a.addr ∈ s.lists k) (nextUsed : ∀ c ∈ post.head?, c.used = true) :
    ∃ h', coalesce f h b.addr = some (h', a.addr) ∧
      Rep (layout f) heads h' ({ s.drop a.addr with
        blocks := pre ++ { a with size := a.size + b.size } :: post }.file style
          { a with size := a.size + b.size }) ∧ Keeps h h' (pre ++ post) := by
  have split' : s.blocks = (pre ++ [a]) ++ b :: post := by simp [split]
  have seen := rep.seen (List.append_assoc ..).symm split'
  have prior := (behind rep (List.append_assoc ..).symm split').alloc
  have used : (following post h.memBrk (s.file style b).mark).used = true := following_used nextUsed
  -- The block before is free and has no tag.
  obtain ⟨prevFree, untagged⟩ := Bool.or_eq_false_iff.mp shut
  obtain ⟨h₁, removed₁, rep₁, keeps₁⟩ := unfile spells rep (by simp [split]) free fresh
  have seen₁ := rep₁.seen (List.append_assoc ..).symm split'
  obtain ⟨h₂, removed₂, rep₂, keeps₂⟩ := (keeper spells).remove rep₁ (b := a) (by simp [split]) prevFree filed
  have seen₂ := rep₂.seen (List.append_assoc ..).symm split'
  have ⟨_, low, adjoin, onward, top, whole, least⟩ := seen₂
  -- The joined block still fits into the address space.
  have fits : b.addr + b.size < 2 ^ 32 := by omega
  let m : Blk := { a with size := a.size + b.size }
  have wide : 16 ≤ a.size := rep.least (b := a) (by simp [split])
  have covers : Tiles m.addr [a, b] (m.addr + m.size) :=
    ⟨rfl, whole.1, least.1, adjoin, whole.2.1, least.2, Nat.add_assoc _ _ _⟩
  have out : ∀ k, ∀ x ∈ [a, b], x.addr ∉ (s.drop a.addr).lists k := by
    intro k
    simp only [List.forall_mem_cons, List.not_mem_nil, false_imp_iff, implies_true, and_true]
    exact ⟨rep₁.not_mem_drop a.addr k, fun member => fresh k (Shelves.mem_of_mem_drop member)⟩
  have aligned : m.size % 8 = 0 := show (a.size + b.size) % 8 = 0 by omega
  have idle : m.used.toNat = 0 := congrArg Bool.toNat prevFree
  -- The footer is set first, and then the header of the block before.
  obtain ⟨v, first, foot⟩ := put_footer (f := f) (c := m) h₂ (ftrp h₂ b.addr) aligned
  -- Its header is the one of the block before, which the footer of the joined block does not touch.
  obtain ⟨back, branded, back'⟩ := seen₂.brandBack wide v m.word
  have ⟨word, plain, _⟩ := behind rep₂ (List.append_assoc ..).symm split'
  have header : (h₂.put (ftrp h₂ b.addr) v).get (a.addr - 4) = a.word := by
    rw [seen₂.ftrp, get_put_other (by omega)]
    exact word
  have second : put f (h₂.put (ftrp h₂ b.addr) v) (hdrp a.addr) (pack m.size m.used.toNat) =
      (h₂.put (ftrp h₂ b.addr) v).put (hdrp a.addr) m.word := by
    rw [hdrp_eq (by omega) (by omega)]
    exact put_header header whole.1 plain aligned rfl
  -- The joined block takes the place of the two.
  rw [idle] at first second
  have region : s.blocks = pre ++ [a, b] ++ post := by simp [split]
  obtain ⟨h', done, rep', keeps', _⟩ := (keeper spells).relist rep₂ region (by simp) covers prevFree out foot plain
  have sum : add32 b.size a.size = m.size := seen₂.sum_prev.1
  refine ⟨h', ?_, rep', ((keeps₁.trans keeps₂).narrow ?_).trans keeps'⟩
  · unfold coalesce
    simp only [seen.prev, prior, shut, seen.next, seen.nextAlloc, used, seen.size]
    rw [if_neg (by decide), if_neg (by decide), if_pos (by decide)]
    refine bind_step removed₁ ?_
    simp only [seen₁.prev]
    refine bind_step removed₂ ?_
    simp only [seen₂.prev, seen₂.prevSize, sum, first, back, second, branded, back']
    exact bind_step done rfl
  · -- The used blocks lie around the two.
    intro x member _
    exact split ▸ mem_around (mem_around member)

/-- `coalesce`, when the block before is open and the block after is free. -/
theorem coalesce_both (rep : Rep (layout f) heads h (s.file style b)) (split : s.blocks = pre ++ a :: b :: c :: post)
    (free : b.used = false) (fresh : ∀ k, b.addr ∉ s.lists k) (shut : style.closed a = false)
    (nextFree : c.used = false) (prevFiled : ∀ k, style.cls a.size = some k → a.addr ∈ s.lists k)
    (nextFiled : ∀ k, style.cls c.size = some k → c.addr ∈ s.lists k) :
    ∃ h', coalesce f h b.addr = some (h', a.addr) ∧
      Rep (layout f) heads h' ({ (s.drop a.addr).drop c.addr with
        blocks := pre ++ { a with size := a.size + b.size + c.size } :: post }.file style
          { a with size := a.size + b.size + c.size }) ∧ Keeps h h' (pre ++ post) := by
  have split' : s.blocks = (pre ++ [a]) ++ b :: c :: post := by simp [split]
  have seen : Seen h a b c := rep.seen (List.append_assoc ..).symm split'
  have prior := (behind rep (List.append_assoc ..).symm split').alloc
  obtain ⟨prevFree, untagged⟩ := Bool.or_eq_false_iff.mp shut
  -- All three are taken off their shelves.
  obtain ⟨h₁, removed₁, rep₁, keeps₁⟩ := unfile spells rep (by simp [split]) free fresh
  have seen₁ : Seen h₁ a b c := rep₁.seen (List.append_assoc ..).symm split'
  have ⟨_, low, adjoin, onward, top, whole, least⟩ := seen₁
  -- The neighbours are removed one after the other, and the first removal keeps the second listed.
  obtain ⟨h₂, removed₂, rep₂, keeps₂⟩ := (keeper spells).remove rep₁ (b := a) (by simp [split]) prevFree prevFiled
  have seen₂ : Seen h₂ a b c := rep₂.seen (List.append_assoc ..).symm split'
  obtain ⟨h₃, removed₃, rep₃, keeps₃⟩ := (keeper spells).remove rep₂ (b := c) (by simp [split]) nextFree
    fun k class_ => Shelves.mem_drop (nextFiled k class_) (by omega)
  have seen₃ : Seen h₃ a b c := rep₃.seen (List.append_assoc ..).symm split'
  let m : Blk := { a with size := a.size + b.size + c.size }
  have wide : 16 ≤ a.size := rep.least (b := a) (by simp [split])
  have enough : 16 ≤ c.size := rep.least (b := c) (by simp [split])
  -- The three blocks tile the region of the joined one.
  have covers : Tiles m.addr [a, b, c] (m.addr + m.size) :=
    ⟨rfl, whole.1, least.1, adjoin, whole.2.1, least.2, by
      show c.addr = a.addr + a.size + b.size
      omega, whole.2.2, by omega, by
      show a.addr + a.size + b.size + c.size = a.addr + (a.size + b.size + c.size)
      omega⟩
  have out : ∀ k, ∀ x ∈ [a, b, c], x.addr ∉ ((s.drop a.addr).drop c.addr).lists k := by
    intro k
    simp only [List.forall_mem_cons, List.not_mem_nil, false_imp_iff, implies_true, and_true]
    exact ⟨fun member => rep₁.not_mem_drop a.addr k (Shelves.mem_of_mem_drop member),
      fun member => fresh k (Shelves.mem_of_mem_drop (Shelves.mem_of_mem_drop member)),
      rep₂.not_mem_drop c.addr k⟩
  have aligned : m.size % 8 = 0 := show (a.size + b.size + c.size) % 8 = 0 by omega
  have idle : m.used.toNat = 0 := congrArg Bool.toNat prevFree
  -- The header of the block before is set first, and then the footer of the block after.
  have ⟨word, plain, _⟩ := behind rep₃ (List.append_assoc ..).symm split'
  have first : put f h₃ (hdrp a.addr) (pack m.size m.used.toNat) = h₃.put (hdrp a.addr) m.word := by
    rw [hdrp_eq (by omega) (by omega)]
    exact put_header word whole.1 plain aligned rfl
  obtain ⟨v, second, foot⟩ := put_footer (f := f) (c := m) (h₃.put (hdrp a.addr) m.word) (c.addr + c.size - 8) aligned
  have last : ftrp h₃ c.addr = c.addr + c.size - 8 := rep₃.arena.ftrp (by simp [split])
  -- The two stores are the header and the footer of one block.
  obtain ⟨ahead, foot', branded, back⟩ := seen₃.brandAround wide (by omega) last v m.word
  rw [idle] at first second
  have region : s.blocks = pre ++ [a, b, c] ++ post := by simp [split]
  obtain ⟨h', done, rep', keeps', _⟩ := (keeper spells).relist rep₃ region (by simp) covers prevFree out foot plain
  have sum : add32 b.size (add32 a.size c.size) = m.size := seen₃.sum_both.1
  refine ⟨h', ?_, rep', (((keeps₁.trans keeps₂).trans keeps₃).narrow ?_).trans keeps'⟩
  · unfold coalesce
    simp only [seen.prev, prior, shut, seen.next, seen.nextAlloc, nextFree, seen.size]
    rw [if_neg (by decide), if_neg (by decide), if_neg (by decide)]
    refine bind_step removed₁ ?_
    simp only [seen₁.prev]
    refine bind_step removed₂ ?_
    simp only [seen₂.next]
    refine bind_step removed₃ ?_
    simp only [seen₃.prev, seen₃.prevSize, seen₃.next, seen₃.nextSize, sum, first, ahead, foot', second, branded, back]
    exact bind_step done rfl
  · -- The used blocks lie around the three.
    intro x member _
    exact split ▸ mem_around (mem_around (mem_around member))

/-- `coalesce` merges a listed free block and returns the merged block. -/
theorem coalesce_rep (rep : Rep (layout f) heads h (s.file style b)) (split : s.blocks = pre ++ b :: post)
    (free : b.used = false) (fresh : ∀ k, b.addr ∉ s.lists k)
    (filed : ∀ c ∈ pre ++ post, c.used = false → ∀ k, style.cls c.size = some k → c.addr ∈ s.lists k) :
    ∃ h', coalesce f h b.addr = some (h', (join style.closed pre b post).blk.addr) ∧
      Rep (layout f) heads h' (s.merge style pre b post) ∧ Keeps h h' (pre ++ post) := by
  unfold Shelves.merge
  rcases prev_cases style.closed pre with shut | ⟨rest, a, rfl, shut⟩ <;>
    rcases next_cases post with used | ⟨c, rest', rfl, nextFree⟩
  · -- The block stays as it is listed.
    obtain ⟨front, a, last⟩ := (layout f).exists_prev h.memStartBrk pre
    have seen := rep.seen last split
    have ahead : (following post h.memBrk (s.file style b).mark).used = true := following_used used
    refine ⟨h, ?_, ?_, Keeps.refl _ _⟩
    · unfold coalesce
      simp only [seen.prev, (behind rep last split).alloc, closes last shut, seen.next, seen.nextAlloc, ahead]
      simp [join, joinPrev_closed shut, joinNext_closed used]
    · simpa [join, Joined.blocks, joinPrev_closed shut, joinNext_closed used, ← split] using rep
  · -- The block behind is free.
    obtain ⟨front, a, last⟩ := (layout f).exists_prev h.memStartBrk pre
    obtain ⟨h', done, rep', keeps⟩ := coalesce_next spells rep last split free fresh (closes last shut) nextFree
      (filed c (by simp) nextFree)
    refine ⟨h', ?_, ?_, keeps.narrow fun x member used => ?_⟩
    · simpa [join, joinPrev_closed shut, joinNext_open nextFree] using done
    · simpa [join, Joined.blocks, joinPrev_closed shut, joinNext_open nextFree] using rep'
    · exact mem_others_free nextFree member used
  · -- The block before is free.
    simp only [List.append_assoc, List.singleton_append] at split
    have idle := (Bool.or_eq_false_iff.mp shut).1
    obtain ⟨h', done, rep', keeps⟩ := coalesce_prev spells rep split free fresh shut (filed a (by simp) idle) used
    refine ⟨h', ?_, ?_, keeps.narrow fun x member used => ?_⟩
    · simpa [join, joinPrev_open shut, joinNext_closed used] using done
    · simpa [join, Joined.blocks, joinPrev_open shut, joinNext_closed used] using rep'
    · rw [List.append_assoc] at member
      exact mem_others_free idle member used
  · -- Both are free.
    simp only [List.append_assoc, List.singleton_append] at split
    have idle := (Bool.or_eq_false_iff.mp shut).1
    obtain ⟨h', done, rep', keeps⟩ := coalesce_both spells rep split free fresh shut nextFree
      (filed a (by simp) idle) (filed c (by simp) nextFree)
    refine ⟨h', ?_, ?_, keeps.narrow fun x member used => ?_⟩
    · simpa [join, joinPrev_open shut, joinNext_open nextFree] using done
    · simpa [join, Joined.blocks, joinPrev_open shut, joinNext_open nextFree] using rep'
    · rw [List.append_assoc] at member
      exact mem_others_free nextFree (mem_others_free idle member used) used

end MallocLab.Seg98
