import MallocLab.Shelves.Laws

/-! Handing a block out and taking it back changes nothing but the order on the shelves. -/

namespace MallocLab.Shelves

variable {style : Style} {s : Shelves} {b : Blk} {pre post : List Blk} {lo hi a : Nat}

/-- A request is served from the lower end when the style says so. -/
theorem carve_snd (split : s.blocks = pre ++ b :: post) (tiles : Tiles lo s.blocks hi)
    (low : style.high a = false) : (s.carve style b.addr a).2 = b.addr := by
  have located := tiles.locate_split split
  unfold carve
  simp only [located, low, Bool.false_eq_true, if_false]
  -- Split or not, the pointer is that of the block.
  split_ifs <;> rfl

/-- Carving a free block and freeing the result moves the block to the front of its shelf. -/
theorem carve_free (split : s.blocks = pre ++ b :: post) (tiles : Tiles lo s.blocks hi)
    (separated : Separated s.blocks) (free : b.used = false) (large : a ≤ b.size) (whole : a % 8 = 0)
    (least : 8 ≤ a) (closed : style.closed = Blk.used) (low : style.high a = false)
    (wide : ∀ left, style.splits left = true → 8 ≤ left) (fresh : a < b.size → ∀ k, b.addr + a ∉ s.lists k) :
    (s.carve style b.addr a).1.free style b.addr = (s.drop b.addr).file style b := by
  have located := tiles.locate_split split
  rw [split] at tiles separated
  have before := separated.before free
  have after := separated.after free
  have inside := tiles.within (b := b) (by simp)
  have bWhole := inside.whole
  unfold carve
  simp only [located, low, Bool.false_eq_true, if_false]
  by_cases splits : style.splits (b.size - a) = true
  · -- The rest is merged back, and its place on a shelf is given up again.
    let taken : Blk := { b with size := a, used := true }
    let rest : Blk := { addr := b.addr + a, size := b.size - a, used := false }
    have room := wide _ splits
    have tiles' : Tiles lo (pre ++ taken :: rest :: post) hi := by
      simp only [tiles_append, tiles_cons] at tiles ⊢
      obtain ⟨mid, left, rfl, _, _, right⟩ := tiles
      refine ⟨b.addr, left, rfl, whole, least, rfl, by show (b.size - a) % 8 = 0; omega, room, ?_⟩
      have sum : b.addr + a + (b.size - a) = b.addr + b.size := by omega
      rwa [sum]
    have located' := tiles'.locate
    -- Its two parts add up to the block, with every other field as it was.
    have whole' : ({ taken with used := false, size := a + (b.size - a) } : Blk) = b := by
      cases b
      simp_all [taken]
    -- The block before is in use, so only the rest is joined.
    have joined : join Blk.used pre { taken with used := false } (rest :: post) =
        { pre := pre, blk := b, post := post, gone := [b.addr + a] } := by
      rw [join_next before rfl]
      exact congrArg (fun blk => Joined.mk pre blk post [b.addr + a]) whole'
    rw [if_pos splits]
    unfold Shelves.free merge
    simp only [file_blocks, closed]
    rw [show locate (pre ++ taken :: rest :: post) b.addr = some (pre, taken, rest :: post) from located']
    simp only [joined]
    unfold file drop
    simp only [List.foldl_cons, List.foldl_nil, split, Joined.blocks]
    congr 1
    funext k
    -- Erasing what filing added gives the shelf back.
    have undone : ((if style.cls (b.size - a) = some k then (b.addr + a) :: (s.lists k).erase b.addr
        else (s.lists k).erase b.addr).erase (b.addr + a)) = (s.lists k).erase b.addr := by
      split_ifs
      · exact List.erase_cons_head ..
      · exact List.erase_of_not_mem fun member => fresh (by omega) k (List.mem_of_mem_erase member)
    simp only [undone]
  · -- The block was handed out whole, between used blocks.
    have located' := (tiles.mark true).locate
    have same : ({ ({ b with used := true } : Blk) with used := false } : Blk) = b := by
      cases b
      simp_all
    rw [if_neg splits]
    unfold Shelves.free merge
    simp only [closed]
    rw [show locate (pre ++ { b with used := true } :: post) b.addr = some (pre, { b with used := true }, post)
      from located']
    simp only [same, join_alone before after]
    unfold file drop
    simp only [List.foldl_nil, split, Joined.blocks]

end MallocLab.Shelves
