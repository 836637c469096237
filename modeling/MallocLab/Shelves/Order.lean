import MallocLab.Shelves.Laws

/-! Shelves that stand in ascending order of size, and the blocks that may be filed at their front. -/

namespace MallocLab

/-- No free block with the class of this size is smaller. -/
def Lowest (style : Style) (others : List Blk) (size : Nat) : Prop :=
  ∀ c ∈ others, c.used = false → style.cls c.size = style.cls size → size ≤ c.size

/-- A smallest free block of at least this size. -/
def Tightest (bs : List Blk) (a : Nat) (b : Blk) : Prop :=
  b.used = false ∧ a ≤ b.size ∧ ∀ c ∈ bs, c.used = false → a ≤ c.size → b.size ≤ c.size

instance (style : Style) (others : List Blk) (size : Nat) : Decidable (Lowest style others size) :=
  inferInstanceAs (Decidable (∀ c ∈ others, _))

instance (bs : List Blk) (a : Nat) (b : Blk) : Decidable (Tightest bs a b) :=
  inferInstanceAs (Decidable (_ ∧ _ ∧ ∀ c ∈ bs, _))

namespace Shelves

/-- Every shelf holds the addresses of its blocks in ascending order of their sizes. -/
def Ascending (s : Shelves) : Prop :=
  ∀ k, (s.lists k).Pairwise fun p q =>
    ∀ b ∈ s.blocks, ∀ c ∈ s.blocks, b.addr = p → c.addr = q → b.size ≤ c.size

/-- Whatever is on a shelf is one of these blocks, free, and of the class of the shelf. -/
structure Stocked (style : Style) (s : Shelves) (bs : List Blk) : Prop where
  listed : ∀ k, ∀ p ∈ s.lists k, ∃ b ∈ bs, b.addr = p ∧ b.used = false ∧ style.cls b.size = some k
  distinct : ∀ k, (s.lists k).Nodup

variable {style : Style} {s : Shelves} {b d : Blk} {bs pre post : List Blk} {lo hi a k p : Nat}

/-- Taking addresses off the shelves leaves the others in their order. -/
theorem foldl_drop_sublist (gone : List Nat) : ((gone.foldl drop s).lists k).Sublist (s.lists k) := by
  induction gone generalizing s with
  | nil => exact List.Sublist.refl _
  | cons q gone ih => exact ih.trans List.erase_sublist

/-- Addresses that are taken off the shelves are on none of them. -/
theorem Stocked.not_mem_foldl (stocked : s.Stocked style bs) {gone : List Nat} (taken : p ∈ gone) :
    p ∉ (gone.foldl drop s).lists k := by
  induction gone generalizing s with
  | nil => simp at taken
  | cons q gone ih =>
    -- Taking one address off leaves the shelves stocked from the same blocks.
    have rest : (s.drop q).Stocked style bs :=
      ⟨fun k p member => stocked.listed k p (mem_of_mem_drop member),
        fun k => (stocked.distinct k).erase q⟩
    rcases List.mem_cons.mp taken with rfl | taken
    · -- What has been taken off once is not put back.
      intro again
      have absent : p ∉ (s.drop p).lists k := (stocked.distinct k).not_mem_erase
      exact absent ((foldl_drop_sublist gone).subset again)
    · exact ih rest taken

/-- Addresses may be taken off, and blocks may change, when the listed ones stay. -/
theorem Ascending.narrow {t : Shelves} (ascending : s.Ascending)
    (fewer : ∀ k, (t.lists k).Sublist (s.lists k))
    (kept : ∀ c ∈ t.blocks, ∀ k, c.addr ∈ t.lists k → c ∈ s.blocks) : t.Ascending := by
  intro k
  -- A shorter list keeps the order, and whoever is listed is an old block.
  refine List.Pairwise.imp_of_mem ?_ ((ascending k).sublist (fewer k))
  intro p q first second le b bMember c cMember bHere cHere
  exact le b (kept b bMember k (bHere ▸ first)) c (kept c cMember k (cHere ▸ second)) bHere cHere

/-- A block may be filed at the front of its shelf when no block there is smaller. -/
theorem Ascending.file (ascending : s.Ascending) (self : ∀ c ∈ s.blocks, c.addr = d.addr → c = d)
    (low : ∀ k, style.cls d.size = some k → ∀ c ∈ s.blocks, c.addr ∈ s.lists k → d.size ≤ c.size) :
    (s.file style d).Ascending := by
  intro k
  show List.Pairwise _ (if style.cls d.size = some k then d.addr :: s.lists k else s.lists k)
  by_cases here : style.cls d.size = some k
  · -- Only the shelf of the block has a new front.
    rw [if_pos here]
    refine List.pairwise_cons.mpr ⟨?_, ascending k⟩
    rintro q member b bMember c cMember bHere rfl
    obtain rfl := self b bMember bHere
    exact low k here c cMember member
  · rw [if_neg here]
    exact ascending k

/-- Carving keeps the order when the leftover goes to the front of its shelf rightly. -/
theorem carve_ascending (ascending : (s.drop b.addr).Ascending) (stocked : s.Stocked style s.blocks)
    (tiles : Tiles lo s.blocks hi) (split : s.blocks = pre ++ b :: post) (free : b.used = false)
    (room : 8 ≤ a) (splits : ∀ left, style.splits left = true → 8 ≤ left) (bottom : style.high a = false)
    (low : style.splits (b.size - a) = true → Lowest style s.blocks (b.size - a)) :
    (s.carve style b.addr a).1.Ascending := by
  have located := tiles.locate_split split
  have member : b ∈ s.blocks := by simp [split]
  have around : ∀ c ∈ pre ++ post, c ∈ s.blocks := fun c block => split ▸ mem_around block
  -- The block that is carved is taken off its shelf, and no block starts inside it.
  have off : ∀ k, b.addr ∉ (s.drop b.addr).lists k := fun k => (stocked.distinct k).not_mem_erase
  have inside : ∀ p, b.addr < p → p < b.addr + b.size → ∀ k, p ∉ (s.drop b.addr).lists k := by
    intro p lower upper k listed
    obtain ⟨c, block, rfl, _⟩ := stocked.listed k p (mem_of_mem_drop listed)
    have := (tiles.within block).least
    rcases tiles.apart block member with rfl | apart <;> omega
  unfold carve
  simp only [located, bottom, Bool.false_eq_true, if_false]
  by_cases enough : style.splits (b.size - a) = true
  · rw [if_pos enough]
    -- The block is split, and what is left over goes to the front of its shelf.
    have left := splits _ enough
    let rest : Blk := { addr := b.addr + a, size := b.size - a, used := false }
    -- Neither of the two parts is listed, so a listed block is an old one.
    have old : ∀ c ∈ pre ++ { b with size := a, used := true } :: rest :: post, ∀ k,
        c.addr ∈ (s.drop b.addr).lists k → c ∈ s.blocks := by
      intro c block k listed
      rcases mem_middle.mp block with rfl | block
      · exact absurd listed (off k)
      · rcases mem_middle.mp block with rfl | block
        · exact absurd listed (inside _ (by simp only [rest]; omega) (by simp only [rest]; omega) k)
        · exact around c block
    refine Ascending.file (ascending.narrow (fun k => List.Sublist.refl _) old) ?_ ?_
    · -- No other block starts where the leftover does.
      intro c block here
      simp only at here
      have other : ∀ c ∈ pre ++ post, c.addr ≠ b.addr + a := by
        intro c block here
        have := (tiles.within (around c block)).least
        rw [split] at tiles
        rcases List.mem_append.mp block with block | block
        · have := tiles.before block
          omega
        · have := tiles.after block
          omega
      rcases mem_middle.mp block with rfl | block
      · simp only at here
        omega
      · rcases mem_middle.mp block with rfl | block
        · rfl
        · exact absurd here (other c block)
    · -- A listed block of the same class is free, so it is not smaller.
      intro k class_ c block listed
      obtain ⟨d, dBlock, same, dFree, dClass⟩ := stocked.listed k c.addr (mem_of_mem_drop listed)
      have stood := old c block k listed
      obtain rfl := tiles.addr_inj dBlock stood same
      exact low enough d stood dFree (dClass.trans class_.symm)
  · -- The block is handed out whole, and no shelf changes any more.
    rw [if_neg enough]
    refine ascending.narrow (fun k => List.Sublist.refl _) ?_
    intro c block k listed
    rcases mem_middle.mp block with rfl | block
    · exact absurd listed (off k)
    · exact around c block

/-- Merging keeps the order when the merged block goes to the front of its shelf rightly. -/
theorem merge_ascending (ascending : s.Ascending) (stocked : s.Stocked style (pre ++ post))
    (old : ∀ c ∈ pre ++ post, c ∈ s.blocks) (tiles : Tiles lo (pre ++ b :: post) hi)
    (unlisted : ∀ k, b.addr ∉ s.lists k)
    (low : Lowest style ((join style.closed pre b post).pre ++ (join style.closed pre b post).post)
      (join style.closed pre b post).blk.size) :
    (s.merge style pre b post).Ascending := by
  let joined := join style.closed pre b post
  -- The merged block starts at the new block or at one that is taken off its shelf.
  have off : ∀ k, joined.blk.addr ∉ (joined.gone.foldl drop s).lists k := by
    intro k listed
    rcases join_addr style.closed pre b post with here | here
    · exact unlisted k (here ▸ (foldl_drop_sublist _).subset listed)
    · exact stocked.not_mem_foldl here listed
  -- Any listed block lies around the merged one.
  have kept : ∀ c ∈ joined.blocks, ∀ k, c.addr ∈ (joined.gone.foldl drop s).lists k → c ∈ pre ++ post := by
    intro c block k listed
    rcases (mem_join tiles).mp block with rfl | ⟨stays, _⟩
    · exact absurd listed (off k)
    · exact stays
  refine Ascending.file (ascending.narrow (fun k => foldl_drop_sublist _)
    fun c block k listed => old c (kept c block k listed)) ?_ ?_
  · intro c block here
    exact (join_tiles tiles).addr_inj block (by simp [Joined.blocks]) here
  · -- A block that is listed with the merged one is another block, and not smaller.
    intro k class_ c block listed
    have stays := kept c block k listed
    obtain ⟨d, dBlock, same, dFree, dClass⟩ := stocked.listed k c.addr ((foldl_drop_sublist _).subset listed)
    obtain rfl := tiles.addr_inj (mem_around dBlock) (mem_around stays) same
    refine low d ?_ dFree (dClass.trans class_.symm)
    have other : d ≠ joined.blk := by
      rintro rfl
      exact off k listed
    have block : d ∈ joined.pre ++ joined.blk :: joined.post := block
    exact (mem_middle.mp block).resolve_left other

/-- Without the merged block the shelves are in order even when it was filed wrongly. -/
theorem merge_drop_ascending (ascending : s.Ascending) (stocked : (s.merge style pre b post).Stocked style bs)
    (old : ∀ c ∈ pre ++ post, c ∈ s.blocks) (tiles : Tiles lo (pre ++ b :: post) hi) :
    ((s.merge style pre b post).drop (join style.closed pre b post).blk.addr).Ascending := by
  let joined := join style.closed pre b post
  refine ascending.narrow (fun k => ?_) fun c block k listed => ?_
  · -- What filing added is what is taken off again.
    have rest : ((s.merge style pre b post).drop joined.blk.addr).lists k =
        (if style.cls joined.blk.size = some k then joined.blk.addr :: (joined.gone.foldl drop s).lists k
          else (joined.gone.foldl drop s).lists k).erase joined.blk.addr := rfl
    rw [rest]
    split
    · rw [List.erase_cons_head]
      exact foldl_drop_sublist _
    · exact List.erase_sublist.trans (foldl_drop_sublist _)
  · rcases (mem_join tiles).mp block with rfl | ⟨stays, _⟩
    · exact absurd listed (stocked.distinct k).not_mem_erase
    · exact old c stays

end Shelves

end MallocLab
