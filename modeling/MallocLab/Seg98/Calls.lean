import MallocLab.Seg98.Coalesce
import MallocLab.Skeleton.Shelved

/-! What the shared functions do to the blocks and the shelves, for both files. -/

namespace MallocLab.Seg98

open Segregated

variable {f : File} {h : State} {s : Shelves} {a b c : Blk} {pre post : List Blk} {n p size : Nat}

/-- A multiple of eight needs no alignment. -/
theorem align_whole (whole : size % 8 = 0) (word : size < 2 ^ 32) : align size = size := by
  rw [align_eq (by omega)]
  omega

/-- When the area has room, `extend_heap` lists the new space as a free block and coalesces it. -/
theorem extendHeap_eq (rep : Rep (layout f) heads h s) (whole : size % 8 = 0) (least : 8 ≤ size)
    (room : h.memBrk + size ≤ h.memMaxAddr) :
    extendHeap f h size = (insertNode f { h with mem := grown h.mem h.memBrk size, memBrk := h.memBrk + size }
      h.memBrk size).bind fun h' => coalesce f h' h.memBrk := by
  -- The area ends below the top of the address space, so the break moves up.
  have fits := rep.area.fits
  have limit := rep.area.limit
  obtain ⟨lo, low, aligned, _, tiles⟩ := rep.tiles
  have rise := tiles.le
  have brk := tiles.aligned
  unfold maxHeap at limit
  unfold extendHeap
  rw [align_whole whole (by omega)]
  simp only [memSbrk_granted (show size < 2 ^ 31 by omega) fits room]
  have real : h.memBrk ≠ minusOne := by unfold minusOne; omega
  -- The header, the footer and the new epilogue are written where the arena grows.
  rw [if_neg real, put_tags (by omega) (by omega) whole (by omega) (by omega),
    brand_next (by omega) (by omega) whole (by omega) (by omega), hdrp_eq (by omega) (by omega),
    pack_eq (by decide) (by decide)]
  rfl

/-- When the area has no room, `extend_heap` returns null and changes nothing. -/
theorem extendHeap_refused (whole : size % 8 = 0) (word : size < 2 ^ 32) (fits : SbrkFits h size)
    (full : h.memMaxAddr < h.memBrk + size) : extendHeap f h size = some (h, null) := by
  unfold extendHeap
  rw [align_whole whole word]
  simp only [memSbrk_refused word fits full]
  rfl

/-- The tags of the block behind are set through the header of the block before it. -/
theorem put_behind {q : Nat} (size alloc : Nat) (next : nextBlkp h p = q) (above : 4 ≤ p) (after : p + 8 ≤ q)
    (fits : q + size < 2 ^ 32) (whole : size % 8 = 0) (least : 8 ≤ size) (small : alloc < 8) :
    (h.put (hdrp (nextBlkp h p)) (pack size alloc)).put
        (ftrp (h.put (hdrp (nextBlkp h p)) (pack size alloc))
          (nextBlkp (h.put (hdrp (nextBlkp h p)) (pack size alloc)) p)) (pack size alloc) =
      { h with mem := stamp h.mem q size (size + alloc) } := by
  have header : hdrp q = q - 4 := hdrp_eq (by omega) (by omega)
  have kept : nextBlkp (h.put (hdrp q) (pack size alloc)) p = q := by
    rw [header, nextBlkp_put above (by omega) (by omega), next]
  rw [next, kept]
  exact put_tags (by omega) fits whole least small

variable (spells : Spells f.entries links)
include spells

/-- `extend_heap` adds a free block at the end of the heap. -/
theorem extend_rep (rep : Rep (layout f) heads h s) (filed : s.Filed style) (whole : size % 8 = 0)
    (least : 16 ≤ size) (room : s.brk + size ≤ h.memMaxAddr) :
    ∃ h', extendHeap f h size = some (h', (s.extend style size).2) ∧
      Rep (layout f) heads h' (s.extend style size).1 ∧ Keeps h h' s.blocks := by
  rw [← rep.brk] at room
  -- The new space becomes a free block, which is filed and then merged.
  obtain ⟨grew, keeps⟩ := rep.grow (keeper spells).stable whole least room
  let fresh : Blk := { addr := s.brk, size := size, used := false }
  obtain ⟨h₁, listed, rep₁, keeps₁, _⟩ := (keeper spells).insert grew (b := fresh) (by simp [fresh]) rfl rep.fresh
  obtain ⟨h', done, rep', keeps'⟩ := coalesce_rep spells rep₁ (show _ = s.blocks ++ fresh :: [] from rfl) rfl
    rep.fresh (fun c member => filed c (by simpa using member))
  refine ⟨h', ?_, ?_, (keeps.trans (keeps₁.narrow ?_)).trans (by simpa using keeps')⟩
  · -- This is what the code does with the space that it obtains.
    rw [extendHeap_eq rep whole (by omega) room]
    have here : fresh.addr = h.memBrk := rep.brk.symm
    rw [here] at done listed
    exact bind_step listed done
  · rwa [Shelves.extend_fst]
  · exact fun c member _ => List.mem_append_left _ member

/-- `mm_free` marks the block free where it stands, lists it, and coalesces. -/
theorem release_rep (rep : Rep (layout f) heads h s) (filed : s.Filed style) (member : b ∈ s.blocks)
    (used : b.used = true) :
    ∃ h', release f h b.addr b.size = some h' ∧ Rep (layout f) heads h' (s.free style b.addr) ∧
      Keeps h h' (others s.blocks b.addr) := by
  obtain ⟨pre, post, split, located⟩ := Skeleton.Rep.locate rep member
  obtain ⟨lo, low, _, _, tiles⟩ := rep.tiles
  have inside := tiles.within member
  have lower := inside.lower
  have upper := inside.upper
  have high := rep.arena.high
  -- A used block is on no list, so its tags may be rewritten.
  have unlisted := rep.unlisted member used
  have header := rep.arena.header (b := b) (List.mem_append_right _ member)
  rw [hdrp_eq (by omega) (by omega)] at header
  have plain : f.tagged = false → b.tag = false := fun tight => rep.plain tight b member
  let idle : Blk := { b with used := false }
  obtain ⟨footer, foot, written⟩ := put_block (m := idle) header inside.whole plain rfl (show 4 ≤ b.addr by omega)
    (show b.addr + b.size < 2 ^ 32 by omega) inside.whole inside.least
  -- The tags are rewritten, the block is filed, and then it is merged.
  have region : s.blocks = pre ++ [b] ++ post := by simp [split]
  obtain ⟨rep₁, keeps₁⟩ := rep.rebrand heads_stable (b := idle) region (by simp)
    ⟨rfl, inside.whole, inside.least, rfl⟩ (by simpa using unlisted) foot plain
  obtain ⟨h₂, listed, rep₂, keeps₂, _⟩ := (keeper spells).insert rep₁ (b := idle) (by simp) rfl unlisted
  obtain ⟨h', done, rep', keeps₃⟩ := coalesce_rep spells rep₂ rfl rfl unlisted
    fun c block => filed c (split ▸ mem_around block)
  refine ⟨h', ?_, ?_, ?_⟩
  · exact bind_step ((congrArg (fun g => insertNode f g b.addr b.size) written).trans listed) (bind_step done rfl)
  · rw [Shelves.merge_blocks] at rep'
    simpa only [Shelves.free, located] using rep'
  · -- The used blocks apart from this one lie around it.
    have others_ : ∀ x ∈ others s.blocks b.addr, x ∈ pre ++ post := by
      intro x block
      obtain ⟨block, other⟩ := mem_others.mp block
      rw [split] at block
      exact (List.mem_append.mp block).elim (List.mem_append_left _) fun right =>
        (List.mem_cons.mp right).elim (fun same => absurd (same ▸ rfl) other) (List.mem_append_right _)
    exact ((keeps₁.trans (keeps₂.narrow fun x block _ => mem_around block)).trans keeps₃).narrow
      fun x block _ => others_ x block

/-- A free block has been taken off its list, as `place` does first. -/
structure Taken (f : File) (h : State) (s : Shelves) (b : Blk) (h₁ : State) : Prop where
  size : getSize h (hdrp b.addr) = b.size
  removed : removeNode f h b.addr = some h₁
  rep : Rep (layout f) heads h₁ (s.drop b.addr)
  keeps : Keeps h h₁ s.blocks
  word : h₁.get (b.addr - 4) = b.word
  plain : f.tagged = false → b.tag = false
  low : 8 ≤ b.addr
  high : b.addr + b.size < 2 ^ 32
  whole : b.size % 8 = 0
  least : 8 ≤ b.size

/-- A free block can be taken off its list. -/
theorem taken (rep : Rep (layout f) heads h s) (filed : s.Filed style) (member : b ∈ s.blocks)
    (free : b.used = false) : ∃ h₁, Taken f h s b h₁ := by
  obtain ⟨h₁, removed, rep₁, keeps₁⟩ := (keeper spells).remove rep member free (filed b member free)
  obtain ⟨lo, low, _, _, tiles⟩ := rep.tiles
  have inside := tiles.within member
  have lower := inside.lower
  have upper := inside.upper
  have high := rep.arena.high
  have header := rep₁.arena.header (b := b) (List.mem_append_right _ member)
  rw [hdrp_eq (by omega) (by omega)] at header
  exact ⟨h₁, rep.arena.size (List.mem_append_right _ member), removed, rep₁, keeps₁, header,
    fun tight => rep₁.plain tight b member, by omega, by omega, inside.whole, inside.least⟩

variable {h₁ : State} (took : Taken f h s b h₁) (rep : Rep (layout f) heads h s) (split : s.blocks = pre ++ b :: post)
  (free : b.used = false)
include took rep split free

omit spells free in
/-- `place` hands out the whole block when the rest is too small for a block. -/
theorem place_whole (large : n ≤ b.size) (tight : b.size - n ≤ 16) :
    ∃ h', place f h b.addr n = some (h', b.addr) ∧
      Rep (layout f) heads h' { s.drop b.addr with blocks := pre ++ { b with used := true } :: post } ∧
      Keeps h h' (pre ++ post) := by
  have ⟨size, removed, rep₁, keeps₁, word, plain, low, high, whole, least⟩ := took
  -- The remainder is too small for a block, so the block is used as a whole.
  let all : Blk := { b with used := true }
  obtain ⟨footer, foot, written⟩ := put_block (m := all) word whole plain rfl (show 4 ≤ b.addr by omega) high whole least
  -- It has been taken off its list before.
  have region : s.blocks = pre ++ [b] ++ post := by simp [split]
  have unlisted : ∀ k, ∀ x ∈ [b], x.addr ∉ (s.drop b.addr).lists k := by
    intro k
    rw [List.forall_mem_singleton]
    exact rep.not_mem_drop b.addr k
  obtain ⟨rep₂, keeps₂⟩ := rep₁.rebrand heads_stable (b := all) region (by simp) ⟨rfl, whole, least, rfl⟩ unlisted foot plain
  -- So the code takes its first branch.
  have remainder : sub32 b.size n = b.size - n := sub32_eq large (by omega)
  refine ⟨_, ?_, rep₂, (keeps₁.narrow fun x member _ => split ▸ mem_around member).trans keeps₂⟩
  unfold place
  simp only [size, remainder]
  exact bind_step removed ((if_pos tight).trans (congrArg (fun g => some (g, b.addr)) written))

/-- `place` serves a large request from the end of the block, and lists the rest. -/
theorem place_top (large : n ≤ b.size) (wide : ¬ b.size - n ≤ 16) (top : 100 ≤ n) (whole : n % 8 = 0) :
    ∃ h', place f h b.addr n = some (h', b.addr + (b.size - n)) ∧
      Rep (layout f) heads h' ({ s.drop b.addr with
        blocks := pre ++ { b with size := b.size - n } ::
          { addr := b.addr + (b.size - n), size := n, used := true } :: post }.file style
            { b with size := b.size - n }) ∧ Keeps h h' (pre ++ post) := by
  have ⟨size, removed, rep₁, keeps₁, word, plain, low, high, bWhole, least⟩ := took
  -- The remainder stays at the front, and the request is placed behind it.
  have unlisted : ∀ k, b.addr ∉ (s.drop b.addr).lists k := rep.not_mem_drop b.addr
  let rest : Blk := { b with size := b.size - n }
  let served : Blk := { addr := b.addr + (b.size - n), size := n, used := true }
  have restWhole : (b.size - n) % 8 = 0 := by omega
  -- First the front part gets its tags, and then the part behind.
  obtain ⟨footer, foot, written⟩ := put_block (m := rest) word bWhole plain rfl (show 4 ≤ b.addr by omega)
    (show b.addr + (b.size - n) < 2 ^ 32 by omega) restWhole (show 8 ≤ b.size - n by omega)
  obtain ⟨rep₂, keeps₂⟩ := rep₁.divide heads_stable (c := rest) (d := served) split rfl rfl
    (show b.size - n + n = b.size by omega) restWhole (show 16 ≤ b.size - n by omega) (show 16 ≤ n by omega)
    unlisted foot (show Footer f.tagged served (n + 1) from .inl rfl) fun tight => ⟨plain tight, rfl⟩
  -- The remainder is filed again.
  obtain ⟨h', done, rep', keeps₃, _⟩ := (keeper spells).insert rep₂ (b := rest) (by simp) free unlisted
  have idle : rest.used.toNat = 0 := congrArg Bool.toNat free
  have bit := Bool.toNat_lt_two rest.tag
  have next : nextBlkp { h₁ with mem := brand h₁.mem rest.addr rest.size rest.word footer } b.addr =
      b.addr + (b.size - n) :=
    brand_next (show 4 ≤ b.addr by omega) (show b.addr + (b.size - n) < 2 ^ 32 by omega) restWhole
      (show 8 ≤ b.size - n by omega)
      (show 2 * rest.tag.toNat + rest.used.toNat < 8 by omega)
  -- The block behind the remainder is found through the new header.
  have after := put_behind n 1 next (by omega) (by omega) (by omega) whole (by omega) (by decide)
  have last : nextBlkp h' b.addr = b.addr + (b.size - n) := rep'.arena.next (b := rest) (by simp)
  have remainder : sub32 b.size n = b.size - n := sub32_eq large (by omega)
  rw [idle] at written
  refine ⟨h', ?_, rep', ((keeps₁.narrow fun x member _ => split ▸ mem_around member).trans keeps₂).trans
    (keeps₃.narrow fun x member _ => mem_around (mem_around member))⟩
  -- The code does these steps in this order.
  unfold place
  simp only [size, remainder]
  refine bind_step removed ((if_neg wide).trans ((if_pos top).trans ?_))
  simp only [show put f (put f h₁ (hdrp b.addr) (pack (b.size - n) 0))
    (ftrp (put f h₁ (hdrp b.addr) (pack (b.size - n) 0)) b.addr) (pack (b.size - n) 0) = _ from written, after]
  exact bind_step done (congrArg (fun q => some (h', q)) last)

omit free in
/-- `place` serves a small request from the start of the block, and lists the rest. -/
theorem place_bottom (large : n ≤ b.size) (wide : ¬ b.size - n ≤ 16) (bottom : ¬ 100 ≤ n) (whole : n % 8 = 0)
    (sixteen : 16 ≤ n) :
    ∃ h', place f h b.addr n = some (h', b.addr) ∧
      Rep (layout f) heads h' ({ s.drop b.addr with
        blocks := pre ++ { b with size := n, used := true } ::
          { addr := b.addr + n, size := b.size - n, used := false } :: post }.file style
            { addr := b.addr + n, size := b.size - n, used := false }) ∧ Keeps h h' (pre ++ post) := by
  have ⟨size, removed, rep₁, keeps₁, word, plain, low, high, bWhole, least⟩ := took
  -- The request is placed at the front, and the remainder behind it.
  let served : Blk := { b with size := n, used := true }
  let rest : Blk := { addr := b.addr + n, size := b.size - n, used := false }
  -- First the front part gets its tags, and then the part behind.
  obtain ⟨footer, foot, written⟩ := put_block (m := served) word bWhole plain rfl (show 4 ≤ b.addr by omega)
    (show b.addr + n < 2 ^ 32 by omega) whole (show 8 ≤ n by omega)
  obtain ⟨rep₂, keeps₂⟩ := rep₁.divide heads_stable (c := served) (d := rest) split rfl rfl
    (show n + (b.size - n) = b.size by omega) whole (show 16 ≤ n by omega) (show 16 ≤ b.size - n by omega)
    (rep.not_mem_drop b.addr) foot (show Footer f.tagged rest (b.size - n + 0) from .inl rfl)
    fun tight => ⟨plain tight, rfl⟩
  -- The remainder begins inside the old block, so no list knows it yet.
  have fresh : ∀ k, rest.addr ∉ (s.drop b.addr).lists k :=
    Skeleton.Rep.not_within rep₁ (show b ∈ s.blocks by simp [split]) (show b.addr < b.addr + n by omega)
      (show b.addr + n < b.addr + b.size by omega)
  obtain ⟨h', done, rep', keeps₃, _⟩ := (keeper spells).insert rep₂ (b := rest) (by simp) rfl fresh
  have bit := Bool.toNat_lt_two served.tag
  have next : nextBlkp { h₁ with mem := brand h₁.mem served.addr served.size served.word footer } b.addr =
      b.addr + n :=
    brand_next (show 4 ≤ b.addr by omega) (show b.addr + n < 2 ^ 32 by omega) whole (show 8 ≤ n by omega)
      (show 2 * served.tag.toNat + 1 < 8 by omega)
  -- The remainder is found through the new header.
  have after := put_behind (b.size - n) 0 next (by omega) (by omega) (by omega) (by omega) (by omega) (by decide)
  have last := rep₂.arena.next (b := served) (by simp)
  have remainder : sub32 b.size n = b.size - n := sub32_eq large (by omega)
  refine ⟨h', ?_, rep', ((keeps₁.narrow fun x member _ => split ▸ mem_around member).trans keeps₂).trans
    (keeps₃.narrow fun x member _ => mem_around (mem_around member))⟩
  -- The code does these steps in this order.
  unfold place
  simp only [size, remainder]
  refine bind_step removed ((if_neg wide).trans ((if_neg bottom).trans ?_))
  simp only [show put f (put f h₁ (hdrp b.addr) (pack n 1)) (ftrp (put f h₁ (hdrp b.addr) (pack n 1)) b.addr)
    (pack n 1) = _ from written, after]
  exact bind_step ((congrArg (fun q => insertNode f _ q (b.size - n)) last).trans done) rfl

omit took split in
/-- `place` carves the request out of a listed free block. -/
theorem place_rep (filed : s.Filed style) (member : b ∈ s.blocks) (large : n ≤ b.size) (whole : n % 8 = 0)
    (least : 16 ≤ n) :
    ∃ h', place f h b.addr n = some (h', (s.carve style b.addr n).2) ∧
      Rep (layout f) heads h' (s.carve style b.addr n).1 ∧ Keeps h h' s.blocks := by
  obtain ⟨pre, post, split, located⟩ := Skeleton.Rep.locate rep member
  obtain ⟨h₁, took⟩ := taken spells rep filed member free
  -- The used blocks lie around the block that is carved.
  have kept : ∀ x ∈ s.blocks, x.used = true → x ∈ pre ++ post := by
    intro x block used
    rw [split] at block
    exact mem_others_free free block used
  unfold Shelves.carve
  simp only [located]
  -- The code and the abstract allocator ask the same two questions.
  by_cases tight : b.size - n ≤ 16
  · have splits : style.splits (b.size - n) = false := decide_eq_false (by omega)
    obtain ⟨h', done, rep', keeps⟩ := place_whole took rep split large tight
    rw [splits]
    exact ⟨h', done, rep', keeps.narrow kept⟩
  · have splits : style.splits (b.size - n) = true := decide_eq_true (by omega)
    rw [splits]
    by_cases top : 100 ≤ n
    · have high : style.high n = true := decide_eq_true top
      obtain ⟨h', done, rep', keeps⟩ := place_top spells took rep split free large tight top whole
      rw [high]
      exact ⟨h', done, rep', keeps.narrow kept⟩
    · have high : style.high n = false := decide_eq_false top
      obtain ⟨h', done, rep', keeps⟩ := place_bottom spells took rep split large tight top whole least
      rw [high]
      exact ⟨h', done, rep', keeps.narrow kept⟩

end MallocLab.Seg98
