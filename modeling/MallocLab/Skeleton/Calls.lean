import MallocLab.Shelves.Laws
import MallocLab.Skeleton.Coalesce
import MallocLab.Skeleton.Policy

/-! What the shared entry points do to the blocks and the shelves. -/

namespace MallocLab.Skeleton

variable {γ : Type} {L : Layout} {heads : Heap γ → (Nat → List Nat) → Prop} {h h' : Heap γ}
variable {s : Shelves} {a b : Blk} {pre post : List Blk} {p n asize size : Nat}
variable {coalesce : Heap γ → Nat → Option (Heap γ × Nat)}
variable {remove settle : Heap γ → Nat → Option (Heap γ)}
variable {lone insert : Heap γ → Nat → Nat → Option (Heap γ)}

section Extend

variable (whole : size % 8 = 0) (word : size < 2 ^ 32)
include whole word

/-- The number of words leads back to the number of bytes. -/
theorem words_bytes : (if size / wsize % 2 = 1 then mul32 (add32 (size / wsize) 1) wsize
    else mul32 (size / wsize) wsize) = size := by
  unfold wsize
  rw [if_neg (by omega), mul32_eq (by omega)]
  omega

/-- When the area has room, `extend_heap` marks the new space as a free block and coalesces it. -/
theorem extendHeap_eq (rep : Rep L heads h s) (least : 8 ≤ size) (room : h.memBrk + size ≤ h.memMaxAddr) :
    extendHeap coalesce h (size / wsize) =
      coalesce { h with mem := grown h.mem h.memBrk size, memBrk := h.memBrk + size } h.memBrk := by
  have fits := rep.area.fits
  have limit := rep.area.limit
  -- The new space lies below the top of the address space.
  obtain ⟨lo, low, aligned, _, tiles⟩ := rep.tiles
  have rise := tiles.le
  have brk := tiles.aligned
  unfold maxHeap at limit
  unfold extendHeap
  rw [words_bytes whole word]
  simp only [memSbrk_granted (show size < 2 ^ 31 by omega) fits room]
  have real : h.memBrk ≠ minusOne := by unfold minusOne; omega
  -- The four stores are the tags of the new block and the new epilogue.
  rw [if_neg real, put_tags (by omega) (by omega) whole (by omega) (by omega),
    brand_next (by omega) (by omega) whole (by omega) (by omega), hdrp_eq (by omega) (by omega),
    pack_eq (by decide) (by decide)]
  rfl

/-- When the area has no room, `extend_heap` returns null and changes nothing. -/
theorem extendHeap_refused (fits : SbrkFits h size) (full : h.memMaxAddr < h.memBrk + size) :
    extendHeap coalesce h (size / wsize) = some (h, null) := by
  unfold extendHeap
  rw [words_bytes whole word]
  simp only [memSbrk_refused word fits full]
  rfl

end Extend

/-- `mm_free` marks the block free where it stands and coalesces it. -/
theorem mmFree_eq (rep : Rep L heads h s) (member : b ∈ s.blocks) {result : Heap γ × Nat}
    (merged : coalesce (h.freed b.addr b.size) b.addr = some result) :
    mmFree coalesce h b.addr = some result.1 := by
  obtain ⟨lo, low, _, _, tiles⟩ := rep.tiles
  have inside := tiles.within member
  have lower := inside.lower
  have upper := inside.upper
  have high := rep.arena.high
  unfold mmFree
  simp only [rep.arena.size (List.mem_append_right _ member)]
  rw [put_tags (by omega) (by omega) inside.whole inside.least (by omega)]
  exact bind_step merged rfl

/-- A free block among the blocks, in its surroundings. -/
theorem Rep.locate (rep : Rep L heads h s) (member : b ∈ s.blocks) :
    ∃ pre post, s.blocks = pre ++ b :: post ∧ MallocLab.locate s.blocks b.addr = some (pre, b, post) := by
  obtain ⟨pre, post, split⟩ := List.append_of_mem member
  obtain ⟨_, _, _, _, tiles⟩ := rep.tiles
  exact ⟨pre, post, split, tiles.locate_split split⟩

/-- A used block is marked free where it stands. -/
theorem Rep.release (rep : Rep L heads h s) (stable : Stable L heads) (tight : L.loose = false)
    (split : s.blocks = pre ++ b :: post) (used : b.used = true) :
    Rep L heads (h.freed b.addr b.size) { s with blocks := pre ++ { b with used := false } :: post } ∧
      Keeps h (h.freed b.addr b.size) (pre ++ post) := by
  have member : b ∈ s.blocks := by simp [split]
  have plain := rep.plain tight b member
  have unlisted := rep.unlisted member used
  obtain ⟨_, _, _, _, tiles⟩ := rep.tiles
  -- The header and the footer are the ones of a free block.
  have inside := tiles.within member
  have word : { b with used := false }.word = b.size + 0 := Blk.word_plain plain
  have region : s.blocks = pre ++ [b] ++ post := by simp [split]
  obtain ⟨rep₁, keeps₁⟩ := rep.rebrand stable (b := { b with used := false }) region (by simp)
    ⟨rfl, inside.whole, inside.least, rfl⟩
    (by
      intro k x here
      obtain rfl := List.mem_singleton.mp here
      exact unlisted k)
    (show Footer L.loose { b with used := false } (b.size + 0) from .inl rfl) fun _ => plain
  rw [word] at rep₁ keeps₁
  exact ⟨rep₁, keeps₁⟩

section Merging

variable (keeper : Keeper L heads remove insert) (single : Keeper L heads remove lone)
  (turns : Turns L coalesce remove lone insert) (tight : L.loose = false)
  (closed : L.style.closed = Blk.used)
include keeper single turns tight closed

/-- `extend_heap` adds a free block at the end of the heap. -/
theorem extend_rep (rep : Rep L heads h s) (filed : s.Filed L.style) (whole : size % 8 = 0)
    (least : L.least ≤ size) (room : s.brk + size ≤ h.memMaxAddr) :
    ∃ h', extendHeap coalesce h (size / wsize) = some (h', (s.extend L.style size).2) ∧
      Rep L heads h' (s.extend L.style size).1 ∧ Keeps h h' s.blocks := by
  rw [← rep.brk] at room
  have fits := rep.area.fits
  have wide := L.room
  -- The new space is one more free block, which is joined.
  obtain ⟨grew, keeps⟩ := rep.grow keeper.stable whole least room
  obtain ⟨h', done, rep', keeps'⟩ := coalesce_rep keeper turns tight single closed grew rfl rfl rep.fresh
    (fun c member => filed c (by simpa using member))
  refine ⟨h', ?_, ?_, keeps.trans (by simpa using keeps')⟩
  · -- The code gets the same state from `mem_sbrk`.
    rw [extendHeap_eq whole (by omega) rep (by omega) room]
    unfold Shelves.extend
    rw [closed]
    rw [← rep.brk] at done ⊢
    exact done
  · rwa [Shelves.extend_fst]

/-- `mm_free` frees a used block and merges it. -/
theorem free_rep (rep : Rep L heads h s) (filed : s.Filed L.style) (member : b ∈ s.blocks)
    (used : b.used = true) :
    ∃ h', mmFree coalesce h b.addr = some h' ∧ Rep L heads h' (s.free L.style b.addr) ∧
      Keeps h h' (others s.blocks b.addr) := by
  obtain ⟨pre, post, split, located⟩ := Rep.locate rep member
  have around : ∀ c ∈ pre ++ post, c ∈ s.blocks := fun c block => split ▸ mem_around block
  have unlisted := rep.unlisted member used
  -- The block is marked free where it stands, and then merged.
  obtain ⟨rep₁, keeps₁⟩ := Rep.release rep keeper.stable tight split used
  obtain ⟨h', done, rep', keeps₂⟩ := coalesce_rep keeper turns tight single closed rep₁ rfl rfl unlisted
    fun c block => filed c (around c block)
  refine ⟨h', mmFree_eq rep member done, ?_, ?_⟩
  · -- The abstract state does the same.
    simp only [Shelves.free, located]
    rwa [Shelves.merge_blocks] at rep'
  · -- The other used blocks keep their contents.
    refine (keeps₁.trans keeps₂).narrow fun c block _ => ?_
    obtain ⟨block, other⟩ := mem_others.mp block
    have different : c ≠ b := by rintro rfl; exact other rfl
    exact (mem_middle.mp (split ▸ block)).resolve_left different

end Merging

/-- How the rest of a split block is listed: its neighbours are in use, so there is nothing to merge. -/
def Settles (L : Layout) (heads : Heap γ → (Nat → List Nat) → Prop) (settle : Heap γ → Nat → Option (Heap γ)) :
    Prop :=
  ∀ {h s pre c d post}, Rep L heads h s → s.blocks = pre ++ c :: d :: post → c.used = true → d.used = false →
    (∀ x ∈ post.head?, x.used = true) → (∀ k, d.addr ∉ s.lists k) →
    ∃ h', settle h d.addr = some h' ∧ Rep L heads h' (s.file L.style d) ∧ Keeps h h' s.blocks

/-- Listing the rest without looking around settles it. -/
theorem settles_insert (keeper : Keeper L heads remove insert)
    (same : ∀ {h : Heap γ} {p size : Nat}, settle h p = insert h p size) : Settles L heads settle := by
  intro h s pre c d post rep split _ free _ fresh
  obtain ⟨h', done, rep', keeps, _⟩ := keeper.insert rep (b := d) (by simp [split]) free fresh
  exact ⟨h', same.trans done, rep', keeps⟩

/-- Coalescing the rest settles it. -/
theorem settles_coalesce (single : Keeper L heads remove lone) (turns : Turns L coalesce remove lone insert) :
    Settles L heads fun h bp => (coalesce h bp).map Prod.fst := by
  intro h s pre c d post rep split used free ahead fresh
  have split' : s.blocks = (pre ++ [c]) ++ d :: post := by simp [split]
  obtain ⟨h', done, rep', keeps, _⟩ := single.insert rep (b := d) (by simp [split]) free fresh
  have seen := rep.seen (List.append_assoc ..).symm split'
  exact ⟨h', congrArg (Option.map Prod.fst) (turns.alone seen used (following_used ahead) done), rep', keeps⟩

/-- How a file carves a request out of a free block that is large enough. -/
def Places (L : Layout) (heads : Heap γ → (Nat → List Nat) → Prop) (place : Heap γ → Nat → Nat → Option (Heap γ)) :
    Prop :=
  ∀ {h s b n}, Rep L heads h s → s.Filed L.style → Separated s.blocks → b ∈ s.blocks → b.used = false →
    n ≤ b.size → n % 8 = 0 → L.least ≤ n →
    ∃ h', place h b.addr n = some h' ∧ Rep L heads h' (s.carve L.style b.addr n).1 ∧ Keeps h h' s.blocks ∧
      (s.carve L.style b.addr n).2 = b.addr

/-- No shelf holds an address inside a block. -/
theorem Rep.not_within (rep : Rep L heads h s) (member : b ∈ s.blocks) (lower : b.addr < p)
    (upper : p < b.addr + b.size) (k : Nat) : p ∉ s.lists k := by
  intro listed
  obtain ⟨c, block, rfl, _⟩ := rep.threaded.listed k p listed
  obtain ⟨_, _, _, _, tiles⟩ := rep.tiles
  have := (tiles.within block).least
  rcases tiles.apart block member with rfl | apart <;> omega

/-- `place`, as most files write it, carves the request out. -/
theorem place_rep (keeper : Keeper L heads remove insert) (settles : Settles L heads settle)
    (tight : L.loose = false) (sixteen : L.least = 16)
    (splits : ∀ left, L.style.splits left = decide (16 ≤ left)) (lowest : ∀ a, L.style.high a = false) :
    Places L heads (place remove settle) := by
  intro h s b n rep filed separated member free large whole enough
  have least : 16 ≤ n := sixteen ▸ enough
  obtain ⟨pre, post, split, located⟩ := Rep.locate rep member
  have size : getSize h (hdrp b.addr) = b.size := rep.arena.size (List.mem_append_right _ member)
  -- The block is taken off its shelf before anything is stored.
  obtain ⟨h₁, removed, rep₁, keeps₁⟩ := keeper.remove rep member free (filed b member free)
  have plain := rep.plain tight b member
  obtain ⟨lo, low, _, _, tiles⟩ := rep.tiles
  have inside := tiles.within member
  have bWhole := inside.whole
  have lower := inside.lower
  have upper := inside.upper
  have high := rep.arena.high
  have unlisted : ∀ k, b.addr ∉ (s.drop b.addr).lists k := rep.not_mem_drop b.addr
  have remainder : sub32 b.size n = b.size - n := sub32_eq large (by omega)
  have minimum : 2 * dsize = 16 := rfl
  -- The used blocks lie around the block that is handed out.
  have kept : ∀ x ∈ s.blocks, x.used = true → x ∈ pre ++ post := fun x block used =>
    mem_others_free free (split ▸ block) used
  unfold place Shelves.carve
  simp only [size, remainder, minimum, located, ge_iff_le, splits, lowest, Bool.false_eq_true, if_false,
    decide_eq_true_eq]
  -- What is left over is a block, or it stays with the block.
  by_cases room : 16 ≤ b.size - n
  · rw [if_pos room]
    let taken : Blk := { b with size := n, used := true }
    let rest : Blk := { addr := b.addr + n, size := b.size - n, used := false }
    obtain ⟨rep₂, keeps₂⟩ := rep₁.divide keeper.stable (c := taken) (d := rest) split rfl rfl
      (by show n + (b.size - n) = b.size; omega) whole (by rw [sixteen]; exact least)
      (by rw [sixteen]; exact room) unlisted (show Footer L.loose taken (n + 1) from .inl rfl)
      (show Footer L.loose rest (b.size - n + 0) from .inl rfl) fun _ => ⟨plain, rfl⟩
    -- The remainder has a used block behind it, so nothing is to be joined.
    have ahead := (split ▸ separated).after free
    have fresh : ∀ k, rest.addr ∉ (s.drop b.addr).lists k :=
      Rep.not_within rep₁ member (by show b.addr < b.addr + n; omega) (by show b.addr + n < _; omega)
    obtain ⟨h₃, done, rep₃, keeps₃⟩ := settles rep₂ rfl rfl rfl ahead fresh
    refine ⟨h₃, bind_step removed ?_, ?_, (keeps₁.trans (keeps₂.narrow kept)).trans (keeps₃.narrow ?_), ?_⟩
    · -- The tags are those of the two parts.
      have word : taken.word = n + 1 := Blk.word_plain plain
      rw [word] at done
      rw [if_pos room, put_tags (by omega) (by omega) whole (by omega) (by omega),
        brand_next (by omega) (by omega) whole (by omega) (by omega),
        put_tags (by omega) (by omega) (by omega) (by omega) (by omega)]
      exact done
    · simpa only [if_pos room] using rep₃
    · exact fun x block used => mem_around (mem_around (kept x block used))
    · rfl
  · -- The whole block is handed out, so only its tags change.
    rw [if_neg room]
    let taken : Blk := { b with used := true }
    have word : taken.word = b.size + 1 := Blk.word_plain plain
    have region : s.blocks = pre ++ [b] ++ post := by simp [split]
    obtain ⟨rep₂, keeps₂⟩ := rep₁.rebrand keeper.stable (b := taken) region (by simp)
      ⟨rfl, bWhole, inside.least, rfl⟩
      (by
        intro k x here
        obtain rfl := List.mem_singleton.mp here
        exact unlisted k)
      (show Footer L.loose taken (b.size + 1) from .inl rfl) fun _ => plain
    rw [word] at rep₂ keeps₂
    refine ⟨_, bind_step removed ?_, rep₂, keeps₁.trans (keeps₂.narrow kept), rfl⟩
    rw [if_neg room, put_tags (by omega) (by omega) bWhole inside.least (by omega)]
    rfl

end MallocLab.Skeleton
