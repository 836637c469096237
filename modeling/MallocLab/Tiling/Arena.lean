import MallocLab.Machine.Macros
import MallocLab.Tiling.Join

/-! Boundary tags in memory: a tiled interval whose blocks carry their headers and footers. -/

namespace MallocLab

/-- The header word of a block. -/
def Blk.word (b : Blk) : Nat := b.size + (2 * b.tag.toNat + b.used.toNat)

/-- The header at the end of the heap, which stands for a used block of no size. -/
def epilogue (hi : Nat) (mark : Bool) : Blk := { addr := hi, size := 0, used := true, tag := mark }

/-- The footers a block may have: its size and allocation bit, and in loose heaps a stray tag bit. -/
def Footer (loose : Bool) (b : Blk) (footer : Nat) : Prop :=
  footer = b.size + b.used.toNat ∨ loose = true ∧ footer = b.size + b.used.toNat + 2

/-- Memory holds the header and the footer of a block. -/
structure Tagged (loose : Bool) (m : Mem) (b : Blk) : Prop where
  header : loadWord m (b.addr - 4) = b.word
  footer : Footer loose b (loadWord m (b.addr + b.size - 8))

/-- The blocks tile the interval, memory holds their tags, and an epilogue header closes the heap. -/
structure Arena (loose : Bool) (m : Mem) (lo hi : Nat) (bs : List Blk) (mark : Bool) : Prop where
  tiles : Tiles lo bs hi
  tags : ∀ b ∈ bs, Tagged loose m b
  closing : loadWord m (hi - 4) = (epilogue hi mark).word
  low : 8 ≤ lo
  aligned : lo % 8 = 0
  high : hi < 2 ^ 32

/-- An address inside the payload of a block. -/
def Payload (b : Blk) (x : Nat) : Prop := b.addr ≤ x ∧ x + 8 < b.addr + b.size

/-- The block that follows, which is the epilogue when there is none left. -/
def following (post : List Blk) (hi : Nat) (mark : Bool) : Blk := post.headD (epilogue hi mark)

variable {γ : Type} {h : Heap γ} {loose mark : Bool} {m m' : Mem} {lo hi start stop : Nat}
variable {a b c : Blk} {bs pre mid mid' post : List Blk}

/-- A flag is one bit. -/
theorem Bool.toNat_lt_two (flag : Bool) : flag.toNat < 2 := by cases flag <;> decide

/-- The flags of a header do not disturb its size. -/
theorem Blk.word_size (whole : b.size % 8 = 0) : b.word / 8 * 8 = b.size := by
  have used := Bool.toNat_lt_two b.used
  have tag := Bool.toNat_lt_two b.tag
  -- The flags stay below four, so the division drops them.
  unfold Blk.word
  omega

/-- The lowest bit of a header says whether the block is in use. -/
theorem Blk.word_used (whole : b.size % 8 = 0) : b.word % 2 = b.used.toNat := by
  have used := Bool.toNat_lt_two b.used
  unfold Blk.word
  omega

/-- Tags depend only on the bytes of the header and of the footer. -/
theorem Tagged.congr (tagged : Tagged loose m b) (least : 8 ≤ b.size) (above : 4 ≤ b.addr)
    (header : ∀ x, b.addr - 4 ≤ x → x < b.addr → m' x = m x)
    (footer : ∀ x, b.addr + b.size - 8 ≤ x → x < b.addr + b.size - 4 → m' x = m x) :
    Tagged loose m' b := by
  have first : loadWord m' (b.addr - 4) = loadWord m (b.addr - 4) :=
    loadWord_congr fun x lower upper => header x lower (by omega)
  have last : loadWord m' (b.addr + b.size - 8) = loadWord m (b.addr + b.size - 8) :=
    loadWord_congr fun x lower upper => footer x lower (by omega)
  exact ⟨first ▸ tagged.header, last ▸ tagged.footer⟩

/-- The bounds a block of an arena satisfies. -/
theorem Arena.within (arena : Arena loose m lo hi bs mark) (member : b ∈ bs) : Within lo hi b :=
  arena.tiles.within member

/-- A block of an arena is not null. -/
theorem Arena.real (arena : Arena loose m lo hi bs mark) (member : b ∈ bs) : b.addr ≠ null := by
  have lower := (arena.within member).lower
  have low := arena.low
  unfold null
  omega

section Reading

variable (arena : Arena loose h.mem lo hi bs mark)
include arena

/-- The header of a block is found below its payload. -/
theorem Arena.header (member : b ∈ bs) : h.get (hdrp b.addr) = b.word := by
  have inside := arena.within member
  have low := arena.low
  have high := arena.high
  -- The lowest block starts at eight or later, so the subtraction does not wrap.
  rw [hdrp_eq (by have := inside.lower; omega) (by have := inside.upper; omega)]
  exact (arena.tags b member).header

/-- `GET_SIZE(HDRP(bp))` is the size of the block. -/
theorem Arena.size (member : b ∈ bs) : getSize h (hdrp b.addr) = b.size := by
  rw [getSize_eq, arena.header member, Blk.word_size (arena.within member).whole]

/-- `GET_ALLOC(HDRP(bp))` is one exactly for a used block. -/
theorem Arena.alloc (member : b ∈ bs) : getAlloc h (hdrp b.addr) = b.used.toNat := by
  rw [getAlloc_eq, arena.header member, Blk.word_used (arena.within member).whole]

/-- `GET_ALLOC(HDRP(bp))` is zero exactly for a free block. -/
theorem Arena.alloc_free (member : b ∈ bs) : getAlloc h (hdrp b.addr) = 0 ↔ b.used = false := by
  rw [arena.alloc member]
  cases b.used <;> decide

/-- `FTRP(bp)` is the last word of the block. -/
theorem Arena.ftrp (member : b ∈ bs) : ftrp h b.addr = b.addr + b.size - 8 := by
  have inside := arena.within member
  have upper := inside.upper
  have least := inside.least
  have high := arena.high
  unfold MallocLab.ftrp dsize
  -- Both steps of the macro stay inside the block.
  rw [arena.size member, add32_eq (by omega), sub32_eq (by omega) (by omega)]

/-- `NEXT_BLKP(bp)` is where the block ends. -/
theorem Arena.next (member : b ∈ bs) : nextBlkp h b.addr = b.addr + b.size := by
  have upper := (arena.within member).upper
  have high := arena.high
  have size := arena.size member
  unfold hdrp at size
  unfold nextBlkp
  rw [size, add32_eq (by omega)]

/-- The footer of a block repeats its size. -/
theorem Arena.footSize (member : b ∈ bs) : getSize h (b.addr + b.size - 8) = b.size := by
  have whole := (arena.within member).whole
  have used := Bool.toNat_lt_two b.used
  rw [getSize_eq, Heap.get]
  -- A stray tag bit in the footer does not reach the size.
  rcases (arena.tags b member).footer with plain | ⟨_, stray⟩
  · rw [plain]
    omega
  · rw [stray]
    omega

/-- The footer of a block repeats its allocation bit. -/
theorem Arena.footAlloc (member : b ∈ bs) : getAlloc h (b.addr + b.size - 8) = b.used.toNat := by
  have whole := (arena.within member).whole
  have used := Bool.toNat_lt_two b.used
  rw [getAlloc_eq, Heap.get]
  -- A stray tag bit in the footer does not reach the lowest bit either.
  rcases (arena.tags b member).footer with plain | ⟨_, stray⟩
  · rw [plain]
    omega
  · rw [stray]
    omega

end Reading

/-- `PREV_BLKP(bp)` is the address of the block before. -/
theorem Arena.prev (arena : Arena loose h.mem lo hi (pre ++ a :: b :: post) mark) :
    prevBlkp h b.addr = a.addr := by
  have inside := arena.within (b := a) (by simp)
  have low := arena.low
  have high := arena.high
  have lower := inside.lower
  have least := inside.least
  have upper := (arena.within (b := b) (by simp)).upper
  have adjoining := arena.tiles.cut.2.1.1
  -- The word below the header of `b` is the footer of `a`.
  have foot : sub32 b.addr 8 = a.addr + a.size - 8 := by
    rw [sub32_eq (by omega) (by omega), adjoining]
  unfold prevBlkp dsize
  rw [foot, arena.footSize (b := a) (by simp), sub32_eq (by omega) (by omega)]
  omega

/-- Where a block ends, the block that follows begins. -/
theorem Arena.following_addr (arena : Arena loose m lo hi (pre ++ b :: post) mark) :
    (following post hi mark).addr = b.addr + b.size := by
  have right := arena.tiles.cut.2.1
  cases post with
  | nil => exact right.symm
  | cons c post => exact right.1

/-- The header after a block is the header of the block that follows. -/
theorem Arena.following_header (arena : Arena loose h.mem lo hi (pre ++ b :: post) mark) :
    h.get (hdrp (nextBlkp h b.addr)) = (following post hi mark).word := by
  rw [arena.next (by simp), ← arena.following_addr]
  -- Behind the last block stands the epilogue, which the arena closes with.
  cases post with
  | nil =>
    have low := arena.low
    have inside := arena.within (b := b) (by simp)
    have least := inside.least
    have upper := inside.upper
    rw [show (following ([] : List Blk) hi mark).addr = hi from rfl,
      hdrp_eq (by omega) arena.high]
    exact arena.closing
  | cons c post => exact arena.header (b := c) (by simp)

/-- `GET_ALLOC(HDRP(NEXT_BLKP(bp)))` tells whether the block that follows is in use. -/
theorem Arena.following_alloc (arena : Arena loose h.mem lo hi (pre ++ b :: post) mark) :
    getAlloc h (hdrp (nextBlkp h b.addr)) = (following post hi mark).used.toNat := by
  rw [getAlloc_eq, arena.following_header]
  apply Blk.word_used
  cases post with
  | nil => rfl
  | cons c post => exact (arena.within (b := c) (by simp)).whole

/-- `GET_SIZE(HDRP(NEXT_BLKP(bp)))` is the size of the block that follows. -/
theorem Arena.following_size (arena : Arena loose h.mem lo hi (pre ++ b :: post) mark) :
    getSize h (hdrp (nextBlkp h b.addr)) = (following post hi mark).size := by
  rw [getSize_eq, arena.following_header]
  apply Blk.word_size
  cases post with
  | nil => rfl
  | cons c post => exact (arena.within (b := c) (by simp)).whole

/-- What the macros read around a block that has `a` before it and `c` after it. -/
structure Reads (h : Heap γ) (a b c : Blk) : Prop where
  size : getSize h (hdrp b.addr) = b.size
  prev : prevBlkp h b.addr = a.addr
  prevAlloc : getAlloc h (ftrp h a.addr) = a.used.toNat
  prevSize : getSize h (hdrp a.addr) = a.size
  next : nextBlkp h b.addr = c.addr
  nextAlloc : getAlloc h (hdrp c.addr) = c.used.toNat
  nextSize : getSize h (hdrp c.addr) = c.size

/-- The macros read the blocks on either side. -/
theorem Arena.reads (arena : Arena loose h.mem lo hi (pre ++ a :: b :: post) mark) :
    Reads h a b (following post hi mark) := by
  have tail : Arena loose h.mem lo hi ((pre ++ [a]) ++ b :: post) mark := by simpa using arena
  have next : nextBlkp h b.addr = (following post hi mark).addr := by
    rw [arena.next (by simp), ← tail.following_addr]
  exact
    { size := arena.size (by simp)
      prev := arena.prev
      prevAlloc := by rw [arena.ftrp (by simp), arena.footAlloc (by simp)]
      prevSize := arena.size (by simp)
      next := next
      nextAlloc := next ▸ tail.following_alloc
      nextSize := next ▸ tail.following_size }

/-- A tag byte belongs to no payload, so writing inside payloads keeps every tag. -/
theorem Arena.payloads (arena : Arena loose m lo hi bs mark)
    (same : ∀ x, (∀ b ∈ bs, ¬ Payload b x) → m' x = m x) : Arena loose m' lo hi bs mark := by
  have low := arena.low
  refine { arena with tags := ?_, closing := ?_ }
  · intro b member
    have inside := arena.within member
    have least := inside.least
    have lower := inside.lower
    -- Neither tag of a block lies in its own payload, nor in that of another block.
    have outside : ∀ x, (b.addr - 4 ≤ x ∧ x < b.addr) ∨
        (b.addr + b.size - 8 ≤ x ∧ x < b.addr + b.size - 4) → ∀ c ∈ bs, ¬ Payload c x := by
      rintro x tag c other ⟨from_, until_⟩
      have otherLeast := (arena.within other).least
      rcases arena.tiles.apart member other with rfl | apart
      · omega
      · omega
    exact (arena.tags b member).congr least (by omega)
      (fun x lower upper => same x (outside x (.inl ⟨lower, upper⟩)))
      (fun x lower upper => same x (outside x (.inr ⟨lower, upper⟩)))
  · -- The epilogue header lies above every payload.
    rw [← arena.closing]
    apply loadWord_congr
    rintro x lower upper
    apply same
    rintro c member ⟨from_, until_⟩
    have above := (arena.within member).upper
    have rise := arena.tiles.le
    omega

/-- Every tag lies inside the interval, so memory elsewhere does not matter. -/
theorem Arena.enclosed (arena : Arena loose m lo hi bs mark)
    (same : ∀ x, lo - 4 ≤ x → x < hi → m' x = m x) : Arena loose m' lo hi bs mark := by
  have low := arena.low
  have rise := arena.tiles.le
  -- The tags are words inside.
  refine { arena with tags := ?_, closing := ?_ }
  · intro b member
    have inside := arena.within member
    have least := inside.least
    have lower := inside.lower
    have upper := inside.upper
    exact (arena.tags b member).congr least (by omega) (fun x _ _ => same x (by omega) (by omega))
      (fun x _ _ => same x (by omega) (by omega))
  · -- So is the epilogue.
    rw [← arena.closing]
    exact loadWord_congr fun x _ _ => same x (by omega) (by omega)

/--
Rewriting the tags of one region retiles it.

Only bytes between the region's first header and the header that follows it may change.
-/
theorem Arena.retile (arena : Arena loose m lo hi (pre ++ mid ++ post) mark)
    (covers : Tiles start mid stop) (nonempty : mid ≠ []) (recovers : Tiles start mid' stop)
    (tags : ∀ b ∈ mid', Tagged loose m' b)
    (same : ∀ x, x < start - 4 ∨ stop - 4 ≤ x → m' x = m x) :
    Arena loose m' lo hi (pre ++ mid' ++ post) mark := by
  have low := arena.low
  -- The region is delimited by where its first block starts and its last one ends.
  obtain ⟨left, right⟩ := arena.tiles.middle covers nonempty
  have rise := left.le
  have span := covers.le
  refine { arena with tiles := ?_, tags := ?_, closing := ?_ }
  · exact tiles_append.mpr ⟨_, tiles_append.mpr ⟨_, left, recovers⟩, right⟩
  · intro b member
    simp only [List.mem_append, or_assoc] at member
    rcases member with member | member | member
    · -- A block before the region keeps its tags: they end below the region's first header.
      have inside := left.within member
      have lower := inside.lower
      have upper := inside.upper
      have least := inside.least
      exact (arena.tags b (by simp [member])).congr least (by omega)
        (fun x _ below => same x (.inl (by omega))) (fun x _ below => same x (.inl (by omega)))
    · exact tags b member
    · -- A block behind the region keeps its tags: they start at the header that follows.
      have inside := right.within member
      have lower := inside.lower
      have least := inside.least
      exact (arena.tags b (by simp [member])).congr least (by omega)
        (fun x above _ => same x (.inr (by omega))) (fun x above _ => same x (.inr (by omega)))
  · -- So does the epilogue, which lies at the end of the region at the earliest.
    rw [← arena.closing]
    have rest := right.le
    exact loadWord_congr fun x lower _ => same x (.inr (by omega))

/-- New space at the end of the heap becomes one more block, closed by a new epilogue. -/
theorem Arena.extend {fresh : Blk} {mark' : Bool} (arena : Arena loose m lo hi bs mark)
    (start : fresh.addr = hi) (whole : fresh.size % 8 = 0) (least : 8 ≤ fresh.size)
    (fits : hi + fresh.size < 2 ^ 32) (tagged : Tagged loose m' fresh)
    (closing : loadWord m' (hi + fresh.size - 4) = (epilogue (hi + fresh.size) mark').word)
    (same : ∀ x, x < hi - 4 → m' x = m x) :
    Arena loose m' lo (hi + fresh.size) (bs ++ [fresh]) mark' := by
  have low := arena.low
  refine { arena with tiles := ?_, tags := ?_, closing := closing, high := fits }
  · exact tiles_append.mpr ⟨hi, arena.tiles, start, whole, least, rfl⟩
  · intro b member
    rcases List.mem_append.mp member with member | member
    · -- The old blocks have their tags below the old epilogue header.
      have inside := arena.within member
      have lower := inside.lower
      have upper := inside.upper
      have bLeast := inside.least
      exact (arena.tags b member).congr bLeast (by omega)
        (fun x _ below => same x (by omega)) (fun x _ below => same x (by omega))
    · -- The one new block carries its own tags.
      obtain rfl := List.mem_singleton.mp member
      exact tagged

/-- The memory after the header and the footer of a block are set. -/
def brand (m : Mem) (p size header footer : Nat) : Mem :=
  storeWord (storeWord m (p - 4) header) (p + size - 8) footer

/-- The memory after the header and the footer of a block are both set to `w`. -/
abbrev stamp (m : Mem) (p size w : Nat) : Mem := brand m p size w w

/-- Setting a header and the footer it leads to stamps the block. -/
theorem put_tags {p size alloc : Nat} (above : 4 ≤ p) (fits : p + size < 2 ^ 32)
    (whole : size % 8 = 0) (least : 8 ≤ size) (small : alloc < 8) :
    (h.put (hdrp p) (pack size alloc)).put (ftrp (h.put (hdrp p) (pack size alloc)) p)
        (pack size alloc) = { h with mem := stamp h.mem p size (size + alloc) } := by
  -- The footer is found through the header that has just been written.
  have read : getSize (h.put (hdrp p) (pack size alloc)) (hdrp p) = size := by
    rw [getSize_eq, Heap.get, Heap.put_mem, pack_eq whole small, loadWord_storeWord (by omega)]
    omega
  have footer : ftrp (h.put (hdrp p) (pack size alloc)) p = p + size - 8 := by
    unfold ftrp dsize
    rw [read, add32_eq fits, sub32_eq (by omega) (by omega)]
  rw [footer, pack_eq whole small, hdrp_eq above (by omega)]
  rfl

/-- Branding changes only the header and the footer. -/
theorem brand_other {p size header footer x : Nat} (above : 4 ≤ p) (least : 8 ≤ size)
    (outside : x + 4 < p ∨ (p ≤ x ∧ x + 8 < p + size) ∨ p + size ≤ x + 4) :
    brand m p size header footer x = m x := by
  unfold brand
  rw [storeWord_other (by omega), storeWord_other (by omega)]

/-- A branded block carries its tags. -/
theorem brand_tagged {footer : Nat} (foot : Footer loose b footer) (above : 4 ≤ b.addr)
    (whole : b.size % 8 = 0) (least : 8 ≤ b.size) (fits : b.addr + b.size < 2 ^ 32) :
    Tagged loose (brand m b.addr b.size b.word footer) b := by
  have used := Bool.toNat_lt_two b.used
  have tag := Bool.toNat_lt_two b.tag
  have word : b.word < 2 ^ 32 := by
    unfold Blk.word
    omega
  have footWord : footer < 2 ^ 32 := by
    rcases foot with plain | ⟨_, stray⟩ <;> omega
  -- The footer is stored last, and it is disjoint from the header.
  unfold brand
  constructor
  · -- The header is stored first.
    rw [loadWord_storeWord_other (by omega), loadWord_storeWord word]
  · rw [loadWord_storeWord footWord]
    exact foot

/-- An untagged block has the same header as footer. -/
theorem Blk.word_plain (plain : b.tag = false) : b.word = b.size + b.used.toNat := by
  simp [Blk.word, plain]

/-- After a header is branded, `NEXT_BLKP` leads to the end of the branded block. -/
theorem brand_next {p size flags footer : Nat} (above : 4 ≤ p) (fits : p + size < 2 ^ 32)
    (whole : size % 8 = 0) (least : 8 ≤ size) (small : flags < 8) :
    nextBlkp { h with mem := brand h.mem p size (size + flags) footer } p = p + size := by
  -- The header is read back, and its flags are dropped.
  have header : getSize { h with mem := brand h.mem p size (size + flags) footer } (sub32 p wsize) =
      size := by
    unfold wsize
    rw [getSize_eq, Heap.get, sub32_eq above (by omega)]
    unfold brand
    rw [loadWord_storeWord_other (by omega), loadWord_storeWord (by omega)]
    omega
  unfold nextBlkp
  rw [header, add32_eq fits]

/-- A call keeps the limits of the area and the payload bytes of these used blocks. -/
structure Keeps (h h' : Heap γ) (bs : List Blk) : Prop where
  start : h'.memStartBrk = h.memStartBrk
  limit : h'.memMaxAddr = h.memMaxAddr
  bytes : ∀ b ∈ bs, b.used = true → ∀ x, Payload b x → h'.mem x = h.mem x

/-- A step that changes nothing keeps everything. -/
theorem Keeps.refl (h : Heap γ) (bs : List Blk) : Keeps h h bs :=
  ⟨rfl, rfl, fun _ _ _ _ _ => rfl⟩

/-- Steps that keep the same blocks compose. -/
theorem Keeps.trans {h' h'' : Heap γ} (first : Keeps h h' bs) (second : Keeps h' h'' bs) :
    Keeps h h'' bs where
  start := second.start.trans first.start
  limit := second.limit.trans first.limit
  bytes b member used x inside :=
    (second.bytes b member used x inside).trans (first.bytes b member used x inside)

/-- What is kept of some used blocks is kept of fewer. -/
theorem Keeps.narrow {h' : Heap γ} {bs' : List Blk} (keeps : Keeps h h' bs)
    (sub : ∀ b ∈ bs', b.used = true → b ∈ bs) : Keeps h h' bs' :=
  ⟨keeps.start, keeps.limit, fun b member used => keeps.bytes b (sub b member used) used⟩

/-- What is kept of some used blocks is kept wherever the same addresses are in use. -/
theorem Keeps.transfer {h' : Heap γ} {bs' : List Blk} (keeps : Keeps h h' bs)
    (sub : ∀ p size, Occupied bs' p size → Occupied bs p size) : Keeps h h' bs' := by
  refine ⟨keeps.start, keeps.limit, fun b member used x inside => ?_⟩
  -- The block of the same extent among the kept ones has the same payload.
  obtain ⟨c, block, here, large, busy⟩ := sub b.addr b.size ⟨b, member, rfl, rfl, used⟩
  refine keeps.bytes c block busy x ?_
  unfold Payload at inside ⊢
  rwa [here, large]

/-- A call that keeps the limits keeps the area. -/
theorem Keeps.area {h' : Heap γ} (keeps : Keeps h h' bs) (area : Area h) : Area h' where
  limit := by rw [keeps.limit, keeps.start, area.limit]
  fits := by rw [keeps.limit]; exact area.fits

end MallocLab
