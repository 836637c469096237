import Mathlib.Data.List.Chain

/-! Address-ordered blocks that cover an interval without gaps. -/

namespace MallocLab

/-- One block of a heap: the address and length it covers, and its two flags. -/
structure Blk where
  addr : Nat
  size : Nat
  used : Bool
  tag : Bool := false
deriving DecidableEq, Repr

/-- The blocks cover the interval from `lo` to `hi` in order, each by a positive multiple of eight. -/
def Tiles : Nat → List Blk → Nat → Prop
  | lo, [], hi => lo = hi
  | lo, b :: bs, hi => b.addr = lo ∧ b.size % 8 = 0 ∧ 8 ≤ b.size ∧ Tiles (lo + b.size) bs hi

variable {lo mid hi : Nat} {b c : Blk} {bs pre post : List Blk}

/-- No blocks tile an empty range. -/
@[simp] theorem tiles_nil : Tiles lo [] hi ↔ lo = hi := Iff.rfl

/-- The first block starts the range, and the others tile the rest. -/
@[simp] theorem tiles_cons :
    Tiles lo (b :: bs) hi ↔
      b.addr = lo ∧ b.size % 8 = 0 ∧ 8 ≤ b.size ∧ Tiles (lo + b.size) bs hi := Iff.rfl

/-- Two adjoining tilings are one tiling, and a tiling may be cut between any two blocks. -/
theorem tiles_append : Tiles lo (pre ++ post) hi ↔ ∃ mid, Tiles lo pre mid ∧ Tiles mid post hi := by
  -- The cut moves along with the blocks before it.
  induction pre generalizing lo with
  | nil => simp
  | cons b pre ih => simp [ih, and_assoc]

/-- A tiling runs upwards. -/
theorem Tiles.le (tiles : Tiles lo bs hi) : lo ≤ hi := by
  induction bs generalizing lo with
  | nil => exact Nat.le_of_eq tiles
  | cons b bs ih =>
    have rest := ih tiles.2.2.2
    omega

/-- What every block of a tiling satisfies. -/
structure Within (lo hi : Nat) (b : Blk) : Prop where
  lower : lo ≤ b.addr
  upper : b.addr + b.size ≤ hi
  whole : b.size % 8 = 0
  least : 8 ≤ b.size
  aligned : b.addr % 8 = lo % 8

/-- Every block of a tiling lies inside the interval. -/
theorem Tiles.within (tiles : Tiles lo bs hi) (member : b ∈ bs) : Within lo hi b := by
  induction bs generalizing lo with
  | nil => simp at member
  | cons first bs ih =>
    obtain ⟨start, whole, least, rest⟩ := tiles
    -- A later block lies in the interval that the first one leaves.
    rcases List.mem_cons.mp member with rfl | member
    · exact ⟨by omega, by have := rest.le; omega, whole, least, by omega⟩
    · have inner := ih rest member
      exact ⟨by have := inner.lower; omega, inner.upper, inner.whole, inner.least,
        by have := inner.aligned; omega⟩

/-- Every block takes eight bytes at least. -/
theorem Tiles.count (tiles : Tiles lo bs hi) : lo + 8 * bs.length ≤ hi := by
  induction bs generalizing lo with
  | nil => exact tiles.le
  | cons b bs ih =>
    obtain ⟨rfl, _, least, rest⟩ := tiles
    have := ih rest
    rw [List.length_cons]
    omega

/-- A tiling ends at an address as aligned as its start. -/
theorem Tiles.aligned (tiles : Tiles lo bs hi) : hi % 8 = lo % 8 := by
  induction bs generalizing lo with
  | nil => rw [tiles_nil] at tiles; omega
  | cons b bs ih =>
    have rest := ih tiles.2.2.2
    have whole := tiles.2.1
    omega

/-- The end of a tiling is determined by its start and its blocks. -/
theorem Tiles.unique {stop : Nat} (first : Tiles lo bs stop) (second : Tiles lo bs hi) :
    stop = hi := by
  induction bs generalizing lo with
  | nil => exact (tiles_nil.mp first).symm.trans (tiles_nil.mp second)
  | cons b bs ih => exact ih first.2.2.2 second.2.2.2

/-- Cutting a tiling at one of its blocks. -/
theorem Tiles.cut (tiles : Tiles lo (pre ++ b :: post) hi) :
    Tiles lo pre b.addr ∧ Tiles (b.addr + b.size) post hi ∧ Within lo hi b := by
  have inside := tiles.within (b := b) (by simp)
  obtain ⟨mid, left, start, _, _, right⟩ := tiles_append.mp tiles
  exact ⟨start ▸ left, start ▸ right, inside⟩

/-- The blocks after the first one tile what it leaves. -/
theorem Tiles.tail (tiles : Tiles lo (b :: post) hi) : Tiles (b.addr + b.size) post hi :=
  tiles.1 ▸ tiles.2.2.2

/-- The blocks before a given block end by its address. -/
theorem Tiles.before (tiles : Tiles lo (pre ++ b :: post) hi) (member : c ∈ pre) :
    c.addr + c.size ≤ b.addr :=
  (tiles.cut.1.within member).upper

/-- The blocks after a given block start at its end or later. -/
theorem Tiles.after (tiles : Tiles lo (pre ++ b :: post) hi) (member : c ∈ post) :
    b.addr + b.size ≤ c.addr :=
  (tiles.cut.2.1.within member).lower

/-- Two blocks of a tiling are the same block or share no address. -/
theorem Tiles.apart (tiles : Tiles lo bs hi) (first : b ∈ bs) (second : c ∈ bs) :
    b = c ∨ b.addr + b.size ≤ c.addr ∨ c.addr + c.size ≤ b.addr := by
  -- The second block stands before the first one, is it, or stands behind it.
  obtain ⟨pre, post, rfl⟩ := List.append_of_mem first
  rcases List.mem_append.mp second with member | member
  · exact .inr (.inr (tiles.before member))
  · rcases List.mem_cons.mp member with rfl | member
    · exact .inl rfl
    · exact .inr (.inl (tiles.after member))

/-- The blocks of the first part of a tiling end before those of the second part start. -/
theorem Tiles.below (tiles : Tiles lo (pre ++ post) hi) (first : b ∈ pre) (second : c ∈ post) :
    b.addr + b.size ≤ c.addr := by
  obtain ⟨mid, left, right⟩ := tiles_append.mp tiles
  have upper := (left.within first).upper
  have lower := (right.within second).lower
  omega

/-- A block of a tiling is determined by its address. -/
theorem Tiles.addr_inj (tiles : Tiles lo bs hi) (first : b ∈ bs) (second : c ∈ bs)
    (same : b.addr = c.addr) : b = c := by
  have firstLeast := (tiles.within first).least
  have secondLeast := (tiles.within second).least
  -- Two different blocks share no address, but both of them are not empty.
  rcases tiles.apart first second with equal | apart
  · exact equal
  · omega

/-- A region of a tiling fixes what lies before it and what lies after it. -/
theorem Tiles.middle {start stop : Nat} {mid' : List Blk} (tiles : Tiles lo (pre ++ mid' ++ post) hi)
    (covers : Tiles start mid' stop) (nonempty : mid' ≠ []) :
    Tiles lo pre start ∧ Tiles stop post hi := by
  obtain ⟨stop', whole, right⟩ := tiles_append.mp tiles
  obtain ⟨start', left, covers'⟩ := tiles_append.mp whole
  obtain ⟨first, rest, rfl⟩ := List.exists_cons_of_ne_nil nonempty
  -- Both tilings of the region start at its first block, so they end together.
  obtain rfl : start = start' := covers.1.symm.trans covers'.1
  obtain rfl := covers.unique covers'
  exact ⟨left, right⟩

/-- The block at an address, with the blocks before and after it. -/
def locate : List Blk → Nat → Option (List Blk × Blk × List Blk)
  | [], _ => none
  | b :: bs, p =>
    if b.addr = p then some ([], b, bs)
    else (locate bs p).map fun (pre, c, post) => (b :: pre, c, post)

/-- A located block splits the list at the address asked for. -/
theorem locate_some {p : Nat} (found : locate bs p = some (pre, b, post)) :
    bs = pre ++ b :: post ∧ b.addr = p := by
  induction bs generalizing pre with
  | nil => simp [locate] at found
  | cons first bs ih =>
    unfold locate at found
    split at found
    · rename_i here
      simp only [Option.some.injEq, Prod.mk.injEq] at found
      obtain ⟨rfl, rfl, rfl⟩ := found
      exact ⟨rfl, here⟩
    · simp only [Option.map_eq_some_iff, Prod.mk.injEq, Prod.exists] at found
      obtain ⟨pre, c, post, found, rfl, rfl, rfl⟩ := found
      obtain ⟨rfl, here⟩ := ih found
      exact ⟨rfl, here⟩

/-- A block of a tiling is located by its address. -/
theorem Tiles.locate (tiles : Tiles lo (pre ++ b :: post) hi) :
    MallocLab.locate (pre ++ b :: post) b.addr = some (pre, b, post) := by
  induction pre generalizing lo with
  | nil => simp [MallocLab.locate]
  | cons first pre ih =>
    -- Every earlier block starts at another address, so the search passes it.
    have earlier := tiles.before (c := first) (by simp)
    have positive := (tiles.within (b := first) (by simp)).least
    have rest := ih (tiles_cons.mp tiles).2.2.2
    simp [MallocLab.locate, rest, show first.addr ≠ b.addr by omega]

/-- The same for a list that is known to be split there. -/
theorem Tiles.locate_split (tiles : Tiles lo bs hi) (split : bs = pre ++ b :: post) :
    MallocLab.locate bs b.addr = some (pre, b, post) := by
  subst split
  exact tiles.locate

/-- Whether a block is in use is no matter of where the blocks lie. -/
theorem Tiles.mark (tiles : Tiles lo (pre ++ b :: post) hi) (used : Bool) :
    Tiles lo (pre ++ { b with used := used } :: post) hi := by
  simp only [tiles_append, tiles_cons] at tiles ⊢
  exact tiles

/-- A used block of this size lies at this address. -/
def Occupied (bs : List Blk) (p size : Nat) : Prop :=
  ∃ b ∈ bs, b.addr = p ∧ b.size = size ∧ b.used = true

/-- A used block is in one of the two parts. -/
theorem occupied_append {p size : Nat} :
    Occupied (pre ++ post) p size ↔ Occupied pre p size ∨ Occupied post p size := by
  simp [Occupied, or_and_right, exists_or]

/-- It is the first block or one of the others. -/
theorem occupied_cons {p size : Nat} :
    Occupied (b :: bs) p size ↔
      (b.addr = p ∧ b.size = size ∧ b.used = true) ∨ Occupied bs p size := by
  simp [Occupied]

/-- A free block occupies nothing. -/
theorem occupied_free {p size : Nat} (free : b.used = false) :
    Occupied (pre ++ b :: post) p size ↔ Occupied (pre ++ post) p size := by
  simp [occupied_append, occupied_cons, free]

/-- A member of a list is the one in the middle or lies around it. -/
theorem mem_middle {α : Type} {x y : α} {front back : List α} :
    x ∈ front ++ y :: back ↔ x = y ∨ x ∈ front ++ back := List.perm_middle.mem_iff.trans List.mem_cons

/-- What lies on either side of a member lies around it. -/
theorem mem_around {α : Type} {x y : α} {front back : List α} (member : x ∈ front ++ back) :
    x ∈ front ++ y :: back := mem_middle.mpr (.inr member)

/-- A used block is not the free one. -/
theorem mem_others_free (free : b.used = false) (member : c ∈ pre ++ b :: post) (used : c.used = true) :
    c ∈ pre ++ post := by
  rcases mem_middle.mp member with rfl | around
  · rw [free] at used
    exact nomatch used
  · exact around

/-- The blocks at other addresses. -/
def others (bs : List Blk) (p : Nat) : List Blk := bs.filter fun b => b.addr != p

/-- The others are the blocks at other addresses. -/
theorem mem_others {p : Nat} : b ∈ others bs p ↔ b ∈ bs ∧ b.addr ≠ p := by simp [others]

/-- The used ones among them are those at other addresses. -/
theorem occupied_others {p q size : Nat} :
    Occupied (others bs p) q size ↔ Occupied bs q size ∧ q ≠ p := by
  constructor
  · rintro ⟨b, member, rfl, large, used⟩
    obtain ⟨block, other⟩ := mem_others.mp member
    exact ⟨⟨b, block, rfl, large, used⟩, other⟩
  · rintro ⟨⟨b, block, rfl, large, used⟩, other⟩
    exact ⟨b, mem_others.mpr ⟨block, other⟩, rfl, large, used⟩

end MallocLab
