import MallocLab.Threads.Layout

/-! Rewriting the tags of blocks that are on no list. -/

namespace MallocLab

variable {L : Layout} {m : Mem} {base brk : Nat} {b c d : Blk} {bs pre mid post : List Blk}
variable {lists : Nat → List Nat} {mark : Bool} {size footer footer' : Nat}

namespace Threaded

/-- One block takes the place of a region of unlisted blocks. -/
theorem rebrand (threaded : Threaded L m base brk bs lists mark) (split : bs = pre ++ mid ++ post)
    (nonempty : mid ≠ []) (covers : Tiles b.addr mid (b.addr + b.size))
    (unlisted : ∀ k, ∀ x ∈ mid, x.addr ∉ lists k) (foot : Footer L.loose b footer) :
    Threaded L (brand m b.addr b.size b.word footer) base brk (pre ++ b :: post) lists mark ∧
      ∀ x ∈ pre ++ post, ∀ y, Payload x y → brand m b.addr b.size b.word footer y = m y := by
  obtain ⟨lo, low, _, tiles⟩ := threaded.tiles
  have high := threaded.arena.high
  have room := L.room
  rw [split] at tiles
  obtain ⟨left, right⟩ := tiles.middle covers nonempty
  -- The region starts at its first block, which is large enough for a block by itself.
  obtain ⟨first, rest, rfl⟩ := List.exists_cons_of_ne_nil nonempty
  have large := threaded.least first (by simp [split])
  have rise := left.le
  have top := right.le
  have span := covers.2.2.2.le
  have whole := covers.aligned
  have recovers : Tiles b.addr [b] (b.addr + b.size) := ⟨rfl, by omega, by omega, rfl⟩
  -- The block takes the place of the region, with its new tags.
  obtain ⟨threaded', kept⟩ := threaded.retag split covers nonempty recovers
    (by rw [List.forall_mem_singleton]; omega) unlisted
    (by
      rw [List.forall_mem_singleton]
      exact brand_tagged foot (by omega) (by omega) (by omega) (by omega))
    (fun x outside => brand_other (by omega) (by omega) (by omega))
  exact ⟨by simpa using threaded', kept⟩

/-- Two adjoining blocks take the place of one unlisted block. -/
theorem divide (threaded : Threaded L m base brk bs lists mark) (split : bs = pre ++ b :: post)
    (start : c.addr = b.addr) (adjoin : d.addr = c.addr + c.size) (sum : c.size + d.size = b.size)
    (whole : c.size % 8 = 0) (least : L.least ≤ c.size) (least' : L.least ≤ d.size)
    (unlisted : ∀ k, b.addr ∉ lists k) (foot : Footer L.loose c footer)
    (foot' : Footer L.loose d footer') :
    Threaded L (brand (brand m c.addr c.size c.word footer) d.addr d.size d.word footer') base brk
        (pre ++ c :: d :: post) lists mark ∧
      ∀ x ∈ pre ++ post, ∀ y, Payload x y →
        brand (brand m c.addr c.size c.word footer) d.addr d.size d.word footer' y = m y := by
  obtain ⟨lo, low, _, tiles⟩ := threaded.tiles
  have high := threaded.arena.high
  have room := L.room
  rw [split] at tiles
  have inside := tiles.cut.2.2
  have bWhole := inside.whole
  have lower := inside.lower
  have upper := inside.upper
  have covers : Tiles b.addr [b] (b.addr + b.size) := ⟨rfl, inside.whole, inside.least, rfl⟩
  have recovers : Tiles b.addr [c, d] (b.addr + b.size) :=
    ⟨start, whole, by omega, by omega, by omega, by omega, by rw [tiles_nil]; omega⟩
  -- The second tags do not touch the first ones.
  have first : Tagged L.loose (brand m c.addr c.size c.word footer) c :=
    brand_tagged foot (by omega) whole (by omega) (by omega)
  obtain ⟨threaded', kept⟩ := threaded.retag (show bs = pre ++ [b] ++ post by simpa using split) covers
    (by simp) recovers (by simp [least, least'])
    (by
      intro k x member
      obtain rfl := List.mem_singleton.mp member
      exact unlisted k)
    (show ∀ e ∈ [c, d],
        Tagged L.loose (brand (brand m c.addr c.size c.word footer) d.addr d.size d.word footer') e by
      simp only [List.forall_mem_cons, List.not_mem_nil, false_imp_iff, implies_true, and_true]
      refine ⟨first.congr (by omega) (by omega) ?_ ?_,
        brand_tagged foot' (by omega) (by omega) (by omega) (by omega)⟩
      · exact fun x lower upper => brand_other (by omega) (by omega) (by omega)
      · exact fun x lower upper => brand_other (by omega) (by omega) (by omega))
    -- The bytes of the payload are left out by both.
    (fun x outside => by
      rw [brand_other (by omega) (by omega) (by omega), brand_other (by omega) (by omega) (by omega)])
  exact ⟨by simpa using threaded', kept⟩

end Threaded

/-- The memory after `extend_heap` has written the tags of the new space and a new epilogue. -/
def grown (m : Mem) (brk size : Nat) : Mem :=
  storeWord (stamp m brk size (size + 0)) (brk + size - 4) 1

/-- The new space is one more free block, closed by a new epilogue. -/
theorem Threaded.grow (threaded : Threaded L m base brk bs lists mark) (whole : size % 8 = 0)
    (least : L.least ≤ size) (fits : brk + size < 2 ^ 32) :
    Threaded L (grown m brk size) base (brk + size)
        (bs ++ [{ addr := brk, size := size, used := false }]) lists false ∧
      ∀ b ∈ bs, ∀ x, Payload b x → grown m brk size x = m x := by
  have room := L.room
  obtain ⟨lo, low, _, tiles⟩ := threaded.tiles
  have rise := tiles.le
  -- The new block is behind the old break, where nothing has been.
  have tagged : Tagged L.loose (stamp m brk size (size + 0))
      { addr := brk, size := size, used := false } :=
    brand_tagged (b := { addr := brk, size := size, used := false }) (.inl rfl)
      (show 4 ≤ brk by omega) whole (show 8 ≤ size by omega) (show brk + size < 2 ^ 32 by omega)
  let fresh : Blk := { addr := brk, size := size, used := false }
  refine threaded.extend (show fresh.addr = brk from rfl) whole least fits (
    tagged.congr (show 8 ≤ size by omega) (show 4 ≤ brk by omega) ?_ ?_)
    (loadWord_storeWord (by decide)) ?_
  · -- The stores of the epilogue are behind its tags.
    intro x lower upper
    simp only at lower upper
    exact storeWord_other (by omega)
  · intro x lower upper
    simp only at lower upper
    exact storeWord_other (by omega)
  · -- The bytes below the old epilogue stay.
    intro x lower
    unfold grown
    rw [storeWord_other (by omega)]
    exact brand_other (by omega) (by omega) (by omega)

end MallocLab
