import MallocLab.Tiling.Join

/-! Blocks without free neighbours are determined by the interval they cover and the used ones among them. -/

namespace MallocLab

variable {lo hi mid : Nat} {b c : Blk} {bs bs' pre post : List Blk}

/-- No used block starts inside a free one. -/
theorem Tiles.not_occupied {p size : Nat} (tiles : Tiles lo (pre ++ b :: post) hi) (free : b.used = false)
    (lower : b.addr ≤ p) (upper : p < b.addr + b.size) : ¬ Occupied (pre ++ b :: post) p size := by
  rintro ⟨c, member, rfl, _, used⟩
  have least := (tiles.within member).least
  -- The used block would be the free one, or would lie beside it.
  rcases tiles.apart (b := c) (c := b) member (by simp) with rfl | apart
  · simp [free] at used
  · omega

/-- A tiling starts with a used block exactly when its start is occupied. -/
theorem Tiles.head_used (tiles : Tiles lo (b :: bs) hi) {size : Nat} :
    Occupied (b :: bs) lo size ↔ b.size = size ∧ b.used = true := by
  have least := (tiles.within (b := b) (by simp)).least
  constructor
  · rintro ⟨c, member, here, rfl, used⟩
    -- Every other block starts further up.
    rcases List.mem_cons.mp member with rfl | member
    · exact ⟨rfl, used⟩
    · have := (tiles.tail.within member).lower
      have := tiles.1
      omega
  · rintro ⟨rfl, used⟩
    exact ⟨b, by simp, tiles.1, rfl, used⟩

/-- The first block of a tiling does not matter to what is occupied behind it. -/
theorem Tiles.tail_occupied (tiles : Tiles lo (b :: bs) hi) {p size : Nat} :
    Occupied bs p size ↔ Occupied (b :: bs) p size ∧ lo + b.size ≤ p := by
  have least := (tiles.within (b := b) (by simp)).least
  have start := tiles.1
  rw [occupied_cons]
  constructor
  · rintro ⟨c, member, rfl, rest⟩
    have := (tiles.tail.within member).lower
    exact ⟨.inr ⟨c, member, rfl, rest⟩, by omega⟩
  · -- The first block itself starts too low to be among those behind it.
    rintro ⟨⟨rfl, _⟩ | behind, below⟩
    · omega
    · exact behind

/-- A free first block reaches no further than that of another tiling with the same used blocks. -/
theorem Separated.head_size_le (first : Tiles lo (b :: bs) hi) (second : Tiles lo (c :: bs') hi)
    (separated : Separated (c :: bs')) (bFree : b.used = false) (cFree : c.used = false)
    (same : ∀ p size, Occupied (c :: bs') p size → Occupied (b :: bs) p size) : b.size ≤ c.size := by
  by_contra longer
  have bStart := first.1
  have reach := first.tail.le
  have least := (second.within (b := c) (by simp)).least
  have rest := second.tail
  -- Either nothing follows the shorter block, or a used block does, inside the longer one.
  cases bs' with
  -- Then the shorter block reaches the end of the interval, and the longer one goes past it.
  | nil =>
    have := tiles_nil.mp rest
    have := second.1
    omega
  | cons d bs' =>
    -- Free blocks are not neighbours, so the next one is in use; it starts inside the longer block.
    have used : d.used = true := by
      have next := (List.isChain_cons.mp separated).1 d rfl
      simpa [cFree] using next
    have here := rest.1
    have := second.1
    have inside : Occupied ([] ++ b :: bs) d.addr d.size := same _ _ ⟨d, by simp, rfl, rfl, used⟩
    exact Tiles.not_occupied (show Tiles lo ([] ++ b :: bs) hi from first) bFree (by omega) (by omega) inside

/-- Two separated tilings of an interval with the same used blocks are equal. -/
theorem Separated.determined (first : Tiles lo bs hi) (second : Tiles lo bs' hi) (separated : Separated bs)
    (separated' : Separated bs') (plain : ∀ b ∈ bs, b.tag = false) (plain' : ∀ b ∈ bs', b.tag = false)
    (same : ∀ p size, Occupied bs p size ↔ Occupied bs' p size) : bs = bs' := by
  -- The induction is on the blocks of the first tiling; the heads agree, and then the tails do.
  induction bs generalizing lo bs' with
  | nil =>
    obtain rfl := tiles_nil.mp first
    cases bs' with
    | nil => rfl
    | cons c bs' =>
      -- Two free heads reach equally far, each because the other goes no further.
      have least := second.2.2.1
      have := second.2.2.2.le
      omega
  | cons b bs ih =>
    cases bs' with
    | nil =>
      obtain rfl := tiles_nil.mp second
      have least := first.2.2.1
      have := first.2.2.2.le
      omega
    | cons c bs' =>
      -- The first blocks are used together or free together, and have the same size.
      have heads : b.size = c.size ∧ b.used = c.used := by
        cases bUsed : b.used with
        | true =>
          -- A used head is occupied at the start of both tilings.
          obtain ⟨size, used⟩ := second.head_used.mp ((same lo b.size).mp (first.head_used.mpr ⟨rfl, bUsed⟩))
          exact ⟨size.symm, used.symm⟩
        | false =>
          cases cUsed : c.used with
          | true =>
            obtain ⟨_, used⟩ := first.head_used.mp ((same lo c.size).mpr (second.head_used.mpr ⟨rfl, cUsed⟩))
            simp [bUsed] at used
          | false =>
            have le := separated'.head_size_le first second bUsed cUsed fun p size => (same p size).mpr
            have ge := separated.head_size_le second first cUsed bUsed fun p size => (same p size).mp
            exact ⟨by omega, rfl⟩
      have equal : b = c := by
        have bPlain := plain b (by simp)
        have cPlain := plain' c (by simp)
        have bStart := first.1
        have cStart := second.1
        cases b
        cases c
        simp_all
      subst equal
      -- What is occupied behind equal heads is the same again.
      have tails := ih first.2.2.2 second.2.2.2 (List.isChain_cons.mp separated).2
        (List.isChain_cons.mp separated').2 (fun d member => plain d (by simp [member]))
        (fun d member => plain' d (by simp [member]))
        fun p size => by rw [first.tail_occupied, second.tail_occupied, same]
      rw [tails]

/-- A separated tiling without used blocks is one free block, when it covers anything at all. -/
theorem Separated.alone (tiles : Tiles lo bs hi) (separated : Separated bs) (plain : ∀ b ∈ bs, b.tag = false)
    (rises : lo < hi) (idle : ∀ p size, ¬ Occupied bs p size) :
    bs = [{ addr := lo, size := hi - lo, used := false }] := by
  have free : ∀ b ∈ bs, b.used = false := by
    intro b member
    cases used : b.used with
    | false => rfl
    | true => exact absurd ⟨b, member, rfl, rfl, used⟩ (idle b.addr b.size)
  -- A second block would have to be in use.
  match bs, tiles, separated with
  | [], tiles, _ =>
    have := tiles_nil.mp tiles
    omega
  | [b], tiles, _ =>
    have bFree := free b (by simp)
    have bPlain := plain b (by simp)
    obtain ⟨rfl, _, _, rfl⟩ := tiles
    cases b
    simp_all
  | b :: c :: rest, _, separated =>
    have one := (List.isChain_cons_cons.mp separated).1
    simp [free b (by simp), free c (by simp)] at one

end MallocLab
