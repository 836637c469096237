import MallocLab.Skeleton.Policy

/-! What `mm_realloc` leaves in the block that it returns. -/

namespace MallocLab.Skeleton

variable {γ σ : Type} {P : Policy σ} {base : Nat} {R : Heap γ → σ → Prop} {adjust : Nat → Nat}
variable {findFit : Heap γ → Nat → Option (Heap γ × Nat)}
variable {place : Heap γ → Nat → Nat → Option (Heap γ × Nat)}
variable {extend : Heap γ → Nat → Option (Heap γ × Nat)} {free : Heap γ → Nat → Option (Heap γ)}
variable {h h₁ h' : Heap γ} {s s₁ : σ} {n p r size count : Nat}

/-- Two used blocks at different addresses share no byte. -/
theorem Parts.used_apart (parts : Parts P base R adjust findFit place extend free) (rep : R h s)
    {q k : Nat} (first : Occupied (P.blocks s) p size) (second : Occupied (P.blocks s) q k) (other : p ≠ q) :
    p + size ≤ q ∨ q + k ≤ p := by
  obtain ⟨_, _, _, _, tiles, _⟩ := parts.tiles rep
  obtain ⟨b, bBlock, rfl, rfl, _⟩ := first
  obtain ⟨c, cBlock, rfl, rfl, _⟩ := second
  rcases tiles.apart bBlock cBlock with rfl | apart
  · exact absurd rfl other
  · exact apart

/--
What a client finds after a reallocation from `p` to `r` that copied `count` bytes.

`h₁` is the machine when the new block had been served and nothing was copied yet.
-/
structure Copied (h h₁ h' : Heap γ) (p size r n count : Nat) : Prop where
  same : ∀ i < count, i + 8 < size → h'.mem (r + i) = h.mem (p + i)
  rest : ∀ i, count ≤ i → i < n → h'.mem (r + i) = h₁.mem (r + i)
  apart : r + n + 8 ≤ p ∨ p + size ≤ r

/-- The copied bytes arrive in the new block, which does not meet the old one. -/
theorem Parts.realloc_copies (parts : Parts P base R adjust findFit place extend free) (rep₁ : R h₁ s₁)
    (keeps₁ : Keeps h h₁ (P.blocks s)) (served : Served (P.blocks s) (P.blocks s₁) r n)
    (occupied : Occupied (P.blocks s) p size) (bounded : count ≤ n)
    (frees : Keeps { h₁ with mem := copyBytes h₁.mem r p count } h' (others (P.blocks s₁) p)) :
    Copied h h₁ h' p size r n count := by
  obtain ⟨fresh, taken, room, gained⟩ := served
  have old : Occupied (P.blocks s₁) p size := (gained p size).mpr (.inl occupied)
  have new : Occupied (P.blocks s₁) r taken := (gained r taken).mpr (.inr ⟨rfl, rfl⟩)
  have moved : r ≠ p := by
    rintro rfl
    exact fresh size occupied
  have apart := parts.used_apart rep₁ new old moved
  obtain ⟨c, block, rfl, rfl, used⟩ := new
  -- The freed block is another one, so the payload of the new block stays as the copy left it.
  have stays : ∀ i < n, h'.mem (c.addr + i) = copyBytes h₁.mem c.addr p count (c.addr + i) :=
    fun i below => frees.bytes c (mem_others.mpr ⟨block, moved⟩) used (c.addr + i) ⟨by omega, by omega⟩
  refine ⟨fun i below inside => ?_, fun i above below => ?_, by omega⟩
  · rw [stays i (by omega)]
    unfold copyBytes
    rw [if_pos (by omega), Nat.add_sub_cancel_left]
    -- Serving the new block left the payload of the old one alone.
    obtain ⟨b, member, rfl, rfl, busy⟩ := occupied
    exact keeps₁.bytes b member busy _ ⟨by omega, by omega⟩
  · rw [stays i below]
    exact copyBytes_other (by omega)

end MallocLab.Skeleton
