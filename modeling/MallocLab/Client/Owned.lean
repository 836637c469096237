import MallocLab.Client.Run
import MallocLab.Tiling.Arena

/-! How the live pointers of the client correspond to the used blocks of the heap. -/

namespace MallocLab

/-- The live pointers are the used blocks, and every request fits between the tags of its block. -/
structure Owned (live : List (Nat × Nat)) (bs : List Blk) : Prop where
  block : ∀ p n, (p, n) ∈ live → ∃ size, Occupied bs p size ∧ n + 8 ≤ size
  owner : ∀ p size, Occupied bs p size → ∃ n, (p, n) ∈ live
  nodup : (live.map Prod.fst).Nodup

/-- One more block is in use, at `p` and with room for `n` bytes. -/
structure Served (bs bs' : List Blk) (p n : Nat) : Prop where
  fresh : ∀ size, ¬ Occupied bs p size
  gained : ∃ taken, n + 8 ≤ taken ∧
    ∀ q size, Occupied bs' q size ↔ Occupied bs q size ∨ q = p ∧ size = taken

/-- The block at `p` is no longer in use. -/
def Released (bs bs' : List Blk) (p : Nat) : Prop :=
  ∀ q size, Occupied bs' q size ↔ Occupied bs q size ∧ q ≠ p

variable {live : List (Nat × Nat)} {bs bs' : List Blk} {p n : Nat}

/-- Everything but the block at `p` stays live. -/
theorem mem_dropLive {entry : Nat × Nat} :
    entry ∈ dropLive live p ↔ entry ∈ live ∧ entry.1 ≠ p := by
  simp [dropLive]

/-- A heap without used blocks belongs to a client without live pointers. -/
theorem Owned.start (empty : ∀ p size, ¬ Occupied bs p size) : Owned [] bs where
  block p n member := by simp at member
  owner p size occupied := absurd occupied (empty p size)
  nodup := List.nodup_nil

/-- Serving a request makes one more pointer live. -/
theorem Owned.malloc (owned : Owned live bs) (served : Served bs bs' p n) :
    Owned ((p, n) :: live) bs' := by
  obtain ⟨fresh, taken, room, gained⟩ := served
  refine ⟨?_, ?_, ?_⟩
  · intro q k member
    -- The new pointer owns the new block, and every other pointer keeps its own.
    rcases List.mem_cons.mp member with new | member
    · obtain ⟨rfl, rfl⟩ := Prod.mk.inj new
      exact ⟨taken, (gained q taken).mpr (.inr ⟨rfl, rfl⟩), room⟩
    · obtain ⟨size, occupied, fits⟩ := owned.block q k member
      exact ⟨size, (gained q size).mpr (.inl occupied), fits⟩
  · intro q size occupied
    -- No third block has come into use.
    rcases (gained q size).mp occupied with old | ⟨rfl, rfl⟩
    · obtain ⟨k, member⟩ := owned.owner q size old
      exact ⟨k, List.mem_cons_of_mem _ member⟩
    · exact ⟨n, List.mem_cons_self⟩
  · -- The new pointer was not live, because its address was not occupied.
    refine List.nodup_cons.mpr ⟨fun member => ?_, owned.nodup⟩
    obtain ⟨⟨q, k⟩, old, rfl⟩ := List.mem_map.mp member
    obtain ⟨size, occupied, _⟩ := owned.block q k old
    exact fresh size occupied

/-- Releasing a block ends the life of its pointer. -/
theorem Owned.free (owned : Owned live bs) (released : Released bs bs' p) :
    Owned (dropLive live p) bs' := by
  refine ⟨?_, ?_, ?_⟩
  · intro q k member
    obtain ⟨member, other⟩ := mem_dropLive.mp member
    obtain ⟨size, occupied, fits⟩ := owned.block q k member
    exact ⟨size, (released q size).mpr ⟨occupied, other⟩, fits⟩
  · intro q size occupied
    obtain ⟨old, other⟩ := (released q size).mp occupied
    obtain ⟨k, member⟩ := owned.owner q size old
    exact ⟨k, mem_dropLive.mpr ⟨member, other⟩⟩
  · exact owned.nodup.sublist (List.filter_sublist.map Prod.fst)

/-- A live pointer is not served again. -/
theorem Owned.ne (owned : Owned live bs) (served : Served bs bs' p n) {q k : Nat}
    (member : (q, k) ∈ live) : p ≠ q := by
  rintro rfl
  obtain ⟨size, occupied, _⟩ := owned.block p k member
  exact served.fresh size occupied

/-- Without the blocks at `p` only `p` is released. -/
theorem released_others : Released bs (others bs p) p := fun _ _ => occupied_others

/-- Serving a request elsewhere and then releasing the old block moves the pointer. -/
theorem Served.release {bs'' : List Blk} {q size : Nat} (served : Served bs bs' p n)
    (old : Occupied bs q size) (released : Released bs' bs'' q) : Served (others bs q) bs'' p n := by
  obtain ⟨fresh, taken, room, gained⟩ := served
  have other : p ≠ q := by rintro rfl; exact fresh size old
  refine ⟨fun k occupied => fresh k (occupied_others.mp occupied).1, taken, room, fun r k => ?_⟩
  -- The released block was used before, so it is not the one that was gained.
  rw [released, gained, occupied_others]
  grind

/-- Replacing the block of a live pointer. -/
theorem Owned.realloc {q : Nat} (owned : Owned live bs) (served : Served (others bs q) bs' p n) :
    Owned ((p, n) :: dropLive live q) bs' :=
  (owned.free released_others).malloc served

/-- Serving, writing into the new block and releasing the old one keep all other blocks. -/
theorem Served.keeps_others {γ : Type} {h h₁ h₂ h₃ : Heap γ} {q : Nat} (served : Served bs bs' p n)
    (first : Keeps h h₁ bs) (second : Keeps h₁ h₂ (others bs' p)) (third : Keeps h₂ h₃ (others bs' q)) :
    Keeps h h₃ (others bs q) := by
  obtain ⟨fresh, taken, room, gained⟩ := served
  -- A block that is used before and is not the old one is neither the new one nor released.
  have still : ∀ r k, Occupied (others bs q) r k → Occupied bs' r k ∧ r ≠ p ∧ r ≠ q := by
    intro r k used
    obtain ⟨before, other⟩ := occupied_others.mp used
    exact ⟨(gained r k).mpr (.inl before), fun same => fresh k (same ▸ before), other⟩
  -- Each of the three steps keeps it, for one of these reasons.
  refine ((first.transfer fun r k used => (occupied_others.mp used).1).trans
    (second.transfer fun r k used => ?_)).trans (third.transfer fun r k used => ?_)
  · exact occupied_others.mpr ⟨(still r k used).1, (still r k used).2.1⟩
  · exact occupied_others.mpr ⟨(still r k used).1, (still r k used).2.2⟩

/-- Room for a request is room for every smaller one. -/
theorem Served.weaken {k : Nat} (served : Served bs bs' p n) (le : k ≤ n) : Served bs bs' p k := by
  obtain ⟨fresh, taken, room, gained⟩ := served
  exact ⟨fresh, taken, by omega, gained⟩

/-- Only the used blocks before a request matter to what it gained. -/
theorem Served.congr {bs₀ : List Blk} (served : Served bs bs' p n)
    (same : ∀ q size, Occupied bs q size ↔ Occupied bs₀ q size) : Served bs₀ bs' p n := by
  obtain ⟨fresh, taken, room, gained⟩ := served
  exact ⟨fun size occupied => fresh size ((same p size).mpr occupied), taken, room,
    fun q size => (gained q size).trans (by rw [same])⟩

/-- Only who occupies which block matters to the client. -/
theorem Owned.congr (owned : Owned live bs)
    (same : ∀ q size, Occupied bs' q size ↔ Occupied bs q size) : Owned live bs' where
  block q k member := by
    obtain ⟨size, occupied, room⟩ := owned.block q k member
    exact ⟨size, (same q size).mpr occupied, room⟩
  owner q size occupied := owned.owner q size ((same q size).mp occupied)
  nodup := owned.nodup

section Contract

variable {γ : Type} {w next : World γ} {lo hi : Nat}

/-- The payload of a live pointer lies in a used block. -/
theorem Owned.payload (owned : Owned live bs) (member : (p, n) ∈ live) :
    ∃ b ∈ bs, b.used = true ∧ b.addr = p ∧ ∀ x, p ≤ x → x < p + n → Payload b x := by
  obtain ⟨size, ⟨b, block, rfl, rfl, used⟩, room⟩ := owned.block p n member
  exact ⟨b, block, used, rfl, fun x lower upper => ⟨lower, by omega⟩⟩

/-- The requests of two live pointers share no byte. -/
theorem Owned.disjoint (owned : Owned live bs) (tiles : Tiles lo bs hi) {q k : Nat}
    (first : (p, n) ∈ live) (second : (q, k) ∈ live) (other : p ≠ q) : p + n ≤ q ∨ q + k ≤ p := by
  obtain ⟨size, ⟨b, bBlock, rfl, rfl, _⟩, bRoom⟩ := owned.block p n first
  obtain ⟨size, ⟨c, cBlock, rfl, rfl, _⟩, cRoom⟩ := owned.block q k second
  -- Different pointers own different blocks, and blocks of a tiling share no address.
  rcases tiles.apart bBlock cBlock with rfl | apart
  · exact absurd rfl other
  · omega

/-- The request of a live pointer is aligned and lies inside the heap. -/
theorem Owned.inside (owned : Owned live bs) (tiles : Tiles lo bs hi) (aligned : lo % 8 = 0)
    (member : (p, n) ∈ live) : p % 8 = 0 ∧ lo ≤ p ∧ p + n + 8 ≤ hi := by
  obtain ⟨size, ⟨b, block, rfl, rfl, _⟩, room⟩ := owned.block p n member
  have inside := tiles.within block
  have upper := inside.upper
  have same := inside.aligned
  exact ⟨by omega, inside.lower, by omega⟩

/-- What the allocator owes its client follows from who owns which block before and after. -/
theorem Owned.upholds {c : Call} {r : Nat} (owned : Owned w.live bs) (owned' : Owned next.live bs')
    (tiles : Tiles lo bs' next.heap.memBrk) (aligned : lo % 8 = 0)
    (low : next.heap.memStartBrk ≤ lo) (high : next.heap.memBrk < 2 ^ 32)
    (gained : ∀ n, c.request = some n → r ≠ null → (r, n) ∈ next.live)
    (kept : ∀ other ∈ w.others c, other ∈ next.live)
    (distinct : ∀ n, c.request = some n → r ≠ null → ∀ other ∈ w.others c, r ≠ other.1)
    (bytes : (∀ addr byte, c ≠ .store addr byte) → ∀ other ∈ w.others c, ∀ b ∈ bs, b.used = true →
      b.addr = other.1 → ∀ x, Payload b x → next.heap.mem x = w.heap.mem x) :
    Upholds w c next r where
  aligned n asks real := (owned'.inside tiles aligned (gained n asks real)).1
  inside n asks real := by
    -- The request ends below the footer of its block, so below the last byte of the heap.
    obtain ⟨_, lower, upper⟩ := owned'.inside tiles aligned (gained n asks real)
    unfold memHeapLo memHeapHi
    rw [sub32_eq (by omega) high]
    omega
  disjoint n asks real other member :=
    owned'.disjoint tiles (gained n asks real) (kept other member) (distinct n asks real other member)
  preserved calls other member x lower upper := by
    -- Whatever is live beside the argument was live before the call.
    have live : (other.1, other.2) ∈ w.live := by
      cases c with
      | free ptr => exact (mem_dropLive.mp member).1
      | realloc ptr size => exact (mem_dropLive.mp member).1
      | malloc size => exact member
      | store addr byte => exact absurd rfl (calls addr byte)
    obtain ⟨b, block, used, here, inside⟩ := owned.payload live
    exact bytes calls other member b block used here x (inside x lower upper)

end Contract

end MallocLab
