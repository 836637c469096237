import MallocLab.Client.Owned

/-! How many bytes the client of a heap has, beside the bytes of its blocks. -/

namespace MallocLab

variable {live : List (Nat × Nat)} {bs : List Blk} {b : Blk} {lo hi p n : Nat}

/-- The blocks of a tiling make up its whole length. -/
theorem Tiles.length_eq (tiles : Tiles lo bs hi) : lo + (bs.map Blk.size).sum = hi := by
  induction bs generalizing lo with
  | nil => simpa using tiles
  | cons b bs ih =>
    -- The rest of the blocks make up what the first one leaves.
    have rest := ih tiles.2.2.2
    rw [List.map_cons, List.sum_cons]
    omega

/-- An entry counts once beside the entries at other addresses. -/
theorem sum_dropLive (weight : Nat × Nat → Nat) (nodup : (live.map Prod.fst).Nodup) (member : (p, n) ∈ live) :
    (live.map weight).sum = weight (p, n) + ((dropLive live p).map weight).sum := by
  induction live with
  | nil => exact absurd member List.not_mem_nil
  | cons entry live ih =>
    obtain ⟨fresh, nodup⟩ := List.nodup_cons.mp nodup
    by_cases here : entry.1 = p
    · -- No later entry has this address, so the others stay as they are.
      have others : dropLive live p = live := by
        refine List.filter_eq_self.mpr fun other inside => ?_
        simp only [bne_iff_ne, ne_eq]
        rintro rfl
        exact fresh (here ▸ List.mem_map_of_mem inside)
      -- So the entry is the one that goes.
      have same : entry = (p, n) := by
        rcases List.mem_cons.mp member with same | later
        · exact same.symm
        · exact absurd (here ▸ List.mem_map_of_mem (f := Prod.fst) later) fresh
      have dropped : dropLive (entry :: live) p = dropLive live p := List.filter_cons_of_neg (by simp [here])
      rw [dropped, others, same, List.map_cons, List.sum_cons]
    · -- The entry is a later one.
      have later : (p, n) ∈ live := (List.mem_cons.mp member).resolve_left fun same => here (same ▸ rfl)
      have kept : dropLive (entry :: live) p = entry :: dropLive live p := List.filter_cons_of_pos (by simp [here])
      have rest := ih nodup later
      rw [kept, List.map_cons, List.map_cons, List.sum_cons, List.sum_cons, rest]
      omega

/-- Without its first block, a tiling is owned by the pointers to the other ones. -/
theorem Owned.rest (owned : Owned live (b :: bs)) (tiles : Tiles lo (b :: bs) hi) :
    Owned (dropLive live b.addr) bs := by
  refine owned.free fun q size => ?_
  rw [occupied_cons]
  constructor
  · -- The later blocks lie behind the first one.
    intro occupied
    have ⟨c, member, here, _⟩ := occupied
    have whole : Tiles lo ([] ++ b :: bs) hi := tiles
    have behind := Tiles.after whole member
    have least := (tiles.within List.mem_cons_self).least
    exact ⟨.inr occupied, by omega⟩
  · -- What is behind the block is not at its address.
    rintro ⟨⟨here, _⟩ | later, other⟩
    · exact absurd here.symm other
    · exact later

/-- The requests of the live pointers fit between the two ends of the heap, with eight bytes of tags for each. -/
theorem Owned.bytes_le (owned : Owned live bs) (tiles : Tiles lo bs hi) :
    lo + (live.map fun entry => entry.2 + 8).sum ≤ hi := by
  induction bs generalizing live lo with
  | nil =>
    -- Without blocks nothing is live.
    cases live with
    | nil => simpa using tiles.le
    | cons entry live =>
      obtain ⟨_, ⟨b, member, _⟩, _⟩ := owned.block entry.1 entry.2 List.mem_cons_self
      exact absurd member List.not_mem_nil
  | cons b bs ih =>
    have rest := ih (owned.rest tiles) tiles.2.2.2
    by_cases busy : ∃ n, (b.addr, n) ∈ live
    · -- The first block is that of one live pointer, whose request fits into it.
      obtain ⟨n, member⟩ := busy
      obtain ⟨size, ⟨c, block, here, bytes, _⟩, room⟩ := owned.block b.addr n member
      obtain rfl := tiles.addr_inj block List.mem_cons_self here
      have counted := sum_dropLive (fun entry => entry.2 + 8) owned.nodup member
      simp only at counted
      omega
    · -- Otherwise no live pointer is lost with it.
      have same : dropLive live b.addr = live := by
        refine List.filter_eq_self.mpr fun entry member => ?_
        simp only [bne_iff_ne, ne_eq]
        rintro here
        exact busy ⟨entry.2, by rw [← here]; exact member⟩
      rw [same] at rest
      omega

end MallocLab
