import MallocLab.Explicit.Refusals
import MallocLab.Skeleton.Contents

/-! What `mm_realloc` does to the contents of the blocks. -/

namespace MallocLab.Explicit

variable {base n p k r : Nat} {m : Mem} {statics : Statics} {h : State} {w next : World Statics}
variable {s : Shelves} {cs : List Call} {rs : List Nat}

/--
What a client and a reader of the heap find after `mm_realloc` has moved `p` to `r`.

`served` is the machine at the call of `memcpy`, and `rest` are the blocks of the heap afterwards.
-/
structure Moved (w next : World Statics) (served : State) (rest : List Nat) (p n r : Nat) : Prop where
  data : ∀ i < min (getSize w.heap (hdrp p) - 8) n, next.heap.mem (r + i) = w.heap.mem (p + i)
  apart : ∃ copySize, Copies (fun memcpy => mmReallocBy memcpy w.heap p n) served r p copySize ∧
    (r + copySize ≤ p ∨ p + copySize ≤ r)
  others : ∀ entry ∈ dropLive w.live p, ∀ x, entry.1 ≤ x →
    x + 8 < entry.1 + getSize w.heap (hdrp entry.1) → next.heap.mem x = w.heap.mem x
  gone : ∀ k, (p, k) ∉ next.live
  freed : ∃ q ∈ rest, getAlloc next.heap (hdrp q) = 0 ∧ q ≤ p ∧
    p + getSize w.heap (hdrp p) ≤ q + getSize next.heap (hdrp q)
  room : n + 8 ≤ getSize next.heap (hdrp r)

/-- A reallocation in a standing state moves the contents, or it changes nothing. -/
theorem mmRealloc_moved (holds : Holds (Stands base) Shelves.blocks w s) (live : (p, k) ∈ w.live)
    (positive : 1 ≤ n) (small : n ≤ maxRequest) (fine : NoWrap w.heap (.realloc p n)) :
    ∃ next r, w.call mm (.realloc p n) = some (next, r) ∧ (r = null → next = w) ∧
      (r ≠ null → ∃ served rest, mmMalloc w.heap n = some (served, r) ∧
        WellFormed next.heap (base + 8) [base + 8] rest 16 ∧ Moved w next served rest p n r) := by
  obtain ⟨stands, owned⟩ := holds
  obtain ⟨size, occupied, _⟩ := owned.block p k live
  have bytes : getSize w.heap (hdrp p) = size := by
    obtain ⟨b, block, rfl, rfl, _⟩ := occupied
    exact stands.rep.arena.size (by simp [block])
  obtain ⟨h₁, s₁, r, _, done₁, stands₁, keeps₁, outcome⟩ := (parts base).malloc stands positive small fine
  rcases outcome with ⟨rfl, rfl⟩ | ⟨real, served⟩
  · -- A refused call has changed nothing, and neither does what is left of the reallocation.
    obtain ⟨h', r', done', refuses⟩ := mmMalloc_refuses stands small fun _ => fine
    rw [mmMalloc_eq, done₁] at done'
    obtain ⟨rfl, rfl⟩ := Prod.mk.inj (Option.some.inj done')
    obtain rfl := refuses.atomic rfl
    have returned : mmRealloc w.heap p n = some (w.heap, null) :=
      bind_step (mmMalloc_eq ▸ done₁) (if_pos rfl)
    exact ⟨w, null, bind_step returned (if_pos rfl), fun _ => rfl, fun real => absurd rfl real⟩
  · -- A served call copies from the old block and then frees it.
    obtain ⟨h', done, stands', released, copies, frees⟩ :=
      (parts base).realloc_moves Skeleton.headerSize done₁ real stands₁ served occupied
    have bounded := Skeleton.copied_le n (Skeleton.headerSize h₁ p)
    have copied := (parts base).realloc_copies stands₁ keeps₁ served occupied bounded frees
    have kept := served.keeps_others keeps₁ copies frees
    have served' := Served.release served occupied released
    have holds' : Holds (Stands base) Shelves.blocks
        { heap := h', live := (r, n) :: dropLive w.live p } (s₁.free style p) :=
      ⟨stands', owned.realloc served'⟩
    have returned : mmRealloc w.heap p n = some (h', r) := by
      show Skeleton.mmRealloc mmMalloc Skeleton.headerSize mmFree w.heap p n = some (h', r)
      rw [mmMalloc_eq]
      exact done
    have comes := Skeleton.reallocBy_copies Skeleton.headerSize mmFree p (mmMalloc_eq ▸ done₁) real
    obtain ⟨fresh, taken, room, gained⟩ := served
    obtain ⟨b, block, rfl, rfl, used⟩ : Occupied s₁.blocks p size := (gained p size).mpr (.inl occupied)
    -- The header that `mm_realloc` reads is still that of the old block.
    have header : Skeleton.headerSize h₁ b.addr = b.size := stands₁.rep.arena.size (by simp [block])
    have count : Skeleton.copied n b.size = min n b.size := by
      unfold Skeleton.copied
      split <;> omega
    -- So the copy covers the smaller of the request and the old block.
    rw [header, count] at copied
    refine ⟨_, r, bind_step returned (if_neg real), fun refused => absurd refused real, fun _ =>
      ⟨h₁, _, mmMalloc_eq ▸ done₁, Skeleton.wellFormed rfl holds', ?_, ?_, ?_, ?_, ?_, ?_⟩⟩
    · rw [bytes]
      exact fun i below => copied.same i (by omega) (by omega)
    · have apart := copied.apart
      rw [header, count] at comes
      exact ⟨_, comes, by omega⟩
    · -- The other live payloads are those of used blocks, which all three steps keep.
      rintro ⟨q, k⟩ member x lower upper
      obtain ⟨stays, other⟩ := mem_dropLive.mp member
      obtain ⟨_, ⟨c, cBlock, rfl, rfl, cUsed⟩, _⟩ := owned.block q k stays
      rw [stands.rep.arena.size (by simp [cBlock])] at upper
      exact kept.bytes c (mem_others.mpr ⟨cBlock, other⟩) cUsed x ⟨lower, upper⟩
    · -- The new pointer is not the old one, which is still occupied when it is served.
      intro j member
      rcases List.mem_cons.mp member with same | member
      · obtain ⟨rfl, _⟩ := Prod.mk.inj same
        exact fresh b.size occupied
      · exact (mem_dropLive.mp member).2 rfl
    · -- The free block that covers the old one is what `coalesce` leaves.
      obtain ⟨pre, post, split⟩ := List.append_of_mem block
      obtain ⟨c, cBlock, free, low, high⟩ := Shelves.free_covers (rep_tiles stands₁.rep) split
        (scheme.opens s₁.blocks)
      have arena := stands'.rep.arena
      have member : c ∈ layout.fixed h'.memStartBrk ++ (s₁.free style b.addr).blocks :=
        List.mem_append_right _ cBlock
      refine ⟨c.addr, List.mem_map_of_mem cBlock, ?_, low, ?_⟩
      · show getAlloc h' (hdrp c.addr) = 0
        exact (arena.alloc_free member).mpr free
      · show b.addr + getSize w.heap (hdrp b.addr) ≤ c.addr + getSize h' (hdrp c.addr)
        rw [bytes, arena.size member]
        exact high
    · obtain ⟨_, ⟨c, cBlock, rfl, rfl, _⟩, fits⟩ := holds'.owned.block r n List.mem_cons_self
      show n + 8 ≤ getSize h' (hdrp c.addr)
      rw [stands'.rep.arena.size (by exact List.mem_append_right _ cBlock)]
      exact fits

/-- After every run `mm_realloc` preserves the contents of all blocks, and a refusal changes nothing. -/
theorem mm_realloc_contents (ok : Base base) (init : mmInit (memInit m base statics) = some (h, 0))
    (run : Run mm NoWrap { heap := h, live := [] } cs rs w) (live : (p, k) ∈ w.live) (positive : 1 ≤ n)
    (small : n ≤ maxRequest) (fine : NoWrap w.heap (.realloc p n)) :
    ∃ next r, w.call mm (.realloc p n) = some (next, r) ∧ (r = null → next = w) ∧
      (r ≠ null → ∃ served rest, mmMalloc w.heap n = some (served, r) ∧
        WellFormed next.heap (base + 8) [base + 8] rest 16 ∧ Moved w next served rest p n r) := by
  obtain ⟨s, holds⟩ := run_stands ok init run
  exact mmRealloc_moved holds live positive small fine

/-- After the small run the block at 80 is moved for a request of a hundred bytes. -/
theorem mm_realloc_contents_sample :
    ∃ h w, mmInit zeroed = some (h, 0) ∧
      Run mm NoWrap { heap := h, live := [] } sampleCalls [32, 48, 0, 80, 0, 96] w ∧
      ∃ next r, w.call mm (.realloc 80 100) = some (next, r) ∧ (r = null → next = w) ∧
        (r ≠ null → ∃ served rest, mmMalloc w.heap 100 = some (served, r) ∧
          WellFormed next.heap (8 + 8) [8 + 8] rest 16 ∧ Moved w next served rest 80 100 r) := by
  obtain ⟨h, w, init, run, passed⟩ := trial_run (show trial mm NoWrap (mmInit zeroed) sampleCalls
    (fun w => decide ((80, 8) ∈ w.live ∧ NoWrap w.heap (.realloc 80 100))) =
      some (0, [32, 48, 0, 80, 0, 96], true) by decide +kernel)
  obtain ⟨live, fine⟩ := of_decide_eq_true passed
  exact ⟨h, w, init, run, mm_realloc_contents base_eight init run live (by decide) (by decide) fine⟩

end MallocLab.Explicit
