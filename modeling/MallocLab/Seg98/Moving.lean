import MallocLab.Seg98.Twins

/-! What `mm_realloc` of `(98)정리.c` copies when it moves a block. -/

namespace MallocLab.Seg98

open Segregated

variable {base n p k r : Nat} {m : Mem} {statics : Nat → Nat} {h served : State} {w : World (Nat → Nat)}
variable {s : Shelves} {cs : List Call} {rs : List Nat}

/-- A block size leads back to itself, by way of the request that it leaves room for. -/
theorem adjustedSize_room {a : Nat} (whole : a % 8 = 0) (least : 16 ≤ a) (word : a < 2 ^ 32) :
    sub32 a dsize = a - 8 ∧ adjustedSize (a - 8) = a := by
  refine ⟨sub32_eq (by unfold dsize; omega) word, ?_⟩
  obtain ⟨exact_, _⟩ := adjustedSize_adjusted (n := a - 8) (by omega) (by unfold maxRequest; omega)
  omega

namespace Plain

/--
The move of the block at `p` to the block at `r`, which `mm_malloc` has delivered in the state `served`.

The call comes to a copy that reads the payload of the old block only, and not into the new one.
-/
structure CopySafe (w : World (Nat → Nat)) (p n : Nat) (served : State) (r : Nat) : Prop where
  copy : ∃ count, Copies (fun memcpy => mmReallocBy memcpy w.heap p n) served r p count ∧
    (∀ x, p ≤ x → x < p + count → x + 8 < p + getSize w.heap (hdrp p)) ∧ (p + count ≤ r ∨ r + count ≤ p)
  rest : ∃ next, w.call mm (.realloc p n) = some (next, r) ∧
    ∀ i, min (getSize w.heap (hdrp p) - 8) n ≤ i → i + 8 < getSize served (hdrp r) →
      next.heap.mem (r + i) = served.mem (r + i)

/-- When the next block is in use, a reallocation copies as many bytes as are asked for and frees the old block. -/
theorem mmReallocBy_eq (shut : open_ h p = false) (positive : 1 ≤ n)
    (done : mmMalloc h (sub32 (adjustedSize n) dsize) = some (served, r)) (memcpy : Memcpy (Nat → Nat)) :
    mmReallocBy memcpy h p n = (memcpy served r p n).bind fun h => (mmFree h p).bind fun h => some (h, r) := by
  unfold mmReallocBy
  rw [if_neg (by omega), shut, if_neg Bool.false_ne_true]
  unfold moveBy
  exact bind_step done rfl

/-- A request that the old block has room for is moved without harm. -/
theorem copySafe_of_room (holds : Holds (Stands file base) Shelves.blocks w s) (live : (p, k) ∈ w.live)
    (shut : open_ w.heap p = false) (positive : 1 ≤ n) (fine : NoWrap file w.heap (.realloc p n))
    (done : mmMalloc w.heap (sub32 (adjustedSize n) dsize) = some (served, r)) (real : r ≠ null)
    (room : n + 8 ≤ getSize w.heap (hdrp p)) : CopySafe w p n served r := by
  obtain ⟨stands, owned⟩ := holds
  -- The old block, as the headers have it.
  obtain ⟨size, occupied, _⟩ := owned.block p k live
  obtain ⟨b, block, rfl, rfl, used⟩ := id occupied
  have old : getSize w.heap (hdrp b.addr) = b.size := stands.rep.arena.size (List.mem_append_right _ block)
  rw [old] at room
  obtain ⟨lo, _, low, _, tiles, high⟩ := stands.tiles
  have lower := (tiles.within block).lower
  have upper := (tiles.within block).upper
  have whole := (tiles.within block).whole
  have top : maxRequest = 4294967280 := rfl
  -- The size that is asked for is that of the moved block.
  obtain ⟨_, adjusted⟩ := adjustedSize_adjusted positive (show n ≤ maxRequest by omega)
  have aligned := adjusted.whole
  have enough := adjusted.room
  have least := adjusted.least
  have word := adjusted.word
  obtain ⟨request, again⟩ := adjustedSize_room aligned least word
  -- The request for the new block has the size of the request that is moved.
  have fits : Skeleton.RequestFits adjustedSize (findFit file) w.heap (adjustedSize n - 8) := by
    have fine : Skeleton.RequestFits adjustedSize (findFit file) w.heap n := fine
    unfold Skeleton.RequestFits at fine ⊢
    rwa [again]
  have all := parts Plain.spells Plain.frees base
  obtain ⟨h₁, s₁, q, _, done₁, stands₁, keeps₁, outcome⟩ := all.malloc stands (by omega) (by omega) fits
  rw [request] at done
  obtain ⟨rfl, rfl⟩ := Prod.mk.inj (Option.some.inj (done.symm.trans done₁))
  obtain ⟨_, gain⟩ := outcome.resolve_left fun refused => real refused.1
  -- The call allocates, copies and frees.
  obtain ⟨h₂, copy, done₂, stands₂, _, copies, frees⟩ :=
    all.moves (show n ≤ adjustedSize n - 8 by omega) real stands₁ gain occupied
  -- The new block is another one than the old block.
  obtain ⟨fresh, taken, large, gained⟩ := gain
  obtain ⟨c, new, here, rfl, busy⟩ : Occupied s₁.blocks r taken := (gained r taken).mpr (.inr ⟨rfl, rfl⟩)
  obtain ⟨d, kept, same, equal, _⟩ : Occupied s₁.blocks b.addr b.size := (gained _ _).mpr (.inl occupied)
  have other : c.addr ≠ b.addr := fun same' => fresh b.size (here ▸ same' ▸ occupied)
  -- Two used blocks are apart.
  obtain ⟨_, _, _, _, tiles₁, _⟩ := stands₁.tiles
  have apart := (tiles₁.apart new kept).resolve_left fun same' => other (same' ▸ same)
  have delivered : getSize served (hdrp r) = c.size := by
    rw [← here]
    exact stands₁.rep.arena.size (List.mem_append_right _ new)
  have goes := mmReallocBy_eq shut positive (request ▸ done)
  -- The copy is one of `n` bytes, and these are in the old payload.
  refine ⟨⟨n, ⟨_, goes⟩, fun x lower upper => by omega, by omega⟩, ?_⟩
  have moved : mmRealloc w.heap b.addr n = some (h₂, r) :=
    (goes Heap.memcpy).trans (bind_step copy (bind_step done₂ rfl))
  -- The bytes behind the copied ones are the ones that the new block had.
  refine ⟨_, bind_step moved (if_neg real), fun i above below => ?_⟩
  rw [old] at above
  rw [delivered] at below
  -- Freeing the old block leaves the new one alone, and the copy ends before this byte.
  have freed : h₂.mem (r + i) = copyBytes served.mem r b.addr n (r + i) :=
    frees.bytes c (mem_others.mpr ⟨new, other⟩) busy (r + i) ⟨by omega, by omega⟩
  exact freed.trans (copyBytes_other (by omega))

/--
After every run without reallocation the move of a block is safe exactly when the old block has room for the request.

`mm_realloc` copies as many bytes as are asked for, so a larger request reads past the payload.
-/
theorem mm_realloc_copySafe (ok : Base base) (init : mmInit (memInit m base statics) = some (h, 0))
    (run : Reaches h cs rs w) (live : (p, k) ∈ w.live) (shut : open_ w.heap p = false) (positive : 1 ≤ n)
    (fine : NoWrap file w.heap (.realloc p n))
    (done : mmMalloc w.heap (sub32 (adjustedSize n) dsize) = some (served, r)) (real : r ≠ null) :
    CopySafe w p n served r ↔ n + 8 ≤ getSize w.heap (hdrp p) := by
  obtain ⟨h', init', start⟩ := mmInit_holds Plain.spells ok m statics
  obtain rfl : h' = h := (Prod.mk.inj (Option.some.inj (init'.symm.trans init))).1
  -- A run keeps in step with itself, so the state at its end is represented.
  obtain ⟨_, _, s, holds, _⟩ := (Plain.made.lockstep Plain.made base).run run ⟨_, start, start, rfl⟩
  constructor
  · rintro ⟨⟨count, copies, inside, _⟩, next, returned, _⟩
    -- The call comes to one copy only, whose last byte is the one to look at.
    obtain ⟨_, moved, _⟩ := Option.bind_eq_some_iff.mp returned
    obtain ⟨_, _, _, rfl⟩ := copies.unique ⟨_, mmReallocBy_eq shut positive done⟩ moved
    have last := inside (p + (n - 1)) (by omega) (by omega)
    omega
  · exact copySafe_of_room holds live shut positive fine done real

/-- A run after which a block of thirty-two bytes lies in front of a block in use. -/
def movingCalls : List Call :=
  [.malloc 40, .malloc 8, .malloc 8, .free 24, .malloc 20, .malloc 12, .store 24 7]

/-- A block of thirty-two bytes has room for twelve, so its move is safe. -/
theorem mm_realloc_copySafe_sample :
    ∃ h w served, mmInit (filled 0) = some (h, 0) ∧ Reaches h movingCalls [24, 88, 104, 0, 24, 56, 0] w ∧
      mmMalloc w.heap (sub32 (adjustedSize 12) dsize) = some (served, 120) ∧ CopySafe w 24 12 served 120 := by
  obtain ⟨h, w, init, run, passed⟩ := trial_run (show trial mm (NoWrap file) (mmInit (filled 0)) movingCalls
    (fun w => decide ((24, 20) ∈ w.live ∧ open_ w.heap 24 = false ∧ NoWrap file w.heap (.realloc 24 12) ∧
      12 + 8 ≤ getSize w.heap (hdrp 24) ∧
      (mmMalloc w.heap (sub32 (adjustedSize 12) dsize)).map Prod.snd = some 120)) =
        some (0, [24, 88, 104, 0, 24, 56, 0], true) by decide +kernel)
  obtain ⟨live, shut, fine, room, delivered⟩ := of_decide_eq_true passed
  obtain ⟨⟨served, r⟩, done, rfl⟩ := Option.map_eq_some_iff.mp delivered
  have reached : Reaches h movingCalls [24, 88, 104, 0, 24, 56, 0] w := run.quiet (by decide)
  exact ⟨h, w, served, init, reached, done,
    (mm_realloc_copySafe base_eight init reached live shut (by decide) fine done (by decide)).mpr room⟩

/-- A block of sixteen bytes is moved for a request of a hundred, and its footer and the next block come along. -/
theorem mm_realloc_overreads :
    ∃ h w served next, mmInit (filled 0) = some (h, 0) ∧ Reaches h [.malloc 8, .malloc 8] [24, 40] w ∧
      (24, 8) ∈ w.live ∧ open_ w.heap 24 = false ∧
      mmMalloc w.heap (sub32 (adjustedSize 100) dsize) = some (served, 4072) ∧
      w.call mm (.realloc 24 100) = some (next, 4072) ∧ served.mem (4072 + 8) = 0 ∧ next.heap.mem (4072 + 8) = 17 ∧
      ¬ CopySafe w 24 100 served 4072 := by
  obtain ⟨h, w, init, run, passed⟩ := trial_run (show trial mm (NoWrap file) (mmInit (filled 0)) [.malloc 8, .malloc 8]
    (fun w => decide ((24, 8) ∈ w.live ∧ open_ w.heap 24 = false ∧ getSize w.heap (hdrp 24) = 16 ∧
      32 < getSize ((mmMalloc w.heap (sub32 (adjustedSize 100) dsize)).getD (w.heap, 0)).1 (hdrp 4072) ∧
      (mmMalloc w.heap (sub32 (adjustedSize 100) dsize)).map (fun served => (served.2, served.1.mem (4072 + 8))) =
        some (4072, 0) ∧
      (w.call mm (.realloc 24 100)).map (fun next => (next.2, next.1.heap.mem (4072 + 8))) = some (4072, 17))) =
        some (0, [24, 40], true) by decide +kernel)
  -- The state and the two results are evaluated.
  obtain ⟨live, shut, small, wide, delivered, moved⟩ := of_decide_eq_true passed
  obtain ⟨⟨served, r⟩, done, same⟩ := Option.map_eq_some_iff.mp delivered
  obtain ⟨⟨next, q⟩, called, same'⟩ := Option.map_eq_some_iff.mp moved
  simp only [Prod.mk.injEq] at same same'
  obtain ⟨rfl, before⟩ := same
  obtain ⟨rfl, after⟩ := same'
  refine ⟨h, w, served, next, init, run.quiet (by decide), live, shut, done, called, before, after, fun safe => ?_⟩
  -- The ninth byte of the new block has changed.
  obtain ⟨next', returned, kept⟩ := safe.rest
  obtain ⟨rfl, _⟩ := Prod.mk.inj (Option.some.inj (called.symm.trans returned))
  rw [done] at wide
  have wide : 32 < getSize served (hdrp 4072) := wide
  have same := kept 8 (by omega) (by omega)
  rw [before, after] at same
  simp at same

end Plain

end MallocLab.Seg98
