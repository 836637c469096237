import MallocLab.Prologue.Contents
import MallocLab.Skeleton.Wrapping

/-! What `calloc` of `prologue.c` does for every pair of arguments. -/

namespace MallocLab.Prologue

open Skeleton (area)

variable {base n p q bp a nmemb size bytes r : Nat} {m : Mem} {statics : Statics} {h h' h₁ : State}
variable {w : World Statics} {s s₁ : Shelves} {result : State × Nat}

/-- The block at `r` is a new one inside the heap with this many zeros, and no live block has changed. -/
structure Cleared (w : World Statics) (h : State) (r bytes : Nat) : Prop where
  low : w.heap.memStartBrk ≤ r
  high : r + bytes ≤ h.memBrk
  room : bytes + 8 ≤ getSize h (hdrp r)
  used : getAlloc h (hdrp r) = 1
  fresh : ∀ p k, (p, k) ∈ w.live → r + getSize h (hdrp r) ≤ p ∨ p + getSize w.heap (hdrp p) ≤ r
  zero : ∀ i < bytes, h.mem (r + i) = 0
  kept : ∀ p k, (p, k) ∈ w.live → getSize h (hdrp p) = getSize w.heap (hdrp p) ∧
    ∀ x, p ≤ x → x + 8 < p + getSize w.heap (hdrp p) → h.mem x = w.heap.mem x

/-- `calloc` returns without a fault: null with nothing changed, or a new block of zeros. -/
def CallocSafe (w : World Statics) (nmemb size : Nat) : Prop :=
  ∃ h r, calloc w.heap nmemb size = some (h, r) ∧
    (r = null ∧ h = w.heap ∨ r ≠ null ∧ Cleared w h r (nmemb * size))

/-- The product wraps to zero, or it is the size of a request that is not refused. -/
def Callable (h : State) (product : Nat) : Prop :=
  product % 2 ^ 32 = 0 ∨ product ≤ maxRequest ∧ ¬ Refused h product

section Frame

/-- Unlinking a block moves no limit, whatever the state. -/
theorem deleteFreenode_area (done : deleteFreenode h bp = some h') : area h' = area h := by
  unfold deleteFreenode at done
  obtain ⟨h₁, first, rest⟩ := Option.bind_eq_some_iff.mp done
  have kept := Skeleton.putChecked_area first
  split at rest
  · exact (Option.some.inj rest ▸ rfl : area h' = area h₁).trans kept
  · exact Option.some.inj rest ▸ kept

/-- Linking in a block moves no limit, whatever the state. -/
theorem insertFreenode_area (done : insertFreenode h bp = some h') : area h' = area h := by
  unfold insertFreenode at done
  simp only at done
  split at done
  · exact Option.some.inj done ▸ rfl
  · exact Option.some.inj done ▸ rfl

/-- Coalescing moves no limit, whatever the state. -/
theorem coalesce_area (done : coalesce h bp = some result) : area result.1 = area h := by
  unfold coalesce at done
  simp only at done
  -- The four branches unlink none, one or two blocks, and link in one.
  split_ifs at done
  · exact Skeleton.listed_area done insertFreenode_area rfl
  · refine Skeleton.unlinked_area done deleteFreenode_area rfl fun _ same done => ?_
    exact Skeleton.listed_area done insertFreenode_area same
  · refine Skeleton.unlinked_area done deleteFreenode_area rfl fun _ same done => ?_
    exact Skeleton.listed_area done insertFreenode_area same
  · refine Skeleton.unlinked_area done deleteFreenode_area rfl fun _ same done => ?_
    refine Skeleton.unlinked_area done deleteFreenode_area same fun _ same done => ?_
    exact Skeleton.listed_area done insertFreenode_area same

/-- Placing a block moves no limit, whatever the state. -/
theorem place_area (done : place h bp a = some h') : area h' = area h := by
  unfold place at done
  simp only at done
  split at done
  · obtain ⟨h₁, removed, rest⟩ := Option.bind_eq_some_iff.mp done
    have kept := deleteFreenode_area removed
    have kept' := insertFreenode_area rest
    exact kept'.trans kept
  · have kept := deleteFreenode_area done
    exact kept

end Frame

/-- When the extension for a request wraps, the break ends up below the area. -/
theorem mmMalloc_escapes (stands : Stands base h s) (inside : s.brk ≤ base + maxHeap) (positive : 1 ≤ n)
    (small : n ≤ maxRequest) (wraps : ¬ NoWrap h (.malloc n)) (done : mmMalloc h n = some result) :
    result.1.memStartBrk = h.memStartBrk ∧ result.1.memBrk < h.memStartBrk := by
  have limit := (parts base).limit stands
  have brk : h.memBrk = s.brk := stands.rep.brk
  obtain ⟨adjusted, _⟩ := adjustedSize_adjusted positive small
  have searching : ∀ {a h' q}, findFit h a = some (h', q) → h' = h := by
    intro a h' q found
    obtain ⟨_, _, same⟩ := Option.map_eq_some_iff.mp found
    exact (Prod.mk.inj same).1.symm
  exact Skeleton.mmMalloc_escapes coalesce_area place_area searching stands (by omega) (by omega) adjusted.whole
    wraps done

/-- The new block, filled with zeros. -/
theorem Placed.cleared (placed : Placed base w.heap h₁ s s₁ n) (stands : Stands base w.heap s)
    (owned : Owned w.live s.blocks) :
    Cleared w { h₁ with mem := fillBytes h₁.mem (target w.heap n) n 0 } (target w.heap n) n := by
  -- The request has been served with this block.
  obtain ⟨fresh, taken, room, gained⟩ := placed.served
  obtain ⟨b, block, here, rfl, used⟩ : Occupied s₁.blocks (target w.heap n) taken :=
    (gained _ _).mpr (.inr ⟨rfl, rfl⟩)
  rw [← here] at fresh gained ⊢
  -- The zeros lie in the payload, so the machine still represents the same state.
  have zeros : Stands base { h₁ with mem := fillBytes h₁.mem b.addr n 0 } s₁ := by
    refine (parts base).written placed.stands fun x outside => fillBytes_other ?_
    have apart := outside b block used
    unfold Payload at apart
    omega
  obtain ⟨lo, _, low, start, tiles, _⟩ := zeros.tiles
  have within_ := tiles.within block
  obtain ⟨large, marked, _⟩ := zeros.reads (List.mem_append_right _ block)
  have size := within_.least
  -- A live block is still there, apart from the new one.
  have live : ∀ p k, (p, k) ∈ w.live → ∃ c ∈ s.blocks, ∃ d ∈ s₁.blocks, c.addr = p ∧ c.used = true ∧ d.addr = p ∧
      d.size = c.size ∧ (b.addr + b.size ≤ p ∨ p + c.size ≤ b.addr) := by
    -- The old block is still used.
    intro p k member
    obtain ⟨size, ⟨c, old, rfl, rfl, busy⟩, _⟩ := owned.block p k member
    obtain ⟨d, kept, same, equal, _⟩ := (gained c.addr c.size).mpr (.inl ⟨c, old, rfl, rfl, busy⟩)
    refine ⟨c, old, d, kept, rfl, busy, same, equal, ?_⟩
    rcases tiles.apart block kept with rfl | apart
    · exact absurd ⟨c, old, same.symm, rfl, busy⟩ (fresh c.size)
    · omega
  -- The facts of the result are read off the headers of the blocks.
  refine ⟨?_, ?_, large ▸ room, ?_, ?_, fun i below => fillBytes_inside (by omega) (by omega), ?_⟩
  · have start : h₁.memStartBrk ≤ lo := start
    have same := placed.keeps.start
    have lower := within_.lower
    omega
  · have upper := within_.upper
    omega
  · rw [marked, used]
    rfl
  · -- The new block and a live one are apart.
    intro p k member
    obtain ⟨c, old, d, kept, rfl, _, _, _, apart⟩ := live p k member
    obtain ⟨before, _⟩ := stands.reads (List.mem_append_right _ old)
    rw [large, before]
    exact apart
  · -- A live block has its size and its bytes.
    intro p k member
    obtain ⟨c, old, d, kept, rfl, busy, same, equal, apart⟩ := live p k member
    obtain ⟨before, _⟩ := stands.reads (List.mem_append_right _ old)
    obtain ⟨after, _⟩ := zeros.reads (List.mem_append_right _ kept)
    rw [same, equal] at after
    refine ⟨after.trans before.symm, fun x lower upper => ?_⟩
    rw [before] at upper
    exact (fillBytes_other (by omega)).trans (placed.keeps.bytes c old busy x ⟨lower, upper⟩)

/-- A product that is too large for a request is not cleared anywhere. -/
theorem calloc_large (large : maxRequest < nmemb * size) (some_ : nmemb * size % 2 ^ 32 ≠ 0) :
    ¬ CallocSafe w nmemb size := by
  rintro ⟨h, r, returned, outcome⟩
  obtain ⟨_, _, _, absent⟩ := calloc_returned rfl returned
  rcases outcome with ⟨null_, _⟩ | ⟨_, cleared⟩
  · exact some_ (absent null_)
  · -- No word is the size of a block with room for the product.
    have room := cleared.room
    have most : maxRequest = 4294967280 := rfl
    have word : h.get (hdrp r) < 2 ^ 32 := loadWord_lt h.mem (hdrp r)
    rw [getSize_eq] at room
    omega

/-- When the product wraps to zero, `calloc` returns null and changes nothing. -/
theorem calloc_nothing (none_ : nmemb * size % 2 ^ 32 = 0) : CallocSafe w nmemb size := by
  refine ⟨{ w.heap with mem := fillBytes w.heap.mem null 0 0 }, null, ?_, .inl ⟨rfl, ?_⟩⟩
  · -- The product is zero, so nothing is asked for and nothing is filled.
    have product : mul32 nmemb size = 0 := none_
    have refused : mmMalloc w.heap 0 = some (w.heap, null) := by
      unfold mmMalloc
      rw [Skeleton.mmMalloc_eq]
      exact if_pos rfl
    have filled : w.heap.memset null 0 0 = some { w.heap with mem := fillBytes w.heap.mem null 0 0 } :=
      if_neg fun faults => faults.2 rfl
    unfold calloc
    rw [product]
    exact bind_step refused (bind_step filled rfl)
  · -- Filling nothing changes nothing.
    have same : fillBytes w.heap.mem null 0 0 = w.heap.mem := funext fun x => fillBytes_other (by omega)
    rw [same]

/-- A request that is not refused is served without a wrap. -/
theorem noWrap_of_granted (stands : Stands base h s) (granted : ¬ Refused h n) : NoWrap h (.malloc n) := by
  intro missed _
  have absent : fit h n = null := by
    unfold fit
    rw [missed]
    rfl
  have limit := stands.rep.area.fits
  have room : ¬ h.memMaxAddr < h.memBrk + growth n := fun full => granted ⟨absent, full⟩
  unfold growth at room
  omega

/-- For the product of a legal request `calloc` is safe exactly when the request is not refused. -/
theorem calloc_small (holds : Holds (Stands base) Shelves.blocks w s) (inside : s.brk ≤ base + maxHeap)
    (positive : 1 ≤ nmemb * size) (small : nmemb * size ≤ maxRequest) :
    CallocSafe w nmemb size ↔ ¬ Refused w.heap (nmemb * size) := by
  obtain ⟨stands, owned⟩ := holds
  have most : maxRequest = 4294967280 := rfl
  have product : mul32 nmemb size = nmemb * size := mul32_eq (by omega)
  constructor
  · -- If the call is safe, then it has not been refused.
    rintro ⟨h', r, returned, outcome⟩ refused
    obtain ⟨h₁, served, rfl, absent⟩ := calloc_returned product returned
    have real : r ≠ null := fun none_ => by
      have := absent none_
      omega
    obtain ⟨_, cleared⟩ := outcome.resolve_left fun failed => real failed.1
    by_cases fine : NoWrap w.heap (.malloc (nmemb * size))
    · -- Without a wrap the request is refused, and `memset` faults on the null pointer.
      rcases mmMalloc_cases stands positive small fine with ⟨_, h₂, done⟩ | ⟨granted, _⟩
      · rw [served] at done
        exact real (Prod.mk.inj (Option.some.inj done)).2
      · exact granted refused
    · -- With a wrap the break ends up below the area, so no block lies inside the heap.
      obtain ⟨_, escaped⟩ := mmMalloc_escapes stands inside positive small fine served
      have low := cleared.low
      have high : r + nmemb * size ≤ h₁.memBrk := cleared.high
      simp only at escaped
      omega
  · -- If the request is granted, then the payload is cleared.
    intro granted
    have fine := noWrap_of_granted stands granted
    obtain ⟨h₁, s₁, placed⟩ := ((mmMalloc_cases stands positive small fine).resolve_left fun bad => granted bad.1).2
    exact ⟨_, _, calloc_eq product placed.returned placed.real, .inr ⟨placed.real, placed.cleared stands owned⟩⟩

/--
After every sequence of calls `calloc` is safe exactly for the products that it can serve.

Other products wrap on the way to `malloc`, or they make `memset` store through the null pointer.
-/
theorem calloc_safe (ok : Base base) (init : mmInit (memInit m base statics) = some (h, 0))
    (reached : Reached h w) (positive : 0 < nmemb * size) :
    CallocSafe w nmemb size ↔ Callable w.heap (nmemb * size) := by
  obtain ⟨s, holds, inside⟩ := reached.stands ok init
  unfold Callable
  -- A product that wraps to zero is harmless.
  by_cases none_ : nmemb * size % 2 ^ 32 = 0
  · exact iff_of_true (calloc_nothing none_) (.inl none_)
  · -- A product that the allocator can take is decided by the request.
    by_cases small : nmemb * size ≤ maxRequest
    · rw [calloc_small holds inside positive small]
      exact ⟨fun granted => .inr ⟨small, granted⟩, fun callable => (callable.resolve_left none_).2⟩
    · -- A larger product cannot be served.
      refine iff_of_false (calloc_large (by omega) none_) ?_
      rintro (wraps | ⟨fits, _⟩)
      · exact none_ wraps
      · exact small fits

/-- After the small run the heap has room for twenty-five words, so `calloc` delivers them cleared. -/
theorem calloc_safe_sample : ∃ h w, mmInit zeroed = some (h, 0) ∧ Reached h w ∧ CallocSafe w 25 4 := by
  obtain ⟨h, w, init, run, room⟩ := sample_run
  have reached : Reached h w := Reached.init.run (run.extend fun _ _ _ => strict_call)
  have growth : growth (25 * 4) = chunksize := by decide
  have granted : ¬ Refused w.heap (25 * 4) := fun refused => by
    have full := refused.2
    omega
  exact ⟨h, w, init, reached,
    (calloc_safe base_eight init reached (by decide)).mpr (.inr ⟨by decide, granted⟩)⟩

/--
`calloc(65537, 65536)` returns a block of 64 kilobytes, although four gigabytes are asked for.

`calloc(1, 2^25)` faults: `malloc` returns null, and `memset` stores to it.
-/
theorem calloc_unsafe :
    ∃ h r, mmInit zeroed = some (h, 0) ∧ Reached h { heap := h, live := [] } ∧
      (calloc h 65537 65536).map Prod.snd = some r ∧ r ≠ null ∧
      ¬ CallocSafe { heap := h, live := [] } 65537 65536 ∧
      (mmMalloc h (2 ^ 25)).map Prod.snd = some null ∧ ¬ CallocSafe { heap := h, live := [] } 1 (2 ^ 25) := by
  have seen : (mmInit zeroed).map (fun start => (start.2, (calloc start.1 65537 65536).map Prod.snd,
      (mmMalloc start.1 (2 ^ 25)).map Prod.snd, (calloc start.1 1 (2 ^ 25)).isSome)) =
        some (0, some 176, some null, false) := by decide +kernel
  -- The two calls are evaluated on the empty heap.
  obtain ⟨⟨h, code⟩, init, same⟩ := Option.map_eq_some_iff.mp seen
  simp only [Prod.mk.injEq] at same
  obtain ⟨rfl, large, refused, faults⟩ := same
  refine ⟨h, 176, init, .init, large, by decide, calloc_large (by decide) (by decide), refused, ?_⟩
  rintro ⟨h', r, returned, _⟩
  rw [returned] at faults
  exact nomatch faults

end MallocLab.Prologue
