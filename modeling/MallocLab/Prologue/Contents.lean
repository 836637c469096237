import MallocLab.Prologue.Invariant
import MallocLab.Prologue.Placement
import MallocLab.Skeleton.Contents

/-! What `realloc` of `prologue.c` copies, given the word that it takes for the size of the old block. -/

namespace MallocLab.Prologue

/-- The worlds that calls of `malloc`, `free`, `realloc` and `calloc` lead to, with stores in between. -/
inductive Reached (start : State) : World Statics → Prop
  /-- After `mm_init` no pointer is live. -/
  | init : Reached start { heap := start, live := [] }
  /-- One of the three calls, or a store. -/
  | call {w next : World Statics} {c : Call} {r : Nat} (before : Reached start w) (legal : w.Legal c)
      (fine : NoWrap w.heap c) (returned : w.call mm c = some (next, r)) : Reached start next
  /-- A call of `calloc` whose product does not wrap. -/
  | calloc {w : World Statics} {h : State} {nmemb size r : Nat} (before : Reached start w)
      (legal : w.Legal (.malloc (nmemb * size))) (fine : NoWrap w.heap (.malloc (nmemb * size)))
      (returned : Prologue.calloc w.heap nmemb size = some (h, r)) :
      Reached start { heap := h, live := (r, nmemb * size) :: w.live }

/--
`realloc` returns null, or it preserves the old payload and its copy reads nothing outside the old block.

The tags of the block count as parts of it.
-/
def Preserved (w : World Statics) (p n : Nat) : Prop :=
  ∃ next r, w.call mm (.realloc p n) = some (next, r) ∧
    (r ≠ null →
      (∀ i < min (getSize w.heap (hdrp p) - 8) n, next.heap.mem (r + i) = w.heap.mem (p + i)) ∧
      ∃ served copySize, Copies (fun memcpy => mmReallocBy memcpy w.heap p n) served r p copySize ∧
        ∀ x, p ≤ x → x < p + copySize → p - 4 ≤ x ∧ x < p + getSize w.heap (hdrp p) - 4)

/--
The request is refused, or the word below the old block is a harmless size.

It must not exceed the block, and what it leaves out must be in the new block already.
-/
def CopySound (h : State) (p n : Nat) : Prop :=
  Refused h n ∨
    Skeleton.copied n (wordBelow h p n) + 4 ≤ getSize h (hdrp p) ∧
      ∀ i < min (getSize h (hdrp p) - 8) n, Skeleton.copied n (wordBelow h p n) ≤ i →
        stale h n (target h n + i) = h.mem (p + i)

variable {base n p k r : Nat} {m : Mem} {statics : Statics} {h : State} {w next : World Statics} {s : Shelves}
variable {cs : List Call} {rs : List Nat}

/-- A run leads to worlds that are reached. -/
theorem Reached.run {start : State} (reached : Reached start w) (run : Run mm NoWrap w cs rs next) :
    Reached start next :=
  run.invariant (fun _ _ _ _ before legal fine returned => .call before legal fine returned) reached

/-- When the request for the product is served, `calloc` returns it filled with zeros. -/
theorem calloc_eq {bytes r : Nat} {h₁ : State} {nmemb size : Nat} (product : mul32 nmemb size = bytes)
    (served : mmMalloc h bytes = some (h₁, r)) (real : r ≠ null) :
    calloc h nmemb size = some ({ h₁ with mem := fillBytes h₁.mem r bytes 0 }, r) := by
  unfold calloc
  rw [product]
  exact bind_step served (bind_step (Heap.memset_real real) rfl)

/-- When `calloc` returns, its request for the product was served, or the product is nothing at all. -/
theorem calloc_returned {bytes r : Nat} {h' : State} {nmemb size : Nat} (product : mul32 nmemb size = bytes)
    (returned : calloc h nmemb size = some (h', r)) :
    ∃ h₁, mmMalloc h bytes = some (h₁, r) ∧ h' = { h₁ with mem := fillBytes h₁.mem r bytes 0 } ∧
      (r = null → bytes = 0) := by
  unfold calloc at returned
  rw [product] at returned
  obtain ⟨⟨h₁, q⟩, served, rest⟩ := Option.bind_eq_some_iff.mp returned
  obtain ⟨h₂, filled, same⟩ := Option.bind_eq_some_iff.mp rest
  obtain ⟨rfl, rfl⟩ := Prod.mk.inj (Option.some.inj same)
  unfold Heap.memset at filled
  split at filled
  · -- `memset` is undefined only for a null pointer.
    exact nomatch filled
  · rename_i stores
    refine ⟨h₁, served, (Option.some.inj filled).symm, fun absent => ?_⟩
    by_contra some_
    exact stores ⟨absent, some_⟩

/-- An action of the abstract allocator leaves the break inside the area. -/
theorem move_inside {s' : Shelves} {c : Call} {r : Nat} (inside : s.brk ≤ base + maxHeap)
    (moved : policy.move (base + maxHeap) s c = (s', r)) : s'.brk ≤ base + maxHeap := by
  have moves : (policy.move (base + maxHeap) s c).1.brk ≤ base + maxHeap := (Skeleton.shelved_move_brk inside c).2
  rwa [moved] at moves

/-- Every world that is reached represents an abstract state, whose break is inside the area. -/
theorem Reached.stands (ok : Base base) (init : mmInit (memInit m base statics) = some (h, 0))
    (reached : Reached h w) : ∃ s, Holds (Stands base) Shelves.blocks w s ∧ s.brk ≤ base + maxHeap := by
  induction reached with
  -- After `mm_init` the heap is one free block.
  | init =>
    have room : maxHeap = 20971520 := rfl
    exact ⟨_, mmInit_stands ok init, show base + 168 + 4096 ≤ base + maxHeap by omega⟩
  -- A call goes from one such state to another.
  | call _ legal fine returned ih =>
    obtain ⟨s, holds, inside⟩ := ih
    obtain ⟨next, s', r, done, moved, holds', _⟩ := (services base).call holds legal fine
    rw [returned] at done
    obtain ⟨rfl, rfl⟩ := Prod.mk.inj (Option.some.inj done)
    exact ⟨s', holds', move_inside inside moved⟩
  -- So does a call of `calloc`.
  | calloc _ legal fine returned ih =>
    rename_i w h' nmemb size r before
    obtain ⟨s, holds, inside⟩ := ih
    have most : maxRequest = 4294967280 := rfl
    have positive : 1 ≤ nmemb * size := legal.1
    have product : mul32 nmemb size = nmemb * size := mul32_eq (by have := legal.2; omega)
    obtain ⟨h₁, served, rfl, filled⟩ := calloc_returned product returned
    have real : r ≠ null := fun absent => by
      have := filled absent
      omega
    -- Up to the zeros the call is one of `malloc`, and the zeros lie in the new payload.
    obtain ⟨next, s', r, done, moved, holds', _⟩ := (services base).call holds legal fine
    have called : w.call mm (.malloc (nmemb * size)) = some ({ heap := h₁, live := (_, nmemb * size) :: w.live }, _) :=
      bind_step served (if_neg real)
    rw [called] at done
    obtain ⟨rfl, rfl⟩ := Prod.mk.inj (Option.some.inj done)
    refine ⟨s', ⟨(services base).written holds'.rep fun x outside => fillBytes_other ?_, holds'.owned⟩,
      move_inside inside moved⟩
    obtain ⟨b, block, used, _, payload⟩ := holds'.owned.payload List.mem_cons_self
    by_contra within_
    exact outside b block used (payload x (by omega) (by omega))

/-- Every world that is reached represents an abstract state. -/
theorem Reached.holds (ok : Base base) (init : mmInit (memInit m base statics) = some (h, 0))
    (reached : Reached h w) : ∃ s, Holds (Stands base) Shelves.blocks w s := by
  obtain ⟨s, holds, _⟩ := reached.stands ok init
  exact ⟨s, holds⟩

/-- A request is refused, or it is placed. -/
theorem mmMalloc_cases (stands : Stands base h s) (positive : 1 ≤ n) (small : n ≤ maxRequest)
    (fine : NoWrap h (.malloc n)) :
    Refused h n ∧ (∃ h', mmMalloc h n = some (h', null)) ∨ ¬ Refused h n ∧ ∃ h' s', Placed base h h' s s' n := by
  cases found : pick s (adjustedSize n) with
  -- A block is found, so the request is served.
  | some q => exact .inr (mmMalloc_found stands positive small found).2
  | none =>
    -- None is found, so the heap has to be extended.
    have searched := findFit_result stands.rep (adjustedSize n)
    rw [found] at searched
    have none_ : fit h n = null := by
      unfold fit
      rw [searched]
      rfl
    have limit := (parts base).limit stands
    have brk := stands.rep.brk
    have grows : growth n = max (adjustedSize n) 4096 := maxWord_eq _ _
    -- There is room for the extension.
    by_cases room : h.memBrk + growth n ≤ h.memMaxAddr
    · exact .inr ⟨fun refused => by have := refused.2; omega, mmMalloc_grown stands positive small found room⟩
    · -- There is none, and null is returned.
      obtain ⟨h', _, done, _⟩ := (parts base).malloc_full stands positive small fine found
        (show ¬ s.brk + max (adjustedSize n) 4096 ≤ _ by omega)
      refine .inl ⟨⟨none_, by omega⟩, h', ?_⟩
      unfold mmMalloc
      rw [Skeleton.mmMalloc_eq]
      exact done

/-- The word that `realloc` takes for the size of the old block. -/
theorem sizeWord_eq {b : Blk} (rep : Rep layout heads h s) (block : b ∈ s.blocks) :
    sizeWord h b.addr = h.get (b.addr - 8) ∧ 16 ≤ sizeWord h b.addr := by
  obtain ⟨a, member, adjoin, _, _, foot⟩ := block_before rep block
  -- The word is the footer of the block before, which may be the last root.
  have word : sizeWord h b.addr = h.get (a.addr + a.size - 8) := by
    unfold sizeWord
    rw [sizeTSize_eq]
    exact congrArg h.get foot
  refine ⟨by rw [word, adjoin], ?_⟩
  rw [word, footer_word rep member]
  -- Roots have sixteen bytes, and all other blocks have more.
  rcases List.mem_append.mp member with fixed | block
  · obtain ⟨k, _, rfl⟩ := List.mem_map.mp fixed
    exact Nat.le_add_right 16 _
  · have least : 24 ≤ a.size := rep.least block
    omega

/-- In a standing state `realloc` preserves the contents exactly when the word below the block allows it. -/
theorem preserved_iff (holds : Holds (Stands base) Shelves.blocks w s) (live : (p, k) ∈ w.live) (positive : 1 ≤ n)
    (small : n ≤ maxRequest) (fine : NoWrap w.heap (.realloc p n)) :
    Preserved w p n ↔ CopySound w.heap p n := by
  obtain ⟨stands, owned⟩ := holds
  obtain ⟨size, occupied, _⟩ := owned.block p k live
  have real : p ≠ null := (parts base).occupied_real stands occupied
  have enters : ∀ memcpy, mmReallocBy memcpy w.heap p n =
      Skeleton.reallocBy memcpy mmMalloc sizeWord mmFree w.heap p n := fun _ => (if_neg (by omega)).trans (if_neg real)
  have same : mmMalloc = Skeleton.mallocOf adjustedSize findFit (Skeleton.placed place)
      (Skeleton.extended extendHeap) := Skeleton.mmMalloc_eq place extendHeap
  rcases mmMalloc_cases stands positive small fine with ⟨refused, h', done⟩ | ⟨granted, h₁, s₁, placed⟩
  · -- The request is refused, and then nothing is promised of the bytes.
    have returned : mmRealloc w.heap p n = some (h', null) := (enters _).trans (bind_step done (if_pos rfl))
    exact iff_of_true ⟨_, null, bind_step returned (if_pos rfl), fun real => absurd rfl real⟩ (.inl refused)
  · -- It is served, and the bytes are moved.
    obtain ⟨h', done, stands', released, copies, frees⟩ := (parts base).realloc_moves sizeWord
      (same ▸ placed.returned) placed.real placed.stands placed.served occupied
    have bounded := Skeleton.copied_le n (sizeWord h₁ p)
    have copied := (parts base).realloc_copies placed.stands placed.keeps placed.served occupied bounded frees
    have returned : mmRealloc w.heap p n = some (h', target w.heap n) := by
      refine (enters _).trans ?_
      rw [same]
      exact done
    -- The copy of the call is this one.
    have comes : Copies (fun memcpy => mmReallocBy memcpy w.heap p n) h₁ (target w.heap n) p
        (Skeleton.copied n (sizeWord h₁ p)) := by
      simp only [enters]
      exact Skeleton.reallocBy_copies _ _ _ placed.returned placed.real
    have called : w.call mm (.realloc p n) =
        some ({ heap := h', live := (target w.heap n, n) :: dropLive w.live p }, target w.heap n) :=
      bind_step returned (if_neg placed.real)
    -- The word is read when the new block has been placed; it can be told from the state before.
    obtain ⟨b, block, rfl, rfl, used⟩ := occupied
    have gained : Occupied s₁.blocks b.addr b.size := by
      obtain ⟨_, _, _, gained⟩ := placed.served
      exact (gained b.addr b.size).mpr (.inl ⟨b, block, rfl, rfl, used⟩)
    obtain ⟨c, block', here, large, _⟩ := gained
    obtain ⟨read, sixteen⟩ := sizeWord_eq placed.stands.rep block'
    rw [here] at read sixteen
    rw [placed.below b block] at read
    rw [read] at sixteen copied bounded comes
    -- The condition is told in terms of the size in the header.
    have bytes : getSize w.heap (hdrp b.addr) = b.size := stands.rep.arena.size (List.mem_append_right _ block)
    have least : 24 ≤ b.size := stands.rep.least block
    have positive_ : 1 ≤ Skeleton.copied n (wordBelow w.heap b.addr n) := by
      unfold Skeleton.copied
      split <;> omega
    -- Bytes that are not copied are what the new block contained.
    have left : ∀ i, Skeleton.copied n (wordBelow w.heap b.addr n) ≤ i → i < n →
        h'.mem (target w.heap n + i) = stale w.heap n (target w.heap n + i) := by
      intro i above below
      have enough : 12 ≤ i := by
        unfold Skeleton.copied at above
        split at above <;> omega
      rw [copied.rest i above below]
      exact placed.inner _ (by omega) (by omega)
    unfold Preserved CopySound
    rw [bytes]
    constructor
    · -- The bytes are there after the call, and the copy reads inside the old block.
      rintro ⟨next, r, calls, sound⟩
      rw [called] at calls
      obtain ⟨rfl, rfl⟩ := Prod.mk.inj (Option.some.inj calls)
      obtain ⟨data, served, copySize, copies, source⟩ := sound placed.real
      -- There is one copy only, so its length is the one that the word gives.
      obtain ⟨_, _, _, rfl⟩ := copies.unique comes returned
      refine .inr ⟨?_, fun i below above => ?_⟩
      · have last := source (b.addr + Skeleton.copied n (wordBelow w.heap b.addr n) - 1) (by omega) (by omega)
        omega
      · rw [← left i above (by omega)]
        exact data i below
    · -- The condition holds, so each byte is either copied or has been right before.
      rintro (refused | ⟨within_, rest⟩)
      · exact absurd refused granted
      · refine ⟨_, _, called, fun _ => ⟨fun i below => ?_, h₁, _, comes, fun x lower upper => ?_⟩⟩
        · by_cases copies : i < Skeleton.copied n (wordBelow w.heap b.addr n)
          · exact copied.same i copies (by omega)
          · exact (left i (by omega) (by omega)).trans (rest i below (by omega))
        · -- The copy ends inside the old block.
          omega

/-- After every sequence of calls `realloc` preserves the contents exactly when the word below the block allows it. -/
theorem mm_realloc_copies (ok : Base base) (init : mmInit (memInit m base statics) = some (h, 0))
    (reached : Reached h w) (live : (p, k) ∈ w.live) (positive : 1 ≤ n) (small : n ≤ maxRequest)
    (fine : NoWrap w.heap (.realloc p n)) : Preserved w p n ↔ CopySound w.heap p n := by
  obtain ⟨s, holds⟩ := reached.holds ok init
  exact preserved_iff holds live positive small fine

/-- The footer of the last root says seventeen bytes, which is more than a small payload and not past its footer. -/
theorem mm_realloc_copies_sample :
    ∃ h w, mmInit zeroed = some (h, 0) ∧ Reached h w ∧ (176, 8) ∈ w.live ∧ Preserved w 176 100 := by
  -- The condition is tested on the state that the run reaches.
  obtain ⟨h, w, init, run, passed⟩ := trial_run (show trial mm NoWrap (mmInit zeroed) sampleCalls
    (fun w => decide ((176, 8) ∈ w.live ∧ NoWrap w.heap (.realloc 176 100)) &&
      decide (Skeleton.copied 100 (wordBelow w.heap 176 100) + 4 ≤ getSize w.heap (hdrp 176) ∧
        ∀ i < min (getSize w.heap (hdrp 176) - 8) 100, Skeleton.copied 100 (wordBelow w.heap 176 100) ≤ i →
          stale w.heap 100 (target w.heap 100 + i) = w.heap.mem (176 + i))) =
      some (0, [176, 200, 232, 0, 256, 0, 296, 176], true) by decide +kernel)
  obtain ⟨known, harmless⟩ := Bool.and_eq_true_iff.mp passed
  obtain ⟨live, fine⟩ := of_decide_eq_true known
  have reached : Reached h w := Reached.init.run run
  exact ⟨h, w, init, reached, live,
    (mm_realloc_copies base_eight init reached live (by decide) (by decide) fine).mpr
      (.inr (of_decide_eq_true harmless))⟩

/-- A payload of one hundred bytes, with a byte of its own in the middle. -/
def losingCalls : List Call := [.malloc 100, .store 226 7]

/-- Whether a call to enlarge the block at 176 moves it and loses its byte 50. -/
def loses (w : World Statics) : Bool :=
  match w.call mm (.realloc 176 200) with
  | some (next, r) => decide (r ≠ null ∧ 50 < min (getSize w.heap (hdrp 176) - 8) 200 ∧
      next.heap.mem (r + 50) ≠ w.heap.mem (176 + 50))
  | none => false

/-- The first block copies as many bytes as the footer of the last root says. -/
theorem mm_realloc_loses :
    ∃ h w, mmInit zeroed = some (h, 0) ∧ Reached h w ∧ (176, 100) ∈ w.live ∧ NoWrap w.heap (.realloc 176 200) ∧
      (∃ next r, w.call mm (.realloc 176 200) = some (next, r) ∧ r ≠ null) ∧ ¬ Preserved w 176 200 := by
  -- The run and the test of its last state are evaluated.
  obtain ⟨h, w, init, run, passed⟩ := trial_run (show trial mm NoWrap (mmInit zeroed) losingCalls
    (fun w => decide ((176, 100) ∈ w.live ∧ NoWrap w.heap (.realloc 176 200)) && loses w) =
      some (0, [176, 0], true) by decide +kernel)
  obtain ⟨known, lost⟩ := Bool.and_eq_true_iff.mp passed
  obtain ⟨live, fine⟩ := of_decide_eq_true known
  unfold loses at lost
  cases called : w.call mm (.realloc 176 200) with
  | none =>
    rw [called] at lost
    exact nomatch lost
  | some result =>
    obtain ⟨next, r⟩ := result
    rw [called] at lost
    -- Byte 50 is the one that differs.
    obtain ⟨real, short, differs⟩ := of_decide_eq_true lost
    refine ⟨h, w, init, Reached.init.run run, live, fine, ⟨next, r, called, real⟩, ?_⟩
    rintro ⟨next', r', same, sound⟩
    rw [called] at same
    obtain ⟨rfl, rfl⟩ := Prod.mk.inj (Option.some.inj same)
    exact differs ((sound real).1 50 short)

end MallocLab.Prologue
