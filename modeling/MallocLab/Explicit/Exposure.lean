import MallocLab.Explicit.Contents

/-! Which bytes `mm_realloc` shows to the client: it copies as many bytes as the old block has, tags included. -/

namespace MallocLab.Explicit

variable {base n p k r : Nat} {w next : World Statics} {served : State} {s : Shelves}

/-- Some run from some initialization ends in this state. -/
def Reachable (w : World Statics) : Prop :=
  ∃ base m statics h cs rs, Base base ∧ mmInit (memInit m base statics) = some (h, 0) ∧
    Run mm NoWrap { heap := h, live := [] } cs rs w

/-- `mm_realloc(p, n)` comes to `memcpy(newptr, p, copySize)` when the machine is `served`. -/
def Copying (h : State) (p n : Nat) (served : State) (newptr copySize : Nat) : Prop :=
  Copies (fun memcpy => mmReallocBy memcpy h p n) served newptr p copySize

/-- The block at `p` has the same size and the same payload bytes in both states. -/
structure SameBlock (h h' : State) (p : Nat) : Prop where
  size : getSize h' (hdrp p) = getSize h (hdrp p)
  payload : ∀ x, p ≤ x → x + 8 < p + getSize h (hdrp p) → h'.mem x = h.mem x

/--
The copy reads only the payload of the old block.

So it reads the same bytes in every reachable state that agrees on that payload and on the size of the block.
-/
structure Unexposed (w : World Statics) (p n : Nat) (served : State) (copySize : Nat) : Prop where
  inside : ∀ x, p ≤ x → x < p + copySize → x + 8 < p + getSize w.heap (hdrp p)
  same : ∀ w' served' newptr' copySize', Reachable w' → (∃ k, (p, k) ∈ w'.live) → NoWrap w'.heap (.realloc p n) →
    SameBlock w.heap w'.heap p → Copying w'.heap p n served' newptr' copySize' →
    copySize' = copySize ∧ ∀ i < copySize, served'.mem (p + i) = served.mem (p + i)

/-- Serving a request leaves the header and the payload of every live block alone. -/
theorem mmMalloc_kept (holds : Holds (Stands base) Shelves.blocks w s) (live : (p, k) ∈ w.live) (positive : 1 ≤ n)
    (small : n ≤ maxRequest) (fine : NoWrap w.heap (.malloc n)) (done : mmMalloc w.heap n = some (served, r)) :
    Skeleton.headerSize served p = getSize w.heap (hdrp p) ∧ 16 ≤ getSize w.heap (hdrp p) ∧
      ∀ x, p ≤ x → x + 8 < p + getSize w.heap (hdrp p) → served.mem x = w.heap.mem x := by
  obtain ⟨stands, owned⟩ := holds
  obtain ⟨_, ⟨b, block, rfl, rfl, used⟩, _⟩ := owned.block p k live
  obtain ⟨h₁, s₁, q, _, done₁, stands₁, keeps, outcome⟩ := (parts base).malloc stands positive small fine
  -- The heap and the result are those of the call.
  rw [← mmMalloc_eq, done] at done₁
  obtain ⟨rfl, rfl⟩ := Prod.mk.inj (Option.some.inj done₁)
  have size := stands.rep.arena.size (List.mem_append_right _ block)
  -- The block is still there afterwards, whether or not the request was served.
  have still : Occupied s₁.blocks b.addr b.size := by
    rcases outcome with ⟨_, rfl⟩ | ⟨_, _, _, _, gained⟩
    · exact ⟨b, block, rfl, rfl, used⟩
    · exact (gained b.addr b.size).mpr (.inl ⟨b, block, rfl, rfl, used⟩)
  obtain ⟨c, cBlock, here, same, _⟩ := still
  -- Its header is read as before.
  have header := stands₁.rep.arena.size (List.mem_append_right _ cBlock)
  rw [here, same] at header
  rw [size]
  exact ⟨header, stands.rep.least block, fun x lower upper => keeps.bytes b block used x ⟨lower, upper⟩⟩

/-- The copy comes right after the request, and it is as long as was asked for, but at most the whole old block. -/
theorem Copying.eq {copySize : Nat} (copying : Copying w.heap p n served r copySize)
    (holds : Holds (Stands base) Shelves.blocks w s) (live : (p, k) ∈ w.live) (positive : 1 ≤ n)
    (small : n ≤ maxRequest) (fine : NoWrap w.heap (.realloc p n)) :
    mmMalloc w.heap n = some (served, r) ∧ copySize = min n (getSize w.heap (hdrp p)) := by
  obtain ⟨next, q, called, _, moved⟩ := mmRealloc_moved holds live positive small fine
  obtain ⟨⟨h', _⟩, returned, _⟩ := Option.bind_eq_some_iff.mp called
  obtain ⟨h₁, _, q', _, done₁, _, _, _⟩ := (parts base).malloc holds.rep positive small fine
  rw [← mmMalloc_eq] at done₁
  by_cases real : q' = null
  · -- Without a new block the call would not come to the copy.
    exact absurd copying (Skeleton.reallocBy_refused (real ▸ done₁))
  · have comes := Skeleton.reallocBy_copies Skeleton.headerSize mmFree p done₁ real
    -- There is one copy in the call, so it is this one.
    obtain ⟨rfl, rfl, _, rfl⟩ := comes.unique copying returned
    obtain ⟨header, _, _⟩ := mmMalloc_kept holds live positive small fine done₁
    refine ⟨done₁, ?_⟩
    rw [header]
    unfold Skeleton.copied
    split <;> omega

/--
When `mm_realloc` succeeds, it copies nothing but payload exactly when the request leaves room for the tags.

A larger request copies the footer of the old block, and then the header of the block that follows it.
-/
theorem mm_realloc_unexposed (reachable : Reachable w) (live : (p, k) ∈ w.live) (positive : 1 ≤ n)
    (small : n ≤ maxRequest) (fine : NoWrap w.heap (.realloc p n))
    (done : w.call mm (.realloc p n) = some (next, r)) (real : r ≠ null) :
    ∃ served copySize, Copying w.heap p n served r copySize ∧
      (Unexposed w p n served copySize ↔ n + 8 ≤ getSize w.heap (hdrp p)) := by
  obtain ⟨base, m, statics, h, cs, rs, ok, init, run⟩ := reachable
  obtain ⟨s, holds⟩ := run_stands ok init run
  obtain ⟨next', r', done', _, moved⟩ := mmRealloc_moved holds live positive small fine
  obtain ⟨rfl, rfl⟩ := Prod.mk.inj (Option.some.inj (done.symm.trans done'))
  -- The call is the one that has been given.
  obtain ⟨served, _, _, _, outcome⟩ := moved real
  obtain ⟨copySize, comes, _⟩ := outcome.apart
  have copying : Copying w.heap p n served r copySize := comes
  obtain ⟨malloc, count⟩ := copying.eq holds live positive small fine
  obtain ⟨_, least, payload⟩ := mmMalloc_kept holds live positive small fine malloc
  refine ⟨served, copySize, copying, fun unexposed => ?_, fun room => ⟨fun x lower upper => by omega, ?_⟩⟩
  · -- The last byte that is copied is the one to look at.
    have last := unexposed.inside (p + (min n (getSize w.heap (hdrp p)) - 1)) (by omega) (by omega)
    omega
  · -- Both copies read inside the payload, where the two heaps agree.
    rintro w' served' newptr' copySize' ⟨base', m', statics', h', cs', rs', ok', init', run'⟩ ⟨k', live'⟩ fine' same
      copying'
    obtain ⟨s', holds'⟩ := run_stands ok' init' run'
    obtain ⟨malloc', count'⟩ := copying'.eq holds' live' positive small fine'
    obtain ⟨_, _, payload'⟩ := mmMalloc_kept holds' live' positive small fine' malloc'
    rw [same.size] at count' payload'
    refine ⟨count'.trans count.symm, fun i below => ?_⟩
    calc served'.mem (p + i) = w'.heap.mem (p + i) := payload' _ (by omega) (by omega)
      _ = w.heap.mem (p + i) := same.payload _ (by omega) (by omega)
      _ = served.mem (p + i) := (payload _ (by omega) (by omega)).symm

/-- A block of sixteen bytes is to grow to a hundred, so its footer is copied. -/
theorem mm_realloc_unexposed_sample :
    ∃ w next r, Reachable w ∧ (80, 8) ∈ w.live ∧ w.call mm (.realloc 80 100) = some (next, r) ∧ r ≠ null ∧
      ∃ served copySize, Copying w.heap 80 100 served r copySize ∧ ¬ Unexposed w 80 100 served copySize := by
  obtain ⟨h, w, init, run, passed⟩ := trial_run (show trial mm NoWrap (mmInit zeroed) sampleCalls
    (fun w => decide ((80, 8) ∈ w.live ∧ NoWrap w.heap (.realloc 80 100) ∧ getSize w.heap (hdrp 80) = 16 ∧
      (w.call mm (.realloc 80 100)).map Prod.snd = some 5104)) = some (0, [32, 48, 0, 80, 0, 96], true) by decide +kernel)
  -- The request takes a new block, so there is a copy.
  obtain ⟨live, fine, size, returned⟩ := of_decide_eq_true passed
  obtain ⟨⟨next, r⟩, done, rfl⟩ := Option.map_eq_some_iff.mp returned
  have reachable : Reachable w := ⟨8, _, _, h, _, _, base_eight, init, run⟩
  obtain ⟨served, copySize, copying, exactly⟩ :=
    mm_realloc_unexposed reachable live (by decide) (by decide) fine done (by decide)
  refine ⟨w, next, 5104, reachable, live, done, by decide, served, copySize, copying, fun unexposed => ?_⟩
  have room := exactly.mp unexposed
  omega

/--
Two states in which the block at 32 has sixteen bytes and the same payload, but another block follows it.

`mm_realloc(32, 100)` copies the header of that block, so the client finds different bytes in its new payload.
-/
theorem mm_realloc_exposes :
    ∃ w w' next next' served served', Reachable w ∧ Reachable w' ∧ (32, 8) ∈ w.live ∧ (32, 8) ∈ w'.live ∧
      SameBlock w.heap w'.heap 32 ∧ Copying w.heap 32 100 served 48 16 ∧ Copying w'.heap 32 100 served' 64 16 ∧
      w.call mm (.realloc 32 100) = some (next, 48) ∧ w'.call mm (.realloc 32 100) = some (next', 64) ∧
      next.heap.mem (48 + 12) = 113 ∧ next'.heap.mem (64 + 12) = 17 ∧ ¬ Unexposed w 32 100 served 16 := by
  -- In the first heap the block is the only one.
  obtain ⟨h, w, init, run, passed⟩ := trial_run (show trial mm NoWrap (mmInit zeroed) [.malloc 8]
    (fun w => decide ((32, 8) ∈ w.live ∧ getSize w.heap (hdrp 32) = 16 ∧
      (List.range 8).map (fun i => w.heap.mem (32 + i)) = [0, 0, 0, 0, 16, 0, 0, 0]) &&
      decide ((mmMalloc w.heap 100).map (fun served => (served.2, Skeleton.headerSize served.1 32)) = some (48, 16) ∧
        (w.call mm (.realloc 32 100)).map (fun next => (next.2, next.1.heap.mem (48 + 12))) = some (48, 113))) =
      some (0, [32], true) by decide +kernel)
  -- In the second heap another block follows it.
  obtain ⟨h', w', init', run', passed'⟩ := trial_run (show trial mm NoWrap (mmInit zeroed) [.malloc 8, .malloc 8]
    (fun w => decide ((32, 8) ∈ w.live ∧ getSize w.heap (hdrp 32) = 16 ∧
      (List.range 8).map (fun i => w.heap.mem (32 + i)) = [0, 0, 0, 0, 16, 0, 0, 0]) &&
      decide ((mmMalloc w.heap 100).map (fun served => (served.2, Skeleton.headerSize served.1 32)) = some (64, 16) ∧
        (w.call mm (.realloc 32 100)).map (fun next => (next.2, next.1.heap.mem (64 + 12))) = some (64, 17))) =
      some (0, [32, 48], true) by decide +kernel)
  -- The two payloads are the same, but the results differ.
  obtain ⟨block, results⟩ := Bool.and_eq_true_iff.mp passed
  obtain ⟨block', results'⟩ := Bool.and_eq_true_iff.mp passed'
  obtain ⟨live, size, payload⟩ := of_decide_eq_true block
  obtain ⟨live', size', payload'⟩ := of_decide_eq_true block'
  obtain ⟨malloc, called⟩ := of_decide_eq_true results
  obtain ⟨malloc', called'⟩ := of_decide_eq_true results'
  obtain ⟨⟨served, r⟩, done, same⟩ := Option.map_eq_some_iff.mp malloc
  obtain ⟨⟨served', r'⟩, done', same'⟩ := Option.map_eq_some_iff.mp malloc'
  obtain ⟨⟨next, q⟩, moved, byte⟩ := Option.map_eq_some_iff.mp called
  obtain ⟨⟨next', q'⟩, moved', byte'⟩ := Option.map_eq_some_iff.mp called'
  simp only [Prod.mk.injEq] at same same' byte byte'
  obtain ⟨rfl, header⟩ := same
  obtain ⟨rfl, header'⟩ := same'
  obtain ⟨rfl, byte⟩ := byte
  obtain ⟨rfl, byte'⟩ := byte'
  -- The copy is as long as the old block, which the request exceeds.
  have comes := Skeleton.reallocBy_copies Skeleton.headerSize mmFree 32 done (by decide)
  have comes' := Skeleton.reallocBy_copies Skeleton.headerSize mmFree 32 done' (by decide)
  rw [header] at comes
  rw [header'] at comes'
  refine ⟨w, w', next, next', served, served', ⟨8, _, _, h, _, _, base_eight, init, run⟩,
    ⟨8, _, _, h', _, _, base_eight, init', run'⟩, live, live', ⟨size'.trans size.symm, fun x lower upper => ?_⟩,
    comes, comes', moved, moved', byte, byte', fun unexposed => ?_⟩
  · -- The eight bytes of the payload are compared one by one.
    obtain ⟨i, rfl⟩ := Nat.exists_eq_add_of_le lower
    have inside : i ∈ List.range 8 := List.mem_range.mpr (by omega)
    exact List.map_inj_left.mp (payload'.trans payload.symm) i inside
  · -- The last byte that is copied is not in the payload.
    have last := unexposed.inside (32 + 15) (by decide) (by decide)
    omega

end MallocLab.Explicit
