import MallocLab.Driver.Agreement
import MallocLab.Traces.Generators

/-! What is left of the heap of `mm.c` after a balanced trace, and how little of it `gen_coalescing.pl` needs. -/

namespace MallocLab.Traces

open Driver
open Explicit (mm lifo initial prologue heapBlocks FreeList)

/-- Exactly the allocated ids hold a block, and each of them holds one. -/
structure Tidy (held : List (Nat × Nat)) (allocated : List Nat) : Prop where
  distinct : (held.map Prod.fst).Nodup
  same : ∀ i, i ∈ held.map Prod.fst ↔ i ∈ allocated

/-- The blocks that are held after some requests. -/
def heldAfterAll (held : List (Nat × Nat)) (ops : List TraceOp) : List (Nat × Nat) :=
  ops.foldl (fun held op => op.heldAfter held) held

/-- The heap is a single free block again, and that block is the free list. -/
structure Reclaimed (base : Nat) (h : Explicit.State) : Prop where
  blocks : heapBlocks h = [prologue base, { addr := base + 24, size := h.memBrk - (base + 24), used := false }]
  list : FreeList h [base + 24]

variable {base i n : Nat} {held : List (Nat × Nat)} {allocated : List Nat} {op : TraceOp} {ops : List TraceOp}
variable {tags : List Tag} {w : World Explicit.Statics} {a a' : Shelves × Ids} {numIds : Nat} {trace : Trace}
variable {h : Explicit.State} {final : List Nat}

/-- Without the newest block of an id, the ids are those without that id. -/
theorem map_eraseP_fst (i : Nat) :
    (held.eraseP fun entry => entry.1 = i).map Prod.fst = (held.map Prod.fst).erase i := by
  -- The block that goes is the first one of its id.
  induction held with
  | nil => rfl
  | cons entry held ih =>
    by_cases here : entry.1 = i
    · simp [here]
    · rw [List.eraseP_cons_of_neg (by simpa using here), List.map_cons, List.map_cons,
        List.erase_cons_tail (by simpa using here), ih]

/-- A proper request keeps the accounts tidy. -/
theorem Tidy.step (tidy : Tidy held allocated)
    (proper : if op.type = .alloc then op.index ∉ allocated else op.index ∈ allocated) :
    Tidy (op.heldAfter held) (op.allocated allocated) := by
  obtain ⟨distinct, same⟩ := tidy
  have gone : ∀ i, i ∈ (held.map Prod.fst).erase op.index ↔ i ≠ op.index ∧ i ∈ allocated := fun i => by
    rw [distinct.mem_erase_iff, same]
  -- Each type of request changes the blocks that are held as it changes the ids.
  cases type : op.type with
  | alloc =>
    have fresh : op.index ∉ allocated := by simpa [type] using proper
    simp only [TraceOp.heldAfter, TraceOp.allocated, type]
    -- The new id is put in front of the others.
    refine ⟨List.nodup_cons.mpr ⟨fun member => fresh ((same _).mp member), distinct⟩, fun i => ?_⟩
    rw [List.map_cons, List.mem_cons, List.mem_cons, same]
  | realloc =>
    have known : op.index ∈ allocated := by simpa [type] using proper
    simp only [TraceOp.heldAfter, TraceOp.allocated, type]
    -- The id is taken out and put in front again, so it occurs once.
    constructor
    · rw [List.map_cons, map_eraseP_fst]
      exact List.nodup_cons.mpr ⟨fun member => ((gone _).mp member).1 rfl, distinct.erase _⟩
    · -- The id that is moved is still the one of an allocated block.
      intro i
      rw [List.map_cons, map_eraseP_fst, List.mem_cons, gone]
      by_cases here : i = op.index
      · simp [here, known]
      · simp [here]
  | free =>
    simp only [TraceOp.heldAfter, TraceOp.allocated, type]
    -- The id is taken out, here and there.
    constructor
    · rw [map_eraseP_fst]
      exact distinct.erase _
    · intro i
      rw [map_eraseP_fst, gone, List.mem_filter, and_comm]
      simp

/-- So do all requests of a proper trace. -/
theorem Tidy.run (tidy : Tidy held allocated) (proper : ProperOps allocated ops) :
    Tidy (heldAfterAll held ops) (allocatedAfter allocated ops) := by
  induction ops generalizing held allocated with
  | nil => exact tidy
  | cons op ops ih => exact ih (tidy.step proper.1) proper.2

/-- After a proper trace that leaves no id allocated no block is held. -/
theorem heldAfterAll_balanced (proper : ProperOps [] ops) (balanced : allocatedAfter [] ops = []) :
    heldAfterAll [] ops = [] := by
  have tidy : Tidy [] [] := ⟨List.nodup_nil, by simp⟩
  have end_ := tidy.run proper
  rw [balanced] at end_
  -- Every block that is held has an id.
  refine List.eq_nil_iff_forall_not_mem.mpr fun entry member => ?_
  exact List.not_mem_nil ((end_.same entry.1).mp (List.mem_map_of_mem member))

/-- Some machine serves the requests as the abstract allocator does, and its accounts are those of the trace. -/
theorem serving_replay (serving : Serving base tags w a allocated) (valid : ValidOps numIds allocated ops)
    (small : ∀ op ∈ ops, op.Small base) (done : interpret (lifoTurn base) a ops = some (.ok a')) :
    ∃ tags' next, Serving base tags' next a' (allocatedAfter allocated ops) ∧
      heldOf tags' = heldAfterAll (heldOf tags) ops := by
  -- A run that gets to the end has no refused request in it.
  induction ops generalizing tags w a allocated with
  | nil =>
    obtain rfl := Except.ok.inj (Option.some.inj done)
    exact ⟨tags, w, serving, rfl⟩
  | cons op ops ih =>
    obtain ⟨next, r, _, turned⟩ := serving.turn valid.1 (small op List.mem_cons_self)
    cases turned with
    | refused _ _ abstract =>
      -- The abstract run stops at a refused request, but it got to the end.
      rw [interpret_failed abstract] at done
      simp at done
    | served _ abstract _ serving' held _ =>
      -- The rest of the run starts from the next state.
      rw [interpret_done abstract] at done
      obtain ⟨tags', last, end_, heldEnd⟩ := ih serving' valid.2
        (fun other member => small other (List.mem_cons_of_mem _ member)) done
      exact ⟨tags', last, end_, by rw [heldEnd, held]; rfl⟩

/-- When nothing is held, the abstract heap is one free block. -/
theorem idle_alone (serving : Serving base [] w a allocated) :
    a.1.blocks = [{ addr := base + 24, size := a.1.brk - (base + 24), used := false }] ∧
      a.1.lists 0 = [base + 24] := by
  have stands := serving.holds.rep
  have tiles := Explicit.rep_tiles stands.rep
  rw [stands.start, stands.rep.brk] at tiles
  -- A used block would have an owner, and free blocks are never neighbours.
  have blocks := Separated.alone tiles stands.separated (stands.rep.plain rfl) serving.opened fun p size used => by
    obtain ⟨n, entry⟩ := serving.holds.owned.owner p size used
    rw [serving.ledger.live] at entry
    exact List.not_mem_nil entry
  refine ⟨blocks, ?_⟩
  -- The list has the address of the block, no other address, and none twice.
  have listed : ∀ p, p ∈ a.1.lists 0 ↔ p = base + 24 := by
    intro p
    constructor
    · intro member
      obtain ⟨b, block, rfl, _⟩ := stands.rep.threaded.listed 0 p member
      rw [blocks] at block
      rw [List.mem_singleton.mp block]
    · rintro rfl
      exact stands.filed _ (by rw [blocks]; exact List.mem_singleton_self _) rfl 0 rfl
  exact List.perm_singleton.mp ((List.perm_ext_iff_of_nodup (stands.rep.threaded.nodup 0)
    (List.nodup_singleton _)).mpr fun p => by rw [listed, List.mem_singleton])

/-- Then so is the heap of a machine that represents it. -/
theorem Reclaimed.of_alone {w' : World Explicit.Statics} {tags' : List Tag} {allocated' : List Nat}
    (idle : Serving base [] w a allocated) (serving : Serving base tags' w' a allocated') : Reclaimed base w'.heap := by
  obtain ⟨blocks, list⟩ := idle_alone idle
  have stands := serving.holds.rep
  constructor
  · rw [Explicit.heapBlocks_eq stands, blocks, stands.rep.brk]
  · rw [← list]
    exact Explicit.freeList_eq stands

/-- The abstract run of a balanced trace ends with nothing held. -/
theorem lifoReplay_idle (ok : Base base) (area : Over base h) (valid : ValidOps numIds [] ops)
    (small : ∀ op ∈ ops, op.Small base) (proper : ProperOps [] ops) (balanced : allocatedAfter [] ops = [])
    (replayed : lifoReplay base ops = some (.ok a)) : ∃ w allocated, Serving base [] w a allocated := by
  obtain ⟨h', _, fresh⟩ := area.init ok
  obtain ⟨tags, next, serving, held⟩ := serving_replay (Serving.start ok fresh) valid small replayed
  have none_ : heldOf tags = [] := held.trans (heldAfterAll_balanced proper balanced)
  obtain rfl := List.map_eq_nil_iff.mp none_
  exact ⟨next, _, serving⟩

/--
After a balanced trace the heap of `mm.c` is one free block again, whichever evaluation has run the trace.

That block reaches from the prologue to the break, and it is the only block of the free list.
-/
theorem mm_reclaims (ok : Base base) (area : Over base h) (valid : trace.Valid)
    (small : ∀ op ∈ trace.ops, op.Small base) (proper : ProperOps [] trace.ops)
    (balanced : allocatedAfter [] trace.ops = []) :
    (∀ tracenum s, validSession mmPackage h trace tracenum = some (.ok s) → Reclaimed base s.2.heap) ∧
      (∀ u, evalMmUtil mmPackage h trace = some (.ok u) → Reclaimed base u.heap) ∧
      ∀ t, evalMmSpeed mmPackage h trace = some (.ok t) → Reclaimed base t.heap := by
  -- Each evaluation that ends has followed the abstract run, which ends with nothing held.
  refine ⟨fun tracenum s passed => ?_, fun u done => ?_, fun t done => ?_⟩
  · -- `eval_mm_valid` passes the trace, so the run has got to its end.
    obtain ⟨a, replayed, tags, w, allocated, following, agrees⟩ := validSession_follows ok area valid small passed
    obtain ⟨_, _, idle⟩ := lifoReplay_idle ok area valid.ops small proper balanced replayed
    rw [agrees.heap]
    exact .of_alone idle following.serving
  · -- `eval_mm_util` keeps step with the run, and has returned.
    have inStep := evalMmUtil_inStep ok area valid small
    rw [done] at inStep
    obtain ⟨a, replayed, tags, w, allocated, following, metered⟩ := inStep.ok_right
    obtain ⟨_, _, idle⟩ := lifoReplay_idle ok area valid.ops small proper balanced replayed
    rw [metered.heap]
    exact .of_alone idle following.serving
  · -- So does `eval_mm_speed`.
    have inStep := evalMmSpeed_inStep ok area valid small
    rw [done] at inStep
    obtain ⟨a, replayed, tags, w, allocated, following, heap, _⟩ := inStep.ok_right
    obtain ⟨_, _, idle⟩ := lifoReplay_idle ok area valid.ops small proper balanced replayed
    rw [heap]
    exact .of_alone idle following.serving

/-- The example in the description of the format, as a trace in memory. -/
def readmeTrace : Trace where
  numIds := 3
  ops := sampleOps
  blocks := [0, 0, 0]
  blockSizes := [0, 0, 0]

/-- The example allocates before it frees. -/
theorem sampleOps_proper : ProperOps [] sampleOps := by simp [ProperOps, sampleOps, TraceOp.allocated]

/-- The example leaves one free block in every evaluation. -/
theorem mm_reclaims_sample :
    (∀ tracenum s, validSession mmPackage Explicit.zeroed readmeTrace tracenum = some (.ok s) →
      Reclaimed 8 s.2.heap) ∧
      (∀ u, evalMmUtil mmPackage Explicit.zeroed readmeTrace = some (.ok u) → Reclaimed 8 u.heap) ∧
      ∀ t, evalMmSpeed mmPackage Explicit.zeroed readmeTrace = some (.ok t) → Reclaimed 8 t.heap :=
  mm_reclaims base_eight over_zeroed ⟨rfl, rfl, sampleOps_proper.valid (by decide) (by decide)⟩
    (by simp [readmeTrace, sampleOps, TraceOp.Small, maxHeap]) sampleOps_proper rfl

/-- The abstract state after a request that has been served. -/
theorem lifoTurn_fst (done : lifoTurn base a op = some (.ok a')) :
    a'.1 = (lifo.move (base + maxHeap) a.1 (op.call a.2)).1 := by
  simp only [lifoTurn, Option.some.injEq] at done
  split at done
  · cases done
  · rw [← Except.ok.inj done]

/-- A free block that is large enough is found. -/
theorem firstFit_found (serving : Serving base tags w a allocated) {b : Blk} {size : Nat} (member : b ∈ a.1.blocks)
    (free : b.used = false) (large : size ≤ b.size) : Explicit.firstFit a.1 size ≠ none := by
  -- The search misses only when no free block is large enough.
  rw [Ne, Explicit.firstFit_none serving.holds.rep, Explicit.hasFit_iff serving.holds.rep, not_not]
  exact ⟨b, member, free, large⟩

/-- An allocation is served when there is a free block for it or when the heap can still be extended. -/
theorem alloc_turn (serving : Serving base tags w a allocated) (positive : 1 ≤ n) (int : n < 2 ^ 31)
    (small : base + maxHeap + n + 4096 < 2 ^ 32)
    (granted : Explicit.firstFit a.1 (Explicit.blockSize n) = none →
      a.1.brk + max (Explicit.blockSize n) 4096 ≤ base + maxHeap) :
    ∃ tags' next a', lifoTurn base a (allocOp i n) = some (.ok a') ∧ Serving base tags' next a' (i :: allocated) ∧
      heldOf tags' = (i, n) :: heldOf tags ∧ a'.1 = (lifo.malloc (base + maxHeap) a.1 n).1 := by
  have most : maxRequest = 4294967280 := rfl
  have valid : (allocOp i n).Valid (i + 1) allocated :=
    ⟨fun _ => ⟨positive, int⟩, Nat.lt_succ_self i, by simp [allocOp]⟩
  obtain ⟨next, r, returned, turned⟩ := serving.turn valid fun _ => small
  cases turned with
  | refused _ null_ _ =>
    -- The machine would have served it.
    obtain ⟨h', _, r', done, _, _, real, _⟩ :=
      (Explicit.parts base).malloc_granted serving.holds.rep positive (by omega) granted
    have same : Explicit.mmMalloc w.heap n = some (next.heap, r) := mmMalloc_of_call returned
    rw [Explicit.mmMalloc_eq, done] at same
    obtain ⟨_, rfl⟩ := Prod.mk.inj (Option.some.inj same)
    exact absurd null_ real
  -- The request is served.
  | served _ abstract _ serving' held _ => exact ⟨_, next, _, abstract, serving', held, lifoTurn_fst abstract⟩

/-- Freeing an allocated id is served, and the break stays. -/
theorem free_turn (serving : Serving base tags w a allocated) (known : i ∈ allocated) :
    ∃ tags' next a', lifoTurn base a (freeOp i) = some (.ok a') ∧
      Serving base tags' next a' (allocated.filter (· ≠ i)) ∧
      heldOf tags' = (heldOf tags).eraseP (fun entry => entry.1 = i) ∧ a'.1.brk = a.1.brk := by
  have valid : (freeOp i).Valid (i + 1) allocated := ⟨by simp [freeOp], Nat.lt_succ_self i, fun _ => known⟩
  obtain ⟨next, r, _, turned⟩ := serving.turn valid fun real => absurd rfl real
  -- Freeing an allocated id is never refused.
  cases turned with
  | refused request _ _ => exact absurd rfl request
  | served _ abstract _ serving' held _ =>
    refine ⟨_, next, _, abstract, serving', held, ?_⟩
    rw [lifoTurn_fst abstract]
    exact Shelves.free_brk

/-- An allocation moves the break only when no free block is large enough, and then as far as the code extends it. -/
theorem malloc_brk (s : Shelves) (n limit : Nat) :
    (Explicit.firstFit s (Explicit.blockSize n) ≠ none → (lifo.malloc limit s n).1.brk = s.brk) ∧
      (lifo.malloc limit s n).1.brk ≤ s.brk + max (Explicit.blockSize n) 4096 := by
  -- A block that is found is carved where it lies; otherwise the heap is extended or left alone.
  cases found : Explicit.firstFit s (Explicit.blockSize n) with
  | some p =>
    have kept : (lifo.malloc limit s n).1.brk = s.brk := by
      rw [Skeleton.Policy.malloc_picked (P := lifo) found]
      exact Shelves.carve_brk
    exact ⟨fun _ => kept, by omega⟩
  | none =>
    refine ⟨fun some_ => absurd rfl some_, ?_⟩
    -- The heap has room for the extension, or the request is refused.
    by_cases room : s.brk + max (Explicit.blockSize n) 4096 ≤ limit
    · have moved : (lifo.malloc limit s n).1.brk = s.brk + max (Explicit.blockSize n) 4096 := by
        rw [Skeleton.Policy.malloc_extended (P := lifo) found room rfl]
        exact Shelves.carve_brk.trans (Shelves.extend_brk _)
      omega
    · rw [Skeleton.Policy.malloc_refused (P := lifo) found room]
      exact Nat.le_add_right _ _

/-- Two blocks of the same size that are held need room for two blocks. -/
theorem two_held {j : Nat} (serving : Serving base tags w a allocated) (held : heldOf tags = [(j, n), (i, n)]) :
    base + 24 + 2 * Explicit.blockSize n ≤ a.1.brk := by
  have stands := serving.holds.rep
  -- The ledger says which two blocks are held.
  have tiles := Explicit.rep_tiles stands.rep
  rw [stands.start, stands.rep.brk] at tiles
  obtain ⟨second, rest, rfl, here, restHeld⟩ := List.map_eq_cons_iff.mp held
  obtain ⟨first, rest, rfl, here', restHeld⟩ := List.map_eq_cons_iff.mp restHeld
  obtain rfl := List.map_eq_nil_iff.mp restHeld
  have live := serving.ledger.live
  have nodup := serving.holds.owned.nodup
  -- Both were asked for with the same size.
  have sizes : ∀ entry ∈ w.live, entry.2 = n := by
    rw [live]
    simp only [List.map_cons, List.map_nil, List.mem_cons, List.not_mem_nil, or_false]
    rintro entry (rfl | rfl)
    · exact (Prod.mk.inj here).2
    · exact (Prod.mk.inj here').2
  -- They are two different payloads.
  have apart : second.2.1 ≠ first.2.1 := by
    rw [live] at nodup
    simpa using nodup
  -- Each of the two has a used block with room for the request.
  have used : ∀ entry ∈ w.live, ∃ b ∈ a.1.blocks, b.addr = entry.1 ∧ Explicit.blockSize n ≤ b.size ∧
      base + 24 ≤ b.addr ∧ b.addr + b.size ≤ a.1.brk := by
    intro entry member
    obtain ⟨size, ⟨b, block, at_, rfl, _⟩, room⟩ := serving.holds.owned.block entry.1 entry.2 member
    have within := tiles.within block
    have whole := within.whole
    rw [sizes entry member] at room
    refine ⟨b, block, at_, ?_, within.lower, within.upper⟩
    unfold Explicit.blockSize
    omega
  obtain ⟨b, block, at_, large, low, high⟩ := used second.2 (by simp [live])
  obtain ⟨c, block', at', large', low', high'⟩ := used first.2 (by simp [live])
  -- The two blocks are different, so one of them lies behind the other one.
  rcases tiles.apart block block' with same | below | below
  · rw [same] at at_
    exact absurd (at_.symm.trans at') apart
  · omega
  · omega

/-- Fewer ids may count as allocated. -/
theorem serving_mono {more : List Nat} (serving : Serving base tags w a allocated)
    (fewer : ∀ i ∈ more, i ∈ allocated) : Serving base tags w a more :=
  ⟨serving.holds, serving.opened, serving.inside, serving.ledger.mono fewer⟩

/-- In a heap of one block with room for two, the first of the two leaves a free block for the second. -/
theorem second_found (idle : Serving base [] w a []) (twice : base + 24 + 2 * Explicit.blockSize n ≤ a.1.brk)
    (positive : 1 ≤ n) : Explicit.firstFit a.1 (Explicit.blockSize n) ≠ none ∧
      ∃ b ∈ (lifo.malloc (base + maxHeap) a.1 n).1.blocks, b.used = false ∧ Explicit.blockSize n ≤ b.size := by
  obtain ⟨blocks, list⟩ := idle_alone idle
  -- The heap is one free block, since nothing is held.
  have least : 16 ≤ Explicit.blockSize n := by
    unfold Explicit.blockSize
    omega
  have located : locate a.1.blocks (base + 24) =
      some ([], { addr := base + 24, size := a.1.brk - (base + 24), used := false }, []) := by
    rw [blocks]
    simp [locate]
  -- That block is large enough for two of the size, so it is the one that is found.
  have found : Explicit.firstFit a.1 (Explicit.blockSize n) = some (base + 24) := by
    unfold Explicit.firstFit
    rw [list, List.find?_cons_of_pos]
    rw [Shelves.fits_eq located, decide_eq_true_eq]
    show _ ≤ a.1.brk - (base + 24)
    omega
  -- What is left of it is large enough for the second one.
  have enough : Explicit.blockSize n ≤ a.1.brk - (base + 24) - Explicit.blockSize n := by omega
  have large : Explicit.blockSize n ≤ (Blk.size
      { addr := base + 24 + Explicit.blockSize n, size := a.1.brk - (base + 24) - Explicit.blockSize n, used := false }) :=
    enough
  refine ⟨by simp [found], _, ?_, rfl, large⟩
  rw [Skeleton.Policy.malloc_picked (P := lifo) found]
  -- The block is split, since what is left over is large enough.
  have splits : 16 ≤ a.1.brk - (base + 24) - Explicit.blockSize n := by omega
  show _ ∈ (a.1.carve Explicit.style (base + 24) (Explicit.blockSize n)).1.blocks
  simp [Shelves.carve, located, Explicit.style, splits]

/-- A turn extends the heap of `mm.c` only when it does not have room for the two blocks. -/
theorem coalescing_turn (idle : Serving base [] w a []) (positive : 1 ≤ n)
    (room : base + 24 + 2 * Explicit.blockSize n ≤ a.1.brk ∨
      a.1.brk + 2 * max (Explicit.blockSize n) 4096 ≤ base + maxHeap)
    (int : 2 * n < 2 ^ 31) (small : base + maxHeap + 2 * n + 4096 < 2 ^ 32) :
    ∃ next a', interpret (lifoTurn base) a (coalescingTurn n i) = some (.ok a') ∧ Serving base [] next a' [] ∧
      base + 24 + 2 * Explicit.blockSize n ≤ a'.1.brk ∧
      (base + 24 + 2 * Explicit.blockSize n ≤ a.1.brk → a'.1.brk = a.1.brk) ∧
      a'.1.brk ≤ a.1.brk + 2 * max (Explicit.blockSize n) 4096 := by
  -- The first block is found, or the heap is extended for it.
  obtain ⟨tags₁, w₁, a₁, done₁, serving₁, held₁, state₁⟩ := alloc_turn (i := 3 * i) idle positive (by omega) (by omega)
    fun missed => room.elim (fun twice => absurd missed (second_found idle twice positive).1) (by omega)
  have brk₁ := malloc_brk a.1 n (base + maxHeap)
  rw [← state₁] at brk₁
  -- The second one finds a free block where the first one does.
  have spare : base + 24 + 2 * Explicit.blockSize n ≤ a.1.brk →
      Explicit.firstFit a₁.1 (Explicit.blockSize n) ≠ none := by
    intro twice
    obtain ⟨b, member, free, large⟩ := (second_found idle twice positive).2
    exact firstFit_found serving₁ (state₁ ▸ member) free large
  -- So is the second one.
  obtain ⟨tags₂, w₂, a₂, done₂, serving₂, held₂, state₂⟩ := alloc_turn (i := 3 * i + 1) serving₁ positive (by omega)
    (by omega) fun missed => room.elim (fun twice => absurd missed (spare twice)) (by omega)
  have brk₂ := malloc_brk a₁.1 n (base + maxHeap)
  rw [← state₂] at brk₂
  rw [held₁] at held₂
  have twice : base + 24 + 2 * Explicit.blockSize n ≤ a₂.1.brk := two_held serving₂ held₂
  -- The two blocks are freed.
  obtain ⟨tags₃, w₃, a₃, done₃, serving₃, held₃, brk₃⟩ := free_turn (i := 3 * i) serving₂ (by simp)
  obtain ⟨tags₄, w₄, a₄, done₄, serving₄, held₄, brk₄⟩ := free_turn (i := 3 * i + 1) serving₃ (by simp)
  rw [held₃, held₂] at held₄
  -- Both blocks are free again, so the heap is one block, and that is large enough for the third one.
  have none₄ : heldOf tags₄ = [] := by
    rw [held₄]
    simp [heldOf]
  obtain rfl := List.map_eq_nil_iff.mp none₄
  obtain ⟨blocks₄, _⟩ := idle_alone serving₄
  have found : Explicit.firstFit a₄.1 (Explicit.blockSize (2 * n)) ≠ none := by
    refine firstFit_found serving₄ (blocks₄ ▸ List.mem_singleton_self _) rfl ?_
    show _ ≤ a₄.1.brk - (base + 24)
    unfold Explicit.blockSize at twice ⊢
    omega
  -- The third block takes no extension, so the break stays.
  obtain ⟨tags₅, w₅, a₅, done₅, serving₅, held₅, state₅⟩ := alloc_turn (i := 3 * i + 2) serving₄
    (show 1 ≤ 2 * n by omega) int small fun missed => absurd missed found
  have brk₅ := (malloc_brk a₄.1 (2 * n) (base + maxHeap)).1 found
  rw [← state₅] at brk₅
  obtain ⟨tags₆, w₆, a₆, done₆, serving₆, held₆, brk₆⟩ := free_turn (i := 3 * i + 2) serving₅ (by simp)
  have none₆ : heldOf tags₆ = [] := by
    rw [held₆, held₅]
    simp [heldOf]
  obtain rfl := List.map_eq_nil_iff.mp none₆
  refine ⟨w₆, a₆, ?_, serving_mono serving₆ (by simp), by omega, fun enough => ?_, by omega⟩
  · -- The six requests are the turn of the generator.
    unfold coalescingTurn
    rw [interpret_done done₁, interpret_done done₂, interpret_done done₃, interpret_done done₄, interpret_done done₅,
      interpret_done done₆]
    rfl
  · -- With room for two blocks from the start, no request moves the break.
    have first := brk₁.1 (second_found idle enough positive).1
    have second := brk₂.1 (spare enough)
    omega

/-- With room for the two blocks, no number of turns moves the break. -/
theorem coalescing_turns (turns : List Nat) (idle : Serving base [] w a []) (positive : 1 ≤ n)
    (room : base + 24 + 2 * Explicit.blockSize n ≤ a.1.brk) (int : 2 * n < 2 ^ 31)
    (small : base + maxHeap + 2 * n + 4096 < 2 ^ 32) :
    ∃ next a', interpret (lifoTurn base) a (turns.flatMap (coalescingTurn n)) = some (.ok a') ∧
      Serving base [] next a' [] ∧ a'.1.brk = a.1.brk := by
  -- After each turn the heap is idle again, with the same break.
  induction turns generalizing w a with
  | nil => exact ⟨w, a, rfl, idle, rfl⟩
  | cons i turns ih =>
    obtain ⟨w₁, a₁, done₁, idle₁, room₁, stays, _⟩ := coalescing_turn (i := i) idle positive (.inl room) int small
    have brk₁ := stays room
    obtain ⟨w₂, a₂, done₂, idle₂, brk₂⟩ := ih idle₁ room₁
    rw [List.flatMap_cons, interpret_append done₁]
    exact ⟨w₂, a₂, done₂, idle₂, brk₂.trans brk₁⟩

/-- The peak of two traces in a row is the larger one of theirs. -/
theorem peakFrom_append {more : List TraceOp} :
    peakFrom held (ops ++ more) = max (peakFrom held ops) (peakFrom (heldAfterAll held ops) more) := by
  induction ops generalizing held with
  | nil => exact (Nat.zero_max _).symm
  | cons op ops ih =>
    have later := @ih (op.heldAfter held)
    simp only [List.cons_append, peakFrom, later, Nat.max_assoc]
    rfl

/-- A turn holds as many bytes as its third block has, and then none. -/
theorem coalescing_peak (blkSize : Nat) (turns : List Nat) :
    peakFrom [] (turns.flatMap (coalescingTurn blkSize)) = if turns = [] then 0 else 2 * blkSize := by
  induction turns with
  | nil => rfl
  | cons i turns ih =>
    have first : peakFrom [] (coalescingTurn blkSize i) = 2 * blkSize := by
      simp [coalescingTurn, peakFrom, TraceOp.heldAfter, allocOp, freeOp, totalHeld]
      omega
    have none_ : heldAfterAll [] (coalescingTurn blkSize i) = [] := by
      simp [coalescingTurn, heldAfterAll, TraceOp.heldAfter, allocOp, freeOp]
    rw [List.flatMap_cons, peakFrom_append, first, none_, ih, if_neg (List.cons_ne_nil i turns)]
    split <;> omega

/-- What the driver finds when `mm.c` serves a trace with this peak in a heap of this size. -/
structure Succeeds (base : Nat) (h : Explicit.State) (trace : Trace) (peak heapsize : Nat) : Prop where
  valid : ∀ tracenum, evalMmValid mmPackage h trace tracenum = some (1, [])
  util : ∃ u, evalMmUtil mmPackage h trace = some (.ok u) ∧ u.maxTotalSize = peak ∧ memHeapsize u.heap = heapsize ∧
    Reclaimed base u.heap
  speed : ∃ t, evalMmSpeed mmPackage h trace = some (.ok t) ∧ Reclaimed base t.heap

/-- A trace whose abstract run ends with nothing held succeeds, in a heap that ends at the break of that run. -/
theorem Succeeds.of_replay (ok : Base base) (area : Over base h) (valid : trace.Valid)
    (small : ∀ op ∈ trace.ops, op.Small base) (low : ∀ op ∈ trace.ops, op.type = .realloc → op.index % 256 < 128)
    (replayed : lifoReplay base trace.ops = some (.ok a)) (idle : Serving base [] w a allocated) :
    Succeeds base h trace trace.peak (a.1.brk - base) := by
  refine ⟨fun tracenum => ?_, ?_, ?_⟩
  · -- The file passes `eval_mm_valid`.
    have inStep := validSession_inStep tracenum ok area valid small low
    rw [replayed] at inStep
    obtain ⟨s, session, _⟩ := inStep.ok
    rw [evalMmValid_eq ok area, session]
    rfl
  · -- What `eval_mm_util` counts at the end is the peak and the break.
    have inStep := evalMmUtil_inStep ok area valid small
    rw [replayed] at inStep
    obtain ⟨u, done, tags, w', allocated', following, metered⟩ := inStep.ok
    obtain ⟨bytes, least, _, reaches⟩ := metered.counted
    have most : max u.maxTotalSize (0 : Int) = trace.peak := reaches
    have size := following.serving.heapsize
    have brk : w'.heap.memBrk = a.1.brk := following.serving.holds.rep.rep.brk
    rw [← metered.heap] at size brk
    refine ⟨u, done, by omega, by omega, ?_⟩
    rw [metered.heap]
    exact .of_alone idle following.serving
  · -- `eval_mm_speed` gets to its end as well.
    have inStep := evalMmSpeed_inStep ok area valid small
    rw [replayed] at inStep
    obtain ⟨t, done, tags, w', allocated', following, heap, _⟩ := inStep.ok
    refine ⟨t, done, ?_⟩
    rw [heap]
    exact .of_alone idle following.serving

/--
On the traces of `gen_coalescing.pl` the heap of `mm.c` stops growing in the first turn, however many turns there are.

The driver finds nothing wrong, and the bound allows two extensions of the initial heap.
-/
theorem mm_coalesces {blkSize : Nat} (ok : Base base) (positive : 1 ≤ blkSize)
    (room : 24 + 4096 + 2 * max (Explicit.blockSize blkSize) 4096 ≤ maxHeap)
    (small : base + maxHeap + 2 * blkSize + 4096 < 2 ^ 32) :
    ∃ heapsize ≤ 24 + 4096 + 2 * max (Explicit.blockSize blkSize) 4096, ∀ numIters ≥ 1, ∀ h trace, Over base h →
      trace.numIds = 3 * numIters → trace.ops = coalescingOps blkSize numIters →
      trace.blocks.length = trace.numIds → trace.blockSizes.length = trace.numIds →
      Succeeds base h trace (2 * blkSize) heapsize := by
  have most : maxHeap = 20971520 := rfl
  have rounded : blkSize ≤ Explicit.blockSize blkSize := by
    unfold Explicit.blockSize
    omega
  -- The first turn extends the heap.
  obtain ⟨h₀, fresh, _⟩ := Explicit.mmInit_holds ok (fun _ => 0) { heapListp := 0, freeListp := 0 }
  have start := Serving.start ok fresh
  have brk₀ : (initial base).brk = base + 24 + 4096 := rfl
  obtain ⟨w₁, a₁, done₁, idle₁, room₁, _, most₁⟩ := coalescing_turn (i := 0) start positive (.inr (by simp only; omega))
    (by omega) small
  simp only [brk₀] at most₁
  refine ⟨a₁.1.brk - base, by omega, fun numIters some_ h trace area ids ops length length' => ?_⟩
  -- After the first turn there is room for all the others.
  obtain ⟨w₂, a₂, done₂, idle₂, brk₂⟩ := coalescing_turns ((List.range (numIters - 1)).map (· + 1)) idle₁ positive
    room₁ (by omega) small
  have turns : List.range numIters = 0 :: (List.range (numIters - 1)).map (· + 1) := by
    rw [← List.range_succ_eq_map, Nat.sub_add_cancel some_]
  have replayed : lifoReplay base trace.ops = some (.ok a₂) := by
    unfold lifoReplay
    rw [ops, coalescingOps_eq, turns, List.flatMap_cons, interpret_append done₁]
    exact done₂
  -- The file is a valid trace, since its ids are in range and its requests in order.
  have fits := coalescingOps_fits numIters positive
  rw [← ops] at fits
  have valid : trace.Valid := by
    refine ⟨length, length', ?_⟩
    have proper := (coalescingOps_proper blkSize numIters).1
    rw [← ops] at proper
    exact proper.valid (fun op member => ids ▸ (fits op member).1) fun op member real =>
      ⟨(fits op member).2.2.1 real, by have := (fits op member).2.1; omega⟩
  have succeeds := Succeeds.of_replay ok area valid (fun op member _ => by have := (fits op member).2.1; omega)
    (fun op member type => absurd type (fits op member).2.2.2) replayed idle₂
  -- Two of the blocks, or the third one, are the most that is held.
  have peak : trace.peak = 2 * blkSize := by
    unfold Trace.peak
    rw [ops, coalescingOps_eq, coalescing_peak, turns, if_neg (List.cons_ne_nil _ _)]
  rw [← peak, ← brk₂]
  exact succeeds

/-- The requests of `gen_coalescing.pl`, for any number of turns. -/
theorem mm_coalesces_sample : ∃ heapsize ≤ 24 + 4096 + 2 * max (Explicit.blockSize 4095) 4096,
    ∀ numIters ≥ 1, ∀ h trace, Over 8 h → trace.numIds = 3 * numIters → trace.ops = coalescingOps 4095 numIters →
      trace.blocks.length = trace.numIds → trace.blockSizes.length = trace.numIds →
      Succeeds 8 h trace (2 * 4095) heapsize :=
  mm_coalesces base_eight (by decide) (by decide) (by decide)

end MallocLab.Traces
