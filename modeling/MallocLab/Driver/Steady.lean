import MallocLab.Client.Lockstep
import MallocLab.Driver.Serving
import MallocLab.Driver.Turns
import MallocLab.Skeleton.Delivery

/-! How the evaluations of `mdriver.c` end on any allocator that keeps an invariant of its own. -/

namespace MallocLab.Driver

open Skeleton (Delivers NoWrap Parts Policy)

/-- The filler of an id that is reallocated is not negative as a `char`, so the check can recognize it. -/
def TraceOp.Legible (op : TraceOp) : Prop := op.type = .realloc → op.index % 256 < 128

/-- The check passes the trace, or it reports a request that the allocator has refused. -/
def PassesOrRefuses {γ : Type} (A : Package γ) (h : Heap γ) (trace : Trace) (tracenum : Nat) : Prop :=
  evalMmValid A h trace tracenum = some (1, []) ∨
    ∃ opnum op, trace.ops[opnum]? = some op ∧ op.type ≠ .free ∧ evalMmValid A h trace tracenum =
      some (0, [{ tracenum := tracenum, opnum := opnum, complaint := refusal op.type }])

/-- The other two evaluations end, and the utilization is the peak of the trace over the size of the heap. -/
def EndsProperly {γ : Type} (A : Package γ) (h : Heap γ) (trace : Trace) : Prop :=
  Ends (fun message => ∃ type, UtilFailure message type)
    (fun u : Usage γ =>
      u.maxTotalSize = trace.peak ∧ trace.peak ≤ memHeapsize u.heap ∧ memHeapsize u.heap ≤ maxHeap)
    (evalMmUtil A h trace) ∧
  Ends (fun message => ∃ type, SpeedFailure message type) (fun _ => True) (evalMmSpeed A h trace)

/-- On valid traces of small requests that suit, the driver finds nothing wrong with the allocator but refusals. -/
def OnlyRefuses {γ : Type} (A : Package γ) (base : Nat) (suits : TraceOp → Prop) : Prop :=
  ∀ (h : Heap γ) (trace : Trace) (tracenum : Nat), Over base h → trace.Valid → (∀ op ∈ trace.ops, op.Small base) →
    (∀ op ∈ trace.ops, suits op) → PassesOrRefuses A h trace tracenum

/-- On such traces it can always be scored. -/
def Scored {γ : Type} (A : Package γ) (base : Nat) (suits : TraceOp → Prop) : Prop :=
  ∀ (h : Heap γ) (trace : Trace), Over base h → trace.Valid → (∀ op ∈ trace.ops, op.Small base) →
    (∀ op ∈ trace.ops, suits op) → EndsProperly A h trace

/-- An allocator keeps an invariant under which every call returns, and the client has its bytes inside the area. -/
structure Steady {γ : Type} (A : Package γ) (base : Nat) (suits : TraceOp → Prop) (ok : Heap γ → Call → Prop)
    (I : World γ → Prop) : Prop where
  starts : ∀ m statics, ∃ h, A.mmInit (memInit m base statics) = some (h, 0) ∧ I { heap := h, live := [] }
  fine : ∀ {w ids allocated numIds op}, I w → op.Valid numIds allocated → op.Small base → suits op →
    ok w.heap (op.call ids)
  returns : ∀ {w c}, I w → w.Legal c → ok w.heap c →
    ∃ next r, w.call A.toAllocator c = some (next, r) ∧ I next ∧ w.heap.memBrk ≤ next.heap.memBrk
  start : ∀ {w}, I w → w.heap.memStartBrk = base
  inside : ∀ {w}, I w → w.heap.memBrk ≤ base + maxHeap
  nodup : ∀ {w}, I w → (w.live.map Prod.fst).Nodup
  fits : ∀ {w}, I w → base + (w.live.map Prod.snd).sum ≤ w.heap.memBrk

section

variable {γ : Type} {A : Package γ} {ok : Heap γ → Call → Prop} {I : World γ → Prop} {suits : TraceOp → Prop}
variable {w : World γ} {ids : Ids} {s : Session γ} {h : Heap γ} {op : TraceOp} {ops : List TraceOp} {trace : Trace}
variable {allocated : List Nat} {base numIds tracenum opnum r : Nat} {next : World γ}

/-- A request that is served correctly passes the check when its filler is legible. -/
theorem Agrees.passed {A : Allocator γ} (agrees : Agrees numIds w ids allocated s) (valid : op.Valid numIds allocated)
    (serves : Serves A w ids op next r) (legible : op.Legible) :
    ∃ s', evalOp A tracenum opnum s op = some (.ok s') ∧
      Agrees numIds (op.filled next r) (op.moved ids r) (op.allocated allocated) s' := by
  cases type : op.type with
  | alloc => exact agrees.alloc type valid serves
  | free => exact agrees.free type valid serves
  | realloc => exact (agrees.realloc type valid serves).1 (legible type)

/-- The check follows a dependable allocator through a trace, up to the first request that it refuses. -/
theorem Dependable.follows {A : Allocator γ} (dependable : Dependable A ok I)
    (fine : ∀ {w ids allocated op}, I w → op ∈ ops → op.Valid numIds allocated → ok w.heap (op.call ids))
    (legible : ∀ op ∈ ops, op.Legible) (holds : I w) (agrees : Agrees numIds w ids allocated s)
    (valid : ValidOps numIds allocated ops) :
    (∃ s', evalOps A tracenum opnum s ops = some (.ok s')) ∨
      ∃ k op, ops[k]? = some op ∧ op.type ≠ .free ∧ evalOps A tracenum opnum s ops =
        some (.error { tracenum := tracenum, opnum := opnum + k, complaint := refusal op.type }) := by
  -- The invariants of the allocator and of the check hold before every request that is reached.
  induction ops generalizing w ids allocated s opnum with
  | nil => exact .inl ⟨s, rfl⟩
  | cons op ops ih =>
    obtain ⟨here, later⟩ := valid
    obtain ⟨next, r, returned, upholds, holds', data⟩ :=
      dependable.serves holds (agrees.legal here) (fine holds List.mem_cons_self here)
    -- The request is refused, and it is the one that the report names.
    by_cases refused : op.type ≠ .free ∧ r = null
    · obtain ⟨request, rfl⟩ := refused
      exact .inr ⟨0, op, rfl, request, bind_step (agrees.refused here request returned) rfl⟩
    · -- It is served, so the check passes and the invariants go on.
      have serves : Serves A w ids op next r := by
        have real : op.type ≠ .free → r ≠ null := fun request null_ => refused ⟨request, null_⟩
        refine ⟨returned, upholds, real, fun type => ?_⟩
        have known := agrees.live op.index (here.known (by simp [type]))
        exact data _ op.size _ (TraceOp.call_of_realloc _ type) (real (by simp [type])) known
      obtain ⟨s', passed, agrees'⟩ := agrees.passed here serves (legible op List.mem_cons_self)
      -- The rest of the trace decides.
      rcases ih (fun holds member => fine holds (List.mem_cons_of_mem _ member))
        (fun op member => legible op (List.mem_cons_of_mem _ member)) (dependable.filled serves holds') agrees' later
        with ⟨last, done⟩ | ⟨k, culprit, place, request, failed⟩
      · exact .inl ⟨last, bind_step passed done⟩
      · refine .inr ⟨k + 1, culprit, place, request, ?_⟩
        rw [← Nat.add_assoc, Nat.add_right_comm]
        exact bind_step passed failed

/-- So the check reports nothing but a refusal. -/
theorem Steady.onlyRefuses (steady : Steady A base suits ok I) (dependable : Dependable A.toAllocator ok I)
    (legible : ∀ op, suits op → op.Legible) : OnlyRefuses A base suits := by
  intro h trace tracenum area valid small suit
  obtain ⟨h', init, holds⟩ := steady.starts h.mem h.statics
  -- `mm_init` has set up the heap, and the tables are empty.
  rw [← area.reset] at init
  have agrees : Agrees trace.numIds { heap := h', live := [] } (fun _ => (0, 0)) [] _ := Agrees.start valid
  have follows : _ ∨ ∃ k, ∃ op : TraceOp, trace.ops[k]? = some op ∧ op.type ≠ .free ∧
      evalOps A.toAllocator tracenum 0 _ trace.ops = _ :=
    dependable.follows (fun holds member here => steady.fine holds here (small _ member) (suit _ member))
      (fun op member => legible op (suit op member)) holds agrees valid.ops
  -- The verdict is how the loop has ended.
  unfold PassesOrRefuses evalMmValid
  rcases follows with ⟨s', done⟩ | ⟨opnum, op, place, request, failed⟩
  · -- Every request has passed.
    refine .inl ?_
    simp only [init, Option.bind_eq_bind, Option.bind_some, done]
    rfl
  · -- The request with this number is refused.
    refine .inr ⟨opnum, op, place, request, ?_⟩
    simp only [init, Option.bind_eq_bind, Option.bind_some, failed, Nat.zero_add]
    rfl

/-- What an evaluation knows about a steady allocator and the trace between two requests. -/
structure Running (base numIds : Nat) (suits : TraceOp → Prop) (I : World γ → Prop) (tags : List Tag) (w : World γ)
    (ids : Ids) (allocated : List Nat) (ops : List TraceOp) : Prop where
  holds : I w
  ledger : Ledger tags w.live ids allocated
  valid : ValidOps numIds allocated ops
  small : ∀ op ∈ ops, op.Small base
  suit : ∀ op ∈ ops, suits op

/-- The next request returns, and when it is served the evaluation knows as much about the rest of the trace. -/
theorem Running.turn {tags : List Tag} (steady : Steady A base suits ok I)
    (running : Running base numIds suits I tags w ids allocated (op :: ops)) :
    ∃ next r, w.call A.toAllocator (op.call ids) = some (next, r) ∧
      ((op.type ≠ .free → r ≠ null) → w.heap.memBrk ≤ next.heap.memBrk ∧ next.heap.memBrk ≤ base + maxHeap ∧
        ∃ tags', heldOf tags' = op.heldAfter (heldOf tags) ∧ base + totalHeld (heldOf tags') ≤ next.heap.memBrk ∧
          Running base numIds suits I tags' next (op.moved ids r) (op.allocated allocated) ops) := by
  obtain ⟨holds, ledger, ⟨valid, later⟩, small, suit⟩ := running
  obtain ⟨next, r, returned, holds', grows⟩ := steady.returns holds (ledger.legal valid)
    (steady.fine holds valid (small op List.mem_cons_self) (suit op List.mem_cons_self))
  -- The heap grows by the call, and the ledger follows the request.
  refine ⟨next, r, returned, fun real => ⟨grows, steady.inside holds', ?_⟩⟩
  obtain ⟨tags', ledger', held⟩ := ledger.step (steady.nodup holds) valid returned real
  refine ⟨tags', held, ledger'.total ▸ steady.fits holds', holds', ledger', later, ?_, ?_⟩
  · exact fun op member => small op (List.mem_cons_of_mem _ member)
  · exact fun op member => suit op (List.mem_cons_of_mem _ member)

/-- Before the first request it knows that nothing is allocated. -/
theorem Running.start (holds : I { heap := h, live := [] }) (valid : trace.Valid)
    (small : ∀ op ∈ trace.ops, op.Small base) (suit : ∀ op ∈ trace.ops, suits op) :
    Running base trace.numIds suits I [] { heap := h, live := [] } (fun _ => (0, 0)) [] trace.ops :=
  ⟨holds, ⟨rfl, by simp⟩, valid.ops, small, suit⟩

/-- A loop on a steady allocator, while these requests are still to come. -/
def Going {S : Type} (base numIds : Nat) (suits : TraceOp → Prop) (I : World γ → Prop)
    (knows : List Tag → World γ → Ids → List Nat → List TraceOp → S → Prop) (ops : List TraceOp) (s : S) : Prop :=
  ∃ tags w ids allocated, Running base numIds suits I tags w ids allocated ops ∧ knows tags w ids allocated ops s

/-- A turn of such a loop fails with the message for a refused request, or the loop goes on. -/
theorem Evaluates.turn {S : Type} {turn : S → TraceOp → Option (Except String S)} {s : S}
    {failure : String → OpType → Prop} {knows : List Tag → World γ → Ids → List Nat → List TraceOp → S → Prop}
    (evaluates : Evaluates A.toAllocator base numIds turn failure knows) (steady : Steady A base suits ok I)
    (going : Going base numIds suits I knows (op :: ops) s) :
    Ends (fun message => ∃ type, failure message type) (Going base numIds suits I knows ops) (turn s op) := by
  obtain ⟨tags, w, ids, allocated, running, known⟩ := going
  obtain ⟨next, r, returned, onward⟩ := running.turn steady
  -- The loop stops with its message.
  by_cases refused : op.type ≠ .free ∧ r = null
  · obtain ⟨request, rfl⟩ := refused
    obtain ⟨message, failed, fails⟩ := evaluates.refused known running.valid.1 request returned
    rw [failed]
    exact .failed ⟨_, fails⟩
  · -- The request is served, and the rest of the trace is as before.
    have real : op.type ≠ .free → r ≠ null := fun request null_ => refused ⟨request, null_⟩
    obtain ⟨grows, inside, tags', held, fits, running'⟩ := onward real
    obtain ⟨s', passed, known'⟩ :=
      evaluates.served known running.ledger running.valid.1 returned real held fits grows inside
    rw [passed]
    exact .done ⟨tags', next, _, _, running', known'⟩

/-- So the loop ends with such a message, or with what it knows at the end of the trace. -/
theorem Evaluates.ends {S : Type} {turn : S → TraceOp → Option (Except String S)} {s : S}
    {failure : String → OpType → Prop} {knows : List Tag → World γ → Ids → List Nat → List TraceOp → S → Prop}
    (evaluates : Evaluates A.toAllocator base numIds turn failure knows) (steady : Steady A base suits ok I)
    (going : Going base numIds suits I knows ops s) :
    Ends (fun message => ∃ type, failure message type) (Going base numIds suits I knows []) (interpret turn s ops) := by
  have turns : ∀ {op ops s}, Going base numIds suits I knows (op :: ops) s →
      Ends (fun message => ∃ type, failure message type) (Going base numIds suits I knows ops) (turn s op) :=
    fun going => evaluates.turn steady going
  exact interpret_ends turns going

/-- At the end no request is left, so the peak has been reached. -/
theorem Metered.finished {peak : Nat} {u : Usage γ} {tags : List Tag} (real : Base base)
    (steady : Steady A base suits ok I) (running : Running base numIds suits I tags w ids allocated [])
    (metered : Metered base numIds peak tags w ids allocated [] u) :
    u.maxTotalSize = peak ∧ peak ≤ memHeapsize u.heap ∧ memHeapsize u.heap ≤ maxHeap := by
  -- The counters are those of the requests, and nothing is left to come.
  obtain ⟨bytes, least, room, reaches⟩ := metered.counted
  have most : max u.maxTotalSize (0 : Int) = peak := reaches
  have start := steady.start running.holds
  have inside := steady.inside running.holds
  have fits := real.fits
  have size : memHeapsize u.heap = w.heap.memBrk - base := by
    -- The size of the heap is what lies between the start of the area and the break.
    rw [metered.heap]
    unfold memHeapsize
    rw [sub32_eq (by omega) (by omega), start]
  exact ⟨by omega, by omega, by omega⟩

/-- So the other two evaluations of a steady allocator end as they should. -/
theorem Steady.scored (real : Base base) (steady : Steady A base suits ok I) : Scored A base suits := by
  intro h trace area valid small suit
  obtain ⟨h', init, holds⟩ := steady.starts h.mem h.statics
  -- The evaluations start from the heap of `mm_init`, with no block held.
  rw [← area.reset] at init
  have running : Running base trace.numIds suits I [] _ (fun _ => (0, 0)) [] trace.ops := .start holds valid small suit
  constructor
  · -- The first evaluation is a loop over the requests.
    have loop : evalMmUtil A h trace = interpret (utilTurn A.toAllocator)
        { heap := h', blocks := trace.blocks, blockSizes := trace.blockSizes, totalSize := 0, maxTotalSize := 0 }
        trace.ops := bind_step init (if_neg (by decide))
    have first : base + 0 ≤ h'.memBrk := steady.fits holds
    -- At the start nothing has been counted.
    have start : Going base trace.numIds suits I (Metered base trace.numIds trace.peak) trace.ops
        { heap := h', blocks := trace.blocks, blockSizes := trace.blockSizes, totalSize := 0, maxTotalSize := 0 } := by
      refine ⟨[], _, _, [], running, rfl, ⟨valid.blocks, by simp⟩, ⟨valid.blockSizes, by simp⟩, rfl, Int.le_refl 0, ?_,
        Int.max_eq_right (Int.natCast_nonneg _)⟩
      show (0 : Int) + (base : Nat) ≤ (h'.memBrk : Nat)
      omega
    rw [loop]
    refine (util_evaluates.ends steady start).weaken fun u going => ?_
    obtain ⟨tags, w, ids, allocated, running, metered⟩ := going
    exact metered.finished real steady running
  · -- So is the second one, which counts nothing.
    have loop : evalMmSpeed A h trace = interpret (speedTurn A.toAllocator) { heap := h', blocks := trace.blocks }
        trace.ops := bind_step init (if_neg (by decide))
    have start : Going base trace.numIds suits I (fun _ w ids allocated _ => Replays trace.numIds w ids allocated)
        trace.ops { heap := h', blocks := trace.blocks } := ⟨[], _, _, [], running, rfl, valid.blocks, by simp⟩
    rw [loop]
    exact (speed_evaluates.ends steady start).weaken fun _ _ => trivial

end

section

variable {γ σ : Type} {P : Policy σ} {base : Nat} {R : Heap γ → σ → Prop} {adjust : Nat → Nat}
variable {findFit : Heap γ → Nat → Option (Heap γ × Nat)} {place : Heap γ → Nat → Nat → Option (Heap γ × Nat)}
variable {extend : Heap γ → Nat → Option (Heap γ × Nat)} {free : Heap γ → Nat → Option (Heap γ)}
variable {oldSize : Heap γ → Nat → Nat} {A : Package γ} {ok : Heap γ → Call → Prop} {suits : TraceOp → Prop}

/-- The machine represents a state of the abstract allocator, whose break is inside the area. -/
def Inside (base : Nat) (P : Policy σ) (R : Heap γ → σ → Prop) (w : World γ) : Prop :=
  ∃ s, Holds R P.blocks w s ∧ P.brk s ≤ base + maxHeap

/--
An allocator file that is made of the parts of an abstract allocator, as the driver uses it.

Its blocks exceed the requests by a page at most.
-/
structure Linked (A : Package γ) (P : Policy σ) (base : Nat) (R : Heap γ → σ → Prop) (adjust : Nat → Nat)
    (findFit : Heap γ → Nat → Option (Heap γ × Nat)) (place : Heap γ → Nat → Nat → Option (Heap γ × Nat))
    (extend : Heap γ → Nat → Option (Heap γ × Nat)) (free : Heap γ → Nat → Option (Heap γ)) : Prop where
  parts : Parts P base R adjust findFit place extend free
  rises : P.Rises
  few : ∀ n, 1 ≤ n → n ≤ maxRequest → P.adjust n ≤ n + 4096
  start : ∀ {h s}, R h s → h.memStartBrk = base
  init : ∀ m statics, ∃ h, A.mmInit (memInit m base statics) = some (h, 0) ∧ Inside base P R { heap := h, live := [] }

/-- A small valid request of a trace does not wrap. -/
theorem Linked.noWrap (linked : Linked A P base R adjust findFit place extend free) {w : World γ} {ids : Ids}
    {op : TraceOp} {numIds : Nat} {allocated : List Nat} (holds : Inside base P R w) (valid : op.Valid numIds allocated)
    (small : op.Small base) : NoWrap adjust findFit w.heap (op.call ids) := by
  obtain ⟨s, holds, inside⟩ := holds
  have most : maxRequest = 4294967280 := rfl
  obtain ⟨type, index, size⟩ := op
  cases type with
  -- A free never asks the heap for more.
  | free => trivial
  | alloc | realloc =>
    obtain ⟨positive, int⟩ := valid.size (by simp)
    have below := small (by simp)
    simp only at positive int below
    -- The size is a word that the allocator takes.
    have legal : size ≤ maxRequest := by omega
    exact linked.parts.requestFits holds.rep inside positive legal (linked.few size positive legal) below

/-- Such a file with its services is steady. -/
theorem Linked.steady (linked : Linked A P base R adjust findFit place extend free)
    (services : Services A.toAllocator ok R P.blocks fun s c s' r => P.move (base + maxHeap) s c = (s', r))
    (narrow : ∀ {h : Heap γ} {op : TraceOp} {ids}, NoWrap adjust findFit h (op.call ids) → suits op →
      ok h (op.call ids)) : Steady A base suits ok (Inside base P R) where
  starts := linked.init
  fine holds valid small suit := narrow (linked.noWrap holds valid small) suit
  returns := by
    rintro w c ⟨s, holds, inside⟩ legal fine
    obtain ⟨next, s', r, done, moved, holds', _⟩ := services.call holds legal fine
    -- The break stays within the area.
    have moves := linked.rises.move_brk inside c
    rw [moved] at moves
    refine ⟨next, r, done, ⟨s', holds', moves.2⟩, ?_⟩
    rw [linked.parts.brk holds.rep, linked.parts.brk holds'.rep]
    exact moves.1
  start := fun ⟨_, holds, _⟩ => linked.start holds.rep
  inside := fun ⟨_, holds, inside⟩ => (linked.parts.brk holds.rep).trans_le inside
  nodup := fun ⟨_, holds, _⟩ => holds.owned.nodup
  fits := by
    rintro w ⟨s, holds, _⟩
    -- The used blocks hold what has been asked for, and the blocks tile the heap.
    obtain ⟨lo, _, _, low, tiles, _⟩ := linked.parts.tiles holds.rep
    have bytes := holds.owned.bytes_le tiles
    have start := linked.start holds.rep
    -- The tags of the blocks only add to the requests.
    have fewer : (w.live.map Prod.snd).sum ≤ (w.live.map fun entry => entry.2 + 8).sum :=
      List.sum_le_sum fun entry _ => Nat.le_add_right entry.2 8
    omega

/-- It is dependable when its calls also deliver the contents of the blocks that they move. -/
theorem Linked.dependable (linked : Linked A P base R adjust findFit place extend free)
    (services : Services A.toAllocator ok R P.blocks fun s c s' r => P.move (base + maxHeap) s c = (s', r))
    (delivers : ∀ {w s c}, Holds R P.blocks w s → w.Legal c → ok w.heap c →
      ∃ next r, w.call A.toAllocator c = some (next, r) ∧ Delivers w c next r) :
    Dependable A.toAllocator ok (Inside base P R) where
  serves := by
    rintro w c ⟨s, holds, inside⟩ legal fine
    obtain ⟨next, s', r, done, moved, holds', upholds⟩ := services.call holds legal fine
    -- What is delivered is said of the same call.
    obtain ⟨next', r', done', delivered⟩ := delivers holds legal fine
    -- The call returns only once.
    obtain ⟨rfl, rfl⟩ := Prod.mk.inj (Option.some.inj (done'.symm.trans done))
    have stays := (linked.rises.move_brk inside c).2
    rw [moved] at stays
    exact ⟨_, _, done, upholds, ⟨s', holds', stays⟩, delivered.moved⟩
  -- Bytes written into a payload are none of the bytes that the abstract state is read from.
  written := by
    rintro w m ⟨s, ⟨rep, owned⟩, inside⟩ same
    refine ⟨s, ⟨services.written rep fun x outside => same x fun entry member within_ => ?_, owned⟩, inside⟩
    obtain ⟨b, block, used, _, payload⟩ := owned.payload member
    exact outside b block used (payload x within_.1 within_.2)

/-- A file that reads the old size of a block from its header is blamed for nothing but refusals. -/
theorem Linked.onlyRefuses (linked : Linked A P base R adjust findFit place extend free)
    (services : Services A.toAllocator (NoWrap adjust findFit) R P.blocks
      fun s c s' r => P.move (base + maxHeap) s c = (s', r))
    (realloc : ∀ {h p n}, A.mmRealloc h p n =
      Skeleton.mmRealloc (Skeleton.mallocOf adjust findFit place extend) oldSize free h p n)
    (reads : ∀ {h s p size}, R h s → Occupied (P.blocks s) p size → size ≤ oldSize h p + 8) :
    OnlyRefuses A base TraceOp.Legible :=
  (linked.steady services fun fine _ => fine).onlyRefuses
    (linked.dependable services fun holds legal fine =>
      linked.parts.call_delivers services realloc reads holds legal fine)
    fun _ legible => legible

/-- On traces without reallocation the services alone are enough. -/
theorem Linked.quiet (linked : Linked A P base R adjust findFit place extend free)
    (services : Services A.toAllocator (fun h c => NoWrap adjust findFit h c ∧ c.reallocates = false) R P.blocks
      fun s c s' r => P.move (base + maxHeap) s c = (s', r)) :
    Steady A base (fun op => op.type ≠ .realloc) (fun h c => NoWrap adjust findFit h c ∧ c.reallocates = false)
        (Inside base P R) ∧
      OnlyRefuses A base fun op => op.type ≠ .realloc := by
  have steady : Steady A base (fun op => op.type ≠ .realloc)
      (fun h c => NoWrap adjust findFit h c ∧ c.reallocates = false) (Inside base P R) := by
    refine linked.steady services fun {h op ids} fine quiet => ⟨fine, ?_⟩
    obtain ⟨type, index, size⟩ := op
    cases type with
    | realloc => exact absurd rfl quiet
    | alloc => rfl
    | free => rfl
  refine ⟨steady, steady.onlyRefuses (linked.dependable services ?_) fun op quiet type => absurd type quiet⟩
  intro w s c holds legal fine
  obtain ⟨next, s', r, done, _, _, upholds⟩ := services.call holds legal fine
  -- An action that does not reallocate moves no block.
  refine ⟨next, r, done, upholds, ?_⟩
  rintro p n k rfl
  exact nomatch fine.2

end

end MallocLab.Driver
