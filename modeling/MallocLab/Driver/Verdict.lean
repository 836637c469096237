import MallocLab.Driver.Accepts
import MallocLab.Explicit.Contents

/-! Which correct allocators the validity check of `mdriver.c` accepts, with `mm.c` as an example. -/

namespace MallocLab.Driver

variable {γ : Type} {A : Allocator γ} {ok : Heap γ → Call → Prop} {I : World γ → Prop} {w next : World γ} {ids : Ids}
variable {s : Session γ} {op : TraceOp} {allocated : List Nat} {numIds r : Nat}

/-- The allocator keeps its promises to every client in the states of `I`. -/
structure Dependable (A : Allocator γ) (ok : Heap γ → Call → Prop) (I : World γ → Prop) : Prop where
  serves : ∀ {w c}, I w → w.Legal c → ok w.heap c →
    ∃ next r, w.call A c = some (next, r) ∧ Upholds w c next r ∧ I next ∧
      ∀ p n k, c = .realloc p n → r ≠ null → (p, k) ∈ w.live →
        ∀ i < min k n, next.heap.mem (r + i) = w.heap.mem (p + i)
  written : ∀ {w m}, I w →
    (∀ x, (∀ entry ∈ w.live, ¬ (entry.1 ≤ x ∧ x < entry.1 + entry.2)) → m x = w.heap.mem x) →
    I { w with heap := { w.heap with mem := m } }

/-- Every request of a trace meets `ok`, and none is refused. -/
def granted (A : Allocator γ) (ok : Heap γ → Call → Prop) [∀ h c, Decidable (ok h c)] :
    World γ → Ids → List TraceOp → Bool
  | _, _, [] => true
  | w, ids, op :: ops =>
    match w.call A (op.call ids) with
    | none => false
    | some (next, r) => ok w.heap (op.call ids) && (op.type = .free || r ≠ null) &&
        granted A ok (op.filled next r) (op.moved ids r) ops

/-- A valid request is a legal call of the client whose blocks the check knows about. -/
theorem Agrees.legal (agrees : Agrees numIds w ids allocated s) (valid : op.Valid numIds allocated) :
    w.Legal (op.call ids) := by
  have most : maxRequest = 4294967280 := rfl
  obtain ⟨type, index, size⟩ := op
  -- A size that is a positive `int` is below the largest request.
  cases type with
  | alloc =>
    obtain ⟨positive, int⟩ := valid.size (by simp)
    exact ⟨positive, by show size ≤ _; simp only at int; omega⟩
  | free => exact ⟨_, agrees.live index (valid.known (by simp))⟩
  | realloc =>
    obtain ⟨positive, int⟩ := valid.size (by simp)
    exact ⟨⟨_, agrees.live index (valid.known (by simp))⟩, positive, by show size ≤ _; simp only at int; omega⟩

/-- After a request that is served correctly the check still knows about all blocks. -/
theorem Agrees.goesOn (agrees : Agrees numIds w ids allocated s) (valid : op.Valid numIds allocated)
    (serves : Serves A w ids op next r) :
    ∃ s', Agrees numIds (op.filled next r) (op.moved ids r) (op.allocated allocated) s' := by
  cases type : op.type with
  | alloc =>
    obtain ⟨s', (_ : evalOp A 0 0 s op = _), agrees'⟩ := agrees.alloc type valid serves
    exact ⟨s', agrees'⟩
  | free =>
    obtain ⟨s', (_ : evalOp A 0 0 s op = _), agrees'⟩ := agrees.free type valid serves
    exact ⟨s', agrees'⟩
  | realloc =>
    obtain ⟨s', _, agrees'⟩ := agrees.replace type valid serves
    exact ⟨s', agrees'⟩

/-- What the driver writes stays inside the payload that a request has returned. -/
theorem Dependable.filled (dependable : Dependable A ok I) (serves : Serves A w ids op next r) (holds : I next) :
    I (op.filled next r) := by
  -- A free fills nothing.
  by_cases request : op.type = .free
  · have same : op.filled next r = next := by simp [TraceOp.filled, request]
    rw [same]
    exact holds
  · rw [TraceOp.filled_eq request]
    refine dependable.written holds fun x outside => fillBytes_other ?_
    -- The pointer that was returned is live, with the size of the request.
    have member : (r, op.size) ∈ next.live := by
      have returned := serves.returned
      have real := serves.real request
      obtain ⟨type, index, size⟩ := op
      cases type with
      | free => exact absurd rfl request
      | alloc => rw [(call_malloc returned real).2]; exact List.mem_cons_self
      | realloc => rw [(call_realloc returned real).2]; exact List.mem_cons_self
    have clear := outside (r, op.size) member
    simp only at clear
    omega

/-- A dependable allocator serves every valid trace correctly on which no request is refused. -/
theorem Dependable.correct [∀ h c, Decidable (ok h c)] (dependable : Dependable A ok I) {ops : List TraceOp}
    (holds : I w) (agrees : Agrees numIds w ids allocated s) (valid : ValidOps numIds allocated ops)
    (grants : granted A ok w ids ops = true) : Correct A w ids ops := by
  induction ops generalizing w ids allocated s with
  | nil => trivial
  | cons op ops ih =>
    obtain ⟨here, later⟩ := valid
    unfold granted at grants
    split at grants
    · -- A call that does not return is not granted.
      exact absurd grants (by simp)
    · rename_i next r returned
      simp only [Bool.and_eq_true, Bool.or_eq_true, decide_eq_true_eq] at grants
      obtain ⟨⟨fine, real⟩, rest⟩ := grants
      -- The allocator returns what `granted` has seen, and keeps its promises there.
      obtain ⟨next', r', done, upholds, holds', data⟩ := dependable.serves holds (agrees.legal here) fine
      obtain ⟨rfl, rfl⟩ := Prod.mk.inj (Option.some.inj (done.symm.trans returned))
      have serves : Serves A w ids op next' r' := by
        refine ⟨done, upholds, fun request => real.resolve_left request, fun type => ?_⟩
        have known := agrees.live op.index (here.known (by simp [type]))
        exact data (ids op.index).1 op.size (ids op.index).2 (TraceOp.call_of_realloc _ type)
          (real.resolve_left (by simp [type])) known
      -- The next turn of the driver passes.
      obtain ⟨s', agrees'⟩ := agrees.goesOn here serves
      exact ⟨next', r', serves, ih (dependable.filled serves holds') agrees' later rest⟩

/-- `mm.c` as the driver links it. -/
def mmPackage : Package Explicit.Statics := { Explicit.mm with mmInit := Explicit.mmInit }

/-- `mm.c` keeps its promises in every state that stands for an abstract one. -/
theorem mm_dependable (base : Nat) : Dependable Explicit.mm Explicit.NoWrap
    fun w => ∃ s, Holds (Explicit.Stands base) Shelves.blocks w s where
  serves := by
    rintro w c ⟨s, holds⟩ legal fine
    obtain ⟨next, s', r, done, _, holds', upholds⟩ := (Explicit.services base).call holds legal fine
    refine ⟨next, r, done, upholds, ⟨s', holds'⟩, ?_⟩
    -- A reallocation keeps the bytes.
    rintro p n k rfl real live i below
    obtain ⟨_, positive, small⟩ := legal
    obtain ⟨next', r', done', _, moves⟩ := Explicit.mmRealloc_moved holds live positive small fine
    obtain ⟨rfl, rfl⟩ := Prod.mk.inj (Option.some.inj (done'.symm.trans done))
    obtain ⟨_, _, _, _, moved⟩ := moves real
    -- The payload that the client asked for lies inside the block whose contents are moved.
    obtain ⟨size, ⟨b, block, here, bytes, _⟩, room⟩ := holds.owned.block p k live
    have header : getSize w.heap (hdrp p) = size := by
      rw [← here, ← bytes]
      exact holds.rep.rep.arena.size (by simp [block])
    exact moved.data i (by omega)
  -- Bytes that are written into payloads do no harm.
  written := by
    rintro w m ⟨s, rep, owned⟩ same
    refine ⟨s, (Explicit.services base).written rep fun x outside => same x fun entry member inside => ?_, owned⟩
    obtain ⟨b, block, used, _, payload⟩ := owned.payload member
    exact outside b block used (payload x inside.1 inside.2)

/-- `mm.c` serves every valid trace correctly on which no request is refused and no address wraps. -/
theorem mm_correct {base : Nat} {m : Mem} {statics : Explicit.Statics} {h : Explicit.State} {trace : Trace}
    (ok : Base base) (valid : trace.Valid) (init : Explicit.mmInit (memInit m base statics) = some (h, 0))
    (grants : granted Explicit.mm Explicit.NoWrap { heap := h, live := [] } ids trace.ops = true) :
    Correct Explicit.mm { heap := h, live := [] } ids trace.ops :=
  (mm_dependable base).correct ⟨_, Explicit.mmInit_stands ok init⟩ (Agrees.start valid) valid.ops grants

/-- A block of an id is allocated, reallocated and freed. -/
def sampleTrace (index : Nat) : Trace where
  numIds := index + 1
  ops := [{ type := .alloc, index := index, size := 8 }, { type := .realloc, index := index, size := 16 },
    { type := .free, index := index, size := 0 }]
  blocks := List.replicate (index + 1) 0
  blockSizes := List.replicate (index + 1) 0

/-- The small trace is valid with any id. -/
theorem sampleTrace_valid (index : Nat) : (sampleTrace index).Valid where
  blocks := List.length_replicate
  blockSizes := List.length_replicate
  ops := ⟨⟨by simp, Nat.lt_succ_self _, by simp⟩, ⟨by simp, Nat.lt_succ_self _, by simp [TraceOp.allocated]⟩,
    ⟨by simp, Nat.lt_succ_self _, by simp [TraceOp.allocated]⟩, trivial⟩

/-- On the sample trace `mm.c` neither refuses a request nor wraps an address. -/
theorem sampleTrace_correct (index : Nat) (seen : (Explicit.mmInit Explicit.zeroed).map (fun (h, code) =>
      (code, granted Explicit.mm Explicit.NoWrap { heap := h, live := [] } (fun _ => (0, 0))
        (sampleTrace index).ops)) = some (0, true)) :
    ∃ h, Explicit.mmInit Explicit.zeroed = some (h, 0) ∧
      Correct Explicit.mm { heap := h, live := [] } (fun _ => (0, 0)) (sampleTrace index).ops := by
  obtain ⟨⟨h, code⟩, init, same⟩ := Option.map_eq_some_iff.mp seen
  obtain ⟨rfl, grants⟩ := Prod.mk.inj same
  exact ⟨h, init, mm_correct base_eight (sampleTrace_valid index) init grants⟩

/-- The check accepts a correct allocator exactly when no reallocated id has a low byte from 128 on. -/
theorem driver_accepts {A : Package γ} {h h' : Heap γ} {code : Int} {trace : Trace} {ids : Ids} (tracenum : Nat)
    (valid : trace.Valid) (init : A.mmInit (memResetBrk h) = some (h', code)) (success : ¬ code < 0)
    (correct : Correct A.toAllocator { heap := h', live := [] } ids trace.ops) :
    evalMmValid A h trace tracenum = some (1, []) ↔
      ∀ op ∈ trace.ops, op.type = .realloc → op.index % 256 < 128 := by
  have judged : Judged A.toAllocator tracenum 0 _ trace.ops := (Agrees.start valid).judged valid.ops correct
  unfold evalMmValid
  -- The loop's verdict is that of the whole check, once the initialization has succeeded.
  rcases judged with ⟨⟨s', done⟩, all⟩ | ⟨⟨report, done⟩, bad, member, which, high⟩
  · simp only [init, Option.bind_eq_bind, Option.bind_some, success, if_false, done]
    exact iff_of_true rfl all
  · simp only [init, Option.bind_eq_bind, Option.bind_some, success, if_false, done]
    refine iff_of_false (fun accepted => ?_) fun all => high (all bad member which)
    exact absurd (Prod.mk.inj (Option.some.inj accepted)).1 (by decide)

/-- With id zero the driver accepts it. -/
theorem driver_accepts_sample : evalMmValid mmPackage Explicit.zeroed (sampleTrace 0) 0 = some (1, []) := by
  obtain ⟨h, init, correct⟩ := sampleTrace_correct 0 (by decide +kernel)
  have reset : memResetBrk Explicit.zeroed = Explicit.zeroed := rfl
  have started : mmPackage.mmInit (memResetBrk Explicit.zeroed) = some (h, 0) := reset ▸ init
  exact (driver_accepts 0 (sampleTrace_valid 0) started (by decide) correct).mpr (by simp [sampleTrace])

/-- `mm.c` serves the request for id 128 correctly, but the driver says that it does not. -/
theorem driver_rejects : (sampleTrace 128).Valid ∧
    (∃ h, Explicit.mmInit (memResetBrk Explicit.zeroed) = some (h, 0) ∧
      Correct mmPackage.toAllocator { heap := h, live := [] } (fun _ => (0, 0)) (sampleTrace 128).ops) ∧
    evalMmValid mmPackage Explicit.zeroed (sampleTrace 128) 0 =
      some (0, [{ tracenum := 0, opnum := 1, complaint := .notPreserved }]) := by
  obtain ⟨h, init, correct⟩ := sampleTrace_correct 128 (by decide +kernel)
  exact ⟨sampleTrace_valid 128, ⟨h, init, correct⟩, by decide +kernel⟩

end MallocLab.Driver
