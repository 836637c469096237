import MallocLab.Machine.Memlib

/-! A client that calls an allocator and writes into the payloads it has been given. -/

namespace MallocLab

/-- One action of the client. -/
inductive Call
  | malloc (size : Nat)
  | free (ptr : Nat)
  | realloc (ptr size : Nat)
  | store (addr : Nat) (byte : UInt8)
deriving DecidableEq, Repr

/--
The entry points of an allocator file.

A call has no result when the code faults or never returns.
-/
structure Allocator (γ : Type) where
  mmMalloc : Heap γ → Nat → Option (Heap γ × Nat)
  mmFree : Heap γ → Nat → Option (Heap γ)
  mmRealloc : Heap γ → Nat → Nat → Option (Heap γ × Nat)

/-- The machine together with the live pointers and the sizes the client asked for. -/
structure World (γ : Type) where
  heap : Heap γ
  live : List (Nat × Nat)

/-- The live pointers once `p` is no longer one of them. -/
def dropLive (live : List (Nat × Nat)) (p : Nat) : List (Nat × Nat) :=
  live.filter fun entry => entry.1 != p

variable {γ : Type}

/-- What one action does, and the pointer it returns; actions without a result return null. -/
def World.call (A : Allocator γ) (w : World γ) : Call → Option (World γ × Nat)
  | .malloc size => do
    let (h, p) ← A.mmMalloc w.heap size
    if p = null then return ({ w with heap := h }, null)
    return ({ heap := h, live := (p, size) :: w.live }, p)
  | .free ptr => do
    let h ← A.mmFree w.heap ptr
    return ({ heap := h, live := dropLive w.live ptr }, null)
  | .realloc ptr size => do
    let (h, p) ← A.mmRealloc w.heap ptr size
    if p = null then return ({ w with heap := h }, null)
    return ({ heap := h, live := (p, size) :: dropLive w.live ptr }, p)
  | .store addr byte =>
    some ({ w with heap := { w.heap with mem := storeByte w.heap.mem addr byte } }, null)

/-- The largest request whose block size is still a word, `2^32 - 16`. -/
def maxRequest : Nat := 2 ^ 32 - 16

/-- The client asks for positive sizes, passes live pointers, and writes inside live payloads. -/
def World.Legal (w : World γ) : Call → Prop
  | .malloc size => 1 ≤ size ∧ size ≤ maxRequest
  | .free ptr => ∃ size, (ptr, size) ∈ w.live
  | .realloc ptr size => (∃ old, (ptr, old) ∈ w.live) ∧ 1 ≤ size ∧ size ≤ maxRequest
  | .store addr _ => ∃ ptr size, (ptr, size) ∈ w.live ∧ ptr ≤ addr ∧ addr < ptr + size

/-- The number of bytes an action asks for. -/
def Call.request : Call → Option Nat
  | .malloc size => some size
  | .realloc _ size => some size
  | _ => none

/-- The blocks that stay live during an action and are not its argument. -/
def World.others (w : World γ) : Call → List (Nat × Nat)
  | .free ptr => dropLive w.live ptr
  | .realloc ptr _ => dropLive w.live ptr
  | _ => w.live

/-- What an allocator owes its client for one action that returned `r`. -/
structure Upholds (w : World γ) (c : Call) (next : World γ) (r : Nat) : Prop where
  aligned : ∀ n, c.request = some n → r ≠ null → r % 8 = 0
  inside : ∀ n, c.request = some n → r ≠ null →
    memHeapLo next.heap ≤ r ∧ r + n - 1 ≤ memHeapHi next.heap
  disjoint : ∀ n, c.request = some n → r ≠ null →
    ∀ other ∈ w.others c, r + n ≤ other.1 ∨ other.1 + other.2 ≤ r
  preserved : (∀ addr byte, c ≠ .store addr byte) →
    ∀ other ∈ w.others c, ∀ x, other.1 ≤ x → x < other.1 + other.2 → next.heap.mem x = w.heap.mem x

/-- A run of legal actions that also meet `ok`, with the pointers they return. -/
inductive Run (A : Allocator γ) (ok : Heap γ → Call → Prop) :
    World γ → List Call → List Nat → World γ → Prop
  /-- The client may stop at any time. -/
  | nil (w : World γ) : Run A ok w [] [] w
  /-- One more action before the rest of the run. -/
  | cons {w next last : World γ} {c : Call} {r : Nat} {cs : List Call} {rs : List Nat}
      (legal : w.Legal c) (fine : ok w.heap c) (step : w.call A c = some (next, r))
      (rest : Run A ok next cs rs last) : Run A ok w (c :: cs) (r :: rs) last

variable {A : Allocator γ} {ok : Heap γ → Call → Prop}

/-- A property that every action preserves holds at the end of every run that starts with it. -/
theorem Run.invariant {I : World γ → Prop}
    (preserved : ∀ w c next r, I w → w.Legal c → ok w.heap c → w.call A c = some (next, r) → I next)
    {w last : World γ} {cs : List Call} {rs : List Nat} (run : Run A ok w cs rs last)
    (start : I w) : I last := by
  induction run with
  | nil w => exact start
  | cons legal fine step _ ih => exact ih (preserved _ _ _ _ start legal fine step)

/-- A run is a run of every allocator that does the same wherever this one returns. -/
theorem Run.extend {B : Allocator γ}
    (same : ∀ (w : World γ) c result, w.call A c = some result → w.call B c = some result) {w last : World γ} {cs : List Call} {rs : List Nat} (run : Run A ok w cs rs last) : Run B ok w cs rs last := by
  induction run with
  | nil w => exact .nil w
  | cons legal fine step _ ih => exact .cons legal fine (same _ _ _ step) ih

/-- Whether an action is legal can be decided from the live pointers. -/
instance (w : World γ) (c : Call) : Decidable (w.Legal c) :=
  match c with
  | .malloc size => inferInstanceAs (Decidable (1 ≤ size ∧ size ≤ maxRequest))
  | .free ptr => decidable_of_iff (∃ entry ∈ w.live, entry.1 = ptr)
      ⟨fun ⟨entry, member, here⟩ => ⟨entry.2, here ▸ member⟩, fun ⟨_, member⟩ => ⟨_, member, rfl⟩⟩
  | .realloc ptr size => decidable_of_iff ((∃ entry ∈ w.live, entry.1 = ptr) ∧ 1 ≤ size ∧ size ≤ maxRequest)
      (and_congr_left fun _ => ⟨fun ⟨entry, member, here⟩ => ⟨entry.2, here ▸ member⟩,
        fun ⟨_, member⟩ => ⟨_, member, rfl⟩⟩)
  | .store addr _ => decidable_of_iff (∃ entry ∈ w.live, entry.1 ≤ addr ∧ addr < entry.1 + entry.2)
      ⟨fun ⟨entry, member, here⟩ => ⟨entry.1, entry.2, member, here⟩,
        fun ⟨ptr, size, member, here⟩ => ⟨(ptr, size), member, here⟩⟩

/-- Carries out a list of actions, as long as they are legal, meet `ok` and return. -/
def World.perform (A : Allocator γ) (ok : Heap γ → Call → Prop) [∀ h c, Decidable (ok h c)]
    (w : World γ) : List Call → Option (World γ × List Nat)
  | [] => some (w, [])
  | c :: cs =>
    if w.Legal c ∧ ok w.heap c then
      (w.call A c).bind fun (next, r) => (next.perform A ok cs).map fun (last, rs) => (last, r :: rs)
    else none

/-- Actions that can be carried out are a run. -/
theorem World.perform_run [∀ h c, Decidable (ok h c)] {w last : World γ} {cs : List Call}
    {rs : List Nat} (played : w.perform A ok cs = some (last, rs)) : Run A ok w cs rs last := by
  induction cs generalizing w rs with
  | nil =>
    obtain ⟨rfl, rfl⟩ := Prod.mk.inj (Option.some.inj played)
    exact .nil w
  | cons c cs ih =>
    unfold World.perform at played
    split at played
    · -- The first action is legal and returns, and the others are a run from where it leads.
      rename_i here
      obtain ⟨⟨next, r⟩, step, played⟩ := Option.bind_eq_some_iff.mp played
      obtain ⟨⟨last', rs'⟩, rest, same⟩ := Option.map_eq_some_iff.mp played
      obtain ⟨rfl, rfl⟩ := Prod.mk.inj same
      exact .cons here.1 here.2 step (ih rest)
    · simp at played

/-- What can be seen of some actions after an initialization: its result, theirs, and a last test. -/
def trial (A : Allocator γ) (ok : Heap γ → Call → Prop) [∀ h c, Decidable (ok h c)]
    (init : Option (Heap γ × Int)) (cs : List Call) (test : World γ → Bool) :
    Option (Int × List Nat × Bool) :=
  init.bind fun (h, code) =>
    (World.perform A ok { heap := h, live := [] } cs).map fun (last, rs) => (code, rs, test last)

/-- A trial stands for a run from the state after initialization. -/
theorem trial_run [∀ h c, Decidable (ok h c)] {init : Option (Heap γ × Int)} {cs : List Call}
    {test : World γ → Bool} {code : Int} {rs : List Nat}
    (seen : trial A ok init cs test = some (code, rs, true)) :
    ∃ h last, init = some (h, code) ∧ Run A ok { heap := h, live := [] } cs rs last ∧
      test last = true := by
  obtain ⟨⟨h, code'⟩, started, seen⟩ := Option.bind_eq_some_iff.mp seen
  obtain ⟨⟨last, rs'⟩, performed, same⟩ := Option.map_eq_some_iff.mp seen
  simp only [Prod.mk.injEq] at same
  obtain ⟨rfl, rfl, passed⟩ := same
  exact ⟨h, last, started, World.perform_run performed, passed⟩

/-- The results of a deterministic machine over a list of actions, and the state it ends in. -/
def play {σ : Type} (move : σ → Call → σ × Nat) : σ → List Call → σ × List Nat
  | s, [] => (s, [])
  | s, c :: cs =>
    let (last, results) := play move (move s c).1 cs
    (last, (move s c).2 :: results)

/-- What every action keeps still holds after a list of actions. -/
theorem play_invariant {σ : Type} {move : σ → Call → σ × Nat} {I : σ → Prop}
    (preserved : ∀ s c, I s → I (move s c).1) {s : σ} (start : I s) (cs : List Call) :
    I (play move s cs).1 := by
  induction cs generalizing s with
  | nil => exact start
  | cons c cs ih => exact ih (preserved s c start)

/-- When every action agrees with another machine, so do the results and the end of every run. -/
theorem Run.simulates {σ : Type} {R : World γ → σ → Prop} {move : σ → Call → σ × Nat}
    (simulated : ∀ w s c next r, R w s → w.Legal c → ok w.heap c → w.call A c = some (next, r) →
      (move s c).2 = r ∧ R next (move s c).1)
    {w last : World γ} {cs : List Call} {rs : List Nat} (run : Run A ok w cs rs last)
    {s : σ} (start : R w s) : (play move s cs).2 = rs ∧ R last (play move s cs).1 := by
  -- The two machines take one action each, and stay related.
  induction run generalizing s with
  | nil w => exact ⟨rfl, start⟩
  | cons legal fine step _ ih =>
    obtain ⟨same, related⟩ := simulated _ s _ _ _ start legal fine step
    obtain ⟨results, final⟩ := ih related
    exact ⟨by simp [play, same, results], final⟩

end MallocLab
