import MallocLab.Machine.Memory

/-! The simulated memory system of `memlib.c`, over the statics of one allocator file. -/

namespace MallocLab

/-- The largest simulated heap, `MAX_HEAP` of `config.h`. -/
def maxHeap : Nat := 20 * 2 ^ 20

/-- The null pointer. -/
def null : Nat := 0

/-- The pointer `(void *)-1` that `mem_sbrk` returns when it refuses. -/
def minusOne : Nat := 2 ^ 32 - 1

/--
The whole machine state: memory, the private variables of `memlib.c`, and an allocator's statics.

`errno` and the message on `stderr` are not kept, since no allocator reads them.
-/
structure Heap (γ : Type) where
  mem : Mem
  memStartBrk : Nat
  memBrk : Nat
  memMaxAddr : Nat
  statics : γ

variable {γ : Type}

/-- `GET(p)` -/
def Heap.get (h : Heap γ) (p : Nat) : Nat := loadWord h.mem p

/-- `PUT(p, val)` -/
def Heap.put (h : Heap γ) (p val : Nat) : Heap γ := { h with mem := storeWord h.mem p val }

/-- Storing through a pointer that the code does not check; a null pointer faults. -/
def Heap.putChecked (h : Heap γ) (base p val : Nat) : Option (Heap γ) :=
  if base = null then none else some (h.put p val)

/--
`memcpy(dst, src, n)`, which faults on a null pointer unless there is nothing to copy.

Ranges that overlap or leave the area do not fault here, although C does not define such a copy.
`Copies` tells the ranges of the copy inside a call, and `memcpyStrict` faults on such ranges.
-/
def Heap.memcpy (h : Heap γ) (dst src n : Nat) : Option (Heap γ) :=
  if (dst = null ∨ src = null) ∧ n ≠ 0 then none else some { h with mem := copyBytes h.mem dst src n }

/-- What stands in the place of `memcpy`: any function of the machine and of the three arguments. -/
abbrev Memcpy (γ : Type) : Type := Heap γ → Nat → Nat → Nat → Option (Heap γ)

/--
The call comes to `memcpy(dst, src, n)` in the machine `h`.

Whatever stands in the place of `memcpy`, the call is that function's result and then the same rest.
-/
def Copies {ρ : Type} (call : Memcpy γ → Option ρ) (h : Heap γ) (dst src n : Nat) : Prop :=
  ∃ rest : Heap γ → Option ρ, ∀ memcpy, call memcpy = (memcpy h dst src n).bind rest

/-- C defines a copy whose ranges lie in the area and do not overlap. -/
structure Defined (h : Heap γ) (dst src n : Nat) : Prop where
  source : h.memStartBrk ≤ src ∧ src + n ≤ h.memMaxAddr
  destination : h.memStartBrk ≤ dst ∧ dst + n ≤ h.memMaxAddr
  apart : dst + n ≤ src ∨ src + n ≤ dst

instance (h : Heap γ) (dst src n : Nat) : Decidable (Defined h dst src n) :=
  decidable_of_iff ((h.memStartBrk ≤ src ∧ src + n ≤ h.memMaxAddr) ∧
    (h.memStartBrk ≤ dst ∧ dst + n ≤ h.memMaxAddr) ∧ (dst + n ≤ src ∨ src + n ≤ dst))
    ⟨fun ⟨source, destination, apart⟩ => ⟨source, destination, apart⟩,
      fun defined => ⟨defined.source, defined.destination, defined.apart⟩⟩

/-- `memcpy(dst, src, n)` as a machine that faults on every copy that C does not define. -/
def Heap.memcpyStrict (h : Heap γ) (dst src n : Nat) : Option (Heap γ) :=
  if Defined h dst src n then h.memcpy dst src n else none

/--
`memset(dst, c, n)`, which stores the low byte of `c`.

It faults on a null pointer unless there is nothing to store.
-/
def Heap.memset (h : Heap γ) (dst c n : Nat) : Option (Heap γ) :=
  if dst = null ∧ n ≠ 0 then none else some { h with mem := fillBytes h.mem dst n (UInt8.ofNat c) }

/-- `mem_init()` when `malloc` places the area at `base`, whose bytes are arbitrary. -/
def memInit (mem : Mem) (base : Nat) (statics : γ) : Heap γ :=
  { mem := mem, memStartBrk := base, memBrk := base, memMaxAddr := add32 base maxHeap
    statics := statics }

/-- `mem_reset_brk()` -/
def memResetBrk (h : Heap γ) : Heap γ := { h with memBrk := h.memStartBrk }

/-- `mem_sbrk(incr)` -/
def memSbrk (h : Heap γ) (incr : Int) : Heap γ × Nat :=
  let oldBrk := h.memBrk
  if incr < 0 ∨ ofInt32 (h.memBrk + incr) > h.memMaxAddr then (h, minusOne)
  else ({ h with memBrk := ofInt32 (h.memBrk + incr) }, oldBrk)

/-- `mem_heap_lo()` -/
def memHeapLo (h : Heap γ) : Nat := h.memStartBrk

/-- `mem_heap_hi()` -/
def memHeapHi (h : Heap γ) : Nat := sub32 h.memBrk 1

/-- The break stays below the top of the address space when `mem_sbrk` adds this many bytes. -/
def SbrkFits (h : Heap γ) (size : Nat) : Prop :=
  -- A size that is negative as an `int` is refused before the addition.
  size < 2 ^ 31 → h.memBrk + size < 2 ^ 32

instance (h : Heap γ) (size : Nat) : Decidable (SbrkFits h size) :=
  inferInstanceAs (Decidable (_ → _))

/-- Copying between real pointers does not fault. -/
theorem Heap.memcpy_real {h : Heap γ} {dst src n : Nat} (real : dst ≠ null) (real' : src ≠ null) :
    h.memcpy dst src n = some { h with mem := copyBytes h.mem dst src n } :=
  if_neg fun faults => faults.1.elim real real'

/-- A copy that the strict machine carries out is carried out alike without its checks. -/
theorem Heap.memcpyStrict_some {h h' : Heap γ} {dst src n : Nat} (done : h.memcpyStrict dst src n = some h') :
    h.memcpy dst src n = some h' := by
  unfold Heap.memcpyStrict at done
  split at done
  · exact done
  · simp at done

/-- A call that returns comes to one `memcpy` only, and it determines the machine and the arguments. -/
theorem Copies.unique {ρ : Type} {call : Memcpy γ → Option ρ} {h h' : Heap γ} {dst dst' src src' n n' : Nat}
    {memcpy : Memcpy γ} {result : ρ} (copies : Copies call h dst src n) (copies' : Copies call h' dst' src' n')
    (returned : call memcpy = some result) : h' = h ∧ dst' = dst ∧ src' = src ∧ n' = n := by
  classical
  obtain ⟨rest, goes⟩ := copies
  obtain ⟨rest', goes'⟩ := copies'
  -- A `memcpy` that faults on all other arguments makes no difference to the call.
  let only : Memcpy γ := fun g d s k => if g = h ∧ d = dst ∧ s = src ∧ k = n then memcpy g d s k else none
  have hit : only h dst src n = memcpy h dst src n := if_pos ⟨rfl, rfl, rfl, rfl⟩
  have same : (only h' dst' src' n').bind rest' = some result := by
    rw [← goes', goes, hit, ← goes, returned]
  by_contra other
  have missed : only h' dst' src' n' = none := if_neg other
  rw [missed] at same
  simp at same

/-- Filling from a real pointer on does not fault. -/
theorem Heap.memset_real {h : Heap γ} {dst c n : Nat} (real : dst ≠ null) :
    h.memset dst c n = some { h with mem := fillBytes h.mem dst n (UInt8.ofNat c) } :=
  if_neg fun faults => real faults.1

/-- The limit of the simulated heap is that of an area which does not wrap. -/
structure Area (h : Heap γ) : Prop where
  limit : h.memMaxAddr = h.memStartBrk + maxHeap
  fits : h.memMaxAddr < 2 ^ 32

/-- A store does not move the start of the heap. -/
@[simp] theorem Heap.put_memStartBrk (h : Heap γ) (p v : Nat) :
    (h.put p v).memStartBrk = h.memStartBrk := rfl

/-- It does not move the break. -/
@[simp] theorem Heap.put_memBrk (h : Heap γ) (p v : Nat) : (h.put p v).memBrk = h.memBrk := rfl

/-- It does not move the limit. -/
@[simp] theorem Heap.put_memMaxAddr (h : Heap γ) (p v : Nat) :
    (h.put p v).memMaxAddr = h.memMaxAddr := rfl

/-- It leaves the static variables alone. -/
@[simp] theorem Heap.put_statics (h : Heap γ) (p v : Nat) : (h.put p v).statics = h.statics := rfl

/-- It changes the memory by one word. -/
@[simp] theorem Heap.put_mem (h : Heap γ) (p v : Nat) :
    (h.put p v).mem = storeWord h.mem p v := rfl

/-- A request that fits below the limit moves the break by exactly its size. -/
theorem memSbrk_granted {h : Heap γ} {size : Nat} (small : size < 2 ^ 31)
    (limit : h.memMaxAddr < 2 ^ 32) (room : h.memBrk + size ≤ h.memMaxAddr) :
    memSbrk h (toInt32 size) = ({ h with memBrk := h.memBrk + size }, h.memBrk) := by
  -- A small size is itself as an `int`, so the new break is computed without wrapping.
  have sum : ofInt32 ((h.memBrk : Int) + toInt32 size) = h.memBrk + size := by
    rw [toInt32_eq small]
    unfold ofInt32
    omega
  have nonnegative : ¬ toInt32 size < 0 := by
    rw [toInt32_eq small]
    omega
  -- Neither of the two refusals applies.
  simp only [memSbrk, sum]
  rw [if_neg (by omega)]

/-- A request past the limit is refused, and nothing changes. -/
theorem memSbrk_refused {h : Heap γ} {size : Nat} (word : size < 2 ^ 32)
    (fits : SbrkFits h size) (full : h.memMaxAddr < h.memBrk + size) :
    memSbrk h (toInt32 size) = (h, minusOne) := by
  unfold memSbrk
  apply if_pos
  by_cases small : size < 2 ^ 31
  · -- A small size is refused by the limit, since the sum of break and size does not wrap.
    have below := fits small
    right
    rw [toInt32_eq small]
    unfold ofInt32
    omega
  · -- A size this large is a negative `int`.
    left
    unfold toInt32
    rw [if_neg small]
    omega

/-- The area that `mem_init` obtains: aligned, not null, and below the top of the address space. -/
structure Base (base : Nat) : Prop where
  aligned : base % 8 = 0
  real : base ≠ null
  fits : base + maxHeap < 2 ^ 32

/-- An area may start at address eight. -/
theorem base_eight : Base 8 := ⟨by decide, by decide, by decide⟩

/-- A fresh area is an area that does not wrap. -/
theorem Base.area {base : Nat} (ok : Base base) (m : Mem) (statics : γ) : Area (memInit m base statics) where
  limit := add32_eq ok.fits
  fits := by
    show add32 base maxHeap < 2 ^ 32
    rw [add32_eq ok.fits]
    exact ok.fits

/-- A fresh area grants the first small request, from its start. -/
theorem Base.granted {base size : Nat} (ok : Base base) (m : Mem) (statics : γ) (small : size ≤ 2 ^ 20) :
    memSbrk (memInit m base statics) (toInt32 size) =
      ({ memInit m base statics with memBrk := base + size }, base) := by
  have area := ok.area m statics
  have limit := area.limit
  -- The whole area is twenty megabytes, far more than the request.
  have room : maxHeap = 20971520 := rfl
  refine memSbrk_granted (by omega) area.fits ?_
  rw [limit]
  show base + size ≤ base + maxHeap
  omega

end MallocLab
