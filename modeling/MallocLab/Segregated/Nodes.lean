import MallocLab.Machine.Macros
import MallocLab.Segregated.Classes

/-! The list operations that the power-of-two allocators share, up to where a block keeps its links. -/

namespace MallocLab.Segregated

/-- The machine with the static array of list heads. -/
abbrev State := Heap (Nat → Nat)

/-- Where a block keeps the entries that point to the next and to the previous block of its list. -/
structure Entries where
  next : Nat → Nat
  prev : Nat → Nat

/-- Stores the head of a list. -/
def setList (h : State) (list ptr : Nat) : State :=
  { h with statics := fun k => if k = list then ptr else h.statics k }

/-- The loop with which `mm_init` empties every list. -/
def emptyLists (h : State) : State :=
  { h with statics := fun list => if list < listLimit then null else h.statics list }

/-- Unlinks a block from the list of its size. -/
def deleteNode (e : Entries) (h : State) (ptr : Nat) : Option State := do
  let (list, _) ← selectList (getSize h (hdrp ptr))
  if h.get (e.next ptr) ≠ null then
    if h.get (e.prev ptr) ≠ null then
      let h := h.put (e.prev (h.get (e.next ptr))) (h.get (e.prev ptr))
      return h.put (e.next (h.get (e.prev ptr))) (h.get (e.next ptr))
    else
      let h := h.put (e.prev (h.get (e.next ptr))) null
      return setList h list (h.get (e.next ptr))
  else
    if h.get (e.prev ptr) ≠ null then
      return h.put (e.next (h.get (e.prev ptr))) null
    else
      return setList h list null

/-- One turn of the loop that looks for the place of a new block; the state is the next block and the last. -/
def insertStep (e : Entries) (h : State) (size : Nat) : Nat × Nat → (Nat × Nat) ⊕ (Nat × Nat)
  | (searchPtr, insertPtr) =>
    if searchPtr ≠ null ∧ size > getSize h (hdrp searchPtr) then
      .inl (h.get (e.next searchPtr), searchPtr)
    else .inr (searchPtr, insertPtr)

/-- Where a new block goes: its list, the block that will follow it, and the block that will precede it. -/
def insertPlace (e : Entries) (h : State) (size : Nat) : Option (Nat × Nat × Nat) := do
  let (list, size) ← selectList size
  let (searchPtr, insertPtr) ← loop (insertStep e h size) pointerTurns (h.statics list, null)
  return (list, searchPtr, insertPtr)

/-- One turn of the search of a list, which passes over blocks that are too small or must be skipped. -/
def scanStep (e : Entries) (skip : State → Nat → Bool) (h : State) (asize ptr : Nat) : Nat ⊕ Nat :=
  if ptr ≠ null ∧ (asize > getSize h (hdrp ptr) ∨ skip h ptr) then .inl (h.get (e.next ptr))
  else .inr ptr

/--
The search of the lists from `list` on, with `remaining` lists left to go.

A list is searched when it is the last one, or when the size has been used up and it is not empty.
-/
def searchLists (e : Entries) (skip : State → Nat → Bool) (h : State) (asize : Nat) :
    Nat → Nat → Nat → Option Nat
  | 0, _, _ => some null
  | remaining + 1, list, searchsize =>
    if list = listLimit - 1 ∨ searchsize ≤ 1 ∧ h.statics list ≠ null then do
      let ptr ← loop (scanStep e skip h asize) pointerTurns (h.statics list)
      if ptr ≠ null then return ptr
      searchLists e skip h asize remaining (list + 1) (searchsize >>> 1)
    else searchLists e skip h asize remaining (list + 1) (searchsize >>> 1)

end MallocLab.Segregated
