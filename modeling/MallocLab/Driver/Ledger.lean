import MallocLab.Client.Accounts
import MallocLab.Driver.Evaluate

/-! Which live pointer belongs to which id of a trace, and how the arrays of the driver keep up with it. -/

namespace MallocLab.Driver

/-- A live block under its id: the id, the pointer and the size. -/
abbrev Tag := Nat × Nat × Nat

/-- The ids and sizes of some live blocks. -/
def heldOf (tags : List Tag) : List (Nat × Nat) := tags.map fun tag => (tag.1, tag.2.2)

/--
The live blocks with the ids that they were allocated for, the newest first.

The newest block of an allocated id is the one that the ids point to.
-/
structure Ledger (tags : List Tag) (live : List (Nat × Nat)) (ids : Ids) (allocated : List Nat) : Prop where
  live : live = tags.map Prod.snd
  latest : ∀ i ∈ allocated, tags.find? (fun tag => tag.1 = i) = some (i, ids i)

/-- An array has an entry for each id, and the right one for each allocated id. -/
structure Noted (numIds : Nat) (allocated : List Nat) (entry : Nat → Nat) (array : List Nat) : Prop where
  length : array.length = numIds
  entries : ∀ i ∈ allocated, array[i]? = some (entry i)

variable {γ : Type} {A : Allocator γ} {w next : World γ} {tags : List Tag} {live : List (Nat × Nat)} {ids : Ids}
variable {allocated more : List Nat} {op : TraceOp} {array : List Nat} {entry : Nat → Nat}
variable {numIds index value p n r i : Nat}

/-- The allocated bytes are those of the live payloads. -/
theorem Ledger.total (ledger : Ledger tags live ids allocated) :
    totalHeld (heldOf tags) = (live.map Prod.snd).sum := by
  -- Both lists have the sizes of the same blocks.
  unfold totalHeld heldOf
  rw [ledger.live, List.map_map, List.map_map]
  rfl

/-- The block of an allocated id is live. -/
theorem Ledger.mem (ledger : Ledger tags live ids allocated) (known : i ∈ allocated) : ids i ∈ live := by
  have found := List.mem_of_find?_eq_some (ledger.latest i known)
  rw [ledger.live]
  exact List.mem_map_of_mem (f := Prod.snd) found

/-- A valid request is a legal call. -/
theorem Ledger.legal (ledger : Ledger tags w.live ids allocated) (valid : op.Valid numIds allocated) :
    w.Legal (op.call ids) := by
  have most : maxRequest = 4294967280 := rfl
  obtain ⟨type, index, size⟩ := op
  -- Sizes are positive and small, and pointers of allocated ids are live.
  cases type with
  | alloc =>
    obtain ⟨positive, int⟩ := valid.size (by simp)
    exact ⟨positive, by show size ≤ _; simp only at int; omega⟩
  | realloc =>
    obtain ⟨positive, int⟩ := valid.size (by simp)
    exact ⟨⟨_, ledger.mem (valid.known (by simp))⟩, positive, by show size ≤ _; simp only at int; omega⟩
  | free => exact ⟨_, ledger.mem (valid.known (by simp))⟩

/-- Fewer ids may count as allocated. -/
theorem Ledger.mono (ledger : Ledger tags live ids allocated) (fewer : ∀ i ∈ more, i ∈ allocated) :
    Ledger tags live ids more where
  live := ledger.live
  latest i known := ledger.latest i (fewer i known)

/-- Looking for another id, one does not miss a block that is gone. -/
theorem find_eraseP (other : i ≠ index) :
    (tags.eraseP fun tag => tag.1 = index).find? (fun tag => tag.1 = i) = tags.find? fun tag => tag.1 = i := by
  -- The block that is taken out is found where the ids agree.
  induction tags with
  | nil => rfl
  | cons tag tags ih =>
    by_cases gone : tag.1 = index
    · -- The block that is gone is not one of the other id.
      have miss : tag.1 ≠ i := fun same => other (same.symm.trans gone)
      rw [List.eraseP_cons_of_pos (by simpa using gone), List.find?_cons_of_neg (by simpa using miss)]
    · rw [List.eraseP_cons_of_neg (by simpa using gone), List.find?_cons, List.find?_cons, ih]

/-- The newest block of an id is the one with its pointer. -/
theorem map_eraseP (nodup : ((tags.map Prod.snd).map Prod.fst).Nodup)
    (found : tags.find? (fun tag => tag.1 = index) = some (index, p, n)) :
    (tags.eraseP fun tag => tag.1 = index).map Prod.snd = dropLive (tags.map Prod.snd) p := by
  -- The induction looks for the newest block of the id from the front.
  induction tags with
  | nil => exact nomatch found
  | cons tag tags ih =>
    rw [List.map_cons, List.map_cons] at nodup
    obtain ⟨fresh, nodup⟩ := List.nodup_cons.mp nodup
    by_cases here : tag.1 = index
    · -- This block is the newest one, and no other block has its pointer.
      rw [List.find?_cons_of_pos (by simpa using here)] at found
      obtain rfl := Option.some.inj found
      rw [List.eraseP_cons_of_pos (by simp), List.map_cons]
      have others : dropLive (tags.map Prod.snd) p = tags.map Prod.snd := by
        refine List.filter_eq_self.mpr fun other inside => ?_
        simp only [bne_iff_ne, ne_eq]
        intro same
        exact fresh (List.mem_map.mpr ⟨other, inside, same⟩)
      have dropped : dropLive ((p, n) :: tags.map Prod.snd) p = dropLive (tags.map Prod.snd) p :=
        List.filter_cons_of_neg (by simp)
      rw [dropped, others]
    · -- The newest block is a later one, so this one has another pointer.
      rw [List.find?_cons_of_neg (by simpa using here)] at found
      have member := List.mem_map_of_mem (f := Prod.snd) (List.mem_of_find?_eq_some found)
      have differs : tag.2.1 ≠ p := fun same => fresh (same ▸ List.mem_map_of_mem member)
      have kept : dropLive (tag.2 :: tags.map Prod.snd) p = tag.2 :: dropLive (tags.map Prod.snd) p :=
        List.filter_cons_of_pos (by simp [differs])
      rw [List.eraseP_cons_of_neg (by simpa using here), List.map_cons, List.map_cons, kept, ih nodup found]

/-- A new block of an id is the newest one. -/
theorem Ledger.gain (ledger : Ledger tags live ids allocated) (index p n : Nat) :
    Ledger ((index, p, n) :: tags) ((p, n) :: live) (fun i => if i = index then (p, n) else ids i)
      (index :: allocated) where
  live := by rw [ledger.live, List.map_cons]
  latest i known := by
    by_cases here : i = index
    · simp [here]
    · -- The blocks of the other ids are found as before.
      have before := ledger.latest i ((List.mem_cons.mp known).resolve_left here)
      rw [List.find?_cons_of_neg (by simpa using fun same => here same.symm), before, if_neg here]

/-- The newest block of an id is freed. -/
theorem Ledger.lose (ledger : Ledger tags live ids allocated) (nodup : (live.map Prod.fst).Nodup)
    (known : index ∈ allocated) :
    Ledger (tags.eraseP fun tag => tag.1 = index) (dropLive live (ids index).1) ids
      (allocated.filter (· ≠ index)) where
  live := by
    have found := ledger.latest index known
    rw [ledger.live] at nodup ⊢
    exact (map_eraseP nodup found).symm
  latest i still := by
    obtain ⟨before, other⟩ : i ∈ allocated ∧ i ≠ index := by simpa using still
    rw [find_eraseP other]
    exact ledger.latest i before

/-- The blocks that are held lose the newest one of an id, too. -/
theorem heldOf_eraseP :
    heldOf (tags.eraseP fun tag => tag.1 = index) = (heldOf tags).eraseP fun entry => entry.1 = index := by
  -- Forgetting the pointers does not change which entry comes first.
  unfold heldOf
  rw [List.eraseP_map]
  rfl

/-- A request that is served takes the blocks of the ids to those that the trace says are allocated. -/
theorem Ledger.step (ledger : Ledger tags w.live ids allocated) (nodup : (w.live.map Prod.fst).Nodup)
    (valid : op.Valid numIds allocated) (returned : w.call A (op.call ids) = some (next, r))
    (real : op.type ≠ .free → r ≠ null) :
    ∃ tags', Ledger tags' next.live (op.moved ids r) (op.allocated allocated) ∧
      heldOf tags' = op.heldAfter (heldOf tags) := by
  -- Each type of request changes the live pointers and the ids in the same way.
  cases type : op.type with
  -- The new block is live, and its id is allocated.
  | alloc =>
    have call := TraceOp.call_of_alloc ids type
    obtain ⟨_, gained⟩ := call_malloc (call ▸ returned) (real (by simp [type]))
    refine ⟨(op.index, r, op.size) :: tags, ?_, by simp [heldOf, TraceOp.heldAfter, type]⟩
    rw [gained, TraceOp.moved_apply (by simp [type])]
    have shape : op.allocated allocated = op.index :: allocated := by simp [TraceOp.allocated, type]
    rw [shape]
    exact ledger.gain _ _ _
  | realloc =>
    have known := valid.known (by simp [type])
    have call := TraceOp.call_of_realloc ids type
    obtain ⟨_, gained⟩ := call_realloc (call ▸ returned) (real (by simp [type]))
    refine ⟨(op.index, r, op.size) :: tags.eraseP fun tag => tag.1 = op.index, ?_, ?_⟩
    · -- The old block goes, and the new one takes its place.
      rw [gained, TraceOp.moved_apply (by simp [type])]
      refine ((ledger.lose nodup known).gain op.index r op.size).mono fun i member => ?_
      have before : i ∈ allocated := by simpa [TraceOp.allocated, type] using member
      by_cases here : i = op.index
      · simp [here]
      · simp [here, before]
    · -- The id has the size of the request.
      simp only [TraceOp.heldAfter, type]
      rw [← heldOf_eraseP]
      rfl
  -- The block of the id is not live any more.
  | free =>
    have known := valid.known (by simp [type])
    have call := TraceOp.call_of_free ids type
    obtain ⟨_, rest⟩ := call_free (call ▸ returned)
    refine ⟨tags.eraseP fun tag => tag.1 = op.index, ?_, ?_⟩
    · have moved := TraceOp.moved_of_free ids r type
      have shape : op.allocated allocated = allocated.filter (· ≠ op.index) := by simp [TraceOp.allocated, type]
      rw [rest, moved, shape]
      exact ledger.lose nodup known
    · simp only [TraceOp.heldAfter, type]
      exact heldOf_eraseP

/-- Storing the entry of an id makes the array right for it. -/
theorem Noted.store (value : Nat) (noted : Noted numIds allocated entry array) (inRange : index < numIds)
    (fewer : ∀ i ∈ more, i = index ∨ i ∈ allocated) :
    storeAt array index value = some (array.set index value) ∧
      Noted numIds more (fun i => if i = index then value else entry i) (array.set index value) := by
  have below : index < array.length := noted.length ▸ inRange
  refine ⟨if_pos below, (List.length_set ..).trans noted.length, fun i member => ?_⟩
  by_cases here : i = index
  · rw [here, List.getElem?_set_self below, if_pos rfl]
  · -- The entries of the other ids are not touched.
    rw [List.getElem?_set_ne (Ne.symm here), if_neg here]
    exact noted.entries i ((fewer i member).resolve_left here)

/-- After a request that is no `free` the pointers are noted when its result is stored. -/
theorem Noted.pointer (noted : Noted numIds allocated (fun i => (ids i).1) array) (request : op.type ≠ .free)
    (inRange : op.index < numIds) :
    storeAt array op.index r = some (array.set op.index r) ∧
      Noted numIds (op.allocated allocated) (fun i => (op.moved ids r i).1) (array.set op.index r) := by
  -- The entry that is stored is the pointer of the id, and the others are as before.
  obtain ⟨stored, noted'⟩ := noted.store r inRange fun i member => TraceOp.mem_allocated request member
  refine ⟨stored, noted'.length, fun i member => (noted'.entries i member).trans ?_⟩
  rw [TraceOp.moved_apply request]
  by_cases here : i = op.index <;> simp [here]

/-- The sizes are noted when its size is stored. -/
theorem Noted.size (noted : Noted numIds allocated (fun i => (ids i).2) array) (request : op.type ≠ .free)
    (inRange : op.index < numIds) :
    storeAt array op.index op.size = some (array.set op.index op.size) ∧
      Noted numIds (op.allocated allocated) (fun i => (op.moved ids r i).2) (array.set op.index op.size) := by
  -- The same holds of the sizes.
  obtain ⟨stored, noted'⟩ := noted.store op.size inRange fun i member =>
    TraceOp.mem_allocated request member
  refine ⟨stored, noted'.length, fun i member => (noted'.entries i member).trans ?_⟩
  rw [TraceOp.moved_apply request]
  by_cases here : i = op.index <;> simp [here]

/-- An array that is right for some ids is right for fewer ids. -/
theorem Noted.mono (noted : Noted numIds allocated entry array) (fewer : ∀ i ∈ more, i ∈ allocated) :
    Noted numIds more entry array where
  length := noted.length
  entries i member := noted.entries i (fewer i member)

end MallocLab.Driver
