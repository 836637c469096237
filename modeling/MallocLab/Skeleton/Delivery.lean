import MallocLab.Skeleton.Contents
import MallocLab.Skeleton.Shelved

/-! What an allocator delivers in every run when it reads the old size from the header of a block. -/

namespace MallocLab.Skeleton

/-- What an allocator owes its client for one action, and the contents of the block that the action moves. -/
structure Delivers {γ : Type} (w : World γ) (c : Call) (next : World γ) (r : Nat) : Prop
    extends Upholds w c next r where
  moved : ∀ p n k, c = .realloc p n → r ≠ null → (p, k) ∈ w.live →
    ∀ i < min k n, next.heap.mem (r + i) = w.heap.mem (p + i)

namespace Parts

variable {γ σ : Type} {P : Policy σ} {base : Nat} {R : Heap γ → σ → Prop} {adjust : Nat → Nat}
variable {findFit : Heap γ → Nat → Option (Heap γ × Nat)}
variable {place : Heap γ → Nat → Nat → Option (Heap γ × Nat)}
variable {extend : Heap γ → Nat → Option (Heap γ × Nat)} {free : Heap γ → Nat → Option (Heap γ)}
variable {oldSize : Heap γ → Nat → Nat} {A : Allocator γ} {w last : World γ} {s : σ} {c : Call} {n p k : Nat}
variable {cs : List Call} {rs : List Nat}

/-- The bytes that the client has written move with a block, when at least its payload is read. -/
theorem realloc_delivers (parts : Parts P base R adjust findFit place extend free)
    (reads : ∀ {h s p size}, R h s → Occupied (P.blocks s) p size → size ≤ oldSize h p + 8)
    (holds : Holds R P.blocks w s) (live : (p, k) ∈ w.live) (positive : 1 ≤ n) (small : n ≤ maxRequest)
    (fits : RequestFits adjust findFit w.heap n) :
    ∃ h' r, mmRealloc (mallocOf adjust findFit place extend) oldSize free w.heap p n = some (h', r) ∧
      (r ≠ null → ∀ i < min k n, h'.mem (r + i) = w.heap.mem (p + i)) := by
  obtain ⟨rep, owned⟩ := holds
  obtain ⟨size, occupied, room⟩ := owned.block p k live
  obtain ⟨h₁, s₁, r, _, done₁, rep₁, keeps₁, outcome⟩ := parts.malloc rep positive small fits
  -- A request that is refused moves nothing.
  rcases outcome with ⟨rfl, rfl⟩ | ⟨real, served⟩
  · exact ⟨h₁, null, bind_step done₁ (if_pos rfl), fun real => absurd rfl real⟩
  · obtain ⟨h', done, _, _, _, frees⟩ := parts.realloc_moves oldSize done₁ real rep₁ served occupied
    have copies := parts.realloc_copies rep₁ keeps₁ served occupied (copied_le n (oldSize h₁ p)) frees
    -- Serving the request has left the old block in use, so its size is still read.
    obtain ⟨_, taken, _, gained⟩ := served
    have enough := reads rep₁ ((gained p size).mpr (.inl occupied))
    have count : min k n ≤ copied n (oldSize h₁ p) := by
      unfold copied
      split <;> omega
    exact ⟨h', r, done, fun _ i below => copies.same i (by omega) (by omega)⟩

/-- Every legal action does the abstract step, and it delivers what the client is owed. -/
theorem call_delivers (parts : Parts P base R adjust findFit place extend free)
    (services : Services A (NoWrap adjust findFit) R P.blocks fun s c s' r => P.move (base + maxHeap) s c = (s', r))
    (realloc : ∀ {h p n}, A.mmRealloc h p n = mmRealloc (mallocOf adjust findFit place extend) oldSize free h p n)
    (reads : ∀ {h s p size}, R h s → Occupied (P.blocks s) p size → size ≤ oldSize h p + 8)
    (holds : Holds R P.blocks w s) (legal : w.Legal c) (fine : NoWrap adjust findFit w.heap c) :
    ∃ next r, w.call A c = some (next, r) ∧ Delivers w c next r := by
  -- All but the contents of a moved block follows from the services.
  obtain ⟨next, s', r, done, _, _, upholds⟩ := services.call holds legal fine
  refine ⟨next, r, done, upholds, fun p n k same real live => ?_⟩
  subst same
  obtain ⟨h', q, returned, moved⟩ := parts.realloc_delivers reads holds live legal.2.1 legal.2.2 fine
  -- The call of the client is this call of the code.
  obtain ⟨⟨h₂, q₂⟩, called, rest⟩ := Option.bind_eq_some_iff.mp done
  rw [realloc, returned] at called
  obtain ⟨rfl, rfl⟩ := Prod.mk.inj (Option.some.inj called)
  by_cases refused : q = null
  · simp only [refused, if_true] at rest
    exact absurd (Prod.mk.inj (Option.some.inj rest)).2.symm real
  · simp only [refused, if_false] at rest
    obtain ⟨rfl, rfl⟩ := Prod.mk.inj (Option.some.inj rest)
    exact moved refused

/-- In every run the results are those of the abstract allocator, and one more action delivers, too. -/
theorem run_delivers (parts : Parts P base R adjust findFit place extend free)
    (services : Services A (NoWrap adjust findFit) R P.blocks fun s c s' r => P.move (base + maxHeap) s c = (s', r))
    (realloc : ∀ {h p n}, A.mmRealloc h p n = mmRealloc (mallocOf adjust findFit place extend) oldSize free h p n)
    (reads : ∀ {h s p size}, R h s → Occupied (P.blocks s) p size → size ≤ oldSize h p + 8)
    (holds : Holds R P.blocks w s) (run : Run A (NoWrap adjust findFit) w cs rs last) :
    (play (P.move (base + maxHeap)) s cs).2 = rs ∧ ∀ c, last.Legal c → NoWrap adjust findFit last.heap c →
      ∃ next r, last.call A c = some (next, r) ∧ Delivers last c next r := by
  -- After the run the machine still represents a state of the abstract allocator.
  obtain ⟨same, holds'⟩ := services.refines holds run
  exact ⟨same, fun c legal fine => parts.call_delivers services realloc reads holds' legal fine⟩

end Parts

variable {γ : Type} {L : Layout} {heads : Heap γ → (Nat → List Nat) → Prop} {base p size : Nat} {h : Heap γ}
variable {s : Shelves}

/-- The header of a used block has its size. -/
theorem Stands.headerSize_eq (stands : Stands L heads base h s) (occupied : Occupied s.blocks p size) :
    headerSize h p = size := by
  obtain ⟨b, block, rfl, rfl, _⟩ := occupied
  exact stands.rep.arena.size (List.mem_append_right _ block)

end MallocLab.Skeleton
