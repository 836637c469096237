import MallocLab.Skeleton.Shelved

/-! What freeing several blocks in turn leaves in use. -/

namespace MallocLab.Skeleton

section

variable {γ σ : Type} {P : Policy σ} {base : Nat} {R : Heap γ → σ → Prop} {adjust : Nat → Nat}
variable {findFit : Heap γ → Nat → Option (Heap γ × Nat)}
variable {place : Heap γ → Nat → Nat → Option (Heap γ × Nat)}
variable {extend : Heap γ → Nat → Option (Heap γ × Nat)} {free : Heap γ → Nat → Option (Heap γ)}
variable {h : Heap γ} {s : σ} {ps : List Nat}

/-- Used blocks may be freed one after the other, and the other used blocks stay. -/
theorem Parts.frees (parts : Parts P base R adjust findFit place extend free) (rep : R h s)
    (distinct : ps.Nodup) (used : ∀ p ∈ ps, ∃ size, Occupied (P.blocks s) p size) :
    ∃ h', ps.foldlM free h = some h' ∧ R h' (ps.foldl P.free s) ∧ h'.memStartBrk = h.memStartBrk ∧
      ∀ q size, Occupied (P.blocks (ps.foldl P.free s)) q size ↔ Occupied (P.blocks s) q size ∧ q ∉ ps := by
  induction ps generalizing h s with
  | nil => exact ⟨h, rfl, rep, rfl, by simp⟩
  | cons p ps ih =>
    obtain ⟨fresh, distinct⟩ := List.nodup_cons.mp distinct
    obtain ⟨size, occupied⟩ := used p List.mem_cons_self
    obtain ⟨h₁, done, rep₁, released, keeps⟩ := parts.free rep occupied
    -- The blocks that are still to be freed are other ones.
    obtain ⟨h', rest, rep', start, gone⟩ := ih rep₁ distinct fun q member => by
      obtain ⟨size, before⟩ := used q (List.mem_cons_of_mem p member)
      exact ⟨size, (released q size).mpr ⟨before, fun same => fresh (same ▸ member)⟩⟩
    refine ⟨h', bind_step done rest, rep', start.trans keeps.start, fun q size => ?_⟩
    rw [List.foldl_cons, gone, released, List.mem_cons, not_or, and_assoc]

end

/-- Frees leave the break where it is. -/
theorem foldl_free_brk {style : Style} {s : Shelves} {ps : List Nat} :
    (ps.foldl (Shelves.free style) s).brk = s.brk := by
  induction ps generalizing s with
  | nil => rfl
  | cons p ps ih => exact ih.trans Shelves.free_brk

variable {γ : Type} {L : Layout} {heads : Heap γ → (Nat → List Nat) → Prop} {h₁ h₂ : Heap γ} {s₁ s₂ : Shelves}
variable {base : Nat}

/-- Two untagged standing machines with the same break and the same used blocks have the same blocks. -/
theorem Stands.determined (tight : L.loose = false) (first : Stands L heads base h₁ s₁)
    (second : Stands L heads base h₂ s₂) (brk : s₁.brk = s₂.brk)
    (same : ∀ p size, Occupied s₁.blocks p size ↔ Occupied s₂.blocks p size) : s₁.blocks = s₂.blocks := by
  obtain ⟨lo, _, _, fixed, tiles⟩ := first.rep.tiles
  obtain ⟨lo', _, _, fixed', tiles'⟩ := second.rep.tiles
  rw [first.start] at fixed
  rw [second.start] at fixed'
  -- Both tilings go from the end of the fixed blocks to the break.
  obtain rfl := fixed.unique fixed'
  rw [first.rep.brk] at tiles
  rw [second.rep.brk, ← brk] at tiles'
  exact Separated.determined tiles tiles' first.separated second.separated (first.rep.plain tight)
    (second.rep.plain tight) same

/-- Machines with the same blocks have the same addresses on the lists of each class. -/
theorem Stands.lists_perm (first : Stands L heads base h₁ s₁) (second : Stands L heads base h₂ s₂)
    (same : s₁.blocks = s₂.blocks) (k : Nat) : (s₁.lists k).Perm (s₂.lists k) := by
  have into : ∀ {h h' : Heap γ} {s s' : Shelves}, Stands L heads base h s → Stands L heads base h' s' →
      s.blocks = s'.blocks → ∀ p ∈ s.lists k, p ∈ s'.lists k := by
    intro h h' s s' stands stands' same p member
    obtain ⟨b, block, rfl, free, class_⟩ := stands.rep.threaded.listed k p member
    exact stands'.filed b (same ▸ block) free k class_
  refine (List.perm_ext_iff_of_nodup (first.rep.threaded.nodup k) (second.rep.threaded.nodup k)).mpr fun p => ?_
  exact ⟨into first second same p, into second first same.symm p⟩

end MallocLab.Skeleton
