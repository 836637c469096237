import MallocLab.Skeleton.Calls

/-! Allocators built from the shared entry points serve their clients as their abstract allocators do. -/

namespace MallocLab.Skeleton

/-- The abstract allocator with these choices, sizes and search. -/
def shelved (style : Style) (adjust : Nat → Nat) (pick : Shelves → Nat → Option Nat) : Policy Shelves where
  adjust := adjust
  blocks := Shelves.blocks
  brk := Shelves.brk
  pick := pick
  carve := Shelves.carve style
  extend := Shelves.extend style
  free := Shelves.free style

/-- Carving and freeing leave the break alone. -/
theorem shelved_rises (style : Style) (adjust : Nat → Nat) (pick : Shelves → Nat → Option Nat) :
    (shelved style adjust pick).Rises :=
  ⟨fun _ _ _ => Shelves.carve_brk, fun _ => Shelves.extend_brk, fun _ _ => Shelves.free_brk⟩

/-- An action moves the break only upwards, and not past the limit. -/
theorem shelved_move_brk {style : Style} {adjust : Nat → Nat} {pick : Shelves → Nat → Option Nat} {limit : Nat}
    {s : Shelves} (below : s.brk ≤ limit) (c : Call) :
    s.brk ≤ ((shelved style adjust pick).move limit s c).1.brk ∧
      ((shelved style adjust pick).move limit s c).1.brk ≤ limit :=
  (shelved_rises style adjust pick).move_brk below c

/-- The machine between two calls: every free block is filed, and no two of them are neighbours. -/
structure Stands {γ : Type} (L : Layout) (heads : Heap γ → (Nat → List Nat) → Prop) (base : Nat)
    (h : Heap γ) (s : Shelves) : Prop where
  rep : Rep L heads h s
  filed : s.Filed L.style
  separated : Separated s.blocks
  start : h.memStartBrk = base

/-- The parts of an allocator file that keeps no tags. -/
structure Scheme {γ : Type} (L : Layout) (heads : Heap γ → (Nat → List Nat) → Prop)
    (coalesce : Heap γ → Nat → Option (Heap γ × Nat)) (remove : Heap γ → Nat → Option (Heap γ))
    (place : Heap γ → Nat → Nat → Option (Heap γ)) (lone insert : Heap γ → Nat → Nat → Option (Heap γ)) :
    Prop where
  keeper : Keeper L heads remove insert
  single : Keeper L heads remove lone
  turns : Turns L coalesce remove lone insert
  places : Places L heads place
  tight : L.loose = false
  small : L.least ≤ 4096
  closed : L.style.closed = Blk.used

/-- `place` as a function to the pointer that is handed out. -/
def placed {γ : Type} (place : Heap γ → Nat → Nat → Option (Heap γ)) (h : Heap γ) (bp asize : Nat) :
    Option (Heap γ × Nat) :=
  (place h bp asize).map fun h => (h, bp)

/-- `extend_heap` as a function of a number of bytes. -/
def extended {γ : Type} (extendHeap : Heap γ → Nat → Option (Heap γ × Nat)) (h : Heap γ) (size : Nat) :
    Option (Heap γ × Nat) :=
  extendHeap h (size / wsize)

variable {γ : Type} {L : Layout} {heads : Heap γ → (Nat → List Nat) → Prop} {h : Heap γ} {s : Shelves}
variable {base n a p size : Nat} {coalesce : Heap γ → Nat → Option (Heap γ × Nat)}
variable {remove : Heap γ → Nat → Option (Heap γ)} {place : Heap γ → Nat → Nat → Option (Heap γ)}
variable {lone insert : Heap γ → Nat → Nat → Option (Heap γ)}
variable {adjust adjust' : Nat → Nat} {findFit : Heap γ → Nat → Option (Heap γ × Nat)}
variable {pick : Shelves → Nat → Option Nat}

/-- `mm_malloc` searches, else extends, and then places. -/
theorem mmMalloc_eq (place : Heap γ → Nat → Nat → Option (Heap γ))
    (extendHeap : Heap γ → Nat → Option (Heap γ × Nat)) :
    mmMalloc adjust findFit place extendHeap = mallocOf adjust findFit (placed place) (extended extendHeap) := by
  -- Mapping over the result is the code's sequence of `place` and `return`.
  have step : ∀ (o : Option (Heap γ)) (bp : Nat), (o.bind fun h => some (h, bp)) = o.map fun h => (h, bp) := by
    intro o bp
    cases o <;> rfl
  funext h n
  unfold mmMalloc mallocOf placed extended
  simp only [Option.bind_eq_bind, Option.pure_def, step]

/-- Blocks that are not closed to joining are free. -/
theorem Scheme.opens (scheme : Scheme L heads coalesce remove place lone insert) (bs : List Blk) :
    ∀ a ∈ bs, L.style.closed a = false → a.used = false := by
  intro a _ shut
  rwa [scheme.closed] at shut

/-- The blocks of a standing machine, and where they lie. -/
theorem Stands.tiles (stands : Stands L heads base h s) : ∃ lo, lo % 8 = 0 ∧ 8 ≤ lo ∧ h.memStartBrk ≤ lo ∧
    Tiles lo s.blocks h.memBrk ∧ h.memBrk < 2 ^ 32 := by
  obtain ⟨lo, low, aligned, _, tiles⟩ := stands.rep.tiles
  exact ⟨lo, aligned, by omega, by omega, tiles, stands.rep.arena.high⟩

/-- `place` serves a request from a free block that is large enough. -/
theorem Scheme.carves (scheme : Scheme L heads coalesce remove place lone insert)
    (stands : Stands L heads base h s) (adjusted : Adjusted n a) (least : L.least ≤ a)
    (fit : (shelved L.style adjust pick).Fits s a p) :
    ∃ h', placed place h p a = some (h', (s.carve L.style p a).2) ∧
      Stands L heads base h' (s.carve L.style p a).1 ∧ Keeps h h' s.blocks ∧
      (s.carve L.style p a).2 ≠ null ∧
      Served s.blocks (s.carve L.style p a).1.blocks (s.carve L.style p a).2 (a - 8) := by
  obtain ⟨rep, filed, separated, start⟩ := stands
  obtain ⟨b, member, rfl, free, large⟩ := fit
  -- The faithful part says what memory holds, and the abstract part who owns what.
  obtain ⟨h', done, rep', keeps, here⟩ := scheme.places rep filed separated member free large adjusted.whole
    least
  obtain ⟨pre, post, split, located⟩ := Rep.locate rep member
  obtain ⟨lo, low, aligned, _, tiles⟩ := rep.tiles
  obtain ⟨filed', served⟩ := Shelves.carve_law filed tiles split free large
    (by have := adjusted.least; omega)
  refine ⟨h', ?_, ⟨rep', filed', ?_, keeps.start.trans start⟩, keeps, ?_, served⟩
  · rw [here]
    exact congrArg (Option.map fun h => (h, b.addr)) done
  · refine Shelves.carve_separated separated b.addr a fun pre' c post' found => ?_
    -- Only the block that was found is carved, and it was free.
    rw [located] at found
    obtain ⟨rfl, rfl, rfl⟩ : pre = pre' ∧ b = c ∧ post = post' := by simpa using found
    exact free
  · rw [here]
    exact rep.arena.real (List.mem_append_right _ member)

/-- The parts of such a file do what the abstract allocator does, when its search does. -/
theorem Scheme.parts (scheme : Scheme L heads coalesce remove place lone insert)
    (adjusted : ∀ {n}, 1 ≤ n → n ≤ maxRequest → adjust' n = adjust n ∧ Adjusted n (adjust n))
    (enough : ∀ {n a}, Adjusted n a → adjust n = a → L.least ≤ a)
    (find : ∀ {h s n a}, Stands L heads base h s → Adjusted n a →
      findFit h a = some (h, (pick s a).getD null))
    (picked : ∀ {h s n a p}, Stands L heads base h s → Adjusted n a → pick s a = some p →
      (shelved L.style adjust pick).Fits s a p) :
    Parts (shelved L.style adjust pick) base (Stands L heads base) adjust' findFit
      (placed place) (extended (extendHeap coalesce)) (mmFree coalesce) where
  adjusted := adjusted
  limit := fun stands => by rw [stands.rep.area.limit, stands.start]
  brk := fun stands => stands.rep.brk
  tiles := Stands.tiles
  written := fun stands same =>
    ⟨stands.rep.written scheme.keeper.stable same, stands.filed, stands.separated, stands.start⟩
  find := fun stands fits => ⟨_, find stands fits, stands, Keeps.refl _ _⟩
  -- What the search returns is a free block that is large enough.
  picked := by
    intro h s n a p stands fits found
    obtain ⟨b, member, rfl, free, large⟩ := picked stands fits found
    exact ⟨stands.rep.arena.real (List.mem_append_right _ member), b, member, rfl, free, large⟩
  place := fun stands fits asked => scheme.carves stands fits (enough fits asked)
  -- The heap is extended, and the extension is joined.
  granted := by
    intro h s size stands whole least room
    obtain ⟨rep, filed, separated, start⟩ := stands
    obtain ⟨h', done, rep', keeps⟩ := extend_rep scheme.keeper scheme.single scheme.turns scheme.tight
      scheme.closed rep filed whole (Nat.le_trans scheme.small least) room
    obtain ⟨lo, low, aligned, _, tiles⟩ := rep.tiles
    rw [rep.brk] at tiles
    -- The new space is one more free block, merged with a trailing one.
    obtain ⟨filed', ⟨b, member, here, free, large⟩, same⟩ :=
      Shelves.extend_law filed tiles whole (by omega) (scheme.opens s.blocks)
    have real := rep'.arena.real (List.mem_append_right _ member)
    exact ⟨h', done, ⟨rep', filed', Shelves.extend_separated separated scheme.closed size,
      keeps.start.trans start⟩, keeps, here ▸ real, ⟨b, member, here, free, large⟩, same⟩
  -- A refused extension leaves the heap as it is.
  refused := by
    intro h s size stands whole word fits full
    exact extendHeap_refused whole word fits (stands.rep.brk ▸ full)
  -- A block is freed, and then it is joined.
  free := by
    intro h s p size stands occupied
    obtain ⟨rep, filed, separated, start⟩ := stands
    obtain ⟨b, member, rfl, rfl, used⟩ := occupied
    obtain ⟨h', done, rep', keeps⟩ := free_rep scheme.keeper scheme.single scheme.turns scheme.tight
      scheme.closed rep filed member used
    obtain ⟨pre, post, split, _⟩ := Rep.locate rep member
    obtain ⟨_, _, _, _, tiles⟩ := rep.tiles
    -- Freeing releases exactly this block, because joining changes no used one.
    obtain ⟨filed', released⟩ := Shelves.free_law filed tiles split (scheme.opens s.blocks)
    exact ⟨h', done, ⟨rep', filed', Shelves.free_separated separated scheme.closed b.addr,
      keeps.start.trans start⟩, released, keeps⟩

/-- A heap without blocks is opened by its first extension. -/
theorem Scheme.opened (scheme : Scheme L heads coalesce remove place lone insert) {brk : Nat}
    (rep : Rep L heads h { blocks := [], lists := fun _ => [], brk := brk }) (start : h.memStartBrk = base)
    (room : brk + 4096 ≤ h.memMaxAddr) :
    ∃ h', extendHeap coalesce h (chunksize / wsize) = some (h', brk) ∧ brk ≠ null ∧
      Holds (Stands L heads base) Shelves.blocks { heap := h', live := [] }
        (Shelves.opened L.style brk 4096) := by
  -- An empty heap has nothing to file.
  have filed : Shelves.Filed L.style { blocks := [], lists := fun _ => [], brk := brk } :=
    fun _ member => nomatch member
  obtain ⟨h', done, rep', keeps⟩ := extend_rep scheme.keeper scheme.single scheme.turns scheme.tight
    scheme.closed rep filed (show 4096 % 8 = 0 by decide) scheme.small room
  obtain ⟨lo, low, _, _, tiles⟩ := rep.tiles
  obtain rfl := tiles_nil.mp tiles
  have tiles' : Tiles h.memBrk [] brk := rep.brk
  obtain ⟨filed', _, same⟩ := Shelves.extend_law filed tiles' (show 4096 % 8 = 0 by decide)
    (by decide) fun _ member => nomatch member
  have brk' : h.memBrk = brk := rep.brk
  refine ⟨h', done, by unfold null; omega, ⟨rep', filed', List.isChain_singleton _,
    keeps.start.trans start⟩, Owned.start fun p size occupied => ?_⟩
  -- No block of the opened heap is in use.
  obtain ⟨b, member, _⟩ := (same p size).mp occupied
  simp at member

end MallocLab.Skeleton
