import MallocLab.Client.Owned
import MallocLab.Machine.Loop

/-! What an allocator must guarantee call by call, and what its clients may then rely on in every run. -/

namespace MallocLab

/--
The guarantees of the three entry points over states that represent abstract states.

`step` relates an abstract state to the next one and to the pointer that is returned.
-/
structure Services {γ σ : Type} (A : Allocator γ) (ok : Heap γ → Call → Prop) (R : Heap γ → σ → Prop)
    (blocks : σ → List Blk) (step : σ → Call → σ → Nat → Prop) : Prop where
  tiles : ∀ {h s}, R h s → ∃ lo, lo % 8 = 0 ∧ h.memStartBrk ≤ lo ∧ Tiles lo (blocks s) h.memBrk ∧
    h.memBrk < 2 ^ 32
  written : ∀ {h s m}, R h s → (∀ x, (∀ b ∈ blocks s, b.used = true → ¬ Payload b x) → m x = h.mem x) →
    R { h with mem := m } s
  store : ∀ s addr byte, step s (.store addr byte) s null
  malloc : ∀ {h s n}, R h s → 1 ≤ n → n ≤ maxRequest → ok h (.malloc n) →
    ∃ h' s' r, A.mmMalloc h n = some (h', r) ∧ step s (.malloc n) s' r ∧ R h' s' ∧
      Keeps h h' (blocks s) ∧ (r = null ∧ (∀ q k, Occupied (blocks s') q k ↔ Occupied (blocks s) q k) ∨
        r ≠ null ∧ Served (blocks s) (blocks s') r n)
  free : ∀ {h s p size}, R h s → Occupied (blocks s) p size → ok h (.free p) →
    ∃ h' s', A.mmFree h p = some h' ∧ step s (.free p) s' null ∧ R h' s' ∧
      Keeps h h' (others (blocks s) p) ∧ Released (blocks s) (blocks s') p
  realloc : ∀ {h s p size n}, R h s → Occupied (blocks s) p size → 1 ≤ n → n ≤ maxRequest →
    ok h (.realloc p n) →
    ∃ h' s' r, A.mmRealloc h p n = some (h', r) ∧ step s (.realloc p n) s' r ∧ R h' s' ∧
      Keeps h h' (others (blocks s) p) ∧
      (r = null ∧ (∀ q k, Occupied (blocks s') q k ↔ Occupied (blocks s) q k) ∨
        r ≠ null ∧ Served (others (blocks s) p) (blocks s') r n)

/-- The machine represents an abstract state, whose used blocks belong to the client. -/
structure Holds {γ σ : Type} (R : Heap γ → σ → Prop) (blocks : σ → List Blk) (w : World γ) (s : σ) :
    Prop where
  rep : R w.heap s
  owned : Owned w.live (blocks s)

/-- What some successful initialization leaves is what the one that was carried out has left. -/
theorem Holds.started {γ σ : Type} {R : Heap γ → σ → Prop} {blocks : σ → List Blk} {s : σ} {h : Heap γ}
    {init : Option (Heap γ × Int)} (started : ∃ h, init = some (h, 0) ∧ Holds R blocks { heap := h, live := [] } s)
    (here : init = some (h, 0)) : Holds R blocks { heap := h, live := [] } s := by
  obtain ⟨h', done, holds⟩ := started
  rw [here] at done
  obtain ⟨rfl, _⟩ := Prod.mk.inj (Option.some.inj done)
  exact holds

namespace Services

variable {γ σ : Type} {A : Allocator γ} {ok : Heap γ → Call → Prop} {R : Heap γ → σ → Prop}
variable {blocks : σ → List Blk} {step : σ → Call → σ → Nat → Prop}
variable {w next last : World γ} {s : σ} {c : Call} {r : Nat} {cs : List Call} {rs : List Nat}

/-- Every legal action returns, does the abstract step, and upholds what the client is owed. -/
theorem call (services : Services A ok R blocks step) (holds : Holds R blocks w s)
    (legal : w.Legal c) (fine : ok w.heap c) :
    ∃ next s' r, w.call A c = some (next, r) ∧ step s c s' r ∧ Holds R blocks next s' ∧
      Upholds w c next r := by
  obtain ⟨rep, owned⟩ := holds
  cases c with
  | malloc n =>
    obtain ⟨h', s', r, done, stepped, rep', keeps, outcome⟩ :=
      services.malloc rep legal.1 legal.2 fine
    obtain ⟨lo, aligned, low, tiles, high⟩ := services.tiles rep'
    have bytes : ∀ other ∈ w.live, ∀ b ∈ blocks s, b.used = true → b.addr = other.1 →
        ∀ x, Payload b x → h'.mem x = w.heap.mem x :=
      fun _ _ b member used _ x inside => keeps.bytes b member used x inside
    rcases outcome with ⟨rfl, same⟩ | ⟨real, served⟩
    · -- A refused request changes neither who owns what nor any payload.
      have owned' := owned.congr same
      refine ⟨{ w with heap := h' }, s', null, bind_step done (if_pos rfl), stepped, ⟨rep', owned'⟩, ?_⟩
      exact owned.upholds owned' tiles aligned low high (fun _ _ real => absurd rfl real)
        (fun _ member => member) (fun _ _ real => absurd rfl real) (fun _ => bytes)
    · -- A served one adds its pointer, which owned nothing before.
      have owned' := owned.malloc served
      refine ⟨{ heap := h', live := (r, n) :: w.live }, s', r, bind_step done (if_neg real), stepped,
        ⟨rep', owned'⟩, ?_⟩
      refine owned.upholds owned' tiles aligned low high ?_ (fun _ member => List.mem_cons_of_mem _ member)
        (fun _ _ _ other member => owned.ne served (k := other.2) member) (fun _ => bytes)
      intro k asks _
      obtain rfl := Option.some.inj asks
      exact List.mem_cons_self
  | free p =>
    -- A live pointer owns a block, so the code is called on the start of a used block.
    obtain ⟨size, live⟩ := legal
    obtain ⟨room, occupied, _⟩ := owned.block p size live
    obtain ⟨h', s', done, stepped, rep', keeps, released⟩ := services.free rep occupied fine
    obtain ⟨lo, aligned, low, tiles, high⟩ := services.tiles rep'
    have owned' := owned.free released
    refine ⟨{ heap := h', live := dropLive w.live p }, s', null, bind_step done rfl, stepped,
      ⟨rep', owned'⟩, ?_⟩
    refine owned.upholds owned' tiles aligned low high (fun _ asks => nomatch asks)
      (fun _ member => member) (fun _ asks => nomatch asks) ?_
    -- The blocks of the other pointers are not the one that is released.
    intro _ other member b block used here
    exact keeps.bytes b (mem_others.mpr ⟨block, here ▸ (mem_dropLive.mp member).2⟩) used
  | realloc p n =>
    obtain ⟨⟨size, live⟩, positive, small⟩ := legal
    obtain ⟨room, occupied, _⟩ := owned.block p size live
    obtain ⟨h', s', r, done, stepped, rep', keeps, outcome⟩ :=
      services.realloc rep occupied positive small fine
    obtain ⟨lo, aligned, low, tiles, high⟩ := services.tiles rep'
    have bytes : ∀ other ∈ dropLive w.live p, ∀ b ∈ blocks s, b.used = true → b.addr = other.1 →
        ∀ x, Payload b x → h'.mem x = w.heap.mem x := by
      intro other member b block used here
      exact keeps.bytes b (mem_others.mpr ⟨block, here ▸ (mem_dropLive.mp member).2⟩) used
    rcases outcome with ⟨rfl, same⟩ | ⟨real, served⟩
    · -- A served one adds its pointer, which owned nothing before.
      have owned' := owned.congr same
      refine ⟨{ w with heap := h' }, s', null, bind_step done (if_pos rfl), stepped, ⟨rep', owned'⟩, ?_⟩
      exact owned.upholds owned' tiles aligned low high (fun _ _ real => absurd rfl real)
        (fun _ member => (mem_dropLive.mp member).1) (fun _ _ real => absurd rfl real) (fun _ => bytes)
    · -- A served one replaces it, by a block that none of the other pointers owned.
      have owned' := owned.realloc served
      refine ⟨{ heap := h', live := (r, n) :: dropLive w.live p }, s', r, bind_step done (if_neg real),
        stepped, ⟨rep', owned'⟩, ?_⟩
      refine owned.upholds owned' tiles aligned low high ?_ (fun _ member => List.mem_cons_of_mem _ member)
        (fun _ _ _ other member =>
          (owned.free released_others).ne served (k := other.2) member) (fun _ => bytes)
      intro k asks _
      obtain rfl := Option.some.inj asks
      exact List.mem_cons_self
  | store addr byte =>
    obtain ⟨p, size, live, lower, upper⟩ := legal
    obtain ⟨b, block, used, _, inside⟩ := owned.payload live
    obtain ⟨lo, aligned, low, tiles, high⟩ := services.tiles rep
    refine ⟨_, s, null, rfl, services.store s addr byte, ⟨?_, owned⟩, ?_⟩
    · -- A store into a payload touches no tag and no link.
      refine services.written rep fun x outside => storeByte_other ?_
      rintro rfl
      exact outside b block used (inside x lower upper)
    · exact owned.upholds owned tiles aligned low high (fun _ asks => nomatch asks)
        (fun _ member => member) (fun _ asks => nomatch asks)
        (fun calls => absurd rfl (calls addr byte))

/-- The services also hold under stronger assumptions on the calls. -/
theorem narrow {ok' : Heap γ → Call → Prop} (services : Services A ok R blocks step)
    (stronger : ∀ {h c}, ok' h c → ok h c) : Services A ok' R blocks step where
  tiles := services.tiles
  written := services.written
  store := services.store
  malloc rep positive small fine := services.malloc rep positive small (stronger fine)
  free rep occupied fine := services.free rep occupied (stronger fine)
  realloc rep occupied positive small fine := services.realloc rep occupied positive small (stronger fine)

/-- Every world that a run reaches represents some abstract state. -/
theorem run (services : Services A ok R blocks step) (holds : Holds R blocks w s)
    (trace : Run A ok w cs rs last) : ∃ s', Holds R blocks last s' := by
  refine trace.invariant (I := fun w => ∃ s, Holds R blocks w s) ?_ ⟨s, holds⟩
  rintro w c next r ⟨s, holds⟩ legal fine stepped
  obtain ⟨next', s', r', done, _, holds', _⟩ := services.call holds legal fine
  -- The action returns only once, so the world it leads to is this one.
  rw [stepped] at done
  obtain ⟨rfl, rfl⟩ := Prod.mk.inj (Option.some.inj done)
  exact ⟨s', holds'⟩

/-- After every run one more legal action returns and upholds what the client is owed. -/
theorem contract (services : Services A ok R blocks step) (holds : Holds R blocks w s)
    (trace : Run A ok w cs rs last) (legal : last.Legal c) (fine : ok last.heap c) :
    ∃ next r, last.call A c = some (next, r) ∧ Upholds last c next r := by
  obtain ⟨s', holds'⟩ := services.run holds trace
  obtain ⟨next, _, r, done, _, _, upholds⟩ := services.call holds' legal fine
  exact ⟨next, r, done, upholds⟩

/-- When the abstract step is a function, every run returns what that function returns. -/
theorem refines {move : σ → Call → σ × Nat}
    (services : Services A ok R blocks fun s c s' r => move s c = (s', r))
    (holds : Holds R blocks w s) (trace : Run A ok w cs rs last) :
    (play move s cs).2 = rs ∧ Holds R blocks last (play move s cs).1 := by
  refine trace.simulates (R := Holds R blocks) ?_ holds
  intro w s c next r holds legal fine stepped
  obtain ⟨next', s', r', done, moved, holds', _⟩ := services.call holds legal fine
  -- The abstract step is a function, and the concrete action returns only once.
  rw [stepped] at done
  obtain ⟨rfl, rfl⟩ := Prod.mk.inj (Option.some.inj done)
  exact ⟨by rw [moved], by rw [moved]; exact holds'⟩

end Services

end MallocLab
