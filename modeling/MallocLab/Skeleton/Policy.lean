import MallocLab.Client.Services
import MallocLab.Skeleton.Mm

/-! What an allocator is for, apart from how it searches: the requests it serves from an abstract state. -/

namespace MallocLab.Skeleton

/--
An abstract allocator.

`pick` finds a free block for a block size, and `carve` hands out a part of it.
`extend` adds space at the end, merged with what is free there.
-/
structure Policy (σ : Type) where
  adjust : Nat → Nat
  blocks : σ → List Blk
  brk : σ → Nat
  pick : σ → Nat → Option Nat
  carve : σ → Nat → Nat → σ × Nat
  extend : σ → Nat → σ × Nat
  free : σ → Nat → σ

namespace Policy

variable {γ σ : Type} (P : Policy σ)

/-- Serves a request from a free block, else from new space below the limit, else returns null. -/
def malloc (limit : Nat) (s : σ) (n : Nat) : σ × Nat :=
  let a := P.adjust n
  -- The search comes first; only its failure extends the heap.
  match P.pick s a with
  | some p => P.carve s p a
  | none =>
    if P.brk s + max a 4096 ≤ limit then
      let (s, p) := P.extend s (max a 4096)
      P.carve s p a
    else (s, null)

/-- Serves a request anew and then frees the old block. -/
def realloc (limit : Nat) (s : σ) (p n : Nat) : σ × Nat :=
  let (s, q) := P.malloc limit s n
  if q = null then (s, null) else (P.free s p, q)

/-- One action of the client; what the client stores makes no difference. -/
def move (limit : Nat) (s : σ) : Call → σ × Nat
  | .malloc n => P.malloc limit s n
  | .free p => (P.free s p, null)
  | .realloc p n => P.realloc limit s p n
  | .store _ _ => (s, null)

/-- A free block of at least this size lies at this address. -/
def Fits (s : σ) (a p : Nat) : Prop := ∃ b ∈ P.blocks s, b.addr = p ∧ b.used = false ∧ a ≤ b.size

end Policy

/-- A block size for a request: a multiple of eight with room for the tags. -/
structure Adjusted (n a : Nat) : Prop where
  whole : a % 8 = 0
  least : 16 ≤ a
  room : n + 8 ≤ a
  word : a < 2 ^ 32

/-- The block size for any request, with the two places where it may wrap. -/
theorem adjustedSize_eq (n : Nat) : adjustedSize n = ((n + 8) % 2 ^ 32 + 7) % 2 ^ 32 / 8 * 8 := by
  unfold adjustedSize align add32 alignment
  rw [and_flagMask (Nat.mod_lt _ (by decide)), sizeTSize_eq]

/-- A request of legal size is rounded up to a multiple of eight, with room for the tags. -/
theorem adjustedSize_adjusted {n : Nat} (positive : 1 ≤ n) (small : n ≤ maxRequest) :
    adjustedSize n = 8 * ((n + 8 + 7) / 8) ∧ Adjusted n (adjustedSize n) := by
  unfold maxRequest at small
  have rounded : adjustedSize n = 8 * ((n + 8 + 7) / 8) := by
    unfold adjustedSize
    -- A legal size is small enough that neither addition wraps.
    rw [sizeTSize_eq, add32_eq (by omega), align_eq (by omega)]
    omega
  refine ⟨rounded, ?_⟩
  rw [rounded]
  constructor <;> omega

/-- The order of `mm_malloc`: search, else extend, and then place. -/
def mallocOf {γ : Type} (adjust : Nat → Nat) (findFit : Heap γ → Nat → Option (Heap γ × Nat))
    (place : Heap γ → Nat → Nat → Option (Heap γ × Nat)) (extend : Heap γ → Nat → Option (Heap γ × Nat))
    (h : Heap γ) (n : Nat) : Option (Heap γ × Nat) :=
  if n = 0 then some (h, null)
  else (findFit h (adjust n)).bind fun (h, bp) =>
    if bp ≠ null then place h bp (adjust n)
    else (extend h (maxWord (adjust n) chunksize)).bind fun (h, bp) =>
      if bp = null then some (h, null) else place h bp (adjust n)

section

variable {γ σ : Type} {P : Policy σ} {s s' : σ} {n p limit : Nat} {adjust : Nat → Nat} {r : Heap γ × Nat}
variable {findFit : Heap γ → Nat → Option (Heap γ × Nat)}
variable {place : Heap γ → Nat → Nat → Option (Heap γ × Nat)}
variable {extend : Heap γ → Nat → Option (Heap γ × Nat)} {h h₁ h₂ : Heap γ}

/-- Only the block size of the request itself matters. -/
theorem mallocOf_congr {adjust' : Nat → Nat} (same : adjust n = adjust' n) :
    mallocOf adjust findFit place extend h n = mallocOf adjust' findFit place extend h n := by
  unfold mallocOf
  rw [same]

/-- A request that is picked a block is carved out of it. -/
theorem Policy.malloc_picked (found : P.pick s (P.adjust n) = some p) :
    P.malloc limit s n = P.carve s p (P.adjust n) := by
  simp only [malloc, found]

/-- Otherwise it is carved out of new space. -/
theorem Policy.malloc_extended (found : P.pick s (P.adjust n) = none)
    (room : P.brk s + max (P.adjust n) 4096 ≤ limit)
    (grown : P.extend s (max (P.adjust n) 4096) = (s', p)) :
    P.malloc limit s n = P.carve s' p (P.adjust n) := by
  simp only [malloc, found, if_pos room, grown]

/-- Without new space it is refused. -/
theorem Policy.malloc_refused (found : P.pick s (P.adjust n) = none)
    (full : ¬ P.brk s + max (P.adjust n) 4096 ≤ limit) : P.malloc limit s n = (s, null) := by
  simp only [malloc, found, if_neg full]

/-- Only extensions move the break of the abstract allocator, each by its size. -/
structure Policy.Rises (P : Policy σ) : Prop where
  carve : ∀ s p a, P.brk (P.carve s p a).1 = P.brk s
  extend : ∀ s size, P.brk (P.extend s size).1 = P.brk s + size
  free : ∀ s p, P.brk (P.free s p) = P.brk s

/-- Then an action moves the break only upwards, and not past the limit. -/
theorem Policy.Rises.move_brk (rises : P.Rises) (below : P.brk s ≤ limit) (c : Call) :
    P.brk s ≤ P.brk (P.move limit s c).1 ∧ P.brk (P.move limit s c).1 ≤ limit := by
  -- Only a request can move the break, and only by its extension.
  have malloc : ∀ n, P.brk s ≤ P.brk (P.malloc limit s n).1 ∧ P.brk (P.malloc limit s n).1 ≤ limit := by
    intro n
    cases found : P.pick s (P.adjust n) with
    -- A block that is found is carved in place.
    | some p =>
      rw [Policy.malloc_picked found, rises.carve]
      exact ⟨Nat.le_refl _, below⟩
    | none =>
      -- The extension moves the break up, and not past the limit.
      by_cases room : P.brk s + max (P.adjust n) 4096 ≤ limit
      · rw [Policy.malloc_extended found room rfl, rises.carve, rises.extend]
        exact ⟨Nat.le_add_right _ _, room⟩
      · rw [Policy.malloc_refused found room]
        exact ⟨Nat.le_refl _, below⟩
  cases c with
  | malloc n => exact malloc n
  -- Freeing leaves the break where it is.
  | free p => exact ⟨Nat.le_of_eq (rises.free s p).symm, (rises.free s p).trans_le below⟩
  | realloc p n =>
    have served := malloc n
    -- A realloc is a request and then a free, which moves nothing.
    simp only [Policy.move, Policy.realloc]
    by_cases refused : (P.malloc limit s n).2 = null
    · rw [if_pos refused]
      exact served
    · rw [if_neg refused]
      simp only [rises.free]
      exact served
  | store addr byte => exact ⟨Nat.le_refl _, below⟩

/-- `mm_malloc` places the request in the block that the search has found. -/
theorem mallocOf_picked (positive : n ≠ 0) (found : findFit h (adjust n) = some (h₁, p)) (real : p ≠ null)
    (placed : place h₁ p (adjust n) = some r) : mallocOf adjust findFit place extend h n = some r :=
  (if_neg positive).trans (bind_step found ((if_pos real).trans placed))

/-- Otherwise it places the request in the new space. -/
theorem mallocOf_extended (positive : n ≠ 0) (found : findFit h (adjust n) = some (h₁, null))
    (grown : extend h₁ (maxWord (adjust n) chunksize) = some (h₂, p)) (real : p ≠ null)
    (placed : place h₂ p (adjust n) = some r) : mallocOf adjust findFit place extend h n = some r :=
  (if_neg positive).trans (bind_step found ((if_neg (fun absent => absent rfl)).trans
    (bind_step grown ((if_neg real).trans placed))))

/-- Without new space it returns null. -/
theorem mallocOf_refused (positive : n ≠ 0) (found : findFit h (adjust n) = some (h₁, null))
    (refused : extend h₁ (maxWord (adjust n) chunksize) = some (h₂, null)) :
    mallocOf adjust findFit place extend h n = some (h₂, null) :=
  (if_neg positive).trans (bind_step found ((if_neg (fun absent => absent rfl)).trans
    (bind_step refused (if_pos rfl))))

end

/-- The addition in `mem_sbrk` does not wrap when a request of this size has to extend the heap. -/
def RequestFits {γ : Type} (adjust : Nat → Nat) (findFit : Heap γ → Nat → Option (Heap γ × Nat))
    (h : Heap γ) (n : Nat) : Prop :=
  (findFit h (adjust n)).map Prod.snd = some null → SbrkFits h (maxWord (adjust n) chunksize)

/-- No address wraps during the call. -/
def NoWrap {γ : Type} (adjust : Nat → Nat) (findFit : Heap γ → Nat → Option (Heap γ × Nat)) (h : Heap γ) :
    Call → Prop
  | .malloc n => RequestFits adjust findFit h n
  -- The request inside a realloc is the only part of it that may extend the heap.
  | .realloc _ n => RequestFits adjust findFit h n
  | _ => True

instance {γ : Type} (adjust : Nat → Nat) (findFit : Heap γ → Nat → Option (Heap γ × Nat)) (h : Heap γ)
    (n : Nat) : Decidable (RequestFits adjust findFit h n) :=
  inferInstanceAs (Decidable (_ → _))

instance {γ : Type} (adjust : Nat → Nat) (findFit : Heap γ → Nat → Option (Heap γ × Nat)) (h : Heap γ)
    (c : Call) : Decidable (NoWrap adjust findFit h c) :=
  match c with
  | .malloc n | .realloc _ n => inferInstanceAs (Decidable (RequestFits adjust findFit h n))
  | .free _ | .store _ _ => inferInstanceAs (Decidable True)

/-- The number of bytes that `mm_realloc` copies, given what it reads as the old size. -/
def copied (n old : Nat) : Nat := if n < old then n else old

/-- No more bytes are copied than are asked for. -/
theorem copied_le (n old : Nat) : copied n old ≤ n := by
  unfold copied
  split <;> omega

/-- A reallocation whose request is served comes to the copy from the old block into the new one. -/
theorem reallocBy_copies {γ : Type} {malloc : Heap γ → Nat → Option (Heap γ × Nat)} (oldSize : Heap γ → Nat → Nat)
    (free : Heap γ → Nat → Option (Heap γ)) (p : Nat) {h served : Heap γ} {n r : Nat}
    (done : malloc h n = some (served, r)) (real : r ≠ null) :
    Copies (fun memcpy => reallocBy memcpy malloc oldSize free h p n) served r p (copied n (oldSize served p)) :=
  ⟨fun h => (free h p).bind fun h => some (h, r), fun _ => bind_step done (if_neg real)⟩

/-- A reallocation whose request is refused does not come to a copy. -/
theorem reallocBy_refused {γ : Type} {malloc : Heap γ → Nat → Option (Heap γ × Nat)} {oldSize : Heap γ → Nat → Nat}
    {free : Heap γ → Nat → Option (Heap γ)} {h h₁ served : Heap γ} {n p dst src count : Nat}
    (done : malloc h n = some (h₁, null)) :
    ¬ Copies (fun memcpy => reallocBy memcpy malloc oldSize free h p n) served dst src count := by
  rintro ⟨rest, goes⟩
  -- With a `memcpy` that always faults the call would not return, but it does.
  have faults : reallocBy (fun _ _ _ _ => none) malloc oldSize free h p n = none := goes _
  have returns : reallocBy (fun _ _ _ _ => none) malloc oldSize free h p n = some (h₁, null) :=
    bind_step done (if_pos rfl)
  rw [returns] at faults
  simp at faults

/-- A reallocation that returns over a strict machine returns alike over the usual one. -/
theorem reallocBy_strict {γ : Type} {malloc : Heap γ → Nat → Option (Heap γ × Nat)} {oldSize : Heap γ → Nat → Nat}
    {free : Heap γ → Nat → Option (Heap γ)} {h : Heap γ} {n p : Nat} {result : Heap γ × Nat}
    (done : reallocBy Heap.memcpyStrict malloc oldSize free h p n = some result) :
    mmRealloc malloc oldSize free h p n = some result := by
  obtain ⟨⟨h₁, r⟩, served, rest⟩ := Option.bind_eq_some_iff.mp done
  refine bind_step served ?_
  by_cases refused : r = null
  · simp only [if_pos refused] at rest ⊢
    exact rest
  · -- The two machines differ in the copy only.
    simp only [if_neg refused] at rest ⊢
    obtain ⟨h₂, copied, freed⟩ := Option.bind_eq_some_iff.mp rest
    exact bind_step (Heap.memcpyStrict_some copied) freed

/-- When it returns over the usual machine only, its copy is one that C does not define. -/
theorem reallocBy_undefined {γ : Type} {malloc : Heap γ → Nat → Option (Heap γ × Nat)}
    {oldSize : Heap γ → Nat → Nat} {free : Heap γ → Nat → Option (Heap γ)} {h : Heap γ} {n p : Nat}
    {result : Heap γ × Nat} (done : mmRealloc malloc oldSize free h p n = some result)
    (faults : reallocBy Heap.memcpyStrict malloc oldSize free h p n = none) :
    ∃ served r k, Copies (fun memcpy => reallocBy memcpy malloc oldSize free h p n) served r p k ∧
      ¬ Defined served r p k := by
  obtain ⟨⟨served, r⟩, request, _⟩ := Option.bind_eq_some_iff.mp done
  by_cases refused : r = null
  · -- A refused request returns on either machine.
    have returns : reallocBy Heap.memcpyStrict malloc oldSize free h p n = some (served, null) :=
      bind_step request (if_pos refused)
    rw [returns] at faults
    simp at faults
  · -- The copy is made, so only the copy can have failed.
    have comes := reallocBy_copies oldSize free p request refused
    refine ⟨served, r, _, comes, fun defined => ?_⟩
    obtain ⟨rest, goes⟩ := comes
    have carried : served.memcpyStrict r p (copied n (oldSize served p)) = served.memcpy r p _ := if_pos defined
    -- If it were defined, then the two machines would do the same.
    have same : reallocBy Heap.memcpyStrict malloc oldSize free h p n = mmRealloc malloc oldSize free h p n :=
      (goes _).trans ((congrArg (Option.bind · rest) carried).trans (goes Heap.memcpy).symm)
    rw [same, done] at faults
    simp at faults

/-- The guarantees of the parts of an allocator over states that represent abstract states. -/
structure Parts {γ σ : Type} (P : Policy σ) (base : Nat) (R : Heap γ → σ → Prop) (adjust : Nat → Nat)
    (findFit : Heap γ → Nat → Option (Heap γ × Nat)) (place : Heap γ → Nat → Nat → Option (Heap γ × Nat))
    (extend : Heap γ → Nat → Option (Heap γ × Nat)) (free : Heap γ → Nat → Option (Heap γ)) : Prop where
  adjusted : ∀ {n}, 1 ≤ n → n ≤ maxRequest → adjust n = P.adjust n ∧ Adjusted n (P.adjust n)
  limit : ∀ {h s}, R h s → h.memMaxAddr = base + maxHeap
  brk : ∀ {h s}, R h s → h.memBrk = P.brk s
  tiles : ∀ {h s}, R h s → ∃ lo, lo % 8 = 0 ∧ 8 ≤ lo ∧ h.memStartBrk ≤ lo ∧
    Tiles lo (P.blocks s) h.memBrk ∧ h.memBrk < 2 ^ 32
  written : ∀ {h s m}, R h s → (∀ x, (∀ b ∈ P.blocks s, b.used = true → ¬ Payload b x) → m x = h.mem x) →
    R { h with mem := m } s
  find : ∀ {h s n a}, R h s → Adjusted n a → ∃ h', findFit h a = some (h', (P.pick s a).getD null) ∧
    R h' s ∧ Keeps h h' (P.blocks s)
  picked : ∀ {h s n a p}, R h s → Adjusted n a → P.pick s a = some p → p ≠ null ∧ P.Fits s a p
  place : ∀ {h s n a p}, R h s → Adjusted n a → P.adjust n = a → P.Fits s a p →
    ∃ h', place h p a = some (h', (P.carve s p a).2) ∧ R h' (P.carve s p a).1 ∧
      Keeps h h' (P.blocks s) ∧ (P.carve s p a).2 ≠ null ∧
      Served (P.blocks s) (P.blocks (P.carve s p a).1) (P.carve s p a).2 (a - 8)
  granted : ∀ {h s size}, R h s → size % 8 = 0 → 4096 ≤ size → P.brk s + size ≤ h.memMaxAddr →
    ∃ h', extend h size = some (h', (P.extend s size).2) ∧ R h' (P.extend s size).1 ∧
      Keeps h h' (P.blocks s) ∧ (P.extend s size).2 ≠ null ∧
      P.Fits (P.extend s size).1 size (P.extend s size).2 ∧
      ∀ q k, Occupied (P.blocks (P.extend s size).1) q k ↔ Occupied (P.blocks s) q k
  refused : ∀ {h s size}, R h s → size % 8 = 0 → size < 2 ^ 32 → SbrkFits h size →
    h.memMaxAddr < P.brk s + size → extend h size = some (h, null)
  free : ∀ {h s p size}, R h s → Occupied (P.blocks s) p size →
    ∃ h', free h p = some h' ∧ R h' (P.free s p) ∧ Released (P.blocks s) (P.blocks (P.free s p)) p ∧
      Keeps h h' (others (P.blocks s) p)

namespace Parts

variable {γ σ : Type} {P : Policy σ} {base : Nat} {R : Heap γ → σ → Prop} {adjust : Nat → Nat}
variable {findFit : Heap γ → Nat → Option (Heap γ × Nat)}
variable {place : Heap γ → Nat → Nat → Option (Heap γ × Nat)}
variable {extend : Heap γ → Nat → Option (Heap γ × Nat)} {free : Heap γ → Nat → Option (Heap γ)}
variable {h : Heap γ} {s : σ} {n p size : Nat}

/-- A free block that is large enough serves the request. -/
theorem malloc_found (parts : Parts P base R adjust findFit place extend free) (rep : R h s) (positive : 1 ≤ n)
    (small : n ≤ maxRequest) (found : P.pick s (P.adjust n) = some p) :
    ∃ h', mallocOf adjust findFit place extend h n = some (h', (P.carve s p (P.adjust n)).2) ∧
      R h' (P.carve s p (P.adjust n)).1 ∧ Keeps h h' (P.blocks s) ∧
      (P.carve s p (P.adjust n)).2 ≠ null ∧
      Served (P.blocks s) (P.blocks (P.carve s p (P.adjust n)).1) (P.carve s p (P.adjust n)).2
        (P.adjust n - 8) := by
  -- The code and the policy ask for the same block size, so they search alike.
  obtain ⟨same, adjusted⟩ := parts.adjusted positive small
  rw [mallocOf_congr same]
  obtain ⟨h₁, searched, rep₁, keeps₁⟩ := parts.find rep adjusted
  rw [found] at searched
  obtain ⟨real, fit⟩ := parts.picked rep adjusted found
  -- The search has changed no block, so the block that it found can still be carved.
  obtain ⟨h', done, rep', keeps, pReal, served⟩ := parts.place rep₁ adjusted rfl fit
  exact ⟨h', mallocOf_picked (by omega) searched real done, rep', keeps₁.trans keeps, pReal, served⟩

/-- The extension for a request is a multiple of eight that is large enough. -/
theorem extension (adjusted : Adjusted n size) : max size 4096 % 8 = 0 ∧ size ≤ max size 4096 ∧
    max size 4096 < 2 ^ 32 ∧ maxWord size chunksize = max size 4096 := by
  have whole := adjusted.whole
  have word := adjusted.word
  exact ⟨by omega, by omega, by omega, maxWord_eq _ _⟩

/-- Without such a block the request is served from new space, when there is room. -/
theorem malloc_grown (parts : Parts P base R adjust findFit place extend free) (rep : R h s) (positive : 1 ≤ n)
    (small : n ≤ maxRequest) (found : P.pick s (P.adjust n) = none)
    (room : P.brk s + max (P.adjust n) 4096 ≤ base + maxHeap) :
    ∃ h' h₂ s₁ q, P.extend s (max (P.adjust n) 4096) = (s₁, q) ∧ R h₂ s₁ ∧
      mallocOf adjust findFit place extend h n = some (h', (P.carve s₁ q (P.adjust n)).2) ∧
      R h' (P.carve s₁ q (P.adjust n)).1 ∧ Keeps h h' (P.blocks s) ∧
      (P.carve s₁ q (P.adjust n)).2 ≠ null ∧ P.Fits s₁ (max (P.adjust n) 4096) q ∧
      Served (P.blocks s) (P.blocks (P.carve s₁ q (P.adjust n)).1) (P.carve s₁ q (P.adjust n)).2
        (P.adjust n - 8) := by
  obtain ⟨same, adjusted⟩ := parts.adjusted positive small
  rw [mallocOf_congr same]
  obtain ⟨h₁, searched, rep₁, keeps₁⟩ := parts.find rep adjusted
  rw [found] at searched
  obtain ⟨extWhole, extEnough, extWord, chunk⟩ := extension adjusted
  have least := adjusted.least
  have limit := parts.limit rep₁
  -- The extension ends in a free block that is large enough for the request.
  obtain ⟨h₂, grown, rep₂, keeps₂, real, fit, same⟩ :=
    parts.granted rep₁ extWhole (by omega) (limit ▸ room)
  have ⟨b, member, here, free, large⟩ := fit
  obtain ⟨h₃, done, rep₃, keeps₃, pReal, served⟩ :=
    parts.place rep₂ adjusted rfl ⟨b, member, here, free, by omega⟩
  -- A block in use before the extension is in use after it, so placing keeps it too.
  have keeps := (keeps₁.trans keeps₂).trans (keeps₃.transfer fun q k used => (same q k).mpr used)
  exact ⟨h₃, h₂, _, _, rfl, rep₂, mallocOf_extended (by omega) searched (chunk ▸ grown) real done, rep₃,
    keeps, pReal, fit, served.congr same⟩

/-- Without room the request is refused, and only the search has been carried out. -/
theorem malloc_full (parts : Parts P base R adjust findFit place extend free) (rep : R h s) (positive : 1 ≤ n)
    (small : n ≤ maxRequest) (fits : RequestFits adjust findFit h n)
    (found : P.pick s (P.adjust n) = none)
    (full : ¬ P.brk s + max (P.adjust n) 4096 ≤ base + maxHeap) :
    ∃ h₁, findFit h (P.adjust n) = some (h₁, null) ∧
      mallocOf adjust findFit place extend h n = some (h₁, null) ∧ R h₁ s ∧ Keeps h h₁ (P.blocks s) := by
  obtain ⟨same, adjusted⟩ := parts.adjusted positive small
  unfold RequestFits at fits
  rw [mallocOf_congr same]
  rw [same] at fits
  -- The search finds nothing.
  obtain ⟨h₁, searched, rep₁, keeps₁⟩ := parts.find rep adjusted
  rw [found] at searched
  obtain ⟨extWhole, _, extWord, chunk⟩ := extension adjusted
  have limit := parts.limit rep₁
  -- The search moves no break, so the addition still does not wrap after it.
  have fine : SbrkFits h₁ (max (P.adjust n) 4096) := by
    have fine := fits (by rw [searched]; rfl)
    unfold SbrkFits at fine ⊢
    rwa [parts.brk rep₁, ← parts.brk rep, ← chunk]
  have refused := parts.refused rep₁ extWhole extWord fine (by omega)
  exact ⟨h₁, searched, mallocOf_refused (by omega) searched (chunk ▸ refused), rep₁, keeps₁⟩

/-- `mm_malloc` serves the request, or returns null and changes no block. -/
theorem malloc (parts : Parts P base R adjust findFit place extend free) (rep : R h s) (positive : 1 ≤ n)
    (small : n ≤ maxRequest) (fits : RequestFits adjust findFit h n) :
    ∃ h' s' r, P.malloc (base + maxHeap) s n = (s', r) ∧
      mallocOf adjust findFit place extend h n = some (h', r) ∧ R h' s' ∧
      Keeps h h' (P.blocks s) ∧ (r = null ∧ s' = s ∨ r ≠ null ∧ Served (P.blocks s) (P.blocks s') r n) := by
  -- The tags take eight bytes of the block, and the rest is the payload.
  have enough : n ≤ P.adjust n - 8 := by
    have := (parts.adjusted positive small).2.room
    omega
  -- A block is found, or the heap is extended, or the request is refused.
  cases found : P.pick s (P.adjust n) with
  | some p =>
    obtain ⟨h', done, rep', keeps, real, served⟩ := parts.malloc_found rep positive small found
    exact ⟨h', _, _, Policy.malloc_picked found, done, rep', keeps, .inr ⟨real, served.weaken enough⟩⟩
  | none =>
    by_cases room : P.brk s + max (P.adjust n) 4096 ≤ base + maxHeap
    · obtain ⟨h', _, s₁, q, grown, _, done, rep', keeps, real, _, served⟩ :=
        parts.malloc_grown rep positive small found room
      exact ⟨h', _, _, Policy.malloc_extended found room grown, done, rep', keeps,
        .inr ⟨real, served.weaken enough⟩⟩
    · obtain ⟨h₁, _, done, rep₁, keeps⟩ := parts.malloc_full rep positive small fits found room
      exact ⟨h₁, s, null, Policy.malloc_refused found room, done, rep₁, keeps, .inl ⟨rfl, rfl⟩⟩

/-- When the space that the request may need is there, it is served. -/
theorem malloc_granted (parts : Parts P base R adjust findFit place extend free) (rep : R h s) (positive : 1 ≤ n)
    (small : n ≤ maxRequest)
    (granted : P.pick s (P.adjust n) = none → P.brk s + max (P.adjust n) 4096 ≤ base + maxHeap) :
    ∃ h' s' r, mallocOf adjust findFit place extend h n = some (h', r) ∧ R h' s' ∧ Keeps h h' (P.blocks s) ∧
      r ≠ null ∧ Served (P.blocks s) (P.blocks s') r n := by
  have enough : n ≤ P.adjust n - 8 := by
    have := (parts.adjusted positive small).2.room
    omega
  -- Without a block that fits, the extension is granted.
  cases found : P.pick s (P.adjust n) with
  | some p =>
    obtain ⟨h', done, rep', keeps, real, served⟩ := parts.malloc_found rep positive small found
    exact ⟨h', _, _, done, rep', keeps, real, served.weaken enough⟩
  | none =>
    obtain ⟨h', _, _, _, _, _, done, rep', keeps, real, _, served⟩ :=
      parts.malloc_grown rep positive small found (granted found)
    exact ⟨h', _, _, done, rep', keeps, real, served.weaken enough⟩

/-- When the break is inside the area, a small request does not wrap. -/
theorem requestFits (parts : Parts P base R adjust findFit place extend free) (rep : R h s)
    (inside : P.brk s ≤ base + maxHeap) (positive : 1 ≤ n) (legal : n ≤ maxRequest) (few : P.adjust n ≤ n + 4096)
    (small : base + maxHeap + n + 4096 < 2 ^ 32) : RequestFits adjust findFit h n := by
  -- The block and the chunk are larger than the request by a page at most.
  intro _ _
  have brk := parts.brk rep
  rw [(parts.adjusted positive legal).1, maxWord_eq]
  have chunk : chunksize = 4096 := rfl
  omega

/-- The pointer of a used block is not null. -/
theorem occupied_real (parts : Parts P base R adjust findFit place extend free) (rep : R h s)
    (occupied : Occupied (P.blocks s) p size) : p ≠ null := by
  obtain ⟨b, block, rfl, _⟩ := occupied
  obtain ⟨lo, _, low, _, tiles, _⟩ := parts.tiles rep
  have := (tiles.within block).lower
  unfold null
  omega

/-- Once the new block is served, the code copies into it and frees the old block. -/
theorem moves (parts : Parts P base R adjust findFit place extend free) {h₁ : Heap γ} {s₁ : σ} {r k : Nat}
    (bounded : k ≤ n) (real : r ≠ null) (rep₁ : R h₁ s₁) (served : Served (P.blocks s) (P.blocks s₁) r n)
    (occupied : Occupied (P.blocks s) p size) :
    ∃ h', h₁.memcpy r p k = some { h₁ with mem := copyBytes h₁.mem r p k } ∧
      free { h₁ with mem := copyBytes h₁.mem r p k } p = some h' ∧
      R h' (P.free s₁ p) ∧ Released (P.blocks s₁) (P.blocks (P.free s₁ p)) p ∧
      Keeps h₁ { h₁ with mem := copyBytes h₁.mem r p k } (others (P.blocks s₁) r) ∧
      Keeps { h₁ with mem := copyBytes h₁.mem r p k } h' (others (P.blocks s₁) p) := by
  obtain ⟨fresh, taken, room, gained⟩ := served
  -- Serving the new block has left the old one in use.
  have old : Occupied (P.blocks s₁) p size := (gained p size).mpr (.inl occupied)
  obtain ⟨lo, _, low, _, tiles, _⟩ := parts.tiles rep₁
  have pReal := parts.occupied_real rep₁ old
  obtain ⟨c, block, cHere, cSize, cUsed⟩ : Occupied (P.blocks s₁) r taken :=
    (gained r taken).mpr (.inr ⟨rfl, rfl⟩)
  -- The copy stays inside the payload of the new block.
  have same : ∀ x, ¬ Payload c x → copyBytes h₁.mem r p k x = h₁.mem x := by
    intro x outside
    apply copyBytes_other
    unfold Payload at outside
    omega
  have rep₂ := parts.written (m := copyBytes h₁.mem r p k) rep₁ fun x outside => same x (outside c block cUsed)
  obtain ⟨h', done', rep', released, keeps'⟩ := parts.free rep₂ old
  refine ⟨h', Heap.memcpy_real real pReal, done', rep', released,
    ⟨rfl, rfl, fun d member _ x inside => same x fun within_ => ?_⟩, keeps'⟩
  obtain ⟨dBlock, other⟩ := mem_others.mp member
  rcases tiles.apart block dBlock with rfl | apart
  · -- The only block whose payload the copy touches is the new one.
    exact other cHere
  · unfold Payload at inside within_
    omega

/-- Once the new block is served, `mm_realloc` moves the old one there. -/
theorem realloc_moves (parts : Parts P base R adjust findFit place extend free) (oldSize : Heap γ → Nat → Nat)
    {h₁ : Heap γ} {s₁ : σ} {r : Nat} (done₁ : mallocOf adjust findFit place extend h n = some (h₁, r))
    (real : r ≠ null) (rep₁ : R h₁ s₁) (served : Served (P.blocks s) (P.blocks s₁) r n)
    (occupied : Occupied (P.blocks s) p size) :
    ∃ h', mmRealloc (mallocOf adjust findFit place extend) oldSize free h p n = some (h', r) ∧
      R h' (P.free s₁ p) ∧ Released (P.blocks s₁) (P.blocks (P.free s₁ p)) p ∧
      Keeps h₁ { h₁ with mem := copyBytes h₁.mem r p (copied n (oldSize h₁ p)) } (others (P.blocks s₁) r) ∧
      Keeps { h₁ with mem := copyBytes h₁.mem r p (copied n (oldSize h₁ p)) } h' (others (P.blocks s₁) p) := by
  obtain ⟨h', copy, done, rest⟩ := parts.moves (copied_le n (oldSize h₁ p)) real rep₁ served occupied
  exact ⟨h', bind_step done₁ ((if_neg real).trans (bind_step copy (bind_step done rfl))), rest⟩

/-- `mm_realloc` serves the request at a new address and releases the old block. -/
theorem realloc (parts : Parts P base R adjust findFit place extend free) (oldSize : Heap γ → Nat → Nat)
    (rep : R h s) (occupied : Occupied (P.blocks s) p size) (positive : 1 ≤ n) (small : n ≤ maxRequest)
    (fits : RequestFits adjust findFit h n) :
    ∃ h' s' r, P.realloc (base + maxHeap) s p n = (s', r) ∧
      mmRealloc (mallocOf adjust findFit place extend) oldSize free h p n = some (h', r) ∧ R h' s' ∧
      Keeps h h' (others (P.blocks s) p) ∧
      (r = null ∧ s' = s ∨ r ≠ null ∧ Served (others (P.blocks s) p) (P.blocks s') r n) := by
  obtain ⟨h₁, s₁, r, abstract, done₁, rep₁, keeps₁, outcome⟩ := parts.malloc rep positive small fits
  unfold Policy.realloc
  rw [abstract]
  rcases outcome with ⟨rfl, rfl⟩ | ⟨real, served⟩
  · -- A refused request leaves the old block alone.
    exact ⟨h₁, s₁, null, if_pos rfl, bind_step done₁ (if_pos rfl), rep₁,
      keeps₁.transfer fun q k used => (occupied_others.mp used).1, .inl ⟨rfl, rfl⟩⟩
  · -- A served one is followed by the copy and the free.
    obtain ⟨h', done, rep', released, copies, frees⟩ :=
      parts.realloc_moves oldSize done₁ real rep₁ served occupied
    exact ⟨h', P.free s₁ p, r, if_neg real, done, rep', served.keeps_others keeps₁ copies frees,
      .inr ⟨real, Served.release served occupied released⟩⟩

/-- `mm_malloc` does the step of the abstract allocator. -/
theorem serves_malloc (parts : Parts P base R adjust findFit place extend free) (rep : R h s) (positive : 1 ≤ n)
    (small : n ≤ maxRequest) (fits : RequestFits adjust findFit h n) :
    ∃ h' s' r, mallocOf adjust findFit place extend h n = some (h', r) ∧
      P.move (base + maxHeap) s (.malloc n) = (s', r) ∧ R h' s' ∧ Keeps h h' (P.blocks s) ∧
      (r = null ∧ (∀ q k, Occupied (P.blocks s') q k ↔ Occupied (P.blocks s) q k) ∨
        r ≠ null ∧ Served (P.blocks s) (P.blocks s') r n) := by
  obtain ⟨h', s', r, abstract, done, rep', keeps, outcome⟩ := parts.malloc rep positive small fits
  refine ⟨h', s', r, done, abstract, rep', keeps, outcome.imp_left ?_⟩
  rintro ⟨refused, rfl⟩
  exact ⟨refused, fun _ _ => Iff.rfl⟩

/-- `mm_free` does the step of the abstract allocator. -/
theorem serves_free (parts : Parts P base R adjust findFit place extend free) (rep : R h s)
    (occupied : Occupied (P.blocks s) p size) :
    ∃ h' s', free h p = some h' ∧ P.move (base + maxHeap) s (.free p) = (s', null) ∧ R h' s' ∧
      Keeps h h' (others (P.blocks s) p) ∧ Released (P.blocks s) (P.blocks s') p := by
  obtain ⟨h', done, rep', released, keeps⟩ := parts.free rep occupied
  exact ⟨h', P.free s p, done, rfl, rep', keeps, released⟩

/-- An allocator made of such parts serves its clients by the steps of the abstract allocator. -/
theorem services (parts : Parts P base R adjust findFit place extend free) (oldSize : Heap γ → Nat → Nat)
    {A : Allocator γ} (malloc : A.mmMalloc = mallocOf adjust findFit place extend)
    (free_ : A.mmFree = free) (realloc : ∀ {h p n}, p ≠ null → n ≠ 0 →
      A.mmRealloc h p n = mmRealloc (mallocOf adjust findFit place extend) oldSize free h p n) :
    Services A (NoWrap adjust findFit) R P.blocks fun s c s' r => P.move (base + maxHeap) s c = (s', r) where
  -- The blocks tile the heap up to the break.
  tiles := by
    intro h s rep
    obtain ⟨lo, aligned, _, low, tiles, high⟩ := parts.tiles rep
    exact ⟨lo, aligned, low, tiles, high⟩
  written := parts.written
  store := fun _ _ _ => rfl
  -- Each function of the file is one of the skeleton.
  malloc := by
    intro h s n rep positive small fine
    rw [malloc]
    exact parts.serves_malloc rep positive small fine
  free := by
    intro h s p size rep occupied _
    rw [free_]
    exact parts.serves_free rep occupied
  realloc := by
    intro h s p size n rep occupied positive small fine
    obtain ⟨h', s', r, abstract, done, rep', keeps, outcome⟩ :=
      parts.realloc oldSize rep occupied positive small fine
    have real := parts.occupied_real rep occupied
    refine ⟨h', s', r, (realloc real (by omega)).trans done, abstract, rep', keeps, outcome.imp_left ?_⟩
    -- Nothing has changed when the request is refused.
    rintro ⟨refused, rfl⟩
    exact ⟨refused, fun _ _ => Iff.rfl⟩

end Parts

end MallocLab.Skeleton
