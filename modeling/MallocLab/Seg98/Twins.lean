import MallocLab.Client.Lockstep
import MallocLab.Seg98.Parts
import MallocLab.Tiling.Walk

/-! Without reallocation `(98)분석.c` and `(98)정리.c` return the same pointers and build the same heap. -/

namespace MallocLab.Seg98

open Segregated

/-- The allocator is made of the functions of the file, apart from reallocation. -/
structure Made (f : File) (A : Allocator (Nat → Nat)) : Prop where
  spells : Spells f.entries links
  malloc : A.mmMalloc = mmMalloc f
  frees : Frees f A.mmFree

/-- The file with tags is made of the shared parts. -/
theorem Tagged.made : Made Tagged.file Tagged.mm := ⟨Tagged.spells, rfl, Tagged.frees⟩

/-- So is the file without tags. -/
theorem Plain.made : Made Plain.file Plain.mm := ⟨Plain.spells, rfl, Plain.frees⟩

/-- The step of the abstract allocator for a quiet action; a request for nothing changes nothing. -/
def quietMove (limit : Nat) (s : Shelves) (c : Call) : Shelves × Nat :=
  if c = .malloc 0 then (s, null) else policy.move limit s c

/-- Two worlds that stand for the same abstract state and belong to the same client. -/
def Paired (f f' : File) (base : Nat) (w w' : World (Nat → Nat)) : Prop :=
  ∃ s, Holds (Stands f base) Shelves.blocks w s ∧ Holds (Stands f' base) Shelves.blocks w' s ∧ w'.live = w.live

variable {f f' : File} {A B : Allocator (Nat → Nat)} {base : Nat} {h h' : State} {s : Shelves} {b : Blk}
variable {w w' next : World (Nat → Nat)} {c : Call} {cs : List Call} {rs rs' : List Nat}

/-- An allocator of either file serves its clients, as long as they do not reallocate. -/
theorem Made.services (made : Made f A) (base : Nat) :
    Services A (fun h c => NoWrap f h c ∧ c.reallocates = false) (Stands f base) Shelves.blocks
      fun s c s' r => policy.move (base + maxHeap) s c = (s', r) where
  tiles := Stands.tiling
  written := Stands.written
  store := fun _ _ _ => rfl
  malloc := by
    intro h s n stands positive small fine
    rw [made.malloc]
    exact (parts made.spells made.frees base).serves_malloc stands positive small fine.1
  free := fun stands occupied _ => (parts made.spells made.frees base).serves_free stands occupied
  realloc := fun _ _ _ _ fine => nomatch fine.2

/-- Every quiet action returns, and does the step of the abstract allocator. -/
theorem Made.quiet_call (made : Made f A) (holds : Holds (Stands f base) Shelves.blocks w s) (quiet : w.Quiet c)
    (fine : NoWrap f w.heap c) :
    ∃ next, w.call A c = some (next, (quietMove (base + maxHeap) s c).2) ∧
      Holds (Stands f base) Shelves.blocks next (quietMove (base + maxHeap) s c).1 := by
  unfold quietMove
  by_cases nothing : c = .malloc 0
  · -- A request for nothing returns null before anything is searched.
    rw [if_pos nothing, nothing]
    refine ⟨w, ?_, holds⟩
    show (A.mmMalloc w.heap 0).bind _ = _
    rw [made.malloc]
    rfl
  · -- Any other action is legal for the allocator.
    rw [if_neg nothing]
    obtain ⟨legal, kept⟩ := quiet.legal.resolve_right nothing
    obtain ⟨next, s', r, done, step, holds', _⟩ := (made.services base).call holds legal ⟨fine, kept⟩
    rw [step]
    exact ⟨next, done, holds'⟩

/-- Whether an address wraps depends on what the abstract allocator picks and on the break. -/
theorem Made.noWrap (made : Made f A) (made' : Made f' B) (stands : Stands f base h s) (stands' : Stands f' base h' s)
    (quiet : w.Quiet c) (fine : NoWrap f h c) : NoWrap f' h' c := by
  cases c with
  -- Both files search the same shelves, and their breaks are the same.
  | malloc n =>
    have positive : adjustedSize n ≠ 0 := by
      by_cases nothing : n = 0
      · rw [nothing]
        decide
      · have := (adjustedSize_adjusted (Nat.pos_of_ne_zero nothing) quiet).2.least
        omega
    have brk : h.memBrk = h'.memBrk := stands.rep.brk.trans stands'.rep.brk.symm
    show Skeleton.RequestFits adjustedSize (findFit f') h' n
    have fine : Skeleton.RequestFits adjustedSize (findFit f) h n := fine
    unfold Skeleton.RequestFits SbrkFits at fine ⊢
    rw [findFit_result made.spells stands.rep positive] at fine
    rw [findFit_result made'.spells stands'.rep positive]
    exact brk ▸ fine
  | free ptr => trivial
  | realloc ptr size => exact quiet.elim
  | store addr byte => trivial

/-- The allocators of the two files move in step. -/
theorem Made.lockstep (made : Made f A) (made' : Made f' B) (base : Nat) :
    Lockstep A B (NoWrap f) (NoWrap f') (Paired f f' base) where
  fine := by
    rintro w w' c ⟨s, holds, holds', same⟩ quiet fine
    exact ⟨quiet.congr same, made.noWrap made' holds.rep holds'.rep quiet fine⟩
  call := by
    rintro w w' c ⟨s, holds, holds', same⟩ quiet fine
    have fine' := made.noWrap made' holds.rep holds'.rep quiet fine
    obtain ⟨next, done, after⟩ := made.quiet_call holds quiet fine
    obtain ⟨next', done', after'⟩ := made'.quiet_call holds' (quiet.congr same) fine'
    refine ⟨next, next', _, done, done', _, after, after', ?_⟩
    rw [World.call_live done, World.call_live done', same]

/--
What two heaps have in common, up to the second bit of the footers.

The heap of the file with tags comes first; `passed` are the blocks from `start` on in both.
-/
structure Same (start : Nat) (h h' : State) (passed : List Nat) : Prop where
  brk : h.memBrk = h'.memBrk
  walk : HeapWalk h start passed h.memBrk
  walk' : HeapWalk h' start passed h'.memBrk
  headers : ∀ p ∈ passed ++ [h.memBrk], h.get (hdrp p) = h'.get (hdrp p)
  footers : ∀ p ∈ passed, h.get (ftrp h p) ||| 2 = h'.get (ftrp h' p) ||| 2
  links : ∀ p ∈ passed, getAlloc h (hdrp p) = 0 →
    h.get (Tagged.succPtr p) = h'.get (Plain.predPtr p) ∧ h.get (Tagged.predPtr p) = h'.get (Plain.succPtr p)
  lists : ∀ k < listLimit, h.statics k = h'.statics k

/-- Setting the second bit of a footer hides whether it is stray. -/
theorem footer_or {loose : Bool} {v : Nat} (foot : Footer loose b v) (whole : b.size % 8 = 0) :
    v ||| 2 = b.size + b.used.toNat + 2 := by
  have used := Bool.toNat_lt_two b.used
  have merged : ∀ flags < 8, flags ||| 2 = b.used.toNat + 2 → b.size + flags ||| 2 = b.size + b.used.toNat + 2 := by
    intro flags small same
    rw [← or_flags whole small, Nat.or_assoc, same, or_flags whole (by omega), Nat.add_assoc]
  rcases foot with rfl | ⟨_, rfl⟩
  · exact merged _ (by omega) (by cases b.used <;> rfl)
  · rw [Nat.add_assoc]
    exact merged _ (by omega) (by cases b.used <;> rfl)

/-- The links of a listed block are determined by its shelf. -/
theorem Stands.links {k p : Nat} {left right : List Nat} (stands : Stands f base h s)
    (split : s.lists k = left ++ p :: right) :
    h.get p = right.headD null ∧ h.get (p + 4) = left.getLastD null := by
  have linked := stands.rep.threaded.linked k
  have chain : (layout f).chain h.memStartBrk k (s.lists k) = s.lists k := chain_eq _ _ _
  rw [chain, split] at linked
  exact ⟨linked.links.2, linked.links.1⟩

/-- Heaps that stand for the same abstract state differ in the second bit of footers at most. -/
theorem Stands.same (stands : Stands Tagged.file base h s) (stands' : Stands Plain.file base h' s) :
    Same (base + 8) h h' ((Skeleton.prologue base :: s.blocks).map Blk.addr) := by
  have arena := stands.rep.arena
  have arena' := stands'.rep.arena
  rw [stands.start] at arena
  rw [stands'.start] at arena'
  have brk : h.memBrk = h'.memBrk := stands.rep.brk.trans stands'.rep.brk.symm
  have low := arena.low
  have rise := arena.tiles.le
  refine ⟨brk, arena.walk, arena'.walk, ?_, ?_, ?_, ?_⟩
  · -- The headers are those of the same blocks.
    intro p member
    rcases List.mem_append.mp member with member | last
    · obtain ⟨b, block, rfl⟩ := List.mem_map.mp member
      exact (arena.header block).trans (arena'.header block).symm
    · -- The last one is the epilogue.
      obtain rfl := List.mem_singleton.mp last
      have closing := arena'.closing
      rw [← brk] at closing
      rw [hdrp_eq (by omega) arena.high]
      exact arena.closing.trans closing.symm
  · -- The footers may differ in the tag bit, which one file sets and the other does not.
    refine List.forall_mem_map.mpr fun b member => ?_
    have whole := (arena.within member).whole
    rw [arena.ftrp member, arena'.ftrp member]
    exact (footer_or (arena.tags b member).footer whole).trans (footer_or (arena'.tags b member).footer whole).symm
  · -- A free block has the same two neighbours on both lists.
    intro p member free
    obtain ⟨b, block, rfl⟩ := List.mem_map.mp member
    have idle : b.used = false := (arena.alloc_free block).mp free
    have upper := (arena.within block).upper
    have least := (arena.within block).least
    have high := arena.high
    have second : add32 b.addr wsize = b.addr + 4 := add32_eq (by unfold wsize; omega)
    unfold Tagged.succPtr Tagged.predPtr Plain.predPtr Plain.succPtr
    rw [second]
    rcases List.mem_cons.mp block with rfl | proper
    · exact nomatch idle
    · obtain ⟨left, right, split⟩ := List.append_of_mem (stands.filed b proper idle _ rfl)
      obtain ⟨next, prev⟩ := stands.links split
      obtain ⟨next', prev'⟩ := stands'.links split
      exact ⟨next.trans next'.symm, prev.trans prev'.symm⟩
  · -- The heads of the lists are the same.
    intro k below
    exact (stands.rep.heads k below).trans (stands'.rep.heads k below).symm

/-- The worlds that `(98)분석.c` reaches from `h` without reallocation, with the calls and their results. -/
abbrev Tagged.Reaches (h : State) : List Call → List Nat → World (Nat → Nat) → Prop :=
  QuietRun Tagged.mm (NoWrap Tagged.file) { heap := h, live := [] }

/-- The worlds that `(98)정리.c` reaches from `h` without reallocation, with the calls and their results. -/
abbrev Plain.Reaches (h : State) : List Call → List Nat → World (Nat → Nat) → Prop :=
  QuietRun Plain.mm (NoWrap Plain.file) { heap := h, live := [] }

/--
On runs without reallocation the tagged and the untagged allocator are the same.

Both initialize every area, and every action that meets the conditions returns.
Each carries out what the other does, and after the same actions the results and the heaps are the same.
-/
theorem mm_twins (ok : Base base) (m m' : Mem) (statics statics' : Nat → Nat) :
    ∃ h h', Tagged.mmInit (memInit m base statics) = some (h, 0) ∧
      Plain.mmInit (memInit m' base statics') = some (h', 0) ∧
      (∀ cs rs w c, Tagged.Reaches h cs rs w → w.Quiet c → NoWrap Tagged.file w.heap c →
        (w.call Tagged.mm c).isSome = true) ∧
      (∀ cs rs w, Tagged.Reaches h cs rs w → ∃ w', Plain.Reaches h' cs rs w') ∧
      (∀ cs rs w', Plain.Reaches h' cs rs w' → ∃ w, Tagged.Reaches h cs rs w) ∧
      ∀ cs rs rs' w w', Tagged.Reaches h cs rs w → Plain.Reaches h' cs rs' w' →
        rs = rs' ∧ ∃ passed, Same (base + 8) w.heap w'.heap passed := by
  obtain ⟨h, init, holds⟩ := mmInit_holds Tagged.spells ok m statics
  obtain ⟨h', init', holds'⟩ := mmInit_holds Plain.spells ok m' statics'
  -- Each file keeps in step with the other.
  have forth := Tagged.made.lockstep Plain.made base
  have back := Plain.made.lockstep Tagged.made base
  have paired : Paired Tagged.file Plain.file base { heap := h, live := [] } { heap := h', live := [] } :=
    ⟨_, holds, holds', rfl⟩
  refine ⟨h, h', init, init', ?_, ?_, ?_, ?_⟩
  · -- A further call returns, since it does so on both sides.
    intro cs rs w c run quiet fine
    obtain ⟨w', _, related⟩ := forth.run run paired
    obtain ⟨next, _, r, done, _⟩ := forth.call related quiet fine
    rw [done]
    rfl
  · -- A run of the one file is followed by the other.
    intro cs rs w run
    obtain ⟨w', run', _⟩ := forth.run run paired
    exact ⟨w', run'⟩
  · intro cs rs w' run'
    obtain ⟨w, run, _⟩ := back.run run' ⟨_, holds', holds, rfl⟩
    exact ⟨w, run⟩
  · -- Runs of the same calls have the same results.
    intro cs rs rs' w w' run run'
    obtain ⟨last, again, s, stands, stands', _⟩ := forth.run run paired
    -- A run is determined by its calls, so the run that keeps in step is the one given.
    obtain ⟨rfl, rfl⟩ := again.unique run'
    exact ⟨rfl, _, stands.rep.same stands'.rep⟩

/-- An area of equal bytes for a small run; it starts at address eight. -/
def filled (byte : UInt8) : State := memInit (fun _ => byte) 8 fun _ => 0

/-- The calls of the small run, which leaves stray bits in two footers of the file with tags. -/
def sampleCalls : List Call :=
  [.malloc 60, .store 32 0xFF, .store 64 2, .free 24, .malloc 8, .malloc 20, .free 24, .malloc 9]

/-- The small run takes place in the file with tags. -/
theorem Tagged.sample_run : ∃ h w, Tagged.mmInit (filled 0) = some (h, 0) ∧
    Tagged.Reaches h sampleCalls [24, 0, 0, 0, 24, 40, 0, 72] w := by
  obtain ⟨h, w, init, run, _⟩ := trial_run (show trial Tagged.mm (NoWrap Tagged.file) (Tagged.mmInit (filled 0))
    sampleCalls (fun _ => true) = some (0, [24, 0, 0, 0, 24, 40, 0, 72], true) by decide +kernel)
  exact ⟨h, w, init, run.quiet (by decide)⟩

/-- The small run takes place in the file without tags. -/
theorem Plain.sample_run : ∃ h w, Plain.mmInit (filled 0) = some (h, 0) ∧
    Plain.Reaches h sampleCalls [24, 0, 0, 0, 24, 40, 0, 72] w := by
  obtain ⟨h, w, init, run, _⟩ := trial_run (show trial Plain.mm (NoWrap Plain.file) (Plain.mmInit (filled 0))
    sampleCalls (fun _ => true) = some (0, [24, 0, 0, 0, 24, 40, 0, 72], true) by decide +kernel)
  exact ⟨h, w, init, run.quiet (by decide)⟩

/-- Over areas of different bytes the two files do the small run with the same results. -/
theorem mm_twins_sample :
    ∃ h h' w w', Tagged.mmInit (filled 0) = some (h, 0) ∧ Plain.mmInit (filled 0xFF) = some (h', 0) ∧
      Tagged.Reaches h sampleCalls [24, 0, 0, 0, 24, 40, 0, 72] w ∧
      Plain.Reaches h' sampleCalls [24, 0, 0, 0, 24, 40, 0, 72] w' ∧
      ∃ passed, Same (8 + 8) w.heap w'.heap passed := by
  obtain ⟨h, w, init, reached⟩ := Tagged.sample_run
  obtain ⟨first, h', init₁, init', _, forth, _, same⟩ :=
    mm_twins base_eight (fun _ => 0) (fun _ => 0xFF) (fun _ => 0) (fun _ => 0)
  obtain rfl : h = first := (Prod.mk.inj (Option.some.inj (init.symm.trans init₁))).1
  obtain ⟨w', reached'⟩ := forth _ _ _ reached
  exact ⟨h, h', w, w', init, init', reached, reached', (same _ _ _ _ _ reached reached').2⟩

/-- The state after initialization over an area that starts at `base`: one small free block on its shelf. -/
def initial (base : Nat) : Shelves := Shelves.opened style (base + 16) initchunksize

/-- Every quiet run does the steps of the abstract allocator. -/
theorem Made.quiet_run {last : World (Nat → Nat)} (made : Made f A) (holds : Holds (Stands f base) Shelves.blocks w s)
    (run : QuietRun A (NoWrap f) w cs rs last) :
    (play (quietMove (base + maxHeap)) s cs).2 = rs ∧
      Holds (Stands f base) Shelves.blocks last (play (quietMove (base + maxHeap)) s cs).1 := by
  -- Each quiet action does the abstract step.
  induction run generalizing s with
  | nil w => exact ⟨rfl, holds⟩
  | cons quiet fine step _ ih =>
    obtain ⟨next, done, after⟩ := made.quiet_call holds quiet fine
    rw [step] at done
    obtain ⟨rfl, rfl⟩ := Prod.mk.inj (Option.some.inj done)
    obtain ⟨results, final⟩ := ih after
    exact ⟨by simp [play, results], final⟩

/--
Without reallocation every run of `(98)정리.c` returns what the abstract allocator with its shelves returns.

After it every further action that does not reallocate is safe for the client.
-/
theorem mm_quiet_contract {m : Mem} {statics : Nat → Nat} (ok : Base base)
    (init : Plain.mmInit (memInit m base statics) = some (h, 0)) (run : Plain.Reaches h cs rs w) :
    (play (quietMove (base + maxHeap)) (initial base) cs).2 = rs ∧
      ∀ c, w.Legal c → c.reallocates = false → NoWrap Plain.file w.heap c →
        ∃ next r, w.call Plain.mm c = some (next, r) ∧ Upholds w c next r := by
  have start := Holds.started (mmInit_holds Plain.spells ok m statics) init
  obtain ⟨same, holds⟩ := Plain.made.quiet_run start run
  -- A further action is quiet, too, so the services still apply.
  refine ⟨same, fun c legal kept fine => ?_⟩
  obtain ⟨next, _, r, done, _, _, upholds⟩ := (Plain.made.services base).call holds legal ⟨fine, kept⟩
  exact ⟨next, r, done, upholds⟩

/-- The abstract allocator returns the results of the small run. -/
theorem mm_quiet_contract_sample :
    ∃ h w, Plain.mmInit (filled 0) = some (h, 0) ∧ Plain.Reaches h sampleCalls [24, 0, 0, 0, 24, 40, 0, 72] w ∧
      (play (quietMove (8 + maxHeap)) (initial 8) sampleCalls).2 = [24, 0, 0, 0, 24, 40, 0, 72] ∧
      ∀ c, w.Legal c → c.reallocates = false → NoWrap Plain.file w.heap c →
        ∃ next r, w.call Plain.mm c = some (next, r) ∧ Upholds w c next r := by
  obtain ⟨h, w, init, reached⟩ := Plain.sample_run
  exact ⟨h, w, init, reached, mm_quiet_contract base_eight init reached⟩

end MallocLab.Seg98
