import MallocLab.BestFit.FirstFit
import MallocLab.Driver.Steady
import MallocLab.Implicit.Invariant
import MallocLab.Naive.Bump
import MallocLab.Prologue.Contents
import MallocLab.Seg84.Order
import MallocLab.Seg98.Twins

/-! How the evaluations of `mdriver.c` end on the allocator files other than `mm.c`. -/

namespace MallocLab.Driver

open Skeleton (NoWrap extended placed)

/-- `implicit.c` as the driver links it. -/
def implicitPackage : Package Implicit.Statics := { Implicit.mm with mmInit := Implicit.mmInit }

/-- `bestfit.c` as the driver links it. -/
def bestFitPackage : Package BestFit.Statics := { BestFit.mm with mmInit := BestFit.mmInit }

/-- `segreted(84).c` as the driver links it. -/
def seg84Package : Package (Nat → Nat) := { Seg84.mm with mmInit := Seg84.mmInit }

/-- `originmm_c.c` as the driver links it. -/
def naivePackage : Package Unit := { Naive.mm with mmInit := Naive.mmInit }

/-- `prologue.c` as the driver links it. -/
def prologuePackage : Package Prologue.Statics := { Prologue.mm with mmInit := Prologue.mmInit }

/-- `(98)분석.c` as the driver links it. -/
def taggedPackage : Package (Nat → Nat) := { Seg98.Tagged.mm with mmInit := Seg98.Tagged.mmInit }

/-- `(98)정리.c` as the driver links it. -/
def plainPackage : Package (Nat → Nat) := { Seg98.Plain.mm with mmInit := Seg98.Plain.mmInit }

variable {base : Nat}

/-- `implicit.c` is made of the parts of its abstract allocator. -/
theorem implicit_linked (ok : Base base) : Linked implicitPackage Implicit.policy base (Implicit.Tracks base)
    Implicit.adjustedSize Implicit.findFit (placed Implicit.place) (extended Implicit.extendHeap) Implicit.mmFree where
  parts := Implicit.parts base
  -- No operation of the abstract state moves the break but an extension.
  rises := by
    refine ⟨fun _ _ _ => Shelves.carve_brk, fun _ => Shelves.extend_brk, fun r p => ?_⟩
    show (Implicit.Roving.free r p).shelves.brk = r.shelves.brk
    unfold Implicit.Roving.free
    split
    · rfl
    · exact Shelves.free_brk
  -- The size of a block exceeds the request by less than a page.
  few n _ _ := by
    show Implicit.blockSize n ≤ n + 4096
    unfold Implicit.blockSize
    omega
  start tracks := tracks.stands.start
  -- `mm_init` leaves room in the area.
  init m statics := by
    obtain ⟨h, init, holds⟩ := Implicit.mmInit_holds ok m statics
    have room : maxHeap = 20971520 := rfl
    exact ⟨h, init, _, holds, show base + 16 + 4096 ≤ base + maxHeap by omega⟩

/-- So is `bestfit.c`. -/
theorem bestFit_linked (ok : Base base) : Linked bestFitPackage BestFit.policy base (BestFit.Stands base)
    BestFit.adjustedSize BestFit.findFit (placed BestFit.place) (extended BestFit.extendHeap) BestFit.mmFree where
  parts := BestFit.parts base
  rises := Skeleton.shelved_rises _ _ _
  few n _ _ := by
    show Implicit.blockSize n ≤ n + 4096
    unfold Implicit.blockSize
    omega
  start stands := stands.start
  init m statics := by
    obtain ⟨h, init, holds⟩ := BestFit.mmInit_holds ok m statics
    have room : maxHeap = 20971520 := rfl
    exact ⟨h, init, _, holds, show base + 16 + 4096 ≤ base + maxHeap by omega⟩

/-- The block size of the files that add the tags to a request and round it up. -/
theorem adjustedSize_few {n : Nat} (positive : 1 ≤ n) (legal : n ≤ maxRequest) :
    Skeleton.adjustedSize n ≤ n + 4096 := by
  rw [(Skeleton.adjustedSize_adjusted positive legal).1]
  omega

/-- So is `segreted(84).c`. -/
theorem seg84_linked (ok : Base base) : Linked seg84Package Seg84.policy base (Seg84.Stands base)
    Skeleton.adjustedSize Seg84.findFit (placed Seg84.place) (extended Seg84.extendHeap) Seg84.mmFree where
  parts := Seg84.parts base
  rises := Skeleton.shelved_rises _ _ _
  few _ positive legal := adjustedSize_few positive legal
  start stands := stands.start
  init m statics := by
    obtain ⟨h, init, holds⟩ := Seg84.mmInit_holds ok m statics
    have room : maxHeap = 20971520 := rfl
    exact ⟨h, init, _, holds, show base + 16 + 4096 ≤ base + maxHeap by omega⟩

/-- So is `prologue.c`. -/
theorem prologue_linked (ok : Base base) : Linked prologuePackage Prologue.policy base (Prologue.Stands base)
    Prologue.adjustedSize Prologue.findFit (placed Prologue.place) (extended Prologue.extendHeap) Prologue.mmFree where
  parts := Prologue.parts base
  rises := Skeleton.shelved_rises _ _ _
  -- The size of a block exceeds the request by less than a page, also when it is the smallest size.
  few n positive legal := by
    have few := adjustedSize_few positive legal
    have least : Prologue.minBlksize = 24 := rfl
    show maxWord (Skeleton.adjustedSize n) Prologue.minBlksize ≤ n + 4096
    rw [maxWord_eq]
    omega
  start stands := stands.start
  init m statics := by
    obtain ⟨h, init, holds⟩ := Prologue.mmInit_holds ok m statics
    have room : maxHeap = 20971520 := rfl
    exact ⟨h, init, _, holds, show base + 168 + 4096 ≤ base + maxHeap by omega⟩

/-- Both files of the last kind. -/
theorem seg98_linked {f : Seg98.File} {free : Heap (Nat → Nat) → Nat → Option (Heap (Nat → Nat))}
    {A : Package (Nat → Nat)} (spells : Segregated.Spells f.entries Seg98.links) (frees : Seg98.Frees f free) (ok : Base base)
    (init : A.mmInit = Seg98.mmInit f) : Linked A Seg98.policy base (Seg98.Stands f base) Seg98.adjustedSize
      (Seg98.findFit f) (Seg98.place f) (Seg98.extendHeap f) free where
  parts := Seg98.parts spells frees base
  -- Tagging a block moves no border.
  rises := ⟨fun _ _ _ => Shelves.carve_brk, fun _ => Shelves.extend_brk, fun s p =>
    Shelves.free_brk.trans (Shelves.retagNext_brk s p false)⟩
  few n positive legal := by
    show Seg98.adjustedSize n ≤ n + 4096
    rw [(Seg98.adjustedSize_adjusted positive legal).1]
    omega
  start stands := stands.start
  init m statics := by
    obtain ⟨h, done, holds⟩ := Seg98.mmInit_holds spells ok m statics
    exact ⟨h, (congrFun init _).trans done, _, holds, holds.rep.below⟩

/-- The requests of the client fit below the break of the file that only ever moves it. -/
theorem naive_fits {live : List (Nat × Nat)} {top : Nat}
    (inside : ∀ entry ∈ live, base + 8 ≤ entry.1 ∧ entry.1 + Naive.room entry.2 ≤ top + 8)
    (ordered : live.Pairwise fun new old => old.1 + Naive.room old.2 ≤ new.1) (low : base ≤ top) :
    (live.map Prod.fst).Nodup ∧ base + (live.map Prod.snd).sum ≤ top := by
  induction live generalizing top with
  | nil => exact ⟨List.nodup_nil, low⟩
  | cons new live ih =>
    obtain ⟨above, ordered⟩ := List.pairwise_cons.mp ordered
    obtain ⟨first, last⟩ := inside new List.mem_cons_self
    have space := (Naive.room_spec new.2).2.1
    -- The older blocks lie below the newest one.
    obtain ⟨nodup, fits⟩ := @ih (new.1 - 8) (fun entry member =>
      ⟨(inside entry (List.mem_cons_of_mem _ member)).1, by have := above entry member; omega⟩) ordered (by omega)
    -- No older block starts where the newest one does.
    refine ⟨List.nodup_cons.mpr ⟨fun again => ?_, nodup⟩, ?_⟩
    · obtain ⟨old, member, same⟩ := List.mem_map.mp again
      have below := above old member
      have room := (Naive.room_spec old.2).2.1
      omega
    · -- The newest one lies above the bytes of the older ones.
      rw [List.map_cons, List.sum_cons]
      omega

/-- The file that only moves the break is steady, whatever the trace asks for. -/
theorem naive_steady (ok : Base base) (suits : TraceOp → Prop) :
    Steady naivePackage base suits Naive.NoWrap fun w => ∃ brk, Naive.Laid base w brk where
  starts m _ := ⟨_, rfl, base, Naive.laid_start ok m⟩
  fine := by
    rintro w ids allocated numIds op ⟨brk, laid⟩ valid small _
    have high := laid.high
    have top := laid.top
    have most : maxRequest = 4294967280 := rfl
    obtain ⟨type, index, size⟩ := op
    -- A free does not call `mem_sbrk`.
    cases type with
    | free => trivial
    | alloc | realloc =>
      obtain ⟨positive, int⟩ := valid.size (by simp)
      have below := small (by simp)
      simp only at positive int below
      have few := (Naive.room_spec size).2.2
      show SbrkFits w.heap (align (add32 size sizeTSize))
      rw [Naive.newsize_eq (by omega)]
      intro _
      omega
  -- Each call moves the break as the abstract bump does.
  returns := by
    rintro w c ⟨brk, laid⟩ legal fine
    obtain ⟨next, r, done, _, laid', _⟩ := laid.call legal fine
    refine ⟨next, r, done, ⟨_, laid'⟩, ?_⟩
    rw [laid.top, laid'.top]
    rcases Naive.bump_cases (base + maxHeap) brk c with ⟨_, same⟩ | ⟨_, moved⟩ <;> omega
  start := fun ⟨_, laid⟩ => laid.start
  inside := fun ⟨_, laid⟩ => laid.top.trans_le laid.high
  nodup := fun ⟨_, laid⟩ =>
    (naive_fits (fun entry member => ⟨(laid.inside entry member).1, (laid.inside entry member).2.2⟩) laid.ordered
      laid.low).1
  -- The payloads lie between the start of the area and the break.
  fits := fun {w} ⟨_, laid⟩ => by
    rw [laid.top]
    exact (naive_fits (fun entry member => ⟨(laid.inside entry member).1, (laid.inside entry member).2.2⟩) laid.ordered
      laid.low).2

/-- It also keeps its promises about contents. -/
theorem naive_dependable : Dependable Naive.mm Naive.NoWrap fun w => ∃ brk, Naive.Laid base w brk where
  serves := by
    rintro w c ⟨brk, laid⟩ legal fine
    obtain ⟨next, r, done, _, laid', delivers⟩ := laid.call legal fine
    exact ⟨next, r, done, delivers.toUpholds, ⟨_, laid'⟩, delivers.moved⟩
  written := by
    rintro w m ⟨brk, laid⟩ same
    refine ⟨brk, laid.written (List.Sublist.refl _) fun entry member x lower upper => same x ?_⟩
    -- A noted size lies in front of its own payload, and apart from the others.
    intro other live inside
    have space := (Naive.room_spec entry.2).2.1
    have space' := (Naive.room_spec other.2).2.1
    have above := (laid.inside entry member).1
    rcases laid.apart member live with rfl | before | behind <;> omega

/--
On a valid trace whose fillers are below 128 the driver blames none of these files for anything but a refusal.

The area and the static variables of the file may contain anything before.
-/
theorem files_validity (ok : Base base) :
    OnlyRefuses implicitPackage base TraceOp.Legible ∧ OnlyRefuses bestFitPackage base TraceOp.Legible ∧
      OnlyRefuses seg84Package base TraceOp.Legible ∧ OnlyRefuses naivePackage base TraceOp.Legible := by
  refine ⟨(implicit_linked ok).onlyRefuses (Implicit.services base) Implicit.mmRealloc_eq fun tracks occupied => ?_,
    (bestFit_linked ok).onlyRefuses (BestFit.services base) BestFit.mmRealloc_eq fun stands occupied => ?_,
    (seg84_linked ok).onlyRefuses (Seg84.services base) Seg84.mmRealloc_eq fun stands occupied => ?_,
    (naive_steady ok _).onlyRefuses naive_dependable fun _ legible => legible⟩
  -- The header of a used block has its size.
  · rw [tracks.stands.headerSize_eq occupied]
    omega
  · rw [stands.headerSize_eq occupied]
    omega
  · rw [stands.headerSize_eq occupied]
    omega

/-- An area of zeros for small runs; it starts at address eight. -/
def emptyArea {γ : Type} (statics : γ) : Heap γ := memInit (fun _ => 0) 8 statics

/-- The empty area starts at address eight. -/
theorem over_emptyArea {γ : Type} (statics : γ) : Over 8 (emptyArea statics) := ⟨rfl, rfl⟩

/-- The four files on the small trace with id zero. -/
theorem files_validity_sample :
    PassesOrRefuses implicitPackage (emptyArea { heapListp := 0, lastFreep := 0 }) (sampleTrace 0) 0 ∧
      PassesOrRefuses bestFitPackage (emptyArea { heapListp := 0 }) (sampleTrace 0) 0 ∧
      PassesOrRefuses seg84Package (emptyArea (fun _ => 0)) (sampleTrace 0) 0 ∧
      PassesOrRefuses naivePackage (emptyArea ()) (sampleTrace 0) 0 := by
  have legible : ∀ op ∈ (sampleTrace 0).ops, op.Legible := by simp [sampleTrace, TraceOp.Legible]
  obtain ⟨implicit, bestFit, seg84, naive⟩ := files_validity base_eight
  exact ⟨implicit _ _ 0 (over_emptyArea _) (sampleTrace_valid 0) (sampleTrace_small 0) legible,
    bestFit _ _ 0 (over_emptyArea _) (sampleTrace_valid 0) (sampleTrace_small 0) legible,
    seg84 _ _ 0 (over_emptyArea _) (sampleTrace_valid 0) (sampleTrace_small 0) legible,
    naive _ _ 0 (over_emptyArea _) (sampleTrace_valid 0) (sampleTrace_small 0) legible⟩

/-- The services of `prologue.c` without reallocation. -/
theorem prologue_quiet (base : Nat) : Services prologuePackage.toAllocator
    (fun h c => NoWrap Prologue.adjustedSize Prologue.findFit h c ∧ c.reallocates = false) (Prologue.Stands base)
    Shelves.blocks fun s c s' r => Prologue.policy.move (base + maxHeap) s c = (s', r) :=
  (Prologue.services base).narrow And.left

/-- Without reallocation the driver blames the other three files for nothing but a refused allocation, either. -/
theorem quiet_files_validity (ok : Base base) :
    OnlyRefuses prologuePackage base (fun op => op.type ≠ .realloc) ∧
      OnlyRefuses taggedPackage base (fun op => op.type ≠ .realloc) ∧
      OnlyRefuses plainPackage base (fun op => op.type ≠ .realloc) := by
  have tagged : Linked taggedPackage _ _ _ _ _ _ _ _ := seg98_linked Seg98.Tagged.spells Seg98.Tagged.frees ok rfl
  have plain : Linked plainPackage _ _ _ _ _ _ _ _ := seg98_linked Seg98.Plain.spells Seg98.Plain.frees ok rfl
  exact ⟨((prologue_linked ok).quiet (prologue_quiet base)).2, (tagged.quiet (Seg98.Tagged.made.services base)).2,
    (plain.quiet (Seg98.Plain.made.services base)).2⟩

/-- Two blocks are allocated and then freed. -/
def quietTrace : Trace where
  numIds := 2
  ops := [{ type := .alloc, index := 0, size := 8 }, { type := .alloc, index := 1, size := 200 },
    { type := .free, index := 0, size := 0 }, { type := .free, index := 1, size := 0 }]
  blocks := [0, 0]
  blockSizes := [0, 0]

/-- The trace without reallocation is valid. -/
theorem quietTrace_valid : quietTrace.Valid := by
  refine ⟨rfl, rfl, ⟨?_, by decide, ?_⟩, ⟨?_, by decide, ?_⟩, ⟨?_, by decide, ?_⟩, ⟨?_, by decide, ?_⟩, trivial⟩ <;>
    simp [TraceOp.allocated]

/-- Its requests do not wrap. -/
theorem quietTrace_small : ∀ op ∈ quietTrace.ops, op.Small 8 := by
  simp [quietTrace, TraceOp.Small, maxHeap]

/-- The other three files on the trace without reallocation. -/
theorem quiet_files_validity_sample : PassesOrRefuses prologuePackage (emptyArea { heapListp := 0 }) quietTrace 0 ∧
    PassesOrRefuses taggedPackage (emptyArea (fun _ => 0)) quietTrace 0 ∧
    PassesOrRefuses plainPackage (emptyArea (fun _ => 0)) quietTrace 0 := by
  have quiet : ∀ op ∈ quietTrace.ops, op.type ≠ .realloc := by simp [quietTrace]
  obtain ⟨prologue, tagged, plain⟩ := quiet_files_validity base_eight
  exact ⟨prologue _ _ 0 (over_emptyArea _) quietTrace_valid quietTrace_small quiet,
    tagged _ _ 0 (over_emptyArea _) quietTrace_valid quietTrace_small quiet,
    plain _ _ 0 (over_emptyArea _) quietTrace_valid quietTrace_small quiet⟩

/--
The other two evaluations end on these files, too, and only their own messages can end them early.

The utilization is a fraction of at most one, whose numerator is the peak of the trace for every file.
-/
theorem files_utilization (ok : Base base) :
    (Scored implicitPackage base (fun _ => True) ∧ Scored bestFitPackage base (fun _ => True) ∧
      Scored seg84Package base (fun _ => True) ∧ Scored naivePackage base (fun _ => True)) ∧
    Scored prologuePackage base (fun op => op.type ≠ .realloc) ∧
      Scored taggedPackage base (fun op => op.type ≠ .realloc) ∧
      Scored plainPackage base (fun op => op.type ≠ .realloc) := by
  have tagged : Linked taggedPackage _ _ _ _ _ _ _ _ := seg98_linked Seg98.Tagged.spells Seg98.Tagged.frees ok rfl
  have plain : Linked plainPackage _ _ _ _ _ _ _ _ := seg98_linked Seg98.Plain.spells Seg98.Plain.frees ok rfl
  refine ⟨⟨?_, ?_, ?_, (naive_steady ok _).scored ok⟩, ?_, ?_, ?_⟩
  · -- These files serve every request.
    exact ((implicit_linked ok).steady (Implicit.services base) fun fine _ => fine).scored ok
  · exact ((bestFit_linked ok).steady (BestFit.services base) fun fine _ => fine).scored ok
  · exact ((seg84_linked ok).steady (Seg84.services base) fun fine _ => fine).scored ok
  · -- These ones serve every request but a reallocation.
    exact ((prologue_linked ok).quiet (prologue_quiet base)).1.scored ok
  · exact (tagged.quiet (Seg98.Tagged.made.services base)).1.scored ok
  · exact (plain.quiet (Seg98.Plain.made.services base)).1.scored ok

/-- The four files on a trace whose filler is negative, and the other three on the one without reallocation. -/
theorem files_utilization_sample :
    (EndsProperly implicitPackage (emptyArea { heapListp := 0, lastFreep := 0 }) (sampleTrace 200) ∧
      EndsProperly bestFitPackage (emptyArea { heapListp := 0 }) (sampleTrace 200) ∧
      EndsProperly seg84Package (emptyArea (fun _ => 0)) (sampleTrace 200) ∧
      EndsProperly naivePackage (emptyArea ()) (sampleTrace 200)) ∧
    EndsProperly prologuePackage (emptyArea { heapListp := 0 }) quietTrace ∧
      EndsProperly taggedPackage (emptyArea (fun _ => 0)) quietTrace ∧
      EndsProperly plainPackage (emptyArea (fun _ => 0)) quietTrace := by
  have quiet : ∀ op ∈ quietTrace.ops, op.type ≠ .realloc := by simp [quietTrace]
  have all : ∀ op ∈ (sampleTrace 200).ops, True := fun _ _ => trivial
  obtain ⟨⟨implicit, bestFit, seg84, naive⟩, prologue, tagged, plain⟩ := files_utilization base_eight
  exact ⟨⟨implicit _ _ (over_emptyArea _) (sampleTrace_valid 200) (sampleTrace_small 200) all,
    bestFit _ _ (over_emptyArea _) (sampleTrace_valid 200) (sampleTrace_small 200) all,
    seg84 _ _ (over_emptyArea _) (sampleTrace_valid 200) (sampleTrace_small 200) all,
    naive _ _ (over_emptyArea _) (sampleTrace_valid 200) (sampleTrace_small 200) all⟩,
    prologue _ _ (over_emptyArea _) quietTrace_valid quietTrace_small quiet,
    tagged _ _ (over_emptyArea _) quietTrace_valid quietTrace_small quiet,
    plain _ _ (over_emptyArea _) quietTrace_valid quietTrace_small quiet⟩

end MallocLab.Driver
