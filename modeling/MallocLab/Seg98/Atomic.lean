import MallocLab.Seg98.Overlap
import MallocLab.Skeleton.Wrapping

/-! What `mm_realloc` of `(98)분석.c` does when it cannot obtain a larger block. -/

namespace MallocLab.Seg98

open Segregated
open Skeleton (area)

section Frame

variable {f : File} {e : Entries} {h h' : State} {ptr size : Nat} {result : State × Nat}

/-- Unlinking a block moves no limit, whatever the state. -/
theorem deleteNode_area (done : deleteNode e h ptr = some h') : area h' = area h := by
  unfold deleteNode at done
  obtain ⟨_, _, rest⟩ := Option.bind_eq_some_iff.mp done
  simp only at rest
  split_ifs at rest <;> exact Option.some.inj rest ▸ rfl

/-- Linking in a block moves no limit, whatever the state. -/
theorem insertNode_area (done : insertNode f h ptr size = some h') : area h' = area h := by
  unfold insertNode at done
  obtain ⟨_, _, rest⟩ := Option.bind_eq_some_iff.mp done
  simp only at rest
  split_ifs at rest <;> exact Option.some.inj rest ▸ rfl

/-- Coalescing moves no limit, whatever the state. -/
theorem coalesce_area (done : coalesce f h ptr = some result) : area result.1 = area h := by
  unfold coalesce removeNode at done
  simp only at done
  generalize (if marked f h (hdrp (prevBlkp h ptr)) then 1 else getAlloc h (hdrp (prevBlkp h ptr))) = prevAlloc at done
  -- A block that stays alone is on its list already; otherwise two or three are unlinked, and one is linked in.
  split_ifs at done
  · exact Option.some.inj done ▸ rfl
  · -- The block behind is joined.
    refine Skeleton.unlinked_area done deleteNode_area rfl fun _ same done => ?_
    refine Skeleton.unlinked_area done deleteNode_area same fun _ same done => ?_
    exact Skeleton.listed_area done insertNode_area same
  · -- The block before is joined.
    refine Skeleton.unlinked_area done deleteNode_area rfl fun _ same done => ?_
    refine Skeleton.unlinked_area done deleteNode_area same fun _ same done => ?_
    exact Skeleton.listed_area done insertNode_area same
  · -- Both are.
    refine Skeleton.unlinked_area done deleteNode_area rfl fun _ same done => ?_
    refine Skeleton.unlinked_area done deleteNode_area same fun _ same done => ?_
    refine Skeleton.unlinked_area done deleteNode_area same fun _ same done => ?_
    exact Skeleton.listed_area done insertNode_area same

/-- When `extend_heap` returns null and changes nothing, the limit has refused the request. -/
theorem extendHeap_declined (whole : size % 8 = 0) (positive : 0 < size) (small : size < 2 ^ 31)
    (inside : h.memBrk ≤ h.memMaxAddr) (fits : h.memMaxAddr < 2 ^ 32) (done : extendHeap f h size = some (h, null)) :
    h.memMaxAddr < h.memBrk + size ∧ h.memBrk + size < 2 ^ 32 := by
  unfold extendHeap at done
  rw [align_whole whole (by omega)] at done
  by_contra granted
  -- Otherwise the break would have moved.
  have sum : ofInt32 ((h.memBrk : Int) + size) = (h.memBrk + size) % 2 ^ 32 := by
    unfold ofInt32
    omega
  have moved : memSbrk h (toInt32 size) = ({ h with memBrk := (h.memBrk + size) % 2 ^ 32 }, h.memBrk) := by
    rw [toInt32_eq small]
    simp only [memSbrk, sum]
    rw [if_neg (by omega)]
  simp only [moved] at done
  have same : area h = (h.memStartBrk, (h.memBrk + size) % 2 ^ 32, h.memMaxAddr) := by
    -- The new block is the whole result, or it is listed and joined.
    split at done
    · obtain ⟨state, _⟩ := Prod.mk.inj (Option.some.inj done)
      exact (congrArg area state).symm
    · obtain ⟨h₁, listed, rest⟩ := Option.bind_eq_some_iff.mp done
      have kept := (coalesce_area rest).trans (insertNode_area listed)
      exact kept
  -- The break of the state that is returned is the one of the start.
  have brk : h.memBrk = (h.memBrk + size) % 2 ^ 32 := (Prod.mk.inj (Prod.mk.inj same).2).1
  omega

end Frame

variable {f : File} {h h' : State} {s : Shelves} {b : Blk} {pre post : List Blk} {base n p q k size newSize : Nat}

/-- The sizes of the block and of the one behind it, as the headers show them. -/
theorem Stands.sizes (stands : Stands f base h s) (split : s.blocks = pre ++ b :: post) :
    getSize h (hdrp b.addr) = b.size ∧ getSize h (hdrp (nextBlkp h b.addr)) = behindSize post := by
  have arena := stands.rep.arena
  rw [split, ← List.append_assoc] at arena
  refine ⟨arena.size (by simp), ?_⟩
  rw [arena.following_size]
  cases post <;> rfl

/-- `extendsize`, the number of bytes by which a block is to be extended in place. -/
def extendsize (h : State) (ptr newSize : Nat) : Nat := (max (neg32 (remainder h ptr newSize)) chunksize).toNat

/-- The number of bytes is positive as an `int`. -/
theorem extendsize_small : 0 < extendsize h p newSize ∧ extendsize h p newSize < 2 ^ 31 ∧
    ofInt32 (max (neg32 (remainder h p newSize)) chunksize) = extendsize h p newSize := by
  have upper : neg32 (remainder h p newSize) < 2 ^ 31 := toInt32_lt _ (ofInt32_lt _)
  have chunk : chunksize = 4096 := rfl
  unfold extendsize ofInt32
  rw [chunk]
  generalize neg32 (remainder h p newSize) = asked at upper ⊢
  omega

/-- The number of bytes is a multiple of eight. -/
theorem extendsize_whole (stands : Stands f base h s) (split : s.blocks = pre ++ b :: post) (whole : newSize % 8 = 0) :
    extendsize h b.addr newSize % 8 = 0 := by
  have rounded : ∀ i : Int, i % 8 = 0 → (max i (4096 : Nat)).toNat % 8 = 0 := by
    intro i even
    omega
  obtain ⟨old, behind⟩ := stands.sizes split
  have room := stands.room split
  have left : remainder h b.addr newSize % 8 = 0 := by
    unfold remainder
    rw [old, behind, add32_eq (room.small.trans (by decide))]
    exact toInt32_whole (sub32_whole room.whole whole)
  exact rounded _ (neg32_whole left)

/-- When the limit refuses the extension, the block stays as it is. -/
theorem enlarge_declined (stands : Stands f base h s) (split : s.blocks = pre ++ b :: post) (whole : newSize % 8 = 0)
    (lacks : remainder h b.addr newSize < 0) (full : h.memMaxAddr < h.memBrk + extendsize h b.addr newSize)
    (fits : h.memBrk + extendsize h b.addr newSize < 2 ^ 32) : enlarge f h b.addr newSize = some (h, null) := by
  obtain ⟨_, small, asked⟩ := @extendsize_small h b.addr newSize
  have refused := extendHeap_refused (f := f) (extendsize_whole stands split whole) (by omega) (fun _ => fits) full
  unfold enlarge
  simp only
  rw [if_pos lacks, asked]
  exact bind_step refused (if_pos rfl)

/-- When enlarging a block returns null, it has tried to extend the heap. -/
theorem enlarge_null (returned : enlarge f h p newSize = some (h', null)) (real : p ≠ null) :
    remainder h p newSize < 0 ∧ extendHeap f h (extendsize h p newSize) = some (h', null) := by
  -- Taking over what is behind returns the block itself.
  have absorbed : ∀ {h h' : State} {size : Nat}, absorb f h p size ≠ some (h', null) := by
    intro h h' size done
    obtain ⟨_, _, rest⟩ := Option.bind_eq_some_iff.mp done
    exact real (Prod.mk.inj (Option.some.inj rest)).2
  obtain ⟨_, _, asked⟩ := @extendsize_small h p newSize
  unfold enlarge at returned
  simp only at returned
  rw [asked] at returned
  -- The extension is asked for, or it is not needed.
  split at returned
  · rename_i lacks
    obtain ⟨⟨h₁, bp⟩, extended, rest⟩ := Option.bind_eq_some_iff.mp returned
    simp only at rest
    split at rest
    · rename_i refused
      obtain ⟨rfl, _⟩ := Prod.mk.inj (Option.some.inj rest)
      exact ⟨lacks, refused ▸ extended⟩
    · exact absurd rest absorbed
  · -- Without an extension the block is returned.
    exact absurd returned absorbed

namespace Tagged

/-- The block is too small, and the code finds no way to obtain the larger one that it looks for. -/
def Unobtainable (h : State) (ptr size : Nat) : Prop :=
  let newSize := bufferedSize size
  let old := getSize h (hdrp ptr)
  let behind := getSize h (hdrp (nextBlkp h ptr))
  old < newSize ∧
    if open_ h ptr then old + behind < newSize ∧ h.memMaxAddr < h.memBrk + max (newSize - (old + behind)) chunksize
    else (findFit file h newSize).map Prod.snd = some null ∧ h.memMaxAddr < h.memBrk + max newSize chunksize

/--
When the larger block cannot be obtained, `mm_realloc` returns null and changes nothing.

It does so whatever memory outside the heap contains, so it reads no word there.
-/
def FailsCleanly (h : State) (ptr size : Nat) : Prop :=
  Unobtainable h ptr size → ∀ m, (∀ x, h.memStartBrk ≤ x → x < h.memBrk → m x = h.mem x) →
    mmRealloc { h with mem := m } ptr size = some ({ h with mem := m }, null)

/-- The block is to be extended in place, and the limit refuses that without a wrap. -/
structure Declines (h : State) (ptr size : Nat) : Prop where
  enlarges : Enlarges h ptr size
  lacks : remainder h ptr (bufferedSize size) < 0
  full : h.memMaxAddr < h.memBrk + extendsize h ptr (bufferedSize size)
  fits : h.memBrk + extendsize h ptr (bufferedSize size) < 2 ^ 32

/--
The condition on the calls of a run.

No extension wraps, and new space adjoins what it is to enlarge; a failure to obtain a larger block is detected.
-/
def Sound (h : State) : Call → Prop
  | .malloc size => NoWrap file h (.malloc size)
  | .realloc ptr size => Proper h (.realloc ptr size) ∨ Declines h ptr size
  | _ => True

/-- The size of a request with the buffer is a multiple of eight, even when it wraps. -/
theorem bufferedSize_whole (positive : 1 ≤ n) (small : n ≤ maxRequest) : bufferedSize n % 8 = 0 := by
  have whole := (adjustedSize_adjusted positive small).2.whole
  have buffer : reallocBuffer = 128 := rfl
  unfold bufferedSize add32
  omega

/-- The size of a request with the buffer leaves room for the request, unless it wraps. -/
theorem bufferedSize_room (positive : 1 ≤ n) (small : n ≤ maxRequest - reallocBuffer) : n + 136 ≤ bufferedSize n := by
  have buffer : reallocBuffer = 128 := rfl
  have most : maxRequest = 4294967280 := rfl
  obtain ⟨exact_, adjusted⟩ := adjustedSize_adjusted positive (show n ≤ maxRequest by omega)
  have room := adjusted.room
  unfold bufferedSize
  rw [buffer, add32_eq (by omega)]
  omega

/-- What `mm_realloc` compares is in the headers, so memory that represents the same state gives the same answers. -/
theorem reads_same {m : Mem} (newSize : Nat) (stands : Stands file base h s) (stands' : Stands file base { h with mem := m } s)
    (split : s.blocks = pre ++ b :: post) :
    blockBuffer { h with mem := m } b.addr newSize = blockBuffer h b.addr newSize ∧
      open_ { h with mem := m } b.addr = open_ h b.addr ∧
      remainder { h with mem := m } b.addr newSize = remainder h b.addr newSize := by
  obtain ⟨old, behind⟩ := stands.sizes split
  obtain ⟨old', behind'⟩ := stands'.sizes split
  refine ⟨?_, ?_, ?_⟩
  · unfold blockBuffer
    rw [old, old']
  · exact Bool.eq_iff_iff.mpr ((open_iff stands'.rep split).trans (open_iff stands.rep split).symm)
  · unfold remainder
    rw [old, old', behind, behind']

/-- An extension that the limit refuses makes `mm_realloc` return null and change nothing. -/
theorem realloc_declined (stands : Stands file base h s) (split : s.blocks = pre ++ b :: post) (positive : 1 ≤ n)
    (small : n ≤ maxRequest) (declines : Declines h b.addr n) : mmRealloc h b.addr n = some (h, null) := by
  obtain ⟨⟨short, open_⟩, lacks, full, fits⟩ := declines
  have declined := enlarge_declined stands split (bufferedSize_whole positive small) lacks full fits
  unfold mmRealloc
  simp only [show n ≠ 0 by omega, short, open_, if_true, if_false]
  exact bind_step declined (if_pos rfl)

/-- When `mm_realloc` returns null, it has tried to extend the heap in place. -/
theorem realloc_null (returned : mmRealloc h p n = some (h', null)) (real : p ≠ null) (asked : n ≠ 0)
    (some_ : bufferedSize n ≠ 0) : Enlarges h p n ∧ enlarge file h p (bufferedSize n) = some (h', null) := by
  have counts : min n (bufferedSize n) ≠ 0 := by omega
  -- A result that is not null is returned as it is.
  have null_ : ∀ {g : State} {q : Nat}, (if q = null then some (g, null) else
      some (tagNext g q (bufferedSize n), q)) = some (h', null) → q = null ∧ g = h' := by
    intro g q same
    split at same
    · rename_i none_
      exact ⟨none_, (Prod.mk.inj (Option.some.inj same)).1⟩
    · rename_i other
      exact absurd (Prod.mk.inj (Option.some.inj same)).2 other
  unfold mmRealloc at returned
  simp only [asked, if_false] at returned
  split at returned
  · rename_i short
    -- The block is enlarged where it lies.
    split at returned
    · rename_i open_
      obtain ⟨⟨h₁, q⟩, done, rest⟩ := Option.bind_eq_some_iff.mp returned
      obtain ⟨rfl, rfl⟩ := null_ rest
      exact ⟨⟨short, open_⟩, done⟩
    · -- A block that is moved to null is copied there, which faults.
      obtain ⟨⟨h₁, q⟩, done, rest⟩ := Option.bind_eq_some_iff.mp returned
      obtain ⟨rfl, rfl⟩ := null_ rest
      unfold move at done
      obtain ⟨⟨h₂, q⟩, _, copied⟩ := Option.bind_eq_some_iff.mp done
      obtain ⟨h₃, copy, moved⟩ := Option.bind_eq_some_iff.mp copied
      obtain ⟨_, _, same⟩ := Option.bind_eq_some_iff.mp moved
      obtain ⟨_, rfl⟩ := Prod.mk.inj (Option.some.inj same)
      unfold Heap.memcpy at copy
      rw [if_pos ⟨.inl rfl, counts⟩] at copy
      exact nomatch copy
  · -- The block is long enough, so it is returned.
    exact absurd (Prod.mk.inj (Option.some.inj returned)).2 real

/-- `mm_realloc` returns null and changes nothing, whatever lies outside the heap, exactly when it declines. -/
theorem fails_iff (stands : Stands file base h s) (occupied : Occupied s.blocks p size) (positive : 1 ≤ n)
    (small : n ≤ maxRequest - reallocBuffer) :
    (∀ m, (∀ x, h.memStartBrk ≤ x → x < h.memBrk → m x = h.mem x) →
      mmRealloc { h with mem := m } p n = some ({ h with mem := m }, null)) ↔ Declines h p n := by
  obtain ⟨b, member, rfl, rfl, used⟩ := occupied
  obtain ⟨pre, post, split⟩ := List.append_of_mem member
  have room := bufferedSize_room positive small
  have legal : n ≤ maxRequest := small.trans (Nat.sub_le _ _)
  constructor
  · -- The machine itself is one of these memories.
    intro fails
    have returned : mmRealloc h b.addr n = some (h, null) := fails h.mem fun _ _ _ => rfl
    obtain ⟨enlarges, enlarged⟩ := realloc_null returned (stands.real member) (by omega) (by omega)
    obtain ⟨lacks, extended⟩ := enlarge_null enlarged (stands.real member)
    -- The extension was refused, since otherwise the break would have moved.
    obtain ⟨asked, small', _⟩ := @extendsize_small h b.addr (bufferedSize n)
    have limit := stands.rep.area.limit
    have inside : h.memBrk ≤ h.memMaxAddr := by
      rw [stands.rep.brk, limit, stands.start]
      exact stands.below
    have whole := extendsize_whole stands split (bufferedSize_whole positive legal)
    obtain ⟨full, fits⟩ := extendHeap_declined whole asked small' inside stands.rep.area.fits extended
    exact ⟨enlarges, lacks, full, fits⟩
  · intro declines m same
    have stands' := stands.enclosed same
    -- The other memories agree inside the heap, so the headers are read the same.
    obtain ⟨buffer, open_, left⟩ := reads_same (bufferedSize n) stands stands' split
    obtain ⟨⟨short, behind⟩, lacks, full, fits⟩ := declines
    have asked : extendsize { h with mem := m } b.addr (bufferedSize n) = extendsize h b.addr (bufferedSize n) := by
      unfold extendsize
      rw [left]
    refine realloc_declined stands' split positive legal ⟨⟨?_, open_.trans behind⟩, ?_, ?_, ?_⟩
    · rw [buffer]
      exact short
    · rw [left]
      exact lacks
    · rw [asked]
      exact full
    · rw [asked]
      exact fits

/-- `(98)분석.c` serves its clients as long as it detects every failure to obtain a larger block. -/
theorem sound_services (base : Nat) : Services mm Sound (Stands file base) Shelves.blocks fun _ _ _ _ => True where
  tiles := Stands.tiling
  written := Stands.written
  store := fun _ _ _ => trivial
  malloc := by
    intro h s n stands positive small fine
    obtain ⟨h', s', r, done, _, rest⟩ :=
      (parts Tagged.spells Tagged.frees base).serves_malloc stands positive small fine
    exact ⟨h', s', r, done, trivial, rest⟩
  free := by
    intro h s p size stands occupied _
    obtain ⟨h', s', done, _, rest⟩ := (parts Tagged.spells Tagged.frees base).serves_free stands occupied
    exact ⟨h', s', done, trivial, rest⟩
  realloc := by
    intro h s p size n stands occupied positive small fine
    rcases fine with proper | declines
    · exact (services base).realloc stands occupied positive small proper
    · obtain ⟨b, member, rfl, rfl, used⟩ := occupied
      obtain ⟨pre, post, split⟩ := List.append_of_mem member
      exact ⟨h, s, null, realloc_declined stands split positive small declines, trivial, stands, Keeps.refl _ _,
        .inl ⟨rfl, fun _ _ => Iff.rfl⟩⟩

instance (h : State) (ptr size : Nat) : Decidable (Enlarges h ptr size) := inferInstanceAs (Decidable (_ ∧ _))

instance (h : State) (ptr size : Nat) : Decidable (Unobtainable h ptr size) := inferInstanceAs (Decidable (_ ∧ ite _ _ _))

instance (h : State) (ptr size : Nat) : Decidable (Declines h ptr size) :=
  decidable_of_iff (Enlarges h ptr size ∧ remainder h ptr (bufferedSize size) < 0 ∧
      h.memMaxAddr < h.memBrk + extendsize h ptr (bufferedSize size) ∧
      h.memBrk + extendsize h ptr (bufferedSize size) < 2 ^ 32)
    ⟨fun ⟨enlarges, lacks, full, fits⟩ => ⟨enlarges, lacks, full, fits⟩,
      fun declines => ⟨declines.enlarges, declines.lacks, declines.full, declines.fits⟩⟩

instance (h : State) (c : Call) : Decidable (Sound h c) :=
  match c with
  | .malloc size => inferInstanceAs (Decidable (NoWrap file h (.malloc size)))
  | .realloc _ _ => inferInstanceAs (Decidable (_ ∨ _))
  | .free _ | .store _ _ => inferInstanceAs (Decidable True)

variable {m : Mem} {statics : Nat → Nat} {w : World (Nat → Nat)} {cs : List Call} {rs : List Nat}

/--
After every run in which `(98)분석.c` has detected its failures, `mm_realloc` fails cleanly exactly when it declines.

A block that would have to be moved is copied to null when `mm_malloc` refuses.
-/
theorem mm_realloc_fails_cleanly (ok : Base base) (init : mmInit (memInit m base statics) = some (h, 0))
    (run : Run mm Sound { heap := h, live := [] } cs rs w) (live : (p, k) ∈ w.live) (positive : 1 ≤ n)
    (small : n ≤ maxRequest - reallocBuffer) :
    FailsCleanly w.heap p n ↔ (Unobtainable w.heap p n → Declines w.heap p n) := by
  obtain ⟨h', init', start⟩ := mmInit_holds Tagged.spells ok m statics
  obtain rfl : h' = h := (Prod.mk.inj (Option.some.inj (init'.symm.trans init))).1
  obtain ⟨s, stands, owned⟩ := (sound_services base).run start run
  obtain ⟨size, occupied, _⟩ := owned.block p k live
  exact imp_congr_right fun _ => fails_iff stands occupied positive small

/-- A run in which two requests for more than the area holds are refused, one of them in place. -/
def refusingCalls : List Call := [.malloc 8, .realloc 24 31457280, .malloc 31457280, .malloc 8, .free 24]

/-- After two refusals the condition decides about a request for thirty megabytes. -/
theorem mm_realloc_fails_cleanly_sample :
    ∃ h w, mmInit zeroed = some (h, 0) ∧ Run mm Sound { heap := h, live := [] } refusingCalls [24, 0, 0, 40, 0] w ∧
      Unobtainable w.heap 40 31457280 ∧ (FailsCleanly w.heap 40 31457280 ↔
        (Unobtainable w.heap 40 31457280 → Declines w.heap 40 31457280)) := by
  obtain ⟨h, w, init, run, passed⟩ := trial_run (show trial mm Sound (mmInit zeroed) refusingCalls
    (fun w => decide ((40, 8) ∈ w.live ∧ Unobtainable w.heap 40 31457280)) = some (0, [24, 0, 0, 40, 0], true) by
      decide +kernel)
  obtain ⟨live, lacks⟩ := of_decide_eq_true passed
  exact ⟨h, w, init, run, lacks, mm_realloc_fails_cleanly base_eight init run live (by decide) (by decide)⟩

/--
A block that would have to be moved faults when `mm_malloc` refuses.

For three gigabytes the `int` that compares the sizes wraps, and the small block is returned as it is.
-/
theorem mm_realloc_faults :
    ∃ h w, mmInit zeroed = some (h, 0) ∧ Run mm Sound { heap := h, live := [] } [.malloc 8, .malloc 8] [24, 40] w ∧
      (24, 8) ∈ w.live ∧ Unobtainable w.heap 24 31457280 ∧ mmRealloc w.heap 24 31457280 = none ∧
      ¬ FailsCleanly w.heap 24 31457280 ∧ (mmRealloc w.heap 24 3221225472).map Prod.snd = some 24 ∧
      ¬ FailsCleanly w.heap 24 3221225472 := by
  obtain ⟨h, w, init, run, passed⟩ := trial_run (show trial mm Sound (mmInit zeroed) [.malloc 8, .malloc 8]
    (fun w => decide ((24, 8) ∈ w.live ∧ Unobtainable w.heap 24 31457280 ∧ Unobtainable w.heap 24 3221225472 ∧
      (mmRealloc w.heap 24 31457280).isNone ∧ (mmRealloc w.heap 24 3221225472).map Prod.snd = some 24)) =
        some (0, [24, 40], true) by decide +kernel)
  obtain ⟨live, lacks, lacks', faults, returned⟩ := of_decide_eq_true passed
  rw [Option.isNone_iff_eq_none] at faults
  refine ⟨h, w, init, run, live, lacks, faults, fun fails => ?_, returned, fun fails => ?_⟩
  · have nothing := fails lacks w.heap.mem fun _ _ _ => rfl
    exact nomatch nothing.symm.trans faults
  · have nothing := fails lacks' w.heap.mem fun _ _ _ => rfl
    obtain ⟨result, called, same⟩ := Option.map_eq_some_iff.mp returned
    obtain rfl := Option.some.inj (called.symm.trans nothing)
    exact nomatch same

end Tagged

end MallocLab.Seg98
