import MallocLab.Skeleton.Delivery

/-! The allocator of `originmm_c.c`, which only ever moves the break, and the bump allocator that it is. -/

namespace MallocLab.Naive

/-- The file has no static variables. -/
abbrev State := Heap Unit

/-- Nothing has to be prepared. -/
def mmInit (h : State) : Option (State × Int) := some (h, 0)

/-- Moves the break and notes the size in front of the payload. -/
def mmMalloc (h : State) (size : Nat) : Option (State × Nat) :=
  let newsize := align (add32 size sizeTSize)
  let (h, p) := memSbrk h (toInt32 newsize)
  if p = minusOne then some (h, null) else some (h.put p size, add32 p sizeTSize)

/-- Freeing a block does nothing. -/
def mmFree (h : State) (_ptr : Nat) : Option State := some h

/-- The size that was noted in front of a payload. -/
def notedSize (h : State) (ptr : Nat) : Nat := h.get (sub32 ptr sizeTSize)

/-- Moves a block into a new one of the requested size. -/
def mmRealloc : State → Nat → Nat → Option (State × Nat) := Skeleton.mmRealloc mmMalloc notedSize mmFree

/-- The entry points of the file. -/
def mm : Allocator Unit where
  mmMalloc := mmMalloc
  mmFree := mmFree
  mmRealloc := mmRealloc

/-- The break does not wrap when the heap is extended for this call. -/
def NoWrap (h : State) : Call → Prop
  | .malloc size | .realloc _ size => SbrkFits h (align (add32 size sizeTSize))
  | .free _ | .store _ _ => True

instance (h : State) (c : Call) : Decidable (NoWrap h c) :=
  match c with
  | .malloc size | .realloc _ size => inferInstanceAs (Decidable (SbrkFits h (align (add32 size sizeTSize))))
  | .free _ | .store _ _ => inferInstanceAs (Decidable True)

/-- The space for a request: eight bytes in front of the payload, which is rounded up to a multiple of eight. -/
def room (n : Nat) : Nat := 8 * ((n + 8 + 7) / 8)

/-- The abstract allocator: it hands out one stretch after the other up to a limit, and its state is the break. -/
def bump (limit brk : Nat) : Call → Nat × Nat
  | .malloc n | .realloc _ n => if brk + room n ≤ limit then (brk + room n, brk + 8) else (brk, null)
  | .free _ | .store _ _ => (brk, null)

/-- The blocks of the client lie in the heap from the newest down, each behind the word that has its size. -/
structure Laid (base : Nat) (w : World Unit) (brk : Nat) : Prop where
  start : w.heap.memStartBrk = base
  top : w.heap.memBrk = brk
  limit : w.heap.memMaxAddr = base + maxHeap
  ok : Base base
  aligned : brk % 8 = 0
  low : base ≤ brk
  high : brk ≤ base + maxHeap
  inside : ∀ entry ∈ w.live, base + 8 ≤ entry.1 ∧ entry.1 % 8 = 0 ∧ entry.1 + room entry.2 ≤ brk + 8
  noted : ∀ entry ∈ w.live, w.heap.get (entry.1 - 8) = entry.2
  ordered : w.live.Pairwise fun new old => old.1 + room old.2 ≤ new.1

variable {base brk n p k : Nat} {w last : World Unit} {c : Call} {m : Mem} {h : State} {cs : List Call} {rs : List Nat}

/-- A request fits into its space, with eight bytes to spare. -/
theorem room_spec (n : Nat) : room n % 8 = 0 ∧ n + 8 ≤ room n ∧ room n ≤ n + 15 := by
  unfold room
  omega

/-- The block size that the code computes is the space for the request. -/
theorem newsize_eq (small : n ≤ maxRequest) : align (add32 n sizeTSize) = room n := by
  have most : maxRequest = 4294967280 := rfl
  have block : n + 8 < 2 ^ 32 := by omega
  rw [sizeTSize_eq, add32_eq block, align_eq (by omega)]
  unfold room
  omega

/-- The stretches of two blocks of the client are apart. -/
theorem Laid.apart (laid : Laid base w brk) {e f : Nat × Nat} (first : e ∈ w.live) (second : f ∈ w.live) :
    e = f ∨ e.1 + room e.2 ≤ f.1 ∨ f.1 + room f.2 ≤ e.1 := by
  -- The newer one of two different blocks lies behind the older one.
  by_cases same : e = f
  · exact .inl same
  · have either : w.live.Pairwise fun e f => e.1 + room e.2 ≤ f.1 ∨ f.1 + room f.2 ≤ e.1 := laid.ordered.imp .inr
    have symmetric : Std.Symm fun e f : Nat × Nat => e.1 + room e.2 ≤ f.1 ∨ f.1 + room f.2 ≤ e.1 := ⟨fun _ _ => Or.symm⟩
    exact .inr (either.forall first second same)

/-- Bytes outside the noted sizes may change, and the client may have fewer blocks. -/
theorem Laid.written (laid : Laid base w brk) {live : List (Nat × Nat)} (fewer : live.Sublist w.live)
    (same : ∀ entry ∈ live, ∀ x, entry.1 - 8 ≤ x → x < entry.1 - 4 → m x = w.heap.mem x) :
    Laid base { heap := { w.heap with mem := m }, live := live } brk where
  start := laid.start
  top := laid.top
  limit := laid.limit
  ok := laid.ok
  aligned := laid.aligned
  low := laid.low
  high := laid.high
  inside entry member := laid.inside entry (fewer.subset member)
  -- The sizes in front of the payloads are not written.
  noted entry member := by
    have old := laid.noted entry (fewer.subset member)
    have above := (laid.inside entry (fewer.subset member)).1
    rw [← old]
    exact loadWord_congr fun x lower upper => same entry member x lower (by omega)
  ordered := laid.ordered.sublist fewer

/-- The heap after a request that has been served from the break on. -/
def served (h : State) (n : Nat) : State := { h with memBrk := h.memBrk + room n }.put h.memBrk n

/-- A new block at the break lies behind all others. -/
theorem Laid.push (laid : Laid base w brk) (positive : n ≤ maxRequest) (fits : brk + room n ≤ base + maxHeap) :
    Laid base { heap := served w.heap n, live := (brk + 8, n) :: w.live } (brk + room n) := by
  have most : maxRequest = 4294967280 := rfl
  obtain ⟨whole, enough, _⟩ := room_spec n
  have top := laid.top
  have aligned := laid.aligned
  have low := laid.low
  -- The break moves up, and one word below the new payload is written.
  refine ⟨laid.start, ?_, laid.limit, laid.ok, by omega, by omega, fits, ?_, ?_, ?_⟩
  · show w.heap.memBrk + room n = _
    rw [top]
  · intro entry member
    rcases List.mem_cons.mp member with rfl | old
    · exact ⟨by simp only; omega, by simp only; omega, by simp only; omega⟩
    · obtain ⟨lower, eight, upper⟩ := laid.inside entry old
      exact ⟨lower, eight, by omega⟩
  · intro entry member
    rcases List.mem_cons.mp member with rfl | old
    · show loadWord (storeWord w.heap.mem w.heap.memBrk n) (brk + 8 - 8) = n
      rw [top, Nat.add_sub_cancel]
      exact loadWord_storeWord (by omega)
    · -- The sizes of the older blocks are noted below the break.
      obtain ⟨lower, _, upper⟩ := laid.inside entry old
      have space := (room_spec entry.2).2.1
      rw [← laid.noted entry old]
      show loadWord (storeWord w.heap.mem w.heap.memBrk n) (entry.1 - 8) = _
      exact loadWord_storeWord_other (by omega)
  · exact List.pairwise_cons.mpr ⟨fun entry member => (laid.inside entry member).2.2, laid.ordered⟩

/-- `mm_malloc` serves the request from the break on, or it changes nothing. -/
theorem Laid.malloc (laid : Laid base w brk) (small : n ≤ maxRequest)
    (fine : SbrkFits w.heap (align (add32 n sizeTSize))) :
    mmMalloc w.heap n =
      some (if brk + room n ≤ base + maxHeap then (served w.heap n, brk + 8) else (w.heap, null)) := by
  have most : maxRequest = 4294967280 := rfl
  have area : maxHeap = 20971520 := rfl
  have top := laid.top
  have limit := laid.limit
  have fits := laid.ok.fits
  obtain ⟨_, enough, few⟩ := room_spec n
  rw [newsize_eq small] at fine
  have low := laid.low
  unfold mmMalloc
  simp only [newsize_eq small]
  -- `mem_sbrk` decides by the end of the area alone, since the request does not wrap.
  by_cases here : brk + room n ≤ base + maxHeap
  · have granted : memSbrk w.heap (toInt32 (room n)) =
        ({ w.heap with memBrk := w.heap.memBrk + room n }, w.heap.memBrk) :=
      memSbrk_granted (by omega) (by omega) (by omega)
    have real : ¬ w.heap.memBrk = minusOne := by
      unfold minusOne
      omega
    have payload : add32 w.heap.memBrk sizeTSize = brk + 8 := by
      rw [sizeTSize_eq, add32_eq (by omega), top]
    -- The payload starts eight bytes behind the old break.
    rw [granted, if_pos here]
    simp only [if_neg real, payload]
    rfl
  · -- The break would pass the end of the area.
    have word : room n < 2 ^ 32 := by
      unfold room
      omega
    have refused : memSbrk w.heap (toInt32 (room n)) = (w.heap, minusOne) :=
      memSbrk_refused word fine (by omega)
    rw [refused, if_neg here]
    rfl

/-- What a served request owes: the new block is behind all others, whose bytes stay. -/
theorem Laid.upholds_push (laid : Laid base w brk) {next : World Unit} {live : List (Nat × Nat)}
    (request : c.request = some n)
    (laid' : Laid base next (brk + room n)) (others : w.others c = live)
    (fewer : ∀ entry ∈ live, entry ∈ w.live) (same : ∀ x < brk, next.heap.mem x = w.heap.mem x) :
    Upholds w c next (brk + 8) := by
  obtain ⟨_, enough, _⟩ := room_spec n
  have aligned := laid.aligned
  have low := laid.low
  have start := laid'.start
  have top := laid'.top
  have high := laid'.high
  have fits := laid.ok.fits
  have below : ∀ entry ∈ w.others c, entry.1 + entry.2 ≤ brk := by
    intro entry member
    obtain ⟨_, _, upper⟩ := laid.inside entry (fewer entry (others ▸ member))
    have space := (room_spec entry.2).2.1
    omega
  -- The old blocks end below the old break, where the new one begins.
  refine ⟨fun _ _ _ => by omega, fun k asks _ => ?_, fun k asks _ entry member => .inr ?_,
    fun _ entry member x lower upper => ?_⟩
  · -- The new payload ends at the new break, or below it.
    obtain rfl := Option.some.inj (request.symm.trans asks)
    unfold memHeapLo memHeapHi
    rw [start, top, sub32_eq (by omega) (by omega)]
    omega
  · -- The other payloads end below the old break.
    have := below entry member
    omega
  · have := below entry member
    exact same x (by omega)

/-- What an action owes that leaves the heap as it is. -/
theorem upholds_same {r : Nat} {next : World Unit} (same : next.heap.mem = w.heap.mem)
    (none_ : ∀ n, c.request = some n → r = null) : Upholds w c next r where
  aligned n asks real := absurd (none_ n asks) real
  inside n asks real := absurd (none_ n asks) real
  disjoint n asks real := absurd (none_ n asks) real
  preserved _ _ _ x _ _ := by rw [same]

/-- A reallocation that finds space copies the smaller one of the two sizes. -/
theorem Laid.realloc (laid : Laid base w brk) (live : (p, k) ∈ w.live) (small : n ≤ maxRequest)
    (fine : NoWrap w.heap (.realloc p n)) (fits : brk + room n ≤ base + maxHeap) :
    ∃ next, w.call mm (.realloc p n) = some (next, brk + 8) ∧ Laid base next (brk + room n) ∧
      next.heap.mem = copyBytes (storeWord w.heap.mem brk n) (brk + 8) p (Skeleton.copied n k) := by
  have done := laid.malloc small fine
  rw [if_pos fits] at done
  have laid' := laid.push small fits
  have low : base + 8 ≤ p := (laid.inside (p, k) live).1
  have upper : p + room k ≤ brk + 8 := (laid.inside (p, k) live).2.2
  have base_ := laid.ok.real
  have word := laid.ok.fits
  have high := laid.high
  have space := (room_spec k).2.1
  have real : ∀ q, base < q → q ≠ null := fun q above => by
    unfold null
    omega
  -- The size of the old block is read from the word that the old request has stored.
  have header : notedSize (served w.heap n) p = k := by
    unfold notedSize
    rw [sizeTSize_eq, sub32_eq (by omega) (by omega)]
    exact laid'.noted (p, k) (List.mem_cons_of_mem _ live)
  -- The bytes are copied from below the break to the new block.
  have copied : (served w.heap n).memcpy (brk + 8) p (Skeleton.copied n k) = _ :=
    Heap.memcpy_real (real _ (by omega)) (real p (by omega))
  have returned : mmRealloc w.heap p n = some ({ served w.heap n with
      mem := copyBytes (served w.heap n).mem (brk + 8) p (Skeleton.copied n k) }, brk + 8) := by
    refine bind_step done ((if_neg (real _ (by omega))).trans ?_)
    rw [header]
    exact bind_step copied rfl
  refine ⟨_, bind_step returned (if_neg (real _ (by omega))), ?_, ?_⟩
  · -- The copy goes behind the old break, and so past all sizes that are noted.
    refine laid'.written (List.filter_sublist.cons_cons _) fun entry member x lower upper => copyBytes_other (.inl ?_)
    rcases List.mem_cons.mp member with rfl | old
    · simp only at upper
      omega
    · obtain ⟨_, _, most⟩ := laid.inside entry (List.mem_of_mem_filter old)
      have space := (room_spec entry.2).2.1
      omega
  · -- The copy is taken after the new size has been stored.
    show copyBytes (storeWord w.heap.mem w.heap.memBrk n) _ _ _ = _
    rw [laid.top]

/-- Every legal action does what the bump allocator does, and it delivers what the client is owed. -/
theorem Laid.call (laid : Laid base w brk) (legal : w.Legal c) (fine : NoWrap w.heap c) :
    ∃ next r, w.call mm c = some (next, r) ∧ (bump (base + maxHeap) brk c).2 = r ∧
      Laid base next (bump (base + maxHeap) brk c).1 ∧ Skeleton.Delivers w c next r := by
  have top := laid.top
  -- Each action either moves the break or leaves it where it is.
  cases c with
  | malloc n =>
    have done := laid.malloc legal.2 fine
    -- There is room, so the break moves.
    by_cases fits : brk + room n ≤ base + maxHeap
    · rw [if_pos fits] at done
      have laid' := laid.push legal.2 fits
      refine ⟨_, brk + 8, bind_step done (if_neg (by unfold null; omega)), by simp [bump, fits], ?_, ?_, ?_⟩
      · simpa [bump, fits] using laid'
      · -- Nothing below the old break is written.
        refine laid.upholds_push rfl laid' rfl (fun _ member => member) fun x below => ?_
        show storeWord w.heap.mem w.heap.memBrk n x = _
        exact storeWord_other (by omega)
      · simp
    · -- There is none, so nothing happens.
      rw [if_neg fits] at done
      refine ⟨w, null, bind_step done (if_pos rfl), by simp [bump, fits], by simpa [bump, fits] using laid,
        upholds_same rfl fun _ _ => rfl, fun _ _ _ _ real => absurd rfl real⟩
  -- `mm_free` leaves the heap as it is.
  | free p =>
    refine ⟨{ w with live := dropLive w.live p }, null, rfl, rfl, ?_, upholds_same rfl (by simp [Call.request]),
      by simp⟩
    exact laid.written List.filter_sublist fun _ _ _ _ _ => rfl
  | realloc p n =>
    obtain ⟨⟨k, live⟩, positive, small⟩ := legal
    have done := laid.malloc small fine
    have noted := laid.noted (p, k) live
    have upper : p + room k ≤ brk + 8 := (laid.inside (p, k) live).2.2
    -- The new block lies above the break, and so apart from the old one.
    by_cases fits : brk + room n ≤ base + maxHeap
    · obtain ⟨next, returned, laid', bytes⟩ := laid.realloc live small fine fits
      have old : ∀ x < brk, next.heap.mem x = w.heap.mem x := by
        intro x below
        rw [bytes, copyBytes_other (.inl (by omega)), storeWord_other (.inl below)]
      refine ⟨next, brk + 8, returned, by simp [bump, fits], by simpa [bump, fits] using laid', ?_, ?_⟩
      · exact laid.upholds_push rfl laid' rfl (fun _ member => List.mem_of_mem_filter member) old
      · -- The block that is moved is the one whose size has been read.
        rintro p' n' k' same _ live' i below
        obtain ⟨rfl, rfl⟩ := Call.realloc.inj same
        obtain rfl : k = k' := noted.symm.trans (laid.noted (p, k') live')
        have space := (room_spec k).2.1
        have count : i < Skeleton.copied n k := by
          unfold Skeleton.copied
          split <;> omega
        rw [bytes]
        unfold copyBytes
        rw [if_pos (by omega), Nat.add_sub_cancel_left, storeWord_other (.inl (by omega))]
    · -- The request is refused before anything is copied.
      rw [if_neg fits] at done
      have refused : mmRealloc w.heap p n = some (w.heap, null) := bind_step done (if_pos rfl)
      refine ⟨w, null, bind_step refused (if_pos rfl), by simp [bump, fits], by simpa [bump, fits] using laid,
        upholds_same rfl fun _ _ => rfl, fun _ _ _ _ real => absurd rfl real⟩
  | store addr byte =>
    obtain ⟨p, k, live, lower, upper⟩ := legal
    refine ⟨_, null, rfl, rfl, ?_, ⟨by simp [Call.request], by simp [Call.request], by simp [Call.request],
      fun calls => absurd rfl (calls addr byte)⟩, by simp⟩
    refine laid.written (List.Sublist.refl _) fun entry member x low high => storeByte_other ?_
    -- No noted size lies inside the payload that is written.
    have space := (room_spec k).2.1
    have space' := (room_spec entry.2).2.1
    have above := (laid.inside entry member).1
    rcases laid.apart member live with rfl | before | behind
    · simp only at low high above
      omega
    · simp only at before
      omega
    · simp only at behind
      omega

/-- A result is null, or it is at the break, which then moves behind it. -/
theorem bump_cases (limit brk : Nat) (c : Call) : (bump limit brk c).2 = null ∧ (bump limit brk c).1 = brk ∨
    (bump limit brk c).2 = brk + 8 ∧ brk + 8 ≤ (bump limit brk c).1 := by
  have request : ∀ n, bump limit brk (.malloc n) = (brk, null) ∨
      bump limit brk (.malloc n) = (brk + room n, brk + 8) := by
    intro n
    by_cases fits : brk + room n ≤ limit
    · exact .inr (if_pos fits)
    · exact .inl (if_neg fits)
  cases c with
  | malloc n | realloc p n =>
    have space := (room_spec n).2.1
    refine (request n).imp (fun refused => ?_) fun served => ?_
    · exact ⟨congrArg Prod.snd refused, congrArg Prod.fst refused⟩
    · have moved : (bump limit brk (.malloc n)).1 = brk + room n := congrArg Prod.fst served
      exact ⟨congrArg Prod.snd served, (show brk + 8 ≤ brk + room n by omega).trans_eq moved.symm⟩
  | free p => exact .inl ⟨rfl, rfl⟩
  | store addr byte => exact .inl ⟨rfl, rfl⟩

/-- The stretches that are handed out rise, from the break up. -/
theorem play_bump_rises (limit : Nat) (cs : List Call) :
    ((play (bump limit) brk cs).2.filter (· ≠ null)).Pairwise (· < ·) ∧
      ∀ r ∈ (play (bump limit) brk cs).2, r ≠ null → brk + 8 ≤ r := by
  -- Later results lie above the break that the first action leaves.
  induction cs generalizing brk with
  | nil => simp [play]
  | cons c cs ih =>
    obtain ⟨rises, above⟩ := @ih (bump limit brk c).1
    have shape : (play (bump limit) brk (c :: cs)).2 =
        (bump limit brk c).2 :: (play (bump limit) (bump limit brk c).1 cs).2 := rfl
    rw [shape]
    rcases bump_cases limit brk c with ⟨refused, low⟩ | ⟨here, low⟩
    · -- An action that returns null adds nothing to the results.
      refine ⟨by simpa [refused] using rises, fun r member real => ?_⟩
      rcases List.mem_cons.mp member with rfl | later
      · exact absurd refused real
      · have := above r later real
        omega
    · -- The new result is below all later ones, which lie above the break it leaves.
      have real : brk + 8 ≠ null := by
        unfold null
        omega
      constructor
      · rw [here, List.filter_cons_of_pos (by simpa using real)]
        refine List.pairwise_cons.mpr ⟨fun r member => ?_, rises⟩
        obtain ⟨later, other⟩ := List.mem_filter.mp member
        have := above r later (by simpa using other)
        omega
      · intro r member other
        rcases List.mem_cons.mp member with rfl | later
        · omega
        · have := above r later other
          omega

/-- After `mem_init` the heap is empty. -/
theorem laid_start (ok : Base base) (m : Mem) : Laid base { heap := memInit m base (), live := [] } base where
  start := rfl
  top := rfl
  limit := (ok.area m ()).limit
  ok := ok
  aligned := ok.aligned
  low := Nat.le_refl base
  high := Nat.le_add_right _ _
  inside := by simp
  noted := by simp
  ordered := List.Pairwise.nil

/--
Every run of `originmm_c.c` returns what the bump allocator returns, so no address is handed out a second time.

After it every further action serves the client, and a reallocation moves the contents of its block.
-/
theorem mm_refines_bump (ok : Base base) (init : mmInit (memInit m base ()) = some (h, 0))
    (run : Run mm NoWrap { heap := h, live := [] } cs rs w) :
    (play (bump (base + maxHeap)) base cs).2 = rs ∧ (rs.filter (· ≠ null)).Pairwise (· < ·) ∧
      ∀ c, w.Legal c → NoWrap w.heap c → ∃ next r, w.call mm c = some (next, r) ∧ Skeleton.Delivers w c next r := by
  obtain ⟨rfl, _⟩ := Prod.mk.inj (Option.some.inj init)
  obtain ⟨same, laid⟩ := run.simulates (R := Laid base) (fun w brk c next r laid legal fine called => by
    obtain ⟨next', r', done, results, laid', _⟩ := laid.call legal fine
    rw [called] at done
    obtain ⟨rfl, rfl⟩ := Prod.mk.inj (Option.some.inj done)
    exact ⟨results, laid'⟩) (laid_start ok m)
  -- The results are those of the abstract allocator, so they rise as its results do.
  refine ⟨same, same ▸ (play_bump_rises _ cs).1, fun c legal fine => ?_⟩
  obtain ⟨next, r, done, _, _, delivers⟩ := laid.call legal fine
  exact ⟨next, r, done, delivers⟩

/-- Some requests, with writing and freeing in between. -/
def sampleCalls : List Call :=
  [.malloc 24, .store 20 7, .malloc 5, .realloc 16 40, .free 48, .malloc 30000000, .malloc 1]

/-- The abstract allocator returns the results of the small run. -/
theorem mm_refines_bump_sample :
    ∃ h w, mmInit (memInit (fun _ => 0) 8 ()) = some (h, 0) ∧
      Run mm NoWrap { heap := h, live := [] } sampleCalls [16, 0, 48, 64, 0, 0, 112] w ∧
      (play (bump (8 + maxHeap)) 8 sampleCalls).2 = [16, 0, 48, 64, 0, 0, 112] ∧
      ([16, 0, 48, 64, 0, 0, 112].filter (· ≠ null)).Pairwise (· < ·) ∧
      ∀ c, w.Legal c → NoWrap w.heap c → ∃ next r, w.call mm c = some (next, r) ∧ Skeleton.Delivers w c next r := by
  obtain ⟨h, w, init, run, _⟩ := trial_run (show trial mm NoWrap (mmInit (memInit (fun _ => 0) 8 ())) sampleCalls
    (fun _ => true) = some (0, [16, 0, 48, 64, 0, 0, 112], true) by decide +kernel)
  exact ⟨h, w, init, run, mm_refines_bump base_eight init run⟩

end MallocLab.Naive
