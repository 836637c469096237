import MallocLab.Seg98.Enlarge

/-! What `mm_realloc` of `(98)분석.c` does to the blocks, when new space will adjoin what a block is enlarged by. -/

namespace MallocLab.Seg98

open Segregated

namespace Tagged

/-- The number of bytes by which `mm_malloc(size)` extends the heap, if it does. -/
def mallocAsks (h : State) (size : Nat) : Option Nat :=
  if (findFit file h (adjustedSize size)).map Prod.snd = some null then some (max (adjustedSize size) chunksize)
  else none

/-- The number of bytes by which a call extends the heap, if it does. -/
def asks (h : State) : Call → Option Nat
  | .malloc size => mallocAsks h size
  | .realloc ptr size =>
    let newSize := bufferedSize size
    if blockBuffer h ptr newSize < 0 then
      if open_ h ptr then
        if remainder h ptr newSize < 0 then some (max (-remainder h ptr newSize) chunksize).toNat else none
      else mallocAsks h (sub32 newSize dsize)
    else none
  | _ => none

/-- The size that is asked for is far from the top of an `int`, and `mem_sbrk` grants what the call asks for. -/
structure Granted (h : State) (c : Call) : Prop where
  small : ∀ n ∈ c.request, n < 2 ^ 31 - 2 ^ 13
  room : ∀ size ∈ asks h c, h.memBrk + size ≤ h.memMaxAddr

/--
If `mm_realloc` has to extend the heap in place, the new space will adjoin what it takes over.

Behind the block there is the epilogue, or a free block that carries no tag and is the last one.
-/
def Adjoining (h : State) : Call → Prop
  | .realloc ptr size =>
    blockBuffer h ptr (bufferedSize size) < 0 → open_ h ptr = true → remainder h ptr (bufferedSize size) < 0 →
      getSize h (hdrp (nextBlkp h ptr)) = 0 ∨
        getTag h (hdrp (nextBlkp h ptr)) = 0 ∧ getSize h (hdrp (nextBlkp h (nextBlkp h ptr))) = 0
  | _ => True

instance (h : State) (c : Call) : Decidable (Granted h c) :=
  decidable_of_iff ((∀ n ∈ c.request, n < 2 ^ 31 - 2 ^ 13) ∧ ∀ size ∈ asks h c, h.memBrk + size ≤ h.memMaxAddr)
    ⟨fun ⟨small, room⟩ => ⟨small, room⟩, fun granted => ⟨granted.small, granted.room⟩⟩

instance (h : State) (c : Call) : Decidable (Adjoining h c) :=
  match c with
  | .realloc _ _ => inferInstanceAs (Decidable (_ → _ → _ → _ ∨ _))
  | .malloc _ | .free _ | .store _ _ => inferInstanceAs (Decidable True)

/-- `mm_realloc` enlarges the block in place. -/
def Enlarges (h : State) (ptr size : Nat) : Prop :=
  blockBuffer h ptr (bufferedSize size) < 0 ∧ open_ h ptr = true

variable {h h₁ : State} {s : Shelves} {b : Blk} {pre post post' bs : List Blk} {base lo hi n p r size newSize : Nat}

/-- The size of a request with the buffer, which does not wrap. -/
theorem bufferedSize_eq (positive : 1 ≤ n) (small : n < 2 ^ 31 - 2 ^ 13) :
    bufferedSize n = adjustedSize n + 128 ∧ bufferedSize n % 8 = 0 ∧ n + 136 ≤ bufferedSize n ∧
      bufferedSize n < 2 ^ 31 := by
  have legal : n ≤ maxRequest := by unfold maxRequest; omega
  obtain ⟨exact_, adjusted⟩ := adjustedSize_adjusted positive legal
  have whole := adjusted.whole
  have room := adjusted.room
  have buffer : reallocBuffer = 128 := rfl
  have sum : bufferedSize n = adjustedSize n + 128 := by
    unfold bufferedSize
    rw [buffer]
    exact add32_eq (by omega)
  omega

/-- What remains of a block of a standing machine beyond a size. -/
theorem blockBuffer_eq (stands : Stands file base h s) (split : s.blocks = pre ++ b :: post) (small : newSize < 2 ^ 31) :
    blockBuffer h b.addr newSize = (b.size : Int) - newSize := by
  have room := (stands.room split).small
  have size : getSize h (hdrp b.addr) = b.size := stands.rep.arena.size (by simp [split])
  unfold blockBuffer
  rw [size, toInt32_sub32 (by omega) small]

/-- Setting the tag behind a used block changes no block otherwise. -/
theorem tagNext_stands (newSize : Nat) (stands : Stands file base h s) (occupied : Occupied s.blocks p size) :
    ∃ s', Stands file base (tagNext h p newSize) s' ∧ Alike s.blocks s'.blocks ∧ s'.brk = s.brk ∧
      Keeps h (tagNext h p newSize) s.blocks := by
  obtain ⟨b, member, rfl, rfl, used⟩ := occupied
  unfold tagNext
  split
  · obtain ⟨pre, post, _, located⟩ := Skeleton.Rep.locate stands.rep member
    obtain ⟨rep', keeps⟩ := setRatag_rep stands.rep rfl located
    have alike := s.retagNext_alike b.addr true
    have brk := s.retagNext_brk b.addr true
    exact ⟨_, ⟨rep', stands.filed.alike alike (s.retagNext_lists b.addr true), keeps.start.trans stands.start,
      brk.trans_le stands.below⟩, alike, brk, keeps⟩
  · exact ⟨s, stands, rfl, rfl, Keeps.refl _ _⟩

/-- Whoever is in use besides the block is in use around it. -/
theorem occupied_others_split (tiles : Tiles lo (pre ++ b :: post) hi) (q k : Nat) :
    Occupied (others (pre ++ b :: post) b.addr) q k ↔ Occupied (pre ++ post) q k := by
  rw [occupied_others]
  constructor
  · rintro ⟨⟨c, member, rfl, rfl, used⟩, other⟩
    have away : c ≠ b := fun same => other (same ▸ rfl)
    refine ⟨c, ?_, rfl, rfl, used⟩
    rcases List.mem_append.mp member with left | right
    · exact List.mem_append_left _ left
    · exact List.mem_append_right _ ((List.mem_cons.mp right).resolve_left away)
  · rintro ⟨c, member, rfl, rfl, used⟩
    exact ⟨⟨c, mem_around member, rfl, rfl, used⟩, tiles.addr_ne member⟩

/-- Giving a used block another size, and taking over what is free behind it, serves the request where it is. -/
theorem served_here (tiles : Tiles lo (pre ++ b :: post) hi) (around : ∀ q k, Occupied (pre ++ post') q k ↔
    Occupied (pre ++ post) q k) (alike : Alike (pre ++ { addr := b.addr, size := size, used := true } :: post') bs)
    (room : n + 8 ≤ size) : Served (others (pre ++ b :: post) b.addr) bs b.addr n where
  fresh := fun k used => (occupied_others.mp used).2 rfl
  gained := by
    refine ⟨size, room, fun q k => ?_⟩
    rw [alike.occupied, occupied_others_split tiles, ← around]
    simp only [occupied_append, occupied_cons]
    grind

/-- A block with enough to spare stays as it is. -/
theorem realloc_kept (stands : Stands file base h s) (occupied : Occupied s.blocks p size) (positive : 1 ≤ n)
    (small : n < 2 ^ 31 - 2 ^ 13) (spare : ¬ blockBuffer h p (bufferedSize n) < 0) :
    ∃ h' s', mmRealloc h p n = some (h', p) ∧ Stands file base h' s' ∧ Keeps h h' (others s.blocks p) ∧
      Served (others s.blocks p) s'.blocks p n := by
  obtain ⟨_, _, enough, word⟩ := bufferedSize_eq positive small
  obtain ⟨s', stands', alike, _, keeps⟩ := tagNext_stands (bufferedSize n) stands occupied
  obtain ⟨b, member, rfl, rfl, used⟩ := occupied
  obtain ⟨pre, post, split, _⟩ := Skeleton.Rep.locate stands.rep member
  obtain ⟨lo, _, _, _, tiles, _⟩ := stands.tiles
  have buffer := blockBuffer_eq stands split word
  refine ⟨_, s', ?_, stands', keeps.transfer fun q k used => (occupied_others.mp used).1, ?_⟩
  · -- The buffer is there already, and nothing is asked for.
    unfold mmRealloc
    simp only [show n ≠ 0 by omega, spare, if_false]
    rfl
  · -- The block has the same start and size as before.
    rw [split] at tiles alike ⊢
    have same : Alike (pre ++ { addr := b.addr, size := b.size, used := true } :: post) s'.blocks := by
      unfold Alike at alike ⊢
      rw [alike]
      simp [Blk.bare, used]
    exact served_here tiles (fun _ _ => Iff.rfl) same (by omega)

/-- The union of the block, what is free behind it, and new space that adjoins them. -/
structure Grown (s s' : Shelves) (b : Blk) (post : List Blk) (grow : Nat) : Prop where
  block : Occupied s'.blocks b.addr (b.size + behindSize post + grow)
  brk : s'.brk = s.brk + grow
  adjoins : grow = 0 ∨ b.addr + b.size + behindSize post = s.brk

/-- Behind the last block of an arena there is nothing. -/
theorem nothing_behind {loose mark : Bool} {m : Mem} (arena : Arena loose m lo hi (pre ++ b :: post) mark)
    (ends : (following post hi mark).size = 0) : post = [] := by
  cases post with
  | nil => rfl
  | cons c post =>
    have := (arena.within (b := c) (by simp)).least
    have ends : c.size = 0 := ends
    omega

/-- The headers say that new space will adjoin what is behind the block. -/
theorem joins_of_headers (stands : Stands file base h s) (split : s.blocks = pre ++ b :: post)
    (idle : Open post) (seen : getSize h (hdrp (nextBlkp h b.addr)) = 0 ∨
      getTag h (hdrp (nextBlkp h b.addr)) = 0 ∧ getSize h (hdrp (nextBlkp h (nextBlkp h b.addr))) = 0) :
    post = [] ∨ ∃ c, post = [c] ∧ c.used = false ∧ c.tag = false := by
  have arena := stands.rep.arena
  rw [split, ← List.append_assoc] at arena
  -- Nothing is behind the block, or there is one block that the headers show.
  cases post with
  | nil => exact .inl rfl
  | cons c rest =>
    have next : nextBlkp h b.addr = c.addr := (arena.next (by simp)).trans arena.following_addr.symm
    rcases seen with ends | ⟨untagged, ends⟩
    · rw [arena.following_size] at ends
      -- The header behind is that of a block, so its size is not zero.
      exact nomatch nothing_behind arena ends
    · have shifted : Arena (layout file).loose h.mem (h.memStartBrk + 8) h.memBrk
          (((layout file).fixed h.memStartBrk ++ pre ++ [b]) ++ c :: rest) s.mark := by simpa using arena
      rw [next] at untagged ends
      rw [shifted.following_size] at ends
      obtain rfl := nothing_behind shifted ends
      refine .inr ⟨c, rfl, idle c rfl, ?_⟩
      have header := shifted.header (b := c) (by simp)
      -- The tag bit of the header says whether the block is tagged.
      have kept : marked file h (hdrp c.addr) = c.tag :=
        marked_header header (shifted.within (b := c) (by simp)).whole fun tight => nomatch tight
      rw [← kept]
      simp [marked, untagged]

/-- What `enlarge` does, when new space will adjoin what it takes over. -/
theorem enlarge_stands (stands : Stands file base h s) (located : locate s.blocks b.addr = some (pre, b, post))
    (used : b.used = true) (positive : 1 ≤ n) (granted : Granted h (.realloc b.addr n))
    (adjoining : Adjoining h (.realloc b.addr n)) (grows : Enlarges h b.addr n) :
    ∃ h' s' grow, enlarge file h b.addr (bufferedSize n) = some (h', b.addr) ∧ Stands file base h' s' ∧
      Enlarged s s' pre b post grow ∧ Keeps h h' (pre ++ post.tail) ∧ bufferedSize n ≤ b.size + behindSize post + grow := by
  obtain ⟨split, _⟩ := locate_some located
  obtain ⟨_, whole, _, word⟩ := bufferedSize_eq positive (granted.small n rfl)
  obtain ⟨short, open_⟩ := grows
  have left := remainder_eq stands split word
  have buffer := blockBuffer_eq stands split word
  have idle := (open_iff stands.rep split).mp open_
  by_cases enough : bufferedSize n ≤ b.size + behindSize post
  · cases post with
    | nil =>
      -- The epilogue has nothing to give.
      have nothing : behindSize [] = 0 := rfl
      omega
    | cons c rest =>
      obtain ⟨h', s', done, stands', grown, keeps⟩ :=
        enlarge_enough Tagged.spells stands split used (idle c rfl) word enough
      exact ⟨h', s', 0, done, stands', grown, keeps, enough⟩
  · -- The space is too small, so the heap is extended, and the extension joins it.
    have lacks : remainder h b.addr (bufferedSize n) < 0 := by omega
    have joins := joins_of_headers stands split idle (adjoining short open_ lacks)
    have request : asks h (.realloc b.addr n) = some (max (bufferedSize n - (b.size + behindSize post)) 4096) := by
      unfold asks
      simp only
      rw [if_pos short, if_pos open_, if_pos lacks, left]
      have chunk : chunksize = 4096 := rfl
      exact congrArg some (by omega)
    -- The extension is granted.
    have room := granted.room _ request
    rw [stands.rep.brk, stands.rep.area.limit, stands.start] at room
    obtain ⟨h', s', done, stands', grown, keeps⟩ := enlarge_extended Tagged.spells stands split used joins whole word
      (by omega) rfl room
    have tail : post.tail = [] := by rcases joins with rfl | ⟨c, rfl, _⟩ <;> rfl
    refine ⟨h', s', _, done, stands', grown, ?_, by omega⟩
    rw [tail, List.append_nil]
    exact keeps

/-- Taking a free block away from behind changes nobody in use. -/
theorem occupied_tail (idle : Open post) (q k : Nat) : Occupied (pre ++ post.tail) q k ↔ Occupied (pre ++ post) q k := by
  cases post with
  | nil => rfl
  | cons c rest => exact (occupied_free (idle c rfl)).symm

/-- Who is in use elsewhere lies before the block, or behind what it takes over. -/
theorem others_tail (idle : Open post) (split : s.blocks = pre ++ b :: post) {c : Blk}
    (member : c ∈ others s.blocks b.addr) (used : c.used = true) : c ∈ pre ++ post.tail := by
  obtain ⟨member, other⟩ := mem_others.mp member
  rw [split] at member
  have away : c ≠ b := fun same => other (same ▸ rfl)
  rcases List.mem_append.mp member with left | right
  · -- A used block behind is not the one that is taken over.
    exact List.mem_append_left _ left
  · have right := (List.mem_cons.mp right).resolve_left away
    cases post with
    | nil => exact nomatch right
    | cons d rest =>
      rcases List.mem_cons.mp right with rfl | right
      · rw [idle c rfl] at used
        exact nomatch used
      · exact List.mem_append_right _ right

/-- A block is enlarged in place by what is free behind it and by new space that adjoins that. -/
theorem realloc_enlarged (stands : Stands file base h s) (located : locate s.blocks b.addr = some (pre, b, post))
    (used : b.used = true) (positive : 1 ≤ n) (granted : Granted h (.realloc b.addr n))
    (adjoining : Adjoining h (.realloc b.addr n)) (grows : Enlarges h b.addr n) :
    ∃ h' s' grow, mmRealloc h b.addr n = some (h', b.addr) ∧ Stands file base h' s' ∧
      Keeps h h' (others s.blocks b.addr) ∧ Served (others s.blocks b.addr) s'.blocks b.addr n ∧
      Grown s s' b post grow := by
  obtain ⟨split, _⟩ := locate_some located
  obtain ⟨_, _, enough, _⟩ := bufferedSize_eq positive (granted.small n rfl)
  obtain ⟨h₁, s₁, grow, done, stands₁, grown, keeps₁, large⟩ :=
    enlarge_stands stands located used positive granted adjoining grows
  obtain ⟨short, open_⟩ := grows
  have idle := (open_iff stands.rep split).mp open_
  -- The larger block is in its place.
  have block : Occupied s₁.blocks b.addr (b.size + behindSize post + grow) := by
    rw [grown.blocks]
    exact ⟨_, List.mem_append_right _ List.mem_cons_self, rfl, rfl, rfl⟩
  obtain ⟨s', stands', alike, brk, keeps₂⟩ := tagNext_stands (bufferedSize n) stands₁ block
  obtain ⟨lo, _, _, _, tiles, _⟩ := stands.tiles
  rw [split] at tiles
  rw [grown.blocks] at alike
  have real : b.addr ≠ null := stands.real (by simp [split])
  have served := served_here (n := n) tiles (occupied_tail idle) alike (by omega)
  rw [← split] at served
  refine ⟨_, s', grow, ?_, stands', ?_, served,
    ⟨(alike.occupied _ _).mpr (grown.blocks ▸ block), brk.trans grown.brk, grown.adjoins⟩⟩
  · -- The block stays where it is, and gets its tag.
    unfold mmRealloc
    simp only [show n ≠ 0 by omega, short, open_, if_true, if_false]
    exact bind_step done (if_neg real)
  · -- The other used blocks keep their contents through both steps.
    refine (keeps₁.narrow fun c member used => others_tail idle split member used).trans (keeps₂.transfer ?_)
    intro q k busy
    rw [grown.blocks, occupied_append, occupied_cons]
    rw [split, occupied_others_split tiles, ← occupied_tail idle, occupied_append] at busy
    exact busy.imp_right .inr

/-- When nothing is picked, a request extends the heap. -/
theorem mallocAsks_none (stands : Stands file base h s) (positive : adjustedSize n ≠ 0)
    (found : pick s (adjustedSize n) = none) : mallocAsks h n = some (max (adjustedSize n) 4096) := by
  unfold mallocAsks
  rw [findFit_result Tagged.spells stands.rep positive, found]
  exact if_pos rfl

/-- A block that cannot grow where it is moves to a new place. -/
theorem realloc_moved (stands : Stands file base h s) (occupied : Occupied s.blocks p size) (positive : 1 ≤ n)
    (granted : Granted h (.realloc p n)) (short : blockBuffer h p (bufferedSize n) < 0) (shut : open_ h p = false) :
    ∃ h' s' r, mmRealloc h p n = some (h', r) ∧ Stands file base h' s' ∧ Keeps h h' (others s.blocks p) ∧
      r ≠ null ∧ Served (others s.blocks p) s'.blocks r n := by
  obtain ⟨_, _, enough, word⟩ := bufferedSize_eq positive (granted.small n rfl)
  have request : sub32 (bufferedSize n) dsize = bufferedSize n - 8 := sub32_eq (by unfold dsize; omega) (by omega)
  have legal : 1 ≤ bufferedSize n - 8 ∧ bufferedSize n - 8 ≤ maxRequest := by unfold maxRequest; omega
  have least := (adjustedSize_adjusted legal.1 legal.2).2.least
  have all := parts Tagged.spells Tagged.frees base
  -- The request of the move is granted too.
  obtain ⟨h₁, s₁, r, done₁, stands₁, keeps₁, real, served⟩ := all.malloc_granted stands legal.1 legal.2 fun found => by
    have asked : asks h (.realloc p n) = some (max (adjustedSize (bufferedSize n - 8)) 4096) := by
      unfold asks
      simp only
      rw [if_pos short, shut, if_neg Bool.false_ne_true, request]
      exact mallocAsks_none stands (by omega) found
    have room := granted.room _ asked
    rw [stands.rep.brk, stands.rep.area.limit, stands.start] at room
    exact room
  -- The bytes are moved, and the old block is freed.
  obtain ⟨h₂, copy, done₂, stands₂, released, copies, frees⟩ :=
    all.moves (show min n (bufferedSize n) ≤ bufferedSize n - 8 by omega) real stands₁ served occupied
  have served₂ := Served.release served occupied released
  have keeps₂ := served.keeps_others keeps₁ copies frees
  obtain ⟨taken, room, gained⟩ := served₂.gained
  -- The block after the new one is tagged.
  obtain ⟨s', stands', alike, _, keeps₃⟩ :=
    tagNext_stands (bufferedSize n) stands₂ ((gained r taken).mpr (.inr ⟨rfl, rfl⟩))
  have served₁ : mmMalloc h (sub32 (bufferedSize n) dsize) = some (h₁, r) := request ▸ done₁
  have moved : move h p n (bufferedSize n) = some (h₂, r) := by
    unfold move
    exact bind_step served₁ (bind_step copy (bind_step done₂ rfl))
  -- The results of the three calls are those of the code.
  refine ⟨_, s', r, ?_, stands', keeps₂.trans (keeps₃.transfer fun q k busy => (gained q k).mpr (.inl busy)), real, ?_⟩
  · unfold mmRealloc
    simp only [show n ≠ 0 by omega, short, shut, Bool.false_eq_true, if_true, if_false]
    exact bind_step moved (if_neg real)
  · exact ⟨served₂.fresh, taken, by omega, fun q k => (alike.occupied q k).trans (gained q k)⟩

end Tagged

end MallocLab.Seg98
