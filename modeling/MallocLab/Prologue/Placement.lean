import MallocLab.Prologue.Runs

/-! Where `malloc` of `prologue.c` places a request, and what the new block contains. -/

namespace MallocLab.Prologue

variable {base n p q size : Nat} {h h' : State} {s : Shelves} {a b c : Blk}

/-- The first fit for a request, or null. -/
def fit (h : State) (n : Nat) : Nat := ((findFit h (adjustedSize n)).map Prod.snd).getD null

/-- The number of bytes that the heap grows by when nothing fits. -/
def growth (n : Nat) : Nat := maxWord (adjustedSize n) chunksize

/-- Nothing fits, and there is no room to grow. -/
def Refused (h : State) (n : Nat) : Prop := fit h n = null ∧ h.memMaxAddr < h.memBrk + growth n

/-- The new block: the first fit, else the free block at the end of the heap, else the new space. -/
def target (h : State) (n : Nat) : Nat :=
  if fit h n ≠ null then fit h n
  else if getAlloc h (sub32 h.memBrk dsize) = 0 then prevBlkp h h.memBrk
  else h.memBrk

/-- What memory holds in the new block: only the growth of the heap leaves a header in it. -/
def stale (h : State) (n : Nat) : Mem :=
  if fit h n ≠ null then h.mem else storeWord h.mem (h.memBrk - 4) (growth n)

/-- The word two words below the payload `p` once the request has been placed. -/
def wordBelow (h : State) (p n : Nat) : Nat :=
  if fit h n = prevBlkp h p then
    -- The block before is the first fit, so its footer is that of what is left of it.
    let csize := getSize h (hdrp (fit h n))
    if csize - adjustedSize n ≥ minBlksize then csize - adjustedSize n else csize + 1
  else h.get (sub32 p dsize)

/-- The footer of a block as a word. -/
theorem footer_word (rep : Rep layout heads h s) (member : b ∈ layout.fixed h.memStartBrk ++ s.blocks) :
    h.get (b.addr + b.size - 8) = b.size + b.used.toNat :=
  ((rep.arena.tags b member).footer).resolve_right fun stray => nomatch stray.1

/-- Growing the heap writes a header over the epilogue and nothing else below the new footer. -/
theorem grown_below {m : Mem} {brk x : Nat} (lower : x + 8 < brk + size) :
    grown m brk size x = storeWord m (brk - 4) size x := by
  unfold grown stamp brand
  rw [storeWord_other (by omega), storeWord_other (by omega)]
  rfl

/-- `extend_heap` leaves the inner bytes of the block that it returns as they were, but for that header. -/
theorem extendHeap_inner (rep : Rep layout heads h s) (filed : s.Filed style) (whole : size % 8 = 0)
    (least : 24 ≤ size) (room : h.memBrk + size ≤ h.memMaxAddr) :
    ∃ h' q, extendHeap h (size / wsize) = some (h', q) ∧ ∀ x, q + 12 ≤ x → x + 8 < h.memBrk + size →
      h'.mem x = storeWord h.mem (h.memBrk - 4) size x := by
  have fits := rep.area.fits
  obtain ⟨grew, _⟩ := rep.grow heads_stable whole least room
  have low := (rep_tiles rep).le
  have brk := rep.brk
  -- The block that the extension adds.
  let b : Blk := { addr := s.brk, size := size, used := false }
  let g : State := { h with mem := grown h.mem h.memBrk size, memBrk := h.memBrk + size }
  have extended : extendHeap h (size / wsize) = coalesce g b.addr := by
    show Skeleton.extendHeap coalesce h (size / wsize) = coalesce g s.brk
    rw [Skeleton.extendHeap_eq whole (by omega) rep (by omega) room, ← brk]
  have header : ∀ x, x + 8 < h.memBrk + size → g.mem x = storeWord h.mem (h.memBrk - 4) size x :=
    fun x lower => grown_below lower
  rw [extended]
  rcases prev_cases Blk.used s.blocks with shut | ⟨front, a, split, free⟩
  · -- The last block is in use, so the new space is listed by itself.
    obtain ⟨front, a, last⟩ := layout.exists_prev h.memStartBrk s.blocks
    obtain ⟨h', done, _, _, inner⟩ := insertFreenode_rep grew (b := b) (by simp [b]) rfl rep.fresh
    refine ⟨h', b.addr, ?_, fun x above lower => ?_⟩
    · exact turns.alone (grew.seen last (show s.blocks ++ [b] = s.blocks ++ b :: [] from rfl)) (Layout.prev_used last shut) rfl done
    · rw [inner x above (by show x < s.brk + size; omega)]
      exact header x lower
  · -- The last block is free, so it is taken off its list and merged with the new space.
    have split' : s.blocks ++ [b] = front ++ a :: b :: [] := by simp [split]
    have member : a ∈ s.blocks ++ [b] := by simp [split]
    have listed : a.addr ∈ s.lists (getclass a.size) := filed a (by simp [split]) free _ rfl
    obtain ⟨left, right, cut⟩ := grew.threaded.cut listed
    obtain ⟨⟨word, next, prev⟩, real, nextWord⟩ := neighbours grew (getclass_lt a.size) cut
    obtain ⟨rep₁, _⟩ := unthread_rep grew member cut
    have removed := deleteFreenode_eq (h := g) next prev (by omega) nextWord real
    -- The two blocks lie next to each other, and they become one.
    have grown_ : s.blocks ++ [b] = (front ++ [a]) ++ b :: [] := by simp [split]
    have seen : Seen g a b (epilogue g.memBrk false) := grew.seen (List.append_assoc ..).symm grown_
    have seen₁ := rep₁.seen (List.append_assoc ..).symm grown_
    have wide : links.width + 8 ≤ a.size := Nat.le_trans (by decide) (grew.least member)
    have adjoin : b.addr = a.addr + a.size := seen.adjoin
    have covers : Tiles a.addr [a, b] (a.addr + (a.size + b.size)) :=
      ⟨rfl, seen.whole.1, seen.least.1, adjoin, seen.whole.2.1, seen.least.2, Nat.add_assoc _ _ _⟩
    have unlisted : ∀ k, b.addr ∉ s.lists k := rep.fresh
    have out : ∀ k, ∀ x ∈ [a, b], x.addr ∉ (s.drop a.addr).lists k := by
      intro k
      simp only [List.forall_mem_cons, List.not_mem_nil, false_imp_iff, implies_true, and_true]
      exact ⟨rep.not_mem_drop a.addr k, fun member => unlisted k (Shelves.mem_of_mem_drop member)⟩
    have region : s.blocks ++ [b] = front ++ [a, b] ++ [] := by simp [split]
    -- The joined block is filed, and its insides stay.
    obtain ⟨h', done, _, _, inner⟩ := keeper.refile rep₁ (m := { a with size := a.size + b.size }) region (by simp)
      covers free (rep.plain rfl a (by simp [split])) out
    refine ⟨h', a.addr, turns.prev seen free rfl wide removed seen₁ done inner, fun x above lower => ?_⟩
    -- Neither of the two blocks is a neighbour on the list.
    have apart : a.addr ∉ left ++ right ∧ b.addr ∉ left ++ right := by
      have distinct := cut.distinct
      rw [chain_eq] at distinct
      refine ⟨fun inside => ?_, fun inside => unlisted (getclass a.size) ?_⟩
      · have := distinct a.addr inside
        omega
      · have shape : s.lists (getclass a.size) = left ++ a.addr :: right := cut.split
        exact shape ▸ mem_around inside
    have aLeast := seen.least.1
    have aLow := seen.low
    have span : b.size = size := rfl
    have start : b.addr = h.memBrk := brk.symm
    rw [inner x above (by show x < a.addr + (a.size + b.size); omega)]
    show brand _ a.addr (a.size + b.size) _ _ x = _
    -- The tags of the joined block are outside, and so are the links of its neighbours.
    rw [brand_other (by omega) (by omega) (by omega), ← header x lower]
    by_cases low : x < b.addr
    · exact unthread_same grew (getclass_lt a.size) cut member apart.1 (by omega) (by omega)
    · exact unthread_same grew (getclass_lt a.size) cut (c := b) (by simp [b]) apart.2 (by omega)
        (by show x < b.addr + b.size; omega)

/-- `extend_heap` returns the free block at the end of the heap, or the new space. -/
theorem extend_start (rep : Rep layout heads h s) (size : Nat) : (s.extend style size).2 =
    if getAlloc h (sub32 h.memBrk dsize) = 0 then prevBlkp h h.memBrk else h.memBrk := by
  have brk := rep.brk
  obtain ⟨front, a, last⟩ := layout.exists_prev h.memStartBrk s.blocks
  -- The last block of the heap ends at the break.
  have arena := rep.arena
  have member : a ∈ layout.fixed h.memStartBrk ++ s.blocks := by simp [last]
  have stop : a.addr + a.size = h.memBrk := by
    have tiles := arena.tiles
    rw [last] at tiles
    exact tiles.cut.2.1
  have inside := arena.within member
  have lower := inside.lower
  have least := inside.least
  have high := arena.high
  -- The word at `mem_brk - 8` is its footer.
  have foot : sub32 h.memBrk dsize = a.addr + a.size - 8 := by
    rw [stop]
    exact sub32_eq (show 8 ≤ h.memBrk by omega) high
  have back : prevBlkp h h.memBrk = a.addr := by
    unfold prevBlkp
    rw [foot, arena.footSize member, sub32_eq (by omega) high]
    omega
  rw [foot, arena.footAlloc member, back]
  show (join Blk.used s.blocks { addr := s.brk, size := size, used := false } []).blk.addr = _
  -- The last block takes the new space over when it is free.
  rcases prev_cases Blk.used s.blocks with shut | ⟨rest, c, split, free⟩
  · rw [Layout.prev_used last shut, if_neg (by decide)]
    simp [join, joinPrev_closed shut, joinNext, brk]
  · -- That is the block whose footer has been read.
    have same : a = c := by
      have ends := congrArg List.getLast? last
      rw [split, ← List.append_assoc, List.getLast?_concat, List.getLast?_concat] at ends
      exact (Option.some.inj ends).symm
    subst same
    rw [if_pos (by rw [free]; rfl), split]
    simp [join, joinPrev_open free, joinNext]

/-- A block that is not carved keeps its place. -/
theorem mem_carve (member : a ∈ s.blocks) (other : a.addr ≠ p) : a ∈ (s.carve style p n).1.blocks := by
  unfold Shelves.carve
  cases located : locate s.blocks p with
  | none => exact member
  | some found =>
    obtain ⟨pre, b, post⟩ := found
    obtain ⟨split, here⟩ := locate_some located
    have stays : a ∈ pre ++ post := by
      have different : a ≠ b := by rintro rfl; exact other here
      exact (mem_middle.mp (split ▸ member)).resolve_left different
    simp only
    split_ifs <;> simp only [Shelves.file_blocks, List.mem_append, List.mem_cons] at stays ⊢ <;> tauto

/-- The footer at the end of a block, after a request has been carved out of that block or another one. -/
theorem carved_footer (rep : Rep layout heads h s) (rep' : Rep layout heads h' (s.carve style c.addr n).1)
    (start : h'.memStartBrk = h.memStartBrk) (block : c ∈ s.blocks) (large : n ≤ c.size)
    (member : a ∈ layout.fixed h.memStartBrk ++ s.blocks) : h'.get (a.addr + a.size - 8) =
      if c.addr = a.addr then if c.size - n ≥ minBlksize then c.size - n else c.size + 1
      else h.get (a.addr + a.size - 8) := by
  by_cases here : c.addr = a.addr
  · obtain rfl : c = a := rep.arena.tiles.addr_inj (List.mem_append_right _ block) member here
    obtain ⟨pre, post, _, located⟩ := Skeleton.Rep.locate rep block
    rw [if_pos rfl]
    by_cases room : c.size - n ≥ minBlksize
    · -- The rest of the block is free, and it ends where the block ended.
      have carved : (s.carve style c.addr n).1.blocks = pre ++ { c with size := n, used := true } ::
          { addr := c.addr + n, size := c.size - n, used := false } :: post := by
        have splits : style.splits (c.size - n) = true := decide_eq_true room
        have lowest : style.high n = false := rfl
        simp [Shelves.carve, located, splits, lowest]
      have rest := footer_word rep' (b := { addr := c.addr + n, size := c.size - n, used := false })
        (List.mem_append_right _ (by simp [carved]))
      rw [if_pos room, show c.addr + c.size - 8 = c.addr + n + (c.size - n) - 8 by omega]
      exact rest
    · -- The block is used as a whole, and its footer says so.
      have carved : (s.carve style c.addr n).1.blocks = pre ++ { c with used := true } :: post := by
        have whole : style.splits (c.size - n) = false := decide_eq_false room
        simp [Shelves.carve, located, whole]
      rw [if_neg room]
      exact footer_word rep' (b := { c with used := true }) (List.mem_append_right _ (by simp [carved]))
  · -- Any other block is still there, with the same footer.
    have stays : a ∈ layout.fixed h'.memStartBrk ++ (s.carve style c.addr n).1.blocks := by
      rw [start]
      rcases List.mem_append.mp member with fixed | block'
      · exact List.mem_append_left _ fixed
      · exact List.mem_append_right _ (mem_carve block' (Ne.symm here))
    rw [if_neg here, footer_word rep' stays, footer_word rep member]

/-- A block before another one is not the last, so it stays when the heap is extended. -/
theorem mem_extend (rep : Rep layout heads h s) (member : a ∈ layout.fixed h.memStartBrk ++ s.blocks)
    (block : b ∈ s.blocks) (adjoin : b.addr = a.addr + a.size) (size : Nat) :
    a ∈ layout.fixed h.memStartBrk ++ (s.extend style size).1.blocks ∧ (s.extend style size).2 ≠ a.addr := by
  -- The block before another one does not end at the break.
  have inside := (rep_tiles rep).within block
  have upper := inside.upper
  have least := inside.least
  have aLeast := (rep.arena.within member).least
  have brk := rep.brk
  show a ∈ layout.fixed h.memStartBrk ++ (join Blk.used s.blocks _ []).blocks ∧ (join Blk.used s.blocks _ []).blk.addr ≠ a.addr
  rcases prev_cases Blk.used s.blocks with shut | ⟨rest, c, split, free⟩
  · -- The new space stays alone, and all blocks stay.
    rw [join_alone shut (by simp)]
    refine ⟨?_, ?_⟩
    · simp only [Joined.blocks, List.mem_append] at member ⊢
      tauto
    · show s.brk ≠ a.addr
      omega
  · -- The block that is merged ends at the break, where no other block begins.
    have last : c ∈ layout.fixed h.memStartBrk ++ s.blocks := by simp [split]
    have stop : c.addr + c.size = h.memBrk := by
      have tiles := rep_tiles rep
      rw [split] at tiles
      exact tiles.cut.2.1
    have other : a ≠ c := by rintro rfl; omega
    have joined : join Blk.used s.blocks { addr := s.brk, size := size, used := false } [] =
        { pre := rest, blk := { c with size := c.size + size }, post := [], gone := [c.addr] } := by
      rw [split]
      simp [join, joinPrev_open free, joinNext]
    rw [joined]
    refine ⟨?_, fun same => other (rep.arena.tiles.addr_inj member last same.symm)⟩
    simp only [Joined.blocks, split, List.mem_append, List.mem_singleton] at member ⊢
    tauto

/-- What `malloc` does when it serves a request. -/
structure Placed (base : Nat) (h h' : State) (s s' : Shelves) (n : Nat) : Prop where
  returned : mmMalloc h n = some (h', target h n)
  real : target h n ≠ null
  stands : Stands base h' s'
  keeps : Keeps h h' s.blocks
  served : Served s.blocks s'.blocks (target h n) n
  inner : ∀ x, target h n + 12 ≤ x → x < target h n + n → h'.mem x = stale h n x
  below : ∀ b ∈ s.blocks, h'.get (b.addr - 8) = wordBelow h b.addr n

/-- The block before a block of the heap, and what is read of it. -/
theorem block_before (rep : Rep layout heads h s) (block : b ∈ s.blocks) :
    ∃ a ∈ layout.fixed h.memStartBrk ++ s.blocks, b.addr = a.addr + a.size ∧ prevBlkp h b.addr = a.addr ∧
      getSize h (hdrp a.addr) = a.size ∧ sub32 b.addr dsize = a.addr + a.size - 8 := by
  obtain ⟨pre, post, split⟩ := List.append_of_mem block
  obtain ⟨front, a, last⟩ := layout.exists_prev h.memStartBrk pre
  have seen := rep.seen last split
  have member : a ∈ layout.fixed h.memStartBrk ++ pre := by simp [last]
  have high := seen.top
  have onward := seen.onward
  have adjoin := seen.adjoin
  have low := seen.low
  -- It is one of the blocks before, and its footer is the word that is asked for.
  refine ⟨a, ?_, adjoin, seen.prev, seen.prevSize, ?_⟩
  · rw [split]
    simp only [List.mem_append] at member ⊢
    tauto
  · rw [← adjoin]
    exact sub32_eq (show 8 ≤ b.addr by omega) (by omega)

/-- `malloc` serves a request from the first fit. -/
theorem mmMalloc_found (stands : Stands base h s) (positive : 1 ≤ n) (small : n ≤ maxRequest)
    (found : pick s (adjustedSize n) = some q) :
    fit h n = q ∧ ¬ Refused h n ∧ ∃ h' s', Placed base h h' s s' n := by
  have rep := stands.rep
  obtain ⟨adjusted, least⟩ := adjustedSize_adjusted positive small
  have whole := adjusted.whole
  have room := adjusted.room
  have searched := findFit_result rep (adjustedSize n)
  rw [found] at searched
  -- The search that the condition describes is the one of the code.
  have first : fit h n = q := by
    unfold fit
    rw [searched]
    rfl
  obtain ⟨real, c, block, rfl, free, large⟩ := (parts base).picked stands adjusted found
  obtain ⟨h', done, rep', keeps, here, inner⟩ := place_result rep stands.filed block free large whole least
  obtain ⟨h'', returned, stands', _, _, served⟩ := (parts base).malloc_found stands positive small found
  have placed : Skeleton.placed place h c.addr (adjustedSize n) = some (h', c.addr) :=
    congrArg (Option.map fun h => (h, c.addr)) done
  -- The code places the request in the block that it has found.
  have computed : mmMalloc h n = some (h', c.addr) := by
    unfold mmMalloc
    rw [Skeleton.mmMalloc_eq]
    exact Skeleton.mallocOf_picked (by omega) searched real placed
  -- Both descriptions are about the same call.
  have same : mmMalloc h n = some (h'', (s.carve style c.addr (adjustedSize n)).2) := by
    unfold mmMalloc
    rw [Skeleton.mmMalloc_eq]
    exact returned
  obtain ⟨rfl, _⟩ := Prod.mk.inj (Option.some.inj (computed.symm.trans same))
  -- So the new block is where the condition says, in memory that nothing has changed.
  have place_ : target h n = c.addr := by
    unfold target
    rw [first, if_pos real]
  have old : stale h n = h.mem := by
    unfold stale
    rw [first, if_pos real]
  refine ⟨first, fun refused => real (first.symm.trans refused.1), h', _, ⟨place_ ▸ computed, place_ ▸ real, stands',
    keeps, ?_, ?_, fun b member => ?_⟩⟩
  · have served : Served s.blocks (s.carve style c.addr (adjustedSize n)).1.blocks
        (s.carve style c.addr (adjustedSize n)).2 (adjustedSize n - 8) := served
    rw [here] at served
    rw [place_]
    exact served.weaken (by omega)
  · -- Nothing but the tags and the links has been written into the new block.
    intro x lower upper
    rw [place_] at lower upper
    rw [old]
    exact inner x (by omega) (by omega)
  · -- The word below another block is the footer of the block before it.
    obtain ⟨a, before, adjoin, back, size, foot⟩ := block_before rep member
    have carved := carved_footer rep rep' keeps.start block large before
    rw [show b.addr - 8 = a.addr + a.size - 8 by omega, carved]
    unfold wordBelow
    rw [first, back, foot]
    by_cases here : c.addr = a.addr
    · obtain rfl : c = a := rep.arena.tiles.addr_inj (List.mem_append_right _ block) before here
      rw [if_pos rfl, if_pos rfl, size]
    · rw [if_neg here, if_neg here]

/-- `malloc` serves a request from new space when nothing fits. -/
theorem mmMalloc_grown (stands : Stands base h s) (positive : 1 ≤ n) (small : n ≤ maxRequest)
    (found : pick s (adjustedSize n) = none) (room : h.memBrk + growth n ≤ h.memMaxAddr) :
    ∃ h' s', Placed base h h' s s' n := by
  -- Nothing fits, and there is room to grow.
  have rep := stands.rep
  obtain ⟨adjusted, least⟩ := adjustedSize_adjusted positive small
  have whole := adjusted.whole
  have enough := adjusted.room
  have searched := findFit_result rep (adjustedSize n)
  rw [found] at searched
  have none_ : fit h n = null := by
    unfold fit
    rw [searched]
    rfl
  -- The extension is a multiple of eight with room for the request.
  obtain ⟨extWhole, extEnough, _, chunk⟩ := Skeleton.Parts.extension adjusted
  have grows : growth n = max (adjustedSize n) 4096 := chunk
  have limit := (parts base).limit stands
  have brk := rep.brk
  rw [grows] at room
  -- The extension, and what is left of it in the new block.
  obtain ⟨h₂, q, extended, innerE⟩ := extendHeap_inner rep stands.filed extWhole (by omega) room
  obtain ⟨h₂', extended', stands₂, keeps₂, real, ⟨c, block, here, free, large⟩, used⟩ :=
    (parts base).granted stands extWhole (Nat.le_max_right _ _) (show s.brk + _ ≤ _ by omega)
  obtain ⟨rfl, start⟩ := Prod.mk.inj (Option.some.inj (extended.symm.trans extended'))
  have start' : q = (s.extend style (max (adjustedSize n) 4096)).2 := start
  have here' : c.addr = q := here.trans start.symm
  subst here'
  have rep₂ := stands₂.rep
  obtain ⟨h', done, rep', keeps, carves, inner⟩ :=
    place_result rep₂ stands₂.filed block free (by omega) whole least
  have placed : Skeleton.placed place h₂ c.addr (adjustedSize n) = some (h', c.addr) :=
    congrArg (Option.map fun h => (h, c.addr)) done
  have grown : Skeleton.extended extendHeap h (maxWord (adjustedSize n) chunksize) = some (h₂, c.addr) := by
    rw [chunk]
    exact extended
  -- The code grows the heap and places the request in the new space.
  have computed : mmMalloc h n = some (h', c.addr) := by
    unfold mmMalloc
    rw [Skeleton.mmMalloc_eq]
    exact Skeleton.mallocOf_extended (by omega) searched grown (start ▸ real) placed
  -- The abstract step is the same one.
  obtain ⟨h'', _, s₁, q', merges, _, returned, stands', allKeeps, _, _, served⟩ :=
    (parts base).malloc_grown stands positive small found (show s.brk + max (adjustedSize n) 4096 ≤ _ by omega)
  obtain ⟨same₁, same₂⟩ := Prod.mk.inj merges
  have same₁ : (s.extend style (max (adjustedSize n) 4096)).1 = s₁ := same₁
  have same₂ : (s.extend style (max (adjustedSize n) 4096)).2 = q' := same₂
  subst same₁ same₂
  rw [← start'] at returned stands' served
  have same : mmMalloc h n = some (h'', ((s.extend style (max (adjustedSize n) 4096)).1.carve style c.addr (adjustedSize n)).2) := by
    unfold mmMalloc
    rw [Skeleton.mmMalloc_eq]
    exact returned
  obtain ⟨rfl, _⟩ := Prod.mk.inj (Option.some.inj (computed.symm.trans same))
  -- The new block lies inside the extended heap.
  have inside : c.addr + c.size ≤ h.memBrk + max (adjustedSize n) 4096 := by
    have upper := ((rep_tiles rep₂).within block).upper
    rw [rep₂.brk, brk] at *
    exact upper.trans (Nat.le_of_eq (Shelves.extend_brk _))
  -- It is where the condition says, behind the header that the growth has written.
  have place_ : target h n = c.addr := by
    unfold target
    rw [none_, if_neg (by decide), start', extend_start rep]
  have old : stale h n = storeWord h.mem (h.memBrk - 4) (growth n) := by
    unfold stale
    rw [none_, if_neg (by decide)]
  refine ⟨h', _, place_ ▸ computed, place_ ▸ start ▸ real, stands', allKeeps, ?_, ?_, fun b member => ?_⟩
  · have served : Served s.blocks ((s.extend style (max (adjustedSize n) 4096)).1.carve style c.addr (adjustedSize n)).1.blocks
        ((s.extend style (max (adjustedSize n) 4096)).1.carve style c.addr (adjustedSize n)).2 (adjustedSize n - 8) := served
    have carves : ((s.extend style (max (adjustedSize n) 4096)).1.carve style c.addr (adjustedSize n)).2 = c.addr := carves
    rw [carves] at served
    rw [place_]
    exact served.weaken (by omega)
  · -- Nothing else has been written into it.
    intro x lower upper
    rw [place_] at lower upper
    rw [old, inner x (by omega) (by omega), grows]
    exact innerE x (by omega) (by omega)
  · -- The word below another block is the footer of the block before it, which the growth leaves alone.
    obtain ⟨a, before, adjoin, back, size, foot⟩ := block_before rep member
    obtain ⟨stays, other⟩ := mem_extend rep before member adjoin (max (adjustedSize n) 4096)
    have carved := carved_footer rep₂ rep' keeps.start block (by omega) (by rw [keeps₂.start]; exact stays)
    have aReal : null ≠ a.addr := (rep.arena.real before).symm
    rw [show b.addr - 8 = a.addr + a.size - 8 by omega, carved]
    unfold wordBelow
    rw [none_, back, foot, if_neg aReal, if_neg (start' ▸ other)]
    rw [footer_word rep₂ (by rw [keeps₂.start]; exact stays), footer_word rep before]

end MallocLab.Prologue
