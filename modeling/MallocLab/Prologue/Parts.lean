import MallocLab.Prologue.Lists
import MallocLab.Skeleton.Shelved

/-! The functions of `prologue.c` do to the blocks and the shelves what an abstract allocator does. -/

namespace MallocLab.Prologue

variable {h h' : State} {s : Shelves} {a b c : Blk} {k p q n base : Nat}

/-- What `PREV_BLKP` reads is inside the merged block, where listing it changes nothing. -/
theorem prevBlkp_inner {span : Nat} (seen : Seen h a b c) (wide : links.width + 8 ≤ a.size)
    (span_ : a.size + b.size ≤ span) {g : State}
    (same : ∀ x, a.addr + links.width ≤ x → x < a.addr + span → h'.mem x = g.mem x) :
    prevBlkp h' b.addr = prevBlkp g b.addr := by
  have ⟨_, low, adjoin, onward, top, whole, least⟩ := seen
  have foot : sub32 b.addr 8 = b.addr - 8 := sub32_eq (by omega) (by omega)
  have read : loadWord h'.mem (b.addr - 8) = loadWord g.mem (b.addr - 8) :=
    loadWord_congr fun x lower upper => same x (by omega) (by omega)
  unfold prevBlkp getSize Heap.get dsize
  rw [foot, read]

/-- The turns of `coalesce` take the free neighbours off their lists, mark the merged block and list it. -/
theorem turns : Turns layout coalesce deleteFreenode (fun h bp _ => insertFreenode h bp)
    (fun h bp _ => insertFreenode h bp) where
  -- Neither neighbour is free, and the block is filed as it is.
  alone := by
    intro h h' a b c seen prevUsed nextUsed done
    unfold coalesce
    simp only [seen.prev, seen.prevAlloc, seen.next, seen.nextAlloc, seen.size, prevUsed, nextUsed]
    rw [if_pos (by decide)]
    exact bind_step done rfl
  -- The next block is free, and it is taken off its list first.
  next := by
    intro h h₁ h' a b c seen prevUsed nextFree removed seen₁ done
    have ⟨_, low, adjoin, onward, top, whole, least⟩ := seen₁
    have sum := seen₁.sum_next
    unfold coalesce
    simp only [seen.prev, seen.prevAlloc, seen.next, seen.nextAlloc, seen.size, seen.nextSize, prevUsed, nextFree]
    rw [if_neg (by decide), if_pos (by decide)]
    refine bind_step removed ?_
    simp only [sum]
    rw [put_tags (by omega) (by omega) (by omega) (by omega) (by omega)]
    exact bind_step done rfl
  -- The block before is free, so its header takes the sum of the sizes.
  prev := by
    intro h h₁ h' a b c seen prevFree nextUsed wide removed seen₁ done inner
    have sixteen : 16 ≤ a.size := Nat.le_trans (by decide) wide
    obtain ⟨sum, packed⟩ := seen₁.sum_prev
    obtain ⟨first, branded, second⟩ := seen₁.brandBack sixteen (a.size + b.size + 0) (a.size + b.size + 0)
    -- The new footer leads back to the new header.
    have back := (prevBlkp_inner seen₁ wide (Nat.le_refl _) inner).trans second
    unfold coalesce
    simp only [seen.prev, seen.prevAlloc, seen.next, seen.nextAlloc, seen.size, seen.prevSize, prevFree, nextUsed]
    rw [if_neg (by decide), if_neg (by decide), if_pos (by decide)]
    refine bind_step removed ?_
    simp only [sum, packed, first, branded, second]
    refine bind_step done ?_
    rw [back]
    rfl
  -- Both neighbours are free, and both are taken off their lists.
  both := by
    intro h h₁ h₂ h' a b c seen prevFree nextFree wide removed₁ seen₁ removed₂ seen₂ enough foot footSize
      foot₂ _ done inner
    have sixteen : 16 ≤ a.size := Nat.le_trans (by decide) wide
    obtain ⟨sum, packed⟩ := seen₂.sum_both
    obtain ⟨ahead, foot', branded, second⟩ := seen₂.brandAround sixteen enough foot₂
      (a.size + b.size + c.size + 0) (a.size + b.size + c.size + 0)
    have back := (prevBlkp_inner seen₂ wide (Nat.le_add_right _ _) inner).trans second
    unfold coalesce
    simp only [seen.prev, seen.prevAlloc, seen.next, seen.nextAlloc, seen.size, seen.prevSize, foot, footSize,
      prevFree, nextFree]
    rw [if_neg (by decide), if_neg (by decide), if_neg (by decide)]
    refine bind_step removed₁ ?_
    simp only [seen₁.next]
    refine bind_step removed₂ ?_
    simp only [seen₂.prev, sum, packed, ahead, foot', branded, second]
    refine bind_step done ?_
    rw [back]
    rfl

/-- A node other than a block lies outside the block, with room for its own links and tags. -/
theorem node_apart (rep : Rep layout heads h s) (member : b ∈ s.blocks) (node : layout.Node h.memStartBrk s.blocks q)
    (other : q ≠ b.addr) : q + 24 ≤ b.addr ∨ b.addr + b.size ≤ q := by
  rcases node with ⟨_, ends⟩ | ⟨d, block, rfl, _⟩
  · simp [layout] at ends
  · have least : 24 ≤ d.size := rep.least block
    rcases (rep_tiles rep).apart block member with rfl | apart
    · exact absurd rfl other
    · omega

/-- Marking a block and linking two nodes elsewhere may be exchanged. -/
theorem unthread_stamp {m : Mem} {prev next w : Nat} (above : 4 ≤ p) (least : 8 ≤ n)
    (before : prev + 8 ≤ p ∨ p + n ≤ prev) (after : next ≠ null → next + 16 ≤ p ∨ p + n ≤ next) :
    unthread (stamp m p n w) prev next = stamp (unthread m prev next) p n w := by
  unfold unthread stamp brand
  split
  next real =>
    have clear := after real
    rw [storeWord_comm (p := p + n - 8) (q := prev) (by omega), storeWord_comm (p := p - 4) (q := prev) (by omega),
      storeWord_comm (p := p + n - 8) (q := next + 8) (by omega),
      storeWord_comm (p := p - 4) (q := next + 8) (by omega)]
  next =>
    rw [storeWord_comm (p := p + n - 8) (q := prev) (by omega), storeWord_comm (p := p - 4) (q := prev) (by omega)]

/-- A node that is unlinked leaves the bytes of itself and of every block that is not its neighbour. -/
theorem unthread_same (rep : Rep layout heads h s) (below : k < numFreelist) {left right : List Nat}
    (cut : Cut layout h.mem h.memStartBrk s.blocks s.lists k p left right) (member : c ∈ s.blocks)
    (out : c.addr ∉ left ++ right) {x : Nat} (lower : c.addr ≤ x) (upper : x < c.addr + c.size) :
    unthread h.mem (left.getLastD (rootAddr h.memStartBrk k)) (right.headD null) x = h.mem x := by
  have above := ((rep_tiles rep).within member).lower
  have owned := cut.owned
  rw [chain_eq] at owned
  -- No node of the list lies in the block.
  have clear : ∀ q ∈ left ++ right, q + 24 ≤ c.addr ∨ c.addr + c.size ≤ q := fun q inside =>
    node_apart rep member (owned q inside) (by rintro rfl; exact out inside)
  -- Nor does the word that pointed to the block, be it a link or the root of the list.
  have before : x < left.getLastD (rootAddr h.memStartBrk k) ∨ left.getLastD (rootAddr h.memStartBrk k) + 4 ≤ x := by
    -- Only a first block is pointed to by the root.
    rcases List.eq_nil_or_concat left with rfl | ⟨front, d, rfl⟩
    · rw [List.getLastD_nil]
      unfold numFreelist at below
      unfold rootAddr
      omega
    · rw [List.concat_eq_append] at *
      rw [List.getLastD_concat]
      have := clear d (by simp)
      omega
  -- The link of the block behind is stored only when there is one.
  cases right with
  | nil => exact storeWord_other before
  | cons d right =>
    have after := clear d (by simp)
    rw [List.headD_cons, unthread_real (node_bounds rep (owned d (by simp))).2.2, storeWord_other (by omega),
      storeWord_other before]

/-- A block is taken off its list in the same way after its tags have been rewritten. -/
theorem deleteFreenode_marked (rep : Rep layout heads h s) (member : b ∈ s.blocks)
    (filed : b.addr ∈ s.lists (getclass b.size)) (least : 24 ≤ n) (large : n ≤ b.size) (w : Nat) :
    ∃ m, deleteFreenode { h with mem := stamp h.mem b.addr n w } b.addr =
        some { h with mem := stamp m b.addr n w } ∧
      Rep layout heads { h with mem := m } (s.drop b.addr) ∧ Keeps h { h with mem := m } s.blocks ∧
      ∀ x, b.addr ≤ x → x < b.addr + b.size → m x = h.mem x := by
  obtain ⟨left, right, cut⟩ := rep.threaded.cut filed
  obtain ⟨⟨word, next, prev⟩, real, nextWord⟩ := neighbours rep (getclass_lt b.size) cut
  -- The list closes over the gap.
  obtain ⟨rep', keeps⟩ := unthread_rep rep member cut
  have lower := ((rep_tiles rep).within member).lower
  have below := getclass_lt b.size
  have owned := cut.owned
  have distinct := cut.distinct
  rw [chain_eq] at owned distinct
  -- The other nodes of the list are other blocks.
  have other : ∀ q ∈ left ++ right, q ≠ b.addr := by
    intro q inside
    have := distinct q inside
    omega
  have clear : ∀ q ∈ left ++ right, q + 24 ≤ b.addr ∨ b.addr + b.size ≤ q :=
    fun q inside => node_apart rep member (owned q inside) (other q inside)
  -- The new tags are neither the links of the block nor those of its neighbours.
  have own : ∀ x, b.addr ≤ x → x < b.addr + 12 → stamp h.mem b.addr n w x = h.mem x :=
    fun x low high => brand_other (by omega) (by omega) (by omega)
  refine ⟨_, ?_, rep', keeps, fun x low high =>
    unthread_same rep below cut member (fun inside => other b.addr inside rfl) low high⟩
  -- The links of the block are read under the new tags.
  have next' : loadWord (stamp h.mem b.addr n w) b.addr = right.headD null := by
    rw [← next]
    exact loadWord_congr fun x low high => own x low (by omega)
  have prev' : loadWord (stamp h.mem b.addr n w) (b.addr + 8) =
      left.getLastD (rootAddr h.memStartBrk (getclass b.size)) := by
    rw [← prev]
    exact loadWord_congr fun x low high => own x (by omega) (by omega)
  rw [deleteFreenode_eq (h := { h with mem := stamp h.mem b.addr n w }) next' prev' (by omega) nextWord real]
  · -- The stores of the removal and the stores of the tags are apart.
    rw [unthread_stamp (by omega) (by omega)]
    · rcases List.eq_nil_or_concat left with rfl | ⟨front, d, rfl⟩
      · rw [List.getLastD_nil]
        unfold numFreelist at below
        unfold rootAddr
        omega
      · rw [List.concat_eq_append] at *
        rw [List.getLastD_concat]
        have := clear d (by simp)
        omega
    · intro real
      cases right with
      | nil => exact absurd rfl real
      | cons c right =>
        have := clear c (by simp)
        rw [List.headD_cons]
        omega

/--
`place` carves the request out, although it rewrites the tags of the block first.

It writes nothing into the payload that it hands out.
-/
theorem place_result (rep : Rep layout heads h s) (filed : s.Filed style) (member : b ∈ s.blocks)
    (free : b.used = false) (large : n ≤ b.size) (whole : n % 8 = 0) (least : 24 ≤ n) :
    ∃ h', place h b.addr n = some h' ∧ Rep layout heads h' (s.carve style b.addr n).1 ∧ Keeps h h' s.blocks ∧
      (s.carve style b.addr n).2 = b.addr ∧ ∀ x, b.addr ≤ x → x + 8 < b.addr + n → h'.mem x = h.mem x := by
  obtain ⟨pre, post, split, located⟩ := Skeleton.Rep.locate rep member
  have size : getSize h (hdrp b.addr) = b.size := rep.arena.size (List.mem_append_right _ member)
  have plain := rep.plain rfl b member
  have inside := (rep_tiles rep).within member
  have bWhole := inside.whole
  have lower := inside.lower
  have upper := inside.upper
  have high := rep.arena.high
  have unlisted : ∀ k, b.addr ∉ (s.drop b.addr).lists k := rep.not_mem_drop b.addr
  have remainder : sub32 b.size n = b.size - n := sub32_eq large (by omega)
  have onList : b.addr ∈ s.lists (getclass b.size) := filed b member free _ rfl
  -- The used blocks lie around the block that is handed out.
  have kept : ∀ x ∈ s.blocks, x.used = true → x ∈ pre ++ post := fun x block used =>
    mem_others_free free (split ▸ block) used
  unfold place Shelves.carve
  simp only [size, remainder, located, ge_iff_le, show minBlksize = 24 from rfl]
  -- The remainder is large enough to be a block of its own.
  by_cases room : 24 ≤ b.size - n
  · obtain ⟨m, removed, rep₁, keeps₁, own⟩ := deleteFreenode_marked rep member onList least large (n + 1)
    let taken : Blk := { b with size := n, used := true }
    let rest : Blk := { addr := b.addr + n, size := b.size - n, used := false }
    obtain ⟨rep₂, keeps₂⟩ := rep₁.divide heads_stable (c := taken) (d := rest) split rfl rfl
      (by show n + (b.size - n) = b.size; omega) whole least room unlisted
      (show Footer false taken (n + 1) from .inl rfl) (show Footer false rest (b.size - n + 0) from .inl rfl)
      fun _ => ⟨plain, rfl⟩
    have fresh : ∀ k, rest.addr ∉ (s.drop b.addr).lists k :=
      Skeleton.Rep.not_within rep₁ member (by show b.addr < b.addr + n; omega)
        (by show b.addr + n < _; omega)
    obtain ⟨h₃, done, rep₃, keeps₃, _⟩ := insertFreenode_rep rep₂ (b := rest) (by simp) rfl fresh
    have splits : style.splits (b.size - n) = true := decide_eq_true room
    refine ⟨h₃, ?_, ?_, (keeps₁.trans (keeps₂.narrow kept)).trans (keeps₃.narrow ?_), ?_, ?_⟩
    · -- The code takes the block off its list under the new header already.
      have word : taken.word = n + 1 := Blk.word_plain plain
      rw [word] at done
      rw [if_pos room, put_tags (by omega) (by omega) whole (by omega) (by omega)]
      refine bind_step removed ?_
      rw [brand_next (h := { h with mem := m }) (by omega) (by omega) whole (by omega) (by omega),
        put_tags (by omega) (by omega) (by omega) (by omega) (by omega)]
      exact done
    · -- The abstract block is split in the same place.
      rw [if_pos splits]
      exact rep₃
    · -- A used block is none of the two parts.
      exact fun x block used => mem_around (mem_around (kept x block used))
    · rw [if_pos splits]
      rfl
    · -- The bytes of the payload are between the tags, and neither list is among them.
      intro x low high
      have taken_ : taken ∈ pre ++ taken :: rest :: post := by simp
      rw [keeps₃.bytes taken taken_ rfl x ⟨low, high⟩]
      show brand (brand m b.addr n taken.word (n + 1)) (b.addr + n) (b.size - n) rest.word (b.size - n + 0) x = h.mem x
      rw [brand_other (by omega) (by omega) (by omega), brand_other (by omega) (by omega) (by omega),
        own x low (by omega)]
  · -- Too little is left over, so the whole block is handed out.
    obtain ⟨m, removed, rep₁, keeps₁, own⟩ :=
      deleteFreenode_marked rep member onList (by omega) (Nat.le_refl b.size) (b.size + 1)
    let taken : Blk := { b with used := true }
    have word : taken.word = b.size + 1 := Blk.word_plain plain
    have region : s.blocks = pre ++ [b] ++ post := by simp [split]
    obtain ⟨rep₂, keeps₂⟩ := rep₁.rebrand heads_stable (b := taken) region (by simp)
      ⟨rfl, bWhole, inside.least, rfl⟩
      (by
        intro k x here
        obtain rfl := List.mem_singleton.mp here
        exact unlisted k)
      (show Footer false taken (b.size + 1) from .inl rfl) fun _ => plain
    rw [word] at rep₂ keeps₂
    -- The abstract block is not split either.
    have whole_ : ¬ style.splits (b.size - n) = true := fun splits => room (of_decide_eq_true splits)
    refine ⟨_, ?_, ?_, keeps₁.trans (keeps₂.narrow kept), ?_, ?_⟩
    · rw [if_neg room, put_tags (by omega) (by omega) bWhole inside.least (by omega)]
      exact removed
    · rw [if_neg whole_]
      exact rep₂
    · rw [if_neg whole_]
    · -- The payload keeps its bytes.
      intro x low high
      have inner : stamp m b.addr b.size (b.size + 1) x = m x := brand_other (by omega) (by omega) (by omega)
      exact inner.trans (own x low (by omega))

/-- `place` carves requests as the abstract allocator does. -/
theorem places : Skeleton.Places layout heads place := by
  intro h s b n rep filed _ member free large whole least
  obtain ⟨h', done, rep', keeps, here, _⟩ := place_result rep filed member free large whole least
  exact ⟨h', done, rep', keeps, here⟩

/-- The parts of `prologue.c` keep the lists of its classes. -/
theorem scheme : Skeleton.Scheme layout heads coalesce deleteFreenode place (fun h bp _ => insertFreenode h bp)
    (fun h bp _ => insertFreenode h bp) where
  keeper := keeper
  single := keeper
  turns := turns
  places := places
  tight := rfl
  small := by decide
  closed := rfl

/-- The first block that is large enough on the shelves from `i` on, with this many shelves left to go. -/
def pickFrom (s : Shelves) (a : Nat) : Nat → Nat → Option Nat
  | 0, _ => none
  | remaining + 1, i =>
    match (s.lists i).find? (s.fits a) with
    | some p => some p
    | none => pickFrom s a remaining (i + 1)

/-- The first block that is large enough on the shelves from the class of the size on. -/
def pick (s : Shelves) (a : Nat) : Option Nat := pickFrom s a (numFreelist - getclass a) (getclass a)

/-- The abstract allocator that `prologue.c` refines. -/
def policy : Skeleton.Policy Shelves := Skeleton.shelved style adjustedSize pick

/-- A root is in use, and it leads to the first block of its list. -/
theorem root_reads (rep : Rep layout heads h s) (below : k < numFreelist) :
    getroot h k ≠ null ∧ getAlloc h (hdrp (getroot h k)) = 1 ∧
      h.get (nextp (getroot h k)) = (s.lists k).headD null := by
  have member : root h.memStartBrk k ∈ layout.fixed h.memStartBrk ++ s.blocks :=
    List.mem_append_left _ (List.mem_map_of_mem (List.mem_range.mpr below))
  have alloc := rep.arena.alloc member
  rw [getroot_eq rep below]
  refine ⟨?_, alloc, rep.heads.2 k below⟩
  unfold rootAddr null
  omega

/-- A list and its root are short enough for every loop along them. -/
theorem list_short (rep : Rep layout heads h s) (k : Nat) : (s.lists k).length < pointerTurns - 1 := by
  have count := (rep_tiles rep).count
  have high := rep.arena.high
  have inside : s.lists k ⊆ s.blocks.map Blk.addr := by
    intro p member
    obtain ⟨b, block, here, _⟩ := rep.threaded.listed k p member
    exact List.mem_map.mpr ⟨b, block, here⟩
  have size := (List.subperm_of_subset (rep.threaded.nodup k) inside).length_le
  rw [List.length_map] at size
  unfold pointerTurns
  omega

/-- `NEXTP` leads from a listed block to the next one, or to null. -/
theorem list_next (rep : Rep layout heads h s) {before after : List Nat} (split : s.lists k = before ++ p :: after) :
    h.get (nextp p) = after.headD null := by
  have linked := rep.threaded.linked k
  rw [chain_eq, split] at linked
  exact linked.links.2

/-- The search of one list finds its first block that is large enough. -/
theorem findList_result (rep : Rep layout heads h s) (below : k < numFreelist) (a : Nat) :
    loop (findStep h a) pointerTurns (getroot h k) = some (((s.lists k).find? (s.fits a)).getD null) := by
  obtain ⟨real, used, first⟩ := root_reads rep below
  -- The root is passed over, and then the list is searched.
  have passed : findStep h a (getroot h k) = .inl ((s.lists k).headD null) := by
    unfold findStep
    rw [if_pos real, if_neg (by simp [used]), first]
  rw [loop_again passed (by decide), List.find?_eq_findSome?_guard]
  refine loop_walk (fun rest => rest.headD null) (list_short rep k) ?_ (by simp [findStep])
  -- A block of the list is either large enough, which ends the search, or is passed.
  intro before p after split
  obtain ⟨b, block, rfl, free, _⟩ := rep.threaded.listed k p (by simp [split])
  have bounds := node_bounds rep (.inr ⟨b, block, rfl, free⟩)
  have forth := list_next rep split
  have member : b ∈ layout.fixed h.memStartBrk ++ s.blocks := List.mem_append_right _ block
  have size : getSize h (hdrp b.addr) = b.size := rep.arena.size member
  have alloc : getAlloc h (hdrp b.addr) = 0 := (rep.arena.alloc_free member).mpr free
  obtain ⟨_, _, _, located⟩ := Skeleton.Rep.locate rep block
  unfold findStep
  rw [List.headD_cons, if_pos bounds.2.2, size, alloc, forth]
  by_cases large : a ≤ b.size
  · rw [if_pos ⟨by decide, large⟩]
    simp [Option.guard, Shelves.fits_eq located, large]
  · rw [if_neg fun both => large both.2]
    simp [Option.guard, Shelves.fits_eq located, large]

/-- `find_fit` returns the first block that is large enough on the shelves, else null. -/
theorem findFit_result (rep : Rep layout heads h s) (a : Nat) :
    findFit h a = some (h, (pick s a).getD null) := by
  -- The induction is on the number of lists that are left.
  have from_ : ∀ remaining i, i + remaining = numFreelist →
      findFrom h a remaining i = some ((pickFrom s a remaining i).getD null) := by
    intro remaining
    induction remaining with
    | zero => intro i _; rfl
    | succ remaining ih =>
      intro i total
      unfold findFrom pickFrom
      refine bind_step (findList_result rep (by omega) a) ?_
      cases found : (s.lists i).find? (s.fits a) with
      -- This list has none, so the next one is searched.
      | none => exact (if_neg (by simp)).trans (ih (i + 1) (by omega))
      | some p =>
        -- A payload that is found is not null, which is what the loop looks at.
        obtain ⟨b, block, rfl, free, _⟩ := rep.threaded.listed i p (List.mem_of_find?_eq_some found)
        exact if_pos (node_bounds rep (.inr ⟨b, block, rfl, free⟩)).2.2
  have below := getclass_lt a
  exact congrArg (Option.map fun bp => (h, bp)) (from_ _ _ (by omega))

/-- What the search finds is listed and large enough. -/
theorem pickFrom_some {remaining i : Nat} (found : pickFrom s n remaining i = some p) :
    ∃ k, p ∈ s.lists k ∧ s.fits n p = true := by
  induction remaining generalizing i with
  | zero => exact nomatch found
  | succ remaining ih =>
    unfold pickFrom at found
    split at found
    next q here =>
      obtain rfl := Option.some.inj found
      exact ⟨i, List.mem_of_find?_eq_some here, List.find?_some here⟩
    next => exact ih found

/-- The block size for a request is a multiple of eight with room for the tags and the links. -/
theorem adjustedSize_adjusted (positive : 1 ≤ n) (small : n ≤ maxRequest) :
    Skeleton.Adjusted n (adjustedSize n) ∧ 24 ≤ adjustedSize n := by
  obtain ⟨whole, least, room, word⟩ := (Skeleton.adjustedSize_adjusted positive small).2
  have larger : adjustedSize n = max (Skeleton.adjustedSize n) 24 := maxWord_eq _ _
  refine ⟨⟨?_, ?_, ?_, ?_⟩, ?_⟩ <;> omega

/-- The functions of `prologue.c` are the parts of its abstract allocator, apart from the check for null. -/
theorem unguarded (base : Nat) : Skeleton.Parts policy base (Skeleton.Stands layout heads base) adjustedSize findFit
    (Skeleton.placed place) (Skeleton.extended extendHeap) (Skeleton.mmFree coalesce) := by
  have sizes : ∀ {n a : Nat}, Skeleton.Adjusted n a → adjustedSize n = a → 24 ≤ a := by
    rintro n a _ rfl
    unfold adjustedSize
    rw [maxWord_eq]
    exact Nat.le_max_right _ _
  refine scheme.parts (fun positive small => ⟨rfl, (adjustedSize_adjusted positive small).1⟩) sizes
    (fun stands _ => findFit_result stands.rep _) ?_
  intro h s n a p stands _ found
  obtain ⟨k, member, large⟩ := pickFrom_some found
  obtain ⟨b, block, rfl, free, _⟩ := stands.rep.threaded.listed k p member
  obtain ⟨pre, post, _, located⟩ := Skeleton.Rep.locate stands.rep block
  rw [Shelves.fits_eq located, decide_eq_true_eq] at large
  exact ⟨b, block, rfl, free, large⟩

/-- The functions of `prologue.c` are the parts of its abstract allocator. -/
theorem parts (base : Nat) : Skeleton.Parts policy base (Skeleton.Stands layout heads base) adjustedSize findFit
    (Skeleton.placed place) (Skeleton.extended extendHeap) mmFree where
  adjusted := (unguarded base).adjusted
  limit := (unguarded base).limit
  brk := (unguarded base).brk
  tiles := (unguarded base).tiles
  written := (unguarded base).written
  find := (unguarded base).find
  picked := (unguarded base).picked
  place := (unguarded base).place
  granted := (unguarded base).granted
  refused := (unguarded base).refused
  free := by
    intro h s p size stands occupied
    obtain ⟨h', done, rest⟩ := (unguarded base).free stands occupied
    exact ⟨h', (if_neg ((unguarded base).occupied_real stands occupied)).trans done, rest⟩

end MallocLab.Prologue
