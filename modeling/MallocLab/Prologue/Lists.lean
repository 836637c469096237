import MallocLab.Prologue.Mm
import MallocLab.Skeleton.Coalesce

/-! The free lists of `prologue.c` in memory, and what the list operations do to them. -/

namespace MallocLab.Prologue

/-- The class that the loop returns is one of the classes. -/
theorem getclassFrom_lt {block remaining i : Nat} (total : remaining + i = numFreelist - 1) :
    getclassFrom block remaining i < numFreelist := by
  induction remaining generalizing i with
  | zero => exact show numFreelist - 1 < numFreelist by decide
  | succ remaining ih =>
    unfold getclassFrom
    split
    · unfold numFreelist at *
      omega
    · exact ih (by omega)

/-- Every size has a class. -/
theorem getclass_lt (size : Nat) : getclass size < numFreelist := getclassFrom_lt (by decide)

/-- One shelf for every class; a leftover of twenty-four bytes is a block. -/
def style : Style where
  cls := fun size => some (getclass size)
  closed := Blk.used
  splits := fun left => 24 ≤ left
  high := fun _ => false

/-- `NEXTP` is the first payload word of a block and `PREVP` the third. -/
def links : Offsets where
  next := 0
  prev := 8
  width := 12
  nextFits := by decide
  prevFits := by decide
  apart := by decide

/-- The address of the root of a class, in an area that starts at `base`. -/
def rootAddr (base k : Nat) : Nat := base + 8 + 16 * k

/-- The root of a class, a block that is never free. -/
def root (base k : Nat) : Blk := { addr := rootAddr base k, size := 16, used := true }

/-- The lists start at the roots and end in null. -/
def layout : Layout where
  links := links
  loose := false
  least := 24
  style := style
  fixed := fun base => (List.range numFreelist).map (root base)
  before := rootAddr
  sentinel := fun _ _ => none
  room := by decide
  solid := by simp [numFreelist]
  guarded := by simp [root]
  pinned := by simp
  single := single_bare

/-- The first word of every root points to the first block of its list. -/
def heads (h : State) (lists : Nat → List Nat) : Prop :=
  h.statics.heapListp = h.memStartBrk + 8 ∧
    ∀ k < numFreelist, h.get (rootAddr h.memStartBrk k) = (lists k).headD null

variable {h : State} {s : Shelves} {b : Blk} {k p q prev next base : Nat} {m : Mem} {left right : List Nat}

/-- The lists are ended by null. -/
theorem chain_eq (base k : Nat) (nodes : List Nat) : layout.chain base k nodes = nodes := List.append_nil nodes

/-- The first words of the roots are the anchors of the lists. -/
theorem anchor_root {x : Nat} (below : k < numFreelist) (lower : rootAddr base k ≤ x)
    (upper : x < rootAddr base k + 8) : layout.Anchor base x := by
  refine ⟨root base k, List.mem_map_of_mem (List.mem_range.mpr below), ⟨lower, ?_⟩, by simp [layout]⟩
  show x + 8 < rootAddr base k + 16
  omega

/-- The roots lie in front of the blocks, so no store into a block changes them. -/
theorem heads_stable : Stable layout heads := by
  intro h h' lists statics start same found
  refine ⟨by rw [statics, start]; exact found.1, fun k below => ?_⟩
  rw [start, ← found.2 k below]
  exact loadWord_congr fun x lower upper => same x (anchor_root below lower (by omega))

/-- The roots cover the space in front of the heap proper. -/
theorem roots_tile (base : Nat) : Tiles (base + 8) (layout.fixed base) (base + 168) := by
  simp [layout, numFreelist, List.range_succ, root, rootAddr]

/-- The blocks of the heap proper lie above the roots. -/
theorem rep_tiles (rep : Rep layout heads h s) : Tiles (h.memStartBrk + 168) s.blocks h.memBrk := by
  obtain ⟨lo, _, _, fixed, tiles⟩ := rep.tiles
  obtain rfl := (roots_tile h.memStartBrk).unique fixed
  exact tiles

/-- A node lies above the roots, and its links below the top of the address space. -/
theorem node_bounds (rep : Rep layout heads h s) (node : layout.Node h.memStartBrk s.blocks p) :
    h.memStartBrk + 168 ≤ p ∧ p + 12 < 2 ^ 32 ∧ p ≠ null := by
  obtain ⟨real, word⟩ := rep.threaded.word node
  rcases node with ⟨_, ends⟩ | ⟨b, member, rfl, _⟩
  · simp [layout] at ends
  · exact ⟨((rep_tiles rep).within member).lower, word, real⟩

/-- The roots lie below the top of the address space, and apart. -/
theorem getroot_eq (rep : Rep layout heads h s) (below : k < numFreelist) :
    getroot h k = rootAddr h.memStartBrk k := by
  have rise := (rep_tiles rep).le
  have high := rep.arena.high
  unfold numFreelist at below
  unfold getroot dsize rootAddr
  rw [show h.statics.heapListp = _ from rep.heads.1, add32_eq (by omega)]
  omega

/-- The memory after the nodes around a gap are linked to each other. -/
def unthread (m : Mem) (prev next : Nat) : Mem :=
  let m := storeWord m prev next
  if next ≠ null then storeWord m (next + 8) prev else m

/-- Unlinking a block that has a successor takes two stores. -/
theorem unthread_real (real : next ≠ null) :
    unthread m prev next = storeWord (storeWord m prev next) (next + 8) prev := if_pos real

/-- Deleting a block links its neighbours to each other, whatever else memory holds. -/
theorem deleteFreenode_eq (nextIs : h.get p = next) (prevIs : h.get (p + 8) = prev) (word : p + 8 < 2 ^ 32)
    (nextWord : next + 8 < 2 ^ 32) (real : prev ≠ null) :
    deleteFreenode h p = some { h with mem := unthread h.mem prev next } := by
  have prevEntry : prevp p = p + 8 := add32_eq word
  have nextEntry : prevp next = next + 8 := add32_eq nextWord
  unfold deleteFreenode unthread
  simp only [nextp, prevEntry, nextIs, prevIs, Heap.putChecked, if_neg real, nextEntry, Option.bind_eq_bind,
    Option.bind_some, Option.pure_def]
  split <;> rfl

/-- A word that is neither of the two links is read as before. -/
theorem loadWord_unthread (apart : p + 4 ≤ prev ∨ prev + 4 ≤ p)
    (apart' : next ≠ null → p + 4 ≤ next + 8 ∨ next + 12 ≤ p) :
    loadWord (unthread m prev next) p = loadWord m p := by
  unfold unthread
  split
  next real =>
    have := apart' real
    rw [loadWord_storeWord_other (by omega), loadWord_storeWord_other apart]
  next => rw [loadWord_storeWord_other apart]

/-- What a listed block's neighbours are, and where they lie. -/
theorem neighbours (rep : Rep layout heads h s) (below : k < numFreelist)
    (cut : Cut layout h.mem h.memStartBrk s.blocks s.lists k p left right) :
    (p + 12 < 2 ^ 32 ∧ h.get p = right.headD null ∧
      h.get (p + 8) = left.getLastD (rootAddr h.memStartBrk k)) ∧
      (left.getLastD (rootAddr h.memStartBrk k) ≠ null ∧ right.headD null + 8 < 2 ^ 32) := by
  have rise := (rep_tiles rep).le
  have high := rep.arena.high
  have bounds := node_bounds rep cut.self
  refine ⟨⟨bounds.2.1, ?_, cut.prev⟩, ?_, ?_⟩
  · -- The link to the block behind.
    have next := cut.next
    rw [chain_eq] at next
    exact next
  · rcases List.eq_nil_or_concat left with rfl | ⟨front, d, rfl⟩
    · -- The first block of a list has the root before it.
      unfold numFreelist at below
      rw [List.getLastD_nil]
      unfold rootAddr null
      omega
    · -- A later block has another block before it.
      rw [List.concat_eq_append] at *
      rw [List.getLastD_concat]
      exact (node_bounds rep (cut.owned d (by simp))).2.2
  · -- The link of the block behind is a word as well.
    cases right with
    | nil => decide
    | cons c right =>
      have := node_bounds rep (cut.owned c (by simp [chain_eq]))
      rw [List.headD_cons]
      omega

/-- Linking the neighbours of a listed block to each other takes it off its shelf. -/
theorem unthread_rep (rep : Rep layout heads h s) (member : b ∈ s.blocks)
    (cut : Cut layout h.mem h.memStartBrk s.blocks s.lists (getclass b.size) b.addr left right) :
    Rep layout heads
        { h with mem := unthread h.mem (left.getLastD (rootAddr h.memStartBrk (getclass b.size))) (right.headD null) }
        (s.drop b.addr) ∧
      Keeps h
        { h with mem := unthread h.mem (left.getLastD (rootAddr h.memStartBrk (getclass b.size))) (right.headD null) }
        s.blocks := by
  have below := getclass_lt b.size
  have rise := (rep_tiles rep).le
  have high := rep.arena.high
  have owned := cut.owned
  rw [chain_eq] at owned
  have word : rootAddr h.memStartBrk (getclass b.size) < 2 ^ 32 := by
    unfold numFreelist at below
    unfold rootAddr
    omega
  -- The node after the gap lies above the roots, so its link is none of their words.
  have after : ∀ j < numFreelist, right.headD null ≠ null →
      rootAddr h.memStartBrk j + 4 ≤ right.headD null + 8 ∨ right.headD null + 12 ≤ rootAddr h.memStartBrk j := by
    intro j inside real
    unfold numFreelist at inside
    cases right with
    | nil => exact absurd rfl real
    | cons c right =>
      have := node_bounds rep (owned c (by simp))
      unfold rootAddr
      rw [List.headD_cons]
      omega
  -- The words that are stored are links, roots or the words of the block itself.
  refine rep.unlink (k := getclass b.size) (g := h.statics) member rfl cut word ?_ ⟨rep.heads.1, fun j inside => ?_⟩
  · intro x outside
    rw [chain_eq]
    rcases List.eq_nil_or_concat left with rfl | ⟨front, d, rfl⟩
    · -- The root is an anchor, so only the link back from the next node is left to compare.
      have off : x < rootAddr h.memStartBrk (getclass b.size) ∨ rootAddr h.memStartBrk (getclass b.size) + 4 ≤ x := by
        by_contra inside
        exact outside (anchor_root below (by omega) (by omega))
      cases right with
      | nil =>
        show storeWord h.mem _ _ x = h.mem x
        exact storeWord_other off
      | cons c right =>
        have real := (node_bounds rep (owned c (by simp))).2.2
        have apart := after _ below real
        rw [List.headD_cons] at apart ⊢
        rw [List.getLastD_nil, unthread_real real, storeWord_comm (by omega), storeWord_other off]
        rfl
    · -- Both stores are links of nodes.
      rw [List.concat_eq_append] at *
      rw [List.getLastD_concat, List.getLast?_concat]
      cases right with
      | nil => rfl
      | cons c right =>
        have real := (node_bounds rep (owned c (by simp))).2.2
        rw [List.headD_cons, unthread_real real]
        rfl
  · have found := rep.heads.2 j inside
    show loadWord (unthread h.mem _ _) (rootAddr h.memStartBrk j) = ((s.lists j).erase b.addr).headD null
    -- Only the root of an emptied front changes.
    rcases List.eq_nil_or_concat left with rfl | ⟨front, d, rfl⟩
    · rw [List.getLastD_nil]
      by_cases here : j = getclass b.size
      · subst here
        rw [cut.erase, List.nil_append]
        cases right with
        | nil => exact loadWord_storeWord (by decide)
        | cons c right =>
          have bounds := node_bounds rep (owned c (by simp))
          have apart := after _ below bounds.2.2
          rw [List.headD_cons] at apart ⊢
          rw [unthread_real bounds.2.2, loadWord_storeWord_other (by omega), loadWord_storeWord (by omega)]
      · -- The other roots are not touched.
        rw [List.erase_of_not_mem (rep.not_listed member rfl here), ← found]
        refine loadWord_unthread ?_ (after j inside)
        unfold rootAddr
        omega
    · -- The block was not the first one, so all roots stay.
      rw [List.concat_eq_append] at *
      have bounds := node_bounds rep (owned d (by simp))
      have front_ : ((s.lists j).erase b.addr).headD null = (s.lists j).headD null := by
        by_cases here : j = getclass b.size
        · subst here
          rw [cut.erase, cut.split]
          cases front <;> rfl
        · rw [List.erase_of_not_mem (rep.not_listed member rfl here)]
      rw [front_, ← found, List.getLastD_concat]
      refine loadWord_unthread ?_ (after j inside)
      unfold numFreelist at inside
      unfold rootAddr
      omega

/-- `deleteFreenode` takes a filed block off its shelf. -/
theorem deleteFreenode_rep (rep : Rep layout heads h s) (member : b ∈ s.blocks)
    (filed : b.addr ∈ s.lists (getclass b.size)) :
    ∃ h', deleteFreenode h b.addr = some h' ∧ Rep layout heads h' (s.drop b.addr) ∧ Keeps h h' s.blocks := by
  obtain ⟨left, right, cut⟩ := rep.threaded.cut filed
  obtain ⟨⟨word, next, prev⟩, real, nextWord⟩ := neighbours rep (getclass_lt b.size) cut
  obtain ⟨rep', keeps⟩ := unthread_rep rep member cut
  exact ⟨_, deleteFreenode_eq next prev (by omega) nextWord real, rep', keeps⟩

/-- The memory after a block is linked in between a root and the first block of its list. -/
def threadFront (m : Mem) (bp root next : Nat) : Mem :=
  let m := storeWord (storeWord (storeWord m bp next) (bp + 8) root) root bp
  if next ≠ null then storeWord m (next + 8) bp else m

/-- Linking in a block before another one takes four stores. -/
theorem threadFront_real {bp root : Nat} (real : next ≠ null) :
    threadFront m bp root next =
      storeWord (storeWord (storeWord (storeWord m bp next) (bp + 8) root) root bp) (next + 8) bp := if_pos real

/-- Inserting a block links it in between the root of its class and the first block of the list. -/
theorem insertFreenode_result (rep : Rep layout heads h s) (member : b ∈ s.blocks) (free : b.used = false) :
    insertFreenode h b.addr = some { h with
      mem := threadFront h.mem b.addr (rootAddr h.memStartBrk (getclass b.size))
        ((s.lists (getclass b.size)).headD null) } := by
  have size : getSize h (hdrp b.addr) = b.size := rep.arena.size (List.mem_append_right _ member)
  have here := getroot_eq rep (getclass_lt b.size)
  have found := rep.heads.2 _ (getclass_lt b.size)
  have bounds := node_bounds rep (.inr ⟨b, member, rfl, free⟩)
  have prevEntry : prevp b.addr = b.addr + 8 := add32_eq (by unfold dsize; omega)
  unfold insertFreenode
  simp only [size, here, nextp, found, prevEntry]
  cases listed : s.lists (getclass b.size) with
  -- The list was empty, so there is no link back to store.
  | nil => rfl
  -- The old first block gets a link back to the new one.
  | cons c rest =>
    have next := node_bounds rep (rep.threaded.node (k := getclass b.size) (p := c) (by simp [chain_eq, listed]))
    have nextEntry : prevp c = c + 8 := add32_eq (by unfold dsize; omega)
    rw [List.headD_cons, if_pos next.2.2, nextEntry, threadFront_real next.2.2]
    rfl

/-- `insertFreenode` puts an unlisted free block on its shelf. -/
theorem insertFreenode_rep (rep : Rep layout heads h s) (member : b ∈ s.blocks) (free : b.used = false)
    (fresh : ∀ k, b.addr ∉ s.lists k) :
    ∃ h', insertFreenode h b.addr = some h' ∧ Rep layout heads h' (s.file style b) ∧ Keeps h h' s.blocks ∧
      ∀ x, b.addr + 12 ≤ x → x < b.addr + b.size → h'.mem x = h.mem x := by
  have below := getclass_lt b.size
  have rise := (rep_tiles rep).le
  have high := rep.arena.high
  have self : layout.Node h.memStartBrk s.blocks b.addr := .inr ⟨b, member, rfl, free⟩
  have bounds := node_bounds rep self
  -- All roots lie in the prologue.
  have roots : ∀ j < numFreelist, rootAddr h.memStartBrk j + 16 ≤ h.memStartBrk + 168 := by
    intro j inside
    unfold numFreelist at inside
    unfold rootAddr
    omega
  have rootEnd := roots _ below
  -- The old first block, if there is one, is a node elsewhere.
  have first : ∀ c ∈ (s.lists (getclass b.size)).head?, h.memStartBrk + 168 ≤ c ∧ c + 12 < 2 ^ 32 ∧ c ≠ null ∧
      (b.addr + 12 ≤ c ∨ c + 12 ≤ b.addr) := by
    intro c here
    have inside := List.mem_of_mem_head? here
    have node := rep.threaded.node (k := getclass b.size) (p := c) (by rw [chain_eq]; exact inside)
    have apart := rep.threaded.apart self node (by rintro rfl; exact fresh _ inside)
    have width : layout.links.width = 12 := rfl
    obtain ⟨low, word, real⟩ := node_bounds rep node
    exact ⟨low, word, real, by omega⟩
  let m := threadFront h.mem b.addr (rootAddr h.memStartBrk (getclass b.size))
    ((s.lists (getclass b.size)).headD null)
  -- A word that is not the link back from the old first block is read as if that link were not stored.
  have read : ∀ p, (∀ c ∈ (s.lists (getclass b.size)).head?, p + 4 ≤ c + 8 ∨ c + 12 ≤ p) → loadWord m p =
      loadWord (storeWord (storeWord (storeWord h.mem b.addr ((s.lists (getclass b.size)).headD null))
        (b.addr + 8) (rootAddr h.memStartBrk (getclass b.size)))
        (rootAddr h.memStartBrk (getclass b.size)) b.addr) p := by
    intro p away
    show loadWord (threadFront _ _ _ _) p = _
    cases listed : s.lists (getclass b.size) with
    | nil => rfl
    | cons c rest =>
      rw [listed] at away first
      have := away c rfl
      rw [List.headD_cons, threadFront_real (first c rfl).2.2.1, loadWord_storeWord_other (by omega)]
  -- The words that matter are the roots and the links of the new block.
  have away : ∀ p, p + 4 ≤ h.memStartBrk + 168 ∨ b.addr ≤ p ∧ p + 4 ≤ b.addr + 12 →
      ∀ c ∈ (s.lists (getclass b.size)).head?, p + 4 ≤ c + 8 ∨ c + 12 ≤ p := by
    intro p place c here
    have := first c here
    omega
  have nextWord : (s.lists (getclass b.size)).headD null < 2 ^ 32 := by
    cases listed : s.lists (getclass b.size) with
    | nil => decide
    | cons c rest =>
      rw [listed] at first
      have := first c rfl
      rw [List.headD_cons]
      omega
  have pushed := rep.push (k := getclass b.size) (m := m) (g := h.statics) member free rfl fresh
  rw [chain_eq] at pushed
  -- What is left is what the stores have done to each of these words.
  have step := pushed ?_ ?_ ?_ ?_ ⟨rep.heads.1, fun j inside => ?_⟩
  · obtain ⟨rep', keeps, inner⟩ := step
    exact ⟨_, insertFreenode_result rep member free, rep', keeps, inner⟩
  · -- The link back leads to the root.
    show loadWord m (b.addr + 8) = rootAddr h.memStartBrk (getclass b.size)
    rw [read _ (away _ (by omega)), loadWord_storeWord_other (by omega), loadWord_storeWord (by omega)]
  · -- The link ahead leads to the old first block.
    show loadWord m b.addr = _
    rw [read _ (away _ (by omega)), loadWord_storeWord_other (by omega), loadWord_storeWord_other (by omega),
      loadWord_storeWord nextWord]
  · -- The link back from the old first block leads to the new one.
    intro c here
    have bounds := first c here
    have listed : (s.lists (getclass b.size)).headD null = c := by
      rw [List.headD_eq_head?_getD, Option.mem_def.mp here, Option.getD_some]
    show loadWord (threadFront _ _ _ _) (c + 8) = b.addr
    rw [listed, threadFront_real bounds.2.2.1, loadWord_storeWord (by omega)]
  · -- All other bytes keep their values.
    intro x outside off back
    have offRoot : x < rootAddr h.memStartBrk (getclass b.size) ∨ rootAddr h.memStartBrk (getclass b.size) + 4 ≤ x := by
      by_contra inside
      exact outside (anchor_root below (by omega) (by omega))
    have width : layout.links.width = 12 := rfl
    rw [width] at off
    have bare : storeWord (storeWord (storeWord h.mem b.addr ((s.lists (getclass b.size)).headD null))
        (b.addr + 8) (rootAddr h.memStartBrk (getclass b.size)))
        (rootAddr h.memStartBrk (getclass b.size)) b.addr x = h.mem x := by
      rw [storeWord_other offRoot, storeWord_other (by omega), storeWord_other (by omega)]
    show threadFront _ _ _ _ x = h.mem x
    cases listed : s.lists (getclass b.size) with
    | nil =>
      rw [listed] at bare
      exact bare
    | cons c rest =>
      rw [listed] at bare first back
      have gap : x < c + 8 ∨ c + 8 + 4 ≤ x := back c rfl
      rw [List.headD_cons] at bare ⊢
      rw [threadFront_real (first c rfl).2.2.1, storeWord_other gap, bare]
  · -- The root of the list leads to the new block, and the other roots stay.
    show loadWord m (rootAddr h.memStartBrk j) =
      (if some (getclass b.size) = some j then b.addr :: s.lists j else s.lists j).headD null
    have rootHere := roots j inside
    rw [read _ (away _ (by omega))]
    by_cases here : getclass b.size = j
    · rw [here, if_pos rfl, loadWord_storeWord (by omega)]
      rfl
    · rw [if_neg fun same => here (Option.some.inj same), loadWord_storeWord_other (by unfold rootAddr; omega),
        loadWord_storeWord_other (by omega), loadWord_storeWord_other (by omega)]
      exact rep.heads.2 j inside

/-- `deleteFreenode` and `insertFreenode` keep the lists. -/
theorem keeper : Keeper layout heads deleteFreenode fun h bp _ => insertFreenode h bp where
  stable := heads_stable
  remove := fun rep member _ filed => deleteFreenode_rep rep member (filed _ rfl)
  insert := insertFreenode_rep

end MallocLab.Prologue
