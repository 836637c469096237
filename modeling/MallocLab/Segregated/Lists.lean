import MallocLab.Segregated.Nodes
import MallocLab.Skeleton.Frame

/-! The lists of the power-of-two allocators in memory, and what the list operations do to them. -/

namespace MallocLab.Segregated

/-- The entries of a block lie where the links of a node do. -/
def Spells (e : Entries) (links : Offsets) : Prop :=
  ∀ p, p + 8 < 2 ^ 32 → e.next p = p + links.next ∧ e.prev p = p + links.prev

/-- Twenty lists without sentinels, whose heads are kept outside the heap. -/
def layout (links : Offsets) (fits : links.width = 8) (loose : Bool) (style : Style) : Layout where
  links := links
  loose := loose
  least := 16
  style := style
  fixed := fun base => [Skeleton.prologue base]
  before := fun _ _ => null
  sentinel := fun _ _ => none
  room := by omega
  solid := Skeleton.prologue_solid
  guarded := Skeleton.prologue_guarded
  pinned := by simp
  single := single_bare

/-- The array holds the first block of every list. -/
def heads (h : State) (lists : Nat → List Nat) : Prop :=
  ∀ k < listLimit, h.statics k = (lists k).headD null

variable {links : Offsets} {fits : links.width = 8} {loose : Bool} {style : Style} {e : Entries}
variable {h : State} {s : Shelves} {b c : Blk} {k p list size : Nat} {left right : List Nat}

/-- The lists start in the statics, which no store into a block changes. -/
theorem heads_stable : Stable (layout links fits loose style) heads :=
  stable_statics fun (statics : Nat → Nat) _ lists => ∀ k < listLimit, statics k = (lists k).headD null

/-- The lists are ended by null. -/
theorem chain_eq (base k : Nat) (nodes : List Nat) :
    (layout links fits loose style).chain base k nodes = nodes := List.append_nil nodes

/-- The sizes of a class select its list. -/
def Classed (style : Style) : Prop := ∀ size, style.cls size = some (sizeClass size)

/-- Another word is read as before a store. -/
theorem get_put_other {q v : Nat} (apart : p + 4 ≤ q ∨ q + 4 ≤ p) : (h.put q v).get p = h.get p :=
  loadWord_storeWord_other apart

variable (spells : Spells e links)
include spells

/-- The entries of a node are its link words. -/
theorem entries_eq (rep : Rep (layout links fits loose style) heads h s)
    (node : (layout links fits loose style).Node h.memStartBrk s.blocks p) :
    p ≠ null ∧ e.next p = p + links.next ∧ e.prev p = p + links.prev := by
  obtain ⟨real, word⟩ := rep.threaded.word node
  have wide : (layout links fits loose style).links.width = 8 := fits
  rw [wide] at word
  exact ⟨real, spells p word⟩

/-- Deleting a listed block bridges its list over it, and moves the head when the block was first. -/
theorem deleteNode_result (rep : Rep (layout links fits loose style) heads h s) (member : b ∈ s.blocks)
    (cut : Cut (layout links fits loose style) h.mem h.memStartBrk s.blocks s.lists (sizeClass b.size)
      b.addr left right) :
    deleteNode e h b.addr = some { h with
      mem := bridge links h.mem null left.getLast? right.head? null
      statics := if left = [] then
          fun k => if k = sizeClass b.size then right.headD null else h.statics k
        else h.statics } := by
  have size : getSize h (hdrp b.addr) = b.size := rep.arena.size (List.mem_append_right _ member)
  obtain ⟨_, nextEntry, prevEntry⟩ := entries_eq spells rep cut.self
  have nextFits := links.nextFits
  have prevFits := links.prevFits
  have width : (layout links fits loose style).links.width = links.width := rfl
  -- The two entries of the block name its neighbours, and a missing neighbour is null.
  have next : h.get (e.next b.addr) = right.headD null := by
    have linked := cut.next
    rw [chain_eq] at linked
    rw [nextEntry]
    exact linked
  have prev : h.get (e.prev b.addr) = left.getLastD null := by
    rw [prevEntry]
    exact cut.prev
  -- The neighbours are nodes elsewhere.
  have owned := cut.owned
  have distinct := cut.distinct
  rw [chain_eq] at owned distinct
  unfold deleteNode
  rw [size, selectList_eq]
  simp only [Option.bind_eq_bind, Option.bind_some, Option.pure_def]
  rcases List.eq_nil_or_concat left with rfl | ⟨front, d, rfl⟩
  · -- The block is the first of its list, so the head moves to the next one.
    rw [List.getLastD_nil] at prev
    cases right with
    -- It is also the last one, so the list is empty afterwards.
    | nil =>
      rw [List.headD_nil] at next
      rw [if_neg (by rw [next]; simp), if_neg (by rw [prev]; simp), if_pos rfl]
      rfl
    -- The new head has no block before it.
    | cons c right =>
      rw [List.headD_cons] at next
      obtain ⟨real, _, cPrev⟩ := entries_eq spells rep (owned c (by simp))
      have apart := distinct c (by simp)
      have after : (h.put (c + links.prev) null).get (e.next b.addr) = c := by
        rw [nextEntry] at next ⊢
        rw [get_put_other (by omega), next]
      rw [if_pos (by rw [next]; exact real), if_neg (by rw [prev]; simp), if_pos rfl, next, cPrev, after]
      rfl
  · -- The block comes after another one, so the head of the list stays.
    rw [List.concat_eq_append] at *
    rw [List.getLastD_concat] at prev
    obtain ⟨dReal, dNext, _⟩ := entries_eq spells rep (owned d (by simp))
    have dApart := distinct d (by simp)
    cases right with
    -- It is the last one, and the block before ends the list now.
    | nil =>
      rw [List.headD_nil] at next
      rw [if_neg (by rw [next]; simp), if_pos (by rw [prev]; exact dReal), if_neg (by simp), prev, dNext]
      simp [bridge]
      rfl
    | cons c right =>
      rw [List.headD_cons] at next
      obtain ⟨real, _, cPrev⟩ := entries_eq spells rep (owned c (by simp))
      have apart := distinct c (by simp)
      -- The first of the two stores leaves the entries of the block alone.
      have nextAfter : (h.put (c + links.prev) d).get (e.next b.addr) = c := by
        rw [nextEntry] at next ⊢
        rw [get_put_other (by omega), next]
      have prevAfter : (h.put (c + links.prev) d).get (e.prev b.addr) = d := by
        rw [prevEntry] at prev ⊢
        rw [get_put_other (by omega), prev]
      -- The two neighbours do not overlap, so the order of the stores does not matter.
      have spread := rep.threaded.spread (sizeClass b.size)
      rw [cut.shape, chain_eq] at spread
      have gap : d + links.width ≤ c ∨ c + links.width ≤ d :=
        (List.pairwise_append.mp spread).2.2 d (by simp) c (by simp)
      rw [if_pos (by rw [next]; exact real), if_pos (by rw [prev]; exact dReal), if_neg (by simp), next,
        prev, cPrev, nextAfter, prevAfter, dNext]
      simp only [Heap.put, bridge, List.getLast?_concat, List.head?_cons, Option.getD_some]
      rw [storeWord_comm (by omega)]

variable (classed : Classed style)
include classed

/-- `deleteNode` takes a filed block off its shelf. -/
theorem deleteNode_rep (rep : Rep (layout links fits loose style) heads h s) (member : b ∈ s.blocks)
    (filed : ∀ k, style.cls b.size = some k → b.addr ∈ s.lists k) :
    ∃ h', deleteNode e h b.addr = some h' ∧
      Rep (layout links fits loose style) heads h' (s.drop b.addr) ∧ Keeps h h' s.blocks := by
  have class_ := classed b.size
  obtain ⟨left, right, cut⟩ := rep.threaded.cut (filed _ class_)
  refine ⟨_, deleteNode_result spells rep member cut, rep.unlink member class_ cut (show null < 2 ^ 32 by decide)
    (fun x _ => by rw [chain_eq]; rfl) ?_⟩
  intro k below
  have found := rep.heads k below
  -- Only the list of this block may get another head.
  by_cases here : k = sizeClass b.size
  · subst here
    show _ = ((s.lists (sizeClass b.size)).erase b.addr).headD null
    rw [cut.erase]
    cases left with
    | nil => simp
    | cons d left =>
      rw [cut.split] at found
      simpa using found
  · -- The other lists keep their nodes and their heads.
    show _ = ((s.lists k).erase b.addr).headD null
    rw [List.erase_of_not_mem (rep.not_listed member class_ here), ← found]
    cases left <;> simp [here]

omit spells in
/-- The place of a new block is the front of its list, since the size it is compared by is used up. -/
theorem insertPlace_result (rep : Rep (layout links fits loose style) heads h s) (word : size < 2 ^ 32) :
    insertPlace e h size =
      some (sizeClass size, (s.lists (sizeClass size)).headD null, null) := by
  -- The loop looks at the first block of the list only.
  have found := rep.heads _ (sizeClass_lt size)
  have stops : insertStep e h (size >>> sizeClass size) ((s.lists (sizeClass size)).headD null, null) =
      .inr ((s.lists (sizeClass size)).headD null, null) := by
    refine if_neg fun on => ?_
    obtain ⟨real, large⟩ := on
    cases listed : s.lists (sizeClass size) with
    | nil => rw [listed] at real; exact real rfl
    | cons c rest =>
      -- The first block of the list has the class of the new size, but it has not been shifted.
      rw [listed, List.headD_cons] at large
      obtain ⟨d, block, rfl, _, class_⟩ := rep.threaded.listed _ c (by rw [listed]; exact List.mem_cons_self)
      rw [rep.arena.size (List.mem_append_right _ block)] at large
      have same : sizeClass d.size = sizeClass size := Option.some.inj ((classed d.size).symm.trans class_)
      have least : 16 ≤ d.size := rep.least block
      have := shifted_le word least same
      omega
  -- So it returns at once, in front of the list.
  unfold insertPlace
  rw [selectList_eq]
  refine bind_step rfl ?_
  simp only [found]
  exact bind_step (loop_return stops (by decide)) rfl

/-- The memory after a block is linked in before the first block of a list. -/
def linkFront (links : Offsets) (m : Mem) (bp : Nat) (first : Option Nat) : Mem :=
  let m := storeWord (storeWord m (bp + links.next) (first.getD null)) (bp + links.prev) null
  match first with
  | some c => storeWord m (c + links.prev) bp
  | none => m

omit spells in
/-- A free block that is linked in before the first block of its list is filed. -/
theorem linkFront_rep (rep : Rep (layout links fits loose style) heads h s) (member : b ∈ s.blocks)
    (free : b.used = false) (fresh : ∀ k, b.addr ∉ s.lists k) :
    Rep (layout links fits loose style) heads
        (setList { h with mem := linkFront links h.mem b.addr (s.lists (sizeClass b.size)).head? }
          (sizeClass b.size) b.addr) (s.file style b) ∧
      Keeps h (setList { h with mem := linkFront links h.mem b.addr (s.lists (sizeClass b.size)).head? }
          (sizeClass b.size) b.addr) s.blocks ∧
      ∀ x, b.addr + 8 ≤ x → x < b.addr + b.size →
        linkFront links h.mem b.addr (s.lists (sizeClass b.size)).head? x = h.mem x := by
  have class_ := classed b.size
  have nextFits := links.nextFits
  have prevFits := links.prevFits
  have between := links.apart
  have width : (layout links fits loose style).links.width = 8 := fits
  have self : (layout links fits loose style).Node h.memStartBrk s.blocks b.addr := .inr ⟨b, member, rfl, free⟩
  obtain ⟨_, word⟩ := rep.threaded.word self
  -- The old first block, if there is one, is a node elsewhere.
  have first : ∀ c ∈ (s.lists (sizeClass b.size)).head?, c + 8 < 2 ^ 32 ∧
      (b.addr + 16 ≤ c ∨ c + 16 ≤ b.addr) := by
    intro c here
    have inside := List.mem_of_mem_head? here
    have node := rep.threaded.node (k := sizeClass b.size) (p := c) (by rw [chain_eq]; exact inside)
    have apart := rep.threaded.apart self node (by rintro rfl; exact fresh _ inside)
    have := (rep.threaded.word node).2
    omega
  -- Only the head of this list is another one.
  have found : heads (setList
      { h with mem := linkFront links h.mem b.addr (s.lists (sizeClass b.size)).head? }
      (sizeClass b.size) b.addr) (s.file style b).lists := by
    intro k below
    show (if k = sizeClass b.size then b.addr else h.statics k) =
      (if style.cls b.size = some k then b.addr :: s.lists k else s.lists k).headD null
    by_cases here : k = sizeClass b.size
    · rw [if_pos here, here, if_pos class_]
      rfl
    · have other : style.cls b.size ≠ some k := by
        intro same
        exact here (Option.some.inj (same.symm.trans class_))
      rw [if_neg here, if_neg other]
      exact rep.heads k below
  -- The four words that a new first block needs are what is left to show.
  have pushed := rep.push (g := (setList h (sizeClass b.size) b.addr).statics)
    (m := linkFront links h.mem b.addr (s.lists (sizeClass b.size)).head?) member free class_ fresh
  rw [chain_eq] at pushed
  have step := pushed ?_ ?_ ?_ ?_ found
  · rwa [width] at step
  · -- Nothing comes before the new block.
    show loadWord _ (b.addr + links.prev) = null
    unfold linkFront
    cases head : (s.lists (sizeClass b.size)).head? with
    | none => exact loadWord_storeWord (by decide)
    | some c =>
      have := first c head
      simp only
      rw [loadWord_storeWord_other (by omega), loadWord_storeWord (by decide)]
  · -- The old first block comes after it.
    show loadWord _ (b.addr + links.next) = (s.lists (sizeClass b.size)).headD null
    rw [List.headD_eq_head?_getD]
    unfold linkFront
    cases head : (s.lists (sizeClass b.size)).head? with
    | none =>
      simp only
      rw [loadWord_storeWord_other (by omega), loadWord_storeWord (by decide)]
    | some c =>
      have := first c head
      simp only
      rw [loadWord_storeWord_other (by omega), loadWord_storeWord_other (by omega), Option.getD_some,
        loadWord_storeWord (by omega)]
  · -- The old first block knows what comes before it now.
    intro c here
    show loadWord _ (c + links.prev) = b.addr
    rw [Option.mem_def.mp here]
    exact loadWord_storeWord (by omega)
  · -- All the stores are into the new block and into that entry.
    intro x _ off back
    unfold linkFront
    cases head : (s.lists (sizeClass b.size)).head? with
    | none =>
      simp only
      rw [storeWord_other (by omega), storeWord_other (by omega)]
    | some c =>
      have gap : x < c + links.prev ∨ c + links.prev + 4 ≤ x := back c head
      simp only
      rw [storeWord_other gap, storeWord_other (by omega), storeWord_other (by omega)]

section Search

variable {skip : State → Nat → Bool} {asize : Nat} {ok : Nat → Bool}

omit classed in
/-- The search of one list finds its first acceptable block. -/
theorem scan_result (rep : Rep (layout links fits loose style) heads h s) (below : k < listLimit)
    (accepts : ∀ b ∈ s.blocks, b.used = false → ok b.addr = (decide (asize ≤ b.size) && !skip h b.addr)) :
    loop (scanStep e skip h asize) pointerTurns (h.statics k) =
      some (((s.lists k).find? ok).getD null) := by
  rw [rep.heads k below, List.find?_eq_findSome?_guard]
  -- The loop goes along the nodes of the list, and there are fewer of them than turns.
  refine loop_walk (fun rest => rest.headD null) (rep.threaded.length_lt k) ?_ (if_neg (by simp))
  intro before p after split
  obtain ⟨b, block, rfl, free, _⟩ := rep.threaded.listed k p (by simp [split])
  obtain ⟨real, next, _⟩ := entries_eq spells rep (.inr ⟨b, block, rfl, free⟩)
  have linked := rep.threaded.linked k
  rw [chain_eq, split] at linked
  have forth : h.get (e.next b.addr) = after.headD null := by
    rw [next]
    exact linked.links.2
  have size : getSize h (hdrp b.addr) = b.size := rep.arena.size (List.mem_append_right _ block)
  have accept := accepts b block free
  simp only [scanStep, List.headD_cons, size, forth]
  by_cases fine : ok b.addr = true
  · -- An acceptable block ends the search.
    rw [fine] at accept
    obtain ⟨large, kept⟩ : asize ≤ b.size ∧ skip h b.addr = false := by simpa using accept.symm
    rw [if_neg (by simp [kept, large])]
    simp [Option.guard, fine]
  · -- Any other block is passed over, for its size or for its tag.
    have on : b.addr ≠ null ∧ (asize > b.size ∨ skip h b.addr = true) := by
      refine ⟨real, ?_⟩
      rw [Bool.not_eq_true] at fine
      rw [fine] at accept
      by_cases large : asize ≤ b.size
      · right
        simpa [large] using accept
      · left
        omega
    rw [if_pos on]
    simp [Option.guard, fine]

/-- The first acceptable block in the lists from the class of a size on. -/
def pickList (s : Shelves) (asize : Nat) (ok : Nat → Bool) : Option Nat :=
  (List.range listLimit).findSome? fun k =>
    if sizeClass asize ≤ k then (s.lists k).find? ok else none

omit spells classed in
/-- What is found is the first acceptable block of its list, and no list in reach before it has one. -/
theorem pickList_first (found : pickList s asize ok = some p) :
    ∃ k < listLimit, sizeClass asize ≤ k ∧ (s.lists k).find? ok = some p ∧
      ∀ j < k, sizeClass asize ≤ j → (s.lists j).find? ok = none := by
  -- The first list with an acceptable block is taken.
  obtain ⟨before, k, after, split, here, none_⟩ := List.findSome?_eq_some_iff.mp found
  have below : k ∈ List.range listLimit := by simp [split]
  have sorted := List.pairwise_lt_range (n := listLimit)
  rw [split] at sorted
  split at here
  next reach =>
    refine ⟨k, List.mem_range.mp below, reach, here, fun j lower reach' => ?_⟩
    have member : j ∈ List.range listLimit := List.mem_range.mpr (by rw [List.mem_range] at below; omega)
    rw [split] at member
    -- The lists are searched in order, so a lower one has been searched before.
    rcases List.mem_append.mp member with early | late
    · have missed := none_ j early
      rwa [if_pos reach'] at missed
    · have later := (List.pairwise_cons.mp (List.pairwise_append.mp sorted).2.1).1
      rcases List.mem_cons.mp late with same | late
      · omega
      · have := later j late
        omega
  next => simp at here

omit spells classed in
/-- What is found is listed in the class of the size or a larger one, and acceptable. -/
theorem pickList_some (found : pickList s asize ok = some p) :
    ∃ k < listLimit, sizeClass asize ≤ k ∧ p ∈ s.lists k ∧ ok p = true := by
  obtain ⟨k, below, reach, here, _⟩ := pickList_first found
  exact ⟨k, below, reach, List.mem_of_find?_eq_some here, List.find?_some here⟩

omit spells classed in
/-- A size is used up when it has been shifted as often as its class says. -/
theorem shifted_le_one (positive : asize ≠ 0) (below : k < listLimit - 1) :
    asize >>> k ≤ 1 ↔ sizeClass asize ≤ k := by
  -- A number that is shifted to one or zero is below the next power of two.
  have small : asize >>> k ≤ 1 ↔ asize < 2 ^ (k + 1) := by
    rw [Nat.shiftRight_eq_div_pow, Nat.pow_succ]
    have := Nat.two_pow_pos k
    constructor
    · intro le
      have := (Nat.div_lt_iff_lt_mul (Nat.two_pow_pos k)).mp (Nat.lt_succ_of_le le)
      omega
    · intro lt
      have := (Nat.div_lt_iff_lt_mul (Nat.two_pow_pos k)).mpr (show asize < 2 * 2 ^ k by omega)
      omega
  rw [small, ← Nat.log2_lt positive]
  unfold sizeClass listLimit at *
  omega

omit classed in
/-- The search of the lists finds the first acceptable block from the class of the size on. -/
theorem searchLists_result (rep : Rep (layout links fits loose style) heads h s) (positive : asize ≠ 0)
    (accepts : ∀ b ∈ s.blocks, b.used = false → ok b.addr = (decide (asize ≤ b.size) && !skip h b.addr)) :
    searchLists e skip h asize listLimit 0 asize = some ((pickList s asize ok).getD null) := by
  -- The induction is on the number of lists that are left.
  have from_ : ∀ remaining list, list + remaining = listLimit →
      searchLists e skip h asize remaining list (asize >>> list) =
        some (((List.range' list remaining).findSome? fun k =>
          if sizeClass asize ≤ k then (s.lists k).find? ok else none).getD null) := by
    intro remaining
    induction remaining with
    | zero => intro list _; rfl
    | succ remaining ih =>
      intro list total
      have rest := ih (list + 1) (by omega)
      rw [Nat.shiftRight_add] at rest
      have below : list < listLimit := by omega
      have scanned := scan_result spells rep below accepts
      have found := rep.heads list below
      have class_ := sizeClass_lt asize
      rw [List.range'_succ, List.findSome?_cons]
      unfold searchLists
      by_cases here : sizeClass asize ≤ list
      · rw [if_pos here]
        by_cases on : list = listLimit - 1 ∨ asize >>> list ≤ 1 ∧ h.statics list ≠ null
        · rw [if_pos on]
          refine bind_step scanned ?_
          cases first : (s.lists list).find? ok with
          | none => exact (if_neg (by simp)).trans rest
          | some p =>
            obtain ⟨b, block, rfl, free, _⟩ := rep.threaded.listed list p (List.mem_of_find?_eq_some first)
            exact if_pos (entries_eq spells rep (.inr ⟨b, block, rfl, free⟩)).1
        · -- A list that is passed over although it is in reach is empty.
          rw [if_neg on, rest]
          have empty : s.lists list = [] := by
            have used := (shifted_le_one positive (by omega)).mpr here
            cases listed : s.lists list with
            | nil => rfl
            | cons c nodes =>
              obtain ⟨b, block, rfl, free, _⟩ := rep.threaded.listed list c (by simp [listed])
              rw [listed] at found
              exact absurd (.inr ⟨used, by
                rw [found]
                exact (entries_eq spells rep (.inr ⟨b, block, rfl, free⟩)).1⟩) on
          rw [empty]
          rfl
      · rw [if_neg here, if_neg ?_, rest]
        rintro (last | ⟨used, _⟩)
        · omega
        · exact here ((shifted_le_one positive (by unfold listLimit at *; omega)).mp used)
  have whole := from_ listLimit 0 (by omega)
  rw [← List.range_eq_range'] at whole
  exact whole

end Search

end MallocLab.Segregated
