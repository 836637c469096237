import Mathlib.Data.List.Perm.Subperm
import MallocLab.Machine.Loop
import MallocLab.Shelves.State
import MallocLab.Threads.Linked
import MallocLab.Tiling.Arena

/-! Heaps whose free blocks are threaded onto lists through their own payloads. -/

namespace MallocLab

/-- Lists without sentinels share none. -/
theorem single_bare : ∀ _base _j _k p : Nat, (none : Option Nat) = some p → none = some p → _j = _k := by simp

/--
How an allocator arranges its lists.

`fixed` are the blocks that `mm_init` places in front of the heap proper.
A `sentinel` is a fixed block that ends a list, and `before` stands in front of the first node.
-/
structure Layout where
  links : Offsets
  loose : Bool
  least : Nat
  style : Style
  fixed : Nat → List Blk
  before : Nat → Nat → Nat
  sentinel : Nat → Nat → Option Nat
  room : links.width + 8 ≤ least
  solid : ∀ base, fixed base ≠ []
  guarded : ∀ base, ∀ b ∈ fixed base, b.used = true ∧ b.tag = false
  pinned : ∀ base k p, sentinel base k = some p →
    ∃ b ∈ fixed base, b.addr = p ∧ links.width + 8 ≤ b.size
  single : ∀ base j k p, sentinel base j = some p → sentinel base k = some p → j = k

namespace Layout

variable (L : Layout)

/-- A list as it lies in memory, with its sentinel at the end. -/
def chain (base k : Nat) (nodes : List Nat) : List Nat := nodes ++ (L.sentinel base k).toList

/-- An address that may be a node of a list: a sentinel or a free block. -/
def Node (base : Nat) (bs : List Blk) (p : Nat) : Prop :=
  (∃ k, L.sentinel base k = some p) ∨ ∃ b ∈ bs, b.addr = p ∧ b.used = false

/-- A payload byte of a fixed block that is no sentinel; such bytes may hold the heads of lists. -/
def Anchor (base x : Nat) : Prop :=
  ∃ b ∈ L.fixed base, Payload b x ∧ ∀ k, L.sentinel base k ≠ some b.addr

end Layout

/-- Memory holds the blocks from `base` to `brk`, and threads every list through free blocks. -/
structure Threaded (L : Layout) (m : Mem) (base brk : Nat) (bs : List Blk) (lists : Nat → List Nat)
    (mark : Bool) : Prop where
  arena : Arena L.loose m (base + 8) brk (L.fixed base ++ bs) mark
  least : ∀ b ∈ bs, L.least ≤ b.size
  listed : ∀ k, ∀ p ∈ lists k, ∃ b ∈ bs, b.addr = p ∧ b.used = false ∧ L.style.cls b.size = some k
  nodup : ∀ k, (lists k).Nodup
  linked : ∀ k, Linked L.links m (L.before base k) (L.chain base k (lists k)) null

variable {L : Layout} {m m' : Mem} {base brk start stop k p q x : Nat} {b c : Blk}
variable {bs pre mid mid' post : List Blk} {lists lists' : Nat → List Nat} {mark : Bool}

namespace Threaded

section

variable (threaded : Threaded L m base brk bs lists mark)
include threaded

/-- The blocks of the heap proper tile what the fixed blocks leave. -/
theorem tiles : ∃ lo, base + 8 ≤ lo ∧ Tiles (base + 8) (L.fixed base) lo ∧ Tiles lo bs brk := by
  obtain ⟨lo, fixed, rest⟩ := tiles_append.mp threaded.arena.tiles
  exact ⟨lo, fixed.le, fixed, rest⟩

/-- The nodes of a list are sentinels or free blocks. -/
theorem node (member : p ∈ L.chain base k (lists k)) : L.Node base bs p := by
  rcases List.mem_append.mp member with member | member
  · obtain ⟨b, block, here, free, _⟩ := threaded.listed k p member
    exact .inr ⟨b, block, here, free⟩
  · exact .inl ⟨k, Option.mem_toList.mp member⟩

/-- The block that a node stands for. -/
theorem block (node : L.Node base bs p) :
    ∃ b ∈ L.fixed base ++ bs, b.addr = p ∧ L.links.width + 8 ≤ b.size ∧
      ((∃ k, L.sentinel base k = some p) ∧ b ∈ L.fixed base ∨ b ∈ bs ∧ b.used = false) := by
  rcases node with ⟨k, ends⟩ | ⟨b, member, rfl, free⟩
  · obtain ⟨b, member, rfl, wide⟩ := L.pinned base k p ends
    exact ⟨b, by simp [member], rfl, wide, .inl ⟨⟨k, ends⟩, member⟩⟩
  · have least := threaded.least b member
    have room := L.room
    exact ⟨b, by simp [member], rfl, by omega, .inr ⟨member, free⟩⟩

/-- The bounds of a node. -/
theorem bounds (node : L.Node base bs p) :
    base + 8 ≤ p ∧ p + L.links.width + 8 ≤ brk ∧ p % 8 = 0 := by
  obtain ⟨b, member, rfl, wide, _⟩ := threaded.block node
  have inside := threaded.arena.within member
  have upper := inside.upper
  have aligned := inside.aligned
  have low := threaded.arena.aligned
  exact ⟨inside.lower, by omega, by omega⟩

/-- Nodes are words that differ from null. -/
theorem word (node : L.Node base bs p) : p ≠ null ∧ p + L.links.width < 2 ^ 32 := by
  have bounds := threaded.bounds node
  have high := threaded.arena.high
  unfold null
  omega

/-- The links of distinct nodes do not meet. -/
theorem apart (first : L.Node base bs p) (second : L.Node base bs q) (distinct : p ≠ q) :
    p + L.links.width + 8 ≤ q ∨ q + L.links.width + 8 ≤ p := by
  obtain ⟨b, bMember, rfl, bWide, _⟩ := threaded.block first
  obtain ⟨c, cMember, rfl, cWide, _⟩ := threaded.block second
  rcases threaded.arena.tiles.apart bMember cMember with rfl | apart
  · exact absurd rfl distinct
  · omega

/-- No free block has the address of a sentinel. -/
theorem sentinel_ne (member : b ∈ bs) : L.sentinel base k ≠ some b.addr := by
  intro ends
  obtain ⟨c, fixed, same, wide⟩ := L.pinned base k b.addr ends
  have below := threaded.arena.tiles.below fixed member
  omega

/-- A list visits no address twice. -/
theorem chain_nodup (k : Nat) : (L.chain base k (lists k)).Nodup := by
  refine List.nodup_append.mpr ⟨threaded.nodup k, ?_, ?_⟩
  · cases L.sentinel base k <;> simp
  · rintro p member q last rfl
    obtain ⟨b, block, rfl, _⟩ := threaded.listed k p member
    exact threaded.sentinel_ne block (Option.mem_toList.mp last)

/-- A list is shorter than the longest walk a pointer can take. -/
theorem length_lt (k : Nat) : (lists k).length < pointerTurns := by
  have inside : lists k ⊆ List.range brk := by
    intro p member
    have := threaded.bounds (threaded.node (k := k) (p := p) (by simp [Layout.chain, member]))
    rw [List.mem_range]
    omega
  have short := (List.subperm_of_subset (threaded.nodup k) inside).length_le
  have high := threaded.arena.high
  rw [List.length_range] at short
  unfold pointerTurns
  omega

/-- Lists of different classes share no node. -/
theorem chains_disjoint {j : Nat} (other : j ≠ k)
    (member : p ∈ L.chain base j (lists j)) : p ∉ L.chain base k (lists k) := by
  intro again
  rcases List.mem_append.mp member with member | member <;>
    rcases List.mem_append.mp again with again | again
  · -- The size of the block at this address decides the class.
    obtain ⟨b, bBlock, rfl, _, bClass⟩ := threaded.listed j p member
    obtain ⟨c, cBlock, same, _, cClass⟩ := threaded.listed k b.addr again
    obtain ⟨_, _, _, rest⟩ := threaded.tiles
    obtain rfl := rest.addr_inj cBlock bBlock same
    exact other (Option.some.inj (bClass.symm.trans cClass))
  · -- A sentinel is no block of the heap.
    obtain ⟨b, bBlock, rfl, _⟩ := threaded.listed j p member
    exact threaded.sentinel_ne bBlock (Option.mem_toList.mp again)
  · obtain ⟨b, bBlock, rfl, _⟩ := threaded.listed k p again
    exact threaded.sentinel_ne bBlock (Option.mem_toList.mp member)
  · -- A sentinel belongs to one list.
    exact other (L.single base j k p (Option.mem_toList.mp member) (Option.mem_toList.mp again))

/-- The link words of one list do not overlap. -/
theorem spread (k : Nat) : Spread L.links (L.chain base k (lists k)) := by
  refine (threaded.chain_nodup k).imp_of_mem ?_
  intro p q first second distinct
  have := threaded.apart (threaded.node first) (threaded.node second) distinct
  omega

/-- No used block has a payload byte in a link word. -/
theorem offLinks {nodes : List Nat} (owned : ∀ p ∈ nodes, L.Node base bs p) (member : b ∈ bs)
    (used : b.used = true) (inside : Payload b x) : OffLinks L.links nodes x := by
  intro p node
  obtain ⟨c, cMember, rfl, wide, kind⟩ := threaded.block (owned p node)
  obtain ⟨lower, upper⟩ := inside
  have apart : c.addr + c.size ≤ b.addr ∨ b.addr + b.size ≤ c.addr := by
    rcases kind with ⟨_, fixed⟩ | ⟨block, free⟩
    · exact .inl (threaded.arena.tiles.below fixed member)
    · rcases threaded.arena.tiles.apart cMember (c := b) (by simp [member]) with rfl | apart
      · simp [used] at free
      · exact apart
  omega

/-- The links of a node are no anchors. -/
theorem node_offAnchor (node : L.Node base bs p) (lower : p ≤ x) (upper : x < p + L.links.width) :
    ¬ L.Anchor base x := by
  rintro ⟨c, fixed, ⟨from_, until_⟩, bare⟩
  -- A node is either a sentinel, which holds no anchor, or lies above the fixed blocks.
  obtain ⟨b, member, rfl, wide, kind⟩ := threaded.block node
  rcases threaded.arena.tiles.apart member (c := c) (by simp [fixed]) with rfl | apart
  · rcases kind with ⟨⟨i, ends⟩, _⟩ | ⟨proper, _⟩
    · exact bare i ends
    · have := threaded.arena.tiles.below fixed proper
      omega
  · omega

/-- No used block has a payload byte among the anchors. -/
theorem offAnchor (member : b ∈ bs) (inside : Payload b x) : ¬ L.Anchor base x := by
  rintro ⟨c, fixed, ⟨lower, upper⟩, _⟩
  have below := threaded.arena.tiles.below fixed member
  obtain ⟨from_, _⟩ := inside
  omega

/-- Every anchor lies below the blocks of the heap proper and their headers. -/
theorem anchor_below (anchor : L.Anchor base x) (member : b ∈ bs) : x + 8 < b.addr := by
  obtain ⟨c, fixed, ⟨_, upper⟩, _⟩ := anchor
  have below := threaded.arena.tiles.below fixed member
  omega

/--
Rewriting the links of one list, and the anchors, changes nothing but that list.

The nodes whose links are rewritten must belong to no other list.
-/
theorem relink {nodes : List Nat}
    (owned : ∀ p ∈ nodes, L.Node base bs p)
    (others : ∀ p ∈ nodes, ∀ j, j ≠ k → p ∉ L.chain base j (lists j))
    (same : ∀ x, OffLinks L.links nodes x → ¬ L.Anchor base x → m' x = m x)
    (kept : ∀ j, j ≠ k → lists' j = lists j)
    (listed : ∀ p ∈ lists' k, ∃ b ∈ bs, b.addr = p ∧ b.used = false ∧ L.style.cls b.size = some k)
    (nodup : (lists' k).Nodup)
    (linked : Linked L.links m' (L.before base k) (L.chain base k (lists' k)) null) :
    Threaded L m' base brk bs lists' mark ∧
      ∀ b ∈ bs, b.used = true → ∀ x, Payload b x → m' x = m x := by
  refine ⟨⟨?_, threaded.least, ?_, ?_, ?_⟩, ?_⟩
  · apply threaded.arena.payloads
    -- A byte outside every payload is outside the links and the anchors, which lie in payloads.
    intro x outside
    apply same
    · -- A link is inside its block, and so is its payload.
      intro p node
      obtain ⟨b, member, rfl, wide, _⟩ := threaded.block (owned p node)
      have := outside b member
      unfold Payload at this
      omega
    · -- An anchor is inside the payload of a fixed block.
      rintro ⟨b, fixed, inside, _⟩
      exact outside b (by simp [fixed]) inside
  · -- What is listed on the other lists is as before.
    intro j
    by_cases here : j = k
    · exact here ▸ listed
    · rw [kept j here]
      exact threaded.listed j
  · -- Nothing is listed twice.
    intro j
    by_cases here : j = k
    · exact here ▸ nodup
    · rw [kept j here]
      exact threaded.nodup j
  · -- The other lists are linked as before, since no byte of their nodes has changed.
    intro j
    by_cases here : j = k
    · exact here ▸ linked
    · rw [kept j here]
      apply (threaded.linked j).congr
      intro p member x lower upper
      have mine := threaded.node member
      apply same
      · intro q node
        have distinct : p ≠ q := by
          rintro rfl
          exact others p node j here member
        have := threaded.apart mine (owned q node) distinct
        omega
      · exact threaded.node_offAnchor mine lower upper
  · -- The payloads of used blocks are neither links nor anchors.
    intro b member used x inside
    exact same x (threaded.offLinks owned member used inside) (threaded.offAnchor member inside)

/-- Rewriting the tags of one region, while no block inside it is listed. -/
theorem retag (split : bs = pre ++ mid ++ post) (covers : Tiles start mid stop) (nonempty : mid ≠ [])
    (recovers : Tiles start mid' stop) (least : ∀ b ∈ mid', L.least ≤ b.size)
    (unlisted : ∀ k, ∀ b ∈ mid, b.addr ∉ lists k)
    (tags : ∀ b ∈ mid', Tagged L.loose m' b)
    (same : ∀ x, x < start - 4 ∨ stop - 4 ≤ x → m' x = m x) :
    Threaded L m' base brk (pre ++ mid' ++ post) lists mark ∧
      ∀ b ∈ pre ++ post, ∀ x, Payload b x → m' x = m x := by
  subst split
  obtain ⟨lo, low, fixed, tiles⟩ := threaded.tiles
  obtain ⟨left, right⟩ := tiles.middle covers nonempty
  have rise := left.le
  have span := covers.le
  -- A block outside the region lies wholly before or wholly after the bytes that change.
  have outside : ∀ b ∈ pre ++ post, ∀ x, b.addr ≤ x → x + 8 < b.addr + b.size → m' x = m x := by
    intro b member x lower upper
    apply same
    rcases List.mem_append.mp member with member | member
    · have := (left.within member).upper
      omega
    · have := (right.within member).lower
      omega
  -- The blocks around stay blocks, before and after.
  have kept : ∀ b ∈ pre ++ post, b ∈ pre ++ mid ++ post := by
    intro b member
    simp only [List.mem_append] at member ⊢
    tauto
  have kept' : ∀ b ∈ pre ++ post, b ∈ pre ++ mid' ++ post := by
    intro b member
    simp only [List.mem_append] at member ⊢
    tauto
  -- What is listed lies around the region, since the blocks in it are unlisted.
  have around : ∀ k, ∀ p ∈ lists k,
      ∃ b ∈ pre ++ post, b.addr = p ∧ b.used = false ∧ L.style.cls b.size = some k := by
    intro k p member
    obtain ⟨b, block, rfl, free, class_⟩ := threaded.listed k p member
    refine ⟨b, ?_, rfl, free, class_⟩
    have away : b ∉ mid := fun inside => unlisted k b inside member
    simp only [List.mem_append] at block ⊢
    tauto
  refine ⟨⟨?_, ?_, ?_, threaded.nodup, ?_⟩, fun b member x inside =>
    outside b member x inside.1 inside.2⟩
  · -- The blocks tile the heap, and have their tags.
    have arena := threaded.arena
    rw [← List.append_assoc, ← List.append_assoc] at arena ⊢
    exact arena.retile covers nonempty recovers tags same
  · -- No block is smaller than the least one.
    intro b member
    simp only [List.mem_append, or_assoc] at member
    rcases member with member | member | member
    · exact threaded.least b (by simp [member])
    · exact least b member
    · exact threaded.least b (by simp [member])
  · -- The lists are the same.
    intro k p member
    obtain ⟨b, block, rest⟩ := around k p member
    exact ⟨b, kept' b block, rest⟩
  · -- They are linked by the same words, which lie outside the region.
    intro k
    apply (threaded.linked k).congr
    intro p member x lower upper
    rcases List.mem_append.mp member with member | member
    · obtain ⟨b, block, rfl, _⟩ := around k p member
      have := threaded.least b (kept b block)
      have room := L.room
      exact outside b block x lower (by omega)
    · -- A sentinel is a fixed block, and so below the region.
      obtain ⟨b, block, rfl, wide⟩ := L.pinned base k p (Option.mem_toList.mp member)
      have := (fixed.within block).upper
      exact same x (by omega)

/-- New space at the end of the heap becomes one more block, which is on no list yet. -/
theorem extend {fresh : Blk} {mark' : Bool} (start : fresh.addr = brk) (whole : fresh.size % 8 = 0)
    (least : L.least ≤ fresh.size) (fits : brk + fresh.size < 2 ^ 32)
    (tagged : Tagged L.loose m' fresh)
    (closing : loadWord m' (brk + fresh.size - 4) = (epilogue (brk + fresh.size) mark').word)
    (same : ∀ x, x < brk - 4 → m' x = m x) :
    Threaded L m' base (brk + fresh.size) (bs ++ [fresh]) lists mark' ∧
      ∀ b ∈ bs, ∀ x, Payload b x → m' x = m x := by
  have room := L.room
  refine ⟨⟨?_, ?_, ?_, threaded.nodup, ?_⟩, ?_⟩
  · -- The new block comes behind the last one.
    rw [← List.append_assoc]
    exact threaded.arena.extend start whole (by omega) fits tagged closing same
  · -- It is as large as the least one.
    intro b member
    rcases List.mem_append.mp member with member | member
    · exact threaded.least b member
    · obtain rfl := List.mem_singleton.mp member
      exact least
  · intro k p member
    obtain ⟨b, block, rest⟩ := threaded.listed k p member
    exact ⟨b, by simp [block], rest⟩
  · -- The words of the lists lie below the old break.
    intro k
    apply (threaded.linked k).congr
    intro p member x lower upper
    have bounds := threaded.bounds (threaded.node member)
    exact same x (by omega)
  · -- The payloads end below the old epilogue.
    intro b member x inside
    have upper := (threaded.arena.within (b := b) (by simp [member])).upper
    obtain ⟨_, until_⟩ := inside
    exact same x (by omega)

/-- Every tag and every link lies inside the heap, so memory elsewhere does not matter. -/
theorem enclosed (same : ∀ x, base ≤ x → x < brk → m' x = m x) : Threaded L m' base brk bs lists mark := by
  refine { threaded with arena := threaded.arena.enclosed fun x _ below => same x (by omega) below, linked := ?_ }
  intro k
  apply (threaded.linked k).congr
  intro p member x lower upper
  have bounds := threaded.bounds (threaded.node member)
  exact same x (by omega) (by omega)

/-- Writing inside the payloads of used blocks changes no tag and no link. -/
theorem written (same : ∀ x, (∀ b ∈ bs, b.used = true → ¬ Payload b x) → m' x = m x) :
    Threaded L m' base brk bs lists mark := by
  refine { threaded with arena := ?_, linked := ?_ }
  · apply threaded.arena.payloads
    exact fun x outside => same x fun b member _ => outside b (by simp [member])
  · intro k
    apply (threaded.linked k).congr
    intro p member x lower upper
    apply same
    intro b block used inside
    have owned : ∀ q ∈ [p], L.Node base bs q := by simpa using threaded.node member
    have off := threaded.offLinks owned block used inside p (by simp)
    omega

end

end Threaded

end MallocLab
