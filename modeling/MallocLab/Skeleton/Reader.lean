import MallocLab.Skeleton.Shelved
import MallocLab.Tiling.Walk

/-! What a reader of the heap sees between two calls. -/

namespace MallocLab.Skeleton

variable {γ : Type} {L : Layout} {heads : Heap γ → (Nat → List Nat) → Prop} {base : Nat} {w : World γ}
variable {s : Shelves}

/-- The blocks that are marked allocated are exactly the live ones. -/
theorem live_iff_used (stands : Holds (Stands L heads base) Shelves.blocks w s) (p : Nat) :
    (p ∈ s.blocks.map Blk.addr ∧ getAlloc w.heap (hdrp p) = 1) ↔ ∃ n, (p, n) ∈ w.live := by
  obtain ⟨⟨rep, _, _, _⟩, owned⟩ := stands
  constructor
  · -- A block that is marked as used has an owner.
    rintro ⟨member, alloc⟩
    obtain ⟨b, block, rfl⟩ := List.mem_map.mp member
    rw [rep.arena.alloc (by simp [block])] at alloc
    cases used : b.used with
    | true => exact owned.owner b.addr b.size ⟨b, block, rfl, rfl, used⟩
    | false => simp [used] at alloc
  · -- An owner holds a used block.
    rintro ⟨n, live⟩
    obtain ⟨size, ⟨b, block, rfl, _, used⟩, _⟩ := owned.block p n live
    refine ⟨List.mem_map_of_mem block, ?_⟩
    rw [rep.arena.alloc (by simp [block]), used]
    rfl

section Blocks

variable {h : Heap γ} {b : Blk} {before after : List Blk}

/-- What the code reads at a block. -/
theorem Stands.reads (stands : Stands L heads base h s) (member : b ∈ L.fixed base ++ s.blocks) :
    getSize h (hdrp b.addr) = b.size ∧ getAlloc h (hdrp b.addr) = b.used.toNat ∧
      nextBlkp h b.addr = b.addr + b.size ∧ b.size ≠ 0 := by
  have arena := stands.rep.arena
  rw [stands.start] at arena
  have least := (arena.within member).least
  exact ⟨arena.size member, arena.alloc member, arena.next member, by omega⟩

/-- A block is not null. -/
theorem Stands.real (stands : Stands L heads base h s) (member : b ∈ L.fixed base ++ s.blocks) : b.addr ≠ null := by
  have arena := stands.rep.arena
  rw [stands.start] at arena
  exact arena.real member

/-- A walk over blocks is shorter than the longest walk a pointer can take. -/
theorem Stands.short (stands : Stands L heads base h s) (split : L.fixed base ++ s.blocks = before ++ after) :
    before.length < pointerTurns ∧ after.length < pointerTurns := by
  have arena := stands.rep.arena
  have high := arena.high
  have count := arena.tiles.count
  rw [stands.start, split, List.length_append] at count
  unfold pointerTurns
  omega

/-- The block after another one starts where that one ends. -/
theorem Stands.onward (stands : Stands L heads base h s) (split : L.fixed base ++ s.blocks = before ++ b :: after) :
    b.addr + b.size = (after.map Blk.addr).headD h.memBrk := by
  have arena := stands.rep.arena
  rw [stands.start, split] at arena
  obtain ⟨_, right, _⟩ := arena.tiles.cut
  cases after with
  | nil => exact tiles_nil.mp right
  | cons c after => exact right.1.symm

/-- In an untagged heap the headers describe the fixed blocks and the others. -/
theorem Stands.readBlocks (stands : Stands L heads base h s) (tight : L.loose = false) :
    MallocLab.readBlocks h pointerTurns (base + 8) = L.fixed base ++ s.blocks := by
  have arena := stands.rep.arena
  rw [stands.start] at arena
  have plain : ∀ b ∈ L.fixed base ++ s.blocks, b.tag = false := by
    intro b member
    rcases List.mem_append.mp member with fixed | block
    · exact (L.guarded base b fixed).2
    · exact stands.rep.plain tight b block
  have tiles := arena.tiles
  rw [← List.nil_append (L.fixed base ++ s.blocks)] at arena
  exact arena.readBlocks plain tiles

end Blocks

/-- The block at `p` is free and has at least this size. -/
def Fits (h : Heap γ) (asize p : Nat) : Prop := getAlloc h (hdrp p) = 0 ∧ asize ≤ getSize h (hdrp p)

instance (h : Heap γ) (asize p : Nat) : Decidable (Fits h asize p) := inferInstanceAs (Decidable (_ ∧ _))

/-- The free blocks of at least a given size, as the headers show them. -/
theorem read_free {h : Heap γ} {a p : Nat} (rep : Rep L heads h s) :
    (p ∈ s.blocks.map Blk.addr ∧ getAlloc h (hdrp p) = 0 ∧ a ≤ getSize h (hdrp p)) ↔
      ∃ b ∈ s.blocks, b.addr = p ∧ b.used = false ∧ a ≤ b.size := by
  have arena := rep.arena
  constructor
  · rintro ⟨member, alloc, large⟩
    obtain ⟨b, block, rfl⟩ := List.mem_map.mp member
    rw [arena.size (List.mem_append_right _ block)] at large
    exact ⟨b, block, rfl, (arena.alloc_free (List.mem_append_right _ block)).mp alloc, large⟩
  · rintro ⟨b, block, rfl, free, large⟩
    rw [arena.size (List.mem_append_right _ block)]
    exact ⟨List.mem_map_of_mem block, (arena.alloc_free (List.mem_append_right _ block)).mpr free, large⟩

/--
The lists as the code follows them, from `head` along `next` to null and back along `prev`.

`chains` are the blocks on each list; a block is on the list of its class when it is `free`, and only then.
-/
structure ListsSound (next prev head before : Nat → Nat) (limit : Nat) (free : Nat → Prop)
    (class_ : Nat → Nat) (chains : Nat → List Nat) : Prop where
  trail : ∀ k < limit, Trail next (fun p => p = null) (head k) (chains k) null
  first : ∀ k < limit, head k ≠ null → prev (head k) = before k
  back : ∀ k < limit, ∀ p ∈ chains k, next p ≠ null → prev (next p) = p
  distinct : ∀ k < limit, (chains k).Nodup
  exact : ∀ k < limit, ∀ p, p ∈ chains k ↔ free p ∧ class_ p = k

variable {h : Heap γ}

/-- The lists of a represented state, when they end in null and every free block is filed. -/
theorem listsSound {next prev head before class_ : Nat → Nat} {limit : Nat} {cls : Nat → Nat}
    (rep : Rep L heads h s) (filed : s.Filed L.style)
    (bare : ∀ k, L.sentinel h.memStartBrk k = none) (starts : ∀ k, L.before h.memStartBrk k = before k)
    (classed : ∀ size, L.style.cls size = some (cls size))
    (entries : ∀ b ∈ s.blocks, b.used = false → next b.addr = h.get (b.addr + L.links.next) ∧
      prev b.addr = h.get (b.addr + L.links.prev))
    (found : ∀ k < limit, head k = (s.lists k).headD null)
    (reads : ∀ p, class_ p = cls (getSize h (hdrp p))) :
    ListsSound next prev head before limit
      (fun p => p ∈ s.blocks.map Blk.addr ∧ getAlloc h (hdrp p) = 0) class_ s.lists := by
  -- The lists have no sentinel, so the chain is the list.
  have chain : ∀ k, L.chain h.memStartBrk k (s.lists k) = s.lists k := by simp [Layout.chain, bare]
  have linked : ∀ k, Linked L.links h.mem (before k) (s.lists k) null := by
    intro k
    have linked := rep.threaded.linked k
    rwa [chain, starts] at linked
  have block : ∀ k, ∀ p ∈ s.lists k, ∃ b ∈ s.blocks, b.addr = p ∧ b.used = false ∧ cls b.size = k := by
    intro k p member
    obtain ⟨b, block, here, free, class_⟩ := rep.threaded.listed k p member
    exact ⟨b, block, here, free, Option.some.inj ((classed b.size).symm.trans class_)⟩
  have real : ∀ k, ∀ p ∈ s.lists k, p ≠ null := by
    intro k p member
    exact (rep.threaded.word (rep.threaded.node (k := k) (by rwa [chain]))).1
  -- The four clauses: the trail, the heads, the links back and the contents.
  refine ⟨?_, ?_, ?_, fun k _ => rep.threaded.nodup k, ?_⟩
  · -- From the head the links lead through the list to its end.
    intro k below
    rw [found k below]
    refine (linked k).trail ?_ (real k) rfl
    intro p member
    obtain ⟨b, block, rfl, free, _⟩ := block k p member
    exact (entries b block free).1
  · -- The first block is linked back to the place before the list.
    intro k below occupied
    rw [found k below] at occupied ⊢
    have links := linked k
    cases listed : s.lists k with
    | nil =>
      rw [listed] at occupied
      exact absurd rfl occupied
    | cons p rest =>
      obtain ⟨b, block, rfl, free, _⟩ := block k p (by simp [listed])
      rw [listed] at links
      rw [List.headD_cons, (entries b block free).2]
      exact links.1
  · intro k _ p member on
    obtain ⟨b, member', rfl, free, _⟩ := block k p member
    obtain ⟨left, right, split⟩ := List.append_of_mem member
    have links := linked k
    rw [split] at links
    -- The list goes on with the block that `next` names, whose predecessor link leads back.
    rw [(entries b member' free).1, Heap.get, links.links.2] at on ⊢
    cases right with
    | nil => exact absurd rfl on
    | cons c right =>
      obtain ⟨d, member', rfl, free', _⟩ := block k c (by simp [split])
      rw [List.headD_cons, (entries d member' free').2]
      have shifted : left ++ b.addr :: d.addr :: right = (left ++ [b.addr]) ++ d.addr :: right := by simp
      rw [shifted] at links
      have back := links.links.1
      rwa [List.getLastD_concat] at back
  · -- What is listed is free and of that class, and the other way round.
    intro k below p
    constructor
    · intro member
      obtain ⟨b, member', rfl, free, here⟩ := block k p member
      refine ⟨⟨List.mem_map_of_mem member', ?_⟩, ?_⟩
      · exact (rep.arena.alloc_free (by simp [member'])).mpr free
      · rw [reads, rep.arena.size (by simp [member']), here]
    · rintro ⟨⟨member, alloc⟩, here⟩
      obtain ⟨b, member', rfl⟩ := List.mem_map.mp member
      rw [reads, rep.arena.size (by simp [member'])] at here
      exact filed b member' ((rep.arena.alloc_free (by simp [member'])).mp alloc) k
        ((classed b.size).trans (congrArg some here))

/-- A reader of an untagged heap sees the blocks of the abstract state. -/
theorem wellFormed (tight : L.loose = false) (stands : Holds (Stands L heads base) Shelves.blocks w s) :
    WellFormed w.heap (base + 8) ((L.fixed base).map Blk.addr) (s.blocks.map Blk.addr) L.least := by
  obtain ⟨⟨rep, _, separated, rfl⟩, _⟩ := stands
  have arena := rep.arena
  have low := arena.aligned
  rw [tight, rep.unmarked tight] at arena
  refine arena.wellFormed low ?_ (fun b block => rep.least block)
    (separated.prepend fun b fixed => (L.guarded w.heap.memStartBrk b fixed).1)
  intro b member
  rcases List.mem_append.mp member with fixed | block
  · exact (L.guarded w.heap.memStartBrk b fixed).2
  · exact rep.plain tight b block

end MallocLab.Skeleton
