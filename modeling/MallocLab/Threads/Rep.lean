import MallocLab.Threads.Edit
import MallocLab.Threads.Stamps

/-! How a machine state represents an abstract allocator. -/

namespace MallocLab

variable {γ : Type}

/--
The machine state represents the blocks and the shelves.

`heads` says where the code finds the first block of each shelf.
The shelves may leave out blocks that are free, as happens in the middle of a call.
-/
structure Rep (L : Layout) (heads : Heap γ → (Nat → List Nat) → Prop) (h : Heap γ) (s : Shelves) :
    Prop where
  threaded : Threaded L h.mem h.memStartBrk h.memBrk s.blocks s.lists s.mark
  heads : heads h s.lists
  plain : L.loose = false → ∀ b ∈ s.blocks, b.tag = false
  unmarked : L.loose = false → s.mark = false
  brk : h.memBrk = s.brk
  area : Area h

/-- Where the code finds the shelves depends on its statics and on the anchors only. -/
def Stable (L : Layout) (heads : Heap γ → (Nat → List Nat) → Prop) : Prop :=
  ∀ (h h' : Heap γ) (lists : Nat → List Nat), h'.statics = h.statics → h'.memStartBrk = h.memStartBrk →
    (∀ x, L.Anchor h.memStartBrk x → h'.mem x = h.mem x) → heads h lists → heads h' lists

/-- What only the statics and the start of the heap decide is stable. -/
theorem stable_statics {L : Layout} (found : γ → Nat → (Nat → List Nat) → Prop) :
    Stable L fun h lists => found h.statics h.memStartBrk lists := by
  intro h h' lists statics start _ here
  rw [statics, start]
  exact here

variable {L : Layout} {heads : Heap γ → (Nat → List Nat) → Prop} {h h' : Heap γ} {s : Shelves}
variable {a b c d : Blk} {pre mid post : List Blk} {m : Mem} {p size footer footer' : Nat}

namespace Rep

section

variable (rep : Rep L heads h s)
include rep

/-- The blocks and the fixed blocks before them lie in memory one after another. -/
theorem arena : Arena L.loose h.mem (h.memStartBrk + 8) h.memBrk (L.fixed h.memStartBrk ++ s.blocks)
    s.mark := rep.threaded.arena

/-- The blocks of the heap proper tile what the fixed blocks leave. -/
theorem tiles : ∃ lo, h.memStartBrk + 8 ≤ lo ∧ lo % 8 = 0 ∧
    Tiles (h.memStartBrk + 8) (L.fixed h.memStartBrk) lo ∧ Tiles lo s.blocks h.memBrk := by
  obtain ⟨lo, low, fixed, tiles⟩ := rep.threaded.tiles
  have aligned := rep.arena.aligned
  have same := fixed.aligned
  exact ⟨lo, low, by omega, fixed, tiles⟩

/-- No block is smaller than the layout allows. -/
theorem least (member : b ∈ s.blocks) : L.least ≤ b.size := rep.threaded.least b member

/-- Only free blocks are on shelves. -/
theorem unlisted (member : b ∈ s.blocks) (used : b.used = true) (k : Nat) : b.addr ∉ s.lists k := by
  intro listed
  obtain ⟨c, block, here, free, _⟩ := rep.threaded.listed k b.addr listed
  obtain ⟨_, _, _, _, tiles⟩ := rep.tiles
  obtain rfl := tiles.addr_inj block member here
  simp [used] at free

/-- Writing inside the payloads of used blocks keeps the representation. -/
theorem written (stable : Stable L heads)
    (same : ∀ x, (∀ b ∈ s.blocks, b.used = true → ¬ Payload b x) → m x = h.mem x) :
    Rep L heads { h with mem := m } s where
  threaded := rep.threaded.written same
  heads := stable h _ s.lists rfl rfl
    (fun x anchor => same x fun _ member _ inside => rep.threaded.offAnchor member inside anchor) rep.heads
  plain := rep.plain
  unmarked := rep.unmarked
  brk := rep.brk
  area := ⟨rep.area.limit, rep.area.fits⟩

/-- Memory outside the heap does not matter. -/
theorem enclosed (stable : Stable L heads) (same : ∀ x, h.memStartBrk ≤ x → x < h.memBrk → m x = h.mem x) :
    Rep L heads { h with mem := m } s where
  threaded := rep.threaded.enclosed same
  heads := by
    -- The list heads lie inside the heap, too.
    refine stable h _ s.lists rfl rfl (fun x anchor => ?_) rep.heads
    obtain ⟨b, fixed, ⟨lower, upper⟩, _⟩ := anchor
    have inside := rep.arena.within (List.mem_append_left _ fixed)
    have low := inside.lower
    have high := inside.upper
    exact same x (by omega) (by omega)
  -- What is left is about the blocks alone.
  plain := rep.plain
  unmarked := rep.unmarked
  brk := rep.brk
  area := ⟨rep.area.limit, rep.area.fits⟩

/-- One block takes the place of a region of unlisted blocks. -/
theorem rebrand (stable : Stable L heads) (split : s.blocks = pre ++ mid ++ post) (nonempty : mid ≠ [])
    (covers : Tiles b.addr mid (b.addr + b.size)) (unlisted : ∀ k, ∀ x ∈ mid, x.addr ∉ s.lists k)
    (foot : Footer L.loose b footer) (plain : L.loose = false → b.tag = false) :
    Rep L heads { h with mem := brand h.mem b.addr b.size b.word footer }
        { s with blocks := pre ++ b :: post } ∧
      Keeps h { h with mem := brand h.mem b.addr b.size b.word footer } (pre ++ post) := by
  obtain ⟨threaded, kept⟩ := rep.threaded.rebrand split nonempty covers unlisted foot
  refine ⟨⟨threaded, ?_, ?_, rep.unmarked, rep.brk, ⟨rep.area.limit, rep.area.fits⟩⟩,
    ⟨rfl, rfl, fun c member _ => kept c member⟩⟩
  · -- The list heads lie in front of all the blocks, so the tags do not reach them.
    refine stable h _ s.lists rfl rfl (fun x anchor => ?_) rep.heads
    obtain ⟨first, rest, rfl⟩ := List.exists_cons_of_ne_nil nonempty
    have here : first.addr = b.addr := covers.1
    have below := rep.threaded.anchor_below anchor (b := first) (by simp [split])
    have large := covers.2.2.1
    have rise := covers.2.2.2.le
    exact brand_other (by omega) (by omega) (by omega)
  · -- The new block keeps the rule for tags, and the others have not changed.
    intro tight c member
    have old := rep.plain tight
    simp only [split, List.mem_append, List.mem_cons] at old member
    rcases member with member | rfl | member
    · exact old c (by simp [member])
    · exact plain tight
    · exact old c (by simp [member])

/-- Two adjoining blocks take the place of one unlisted block. -/
theorem divide (stable : Stable L heads) (split : s.blocks = pre ++ b :: post)
    (start : c.addr = b.addr) (adjoin : d.addr = c.addr + c.size) (sum : c.size + d.size = b.size)
    (whole : c.size % 8 = 0) (least : L.least ≤ c.size) (least' : L.least ≤ d.size)
    (unlisted : ∀ k, b.addr ∉ s.lists k) (foot : Footer L.loose c footer)
    (foot' : Footer L.loose d footer') (plain : L.loose = false → c.tag = false ∧ d.tag = false) :
    Rep L heads { h with
        mem := brand (brand h.mem c.addr c.size c.word footer) d.addr d.size d.word footer' }
        { s with blocks := pre ++ c :: d :: post } ∧
      Keeps h { h with
        mem := brand (brand h.mem c.addr c.size c.word footer) d.addr d.size d.word footer' }
        (pre ++ post) := by
  obtain ⟨threaded, kept⟩ :=
    rep.threaded.divide split start adjoin sum whole least least' unlisted foot foot'
  have room := L.room
  refine ⟨⟨threaded, ?_, ?_, rep.unmarked, rep.brk, ⟨rep.area.limit, rep.area.fits⟩⟩,
    ⟨rfl, rfl, fun c member _ => kept c member⟩⟩
  · -- Again the tags are written behind the list heads.
    refine stable h _ s.lists rfl rfl (fun x anchor => ?_) rep.heads
    have below := rep.threaded.anchor_below anchor (b := b) (by simp [split])
    show brand (brand h.mem _ _ _ _) _ _ _ _ x = h.mem x
    rw [brand_other (by omega) (by omega) (by omega), brand_other (by omega) (by omega) (by omega)]
  · -- Both parts keep the rule for tags.
    intro tight e member
    have old := rep.plain tight
    simp only [split, List.mem_append, List.mem_cons] at old member
    rcases member with member | rfl | rfl | member
    · exact old e (by simp [member])
    · exact (plain tight).1
    · exact (plain tight).2
    · exact old e (by simp [member])

/-- New space at the end of the heap is one more free block, which is on no shelf yet. -/
theorem grow (stable : Stable L heads) (whole : size % 8 = 0) (least : L.least ≤ size)
    (room : h.memBrk + size ≤ h.memMaxAddr) :
    Rep L heads { h with mem := grown h.mem h.memBrk size, memBrk := h.memBrk + size }
        { s with
          blocks := s.blocks ++ [{ addr := s.brk, size := size, used := false }]
          brk := s.brk + size
          mark := false } ∧
      Keeps h { h with mem := grown h.mem h.memBrk size, memBrk := h.memBrk + size } s.blocks := by
  have limit := rep.area.fits
  -- The new block carries the old epilogue's header, and a new epilogue follows it.
  obtain ⟨threaded, kept⟩ := rep.threaded.grow whole least (by omega)
  obtain ⟨lo, low, _, fixed, tiles⟩ := rep.tiles
  have rise := tiles.le
  have wide := L.room
  refine ⟨⟨rep.brk ▸ threaded, ?_, ?_, fun _ => rfl, by rw [← rep.brk], ⟨rep.area.limit, rep.area.fits⟩⟩,
    ⟨rfl, rfl, fun c member _ => kept c member⟩⟩
  · -- The list heads lie in front of the new space.
    refine stable h _ s.lists rfl rfl (fun x anchor => ?_) rep.heads
    obtain ⟨c, member, ⟨_, upper⟩, _⟩ := anchor
    have inside := (fixed.within member).upper
    show grown h.mem h.memBrk size x = h.mem x
    unfold grown
    rw [storeWord_other (by omega)]
    exact brand_other (by omega) (by omega) (by omega)
  · -- The new block has no tag.
    intro tight c member
    rcases List.mem_append.mp member with member | member
    · exact rep.plain tight c member
    · obtain rfl := List.mem_singleton.mp member
      rfl

/-- The new space has an address that is on no shelf. -/
theorem fresh (k : Nat) : s.brk ∉ s.lists k := by
  intro listed
  obtain ⟨c, block, here, _⟩ := rep.threaded.listed k s.brk listed
  obtain ⟨_, _, _, _, tiles⟩ := rep.tiles
  have inside := tiles.within block
  have upper := inside.upper
  have least := inside.least
  have brk := rep.brk
  omega

/-- A block is on no shelf but the one for its size. -/
theorem not_listed {j k : Nat} (member : b ∈ s.blocks) (class_ : L.style.cls b.size = some k)
    (other : j ≠ k) : b.addr ∉ s.lists j := by
  intro listed
  obtain ⟨c, block, here, _, class'⟩ := rep.threaded.listed j b.addr listed
  obtain ⟨_, _, _, _, tiles⟩ := rep.tiles
  obtain rfl := tiles.addr_inj block member here
  exact other (Option.some.inj (class'.symm.trans class_))

/-- Bridging over a listed block takes it off its shelf. -/
theorem unlink {k : Nat} {left right : List Nat} {g : γ} (member : b ∈ s.blocks)
    (class_ : L.style.cls b.size = some k)
    (cut : Cut L h.mem h.memStartBrk s.blocks s.lists k b.addr left right)
    (word : L.before h.memStartBrk k < 2 ^ 32)
    (bridged : ∀ x, ¬ L.Anchor h.memStartBrk x → m x = bridge L.links h.mem (L.before h.memStartBrk k)
      left.getLast? (L.chain h.memStartBrk k right).head? null x)
    (found : heads { h with mem := m, statics := g } (s.drop b.addr).lists) :
    Rep L heads { h with mem := m, statics := g } (s.drop b.addr) ∧
      Keeps h { h with mem := m, statics := g } s.blocks := by
  obtain ⟨threaded, bytes⟩ := rep.threaded.unlink (L := L) cut word (show (s.drop b.addr).lists k = _ from rfl)
    (fun j other => List.erase_of_not_mem (rep.not_listed member class_ other)) bridged
  exact ⟨⟨threaded, found, rep.plain, rep.unmarked, rep.brk, ⟨rep.area.limit, rep.area.fits⟩⟩, ⟨rfl, rfl, bytes⟩⟩

/-- A free block that is linked in at the front of its list is on its shelf. -/
theorem push {k : Nat} {g : γ} (member : b ∈ s.blocks) (free : b.used = false)
    (class_ : L.style.cls b.size = some k) (fresh : ∀ j, b.addr ∉ s.lists j)
    (own : loadWord m (b.addr + L.links.prev) = L.before h.memStartBrk k)
    (next : loadWord m (b.addr + L.links.next) = (L.chain h.memStartBrk k (s.lists k)).headD null)
    (back : ∀ c ∈ (L.chain h.memStartBrk k (s.lists k)).head?,
      loadWord m (c + L.links.prev) = b.addr)
    (same : ∀ x, ¬ L.Anchor h.memStartBrk x → (x < b.addr ∨ b.addr + L.links.width ≤ x) →
      (∀ c ∈ (L.chain h.memStartBrk k (s.lists k)).head?,
        x < c + L.links.prev ∨ c + L.links.prev + 4 ≤ x) → m x = h.mem x)
    (found : heads { h with mem := m, statics := g } (s.file L.style b).lists) :
    Rep L heads { h with mem := m, statics := g } (s.file L.style b) ∧
      Keeps h { h with mem := m, statics := g } s.blocks ∧
      ∀ x, b.addr + L.links.width ≤ x → x < b.addr + b.size → m x = h.mem x := by
  -- The block comes before the old front of its list, and the other lists stay.
  obtain ⟨threaded, bytes, inner⟩ := rep.threaded.push (L := L) member free class_ fresh
    (show (s.file L.style b).lists k = _ from if_pos class_)
    (fun j other => if_neg fun here => other (Option.some.inj (here.symm.trans class_))) own next back same
  exact ⟨⟨threaded, found, rep.plain, rep.unmarked, rep.brk, ⟨rep.area.limit, rep.area.fits⟩⟩, ⟨rfl, rfl, bytes⟩, inner⟩

end

end Rep

end MallocLab
