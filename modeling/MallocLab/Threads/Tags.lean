import MallocLab.Shelves.Tags
import MallocLab.Threads.Rep

/-! Rewriting the tag in the header after a block, whether or not the block there is on a list. -/

namespace MallocLab

variable {γ : Type} {L : Layout} {heads : Heap γ → (Nat → List Nat) → Prop} {h : Heap γ} {s : Shelves}
variable {m m' : Mem} {base brk lo hi : Nat} {b c : Blk} {bs bs' pre post : List Blk}
variable {lists : Nat → List Nat} {mark mark' tag loose : Bool}

/-- A header belongs to no payload. -/
theorem Arena.header_offPayload (arena : Arena loose m lo hi bs mark) (member : b ∈ bs) (within_ : c ∈ bs) {x : Nat}
    (lower : c.addr ≤ x + 4) (upper : x < c.addr) : ¬ Payload b x := by
  rintro ⟨from_, until_⟩
  rcases arena.tiles.apart member within_ with rfl | apart
  · omega
  · have := (arena.within within_).least
    omega

/-- The header after the last block belongs to no payload. -/
theorem Arena.closing_offPayload (arena : Arena loose m lo hi bs mark) (member : b ∈ bs) {x : Nat}
    (lower : hi ≤ x + 4) : ¬ Payload b x := by
  rintro ⟨from_, until_⟩
  have := (arena.within member).upper
  omega

/-- When only tags change, and no payload byte does, the lists stay as they are. -/
theorem Threaded.alike (threaded : Threaded L m base brk bs lists mark)
    (arena : Arena L.loose m' (base + 8) brk (L.fixed base ++ bs') mark') (alike : Alike bs bs')
    (same : ∀ c ∈ L.fixed base ++ bs, ∀ x, Payload c x → m' x = m x) :
    Threaded L m' base brk bs' lists mark' where
  arena := arena
  -- The sizes are the same ones.
  least := by
    intro c member
    obtain ⟨d, member', twin⟩ := alike.mem member
    exact (Blk.bare_eq twin).2.1 ▸ threaded.least d member'
  -- So are the blocks that are listed.
  listed := by
    intro k p member
    obtain ⟨d, member', here, free, class_⟩ := threaded.listed k p member
    obtain ⟨c, block, twin⟩ := alike.symm.mem member'
    obtain ⟨addr, size, flag⟩ := Blk.bare_eq twin
    exact ⟨c, block, addr.trans here, flag.trans free, size ▸ class_⟩
  nodup := threaded.nodup
  -- The links lie in payloads, which have not changed.
  linked := by
    intro k
    apply (threaded.linked k).congr
    intro p member x lower upper
    obtain ⟨d, block, rfl, wide, _⟩ := threaded.block (threaded.node member)
    exact same d block x ⟨lower, by omega⟩

/-- Rewriting the tag of the epilogue. -/
theorem Threaded.retagLast (tag : Bool) (threaded : Threaded L m base brk bs lists mark) :
    Threaded L (storeWord m (brk - 4) (epilogue brk tag).word) base brk bs lists tag ∧
      ∀ c ∈ L.fixed base ++ bs, ∀ x, Payload c x → storeWord m (brk - 4) (epilogue brk tag).word x = m x := by
  have arena := threaded.arena
  have low := arena.low
  have rise := arena.tiles.le
  have bit := Bool.toNat_lt_two tag
  -- The epilogue is in no payload.
  have same : ∀ c ∈ L.fixed base ++ bs, ∀ x, Payload c x →
      storeWord m (brk - 4) (epilogue brk tag).word x = m x := by
    intro c member x inside
    refine storeWord_other ?_
    by_contra here
    exact arena.closing_offPayload member (by omega) inside
  refine ⟨threaded.alike { arena with tags := ?_, closing := ?_ } rfl same, same⟩
  · -- Nor is it one of the other tags.
    intro c member
    have inside := arena.within member
    have upper := inside.upper
    have lower := inside.lower
    have least := inside.least
    exact (arena.tags c member).congr least (by omega) (fun x _ _ => storeWord_other (by omega))
      fun x _ _ => storeWord_other (by omega)
  · -- It is a word.
    refine loadWord_storeWord ?_
    show 0 + (2 * tag.toNat + true.toNat) < 2 ^ 32
    rw [Bool.toNat_true]
    omega

/-- Rewriting the tag of a block. -/
theorem Threaded.retagBlock (tag : Bool) (threaded : Threaded L m base brk (pre ++ c :: post) lists mark) :
    Threaded L (storeWord m (c.addr - 4) { c with tag := tag }.word) base brk (pre ++ { c with tag := tag } :: post)
        lists mark ∧
      ∀ d ∈ L.fixed base ++ (pre ++ c :: post), ∀ x, Payload d x →
        storeWord m (c.addr - 4) { c with tag := tag }.word x = m x := by
  have arena := threaded.arena
  have low := arena.low
  have high := arena.high
  have member : c ∈ L.fixed base ++ (pre ++ c :: post) := by simp
  have inside := arena.within member
  have lower := inside.lower
  have upper := inside.upper
  have least := inside.least
  have used := Bool.toNat_lt_two c.used
  have bit := Bool.toNat_lt_two tag
  -- The header is in no payload.
  have same : ∀ d ∈ L.fixed base ++ (pre ++ c :: post), ∀ x, Payload d x →
      storeWord m (c.addr - 4) { c with tag := tag }.word x = m x := by
    intro d block x payload
    refine storeWord_other ?_
    by_contra here
    exact arena.header_offPayload block member (by omega) (by omega) payload
  refine ⟨threaded.alike ?_ (by simp [Alike, Blk.bare]) same, same⟩
  -- The block is the only one whose tags change.
  have covers : Tiles c.addr [c] (c.addr + c.size) := ⟨rfl, inside.whole, least, rfl⟩
  have recovers : Tiles c.addr [{ c with tag := tag }] (c.addr + c.size) := ⟨rfl, inside.whole, least, rfl⟩
  have arena' : Arena L.loose m (base + 8) brk (L.fixed base ++ pre ++ [c] ++ post) mark := by simpa using arena
  have tagged : ∀ d ∈ [{ c with tag := tag }],
      Tagged L.loose (storeWord m (c.addr - 4) { c with tag := tag }.word) d := by
    rw [List.forall_mem_singleton]
    refine ⟨loadWord_storeWord ?_, ?_⟩
    · show c.size + (2 * tag.toNat + c.used.toNat) < 2 ^ 32
      omega
    · -- The footer is another word, and it says nothing about the tag.
      show Footer L.loose { c with tag := tag } (loadWord _ (c.addr + c.size - 8))
      rw [loadWord_storeWord_other (by omega)]
      exact (arena.tags c member).footer
  simpa using arena'.retile covers (by simp) recovers tagged fun x outside => storeWord_other (by omega)

/-- Rewriting the tag in the header after a block changes nothing else. -/
theorem Rep.retagNext (rep : Rep L heads h s) (stable : Stable L heads) (loose : L.loose = true)
    (located : locate s.blocks b.addr = some (pre, b, post)) :
    Rep L heads (h.put (b.addr + b.size - 4) { following post h.memBrk s.mark with tag := tag }.word)
        (s.retagNext b.addr tag) ∧
      Keeps h (h.put (b.addr + b.size - 4) { following post h.memBrk s.mark with tag := tag }.word) s.blocks := by
  obtain ⟨split, _⟩ := locate_some located
  have threaded := rep.threaded
  have tight : ∀ {P : Prop}, L.loose = false → P := fun no => nomatch loose.symm.trans no
  -- What follows the block begins where it ends.
  have ends : (following post h.memBrk s.mark).addr = b.addr + b.size := by
    have arena := rep.arena
    rw [split, ← List.append_assoc] at arena
    exact arena.following_addr
  rw [← ends]
  -- Nothing follows, so the epilogue is tagged.
  cases post with
  | nil =>
    rw [Shelves.retagNext_last located]
    obtain ⟨threaded', same⟩ := threaded.retagLast tag
    refine ⟨⟨threaded', ?_, rep.plain, tight, rep.brk, ⟨rep.area.limit, rep.area.fits⟩⟩,
      ⟨rfl, rfl, fun c member _ x inside => same c (by simp [member]) x inside⟩⟩
    exact stable h _ s.lists rfl rfl (fun x anchor => by
      obtain ⟨c, fixed, inside, _⟩ := anchor
      exact same c (by simp [fixed]) x inside) rep.heads
  -- The block that follows is tagged.
  | cons c post =>
    rw [Shelves.retagNext_next located]
    have split' : s.blocks = (pre ++ [b]) ++ c :: post := by simp [split]
    rw [split'] at threaded
    obtain ⟨threaded', same⟩ := threaded.retagBlock tag
    rw [← split'] at same
    refine ⟨⟨?_, ?_, tight, rep.unmarked, rep.brk, ⟨rep.area.limit, rep.area.fits⟩⟩,
      ⟨rfl, rfl, fun d member _ x inside => same d (by simp [member]) x inside⟩⟩
    · rw [List.append_assoc] at threaded'
      exact threaded'
    · exact stable h _ s.lists rfl rfl (fun x anchor => by
        obtain ⟨d, fixed, inside, _⟩ := anchor
        exact same d (by simp [fixed]) x inside) rep.heads

end MallocLab
