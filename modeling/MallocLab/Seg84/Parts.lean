import MallocLab.Seg84.Mm
import MallocLab.Segregated.Lists
import MallocLab.Skeleton.Shelved

/-! The functions of `segreted(84).c` do to the blocks and the shelves what an abstract allocator does. -/

namespace MallocLab.Seg84

open Segregated

/-- One shelf for every power of two; a leftover of sixteen bytes is a block. -/
def style : Style where
  cls := fun size => some (sizeClass size)
  closed := Blk.used
  splits := fun left => 16 ≤ left
  high := fun _ => false

/-- The first block that is large enough on the shelves from the class of the size on. -/
def pick (s : Shelves) (a : Nat) : Option Nat := pickList s a (s.fits a)

/-- The abstract allocator that `segreted(84).c` refines. -/
def policy : Skeleton.Policy Shelves := Skeleton.shelved style Skeleton.adjustedSize pick

/-- `PRED` is the first payload word of a block and `SUCC` the second. -/
abbrev links : Offsets := .prevFirst

/-- The lists of the file in memory. -/
abbrev layout : Layout := Segregated.layout links rfl false style

/-- Every block is filed on the shelf of its class. -/
theorem classed : Classed style := fun _ => rfl

/-- The links of a block are the two words of its payload that the code means. -/
theorem spells : Spells entries links := fun p word => ⟨add32_eq (by unfold wsize; omega), rfl⟩

variable {h : State} {s : Shelves} {b : Blk}

/-- Linking in a block sets its links, then the link back to it, and then the head of its list. -/
theorem insertBlock_result (rep : Rep layout heads h s) (member : b ∈ s.blocks) (free : b.used = false) :
    insertBlock h b.addr b.size =
      some (setList { h with mem := linkFront links h.mem b.addr (s.lists (sizeClass b.size)).head? }
        (sizeClass b.size) b.addr) := by
  obtain ⟨_, next, prev⟩ := entries_eq spells rep (.inr ⟨b, member, rfl, free⟩)
  have word : b.size < 2 ^ 32 := by
    obtain ⟨_, _, _, _, tiles⟩ := rep.tiles
    have := (tiles.within member).upper
    have := rep.arena.high
    omega
  unfold insertBlock
  rw [insertPlace_result classed rep word]
  simp only [Option.bind_eq_bind, Option.bind_some, Option.pure_def]
  cases listed : s.lists (sizeClass b.size) with
  | nil =>
    rw [if_neg (by simp), if_neg (by simp)]
    simp only [show succFree b.addr = b.addr + links.next from next]
    rfl
  | cons c rest =>
    obtain ⟨d, block, rfl, free', _⟩ := rep.threaded.listed _ c (by rw [listed]; exact List.mem_cons_self)
    obtain ⟨real, _, _⟩ := entries_eq spells rep (.inr ⟨d, block, rfl, free'⟩)
    rw [List.headD_cons, if_pos real, if_neg (by simp)]
    simp only [show succFree b.addr = b.addr + links.next from next]
    rfl

/-- `removeBlock` and `insertBlock` keep the lists. -/
theorem keeper : Keeper layout heads removeBlock insertBlock where
  stable := heads_stable
  remove := fun rep member _ filed => deleteNode_rep spells classed rep member filed
  insert := by
    intro h s b rep member free fresh
    obtain ⟨rep', keeps, inner⟩ := linkFront_rep classed rep member free fresh
    exact ⟨_, insertBlock_result rep member free, rep', keeps, inner⟩

/-- The turns of `coalesce` remove the free neighbours, mark the merged block and list it. -/
theorem turns : Turns layout coalesce removeBlock insertBlock insertBlock where
  alone := by
    intro h h' a b c seen prevUsed nextUsed done
    unfold coalesce
    simp only [seen.prev, seen.prevAlloc, seen.next, seen.nextAlloc, seen.size, prevUsed, nextUsed]
    -- Both neighbours are in use, so the block is only listed.
    rw [if_pos (by decide)]
    exact bind_step done rfl
  next := by
    intro h h₁ h' a b c seen prevUsed nextFree removed seen₁ done
    -- After the removal the headers around the block are as they were.
    have ⟨_, low, adjoin, onward, top, whole, least⟩ := seen₁
    have sum := seen₁.sum_next
    unfold coalesce
    simp only [seen.prev, seen.prevAlloc, seen.next, seen.nextAlloc, seen.size, prevUsed, nextFree]
    -- The block takes over the one behind, and its old footer is inside the merged block.
    rw [if_neg (by decide), if_pos (by decide)]
    simp only [removed, Option.bind_eq_bind, Option.bind_some, seen₁.next, seen₁.nextSize, sum]
    rw [put_tags (by omega) (by omega) (by omega) (by omega) (by omega)]
    exact bind_step done rfl
  prev := by
    intro h h₁ h' a b c seen prevFree nextUsed wide removed seen₁ done _
    -- The merged block begins where the one before did.
    obtain ⟨sum, packed⟩ := seen₁.sum_prev
    obtain ⟨first, branded, second⟩ := seen₁.brandBack wide (a.size + b.size + 0) (a.size + b.size + 0)
    unfold coalesce
    simp only [seen.prev, seen.prevAlloc, seen.next, seen.nextAlloc, seen.size, prevFree, nextUsed]
    -- The footer is written first, so it is found through the header that is still the old one.
    rw [if_neg (by decide), if_neg (by decide), if_pos (by decide)]
    simp only [removed, Option.bind_eq_bind, Option.bind_some, seen₁.prev, seen₁.prevSize, sum, packed,
      first, branded, second]
    exact bind_step done rfl
  both := by
    intro h h₁ h₂ h' a b c seen prevFree nextFree wide removed₁ seen₁ removed₂ seen₂ enough _ _ foot₂ footSize₂ done _
    -- Two blocks have been removed by now.
    obtain ⟨sum, packed⟩ := seen₂.sum_both
    obtain ⟨ahead, foot, branded, second⟩ := seen₂.brandAround wide enough foot₂
      (a.size + b.size + c.size + 0) (a.size + b.size + c.size + 0)
    unfold coalesce
    simp only [seen.prev, seen.prevAlloc, seen.next, seen.nextAlloc, seen.size, prevFree, nextFree]
    -- The header of the block before and the footer of the one behind become those of the whole.
    rw [if_neg (by decide), if_neg (by decide), if_neg (by decide)]
    simp only [removed₁, removed₂, Option.bind_eq_bind, Option.bind_some, seen₁.next, seen₂.prev,
      seen₂.next, seen₂.prevSize, foot₂, footSize₂, sum, packed, ahead, foot, branded, second]
    exact bind_step done rfl

/-- The parts of `segreted(84).c` keep the lists of the classes. -/
theorem scheme : Skeleton.Scheme layout heads coalesce removeBlock place insertBlock insertBlock where
  keeper := keeper
  single := keeper
  turns := turns
  places := Skeleton.place_rep keeper (Skeleton.settles_coalesce keeper turns) rfl rfl (fun _ => rfl) fun _ => rfl
  tight := rfl
  small := by decide
  closed := rfl

/-- `find_fit` returns the first block that is large enough on the shelves, else null. -/
theorem findFit_result (rep : Rep layout heads h s) {a : Nat} (positive : a ≠ 0) :
    findFit h a = some (h, (pick s a).getD null) := by
  refine congrArg (Option.map fun bp => (h, bp)) (searchLists_result spells rep positive ?_)
  intro b block _
  obtain ⟨pre, post, _, located⟩ := Skeleton.Rep.locate rep block
  simp [Shelves.fits, located]

/-- The functions of `segreted(84).c` are the parts of its abstract allocator. -/
theorem parts (base : Nat) : Skeleton.Parts policy base (Skeleton.Stands layout heads base)
    Skeleton.adjustedSize findFit (Skeleton.placed place) (Skeleton.extended extendHeap) mmFree := by
  refine scheme.parts (fun positive small => ⟨rfl, (Skeleton.adjustedSize_adjusted positive small).2⟩)
    (fun fits _ => fits.least) (fun stands adjusted => findFit_result stands.rep ?_) ?_
  · have := adjusted.least
    omega
  · intro h s n a p stands _ found
    obtain ⟨k, _, _, member, large⟩ := pickList_some found
    obtain ⟨b, block, rfl, free, _⟩ := stands.rep.threaded.listed k p member
    obtain ⟨pre, post, _, located⟩ := Skeleton.Rep.locate stands.rep block
    rw [Shelves.fits_eq located, decide_eq_true_eq] at large
    exact ⟨b, block, rfl, free, large⟩

end MallocLab.Seg84
