import MallocLab.Seg98.Words
import MallocLab.Skeleton.Coalesce

/-! What the list operations and `coalesce` do to the shelves, for both files. -/

namespace MallocLab.Seg98

open Segregated

variable {f : File} {h : State} {s : Shelves} {a b c : Blk} {front pre post : List Blk}

variable (spells : Spells f.entries links)
include spells

/-- Linking in a block at the front of its list sets its links, the link back to it, and the head. -/
theorem insertNode_result (rep : Rep (layout f) heads h s) (member : b ∈ s.blocks) (free : b.used = false)
    (fresh : ∀ k, b.addr ∉ s.lists k) :
    insertNode f h b.addr b.size =
      some (setList { h with mem := linkFront links h.mem b.addr (s.lists (sizeClass b.size)).head? }
        (sizeClass b.size) b.addr) := by
  have self : (layout f).Node h.memStartBrk s.blocks b.addr := .inr ⟨b, member, rfl, free⟩
  obtain ⟨_, next, prev⟩ := entries_eq spells rep self
  have word : b.size < 2 ^ 32 := by
    obtain ⟨_, _, _, _, tiles⟩ := rep.tiles
    have := (tiles.within member).upper
    have := rep.arena.high
    omega
  unfold insertNode
  rw [insertPlace_result classed rep word]
  simp only [Option.bind_eq_bind, Option.bind_some, Option.pure_def]
  cases listed : s.lists (sizeClass b.size) with
  -- The list is empty, so there is nothing to link back.
  | nil =>
    rw [if_neg (by simp), if_neg (by simp), next, prev]
    rfl
  | cons c rest =>
    -- The first block of the list gets a link back.
    obtain ⟨d, block, rfl, free', _⟩ := rep.threaded.listed _ c (by rw [listed]; exact List.mem_cons_self)
    have node : (layout f).Node h.memStartBrk s.blocks d.addr := .inr ⟨d, block, rfl, free'⟩
    obtain ⟨real, _, back⟩ := entries_eq spells rep node
    have other : b.addr ≠ d.addr := fun same => fresh (sizeClass b.size) (by simp [listed, same])
    have apart := rep.threaded.apart self node other
    have width : (layout f).links.width = 8 := rfl
    have last : links.prev = 4 := rfl
    rw [List.headD_cons, if_pos real, if_neg (by simp), next, prev, back]
    -- The code links the old first block back before it ends the list at the new one.
    simp only [Heap.put, linkFront, List.head?_cons, Option.getD_some]
    rw [storeWord_comm (q := b.addr + links.prev) (by omega)]

/-- `delete_node` and `insert_node` keep the lists. -/
theorem keeper : Keeper (layout f) heads (removeNode f) (insertNode f) where
  stable := heads_stable
  remove := fun rep member _ filed => deleteNode_rep spells classed rep member filed
  insert := by
    intro h s b rep member free fresh
    obtain ⟨rep', keeps, inner⟩ := linkFront_rep classed rep member free fresh
    exact ⟨_, insertNode_result spells rep member free fresh, rep', keeps, inner⟩

end MallocLab.Seg98
