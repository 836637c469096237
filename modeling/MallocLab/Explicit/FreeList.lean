import MallocLab.Explicit.Rep

/-! `removeBlock` and `putFreeBlock` edit the free list and nothing else. -/

namespace MallocLab.Explicit

variable {h : State} {s : Shelves} {b : Blk} {p : Nat}

/-- The link to the block before is the first word of the payload. -/
theorem precFreep_eq (p : Nat) : precFreep p = p + links.prev := rfl

/-- `SUCC_FREEP` of a node lies below the top of the address space. -/
theorem rep_succ (rep : Rep layout heads h s) (node : layout.Node h.memStartBrk s.blocks p) :
    succFreep p = p + links.next := by
  have fits : p + 8 < 2 ^ 32 := (rep.threaded.word node).2
  exact add32_eq (by unfold wsize; omega)

/-- Removing a listed block bridges the list over it, and no null link is followed on the way. -/
theorem removeBlock_result (rep : Rep layout heads h s) {left right : List Nat}
    (cut : Cut layout h.mem h.memStartBrk s.blocks s.lists 0 p left right) :
    removeBlock h p = some { h with
      mem := bridge links h.mem null left.getLast? (layout.chain h.memStartBrk 0 right).head? null
      statics := { h.statics with freeListp := (left ++ right).headD (h.memStartBrk + 8) } } := by
  have width : layout.links.width = 8 := rfl
  -- Some node `c` follows the block, and be it the prologue.
  obtain ⟨c, rest, chained⟩ := exists_chain h.memStartBrk right
  have nextHead : right.headD (h.memStartBrk + 8) = c := by
    rw [← headD_chain, chained, List.headD_cons]
  -- The code never follows a null link, since `c` is a node.
  have nextReal := (rep.threaded.word (cut.owned c (by simp [chained]))).1
  have nextApart := cut.distinct c (by simp [chained])
  have prevHere : h.get (precFreep p) = left.getLastD null := cut.prev
  have nextHere : h.get (succFreep p) = c := by
    have next := cut.next
    rw [chained, List.headD_cons] at next
    rw [Heap.get, rep_succ rep cut.self]
    exact next
  have head : h.statics.freeListp = (s.lists 0).headD (h.memStartBrk + 8) := rep.heads
  rw [cut.split] at head
  unfold removeBlock
  rcases List.eq_nil_or_concat left with rfl | ⟨front, b, rfl⟩
  · -- The block is the first of the list, so only its successor's link changes.
    -- Its new successor link leaves the links of the removed block alone, which the code reads again.
    have after : (h.put (precFreep c) null).get (succFreep p) = c := by
      rw [Heap.get, Heap.put_mem, precFreep_eq, rep_succ rep cut.self,
        loadWord_storeWord_other (by simp only [links, Offsets.prevFirst]; omega), ← rep_succ rep cut.self]
      exact nextHere
    rw [if_pos (by rw [head]; rfl), nextHere]
    simp only [Heap.putChecked, if_neg nextReal, Option.bind_eq_bind, Option.bind_some,
      Option.pure_def, after, List.nil_append, nextHead]
    rw [chained]
    rfl
  · rw [List.concat_eq_append] at *
    have beforeReal := (rep.threaded.word (cut.owned b (by simp))).1
    have beforeApart := cut.distinct b (by simp)
    have beforeSucc := rep_succ rep (cut.owned b (by simp))
    rw [List.getLastD_concat] at prevHere
    -- The first block of the list is another one.
    have inner : p ≠ h.statics.freeListp := by
      rw [head]
      cases front with
      | nil =>
        simp only [List.nil_append, List.cons_append, List.headD_cons]
        omega
      | cons d front =>
        have := cut.distinct d (by simp)
        simp only [List.cons_append, List.headD_cons]
        omega
    have after : (h.put (succFreep b) c).get (succFreep p) = c := by
      rw [Heap.get, Heap.put_mem, beforeSucc, rep_succ rep cut.self,
        loadWord_storeWord_other (by simp only [links, Offsets.prevFirst]; omega), ← rep_succ rep cut.self]
      exact nextHere
    have back : (h.put (succFreep b) c).get (precFreep p) = b := by
      rw [Heap.get, Heap.put_mem, precFreep_eq, beforeSucc,
        loadWord_storeWord_other (by simp only [links, Offsets.prevFirst]; omega)]
      exact prevHere
    have headed : (front ++ [b] ++ right).headD (h.memStartBrk + 8) = h.statics.freeListp := by
      rw [head]
      cases front <;> rfl
    rw [if_neg inner, headed]
    simp only [Heap.putChecked, prevHere, nextHere, if_neg beforeReal, if_neg nextReal,
      Option.bind_eq_bind, Option.bind_some, after, back]
    rw [chained, List.getLast?_concat, beforeSucc]
    rfl

/-- Listing a free block puts it in front of the old first node. -/
theorem putFreeBlock_result (rep : Rep layout heads h s) {c : Nat} {rest : List Nat}
    (chained : layout.chain h.memStartBrk 0 (s.lists 0) = c :: rest)
    (self : layout.Node h.memStartBrk s.blocks p) :
    putFreeBlock h p = some { h with
      mem := storeWord (storeWord (storeWord h.mem (p + 4) c) p null) c p
      statics := { h.statics with freeListp := p } } := by
  -- The old first node is a block or the prologue.
  have next : layout.Node h.memStartBrk s.blocks c :=
    rep.threaded.node (k := 0) (by simp [chained])
  have headed : h.statics.freeListp = c := by
    rw [show h.statics.freeListp = _ from rep.heads, ← headD_chain, chained, List.headD_cons]
  -- The pointer is not null, so the check passes.
  unfold putFreeBlock
  simp only [Heap.putChecked, Heap.put_statics, headed, if_neg (rep.threaded.word next).1,
    Option.bind_eq_bind, Option.bind_some, Option.pure_def, rep_succ rep self]
  rfl

/-- `removeBlock` takes a block off the stack, and `putFreeBlock` puts it on top. -/
theorem keeper : Keeper layout heads removeBlock fun h bp _ => putFreeBlock h bp where
  stable := heads_stable
  remove := by
    intro h s b rep member free filed
    -- The block is on the stack, so the stack is cut at it.
    obtain ⟨left, right, cut⟩ := rep.threaded.cut (filed 0 rfl)
    obtain ⟨rep', keeps⟩ := rep.unlink (g := { h.statics with
      freeListp := (left ++ right).headD (h.memStartBrk + 8) }) member rfl cut
      (show null < 2 ^ 32 by decide) (fun _ _ => rfl)
      (show _ = ((s.lists 0).erase b.addr).headD _ by rw [cut.erase])
    exact ⟨_, removeBlock_result rep cut, rep', keeps⟩
  insert := by
    intro h s b rep member free fresh
    have self : layout.Node h.memStartBrk s.blocks b.addr := .inr ⟨b, member, rfl, free⟩
    obtain ⟨c, rest, chained⟩ := exists_chain h.memStartBrk (s.lists 0)
    have next : layout.Node h.memStartBrk s.blocks c :=
      rep.threaded.node (k := 0) (by simp [chained])
    have word := (rep.threaded.word self).2
    have nextWord := (rep.threaded.word next).2
    -- The block is not on the stack yet, and it is not the prologue.
    have distinct : b.addr ≠ c := by
      rintro rfl
      have inside : b.addr ∈ layout.chain h.memStartBrk 0 (s.lists 0) := by simp [chained]
      rcases List.mem_append.mp inside with inside | inside
      · exact fresh 0 inside
      · exact rep.threaded.sentinel_ne (k := 0) member (Option.mem_toList.mp inside)
    -- Two nodes share no link word, so the three stores do not disturb one another.
    have apart := rep.threaded.apart self next distinct
    have width : layout.links.width = 8 := rfl
    -- The three stores are the links of the new block and the link back to it.
    obtain ⟨rep', keeps, inner⟩ := rep.push (k := 0)
      (m := storeWord (storeWord (storeWord h.mem (b.addr + 4) c) b.addr null) c b.addr)
      (g := { h.statics with freeListp := b.addr }) member free rfl fresh
      (by
        show loadWord _ b.addr = null
        rw [loadWord_storeWord_other (by omega), loadWord_storeWord (by decide)])
      (by
        show loadWord _ (b.addr + 4) = _
        rw [loadWord_storeWord_other (by omega), loadWord_storeWord_other (by omega),
          loadWord_storeWord (by omega), chained, List.headD_cons])
      (by
        rw [chained]
        rintro d here
        obtain rfl := Option.mem_some_iff.mp here
        show loadWord _ c = b.addr
        rw [loadWord_storeWord (by omega)])
      (by
        rw [chained]
        intro x _ off back
        have first : x < c ∨ c + 4 ≤ x := back c rfl
        rw [storeWord_other first, storeWord_other (by omega), storeWord_other (by omega)])
      rfl
    exact ⟨_, putFreeBlock_result rep chained self, rep', keeps, inner⟩

end MallocLab.Explicit
