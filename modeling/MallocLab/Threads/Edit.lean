import MallocLab.Threads.Layout

/-! Taking a block off its list and putting a block on one. -/

namespace MallocLab

variable {L : Layout} {m m' : Mem} {base brk k p : Nat} {b : Blk} {bs : List Blk}
variable {lists lists' : Nat → List Nat} {mark : Bool} {left right : List Nat}

/-- The parts of a list around one of its blocks, and the links that the block holds. -/
structure Cut (L : Layout) (m : Mem) (base : Nat) (bs : List Blk) (lists : Nat → List Nat)
    (k p : Nat) (left right : List Nat) : Prop where
  split : lists k = left ++ p :: right
  shape : L.chain base k (lists k) = left ++ p :: L.chain base k right
  self : L.Node base bs p
  owned : ∀ q ∈ left ++ L.chain base k right, L.Node base bs q
  distinct : ∀ q ∈ left ++ L.chain base k right,
    q + L.links.width + 8 ≤ p ∨ p + L.links.width + 8 ≤ q
  prev : loadWord m (p + L.links.prev) = left.getLastD (L.before base k)
  next : loadWord m (p + L.links.next) = (L.chain base k right).headD null

/-- A listed block has a place in its list. -/
theorem Threaded.cut (threaded : Threaded L m base brk bs lists mark) (member : p ∈ lists k) : ∃ left right, Cut L m base bs lists k p left right := by
  obtain ⟨left, right, split⟩ := List.append_of_mem member
  have shape : L.chain base k (lists k) = left ++ p :: L.chain base k right := by
    simp [Layout.chain, split]
  have nodup := threaded.chain_nodup k
  have linked := threaded.linked k
  -- The list is cut at the block.
  rw [shape] at nodup linked
  have self : L.Node base bs p := threaded.node (by rw [shape]; simp)
  have owned : ∀ q ∈ left ++ L.chain base k right, L.Node base bs q := by
    intro q inside
    refine threaded.node (k := k) ?_
    exact shape ▸ mem_around inside
  -- The blocks on both sides are others, since nothing is listed twice.
  refine ⟨left, right, split, shape, self, owned, fun q inside => ?_, linked.links.1, linked.links.2⟩
  refine threaded.apart (owned q inside) self ?_
  rintro rfl
  exact (List.nodup_cons.mp (List.perm_middle.nodup_iff.mp nodup)).1 inside

/-- A list without one of its blocks is the two parts around it. -/
theorem Cut.erase (cut : Cut L m base bs lists k p left right) :
    (lists k).erase p = left ++ right := by
  have fresh : p ∉ left := fun inside => by
    have := cut.distinct p (by simp [inside])
    omega
  rw [cut.split, List.erase_append_right _ fresh, List.erase_cons_head]

/-- Bridging over a listed block takes it off its list, and nothing else changes. -/
theorem Threaded.unlink (threaded : Threaded L m base brk bs lists mark) (cut : Cut L m base bs lists k p left right) (beforeWord : L.before base k < 2 ^ 32)
    (here : lists' k = (lists k).erase p)
    (kept : ∀ j, j ≠ k → lists' j = lists j)
    (bridged : ∀ x, ¬ L.Anchor base x → m' x = bridge L.links m (L.before base k) left.getLast?
      (L.chain base k right).head? null x) :
    Threaded L m' base brk bs lists' mark ∧
      ∀ b ∈ bs, b.used = true → ∀ x, Payload b x → m' x = m x := by
  have member : p ∈ lists k := by simp [cut.split]
  have rejoined : L.chain base k (left ++ right) = left ++ L.chain base k right := by
    simp [Layout.chain]
  have shape := cut.shape
  have mine : ∀ q ∈ left ++ L.chain base k right, q ∈ L.chain base k (lists k) := by
    intro q inside
    exact shape ▸ mem_around inside
  -- The list without the block is linked by the bridge.
  refine threaded.relink cut.owned ?_ ?_ kept ?_ ?_ ?_
  · exact fun q inside j other => threaded.chains_disjoint (Ne.symm other)
      (mine q inside)
  · exact fun x off free => (bridged x free).trans (bridge_other off)
  · rw [here]
    exact fun q inside => threaded.listed k q (List.mem_of_mem_erase inside)
  · rw [here]
    exact (threaded.nodup k).erase p
  · -- The bridge makes one list of the two parts.
    have linked := threaded.linked k
    have spread := threaded.spread k
    rw [shape] at linked spread
    rw [here, cut.erase, rejoined]
    have joined := linked.unlink spread
      -- The words of the bridge fit.
      (by
        rcases List.eq_nil_or_concat left with rfl | ⟨front, b, rfl⟩
        · exact beforeWord
        · rw [List.concat_eq_append, List.getLastD_concat]
          have := threaded.word (cut.owned b (by simp))
          omega)
      (by
        cases rest : L.chain base k right with
        | nil => decide
        | cons c rest =>
          have := threaded.word (cut.owned c (by simp [rest]))
          rw [List.headD_cons]
          omega)
    -- The anchors may be written to, and no link is there.
    apply joined.congr
    intro q inside x lower upper
    apply bridged
    exact threaded.node_offAnchor (cut.owned q inside) lower upper

/--
Putting a free block at the front of the list of its class.

Its own links are set, the old first node points back to it, and only anchors change besides.
The last part is that the bytes of the block after its links stay as they were.
-/
theorem Threaded.push (threaded : Threaded L m base brk bs lists mark)
    (member : b ∈ bs) (free : b.used = false) (class_ : L.style.cls b.size = some k)
    (fresh : ∀ j, b.addr ∉ lists j)
    (here : lists' k = b.addr :: lists k)
    (kept : ∀ j, j ≠ k → lists' j = lists j)
    (own : loadWord m' (b.addr + L.links.prev) = L.before base k)
    (next : loadWord m' (b.addr + L.links.next) = (L.chain base k (lists k)).headD null)
    (back : ∀ c ∈ (L.chain base k (lists k)).head?, loadWord m' (c + L.links.prev) = b.addr)
    (same : ∀ x, ¬ L.Anchor base x → (x < b.addr ∨ b.addr + L.links.width ≤ x) →
      (∀ c ∈ (L.chain base k (lists k)).head?,
        x < c + L.links.prev ∨ c + L.links.prev + 4 ≤ x) → m' x = m x) :
    Threaded L m' base brk bs lists' mark ∧
      (∀ b ∈ bs, b.used = true → ∀ x, Payload b x → m' x = m x) ∧
      ∀ x, b.addr + L.links.width ≤ x → x < b.addr + b.size → m' x = m x := by
  have prevFits := L.links.prevFits
  have self : L.Node base bs b.addr := .inr ⟨b, member, rfl, free⟩
  -- The block is on no list.
  have new : ∀ j, b.addr ∉ L.chain base j (lists j) := by
    intro j inside
    rcases List.mem_append.mp inside with inside | inside
    · exact fresh j inside
    · exact threaded.sentinel_ne member (Option.mem_toList.mp inside)
  -- Only the new block and the old first block are written to.
  have owned : ∀ q ∈ b.addr :: (L.chain base k (lists k)).head?.toList, L.Node base bs q := by
    intro q inside
    rcases List.mem_cons.mp inside with rfl | inside
    · exact self
    · exact threaded.node (List.mem_of_mem_head? (Option.mem_toList.mp inside))
  -- The rest of the new node holds no link of the old first node.
  have inner : ∀ x, b.addr + L.links.width ≤ x → x < b.addr + b.size → m' x = m x := by
    intro x lower upper
    have width := L.links.nextFits
    refine same x (fun anchor => ?_) (.inr lower) fun c first => ?_
    · have := threaded.anchor_below anchor member
      omega
    · -- The old first block is elsewhere.
      have inside := List.mem_of_mem_head? first
      obtain ⟨d, block, rfl, wide, _⟩ := threaded.block (threaded.node inside)
      rcases threaded.arena.tiles.apart block (c := b) (by simp [member]) with rfl | apart
      · exact absurd inside (new k)
      · omega
  rw [← and_assoc]
  refine ⟨threaded.relink owned ?_ ?_ kept ?_ ?_ ?_, inner⟩
  · -- They are on no other list.
    intro q inside j other
    rcases List.mem_cons.mp inside with rfl | inside
    · exact new j
    · exact threaded.chains_disjoint (Ne.symm other)
        (List.mem_of_mem_head? (Option.mem_toList.mp inside))
  · -- All other bytes are as before.
    intro x off bare
    refine same x bare (off b.addr (by simp)) fun c first => ?_
    have := off c (by simp [Option.mem_def.mp first])
    omega
  · -- The new block is listed under its class.
    rw [here]
    intro q inside
    rcases List.mem_cons.mp inside with rfl | inside
    · exact ⟨b, member, rfl, free, class_⟩
    · exact threaded.listed k q inside
  · rw [here]
    exact List.nodup_cons.mpr ⟨fresh k, threaded.nodup k⟩
  · -- The list with the new block in front is linked.
    rw [here]
    show Linked L.links m' _ (b.addr :: L.chain base k (lists k)) null
    refine (threaded.linked k).push (threaded.spread k) own next back ?_
    -- The links of the other nodes have not changed.
    intro q inside x lower upper off
    have node := threaded.node inside
    have apart := threaded.apart node self (by
      rintro rfl
      exact new k inside)
    exact same x (threaded.node_offAnchor node lower upper) (by omega) off

end MallocLab
