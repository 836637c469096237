import MallocLab.Prologue.Parts

/-! Runs of `prologue.c` from `mm_init` on, beside the runs of the abstract allocator. -/

namespace MallocLab.Prologue

/-- Between calls the machine over the area at `base` represents a state of the abstract allocator. -/
abbrev Stands (base : Nat) : State → Shelves → Prop := Skeleton.Stands layout heads base

/-- The state after initialization over an area that starts at `base`: one free block on its shelf. -/
def initial (base : Nat) : Shelves := Shelves.opened style (base + 168) 4096

/-- What `mm_init` writes before it extends the heap. -/
def prepared (h : State) (p : Nat) : State :=
  let h := h.put p 0
  let h := h.put (add32 p (2 * numFreelist * dsize + wsize)) (pack 0 1)
  let h := { h with statics := { heapListp := add32 p dsize } }
  (List.range numFreelist).foldl initRoot h

variable {base n : Nat} {m : Mem} {statics : Statics} {h : State}

/-- The roots that have been written so far are there, and they took only their own space. -/
theorem foldl_initRoot (place : h.statics.heapListp = base + 8) (fits : base + 168 < 2 ^ 32)
    (few : n ≤ numFreelist) :
    ∃ m, (List.range n).foldl initRoot h = { h with mem := m } ∧
      (∀ k < n, loadWord m (rootAddr base k - 4) = 17 ∧ loadWord m (rootAddr base k) = null ∧
        loadWord m (rootAddr base k + 8) = 17) ∧
      ∀ x, x < base + 4 ∨ base + 4 + 16 * n ≤ x → m x = h.mem x := by
  induction n with
  | zero => exact ⟨h.mem, rfl, fun k below => absurd below (Nat.not_lt_zero k), fun _ _ => rfl⟩
  | succ n ih =>
    obtain ⟨m, done, written, same⟩ := ih (by omega)
    unfold numFreelist at few
    -- The addresses of the three words do not wrap.
    have here : add32 (base + 8) (n * 2 * dsize) = rootAddr base n := by
      unfold dsize rootAddr
      rw [add32_eq (by omega)]
      omega
    have header : sub32 (rootAddr base n) wsize = rootAddr base n - 4 := by
      unfold wsize rootAddr
      exact sub32_eq (by omega) (by omega)
    have footer : add32 (rootAddr base n) dsize = rootAddr base n + 8 := by
      unfold dsize rootAddr
      exact add32_eq (by omega)
    have word : pack overhead 1 = 17 := by decide
    refine ⟨storeWord (storeWord (storeWord m (rootAddr base n - 4) 17) (rootAddr base n) null)
      (rootAddr base n + 8) 17, ?_, fun k below => ?_, fun x outside => ?_⟩
    · -- The loop writes the words of the last root behind those of the others.
      rw [List.range_succ, List.foldl_append, done]
      simp only [List.foldl_cons, List.foldl_nil, initRoot, getroot, place, here, header, footer, word]
      rfl
    · unfold rootAddr at written ⊢
      by_cases last : k = n
      · -- The three words of the new root do not overlap.
        subst last
        refine ⟨?_, ?_, loadWord_storeWord (by decide)⟩
        · rw [loadWord_storeWord_other (by omega), loadWord_storeWord_other (by omega),
            loadWord_storeWord (by decide)]
        · rw [loadWord_storeWord_other (by omega), loadWord_storeWord (by decide)]
      · -- An older root is written to no more.
        have old := written k (by omega)
        refine ⟨?_, ?_, ?_⟩
        · rw [loadWord_storeWord_other (by omega), loadWord_storeWord_other (by omega),
            loadWord_storeWord_other (by omega), old.1]
        · rw [loadWord_storeWord_other (by omega), loadWord_storeWord_other (by omega),
            loadWord_storeWord_other (by omega), old.2.1]
        · rw [loadWord_storeWord_other (by omega), loadWord_storeWord_other (by omega),
            loadWord_storeWord_other (by omega), old.2.2]
    · -- Everything else is as it was.
      unfold rootAddr
      rw [storeWord_other (by omega), storeWord_other (by omega), storeWord_other (by omega), same x (by omega)]

/-- The roots and the epilogue make up an empty heap. -/
theorem prepared_rep (ok : Base base) (area : Area h) (start : h.memStartBrk = base)
    (brk : h.memBrk = base + 168) :
    Rep layout heads (prepared h base) { blocks := [], lists := fun _ => [], brk := base + 168 } ∧
      (prepared h base).memStartBrk = base ∧ (prepared h base).memMaxAddr = base + maxHeap := by
  obtain ⟨aligned, real, fits⟩ := ok
  unfold null at real
  unfold maxHeap at fits
  -- The two words at the ends of the prologue.
  have place : add32 base dsize = base + 8 := add32_eq (by unfold dsize; omega)
  have last : add32 base (2 * numFreelist * dsize + wsize) = base + 164 :=
    add32_eq (by unfold numFreelist dsize wsize; omega)
  obtain ⟨m, done, written, same⟩ := foldl_initRoot
    (h := { (h.put base 0).put (base + 164) 1 with statics := { heapListp := base + 8 } })
    (show base + 8 = base + 8 from rfl) (by omega) (Nat.le_refl numFreelist)
  have mem : prepared h base = { (h.put base 0).put (base + 164) 1 with
      mem := m, statics := { heapListp := base + 8 } } := by
    unfold prepared
    simp only [place, last, show pack 0 1 = 1 by decide]
    exact done
  -- The word at the end has not been overwritten by the roots.
  have closing : loadWord m (base + 168 - 4) = 1 := by
    have kept : loadWord m (base + 164) = loadWord (storeWord (storeWord h.mem base 0) (base + 164) 1) (base + 164) :=
      loadWord_congr fun x lower upper => same x (by unfold numFreelist; omega)
    exact kept.trans (loadWord_storeWord (by decide))
  -- The roots tile the prologue, and there is no block behind them.
  have threaded : Threaded layout m base (base + 168) [] (fun _ => []) false := by
    refine ⟨⟨?_, ?_, closing, by omega, by omega, by omega⟩, by simp, by simp, by simp, fun k => ?_⟩
    · rw [List.append_nil]
      exact roots_tile base
    · -- A root has the tags of a used block.
      rw [List.append_nil]
      intro b member
      obtain ⟨k, below, rfl⟩ := List.mem_map.mp member
      obtain ⟨header, _, footer⟩ := written k (List.mem_range.mp below)
      exact ⟨header, .inl footer⟩
    · rw [chain_eq]
      trivial
  rw [mem]
  refine ⟨⟨?_, ⟨?_, fun k below => ?_⟩, by simp, by simp, brk, ⟨area.limit, area.fits⟩⟩, start,
    start ▸ area.limit⟩
  · -- The prologue ends at the break.
    show Threaded layout m h.memStartBrk h.memBrk [] (fun _ => []) false
    rw [start, brk]
    exact threaded
  · show base + 8 = h.memStartBrk + 8
    rw [start]
  · -- All lists are empty.
    show loadWord m (rootAddr h.memStartBrk k) = null
    rw [start]
    exact (written k below).2.1

/-- `mm_init` succeeds when both of its requests for space are granted. -/
theorem mmInit_eq {h₁ h₂ : State} {p bp : Nat}
    (granted : memSbrk h (toInt32 (dsize + numFreelist * dsize * 2)) = (h₁, p)) (place : p ≠ null)
    (extended : extendHeap (prepared h₁ p) (chunksize / wsize) = some (h₂, bp)) (real : bp ≠ null) :
    mmInit h = some (h₂, 0) := by
  unfold mmInit
  simp only [granted]
  exact (if_neg place).trans (bind_step extended (if_neg real))

/-- `mm_init` succeeds on every area, whatever it contains, and leaves one free block. -/
theorem mmInit_holds (ok : Base base) (m : Mem) (statics : Statics) :
    ∃ h, mmInit (memInit m base statics) = some (h, 0) ∧
      Holds (Stands base) Shelves.blocks { heap := h, live := [] } (initial base) := by
  have room : maxHeap = 20971520 := rfl
  have area := ok.area m statics
  obtain ⟨empty, start, limit⟩ := prepared_rep (h := { memInit m base statics with memBrk := base + 168 }) ok
    ⟨area.limit, area.fits⟩ rfl rfl
  obtain ⟨h, grown, opened, holds⟩ := scheme.opened empty start (by rw [limit]; omega)
  exact ⟨h, mmInit_eq (ok.granted m statics (by decide)) ok.real grown opened, holds⟩

/-- The entry points of `prologue.c` serve their clients by the steps of the abstract allocator. -/
theorem services (base : Nat) : Services mm NoWrap (Stands base) Shelves.blocks
    fun s c s' r => policy.move (base + maxHeap) s c = (s', r) :=
  (parts base).services sizeWord (Skeleton.mmMalloc_eq place extendHeap) rfl fun real positive => by
    rw [← Skeleton.mmMalloc_eq place extendHeap]
    exact (if_neg positive).trans (if_neg real)

/-- Whatever `mm_init` returned, it left the state that stands for the initial abstract state. -/
theorem mmInit_stands (ok : Base base) (init : mmInit (memInit m base statics) = some (h, 0)) :
    Holds (Stands base) Shelves.blocks { heap := h, live := [] } (initial base) :=
  .started (mmInit_holds ok m statics) init

end MallocLab.Prologue
