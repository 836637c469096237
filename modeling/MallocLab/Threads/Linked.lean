import MallocLab.Machine.Loop
import MallocLab.Machine.Memory

/-! Doubly linked lists threaded through words of memory. -/

namespace MallocLab

/-- Where a node keeps its two link words, and how many bytes from its address they reach. -/
structure Offsets where
  next : Nat
  prev : Nat
  width : Nat
  nextFits : next + 4 ≤ width
  prevFits : prev + 4 ≤ width
  apart : next + 4 ≤ prev ∨ prev + 4 ≤ next

/-- Two words, the predecessor and then the successor. -/
def Offsets.prevFirst : Offsets where
  next := 4
  prev := 0
  width := 8
  nextFits := by decide
  prevFits := by decide
  apart := by decide

/-- Two words, the successor and then the predecessor. -/
def Offsets.nextFirst : Offsets where
  next := 0
  prev := 4
  width := 8
  nextFits := by decide
  prevFits := by decide
  apart := by decide

/--
Memory links the nodes in order, between what precedes the first and what succeeds the last.

The word `p` is the first node's predecessor link, and `n` is the last node's successor link.
-/
def Linked (o : Offsets) (m : Mem) : Nat → List Nat → Nat → Prop
  | _, [], _ => True
  | p, a :: l, n =>
    loadWord m (a + o.prev) = p ∧ loadWord m (a + o.next) = l.headD n ∧ Linked o m a l n

/-- No two nodes share a byte of their link words. -/
def Spread (o : Offsets) (l : List Nat) : Prop :=
  l.Pairwise fun a b => a + o.width ≤ b ∨ b + o.width ≤ a

/-- An address outside the link words of every node. -/
def OffLinks (o : Offsets) (l : List Nat) (x : Nat) : Prop := ∀ a ∈ l, x < a ∨ a + o.width ≤ x

variable {o : Offsets} {m m' : Mem} {a b c n p v : Nat} {l left right : List Nat}

/-- An empty list is linked. -/
@[simp] theorem linked_nil : Linked o m p [] n := trivial

/-- A list is linked when its first block points both ways and its rest is linked. -/
theorem linked_cons :
    Linked o m p (a :: l) n ↔
      loadWord m (a + o.prev) = p ∧ loadWord m (a + o.next) = l.headD n ∧ Linked o m a l n := Iff.rfl

/-- Links survive in any memory that agrees on the link words. -/
theorem Linked.congr (linked : Linked o m p l n)
    (same : ∀ a ∈ l, ∀ x, a ≤ x → x < a + o.width → m' x = m x) : Linked o m' p l n := by
  induction l generalizing p with
  | nil => trivial
  | cons a l ih =>
    obtain ⟨prev, next, rest⟩ := linked
    have prevFits := o.prevFits
    have nextFits := o.nextFits
    refine ⟨?_, ?_, ih rest fun b member => same b (List.mem_cons_of_mem _ member)⟩
    · rw [← prev]
      exact loadWord_congr fun x _ _ => same a (by simp) x (by omega) (by omega)
    · rw [← next]
      exact loadWord_congr fun x _ _ => same a (by simp) x (by omega) (by omega)

/-- A store away from the link words keeps the links. -/
theorem Linked.store (linked : Linked o m p l n)
    (away : ∀ a ∈ l, b + 4 ≤ a ∨ a + o.width ≤ b) : Linked o (storeWord m b v) p l n := by
  apply linked.congr
  intro a member x lower upper
  have := away a member
  exact storeWord_other (by omega)

/-- A chain is two chains that meet in the middle. -/
theorem linked_append :
    Linked o m p (left ++ right) n ↔
      Linked o m p left (right.headD n) ∧ Linked o m (left.getLastD p) right n := by
  induction left generalizing p with
  | nil => simp
  | cons a left ih =>
    rw [List.cons_append, linked_cons, linked_cons, ih, List.getLastD_cons]
    cases left with
    | nil => simp [and_assoc]
    | cons b left => simp [and_assoc]

/-- The link words of a node name its neighbours. -/
theorem Linked.links (linked : Linked o m p (left ++ a :: right) n) :
    loadWord m (a + o.prev) = left.getLastD p ∧ loadWord m (a + o.next) = right.headD n :=
  have tail := (linked_append.mp linked).2
  ⟨tail.1, tail.2.1⟩

/-- Following the successor links passes the nodes in order. -/
theorem Linked.trail {next : Nat → Nat} {stops : Nat → Prop} (linked : Linked o m p l n)
    (reads : ∀ a ∈ l, next a = loadWord m (a + o.next)) (on : ∀ a ∈ l, ¬ stops a) (last : stops n) :
    Trail next stops (l.headD n) l n := by
  induction l generalizing p with
  | nil => exact .stop last
  | cons a l ih =>
    obtain ⟨_, forth, rest⟩ := linked
    refine .step (on a (by simp)) ?_
    rw [List.headD_cons, reads a (by simp), forth]
    exact ih rest (fun b member => reads b (by simp [member])) fun b member => on b (by simp [member])

/-- Rewriting the predecessor link of the first node. -/
theorem Linked.setPrev (spread : Spread o (c :: l)) (linked : Linked o m p (c :: l) n)
    (word : v < 2 ^ 32) : Linked o (storeWord m (c + o.prev) v) v (c :: l) n := by
  obtain ⟨_, next, rest⟩ := linked
  have prevFits := o.prevFits
  have nextFits := o.nextFits
  have apart := o.apart
  refine ⟨loadWord_storeWord word, ?_, rest.store fun a member => ?_⟩
  · rw [loadWord_storeWord_other (by omega), next]
  · have := (List.pairwise_cons.mp spread).1 a member
    omega

/-- Rewriting the successor link of the last node. -/
theorem Linked.setNext (spread : Spread o (l ++ [b])) (linked : Linked o m p (l ++ [b]) n)
    (word : v < 2 ^ 32) : Linked o (storeWord m (b + o.next) v) p (l ++ [b]) v := by
  obtain ⟨front, prev, next, _⟩ := linked_append.mp linked
  have prevFits := o.prevFits
  have nextFits := o.nextFits
  have apart := o.apart
  refine linked_append.mpr ⟨front.store fun a member => ?_, ?_, loadWord_storeWord word, trivial⟩
  · have := (List.pairwise_append.mp spread).2.2 a member b (by simp)
    omega
  · rw [loadWord_storeWord_other (by omega), prev]

/--
Putting a new node in front of a chain.

Its own links are set, the old first node points back to it, and no other link changes.
-/
theorem Linked.push {q : Nat} (linked : Linked o m q l n) (spread : Spread o l)
    (own : loadWord m' (a + o.prev) = p) (next : loadWord m' (a + o.next) = l.headD n)
    (back : ∀ c ∈ l.head?, loadWord m' (c + o.prev) = a)
    (same : ∀ q ∈ l, ∀ x, q ≤ x → x < q + o.width →
      (∀ c ∈ l.head?, x < c + o.prev ∨ c + o.prev + 4 ≤ x) → m' x = m x) :
    Linked o m' p (a :: l) n := by
  refine ⟨own, next, ?_⟩
  cases l with
  | nil => trivial
  | cons c l =>
    -- The old first node gets its link back.
    obtain ⟨_, onward, rest⟩ := linked
    have prevFits := o.prevFits
    have nextFits := o.nextFits
    have apart := o.apart
    refine ⟨back c rfl, ?_, ?_⟩
    · -- Its other link is another word.
      rw [← onward]
      apply loadWord_congr
      intro x lower upper
      apply same c (by simp) x (by omega) (by omega)
      intro d here
      obtain rfl := Option.mem_some_iff.mp here
      omega
    · -- The links of the later nodes are not written to.
      apply rest.congr
      intro b member x lower upper
      have first := (List.pairwise_cons.mp spread).1 b member
      apply same b (by simp [member]) x lower upper
      intro d here
      obtain rfl := Option.mem_some_iff.mp here
      omega

/-- Joins the node before a gap to the node after it, where they exist. -/
def bridge (o : Offsets) (m : Mem) (p : Nat) (before after : Option Nat) (n : Nat) : Mem :=
  let m := match before with
    | some b => storeWord m (b + o.next) (after.getD n)
    | none => m
  match after with
  | some c => storeWord m (c + o.prev) (before.getD p)
  | none => m

/-- Bridging over a node takes it out of its chain. -/
theorem Linked.unlink (spread : Spread o (left ++ a :: right))
    (linked : Linked o m p (left ++ a :: right) n)
    (beforeWord : left.getLastD p < 2 ^ 32) (afterWord : right.headD n < 2 ^ 32) :
    Linked o (bridge o m p left.getLast? right.head? n) p (left ++ right) n := by
  obtain ⟨front, _, _, back⟩ := linked_append.mp linked
  obtain ⟨frontSpread, backSpread, cross⟩ := List.pairwise_append.mp spread
  obtain ⟨_, backSpread⟩ := List.pairwise_cons.mp backSpread
  have prevFits := o.prevFits
  have nextFits := o.nextFits
  apply linked_append.mpr
  -- Only the last node on the left and the first node on the right are written.
  rcases List.eq_nil_or_concat left with rfl | ⟨left, b, rfl⟩
  · -- The removed node was the first one.
    cases right with
    | nil => exact ⟨trivial, trivial⟩
    | cons c right => exact ⟨trivial, back.setPrev backSpread beforeWord⟩
  · -- It had a node before it.
    rw [List.concat_eq_append] at *
    have joined := front.setNext frontSpread afterWord
    cases right with
    | nil => simpa [bridge] using joined
    -- The two halves are apart, so the two stores are independent.
    | cons c right =>
      have away : ∀ x ∈ left ++ [b], ∀ y ∈ c :: right, x + o.width ≤ y ∨ y + o.width ≤ x :=
        fun x first y second => cross x first y (List.mem_cons_of_mem _ second)
      simp only [bridge, List.getLast?_concat, List.head?_cons, Option.getD_some, List.headD_cons,
        List.getLastD_concat] at joined beforeWord ⊢
      constructor
      · -- The store into the right half leaves the left half alone.
        apply joined.store
        intro x member
        have := away x member c (by simp)
        omega
      · -- The store into the left half leaves the right half alone.
        refine Linked.setPrev backSpread (back.store fun y member => ?_) beforeWord
        have := away b (by simp) y member
        omega

/-- Bridging writes only link words of the nodes that stay. -/
theorem bridge_other {x : Nat} (off : OffLinks o (left ++ right) x) :
    bridge o m p left.getLast? right.head? n x = m x := by
  have prevFits := o.prevFits
  have nextFits := o.nextFits
  have before : ∀ b ∈ left.getLast?, x < b ∨ b + o.width ≤ x :=
    fun b last => off b (by simp [List.mem_of_getLast? last])
  have after : ∀ c ∈ right.head?, x < c ∨ c + o.width ≤ x :=
    fun c first => off c (by simp [List.mem_of_head? first])
  unfold bridge
  cases last : left.getLast? with
  -- Nothing is before the gap.
  | none =>
    cases first : right.head? with
    | none => rfl
    | some c =>
      have := after c first
      exact storeWord_other (by omega)
  -- A node before the gap has its link stored.
  | some b =>
    have := before b last
    cases first : right.head? with
    | none => exact storeWord_other (by omega)
    | some c =>
      have := after c first
      simp only
      rw [storeWord_other (by omega), storeWord_other (by omega)]

end MallocLab
