import MallocLab.Machine.Word

/-! Byte-addressed memory with little-endian words, and what a store leaves alone. -/

namespace MallocLab

/-- The contents of every byte address. -/
abbrev Mem := Nat → UInt8

/-- The word stored in the four bytes from `p`. -/
def loadWord (m : Mem) (p : Nat) : Nat :=
  (m p).toNat + 2 ^ 8 * (m (p + 1)).toNat + 2 ^ 16 * (m (p + 2)).toNat + 2 ^ 24 * (m (p + 3)).toNat

/-- The memory after the word `v` is stored at `p`. -/
def storeWord (m : Mem) (p v : Nat) : Mem := fun x =>
  if x = p then UInt8.ofNat v
  else if x = p + 1 then UInt8.ofNat (v / 2 ^ 8)
  else if x = p + 2 then UInt8.ofNat (v / 2 ^ 16)
  else if x = p + 3 then UInt8.ofNat (v / 2 ^ 24)
  else m x

/-- The memory after one byte is stored. -/
def storeByte (m : Mem) (p : Nat) (byte : UInt8) : Mem := fun x => if x = p then byte else m x

/-- The memory after `memcpy(dst, src, n)`; every byte is read before any is written. -/
def copyBytes (m : Mem) (dst src n : Nat) : Mem := fun x =>
  if dst ≤ x ∧ x < dst + n then m (src + (x - dst)) else m x

/-- The memory after `memset(dst, byte, n)`. -/
def fillBytes (m : Mem) (dst n : Nat) (byte : UInt8) : Mem := fun x =>
  if dst ≤ x ∧ x < dst + n then byte else m x

/-- A loaded word fits in thirty-two bits. -/
theorem loadWord_lt (m : Mem) (p : Nat) : loadWord m p < 2 ^ 32 := by
  -- Each byte is below 256, and the word is read in base 256.
  have first := (m p).toNat_lt
  have second := (m (p + 1)).toNat_lt
  have third := (m (p + 2)).toNat_lt
  have fourth := (m (p + 3)).toNat_lt
  unfold loadWord
  omega

/-- A word depends only on its own four bytes. -/
theorem loadWord_congr {m m' : Mem} {p : Nat} (same : ∀ x, p ≤ x → x < p + 4 → m' x = m x) :
    loadWord m' p = loadWord m p := by
  unfold loadWord
  rw [same p (by omega) (by omega), same (p + 1) (by omega) (by omega),
    same (p + 2) (by omega) (by omega), same (p + 3) (by omega) (by omega)]

/-- A stored word is read back from where it was stored. -/
theorem loadWord_storeWord {m : Mem} {p v : Nat} (word : v < 2 ^ 32) :
    loadWord (storeWord m p v) p = v := by
  -- The four bytes are the base-256 digits of the word.
  simp only [loadWord, storeWord, Nat.add_right_cancel_iff, Nat.add_eq_left,
    if_true, UInt8.toNat_ofNat', Nat.reduceEqDiff, if_false]
  omega

/-- A store changes only the four bytes of its word. -/
theorem storeWord_other {m : Mem} {p v x : Nat} (outside : x < p ∨ p + 4 ≤ x) :
    storeWord m p v x = m x := by
  unfold storeWord
  rw [if_neg (by omega), if_neg (by omega), if_neg (by omega), if_neg (by omega)]

/-- A store leaves every disjoint word alone. -/
theorem loadWord_storeWord_other {m : Mem} {p q v : Nat} (apart : q + 4 ≤ p ∨ p + 4 ≤ q) :
    loadWord (storeWord m p v) q = loadWord m q := by
  apply loadWord_congr
  -- No byte of the word at `q` is among the four that the store writes.
  intro x lower upper
  exact storeWord_other (by omega)

/-- The bytes of a stored word do not depend on what was there before. -/
theorem storeWord_inside {m m' : Mem} {p v x : Nat} (lower : p ≤ x) (upper : x < p + 4) :
    storeWord m p v x = storeWord m' p v x := by
  unfold storeWord
  by_cases first : x = p
  · simp [first]
  by_cases second : x = p + 1
  · simp [second]
  by_cases third : x = p + 2
  · simp [third]
  -- Only the last byte of the word is left.
  have fourth : x = p + 3 := by omega
  simp [fourth]

/-- Stores to disjoint words may be exchanged. -/
theorem storeWord_comm {m : Mem} {p q v w : Nat} (apart : q + 4 ≤ p ∨ p + 4 ≤ q) :
    storeWord (storeWord m p v) q w = storeWord (storeWord m q w) p v := by
  funext x
  -- A byte lies in the first word, in the second word, or in neither of them.
  by_cases first : x < p ∨ p + 4 ≤ x
  · rw [storeWord_other (m := storeWord m q w) first]
    by_cases second : x < q ∨ q + 4 ≤ x
    · rw [storeWord_other second, storeWord_other second, storeWord_other first]
    · exact storeWord_inside (by omega) (by omega)
  · -- The words are disjoint, so a byte of the first one is outside the second.
    rw [storeWord_other (m := storeWord m p v) (by omega)]
    exact storeWord_inside (by omega) (by omega)

/-- A byte store changes no other byte. -/
theorem storeByte_other {m : Mem} {p x : Nat} {byte : UInt8} (other : x ≠ p) :
    storeByte m p byte x = m x := if_neg other

/-- A copy changes only its destination. -/
theorem copyBytes_other {m : Mem} {dst src n x : Nat} (outside : x < dst ∨ dst + n ≤ x) :
    copyBytes m dst src n x = m x := if_neg (by omega)

/-- Every byte of a filled stretch is the filler. -/
theorem fillBytes_inside {m : Mem} {dst n x : Nat} {byte : UInt8} (lower : dst ≤ x) (upper : x < dst + n) :
    fillBytes m dst n byte x = byte := if_pos ⟨lower, upper⟩

/-- A fill changes only its stretch. -/
theorem fillBytes_other {m : Mem} {dst n x : Nat} {byte : UInt8} (outside : x < dst ∨ dst + n ≤ x) :
    fillBytes m dst n byte x = m x := if_neg (by omega)

end MallocLab
