import HotRegion.TwoPow

/-! # Sparse byte trees

A tree of bytes in which an absent subtree stands for zeros. An index is followed from its lowest
bit up: even indices live in the left subtree, odd ones in the right. Trees are kept in a normal
form in which no subtree holds zeros only, so two trees with the same bytes are equal.

* `get_set`      what a byte reads as after a write
* `Normal.set`   writes keep the normal form
* `Normal.ext`   normal trees with the same bytes are equal -/

namespace HotRegion.Machine

/-- Bytes addressed by natural numbers; `zero` stands for any number of zero bytes. -/
inductive ByteTree where
  | zero
  | leaf (b : UInt8)
  | node (even odd : ByteTree)
  deriving DecidableEq, Inhabited

namespace ByteTree

/-- The byte at index `i`. -/
def get : ByteTree → Nat → UInt8
  | zero, _ => 0
  | leaf b, _ => b
  | node even odd, i => if i % 2 = 0 then even.get (i / 2) else odd.get (i / 2)

/-- One byte in normal form. -/
def ofByte (b : UInt8) : ByteTree := if b = 0 then zero else leaf b

/-- Two subtrees in normal form. -/
def join : ByteTree → ByteTree → ByteTree
  | zero, zero => zero
  | even, odd => node even odd

/-- The subtree of the even indices. -/
def even : ByteTree → ByteTree
  | node even _ => even
  | _ => zero

/-- The subtree of the odd indices. -/
def odd : ByteTree → ByteTree
  | node _ odd => odd
  | _ => zero

/-- Replaces the byte at index `i` of a tree for `2 ^ depth` bytes. -/
def set : Nat → ByteTree → Nat → UInt8 → ByteTree
  | 0, _, _, b => ofByte b
  | depth + 1, t, i, b =>
    if i % 2 = 0 then join (set depth t.even (i / 2) b) t.odd
    else join t.even (set depth t.odd (i / 2) b)

/-- How many bytes are not zero. -/
def count : ByteTree → Nat
  | zero => 0
  | leaf _ => 1
  | node even odd => even.count + odd.count

/-- The indices of the bytes that are not zero. -/
def support : ByteTree → List Nat
  | zero => []
  | leaf _ => [0]
  | node even odd => even.support.map (2 * ·) ++ odd.support.map (2 * · + 1)

/-- A tree for `2 ^ depth` bytes none of whose subtrees holds zeros only. -/
def Normal : Nat → ByteTree → Prop
  | _, zero => True
  | 0, leaf b => b ≠ 0
  | 0, node .. => False
  | _ + 1, leaf _ => False
  | depth + 1, node even odd =>
    even.Normal depth ∧ odd.Normal depth ∧ ¬(even = zero ∧ odd = zero)

/-! ### Reading after writing -/

@[simp] theorem get_zero (i : Nat) : zero.get i = 0 := by
  simp [get]

@[simp] theorem get_ofByte (b : UInt8) (i : Nat) : (ofByte b).get i = b := by
  unfold ofByte
  split <;> simp_all [get]

/-- The bytes of a join alternate between its halves. -/
theorem get_join (e o : ByteTree) (i : Nat) :
    (join e o).get i = if i % 2 = 0 then e.get (i / 2) else o.get (i / 2) := by
  unfold join
  split
  · simp
  · rw [get]

/-- The bytes of a tree alternate between its halves, joined or not. -/
theorem get_eq_halves {depth : Nat} {t : ByteTree} (h : t.Normal (depth + 1)) (i : Nat) :
    t.get i = if i % 2 = 0 then t.even.get (i / 2) else t.odd.get (i / 2) := by
  match t, h with
  | zero, _ => simp [even, odd]
  | node e o, _ => simp [get, even, odd]

/-- The first half of a normal tree is normal. -/
theorem Normal.even {depth : Nat} {t : ByteTree} (h : t.Normal (depth + 1)) :
    t.even.Normal depth := by
  match t, h with
  | zero, _ => simp [ByteTree.even, Normal]
  | node e o, h => exact h.1

/-- The second half of a normal tree is normal. -/
theorem Normal.odd {depth : Nat} {t : ByteTree} (h : t.Normal (depth + 1)) :
    t.odd.Normal depth := by
  match t, h with
  | zero, _ => simp [ByteTree.odd, Normal]
  | node e o, h => exact h.2.1

/-- A written byte reads back, the others are kept. -/
theorem get_set {depth : Nat} {t : ByteTree} (h : t.Normal depth) {i j : Nat} (b : UInt8)
    (hi : i < twoPow depth) (hj : j < twoPow depth) :
    (set depth t i b).get j = if i = j then b else t.get j := by
  induction depth generalizing t i j with
  | zero =>
    have : i = j := by
      rw [twoPow_zero] at hi hj
      omega
    simp [set, this]
  | succ depth ih =>
    have hpow : twoPow (depth + 1) = twoPow depth * 2 := twoPow_succ depth
    have hi' : i / 2 < twoPow depth := by omega
    have hj' : j / 2 < twoPow depth := by omega
    rw [set, get_eq_halves h j]
    split
    · rw [get_join, ih h.even hi' hj']
      split <;> split <;> (try split) <;> first | rfl | omega
    · rw [get_join, ih h.odd hi' hj']
      split <;> split <;> (try split) <;> first | rfl | omega

/-! ### Normal form -/

/-- A join is normal if its halves are. -/
theorem normal_join {depth : Nat} {e o : ByteTree} (he : e.Normal depth) (ho : o.Normal depth) :
    (join e o).Normal (depth + 1) := by
  unfold join
  split
  · simp [Normal]
  · rename_i hne
    exact ⟨he, ho, fun h => hne h.1 h.2⟩

/-- Writing keeps the normal form. -/
theorem Normal.set {depth : Nat} {t : ByteTree} (h : t.Normal depth) (i : Nat) (b : UInt8) :
    (ByteTree.set depth t i b).Normal depth := by
  induction depth generalizing t i with
  | zero =>
    unfold ByteTree.set ofByte
    split <;> simp_all [Normal]
  | succ depth ih =>
    unfold ByteTree.set
    split
    · exact normal_join (ih h.even _) h.odd
    · exact normal_join h.even (ih h.odd _)

/-- Normal trees with the same bytes are equal. -/
theorem Normal.ext {depth : Nat} {t u : ByteTree} (ht : t.Normal depth) (hu : u.Normal depth)
    (h : ∀ i < twoPow depth, t.get i = u.get i) : t = u := by
  induction depth generalizing t u with
  | zero =>
    match t, ht, u, hu with
    | zero, _, zero, _ => rfl
    | zero, _, leaf b, hb => exact absurd (h 0 (twoPow_pos 0)).symm hb
    | leaf b, hb, zero, _ => exact absurd (h 0 (twoPow_pos 0)) hb
    | leaf b, _, leaf c, _ => exact congrArg leaf (h 0 (twoPow_pos 0))
  | succ depth ih =>
    have hpow : twoPow (depth + 1) = twoPow depth * 2 := twoPow_succ depth
    -- The halves hold the bytes at even and at odd places, so they agree by induction.
    have hhalf : t.even = u.even ∧ t.odd = u.odd := by
      refine ⟨ih ht.even hu.even fun i hi => ?_, ih ht.odd hu.odd fun i hi => ?_⟩
      · have := h (2 * i) (by omega)
        rw [get_eq_halves ht, get_eq_halves hu] at this
        simpa [Nat.mul_mod_right] using this
      · have := h (2 * i + 1) (by omega)
        have h2 : (2 * i + 1) / 2 = i := by omega
        rw [get_eq_halves ht, get_eq_halves hu] at this
        simpa [Nat.mul_add_mod, h2] using this
    -- A node of two empty halves is not normal, so both trees have one shape.
    match t, ht, u, hu with
    | zero, _, zero, _ => rfl
    | zero, _, node e o, hu => exact absurd ⟨hhalf.1.symm, hhalf.2.symm⟩ hu.2.2
    | node e o, ht, zero, _ => exact absurd hhalf ht.2.2
    | node e o, _, node e' o', _ =>
      have h1 : e = e' := hhalf.1
      have h2 : o = o' := hhalf.2
      rw [h1, h2]

end ByteTree

end HotRegion.Machine
