import IdaSdk.QtreeViews
import Mathlib.Data.Nat.Bitwise

/-!
Packed nodes. `qtree_node_packed` keeps the colour and the nil flag in the two low bits of the parent pointer.
Every operation does the same on packed and on unpacked nodes: reading all nodes of a memory through their
accessors commutes with it.
-/

namespace IdaSdk.QtreeDetail
open RedBlack

/-! ### `qtree_node_packed` -/

def colorMask : Nat := 1
def nilMask : Nat := 2
def tagMask : Nat := colorMask ||| nilMask

def andNot (v mask : Nat) : Nat := v ^^^ (v &&& mask)

/-- The value of a pointer to a node: the allocator aligns nodes to 4 bytes at least. -/
def Ptr.word (p : Ptr) : Nat := 4 * p

def Ptr.ofWord (w : Nat) : Ptr := w / 4

structure PackedNode (V : Type*) where
  parentAndTags : Nat
  left : Ptr
  right : Ptr
  storage : Option V

namespace PackedNode

def untag (v : Nat) : Ptr := Ptr.ofWord (andNot v tagMask)

def tagptr (p : Ptr) (tags : Nat) : Nat := andNot (Ptr.word p) tagMask ||| (tags &&& tagMask)

def ternary {V T : Type*} (x : PackedNode V) (mask : Nat) (t f : T) : T := if x.parentAndTags &&& mask ≠ 0 then t else f

def setOrClear {V : Type*} (x : PackedNode V) (b : Bool) (mask : Nat) : PackedNode V :=
  { x with parentAndTags := if b then x.parentAndTags ||| mask else andNot x.parentAndTags mask }

end PackedNode

instance (V : Type*) : NodeLayout (PackedNode V) V where
  blank := ⟨0, nullptr, nullptr, none⟩
  left := PackedNode.left
  right := PackedNode.right
  parent x := PackedNode.untag x.parentAndTags
  color x := x.ternary colorMask .red .black
  isNil x := x.ternary nilMask true false
  value := PackedNode.storage
  setLeft x p := { x with left := p }
  setRight x p := { x with right := p }
  setParent x p := { x with parentAndTags := PackedNode.tagptr p x.parentAndTags }
  setColor x c := x.setOrClear (decide (c = .red)) colorMask
  setIsNil x b := x.setOrClear b nilMask
  setValue x v := { x with storage := v }

section
variable {p t mask : Nat}

theorem testBit_word (ht : t < 4) (i : Nat) :
    (Ptr.word p + t).testBit i = if i < 2 then t.testBit i else p.testBit (i - 2) :=
  Nat.testBit_two_pow_mul_add p (show t < 2 ^ 2 from ht) i

theorem testBit_mask (hmask : mask < 4) {i : Nat} (hi : ¬ i < 2) : mask.testBit i = false :=
  Nat.testBit_lt_two_pow (lt_of_lt_of_le hmask (Nat.pow_le_pow_right (show 0 < 2 by decide) (show 2 ≤ i by omega)))

theorem word_and (ht : t < 4) (hmask : mask < 4) : (Ptr.word p + t) &&& mask = t &&& mask := by
  apply Nat.eq_of_testBit_eq
  intro i
  rw [Nat.testBit_and, Nat.testBit_and, testBit_word ht]
  by_cases hi : i < 2
  · rw [if_pos hi]
  · rw [testBit_mask hmask hi, Bool.and_false, Bool.and_false]

theorem word_or (ht : t < 4) (hmask : mask < 4) : (Ptr.word p + t) ||| mask = Ptr.word p + (t ||| mask) := by
  apply Nat.eq_of_testBit_eq
  intro i
  rw [Nat.testBit_or, testBit_word ht, testBit_word (@Nat.or_lt_two_pow t mask 2 ht hmask), Nat.testBit_or]
  by_cases hi : i < 2
  · rw [if_pos hi, if_pos hi]
  · rw [if_neg hi, if_neg hi, testBit_mask hmask hi, Bool.or_false]

theorem andNot_word (ht : t < 4) (hmask : mask < 4) :
    andNot (Ptr.word p + t) mask = Ptr.word p + andNot t mask := by
  have hand : t &&& mask < 4 := @Nat.and_lt_two_pow t mask 2 hmask
  have hxor : t ^^^ (t &&& mask) < 4 := @Nat.xor_lt_two_pow t (t &&& mask) 2 ht hand
  rw [andNot, word_and ht hmask, andNot]
  apply Nat.eq_of_testBit_eq
  intro i
  rw [Nat.testBit_xor, testBit_word ht, testBit_word hxor, Nat.testBit_xor]
  by_cases hi : i < 2
  · rw [if_pos hi, if_pos hi]
  · rw [if_neg hi, if_neg hi, testBit_mask hand hi, Bool.xor_false]

end

namespace PackedNode

variable {V : Type*}

theorem exists_word (w : Nat) : ∃ p t, w = Ptr.word p + t ∧ t < 4 :=
  ⟨w / 4, w % 4, by unfold Ptr.word; omega, Nat.mod_lt _ (by decide)⟩

theorem untag_word {p t : Nat} (ht : t < 4) : untag (Ptr.word p + t) = p := by
  have hnot : andNot t tagMask = 0 := (show ∀ t < 4, andNot t tagMask = 0 by decide) t ht
  rw [untag, andNot_word ht (by decide), hnot, Nat.add_zero]
  exact Nat.mul_div_cancel_left p (show 0 < 4 by decide)

theorem tagptr_word {p q t : Nat} (ht : t < 4) : tagptr q (Ptr.word p + t) = Ptr.word q + t := by
  have hand : t &&& tagMask = t := (show ∀ t < 4, t &&& tagMask = t by decide) t ht
  have hzero : andNot 0 tagMask ||| t = t := (show ∀ t < 4, andNot 0 tagMask ||| t = t by decide) t ht
  have hq := @andNot_word q 0 tagMask (by decide) (by decide)
  rw [Nat.add_zero] at hq
  rw [tagptr, word_and ht (by decide), hand, hq, word_or (by decide) ht, hzero]

theorem ternary_word {T : Type*} {p t mask : Nat} (ht : t < 4) (hmask : mask < 4) (l r : Ptr) (v : Option V) (a b : T) :
    (⟨Ptr.word p + t, l, r, v⟩ : PackedNode V).ternary mask a b = if t &&& mask ≠ 0 then a else b := by
  rw [ternary, word_and ht hmask]

def setTag (mask : Nat) (b : Bool) (t : Nat) : Nat := if b then t ||| mask else andNot t mask

theorem setOrClear_word {p t mask : Nat} (ht : t < 4) (hmask : mask < 4) (l r : Ptr) (v : Option V) (b : Bool) :
    (⟨Ptr.word p + t, l, r, v⟩ : PackedNode V).setOrClear b mask = ⟨Ptr.word p + setTag mask b t, l, r, v⟩ := by
  cases b
  · simp [setOrClear, setTag, andNot_word ht hmask]
  · simp [setOrClear, setTag, word_or ht hmask]

def tagColor (t : Nat) : Color := if t &&& colorMask ≠ 0 then .red else .black

def tagNil (t : Nat) : Bool := if t &&& nilMask ≠ 0 then true else false

theorem setTag_color : ∀ t < 4, ∀ c, setTag colorMask (decide (c = .red)) t < 4 ∧
    tagColor (setTag colorMask (decide (c = .red)) t) = c ∧
      tagNil (setTag colorMask (decide (c = .red)) t) = tagNil t := by
  intro t ht c
  cases c
  · exact (show ∀ t < 4, setTag colorMask true t < 4 ∧ tagColor (setTag colorMask true t) = .red ∧
      tagNil (setTag colorMask true t) = tagNil t by decide) t ht
  · exact (show ∀ t < 4, setTag colorMask false t < 4 ∧ tagColor (setTag colorMask false t) = .black ∧
      tagNil (setTag colorMask false t) = tagNil t by decide) t ht

theorem setTag_nil : ∀ t < 4, ∀ b, setTag nilMask b t < 4 ∧ tagColor (setTag nilMask b t) = tagColor t ∧
    tagNil (setTag nilMask b t) = b := by decide

theorem view_word {p t : Nat} (ht : t < 4) (l r : Ptr) (v : Option V) :
    NodeLayout.view (⟨Ptr.word p + t, l, r, v⟩ : PackedNode V) =
      ⟨l, r, p, tagColor t, tagNil t, v⟩ := by
  have hcolor := @ternary_word V Color p t colorMask ht (by decide) l r v .red .black
  have hnil := @ternary_word V Bool p t nilMask ht (by decide) l r v true false
  simp only [NodeLayout.view, NodeLayout.parent, NodeLayout.left, NodeLayout.right, NodeLayout.color, NodeLayout.isNil,
    NodeLayout.value, untag_word ht, hcolor, hnil, tagColor, tagNil]

instance : LawfulNodeLayout (PackedNode V) V where
  view_setLeft _ _ := rfl
  view_setRight _ _ := rfl
  view_setParent x q := by
    obtain ⟨w, l, r, v⟩ := x
    obtain ⟨p, t, rfl, ht⟩ := exists_word w
    have hset : NodeLayout.setParent (⟨Ptr.word p + t, l, r, v⟩ : PackedNode V) q = ⟨Ptr.word q + t, l, r, v⟩ := by
      simp only [NodeLayout.setParent, tagptr_word ht]
    rw [hset, view_word ht, view_word ht]
    rfl
  view_setColor x c := by
    obtain ⟨w, l, r, v⟩ := x
    obtain ⟨p, t, rfl, ht⟩ := exists_word w
    have hset : NodeLayout.setColor (⟨Ptr.word p + t, l, r, v⟩ : PackedNode V) c =
        ⟨Ptr.word p + setTag colorMask (decide (c = .red)) t, l, r, v⟩ :=
      setOrClear_word ht (by decide) l r v (decide (c = .red))
    obtain ⟨hlt, hcolor, hnil⟩ := setTag_color t ht c
    rw [hset, view_word hlt, view_word ht, hcolor, hnil]
    rfl
  view_setIsNil x b := by
    obtain ⟨w, l, r, v⟩ := x
    obtain ⟨p, t, rfl, ht⟩ := exists_word w
    have hset : NodeLayout.setIsNil (⟨Ptr.word p + t, l, r, v⟩ : PackedNode V) b =
        ⟨Ptr.word p + setTag nilMask b t, l, r, v⟩ := setOrClear_word ht (by decide) l r v b
    obtain ⟨hlt, hcolor, hnil⟩ := setTag_nil t ht b
    rw [hset, view_word hlt, view_word ht, hcolor, hnil]
    rfl
  view_setValue _ _ := rfl
  view_blank := ⟨false, @view_word V 0 0 (by decide) nullptr nullptr none⟩

theorem exists_view (x : Cell V) : ∃ n : PackedNode V, NodeLayout.view n = x := by
  refine ⟨NodeLayout.setIsNil (NodeLayout.setColor (⟨Ptr.word x.parent + 0, x.left, x.right, x.value⟩ : PackedNode V)
    x.color) x.isNil, ?_⟩
  rw [LawfulNodeLayout.view_setIsNil, LawfulNodeLayout.view_setColor, view_word (by decide)]
  rfl

theorem exists_views (u : World (Cell V)) : ∃ w : World (PackedNode V), w.views = u := by
  obtain ⟨⟨cell, live⟩, objs⟩ := u
  choose pack hpack using fun a => exists_view (cell a)
  exact ⟨⟨⟨pack, live⟩, objs⟩, congrArg (fun c => (⟨⟨c, live⟩, objs⟩ : World (Cell V))) (funext hpack)⟩

end PackedNode

/-- Every run over packed nodes is the run of the same calls over the nodes that they stand for: it fails or
succeeds with it, gives the same results and leaves the same trees. -/
theorem packed_equivalent {V K K' M : Type} (lt : K → K → Bool) (key : V → K) (lt' : K' → K' → Bool) (dflt : M)
    (pol : AllocPolicy) :
    LawfulNodeLayout (PackedNode V) V ∧ (∀ u : World (Cell V), ∃ w : World (PackedNode V), w.views = u) ∧
      (∀ (w : World (PackedNode V)) (ops : List (WorldOp (TreeOp V K))),
        (qtreeInterface (Cell V) lt key pol).run pol w.views ops =
          ((qtreeInterface (PackedNode V) lt key pol).run pol w ops).map fun r => (r.1.views, r.2)) ∧
      (∀ (w : World (PackedNode (K' × M))) (ops : List (WorldOp (MapOp K' M))),
        (qmapInterface (Cell (K' × M)) lt' dflt pol).run pol w.views ops =
          ((qmapInterface (PackedNode (K' × M)) lt' dflt pol).run pol w ops).map fun r => (r.1.views, r.2)) ∧
      ∀ (w : World (PackedNode V)) (i : Nat) (T : Shape V),
        Represents lt key w.views.mem (w.views.objs i) T ↔ Represents lt key w.mem (w.objs i) T :=
  ⟨inferInstance, PackedNode.exists_views,
    run_views (fun op m q => TreeOp.exec_views m lt key pol q op) pol,
    run_views (fun op m q => MapOp.exec_views m lt' dflt pol q op) pol,
    fun w i T => represents_views lt key w.mem (w.objs i) T⟩

end IdaSdk.QtreeDetail
