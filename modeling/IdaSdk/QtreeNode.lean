import IdaSdk.LibRedBlack

/-!
Nodes of `qtree` and the memory they live in. A node type is given by the accessors that `qtree`
uses (`_parent`, `_color`, `_is_nil`, `left_`, `right_` and the stored value), so that everything
above holds for every node layout whose accessors do not disturb each other. `view` reads a node
through its accessors.
-/

namespace IdaSdk.QtreeDetail
open RedBlack

abbrev Ptr := Nat

abbrev nullptr : Ptr := 0

/-- What the accessors of a node return. -/
@[ext] structure Cell (V : Type*) where
  left : Ptr
  right : Ptr
  parent : Ptr
  color : Color
  isNil : Bool
  value : Option V

namespace Cell

variable {V : Type*}

def child (d : Side) (x : Cell V) : Ptr :=
  match d with
  | .left => x.left
  | .right => x.right

def withChild (d : Side) (x : Cell V) (p : Ptr) : Cell V :=
  match d with
  | .left => { x with left := p }
  | .right => { x with right := p }

variable (x : Cell V)

def withParent (p : Ptr) : Cell V := { x with parent := p }
def withColor (c : Color) : Cell V := { x with color := c }
def withIsNil (b : Bool) : Cell V := { x with isNil := b }
def withValue (v : Option V) : Cell V := { x with value := v }

/-- A material node whose child on side `d` is `near`. -/
def material (d : Side) (near far parent : Ptr) (c : Color) (v : V) : Cell V :=
  match d with
  | .left => ⟨near, far, parent, c, false, some v⟩
  | .right => ⟨far, near, parent, c, false, some v⟩

section
variable (d : Side) (near far parent p : Ptr) (c : Color) (v : V)

@[simp] theorem child_material : (material d near far parent c v).child d = near := by cases d <;> rfl
@[simp] theorem child_flip_material : (material d near far parent c v).child d.flip = far := by cases d <;> rfl
@[simp] theorem parent_material : (material d near far parent c v).parent = parent := by cases d <;> rfl
@[simp] theorem color_material : (material d near far parent c v).color = c := by cases d <;> rfl
@[simp] theorem isNil_material : (material d near far parent c v).isNil = false := by cases d <;> rfl
@[simp] theorem value_material : (material d near far parent c v).value = some v := by cases d <;> rfl
@[simp] theorem withChild_material :
    (material d near far parent c v).withChild d p = material d p far parent c v := by cases d <;> rfl
@[simp] theorem withChild_flip_material :
    (material d near far parent c v).withChild d.flip p = material d near p parent c v := by cases d <;> rfl
@[simp] theorem withParent_material :
    (material d near far parent c v).withParent p = material d near far p c v := by cases d <;> rfl
@[simp] theorem withColor_material (c' : Color) :
    (material d near far parent c v).withColor c' = material d near far parent c' v := by cases d <;> rfl
end

@[simp] theorem child_left : x.child .left = x.left := rfl
@[simp] theorem child_right : x.child .right = x.right := rfl

section
variable (d : Side) (x : Cell V) (p : Ptr) (c : Color) (b : Bool) (v : Option V)

@[simp] theorem child_withChild : (x.withChild d p).child d = p := by cases d <;> rfl
@[simp] theorem child_flip_withChild : (x.withChild d p).child d.flip = x.child d.flip := by cases d <;> rfl
@[simp] theorem parent_withChild : (x.withChild d p).parent = x.parent := by cases d <;> rfl
@[simp] theorem isNil_withChild : (x.withChild d p).isNil = x.isNil := by cases d <;> rfl
@[simp] theorem color_withChild : (x.withChild d p).color = x.color := by cases d <;> rfl
@[simp] theorem value_withChild : (x.withChild d p).value = x.value := by cases d <;> rfl
@[simp] theorem parent_withParent : (x.withParent p).parent = p := rfl
@[simp] theorem child_withParent : (x.withParent p).child d = x.child d := by cases d <;> rfl
@[simp] theorem isNil_withParent : (x.withParent p).isNil = x.isNil := rfl
@[simp] theorem withParent_withParent (q : Ptr) : (x.withParent q).withParent p = x.withParent p := rfl
@[simp] theorem withParent_parent : x.withParent x.parent = x := rfl
@[simp] theorem parent_withColor : (x.withColor c).parent = x.parent := rfl
@[simp] theorem color_withColor : (x.withColor c).color = c := rfl
@[simp] theorem isNil_withColor : (x.withColor c).isNil = x.isNil := rfl
end

end Cell

/-- The accessors of a node type; `blank` is a value-initialised node. -/
class NodeLayout (N : Type*) (V : outParam Type*) where
  blank : N
  left : N → Ptr
  right : N → Ptr
  parent : N → Ptr
  color : N → Color
  isNil : N → Bool
  value : N → Option V
  setLeft : N → Ptr → N
  setRight : N → Ptr → N
  setParent : N → Ptr → N
  setColor : N → Color → N
  setIsNil : N → Bool → N
  setValue : N → Option V → N

def NodeLayout.view {N V : Type*} [NodeLayout N V] (n : N) : Cell V :=
  ⟨left n, right n, parent n, color n, isNil n, value n⟩

/-- Each setter changes its own field only; whether a fresh node is nil is up to the node type. -/
class LawfulNodeLayout (N : Type*) (V : outParam Type*) [NodeLayout N V] : Prop where
  view_setLeft (n : N) (p : Ptr) :
    NodeLayout.view (NodeLayout.setLeft n p) = (NodeLayout.view n).withChild .left p
  view_setRight (n : N) (p : Ptr) :
    NodeLayout.view (NodeLayout.setRight n p) = (NodeLayout.view n).withChild .right p
  view_setParent (n : N) (p : Ptr) :
    NodeLayout.view (NodeLayout.setParent n p) = (NodeLayout.view n).withParent p
  view_setColor (n : N) (c : Color) :
    NodeLayout.view (NodeLayout.setColor n c) = (NodeLayout.view n).withColor c
  view_setIsNil (n : N) (b : Bool) :
    NodeLayout.view (NodeLayout.setIsNil n b) = (NodeLayout.view n).withIsNil b
  view_setValue (n : N) (v : Option V) :
    NodeLayout.view (NodeLayout.setValue n v) = (NodeLayout.view n).withValue v
  view_blank : ∃ b, NodeLayout.view (NodeLayout.blank : N) = ⟨nullptr, nullptr, nullptr, .black, b, none⟩

/-- `qtree_node_unpacked`. -/
instance (V : Type*) : NodeLayout (Cell V) V where
  blank := ⟨nullptr, nullptr, nullptr, .black, true, none⟩
  left := Cell.left
  right := Cell.right
  parent := Cell.parent
  color := Cell.color
  isNil := Cell.isNil
  value := Cell.value
  setLeft x p := { x with left := p }
  setRight x p := { x with right := p }
  setParent x p := { x with parent := p }
  setColor x c := { x with color := c }
  setIsNil x b := { x with isNil := b }
  setValue x v := { x with value := v }

instance (V : Type*) : LawfulNodeLayout (Cell V) V where
  view_setLeft _ _ := rfl
  view_setRight _ _ := rfl
  view_setParent _ _ := rfl
  view_setColor _ _ := rfl
  view_setIsNil _ _ := rfl
  view_setValue _ _ := rfl
  view_blank := ⟨true, rfl⟩

/-- The node memory and the addresses that are allocated in it. -/
structure Mem (N : Type*) where
  cell : Ptr → N
  live : List Ptr

namespace Mem

variable {N V : Type*} [NodeLayout N V]

variable (m : Mem N)

def left (p : Ptr) : Ptr := NodeLayout.left (m.cell p)
def right (p : Ptr) : Ptr := NodeLayout.right (m.cell p)
def parent (p : Ptr) : Ptr := NodeLayout.parent (m.cell p)
def color (p : Ptr) : Color := NodeLayout.color (m.cell p)
def isNil (p : Ptr) : Bool := NodeLayout.isNil (m.cell p)
def value (p : Ptr) : Option V := NodeLayout.value (m.cell p)

def modify (p : Ptr) (f : N → N) : Mem N :=
  { m with cell := Function.update m.cell p (f (m.cell p)) }

def setLeft (p q : Ptr) : Mem N := m.modify p (NodeLayout.setLeft · q)
def setRight (p q : Ptr) : Mem N := m.modify p (NodeLayout.setRight · q)
def setParent (p q : Ptr) : Mem N := m.modify p (NodeLayout.setParent · q)
def setColor (p : Ptr) (c : Color) : Mem N := m.modify p (NodeLayout.setColor · c)
def setIsNil (p : Ptr) (b : Bool) : Mem N := m.modify p (NodeLayout.setIsNil · b)
def setValue (p : Ptr) (v : Option V) : Mem N := m.modify p (NodeLayout.setValue · v)

def child (d : Side) (p : Ptr) : Ptr :=
  match d with
  | .left => m.left p
  | .right => m.right p

def setChild (d : Side) (p q : Ptr) : Mem N :=
  match d with
  | .left => m.setLeft p q
  | .right => m.setRight p q

def nodeColor (p : Ptr) : Color := if m.isNil p then .black else m.color p

def setParentUnlessNil (p q : Ptr) : Mem N := if m.isNil p then m else m.setParent p q

def setColorUnlessNil (p : Ptr) (c : Color) : Mem N :=
  if m.isNil p then m else m.setColor p c

/-- The node at an address, read through its accessors. -/
def view (p : Ptr) : Cell V := NodeLayout.view (m.cell p)

variable (m : Mem N)

variable (p : Ptr)

theorem left_eq : m.left p = (m.view p).left := rfl
theorem right_eq : m.right p = (m.view p).right := rfl
theorem parent_eq : m.parent p = (m.view p).parent := rfl
theorem color_eq : m.color p = (m.view p).color := rfl
theorem isNil_eq : m.isNil p = (m.view p).isNil := rfl
theorem value_eq : m.value p = (m.view p).value := rfl
theorem child_eq (d : Side) (p : Ptr) : m.child d p = (m.view p).child d := by
  cases d <;> rfl

section
variable [LawfulNodeLayout N V] (m : Mem N) (p q a : Ptr)

omit [LawfulNodeLayout N V] in
theorem view_modify (f : N → N) (g : Cell V → Cell V)
    (hfg : ∀ n : N, NodeLayout.view (f n) = g (NodeLayout.view n)) :
    (m.modify p f).view a = if a = p then g (m.view a) else m.view a := by
  by_cases h : a = p
  · subst h
    simp [view, modify, hfg]
  · simp [view, modify, h]

@[simp] theorem view_setLeft :
    (m.setLeft p q).view a = if a = p then (m.view a).withChild .left q else m.view a :=
  m.view_modify p a _ (Cell.withChild .left · q) (LawfulNodeLayout.view_setLeft · q)

@[simp] theorem view_setRight :
    (m.setRight p q).view a = if a = p then (m.view a).withChild .right q else m.view a :=
  m.view_modify p a _ (Cell.withChild .right · q) (LawfulNodeLayout.view_setRight · q)

@[simp] theorem view_setParent :
    (m.setParent p q).view a = if a = p then (m.view a).withParent q else m.view a :=
  m.view_modify p a _ (Cell.withParent · q) (LawfulNodeLayout.view_setParent · q)

@[simp] theorem view_setColor (c : Color) :
    (m.setColor p c).view a = if a = p then (m.view a).withColor c else m.view a :=
  m.view_modify p a _ (Cell.withColor · c) (LawfulNodeLayout.view_setColor · c)

@[simp] theorem view_setIsNil (b : Bool) :
    (m.setIsNil p b).view a = if a = p then (m.view a).withIsNil b else m.view a :=
  m.view_modify p a _ (Cell.withIsNil · b) (LawfulNodeLayout.view_setIsNil · b)

@[simp] theorem view_setValue (v : Option V) :
    (m.setValue p v).view a = if a = p then (m.view a).withValue v else m.view a :=
  m.view_modify p a _ (Cell.withValue · v) (LawfulNodeLayout.view_setValue · v)

@[simp] theorem view_setChild (d : Side) :
    (m.setChild d p q).view a = if a = p then (m.view a).withChild d q else m.view a := by
  cases d <;> simp [setChild]

end

section
variable (m : Mem N) (p q : Ptr)

@[simp] theorem live_setLeft : (m.setLeft p q).live = m.live := rfl
@[simp] theorem live_setRight : (m.setRight p q).live = m.live := rfl
@[simp] theorem live_setParent : (m.setParent p q).live = m.live := rfl
@[simp] theorem live_setColor (c : Color) : (m.setColor p c).live = m.live := rfl
@[simp] theorem live_setIsNil (b : Bool) : (m.setIsNil p b).live = m.live := rfl
@[simp] theorem live_setValue (v : Option V) : (m.setValue p v).live = m.live := rfl
@[simp] theorem live_setChild (d : Side) : (m.setChild d p q).live = m.live := by cases d <;> rfl
end

end Mem

/-- `AllocPolicy`: the address that an allocation returns, given the addresses in use. -/
structure AllocPolicy where
  allocate : List Ptr → Ptr
  allocate_ne_nullptr (used : List Ptr) : allocate used ≠ nullptr
  allocate_notMem (used : List Ptr) : allocate used ∉ used

namespace AllocPolicy

/-- An allocator that never reuses an address below a live one. -/
def bump : AllocPolicy where
  allocate used := used.foldr max 0 + 1
  allocate_ne_nullptr _ := Nat.succ_ne_zero _
  allocate_notMem used h := by
    have hle : ∀ (l : List Ptr), ∀ a ∈ l, a ≤ l.foldr max 0 := by
      intro l
      induction l with
      | nil => simp
      | cons x l ih =>
          intro a ha
          rcases List.mem_cons.mp ha with rfl | ha
          · exact le_max_left _ _
          · exact (ih a ha).trans (le_max_right _ _)
    exact absurd (hle used _ h) (Nat.not_succ_le_self _)

end AllocPolicy

section
variable {N V : Type*} [NodeLayout N V]

def nodeNew (pol : AllocPolicy) (m : Mem N) : Ptr × Mem N :=
  let p := pol.allocate m.live
  (p, { cell := Function.update m.cell p NodeLayout.blank, live := p :: m.live })

theorem nodeNew_spec [LawfulNodeLayout N V] (pol : AllocPolicy) (m : Mem N) :
    (nodeNew pol m).1 ≠ nullptr ∧ (nodeNew pol m).1 ∉ m.live ∧
      (nodeNew pol m).2.live = (nodeNew pol m).1 :: m.live ∧
      ∀ a, a ≠ (nodeNew pol m).1 → (nodeNew pol m).2.view a = m.view a := by
  refine ⟨pol.allocate_ne_nullptr _, pol.allocate_notMem _, rfl, fun a ha => ?_⟩
  have hne : a ≠ pol.allocate m.live := ha
  simp [nodeNew, Mem.view, hne]

def nodeDelete (m : Mem N) (p : Ptr) : Mem N :=
  if p = nullptr then m else { m with live := m.live.filter (· ≠ p) }

def destroyValue (m : Mem N) (p : Ptr) : Mem N :=
  if m.isNil p then m else (m.setValue p none).setIsNil p true

variable (m : Mem N)

@[simp] theorem live_destroyValue (p : Ptr) : (destroyValue m p).live = m.live := by
  unfold destroyValue
  split <;> rfl

theorem view_destroyValue [LawfulNodeLayout N V] {p a : Ptr} (ha : a ≠ p) :
    (destroyValue m p).view a = m.view a := by
  unfold destroyValue
  split
  · rfl
  · simp [ha]

@[simp] theorem view_nodeDelete (p a : Ptr) : (nodeDelete m p).view a = m.view a := by
  unfold nodeDelete
  split <;> rfl

theorem mem_live_nodeDelete {p a : Ptr} (hp : p ≠ nullptr) :
    a ∈ (nodeDelete m p).live ↔ a ∈ m.live ∧ a ≠ p := by
  simp [nodeDelete, hp]

end

end IdaSdk.QtreeDetail
