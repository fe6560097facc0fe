import Mathlib.Data.Nat.Log
import Mathlib.Tactic.Linarith

/-!
Binary trees with coloured nodes, contexts with one hole, and the red-black balance condition.
A context is the list of frames from the hole up to the root. Balance is stated for trees and for
contexts separately, so that a rebalancing step argues about the two or three nodes it touches and
leaves the rest of the tree to `CtxBal.plug` and `Bal.of_plug`.
-/

namespace IdaSdk.RedBlack

inductive Color where
  | red
  | black
deriving DecidableEq, Repr

inductive Side where
  | left
  | right
deriving DecidableEq, Repr

def Side.flip : Side → Side
  | .left => .right
  | .right => .left

@[simp] theorem Side.flip_left : Side.left.flip = .right := rfl
@[simp] theorem Side.flip_right : Side.right.flip = .left := rfl
@[simp] theorem Side.flip_flip (d : Side) : d.flip.flip = d := by cases d <;> rfl

theorem Side.eq_or_eq_flip (d d' : Side) : d = d' ∨ d = d'.flip := by
  cases d <;> cases d' <;> simp

inductive ColorTree (E : Type*) where
  | nil
  | node (color : Color) (left : ColorTree E) (entry : E) (right : ColorTree E)

/-- One step of the path from the root to a hole: the hole is the child on `side`. -/
structure Frame (E : Type*) where
  side : Side
  color : Color
  entry : E
  sibling : ColorTree E

/-- The frames around a hole, the innermost first. -/
abbrev Ctx (E : Type*) := List (Frame E)

variable {E : Type*}

namespace ColorTree

/-- The node whose child on side `d` is `near` and whose other child is `far`. -/
def branch (d : Side) (c : Color) (near : ColorTree E) (e : E) (far : ColorTree E) : ColorTree E :=
  match d with
  | .left => node c near e far
  | .right => node c far e near

variable (c : Color)

@[simp] theorem branch_left (s : ColorTree E) (e : E) (t : ColorTree E) :
    branch .left c s e t = node c s e t := rfl

@[simp] theorem branch_right (s : ColorTree E) (e : E) (t : ColorTree E) :
    branch .right c s e t = node c t e s := rfl

theorem branch_flip (d : Side) (c : Color) (s : ColorTree E) (e : E) (t : ColorTree E) :
    branch d.flip c s e t = branch d c t e s := by cases d <;> rfl

def toList : ColorTree E → List E
  | nil => []
  | node _ l e r => l.toList ++ e :: r.toList

@[simp] theorem toList_nil : (nil : ColorTree E).toList = [] := rfl
@[simp] theorem toList_node (l : ColorTree E) (e : E) (r : ColorTree E) :
    (node c l e r).toList = l.toList ++ e :: r.toList := rfl

def size : ColorTree E → Nat
  | nil => 0
  | node _ l _ r => l.size + r.size + 1

theorem length_toList (t : ColorTree E) : t.toList.length = t.size := by
  induction t with
  | nil => rfl
  | node c l e r ihl ihr => simp only [toList_node, List.length_append, List.length_cons, size]; omega

theorem size_branch (d : Side) (c : Color) (s : ColorTree E) (e : E) (t : ColorTree E) :
    (branch d c s e t).size = s.size + t.size + 1 := by
  cases d
  · rfl
  · simp only [branch_right, size]
    omega

theorem exists_branch (d : Side) {t : ColorTree E} (ht : t ≠ nil) : ∃ c s e u, t = branch d c s e u := by
  cases t with
  | nil => exact absurd rfl ht
  | node c l e r =>
      cases d
      · exact ⟨c, l, e, r, rfl⟩
      · exact ⟨c, r, e, l, rfl⟩

/-- The number of nodes on the longest path from the root. -/
def height : ColorTree E → Nat
  | nil => 0
  | node _ l _ r => max l.height r.height + 1

/-- The nil leaf counts as black. -/
def rootColor : ColorTree E → Color
  | nil => .black
  | node c _ _ _ => c

def withColor (c : Color) : ColorTree E → ColorTree E
  | nil => nil
  | node _ l e r => node c l e r

@[simp] theorem toList_withColor (t : ColorTree E) : (t.withColor c).toList = t.toList := by
  cases t <;> rfl

/-- The same shape and colours with relabelled entries. -/
def map {E' : Type*} (f : E → E') : ColorTree E → ColorTree E'
  | nil => nil
  | node c l e r => node c (l.map f) (f e) (r.map f)

theorem toList_map {E' : Type*} (f : E → E') (t : ColorTree E) : (t.map f).toList = t.toList.map f := by
  induction t with
  | nil => rfl
  | node c l e r ihl ihr => simp only [map, toList_node, ihl, ihr, List.map_append, List.map_cons]

theorem size_map {E' : Type*} (f : E → E') (t : ColorTree E) : (t.map f).size = t.size := by
  rw [← length_toList, toList_map, List.length_map, length_toList]

end ColorTree

open RedBlack.ColorTree

namespace Ctx

def plug : Ctx E → ColorTree E → ColorTree E
  | [], t => t
  | f :: k, t => plug k (branch f.side f.color t f.entry f.sibling)

def before : Ctx E → List E
  | [] => []
  | f :: k =>
      match f.side with
      | .left => before k
      | .right => before k ++ f.sibling.toList ++ [f.entry]

def after : Ctx E → List E
  | [] => []
  | f :: k =>
      match f.side with
      | .left => f.entry :: f.sibling.toList ++ after k
      | .right => after k

variable (c : Color)

@[simp] theorem plug_nil (t : ColorTree E) : plug [] t = t := rfl
@[simp] theorem plug_cons (f : Frame E) (k : Ctx E) (t : ColorTree E) :
    plug (f :: k) t = plug k (branch f.side f.color t f.entry f.sibling) := rfl
@[simp] theorem before_nil : before ([] : Ctx E) = [] := rfl
@[simp] theorem after_nil : after ([] : Ctx E) = [] := rfl
@[simp] theorem before_cons_left (e : E) (s : ColorTree E) (k : Ctx E) :
    before (⟨.left, c, e, s⟩ :: k) = before k := rfl
@[simp] theorem before_cons_right (e : E) (s : ColorTree E) (k : Ctx E) :
    before (⟨.right, c, e, s⟩ :: k) = before k ++ s.toList ++ [e] := rfl
@[simp] theorem after_cons_left (e : E) (s : ColorTree E) (k : Ctx E) :
    after (⟨.left, c, e, s⟩ :: k) = e :: s.toList ++ after k := rfl
@[simp] theorem after_cons_right (e : E) (s : ColorTree E) (k : Ctx E) :
    after (⟨.right, c, e, s⟩ :: k) = after k := rfl

variable (k₁ k₂ : Ctx E)

theorem plug_append (t : ColorTree E) : plug (k₁ ++ k₂) t = plug k₂ (plug k₁ t) := by
  induction k₁ generalizing t with
  | nil => rfl
  | cons f k₁ ih => exact ih _

theorem before_append : before (k₁ ++ k₂) = before k₂ ++ before k₁ := by
  induction k₁ with
  | nil => simp
  | cons f k₁ ih =>
      obtain ⟨side, c, e, s⟩ := f
      cases side <;> simp [ih]

theorem after_append : after (k₁ ++ k₂) = after k₁ ++ after k₂ := by
  induction k₁ with
  | nil => simp
  | cons f k₁ ih =>
      obtain ⟨side, c, e, s⟩ := f
      cases side <;> simp [ih]

variable (k : Ctx E)

theorem before_eq_nil_of_left (hk : ∀ f ∈ k, f.side = .left) : before k = [] := by
  induction k with
  | nil => rfl
  | cons f k ih =>
      obtain ⟨side, c, e, s⟩ := f
      obtain rfl : side = .left := hk _ (List.mem_cons_self ..)
      exact ih fun f hf => hk f (List.mem_cons_of_mem _ hf)

theorem after_eq_nil_of_right (hk : ∀ f ∈ k, f.side = .right) : after k = [] := by
  induction k with
  | nil => rfl
  | cons f k ih =>
      obtain ⟨side, c, e, s⟩ := f
      obtain rfl : side = .right := hk _ (List.mem_cons_self ..)
      exact ih fun f hf => hk f (List.mem_cons_of_mem _ hf)

theorem toList_plug (t : ColorTree E) :
    (plug k t).toList = before k ++ t.toList ++ after k := by
  induction k generalizing t with
  | nil => simp
  | cons f k ih =>
      obtain ⟨side, c, e, s⟩ := f
      cases side <;> simp [ih]

/-- Every position of the in-order list is the node of a context. -/
theorem exists_plug_of_toList {t : ColorTree E} {A B : List E} {e : E} (h : t.toList = A ++ e :: B) :
    ∃ k c l r, t = plug k (.node c l e r) ∧ before k ++ l.toList = A ∧ r.toList ++ after k = B := by
  induction t generalizing A B with
  | nil => simp at h
  | node c l x r ihl ihr =>
      rw [ColorTree.toList_node, List.append_eq_append_iff] at h
      rcases h with ⟨C, rfl, hC⟩ | ⟨C, hl, hC⟩
      · cases C with
        | nil =>
            obtain ⟨rfl, rfl⟩ : x = e ∧ r.toList = B := by simpa using hC
            exact ⟨[], c, l, r, rfl, by simp, by simp⟩
        | cons y C =>
            obtain ⟨rfl, hr⟩ : x = y ∧ r.toList = C ++ e :: B := by simpa using hC
            obtain ⟨k, c', l', r', rfl, hbefore, hafter⟩ := ihr hr
            refine ⟨k ++ [⟨.right, c, x, l⟩], c', l', r', ?_, ?_, ?_⟩
            · rw [plug_append]
              rfl
            · simp [before_append, ← hbefore]
            · simp [after_append, ← hafter]
      · cases C with
        | nil =>
            obtain ⟨rfl, rfl⟩ : e = x ∧ B = r.toList := by simpa using hC
            exact ⟨[], c, l, r, rfl, by simpa using hl, by simp⟩
        | cons y C =>
            obtain ⟨rfl, hB⟩ : e = y ∧ B = C ++ x :: r.toList := by simpa using hC
            obtain ⟨k, c', l', r', rfl, hbefore, hafter⟩ := ihl hl
            refine ⟨k ++ [⟨.left, c, x, r⟩], c', l', r', ?_, ?_, ?_⟩
            · rw [plug_append]
              rfl
            · simp [before_append, ← hbefore]
            · simp [after_append, hB, ← hafter]

theorem length_add_size_le (t : ColorTree E) : k.length + t.size ≤ (plug k t).size := by
  induction k generalizing t with
  | nil => simp
  | cons f k ih =>
      have hle := ih (branch f.side f.color t f.entry f.sibling)
      have hsize : t.size + 1 ≤ (branch f.side f.color t f.entry f.sibling).size := by
        cases f.side <;> simp only [branch, size] <;> omega
      simp only [List.length_cons, plug_cons]
      omega

theorem plug_node_ne_nil (c : Color) (l : ColorTree E) (e : E) (r : ColorTree E) :
    plug k (node c l e r) ≠ nil := by
  induction k generalizing c l e r with
  | nil => simp
  | cons f k ih =>
      obtain ⟨side, c', e', s⟩ := f
      cases side <;> exact ih _ _ _ _

end Ctx

open RedBlack.Ctx

/-- `Bal t c n`: the root of `t` has colour `c`, no red node has a red child, and every path from
the root to a leaf has `n` black nodes. -/
inductive Bal : ColorTree E → Color → Nat → Prop
  | nil : Bal nil .black 0
  | red {l r : ColorTree E} {e : E} {n : Nat} :
      Bal l .black n → Bal r .black n → Bal (node .red l e r) .red n
  | black {l r : ColorTree E} {e : E} {c c' : Color} {n : Nat} :
      Bal l c n → Bal r c' n → Bal (node .black l e r) .black (n + 1)

/-- `CtxBal k c n`: the tree is balanced with a black root once the hole is filled by a tree with
root colour `c` and black height `n`. -/
inductive CtxBal : Ctx E → Color → Nat → Prop
  | root {n : Nat} : CtxBal [] .black n
  | red {d : Side} {e : E} {s : ColorTree E} {k : Ctx E} {n : Nat} :
      Bal s .black n → CtxBal k .red n → CtxBal (⟨d, .red, e, s⟩ :: k) .black n
  | black {d : Side} {e : E} {s : ColorTree E} {k : Ctx E} {c c' : Color} {n : Nat} :
      Bal s c' n → CtxBal k .black (n + 1) → CtxBal (⟨d, .black, e, s⟩ :: k) c n

namespace Bal

variable {t l r : ColorTree E} {c c' : Color} {e : E} {n : Nat}

theorem rootColor_eq (h : Bal t c n) : t.rootColor = c := by cases h <;> rfl

variable (d : Side)

theorem branch_red (hl : Bal l .black n) (hr : Bal r .black n) :
    Bal (branch d .red l e r) .red n := by
  cases d
  · exact .red hl hr
  · exact .red hr hl

theorem branch_black (hl : Bal l c n) (hr : Bal r c' n) :
    Bal (branch d .black l e r) .black (n + 1) := by
  cases d
  · exact .black hl hr
  · exact .black hr hl

theorem of_branch_red {d : Side} (h : Bal (branch d .red l e r) c n) :
    c = .red ∧ Bal l .black n ∧ Bal r .black n := by
  cases d <;> cases h <;> exact ⟨rfl, by assumption, by assumption⟩

theorem of_branch_black {d : Side} (h : Bal (branch d .black l e r) c n) :
    c = .black ∧ ∃ m c₁ c₂, n = m + 1 ∧ Bal l c₁ m ∧ Bal r c₂ m := by
  cases d <;> cases h <;> exact ⟨rfl, _, _, _, rfl, by assumption, by assumption⟩

theorem exists_red (h : Bal t .red n) :
    ∃ l e r, t = branch d .red l e r ∧ Bal l .black n ∧ Bal r .black n := by
  cases h with
  | @red l r e _ hl hr =>
      cases d
      · exact ⟨l, e, r, rfl, hl, hr⟩
      · exact ⟨r, e, l, rfl, hr, hl⟩

theorem exists_black (h : Bal t .black (n + 1)) :
    ∃ l e r c₁ c₂, t = branch d .black l e r ∧ Bal l c₁ n ∧ Bal r c₂ n := by
  cases h with
  | @black l r e c₁ c₂ _ hl hr =>
      cases d
      · exact ⟨l, e, r, c₁, c₂, rfl, hl, hr⟩
      · exact ⟨r, e, l, c₂, c₁, rfl, hr, hl⟩

theorem two_pow_le_size (h : Bal t c n) : 2 ^ n ≤ t.size + 1 := by
  induction h with
  | nil => simp [size]
  | red _ _ ihl ihr => simp only [size]; omega
  | black _ _ ihl ihr => simp only [size, pow_succ]; omega

theorem height_le_blackHeight (h : Bal t c n) :
    t.height ≤ 2 * n + (if c = .red then 1 else 0) := by
  induction h with
  | nil => simp [height]
  | red _ _ ihl ihr => simp only [height, reduceCtorEq, if_false, if_true] at *; omega
  | @black l r e c c' n _ _ ihl ihr =>
      have hl : l.height ≤ 2 * n + 1 := ihl.trans (by split <;> omega)
      have hr : r.height ≤ 2 * n + 1 := ihr.trans (by split <;> omega)
      simp only [height, reduceCtorEq, if_false]
      omega

/-- Balance does not depend on the entries. -/
theorem map_iff {E' : Type*} (f : E → E') : Bal (t.map f) c n ↔ Bal t c n := by
  constructor
  · intro h
    induction t generalizing c n with
    | nil =>
        cases h
        exact .nil
    | node c₀ l e r ihl ihr =>
        cases h with
        | red hl hr => exact .red (ihl hl) (ihr hr)
        | black hl hr => exact .black (ihl hl) (ihr hr)
  · intro h
    induction h with
    | nil => exact .nil
    | red _ _ ihl ihr => exact .red ihl ihr
    | black _ _ ihl ihr => exact .black ihl ihr

theorem height_le_log (h : Bal t .black n) : t.height ≤ 2 * Nat.log 2 (t.size + 1) := by
  have hlog : n ≤ Nat.log 2 (t.size + 1) := Nat.le_log_of_pow_le (by decide) h.two_pow_le_size
  have hheight := h.height_le_blackHeight
  simp only [reduceCtorEq, if_false] at hheight
  omega

theorem withColor_black (h : Bal t c n) : ∃ m, Bal (t.withColor .black) .black m := by
  cases h with
  | nil => exact ⟨_, .nil⟩
  | red hl hr => exact ⟨_, .black hl hr⟩
  | black hl hr => exact ⟨_, .black hl hr⟩

end Bal

variable {n : Nat} {t : ColorTree E} {c : Color}

theorem Bal.withColor_eq (h : Bal t c n) : t.withColor c = t := by
  cases h <;> rfl

namespace CtxBal

variable {k k' : Ctx E} {c : Color} {n : Nat}

theorem weaken (h : CtxBal k c n) : CtxBal k .black n := by
  cases h with
  | root => exact .root
  | red hs hk => exact .red hs hk
  | black hs hk => exact .black hs hk

theorem plug {t : ColorTree E} (hk : CtxBal k c n) (ht : Bal t c n) :
    ∃ m, Bal (Ctx.plug k t) .black m := by
  induction hk generalizing t with
  | root => exact ⟨_, ht⟩
  | red hs _ ih => exact ih (Bal.branch_red _ ht hs)
  | black hs _ ih => exact ih (Bal.branch_black _ ht hs)

variable {d : Side} {e : E} {s : ColorTree E}

theorem of_cons_red (h : CtxBal (⟨d, .red, e, s⟩ :: k) c n) :
    c = .black ∧ Bal s .black n ∧ CtxBal k .red n := by
  cases h with
  | red hs hk => exact ⟨rfl, hs, hk⟩

theorem of_cons_black (h : CtxBal (⟨d, .black, e, s⟩ :: k) c n) :
    (∃ c', Bal s c' n) ∧ CtxBal k .black (n + 1) := by
  cases h with
  | black hs hk => exact ⟨⟨_, hs⟩, hk⟩

theorem sibling_ne_nil {c' : Color}
    (h : CtxBal (⟨d, c', e, s⟩ :: k) c (n + 1)) : s ≠ nil := by
  rintro rfl
  cases h with
  | red hs hk => cases hs
  | black hs hk => cases hs

theorem exists_of_red (h : CtxBal k .red n) :
    ∃ d e s k' c', k = ⟨d, .black, e, s⟩ :: k' ∧ Bal s c' n ∧ CtxBal k' .black (n + 1) := by
  cases h with
  | black hs hk => exact ⟨_, _, _, _, _, rfl, hs, hk⟩

end CtxBal

/-- Every subtree of a balanced tree is balanced, and so is the context around it. -/
theorem Bal.of_plug {k : Ctx E} {m : Nat} (h : Bal (plug k t) .black m) :
    ∃ c n, Bal t c n ∧ CtxBal k c n := by
  induction k generalizing t with
  | nil => exact ⟨_, _, h, .root⟩
  | cons f k ih =>
      obtain ⟨d, color, e, s⟩ := f
      obtain ⟨c, n, hb, hk⟩ := ih h
      cases color with
      | red =>
          obtain ⟨rfl, ht, hs⟩ := hb.of_branch_red
          exact ⟨_, _, ht, .red hs hk⟩
      | black =>
          obtain ⟨rfl, n, c₁, c₂, rfl, ht, hs⟩ := hb.of_branch_black
          exact ⟨_, _, ht, .black hs hk⟩

variable {e : E} {d : Side}

/-- The entry stored in a frame plays no part in its balance. -/
theorem CtxBal.replace_entry {k₁ k₂ : Ctx E} {c' : Color} {e' : E} {s : ColorTree E} (h : CtxBal (k₁ ++ ⟨d, c, e, s⟩ :: k₂) c' n) :
    CtxBal (k₁ ++ ⟨d, c, e', s⟩ :: k₂) c' n := by
  induction k₁ generalizing c' n with
  | nil =>
      cases h with
      | red hs hk => exact .red hs hk
      | black hs hk => exact .black hs hk
  | cons f k₁ ih =>
      obtain ⟨d', cf, ef, sf⟩ := f
      cases h with
      | red hs hk => exact .red hs (ih hk)
      | black hs hk => exact .black hs (ih hk)

/-- What remains balanced around `t` when a node of colour `c` above it is taken out. -/
def Short (c : Color) (k : Ctx E) (t : ColorTree E) : Prop :=
  match c with
  | .black => ∃ c' n, Bal t c' n ∧ CtxBal k .black (n + 1)
  | .red => ∃ n, Bal t .black n ∧ CtxBal k .black n

/-- Taking out a node that has one nil child. -/
theorem Bal.short {k : Ctx E}
    (h : Bal (plug k (branch d c .nil e t)) .black n) : Short c k t := by
  obtain ⟨c', m, hb, hk⟩ := h.of_plug
  cases c with
  | red =>
      obtain ⟨rfl, hnil, ht⟩ := hb.of_branch_red
      exact ⟨_, ht, hk.weaken⟩
  | black =>
      obtain ⟨rfl, m, c₁, c₂, rfl, hnil, ht⟩ := hb.of_branch_black
      exact ⟨_, _, ht, hk⟩

theorem Short.replace_entry {k₁ k₂ : Ctx E} {c' : Color} {e' : E} {s : ColorTree E}
    (h : Short c' (k₁ ++ ⟨d, c, e, s⟩ :: k₂) t) : Short c' (k₁ ++ ⟨d, c, e', s⟩ :: k₂) t := by
  cases c' with
  | red =>
      obtain ⟨n, ht, hk⟩ := h
      exact ⟨n, ht, hk.replace_entry⟩
  | black =>
      obtain ⟨cb, n, ht, hk⟩ := h
      exact ⟨cb, n, ht, hk.replace_entry⟩

end IdaSdk.RedBlack
