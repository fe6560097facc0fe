import Mathlib.Data.List.Basic
import Mathlib.Tactic.Common

/-!
Storage for objects. A slot is alive while it holds an object; an object is constructed only in a dead slot and
destroyed only in a live one, so every object is constructed once and destroyed once. Any other access has no result.
-/

namespace IdaSdk.LibSlots

abbrev Slots (α : Type) := List (Option α)

variable {α : Type} {a b : Slots α} {i n : Nat} {x : α} {xs : List α}

/-- Slots that hold the objects `xs`. -/
def live (xs : List α) : Slots α := xs.map some

/-- Slots that hold nothing. -/
def dead (n : Nat) : Slots α := List.replicate n none

variable (s : Slots α)

def read (i : Nat) : Option α := s[i]?.join

def construct (i : Nat) (x : α) : Option (Slots α) :=
  match s[i]? with
  | some none => some (s.set i (some x))
  | _ => none

def destroy (i : Nat) : Option (Slots α) :=
  match s[i]? with
  | some (some _) => some (s.set i none)
  | _ => none

/-- A live object gets another value. -/
def assign (i : Nat) (x : α) : Option (Slots α) :=
  match s[i]? with
  | some (some _) => some (s.set i (some x))
  | _ => none

def readRange (s : Slots α) : Nat → Nat → Option (List α)
  | _, 0 => some []
  | i, n + 1 => do
    let x ← read s i
    let xs ← readRange s (i + 1) n
    some (x :: xs)

def constructRange (s : Slots α) : Nat → List α → Option (Slots α)
  | _, [] => some s
  | i, x :: xs => do
    let s ← construct s i x
    constructRange s (i + 1) xs

def destroyRange (s : Slots α) : Nat → Nat → Option (Slots α)
  | _, 0 => some s
  | i, n + 1 => do
    let s ← destroy s i
    destroyRange s (i + 1) n

/-- Objects are moved as a whole; the places may overlap. -/
def relocate (dst src n : Nat) : Option (Slots α) := do
  let xs ← readRange s src n
  let s ← destroyRange s src n
  constructRange s dst xs

/-- Nothing lives in the storage: it can be given back. -/
def released : Bool := s.all Option.isNone

@[simp] theorem live_nil : live ([] : List α) = [] := rfl

@[simp] theorem live_cons : live (x :: xs) = some x :: live xs := rfl

@[simp] theorem live_append {ys : List α} : live (xs ++ ys) = live xs ++ live ys := List.map_append

@[simp] theorem live_length : (live xs).length = xs.length := List.length_map ..

@[simp] theorem dead_zero : (dead 0 : Slots α) = [] := rfl

@[simp] theorem dead_length : (dead n : Slots α).length = n := List.length_replicate

theorem dead_succ : (dead (n + 1) : Slots α) = none :: dead n := rfl

theorem dead_add (m n : Nat) : (dead (m + n) : Slots α) = dead m ++ dead n := List.replicate_add ..

theorem released_dead : released (dead n : Slots α) = true :=
  List.all_eq_true.mpr fun _ h => Option.isNone_iff_eq_none.mpr (List.mem_replicate.mp h).2

theorem getElem?_mid {o : Option α} (hi : i = a.length) : (a ++ o :: b)[i]? = some o := by
  rw [hi, List.getElem?_append_right (Nat.le_refl _), Nat.sub_self]
  rfl

theorem set_mid {o o' : Option α} (hi : i = a.length) : (a ++ o :: b).set i o' = a ++ o' :: b := by
  rw [hi, List.set_append_right _ _ (Nat.le_refl _), Nat.sub_self]
  rfl

theorem read_mid (hi : i = a.length) : read (a ++ some x :: b) i = some x := by
  rw [read, getElem?_mid hi]
  rfl

theorem construct_mid (hi : i = a.length) : construct (a ++ none :: b) i x = some (a ++ some x :: b) := by
  rw [construct, getElem?_mid hi, set_mid hi]

variable {y : α}

theorem destroy_mid (hi : i = a.length) : destroy (a ++ some x :: b) i = some (a ++ none :: b) := by
  rw [destroy, getElem?_mid hi, set_mid hi]

theorem assign_mid (hi : i = a.length) : assign (a ++ some x :: b) i y = some (a ++ some y :: b) := by
  rw [assign, getElem?_mid hi, set_mid hi]

theorem read_live (h : xs[i]? = some x) : read (live xs ++ b) i = some x := by
  obtain ⟨hi, hget⟩ := List.getElem?_eq_some_iff.mp h
  have hsplit : xs = xs.take i ++ x :: xs.drop (i + 1) := by
    rw [← hget, List.getElem_cons_drop, List.take_append_drop]
  rw [hsplit, live_append, live_cons, List.append_assoc, List.cons_append]
  exact read_mid (by rw [live_length, List.length_take]; omega)

theorem assign_live (h : i < xs.length) : assign (live xs ++ b) i y = some (live (xs.set i y) ++ b) := by
  have hsplit : xs = xs.take i ++ xs[i] :: xs.drop (i + 1) := by
    rw [List.getElem_cons_drop, List.take_append_drop]
  have hset : xs.set i y = xs.take i ++ y :: xs.drop (i + 1) := List.set_eq_take_append_cons_drop .. |>.trans (if_pos h)
  rw [hset]
  nth_rewrite 1 [hsplit]
  rw [live_append, live_cons, List.append_assoc, List.cons_append,
    assign_mid (by rw [live_length, List.length_take]; omega)]
  simp

theorem readRange_mid (hi : i = a.length) (hn : n = xs.length) : readRange (a ++ (live xs ++ b)) i n = some xs := by
  induction xs generalizing a i n with
  | nil =>
      subst hn
      rfl
  | cons x xs ih =>
      subst hn
      rw [List.length_cons, readRange, live_cons, List.cons_append, read_mid hi, Option.bind_eq_bind, Option.bind_some,
        ← List.singleton_append, ← List.append_assoc, ih (by rw [hi, List.length_append, List.length_singleton]) rfl]
      rfl

theorem constructRange_mid (hi : i = a.length) (hn : n = xs.length) :
    constructRange (a ++ (dead n ++ b)) i xs = some (a ++ (live xs ++ b)) := by
  induction xs generalizing a i n with
  | nil =>
      subst hn
      rfl
  | cons x xs ih =>
      subst hn
      rw [List.length_cons, constructRange, dead_succ, List.cons_append, construct_mid hi, Option.bind_eq_bind,
        Option.bind_some, ← List.singleton_append, ← List.append_assoc,
        ih (by rw [hi, List.length_append, List.length_singleton]) rfl, List.append_assoc]
      rfl

theorem destroyRange_mid (hi : i = a.length) (hn : n = xs.length) :
    destroyRange (a ++ (live xs ++ b)) i n = some (a ++ (dead n ++ b)) := by
  induction xs generalizing a i n with
  | nil =>
      subst hn
      rfl
  | cons x xs ih =>
      subst hn
      rw [List.length_cons, destroyRange, live_cons, List.cons_append, destroy_mid hi, Option.bind_eq_bind,
        Option.bind_some, ← List.singleton_append, ← List.append_assoc,
        ih (by rw [hi, List.length_append, List.length_singleton]) rfl, List.append_assoc, dead_succ]
      rfl

theorem relocate_down {g dst src : Nat} (hdst : dst = a.length) (hsrc : src = a.length + g) (hn : n = xs.length) :
    relocate (a ++ (dead g ++ (live xs ++ b))) dst src n = some (a ++ (live xs ++ (dead g ++ b))) := by
  have hsrc' : src = (a ++ dead g).length := by rw [hsrc, List.length_append, dead_length]
  have hgap : dead g ++ (dead n ++ b) = dead n ++ (dead g ++ b) := by
    rw [← List.append_assoc, ← dead_add, Nat.add_comm, dead_add, List.append_assoc]
  rw [relocate, ← List.append_assoc a, readRange_mid hsrc' hn, Option.bind_eq_bind, Option.bind_some,
    destroyRange_mid hsrc' hn, Option.bind_eq_bind, Option.bind_some, List.append_assoc, hgap, constructRange_mid hdst hn]

theorem relocate_up {g dst src : Nat} (hdst : dst = a.length + g) (hsrc : src = a.length) (hn : n = xs.length) :
    relocate (a ++ (live xs ++ (dead g ++ b))) dst src n = some (a ++ (dead g ++ (live xs ++ b))) := by
  have hdst' : dst = (a ++ dead g).length := by rw [hdst, List.length_append, dead_length]
  have hgap : dead n ++ (dead g ++ b) = dead g ++ (dead n ++ b) := by
    rw [← List.append_assoc, ← dead_add, Nat.add_comm, dead_add, List.append_assoc]
  rw [relocate, readRange_mid hsrc hn, Option.bind_eq_bind, Option.bind_some, destroyRange_mid hsrc hn,
    Option.bind_eq_bind, Option.bind_some, hgap, ← List.append_assoc, constructRange_mid hdst' hn, List.append_assoc]

end IdaSdk.LibSlots
