import IdaSdk.LibOutcome
import IdaSdk.LibRing

/-!
Doubly linked lists. The nodes of all lists of a program have one heap; each list has a node of its own without data and
a length that is kept beside the nodes.
-/

namespace IdaSdk.Qlist
open Circular Outcomes

/-- A `listnode_t`: the member `node` of a list, or an allocated `datanode_t`. -/
inductive Ptr where
  | node (list : Nat)
  | cell (a : Nat)
deriving DecidableEq

/-- The nodes and the lengths; `data` is there for the nodes that are allocated. -/
structure Heap (T : Type) extends Links Ptr where
  data : Nat → Option T
  length : Nat → Nat

/-- The allocator in a call: which unused node it gives, if any. -/
structure Allocator where
  qalloc : (Nat → Bool) → Option Nat
  unused : ∀ used a, qalloc used = some a → used a = false

variable {T : Type} (m : Allocator)

namespace Heap

/-- The lists of a program when they have been constructed. -/
def init : Heap T := ⟨⟨id, id⟩, fun _ => none, fun _ => 0⟩

def setNext (h : Heap T) (p q : Ptr) : Heap T := { h with toLinks := h.toLinks.setNext p q }

def setPrev (h : Heap T) (p q : Ptr) : Heap T := { h with toLinks := h.toLinks.setPrev p q }

def setData (h : Heap T) (a : Nat) (x : Option T) : Heap T := { h with data := Function.update h.data a x }

def setLength (h : Heap T) (v n : Nat) : Heap T := { h with length := Function.update h.length v n }

def begin (h : Heap T) (v : Nat) : Ptr := h.next (.node v)

/-- `operator*`; the node of a list has no data. -/
def deref (h : Heap T) : Ptr → Option T
  | .node _ => none
  | .cell a => h.data a

/-- The iterator `i` steps behind the beginning. -/
def iterator (h : Heap T) (v i : Nat) : Ptr := h.next^[i] (h.begin v)

def linkin (h : Heap T) (v : Nat) (p tmp : Ptr) : Heap T :=
  let h := h.setNext tmp p
  let h := h.setPrev tmp (h.prev p)
  let h := h.setNext (h.prev p) tmp
  let h := h.setPrev p tmp
  h.setLength v (h.length v + 1)

def insert (h : Heap T) (v : Nat) (p : Ptr) (x : T) : Outcome (Heap T) (Heap T) :=
  match m.qalloc fun a => (h.data a).isSome with
  | none => .threw h
  | some a => .done ((h.setData a (some x)).linkin v p (.cell a))

/-- `insert` of a range of values outside the lists. -/
def insertValues (h : Heap T) (v : Nat) (p : Ptr) : List T → Outcome (Heap T) (Heap T)
  | [] => .done h
  | x :: xs => (h.insert m v p x).andThen fun h => insertValues h v p xs

/-- `insert` of a range of a list, for `n` rounds. The iterator is advanced before the element is inserted. -/
def insertRange (v : Nat) (p last : Ptr) : Nat → Heap T → Ptr → Outcome (Heap T) (Heap T)
  | 0, _, _ => .undefined
  | n + 1, h, first =>
    if first = last then .done h
    else
      match h.deref first with
      | none => .undefined
      | some x => (h.insert m v p x).andThen fun h' => insertRange v p last n h' (h.next first)

/-- `erase` of an element, with the iterator behind it. -/
def erase (h : Heap T) (v : Nat) : Ptr → Outcome (Heap T) (Heap T × Ptr)
  | .node _ => .undefined
  | .cell a =>
    if (h.data a).isNone then .undefined
    else
      let q := h.next (.cell a)
      let h := h.setNext (h.prev (.cell a)) (h.next (.cell a))
      let h := h.setPrev (h.next (.cell a)) (h.prev (.cell a))
      let h := h.setData a none
      .done (h.setLength v (h.length v - 1), q)

def eraseRange (v : Nat) (p2 : Ptr) : Nat → Heap T → Ptr → Outcome (Heap T) (Heap T)
  | 0, _, _ => .undefined
  | n + 1, h, p1 => if p1 = p2 then .done h else (h.erase v p1).andThen fun (h, p1) => eraseRange v p2 n h p1

variable (n : Nat)

def clear (h : Heap T) (v : Nat) : Outcome (Heap T) (Heap T) := eraseRange v (.node v) n h (h.begin v)

/-- The loop that counts the range of `splice`, for `n` rounds. -/
def countRange (h : Heap T) (last_node : Ptr) : Nat → Ptr → Option Nat
  | 0, _ => none
  | n + 1, curr_node =>
    if curr_node = last_node then some 1 else (h.countRange last_node n (h.next curr_node)).map (· + 1)

def splice (h : Heap T) (v : Nat) (pos : Ptr) (other : Nat) (first last : Ptr) :
    Outcome (Heap T) (Heap T) :=
  if first = last then .done h
  else
    let last_node := h.prev last
    let sublength :=
      if first = h.begin other ∧ last = .node other then some (h.length other) else h.countRange last_node n first
    match sublength with
    | none => .undefined
    | some sublength =>
      let h := h.setNext (h.prev first) (h.next last_node)
      let h := h.setPrev (h.next last_node) (h.prev first)
      let h := h.setLength other (h.length other - sublength)
      let before_pos := h.prev pos
      let h := h.setNext before_pos first
      let h := h.setPrev first before_pos
      let h := h.setNext last_node pos
      let h := h.setPrev pos last_node
      .done (h.setLength v (h.length v + sublength))

def fix_links (h : Heap T) (v len : Nat) : Heap T :=
  if len = 0 then (h.setNext (.node v) (.node v)).setPrev (.node v) (.node v)
  else
    let h := h.setPrev (h.next (.node v)) (.node v)
    h.setNext (h.prev (.node v)) (.node v)

/-- `std::swap(node, x.node)`. -/
def swapNodes (h : Heap T) (v x : Nat) : Heap T :=
  let next := h.next (.node v)
  let prev := h.prev (.node v)
  let h := (h.setNext (.node v) (h.next (.node x))).setPrev (.node v) (h.prev (.node x))
  (h.setNext (.node x) next).setPrev (.node x) prev

def swap (h : Heap T) (v x : Nat) : Heap T :=
  let length := h.length v
  let h := h.swapNodes v x
  let h := (h.setLength v (h.length x)).setLength x length
  let h := h.fix_links v (h.length v)
  h.fix_links x (h.length x)

/-- The loop of the assignment that copies elements over elements, for `n` rounds; then the rest of one of the lists is
erased or inserted. -/
def assignLoop (fuel v x : Nat) : Nat → Heap T → Ptr → Ptr → Outcome (Heap T) (Heap T)
  | 0, _, _, _ => .undefined
  | n + 1, h, first1, first2 =>
    if first1 ≠ .node v ∧ first2 ≠ .node x then
      match first1, h.deref first2 with
      | .cell a, some value =>
        if (h.data a).isNone then .undefined
        else assignLoop fuel v x n (h.setData a (some value)) (h.next first1) (h.next first2)
      | _, _ => .undefined
    else if first2 = .node x then eraseRange v (.node v) fuel h first1
    else insertRange m v (.node v) (.node x) fuel h first2

def assign (h : Heap T) (v x : Nat) : Outcome (Heap T) (Heap T) :=
  if v = x then .done h else assignLoop m n v x n h (h.begin v) (h.begin x)

def assign_move (h : Heap T) (v x : Nat) : Outcome (Heap T) (Heap T) :=
  if v = x then .done h
  else (h.clear n v).andThen fun h => h.splice n v (h.begin v) x (h.begin x) (.node x)

end Heap

/-- A reference to a value outside the lists, or to the element `i` of a list. -/
inductive Arg (T : Type) where
  | outside (x : T)
  | element (list i : Nat)

/-- The calls; an iterator is given by the number of steps from the beginning. -/
inductive Op (T : Type) where
  | insert (v i : Nat) (x : Arg T)
  | insert_new (v i : Nat)
  | insert_values (v i : Nat) (xs : List T)
  | insert_range (v i y first last : Nat)
  | push_front (v : Nat) (x : Arg T)
  | push_back (v : Nat) (x : Arg T)
  | push_back_new (v : Nat)
  | pop_front (v : Nat)
  | pop_back (v : Nat)
  | erase (v i : Nat)
  | erase_range (v first last : Nat)
  | splice (v i other first last : Nat)
  | swap (v x : Nat)
  | assign (v x : Nat)
  | assign_move (v x : Nat)
  | clear (v : Nat)

def Arg.value (h : Heap T) : Arg T → Option T
  | .outside x => some x
  | .element v i => h.deref (h.iterator v i)

def Heap.insertArg (h : Heap T) (v : Nat) (p : Ptr) (x : Arg T) : Outcome (Heap T) (Heap T) :=
  match x.value h with
  | none => .undefined
  | some x => h.insert m v p x

/-- A call, with loops of at most `n` rounds. -/
def Op.run [Inhabited T] (n : Nat) (h : Heap T) : Op T → Outcome (Heap T) (Heap T)
  | .insert v i x => h.insertArg m v (h.iterator v i) x
  | .insert_new v i => h.insert m v (h.iterator v i) default
  | .insert_values v i xs => h.insertValues m v (h.iterator v i) xs
  | .insert_range v i y first last =>
    Heap.insertRange m v (h.iterator v i) (h.iterator y last) n h (h.iterator y first)
  | .push_front v x => h.insertArg m v (h.begin v) x
  | .push_back v x => h.insertArg m v (.node v) x
  | .push_back_new v => h.insert m v (.node v) default
  | .pop_front v => (h.erase v (h.begin v)).andThen fun (h, _) => .done h
  | .pop_back v => (h.erase v (h.prev (.node v))).andThen fun (h, _) => .done h
  | .erase v i => (h.erase v (h.iterator v i)).andThen fun (h, _) => .done h
  | .erase_range v first last => Heap.eraseRange v (h.iterator v last) n h (h.iterator v first)
  | .splice v i other first last =>
    h.splice n v (h.iterator v i) other (h.iterator other first) (h.iterator other last)
  | .swap v x => .done (h.swap v x)
  | .assign v x => h.assign m n v x
  | .assign_move v x => h.assign_move n v x
  | .clear v => h.clear n v

end IdaSdk.Qlist
