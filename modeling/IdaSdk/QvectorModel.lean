import IdaSdk.LibOutcome
import IdaSdk.LibSlots

/-!
Vectors whose elements are moved in memory: as bytes where their type allows it, else one by one. The array of a vector
is a row of slots, and freed memory must hold no element.
-/

namespace IdaSdk.Qvec
open LibSlots Outcomes

/-- What the code depends on of an element type: `moved` is what a move leaves behind, `default` what `T()` gives. -/
structure Element (T : Type) where
  may_move_bytes : Bool
  default : T
  moved : T → T

/-- The allocator in a call: the capacity for a number of elements, and whether an array can be allocated. -/
structure Allocator where
  qvector_reserve : Nat → Option Nat
  qalloc : Nat → Bool
  enough : ∀ cnt alloc, qvector_reserve cnt = some alloc → cnt ≤ alloc

/-- A call leaves the same kind of state with an exception as without. -/
abbrev Result (σ : Type) := Outcome σ σ

structure Qvector (T : Type) where
  array : Option (Slots T)
  n : Nat
  alloc : Nat

/-- A reference to a value outside the vector, or to one of its elements. -/
inductive Arg (T : Type) where
  | outside (x : T)
  | own (i : Nat)

/-- A range of values outside the vector, or of its elements. -/
inductive Range (T : Type) where
  | outside (xs : List T)
  | own (first last : Nat)

variable {T : Type} (e : Element T) (m : Allocator)

variable (s : Slots T)

/-- `new(dst) T(std::move(*src))` and `src->~T()`. -/
def moveOne (dst src : Nat) : Option (Slots T) := do
  let x ← read s src
  let s ← construct s dst x
  destroy s src

def shiftDownLoop (s : Slots T) (dst src : Nat) : Nat → Option (Slots T)
  | 0 => some s
  | cnt + 1 => do
    let s ← moveOne s dst src
    shiftDownLoop s (dst + 1) (src + 1) cnt

def shift_down (dst src cnt : Nat) : Option (Slots T) :=
  if e.may_move_bytes then relocate s dst src cnt else shiftDownLoop s dst src cnt

def shiftUpLoop (s : Slots T) (dst src : Nat) : Nat → Option (Slots T)
  | 0 => some s
  | cnt + 1 => do
    let s ← moveOne s (dst + cnt) (src + cnt)
    shiftUpLoop s dst src cnt

def shift_up (dst src cnt : Nat) : Option (Slots T) :=
  if e.may_move_bytes then relocate s dst src cnt else shiftUpLoop s dst src cnt

/-! ### The vector -/

namespace Qvector

def empty : Qvector T := ⟨none, 0, 0⟩

variable (v : Qvector T)

def slots : Slots T := v.array.getD []

/-- The end of a function that worked on the slots. -/
def put (r : Option (Slots T)) (n : Nat) : Result (Qvector T) :=
  match r with
  | none => .undefined
  | some s => .done ⟨v.array.map fun _ => s, n, v.alloc⟩

def free_memory : Result (Qvector T) :=
  if released v.slots then .done ⟨none, v.n, 0⟩ else .undefined

/-- Where the destructor is trivial, the elements end without a call of it. -/
def resize_less (newsize : Nat) : Result (Qvector T) :=
  v.put (destroyRange v.slots newsize (v.n - newsize)) newsize

/-- The elements are moved to a new array, and the old one is freed. The new array is put before the old one here. -/
def moveArray (new_alloc : Nat) : Result (Qvector T) :=
  match shift_down e (dead new_alloc ++ v.slots) 0 new_alloc v.n with
  | none => .undefined
  | some s => if released (s.drop new_alloc) then .done ⟨some (s.take new_alloc), v.n, new_alloc⟩ else .undefined

def reserve (cnt : Nat) : Result (Qvector T) :=
  if v.alloc < cnt then
    match m.qvector_reserve cnt with
    | none => .threw v
    | some new_alloc =>
      if e.may_move_bytes then .done ⟨some (v.slots ++ dead (new_alloc - v.slots.length)), v.n, new_alloc⟩
      else v.moveArray e new_alloc
  else .done v

def _reallocate_array (new_alloc : Nat) : Result (Qvector T) :=
  if v.array.isNone ∨ new_alloc = 0 then .done v
  else if ¬m.qalloc new_alloc then .done v
  else if e.may_move_bytes then
    if released (v.slots.drop new_alloc) then .done ⟨some (v.slots.take new_alloc), v.n, new_alloc⟩ else .undefined
  else v.moveArray e new_alloc

def truncate : Result (Qvector T) := if v.n < v.alloc then v._reallocate_array e m v.n else .done v

def val : Arg T → Option T
  | .outside x => some x
  | .own i => read v.slots i

/-- The value of `T val(std::move(x))`, and the slots after it. -/
def val_move : Arg T → Option (T × Slots T)
  | .outside x => some (x, v.slots)
  | .own i => do
    let x ← read v.slots i
    let s ← assign v.slots i (e.moved x)
    some (x, s)

/-- The end of `push_back`: an element is constructed behind the last one. -/
def push (x : T) : Result (Qvector T) :=
  (v.reserve e m (v.n + 1)).andThen fun v => v.put (construct v.slots v.n x) (v.n + 1)

def push_back (x : Arg T) : Result (Qvector T) :=
  match v.val x with
  | none => .undefined
  | some x => v.push e m x

def push_back_move (x : Arg T) : Result (Qvector T) :=
  match v.val_move e x with
  | none => .undefined
  | some (x, s) => (v.put (some s) v.n).andThen fun v => v.push e m x

/-- `push_back(void)`: `init` is what default initialisation leaves. -/
def push_back_new (init : T) : Result (Qvector T) := v.push e m init

def pop_back : Result (Qvector T) :=
  if 0 < v.n then v.put (destroy v.slots (v.n - 1)) (v.n - 1) else .done v

def qclear : Result (Qvector T) := v.resize_less 0

def clear : Result (Qvector T) :=
  if v.array.isSome then v.qclear.andThen free_memory else .done v

def destructor : Result (Qvector T) :=
  if v.array.isSome then (v.resize_less 0).andThen free_memory else .done v

def resize_more (newsize : Nat) (x : T) : Result (Qvector T) :=
  (v.reserve e m newsize).andThen fun v =>
    v.put (constructRange v.slots v.n (List.replicate (newsize - v.n) x)) newsize

/-- A reference to an element is copied before the array changes. -/
def resize (newsize : Nat) (x : Arg T) : Result (Qvector T) :=
  if newsize < v.n then v.resize_less newsize
  else if v.n < newsize then
    match v.val x with
    | none => .undefined
    | some x => v.resize_more e m newsize x
  else .done v

/-- `resize(size_t)`; the zeroes of `resize_more_trivial` are `T()` for the types it is for. -/
def resize_default (newsize : Nat) : Result (Qvector T) := v.resize e m newsize (.outside e.default)

/-- The end of `insert`: the elements from `idx` on make room for one. -/
def insertOne (idx : Nat) (x : T) : Result (Qvector T) :=
  (v.reserve e m (v.n + 1)).andThen fun v =>
    v.put ((shift_up e v.slots (idx + 1) idx (v.n - idx)).bind fun s => construct s idx x) (v.n + 1)

def insert (idx : Nat) (x : Arg T) : Result (Qvector T) :=
  match v.val x with
  | none => .undefined
  | some x => v.insertOne e m idx x

def insert_move (idx : Nat) (x : Arg T) : Result (Qvector T) :=
  match v.val_move e x with
  | none => .undefined
  | some (x, s) => (v.put (some s) v.n).andThen fun v => v.insertOne e m idx x

end Qvector

def Range.length : Range T → Nat
  | .outside xs => xs.length
  | .own first last => last - first

def Range.get (k : Nat) : Range T → Option T
  | .outside xs => xs[k]?
  | .own first _ => read s (first + k)

/-- The loop of `insert` over a range, from its element `k` on. -/
def insertLoop (r : Range T) (s : Slots T) (p k : Nat) : Nat → Option (Slots T)
  | 0 => some s
  | cnt + 1 => do
    let x ← r.get s k
    let s ← construct s p x
    insertLoop r s (p + 1) (k + 1) cnt

/-- Iterators of the vector do not survive a new array. -/
def Range.dangles (v : Qvector T) : Range T → Bool
  | .outside _ => false
  | .own first last => v.alloc < v.n + (last - first)

namespace Qvector

variable (v : Qvector T)

def insert_range (idx : Nat) (r : Range T) : Result (Qvector T) :=
  let cnt := r.length
  if cnt = 0 then .done v
  else if r.dangles v then
    (v.reserve e m (v.n + cnt)).andThen fun _ => .undefined
  else
    (v.reserve e m (v.n + cnt)).andThen fun v =>
      v.put ((shift_up e v.slots (idx + cnt) idx (v.n - idx)).bind fun s => insertLoop r s idx 0 cnt) (v.n + cnt)

/-- Copying the bytes of trivially copyable elements is inserting them too. -/
def append (r : Range T) : Result (Qvector T) := v.insert_range e m v.n r

def erase (i : Nat) : Result (Qvector T) :=
  v.put ((destroy v.slots i).bind fun s => shift_down e s i (i + 1) (v.n - i - 1)) (v.n - 1)

def erase_range (first last : Nat) : Result (Qvector T) :=
  v.put ((destroyRange v.slots first (last - first)).bind fun s => shift_down e s first last (v.n - last))
    (v.n - (last - first))

def copy_range (v x : Qvector T) (start newsize : Nat) : Result (Qvector T) :=
  v.put ((readRange x.slots start (newsize - start)).bind (constructRange v.slots start)) newsize

def copy (x : Qvector T) : Result (Qvector T) :=
  if 0 < x.n then
    if m.qalloc x.n then copy_range ⟨some (dead x.n), 0, x.n⟩ x 0 x.n else .threw empty
  else .done empty

end Qvector

/-- The calls on one vector. -/
inductive Call (T : Type) where
  | push_back (x : Arg T)
  | push_back_move (x : Arg T)
  | push_back_new (init : T)
  | pop_back
  | insert (idx : Nat) (x : Arg T)
  | insert_move (idx : Nat) (x : Arg T)
  | insert_range (idx : Nat) (r : Range T)
  | append (r : Range T)
  | erase (i : Nat)
  | erase_range (first last : Nat)
  | resize (newsize : Nat) (x : Arg T)
  | resize_default (newsize : Nat)
  | reserve (cnt : Nat)
  | truncate
  | qclear
  | clear

def Call.run (v : Qvector T) : Call T → Result (Qvector T)
  | .push_back x => v.push_back e m x
  | .push_back_move x => v.push_back_move e m x
  | .push_back_new init => v.push_back_new e m init
  | .pop_back => v.pop_back
  | .insert idx x => v.insert e m idx x
  | .insert_move idx x => v.insert_move e m idx x
  | .insert_range idx r => v.insert_range e m idx r
  | .append r => v.append e m r
  | .erase i => v.erase e i
  | .erase_range first last => v.erase_range e first last
  | .resize newsize x => v.resize e m newsize x
  | .resize_default newsize => v.resize_default e m newsize
  | .reserve cnt => v.reserve e m cnt
  | .truncate => v.truncate e m
  | .qclear => v.qclear
  | .clear => v.clear

abbrev World (T : Type) := Nat → Qvector T

variable (w : World T)

def World.set (v : Nat) (x : Qvector T) : World T := Function.update w v x

/-- A call in a world. -/
inductive Op (T : Type) where
  | call (v : Nat) (c : Call T)
  | swap (v r : Nat)
  | assign (v x : Nat)
  | assign_move (v x : Nat)

/-- The result of a call is put into the world. -/
def Result.into (v : Nat) : Result (Qvector T) → Result (World T)
  | .undefined => .undefined
  | .threw x => .threw (w.set v x)
  | .done x => .done (w.set v x)

/-- `operator=(qvector<T> &&x)` where the vector `m` has taken the contents of `x`. -/
def assignFrom (v : Nat) (m : Qvector T) : Result (World T) :=
  ((w v).clear.into w v).andThen fun w => .done (w.set v m)

def Op.run : Op T → Result (World T)
  | .call v c => (c.run e m (w v)).into w v
  | .swap v r => .done ((w.set v (w r)).set r (w v))
  | .assign v x =>
    match (w x).copy m with
    | .undefined => .undefined
    | .threw _ => .threw w
    | .done copy => assignFrom w v copy
  | .assign_move v x => assignFrom (w.set x .empty) v (w x)

end IdaSdk.Qvec
