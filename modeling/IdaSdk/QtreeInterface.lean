import IdaSdk.QtreeEmplace
import IdaSdk.QtreeErase
import IdaSdk.QtreeCopy
import Mathlib.Data.List.Induction
import Mathlib.Data.List.InsertIdx

/-!
The public operations of one tree object: iteration, lookups, insertion and removal. Each is related to
the in-order items of the tree; an iterator is the address of an item or the header.
-/

namespace IdaSdk.QtreeDetail
open RedBlack RedBlack.Ctx SortedList

section
variable {N V K : Type*} [NodeLayout N V] (lt : K → K → Bool) (key : V → K)

variable (m : Mem N)

def beginIt (q : Qtree) : Ptr :=
  if q.header = nullptr ∨ q.nodeCount = 0 then q.header else m.left q.header

def endIt (q : Qtree) : Ptr := q.header

def advance (m : Mem N) : Nat → Ptr → Option Ptr
  | 0, it => some it
  | n + 1, it => (successor m it).bind (advance m n)

def iteratorAt (q : Qtree) (n : Nat) : Option Ptr := advance m n (beginIt m q)

/-- What an iterator shows: nothing at `end()`, and the value elsewhere. -/
def deref (q : Qtree) (it : Ptr) : Option (Option V) :=
  if it = endIt q then some none else (m.value it).map some

def collectLoop (m : Mem N) (last : Ptr) : Nat → Ptr → Option (List V)
  | 0, _ => none
  | fuel + 1, it =>
    if it = last then
      some []
    else
      match m.value it, successor m it with
      | some v, some next => (collectLoop m last fuel next).map (v :: ·)
      | _, _ => none

/-- The values visited from `begin()` to `end()`. -/
def collect (q : Qtree) : Option (List V) :=
  collectLoop m (endIt q) (m.live.length + 1) (beginIt m q)

def collectBackLoop (m : Mem N) (first : Ptr) : Nat → Ptr → Option (List V)
  | 0, _ => none
  | fuel + 1, it =>
    if it = first then
      some []
    else
      match prevIncludingHeader m it with
      | none => none
      | some prev =>
        match m.value prev with
        | none => none
        | some v => (collectBackLoop m first fuel prev).map (v :: ·)

/-- The values visited from `rbegin()` to `rend()`. -/
def collectBack (q : Qtree) : Option (List V) :=
  collectBackLoop m (beginIt m q) (m.live.length + 1) (endIt q)

def find (q : Qtree) (k : K) : Option Ptr := findNode lt key m q k

def contains (q : Qtree) (k : K) : Option Bool :=
  (findNode lt key m q k).map fun p => decide (p ≠ q.header)

def count (q : Qtree) (k : K) : Option Nat :=
  (contains lt key m q k).map fun b => if b then 1 else 0

def lowerBound (q : Qtree) (k : K) : Option Ptr := lowerBoundNode lt key m q k

def upperBound (q : Qtree) (k : K) : Option Ptr := upperBoundNode lt key m q k

def equalRange (q : Qtree) (k : K) : Option (Ptr × Ptr) :=
  match lowerBound lt key m q k, upperBound lt key m q k with
  | some a, some b => some (a, b)
  | _, _ => none

variable (pol : AllocPolicy)

def insert (m : Mem N) (q : Qtree) (v : V) : Option (Mem N × Qtree × Ptr × Bool) :=
  lazyEmplaceImpl lt key pol m q (key v) v

def insertHint (m : Mem N) (q : Qtree) (hint : Ptr) (v : V) : Option (Mem N × Qtree × Ptr) :=
  (lazyEmplaceWithHint lt key pol m q (key v) hint v).map fun (m, q, a, _) => (m, q, a)

def insertRange (pol : AllocPolicy) (m : Mem N) (q : Qtree) : List V → Option (Mem N × Qtree)
  | [] => some (m, q)
  | v :: vs =>
    match insert lt key pol m q v with
    | none => none
    | some (m, q, _, _) => insertRange pol m q vs

/-- `tmp` is the value that the arguments construct. -/
def emplace (m : Mem N) (q : Qtree) (tmp : V) : Option (Mem N × Qtree × Ptr × Bool) :=
  lazyEmplaceImpl lt key pol m q (key tmp) tmp

def emplaceHint (m : Mem N) (q : Qtree) (hint : Ptr) (tmp : V) : Option (Mem N × Qtree × Ptr) :=
  (lazyEmplaceWithHint lt key pol m q (key tmp) hint tmp).map fun (m, q, a, _) => (m, q, a)

/-- `erase(const_iterator pos)`: the iterator is advanced before the node is freed. -/
def eraseAt (q : Qtree) (pos : Ptr) : Option (Mem N × Qtree × Ptr) :=
  match successor m pos with
  | none => none
  | some next => (eraseNode m q pos).map fun (m, q) => (m, q, next)

def eraseRangeLoop (last : Ptr) : Nat → Mem N → Qtree → Ptr → Option (Mem N × Qtree × Ptr)
  | 0, _, _, _ => none
  | fuel + 1, m, q, it =>
    if it = last then
      some (m, q, it)
    else
      match eraseAt m q it with
      | none => none
      | some (m, q, it) => eraseRangeLoop last fuel m q it

/-- `erase(const_iterator first, const_iterator last)`. -/
def eraseRange (q : Qtree) (first last : Ptr) : Option (Mem N × Qtree × Ptr) :=
  eraseRangeLoop last (m.live.length + 1) m q first

def eraseEquiv (q : Qtree) (k : K) : Option (Mem N × Qtree × Nat) :=
  match findNode lt key m q k with
  | none => none
  | some node => if node = q.header then some (m, q, 0) else (eraseNode m q node).map fun (m, q) => (m, q, 1)

def eraseIfLoop (pred : V → Bool) : Nat → Mem N → Qtree → Ptr → Nat → Option (Mem N × Qtree × Nat)
  | 0, _, _, _, _ => none
  | fuel + 1, m, q, it, n =>
    if it = endIt q then
      some (m, q, n)
    else
      match m.value it with
      | none => none
      | some v =>
        if pred v then
          match eraseAt m q it with
          | none => none
          | some (m, q, it) => eraseIfLoop pred fuel m q it (n + 1)
        else
          match successor m it with
          | none => none
          | some it => eraseIfLoop pred fuel m q it n

def eraseIf (q : Qtree) (pred : V → Bool) : Option (Mem N × Qtree × Nat) :=
  eraseIfLoop pred (m.live.length + 1) m q (beginIt m q) 0

end

section
variable {N V K : Type*} [NodeLayout N V] {lt : K → K → Bool} {key : V → K} {m : Mem N} {q : Qtree} {T : Shape V}
  {A B C : List (Item V)} {x : Item V}

/-! ### Iterators -/

theorem posPtr_ne_header (h : RedBlackTree lt key m q T) (hx : x ∈ T.toList) : x.addr ≠ q.header :=
  ne_of_mem_of_not_mem (List.mem_map_of_mem hx) (List.nodup_cons.mp h.focus.nodup).1

theorem addr_ne_posPtr (h : RedBlackTree lt key m q T) (hT : T.toList = A ++ x :: B) (hsub : ∀ y ∈ C, y ∈ B) :
    x.addr ≠ posPtr q.header C.head? := by
  have hnd := h.focus.nodup
  rw [hT] at hnd
  simp only [List.map_append, List.map_cons, List.nodup_cons, List.nodup_append, List.mem_append, List.mem_cons,
    not_or] at hnd
  cases C with
  | nil => exact fun he => hnd.1.2.1 he.symm
  | cons y C =>
      intro he
      exact hnd.2.2.1.1 (he ▸ List.mem_map_of_mem (hsub y (by simp)))

theorem successor_item (h : RedBlackTree lt key m q T) (hT : T.toList = A ++ x :: B) :
    successor m x.addr = some (posPtr q.header B.head?) := by
  obtain ⟨k, c, l, r, rfl, -, hafter⟩ := exists_plug_of_toList hT
  have hf : Focus m q.header (plug k (.node c l x r)).toList k (.node c l x r) := by
    simpa using h.focus.fromRoot
  rw [successor_spec hf h.live, hafter]
  rfl

theorem predecessor_item (h : RedBlackTree lt key m q T) (hT : T.toList = A ++ x :: B) :
    predecessor m x.addr = some (posPtr q.header A.getLast?) := by
  obtain ⟨k, c, l, r, rfl, hbefore, -⟩ := exists_plug_of_toList hT
  have hf : Focus m q.header (plug k (.node c l x r)).toList k (.node c l x r) := by
    simpa using h.focus.fromRoot
  rw [predecessor_spec hf h.live, hbefore]
  rfl

theorem prevIncludingHeader_spec (h : RedBlackTree lt key m q T) (hT : T.toList = A ++ B) :
    prevIncludingHeader m (posPtr q.header B.head?) = some (posPtr q.header A.getLast?) := by
  have hhdr : m.isNil q.header = true := h.focus.hdrNil
  cases B with
  | nil =>
      have hright := h.cache .right
      rw [List.append_nil] at hT
      rw [List.head?_nil, posPtr_none, prevIncludingHeader, if_pos hhdr, ← hT]
      exact congrArg some hright
  | cons y B =>
      have hy : m.isNil y.addr = false := (h.focus.value_of_mem (hT ▸ by simp)).2
      rw [List.head?_cons, posPtr_some, prevIncludingHeader, hy, if_neg (by decide)]
      exact predecessor_item h hT

theorem beginIt_spec (h : Represents lt key m q T) : beginIt m q = posPtr q.header T.toList.head? := by
  rcases h with ⟨rfl, rfl⟩ | h
  · rfl
  by_cases hT : T = .nil
  · subst hT
    have hcount : q.nodeCount = 0 := h.count
    rw [beginIt, if_pos (.inr hcount)]
    rfl
  · rw [beginIt, if_neg (not_or.mpr ⟨h.nonnull _ (by simp), h.count_ne_zero hT⟩)]
    exact h.cache .left

theorem advance_spec (h : RedBlackTree lt key m q T) (hT : T.toList = A ++ B ++ C) :
    advance m B.length (posPtr q.header (B ++ C).head?) = some (posPtr q.header C.head?) := by
  induction B generalizing A with
  | nil => rfl
  | cons x B ih =>
      have hsucc := successor_item h (show T.toList = A ++ x :: (B ++ C) by simpa using hT)
      have hrest := ih (show T.toList = A ++ [x] ++ B ++ C by simpa using hT)
      simp only [List.length_cons, advance, List.cons_append, List.head?_cons, posPtr_some]
      rw [hsucc, Option.bind_some]
      exact hrest

theorem iteratorAt_spec (h : Represents lt key m q T) {n : Nat} (hn : n ≤ T.toList.length) :
    iteratorAt m q n = some (posPtr q.header (T.toList.drop n).head?) := by
  rw [iteratorAt, beginIt_spec h]
  rcases h with ⟨rfl, rfl⟩ | h
  · obtain rfl : n = 0 := by simpa using hn
    rfl
  · have hadv := advance_spec h (show T.toList = [] ++ T.toList.take n ++ T.toList.drop n by simp)
    rwa [List.take_append_drop, List.length_take, Nat.min_eq_left hn] at hadv

theorem deref_spec (h : Represents lt key m q T) {x : Option (Item V)} (hx : ∀ y ∈ x, y ∈ T.toList) :
    deref m q (posPtr q.header x) = some (x.map Item.val) := by
  cases x with
  | none => exact if_pos rfl
  | some y =>
      have hy := hx y rfl
      rcases h with ⟨rfl, rfl⟩ | h
      · simp at hy
      · have hvalue := (h.focus.value_of_mem hy).1
        rw [posPtr_some, deref, endIt, if_neg (posPtr_ne_header h hy), hvalue]
        rfl

theorem collectLoop_spec (h : RedBlackTree lt key m q T) (fuel : Nat) (hT : T.toList = A ++ B)
    (hfuel : B.length < fuel) :
    collectLoop m (endIt q) fuel (posPtr q.header B.head?) = some (B.map Item.val) := by
  induction B generalizing A fuel with
  | nil =>
      obtain ⟨fuel, rfl⟩ : ∃ f, fuel = f + 1 := ⟨fuel - 1, by omega⟩
      exact if_pos rfl
  | cons x B ih =>
      obtain ⟨fuel, rfl⟩ : ∃ f, fuel = f + 1 := ⟨fuel - 1, by omega⟩
      have hx : x ∈ T.toList := by simp [hT]
      have hrest := ih fuel (show T.toList = (A ++ [x]) ++ B by simpa using hT) (by simpa using hfuel)
      rw [List.head?_cons, posPtr_some, collectLoop,
        if_neg (show x.addr ≠ endIt q from posPtr_ne_header h hx),
        (h.focus.value_of_mem hx).1, successor_item h hT]
      simp only [hrest, Option.map_some, List.map_cons]

theorem collect_spec (h : Represents lt key m q T) : collect m q = some (T.toList.map Item.val) := by
  rw [collect, beginIt_spec h]
  rcases h with ⟨rfl, rfl⟩ | h
  · rfl
  · have hlt := h.size_lt
    rw [← ColorTree.length_toList] at hlt
    exact collectLoop_spec h _ (List.nil_append _).symm (by omega)

theorem collectBackLoop_spec (h : RedBlackTree lt key m q T) (fuel : Nat) (hT : T.toList = A ++ B)
    (hfuel : A.length < fuel) :
    collectBackLoop m (posPtr q.header T.toList.head?) fuel (posPtr q.header B.head?) =
      some (A.map Item.val).reverse := by
  induction A using List.reverseRecOn generalizing B fuel with
  | nil =>
      obtain ⟨fuel, rfl⟩ : ∃ f, fuel = f + 1 := ⟨fuel - 1, by omega⟩
      rw [hT]
      exact if_pos rfl
  | append_singleton A x ih =>
      obtain ⟨fuel, rfl⟩ : ∃ f, fuel = f + 1 := ⟨fuel - 1, by omega⟩
      have hx : x ∈ T.toList := by simp [hT]
      have hT' : T.toList = A ++ (x :: B) := by simpa using hT
      have hrest := ih fuel hT' (by simpa using hfuel)
      have hne : posPtr q.header B.head? ≠ posPtr q.header T.toList.head? := by
        cases hA : A with
        | nil =>
            rw [hT', hA, List.nil_append, List.head?_cons]
            exact (addr_ne_posPtr h hT' fun _ hy => hy).symm
        | cons y A' =>
            have hTy : T.toList = [] ++ y :: (A' ++ x :: B) := by rw [hT', hA]; simp
            rw [hTy, List.nil_append, List.head?_cons]
            exact (addr_ne_posPtr h hTy fun z hz => by simp [hz]).symm
      rw [collectBackLoop, if_neg hne, prevIncludingHeader_spec h hT, List.getLast?_append]
      simp only [List.getLast?_singleton, Option.some_or, posPtr_some, (h.focus.value_of_mem hx).1]
      rw [List.head?_cons, posPtr_some] at hrest
      rw [hrest]
      simp

theorem collectBack_spec (h : Represents lt key m q T) :
    collectBack m q = some (T.toList.map Item.val).reverse := by
  rw [collectBack, beginIt_spec h]
  rcases h with ⟨rfl, rfl⟩ | h
  · rfl
  · have hlt := h.size_lt
    rw [← ColorTree.length_toList] at hlt
    exact collectBackLoop_spec h _ (List.append_nil _).symm (by omega)

theorem map_scanFind (k : K) (L : List (Item V)) :
    (scanFind lt (itemKey key) k L).map Item.val = scanFind lt key k (L.map Item.val) := by
  rw [scanFind, scanFind, List.find?_map]
  rfl

theorem map_scanLowerBound (k : K) (L : List (Item V)) :
    (scanLowerBound lt (itemKey key) k L).map Item.val = scanLowerBound lt key k (L.map Item.val) := by
  rw [scanLowerBound, scanLowerBound, List.find?_map]
  rfl

theorem map_scanUpperBound (k : K) (L : List (Item V)) :
    (scanUpperBound lt (itemKey key) k L).map Item.val = scanUpperBound lt key k (L.map Item.val) := by
  rw [scanUpperBound, scanUpperBound, List.find?_map]
  rfl

theorem find_spec (o : StrictWeakOrder lt) (h : Represents lt key m q T) (k : K) :
    ∃ it, find lt key m q k = some it ∧ deref m q it = some (scanFind lt key k (T.toList.map Item.val)) := by
  have hmem : ∀ y ∈ scanFind lt (itemKey key) k T.toList, y ∈ T.toList := fun y hy => List.mem_of_find?_eq_some hy
  refine ⟨_, findNode_spec o h k, ?_⟩
  rw [deref_spec h hmem, map_scanFind]

theorem lowerBound_spec (o : StrictWeakOrder lt) (h : Represents lt key m q T) (k : K) :
    ∃ it, lowerBound lt key m q k = some it ∧
      deref m q it = some (scanLowerBound lt key k (T.toList.map Item.val)) := by
  have hmem : ∀ y ∈ scanLowerBound lt (itemKey key) k T.toList, y ∈ T.toList := fun y hy => List.mem_of_find?_eq_some hy
  refine ⟨_, lowerBoundNode_spec o h k, ?_⟩
  rw [deref_spec h hmem, map_scanLowerBound]

theorem upperBound_spec (o : StrictWeakOrder lt) (h : Represents lt key m q T) (k : K) :
    ∃ it, upperBound lt key m q k = some it ∧
      deref m q it = some (scanUpperBound lt key k (T.toList.map Item.val)) := by
  have hmem : ∀ y ∈ scanUpperBound lt (itemKey key) k T.toList, y ∈ T.toList := fun y hy => List.mem_of_find?_eq_some hy
  refine ⟨_, upperBoundNode_spec o h k, ?_⟩
  rw [deref_spec h hmem, map_scanUpperBound]

theorem contains_spec (o : StrictWeakOrder lt) (h : Represents lt key m q T) (k : K) :
    contains lt key m q k = some (scanFind lt key k (T.toList.map Item.val)).isSome := by
  rw [contains, findNode_spec o h k, Option.map_some, ← map_scanFind, Option.isSome_map]
  cases hscan : scanFind lt (itemKey key) k T.toList with
  | none => simp [posPtr]
  | some x =>
      have hx : x ∈ T.toList := List.mem_of_find?_eq_some hscan
      rcases h with ⟨rfl, rfl⟩ | h
      · simp at hx
      · exact congrArg some (decide_eq_true (posPtr_ne_header h hx))

end

/-! ### Insertion and removal -/

section
variable {N V K : Type*} [NodeLayout N V] [LawfulNodeLayout N V] {lt : K → K → Bool} {key : V → K} {m : Mem N}
  {q : Qtree} {T : Shape V} {A B : List (Item V)} {x : Item V}

theorem eraseAt_spec (h : RedBlackTree lt key m q T) (hT : T.toList = A ++ x :: B) :
    ∃ m' T', eraseAt m q x.addr = some (m', { q with nodeCount := q.nodeCount - 1 }, posPtr q.header B.head?) ∧
      RedBlackTree lt key m' { q with nodeCount := q.nodeCount - 1 } T' ∧ T'.toList = A ++ B ∧
      Evolves m m' (q.header :: addrs T) (q.header :: addrs T') := by
  have hsucc := successor_item h hT
  obtain ⟨k, c, l, r, rfl, hbefore, hafter⟩ := exists_plug_of_toList hT
  obtain ⟨m', T', hrun, hrb, hlist, hev⟩ := eraseNode_spec h
  refine ⟨m', T', ?_, hrb, ?_, hev⟩
  · rw [eraseAt, hsucc]
    simp only [hrun, Option.map_some]
  · rw [hlist, hbefore, List.append_assoc, hafter]

theorem eraseRangeLoop_spec (fuel : Nat) {M : List (Item V)} (h : RedBlackTree lt key m q T)
    (hT : T.toList = A ++ M ++ B) (hfuel : M.length < fuel) :
    ∃ m' q' T', eraseRangeLoop (posPtr q.header B.head?) fuel m q (posPtr q.header (M ++ B).head?) =
        some (m', q', posPtr q'.header B.head?) ∧ RedBlackTree lt key m' q' T' ∧ T'.toList = A ++ B ∧
      q'.header = q.header ∧ Evolves m m' (q.header :: addrs T) (q'.header :: addrs T') := by
  induction M generalizing m q T fuel with
  | nil =>
      obtain ⟨fuel, rfl⟩ : ∃ f, fuel = f + 1 := ⟨fuel - 1, by omega⟩
      exact ⟨m, q, T, if_pos rfl, h, by simpa using hT, rfl, Evolves.refl _ _⟩
  | cons x M ih =>
      obtain ⟨fuel, rfl⟩ : ∃ f, fuel = f + 1 := ⟨fuel - 1, by omega⟩
      have hTx : T.toList = A ++ x :: (M ++ B) := by simpa using hT
      obtain ⟨m₁, T₁, hrun, hrb, hlist, hev⟩ := eraseAt_spec h hTx
      obtain ⟨m', q', T', hrun', hrb', hlist', hhdr, hev'⟩ := ih fuel hrb (by rw [hlist, List.append_assoc])
        (by simpa using hfuel)
      refine ⟨m', q', T', ?_, hrb', hlist', hhdr, hev.trans hev'⟩
      have hne : x.addr ≠ posPtr q.header B.head? := addr_ne_posPtr h hTx fun y hy => by simp [hy]
      rw [List.cons_append, List.head?_cons, posPtr_some, eraseRangeLoop, if_neg hne, hrun]
      exact hrun'

theorem eraseIfLoop_spec (pred : V → Bool) (fuel : Nat) (n : Nat) (h : RedBlackTree lt key m q T)
    (hT : T.toList = A ++ B) (hfuel : B.length < fuel) :
    ∃ m' q' T', eraseIfLoop pred fuel m q (posPtr q.header B.head?) n =
        some (m', q', n + (B.map Item.val).countP pred) ∧ RedBlackTree lt key m' q' T' ∧
      T'.toList = A ++ B.filter (fun x => !pred x.val) ∧ q'.header = q.header ∧
      Evolves m m' (q.header :: addrs T) (q'.header :: addrs T') := by
  induction B generalizing m q T A fuel n with
  | nil =>
      obtain ⟨fuel, rfl⟩ : ∃ f, fuel = f + 1 := ⟨fuel - 1, by omega⟩
      exact ⟨m, q, T, if_pos rfl, h, by simp [hT], rfl, Evolves.refl _ _⟩
  | cons x B ih =>
      obtain ⟨fuel, rfl⟩ : ∃ f, fuel = f + 1 := ⟨fuel - 1, by omega⟩
      have hx : x ∈ T.toList := by simp [hT]
      rw [List.head?_cons, posPtr_some, eraseIfLoop,
        if_neg (show x.addr ≠ endIt q from posPtr_ne_header h hx),
        (h.focus.value_of_mem hx).1]
      cases hpred : pred x.val with
      | true =>
          obtain ⟨m₁, T₁, hrun, hrb, hlist, hev⟩ := eraseAt_spec h hT
          obtain ⟨m', q', T', hrun', hrb', hlist', hhdr, hev'⟩ := ih fuel (n + 1) hrb hlist (by simpa using hfuel)
          refine ⟨m', q', T', ?_, hrb', ?_, hhdr, hev.trans hev'⟩
          · simp only [hrun]
            rw [if_pos hpred, hrun', List.map_cons, List.countP_cons_of_pos hpred, Nat.add_right_comm]
            rfl
          · rw [hlist', List.filter_cons, hpred]
            rfl
      | false =>
          obtain ⟨m', q', T', hrun', hrb', hlist', hhdr, hev'⟩ :=
            ih fuel n h (show T.toList = (A ++ [x]) ++ B by simpa using hT) (by simpa using hfuel)
          refine ⟨m', q', T', ?_, hrb', ?_, hhdr, hev'⟩
          · simp only [successor_item h hT]
            rw [if_neg (by simp [hpred]), List.map_cons, List.countP_cons_of_neg (by simp [hpred])]
            exact hrun'
          · rw [hlist', List.filter_cons, hpred]
            simp

end

section
variable {N V K : Type*} [NodeLayout N V] {lt : K → K → Bool} {key : V → K} {m : Mem N} {q : Qtree} {T : Shape V}

/-- The object at `q` becomes one with the contents `L`, in cells of its own. -/
def Becomes (lt : K → K → Bool) (key : V → K) (m : Mem N) (q : Qtree) (T : Shape V) (m' : Mem N) (q' : Qtree)
    (L : List V) : Prop :=
  ∃ T' : Shape V, Represents lt key m' q' T' ∧ T'.toList.map Item.val = L ∧
    Evolves m m' (footprint q T) (footprint q' T')

theorem Becomes.refl (h : Represents lt key m q T) : Becomes lt key m q T m q (T.toList.map Item.val) :=
  ⟨T, h, rfl, Evolves.refl _ _⟩

theorem becomes_of_redBlackTree {m' : Mem N} {q' : Qtree} {T' : Shape V} (h : RedBlackTree lt key m q T)
    (h' : RedBlackTree lt key m' q' T') (hev : Evolves m m' (q.header :: addrs T) (q'.header :: addrs T')) :
    Becomes lt key m q T m' q' (T'.toList.map Item.val) :=
  ⟨T', .inr h', rfl, by rwa [h.footprint_eq, h'.footprint_eq]⟩

theorem EmplaceOutcome.contents (o : StrictWeakOrder lt) (v : V) {res : Option (Mem N × Qtree × Ptr × Bool)}
    (h : Represents lt key m q T) (hout : EmplaceOutcome lt key m q T (key v) v res) :
    ∃ m' q' a, (res = some (m', q', a, (scanFind lt key (key v) (T.toList.map Item.val)).isNone)) ∧
      Becomes lt key m q T m' q' (insertIfAbsent lt key v (T.toList.map Item.val)) ∧
      deref m' q' a = some (some ((scanFind lt key (key v) (T.toList.map Item.val)).getD v)) := by
  cases hout with
  | @existing x hx heq =>
      obtain ⟨A, B, hAB⟩ := List.append_of_mem hx
      have hscan : scanFind lt key (key v) (T.toList.map Item.val) = some x.val := by
        have hsorted := h.sorted
        rw [hAB, List.map_append, List.map_cons] at hsorted ⊢
        exact hsorted.scanFind_eq_some o heq
      rw [insertIfAbsent, hscan]
      refine ⟨m, q, x.addr, rfl, Becomes.refl h, ?_⟩
      exact deref_spec h fun y (hy : y ∈ some x) => Option.some.inj hy ▸ hx
  | @inserted m' q' T' a A B hT hT' hb hrb hev =>
      have hb' : Between lt key (A.map Item.val) (key v) (B.map Item.val) := Between.map Item.val hb
      have hscan : scanFind lt key (key v) (T.toList.map Item.val) = none := by
        rw [hT, List.map_append]
        exact hb'.scanFind_eq_none
      have hins : insertSorted lt key v (T.toList.map Item.val) = T'.toList.map Item.val := by
        rw [hT, hT', List.map_append, hb'.insertSorted_eq o, List.map_append, List.map_cons]
      rw [insertIfAbsent, hscan]
      refine ⟨m', q', a, rfl, ⟨T', .inr hrb, hins.symm, hev⟩, ?_⟩
      exact deref_spec (.inr hrb) fun y (hy : y ∈ some (⟨a, v⟩ : Item V)) => by
        rw [← Option.some.inj hy, hT']
        simp

end

section
variable {N V K : Type*} [NodeLayout N V] [LawfulNodeLayout N V] {lt : K → K → Bool} {key : V → K} {m : Mem N}
  {q : Qtree} {T : Shape V}

theorem insert_spec (o : StrictWeakOrder lt) (pol : AllocPolicy) (h : Represents lt key m q T) (v : V) :
    ∃ m' q' a,
      insert lt key pol m q v =
        some (m', q', a, (scanFind lt key (key v) (T.toList.map Item.val)).isNone) ∧
      Becomes lt key m q T m' q' (insertIfAbsent lt key v (T.toList.map Item.val)) ∧
      deref m' q' a = some (some ((scanFind lt key (key v) (T.toList.map Item.val)).getD v)) :=
  (lazyEmplaceImpl_spec o pol h).contents o v h

theorem insertHint_spec (o : StrictWeakOrder lt) (pol : AllocPolicy) (h : Represents lt key m q T) {hint : Ptr}
    (hhint : hint = nullptr ∨ hint = q.header ∨ hint ∈ addrs T) (v : V) :
    ∃ m' q' a, insertHint lt key pol m q hint v = some (m', q', a) ∧
      Becomes lt key m q T m' q' (insertIfAbsent lt key v (T.toList.map Item.val)) ∧
      deref m' q' a = some (some ((scanFind lt key (key v) (T.toList.map Item.val)).getD v)) := by
  obtain ⟨m', q', a, hrun, hbecomes, hderef⟩ := (lazyEmplaceWithHint_spec o pol h hhint).contents o v h
  refine ⟨m', q', a, ?_, hbecomes, hderef⟩
  rw [insertHint, hrun]
  rfl

theorem insertRange_spec (o : StrictWeakOrder lt) (pol : AllocPolicy) (h : Represents lt key m q T) (vs : List V) :
    ∃ m' q', insertRange lt key pol m q vs = some (m', q') ∧
      Becomes lt key m q T m' q' (vs.foldl (fun L v => insertIfAbsent lt key v L) (T.toList.map Item.val)) := by
  induction vs generalizing m q T with
  | nil => exact ⟨m, q, rfl, Becomes.refl h⟩
  | cons v vs ih =>
      obtain ⟨m₁, q₁, a, hrun, ⟨T₁, hrep, hlist, hev⟩, -⟩ := insert_spec o pol h v
      obtain ⟨m', q', hrun', T', hrep', hlist', hev'⟩ := ih hrep
      refine ⟨m', q', ?_, T', hrep', ?_, hev.trans hev'⟩
      · rw [insertRange, hrun]
        exact hrun'
      · rw [hlist', hlist, List.foldl_cons]

theorem eraseAt_index_spec (h : Represents lt key m q T) {n : Nat} (hn : n < T.toList.length) :
    ∃ it m' q' it', iteratorAt m q n = some it ∧ eraseAt m q it = some (m', q', it') ∧
      Becomes lt key m q T m' q' ((T.toList.map Item.val).eraseIdx n) ∧
      deref m' q' it' = some (((T.toList.map Item.val).eraseIdx n).drop n).head? := by
  have hit := iteratorAt_spec h (Nat.le_of_lt hn)
  have hsplit : T.toList = T.toList.take n ++ T.toList[n] :: T.toList.drop (n + 1) := by simp
  rcases h with ⟨rfl, rfl⟩ | h
  · simp at hn
  obtain ⟨m', T', hrun, hrb, hlist, hev⟩ := eraseAt_spec h hsplit
  rw [List.drop_eq_getElem_cons hn, List.head?_cons, posPtr_some] at hit
  refine ⟨_, m', _, _, hit, hrun, ?_, ?_⟩
  · have hbecomes := becomes_of_redBlackTree h hrb hev
    rwa [hlist, ← List.eraseIdx_eq_take_drop_succ, ← List.eraseIdx_map] at hbecomes
  have hmem : ∀ y ∈ (T.toList.drop (n + 1)).head?, y ∈ T'.toList := fun y hy => by
    rw [hlist]
    exact List.mem_append_right _ (List.mem_of_head? hy)
  have hlen : (T.toList.map Item.val).take n = (T.toList.take n).map Item.val := List.map_take.symm
  rw [deref_spec (.inr hrb) hmem, List.eraseIdx_eq_take_drop_succ, List.drop_append, hlen]
  simp [Nat.min_eq_left (Nat.le_of_lt hn)]

theorem eraseRange_items (h : RedBlackTree lt key m q T) {first last : Nat} (hle : first ≤ last)
    (hlast : last ≤ T.toList.length) :
    ∃ m' q' T', eraseRange m q (posPtr q.header (T.toList.drop first).head?) (posPtr q.header (T.toList.drop last).head?) =
        some (m', q', posPtr q'.header (T.toList.drop last).head?) ∧ RedBlackTree lt key m' q' T' ∧
      T'.toList = T.toList.take first ++ T.toList.drop last ∧ q'.header = q.header ∧
      Evolves m m' (q.header :: addrs T) (q'.header :: addrs T') := by
  have hmid : T.toList.drop first = (T.toList.drop first).take (last - first) ++ T.toList.drop last := by
    conv_lhs => rw [← List.take_append_drop (last - first) (T.toList.drop first), List.drop_drop]
    rw [Nat.add_sub_cancel' hle]
  have hsplit : T.toList =
      T.toList.take first ++ (T.toList.drop first).take (last - first) ++ T.toList.drop last := by
    rw [List.append_assoc, ← hmid, List.take_append_drop]
  have hlt := h.size_lt
  rw [← ColorTree.length_toList] at hlt
  have hfuel : ((T.toList.drop first).take (last - first)).length < m.live.length + 1 := by
    rw [List.length_take, List.length_drop]
    omega
  have hloop := eraseRangeLoop_spec (m.live.length + 1) h hsplit hfuel
  rwa [← hmid] at hloop

theorem eraseRange_spec (h : Represents lt key m q T) {first last : Nat} (hle : first ≤ last)
    (hlast : last ≤ T.toList.length) :
    ∃ a b m' q' it', iteratorAt m q first = some a ∧ iteratorAt m q last = some b ∧
      eraseRange m q a b = some (m', q', it') ∧
      Becomes lt key m q T m' q' ((T.toList.map Item.val).take first ++ (T.toList.map Item.val).drop last) ∧
      deref m' q' it' = some ((T.toList.map Item.val).drop last).head? := by
  have hfirst := iteratorAt_spec h (hle.trans hlast)
  have hlast' := iteratorAt_spec h hlast
  refine ⟨posPtr q.header (T.toList.drop first).head?, posPtr q.header (T.toList.drop last).head?, ?_⟩
  rcases h with ⟨rfl, rfl⟩ | h
  · obtain rfl : last = 0 := by simpa using hlast
    obtain rfl : first = 0 := by simpa using hle
    exact ⟨m, Qtree.init, nullptr, hfirst, hlast', rfl, Becomes.refl (.inl ⟨rfl, rfl⟩), rfl⟩
  obtain ⟨m', q', T', hrun, hrb, hlist, -, hev⟩ := eraseRange_items h hle hlast
  refine ⟨m', q', _, hfirst, hlast', hrun, ?_, ?_⟩
  · have hbecomes := becomes_of_redBlackTree h hrb hev
    rwa [hlist, List.map_append, List.map_take, List.map_drop] at hbecomes
  · have hmem : ∀ y ∈ (T.toList.drop last).head?, y ∈ T'.toList := fun y hy => by
      rw [hlist]
      exact List.mem_append_right _ (List.mem_of_head? hy)
    rw [deref_spec (.inr hrb) hmem, ← List.map_drop, List.head?_map]

theorem eraseEquiv_spec (o : StrictWeakOrder lt) (h : Represents lt key m q T) (k : K) :
    ∃ m' q',
      eraseEquiv lt key m q k =
        some (m', q', if (scanFind lt key k (T.toList.map Item.val)).isSome then 1 else 0) ∧
      Becomes lt key m q T m' q' (eraseKey lt key k (T.toList.map Item.val)) := by
  rw [eraseEquiv, findNode_spec o h k, ← map_scanFind, Option.isSome_map]
  cases hscan : scanFind lt (itemKey key) k T.toList with
  | none =>
      have hnone : scanFind lt key k (T.toList.map Item.val) = none := by rw [← map_scanFind, hscan, Option.map_none]
      rw [eraseKey_eq_self hnone]
      exact ⟨m, q, if_pos rfl, Becomes.refl h⟩
  | some x =>
      have hx : x ∈ T.toList := List.mem_of_find?_eq_some hscan
      have heq : equiv lt (key x.val) k = true := by
        have hfound := List.find?_some hscan
        exact hfound
      have hsorted := h.sorted
      rcases h with ⟨rfl, rfl⟩ | h
      · simp at hx
      obtain ⟨A, B, hAB⟩ := List.append_of_mem hx
      obtain ⟨m', T', hrun, hrb, hlist, hev⟩ := eraseAt_spec h hAB
      have hrun' : eraseNode m q x.addr = some (m', { q with nodeCount := q.nodeCount - 1 }) := by
        rw [eraseAt, successor_item h hAB] at hrun
        simpa using hrun
      refine ⟨m', { q with nodeCount := q.nodeCount - 1 }, ?_, ?_⟩
      · have hne : posPtr q.header (some x) ≠ q.header := posPtr_ne_header h hx
        refine (if_neg hne).trans ?_
        rw [posPtr_some, hrun']
        rfl
      · have hbecomes := becomes_of_redBlackTree h hrb hev
        rw [hAB, List.map_append, List.map_cons] at hsorted
        rwa [hlist, List.map_append, ← hsorted.eraseKey_eq o heq, ← List.map_cons,
          ← List.map_append, ← hAB] at hbecomes

theorem eraseIf_items (h : RedBlackTree lt key m q T) (pred : V → Bool) :
    ∃ m' q' T', eraseIf m q pred = some (m', q', (T.toList.map Item.val).countP pred) ∧ RedBlackTree lt key m' q' T' ∧
      T'.toList = T.toList.filter (fun x => !pred x.val) ∧ q'.header = q.header ∧
      Evolves m m' (q.header :: addrs T) (q'.header :: addrs T') := by
  have hlt := h.size_lt
  rw [← ColorTree.length_toList] at hlt
  obtain ⟨m', q', T', hrun, hrest⟩ :=
    eraseIfLoop_spec pred (m.live.length + 1) 0 h (List.nil_append _).symm (by omega)
  rw [Nat.zero_add] at hrun
  exact ⟨m', q', T', by rw [eraseIf, beginIt_spec (.inr h), hrun], hrest⟩

theorem eraseIf_spec (h : Represents lt key m q T) (pred : V → Bool) :
    ∃ m' q', eraseIf m q pred = some (m', q', (T.toList.map Item.val).countP pred) ∧
      Becomes lt key m q T m' q' ((T.toList.map Item.val).filter fun v => !pred v) := by
  rcases h with ⟨rfl, rfl⟩ | h
  · exact ⟨m, Qtree.init, rfl, Becomes.refl (.inl ⟨rfl, rfl⟩)⟩
  obtain ⟨m', q', T', hrun, hrb, hlist, -, hev⟩ := eraseIf_items h pred
  refine ⟨m', q', hrun, ?_⟩
  have hbecomes := becomes_of_redBlackTree h hrb hev
  have hvals : T'.toList.map Item.val = (T.toList.map Item.val).filter fun v => !pred v := by
    rw [hlist, List.filter_map]
    rfl
  rwa [hvals] at hbecomes

end

end IdaSdk.QtreeDetail
