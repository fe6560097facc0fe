import IdaSdk.QtreeMap
import IdaSdk.QtreeWorld

/-!
The contract of `qtree` and `qmap`. Over every run of allowed calls, all objects keep the red-black
invariant, and all results are those of the same calls on sorted lists.
-/

namespace IdaSdk.QtreeDetail
open RedBlack SortedList

/-- The calls on one tree. An iterator argument is the position it was obtained at; a hint may also be a
default-constructed iterator. -/
inductive TreeOp (V K : Type) where
  | insert (v : V)
  | insertHint (hint : Option Nat) (v : V)
  | insertRange (vs : List V)
  | emplace (tmp : V)
  | emplaceHint (hint : Option Nat) (tmp : V)
  | erase (pos : Nat)
  | eraseRange (first last : Nat)
  | eraseKey (k : K)
  | eraseIf (pred : V → Bool)
  | clear
  | size
  | empty
  | contains (k : K)
  | count (k : K)
  | find (k : K)
  | lowerBound (k : K)
  | upperBound (k : K)
  | equalRange (k : K)
  | iterate
  | iterateBack

/-- What a call shows. An iterator shows the value it points to, and nothing at `end()`. -/
inductive Obs (V : Type) where
  | unit
  | flag (b : Bool)
  | num (n : Nat)
  | iterator (it : Option V)
  | range (first last : Option V)
  | inserted (it : Option V) (b : Bool)
  | values (vs : List V)

def hintAt {N V : Type} [NodeLayout N V] (m : Mem N) (q : Qtree) : Option Nat → Option Ptr
  | none => some nullptr
  | some n => iteratorAt m q n

section
variable {N V K : Type} [NodeLayout N V] (lt : K → K → Bool) (key : V → K)

def TreeOp.exec (pol : AllocPolicy) (m : Mem N) (q : Qtree) : TreeOp V K → Option (Mem N × Qtree × Obs V)
  | .insert v => do
    let (m, q, it, b) ← QtreeDetail.insert lt key pol m q v
    return (m, q, .inserted (← deref m q it) b)
  | .insertHint hint v => do
    let (m, q, it) ← QtreeDetail.insertHint lt key pol m q (← hintAt m q hint) v
    return (m, q, .iterator (← deref m q it))
  | .insertRange vs => do
    let (m, q) ← QtreeDetail.insertRange lt key pol m q vs
    return (m, q, .unit)
  | .emplace tmp => do
    let (m, q, it, b) ← QtreeDetail.emplace lt key pol m q tmp
    return (m, q, .inserted (← deref m q it) b)
  | .emplaceHint hint tmp => do
    let (m, q, it) ← QtreeDetail.emplaceHint lt key pol m q (← hintAt m q hint) tmp
    return (m, q, .iterator (← deref m q it))
  | .erase pos => do
    let (m, q, it) ← eraseAt m q (← iteratorAt m q pos)
    return (m, q, .iterator (← deref m q it))
  | .eraseRange first last => do
    let (m, q, it) ← QtreeDetail.eraseRange m q (← iteratorAt m q first) (← iteratorAt m q last)
    return (m, q, .iterator (← deref m q it))
  | .eraseKey k => do
    let (m, q, n) ← eraseEquiv lt key m q k
    return (m, q, .num n)
  | .eraseIf pred => do
    let (m, q, n) ← QtreeDetail.eraseIf m q pred
    return (m, q, .num n)
  | .clear => do
    let (m, q) ← QtreeDetail.clear m q
    return (m, q, .unit)
  | .size => some (m, q, .num q.size)
  | .empty => some (m, q, .flag q.empty)
  | .contains k => do return (m, q, .flag (← QtreeDetail.contains lt key m q k))
  | .count k => do return (m, q, .num (← QtreeDetail.count lt key m q k))
  | .find k => do return (m, q, .iterator (← deref m q (← QtreeDetail.find lt key m q k)))
  | .lowerBound k => do return (m, q, .iterator (← deref m q (← QtreeDetail.lowerBound lt key m q k)))
  | .upperBound k => do return (m, q, .iterator (← deref m q (← QtreeDetail.upperBound lt key m q k)))
  | .equalRange k => do
    let (first, last) ← QtreeDetail.equalRange lt key m q k
    return (m, q, .range (← deref m q first) (← deref m q last))
  | .iterate => do return (m, q, .values (← collect m q))
  | .iterateBack => do return (m, q, .values (← collectBack m q))

/-- The calls on a sorted list without equivalent keys. -/
def TreeOp.spec (L : List V) : TreeOp V K → List V × Obs V
  | .insert v | .emplace v =>
    (insertIfAbsent lt key v L,
      .inserted (some ((scanFind lt key (key v) L).getD v)) (scanFind lt key (key v) L).isNone)
  | .insertHint _ v | .emplaceHint _ v =>
    (insertIfAbsent lt key v L, .iterator (some ((scanFind lt key (key v) L).getD v)))
  | .insertRange vs => (vs.foldl (fun L v => insertIfAbsent lt key v L) L, .unit)
  | .erase pos => (L.eraseIdx pos, .iterator ((L.eraseIdx pos).drop pos).head?)
  | .eraseRange first last => (L.take first ++ L.drop last, .iterator (L.drop last).head?)
  | .eraseKey k => (SortedList.eraseKey lt key k L, .num (if (scanFind lt key k L).isSome then 1 else 0))
  | .eraseIf pred => (L.filter fun v => !pred v, .num (L.countP pred))
  | .clear => ([], .unit)
  | .size => (L, .num L.length)
  | .empty => (L, .flag L.isEmpty)
  | .contains k => (L, .flag (scanFind lt key k L).isSome)
  | .count k => (L, .num (if (scanFind lt key k L).isSome then 1 else 0))
  | .find k => (L, .iterator (scanFind lt key k L))
  | .lowerBound k => (L, .iterator (scanLowerBound lt key k L))
  | .upperBound k => (L, .iterator (scanUpperBound lt key k L))
  | .equalRange k => (L, .range (scanLowerBound lt key k L) (scanUpperBound lt key k L))
  | .iterate => (L, .values L)
  | .iterateBack => (L, .values L.reverse)

/-- Positions are in range; the item to erase is not `end()`. -/
def TreeOp.contract : TreeOp V K → Nat → Prop
  | .insertHint hint _, n | .emplaceHint hint _, n => ∀ pos ∈ hint, pos ≤ n
  | .erase pos, n => pos < n
  | .eraseRange first last, n => first ≤ last ∧ last ≤ n
  | _, _ => True

def qtreeInterface (N : Type) {V K : Type} [NodeLayout N V] (lt : K → K → Bool) (key : V → K) (pol : AllocPolicy) : ObjectInterface N V (TreeOp V K) (Obs V) where
  exec op m q := op.exec lt key pol m q
  spec op L := op.spec lt key L
  contract := TreeOp.contract

end

section
variable {N V K : Type} [NodeLayout N V] [LawfulNodeLayout N V] {lt : K → K → Bool} {key : V → K}

omit [LawfulNodeLayout N V] in
theorem hintAt_spec {m : Mem N} {q : Qtree} {T : Shape V} (h : Represents lt key m q T) {hint : Option Nat}
    (hhint : ∀ n ∈ hint, n ≤ T.toList.length) :
    ∃ it, hintAt m q hint = some it ∧ (it = nullptr ∨ it = q.header ∨ it ∈ addrs T) := by
  cases hint with
  | none => exact ⟨nullptr, rfl, .inl rfl⟩
  | some n =>
      refine ⟨_, iteratorAt_spec h (hhint n rfl), .inr ?_⟩
      cases hhead : (T.toList.drop n).head? with
      | none => exact .inl rfl
      | some x => exact .inr (List.mem_map_of_mem (List.mem_of_mem_drop (List.mem_of_head? hhead)))

/-- Every call on a tree meets its meaning on sorted lists. -/
theorem qtreeInterface_sound (o : StrictWeakOrder lt) (pol : AllocPolicy) :
    (qtreeInterface N lt key pol).Sound lt key := by
  intro op m q T h hc
  simp only [qtreeInterface] at hc ⊢
  have hlen : T.toList.length = T.size := ColorTree.length_toList T
  have hlen' : (T.toList.map Item.val).length = T.size := by rw [List.length_map, hlen]
  cases op with
  | insert v =>
      obtain ⟨m', q', a, hrun, hb, hderef⟩ := insert_spec o pol h v
      exact ⟨m', q', by simp [TreeOp.exec, TreeOp.spec, hrun, hderef], hb⟩
  | insertHint hint v =>
      obtain ⟨it, hit, hvalid⟩ := hintAt_spec h fun n hn => hlen.symm ▸ hc n hn
      obtain ⟨m', q', a, hrun, hb, hderef⟩ := insertHint_spec o pol h hvalid v
      exact ⟨m', q', by simp [TreeOp.exec, TreeOp.spec, hit, hrun, hderef], hb⟩
  | insertRange vs =>
      obtain ⟨m', q', hrun, hb⟩ := insertRange_spec o pol h vs
      exact ⟨m', q', by simp [TreeOp.exec, TreeOp.spec, hrun], hb⟩
  | emplace v =>
      obtain ⟨m', q', a, hrun, hb, hderef⟩ := insert_spec o pol h v
      rw [QtreeDetail.insert] at hrun
      exact ⟨m', q', by simp [TreeOp.exec, TreeOp.spec, QtreeDetail.emplace, hrun, hderef], hb⟩
  | emplaceHint hint v =>
      obtain ⟨it, hit, hvalid⟩ := hintAt_spec h fun n hn => hlen.symm ▸ hc n hn
      obtain ⟨m', q', a, hrun, hb, hderef⟩ := insertHint_spec o pol h hvalid v
      rw [QtreeDetail.insertHint] at hrun
      exact ⟨m', q', by simp [TreeOp.exec, TreeOp.spec, QtreeDetail.emplaceHint, hit, hrun, hderef], hb⟩
  | erase pos =>
      obtain ⟨it, m', q', it', hit, hrun, hb, hderef⟩ := eraseAt_index_spec h (hlen.symm ▸ hc)
      exact ⟨m', q', by simp [TreeOp.exec, TreeOp.spec, hit, hrun, hderef], hb⟩
  | eraseRange first last =>
      obtain ⟨a, b, m', q', it', hfirst, hlast, hrun, hb, hderef⟩ := eraseRange_spec h hc.1 (hlen.symm ▸ hc.2)
      exact ⟨m', q', by simp [TreeOp.exec, TreeOp.spec, hfirst, hlast, hrun, hderef], hb⟩
  | eraseKey k =>
      obtain ⟨m', q', hrun, hb⟩ := eraseEquiv_spec o h k
      exact ⟨m', q', by simp [TreeOp.exec, TreeOp.spec, hrun], hb⟩
  | eraseIf pred =>
      obtain ⟨m', q', hrun, hb⟩ := eraseIf_spec h pred
      exact ⟨m', q', by simp [TreeOp.exec, TreeOp.spec, hrun], hb⟩
  | clear =>
      obtain ⟨m', q', hrun, hrep, -, hev⟩ := clear_spec h
      exact ⟨m', q', by simp [TreeOp.exec, TreeOp.spec, hrun], .nil, hrep, rfl, hev⟩
  | size =>
      have hsize : q.size = T.size := h.count
      exact ⟨m, q, by simp [TreeOp.exec, TreeOp.spec, hsize, hlen], Becomes.refl h⟩
  | empty =>
      have hempty : q.empty = (T.toList.map Item.val).isEmpty := by
        rw [Qtree.empty, h.count, ← hlen']
        cases T.toList.map Item.val <;> rfl
      exact ⟨m, q, by rw [TreeOp.exec, TreeOp.spec, hempty], Becomes.refl h⟩
  | contains k =>
      have hrun := contains_spec o h k
      exact ⟨m, q, by simp [TreeOp.exec, TreeOp.spec, hrun], Becomes.refl h⟩
  | count k =>
      have hrun := contains_spec o h k
      exact ⟨m, q, by simp [TreeOp.exec, TreeOp.spec, QtreeDetail.count, hrun], Becomes.refl h⟩
  | find k =>
      obtain ⟨it, hrun, hderef⟩ := find_spec o h k
      exact ⟨m, q, by simp [TreeOp.exec, TreeOp.spec, hrun, hderef], Becomes.refl h⟩
  | lowerBound k =>
      obtain ⟨it, hrun, hderef⟩ := lowerBound_spec o h k
      exact ⟨m, q, by simp [TreeOp.exec, TreeOp.spec, hrun, hderef], Becomes.refl h⟩
  | upperBound k =>
      obtain ⟨it, hrun, hderef⟩ := upperBound_spec o h k
      exact ⟨m, q, by simp [TreeOp.exec, TreeOp.spec, hrun, hderef], Becomes.refl h⟩
  | equalRange k =>
      obtain ⟨a, ha, haderef⟩ := lowerBound_spec o h k
      obtain ⟨b, hb, hbderef⟩ := upperBound_spec o h k
      exact ⟨m, q, by simp [TreeOp.exec, TreeOp.spec, QtreeDetail.equalRange, ha, hb, haderef, hbderef], Becomes.refl h⟩
  | iterate => exact ⟨m, q, by simp [TreeOp.exec, TreeOp.spec, collect_spec h], Becomes.refl h⟩
  | iterateBack => exact ⟨m, q, by simp [TreeOp.exec, TreeOp.spec, collectBack_spec h], Becomes.refl h⟩

end

/-! ### `qmap` -/

/-- The calls on one map; `indexAssign` is `m[k] = mapped`. -/
inductive MapOp (K M : Type) where
  | tree (op : TreeOp (K × M) K)
  | tryEmplace (k : K) (mapped : M)
  | insertOrAssign (k : K) (mapped : M)
  | index (k : K)
  | indexAssign (k : K) (mapped : M)
  | at (k : K)

inductive MapObs (K M : Type) where
  | tree (obs : Obs (K × M))
  | mapped (x : M)
  | outOfRange

section
variable {N K M : Type} [NodeLayout N (K × M)] (lt : K → K → Bool)

/-- `dflt` is the default-constructed mapped value. -/
def MapOp.exec (dflt : M) (pol : AllocPolicy) (m : Mem N) (q : Qtree) :
    MapOp K M → Option (Mem N × Qtree × MapObs K M)
  | .tree op => do
    let (m, q, obs) ← op.exec lt Prod.fst pol m q
    return (m, q, .tree obs)
  | .tryEmplace k mapped => do
    let (m, q, it, b) ← QtreeDetail.tryEmplace lt pol m q k mapped
    return (m, q, .tree (.inserted (← deref m q it) b))
  | .insertOrAssign k mapped => do
    let (m, q, it, b) ← QtreeDetail.insertOrAssign lt pol m q k mapped
    return (m, q, .tree (.inserted (← deref m q it) b))
  | .index k => do
    let (m, q, it) ← QtreeDetail.index lt pol m q dflt k
    let v ← m.value it
    return (m, q, .mapped v.2)
  | .indexAssign k mapped => do
    let (m, q, it) ← QtreeDetail.index lt pol m q dflt k
    let m ← assignSecond m it mapped
    return (m, q, .tree .unit)
  | .at k => do
    match ← atKey lt m q k with
    | some x => return (m, q, .mapped x)
    | none => return (m, q, .outOfRange)

/-- The calls on a finite map, kept as a sorted list of pairs. -/
def MapOp.spec (dflt : M) (L : List (K × M)) : MapOp K M → List (K × M) × MapObs K M
  | .tree op => ((op.spec lt Prod.fst L).1, .tree (op.spec lt Prod.fst L).2)
  | .tryEmplace k mapped =>
    (insertIfAbsent lt Prod.fst (k, mapped) L,
      .tree (.inserted (some ((scanFind lt Prod.fst k L).getD (k, mapped))) (scanFind lt Prod.fst k L).isNone))
  | .insertOrAssign k mapped =>
    (insertOrUpdate lt Prod.fst (k, mapped) (fun v => (v.1, mapped)) L,
      .tree (.inserted (some (((scanFind lt Prod.fst k L).map Prod.fst).getD k, mapped))
        (scanFind lt Prod.fst k L).isNone))
  | .index k => (insertIfAbsent lt Prod.fst (k, dflt) L, .mapped ((scanFind lt Prod.fst k L).getD (k, dflt)).2)
  | .indexAssign k mapped => (insertOrUpdate lt Prod.fst (k, mapped) (fun v => (v.1, mapped)) L, .tree .unit)
  | .at k => (L, ((scanFind lt Prod.fst k L).map fun v => MapObs.mapped v.2).getD .outOfRange)

def MapOp.contract : MapOp K M → Nat → Prop
  | .tree op, n => op.contract n
  | _, _ => True

def qmapInterface (N : Type) {K M : Type} [NodeLayout N (K × M)] (lt : K → K → Bool) (dflt : M) (pol : AllocPolicy) : ObjectInterface N (K × M) (MapOp K M) (MapObs K M) where
  exec op m q := op.exec lt dflt pol m q
  spec op L := op.spec lt dflt L
  contract := MapOp.contract

end

section
variable {N K M : Type} [NodeLayout N (K × M)] [LawfulNodeLayout N (K × M)] {lt : K → K → Bool}

theorem value_of_deref {N V : Type} [NodeLayout N V] {m : Mem N} {q : Qtree} {it : Ptr} {v : V}
    (h : deref m q it = some (some v)) : m.value it = some v := by
  unfold deref at h
  split at h
  · simp at h
  · simpa using h

theorem qmapInterface_sound (o : StrictWeakOrder lt) (dflt : M) (pol : AllocPolicy) :
    (qmapInterface N lt dflt pol).Sound lt Prod.fst := by
  intro op m q T h hc
  simp only [qmapInterface] at hc ⊢
  cases op with
  | tree op =>
      obtain ⟨m', q', hrun, hb⟩ := qtreeInterface_sound o pol op m q T h hc
      simp only [qtreeInterface] at hrun hb
      exact ⟨m', q', by simp [MapOp.exec, MapOp.spec, hrun], hb⟩
  | tryEmplace k mapped =>
      obtain ⟨m', q', it, hrun, hb, hderef⟩ :=
        EmplaceOutcome.contents o (k, mapped) h (tryEmplace_outcome o pol h k mapped)
      exact ⟨m', q', by simp [MapOp.exec, MapOp.spec, hrun, hderef], hb⟩
  | insertOrAssign k mapped =>
      obtain ⟨m', q', it, hrun, hb, hderef⟩ := insertOrAssign_spec o pol h k mapped
      exact ⟨m', q', by simp [MapOp.exec, MapOp.spec, hrun, hderef], hb⟩
  | index k =>
      obtain ⟨m', q', it, hrun, hb, hderef⟩ := index_spec o pol h dflt k
      exact ⟨m', q', by simp [MapOp.exec, MapOp.spec, hrun, value_of_deref hderef], hb⟩
  | indexAssign k mapped =>
      obtain ⟨m', q', it, m'', hrun, hassign, hb⟩ := index_assign_spec o pol h dflt k mapped
      exact ⟨m'', q', by simp [MapOp.exec, MapOp.spec, hrun, hassign], hb⟩
  | «at» k =>
      have hrun := atKey_spec o h k
      refine ⟨m, q, ?_, Becomes.refl h⟩
      cases hscan : scanFind lt Prod.fst k (T.toList.map Item.val) <;> simp [MapOp.exec, MapOp.spec, hrun, hscan]

end

section
variable {N V K M N' : Type} [NodeLayout N V] [LawfulNodeLayout N V] [NodeLayout N' (K × M)]
  [LawfulNodeLayout N' (K × M)] {lt : K → K → Bool} {key : V → K}

theorem strictWeakOrder_nat : StrictWeakOrder fun a b : Nat => decide (a < b) where
  irrefl a := by simp
  trans {a b c} hab hbc := by
    simp only [decide_eq_true_eq] at *
    omega
  incomp_trans {a b c} hab hba hbc hcb := by
    simp only [decide_eq_false_iff_not] at *
    omega

/-- In every reachable world all objects are red-black trees of logarithmic height, and every allowed call
succeeds. -/
theorem reachable_redBlackTree (o : StrictWeakOrder lt) (pol : AllocPolicy) {w : World N}
    (h : (qtreeInterface N lt key pol).Reachable pol w) :
    (∀ i, ∃ T : Shape V, Represents lt key w.mem (w.objs i) T ∧
      T.height ≤ 2 * Nat.log 2 ((w.objs i).size + 1)) ∧
    ∀ op, (qtreeInterface N lt key pol).InContract (fun i => (w.objs i).size) op →
      ∃ r, (qtreeInterface N lt key pol).step pol w op = some r := by
  have hsound : (qtreeInterface N lt key pol).Sound lt key := qtreeInterface_sound o pol
  obtain ⟨σ, hσ⟩ := h.refines hsound
  refine ⟨fun i => ?_, fun op hc => ?_⟩
  · obtain ⟨S, hw, -⟩ := hσ
    have hsize := hw.size_eq i
    refine ⟨S i, hw.represents i, ?_⟩
    rcases hw.represents i with ⟨-, hnil⟩ | hrb
    · simp [hnil, ColorTree.height]
    · obtain ⟨n, hbal⟩ := hrb.balanced
      rw [hsize]
      exact hbal.height_le_log
  · exact h.exists_step hsound hc

theorem reachable_redBlackTree_insert :
    ∃ w : World (Cell Nat), (w.objs 0).size = 1 ∧ ∃ T : Shape Nat,
      Represents (fun a b => decide (a < b)) id w.mem (w.objs 0) T ∧
        T.height ≤ 2 * Nat.log 2 ((w.objs 0).size + 1) := by
  have hreach := @ObjectInterface.Reachable.step _ _ _ _ (qtreeInterface (Cell Nat) (fun a b => decide (a < b)) id .bump)
    _ .bump _ _ (.on 0 (.insert 5)) _ .init trivial rfl
  exact ⟨_, rfl, (reachable_redBlackTree strictWeakOrder_nat .bump hreach).1 0⟩

/-- All results of `qtree` and `qmap` are those of the same calls on sorted lists and finite maps. -/
theorem qtree_qmap_refine (o : StrictWeakOrder lt) (pol : AllocPolicy) (dflt : M) :
    (qtreeInterface N lt key pol).RefinesSortedLists lt key pol ∧
      (qmapInterface N' lt dflt pol).RefinesSortedLists lt Prod.fst pol :=
  ⟨(qtreeInterface_sound o pol).refinesSortedLists pol, (qmapInterface_sound o dflt pol).refinesSortedLists pol⟩

theorem qtree_qmap_refine_nat :
    (qtreeInterface (Cell Nat) (fun a b => decide (a < b)) id .bump).RefinesSortedLists
        (fun a b => decide (a < b)) id .bump ∧
      (qmapInterface (Cell (Nat × Bool)) (fun a b => decide (a < b)) false .bump).RefinesSortedLists
        (fun a b => decide (a < b)) Prod.fst .bump :=
  qtree_qmap_refine strictWeakOrder_nat .bump false

end

end IdaSdk.QtreeDetail
