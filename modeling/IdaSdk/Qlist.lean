import IdaSdk.QlistAssign
import Mathlib.Data.List.GetD

/-!
In every run of a program the lists are rings through their own nodes, and a list model says what is in them.
-/

namespace IdaSdk.Qlist
open Circular Outcomes

abbrev Lists (T : Type) := Nat → List T

variable {T : Type} {m : Allocator} {h h' : Heap T} {ns : Nat → List Ptr} {ls : Lists T} {v x i n : Nat}

def Arg.read [Inhabited T] (ls : Lists T) : Arg T → T
  | .outside x => x
  | .element v i => (ls v).getD i default

/-- The place in a sequence when the elements from `first` to `last` have been taken out of it. -/
def placeAfter (i first last : Nat) : Nat := if first < i then i - (last - first) else i

def Op.model [Inhabited T] (ls : Lists T) : Op T → Lists T
  | .insert v i x => Function.update ls v ((ls v).take i ++ x.read ls :: (ls v).drop i)
  | .insert_new v i => Function.update ls v ((ls v).take i ++ default :: (ls v).drop i)
  | .insert_values v i xs => Function.update ls v ((ls v).take i ++ (xs ++ (ls v).drop i))
  | .insert_range v i y first last =>
    Function.update ls v ((ls v).take i ++ (((ls y).drop first).take (last - first) ++ (ls v).drop i))
  | .push_front v x => Function.update ls v (x.read ls :: ls v)
  | .push_back v x => Function.update ls v (ls v ++ [x.read ls])
  | .push_back_new v => Function.update ls v (ls v ++ [default])
  | .pop_front v => Function.update ls v (ls v).tail
  | .pop_back v => Function.update ls v (ls v).dropLast
  | .erase v i => Function.update ls v ((ls v).take i ++ (ls v).drop (i + 1))
  | .erase_range v first last => Function.update ls v ((ls v).take first ++ (ls v).drop last)
  | .splice v i other first last =>
    let rest := Function.update ls other ((ls other).take first ++ (ls other).drop last)
    let i := if v = other then placeAfter i first last else i
    Function.update rest v ((rest v).take i ++ (((ls other).drop first).take (last - first) ++ (rest v).drop i))
  | .swap v x => ls ∘ Equiv.swap v x
  | .assign v x => Function.update ls v (ls x)
  | .assign_move v x => if v = x then ls else Function.update (Function.update ls x []) v (ls x)
  | .clear v => Function.update ls v []

/-- The sequences after a call that ends with an exception: a part of what is to be inserted can be there. -/
def Op.Thrown (ls ls' : Lists T) : Op T → Prop
  | .insert_values v i xs => ∃ k, ls' = Function.update ls v ((ls v).take i ++ (xs.take k ++ (ls v).drop i))
  | .insert_range v i _ _ _ => ∃ zs, ls' = Function.update ls v ((ls v).take i ++ (zs ++ (ls v).drop i))
  | .assign v x => ∃ k, ls' = Function.update ls v ((ls x).take k)
  | _ => ls' = ls

def Arg.Valid (size : Nat → Nat) : Arg T → Prop
  | .outside _ => True
  | .element v i => i < size v

/-- The iterators and references of a call are those of the lists, and the position of `splice` is outside the range. -/
def Op.Valid (size : Nat → Nat) : Op T → Prop
  | .insert v i x => i ≤ size v ∧ x.Valid size
  | .insert_new v i => i ≤ size v
  | .insert_values v i _ => i ≤ size v
  | .insert_range v i y first last => i ≤ size v ∧ first ≤ last ∧ last ≤ size y
  | .push_front _ x => x.Valid size
  | .push_back _ x => x.Valid size
  | .pop_front v => 0 < size v
  | .pop_back v => 0 < size v
  | .erase v i => i < size v
  | .erase_range v first last => first ≤ last ∧ last ≤ size v
  | .splice v i other first last =>
    i ≤ size v ∧ first ≤ last ∧ last ≤ size other ∧ (v = other → i < first ∨ last ≤ i)
  | _ => True

/-- The call does not end: a list inserts its own elements behind the second one of them. -/
def Op.Endless : Op T → Prop
  | .insert_range v i y first last => y = v ∧ first + 2 ≤ i ∧ i ≤ last
  | _ => False

/-- The number of rounds of the longest loop in a call. -/
def Op.rounds (ls : Lists T) : Op T → Nat
  | .insert_range _ _ _ first last => last - first
  | .erase_range _ first last => last - first
  | .splice _ _ _ first last => last - first
  | .assign v x => (ls v).length + (ls x).length
  | .assign_move v x => (ls v).length + (ls x).length
  | .clear v => (ls v).length
  | _ => 0

theorem Refines.at_place (H : Refines h ns ls) (hi : i ≤ (ls v).length) :
    h.iterator v i = ((ns v).drop i).headD (.node v) ∧ ((ns v).take i).length = ((ls v).take i).length := by
  have hlength := H.length_eq v
  refine ⟨H.iterator_eq (List.take_append_drop i (ns v)).symm ?_, ?_⟩
  · rw [List.length_take]
    omega
  · rw [List.length_take, List.length_take, hlength]

variable {first last : Nat} {α : Type}

variable (l : List α)

theorem split_range (hle : first ≤ last) :
    l = l.take first ++ ((l.drop first).take (last - first) ++ l.drop last) := by
  have hdrop : l.drop last = (l.drop first).drop (last - first) := by
    rw [List.drop_drop]
    congr 1
    omega
  rw [hdrop, List.take_append_drop, List.take_append_drop]

theorem drop_headD (i : Nat) (d : α) : (l.drop i).headD d = l[i]?.getD d := by
  rw [List.headD_eq_head?_getD, List.head?_drop]

theorem getElem?_placeAfter (hle : first ≤ last) (hlast : last ≤ l.length)
    (hi : i < first ∨ last ≤ i) : (l.take first ++ l.drop last)[placeAfter i first last]? = l[i]? := by
  have hlength : (l.take first).length = first := by
    rw [List.length_take]
    omega
  unfold placeAfter
  split
  · rw [List.getElem?_append_right (by omega), hlength, List.getElem?_drop]
    congr 1
    omega
  by_cases hlt : i < first
  · rw [List.getElem?_append_left (by omega), List.getElem?_take_of_lt hlt]
  · have hfirst : i = first := by omega
    have hempty : last = first := by omega
    rw [hempty, List.take_append_drop]

/-! ### Calls -/

theorem value_spec [Inhabited T] (H : Refines h ns ls) {a : Arg T} (ha : a.Valid fun v => (ls v).length) :
    a.value h = some (a.read ls) := by
  cases a with
  | outside x => rfl
  | element v i =>
      have hi : i < (ls v).length := ha
      have hi' : i < (ns v).length := by rwa [H.length_eq]
      have hplace : h.iterator v i = (ns v)[i] := by
        rw [(H.at_place (Nat.le_of_lt hi)).1, drop_headD, List.getElem?_eq_getElem hi']
        rfl
      have hvalue : h.deref (ns v)[i] = some (ls v)[i] := by
        have hget := congrArg (fun l => l[i]?) (H.values v)
        simp only [List.getElem?_map, List.getElem?_eq_getElem hi, List.getElem?_eq_getElem hi', Option.map_some] at hget
        exact Option.some.inj hget
      change h.deref (h.iterator v i) = _
      rw [hplace, hvalue, Arg.read, List.getD_eq_getElem _ _ hi]

/-- The states a call may leave: with the nodes of some lists, the sequences that `P` allows. -/
def Leaves (P : Lists T → Prop) (h : Heap T) : Prop := ∃ ns ls, Refines h ns ls ∧ P ls

variable {p : Ptr}

theorem insert_at {y : T} (H : Refines h ns ls) (hi : i ≤ (ls v).length) (hp : p = h.iterator v i) :
    (h.insert m v p y).Ends (Leaves (· = Function.update ls v ((ls v).take i ++ y :: (ls v).drop i)))
      (Leaves (· = ls)) := by
  obtain ⟨hplace, hlength⟩ := H.at_place hi
  refine (insert_spec H (List.take_append_drop i (ns v)).symm (List.take_append_drop i (ls v)).symm hlength
    (hp.trans hplace) y).imp (fun h' ⟨a, _, H'⟩ => ⟨_, _, H', rfl⟩) fun h' hh' => ?_
  exact ⟨ns, ls, hh' ▸ H, rfl⟩

theorem insertArg_at [Inhabited T] {a : Arg T} (H : Refines h ns ls) (hi : i ≤ (ls v).length)
    (ha : a.Valid fun v => (ls v).length) (hp : p = h.iterator v i) :
    (h.insertArg m v p a).Ends
      (Leaves (· = Function.update ls v ((ls v).take i ++ a.read ls :: (ls v).drop i))) (Leaves (· = ls)) := by
  unfold Heap.insertArg
  rw [value_spec H ha]
  exact insert_at H hi hp

theorem end_place (H : Refines h ns ls) (v : Nat) : Ptr.node v = h.iterator v (ls v).length := by
  rw [(H.at_place (Nat.le_refl _)).1, ← H.length_eq, List.drop_length]
  rfl

variable {Q : Heap T → Prop}

theorem erase_at (H : Refines h ns ls) (hi : i < (ls v).length)
    (hp : p = h.iterator v i) :
    ((h.erase v p).andThen fun (h, _) => .done h).Ends
      (Leaves (· = Function.update ls v ((ls v).take i ++ (ls v).drop (i + 1)))) Q := by
  have hi' : i < (ns v).length := by rwa [H.length_eq]
  have hplace : h.iterator v i = (ns v)[i] := by
    rw [(H.at_place (Nat.le_of_lt hi)).1, drop_headD, List.getElem?_eq_getElem hi']
    rfl
  have hns : ns v = (ns v).take i ++ (ns v)[i] :: (ns v).drop (i + 1) := by
    rw [List.getElem_cons_drop, List.take_append_drop]
  have hls : ls v = (ls v).take i ++ (ls v)[i] :: (ls v).drop (i + 1) := by
    rw [List.getElem_cons_drop, List.take_append_drop]
  rw [hp, hplace]
  refine Outcome.EndsIf.andThen (erase_spec H hns hls (H.at_place (Nat.le_of_lt hi)).2) fun ⟨h₁, p₁⟩ ⟨_, H₁⟩ => ?_
  exact ⟨_, _, H₁, rfl⟩

theorem Refines.range (H : Refines h ns ls) (hle : first ≤ last) (hlast : last ≤ (ls v).length) :
    h.iterator v first = (((ns v).drop first).take (last - first) ++ (ns v).drop last).headD (.node v) ∧
      h.iterator v last = ((ns v).drop last).headD (.node v) ∧
      (((ns v).drop first).take (last - first)).length = (((ls v).drop first).take (last - first)).length ∧
      (((ns v).drop first).take (last - first)).length = last - first := by
  have hlength := H.length_eq v
  have hsplit : ((ns v).drop first).take (last - first) ++ (ns v).drop last = (ns v).drop first := by
    have hparts := (split_range (ns v) hle).symm.trans (List.take_append_drop first (ns v)).symm
    exact List.append_cancel_left hparts
  refine ⟨?_, (H.at_place hlast).1, ?_, ?_⟩
  · rw [hsplit]
    exact (H.at_place (Nat.le_trans hle hlast)).1
  · simp only [List.length_take, List.length_drop, hlength]
  · rw [List.length_take, List.length_drop]
    omega

theorem last_take {i : Nat} (hpos : 0 < i) (hi : i ≤ l.length) (d : α) :
    (l.take i).getLastD d = l[i - 1] := by
  have hsplit : l.take i = l.take (i - 1) ++ [l[i - 1]] := by
    rw [List.take_append_getElem, Nat.sub_add_cancel hpos]
  rw [hsplit, List.getLastD_concat]

theorem before_range {y : Nat} (H : Refines h ns ls) (hi : i ≤ (ls v).length)
    (hc : ¬(y = v ∧ first + 2 ≤ i ∧ i ≤ last)) :
    ((ns v).take i).getLastD (.node v) ∉ (((ns y).drop first).take (last - first)).tail := by
  intro hmem
  have hrange : ((ns v).take i).getLastD (.node v) ∈ ns y :=
    List.mem_of_mem_drop (List.mem_of_mem_take (List.mem_of_mem_tail hmem))
  have hring := (around_mem (List.take_append_drop i (ns v)).symm).1
  by_cases hy : y = v
  · subst hy
    have hlength := H.length_eq y
    rcases Nat.eq_zero_or_pos i with rfl | hpos
    · exact (List.nodup_cons.mp (H.rings.nodup y)).1 hrange
    have htail : (((ns y).drop first).take (last - first)).tail = ((ns y).drop (first + 1)).take (last - first - 1) := by
      rw [← List.drop_one, List.drop_take, List.drop_drop]
    rw [last_take _ hpos (by omega), htail] at hmem
    obtain ⟨j, hj, hget⟩ := List.mem_iff_getElem.mp hmem
    rw [List.getElem_take, List.getElem_drop] at hget
    have hj' := hj
    rw [List.length_take, List.length_drop] at hj'
    have heq := (List.nodup_cons.mp (H.rings.nodup y)).2.getElem_inj_iff.mp hget
    exact hc ⟨rfl, by omega, by omega⟩
  · exact H.rings.disjoint v y (Ne.symm hy) _ hring (List.mem_cons_of_mem _ hrange)

theorem insertRange_at {y : Nat} (H : Refines h ns ls) (hi : i ≤ (ls v).length) (hle : first ≤ last)
    (hlast : last ≤ (ls y).length) :
    (Heap.insertRange m v (h.iterator v i) (h.iterator y last) n h (h.iterator y first)).EndsIf
      (last - first < n ∧ ¬(y = v ∧ first + 2 ≤ i ∧ i ≤ last))
      (Leaves (· = Function.update ls v ((ls v).take i ++ (((ls y).drop first).take (last - first) ++ (ls v).drop i))))
      (Leaves fun ls' => ∃ zs, ls' = Function.update ls v ((ls v).take i ++ (zs ++ (ls v).drop i))) := by
  obtain ⟨hplace, hlength⟩ := H.at_place hi
  have hns : ns v = (ns v).take i ++ (ns v).drop i := (List.take_append_drop i _).symm
  have hls : ls v = (ls v).take i ++ (ls v).drop i := (List.take_append_drop i _).symm
  by_cases hc : y = v ∧ first + 2 ≤ i ∧ i ≤ last
  · obtain ⟨rfl, hfirst, hbehind⟩ := hc
    have hlen := H.length_eq y
    have hlt : first < (ns y).length := by omega
    have hnodes : ns y = ((ns y).take first ++ (ns y)[first] :: ((ns y).drop (first + 1)).take (i - first - 1)) ++
        (ns y).drop i := by
      have hsplit := split_range (ns y) (show first ≤ i by omega)
      rw [List.drop_eq_getElem_cons hlt, List.take_cons (by omega)] at hsplit
      rwa [← List.append_assoc] at hsplit
    have hbegin : h.iterator y first = (ns y)[first] := by
      rw [(H.at_place (Nat.le_trans hle hlast)).1, drop_headD, List.getElem?_eq_getElem hlt]
      rfl
    have hmem : h.iterator y last ∈ (ns y).drop i ++ [Ptr.node y] := by
      rw [(H.at_place hlast).1]
      have hhead := headD_mem (.node y) ((ns y).drop last)
      have hdrop : (ns y).drop last = ((ns y).drop i).drop (last - i) := by
        rw [List.drop_drop]
        congr 1
        omega
      cases List.mem_append.mp hhead with
      | inl hhead =>
          rw [hdrop] at hhead ⊢
          exact List.mem_append_left _ (List.mem_of_mem_drop hhead)
      | inr hhead => exact List.mem_append_right _ hhead
    rw [hbegin]
    refine ((insertRange_endless H hnodes hls ?_ hplace ?_ hmem).imp (fun _ => False.elim)
      fun h' ⟨ns', zs', H'⟩ => ⟨ns', _, H', zs', rfl⟩).weaken fun hn => hn.2 ⟨rfl, hfirst, hbehind⟩
    · simp only [List.length_append, List.length_cons, List.length_take, List.length_drop]
      omega
    · rw [← List.length_pos_iff, List.length_take, List.length_drop]
      omega
  · obtain ⟨hbegin, hend, hlens, hcount⟩ := H.range hle hlast
    have hvalues : (((ns y).drop first).take (last - first)).map h.deref =
        (((ls y).drop first).take (last - first)).map some := by
      rw [List.map_take, List.map_drop, H.values, List.map_take, List.map_drop]
    have hwalk := H.walk (split_range (ns y) hle) hvalues
    rw [← hbegin, ← hend] at hwalk
    refine ((insertRange_spec H hns hls hlength hplace hwalk (before_range H hi hc)).imp
      (fun h' ⟨ns', H'⟩ => ⟨ns', _, H', rfl⟩) fun h' ⟨ns', k, H'⟩ => ⟨ns', _, H', _, rfl⟩).weaken fun hn => ?_
    rw [hcount]
    exact hn.1

theorem eraseRange_at (H : Refines h ns ls) (hle : first ≤ last)
    (hlast : last ≤ (ls v).length) :
    (Heap.eraseRange v (h.iterator v last) n h (h.iterator v first)).EndsIf (last - first < n)
      (Leaves (· = Function.update ls v ((ls v).take first ++ (ls v).drop last))) Q := by
  obtain ⟨hbegin, hend, hlens, hcount⟩ := H.range hle hlast
  rw [hbegin, hend]
  refine ((eraseRange_spec H (split_range (ns v) hle) (split_range (ls v) hle)
    (H.at_place (Nat.le_trans hle hlast)).2 hlens).imp (fun h' H' => ⟨_, _, H', rfl⟩) fun _ => id).weaken fun hn => ?_
  rwa [hcount]

theorem splice_at [Inhabited T] {other : Nat} (H : Refines h ns ls)
    (hi : i ≤ (ls v).length) (hle : first ≤ last) (hlast : last ≤ (ls other).length)
    (houtside : v = other → i < first ∨ last ≤ i) :
    (h.splice n v (h.iterator v i) other (h.iterator other first) (h.iterator other last)).EndsIf (last - first < n)
      (Leaves (· = (Op.splice v i other first last).model ls)) Q := by
  obtain ⟨hbegin, hend, hlens, hcount⟩ := H.range hle hlast
  have hplace : h.iterator v i = ((Function.update ns other ((ns other).take first ++ (ns other).drop last) v).drop
      (if v = other then placeAfter i first last else i)).headD (.node v) := by
    by_cases hv : v = other
    · subst hv
      rw [if_pos rfl, Function.update_self, (H.at_place hi).1, drop_headD, drop_headD,
        getElem?_placeAfter _ hle (by rwa [H.length_eq]) (houtside rfl)]
    · rw [if_neg hv, Function.update_of_ne hv]
      exact (H.at_place hi).1
  have hlength : ∀ w, (Function.update ns other ((ns other).take first ++ (ns other).drop last) w).length =
      (Function.update ls other ((ls other).take first ++ (ls other).drop last) w).length := by
    intro w
    by_cases hw : w = other
    · subst hw
      simp only [Function.update_self, List.length_append, List.length_take, List.length_drop, H.length_eq]
    · rw [Function.update_of_ne hw, Function.update_of_ne hw, H.length_eq]
  rw [hbegin, hend]
  refine ((splice_spec H (split_range (ns other) hle) (split_range (ls other) hle)
    (H.at_place (Nat.le_trans hle hlast)).2 hlens rfl rfl (List.take_append_drop _ _).symm
    (List.take_append_drop _ _).symm ?_ hplace).imp (fun h' H' => ⟨_, _, H', rfl⟩) fun _ => id).weaken fun hn => ?_
  · rw [List.length_take, List.length_take, hlength]
  · rw [hcount]
    exact Nat.le_of_lt hn

theorem op_spec [Inhabited T] (H : Refines h ns ls) {op : Op T} (hvalid : op.Valid fun v => (ls v).length) :
    (op.run m n h).EndsIf (op.rounds ls < n ∧ ¬op.Endless) (Leaves (· = op.model ls)) (Leaves (op.Thrown ls)) := by
  cases op with
  | insert v i x => exact (insertArg_at H hvalid.1 hvalid.2 rfl).weaken fun _ => trivial
  | insert_new v i => exact (insert_at H hvalid rfl).weaken fun _ => trivial
  | insert_values v i xs =>
      obtain ⟨hplace, hlength⟩ := H.at_place hvalid
      refine ((insertValues_spec H (List.take_append_drop i (ns v)).symm (List.take_append_drop i (ls v)).symm hlength
        hplace).imp (fun h' ⟨ns', H'⟩ => ?_) fun h' ⟨ns', k, H'⟩ => ?_).weaken fun _ => trivial
      · exact ⟨ns', _, H', rfl⟩
      · exact ⟨ns', _, H', k, rfl⟩
  | insert_range v i y first last => exact insertRange_at H hvalid.1 hvalid.2.1 hvalid.2.2
  | push_front v x => exact (insertArg_at H (Nat.zero_le _) hvalid rfl).weaken fun _ => trivial
  | push_back v x =>
      have hspec := insertArg_at (m := m) H (Nat.le_refl _) hvalid (end_place H v)
      rw [List.take_length, List.drop_length] at hspec
      exact hspec.weaken fun _ => trivial
  | push_back_new v =>
      have hspec := insert_at (m := m) (y := default) H (Nat.le_refl _) (end_place H v)
      rw [List.take_length, List.drop_length] at hspec
      exact hspec.weaken fun _ => trivial
  | pop_front v =>
      have hpos : 0 < (ls v).length := hvalid
      have hspec := erase_at (Q := Leaves (· = ls)) H hpos rfl
      rw [List.take_zero, List.nil_append, List.drop_one] at hspec
      exact hspec.weaken fun _ => trivial
  | pop_back v =>
      have hpos : 0 < (ls v).length := hvalid
      have hlength := H.length_eq v
      have hlast : h.prev (.node v) = h.iterator v ((ls v).length - 1) := by
        have hne : (ns v).getLastD (.node v) = (ns v)[(ls v).length - 1] := by
          have htake := last_take (ns v) (i := (ns v).length) (by omega) (Nat.le_refl _) (.node v)
          rw [List.take_length] at htake
          simp only [htake, hlength]
        rw [(H.ends v).2, hne, (H.at_place (by omega)).1, drop_headD, List.getElem?_eq_getElem (by omega)]
        rfl
      have hspec := erase_at (Q := Leaves (· = ls)) H (show (ls v).length - 1 < (ls v).length by omega) hlast
      rw [Nat.sub_add_cancel hpos, List.drop_length, List.append_nil, ← List.dropLast_eq_take] at hspec
      exact hspec.weaken fun _ => trivial
  | erase v i => exact (erase_at H hvalid rfl).weaken fun _ => trivial
  | erase_range v first last => exact (eraseRange_at H hvalid.1 hvalid.2).weaken And.left
  | splice v i other first last =>
      exact (splice_at H hvalid.1 hvalid.2.1 hvalid.2.2.1 hvalid.2.2.2).weaken And.left
  | swap v x => exact ⟨_, _, swap_spec H v x, rfl⟩
  | assign v x =>
      refine ((assign_spec H v x n).imp (fun h' ⟨ns', H'⟩ => ?_) fun h' ⟨ns', k, H'⟩ => ?_).weaken And.left
      · exact ⟨ns', _, H', rfl⟩
      · exact ⟨ns', _, H', k, rfl⟩
  | assign_move v x =>
      refine ((assign_move_spec H v x n).imp (fun h' ⟨ns', H'⟩ => ?_) fun _ => id).weaken And.left
      exact ⟨ns', _, H', rfl⟩
  | clear v => exact ((clear_spec H v n).imp (fun h' H' => ⟨_, _, H', rfl⟩) fun _ => id).weaken And.left

/-! ### Runs -/

/-- The runs of a program: the calls, the last one first, with whether they returned. Loops may take any number of
rounds. -/
inductive Run [Inhabited T] : List (Op T × Bool) → Heap T → Prop
  | start : Run [] .init
  | done {calls : List (Op T × Bool)} {h h' : Heap T} (H : Run calls h) (m : Allocator) (n : Nat) (op : Op T)
      (hvalid : op.Valid h.length) (hrun : op.run m n h = .done h') : Run ((op, true) :: calls) h'
  | threw {calls : List (Op T × Bool)} {h h' : Heap T} (H : Run calls h) (m : Allocator) (n : Nat) (op : Op T)
      (hvalid : op.Valid h.length) (hrun : op.run m n h = .threw h') : Run ((op, false) :: calls) h'

/-- What the calls do to the sequences. -/
inductive ListRun [Inhabited T] : List (Op T × Bool) → Lists T → Prop
  | start : ListRun [] fun _ => []
  | done {calls : List (Op T × Bool)} {ls : Lists T} (H : ListRun calls ls) (op : Op T) :
      ListRun ((op, true) :: calls) (op.model ls)
  | threw {calls : List (Op T × Bool)} {ls ls' : Lists T} (H : ListRun calls ls) (op : Op T)
      (hthrown : op.Thrown ls ls') : ListRun ((op, false) :: calls) ls'

theorem refines_init : Refines (T := T) .init (fun _ => []) fun _ => [] := by
  refine ⟨⟨fun v => ?_, fun v => List.nodup_singleton _, fun v w hvw x hx hx' => ?_⟩, fun _ => rfl,
    fun a ha => (nomatch ha), fun _ => rfl⟩
  · exact List.isChain_cons_cons.mpr ⟨⟨rfl, rfl⟩, .singleton _⟩
  · rw [List.mem_singleton] at hx hx'
    exact hvw (Ptr.node.inj (hx.symm.trans hx'))

theorem Refines.sizes (H : Refines h ns ls) : h.length = fun v => (ls v).length := by
  funext v
  rw [H.length, H.length_eq]

theorem Run.refines [Inhabited T] {calls : List (Op T × Bool)} (H : Run calls h) :
    ∃ ns ls, Refines h ns ls ∧ ListRun calls ls := by
  induction H with
  | start => exact ⟨_, _, refines_init, .start⟩
  | done H m n op hvalid hrun ih =>
      obtain ⟨ns, ls, hrefines, hlists⟩ := ih
      have hvalid : op.Valid fun v => (ls v).length := hrefines.sizes ▸ hvalid
      have hspec := op_spec (m := m) (n := n) hrefines hvalid
      rw [hrun] at hspec
      obtain ⟨ns', ls', hrefines', rfl⟩ := hspec
      exact ⟨ns', _, hrefines', .done hlists op⟩
  | threw H m n op hvalid hrun ih =>
      obtain ⟨ns, ls, hrefines, hlists⟩ := ih
      have hvalid : op.Valid fun v => (ls v).length := hrefines.sizes ▸ hvalid
      have hspec := op_spec (m := m) (n := n) hrefines hvalid
      rw [hrun] at hspec
      obtain ⟨ns', ls', hrefines', hthrown⟩ := hspec
      exact ⟨ns', ls', hrefines', .threw hlists op hthrown⟩

/-- The lists are rings through their own nodes with the sequences as their data. -/
structure WellFormed (h : Heap T) (ns : Nat → List Ptr) (ls : Lists T) : Prop where
  forward : ∀ v, List.iterate h.next (h.begin v) (h.length v + 1) = ns v ++ [.node v]
  backward : ∀ v, List.iterate h.prev (h.prev (.node v)) (h.length v + 1) = (ns v).reverse ++ [.node v]
  linked : ∀ v, ∀ p ∈ Ptr.node v :: ns v, h.prev (h.next p) = p ∧ h.next (h.prev p) = p
  contents : ∀ v, (ns v).map h.deref = (ls v).map some
  length : ∀ v, h.length v = (ns v).length
  nodup : ∀ v, (Ptr.node v :: ns v).Nodup
  disjoint : ∀ v w, v ≠ w → ∀ p ∈ Ptr.node v :: ns v, p ∉ Ptr.node w :: ns w
  owned : ∀ a, (h.data a).isSome → ∃ v, .cell a ∈ ns v

theorem Refines.linked (H : Refines h ns ls) (hp : p ∈ Ptr.node v :: ns v) :
    h.prev (h.next p) = p ∧ h.next (h.prev p) = p := by
  obtain ⟨A, B, hsplit⟩ := List.mem_iff_append.mp hp
  constructor
  · cases A with
    | nil =>
        obtain ⟨rfl, rfl⟩ := List.cons.inj hsplit
        obtain ⟨hnext, hprev⟩ := H.next_prev (A := []) rfl
        exact (congrArg h.prev hnext).trans hprev
    | cons q A =>
        have hv : ns v = (A ++ [p]) ++ B := by
          rw [List.append_assoc]
          exact (List.cons.inj hsplit).2
        obtain ⟨hnext, hprev⟩ := H.next_prev hv
        rw [List.getLastD_concat] at hnext hprev
        rw [hnext, hprev]
  · cases A with
    | nil =>
        obtain ⟨rfl, rfl⟩ := List.cons.inj hsplit
        obtain ⟨hnext, hprev⟩ := H.next_prev (List.append_nil (ns v)).symm
        exact (congrArg h.next hprev).trans hnext
    | cons q A =>
        obtain ⟨hnext, hprev⟩ := H.next_prev (List.cons.inj hsplit).2
        exact (congrArg h.next hprev).trans hnext

theorem Refines.wellFormed (H : Refines h ns ls) : WellFormed h ns ls := by
  refine ⟨fun v => ?_, fun v => ?_, fun v p => H.linked, H.values, H.length, H.rings.nodup, H.rings.disjoint, H.owned⟩
  · rw [H.length]
    exact (H.rings.ring v).forward
  · rw [H.length]
    exact (H.rings.ring v).backward

/-- In every run the lists are well formed and have the elements of the list model; and the next call comes to its end
when its loops have enough rounds, unless it inserts a part of a list into this part. -/
theorem run_wellFormed [Inhabited T] {calls : List (Op T × Bool)} (H : Run calls h) :
    (∃ ns ls, ListRun calls ls ∧ WellFormed h ns ls) ∧
      ∀ (m : Allocator) (op : Op T), op.Valid h.length → ¬op.Endless →
        ∃ n₀, ∀ n, n₀ < n → op.run m n h ≠ .undefined := by
  obtain ⟨ns, ls, hrefines, hlists⟩ := H.refines
  refine ⟨⟨ns, ls, hlists, hrefines.wellFormed⟩, fun m op hvalid hends => ⟨op.rounds ls, fun n hn => ?_⟩⟩
  have hvalid : op.Valid fun v => (ls v).length := hrefines.sizes ▸ hvalid
  have hspec := op_spec (m := m) (n := n) hrefines hvalid
  exact hspec.ne_undefined ⟨hn, hends⟩

/-- An allocator with room for two nodes. -/
def twoNodes : Allocator where
  qalloc used := if used 0 = false then some 0 else if used 1 = false then some 1 else none
  unused := by
    intro used a h
    by_cases h₀ : used 0 = false
    · rw [if_pos h₀] at h
      cases h
      exact h₀
    by_cases h₁ : used 1 = false
    · rw [if_neg h₀, if_pos h₁] at h
      cases h
      exact h₁
    · rw [if_neg h₀, if_neg h₁] at h
      cases h

theorem run_wellFormed_splice : ∃ h : Heap Nat,
    (∃ ns ls, ListRun [(.swap 0 1, true), (.splice 1 0 0 1 2, true), (.push_back 0 (.outside 6), true),
      (.push_back 0 (.outside 5), true)] ls ∧ WellFormed h ns ls) ∧
    ∀ (m : Allocator) (op : Op Nat), op.Valid h.length → ¬op.Endless →
      ∃ n₀, ∀ n, n₀ < n → op.run m n h ≠ .undefined :=
  ⟨_, run_wellFormed (.done (.done (.done (.done .start twoNodes 3 (.push_back 0 (.outside 5)) trivial rfl)
    twoNodes 3 (.push_back 0 (.outside 6)) trivial rfl) twoNodes 3 (.splice 1 0 0 1 2)
    ⟨Nat.zero_le _, Nat.le_succ 1, Nat.le_refl 2, (fun h => nomatch h)⟩ rfl)
    twoNodes 3 (.swap 0 1) trivial rfl)⟩

end IdaSdk.Qlist
