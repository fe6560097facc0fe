import Mathlib.Data.List.Sublists
import Mathlib.Logic.Function.Basic
import Mathlib.Tactic.Common

/-!
Mailboxes that hold one letter each. A letter is put into an empty box and taken out again, or the
box is removed with what is in it. A run that exists loses no letter of a box that stays and gives
none out twice.
-/

namespace IdaSdk.Mailbox

inductive Move (K V : Type) where
  | put (k : K) (v : V)
  | take (k : K) (v : V)
  | remove (k : K)

variable {K V : Type} [DecidableEq K] [DecidableEq V] {b b' : K → Option V} {k : K} {v : V}
  {moves moves' : List (Move K V)}

/-- `none` where the move is not possible. -/
def move (b : K → Option V) : Move K V → Option (K → Option V)
  | .put k v => if b k = none then some (Function.update b k (some v)) else none
  | .take k v => if b k = some v then some (Function.update b k none) else none
  | .remove k => some (Function.update b k none)

def run (b : K → Option V) (moves : List (Move K V)) : Option (K → Option V) := moves.foldlM move b

theorem run_nil : run b [] = some b := rfl

theorem run_append : run b (moves ++ moves') = (run b moves).bind fun b' => run b' moves' := by
  rw [run, List.foldlM_append]
  rfl

theorem move_put (h : b k = none) : move b (.put k v) = some (Function.update b k (some v)) := if_pos h

theorem move_take (h : b k = some v) : move b (.take k v) = some (Function.update b k none) := if_pos h

/-- The letters put into a box. -/
def putsAt (k : K) (moves : List (Move K V)) : List V :=
  moves.filterMap fun
    | .put k' v => if k' = k then some v else none
    | _ => none

/-- The letters taken out of a box. -/
def takesAt (k : K) (moves : List (Move K V)) : List V :=
  moves.filterMap fun
    | .take k' v => if k' = k then some v else none
    | _ => none

omit [DecidableEq V] in
theorem putsAt_cons (m : Move K V) : putsAt k (m :: moves) = putsAt k [m] ++ putsAt k moves :=
  List.filterMap_append (l := [m])

omit [DecidableEq V] in
theorem takesAt_cons (m : Move K V) : takesAt k (m :: moves) = takesAt k [m] ++ takesAt k moves :=
  List.filterMap_append (l := [m])

/-- A move other than removing the box keeps what came in and what is still there in balance. -/
theorem move_balance {m : Move K V} (h : move b m = some b') (hm : m ≠ .remove k) :
    takesAt k [m] ++ (b' k).toList = (b k).toList ++ putsAt k [m] := by
  cases m with
  | put k' v =>
      rw [move] at h
      split at h
      · next hb =>
          obtain rfl := Option.some.inj h
          by_cases hk : k' = k
          · subst hk
            simp [takesAt, putsAt, hb]
          · simp [takesAt, putsAt, hk, Function.update_of_ne (Ne.symm hk)]
      · exact absurd h (by simp)
  | take k' v =>
      rw [move] at h
      split at h
      · next hb =>
          obtain rfl := Option.some.inj h
          by_cases hk : k' = k
          · subst hk
            simp [takesAt, putsAt, hb]
          · simp [takesAt, putsAt, hk, Function.update_of_ne (Ne.symm hk)]
      · exact absurd h (by simp)
  | remove k' =>
      obtain rfl := Option.some.inj h
      have hk : k ≠ k' := fun hk => hm (by rw [hk])
      simp [takesAt, putsAt, Function.update_of_ne hk]

/-- Where the box is not removed, what was put in is what was taken out and what is still there. -/
theorem takesAt_eq (h : run b moves = some b') (hno : .remove k ∉ moves) :
    takesAt k moves ++ (b' k).toList = (b k).toList ++ putsAt k moves := by
  induction moves generalizing b with
  | nil =>
      obtain rfl := Option.some.inj h
      simp [takesAt, putsAt]
  | cons m moves ih =>
      rw [List.mem_cons, not_or] at hno
      rw [run, List.foldlM_cons] at h
      obtain ⟨c, hc, h⟩ := Option.bind_eq_some_iff.mp h
      rw [takesAt_cons, putsAt_cons, List.append_assoc, ih h hno.2, ← List.append_assoc,
        move_balance hc (Ne.symm hno.1), List.append_assoc]

/-- What is taken out was put in before, in this order, and at most once. -/
theorem takesAt_sublist (h : run b moves = some b') :
    (takesAt k moves ++ (b' k).toList).Sublist ((b k).toList ++ putsAt k moves) := by
  induction moves generalizing b with
  | nil =>
      obtain rfl := Option.some.inj h
      simp [takesAt, putsAt]
  | cons m moves ih =>
      rw [run, List.foldlM_cons] at h
      obtain ⟨c, hc, h⟩ := Option.bind_eq_some_iff.mp h
      have ih := ih h
      rw [takesAt_cons, putsAt_cons]
      by_cases hm : m = .remove k
      · subst hm
        obtain rfl := Option.some.inj hc
        rw [Function.update_self] at ih
        exact ih.trans (List.sublist_append_right _ _)
      · rw [List.append_assoc, ← List.append_assoc (b k).toList, ← move_balance hc hm, List.append_assoc]
        exact (List.append_sublist_append_left _).mpr ih

end IdaSdk.Mailbox
