import Mathlib.Tactic.Common
import Mathlib.Data.List.Nodup

/-!
Linked lists. Nodes have addresses of any type and a pointer to the next node; a list may be circular, so it is
described by the nodes that following the pointers visits.
-/

namespace IdaSdk.Linked

variable {P : Type*} (next : P → Option P)

/-- Following the pointers from `first` visits the nodes `ps` and leads to `last`. -/
def Visits : Option P → List P → Option P → Prop
  | first, [], last => first = last
  | first, p :: ps, last => first = some p ∧ Visits (next p) ps last

variable {next} {prev : P → Option P} {first last : Option P} {p : P} {ps qs : List P}

namespace Visits

theorem append (h : Visits next first ps last) (h' : Visits next last qs first') : Visits next first (ps ++ qs) first' := by
  induction ps generalizing first with
  | nil =>
      obtain rfl : first = last := h
      exact h'
  | cons p ps ih => exact ⟨h.1, ih h.2⟩

theorem snoc (h : Visits next first ps (some p)) : Visits next first (ps ++ [p]) (next p) := h.append ⟨rfl, rfl⟩

theorem head?_eq (h : Visits next first ps none) : first = ps.head? := by
  cases ps with
  | nil => exact h
  | cons p ps => exact h.1

theorem drop (h : Visits next first ps last) {k : Nat} (hk : ps[k]? = some p) :
    Visits next (some p) (ps.drop k) last := by
  induction ps generalizing first k with
  | nil => simp at hk
  | cons q ps ih =>
      cases k with
      | zero =>
          obtain rfl := Option.some.inj hk
          exact ⟨rfl, h.2⟩
      | succ k => exact ih h.2 (by simpa using hk)

theorem next_eq (h : Visits next first ps none) {k : Nat} (hk : ps[k]? = some p) : next p = ps[k + 1]? := by
  have hdrop := h.drop hk
  obtain ⟨hlt, rfl⟩ := List.getElem?_eq_some_iff.mp hk
  rw [List.drop_eq_getElem_cons hlt] at hdrop
  have hhead := hdrop.2.head?_eq
  rwa [List.head?_drop] at hhead

/-- A list that ends has one sequence of nodes. -/
theorem unique (h : Visits next first ps none) (h' : Visits next first qs none) : ps = qs := by
  induction ps generalizing first qs with
  | nil =>
      obtain rfl : first = none := h
      cases qs with
      | nil => rfl
      | cons q qs => exact absurd h'.1 (by simp)
  | cons p ps ih =>
      cases qs with
      | nil => exact absurd (h.1.symm.trans h') (by simp)
      | cons q qs =>
          obtain rfl := Option.some.inj (h.1.symm.trans h'.1)
          rw [ih h.2 h'.2]

theorem nodup (h : Visits next first ps none) : ps.Nodup := by
  rw [List.nodup_iff_getElem?_ne_getElem?]
  intro i j hij hj heq
  have hp := List.getElem?_eq_getElem hj
  have hdrops := (h.drop (heq.trans hp)).unique (h.drop hp)
  have hlengths := congrArg List.length hdrops
  simp only [List.length_drop] at hlengths
  omega

end Visits

/-- A doubly linked list that begins at `first` and consists of `ps`. -/
structure WellLinked (next prev : P → Option P) (first : Option P) (ps : List P) : Prop where
  visits : Visits next first ps none
  prev_first : ∀ p, ps[0]? = some p → prev p = none
  prev_succ : ∀ k p, ps[k + 1]? = some p → prev p = ps[k]?

/-- A list is well linked if it ends, its first node has no previous one, and each node is the previous one of its
next node. -/
theorem WellLinked.of_visits (h : Visits next first ps none) (hfirst : ∀ p, first = some p → prev p = none)
    (hprev : ∀ p ∈ ps, ∀ q, next p = some q → prev q = some p) : WellLinked next prev first ps where
  visits := h
  prev_first p hp := by
    rw [← List.head?_eq_getElem?, ← h.head?_eq] at hp
    exact hfirst p hp
  prev_succ k q hq := by
    have hlt := (List.getElem?_eq_some_iff.mp hq).1
    have hp := List.getElem?_eq_getElem (show k < ps.length by omega)
    rw [hp]
    exact hprev _ (List.getElem_mem _) q ((h.next_eq hp).trans hq)

end IdaSdk.Linked
