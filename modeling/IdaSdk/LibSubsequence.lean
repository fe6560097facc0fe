import Mathlib.Data.List.Forall2
import Mathlib.Tactic.Common

/-!
Longest common subsequences of two lists whose items are compared by a relation, and the recurrence over the last items
of the two lists. The relation need not be an equality.
-/

namespace IdaSdk.LibSubsequence
open List

variable {α β : Type} {r : α → β → Prop} {xs : List α} {ys : List β} {a : α} {b : β} {k l u : Nat}

/-- A subsequence of each list, of this length, that agree item by item. -/
def Common (r : α → β → Prop) (xs : List α) (ys : List β) (k : Nat) : Prop :=
  ∃ s t, s <+ xs ∧ t <+ ys ∧ Forall₂ r s t ∧ s.length = k

/-- The length of a longest common subsequence. -/
structure Longest (r : α → β → Prop) (xs : List α) (ys : List β) (k : Nat) : Prop where
  common : Common r xs ys k
  bound : ∀ k', Common r xs ys k' → k' ≤ k

theorem Longest.unique (hk : Longest r xs ys k) (hl : Longest r xs ys l) : k = l :=
  Nat.le_antisymm (hl.bound k hk.common) (hk.bound l hl.common)

variable {s : List α}

theorem sublist_concat (h : s <+ xs ++ [a]) : s <+ xs ∨ ∃ s', s = s' ++ [a] ∧ s' <+ xs := by
  obtain ⟨s', last, rfl, hs', hlast⟩ := sublist_append_iff.mp h
  rcases sublist_singleton.mp hlast with rfl | rfl
  · left
    rwa [append_nil]
  · exact Or.inr ⟨s', rfl, hs'⟩

variable {t : List β}

theorem forall₂_concat_left (h : Forall₂ r (s ++ [a]) t) :
    ∃ t' b, t = t' ++ [b] ∧ Forall₂ r s t' ∧ r a b := by
  induction s generalizing t with
  | nil =>
      cases h with
      | cons hab hnil =>
          cases hnil
          exact ⟨[], _, rfl, .nil, hab⟩
  | cons c s ih =>
      cases h with
      | cons hcd hrest =>
          obtain ⟨t', b, rfl, hs, hab⟩ := ih hrest
          exact ⟨_ :: t', b, rfl, .cons hcd hs, hab⟩

theorem forall₂_concat (h : Forall₂ r s t) (hab : r a b) :
    Forall₂ r (s ++ [a]) (t ++ [b]) := by
  induction h with
  | nil => exact .cons hab .nil
  | cons hcd _ ih => exact .cons hcd ih

theorem forall₂_concat_right (h : Forall₂ r s (t ++ [b])) :
    ∃ s' a, s = s' ++ [a] ∧ Forall₂ r s' t ∧ r a b := by
  obtain ⟨s', a, hs, ht, hab⟩ := forall₂_concat_left (r := flip r) h.flip
  exact ⟨s', a, hs, ht.flip, hab⟩

theorem Common.flip (h : Common r xs ys k) : Common (flip r) ys xs k := by
  obtain ⟨s, t, hs, ht, hst, hlen⟩ := h
  exact ⟨t, s, ht, hs, hst.flip, hst.length_eq ▸ hlen⟩

theorem common_nil : Common r xs ys 0 := ⟨[], [], nil_sublist xs, nil_sublist ys, .nil, rfl⟩

theorem Common.concat (h : Common r xs ys k) (hab : r a b) : Common r (xs ++ [a]) (ys ++ [b]) (k + 1) := by
  obtain ⟨s, t, hs, ht, hst, hlen⟩ := h
  refine ⟨s ++ [a], t ++ [b], hs.append_right [a], ht.append_right [b], forall₂_concat hst hab, ?_⟩
  rw [length_append, hlen, length_singleton]

theorem Common.widen_left (h : Common r xs ys k) : Common r (xs ++ [a]) ys k := by
  obtain ⟨s, t, hs, ht, hst, hlen⟩ := h
  exact ⟨s, t, hs.trans (sublist_append_left xs [a]), ht, hst, hlen⟩

theorem Common.widen_right (h : Common r xs ys k) : Common r xs (ys ++ [b]) k := by
  obtain ⟨s, t, hs, ht, hst, hlen⟩ := h
  exact ⟨s, t, hs, ht.trans (sublist_append_left ys [b]), hst, hlen⟩

theorem Common.drop_left (h : Common r (xs ++ [a]) ys k) : ∃ k', k ≤ k' + 1 ∧ Common r xs ys k' := by
  obtain ⟨s, t, hs, ht, hst, hlen⟩ := h
  rcases sublist_concat hs with hs | ⟨s', rfl, hs'⟩
  · exact ⟨k, Nat.le_succ k, s, t, hs, ht, hst, hlen⟩
  · obtain ⟨t', b, rfl, hst', -⟩ := forall₂_concat_left hst
    rw [length_append, length_singleton] at hlen
    exact ⟨s'.length, Nat.le_of_eq hlen.symm, s', t', hs', (sublist_append_left t' [b]).trans ht, hst', rfl⟩

theorem Common.drop_right (h : Common r xs (ys ++ [b]) k) : ∃ k', k ≤ k' + 1 ∧ Common r xs ys k' := by
  obtain ⟨k', hle, hk'⟩ := h.flip.drop_left
  exact ⟨k', hle, hk'.flip⟩

/-- Either one of the last items is left out or they are the last pair. -/
theorem Common.cases_concat (h : Common r (xs ++ [a]) (ys ++ [b]) k) :
    Common r xs (ys ++ [b]) k ∨ Common r (xs ++ [a]) ys k ∨ r a b ∧ ∃ k', k = k' + 1 ∧ Common r xs ys k' := by
  obtain ⟨s, t, hs, ht, hst, hlen⟩ := h
  rcases sublist_concat hs with hs | ⟨s', rfl, hs'⟩
  · exact Or.inl ⟨s, t, hs, ht, hst, hlen⟩
  rcases sublist_concat ht with ht | ⟨t', rfl, ht'⟩
  · exact Or.inr (Or.inl ⟨s' ++ [a], t, hs, ht, hst, hlen⟩)
  obtain ⟨t'', b', heq, hst', hab⟩ := forall₂_concat_left hst
  obtain ⟨rfl, hlast⟩ := append_inj' heq rfl
  rw [singleton_inj] at hlast
  rw [length_append, length_singleton] at hlen
  exact Or.inr (Or.inr ⟨hlast ▸ hab, s'.length, hlen.symm, s', t', hs', ht', hst', rfl⟩)

theorem longest_nil_left : Longest r [] ys 0 where
  common := common_nil
  bound := by
    rintro k' ⟨s, t, hs, -, -, hlen⟩
    rw [sublist_nil.mp hs, length_nil] at hlen
    exact Nat.le_of_eq hlen.symm

theorem longest_nil_right : Longest r xs [] 0 where
  common := common_nil
  bound := by
    intro k' h
    exact longest_nil_left.bound k' h.flip

theorem Longest.concat (h : Longest r xs ys k) (hab : r a b) : Longest r (xs ++ [a]) (ys ++ [b]) (k + 1) where
  common := h.common.concat hab
  bound := by
    intro k' hk'
    have hdrop : ∃ j, k' ≤ j + 1 ∧ Common r xs ys j := by
      rcases hk'.cases_concat with hx | hy | ⟨-, j, rfl, hj⟩
      · exact hx.drop_right
      · exact hy.drop_left
      · exact ⟨j, Nat.le_refl _, hj⟩
    obtain ⟨j, hle, hj⟩ := hdrop
    exact Nat.le_trans hle (Nat.succ_le_succ (h.bound j hj))

theorem Longest.concat_max (hl : Longest r xs (ys ++ [b]) l) (hu : Longest r (xs ++ [a]) ys u) (hab : ¬ r a b) :
    Longest r (xs ++ [a]) (ys ++ [b]) (max l u) where
  common := by
    rcases Nat.le_total l u with hle | hle
    · rw [Nat.max_eq_right hle]
      exact hu.common.widen_right
    · rw [Nat.max_eq_left hle]
      exact hl.common.widen_left
  bound := by
    intro k' hk'
    rcases hk'.cases_concat with hx | hy | ⟨hr, -⟩
    · exact Nat.le_trans (hl.bound k' hx) (Nat.le_max_left l u)
    · exact Nat.le_trans (hu.bound k' hy) (Nat.le_max_right l u)
    · exact absurd hr hab

theorem Longest.le_length (h : Longest r xs ys k) : k ≤ xs.length := by
  obtain ⟨s, t, hs, -, -, hlen⟩ := h.common
  exact hlen ▸ hs.length_le

end IdaSdk.LibSubsequence
