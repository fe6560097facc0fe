import Mathlib.Data.List.Infix
import Mathlib.Data.List.Basic
import Mathlib.Tactic.Common

/-!
Occurrences of a pattern in a list. A list is cut at the leftmost occurrences that do not overlap; joining the pieces
with the pattern gives the list back, joining them with another list is the substitution.
-/

namespace IdaSdk.LibOccurrences

variable {α : Type} {pat s u v u' v' : List α} {parts parts' : List (List α)}

/-- The first occurrence of the pattern, with what stands before and after it. -/
structure FirstAt (pat s u v : List α) : Prop where
  cut : s = u ++ (pat ++ v)
  first : ∀ u' v', s = u' ++ (pat ++ v') → u.length ≤ u'.length

theorem FirstAt.occurs (h : FirstAt pat s u v) : pat <:+: s := by
  rw [h.cut, ← List.append_assoc]
  exact List.infix_append u pat v

theorem FirstAt.unique (h : FirstAt pat s u v) (h' : FirstAt pat s u' v') : u = u' ∧ v = v' := by
  have hlen : u.length = u'.length := Nat.le_antisymm (h.first u' v' h'.cut) (h'.first u v h.cut)
  obtain ⟨hu, hrest⟩ := List.append_inj (h.cut.symm.trans h'.cut) hlen
  exact ⟨hu, List.append_cancel_left hrest⟩

theorem FirstAt.start (h : s = pat ++ v) : FirstAt pat s [] v :=
  ⟨h, fun _ _ _ => Nat.zero_le _⟩

theorem FirstAt.before (hpat : pat ≠ []) (h : FirstAt pat s u v) : ¬pat <:+: u := by
  rintro ⟨a, b, heq⟩
  have hle := h.first a (b ++ (pat ++ v)) (by
    rw [h.cut, ← heq]
    simp only [List.append_assoc])
  have hlen := congrArg List.length heq
  simp only [List.length_append] at hlen
  have := List.length_pos_iff.mpr hpat
  omega

theorem FirstAt.length (h : FirstAt pat s u v) : s.length = u.length + pat.length + v.length := by
  rw [h.cut]
  simp only [List.length_append]
  omega

theorem FirstAt.shorter (hpat : pat ≠ []) (h : FirstAt pat s u v) : v.length < s.length := by
  have hpos := List.length_pos_iff.mpr hpat
  have hlen := h.length
  omega

/-- The pieces between the leftmost occurrences that do not overlap. -/
inductive Cuts (pat : List α) : List α → List (List α) → Prop
  | last {s : List α} (h : ¬pat <:+: s) : Cuts pat s [s]
  | cut {s u v : List α} {parts : List (List α)} (h : FirstAt pat s u v) (rest : Cuts pat v parts) : Cuts pat s (u :: parts)

theorem Cuts.unique (h : Cuts pat s parts) (h' : Cuts pat s parts') : parts = parts' := by
  induction h generalizing parts' with
  | last hnot =>
      cases h' with
      | last _ => rfl
      | cut hfirst _ => exact absurd hfirst.occurs hnot
  | cut hfirst _ ih =>
      cases h' with
      | last hnot => exact absurd hfirst.occurs hnot
      | cut hfirst' hrest =>
          obtain ⟨rfl, rfl⟩ := hfirst.unique hfirst'
          rw [ih hrest]

theorem Cuts.ne_nil (h : Cuts pat s parts) : parts ≠ [] := by
  cases h with
  | last _ => exact List.cons_ne_nil _ _
  | cut _ _ => exact List.cons_ne_nil _ _

theorem Cuts.single_iff {part : List α} (h : Cuts pat s (parts ++ [part])) : parts = [] ↔ ¬pat <:+: s := by
  constructor
  · rintro rfl
    cases h with
    | last hnot => exact hnot
    | cut _ rest => exact absurd rfl rest.ne_nil
  · intro hnot
    have hlast := h.unique (.last hnot)
    exact (List.append_eq_singleton_iff.mp hlast).elim (fun h => h.1) (fun h => absurd h.2 (List.cons_ne_nil _ _))

/-- No piece contains the pattern. -/
theorem Cuts.clean (hpat : pat ≠ []) (h : Cuts pat s parts) : ∀ part ∈ parts, ¬pat <:+: part := by
  induction h with
  | last hnot =>
      intro part hmem
      rw [List.mem_singleton.mp hmem]
      exact hnot
  | cut hfirst _ ih =>
      intro part hmem
      cases hmem with
      | head => exact hfirst.before hpat
      | tail _ hmem => exact ih part hmem

theorem Cuts.intercalate_eq (h : Cuts pat s parts) : pat.intercalate parts = s := by
  induction h with
  | last _ => exact List.intercalate_singleton
  | cut hfirst rest ih => rw [List.intercalate_cons_of_ne_nil rest.ne_nil, ih, hfirst.cut, List.append_assoc]

/-- An element that the separator has not comes from a piece. -/
theorem mem_intercalate {sep : List α} {x : α} (hsep : x ∉ sep) :
    x ∈ sep.intercalate parts ↔ ∃ part ∈ parts, x ∈ part := by
  induction parts with
  | nil => simp
  | cons part parts ih =>
      cases parts with
      | nil => simp
      | cons next parts =>
          rw [List.intercalate_cons_cons, List.mem_append, List.mem_append, ih]
          simp [hsep]

theorem intercalate_last (sep : List α) (parts : List (List α)) (part : List α) :
    sep.intercalate (parts ++ [[]]) ++ part = sep.intercalate (parts ++ [part]) := by
  induction parts with
  | nil => simp
  | cons first parts ih =>
      have hne : ∀ x : List α, parts ++ [x] ≠ [] := fun x => List.concat_ne_nil x parts
      rw [List.cons_append, List.cons_append, List.intercalate_cons_of_ne_nil (hne _),
        List.intercalate_cons_of_ne_nil (hne _), List.append_assoc, ih]

/-- The list is used up by the leftmost occurrences: the last of them ends it. -/
inductive Chopped (pat : List α) : List α → Prop
  | nil : Chopped pat []
  | cut {s u v : List α} (h : FirstAt pat s u v) (rest : Chopped pat v) : Chopped pat s

theorem Chopped.cut_iff (hfirst : FirstAt pat s u v) (hpat : pat ≠ []) : Chopped pat s ↔ Chopped pat v := by
  constructor
  · intro h
    cases h with
    | nil =>
        have hlen := hfirst.length
        have hpos := List.length_pos_iff.mpr hpat
        rw [List.length_nil] at hlen
        omega
    | cut hfirst' rest => rw [(hfirst.unique hfirst').2]; exact rest
  · exact Chopped.cut hfirst

theorem Chopped.eq_nil (h : Chopped pat s) (hnot : ¬pat <:+: s) : s = [] := by
  cases h with
  | nil => rfl
  | cut hfirst _ => exact absurd hfirst.occurs hnot

/-- A list used up ends with the pattern, unless it is empty. -/
theorem Chopped.suffix (h : Chopped pat s) (hs : s ≠ []) : pat <:+ s := by
  induction h with
  | nil => exact absurd rfl hs
  | @cut s u v hfirst rest ih =>
      by_cases hv : v = []
      · subst hv
        refine ⟨u, ?_⟩
        rw [hfirst.cut, List.append_nil]
      · obtain ⟨t, ht⟩ := ih hv
        refine ⟨u ++ (pat ++ t), ?_⟩
        rw [hfirst.cut, ← ht]
        simp only [List.append_assoc]

end IdaSdk.LibOccurrences
