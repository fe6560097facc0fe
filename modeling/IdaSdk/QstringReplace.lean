import IdaSdk.QstringScan

/-!
Replacing in a string. The loop puts the replacement between the pieces that the leftmost occurrences leave; it stops at
the first NUL, and an empty pattern holds it in place for ever.
-/

namespace IdaSdk.Qstring
open LibOccurrences

variable {α : Type} [Zero α] [DecidableEq α] {s : List α} {what repl : CString α}

variable {fuel : Nat} {r : List α}

theorem replace_loop_more {w result : List α} {pos : Nat} {x : Nat × List α}
    (h : replace_loop s w r fuel pos result = some x) (more : Nat) :
    replace_loop s w r (fuel + more) pos result = some x := by
  induction fuel generalizing pos result with
  | zero => cases h
  | succ fuel ih =>
      rw [Nat.add_right_comm, replace_loop]
      rw [replace_loop] at h
      split at h
      · exact ih h
      · exact h

theorem replace_unique {fuel' : Nat} {x x' : Bool × List α} (h : replace fuel s what repl = some x)
    (h' : replace fuel' s what repl = some x') : x = x' := by
  obtain ⟨y, hy, rfl⟩ := Option.map_eq_some_iff.mp h
  obtain ⟨y', hy', rfl⟩ := Option.map_eq_some_iff.mp h'
  have heq := replace_loop_more hy fuel'
  rw [Nat.add_comm, replace_loop_more hy' fuel] at heq
  rw [Option.some.inj heq]

theorem replace_loop_nil (fuel pos : Nat) (result : List α) :
    replace_loop s [] r fuel pos result = none := by
  induction fuel generalizing pos result with
  | zero => rfl
  | succ fuel ih =>
      rw [replace_loop, qstrstr_nil]
      exact ih _ _

theorem replace_loop_cuts {w : List α} (hw : w ≠ []) (hnul : 0 ∉ w) (pos : Nat)
    (hfuel : s.length - pos < fuel) (result : List α) :
    ∃ last parts, replace_loop s w r fuel pos result = some (last, result ++ r.intercalate (parts ++ [[]])) ∧
      Cuts w (c_chars (s.drop pos)) (parts ++ [c_chars (s.drop last)]) ∧ (parts = [] ∧ last = pos ∨ parts ≠ [] ∧ pos < last) := by
  induction fuel generalizing pos result with
  | zero => omega
  | succ fuel ih =>
      have hlen := List.length_pos_iff.mpr hw
      rw [replace_loop]
      split
      · case h_1 n hfound =>
        obtain ⟨hfirst, hle, hbefore⟩ := qstrstr_some hfound
        have hrest := hfirst.length
        rw [List.length_take_of_le hle, List.length_drop] at hrest
        rw [List.drop_drop, ← Nat.add_assoc] at hfirst
        obtain ⟨last, parts, hrun, hcuts, hlast⟩ :=
          ih (pos + n + w.length) (by omega) (result ++ (s.drop pos).take n ++ r)
        refine ⟨last, (s.drop pos).take n :: parts, ?_, ?_, .inr ⟨List.cons_ne_nil _ _, by omega⟩⟩
        · rw [hrun, List.cons_append, List.intercalate_cons_of_ne_nil (List.concat_ne_nil _ _)]
          simp only [List.append_assoc]
        · exact .cut (firstAt_c_chars hnul hbefore hfirst) hcuts
      · case h_2 hnone =>
        refine ⟨pos, [], ?_, .last (qstrstr_none hnone), .inl ⟨rfl, rfl⟩⟩
        simp

/-- A run that ends with the pieces of the string joined by the replacement, and tells whether the pattern occurs. -/
def ReplacesAll (s : List α) (what repl : CString α) : Prop :=
  ∃ fuel found s' parts, replace fuel s what repl = some (found, s') ∧ Cuts what.chars s parts ∧
    s' = repl.chars.intercalate parts ∧ (found = true ↔ what.chars <:+: s)

theorem replace_result (repl : CString α) (hw : what.chars ≠ []) :
    ∃ fuel found s' parts, replace fuel s what repl = some (found, s') ∧ Cuts what.chars (c_chars s) parts ∧
      (found = true ∧ what.chars <:+: c_chars s ∧ s' = repl.chars.intercalate parts ∨
        found = false ∧ ¬what.chars <:+: c_chars s ∧ s' = s) := by
  obtain ⟨last, parts, hrun, hcuts, hlast⟩ :=
    replace_loop_cuts (s := s) (r := repl.chars) hw what.no_nul 0 (Nat.lt_succ_self (s.length - 0)) []
  have hsingle := hcuts.single_iff
  rw [List.drop_zero] at hcuts hsingle
  rcases hlast with ⟨hnone, hzero⟩ | ⟨hsome, hpos⟩
  · have hres : replace (s.length - 0).succ s what repl = some (false, s) := by
      simp only [replace, hrun, Option.map_some, if_pos hzero]
    exact ⟨_, false, s, _, hres, hcuts, .inr ⟨rfl, hsingle.mp hnone, rfl⟩⟩
  · have hres : replace (s.length - 0).succ s what repl =
        some (true, repl.chars.intercalate (parts ++ [c_chars (s.drop last)])) := by
      simp only [replace, hrun, Option.map_some, if_neg (Nat.ne_of_gt hpos), List.nil_append, intercalate_last]
    exact ⟨_, true, _, _, hres, hcuts, .inl ⟨rfl, Decidable.not_not.mp (mt hsingle.mpr hsome), rfl⟩⟩

/-- The substitution is made, and reported, exactly if the pattern is not empty and the string has no NUL or no
occurrence. -/
theorem replaces_all_iff (s : List α) (what repl : CString α) :
    ReplacesAll s what repl ↔ what.chars ≠ [] ∧ (0 ∉ s ∨ ¬what.chars <:+: s) := by
  constructor
  · rintro ⟨fuel, found, s', parts, hrun, hcuts, hs', hfound⟩
    have hw : what.chars ≠ [] := by
      intro hnil
      rw [replace, hnil, replace_loop_nil] at hrun
      cases hrun
    refine ⟨hw, ?_⟩
    by_cases hnul : 0 ∈ s
    · right
      intro hoccurs
      obtain ⟨fuel', found', t, parts', hrun', hcuts', hcase⟩ := replace_result (s := s) repl hw
      obtain ⟨rfl, rfl⟩ := Prod.mk.inj (replace_unique hrun hrun')
      rcases hcase with ⟨-, -, ht⟩ | ⟨hfalse, -, -⟩
      · -- The NUL characters of the string stay in its pieces, but the run has left none.
        have hkept : 0 ∈ s' := by
          rw [hs', mem_intercalate repl.no_nul, ← mem_intercalate what.no_nul, hcuts.intercalate_eq]
          exact hnul
        rw [ht, mem_intercalate repl.no_nul, ← mem_intercalate what.no_nul, hcuts'.intercalate_eq] at hkept
        exact c_chars_no_nul s hkept
      · rw [hfound.mpr hoccurs] at hfalse
        cases hfalse
    · exact .inl hnul
  · rintro ⟨hw, hcase⟩
    obtain ⟨fuel, found, s', parts, hrun, hcuts, hresult⟩ := replace_result (s := s) repl hw
    have hsame : c_chars s = s ∨ ¬what.chars <:+: s := hcase.imp_left c_chars_of_no_nul
    rcases hresult with ⟨htrue, hoccurs, hs'⟩ | ⟨hfalse, hnot, rfl⟩
    · have hin : what.chars <:+: s := hoccurs.trans (List.takeWhile_prefix _).isInfix
      rw [hsame.resolve_right (not_not_intro hin)] at hcuts
      exact ⟨fuel, found, s', parts, hrun, hcuts, hs', fun _ => hin, fun _ => htrue⟩
    have hnot' : ¬what.chars <:+: s' := by
      cases hsame with
      | inl heq => rw [← heq]; exact hnot
      | inr hnot' => exact hnot'
    refine ⟨fuel, found, s', [s'], hrun, .last hnot', List.intercalate_singleton.symm, ?_⟩
    rw [hfalse]
    exact ⟨fun h => (by cases h), fun h => absurd h hnot'⟩

/-- Replacing the empty string in the string of one character goes on for ever. -/
theorem empty_pattern_not_replaced :
    ¬∀ (s : List Nat) (what repl : CString Nat), ReplacesAll s what repl := by
  intro h
  obtain ⟨fuel, found, s', parts, hrun, -⟩ := h [97] ⟨[], List.not_mem_nil⟩ ⟨[], List.not_mem_nil⟩
  rw [replace, replace_loop_nil] at hrun
  cases hrun

end IdaSdk.Qstring
