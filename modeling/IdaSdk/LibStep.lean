import Mathlib.Algebra.Group.Int.Defs
import Mathlib.Algebra.Group.Nat.Defs
import Mathlib.Logic.Function.Iterate
import Mathlib.Logic.Relation
import Mathlib.Tactic.Common

/-!
Loops as step functions. A loop is a function that from a state either goes on with another state or stops with
an outcome; `run` iterates it with fuel, and `Steps` relates states that lead to the same outcomes.
-/

namespace IdaSdk.StepMachine

inductive Result (S O : Type*) where
  | next (s : S)
  | done (o : O)

variable {S O : Type*} (step : S → Result S O)

def run : Nat → S → Option O
  | 0, _ => none
  | n + 1, s =>
    match step s with
    | .next s => run n s
    | .done o => some o

theorem run_succ (n : Nat) (s : S) : run step (n + 1) s = match step s with
    | .next s => run step n s
    | .done o => some o := rfl

/-- The loop gets from `s` to `s'` in finitely many steps. -/
def Steps (s s' : S) : Prop := ∃ n, ∀ m, run step (m + n) s = run step m s'

variable {step} {s s' s'' : S} {o : O}

namespace Steps

theorem refl (s : S) : Steps step s s := ⟨0, fun _ => rfl⟩

theorem of_next (h : step s = .next s') : Steps step s s' := ⟨1, fun m => by rw [run_succ, h]⟩

theorem trans (h : Steps step s s') (h' : Steps step s' s'') : Steps step s s'' := by
  obtain ⟨n, hn⟩ := h
  obtain ⟨n', hn'⟩ := h'
  refine ⟨n' + n, fun m => ?_⟩
  rw [← Nat.add_assoc, hn, hn']

end Steps

/-- More fuel does not change the outcome. -/
theorem run_add {n : Nat} (h : run step n s = some o) (k : Nat) : run step (n + k) s = some o := by
  induction n generalizing s with
  | zero => cases h
  | succ n ih =>
      rw [Nat.add_right_comm, run_succ]
      rw [run_succ] at h
      cases hs : step s with
      | done o' => rwa [hs] at h
      | next s' =>
          rw [hs] at h
          exact ih h

/-- The loop stops with an outcome. -/
def Stops (step : S → Result S O) (s : S) (o : O) : Prop := ∃ n, run step n s = some o

theorem Stops.of_done (h : step s = .done o) : Stops step s o := ⟨1, by rw [run_succ, h]⟩

theorem Stops.unique {o' : O} (h : Stops step s o) (h' : Stops step s o') : o = o' := by
  obtain ⟨n, hn⟩ := h
  obtain ⟨n', hn'⟩ := h'
  have heq := run_add hn n'
  rw [Nat.add_comm, run_add hn' n] at heq
  exact (Option.some.inj heq).symm

theorem Steps.stops_iff (h : Steps step s s') : Stops step s o ↔ Stops step s' o := by
  obtain ⟨n, hn⟩ := h
  constructor
  · rintro ⟨m, hm⟩
    exact ⟨m, (hn m).symm.trans (run_add hm n)⟩
  · rintro ⟨m, hm⟩
    exact ⟨m + n, (hn m).trans hm⟩

variable {P : S → Prop}

/-- What every step keeps holds when the loop stops. -/
theorem Stops.of_invariant {Q : O → Prop} (hnext : ∀ s s', P s → step s = .next s' → P s')
    (hdone : ∀ s o, P s → step s = .done o → Q o) (hs : P s) (h : Stops step s o) : Q o := by
  obtain ⟨n, hn⟩ := h
  induction n generalizing s with
  | zero => cases hn
  | succ n ih =>
      rw [run_succ] at hn
      cases hstep : step s with
      | done o' =>
          rw [hstep] at hn
          exact Option.some.inj hn ▸ hdone s o' hs hstep
      | next s' =>
          rw [hstep] at hn
          exact ih (hnext s s' hs hstep) hn

theorem run_eq_none (hnext : ∀ s, P s → ∃ s', step s = .next s' ∧ P s') (hs : P s) (n : Nat) :
    run step n s = none := by
  induction n generalizing s with
  | zero => rfl
  | succ n ih =>
      obtain ⟨s', hstep, hs'⟩ := hnext s hs
      rw [run_succ, hstep]
      exact ih hs'

/-- The loop goes through the state `s'` on its way from `s`. -/
def Reaches (step : S → Result S O) : S → S → Prop := Relation.ReflTransGen fun a b => step a = .next b

theorem Reaches.steps (h : Reaches step s s') : Steps step s s' := by
  induction h with
  | refl => exact Steps.refl s
  | tail _ hstep ih => exact ih.trans (Steps.of_next hstep)

theorem Reaches.invariant (h : Reaches step s s') (hnext : ∀ s s', P s → step s = .next s' → P s')
    (hs : P s) : P s' := by
  induction h with
  | refl => exact hs
  | tail _ hstep ih => exact hnext _ _ ih hstep

/-- The state in which the loop stops. -/
theorem Stops.last (h : Stops step s o) : ∃ s', Reaches step s s' ∧ step s' = .done o := by
  obtain ⟨n, hn⟩ := h
  induction n generalizing s with
  | zero => cases hn
  | succ n ih =>
      rw [run_succ] at hn
      cases hstep : step s with
      | done o' =>
          rw [hstep] at hn
          exact ⟨s, Relation.ReflTransGen.refl, Option.some.inj hn ▸ hstep⟩
      | next s' =>
          rw [hstep] at hn
          obtain ⟨s'', hreaches, hdone⟩ := ih hn
          exact ⟨s'', Relation.ReflTransGen.head hstep hreaches, hdone⟩

theorem exists_orbit (h : ∀ o, ¬Stops step s o) : ∃ f : Nat → S, f 0 = s ∧ ∀ n, step (f n) = .next (f (n + 1)) := by
  have hnext : ∀ s : {s // ∀ o, ¬Stops step s o}, ∃ s' : {s // ∀ o, ¬Stops step s o}, step s.1 = .next s'.1 := by
    rintro ⟨s, hs⟩
    cases hstep : step s with
    | done o => exact absurd (Stops.of_done hstep) (hs o)
    | next s' => exact ⟨⟨s', fun o ho => hs o ((Steps.of_next hstep).stops_iff.mpr ho)⟩, rfl⟩
  choose g hg using hnext
  refine ⟨fun n => (g^[n] ⟨s, h⟩).1, rfl, fun n => ?_⟩
  rw [hg, ← Function.iterate_succ_apply' g]

/-- A bounded number that no step makes smaller is eventually constant. -/
theorem eventually_constant {c : Nat → Nat} {bound : Nat} (hmono : ∀ n, c n ≤ c (n + 1)) (hbound : ∀ n, c n ≤ bound) :
    ∃ m, ∀ n, m ≤ n → c n = c m := by
  have hgrows : ∀ k, (∃ m, ∀ n, m ≤ n → c n = c m) ∨ ∃ n, k ≤ c n := by
    intro k
    induction k with
    | zero => exact Or.inr ⟨0, Nat.zero_le _⟩
    | succ k ih =>
        rcases ih with h | ⟨m, hm⟩
        · exact Or.inl h
        by_cases hex : ∃ n, m ≤ n ∧ c n ≠ c m
        · obtain ⟨n, hmn, hne⟩ := hex
          have hle : c m ≤ c n := by
            clear hne
            induction hmn with
            | refl => exact Nat.le_refl _
            | step _ ih => exact Nat.le_trans ih (hmono _)
          exact Or.inr ⟨n, by omega⟩
        · refine Or.inl ⟨m, fun n hn => ?_⟩
          by_contra hne
          exact hex ⟨n, hn, hne⟩
  rcases hgrows (bound + 1) with h | ⟨n, hn⟩
  · exact h
  · exact absurd (hbound n) (by omega)

theorem reaches_orbit {f : Nat → S} (hf : ∀ n, step (f n) = .next (f (n + 1))) (n : Nat) : Reaches step (f 0) (f n) := by
  induction n with
  | zero => exact Relation.ReflTransGen.refl
  | succ n ih => exact ih.tail (hf n)

end IdaSdk.StepMachine
