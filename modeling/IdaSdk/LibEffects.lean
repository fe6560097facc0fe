import Mathlib.Tactic.Common

/-!
Code that works on a state and need not return. `Runs` says what a run returns and leaves; its lemmas take the runs of
composed code apart, and `loop_rule` carries an invariant through a loop.
-/

namespace IdaSdk.Effects

abbrev Code (σ α : Type) := StateT σ Option α

variable {σ α β ι : Type}

/-- From `s` the code returns `a` and leaves `t`. -/
def Runs (m : Code σ α) (s : σ) (a : α) (t : σ) : Prop := m s = some (a, t)

/-- Code that does not return. -/
def hang : Code σ α := fun _ => none

/-- An assertion. -/
def require (c : Bool) : Code σ Unit := if c then pure () else hang

/-- The environment answers, and the answer is recorded. -/
def ask (answer : σ → α) (record : α → σ → σ) : Code σ α := fun s => some (answer s, record (answer s) s)

/-- A loop whose body goes on with another value or ends with a result. -/
def loop (body : ι → Code σ (ι ⊕ β)) : Nat → ι → Code σ β
  | 0, _ => hang
  | n + 1, i => do
    match ← body i with
    | .inl i => loop body n i
    | .inr b => pure b

variable {m : Code σ α} {k : α → Code σ β} {s t u : σ} {a a' : α} {b : β}

@[simp] theorem runs_pure : Runs (pure a : Code σ α) s a' t ↔ a' = a ∧ t = s := by
  change some (a, s) = some (a', t) ↔ _
  rw [Option.some.injEq, Prod.mk.injEq, eq_comm, @eq_comm _ s]

@[simp] theorem runs_bind : Runs (m >>= k) s b u ↔ ∃ a t, Runs m s a t ∧ Runs (k a) t b u := by
  change (m s).bind (fun r => k r.1 r.2) = some (b, u) ↔ _
  rw [Option.bind_eq_some_iff]
  constructor
  · rintro ⟨⟨a, t⟩, hm, hk⟩
    exact ⟨a, t, hm, hk⟩
  · rintro ⟨a, t, hm, hk⟩
    exact ⟨⟨a, t⟩, hm, hk⟩

@[simp] theorem not_runs_hang : ¬Runs (hang : Code σ α) s a t := by
  intro h
  cases h

@[simp] theorem runs_ask {answer : σ → α} {record : α → σ → σ} :
    Runs (ask answer record) s a t ↔ a = answer s ∧ t = record a s := by
  unfold Runs ask
  rw [Option.some.injEq, Prod.mk.injEq]
  constructor
  · rintro ⟨rfl, rfl⟩
    exact ⟨rfl, rfl⟩
  · rintro ⟨rfl, rfl⟩
    exact ⟨rfl, rfl⟩

@[simp] theorem runs_get {s' : σ} : Runs (get : Code σ σ) s s' t ↔ s' = s ∧ t = s := runs_pure

@[simp] theorem runs_modify {f : σ → σ} {r : PUnit} : Runs (modify f : Code σ PUnit) s r t ↔ t = f s := by
  change some (PUnit.unit, f s) = some (r, t) ↔ _
  rw [Option.some.injEq, Prod.mk.injEq, eq_comm, @eq_comm _ (f s)]
  exact ⟨fun h => h.2, fun h => ⟨rfl, h⟩⟩

theorem runs_ite {c : Prop} [Decidable c] {m n : Code σ α} :
    Runs (if c then m else n) s a t ↔ (c ∧ Runs m s a t) ∨ (¬c ∧ Runs n s a t) := by
  by_cases h : c
  · rw [if_pos h]
    simp only [h, true_and, not_true_eq_false, false_and, or_false]
  · rw [if_neg h]
    simp only [h, false_and, not_false_eq_true, true_and, false_or]

@[simp] theorem runs_require {c : Bool} {r : Unit} : Runs (require c : Code σ Unit) s r t ↔ c = true ∧ t = s := by
  unfold require
  rw [runs_ite]
  simp only [runs_pure, not_runs_hang, and_false, or_false, true_and]

/-- What every round keeps, and what the last one gives, holds at the end of a loop. -/
theorem loop_rule {body : ι → Code σ (ι ⊕ β)} {I : ι → σ → Prop} {Q : β → σ → Prop}
    (hbody : ∀ i s r t, I i s → Runs (body i) s r t → r.elim (I · t) (Q · t)) {n : Nat} {i : ι}
    (hinv : I i s) (hruns : Runs (loop body n i) s b t) : Q b t := by
  induction n generalizing i s with
  | zero => exact absurd hruns not_runs_hang
  | succ n ih =>
      rw [loop, runs_bind] at hruns
      obtain ⟨r, s', hround, hrest⟩ := hruns
      have hkept := hbody i s r s' hinv hround
      cases r with
      | inl i' => exact ih hkept hrest
      | inr b' =>
          obtain ⟨rfl, rfl⟩ := runs_pure.mp hrest
          exact hkept

end IdaSdk.Effects
