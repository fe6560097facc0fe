import Mathlib.Logic.Relation

/-!
Calls that end, by an exception or not. Undefined behaviour and a loop that has not ended after the given number of
rounds are no end.
-/

namespace IdaSdk.Outcomes

inductive Outcome (ε α : Type) where
  | undefined
  | threw (e : ε)
  | done (a : α)

variable {ε α β : Type}

def Outcome.andThen : Outcome ε α → (α → Outcome ε β) → Outcome ε β
  | .undefined, _ => .undefined
  | .threw e, _ => .threw e
  | .done a, f => f a

theorem Outcome.andThen_assoc {γ : Type} (r : Outcome ε α) (f : α → Outcome ε β) (g : β → Outcome ε γ) :
    (r.andThen f).andThen g = r.andThen fun a => (f a).andThen g := by
  cases r <;> rfl

/-- What holds when the call ends, without an exception or with one; under the condition `c` it ends. -/
def Outcome.EndsIf (c : Prop) (r : Outcome ε α) (P : α → Prop) (Q : ε → Prop) : Prop :=
  match r with
  | .undefined => ¬c
  | .threw e => Q e
  | .done a => P a

/-- The call ends. -/
abbrev Outcome.Ends (r : Outcome ε α) (P : α → Prop) (Q : ε → Prop) : Prop := r.EndsIf True P Q

variable {r : Outcome ε α} {f : α → Outcome ε β} {c c' : Prop} {P P' : α → Prop} {Q Q' : ε → Prop} {R : β → Prop}

theorem Outcome.EndsIf.bind (hr : r.EndsIf c' P Q) (hc : c → c') (hf : ∀ a, P a → (f a).EndsIf c R Q) :
    (r.andThen f).EndsIf c R Q := by
  cases r with
  | undefined => exact fun h => hr (hc h)
  | threw e => exact hr
  | done a => exact hf a hr

theorem Outcome.EndsIf.andThen (hr : r.Ends P Q) (hf : ∀ a, P a → (f a).EndsIf c R Q) :
    (r.andThen f).EndsIf c R Q := hr.bind (fun _ => trivial) hf

theorem Outcome.EndsIf.imp (hr : r.EndsIf c P Q) (hP : ∀ a, P a → P' a) (hQ : ∀ e, Q e → Q' e) :
    r.EndsIf c P' Q' := by
  cases r with
  | undefined => exact hr
  | threw e => exact hQ e hr
  | done a => exact hP a hr

theorem Outcome.EndsIf.weaken (hr : r.EndsIf c' P Q) (hc : c → c') : r.EndsIf c P Q := by
  cases r with
  | undefined => exact fun h => hr (hc h)
  | threw e => exact hr
  | done a => exact hr

theorem Outcome.EndsIf.ite {d : Prop} [Decidable d] {p : Outcome ε α} (hr : d → r.EndsIf c P Q)
    (hp : ¬d → p.EndsIf c P Q) : (if d then r else p).EndsIf c P Q := by
  by_cases h : d
  · rw [if_pos h]
    exact hr h
  · rw [if_neg h]
    exact hp h

theorem Outcome.EndsIf.ne_undefined (hr : r.EndsIf c P Q) (hc : c) : r ≠ .undefined := by
  rintro rfl
  exact hr hc

/-- At most `n` rounds. -/
def Outcome.loop (body : α → Outcome ε α) : Nat → α → Outcome ε α
  | 0, _ => .undefined
  | n + 1, a => (body a).andThen (loop body n)

variable {body : α → Outcome ε α}

theorem Outcome.loop_ends {measure : α → Nat}
    (hbody : ∀ a, P a → (body a).Ends (fun b => P b ∧ measure b < measure a) Q) {n : Nat} {a : α} (ha : P a)
    (hn : measure a < n) : (loop body n a).Ends (fun _ => False) Q := by
  induction n generalizing a with
  | zero => exact absurd hn (Nat.not_lt_zero _)
  | succ n ih => exact (hbody a ha).andThen fun b hb => ih hb.1 (Nat.lt_of_lt_of_le hb.2 (Nat.le_of_lt_succ hn))

/-- The rounds that a loop goes through. -/
abbrev Outcome.Reaches (body : α → Outcome ε α) : α → α → Prop := Relation.ReflTransGen fun a b => body a = .done b

/-- A loop with a measure that decreases ends exactly if all its rounds end. -/
theorem Outcome.loop_ends_iff {start : α} (measure : α → Nat)
    (hdec : ∀ a b, body a = .done b → measure b < measure a) {n : Nat} (hn : measure start < n) :
    (loop body n start).Ends (fun _ => False) Q ↔
      ∀ a, Reaches body start a → (body a).Ends (fun _ => True) Q := by
  induction n generalizing start with
  | zero => exact absurd hn (Nat.not_lt_zero _)
  | succ n ih =>
      rw [loop]
      cases hstart : body start with
      | undefined =>
          refine ⟨fun h => (h trivial).elim, fun h => ?_⟩
          have hundefined := h start .refl
          rwa [hstart] at hundefined
      | threw e =>
          refine ⟨fun h a ha => ?_, fun h => ?_⟩
          · obtain rfl | ⟨b, hb, -⟩ := ha.cases_head
            · rw [hstart]
              exact h
            · cases hstart.symm.trans hb
          · have hthrew := h start .refl
            rwa [hstart] at hthrew
      | done b =>
          have hlt := hdec start b hstart
          refine (ih (by omega)).trans ⟨fun h a ha => ?_, fun h a ha => h a (.head hstart ha)⟩
          obtain rfl | ⟨c, hc, hrest⟩ := ha.cases_head
          · rw [hstart]
            exact trivial
          · obtain rfl := Outcome.done.inj (hstart.symm.trans hc)
            exact h a hrest

variable {ε' α' β' : Type} {r' : Outcome ε' α'} {f' : α' → Outcome ε' β'} {S : α → α' → Prop} {T : β → β' → Prop}
  {E : ε → ε' → Prop}

/-- The calls go the same way, with related results or exceptions. -/
def Outcome.Alike (r : Outcome ε α) (r' : Outcome ε' α') (S : α → α' → Prop) (E : ε → ε' → Prop) : Prop :=
  match r, r' with
  | .undefined, .undefined => True
  | .threw e, .threw e' => E e e'
  | .done a, .done a' => S a a'
  | _, _ => False

theorem Outcome.Alike.andThen (hr : r.Alike r' S E) (hf : ∀ a a', S a a' → (f a).Alike (f' a') T E) :
    (r.andThen f).Alike (r'.andThen f') T E := by
  cases r with
  | undefined => cases r' with
    | undefined => exact trivial
    | threw e => exact hr.elim
    | done a => exact hr.elim
  | threw e => cases r' with
    | undefined => exact hr.elim
    | threw e' => exact hr
    | done a => exact hr.elim
  | done a => cases r' with
    | undefined => exact hr.elim
    | threw e => exact hr.elim
    | done a' => exact hf a a' hr

theorem Outcome.Alike.ite {c : Prop} [Decidable c] {p : Outcome ε α} {p' : Outcome ε' α'} (hr : c → r.Alike r' S E)
    (hp : ¬c → p.Alike p' S E) : (if c then r else p).Alike (if c then r' else p') S E := by
  by_cases h : c
  · rw [if_pos h, if_pos h]
    exact hr h
  · rw [if_neg h, if_neg h]
    exact hp h

theorem Outcome.loop_alike {body' : α' → Outcome ε' α'}
    (hbody : ∀ a a', S a a' → (body a).Alike (body' a') S E) (n : Nat) {a : α} {a' : α'} (ha : S a a') :
    (loop body n a).Alike (loop body' n a') S E := by
  induction n generalizing a a' with
  | zero => exact trivial
  | succ n ih => exact (hbody a a' ha).andThen fun b b' hb => ih hb

end IdaSdk.Outcomes
