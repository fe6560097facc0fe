import IdaSdk.LibProgram

/-!
Programs that follow another one: they change the state in the same way and fail where it does, and their results are
related. They may compute more than the other one, such as what they store of the input that both of them read.
-/

namespace IdaSdk.Program

variable {σ ε ε' α α' β β' : Type} {inj : ε → ε'}

/-- The program with other failures. -/
def lift (inj : ε → ε') (y : Program σ ε β) : Program σ ε' β := fun s =>
  match y s with
  | .ok r => .ok r
  | .error e => .error (inj e)

/-- The program `x` fails where `y` does. Where `y` ends well, so does `x`, in the same state, and `Q` holds of the
results. -/
structure Follows (inj : ε → ε') (x : Program σ ε' α) (y : Program σ ε β) (s : σ) (Q : α → β → σ → Prop) : Prop where
  run : match y s with
    | .ok (b, s') => ∃ a, x s = .ok (a, s') ∧ Q a b s'
    | .error e => x s = .error (inj e)

section
variable {x x' : Program σ ε' α} {y y' : Program σ ε β} {s s' : σ} {Q Q' : α → β → σ → Prop} {a : α} {b : β} {e : ε'}

theorem Follows.mono (h : Follows inj x y s Q) (hQ : ∀ a b s', Q a b s' → Q' a b s') : Follows inj x y s Q' := by
  have hrun := h.run
  constructor
  cases hy : y s with
  | ok r =>
      rw [hy] at hrun
      obtain ⟨a, hx, hq⟩ := hrun
      exact ⟨a, hx, hQ a r.1 r.2 hq⟩
  | error e =>
      rw [hy] at hrun
      exact hrun

/-- What has been computed has been computed by the other program as well. -/
theorem Follows.post (h : Follows inj x y s Q) (hx : x s = .ok (a, s')) : ∃ b, y s = .ok (b, s') ∧ Q a b s' := by
  have hrun := h.run
  cases hy : y s with
  | ok r =>
      rw [hy] at hrun
      obtain ⟨a', hx', hq⟩ := hrun
      obtain ⟨rfl, rfl⟩ := Prod.mk.inj (Except.ok.inj (hx.symm.trans hx'))
      exact ⟨r.1, rfl, hq⟩
  | error e =>
      rw [hy] at hrun
      cases hx.symm.trans hrun

/-- The failures are those of the other program. -/
theorem Follows.error (h : Follows inj x y s Q) (hx : x s = .error e) : ∃ e', y s = .error e' ∧ e = inj e' := by
  have hrun := h.run
  cases hy : y s with
  | ok r =>
      rw [hy] at hrun
      obtain ⟨a, hx', -⟩ := hrun
      cases hx.symm.trans hx'
  | error e' =>
      rw [hy] at hrun
      exact ⟨e', rfl, Except.error.inj (hx.symm.trans hrun)⟩

theorem follows_pure (h : Q a b s) : Follows inj (pure a) (pure b) s Q := ⟨⟨a, rfl, h⟩⟩

theorem follows_fail (e : ε) : Follows inj (fail (inj e) : Program σ ε' α) (fail e : Program σ ε β) s Q := ⟨rfl⟩

theorem follows_lift {P : β → σ → Prop} {Q : β → β → σ → Prop} {bad : ε} (h : Ensures bad y s P)
    (hQ : ∀ b s', P b s' → Q b b s') : Follows inj (lift inj y) y s Q := by
  constructor
  rw [lift]
  cases hy : y s with
  | ok r => exact ⟨r.1, rfl, hQ r.1 r.2 (h.post r.1 r.2 hy)⟩
  | error e => rfl

theorem follows_bind {f : α → Program σ ε' α'} {g : β → Program σ ε β'} {R : α' → β' → σ → Prop}
    (h : Follows inj x y s Q) (hf : ∀ a b s', Q a b s' → Follows inj (f a) (g b) s' R) :
    Follows inj (x >>= f) (y >>= g) s R := by
  have hrun := h.run
  constructor
  rw [bind_run, bind_run]
  cases hy : y s with
  | ok r =>
      rw [hy] at hrun
      obtain ⟨a, hx, hq⟩ := hrun
      rw [hx]
      exact (hf a r.1 r.2 hq).run
  | error e =>
      rw [hy] at hrun
      dsimp only at hrun ⊢
      rw [hrun]

theorem follows_own {f : α' → Program σ ε' α} {p : Program σ ε' α'} {c : α'} (hp : p s = .ok (c, s))
    (h : Follows inj (f c) y s Q) : Follows inj (p >>= f) y s Q := by
  have hrun : (p >>= f) s = f c s := by rw [bind_run, hp]
  constructor
  rw [hrun]
  exact h.run

theorem follows_ite {c : Prop} [Decidable c] (hx : c → Follows inj x y s Q) (hy : ¬c → Follows inj x' y' s Q) :
    Follows inj (if c then x else x') (if c then y else y') s Q := by
  by_cases hc : c
  · rw [if_pos hc, if_pos hc]
    exact hx hc
  · rw [if_neg hc, if_neg hc]
    exact hy hc

theorem follows_get_bind {f : σ → Program σ ε' α} {g : σ → Program σ ε β} (h : Follows inj (f s) (g s) s Q) :
    Follows inj (get >>= f) (get >>= g) s Q := ⟨h.run⟩

theorem follows_modify_bind {m : σ → σ} {f : Unit → Program σ ε' α} {g : Unit → Program σ ε β}
    (h : Follows inj (f ()) (g ()) (m s) Q) : Follows inj (modify m >>= f) (modify m >>= g) s Q :=
  ⟨h.run⟩

end

end IdaSdk.Program
