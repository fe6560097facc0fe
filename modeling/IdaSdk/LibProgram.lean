import Mathlib.Logic.Basic
import Mathlib.Tactic.Common

/-!
Programs that change a state and may fail. `Ensures` says what holds when a program ends well and
rules out one kind of failure, such as a loop that never ends. Loops come with a rule for invariants;
where the condition of a loop says nothing about its bound, a measure on the state does.
-/

namespace IdaSdk

def Program (σ ε α : Type) := σ → Except ε (α × σ)

namespace Program

variable {σ ε α β : Type}

instance : Monad (Program σ ε) where
  pure a := fun s => .ok (a, s)
  bind x f := fun s =>
    match x s with
    | .ok (a, s') => f a s'
    | .error e => .error e

def fail (e : ε) : Program σ ε α := fun _ => .error e

def get : Program σ ε σ := fun s => .ok (s, s)

def modify (f : σ → σ) : Program σ ε Unit := fun s => .ok ((), f s)

theorem bind_run (x : Program σ ε α) (f : α → Program σ ε β) (s : σ) : (x >>= f) s =
    match x s with
    | .ok (a, s') => f a s'
    | .error e => .error e := rfl

/-- The program does not fail with `bad`, and whenever it ends well, `Q` holds of its result and of
the state. -/
structure Ensures (bad : ε) (x : Program σ ε α) (s : σ) (Q : α → σ → Prop) : Prop where
  avoids : x s ≠ .error bad
  post : ∀ a s', x s = .ok (a, s') → Q a s'

section Ensures

variable {bad : ε} {x y : Program σ ε α} {f : α → Program σ ε β} {s : σ} {Q Q' : α → σ → Prop}
  {R : β → σ → Prop}

theorem Ensures.mono (h : Ensures bad x s Q) (hQ : ∀ a s', Q a s' → Q' a s') : Ensures bad x s Q' :=
  ⟨h.avoids, fun a s' hx => hQ a s' (h.post a s' hx)⟩

theorem Ensures.and (h : Ensures bad x s Q) (h' : Ensures bad x s Q') :
    Ensures bad x s fun a s' => Q a s' ∧ Q' a s' :=
  ⟨h.avoids, fun a s' hx => ⟨h.post a s' hx, h'.post a s' hx⟩⟩

theorem ensures_pure {a : α} (h : Q a s) : Ensures bad (pure a : Program σ ε α) s Q := by
  refine ⟨nofun, fun a' s' hx => ?_⟩
  obtain ⟨rfl, rfl⟩ := Prod.mk.inj (Except.ok.inj hx)
  exact h

theorem ensures_bind (hx : Ensures bad x s Q) (hf : ∀ a s', Q a s' → Ensures bad (f a) s' R) :
    Ensures bad (x >>= f) s R := by
  constructor
  · rw [bind_run]
    cases h : x s with
    | error e =>
        intro he
        exact hx.avoids (h.trans (congrArg _ (Except.error.inj he)))
    | ok r => exact (hf r.1 r.2 (hx.post _ _ h)).avoids
  · intro b s'' hb
    rw [bind_run] at hb
    cases h : x s with
    | error e =>
        rw [h] at hb
        exact absurd hb (by simp)
    | ok r =>
        rw [h] at hb
        exact (hf r.1 r.2 (hx.post _ _ h)).post b s'' hb

theorem ensures_fail {e : ε} (h : e ≠ bad) : Ensures bad (fail e : Program σ ε α) s Q :=
  ⟨fun hx => h (Except.error.inj hx), nofun⟩

theorem ensures_get {Q : σ → σ → Prop} (h : Q s s) : Ensures bad (get : Program σ ε σ) s Q := by
  refine ⟨nofun, fun a' s' hx => ?_⟩
  obtain ⟨rfl, rfl⟩ := Prod.mk.inj (Except.ok.inj hx)
  exact h

theorem ensures_modify {g : σ → σ} {Q : Unit → σ → Prop} (h : Q () (g s)) :
    Ensures bad (modify g : Program σ ε Unit) s Q := by
  refine ⟨nofun, fun a' s' hx => ?_⟩
  obtain ⟨-, rfl⟩ := Prod.mk.inj (Except.ok.inj hx)
  exact h

theorem ensures_ite {c : Prop} [Decidable c] (hx : c → Ensures bad x s Q) (hy : ¬c → Ensures bad y s Q) :
    Ensures bad (if c then x else y) s Q := by
  split
  · next h => exact hx h
  · next h => exact hy h

theorem ensures_get_bind {g : σ → Program σ ε β} (h : Ensures bad (g s) s R) :
    Ensures bad (get >>= g) s R :=
  ensures_bind (ensures_get (Q := fun a s' => a = s ∧ s' = s) ⟨rfl, rfl⟩) fun a s' ha => by
    obtain ⟨rfl, rfl⟩ := ha
    exact h

theorem ensures_modify_bind {g : σ → σ} {h : Unit → Program σ ε β} (hr : Ensures bad (h ()) (g s) R) :
    Ensures bad (modify g >>= h) s R :=
  ensures_bind (ensures_modify (Q := fun _ s' => s' = g s) rfl) fun _ s' hs' => by
    subst hs'
    exact hr

end Ensures

/-- The program leaves the state in relation to the one it started in. -/
def Respects (bad : ε) (R : σ → σ → Prop) (x : Program σ ε α) : Prop := ∀ s, Ensures bad x s fun _ s' => R s s'

section Respects

variable {bad : ε} {R : σ → σ → Prop} {x y : Program σ ε α} {f : α → Program σ ε β}

theorem Respects.bind (ht : ∀ {s s' s'' : σ}, R s s' → R s' s'' → R s s'') (hx : Respects bad R x)
    (hf : ∀ a, Respects bad R (f a)) : Respects bad R (x >>= f) :=
  fun s => ensures_bind (hx s) fun a s' hs => (hf a s').mono fun _ _ hs' => ht hs hs'

theorem respects_pure (hr : ∀ s, R s s) (a : α) : Respects bad R (pure a : Program σ ε α) :=
  fun s => ensures_pure (hr s)

theorem respects_fail {e : ε} (h : e ≠ bad) : Respects bad R (fail e : Program σ ε α) := fun _ => ensures_fail h

theorem respects_modify {g : σ → σ} (h : ∀ s, R s (g s)) : Respects bad R (modify g : Program σ ε Unit) :=
  fun s => ensures_modify (h s)

theorem respects_get_bind {g : σ → Program σ ε β} (h : ∀ s, Respects bad R (g s)) : Respects bad R (get >>= g) :=
  fun s => ensures_get_bind (h s s)

theorem respects_ite {c : Prop} [Decidable c] (hx : c → Respects bad R x) (hy : ¬c → Respects bad R y) :
    Respects bad R (if c then x else y) :=
  fun s => ensures_ite (fun h => hx h s) fun h => hy h s

end Respects

/-- The rounds `i`, …, `i + n - 1`. -/
def rounds (body : Nat → Program σ ε Unit) : Nat → Nat → Program σ ε Unit
  | 0, _ => pure ()
  | n + 1, i => do
      body i
      rounds body n (i + 1)

/-- Rounds as long as the counter satisfies `cond`, at most as many as there is fuel; the result is
the counter at the end. -/
def loop (endless : ε) (cond : Nat → Bool) (body : Nat → Program σ ε Unit) : Nat → Nat → Program σ ε Nat
  | 0, i => if cond i then fail endless else pure i
  | fuel + 1, i => if cond i then do
      body i
      loop endless cond body fuel (i + 1)
    else pure i

/-- The invariant holds at the end, and the condition does not. The measure bounds the rounds. -/
theorem ensures_loop {bad endless : ε} {cond : Nat → Bool} {body : Nat → Program σ ε Unit} {I : Nat → σ → Prop}
    (μ : Nat → σ → Nat) {fuel i : Nat} {s : σ}
    (hbody : ∀ j s, cond j = true → I j s →
      Ensures bad (body j) s fun _ s' => I (j + 1) s' ∧ μ (j + 1) s' < μ j s)
    (hpos : ∀ j s, cond j = true → I j s → 0 < μ j s) (hs : I i s) (hfuel : μ i s ≤ fuel) :
    Ensures bad (loop endless cond body fuel i) s fun j s' => cond j = false ∧ I j s' := by
  induction fuel generalizing i s with
  | zero =>
      rw [loop]
      refine ensures_ite (fun h => ?_) fun h => ensures_pure ⟨Bool.eq_false_iff.mpr h, hs⟩
      exact absurd (hpos i s h hs) (by omega)
  | succ fuel ih =>
      rw [loop]
      refine ensures_ite (fun h => ?_) fun h => ensures_pure ⟨Bool.eq_false_iff.mpr h, hs⟩
      exact ensures_bind (hbody i s h hs) fun _ s' hs' => ih hs'.1 (by omega)

end Program

end IdaSdk
