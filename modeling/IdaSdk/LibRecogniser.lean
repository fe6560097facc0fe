import Mathlib.Logic.Relation
import Mathlib.Tactic.Common

/-!
Recognisers. A phrase is a relation between the text before it and the text after it, and a
recogniser is a function from a state that holds a text to a new state or an error. `Decides` says
that the run of a recogniser settles a phrase: it leaves the one text the phrase can leave, or it
refuses and the phrase cannot be read. Sequences of recognisers then decide sequences of phrases.
-/

namespace IdaSdk.Recogniser

variable {α σ ε : Type}

/-- What stands between the text before and the text after. -/
abbrev Phrase (α : Type) := List α → List α → Prop

/-- The phrase made of the single symbol `c`. -/
def Terminal (c : α) : Phrase α := fun s t => s = c :: t

variable {c : α} {t : List α}

theorem terminal_cons {d : α} {s : List α} : Terminal c (d :: s) t ↔ d = c ∧ t = s := by
  unfold Terminal
  rw [List.cons.injEq, @eq_comm _ s t]

theorem not_terminal_nil : ¬ Terminal c [] t := by
  intro h
  cases h

theorem Terminal.head {s : List α} (h : Terminal c s t) : s.head? = some c := by
  rw [h, List.head?_cons]

/-- The phrase `P` where the symbol `c` follows. -/
def Until (c : α) (P : Phrase α) : Phrase α := fun s t => P s t ∧ t.head? = some c

theorem comp_until {P : Phrase α} :
    Relation.Comp (Until c P) (Terminal c) = Relation.Comp P (Terminal c) := by
  funext s t
  apply propext
  constructor
  · rintro ⟨u, ⟨hu, _⟩, ht⟩
    exact ⟨u, hu, ht⟩
  · rintro ⟨u, hu, ht⟩
    exact ⟨u, ⟨hu, ht.head⟩, ht⟩

/-- The phrase `P` where the symbol `c` does not follow. -/
def NotBefore (c : α) (P : Phrase α) : Phrase α := fun s t => P s t ∧ t.head? ≠ some c

/-! ### Lists of phrases, by the symbol ahead -/

section Lists

variable {c : α} {P : Phrase α} {s t : List α}

theorem until_transGen_iff :
    Until c (Relation.TransGen P) s t ↔
      Relation.Comp P (Until c (Relation.ReflTransGen P)) s t := by
  constructor
  · rintro ⟨h, hend⟩
    obtain ⟨a, ha, hs⟩ := Relation.TransGen.head'_iff.mp h
    exact ⟨a, ha, hs, hend⟩
  · rintro ⟨a, ha, hs, hend⟩
    exact ⟨Relation.TransGen.head' ha hs, hend⟩

theorem until_reflTransGen_of_head (hP : ∀ s t, P s t → s.head? ≠ some c) (hs : s.head? = some c) :
    Until c (Relation.ReflTransGen P) s t ↔ t = s := by
  constructor
  · rintro ⟨h, _⟩
    rcases Relation.ReflTransGen.cases_head h with rfl | ⟨a, ha, _⟩
    · rfl
    · exact absurd hs (hP s a ha)
  · rintro rfl
    exact ⟨.refl, hs⟩

theorem until_reflTransGen_of_ne (hs : s.head? ≠ some c) :
    Until c (Relation.ReflTransGen P) s t ↔ Until c (Relation.TransGen P) s t := by
  constructor
  · rintro ⟨h, hend⟩
    rcases Relation.reflTransGen_iff_eq_or_transGen.mp h with rfl | h
    · exact absurd hend hs
    · exact ⟨h, hend⟩
  · rintro ⟨h, hend⟩
    exact ⟨h.to_reflTransGen, hend⟩

theorem notBefore_reflTransGen_of_ne (hP : ∀ s t, P s t → s.head? = some c)
    (hs : s.head? ≠ some c) : NotBefore c (Relation.ReflTransGen P) s t ↔ t = s := by
  constructor
  · rintro ⟨h, _⟩
    rcases Relation.ReflTransGen.cases_head h with rfl | ⟨a, ha, _⟩
    · rfl
    · exact absurd (hP s a ha) hs
  · rintro rfl
    exact ⟨.refl, hs⟩

theorem notBefore_reflTransGen_of_head (hs : s.head? = some c) :
    NotBefore c (Relation.ReflTransGen P) s t ↔
      Relation.Comp P (NotBefore c (Relation.ReflTransGen P)) s t := by
  constructor
  · rintro ⟨h, hend⟩
    rcases Relation.ReflTransGen.cases_head h with rfl | ⟨a, ha, h⟩
    · exact absurd hs hend
    · exact ⟨a, ha, h, hend⟩
  · rintro ⟨a, ha, h, hend⟩
    exact ⟨.head ha h, hend⟩

end Lists

/-- How a recogniser's results are read: the text a state still holds, and the errors that refuse. -/
structure Reading (α σ ε : Type) where
  rest : σ → List α
  refuses : ε → Prop

/-- The run `r` from the text `s` settles the phrase `P`, and reads `k` symbols at least. -/
inductive Decides (R : Reading α σ ε) (k : Nat) (P : Phrase α) (s : List α) : Except ε σ → Prop
  | accepted (a : σ) (hread : ∀ t, P s t ↔ t = R.rest a) (hk : (R.rest a).length + k ≤ s.length) :
      Decides R k P s (.ok a)
  | refused (e : ε) (he : R.refuses e) (hread : ∀ t, ¬ P s t) : Decides R k P s (.error e)

namespace Decides

variable {R : Reading α σ ε} {k l : Nat} {P Q : Phrase α} {s : List α} {r : Except ε σ}

theorem of_iff (h : Decides R k P s r) (hpq : ∀ t, Q s t ↔ P s t) : Decides R k Q s r := by
  cases h with
  | accepted a hread hk => exact .accepted a (fun t => (hpq t).trans (hread t)) hk
  | refused e he hread => exact .refused e he (fun t ht => hread t ((hpq t).mp ht))

theorem back {s' : List α} (h : Decides R k P s' r) (hlen : s'.length ≤ s.length)
    (hpq : ∀ t, Q s t ↔ P s' t) : Decides R k Q s r := by
  cases h with
  | accepted a hread hk => exact .accepted a (fun t => (hpq t).trans (hread t)) (by omega)
  | refused e he hread => exact .refused e he (fun t ht => hread t ((hpq t).mp ht))

theorem mono (h : Decides R k P s r) (hl : l ≤ k) : Decides R l P s r := by
  cases h with
  | accepted a hread hk => exact .accepted a hread (Nat.le_trans (Nat.add_le_add_left hl _) hk)
  | refused e he hread => exact .refused e he hread

theorem skip {a : σ} (ha : R.rest a = s) : Decides R 0 (fun s t => t = s) s (.ok a) :=
  .accepted a (fun t => by rw [ha]) (by rw [ha]; exact Nat.le_refl _)

variable {f : σ → Except ε σ}

/-- Sequences decide sequences. -/
theorem bind (hr : Decides R k P s r)
    (hf : ∀ a, (R.rest a).length + k ≤ s.length → P s (R.rest a) → Decides R l Q (R.rest a) (f a)) :
    Decides R (k + l) (Relation.Comp P Q) s (r >>= f) := by
  cases hr with
  | accepted a hread hk =>
      have hcomp : ∀ t, Relation.Comp P Q s t ↔ Q (R.rest a) t := by
        intro t
        constructor
        · rintro ⟨u, hu, ht⟩
          exact (hread u).mp hu ▸ ht
        · intro ht
          exact ⟨R.rest a, (hread _).mpr rfl, ht⟩
      change Decides R (k + l) _ s (f a)
      cases hfa : f a with
      | ok b =>
          have hb := hf a hk ((hread _).mpr rfl)
          rw [hfa] at hb
          cases hb with
          | accepted _ hread' hl =>
              exact .accepted b (fun t => (hcomp t).trans (hread' t)) (by omega)
      | error e =>
          have hb := hf a hk ((hread _).mpr rfl)
          rw [hfa] at hb
          cases hb with
          | refused _ he hread' => exact .refused e he (fun t ht => hread' t ((hcomp t).mp ht))
  | refused e he hread =>
      refine .refused e he ?_
      rintro t ⟨u, hu, _⟩
      exact hread u hu

theorem after {x : Except ε σ} (hx : ∃ a, x = .ok a ∧ R.rest a = s)
    (hf : ∀ a, R.rest a = s → Decides R k P s (f a)) : Decides R k P s (x >>= f) := by
  obtain ⟨a, rfl, ha⟩ := hx
  exact hf a ha

theorem before (hr : Decides R k P s r)
    (hf : ∀ a, ∃ b, f a = .ok b ∧ R.rest b = R.rest a) : Decides R k P s (r >>= f) := by
  cases hr with
  | accepted a hread hk =>
      obtain ⟨b, hb, hrest⟩ := hf a
      change Decides R k P s (f a)
      rw [hb]
      exact .accepted b (fun t => by rw [hread t, hrest]) (by rw [hrest]; exact hk)
  | refused e he hread => exact .refused e he hread

theorem isOk_iff (h : Decides R k P s r) : (∃ a, r = .ok a) ↔ ∃ t, P s t := by
  cases h with
  | accepted a hread _ => exact iff_of_true ⟨a, rfl⟩ ⟨_, (hread _).mpr rfl⟩
  | refused e _ hread =>
      refine iff_of_false ?_ ?_
      · rintro ⟨a, ha⟩
        cases ha
      · rintro ⟨t, ht⟩
        exact hread t ht

theorem ends (h : Decides R k P s r) : (∃ a, r = .ok a) ∨ ∃ e, R.refuses e ∧ r = .error e := by
  cases h with
  | accepted a _ _ => exact .inl ⟨a, rfl⟩
  | refused e he _ => exact .inr ⟨e, he, rfl⟩

end Decides

end IdaSdk.Recogniser
