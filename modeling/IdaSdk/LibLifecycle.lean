import Mathlib.Data.List.Basic

/-!
Logs of what happens to objects in dynamic storage, and the part of a log that is about one object.
-/

namespace IdaSdk.Lifecycle

inductive Event (α : Type*) where
  | allocated (p : α)
  | constructed (p : α)
  | destroyed (p : α)
  | freed (p : α)
  deriving DecidableEq

variable {α : Type*}

def Event.object : Event α → α
  | .allocated p | .constructed p | .destroyed p | .freed p => p

section
variable [DecidableEq α]

variable (p : α)

/-- The events of one object in the order of the log. -/
def history (E : List (Event α)) : List (Event α) := E.filter fun e => e.object = p

@[simp] theorem history_nil : history p [] = [] := rfl

@[simp] theorem history_append (E E' : List (Event α)) : history p (E ++ E') = history p E ++ history p E' :=
  List.filter_append ..

theorem history_cons (e : Event α) (E : List (Event α)) :
    history p (e :: E) = if e.object = p then e :: history p E else history p E := by
  by_cases he : e.object = p
  · simp [history, he]
  · simp [history, he]

theorem history_build (p a : α) : history p [.allocated a, .constructed a] =
    if p = a then [.allocated p, .constructed p] else [] := by
  by_cases h : p = a
  · simp [history_cons, Event.object, h]
  · simp [history_cons, Event.object, h, Ne.symm h]

theorem history_release (p a : α) : history p [.destroyed a, .freed a] =
    if p = a then [.destroyed p, .freed p] else [] := by
  by_cases h : p = a
  · simp [history_cons, Event.object, h]
  · simp [history_cons, Event.object, h, Ne.symm h]

/-- Whatever was allocated is freed once, and destroyed once before that if its value was constructed. -/
def Released (E : List (Event α)) : Prop :=
  ∀ p, history p E = [] ∨ history p E = [.allocated p, .freed p] ∨
    history p E = [.allocated p, .constructed p, .destroyed p, .freed p]

theorem Released.nil : Released ([] : List (Event α)) := fun _ => .inl rfl

theorem Released.unbuilt (a : α) : Released [.allocated a, .freed a] := by
  intro p
  by_cases h : p = a
  · simp [history_cons, Event.object, h]
  · simp [history_cons, Event.object, Ne.symm h]

theorem Released.around {E : List (Event α)} (hE : Released E) {a : α} (ha : history a E = []) :
    Released ([.allocated a] ++ E ++ [.freed a]) := by
  intro p
  by_cases h : p = a
  · subst h
    simp [history_cons, Event.object, ha]
  · simpa [history_cons, Event.object, Ne.symm h] using hE p

end

end IdaSdk.Lifecycle
