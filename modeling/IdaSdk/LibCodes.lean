import Mathlib.Data.List.Infix

/-!
Streams of codes. A reader takes values from the front of a byte string; an account of a stream tells in which order the
values are and which results are complete between them.
-/

namespace IdaSdk.Codes

/-- What a reader of one value leaves. A reader that fails leaves some value behind, too. -/
structure Unpacked (V : Type) where
  ok : Bool
  value : V
  rest : List UInt8

variable {V R : Type} {u : List UInt8 → Unpacked V}

/-- A value takes at least one byte. -/
def Consumes (u : List UInt8 → Unpacked V) : Prop := ∀ bytes, (u bytes).ok = true → (u bytes).rest.length < bytes.length

/-- The bytes `t` are a code of `v`: they are read, whatever follows, and no part of them is enough. -/
structure IsCode (u : List UInt8 → Unpacked V) (t : List UInt8) (v : V) : Prop where
  read : ∀ rest, u (t ++ rest) = ⟨true, v, rest⟩
  cut : ∀ p, p <+: t → p ≠ t → (u p).ok = false

theorem IsCode.pos {t : List UInt8} {v : V} (h : IsCode u t v) (hu : Consumes u) : 0 < t.length := by
  have hread := h.read []
  have hlt := hu (t ++ []) (by rw [hread])
  rw [hread, List.append_nil] at hlt
  exact hlt

inductive Event (V R : Type) where
  | value (v : V)
  | result (r : R)

/-- All results of an account. -/
def results : List (Event V R) → List R
  | [] => []
  | .value _ :: es => results es
  | .result r :: es => r :: results es

theorem results_append (es fs : List (Event V R)) : results (es ++ fs) = results es ++ results fs := by
  induction es with
  | nil => rfl
  | cons e es ih => cases e with
    | value v => exact ih
    | result r => exact congrArg (r :: ·) ih

/-- The bytes are those of the account, or end inside one of its values; `rs` are the results that are complete. -/
inductive Encodes (u : List UInt8 → Unpacked V) : List (Event V R) → List UInt8 → List R → Prop
  | nil : Encodes u [] [] []
  | value {t v es bytes rs} : IsCode u t v → Encodes u es bytes rs → Encodes u (.value v :: es) (t ++ bytes) rs
  | result {r es bytes rs} : Encodes u es bytes rs → Encodes u (.result r :: es) bytes (r :: rs)
  | cut {t p v es} : IsCode u t v → p <+: t → p ≠ t → Encodes u (.value v :: es) p []

/-- A value that is there under a condition. -/
def valueIf (c : Bool) (v : V) : List (Event V R) := if c then [.value v] else []

theorem results_valueIf (c : Bool) (v : V) : results (valueIf c v : List (Event V R)) = [] := by
  cases c <;> rfl

/-- The value is read, if the results go on. -/
structure ReadsIf (u : List UInt8 → Unpacked V) (c : Bool) (v : V) (bytes rest : List UInt8) : Prop where
  read : c = true → u bytes = ⟨true, v, rest⟩
  skip : c = false → rest = bytes
  length : rest.length + c.toNat ≤ bytes.length

theorem Encodes.readsIf {c : Bool} {v : V} {es : List (Event V R)} {bytes : List UInt8} {rs : List R} (hu : Consumes u)
    (h : Encodes u (valueIf c v ++ es) bytes rs) :
    rs = [] ∨ ∃ rest, ReadsIf u c v bytes rest ∧ Encodes u es rest rs := by
  cases c with
  | false => exact Or.inr ⟨bytes, ⟨nofun, fun _ => rfl, le_rfl⟩, h⟩
  | true => cases h with
    | cut => exact Or.inl rfl
    | @value t _ _ rest _ hcode hrest =>
        refine Or.inr ⟨rest, ⟨fun _ => hcode.read rest, nofun, ?_⟩, hrest⟩
        have hpos := hcode.pos hu
        rw [List.length_append, Bool.toNat_true]
        omega

end IdaSdk.Codes
