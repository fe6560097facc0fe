import Mathlib.Data.List.Basic
import Mathlib.Tactic.Common

/-!
Reading the literals of the Java language. Unicode escapes are translated first, wherever they stand; the body of the
literal is read from the result, with simple escapes and octal escapes, up to the quotation mark it began with.
-/

namespace IdaSdk.JavaLiteral

variable (c : UInt16)

def hexValue : Option Nat :=
  if 0x30 ≤ c ∧ c ≤ 0x39 then some (c.toNat - 0x30)
  else if 0x41 ≤ c ∧ c ≤ 0x46 then some (c.toNat - 0x37)
  else if 0x61 ≤ c ∧ c ≤ 0x66 then some (c.toNat - 0x57)
  else none

/-- Where the translation stands: outside an escape, after a backslash that may begin one, after the `u`, or after some
of the four digits. -/
inductive Lexing where
  | plain
  | backslash
  | marker
  | digits (n : Nat) (value : Nat)

/-- A backslash behind another one that did not begin an escape does not begin one either. -/
def translateEscapes : Lexing → List UInt16 → Option (List UInt16)
  | .plain, [] => some []
  | .plain, c :: rest => if c = 0x5C then translateEscapes .backslash rest else (translateEscapes .plain rest).map (c :: ·)
  | .backslash, [] => some [0x5C]
  | .backslash, c :: rest =>
    if c = 0x75 then translateEscapes .marker rest else (translateEscapes .plain rest).map (0x5C :: c :: ·)
  | .marker, [] => none
  | .marker, c :: rest => if c = 0x75 then translateEscapes .marker rest else (hexValue c).bind fun v => translateEscapes (.digits 1 v) rest
  | .digits _ _, [] => none
  | .digits n value, c :: rest =>
    (hexValue c).bind fun v =>
      if n = 3 then (translateEscapes .plain rest).map (UInt16.ofNat (value * 16 + v) :: ·)
      else translateEscapes (.digits (n + 1) (value * 16 + v)) rest

def octalValue : Option Nat := if 0x30 ≤ c ∧ c ≤ 0x37 then some (c.toNat - 0x30) else none

def simpleEscape : Option UInt16 :=
  if c = 0x62 then some 0x08         -- b
  else if c = 0x73 then some 0x20    -- s
  else if c = 0x74 then some 0x09    -- t
  else if c = 0x6E then some 0x0A    -- n
  else if c = 0x66 then some 0x0C    -- f
  else if c = 0x72 then some 0x0D    -- r
  else if c = 0x22 then some 0x22
  else if c = 0x27 then some 0x27
  else if c = 0x5C then some 0x5C
  else none

/-- The value and the length of an octal escape: three digits if the first is at most 3, and else two. -/
def octalEscape : List UInt16 → Option (Nat × Nat)
  | [] => none
  | c :: rest =>
    match octalValue c, rest.head?.bind octalValue, rest.tail.head?.bind octalValue with
    | none, _, _ => none
    | some d, none, _ => some (d, 1)
    | some d, some d', none => some (d * 8 + d', 2)
    | some d, some d', some d'' => if d ≤ 3 then some ((d * 8 + d') * 8 + d'', 3) else some (d * 8 + d', 2)

/-- The characters up to the closing mark, which must be the last one. The first argument counts the digits of an octal
escape that has been read ahead. -/
def readBody (quote : UInt16) : Nat → List UInt16 → Option (List UInt16)
  | _, [] => none
  | skip + 1, _ :: rest => readBody quote skip rest
  | 0, c :: rest =>
    if c = quote then (if rest = [] then some [] else none)
    else if c = 0x0A ∨ c = 0x0D then none
    else if c ≠ 0x5C then (readBody quote 0 rest).map (c :: ·)
    else
      match rest.head?.bind simpleEscape, octalEscape rest with
      | some v, _ => (readBody quote 1 rest).map (v :: ·)
      | none, some (v, n) => (readBody quote n rest).map (UInt16.ofNat v :: ·)
      | none, none => none

/-- The characters that a literal with the given quotation mark denotes. -/
def readLiteral (quote : UInt16) (source : List UInt16) : Option (List UInt16) :=
  (translateEscapes .plain source).bind fun chars =>
    if chars.head? = some quote then readBody quote 0 chars.tail else none

def hexDigit (n : Nat) : UInt16 := if n < 10 then UInt16.ofNat (0x30 + n) else UInt16.ofNat (0x37 + n)

/-- Four digits in upper case. -/
def hex4 (n : Nat) : List UInt16 :=
  [hexDigit (n / 4096 % 16), hexDigit (n / 256 % 16), hexDigit (n / 16 % 16), hexDigit (n % 16)]

def octalDigit (n : Nat) : UInt16 := UInt16.ofNat (0x30 + n)

variable {n : Nat}

theorem hexValue_hexDigit (h : n < 16) : hexValue (hexDigit n) = some n := by
  have hall : ∀ n : Fin 16, hexValue (hexDigit n) = some n.val := by decide
  exact hall ⟨n, h⟩

theorem hexDigit_ne_marker (h : n < 16) : hexDigit n ≠ 0x75 := by
  have hall : ∀ n : Fin 16, hexDigit n ≠ 0x75 := by decide
  exact hall ⟨n, h⟩

theorem octalValue_octalDigit (h : n < 8) : octalValue (octalDigit n) = some n := by
  have hall : ∀ n : Fin 8, octalValue (octalDigit n) = some n.val := by decide
  exact hall ⟨n, h⟩

theorem simpleEscape_octalDigit (h : n < 8) : simpleEscape (octalDigit n) = none := by
  have hall : ∀ n : Fin 8, simpleEscape (octalDigit n) = none := by decide
  exact hall ⟨n, h⟩

theorem translate_raw {c : UInt16} (hc : c ≠ 0x5C) (rest : List UInt16) :
    translateEscapes .plain (c :: rest) = (translateEscapes .plain rest).map ([c] ++ ·) :=
  if_neg hc

theorem translate_escape {e : UInt16} (he : e ≠ 0x75) (rest : List UInt16) :
    translateEscapes .plain (0x5C :: e :: rest) = (translateEscapes .plain rest).map ([0x5C, e] ++ ·) :=
  (if_pos rfl).trans (if_neg he)

theorem translate_unicode (hn : n < 65536) (rest : List UInt16) :
    translateEscapes .plain (0x5C :: 0x75 :: hex4 n ++ rest) = (translateEscapes .plain rest).map ([UInt16.ofNat n] ++ ·) := by
  have h₃ : n / 4096 % 16 < 16 := Nat.mod_lt _ (by decide)
  have h₂ : n / 256 % 16 < 16 := Nat.mod_lt _ (by decide)
  have h₁ : n / 16 % 16 < 16 := Nat.mod_lt _ (by decide)
  have h₀ : n % 16 < 16 := Nat.mod_lt _ (by decide)
  have hvalue : ((n / 4096 % 16 * 16 + n / 256 % 16) * 16 + n / 16 % 16) * 16 + n % 16 = n := by omega
  rw [hex4, List.cons_append, List.cons_append, translateEscapes, if_pos rfl, translateEscapes, if_pos rfl]
  simp only [List.cons_append, List.nil_append, translateEscapes, if_neg (hexDigit_ne_marker h₃), hexValue_hexDigit h₃,
    hexValue_hexDigit h₂, hexValue_hexDigit h₁, hexValue_hexDigit h₀, Option.bind_some, hvalue]
  rfl

theorem translate_raws {chars : List UInt16} (h : ∀ c ∈ chars, c ≠ 0x5C) (rest : List UInt16) :
    translateEscapes .plain (chars ++ rest) = (translateEscapes .plain rest).map (chars ++ ·) := by
  induction chars with
  | nil => exact Option.map_id'.symm
  | cons c chars ih =>
      rw [List.cons_append, translate_raw (h c (List.mem_cons_self ..)),
        ih fun c hc => h c (List.mem_cons_of_mem _ hc), Option.map_map]
      rfl

section
variable {quote : UInt16} {rest : List UInt16}

/-- The text goes on with an octal digit. -/
def StartsOctal (chars : List UInt16) : Prop := ∃ d, chars.head?.bind octalValue = some d

theorem not_startsOctal (h : ¬StartsOctal rest) : rest.head?.bind octalValue = none :=
  Option.eq_none_iff_forall_not_mem.2 fun d hd => h ⟨d, hd⟩

variable {d : Nat}

theorem octalEscape_one (hd : d < 8) (h : ¬StartsOctal rest) :
    octalEscape ([octalDigit d] ++ rest) = some (d, 1) := by
  rw [List.singleton_append, octalEscape, octalValue_octalDigit hd, not_startsOctal h]

theorem octalEscape_two {d' : Nat} (hd : d < 8) (hd' : d' < 8) (h : ¬StartsOctal rest) :
    octalEscape ([octalDigit d, octalDigit d'] ++ rest) = some (d * 8 + d', 2) := by
  simp only [List.cons_append, List.nil_append, octalEscape, octalValue_octalDigit hd, List.head?_cons,
    Option.bind_some, octalValue_octalDigit hd', List.tail_cons, not_startsOctal h]

theorem octalEscape_three {d' d'' : Nat} (hd : d ≤ 3) (hd' : d' < 8) (hd'' : d'' < 8) :
    octalEscape ([octalDigit d, octalDigit d', octalDigit d''] ++ rest) = some ((d * 8 + d') * 8 + d'', 3) := by
  simp only [List.cons_append, List.nil_append, octalEscape, octalValue_octalDigit (show d < 8 by omega),
    List.head?_cons, Option.bind_some, octalValue_octalDigit hd', List.tail_cons, octalValue_octalDigit hd'', if_pos hd]

theorem readBody_skip (digits : List UInt16) :
    readBody quote digits.length (digits ++ rest) = readBody quote 0 rest := by
  induction digits with
  | nil => rfl
  | cons c digits ih => exact ih

theorem readBody_raw {c : UInt16} (hquote : c ≠ quote) (hline : c ≠ 0x0A ∧ c ≠ 0x0D) (hc : c ≠ 0x5C) :
    readBody quote 0 ([c] ++ rest) = (readBody quote 0 rest).map ([c] ++ ·) :=
  ((if_neg hquote).trans (if_neg (not_or.2 hline))).trans (if_pos hc)

theorem readBody_raws {chars : List UInt16}
    (h : ∀ c ∈ chars, c ≠ quote ∧ (c ≠ 0x0A ∧ c ≠ 0x0D) ∧ c ≠ 0x5C) :
    readBody quote 0 (chars ++ rest) = (readBody quote 0 rest).map (chars ++ ·) := by
  induction chars with
  | nil => exact Option.map_id'.symm
  | cons c chars ih =>
      obtain ⟨hquote, hline, hc⟩ := h c (List.mem_cons_self ..)
      rw [List.cons_append, ← List.singleton_append, readBody_raw hquote hline hc,
        ih fun c hc => h c (List.mem_cons_of_mem _ hc), Option.map_map]
      rfl

theorem readBody_simple {e v : UInt16} (hquote : quote ≠ 0x5C) (he : simpleEscape e = some v) :
    readBody quote 0 ([0x5C, e] ++ rest) = (readBody quote 0 rest).map ([v] ++ ·) := by
  simp only [List.cons_append, List.nil_append, readBody, if_neg hquote.symm, List.head?_cons, Option.bind_some, he]
  rfl

/-- An octal escape takes its digits, of which the first is no simple escape. -/
theorem readBody_octal {v : Nat} {digits : List UInt16} (hquote : quote ≠ 0x5C) (hd : d < 8)
    (h : octalEscape (octalDigit d :: digits ++ rest) = some (v, digits.length + 1)) :
    readBody quote 0 (0x5C :: octalDigit d :: digits ++ rest) =
      (readBody quote 0 rest).map ([UInt16.ofNat v] ++ ·) := by
  have hskip : readBody quote (digits.length + 1) (octalDigit d :: digits ++ rest) = readBody quote 0 rest :=
    readBody_skip (octalDigit d :: digits)
  rw [List.cons_append, readBody, if_neg hquote.symm, if_neg (by decide), if_neg (not_not.2 rfl), h, List.cons_append,
    List.head?_cons, Option.bind_some, simpleEscape_octalDigit hd]
  dsimp only
  rw [← List.cons_append, hskip]
  rfl

end

end IdaSdk.JavaLiteral
