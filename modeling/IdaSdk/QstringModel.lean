import Mathlib.Algebra.GroupWithZero.Nat
import Mathlib.Algebra.Group.Int.Defs
import Mathlib.Algebra.Group.Nat.Defs
import Mathlib.Data.List.DropRight
import IdaSdk.LibBuffer

/-!
The editing operations of a string. Its body is a buffer that is empty or holds the characters and a terminating NUL. An
access outside the buffer has no result; sizes are computed modulo `2 ^ 64`.
-/

namespace IdaSdk.Qstring
open LibBuffer

def size_t (x : Nat) : Nat := x % 2 ^ 64

/-- The invariant of the body. -/
structure _qstring (α : Type) [Zero α] where
  body : List α
  fits : body.length < 2 ^ 64
  terminated : body = [] ∨ ∃ chars, body = chars ++ [0]

variable {α : Type} [Zero α]

def _qstring.chars (s : _qstring α) : List α := s.body.dropLast

def length (body : List α) : Nat := if body.length ≠ 0 then body.length - 1 else 0

def qvector_resize (body : List α) (newsize : Nat) (x : α) : List α :=
  body.take newsize ++ List.replicate (newsize - body.length) x

/-- `qvector::resize_noinit`; the new elements are what the memory holds. -/
def resize_noinit (mem : Nat → α) (body : List α) (newsize : Nat) : List α :=
  body.take newsize ++ (List.range (newsize - body.length)).map mem

/-! ### The string -/

def assign (mem : Nat → α) (ptr : List α) : Option (List α) := do
  let body ← store (resize_noinit mem [] (size_t (ptr.length + 1))) 0 ptr
  put body ptr.length 0

def resize (body : List α) (s : Nat) (c : α) : Option (List α) := do
  let body ← (if body.length ≠ 0 ∧ body.length ≤ s then put body (body.length - 1) c else some body)
  put (qvector_resize body (size_t (s + 1)) c) s 0

def resize_zero (body : List α) (s : Nat) : Option (List α) :=
  if s = 0 then some []
  else put (qvector_resize body (size_t (s + 1)) 0) s 0

def substr (mem : Nat → α) (body : List α) (pos n : Nat) : Option (List α) := do
  let endp := min (length body) n
  let pos := if endp ≤ pos then endp else pos
  let ptr ← load body pos (endp - pos)
  if endp - pos = 0 then some [] else assign mem ptr

/-- The end of `remove`: the string is cut at a position. -/
def cut_at (mem : Nat → α) (body : List α) (idx : Nat) : Option (List α) :=
  put (resize_noinit mem body (size_t (idx + 1))) idx 0

def remove (mem : Nat → α) (body : List α) (idx cnt : Nat) : Option (List α) :=
  if idx < length body ∧ cnt ≠ 0 then
    if size_t (cnt + idx) < length body then do
      let body' ← move body idx (size_t (cnt + idx)) (length body - size_t (cnt + idx))
      cut_at mem body' (size_t (idx + (length body - size_t (cnt + idx))))
    else cut_at mem body idx
  else some body

def insert_char (mem : Nat → α) (body : List α) (idx : Nat) (c : α) : Option (List α) := do
  let len := length body
  let body ← put (resize_noinit mem body (size_t (len + 2))) (size_t (len + 1)) 0
  if idx < len then do
    let body ← move body (idx + 1) idx (len - idx)
    put body idx c
  else put body len c

/-- `insert` of the first `addlen` characters at a pointer, or of the characters of another string. -/
def insert (mem : Nat → α) (body : List α) (idx : Nat) (str : List α) : Option (List α) := do
  let len := length body
  let addlen := str.length
  let body ← put (resize_noinit mem body (size_t (len + addlen + 1))) (size_t (len + addlen)) 0
  if idx < len then do
    let body ← move body (idx + addlen) idx (len - idx)
    store body idx str
  else store body len str

def append_char (mem : Nat → α) (body : List α) (c : α) : Option (List α) := do
  let len := length body
  let body ← put (resize_noinit mem body (size_t (len + 2))) len c
  put body (size_t (len + 1)) 0

/-- `append` of the first `addlen` characters at a pointer. -/
def append (mem : Nat → α) (body str : List α) : Option (List α) := do
  let len := length body
  let addlen := str.length
  let body ← put (resize_noinit mem body (size_t (len + addlen + 1))) (size_t (len + addlen)) 0
  store body len str

def append_qstring (mem : Nat → α) (body str : List α) : Option (List α) :=
  if str.length ≠ 0 then append mem body str else some body

def fill (mem : Nat → α) (body : List α) (pos : Nat) (c : α) (len : Nat) : Option (List α) := do
  let endp := size_t (pos + len + 1)
  let body ← (if body.length < endp then put (resize_noinit mem body endp) (endp - 1) 0 else some body)
  fillWith body pos len c

def fill_all (c : α) (len : Nat) : Option (List α) :=
  if 0 < len then resize [] len c else some []

section Trim
variable [DecidableEq α]

/-- The loop of `ltrim` over the characters before the terminator. -/
def skip_blanks (blank : α) : List α → Nat
  | [] => 0
  | c :: chars => if c = blank then skip_blanks blank chars + 1 else 0

def ltrim (body : List α) (blank : α) : Option (List α) :=
  if body.length ≤ 1 then some body
  else
    let e := body.length - 1
    let b := skip_blanks blank (body.take e)
    if 0 < b then do
      let body ← move body 0 b (e - b + 1)
      resize_zero body (e - b)
    else some body

/-- The loop of `rtrim` down from a position; the lower end may be before the buffer. -/
def trim_end (body : List α) (blank : α → Bool) (b : Int) : Nat → Option Nat
  | 0 => if b < 0 then none else some 0
  | e + 1 =>
    if b < e + 1 then
      match body[e]? with
      | some c => if blank c then trim_end body blank b e else some (e + 1)
      | none => none
    else some (e + 1)

/-- `body.begin() + minlen`; the largest `size_t` is one before the buffer. -/
def lower_end (minlen : Nat) : Int := (size_t (minlen + 1) : Int) - 1

def rtrim (body : List α) (blank : α) (minlen : Nat) : Option (List α) :=
  if size_t (minlen + 1) < body.length then do
    let e ← trim_end body (· = blank) (lower_end minlen) (body.length - 1)
    resize_zero body e
  else some body

/-- `rtrim` of whitespace. -/
def rtrim_space (body : List α) (qisspace : α → Bool) : Option (List α) :=
  if body.length ≤ 1 then some body
  else do
    let e ← trim_end body qisspace 0 (body.length - 1)
    resize_zero body e

def trim2 (body : List α) (blank : α) : Option (List α) := do
  let body ← rtrim body blank 0
  ltrim body blank

end Trim

inductive Operation (α : Type) [Zero α] where
  | resize (s : Nat) (c : α)
  | resize_zero (s : Nat)
  | substr (pos n : Nat)
  | remove (idx cnt : Nat)
  | insert_char (idx : Nat) (c : α)
  | insert (idx : Nat) (str : List α)
  | append_char (c : α)
  | append (str : List α)
  | append_qstring (str : _qstring α)
  | fill (pos : Nat) (c : α) (len : Nat)
  | fill_all (c : α) (len : Nat)
  | ltrim (blank : α)
  | rtrim (blank : α) (minlen : Nat)
  | rtrim_space (qisspace : α → Bool)
  | trim2 (blank : α)

/-- The arguments are of type `size_t`. -/
def Operation.Fits : Operation α → Prop
  | .resize s _ => s < 2 ^ 64
  | .resize_zero s => s < 2 ^ 64
  | .substr pos n => pos < 2 ^ 64 ∧ n < 2 ^ 64
  | .remove idx cnt => idx < 2 ^ 64 ∧ cnt < 2 ^ 64
  | .insert_char idx _ => idx < 2 ^ 64
  | .insert idx str => idx < 2 ^ 64 ∧ str.length < 2 ^ 64
  | .append str => str.length < 2 ^ 64
  | .fill pos _ len => pos < 2 ^ 64 ∧ len < 2 ^ 64
  | .fill_all _ len => len < 2 ^ 64
  | .rtrim _ minlen => minlen < 2 ^ 64
  | _ => True

/-- The body that an operation leaves; of `substr` the new string. -/
def run [DecidableEq α] (mem : Nat → α) (body : List α) : Operation α → Option (List α)
  | .resize s c => resize body s c
  | .resize_zero s => resize_zero body s
  | .substr pos n => substr mem body pos n
  | .remove idx cnt => remove mem body idx cnt
  | .insert_char idx c => insert_char mem body idx c
  | .insert idx str => insert mem body idx str
  | .append_char c => append_char mem body c
  | .append str => append mem body str
  | .append_qstring str => append_qstring mem body str.chars
  | .fill pos c len => fill mem body pos c len
  | .fill_all c len => fill_all c len
  | .ltrim blank => ltrim body blank
  | .rtrim blank minlen => rtrim body blank minlen
  | .rtrim_space qisspace => rtrim_space body qisspace
  | .trim2 blank => trim2 body blank

/-- What an operation does to the characters; positions behind the end are taken as the end. -/
def meaning [DecidableEq α] (chars : List α) : Operation α → List α
  | .resize s c => chars.take s ++ List.replicate (s - chars.length) c
  | .resize_zero s => chars.take s ++ List.replicate (s - chars.length) 0
  | .substr pos n => (chars.take n).drop pos
  | .remove idx cnt => chars.take idx ++ chars.drop (idx + cnt)
  | .insert_char idx c => chars.take idx ++ c :: chars.drop idx
  | .insert idx str => chars.take idx ++ (str ++ chars.drop idx)
  | .append_char c => chars ++ [c]
  | .append str => chars ++ str
  | .append_qstring str => chars ++ str.chars
  | .fill pos c len => chars.take pos ++ (List.replicate len c ++ chars.drop (pos + len))
  | .fill_all c len => List.replicate len c
  | .ltrim blank => chars.dropWhile (· = blank)
  | .rtrim blank minlen => chars.take minlen ++ (chars.drop minlen).rdropWhile (· = blank)
  | .rtrim_space qisspace => chars.rdropWhile qisspace
  | .trim2 blank => (chars.rdropWhile (· = blank)).dropWhile (· = blank)

end IdaSdk.Qstring
