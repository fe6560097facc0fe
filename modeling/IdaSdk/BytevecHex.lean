import Mathlib.Data.UInt
import IdaSdk.LibHexScan
import IdaSdk.QstringEdits

/-!
Byte vectors as hexadecimal text. The text is printed into the buffer of a string, two digits and a NUL at a time; it
is read back with a scanner that begins at every second character and may look behind the next one.
-/

namespace IdaSdk.Bytevec
open LibBuffer HexScan

/-- `resize` of a string, of a size that does not wrap around. -/
def resizeString (body : List UInt8) (s : Nat) : List UInt8 :=
  if s = 0 then [] else (Qstring.qvector_resize body (s + 1) 0).set s 0

def printed (n : Nat) (text : List UInt8) : List UInt8 := if n = 0 then [] else text.take (n - 1) ++ [0]

def hexPair (upper : Bool) (c : UInt8) : List UInt8 := [digit upper (c.toNat / 16), digit upper (c.toNat % 16)]

/-- The loop of `tohex` from position `p`. -/
def tohexLoop (upper : Bool) (body : List UInt8) (p : Nat) : List UInt8 → Option (List UInt8)
  | [] => some body
  | c :: bytes => do
    let body ← store body p (printed (body.length - p) (hexPair upper c))
    tohexLoop upper body (p + 2) bytes

def tohex (out bytes : List UInt8) (upper : Bool) : Option (List UInt8) :=
  let len := Qstring.length out
  tohexLoop upper (resizeString out (len + bytes.length * 2)) len bytes

/-- The loop of `fromhex` over the elements, with the string from the position on. -/
def fromhexLoop : (str vec : List UInt8) → Nat × List UInt8
  | _, [] => (0, [])
  | str, c :: vec =>
    match scanByte str with
    | none => (0, c :: vec)
    | some b =>
      if 0xFF < b then (0, c :: vec)
      else
        let (p, vec) := fromhexLoop (str.drop 2) vec
        (p + 2, UInt8.ofNat b :: vec)

def fromhex (vec str : List UInt8) : Bool × List UInt8 :=
  let (p, vec) := fromhexLoop str (Qstring.qvector_resize vec (Qstring.length str / 2) 0)
  (p = Qstring.length str, vec)

def hexText (upper : Bool) (bytes : List UInt8) : List UInt8 := bytes.flatMap (hexPair upper)

def denoted : List UInt8 → List UInt8
  | c :: d :: chars => UInt8.ofNat (16 * (value c).getD 0 + (value d).getD 0) :: denoted chars
  | _ => []

def Begins (c : UInt8) : Prop := isDigit c = true ∨ isSpace c = true ∨ isSign c = true

variable (upper : Bool)

theorem tohexLoop_eq {bytes junk : List UInt8} (pre : List UInt8)
    (hlength : junk.length = 2 * bytes.length + 1)
    (hlast : junk.getLast? = some 0) :
    tohexLoop upper (pre ++ junk) pre.length bytes = some (pre ++ (hexText upper bytes ++ [0])) := by
  induction bytes generalizing pre junk with
  | nil =>
      obtain ⟨x, rfl⟩ := List.length_eq_one_iff.mp hlength
      rw [List.getLast?_singleton] at hlast
      rw [tohexLoop, Option.some.inj hlast]
      rfl
  | cons c bytes ih =>
      obtain ⟨x, y, z, junk, rfl⟩ : ∃ x y z j, junk = x :: y :: z :: j := by
        match junk, hlength with
        | x :: y :: z :: j, _ => exact ⟨x, y, z, j, rfl⟩
      have hroom : (pre ++ x :: y :: z :: junk).length - pre.length = 2 * bytes.length + 3 := by
        rw [List.length_append, hlength, List.length_cons]
        omega
      have hstore : store (pre ++ x :: y :: z :: junk) pre.length (printed (2 * bytes.length + 3) (hexPair upper c)) =
          some (pre ++ (hexPair upper c ++ 0 :: junk)) := by
        have hmid := store_mid (x := pre) (y := [x, y, z]) (z := junk) (w := hexPair upper c ++ [0]) rfl rfl
        simpa [printed, hexPair] using hmid
      rw [tohexLoop, hroom, hstore]
      have hlength' : (0 :: junk).length = 2 * bytes.length + 1 := by
        simp at hlength ⊢
        omega
      have hnext := ih (pre ++ hexPair upper c) hlength' ?_
      · rw [List.append_assoc, List.length_append] at hnext
        exact hnext.trans (by simp [hexText])
      · cases junk with
        | nil => rfl
        | cons w junk => simpa using hlast

theorem resizeString_eq (s : Qstring._qstring UInt8) (n : Nat) : resizeString s.body (s.chars.length + n) =
    if s.chars.length + n = 0 then [] else s.chars ++ (List.replicate n 0 ++ [0]) := by
  rw [resizeString]
  split
  · rfl
  have hresize : Qstring.qvector_resize s.body (s.chars.length + n + 1) 0 = s.chars ++ List.replicate (n + 1) 0 := by
    unfold Qstring._qstring.chars Qstring.qvector_resize
    rcases s.terminated with h | ⟨chars, h⟩
    · simp [h]
    · have hlength : chars.length + n + 1 - (chars.length + 1) = n := by omega
      rw [h, List.dropLast_concat, List.take_of_length_le (by simp), List.length_append, List.length_singleton,
        hlength, List.append_assoc]
      rfl
  rw [hresize, List.replicate_succ', ← List.append_assoc]
  have hplace : s.chars.length + n = (s.chars ++ List.replicate n 0).length := by simp
  rw [hplace, List.set_append_right _ _ (Nat.le_refl _), Nat.sub_self]
  rfl

variable (bytes : List UInt8)

theorem tohex_eq (s : Qstring._qstring UInt8) :
    tohex s.body bytes upper =
      some (if s.chars.length + bytes.length * 2 = 0 then [] else s.chars ++ (hexText upper bytes ++ [0])) := by
  rw [tohex, Qstring.length_body, resizeString_eq]
  split
  · next hnil =>
      have hchars : s.chars = [] := List.length_eq_zero_iff.mp (by omega)
      have hbytes : bytes = [] := List.length_eq_zero_iff.mp (by omega)
      rw [hbytes]
      rfl
  · exact tohexLoop_eq upper _ (by simp; omega) (by simp)

theorem fromhexLoop_le (str vec : List UInt8) : (fromhexLoop str vec).1 ≤ 2 * vec.length ∧
    (fromhexLoop str vec).2.length = vec.length := by
  induction vec generalizing str with
  | nil => exact ⟨Nat.le_refl 0, rfl⟩
  | cons c vec ih =>
      unfold fromhexLoop
      cases scanByte str with
      | none => exact ⟨Nat.zero_le _, rfl⟩
      | some b =>
          dsimp only
          split
          · exact ⟨Nat.zero_le _, rfl⟩
          · have h := ih (str.drop 2)
            simp only [List.length_cons]
            omega

theorem fromhexLoop_keeps (str vec : List UInt8) :
    ∃ read, (fromhexLoop str vec).2 = read ++ vec.drop read.length ∧ 2 * read.length = (fromhexLoop str vec).1 := by
  induction vec generalizing str with
  | nil => exact ⟨[], rfl, rfl⟩
  | cons c vec ih =>
      unfold fromhexLoop
      cases scanByte str with
      | none => exact ⟨[], rfl, rfl⟩
      | some b =>
          dsimp only
          split
          · exact ⟨[], rfl, rfl⟩
          obtain ⟨read, hvec, hp⟩ := ih (str.drop 2)
          refine ⟨UInt8.ofNat b :: read, ?_, ?_⟩
          · rw [hvec]
            rfl
          · rw [List.length_cons, ← hp]
            omega

theorem fromhexLoop_digits {chars vec rest : List UInt8} (hdigits : ∀ c ∈ chars, isDigit c = true)
    (hlength : chars.length = 2 * vec.length) :
    fromhexLoop (chars ++ rest) vec = (chars.length, denoted chars) := by
  induction vec generalizing chars with
  | nil =>
      obtain rfl := List.length_eq_zero_iff.mp hlength
      rfl
  | cons e vec ih =>
      match chars, hlength with
      | c :: d :: chars, hlength =>
          obtain ⟨m, hm⟩ := Option.isSome_iff_exists.mp (hdigits c (by simp))
          obtain ⟨n, hn⟩ := Option.isSome_iff_exists.mp (hdigits d (by simp))
          have hm16 := value_lt hm
          have hn16 := value_lt hn
          have hrest : fromhexLoop (chars ++ rest) vec = (chars.length, denoted chars) :=
            ih (fun c hc => hdigits c (by simp [hc])) (by simp at hlength; omega)
          rw [List.cons_append, List.cons_append, fromhexLoop, scanByte_digits hm hn, denoted, hm, hn]
          dsimp only
          rw [if_neg (by omega), List.drop_succ_cons, List.drop_succ_cons, List.drop_zero, hrest]
          rfl

theorem fromhexLoop_begins {str vec : List UInt8} (hlength : 2 * vec.length ≤ str.length)
    (hread : (fromhexLoop str vec).1 = 2 * vec.length) {i : Nat} (hi : i < vec.length) :
    ∃ c, str[2 * i]? = some c ∧ Begins c := by
  induction vec generalizing str i with
  | nil => cases hi
  | cons e vec ih =>
      match str, hlength with
      | c :: d :: str, hlength =>
          unfold fromhexLoop at hread
          cases hscan : scanByte (c :: d :: str) with
          | none =>
              rw [hscan] at hread
              simp at hread
          | some b =>
              rw [hscan] at hread
              dsimp only at hread
              split at hread
              · simp at hread
              cases i with
              | zero => exact ⟨c, rfl, scanByte_head hscan⟩
              | succ i =>
                  have hread : (fromhexLoop str vec).1 = 2 * vec.length := by simpa [Nat.mul_add] using hread
                  exact ih (by simp at hlength; omega) hread (by simpa using hi)

theorem hexText_length : (hexText upper bytes).length = 2 * bytes.length := by
  induction bytes with
  | nil => rfl
  | cons c bytes ih =>
      rw [hexText, List.flatMap_cons, List.length_append, ← hexText, ih, List.length_cons]
      exact Nat.add_comm ..

theorem hexText_digits : ∀ c ∈ hexText upper bytes, isDigit c = true := by
  intro c hc
  obtain ⟨b, -, hc⟩ := List.mem_flatMap.mp hc
  have hb := b.toNat_lt
  simp only [hexPair, List.mem_cons, List.not_mem_nil, or_false] at hc
  rcases hc with rfl | rfl
  · exact isDigit_digit upper (by omega)
  · exact isDigit_digit upper (by omega)

theorem denoted_hexText : denoted (hexText upper bytes) = bytes := by
  induction bytes with
  | nil => rfl
  | cons c bytes ih =>
      have hc := c.toNat_lt
      have hjoin : 16 * (c.toNat / 16) + c.toNat % 16 = c.toNat := Nat.div_add_mod ..
      rw [hexText, List.flatMap_cons, ← hexText, hexPair, List.cons_append, List.cons_append, List.nil_append, denoted,
        value_digit upper (by omega), value_digit upper (by omega), ih, Option.getD_some, Option.getD_some, hjoin,
        UInt8.ofNat_toNat]

theorem fromhex_nil (vec : List UInt8) : fromhex vec [] = (true, []) := by
  simp [fromhex, Qstring.length, Qstring.qvector_resize, fromhexLoop]

theorem fromhex_digits (vec : List UInt8) {chars rest : List UInt8} (hdigits : ∀ c ∈ chars, isDigit c = true)
    (heven : chars.length % 2 = 0) (hlength : Qstring.length (chars ++ rest) = chars.length) :
    fromhex vec (chars ++ rest) = (true, denoted chars) := by
  have hvec : (Qstring.qvector_resize vec (chars.length / 2) 0).length = chars.length / 2 := by
    rw [Qstring.qvector_resize, List.length_append, List.length_take, List.length_replicate]
    omega
  rw [fromhex, hlength, fromhexLoop_digits hdigits (by omega)]
  simp

/-- What is printed is read back. A text of pairs of digits is accepted and read as what it denotes; an accepted text
has pairs of characters, each of which begins as a number may. The vector always becomes half as long as the text, and
what was not read stays as the resizing left it. -/
theorem hex_conversions (upper : Bool) (bytes vec : List UInt8) (s : Qstring._qstring UInt8) :
    (tohex [] bytes upper).map (fromhex vec) = some (true, bytes) ∧
      (s.chars.length % 2 = 0 → (∀ c ∈ s.chars, isDigit c = true) → fromhex vec s.body = (true, denoted s.chars)) ∧
      ((fromhex vec s.body).1 = true →
        s.chars.length % 2 = 0 ∧ ∀ i < s.chars.length / 2, ∃ c, s.chars[2 * i]? = some c ∧ Begins c) ∧
      ∃ read, read.length ≤ s.chars.length / 2 ∧
        (fromhex vec s.body).2 = read ++ (Qstring.qvector_resize vec (s.chars.length / 2) 0).drop read.length := by
  have hvec : (Qstring.qvector_resize vec (s.chars.length / 2) 0).length = s.chars.length / 2 := by
    rw [Qstring.qvector_resize, List.length_append, List.length_take, List.length_replicate]
    omega
  refine ⟨?_, ?_, ?_, ?_⟩
  · have hempty : tohex [] bytes upper = some (if 0 + bytes.length * 2 = 0 then [] else hexText upper bytes ++ [0]) :=
      tohex_eq upper bytes ⟨[], by decide, .inl rfl⟩
    rw [hempty, Option.map_some]
    congr 1
    split
    · next h =>
        rw [List.length_eq_zero_iff.mp (show bytes.length = 0 by omega)]
        exact fromhex_nil vec
    · have hread : fromhex vec (hexText upper bytes ++ [0]) = (true, denoted (hexText upper bytes)) :=
        fromhex_digits vec (hexText_digits upper bytes) (by rw [hexText_length]; omega) (by simp [Qstring.length])
      rw [hread, denoted_hexText]
  · intro heven hdigits
    rcases s.terminated with h | ⟨chars, h⟩
    · rw [Qstring._qstring.chars, h]
      exact fromhex_nil vec
    · have hchars : s.chars = chars := by rw [Qstring._qstring.chars, h, List.dropLast_concat]
      rw [hchars] at heven hdigits ⊢
      rw [h]
      exact fromhex_digits vec hdigits heven (by simp [Qstring.length])
  · intro hread
    have hle := (fromhexLoop_le s.body (Qstring.qvector_resize vec (s.chars.length / 2) 0)).1
    rw [fromhex, Qstring.length_body] at hread
    have hread' := of_decide_eq_true hread
    have hbody : s.chars.length ≤ s.body.length := by
      rw [Qstring._qstring.chars, List.length_dropLast]
      omega
    refine ⟨by omega, fun i hi => ?_⟩
    obtain ⟨c, hc, hbegins⟩ := fromhexLoop_begins (by omega) (hread'.trans (by omega)) (i := i) (by omega)
    refine ⟨c, ?_, hbegins⟩
    rwa [Qstring._qstring.chars, List.getElem?_dropLast, if_pos (by rw [← List.length_dropLast]; exact
      (show 2 * i < s.chars.length by omega))]
  · obtain ⟨read, hread, hp⟩ := fromhexLoop_keeps s.body (Qstring.qvector_resize vec (s.chars.length / 2) 0)
    have hle := (fromhexLoop_le s.body (Qstring.qvector_resize vec (s.chars.length / 2) 0)).1
    refine ⟨read, by omega, ?_⟩
    rw [fromhex, Qstring.length_body]
    exact hread

/-- A blank and one digit are accepted; a rejected text of two letters leaves one element of two. -/
theorem fromhex_lenient : (fromhex [] [0x20, 0x31, 0]).1 = true ∧ fromhex [1, 2] [0x7A, 0x7A, 0] = (false, [1]) := by
  decide

end IdaSdk.Bytevec
