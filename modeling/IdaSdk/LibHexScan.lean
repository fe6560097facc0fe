import Mathlib.Data.UInt
import Mathlib.Algebra.Group.Nat.Defs
import Mathlib.Algebra.BigOperators.Group.List.Basic
import Mathlib.Data.List.TakeWhile
import Mathlib.Tactic.Linarith
import Mathlib.Tactic.Ring

/-!
Hexadecimal numbers in text, as C library functions print and scan them. The scanners skip blanks, and take a sign and
a prefix; a text of digits is scanned as the number that its digits denote.
-/

namespace IdaSdk.HexScan

/-- `isspace` in the C locale. -/
def isSpace (c : UInt8) : Bool := c = 0x20 || (0x09 ≤ c && c ≤ 0x0D)

def isSign (c : UInt8) : Bool := c = 0x2B || c = 0x2D

/-- The value of a hexadecimal digit. -/
def value (c : UInt8) : Option Nat :=
  if 0x30 ≤ c && c ≤ 0x39 then some (c.toNat - 0x30)
  else if 0x41 ≤ c && c ≤ 0x46 then some (c.toNat - 0x37)
  else if 0x61 ≤ c && c ≤ 0x66 then some (c.toNat - 0x57)
  else none

def isDigit (c : UInt8) : Bool := (value c).isSome

def digit (upper : Bool) (n : Nat) : UInt8 :=
  UInt8.ofNat (if n < 10 then 0x30 + n else if upper then 0x37 + n else 0x57 + n)

/-- The number that digits denote. -/
def number (ds : List UInt8) : Nat := ds.foldl (fun n c => 16 * n + (value c).getD 0) 0

/-- The conversion to `uint32`, after the change of sign. -/
def unsigned (negative : Bool) (n : Nat) : Nat := (if negative then 2 ^ 32 - n % 2 ^ 32 else n) % 2 ^ 32

def isPrefix (s : List UInt8) : Bool := s.head? = some 0x30 && (s.tail.head? = some 0x58 || s.tail.head? = some 0x78)

/-- `sscanf` with `%02X`: a field of at most two characters behind the blanks. A prefix without digits is no number. -/
def scanByte (s : List UInt8) : Option Nat :=
  match s.dropWhile isSpace with
  | [] => none
  | c :: s =>
    if isSign c then
      match s with
      | [] => none
      | d :: _ => (value d).map (unsigned (c = 0x2D))
    else if isPrefix (c :: s) then none
    else
      match value c with
      | none => none
      | some n =>
        match s with
        | [] => some n
        | d :: _ => some (((value d).map (16 * n + ·)).getD n)

/-- `strtoul` in base 16: the number, and the text behind it; the whole text if there is no number. -/
def strtoul (s : List UInt8) : Nat × List UInt8 :=
  let t := s.dropWhile isSpace
  let negative : Bool := t.head? = some 0x2D
  let t := if t.head?.any isSign then t.tail else t
  let t := if isPrefix t && (t.drop 2).head?.any isDigit then t.drop 2 else t
  if t.head?.any isDigit then (unsigned negative (number (t.takeWhile isDigit)), t.dropWhile isDigit) else (0, s)

variable {c : UInt8}

theorem isSpace_of_isDigit (h : isDigit c = true) : isSpace c = false := by
  by_contra hspace
  simp only [Bool.not_eq_false, isSpace, Bool.or_eq_true, Bool.and_eq_true, decide_eq_true_eq] at hspace
  simp only [isDigit, value, Bool.and_eq_true, decide_eq_true_eq, UInt8.le_iff_toNat_le] at h
  rcases hspace with rfl | ⟨h9, hd⟩
  · simp at h
  rw [UInt8.le_iff_toNat_le] at h9 hd
  have hlo : (0x09 : UInt8).toNat = 9 := rfl
  have hhi : (0x0D : UInt8).toNat = 13 := rfl
  have h30 : (0x30 : UInt8).toNat = 48 := rfl
  have h41 : (0x41 : UInt8).toNat = 65 := rfl
  have h61 : (0x61 : UInt8).toNat = 97 := rfl
  rw [if_neg (by omega), if_neg (by omega), if_neg (by omega)] at h
  cases h

theorem isSign_of_isDigit (h : isDigit c = true) : isSign c = false := by
  by_contra hsign
  simp only [Bool.not_eq_false, isSign, Bool.or_eq_true, decide_eq_true_eq] at hsign
  rcases hsign with rfl | rfl <;> exact absurd h (by decide)

variable {n : Nat}

theorem value_lt (h : value c = some n) : n < 16 := by
  unfold value at h
  simp only [Bool.and_eq_true, decide_eq_true_eq, UInt8.le_iff_toNat_le] at h
  have h30 : (0x30 : UInt8).toNat = 48 := rfl
  have h39 : (0x39 : UInt8).toNat = 57 := rfl
  have h41 : (0x41 : UInt8).toNat = 65 := rfl
  have h46 : (0x46 : UInt8).toNat = 70 := rfl
  have h61 : (0x61 : UInt8).toNat = 97 := rfl
  have h66 : (0x66 : UInt8).toNat = 102 := rfl
  split_ifs at h <;> simp only [Option.some.injEq] at h <;> omega

theorem value_digit (upper : Bool) (h : n < 16) : value (digit upper n) = some n := by
  have hall : ∀ upper, (List.range 16).all (fun n => value (digit upper n) = some n) = true := by decide
  exact of_decide_eq_true (List.all_eq_true.mp (hall upper) n (List.mem_range.mpr h))

theorem isDigit_digit (upper : Bool) (h : n < 16) : isDigit (digit upper n) = true := by
  rw [isDigit, value_digit upper h, Option.isSome_some]

variable {s : List UInt8}

theorem isPrefix_of_isDigit {d : UInt8} (hd : isDigit d = true) :
    isPrefix (c :: d :: s) = false := by
  by_contra h
  simp only [isPrefix, List.head?_cons, List.tail_cons, Bool.not_eq_false, Bool.and_eq_true, Bool.or_eq_true,
    decide_eq_true_eq, Option.some.injEq] at h
  rcases h.2 with rfl | rfl
  · exact absurd hd (by decide)
  · exact absurd hd (by decide)

theorem scanByte_digits {d : UInt8} {m : Nat} (hc : value c = some m) (hd : value d = some n)
    (s : List UInt8) : scanByte (c :: d :: s) = some (16 * m + n) := by
  have hc' : isDigit c = true := by rw [isDigit, hc, Option.isSome_some]
  have hd' : isDigit d = true := by rw [isDigit, hd, Option.isSome_some]
  rw [scanByte, List.dropWhile_cons_of_neg (by rw [isSpace_of_isDigit hc']; exact Bool.false_ne_true)]
  simp only [isSign_of_isDigit hc', isPrefix_of_isDigit hd', hc, hd, Bool.false_eq_true, if_false, Option.map_some,
    Option.getD_some]

/-- A field begins with a digit, a blank or a sign. -/
theorem scanByte_head (h : scanByte (c :: s) = some n) :
    isDigit c = true ∨ isSpace c = true ∨ isSign c = true := by
  by_cases hspace : isSpace c = true
  · exact .inr (.inl hspace)
  by_cases hsign : isSign c = true
  · exact .inr (.inr hsign)
  left
  rw [scanByte, List.dropWhile_cons_of_neg hspace] at h
  simp only [hsign, Bool.false_eq_true, if_false] at h
  split at h
  · cases h
  cases hc : value c with
  | none =>
      rw [hc] at h
      cases h
  | some m => rw [isDigit, hc, Option.isSome_some]

theorem number_foldl (s : List UInt8) (n : Nat) :
    s.foldl (fun n c => 16 * n + (value c).getD 0) n = n * 16 ^ s.length + number s := by
  induction s generalizing n with
  | nil => simp [number]
  | cons c s ih =>
      have hnumber : number (c :: s) = (16 * 0 + (value c).getD 0) * 16 ^ s.length + number s := ih _
      rw [List.foldl_cons, ih, hnumber, List.length_cons, Nat.pow_succ]
      ring

theorem number_cons (c : UInt8) (s : List UInt8) :
    number (c :: s) = (value c).getD 0 * 16 ^ s.length + number s := by
  rw [number, List.foldl_cons, number_foldl, Nat.mul_zero, Nat.zero_add]

theorem number_lt (s : List UInt8) : number s < 16 ^ s.length := by
  induction s with
  | nil => exact Nat.one_pos
  | cons c s ih =>
      have hc : (value c).getD 0 < 16 := by
        cases h : value c with
        | none => exact Nat.succ_pos 15
        | some n => exact value_lt h
      rw [number_cons, List.length_cons, Nat.pow_succ]
      nlinarith

/-- The bytes that pairs of digits denote. -/
def octets : List UInt8 → List Nat
  | c :: d :: s => (16 * (value c).getD 0 + (value d).getD 0) :: octets s
  | _ => []

theorem octets_append {s' : List UInt8} (h : s.length % 2 = 0) : octets (s ++ s') = octets s ++ octets s' := by
  induction s using octets.induct with
  | case1 c d s ih =>
      rw [List.length_cons, List.length_cons] at h
      rw [List.cons_append, List.cons_append, octets, octets, ih (by omega), List.cons_append]
  | case2 s hs =>
      match s, hs, h with
      | [], _, _ => rfl
      | [c], _, h => simp at h
      | c :: d :: s, hs, _ => exact absurd rfl (hs c d s)

/-- The bytes of a number, from the lowest one on, are those of its digits. -/
theorem sum_bytes_number (h : s.length = 2 * n) :
    ((List.range n).map fun k => number s / 256 ^ k % 256).sum = (octets s).sum := by
  induction n generalizing s with
  | zero =>
      obtain rfl := List.length_eq_zero_iff.mp h
      rfl
  | succ n ih =>
      match s, h with
      | c :: d :: s, h =>
          have hlength : s.length = 2 * n := by
            simp only [List.length_cons] at h
            omega
          have hpow : (16 : Nat) ^ s.length = 256 ^ n := by rw [hlength, Nat.pow_mul]
          have hlt : number s < 256 ^ n := hpow ▸ number_lt s
          have hb : 16 * (value c).getD 0 + (value d).getD 0 < 256 := by
            have hdigit : ∀ c : UInt8, (value c).getD 0 < 16 := by
              intro c
              cases h : value c with
              | none => exact Nat.succ_pos 15
              | some n => exact value_lt h
            have hc := hdigit c
            have hd := hdigit d
            omega
          have hnumber : number (c :: d :: s) = number s + 256 ^ n * (16 * (value c).getD 0 + (value d).getD 0) := by
            rw [number_cons, number_cons, List.length_cons, Nat.pow_succ, hpow]
            ring
          have hlow : ∀ k ∈ List.range n, number (c :: d :: s) / 256 ^ k % 256 = number s / 256 ^ k % 256 := by
            intro k hk
            have hk := List.mem_range.mp hk
            have hsplit : 256 ^ n = 256 ^ k * (256 * 256 ^ (n - k - 1)) := by
              rw [← Nat.pow_succ', ← Nat.pow_add]
              congr 1
              omega
            rw [hnumber, hsplit, Nat.mul_assoc, Nat.add_mul_div_left _ _ (Nat.pow_pos (by decide)), Nat.mul_assoc,
              Nat.add_mul_mod_self_left]
          rw [List.range_succ, List.map_append, List.sum_append, List.map_congr_left hlow, ih hlength, List.map_singleton,
            List.sum_singleton, hnumber, Nat.add_mul_div_left _ _ (Nat.pow_pos (by decide)), Nat.div_eq_of_lt hlt,
            Nat.zero_add, Nat.mod_eq_of_lt hb, octets, List.sum_cons, Nat.add_comm]

theorem strtoul_digits (hs : s ≠ []) (h : ∀ c ∈ s, isDigit c = true) (hlength : s.length ≤ 8) :
    strtoul s = (number s, []) := by
  obtain ⟨c, s, rfl⟩ := List.exists_cons_of_ne_nil hs
  have hc := h c List.mem_cons_self
  have hspace : (c :: s).dropWhile isSpace = c :: s :=
    List.dropWhile_cons_of_neg (by rw [isSpace_of_isDigit hc]; exact Bool.false_ne_true)
  have hsign : isSign c = false := isSign_of_isDigit hc
  have hneg : decide (some c = some 0x2D) = false := by
    refine decide_eq_false fun h => ?_
    rw [Option.some.inj h] at hc
    exact absurd hc (by decide)
  have hprefix : isPrefix (c :: s) = false := by
    cases s with
    | nil => simp [isPrefix]
    | cons d s => exact isPrefix_of_isDigit (h d (by simp))
  have htake : (c :: s).takeWhile isDigit = c :: s := List.takeWhile_eq_self_iff.mpr h
  have hdrop : (c :: s).dropWhile isDigit = [] := List.dropWhile_eq_nil_iff.mpr h
  have hnumber : number (c :: s) < 2 ^ 32 := by
    calc number (c :: s) < 16 ^ (c :: s).length := number_lt _
      _ ≤ 16 ^ 8 := Nat.pow_le_pow_right (by decide) hlength
      _ = 2 ^ 32 := by decide
  unfold strtoul
  simp only [hspace, hsign, hprefix, Bool.false_and, Bool.false_eq_true, if_false, List.head?_cons, Option.any_some, hc,
    if_true, htake, hdrop, hneg, unsigned, Nat.mod_eq_of_lt hnumber]

/-- No NUL stands before the digits. -/
def Precedes (s rest : List UInt8) : Prop := ∃ pre, s = pre ++ rest ∧ (0 : UInt8) ∉ pre

theorem Precedes.refl (s : List UInt8) : Precedes s s := ⟨[], rfl, by simp⟩

theorem Precedes.cons {rest : List UInt8} (h : Precedes s rest) (hc : c ≠ 0) : Precedes (c :: s) rest := by
  obtain ⟨pre, rfl, hpre⟩ := h
  exact ⟨c :: pre, rfl, by simp [hc.symm, hpre]⟩

theorem Precedes.trans {t u : List UInt8} (h : Precedes s t) (h' : Precedes t u) : Precedes s u := by
  obtain ⟨pre, rfl, hpre⟩ := h
  obtain ⟨pre', rfl, hpre'⟩ := h'
  exact ⟨pre ++ pre', (List.append_assoc _ _ _).symm, by simp [hpre, hpre']⟩

theorem precedes_dropWhile (s : List UInt8) : Precedes s (s.dropWhile isSpace) := by
  refine ⟨s.takeWhile isSpace, List.takeWhile_append_dropWhile.symm, fun h => ?_⟩
  exact absurd (List.mem_takeWhile_imp h) (by decide)

theorem precedes_sign (t : List UInt8) : Precedes t (if t.head?.any isSign = true then t.tail else t) := by
  split
  · next h =>
      cases t with
      | nil => cases h
      | cons c t =>
          refine (Precedes.refl t).cons ?_
          rintro rfl
          exact absurd (show isSign 0 = true from h) (by decide)
  · exact .refl t

theorem precedes_prefix (u : List UInt8) (b : Bool) :
    Precedes u (if (isPrefix u && b) = true then u.drop 2 else u) := by
  split
  · next h =>
      have h := (Bool.and_eq_true_iff.mp h).1
      match u, h with
      | c :: d :: u, h =>
          simp only [isPrefix, List.head?_cons, List.tail_cons, Option.some.injEq, Bool.and_eq_true, Bool.or_eq_true,
            decide_eq_true_eq] at h
          obtain ⟨rfl, hd⟩ := h
          refine ((Precedes.refl u).cons ?_).cons (by decide)
          obtain rfl | rfl := hd <;> decide
      | [c], h => simp [isPrefix] at h
  · exact .refl u

/-- A text that is taken as a whole has no NUL, and a digit is its last character. -/
theorem strtoul_whole (hs : s ≠ []) (h : (strtoul s).2 = []) :
    (0 : UInt8) ∉ s ∧ ∃ pre d, s = pre ++ [d] ∧ isDigit d = true := by
  unfold strtoul at h
  dsimp only at h
  have hsign := precedes_sign (s.dropWhile isSpace)
  generalize (if (s.dropWhile isSpace).head?.any isSign = true then (s.dropWhile isSpace).tail
    else s.dropWhile isSpace) = u at h hsign
  have hprefix := precedes_prefix u ((u.drop 2).head?.any isDigit)
  generalize (if (isPrefix u && (u.drop 2).head?.any isDigit) = true then u.drop 2 else u) = v at h hprefix
  obtain ⟨pre, rfl, hpre⟩ := ((precedes_dropWhile s).trans hsign).trans hprefix
  split at h
  · next hdigit =>
      have hdigits : ∀ c ∈ v, isDigit c = true := List.dropWhile_eq_nil_iff.mp h
      have hv : v ≠ [] := by
        rintro rfl
        cases hdigit
      refine ⟨?_, pre ++ v.dropLast, v.getLast hv, ?_, hdigits _ (List.getLast_mem hv)⟩
      · rw [List.mem_append, not_or]
        exact ⟨hpre, fun hmem => absurd (hdigits 0 hmem) (by decide)⟩
      · rw [List.append_assoc, List.dropLast_append_getLast]
  · exact absurd h hs

end IdaSdk.HexScan
