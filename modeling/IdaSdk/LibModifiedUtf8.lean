import Mathlib.Tactic.Common
import Mathlib.Data.UInt
import Mathlib.Tactic.SplitIfs

/-!
Modified UTF-8: a code unit of UTF-16 is one to three bytes, as few as possible, except that zero is two bytes.
-/

namespace IdaSdk.ModifiedUtf8

/-- A byte behind the first one of a code unit. -/
def IsTail (b : UInt8) : Prop := 0x80 ≤ b.toNat ∧ b.toNat < 0xC0

/-- The bytes of one code unit. None of them is zero, or `F0` and above. -/
inductive Symbol : List UInt8 → UInt16 → Prop
  | one {a u} : 0 < a.toNat → a.toNat < 0x80 → u.toNat = a.toNat → Symbol [a] u
  | two {a b u} : 0xC0 ≤ a.toNat → a.toNat < 0xE0 → IsTail b → u.toNat = 0 ∨ 0x80 ≤ u.toNat →
      u.toNat = (a.toNat - 0xC0) * 0x40 + (b.toNat - 0x80) → Symbol [a, b] u
  | three {a b c u} : 0xE0 ≤ a.toNat → a.toNat < 0xF0 → IsTail b → IsTail c → 0x800 ≤ u.toNat →
      u.toNat = (a.toNat - 0xE0) * 0x1000 + (b.toNat - 0x80) * 0x40 + (c.toNat - 0x80) → Symbol [a, b, c] u

/-- Well-formed bytes, with the code units that they denote. -/
inductive Denotes : List UInt8 → List UInt16 → Prop
  | nil : Denotes [] []
  | cons {symbol bytes u units} : Symbol symbol u → Denotes bytes units → Denotes (symbol ++ bytes) (u :: units)

theorem Symbol.length_pos {symbol : List UInt8} {u : UInt16} (h : Symbol symbol u) : 0 < symbol.length := by
  cases h with
  | one => exact Nat.one_pos
  | two => exact Nat.two_pos
  | three => exact Nat.succ_pos 2

theorem Denotes.length_le {bytes : List UInt8} {units : List UInt16} (h : Denotes bytes units) :
    units.length ≤ bytes.length := by
  induction h with
  | nil => exact le_rfl
  | cons hsymbol _ ih =>
      have hpos := hsymbol.length_pos
      rw [List.length_cons, List.length_append]
      omega

def tailByte (n : Nat) : UInt8 := UInt8.ofNat (0x80 + n % 0x40)

/-- The bytes of a code unit, as few as possible, and two for zero. -/
def encode (u : UInt16) : List UInt8 :=
  if u.toNat = 0 ∨ 0x80 ≤ u.toNat ∧ u.toNat < 0x800 then [UInt8.ofNat (0xC0 + u.toNat / 0x40), tailByte u.toNat]
  else if u.toNat < 0x80 then [UInt8.ofNat u.toNat]
  else [UInt8.ofNat (0xE0 + u.toNat / 0x1000), tailByte (u.toNat / 0x40), tailByte u.toNat]

theorem toNat_ofNat {n : Nat} (h : n < 256) : (UInt8.ofNat n).toNat = n := by
  rw [UInt8.toNat_ofNat', Nat.mod_eq_of_lt h]

theorem toNat_tailByte (n : Nat) : (tailByte n).toNat = 0x80 + n % 0x40 := toNat_ofNat (by omega)

theorem isTail_tailByte (n : Nat) : IsTail (tailByte n) := by
  rw [IsTail, toNat_tailByte]
  omega

theorem eq_ofNat {b : UInt8} {n : Nat} (h : b.toNat = n) : b = UInt8.ofNat n := by
  rw [← h, UInt8.ofNat_toNat]

/-- There is one way to write a code unit. -/
theorem symbol_iff {symbol : List UInt8} {u : UInt16} : Symbol symbol u ↔ symbol = encode u := by
  have hu : u.toNat < 65536 := u.toNat_lt
  unfold encode
  constructor
  · intro h
    cases h with
    | one hpos hlt heq =>
        rw [if_neg (by omega), if_pos (by omega), ← eq_ofNat heq.symm]
    | @two a b _ hlow hhigh hb hu heq =>
        unfold IsTail at hb
        have htail : b = tailByte u.toNat := eq_ofNat (by omega)
        have hlead : a = UInt8.ofNat (0xC0 + u.toNat / 0x40) := eq_ofNat (by omega)
        rw [if_pos (by omega), ← htail, ← hlead]
    | @three a b c _ hlow hhigh hb hc hu heq =>
        unfold IsTail at hb hc
        have hlast : c = tailByte u.toNat := eq_ofNat (by omega)
        have htail : b = tailByte (u.toNat / 0x40) := eq_ofNat (by omega)
        have hlead : a = UInt8.ofNat (0xE0 + u.toNat / 0x1000) := eq_ofNat (by omega)
        rw [if_neg (by omega), if_neg (by omega), ← hlast, ← htail, ← hlead]
  · rintro rfl
    split_ifs with htwo hone
    · have hlead := toNat_ofNat (show 0xC0 + u.toNat / 0x40 < 256 by omega)
      exact .two (by omega) (by omega) (isTail_tailByte _) (by omega) (by rw [hlead, toNat_tailByte]; omega)
    · have hlead := toNat_ofNat (show u.toNat < 256 by omega)
      exact .one (by omega) (by omega) hlead.symm
    · have hlead := toNat_ofNat (show 0xE0 + u.toNat / 0x1000 < 256 by omega)
      exact .three (by omega) (by omega) (isTail_tailByte _) (isTail_tailByte _) (by omega)
        (by rw [hlead, toNat_tailByte, toNat_tailByte]; omega)

theorem denotes_iff {bytes : List UInt8} {units : List UInt16} : Denotes bytes units ↔ bytes = units.flatMap encode := by
  constructor
  · intro h
    induction h with
    | nil => rfl
    | cons hsymbol _ ih => rw [List.flatMap_cons, ← symbol_iff.1 hsymbol, ← ih]
  · rintro rfl
    induction units with
    | nil => exact .nil
    | cons u units ih => exact .cons (symbol_iff.2 rfl) ih

end IdaSdk.ModifiedUtf8
