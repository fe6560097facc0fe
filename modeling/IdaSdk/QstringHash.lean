import Mathlib.Data.BitVec
import IdaSdk.QstringModel

/-!
Equality and the hash of strings. The comparison stops at the first NUL; the hash goes over the whole body, which
holds the terminator if there is one.
-/

namespace IdaSdk.Qstring

/-- The two widths of `size_t`. -/
inductive Build
  | x86
  | x64
  deriving DecidableEq

def Build.bits : Build → Nat
  | .x86 => 32
  | .x64 => 64

def FNV_BASIS : (build : Build) → BitVec build.bits
  | .x86 => 0x811c9dc5#32
  | .x64 => 0xcbf29ce484222325#64

def FNV_PRIME : (build : Build) → BitVec build.bits
  | .x86 => 0x01000193#32
  | .x64 => 0x100000001b3#64

variable {w : Nat}

variable (signed : Bool)

def sizeOfChar (build : Build) (c : BitVec w) : BitVec build.bits :=
  if signed then c.signExtend build.bits else c.setWidth build.bits

def hashStep (build : Build) (sum : BitVec build.bits) (c : BitVec w) : BitVec build.bits :=
  (sum ^^^ sizeOfChar signed build c) * FNV_PRIME build

/-- `std::hash`. The loop runs from `begin()` to `end()`, and these are those of the body. -/
def hash (build : Build) (s : _qstring (BitVec w)) : BitVec build.bits :=
  s.body.foldl (hashStep signed build) (FNV_BASIS build)

def c_str (s : _qstring (BitVec w)) : List (BitVec w) := if s.body = [] then [0] else s.body

/-- Nothing when the comparison runs out of a buffer. -/
def qstrcmp : List (BitVec w) → List (BitVec w) → Option Int
  | c :: s1, d :: s2 =>
    if c = d then if c = 0 then some 0 else qstrcmp s1 s2
    else some ((c.toNat : Int) - d.toNat)
  | _, _ => none

def eq (a b : _qstring (BitVec w)) : Prop := qstrcmp (c_str a) (c_str b) = some 0

instance (a b : _qstring (BitVec w)) : Decidable (eq a b) := inferInstanceAs (Decidable (_ = _))

def HashAgrees (build : Build) (a b : _qstring (BitVec w)) : Prop :=
  eq a b → hash signed build a = hash signed build b

theorem qstrcmp_of_ne {c d : BitVec w} (h : c ≠ d) (s t : List (BitVec w)) : qstrcmp (c :: s) (d :: t) ≠ some 0 := by
  have hne : c.toNat ≠ d.toNat := mt BitVec.eq_of_toNat_eq h
  rw [qstrcmp, if_neg h]
  intro h0
  have hsub := Option.some.inj h0
  omega

theorem qstrcmp_terminated {p q s t : List (BitVec w)} (hp : 0 ∉ p) (hq : 0 ∉ q) :
    qstrcmp (p ++ 0 :: s) (q ++ 0 :: t) = some 0 ↔ p = q := by
  induction p generalizing q with
  | nil =>
      cases q with
      | nil => simp [qstrcmp]
      | cons d q =>
          have hd : (0 : BitVec w) ≠ d := fun h => hq (h ▸ List.mem_cons_self)
          exact iff_of_false (qstrcmp_of_ne hd _ _) (List.cons_ne_nil d q).symm
  | cons c p ih =>
      have hc : c ≠ 0 := fun h => hp (h ▸ List.mem_cons_self)
      cases q with
      | nil => exact iff_of_false (qstrcmp_of_ne hc _ _) (List.cons_ne_nil c p)
      | cons d q =>
          by_cases hcd : c = d
          · subst hcd
            rw [List.cons_append, List.cons_append, qstrcmp, if_pos rfl, if_neg hc,
              ih (List.not_mem_of_not_mem_cons hp) (List.not_mem_of_not_mem_cons hq)]
            simp
          · exact iff_of_false (qstrcmp_of_ne hcd _ _) fun h => hcd (List.cons.inj h).1

theorem c_str_eq (s : _qstring (BitVec w)) : c_str s = s.chars ++ [0] := by
  unfold c_str _qstring.chars
  rcases s.terminated with h | ⟨chars, h⟩
  · rw [h]
    rfl
  · rw [h, if_neg (by simp), List.dropLast_concat]

theorem eq_iff_chars {a b : _qstring (BitVec w)} (ha : 0 ∉ a.chars) (hb : 0 ∉ b.chars) :
    eq a b ↔ a.chars = b.chars := by
  rw [eq, c_str_eq, c_str_eq]
  exact qstrcmp_terminated ha hb

theorem sizeOfChar_zero (build : Build) : sizeOfChar signed build (0 : BitVec w) = 0 := by
  unfold sizeOfChar
  split
  · rw [BitVec.signExtend_eq_setWidth_of_msb_false (by simp)]
    exact BitVec.setWidth_zero ..
  · exact BitVec.setWidth_zero ..

theorem hashStep_basis (build : Build) :
    hashStep signed build (FNV_BASIS build) (0 : BitVec w) ≠ FNV_BASIS build := by
  rw [hashStep, sizeOfChar_zero]
  cases build <;> decide

/-- Strings whose bodies are equal when they compare equal have equal hashes then; without NULs among the characters
no others do, so an empty string with a buffer and one without hash differently. -/
theorem hash_agrees_iff (signed : Bool) (build : Build) (a b : _qstring (BitVec w)) :
    ((eq a b → a.body = b.body) → HashAgrees signed build a b) ∧
      (0 ∉ a.chars → 0 ∉ b.chars → (HashAgrees signed build a b ↔ (eq a b → a.body = b.body))) := by
  have hagrees : (eq a b → a.body = b.body) → HashAgrees signed build a b := by
    intro h heq
    rw [hash, hash, h heq]
  refine ⟨hagrees, fun ha hb => ⟨fun h heq => ?_, hagrees⟩⟩
  have hhash := h heq
  have hchars := (eq_iff_chars ha hb).mp heq
  unfold hash at hhash
  unfold _qstring.chars at hchars
  rcases a.terminated with ha | ⟨p, ha⟩ <;> rcases b.terminated with hb | ⟨q, hb⟩
  · rw [ha, hb]
  · rw [ha, hb, List.dropLast_concat] at hchars
    rw [ha, hb, ← hchars] at hhash
    exact absurd hhash.symm (hashStep_basis signed build)
  · rw [ha, hb, List.dropLast_concat] at hchars
    rw [ha, hb, hchars] at hhash
    exact absurd hhash (hashStep_basis signed build)
  · rw [ha, hb, List.dropLast_concat, List.dropLast_concat] at hchars
    rw [ha, hb, hchars]

/-- Behind an embedded NUL the hashes may still collide: this prefix has the hash 0. -/
example : ["!0IC=VloaY", "!0IC=VloaY\x00"].map (fun s =>
    ((s.toList.map fun c => BitVec.ofNat 8 c.toNat) ++ [0]).foldl (hashStep true .x64) (FNV_BASIS .x64)) = [0, 0] := by
  decide

/-- A string that was never filled, and one from which everything was removed. -/
def unallocated : _qstring (BitVec 8) := ⟨[], by decide, .inl rfl⟩

def emptied : _qstring (BitVec 8) := ⟨[0], by decide, .inr ⟨[], rfl⟩⟩

example : (run (fun _ => 0) [] (.append [0x78#8])).bind (fun body => run (fun _ => 0) body (.remove 0 1)) =
    some emptied.body := by decide

theorem empty_strings_hash_differently :
    eq unallocated emptied ∧ hash true .x64 unallocated ≠ hash true .x64 emptied := by
  decide

end IdaSdk.Qstring
