import Mathlib.Algebra.GroupWithZero.Nat
import Mathlib.Data.List.TakeWhile
import IdaSdk.LibOccurrences

/-!
The scanning functions of a string: split at a separator, join, replace. The characters of a string may include NUL; a
pattern is a C string and has none, and the C search function reads a string up to its first NUL.
-/

namespace IdaSdk.Qstring
open LibOccurrences

variable {α : Type} [Zero α] [DecidableEq α]

/-- A C string without its terminator. -/
structure CString (α : Type) [Zero α] where
  chars : List α
  no_nul : 0 ∉ chars

def c_chars (s : List α) : List α := s.takeWhile (· ≠ 0)

/-- `qstrstr` at the start of a string whose terminator is behind the last character. -/
def qstrstr : List α → List α → Option Nat
  | [], str => if str = [] then some 0 else none
  | c :: s, str => if str.isPrefixOf (c :: s) then some 0 else if c = 0 then none else (qstrstr s str).map (· + 1)

def strneq : List α → List α → Nat → Bool
  | _, _, 0 => true
  | [], t, _ + 1 => t.headD 0 = 0
  | c :: s, t, n + 1 => c = t.headD 0 && (c = 0 || strneq s t.tail n)

def ends_with (s ptr : List α) : Bool :=
  ptr.length = 0 || (!(s.length < ptr.length) && strneq (s.drop (s.length - ptr.length)) ptr ptr.length)

def push_part (drop_empty : Bool) (part : List α) (out : List (List α)) : List (List α) :=
  if 0 < part.length || !drop_empty then out ++ [part] else out

/-- The loop of `split`; `p` stands for the rest of the string. -/
def split_loop (sep : List α) (drop_empty : Bool) : Nat → List α → List (List α) → Option (List (List α))
  | 0, _, _ => none
  | fuel + 1, p, out =>
    if p = [] then some out
    else
      match qstrstr p sep with
      | some rem =>
        split_loop sep drop_empty fuel (p.drop (rem + sep.length)) (push_part drop_empty (p.take rem) out)
      | none => split_loop sep drop_empty fuel [] (push_part drop_empty p out)

def split (fuel : Nat) (s : List α) (out : List (List α)) (sep : CString α) (drop_empty : Bool) :
    Option (List (List α)) :=
  (split_loop sep.chars drop_empty fuel s out).map fun out =>
    if ends_with s sep.chars && !drop_empty then out ++ [[]] else out

def join_part (sep buf one : List α) : List α := (if buf = [] then buf else buf ++ sep) ++ one

def join (parts : List (List α)) (sep : CString α) : List α := parts.foldl (join_part sep.chars) []

/-- The loop of `replace`; positions count from the start of the string. -/
def replace_loop (s what repl : List α) : Nat → Nat → List α → Option (Nat × List α)
  | 0, _, _ => none
  | fuel + 1, last_pos, result =>
    match qstrstr (s.drop last_pos) what with
    | some n => replace_loop s what repl fuel (last_pos + n + what.length)
        (result ++ (s.drop last_pos).take n ++ repl)
    | none => some (last_pos, result)

def replace (fuel : Nat) (s : List α) (what repl : CString α) : Option (Bool × List α) :=
  (replace_loop s what.chars repl.chars fuel 0 []).map fun (last_pos, result) =>
    if last_pos = 0 then (false, s) else (true, result ++ c_chars (s.drop last_pos))

/-! ### The search function -/

variable {s str u v : List α} {n : Nat}

theorem qstrstr_nil (s : List α) : qstrstr s [] = some 0 := by
  cases s with
  | nil => rfl
  | cons c s => rfl

theorem qstrstr_some (h : qstrstr s str = some n) :
    FirstAt str s (s.take n) (s.drop (n + str.length)) ∧ n ≤ s.length ∧ 0 ∉ s.take n := by
  induction s generalizing n with
  | nil =>
      rw [qstrstr] at h
      split at h
      · case isTrue hstr =>
        obtain rfl : 0 = n := Option.some.inj h
        subst hstr
        exact ⟨FirstAt.start rfl, Nat.le_refl 0, List.not_mem_nil⟩
      · cases h
  | cons c s ih =>
      rw [qstrstr] at h
      split at h
      · case isTrue hprefix =>
        obtain rfl : 0 = n := Option.some.inj h
        obtain ⟨v, hv⟩ := List.isPrefixOf_iff_prefix.mp hprefix
        refine ⟨?_, Nat.zero_le _, List.not_mem_nil⟩
        rw [← hv, Nat.zero_add, List.drop_left]
        exact FirstAt.start rfl
      · case isFalse hprefix =>
        split at h
        · cases h
        case isFalse hc =>
        obtain ⟨m, hm, rfl⟩ := Option.map_eq_some_iff.mp h
        obtain ⟨hfirst, hle, hnul⟩ := ih hm
        refine ⟨⟨?_, ?_⟩, Nat.succ_le_succ hle, ?_⟩
        · rw [Nat.add_right_comm, List.take_succ_cons, List.drop_succ_cons, List.cons_append, ← hfirst.cut]
        · intro u' v' heq
          cases u' with
          | nil => exact absurd (List.isPrefixOf_iff_prefix.mpr ⟨v', heq.symm⟩) hprefix
          | cons d u' =>
              have hle' := hfirst.first u' v' (List.cons.inj heq).2
              rw [List.take_succ_cons]
              exact Nat.succ_le_succ hle'
        · rw [List.take_succ_cons]
          intro hmem
          cases hmem with
          | head => exact hc rfl
          | tail _ hmem => exact hnul hmem

theorem qstrstr_none (h : qstrstr s str = none) : ¬str <:+: c_chars s := by
  induction s with
  | nil =>
      rw [qstrstr] at h
      split at h
      · cases h
      · case isFalse hstr => exact fun hin => hstr (List.infix_nil.mp hin)
  | cons c s ih =>
      rw [qstrstr] at h
      split at h
      · cases h
      case isFalse hprefix =>
      split at h
      · case isTrue hc =>
        subst hc
        intro hin
        have hnil : str = [] := List.infix_nil.mp (by simpa [c_chars] using hin)
        subst hnil
        exact hprefix rfl
      · case isFalse hc =>
        have hnone : qstrstr s str = none := Option.map_eq_none_iff.mp h
        have hcons : c_chars (c :: s) = c :: c_chars s := List.takeWhile_cons_of_pos (by simpa using hc)
        rw [hcons, List.infix_cons_iff]
        rintro (hpre | hin)
        · apply hprefix
          apply List.isPrefixOf_iff_prefix.mpr
          rw [← hcons] at hpre
          exact hpre.trans (List.takeWhile_prefix _)
        · exact ih hnone hin

omit [DecidableEq α] in
theorem infix_of_nul (hstr : 0 ∉ str) (h : str <:+: u ++ 0 :: v) : str <:+: u ∨ str <:+: v := by
  obtain ⟨a, b, heq⟩ := h
  rw [List.append_assoc] at heq
  rcases List.append_eq_append_iff.mp heq with ⟨u', hu, hrest⟩ | ⟨a', ha, hrest⟩
  · rcases List.append_eq_append_iff.mp hrest with ⟨w, hw, hb⟩ | ⟨w, hw, hb⟩
    · left
      rw [hu, hw]
      exact ⟨a, w, by simp only [List.append_assoc]⟩
    cases w with
    | nil =>
        left
        rw [hu, hw, List.append_nil]
        exact ⟨a, [], by simp only [List.append_nil]⟩
    | cons c w =>
        obtain ⟨rfl, -⟩ := List.cons.inj hb
        exact absurd (by rw [hw]; exact List.mem_append_right _ List.mem_cons_self) hstr
  · cases a' with
    | nil =>
        cases str with
        | nil => exact .inl (List.nil_infix)
        | cons c str =>
            obtain ⟨rfl, -⟩ := List.cons.inj hrest
            exact absurd List.mem_cons_self hstr
    | cons c a' =>
        right
        obtain ⟨-, hv⟩ := List.cons.inj hrest
        rw [hv]
        exact ⟨a', b, List.append_assoc a' str b⟩

def nul_rest (s : List α) : List α := s.dropWhile (· ≠ 0)

theorem c_chars_append (s : List α) : c_chars s ++ nul_rest s = s := List.takeWhile_append_dropWhile

theorem nul_rest_cases (s : List α) : nul_rest s = [] ∧ 0 ∉ s ∨ ∃ v, nul_rest s = 0 :: v := by
  induction s with
  | nil => exact .inl ⟨rfl, List.not_mem_nil⟩
  | cons c s ih =>
      by_cases hc : c = 0
      · subst hc
        exact .inr ⟨s, List.dropWhile_cons_of_neg (by simp)⟩
      have hcons : nul_rest (c :: s) = nul_rest s := List.dropWhile_cons_of_pos (by simpa using hc)
      rw [hcons, List.mem_cons, not_or]
      cases ih with
      | inl h => exact .inl ⟨h.1, fun heq => hc heq.symm, h.2⟩
      | inr h => exact .inr h

theorem occurs_cases (hstr : 0 ∉ str) (h : str <:+: s) : str <:+: c_chars s ∨ str <:+: nul_rest s := by
  rcases nul_rest_cases s with ⟨hrest, -⟩ | ⟨v, hrest⟩
  · left
    have happ := c_chars_append s
    rw [hrest, List.append_nil] at happ
    rw [happ]
    exact h
  · rw [← c_chars_append s, hrest] at h
    cases infix_of_nul hstr h with
    | inl h => exact .inl h
    | inr h =>
        right
        rw [hrest]
        exact h.trans (List.suffix_cons 0 v).isInfix

theorem c_chars_no_nul (s : List α) : 0 ∉ c_chars s := by
  intro hmem
  have := List.mem_takeWhile_imp hmem
  simp at this

theorem c_chars_of_no_nul (h : 0 ∉ s) : c_chars s = s := by
  apply List.takeWhile_eq_self_iff.mpr
  intro c hc
  apply decide_eq_true
  rintro rfl
  exact h hc

theorem c_chars_append_left (h : 0 ∉ u) : c_chars (u ++ v) = u ++ c_chars v := by
  apply List.takeWhile_append_of_pos
  intro c hc
  apply decide_eq_true
  rintro rfl
  exact h hc

theorem firstAt_c_chars (hstr : 0 ∉ str) (hu : 0 ∉ u) (h : FirstAt str s u v) :
    FirstAt str (c_chars s) u (c_chars v) := by
  constructor
  · rw [h.cut, c_chars_append_left hu, c_chars_append_left hstr]
  · intro u' v' heq
    apply h.first u' (v' ++ nul_rest s)
    rw [← List.append_assoc, ← List.append_assoc, List.append_assoc u', ← heq, c_chars_append]

theorem strneq_prefix (hstr : 0 ∉ str) : strneq s str str.length = true ↔ str <+: s := by
  induction str generalizing s with
  | nil => exact ⟨fun _ => List.nil_prefix, fun _ => by cases s <;> rfl⟩
  | cons d str ih =>
      rw [List.mem_cons, not_or] at hstr
      cases s with
      | nil =>
          have hd : d ≠ 0 := fun heq => hstr.1 heq.symm
          simp [strneq, hd]
      | cons c s =>
          rw [List.length_cons, strneq, List.headD_cons, List.tail_cons, List.cons_prefix_cons, Bool.and_eq_true,
            Bool.or_eq_true, ih hstr.2]
          constructor
          · rintro ⟨hc, hrest⟩
            obtain rfl : c = d := of_decide_eq_true hc
            refine ⟨rfl, ?_⟩
            cases hrest with
            | inl hzero => exact absurd (of_decide_eq_true hzero).symm hstr.1
            | inr hrest => exact hrest
          · rintro ⟨rfl, hrest⟩
            exact ⟨decide_eq_true rfl, .inr hrest⟩

theorem ends_with_iff (hstr : 0 ∉ str) : ends_with s str = true ↔ str <:+ s := by
  rw [ends_with, Bool.or_eq_true, Bool.and_eq_true, strneq_prefix hstr]
  constructor
  · rintro (hnil | ⟨hlen, hprefix⟩)
    · rw [List.length_eq_zero_iff.mp (of_decide_eq_true hnil)]
      exact List.nil_suffix
    have hle : ¬s.length < str.length := by simpa using hlen
    have heq : str = s.drop (s.length - str.length) :=
      hprefix.eq_of_length (by rw [List.length_drop]; omega)
    rw [heq]
    exact List.drop_suffix _ _
  · intro hsuffix
    right
    have hle := hsuffix.length_le
    refine ⟨by simpa using hle, ?_⟩
    rw [← List.suffix_iff_eq_drop.mp hsuffix]

end IdaSdk.Qstring
