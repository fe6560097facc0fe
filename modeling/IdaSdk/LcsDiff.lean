import Mathlib.Data.List.Chain
import IdaSdk.LibSubsequence
import IdaSdk.QstringEdits

/-!
The difference of two sequences by a table of longest common subsequences. The table has a row and a column more than
the sequences have items; it is filled forwards and walked backwards, and the parts and their items are then reversed.
The template is used for vectors and, with members of their own, for strings. Sizes are those of `size_t`, and an
allocation succeeds.
-/

namespace IdaSdk.LcsDiff
open LibSubsequence Qstring

/-- How `diff` can stop: an assertion, or an access outside an object. -/
inductive Failure where
  | assertion (code : Nat)
  | outside
deriving DecidableEq

theorem ok_bind {β γ : Type} (b : β) (f : β → Except Failure γ) : (Except.ok b >>= f) = f b := rfl

def access {β : Type} : Option β → Except Failure β
  | some b => .ok b
  | none => .error .outside

/-- What the template uses of a sequence type: its items, and `part`, `append` and `reverse` of the parts. -/
structure Container (α C : Type) where
  index : C → Nat → Option α
  part : C
  append : C → α → Option C
  reverse : C → C

inductive lcsdiff_result_action_t where
  | TDLA_EQ | TDLA_ADD | TDLA_SUB | TDLA_MOD
deriving DecidableEq

/-- `lcsdiff_res_part_t`. The previous content belongs to `TDLA_MOD`, which `diff` does not use. -/
structure lcsdiff_res_part_t (C : Type) where
  part : C
  action : lcsdiff_result_action_t

section Result
variable {α C : Type} (T : Container α C)

/-- `lcsdiff_res_part_t::append`. -/
def lcsdiff_res_part_t.append (p : lcsdiff_res_part_t C) (v : C) (idx : Nat) :
    Except Failure (lcsdiff_res_part_t C) := do
  let item ← access (T.index v idx)
  let part ← access (T.append p.part item)
  return { p with part }

def lcsdiff_res_part_t.reverse (p : lcsdiff_res_part_t C) : lcsdiff_res_part_t C := { p with part := T.reverse p.part }

variable (result : List (lcsdiff_res_part_t C))

/-- `set_action`: the last part has the action. -/
def set_action (wanted_action : lcsdiff_result_action_t) :
    List (lcsdiff_res_part_t C) :=
  match result.getLast? with
  | some back => if back.action ≠ wanted_action then result ++ [⟨T.part, wanted_action⟩] else result
  | none => result ++ [⟨T.part, wanted_action⟩]

/-- `eq`, `add` and `sub` but for the action. -/
def append_item (wanted_action : lcsdiff_result_action_t) (result : List (lcsdiff_res_part_t C)) (v : C) (idx : Nat) :
    Except Failure (List (lcsdiff_res_part_t C)) := do
  let result := set_action T result wanted_action
  let back ← access result.getLast?
  let back ← back.append T v idx
  return result.dropLast ++ [back]

def eq (v : C) (idx : Nat) := append_item T .TDLA_EQ result v idx

def add (v : C) (idx : Nat) := append_item T .TDLA_ADD result v idx

def sub (v : C) (idx : Nat) := append_item T .TDLA_SUB result v idx

end Result

def table_index (m i j : Nat) : Nat := size_t (i * size_t (m + 1) + j)

def table (m : Nat) (lcs_table : List Nat) (i j : Nat) : Except Failure Nat :=
  if table_index m i j < lcs_table.length then access lcs_table[table_index m i j]?
  else .error (.assertion 2351)

def set_table (m : Nat) (lcs_table : List Nat) (i j value : Nat) : Except Failure (List Nat) :=
  if table_index m i j < lcs_table.length then .ok (lcs_table.set (table_index m i j) value)
  else .error (.assertion 2351)

section Diff
variable {α C : Type} [BEq α] (T : Container α C) (x y : C) (n m : Nat)

def same_item (i j : Nat) : Except Failure Bool := do
  let a ← access (T.index x (i - 1))
  let b ← access (T.index y (j - 1))
  return a == b

/-- The body of the two loops of the constructor. -/
def fill_cell (lcs_table : List Nat) (i j : Nat) : Except Failure (List Nat) :=
  if i = 0 ∨ j = 0 then set_table m lcs_table i j 0
  else do
    if ← same_item T x y i j then
      let prev ← table m lcs_table (i - 1) (j - 1)
      set_table m lcs_table i j (size_t (1 + prev))
    else
      let l ← table m lcs_table (i - 1) j
      let u ← table m lcs_table i (j - 1)
      set_table m lcs_table i j (max l u)

def fill_row (lcs_table : List Nat) (i : Nat) : Except Failure (List Nat) :=
  (List.range (size_t (m + 1))).foldlM (fun lcs_table j => fill_cell T x y m lcs_table i j) lcs_table

def fill_table : Except Failure (List Nat) :=
  (List.range (size_t (n + 1))).foldlM (fill_row T x y m)
    (List.replicate (size_t (size_t (n + 1) * size_t (m + 1))) 0)

/-- The loop of `diff`. -/
def walk (lcs_table : List Nat) (result : List (lcsdiff_res_part_t C)) :
    (i j : Nat) → Except Failure (List (lcsdiff_res_part_t C))
  | 0, 0 => .ok result
  | 0, j + 1 => do walk lcs_table (← add T result y j) 0 j
  | i + 1, 0 => do walk lcs_table (← sub T result x i) i 0
  | i + 1, j + 1 => do
    if ← same_item T x y (i + 1) (j + 1) then walk lcs_table (← eq T result x i) i j
    else
      let l ← table m lcs_table i (j + 1)
      let u ← table m lcs_table (i + 1) j
      if l ≤ u then walk lcs_table (← add T result y j) (i + 1) j
      else walk lcs_table (← sub T result x i) i (j + 1)
termination_by i j => i + j

def diff : Except Failure (List (lcsdiff_res_part_t C)) := do
  let lcs_table ← fill_table T x y n m
  let result ← walk T x y m lcs_table [] n m
  return result.reverse.map fun part => part.reverse T

end Diff

/-- A `qvector`. Its array is in the address space, which has a byte more. -/
structure qvector (α : Type) where
  items : List α
  fits : items.length + 1 < 2 ^ 64

/-- `lcsdiff_res_part_t<T>`. -/
def vector (α : Type) : Container α (List α) where
  index v idx := v[idx]?
  part := []
  append part item := some (part ++ [item])
  reverse := List.reverse

/-- The specialisation for `qstring`: `std::prev(part.end())` is the place of the terminating zero. -/
def string {α : Type} [Zero α] (mem : Nat → α) : Container α (List α) where
  index v idx := v[idx]?
  part := []
  append := append_char mem
  reverse part := if part.length ≤ 1 then part else (part.take (part.length - 1)).reverse ++ part.drop (part.length - 1)

/-- What the representation of a sequence type has to keep. `Holds v l` says that `v` has the items `l`. -/
structure Container.Lawful {α C : Type} (T : Container α C) (Holds : C → List α → Prop) : Prop where
  index : ∀ v l i, Holds v l → i < l.length → T.index v i = l[i]?
  part : Holds T.part []
  append : ∀ p l a, Holds p l → l.length + 2 < 2 ^ 64 → ∃ p', T.append p a = some p' ∧ Holds p' (l ++ [a])
  reverse : ∀ p l, Holds p l → Holds (T.reverse p) l.reverse

theorem vector_lawful (α : Type) : (vector α).Lawful Eq where
  index := by
    rintro v l i rfl -
    rfl
  part := rfl
  append := by
    rintro p l a rfl -
    exact ⟨p ++ [a], rfl, rfl⟩
  reverse := by
    rintro p l rfl
    rfl

/-- The body of a string with these characters. -/
def HasChars {α : Type} [Zero α] (body l : List α) : Prop := ∃ s : _qstring α, s.body = body ∧ s.chars = l

theorem string_lawful {α : Type} [Zero α] [DecidableEq α] (mem : Nat → α) : (string mem).Lawful HasChars where
  index := by
    rintro v l i ⟨s, rfl, rfl⟩ hi
    change s.body[i]? = _
    rcases s.body_cases with ⟨-, hchars⟩ | hbody
    · rw [hchars] at hi
      exact absurd hi (Nat.not_lt_zero i)
    · rw [hbody, List.getElem?_append_left hi]
  part := ⟨empty_body, rfl, rfl⟩
  append := by
    rintro p l a ⟨s, rfl, rfl⟩ hfit
    obtain ⟨t, ht, hchars⟩ := append_char_edits (m := mem).mpr hfit
    exact ⟨t.body, ht, t, rfl, hchars⟩
  reverse := by
    rintro p l ⟨s, rfl, rfl⟩
    have hfit := s.chars_fit
    change HasChars (if s.body.length ≤ 1 then s.body else _) _
    rcases s.body_cases with ⟨hbody, hchars⟩ | hbody
    · rw [hbody, if_pos (by exact Nat.zero_le 1), hchars]
      exact ⟨empty_body, rfl, rfl⟩
    have hlen : s.body.length = s.chars.length + 1 := by rw [hbody, List.length_append, List.length_singleton]
    by_cases hempty : s.chars = []
    · rw [if_pos (by rw [hlen, hempty, List.length_nil]), hempty]
      exact ⟨s, rfl, hempty⟩
    · have hpos : 0 < s.chars.length := List.length_pos_iff.mpr hempty
      rw [if_neg (by omega), hlen, Nat.add_sub_cancel, hbody, List.take_left, List.drop_left]
      exact ⟨body_of s.chars.reverse (by rw [List.length_reverse]; exact hfit), rfl, List.dropLast_concat⟩

/-- The items of the parts with one of these actions, in their order. -/
def items_of {α : Type} (script : List (lcsdiff_result_action_t × List α)) (actions : List lcsdiff_result_action_t) :
    List α :=
  (script.filter fun q => q.1 ∈ actions).flatMap Prod.snd

/-- The parts say how to get the second sequence from the first one, and no script keeps more. -/
structure Edits {α : Type} [BEq α] (xs ys : List α) (script : List (lcsdiff_result_action_t × List α)) : Prop where
  left : items_of script [.TDLA_EQ, .TDLA_SUB] = xs
  right : List.Forall₂ (fun a b => a == b) (items_of script [.TDLA_EQ, .TDLA_ADD]) ys
  actions : ∀ q ∈ script, q.1 ≠ .TDLA_MOD
  alternate : script.IsChain fun p q => p.1 ≠ q.1
  filled : ∀ q ∈ script, q.2 ≠ []
  longest : Longest (fun a b => a == b) xs ys (items_of script [.TDLA_EQ]).length

def Diffs {α C : Type} [BEq α] (T : Container α C) (Holds : C → List α → Prop) (x y : C) (xs ys : List α) : Prop :=
  ∃ result script, diff T x y xs.length ys.length = .ok result ∧
    List.Forall₂ (fun p q => p.action = q.1 ∧ Holds p.part q.2) result script ∧ Edits xs ys script

section Proof
variable {α C : Type} {T : Container α C} {Holds : C → List α → Prop}

/-- The items of the parts with the actions of their parts. -/
def flat (script : List (lcsdiff_result_action_t × List α)) : List (lcsdiff_result_action_t × α) :=
  script.flatMap fun q => q.2.map (q.1, ·)

/-- The result so far shows these items, grouped as far as possible. -/
structure Grouped (Holds : C → List α → Prop) (result : List (lcsdiff_res_part_t C))
    (script : List (lcsdiff_result_action_t × List α)) : Prop where
  shows : List.Forall₂ (fun p q => p.action = q.1 ∧ Holds p.part q.2) result script
  alternate : script.IsChain fun p q => p.1 ≠ q.1
  filled : ∀ q ∈ script, q.2 ≠ []

theorem grouped_nil : Grouped Holds ([] : List (lcsdiff_res_part_t C)) [] where
  shows := .nil
  alternate := .nil
  filled := by simp

theorem part_append (hT : T.Lawful Holds) {p : lcsdiff_res_part_t C} {l : List α} {v : C} {idx : Nat} {a : α}
    (hp : Holds p.part l) (hfit : l.length + 2 < 2 ^ 64) (hv : T.index v idx = some a) :
    ∃ p', p.append T v idx = .ok p' ∧ p'.action = p.action ∧ Holds p'.part (l ++ [a]) := by
  obtain ⟨part, happend, hpart⟩ := hT.append p.part l a hp hfit
  refine ⟨{ p with part }, ?_, rfl, hpart⟩
  rw [lcsdiff_res_part_t.append, hv, access, ok_bind, happend]
  rfl

theorem append_item_grouped (hT : T.Lawful Holds) {result : List (lcsdiff_res_part_t C)}
    {script : List (lcsdiff_result_action_t × List α)} {act : lcsdiff_result_action_t} {v : C} {idx : Nat} {a : α}
    (hgroup : Grouped Holds result script) (hfit : (flat script).length + 2 < 2 ^ 64)
    (hv : T.index v idx = some a) :
    ∃ result' script', append_item T act result v idx = .ok result' ∧ Grouped Holds result' script' ∧
      flat script' = flat script ++ [(act, a)] := by
  have hfresh : ∃ p', (⟨T.part, act⟩ : lcsdiff_res_part_t C).append T v idx = .ok p' ∧ p'.action = act ∧
      Holds p'.part [a] := by
    obtain ⟨p', happend, haction, hitems⟩ := part_append (p := ⟨T.part, act⟩) hT hT.part
      (Nat.lt_of_le_of_lt (Nat.le_add_left 2 (flat script).length) hfit) hv
    exact ⟨p', happend, haction, hitems⟩
  rcases List.eq_nil_or_concat' script with rfl | ⟨front, ⟨act', l⟩, rfl⟩
  · have hnil : result = [] := List.forall₂_nil_right_iff.mp hgroup.shows
    obtain ⟨p', happend, haction, hitems⟩ := hfresh
    refine ⟨[p'], [(act, [a])], ?_, ⟨.cons ⟨haction, hitems⟩ .nil, .singleton _, by simp⟩, rfl⟩
    rw [hnil, append_item]
    simp only [set_action, List.getLast?_nil, List.nil_append, List.getLast?_singleton, access, ok_bind, happend]
    rfl
  · obtain ⟨front', p, rfl, hfront, hact, hitems⟩ := forall₂_concat_right hgroup.shows
    have hl : l.length + 2 < 2 ^ 64 := by
      rw [flat, List.flatMap_append, List.flatMap_singleton, List.length_append, List.length_map] at hfit
      exact Nat.lt_of_le_of_lt (Nat.add_le_add_right (Nat.le_add_left l.length _) 2) hfit
    have hchain := List.isChain_append.mp hgroup.alternate
    have hfilled := hgroup.filled
    by_cases hsame : p.action = act
    · obtain ⟨p', happend, haction, hitems'⟩ := part_append hT hitems hl hv
      refine ⟨front' ++ [p'], front ++ [(act', l ++ [a])], ?_, ⟨?_, ?_, ?_⟩, ?_⟩
      · rw [append_item]
        simp only [set_action, List.getLast?_append, List.getLast?_singleton, Option.some_or, hsame, ne_eq,
          not_true_eq_false, if_false, access, ok_bind, happend, List.dropLast_concat]
        rfl
      · exact forall₂_concat hfront ⟨haction.trans hact, hitems'⟩
      · refine List.isChain_append.mpr ⟨hchain.1, .singleton _, fun q hq last hlast => ?_⟩
        cases hlast
        exact hchain.2.2 q hq (act', l) rfl
      · rw [List.forall_mem_append] at hfilled ⊢
        exact ⟨hfilled.1, by simp⟩
      · simp only [flat, List.flatMap_append, List.flatMap_singleton, List.map_append, List.append_assoc]
        rw [show act' = act from hact.symm.trans hsame]
        rfl
    · obtain ⟨p', happend, haction, hitems'⟩ := hfresh
      refine ⟨front' ++ [p] ++ [p'], front ++ [(act', l)] ++ [(act, [a])], ?_, ⟨?_, ?_, ?_⟩, ?_⟩
      · rw [append_item]
        simp only [set_action, List.getLast?_append, List.getLast?_singleton, Option.some_or, hsame, ne_eq,
          not_false_eq_true, if_true, access, ok_bind, happend, List.dropLast_concat]
        rfl
      · exact forall₂_concat hgroup.shows ⟨haction, hitems'⟩
      · refine List.isChain_append.mpr ⟨hgroup.alternate, .singleton _, ?_⟩
        rintro q hq _ ⟨⟩
        rw [List.getLast?_concat] at hq
        cases hq
        exact fun h => hsame (hact.trans h)
      · rw [List.forall_mem_append]
        exact ⟨hfilled, by simp⟩
      · rw [flat, List.flatMap_append, List.flatMap_singleton]
        rfl

section Range
variable {σ : Type} {f : σ → Nat → Except Failure σ} {P : Nat → σ → Prop} {s : σ} {n : Nat}

theorem range_spec (h0 : P 0 s) (hstep : ∀ k s, k < n → P k s → ∃ s', f s k = .ok s' ∧ P (k + 1) s') :
    ∃ s', (List.range n).foldlM f s = .ok s' ∧ P n s' := by
  induction n with
  | zero => exact ⟨s, rfl, h0⟩
  | succ n ih =>
      obtain ⟨s', hs', hP⟩ := ih fun k s hk => hstep k s (Nat.lt_succ_of_lt hk)
      obtain ⟨s'', hs'', hP'⟩ := hstep n s' (Nat.lt_succ_self n) hP
      refine ⟨s'', ?_, hP'⟩
      rw [List.range_succ, List.foldlM_append, hs', ok_bind, List.foldlM_cons, hs'']
      rfl

theorem range_reached {I : σ → Prop} {s' : σ} (h : (List.range n).foldlM f s = .ok s') (h0 : I s)
    (hstep : ∀ k s s', I s → f s k = .ok s' → I s') :
    I s' ∧ ∀ k < n, ∃ t t', I t ∧ f t k = .ok t' := by
  induction n generalizing s' with
  | zero =>
      cases h
      exact ⟨h0, fun k hk => absurd hk (Nat.not_lt_zero k)⟩
  | succ n ih =>
      rw [List.range_succ, List.foldlM_append] at h
      cases hfront : (List.range n).foldlM f s with
      | error e => simp [hfront, bind, Except.bind] at h
      | ok t =>
          obtain ⟨ht, hreached⟩ := ih hfront
          rw [hfront, ok_bind, List.foldlM_cons] at h
          cases hlast : f t n with
          | error e => simp [hlast, bind, Except.bind] at h
          | ok t' =>
              rw [hlast] at h
              cases h
              refine ⟨hstep n t s' ht hlast, fun k hk => ?_⟩
              rcases Nat.lt_succ_iff_lt_or_eq.mp hk with hlt | rfl
              · exact hreached k hlt
              · exact ⟨t, s', ht, hlast⟩

end Range

/-! ### Filling the table -/

section Table
variable [BEq α] {x y : C} {xs ys : List α} {n m : Nat}

/-- The cells before a place have their values. -/
structure Filled (xs ys : List α) (lcs_table : List Nat) (place : Nat) : Prop where
  size : lcs_table.length = (xs.length + 1) * (ys.length + 1)
  cell : ∀ i j, i ≤ xs.length → j ≤ ys.length → i * (ys.length + 1) + j < place →
    ∃ k, lcs_table[i * (ys.length + 1) + j]? = some k ∧
      Longest (fun a b => a == b) (xs.take i) (ys.take j) k

variable {i j : Nat}

theorem place_lt (hi : i ≤ n) (hj : j ≤ m) : i * (m + 1) + j < (n + 1) * (m + 1) := by
  have hrow : (i + 1) * (m + 1) ≤ (n + 1) * (m + 1) := Nat.mul_le_mul_right (m + 1) (Nat.succ_le_succ hi)
  rw [Nat.succ_mul] at hrow
  omega

theorem place_inj {i' j' : Nat} (hj : j ≤ m) (hj' : j' ≤ m) (h : i * (m + 1) + j = i' * (m + 1) + j') :
    i = i' ∧ j = j' := by
  have hrow : ∀ i j, j ≤ m → (i * (m + 1) + j) / (m + 1) = i := by
    intro i j hj
    rw [Nat.mul_comm, Nat.mul_add_div (Nat.succ_pos m), Nat.div_eq_of_lt (Nat.lt_succ_of_le hj), Nat.add_zero]
  have hi : i = i' := by rw [← hrow i j hj, h, hrow i' j' hj']
  subst hi
  exact ⟨rfl, Nat.add_left_cancel h⟩

theorem same_item_spec (hT : T.Lawful Holds) (hx : Holds x xs) (hy : Holds y ys) {a b : α}
    (ha : xs[i]? = some a) (hb : ys[j]? = some b) : same_item T x y (i + 1) (j + 1) = .ok (a == b) := by
  have hi : i < xs.length := (List.getElem?_eq_some_iff.mp ha).1
  have hj : j < ys.length := (List.getElem?_eq_some_iff.mp hb).1
  rw [same_item, Nat.add_sub_cancel, Nat.add_sub_cancel, hT.index x xs i hx hi, hT.index y ys j hy hj, ha, hb]
  rfl

omit [BEq α] in
theorem take_next {l : List α} (hi : i < l.length) :
    ∃ a, l[i]? = some a ∧ l.take (i + 1) = l.take i ++ [a] :=
  ⟨l[i], List.getElem?_eq_getElem hi, List.take_succ_eq_append_getElem hi⟩

variable (hfits : (xs.length + 1) * (ys.length + 1) < 2 ^ 64)
include hfits

omit [BEq α] in
theorem table_index_eq (hi : i ≤ xs.length) (hj : j ≤ ys.length) :
    table_index ys.length i j = i * (ys.length + 1) + j := by
  have hplace := place_lt hi hj
  have hcols : ys.length + 1 < 2 ^ 64 := Nat.lt_of_le_of_lt (Nat.le_mul_of_pos_left _ (Nat.succ_pos xs.length)) hfits
  rw [table_index, size_t_of_lt hcols, size_t_of_lt (hplace.trans hfits)]

variable {lcs_table : List Nat}

theorem table_spec {place : Nat} (hfilled : Filled xs ys lcs_table place)
    (hi : i ≤ xs.length) (hj : j ≤ ys.length) (hlt : i * (ys.length + 1) + j < place) :
    ∃ k, table ys.length lcs_table i j = .ok k ∧ Longest (fun a b => a == b) (xs.take i) (ys.take j) k := by
  obtain ⟨k, hk, hlongest⟩ := hfilled.cell i j hi hj hlt
  refine ⟨k, ?_, hlongest⟩
  rw [table, table_index_eq hfits hi hj, if_pos (hfilled.size ▸ place_lt hi hj), hk, access]

theorem set_table_spec {k : Nat}
    (hfilled : Filled xs ys lcs_table (i * (ys.length + 1) + j)) (hi : i ≤ xs.length) (hj : j ≤ ys.length)
    (hlongest : Longest (fun a b => a == b) (xs.take i) (ys.take j) k) :
    ∃ lcs_table', set_table ys.length lcs_table i j k = .ok lcs_table' ∧
      Filled xs ys lcs_table' (i * (ys.length + 1) + j + 1) := by
  have hplace := place_lt hi hj
  refine ⟨lcs_table.set (i * (ys.length + 1) + j) k, ?_, ?_, ?_⟩
  · rw [set_table, table_index_eq hfits hi hj, if_pos (hfilled.size ▸ hplace)]
  · rw [List.length_set, hfilled.size]
  intro i' j' hi' hj' hlt
  rcases Nat.lt_succ_iff_lt_or_eq.mp hlt with hbefore | hsame
  · rw [List.getElem?_set_ne (Nat.ne_of_gt hbefore)]
    exact hfilled.cell i' j' hi' hj' hbefore
  · obtain ⟨rfl, rfl⟩ := place_inj hj' hj hsame
    refine ⟨k, ?_, hlongest⟩
    rw [List.getElem?_set_self (hfilled.size ▸ hplace)]

theorem fill_cell_spec (hT : T.Lawful Holds) (hx : Holds x xs) (hy : Holds y ys)
    (hfilled : Filled xs ys lcs_table (i * (ys.length + 1) + j)) (hi : i ≤ xs.length) (hj : j ≤ ys.length) :
    ∃ lcs_table', fill_cell T x y ys.length lcs_table i j = .ok lcs_table' ∧
      Filled xs ys lcs_table' (i * (ys.length + 1) + j + 1) := by
  match i, j, hi, hj, hfilled with
  | 0, j, hi, hj, hfilled =>
    rw [fill_cell, if_pos (Or.inl rfl)]
    exact set_table_spec hfits hfilled hi hj (by rw [List.take_zero]; exact longest_nil_left)
  | i + 1, 0, hi, hj, hfilled =>
    rw [fill_cell, if_pos (Or.inr rfl)]
    exact set_table_spec hfits hfilled hi hj (by rw [List.take_zero]; exact longest_nil_right)
  | i + 1, j + 1, hi, hj, hfilled =>
    obtain ⟨a, ha, htakex⟩ := take_next hi
    obtain ⟨b, hb, htakey⟩ := take_next hj
    have hrow : (i + 1) * (ys.length + 1) = i * (ys.length + 1) + (ys.length + 1) := Nat.succ_mul i _
    rw [fill_cell, if_neg (by simp), same_item_spec hT hx hy ha hb, ok_bind]
    by_cases hab : a == b
    · obtain ⟨k, hk, hlongest⟩ := table_spec hfits hfilled (i := i) (j := j) (by omega) (by omega) (by omega)
      have hle : k ≤ xs.length := Nat.le_trans hlongest.le_length (by rw [List.length_take]; omega)
      have hxs : xs.length + 1 < 2 ^ 64 :=
        Nat.lt_of_le_of_lt (Nat.le_mul_of_pos_right _ (Nat.succ_pos ys.length)) hfits
      rw [if_pos hab, Nat.add_sub_cancel, Nat.add_sub_cancel, hk, ok_bind, size_t_of_lt (by omega), Nat.add_comm 1 k]
      exact set_table_spec hfits hfilled hi hj (by rw [htakex, htakey]; exact hlongest.concat hab)
    · obtain ⟨l, hl, hleft⟩ := table_spec hfits hfilled (i := i) (j := j + 1) (by omega) hj (by omega)
      obtain ⟨u, hu, hup⟩ := table_spec hfits hfilled (i := i + 1) (j := j) hi (by omega) (by omega)
      rw [if_neg hab, Nat.add_sub_cancel, Nat.add_sub_cancel, hl, ok_bind, hu, ok_bind]
      refine set_table_spec hfits hfilled hi hj ?_
      rw [htakex, htakey] at *
      exact hleft.concat_max hup hab

theorem fill_table_spec (hT : T.Lawful Holds) (hx : Holds x xs) (hy : Holds y ys) :
    ∃ lcs_table, fill_table T x y xs.length ys.length = .ok lcs_table ∧
      Filled xs ys lcs_table ((xs.length + 1) * (ys.length + 1)) := by
  have hrows : xs.length + 1 < 2 ^ 64 :=
    Nat.lt_of_le_of_lt (Nat.le_mul_of_pos_right _ (Nat.succ_pos ys.length)) hfits
  have hcols : ys.length + 1 < 2 ^ 64 := Nat.lt_of_le_of_lt (Nat.le_mul_of_pos_left _ (Nat.succ_pos xs.length)) hfits
  rw [fill_table, size_t_of_lt hrows, size_t_of_lt hcols, size_t_of_lt hfits]
  apply range_spec (P := fun i lcs_table => Filled xs ys lcs_table (i * (ys.length + 1)))
  · refine ⟨List.length_replicate, fun i j _ _ hlt => ?_⟩
    rw [Nat.zero_mul] at hlt
    exact absurd hlt (Nat.not_lt_zero _)
  intro i lcs_table hi hfilled
  rw [fill_row, size_t_of_lt hcols, Nat.succ_mul]
  exact range_spec (P := fun j lcs_table => Filled xs ys lcs_table (i * (ys.length + 1) + j)) hfilled
    fun j lcs_table hj hfilled =>
      fill_cell_spec hfits hT hx hy hfilled (Nat.le_of_lt_succ hi) (Nat.le_of_lt_succ hj)

end Table

/-! ### Walking back -/

section Walk
variable [BEq α] {x y : C} {xs ys : List α} {ops : List (lcsdiff_result_action_t × α)} {a b : α}

def kept (actions : List lcsdiff_result_action_t) (ops : List (lcsdiff_result_action_t × α)) : List α :=
  (ops.filter fun o => o.1 ∈ actions).map Prod.snd

/-- `Edits` for single items. -/
structure Path (xs ys : List α) (ops : List (lcsdiff_result_action_t × α)) : Prop where
  left : kept [.TDLA_EQ, .TDLA_SUB] ops = xs
  right : List.Forall₂ (fun a b => a == b) (kept [.TDLA_EQ, .TDLA_ADD] ops) ys
  actions : ∀ o ∈ ops, o.1 ≠ .TDLA_MOD
  longest : Longest (fun a b => a == b) xs ys (kept [.TDLA_EQ] ops).length

omit [BEq α] in
theorem kept_concat (actions : List lcsdiff_result_action_t) (act : lcsdiff_result_action_t) :
    kept actions (ops ++ [(act, a)]) = kept actions ops ++ if act ∈ actions then [a] else [] := by
  rw [kept, List.filter_append, List.map_append]
  by_cases hmem : act ∈ actions
  · rw [if_pos hmem, List.filter_cons_of_pos (by simpa using hmem)]
    rfl
  · rw [if_neg hmem, List.filter_cons_of_neg (by simpa using hmem)]
    rfl

theorem Path.concat_eq (h : Path xs ys ops) (hab : a == b) : Path (xs ++ [a]) (ys ++ [b]) (ops ++ [(.TDLA_EQ, a)]) where
  left := by rw [kept_concat, h.left, if_pos (by decide)]
  right := by
    rw [kept_concat, if_pos (by decide)]
    exact forall₂_concat h.right hab
  actions := by
    rw [List.forall_mem_append]
    exact ⟨h.actions, by simp⟩
  longest := by
    rw [kept_concat, if_pos (by decide), List.length_append]
    exact h.longest.concat hab

theorem Path.concat_add [ReflBEq α] (h : Path xs ys ops)
    (hlongest : Longest (fun a b => a == b) xs (ys ++ [b]) (kept [.TDLA_EQ] ops).length) :
    Path xs (ys ++ [b]) (ops ++ [(.TDLA_ADD, b)]) where
  left := by rw [kept_concat, h.left, if_neg (by decide), List.append_nil]
  right := by
    rw [kept_concat, if_pos (by decide)]
    exact forall₂_concat h.right BEq.rfl
  actions := by
    rw [List.forall_mem_append]
    exact ⟨h.actions, by simp⟩
  longest := by
    rw [kept_concat, if_neg (by decide), List.append_nil]
    exact hlongest

theorem Path.concat_sub (h : Path xs ys ops)
    (hlongest : Longest (fun a b => a == b) (xs ++ [a]) ys (kept [.TDLA_EQ] ops).length) :
    Path (xs ++ [a]) ys (ops ++ [(.TDLA_SUB, a)]) where
  left := by rw [kept_concat, h.left, if_pos (by decide)]
  right := by
    rw [kept_concat, if_neg (by decide), List.append_nil]
    exact h.right
  actions := by
    rw [List.forall_mem_append]
    exact ⟨h.actions, by simp⟩
  longest := by
    rw [kept_concat, if_neg (by decide), List.append_nil]
    exact hlongest

/-- A run of the loop: the result shows the items in the reverse order. -/
def Walks (T : Container α C) (Holds : C → List α → Prop) (x y : C) (xs ys : List α) (lcs_table : List Nat)
    (result : List (lcsdiff_res_part_t C)) (script : List (lcsdiff_result_action_t × List α)) (i j : Nat) : Prop :=
  ∃ result' script' ops, walk T x y ys.length lcs_table result i j = .ok result' ∧ Grouped Holds result' script' ∧
    flat script' = flat script ++ ops.reverse ∧ Path (xs.take i) (ys.take j) ops

variable {lcs_table : List Nat} {result : List (lcsdiff_res_part_t C)} {script : List (lcsdiff_result_action_t × List α)}

theorem walks_stop (hgroup : Grouped Holds result script) :
    Walks T Holds x y xs ys lcs_table result script 0 0 := by
  refine ⟨result, script, [], by rw [walk], hgroup, (List.append_nil _).symm, rfl, .nil, by simp, ?_⟩
  exact longest_nil_left

theorem walks_step (act : lcsdiff_result_action_t) (i' j' : Nat) (hT : T.Lawful Holds) {v : C} {idx i j : Nat}
    (hgroup : Grouped Holds result script) (hfit : (flat script).length + 2 < 2 ^ 64) (hv : T.index v idx = some a)
    (hwalk : walk T x y ys.length lcs_table result i j =
      append_item T act result v idx >>= fun result => walk T x y ys.length lcs_table result i' j')
    (hpath : ∀ ops, Path (xs.take i') (ys.take j') ops → Path (xs.take i) (ys.take j) (ops ++ [(act, a)]))
    (hnext : ∀ result' script', Grouped Holds result' script' → (flat script').length = (flat script).length + 1 →
      Walks T Holds x y xs ys lcs_table result' script' i' j') :
    Walks T Holds x y xs ys lcs_table result script i j := by
  obtain ⟨result₁, script₁, happend, hgroup₁, hflat₁⟩ := append_item_grouped hT hgroup hfit hv
  obtain ⟨result', script', ops, hrest, hgroup', hflat', hops⟩ := hnext result₁ script₁ hgroup₁
    (by rw [hflat₁, List.length_append, List.length_singleton])
  refine ⟨result', script', ops ++ [(act, a)], ?_, hgroup', ?_, hpath ops hops⟩
  · rw [hwalk, happend, ok_bind, hrest]
  · rw [hflat', hflat₁, List.reverse_append, List.append_assoc]
    rfl

theorem walk_spec [ReflBEq α] (hT : T.Lawful Holds) (hx : Holds x xs) (hy : Holds y ys)
    (hfits : (xs.length + 1) * (ys.length + 1) < 2 ^ 64)
    (hfilled : Filled xs ys lcs_table ((xs.length + 1) * (ys.length + 1))) (k : Nat) :
    ∀ i j result script, i + j ≤ k → i ≤ xs.length → j ≤ ys.length → Grouped Holds result script →
      (flat script).length + (i + j) + 1 < 2 ^ 64 → Walks T Holds x y xs ys lcs_table result script i j := by
  induction k with
  | zero =>
      intro i j result script hk hi hj hgroup hfit
      obtain ⟨rfl, rfl⟩ : i = 0 ∧ j = 0 := by omega
      exact walks_stop hgroup
  | succ k ih =>
      intro i j result script hk hi hj hgroup hfit
      match i, j, hk, hi, hj with
      | 0, 0, _, _, _ => exact walks_stop hgroup
      | 0, j + 1, hk, hi, hj =>
        obtain ⟨b, hb, htakey⟩ := take_next hj
        refine walks_step _ 0 j hT hgroup (by omega) ((hT.index y ys j hy hj).trans hb)
          (by rw [walk]; rfl) (fun ops hops => ?_) fun result' script' hgroup' hlen => ih 0 j result' script' (by omega)
            hi (Nat.le_of_lt hj) hgroup' (by omega)
        have hlen := hops.longest.le_length
        rw [List.take_zero, List.length_nil] at hlen
        rw [htakey]
        refine hops.concat_add ?_
        rw [Nat.le_zero.mp hlen]
        exact longest_nil_left
      | i + 1, 0, hk, hi, hj =>
        obtain ⟨a, ha, htakex⟩ := take_next hi
        refine walks_step _ i 0 hT hgroup (by omega) ((hT.index x xs i hx hi).trans ha)
          (by rw [walk]; rfl) (fun ops hops => ?_) fun result' script' hgroup' hlen => ih i 0 result' script' (by omega)
            (Nat.le_of_lt hi) hj hgroup' (by omega)
        have hzero := hops.longest.unique longest_nil_right
        rw [htakex]
        refine hops.concat_sub ?_
        rw [hzero]
        exact longest_nil_right
      | i + 1, j + 1, hk, hi, hj =>
        obtain ⟨a, ha, htakex⟩ := take_next hi
        obtain ⟨b, hb, htakey⟩ := take_next hj
        have hsame := same_item_spec hT hx hy ha hb
        by_cases hab : a == b
        · refine walks_step .TDLA_EQ i j hT hgroup (by omega)
            ((hT.index x xs i hx hi).trans ha) (by rw [walk, hsame, ok_bind, if_pos hab]; rfl) (fun ops hops => ?_)
            fun result' script' hgroup' hlen => ih i j result' script' (by omega) (Nat.le_of_lt hi) (Nat.le_of_lt hj)
              hgroup' (by omega)
          rw [htakex, htakey]
          exact hops.concat_eq hab
        · obtain ⟨l, hl, hleft⟩ := table_spec hfits hfilled (Nat.le_of_lt hi) hj (place_lt (Nat.le_of_lt hi) hj)
          obtain ⟨u, hu, hup⟩ := table_spec hfits hfilled hi (Nat.le_of_lt hj) (place_lt hi (Nat.le_of_lt hj))
          have hboth : Longest (fun a b => a == b) (xs.take (i + 1)) (ys.take (j + 1)) (max l u) := by
            rw [htakex, htakey] at *
            exact hleft.concat_max hup hab
          by_cases hle : l ≤ u
          · refine walks_step _ (i + 1) j hT hgroup (by omega) ((hT.index y ys j hy hj).trans hb)
              (by rw [walk, hsame, ok_bind, if_neg hab, hl, ok_bind, hu, ok_bind, if_pos hle]; rfl)
              (fun ops hops => ?_) fun result' script' hgroup' hlen => ih (i + 1) j result' script' (by omega) hi
                (Nat.le_of_lt hj) hgroup' (by omega)
            have hlongest := hops.longest.unique hup
            rw [Nat.max_eq_right hle, ← hlongest, htakey] at hboth
            rw [htakey]
            exact hops.concat_add hboth
          · refine walks_step _ i (j + 1) hT hgroup (by omega) ((hT.index x xs i hx hi).trans ha)
              (by rw [walk, hsame, ok_bind, if_neg hab, hl, ok_bind, hu, ok_bind, if_neg hle]; rfl)
              (fun ops hops => ?_) fun result' script' hgroup' hlen => ih i (j + 1) result' script' (by omega)
                (Nat.le_of_lt hi) hj hgroup' (by omega)
            have hlongest := hops.longest.unique hleft
            rw [Nat.max_eq_left (Nat.le_of_not_le hle), ← hlongest, htakex] at hboth
            rw [htakex]
            exact hops.concat_sub hboth

end Walk

section Whole
variable [BEq α] {x y : C} {xs ys : List α}

variable (script : List (lcsdiff_result_action_t × List α))

/-- A script with its parts and their items in the reverse order. -/
def reversed : List (lcsdiff_result_action_t × List α) :=
  script.reverse.map fun q => (q.1, q.2.reverse)

omit [BEq α] in
theorem flat_reversed :
    flat (reversed script) = (flat script).reverse := by
  induction script with
  | nil => rfl
  | cons q script ih =>
      have hcons : reversed (q :: script) = reversed script ++ [(q.1, q.2.reverse)] := by
        rw [reversed, List.reverse_cons, List.map_append]
        rfl
      have hflat : flat (q :: script) = q.2.map (q.1, ·) ++ flat script := List.flatMap_cons
      rw [hcons, hflat, List.reverse_append, ← ih, flat, List.flatMap_append, List.flatMap_singleton, List.map_reverse]
      rfl

omit [BEq α] in
theorem kept_part (actions : List lcsdiff_result_action_t) (q : lcsdiff_result_action_t × List α) :
    kept actions (q.2.map (q.1, ·)) = if q.1 ∈ actions then q.2 else [] := by
  rw [kept, List.filter_map, List.map_map]
  split
  · case isTrue hmem => simp [Function.comp_def, hmem]
  · case isFalse hmem => simp [Function.comp_def, hmem]

omit [BEq α] in
theorem items_of_eq_kept (actions : List lcsdiff_result_action_t) :
    items_of script actions = kept actions (flat script) := by
  induction script with
  | nil => rfl
  | cons q script ih =>
      have hflat : flat (q :: script) = q.2.map (q.1, ·) ++ flat script := List.flatMap_cons
      have happend : kept actions (flat (q :: script)) =
          kept actions (q.2.map (q.1, ·)) ++ kept actions (flat script) := by
        rw [hflat, kept, List.filter_append, List.map_append]
        rfl
      rw [happend, kept_part, ← ih, items_of]
      by_cases hmem : q.1 ∈ actions
      · rw [if_pos hmem, List.filter_cons_of_pos (by simpa using hmem), List.flatMap_cons]
        rfl
      · rw [if_neg hmem, List.filter_cons_of_neg (by simpa using hmem)]
        rfl

variable {script : List (lcsdiff_result_action_t × List α)} {result : List (lcsdiff_res_part_t C)}

omit [BEq α] in
theorem Grouped.reversed (hT : T.Lawful Holds) (hgroup : Grouped Holds result script) :
    Grouped Holds (result.reverse.map fun part => part.reverse T) (reversed script) where
  shows := by
    rw [LcsDiff.reversed, List.forall₂_map_left_iff, List.forall₂_map_right_iff, List.forall₂_reverse_iff]
    exact hgroup.shows.imp fun p q h => ⟨h.1, hT.reverse p.part q.2 h.2⟩
  alternate := by
    rw [LcsDiff.reversed, List.isChain_map, List.isChain_reverse]
    exact hgroup.alternate.imp fun p q h => Ne.symm h
  filled := by
    intro q hq
    obtain ⟨q', hq', rfl⟩ := List.mem_map.mp hq
    exact mt List.reverse_eq_nil_iff.mp (hgroup.filled q' (List.mem_reverse.mp hq'))

theorem edits_of_path
    (hgroup : Grouped Holds result script) (hpath : Path xs ys (flat script)) : Edits xs ys script where
  left := (items_of_eq_kept script _).trans hpath.left
  right := by
    rw [items_of_eq_kept]
    exact hpath.right
  actions := by
    intro q hq
    obtain ⟨a, ha⟩ := List.exists_mem_of_ne_nil q.2 (hgroup.filled q hq)
    exact hpath.actions (q.1, a) (List.mem_flatMap.mpr ⟨q, hq, List.mem_map.mpr ⟨a, ha, rfl⟩⟩)
  alternate := hgroup.alternate
  filled := hgroup.filled
  longest := by
    rw [items_of_eq_kept]
    exact hpath.longest

theorem diff_spec [ReflBEq α] (hT : T.Lawful Holds) (hx : Holds x xs) (hy : Holds y ys)
    (hfits : (xs.length + 1) * (ys.length + 1) < 2 ^ 64) : Diffs T Holds x y xs ys := by
  obtain ⟨lcs_table, htable, hfilled⟩ := fill_table_spec hfits hT hx hy
  have hsum : xs.length + ys.length + 1 ≤ (xs.length + 1) * (ys.length + 1) := by
    rw [Nat.succ_mul, Nat.mul_succ]
    omega
  obtain ⟨result, script, ops, hwalk, hgroup, hflat, hpath⟩ := walk_spec hT hx hy hfits hfilled _ xs.length ys.length
    [] [] (Nat.le_refl _) (Nat.le_refl _) (Nat.le_refl _) grouped_nil
    (by rw [flat, List.flatMap_nil, List.length_nil]; omega)
  refine ⟨result.reverse.map fun part => part.reverse T, reversed script, ?_, (hgroup.reversed hT).shows,
    edits_of_path (hgroup.reversed hT) ?_⟩
  · rw [diff, htable, ok_bind, hwalk]
    rfl
  · rw [List.take_length, List.take_length] at hpath
    rw [flat_reversed, hflat, flat, List.flatMap_nil, List.nil_append, List.reverse_reverse]
    exact hpath

theorem ok_of_bind {β γ : Type} {e : Except Failure β} {f : β → Except Failure γ} {c : γ} (h : e >>= f = .ok c) :
    ∃ b, e = .ok b ∧ f b = .ok c := by
  cases e with
  | error failure => cases h
  | ok b => exact ⟨b, rfl, h⟩

variable {i m : Nat} {lcs_table lcs_table' : List Nat}

theorem set_table_length {j k : Nat}
    (h : set_table m lcs_table i j k = .ok lcs_table') :
    table_index m i j < lcs_table.length ∧ lcs_table'.length = lcs_table.length := by
  unfold set_table at h
  split at h
  · case isTrue hlt =>
    cases h
    exact ⟨hlt, List.length_set⟩
  · cases h

theorem fill_cell_length {j : Nat}
    (h : fill_cell T x y m lcs_table i j = .ok lcs_table') :
    table_index m i j < lcs_table.length ∧ lcs_table'.length = lcs_table.length := by
  unfold fill_cell at h
  split at h
  · exact set_table_length h
  obtain ⟨same, -, h⟩ := ok_of_bind h
  split at h
  · obtain ⟨prev, -, h⟩ := ok_of_bind h
    exact set_table_length h
  · obtain ⟨l, -, h⟩ := ok_of_bind h
    obtain ⟨u, -, h⟩ := ok_of_bind h
    exact set_table_length h

theorem fill_row_length
    (h : fill_row T x y m lcs_table i = .ok lcs_table') :
    (∀ j < size_t (m + 1), table_index m i j < lcs_table.length) ∧ lcs_table'.length = lcs_table.length := by
  obtain ⟨hlength, hreached⟩ := range_reached (I := fun t => t.length = lcs_table.length) h rfl
    fun k t t' ht hstep => (fill_cell_length hstep).2.trans ht
  refine ⟨fun j hj => ?_, hlength⟩
  obtain ⟨t, t', ht, hstep⟩ := hreached j hj
  rw [← ht]
  exact (fill_cell_length hstep).1

theorem fits_of_fill_table {n : Nat} (hn : n + 1 < 2 ^ 64) (hm : m + 1 < 2 ^ 64)
    (h : fill_table T x y n m = .ok lcs_table) : (n + 1) * (m + 1) < 2 ^ 64 := by
  by_contra hwrap
  rw [fill_table, size_t_of_lt hn, size_t_of_lt hm] at h
  obtain ⟨size, hsize⟩ : ∃ size, size = size_t ((n + 1) * (m + 1)) := ⟨_, rfl⟩
  have hlt : size < 2 ^ 64 := hsize ▸ Nat.mod_lt _ (Nat.two_pow_pos 64)
  rw [← hsize] at h
  obtain ⟨-, hreached⟩ := range_reached (I := fun t => t.length = size) h List.length_replicate
    fun k t t' ht hstep => (fill_row_length hstep).2.trans ht
  have hrow : size / (m + 1) < n + 1 := Nat.div_lt_of_lt_mul (by rw [Nat.mul_comm]; omega)
  have hcol : size % (m + 1) < m + 1 := Nat.mod_lt size (Nat.succ_pos m)
  obtain ⟨t, t', ht, hstep⟩ := hreached (size / (m + 1)) hrow
  have hindex := (fill_row_length hstep).1 (size % (m + 1)) (by rw [size_t_of_lt hm]; exact hcol)
  rw [table_index, size_t_of_lt hm, Nat.div_add_mod', size_t_of_lt hlt, ht] at hindex
  exact Nat.lt_irrefl size hindex

theorem fill_table_no_cells {n : Nat} (hn : n + 1 < 2 ^ 64) (hm : m + 1 < 2 ^ 64)
    (hsize : (n + 1) * (m + 1) % 2 ^ 64 = 0) : fill_table T x y n m = .error (.assertion 2351) := by
  have hcell : fill_cell T x y m [] 0 0 = .error (.assertion 2351) := by
    rw [fill_cell, if_pos (Or.inl rfl)]
    exact if_neg (Nat.not_lt_zero (table_index m 0 0))
  have hrow : fill_row T x y m [] 0 = .error (.assertion 2351) := by
    rw [fill_row, size_t_of_lt hm, List.range_succ_eq_map, List.foldlM_cons, hcell]
    rfl
  rw [fill_table, size_t_of_lt hn, size_t_of_lt hm, size_t, hsize, List.replicate_zero, List.range_succ_eq_map,
    List.foldlM_cons, hrow]
  rfl

theorem diffs_iff [ReflBEq α] (hT : T.Lawful Holds) (hx : Holds x xs) (hy : Holds y ys)
    (hn : xs.length + 1 < 2 ^ 64) (hm : ys.length + 1 < 2 ^ 64) :
    Diffs T Holds x y xs ys ↔ (xs.length + 1) * (ys.length + 1) < 2 ^ 64 := by
  refine ⟨?_, diff_spec hT hx hy⟩
  rintro ⟨result, script, hdiff, -⟩
  obtain ⟨lcs_table, htable, -⟩ := ok_of_bind hdiff
  exact fits_of_fill_table hn hm htable

end Whole

end Proof

/-- The difference of two vectors, and of two strings, is right exactly if the number of cells of its table does not
wrap. -/
theorem diff_iff {α β : Type} [BEq α] [EquivBEq α] (x y : qvector α) [Zero β] [DecidableEq β] (mem : Nat → β)
    (s t : _qstring β) :
    (Diffs (vector α) Eq x.items y.items x.items y.items ↔ (x.items.length + 1) * (y.items.length + 1) < 2 ^ 64) ∧
    (Diffs (string mem) HasChars s.body t.body s.chars t.chars ↔
      (s.chars.length + 1) * (t.chars.length + 1) < 2 ^ 64) :=
  ⟨diffs_iff (vector_lawful α) rfl rfl x.fits y.fits,
    diffs_iff (string_lawful mem) ⟨s, rfl, rfl⟩ ⟨t, rfl, rfl⟩ s.chars_fit t.chars_fit⟩

/-- Two bytes and two characters. -/
theorem diff_iff_short :
    Diffs (vector Nat) Eq [1, 2] [2, 3] [1, 2] [2, 3] ∧
    Diffs (string fun _ => (0 : Nat)) HasChars [1, 0] [] [1] [] := by
  have h := diff_iff (α := Nat) ⟨[1, 2], by decide⟩ ⟨[2, 3], by decide⟩ (fun _ => (0 : Nat))
    (body_of [1] (by decide)) empty_body
  exact ⟨h.1.mpr (by decide), h.2.mpr (by decide)⟩

/-- Two vectors of `2 ^ 32 - 1` bytes have a table of no cells, and the assertion fails at the first one. -/
theorem not_diffs :
    ¬ Diffs (vector UInt8) Eq (List.replicate (2 ^ 32 - 1) 0) (List.replicate (2 ^ 32 - 1) 0)
      (List.replicate (2 ^ 32 - 1) 0) (List.replicate (2 ^ 32 - 1) 0) ∧
    diff (vector UInt8) (List.replicate (2 ^ 32 - 1) 0) (List.replicate (2 ^ 32 - 1) 0) (2 ^ 32 - 1) (2 ^ 32 - 1) =
      .error (.assertion 2351) := by
  have hdiff : diff (vector UInt8) (List.replicate (2 ^ 32 - 1) 0) (List.replicate (2 ^ 32 - 1) 0) (2 ^ 32 - 1)
      (2 ^ 32 - 1) = .error (.assertion 2351) := by
    rw [diff, fill_table_no_cells (by decide) (by decide) (by decide)]
    rfl
  refine ⟨?_, hdiff⟩
  rintro ⟨result, script, h, -⟩
  rw [List.length_replicate, hdiff] at h
  cases h

end IdaSdk.LcsDiff
