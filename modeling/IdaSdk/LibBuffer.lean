import Mathlib.Data.List.Basic
import Mathlib.Tactic.Common

/-!
Buffers with checked accesses. A buffer is a list; reading or writing outside it has no result, but an access to no
element is always allowed. The rules split a buffer into what is before the access, its place and what is behind it.
-/

namespace IdaSdk.LibBuffer

variable {α : Type} {x y z w : List α} {i n : Nat}

variable (b : List α)

def load (i n : Nat) : Option (List α) :=
  if n = 0 then some []
  else if i + n ≤ b.length then some ((b.drop i).take n)
  else none

def store (i : Nat) (w : List α) : Option (List α) :=
  if w = [] then some b
  else if i + w.length ≤ b.length then some (b.take i ++ (w ++ b.drop (i + w.length)))
  else none

/-- One element is written. -/
def put (i : Nat) (c : α) : Option (List α) := store b i [c]

/-- Elements are moved; the places may overlap. -/
def move (dst src n : Nat) : Option (List α) := (load b src n).bind (store b dst)

/-- Copies of one element are written. -/
def fillWith (i n : Nat) (c : α) : Option (List α) :=
  if n = 0 then some b
  else if i + n ≤ b.length then some (b.take i ++ (List.replicate n c ++ b.drop (i + n)))
  else none

/-- The `n` elements from `i` on. -/
def slice (i n : Nat) : List α := (b.drop i).take n

theorem load_mid (hi : i = x.length) (hn : n = y.length) : load (x ++ (y ++ z)) i n = some y := by
  unfold load
  split
  · case isTrue h =>
    have hy : y = [] := List.length_eq_zero_iff.mp (hn.symm.trans h)
    rw [hy]
  · rw [if_pos (by simp only [List.length_append]; omega), hi, List.drop_left, hn, List.take_left]

theorem store_mid (hi : i = x.length) (hw : w.length = y.length) :
    store (x ++ (y ++ z)) i w = some (x ++ (w ++ z)) := by
  unfold store
  split
  · case isTrue h =>
    subst h
    rw [List.length_eq_zero_iff.mp hw.symm]
  · rw [if_pos (by simp only [List.length_append]; omega), hi, List.take_left, hw, ← List.append_assoc x y,
      ← List.length_append, List.drop_left]

variable {b : List α}

theorem store_outside (hw : w ≠ []) (h : b.length < i + w.length) : store b i w = none := by
  rw [store, if_neg hw, if_neg (Nat.not_le.mpr h)]

variable {c : α}

theorem put_mid {d : α} (hi : i = x.length) : put (x ++ (d :: z)) i c = some (x ++ (c :: z)) :=
  store_mid (y := [d]) hi rfl

theorem put_outside (h : b.length ≤ i) : put b i c = none :=
  store_outside (List.cons_ne_nil c []) (Nat.lt_succ_of_le h)

theorem last_of_length {l : List α} {k : Nat} (h : l.length = k + 1) : ∃ l' c, l = l' ++ [c] ∧ l'.length = k := by
  rcases List.eq_nil_or_concat l with hnil | ⟨l', c, hl⟩
  · rw [hnil] at h
    cases h
  · rw [List.concat_eq_append] at hl
    refine ⟨l', c, hl, ?_⟩
    rw [hl, List.length_append] at h
    exact Nat.succ.inj h

theorem put_last {body : List α} {n : Nat} (h : body.length = n + 1) (c : α) :
    put body n c = some (body.take n ++ [c]) := by
  obtain ⟨l, d, hl, hlen⟩ := last_of_length h
  rw [hl, put_mid hlen.symm, List.take_left' hlen]

variable {dst : Nat}

theorem move_up {u v : List α} (hsrc : i = x.length) (hn : n = y.length) (hdst : w.length = y.length) (hdst' : dst = u.length) (hsame : x ++ (y ++ z) = u ++ (w ++ v)) :
    move (x ++ (y ++ z)) dst i n = some (u ++ (y ++ v)) := by
  rw [move, load_mid hsrc hn, Option.bind_some, hsame, store_mid hdst' hdst.symm]

theorem move_outside (hn : n ≠ 0) (h : b.length < dst + n) : move b dst i n = none := by
  rw [move, load, if_neg hn]
  split
  · case isTrue hin =>
    have hlen : ((b.drop i).take n).length = n := by
      rw [List.length_take, List.length_drop]
      omega
    rw [Option.bind_some, store_outside _ (by rw [hlen]; exact h)]
    intro hnil
    rw [hnil, List.length_nil] at hlen
    exact hn hlen.symm
  · rfl

variable {b' : List α}

theorem store_length (h : store b i w = some b') : b'.length = b.length := by
  unfold store at h
  split at h
  · rw [Option.some.inj h]
  split at h
  · rw [← Option.some.inj h]
    simp only [List.length_append, List.length_take, List.length_drop]
    omega
  · cases h

theorem move_inside (hn : n ≠ 0) (h : move b dst i n = some b') :
    dst + n ≤ b.length ∧ b'.length = b.length := by
  constructor
  · by_contra hout
    rw [move_outside hn (Nat.lt_of_not_le hout)] at h
    cases h
  · obtain ⟨w, -, hstore⟩ := Option.bind_eq_some_iff.mp h
    exact store_length hstore

theorem fillWith_mid (hi : i = x.length) (hn : n = y.length) :
    fillWith (x ++ (y ++ z)) i n c = some (x ++ (List.replicate n c ++ z)) := by
  unfold fillWith
  split
  · case isTrue h =>
    subst h
    rw [List.length_eq_zero_iff.mp hn.symm]
    rfl
  · rw [if_pos (by simp only [List.length_append]; omega), hi, List.take_left, hn, ← List.append_assoc x y,
      ← List.length_append, List.drop_left]

theorem fillWith_outside (hn : n ≠ 0) (h : b.length < i + n) : fillWith b i n c = none := by
  rw [fillWith, if_neg hn, if_neg (Nat.not_le.mpr h)]

theorem fillWith_length (h : fillWith b i n c = some b') : b'.length = b.length := by
  unfold fillWith at h
  split at h
  · rw [Option.some.inj h]
  split at h
  · rw [← Option.some.inj h]
    simp only [List.length_append, List.length_take, List.length_replicate, List.length_drop]
    omega
  · cases h

section
variable {b b' : List α} {j m : Nat}

theorem load_slice (h : i + n ≤ b.length) : load b i n = some (slice b i n) := by
  unfold load slice
  split
  · case isTrue hn => rw [hn, List.take_zero]
  · rfl

@[simp] theorem length_slice (h : i + n ≤ b.length) : (slice b i n).length = n := by
  rw [slice, List.length_take, List.length_drop]
  omega

theorem slice_slice (h : j + m ≤ n) : slice (slice b i n) j m = slice b (i + j) m := by
  rw [slice, slice, slice, List.drop_take, List.drop_drop, List.take_take, Nat.min_eq_left (by omega)]

theorem store_inside (h : i + w.length ≤ b.length) : ∃ b', store b i w = some b' := by
  unfold store
  split
  · exact ⟨b, rfl⟩
  · exact ⟨_, rfl⟩

theorem getElem?_store (h : store b i w = some b') (hb : i + w.length ≤ b.length) (k : Nat) :
    b'[k]? = if i ≤ k ∧ k < i + w.length then w[k - i]? else b[k]? := by
  unfold store at h
  split at h
  · case isTrue hw =>
    rw [hw, List.length_nil, if_neg (by omega), Option.some.inj h]
  have htake : (b.take i).length = i := List.length_take_of_le (by omega)
  rw [← Option.some.inj h, List.getElem?_append, List.getElem?_append, htake]
  by_cases hk : k < i
  · rw [if_pos hk, if_neg (by omega), List.getElem?_take_of_lt hk]
  rw [if_neg hk]
  by_cases hkw : k - i < w.length
  · rw [if_pos hkw, if_pos (by omega)]
  · rw [if_neg hkw, if_neg (by omega), List.getElem?_drop]
    congr 1
    omega

theorem slice_ext (h : ∀ k, i ≤ k → k < i + n → b[k]? = b'[k]?) :
    slice b i n = slice b' i n := by
  apply List.ext_getElem?
  intro k
  rw [slice, slice, List.getElem?_take, List.getElem?_take, List.getElem?_drop, List.getElem?_drop]
  split
  · exact h (i + k) (by omega) (by omega)
  · rfl

theorem slice_store_same (h : store b i w = some b') (hb : i + w.length ≤ b.length) : slice b' i w.length = w := by
  apply List.ext_getElem?
  intro k
  rw [slice, List.getElem?_take, List.getElem?_drop, getElem?_store h hb]
  split
  · rw [if_pos (by omega), Nat.add_sub_cancel_left]
  · rw [List.getElem?_eq_none (by omega)]

theorem slice_store_other (h : store b i w = some b') (hb : i + w.length ≤ b.length)
    (hj : j + m ≤ i ∨ i + w.length ≤ j) : slice b' j m = slice b j m := by
  apply slice_ext
  intro k hk hk'
  rw [getElem?_store h hb, if_neg (by omega)]

end

end IdaSdk.LibBuffer
