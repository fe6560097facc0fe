import Mathlib.Algebra.Group.Int.Defs
import Mathlib.Algebra.Group.Nat.Defs
import Mathlib.Order.Lattice
import Mathlib.Order.Basic
import Mathlib.Data.List.Pairwise
import Mathlib.Tactic.Common

/-!
Tables: lists of keys with values that are strictly sorted by key. The operations are those of an
ordered map whose elements are changed in place.
-/

namespace IdaSdk

structure Table (K V : Type) [LinearOrder K] where
  entries : List (K × V)
  sorted : entries.Pairwise fun a b => a.1 < b.1

namespace Table

variable {K V : Type} [LinearOrder K] {t : Table K V} {k k' : K} {v : V} {f : V → V} {p : V → Bool}

def empty : Table K V := ⟨[], List.Pairwise.nil⟩

def find (t : Table K V) (k : K) : Option V := (t.entries.find? fun e => e.1 = k).map Prod.snd

def keys (t : Table K V) : List K := t.entries.map Prod.fst

/-- The number of values that satisfy `p`. -/
def count (p : V → Bool) (t : Table K V) : Nat := t.entries.countP fun e => p e.2

def update (k : K) (f : V → V) (e : K × V) : K × V := if e.1 = k then (e.1, f e.2) else e

theorem update_fst (k : K) (f : V → V) (e : K × V) : (update k f e).1 = e.1 := by
  rw [update]
  split <;> rfl

/-- The first entry whose key is `k` or above it. -/
def lowerBound (t : Table K V) (k : K) : Option (K × V) := t.entries.find? fun e => k ≤ e.1

/-- The last entry whose key is below `k`. -/
def previous (t : Table K V) (k : K) : Option (K × V) := (t.entries.filter fun e => e.1 < k).getLast?

/-- Change the value of a key. -/
def modify (t : Table K V) (k : K) (f : V → V) : Table K V :=
  ⟨t.entries.map (update k f), by
    rw [List.pairwise_map]
    refine t.sorted.imp fun h => ?_
    rwa [update_fst, update_fst]⟩

def erase (t : Table K V) (k : K) : Table K V :=
  ⟨t.entries.filter fun e => e.1 ≠ k, t.sorted.filter _⟩

theorem sorted_insert (t : Table K V) (k : K) (v : V) :
    (t.entries.filter (fun e => e.1 < k) ++ (k, v) :: t.entries.filter fun e => k < e.1).Pairwise
      fun a b => a.1 < b.1 := by
  rw [List.pairwise_append, List.pairwise_cons]
  refine ⟨t.sorted.filter _, ⟨?_, t.sorted.filter _⟩, ?_⟩
  · intro b hb
    exact of_decide_eq_true (List.mem_filter.mp hb).2
  intro a ha b hb
  have ha : a.1 < k := of_decide_eq_true (List.mem_filter.mp ha).2
  rcases List.mem_cons.mp hb with rfl | hb
  · exact ha
  · exact lt_trans ha (of_decide_eq_true (List.mem_filter.mp hb).2)

/-- Insert a key that is not there. -/
def insertNew (t : Table K V) (k : K) (v : V) : Table K V :=
  if (t.find k).isSome then t
  else ⟨t.entries.filter (fun e => e.1 < k) ++ (k, v) :: t.entries.filter fun e => k < e.1,
    t.sorted_insert k v⟩

/-- Change the value of a key, which is inserted with the value `v` if it is not there. -/
def access (t : Table K V) (k : K) (v : V) (f : V → V) : Table K V := (t.insertNew k v).modify k f

theorem entries_modify : (t.modify k f).entries = t.entries.map (update k f) := rfl

theorem entries_erase : (t.erase k).entries = t.entries.filter fun e => e.1 ≠ k := rfl

variable {e : K × V}

theorem eq_of_key {e' : K × V} (h : e ∈ t.entries) (h' : e' ∈ t.entries) (hk : e.1 = e'.1) : e = e' := by
  by_contra hne
  have hp : t.entries.Pairwise fun a b => a.1 ≠ b.1 := t.sorted.imp ne_of_lt
  have : Std.Symm fun a b : K × V => a.1 ≠ b.1 := ⟨fun _ _ h => h.symm⟩
  exact hp.forall h h' hne hk

theorem find_eq_some : t.find k = some v ↔ (k, v) ∈ t.entries := by
  rw [find, Option.map_eq_some_iff]
  constructor
  · rintro ⟨e, he, rfl⟩
    have hk : e.1 = k := by simpa using List.find?_some he
    rw [← hk]
    exact List.mem_of_find?_eq_some he
  · intro h
    cases hf : t.entries.find? fun e => e.1 = k with
    | none =>
        rw [List.find?_eq_none] at hf
        exact absurd (hf _ h) (by simp)
    | some e =>
        have hk : e.1 = k := by simpa using List.find?_some hf
        rw [t.eq_of_key (List.mem_of_find?_eq_some hf) h hk]
        exact ⟨_, rfl, rfl⟩

theorem find_eq_none : t.find k = none ↔ ∀ v, (k, v) ∉ t.entries := by
  rw [Option.eq_none_iff_forall_ne_some]
  simp only [ne_eq, find_eq_some]

/-- The first entry with a property has the least key. -/
theorem find?_first {q : K × V → Bool} :
    t.entries.find? q = some e ↔ e ∈ t.entries ∧ q e = true ∧ ∀ e' ∈ t.entries, q e' = true → e.1 ≤ e'.1 := by
  have hleast {e : K × V} (h : t.entries.find? q = some e) : ∀ e' ∈ t.entries, q e' = true → e.1 ≤ e'.1 := by
    obtain ⟨-, before, after, hentries, hnot⟩ := List.find?_eq_some_iff_append.mp h
    intro e' he' hq
    rw [hentries, List.mem_append, List.mem_cons] at he'
    rcases he' with hbefore | rfl | hafter
    · have hfalse := hnot e' hbefore
      rw [hq] at hfalse
      exact absurd hfalse (by decide)
    · exact le_rfl
    · have hsorted := t.sorted
      rw [hentries, List.pairwise_append] at hsorted
      exact (List.rel_of_pairwise_cons hsorted.2.1 hafter).le
  constructor
  · exact fun h => ⟨List.mem_of_find?_eq_some h, List.find?_some h, hleast h⟩
  rintro ⟨hmem, hq, hfirst⟩
  cases hf : t.entries.find? q with
  | none => exact absurd hq (List.find?_eq_none.mp hf e hmem)
  | some e' =>
      have hmem' := List.mem_of_find?_eq_some hf
      have hle := hleast hf e hmem hq
      rw [t.eq_of_key hmem' hmem (le_antisymm hle (hfirst e' hmem' (List.find?_some hf)))]

theorem mem_keys : k ∈ t.keys ↔ (t.find k).isSome = true := by
  rw [keys, List.mem_map, Option.isSome_iff_exists]
  simp only [find_eq_some]
  constructor
  · rintro ⟨e, he, rfl⟩
    exact ⟨e.2, he⟩
  · rintro ⟨v, hv⟩
    exact ⟨(k, v), hv, rfl⟩

theorem keys_nodup (t : Table K V) : t.keys.Nodup := by
  rw [keys, List.Nodup, List.pairwise_map]
  exact t.sorted.imp ne_of_lt

theorem find_modify : (t.modify k f).find k' = if k' = k then (t.find k').map f else t.find k' := by
  apply Option.ext
  intro v
  rw [find_eq_some, modify, List.mem_map]
  split
  · next h =>
      subst h
      rw [Option.map_eq_some_iff]
      constructor
      · rintro ⟨e, he, heq⟩
        have hk : e.1 = k' := (update_fst k' f e).symm.trans (congrArg Prod.fst heq)
        rw [update, if_pos hk] at heq
        refine ⟨e.2, ?_, congrArg Prod.snd heq⟩
        rw [find_eq_some, ← hk]
        exact he
      · rintro ⟨w, hw, rfl⟩
        refine ⟨(k', w), find_eq_some.mp hw, ?_⟩
        rw [update, if_pos rfl]
  · next h =>
      rw [find_eq_some]
      constructor
      · rintro ⟨e, he, heq⟩
        have hk : e.1 = k' := (update_fst k f e).symm.trans (congrArg Prod.fst heq)
        rw [update, if_neg (by rw [hk]; exact h)] at heq
        rwa [← heq]
      · intro hv
        refine ⟨(k', v), hv, ?_⟩
        rw [update, if_neg h]

@[simp] theorem find_modify_self : (t.modify k f).find k = (t.find k).map f := by
  rw [find_modify, if_pos rfl]

theorem find_modify_of_ne (h : k' ≠ k) : (t.modify k f).find k' = t.find k' := by
  rw [find_modify, if_neg h]

@[simp] theorem keys_modify : (t.modify k f).keys = t.keys := by
  rw [keys, modify, List.map_map]
  apply List.map_congr_left
  intro e _
  exact update_fst k f e

theorem modify_modify {g : V → V} : (t.modify k f).modify k g = t.modify k fun v => g (f v) := by
  have h : ((t.modify k f).modify k g).entries = (t.modify k fun v => g (f v)).entries := by
    rw [entries_modify, entries_modify, entries_modify, List.map_map]
    apply List.map_congr_left
    intro e _
    rw [Function.comp_apply]
    by_cases hk : e.1 = k
    · simp only [update, hk, if_true]
    · simp only [update, hk, if_false]
  cases hl : (t.modify k f).modify k g
  cases hr : t.modify k fun v => g (f v)
  rw [hl, hr] at h
  congr

theorem find_erase : (t.erase k).find k' = if k' = k then none else t.find k' := by
  apply Option.ext
  intro v
  rw [find_eq_some, erase, List.mem_filter]
  split
  · next h => simp [h]
  · next h => simp [h, find_eq_some]

theorem find_insertNew (h : t.find k = none) :
    (t.insertNew k v).find k' = if k' = k then some v else t.find k' := by
  apply Option.ext
  intro w
  rw [find_eq_some, insertNew, h]
  simp only [Option.isSome_none, Bool.false_eq_true, if_false, List.mem_append, List.mem_cons,
    List.mem_filter, decide_eq_true_eq, Prod.mk.injEq]
  split
  · next hk =>
      subst hk
      simp [eq_comm]
  rename_i hk
  rw [find_eq_some]
  constructor
  · rintro (⟨hw, -⟩ | ⟨hk', -⟩ | ⟨hw, -⟩)
    · exact hw
    · exact absurd hk' hk
    · exact hw
  · intro hw
    rcases lt_or_gt_of_ne hk with hlt | hgt
    · exact .inl ⟨hw, hlt⟩
    · exact .inr (.inr ⟨hw, hgt⟩)

theorem find_of_mem (h : e ∈ t.entries) : t.find e.1 = some e.2 := find_eq_some.mpr h

theorem mem_lowerBound (h : t.lowerBound k = some e) : t.find e.1 = some e.2 ∧ k ≤ e.1 :=
  ⟨find_of_mem (List.mem_of_find?_eq_some h), of_decide_eq_true (List.find?_eq_some_iff_append.mp h).1⟩

/-- No key stands between `k` and its lower bound. -/
theorem lowerBound_le (h : t.lowerBound k = some e) (hk : t.find k' = some v) (hle : k ≤ k') :
    e.1 ≤ k' := by
  obtain ⟨-, A, B, heq, hA⟩ := List.find?_eq_some_iff_append.mp h
  have hs := t.sorted
  have hmem := find_eq_some.mp hk
  rw [heq] at hs hmem
  rcases List.mem_append.mp hmem with hmem | hmem
  · exact absurd hle (by simpa using hA _ hmem)
  · rcases List.mem_cons.mp hmem with heq | hmem
    · exact le_of_eq (congrArg Prod.fst heq).symm
    · exact le_of_lt ((List.pairwise_cons.mp (List.pairwise_append.mp hs).2.1).1 _ hmem)

theorem lowerBound_eq_none (h : t.lowerBound k = none) (hk : t.find k' = some v) : k' < k := by
  rw [lowerBound, List.find?_eq_none] at h
  simpa using h _ (find_eq_some.mp hk)

theorem mem_previous (h : t.previous k = some e) : t.find e.1 = some e.2 ∧ e.1 < k := by
  have hmem := List.mem_filter.mp (List.mem_of_getLast? h)
  exact ⟨find_of_mem hmem.1, of_decide_eq_true hmem.2⟩

theorem le_previous (h : t.previous k = some e) (hk : t.find k' = some v) (hlt : k' < k) : k' ≤ e.1 := by
  have hmem : (k', v) ∈ t.entries.filter fun e => e.1 < k :=
    List.mem_filter.mpr ⟨find_eq_some.mp hk, decide_eq_true hlt⟩
  obtain ⟨A, hA⟩ := List.getLast?_eq_some_iff.mp h
  have hs := t.sorted.filter fun e => decide (e.1 < k)
  rw [hA] at hs hmem
  rcases List.mem_append.mp hmem with hmem | hmem
  · exact le_of_lt ((List.pairwise_append.mp hs).2.2 _ hmem e (List.mem_singleton.mpr rfl))
  · exact le_of_eq (congrArg Prod.fst (List.mem_singleton.mp hmem))

theorem previous_eq_none (h : t.previous k = none) (hk : t.find k' = some v) : k ≤ k' := by
  rw [previous, List.getLast?_eq_none_iff, List.filter_eq_nil_iff] at h
  simpa using h _ (find_eq_some.mp hk)

theorem insertNew_of_mem (h : t.find k = some v) {w : V} : t.insertNew k w = t := by
  rw [insertNew, h]
  rfl

theorem find_access : (t.access k v f).find k' = if k' = k then some (f ((t.find k).getD v)) else t.find k' := by
  rw [access, find_modify]
  cases hfind : t.find k with
  | none =>
      rw [find_insertNew hfind]
      split_ifs
      · rfl
      · rfl
  | some w =>
      rw [insertNew_of_mem hfind]
      split_ifs with hk
      · rw [hk, hfind]
        rfl
      · rfl

/-- A table is cut at one of its keys. -/
theorem exists_split (h : t.find k = some v) :
    ∃ A B, t.entries = A ++ (k, v) :: B ∧ (∀ e ∈ A, e.1 ≠ k) ∧ ∀ e ∈ B, e.1 ≠ k := by
  obtain ⟨A, B, heq⟩ := List.append_of_mem (find_eq_some.mp h)
  have hs := t.sorted
  rw [heq, List.pairwise_append, List.pairwise_cons] at hs
  refine ⟨A, B, heq, ?_, ?_⟩
  · intro e he
    exact ne_of_lt (hs.2.2 e he _ List.mem_cons_self)
  · intro e he
    exact (ne_of_lt (hs.2.1.1 e he)).symm

theorem count_modify (h : t.find k = some v) :
    (t.modify k f).count p + (if p v then 1 else 0) = t.count p + if p (f v) then 1 else 0 := by
  obtain ⟨A, B, heq, hA, hB⟩ := exists_split h
  have hid : ∀ L : List (K × V), (∀ e ∈ L, e.1 ≠ k) → L.map (update k f) = L := by
    intro L hL
    conv_rhs => rw [← List.map_id L]
    apply List.map_congr_left
    intro e he
    rw [update, if_neg (hL e he)]
    rfl
  have hself : update k f (k, v) = (k, f v) := if_pos rfl
  rw [count, count, entries_modify, heq, List.map_append, List.map_cons, hid A hA, hid B hB, hself]
  simp only [List.countP_append, List.countP_cons]
  omega

theorem count_modify_of_eq (h : ∀ v, t.find k = some v → p (f v) = p v) : (t.modify k f).count p = t.count p := by
  cases hv : t.find k with
  | some v =>
      have := count_modify (p := p) (f := f) hv
      rw [h v hv] at this
      omega
  | none =>
      rw [count, count, modify, List.countP_map]
      refine List.countP_congr fun e he => ?_
      have hne : e.1 ≠ k := fun hk => find_eq_none.mp hv e.2 (hk ▸ he)
      rw [Function.comp_apply, update, if_neg hne]

theorem count_erase (h : t.find k = some v) :
    (t.erase k).count p + (if p v then 1 else 0) = t.count p := by
  obtain ⟨A, B, heq, hA, hB⟩ := exists_split h
  have hid : ∀ L : List (K × V), (∀ e ∈ L, e.1 ≠ k) → (L.filter fun e => e.1 ≠ k) = L := by
    intro L hL
    rw [List.filter_eq_self]
    intro e he
    exact decide_eq_true (hL e he)
  rw [count, count, entries_erase, heq, List.filter_append, List.filter_cons, hid A hA, hid B hB,
    if_neg (by simp)]
  simp only [List.countP_append, List.countP_cons]
  omega

theorem count_insertNew (h : t.find k = none) :
    (t.insertNew k v).count p = t.count p + if p v then 1 else 0 := by
  have hne : ∀ e ∈ t.entries, e.1 ≠ k := fun e he hk => find_eq_none.mp h e.2 (hk ▸ he)
  have hsplit : ∀ L : List (K × V), (∀ e ∈ L, e.1 ≠ k) →
      (L.filter fun e => e.1 < k).countP (fun e => p e.2) +
        (L.filter fun e => k < e.1).countP (fun e => p e.2) = L.countP fun e => p e.2 := by
    intro L
    induction L with
    | nil => exact fun _ => rfl
    | cons e L ih =>
        intro hL
        rw [List.forall_mem_cons] at hL
        have ih := ih hL.2
        rcases lt_or_gt_of_ne hL.1 with hlt | hgt
        · rw [List.filter_cons_of_pos (by simpa using hlt),
            List.filter_cons_of_neg (by simpa using le_of_lt hlt), List.countP_cons, List.countP_cons]
          omega
        · rw [List.filter_cons_of_neg (by simpa using le_of_lt hgt),
            List.filter_cons_of_pos (by simpa using hgt), List.countP_cons, List.countP_cons]
          omega
  rw [count, count, insertNew, h]
  simp only [Option.isSome_none, Bool.false_eq_true, if_false, List.countP_append, List.countP_cons]
  have := hsplit t.entries hne
  omega

theorem count_pos : 0 < t.count p ↔ ∃ k v, t.find k = some v ∧ p v = true := by
  rw [count, List.countP_pos_iff]
  simp only [find_eq_some]
  constructor
  · rintro ⟨e, he, hp⟩
    exact ⟨e.1, e.2, he, hp⟩
  · rintro ⟨k, v, he, hp⟩
    exact ⟨(k, v), he, hp⟩

end Table

end IdaSdk
