import Mathlib.Data.List.Pairwise
import Mathlib.Data.List.TakeWhile
import Mathlib.Tactic.Linarith

/-!
Lists that are strictly sorted by a key under a strict weak order, and what a linear scan of such a
list finds. Keys that neither precede the other are equivalent; they need not be equal.
-/

namespace IdaSdk.SortedList

/-- The requirements on a comparator. -/
structure StrictWeakOrder {K : Type*} (lt : K → K → Bool) : Prop where
  irrefl (a : K) : lt a a = false
  trans {a b c : K} : lt a b = true → lt b c = true → lt a c = true
  incomp_trans {a b c : K} : lt a b = false → lt b a = false → lt b c = false → lt c b = false →
    lt a c = false ∧ lt c a = false

def equiv {K : Type*} (lt : K → K → Bool) (a b : K) : Bool := !lt a b && !lt b a

namespace StrictWeakOrder

variable {K : Type*} {lt : K → K → Bool} {a b c : K}

theorem asymm (o : StrictWeakOrder lt) (h : lt a b = true) : lt b a = false := by
  cases hba : lt b a with
  | false => rfl
  | true =>
      have := o.trans h hba
      rw [o.irrefl] at this
      exact absurd this (by decide)

theorem negTrans (o : StrictWeakOrder lt) (hab : lt a b = false) (hbc : lt b c = false) : lt a c = false := by
  cases hac : lt a c with
  | false => rfl
  | true =>
      have hba : lt b a = false := by
        cases h : lt b a with
        | false => rfl
        | true => rw [o.trans h hac] at hbc; exact absurd hbc (by decide)
      have hcb : lt c b = false := by
        cases h : lt c b with
        | false => rfl
        | true => rw [o.trans hac h] at hab; exact absurd hab (by decide)
      rw [(o.incomp_trans hab hba hbc hcb).1] at hac
      exact absurd hac (by decide)

theorem lt_of_lt_of_not_lt (o : StrictWeakOrder lt) (hab : lt a b = true) (hcb : lt c b = false) :
    lt a c = true := by
  cases hac : lt a c with
  | true => rfl
  | false => rw [o.negTrans hac hcb] at hab; exact absurd hab (by decide)

theorem lt_of_not_lt_of_lt (o : StrictWeakOrder lt) (hba : lt b a = false) (hbc : lt b c = true) :
    lt a c = true := by
  cases hac : lt a c with
  | true => rfl
  | false => rw [o.negTrans hba hac] at hbc; exact absurd hbc (by decide)

end StrictWeakOrder

variable {V K : Type*}

def SortedBy (lt : K → K → Bool) (key : V → K) (L : List V) : Prop :=
  L.Pairwise fun a b => lt (key a) (key b) = true

/-- The element with a key equivalent to `k`. -/
def scanFind (lt : K → K → Bool) (key : V → K) (k : K) (L : List V) : Option V :=
  L.find? fun v => equiv lt (key v) k

/-- The first element that does not precede `k`. -/
def scanLowerBound (lt : K → K → Bool) (key : V → K) (k : K) (L : List V) : Option V :=
  L.find? fun v => !lt (key v) k

/-- The first element that `k` precedes. -/
def scanUpperBound (lt : K → K → Bool) (key : V → K) (k : K) (L : List V) : Option V :=
  L.find? fun v => lt k (key v)

def insertSorted (lt : K → K → Bool) (key : V → K) (v : V) (L : List V) : List V :=
  L.takeWhile (fun u => lt (key u) (key v)) ++ v :: L.dropWhile (fun u => lt (key u) (key v))

/-- Insertion that keeps an element with an equivalent key. -/
def insertIfAbsent (lt : K → K → Bool) (key : V → K) (v : V) (L : List V) : List V :=
  if (scanFind lt key (key v) L).isNone then insertSorted lt key v L else L

def eraseKey (lt : K → K → Bool) (key : V → K) (k : K) (L : List V) : List V :=
  L.filter fun v => !equiv lt (key v) k

/-- Replaces the element with a key equivalent to `k`. -/
def updateKey (lt : K → K → Bool) (key : V → K) (k : K) (f : V → V) (L : List V) : List V :=
  L.map fun v => if equiv lt (key v) k then f v else v

/-- Insertion of `v` that updates an element with an equivalent key instead. -/
def insertOrUpdate (lt : K → K → Bool) (key : V → K) (v : V) (f : V → V) (L : List V) : List V :=
  if (scanFind lt key (key v) L).isNone then insertSorted lt key v L else updateKey lt key (key v) f L

/-- `k` separates `A` from `B`. -/
structure Between (lt : K → K → Bool) (key : V → K) (A : List V) (k : K) (B : List V) : Prop where
  below : ∀ a ∈ A, lt (key a) k = true
  above : ∀ b ∈ B, lt k (key b) = true

section
variable {lt : K → K → Bool} {key : V → K} {A B L : List V} {v : V} {k : K}

theorem SortedBy.between (h : SortedBy lt key (A ++ v :: B)) : Between lt key A (key v) B := by
  obtain ⟨-, hv, hAB⟩ := List.pairwise_append.mp h
  exact ⟨fun a ha => hAB a ha v (by simp), (List.pairwise_cons.mp hv).1⟩

theorem Between.map {U : Type*} (f : U → V) {A B : List U} (h : Between lt (fun x => key (f x)) A k B) :
    Between lt key (A.map f) k (B.map f) :=
  ⟨List.forall_mem_map.mpr h.below, List.forall_mem_map.mpr h.above⟩

theorem Between.insertSorted_eq (o : StrictWeakOrder lt) (h : Between lt key A (key v) B) :
    insertSorted lt key v (A ++ B) = A ++ v :: B := by
  have htake : (A ++ B).takeWhile (fun u => lt (key u) (key v)) = A := by
    rw [List.takeWhile_append_of_pos h.below]
    cases B with
    | nil => simp
    | cons b B => simp [o.asymm (h.above b (by simp))]
  have hdrop : (A ++ B).dropWhile (fun u => lt (key u) (key v)) = B := by
    rw [List.dropWhile_append_of_pos h.below]
    cases B with
    | nil => simp
    | cons b B => simp [o.asymm (h.above b (by simp))]
  rw [insertSorted, htake, hdrop]

theorem Between.sortedBy_insert (h : Between lt key A (key v) B) (hs : SortedBy lt key (A ++ B)) :
    SortedBy lt key (A ++ v :: B) := by
  obtain ⟨hA, hB, hAB⟩ := List.pairwise_append.mp hs
  refine List.pairwise_append.mpr ⟨hA, List.pairwise_cons.mpr ⟨h.above, hB⟩, fun a ha b hb => ?_⟩
  rcases List.mem_cons.mp hb with rfl | hb
  · exact h.below a ha
  · exact hAB a ha b hb

theorem SortedBy.remove (hs : SortedBy lt key (A ++ v :: B)) : SortedBy lt key (A ++ B) := by
  refine List.Pairwise.sublist ?_ hs
  exact List.Sublist.append_left (List.sublist_cons_self v B) A

theorem Between.scanFind_eq_none (h : Between lt key A k B) :
    scanFind lt key k (A ++ B) = none := by
  rw [scanFind, List.find?_eq_none]
  intro u hu
  rcases List.mem_append.mp hu with hu | hu
  · simp [equiv, h.below u hu]
  · simp [equiv, h.above u hu]

theorem SortedBy.scanFind_eq_some (o : StrictWeakOrder lt) (hs : SortedBy lt key (A ++ v :: B))
    (h : equiv lt (key v) k = true) : scanFind lt key k (A ++ v :: B) = some v := by
  have hb := hs.between
  simp only [equiv, Bool.and_eq_true, Bool.not_eq_true'] at h
  have hA : ∀ a ∈ A, ¬ equiv lt (key a) k = true := by
    intro a ha
    simp [equiv, o.lt_of_lt_of_not_lt (hb.below a ha) h.2]
  rw [scanFind, List.find?_append, List.find?_eq_none.mpr hA]
  simp [equiv, h.1, h.2]

theorem SortedBy.not_equiv (o : StrictWeakOrder lt) (hs : SortedBy lt key (A ++ v :: B))
    (h : equiv lt (key v) k = true) :
    (∀ a ∈ A, equiv lt (key a) k = false) ∧ ∀ b ∈ B, equiv lt (key b) k = false := by
  have hb := hs.between
  simp only [equiv, Bool.and_eq_true, Bool.not_eq_true'] at h
  refine ⟨fun a ha => ?_, fun b hb' => ?_⟩
  · simp [equiv, o.lt_of_lt_of_not_lt (hb.below a ha) h.2]
  · simp [equiv, o.lt_of_not_lt_of_lt h.1 (hb.above b hb')]

theorem SortedBy.updateKey_eq (o : StrictWeakOrder lt) (hs : SortedBy lt key (A ++ v :: B))
    (h : equiv lt (key v) k = true) (f : V → V) : updateKey lt key k f (A ++ v :: B) = A ++ f v :: B := by
  obtain ⟨hA, hB⟩ := hs.not_equiv o h
  have hA' : A.map (fun u => if equiv lt (key u) k then f u else u) = A := by
    refine (List.map_congr_left fun a ha => ?_).trans (List.map_id A)
    rw [hA a ha, if_neg (by decide), id]
  have hB' : B.map (fun u => if equiv lt (key u) k then f u else u) = B := by
    refine (List.map_congr_left fun b hb => ?_).trans (List.map_id B)
    rw [hB b hb, if_neg (by decide), id]
  rw [updateKey, List.map_append, List.map_cons, hA', hB', if_pos h]


theorem SortedBy.eraseKey_eq (o : StrictWeakOrder lt) (hs : SortedBy lt key (A ++ v :: B))
    (h : equiv lt (key v) k = true) : eraseKey lt key k (A ++ v :: B) = A ++ B := by
  obtain ⟨hA, hB⟩ := hs.not_equiv o h
  have hA' : A.filter (fun u => !equiv lt (key u) k) = A := by
    rw [List.filter_eq_self]
    intro a ha
    rw [hA a ha]
    rfl
  have hB' : B.filter (fun u => !equiv lt (key u) k) = B := by
    rw [List.filter_eq_self]
    intro b hb
    rw [hB b hb]
    rfl
  rw [eraseKey, List.filter_append, List.filter_cons, hA', hB', h]
  rfl

theorem eraseKey_eq_self (h : scanFind lt key k L = none) : eraseKey lt key k L = L := by
  rw [scanFind, List.find?_eq_none] at h
  rw [eraseKey, List.filter_eq_self]
  intro v hv
  simpa using h v hv

/-- A key after the last element is after all of them. -/
theorem SortedBy.below_of_last (o : StrictWeakOrder lt) (hs : SortedBy lt key L)
    (hlast : ∀ y, L.getLast? = some y → lt (key y) k = true) : ∀ a ∈ L, lt (key a) k = true := by
  intro a ha
  rcases L.eq_nil_or_concat with rfl | ⟨A, y, rfl⟩
  · simp at ha
  rw [List.concat_eq_append] at *
  have hy := hlast y (by simp)
  rcases List.mem_append.mp ha with ha | ha
  · exact o.trans ((List.pairwise_append.mp hs).2.2 a ha y (by simp)) hy
  · rw [List.mem_singleton.mp ha]
    exact hy

/-- A key before the first element is before all of them. -/
theorem SortedBy.above_of_head (o : StrictWeakOrder lt) (hs : SortedBy lt key L)
    (hhead : ∀ y, L.head? = some y → lt k (key y) = true) : ∀ a ∈ L, lt k (key a) = true := by
  intro a ha
  cases L with
  | nil => simp at ha
  | cons y L =>
      have hy := hhead y rfl
      rcases List.mem_cons.mp ha with rfl | ha
      · exact hy
      · exact o.trans hy ((List.pairwise_cons.mp hs).1 a ha)

theorem SortedBy.scanFind_append (o : StrictWeakOrder lt) (hs : SortedBy lt key (A ++ v :: B)) (k : K) :
    scanFind lt key k (A ++ v :: B) =
      if lt k (key v) then scanFind lt key k A else if lt (key v) k then scanFind lt key k B else some v := by
  cases hlt : lt k (key v) with
  | true =>
      have hvB : (v :: B).find? (fun u => equiv lt (key u) k) = none := by
        rw [List.find?_eq_none]
        intro b hb
        rcases List.mem_cons.mp hb with rfl | hb
        · simp [equiv, hlt]
        · simp [equiv, o.trans hlt (hs.between.above b hb)]
      simp [scanFind, List.find?_append, hvB]
  | false =>
      cases hgt : lt (key v) k with
      | true =>
          have hA : A.find? (fun u => equiv lt (key u) k) = none := by
            rw [List.find?_eq_none]
            intro a ha
            simp [equiv, o.trans (hs.between.below a ha) hgt]
          rw [scanFind, List.find?_append, hA, List.find?_cons]
          simp [scanFind, equiv, hgt]
      | false => simpa using hs.scanFind_eq_some o (by simp [equiv, hlt, hgt])

/-- For a predicate that stays true along the list, the first match is found by bisection. -/
theorem find?_append_of_mono {p : V → Bool} (h : (A ++ v :: B).Pairwise fun a b => p a = true → p b = true) :
    (A ++ v :: B).find? p = if p v then (A.find? p).or (some v) else B.find? p := by
  rw [List.find?_append, List.find?_cons]
  cases hv : p v with
  | true => simp
  | false =>
      have hA : A.find? p = none := by
        rw [List.find?_eq_none]
        intro a ha hpa
        have hpv := (List.pairwise_append.mp h).2.2 a ha v (by simp) hpa
        rw [hv] at hpv
        exact absurd hpv (by decide)
      simp [hA]

theorem SortedBy.mono_lower (o : StrictWeakOrder lt) (hs : SortedBy lt key L) (k : K) :
    L.Pairwise fun a b => (!lt (key a) k) = true → (!lt (key b) k) = true := by
  refine hs.imp fun {a b} hab ha => ?_
  rw [Bool.not_eq_true'] at ha ⊢
  rw [Bool.eq_false_iff]
  intro hb
  rw [o.trans hab hb] at ha
  exact absurd ha (by decide)

theorem SortedBy.mono_upper (o : StrictWeakOrder lt) (hs : SortedBy lt key L) (k : K) :
    L.Pairwise fun a b => lt k (key a) = true → lt k (key b) = true :=
  hs.imp fun hab ha => o.trans ha hab

end

end IdaSdk.SortedList
