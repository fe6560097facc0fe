import Mathlib.Data.List.Sort

/-!
`std::sort` followed by `std::unique`, for elements that are compared by a key. The result is strictly
sorted, has elements of the list only, and has one for every key of the list.
-/

namespace IdaSdk.SortUnique

variable {α κ : Type}

/-- `std::unique` when `a` is the last element that was kept. -/
def uniqueFrom (eq : α → α → Bool) (a : α) : List α → List α
  | [] => [a]
  | b :: l => if eq a b then uniqueFrom eq a l else a :: uniqueFrom eq b l

def unique (eq : α → α → Bool) : List α → List α
  | [] => []
  | a :: l => uniqueFrom eq a l

def sortUnique (lt eq : α → α → Bool) (l : List α) : List α :=
  unique eq (l.mergeSort fun a b => !lt b a)

/-- The comparisons look at the key only. -/
structure ByKey [LinearOrder κ] (key : α → κ) (lt eq : α → α → Bool) : Prop where
  lt_iff : ∀ a b, lt a b = true ↔ key a < key b
  eq_iff : ∀ a b, eq a b = true ↔ key a = key b

variable [LinearOrder κ] {key : α → κ} {lt eq : α → α → Bool}

namespace ByKey

theorem exists_uniqueFrom (h : ByKey key lt eq) {a x : α} {l : List α} (hx : x = a ∨ x ∈ l) :
    ∃ y ∈ uniqueFrom eq a l, key y = key x := by
  induction l generalizing a x with
  | nil =>
      obtain rfl : x = a := by simpa using hx
      exact ⟨x, by simp [uniqueFrom], rfl⟩
  | cons b l ih =>
      rw [uniqueFrom]
      split
      · rename_i hab
        rcases hx with rfl | hx
        · exact ih (.inl rfl)
        · rcases List.mem_cons.mp hx with rfl | hx
          · obtain ⟨y, hy, hkey⟩ := @ih a a (.inl rfl)
            exact ⟨y, hy, hkey.trans ((h.eq_iff a x).mp hab)⟩
          · exact ih (.inr hx)
      · rcases hx with rfl | hx
        · exact ⟨x, List.mem_cons_self, rfl⟩
        · obtain ⟨y, hy, hkey⟩ := ih (List.mem_cons.mp hx)
          exact ⟨y, List.mem_cons_of_mem a hy, hkey⟩

/-- Every key of the list has an element. -/
theorem exists_sortUnique (h : ByKey key lt eq) {l : List α} {x : α} (hx : x ∈ l) :
    ∃ y ∈ sortUnique lt eq l, key y = key x := by
  have hx : x ∈ l.mergeSort fun a b => !lt b a := List.mem_mergeSort.mpr hx
  unfold sortUnique
  cases hl : l.mergeSort fun a b => !lt b a with
  | nil =>
      rw [hl] at hx
      cases hx
  | cons a l' =>
      rw [hl] at hx
      exact h.exists_uniqueFrom (List.mem_cons.mp hx)

end ByKey

end IdaSdk.SortUnique
