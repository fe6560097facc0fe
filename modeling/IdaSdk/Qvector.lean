import IdaSdk.QvectorModel
import Mathlib.Data.List.GetD
import Mathlib.Data.List.Induction

/-!
A vector refines the list of its elements, whichever way its elements are moved. The exception is the removal of no
elements before the end of a vector whose elements are moved one by one.
-/

namespace IdaSdk.Qvec
open LibSlots Outcomes

variable {T : Type} {e : Element T} {m : Allocator} {v v' : Qvector T} {l xs ys zs : List T} {a b : Slots T}
  {i k n idx cnt dst src : Nat} {x : T}

variable {g : Nat}

theorem moveOne_down (hdst : dst = a.length) (hsrc : src = a.length + g + 1) :
    moveOne (a ++ (dead (g + 1) ++ some x :: b)) dst src = some (a ++ some x :: (dead (g + 1) ++ b)) := by
  have hlast : a ++ (dead (g + 1) ++ some x :: b) = (a ++ dead (g + 1)) ++ some x :: b := (List.append_assoc ..).symm
  have hread : read (a ++ (dead (g + 1) ++ some x :: b)) src = some x := by
    rw [hlast]
    exact read_mid (by rw [List.length_append, dead_length]; omega)
  have hmid : a ++ some x :: (dead g ++ some x :: b) = (a ++ some x :: dead g) ++ some x :: b := by simp
  rw [moveOne, hread, Option.bind_eq_bind, Option.bind_some, dead_succ, List.cons_append, construct_mid hdst,
    Option.bind_eq_bind, Option.bind_some, hmid,
    destroy_mid (by simp only [List.length_append, List.length_cons, dead_length]; omega)]
  have hgap : dead g ++ none :: b = none :: (dead g ++ b) := by
    have hdead : dead g ++ (dead 1 ++ b) = dead 1 ++ (dead g ++ b) := by
      rw [← List.append_assoc, ← dead_add, Nat.add_comm, dead_add, List.append_assoc]
    exact hdead
  rw [List.append_assoc, List.cons_append, hgap]
  rfl

theorem shiftDownLoop_down (hdst : dst = a.length) (hsrc : src = a.length + g + 1) (hcnt : cnt = xs.length) :
    shiftDownLoop (a ++ (dead (g + 1) ++ (live xs ++ b))) dst src cnt =
      some (a ++ (live xs ++ (dead (g + 1) ++ b))) := by
  induction xs generalizing a dst src cnt with
  | nil =>
      subst hcnt
      rfl
  | cons x xs ih =>
      subst hcnt
      have hnext : a ++ some x :: (dead (g + 1) ++ (live xs ++ b)) =
          (a ++ [some x]) ++ (dead (g + 1) ++ (live xs ++ b)) := by simp
      rw [List.length_cons, shiftDownLoop, live_cons, List.cons_append, moveOne_down hdst hsrc, Option.bind_eq_bind,
        Option.bind_some, hnext, ih (by simp; omega) (by simp; omega) rfl]
      simp

theorem shift_down_spec (hgap : e.may_move_bytes = true ∨ g ≠ 0 ∨ xs = []) (hdst : dst = a.length)
    (hsrc : src = a.length + g) (hcnt : cnt = xs.length) :
    shift_down e (a ++ (dead g ++ (live xs ++ b))) dst src cnt = some (a ++ (live xs ++ (dead g ++ b))) := by
  unfold shift_down
  split
  · exact relocate_down hdst hsrc hcnt
  rename_i hmovable
  cases hgap with
  | inl h => exact absurd h hmovable
  | inr hgap =>
      cases hgap with
      | inl hg =>
          obtain ⟨g, rfl⟩ := Nat.exists_eq_succ_of_ne_zero hg
          exact shiftDownLoop_down hdst hsrc hcnt
      | inr hnil =>
          subst hnil
          subst hcnt
          rfl

theorem moveOne_up (hsrc : src = a.length) (hdst : dst = a.length + g + 1) :
    moveOne (a ++ some x :: (dead (g + 1) ++ b)) dst src = some (a ++ (dead (g + 1) ++ some x :: b)) := by
  have hgap : dead (g + 1) ++ b = dead g ++ none :: b := by
    rw [dead_add, List.append_assoc]
    rfl
  have hmid : a ++ some x :: (dead g ++ none :: b) = (a ++ some x :: dead g) ++ none :: b := by simp
  have hfirst : (a ++ some x :: dead g) ++ some x :: b = a ++ some x :: (dead g ++ some x :: b) := by simp
  rw [moveOne, read_mid hsrc, Option.bind_eq_bind, Option.bind_some, hgap, hmid,
    construct_mid (by simp only [List.length_append, List.length_cons, dead_length]; omega), Option.bind_eq_bind,
    Option.bind_some, hfirst, destroy_mid hsrc]
  rfl

theorem shiftUpLoop_up (hsrc : src = a.length) (hdst : dst = a.length + g + 1) (hcnt : cnt = xs.length) :
    shiftUpLoop (a ++ (live xs ++ (dead (g + 1) ++ b))) dst src cnt =
      some (a ++ (dead (g + 1) ++ (live xs ++ b))) := by
  induction xs using List.reverseRecOn generalizing b cnt with
  | nil =>
      subst hcnt
      rfl
  | append_singleton xs x ih =>
      subst hcnt
      have hlast : a ++ (live (xs ++ [x]) ++ (dead (g + 1) ++ b)) =
          (a ++ live xs) ++ some x :: (dead (g + 1) ++ b) := by simp
      have hrest : (a ++ live xs) ++ (dead (g + 1) ++ some x :: b) = a ++ (live xs ++ (dead (g + 1) ++ some x :: b)) :=
        List.append_assoc ..
      rw [List.length_append, List.length_singleton, shiftUpLoop, hlast,
        moveOne_up (by rw [List.length_append, live_length, hsrc])
          (by rw [List.length_append, live_length, hdst]; omega),
        Option.bind_eq_bind, Option.bind_some, hrest, ih rfl]
      simp

theorem shift_up_spec (hgap : g ≠ 0) (hsrc : src = a.length) (hdst : dst = a.length + g)
    (hcnt : cnt = xs.length) :
    shift_up e (a ++ (live xs ++ (dead g ++ b))) dst src cnt = some (a ++ (dead g ++ (live xs ++ b))) := by
  unfold shift_up
  split
  · exact relocate_up hdst hsrc hcnt
  · obtain ⟨g, rfl⟩ := Nat.exists_eq_succ_of_ne_zero hgap
    exact shiftUpLoop_up hsrc hdst hcnt

/-! ### The vector and the list of its elements -/

/-- The elements of the vector are those of the list; the rest of the array is dead. -/
structure Refines (v : Qvector T) (l : List T) : Prop where
  size : v.n = l.length
  fits : v.n ≤ v.alloc
  slots : v.slots = live l ++ dead (v.alloc - v.n)

theorem refines_empty : Refines (Qvector.empty : Qvector T) [] := ⟨rfl, Nat.le_refl _, rfl⟩

theorem Refines.slots_length (h : Refines v l) : v.slots.length = v.alloc := by
  have hsize := h.size
  have hfits := h.fits
  rw [h.slots, List.length_append, live_length, dead_length]
  omega

theorem Refines.slots_room (h : Refines v l) (hk : v.n + k ≤ v.alloc) :
    v.slots = live l ++ (dead k ++ dead (v.alloc - (v.n + k))) := by
  have hsplit : v.alloc - v.n = k + (v.alloc - (v.n + k)) := by omega
  rw [h.slots, hsplit, dead_add]

variable {Q : Qvector T → Prop}

theorem Refines.put {r : Option (Slots T)} {l' : List T} (h : Refines v l)
    (hle : l'.length ≤ v.alloc) (hn : n = l'.length) (hr : r = some (live l' ++ dead (v.alloc - n))) :
    (v.put r n).Ends (Refines · l') Q := by
  subst hr
  refine ⟨hn, by subst hn; exact hle, ?_⟩
  cases harray : v.array with
  | some s => rfl
  | none =>
      -- without an array there are no slots
      have hlength := h.slots_length
      rw [Qvector.slots, harray] at hlength
      have halloc : v.alloc = 0 := hlength.symm
      have hnil : l' = [] := List.length_eq_zero_iff.mp (by omega)
      simp [Qvector.slots, hnil, halloc]

theorem moveArray_spec {new_alloc : Nat} (h : Refines v l) (hn : v.n ≤ new_alloc)
    (hpos : new_alloc ≠ 0) :
    (v.moveArray e new_alloc).Ends (fun v' => Refines v' l ∧ v'.alloc = new_alloc) Q := by
  have hsize := h.size
  have hshift : shift_down e (dead new_alloc ++ v.slots) 0 new_alloc v.n =
      some (live l ++ (dead new_alloc ++ dead (v.alloc - v.n))) := by
    rw [h.slots]
    exact shift_down_spec (a := []) (Or.inr (Or.inl hpos)) rfl (Nat.zero_add new_alloc).symm hsize
  have hsplit : live l ++ (dead new_alloc ++ dead (v.alloc - v.n)) =
      (live l ++ dead (new_alloc - v.n)) ++ (dead v.n ++ dead (v.alloc - v.n)) := by
    have hdead : (dead new_alloc : Slots T) = dead (new_alloc - v.n) ++ dead v.n := by
      rw [← dead_add, Nat.sub_add_cancel hn]
    rw [hdead, List.append_assoc, List.append_assoc]
  have hlength : (live l ++ dead (new_alloc - v.n)).length = new_alloc := by
    rw [List.length_append, live_length, dead_length]
    omega
  unfold Qvector.moveArray
  rw [hshift, hsplit]
  dsimp only
  rw [List.drop_left' hlength, List.take_left' hlength, if_pos (by rw [← dead_add]; exact released_dead)]
  exact ⟨⟨hsize, hn, rfl⟩, rfl⟩

theorem reserve_spec (h : Refines v l) (cnt : Nat) :
    (v.reserve e m cnt).Ends (fun v' => Refines v' l ∧ cnt ≤ v'.alloc) (Refines · l) := by
  have hfits := h.fits
  unfold Qvector.reserve
  split
  · next hless =>
      cases halloc : m.qvector_reserve cnt with
      | none => exact h
      | some new_alloc =>
          have henough := m.enough cnt new_alloc halloc
          dsimp only
          split
          · refine ⟨⟨h.size, by dsimp only; omega, ?_⟩, henough⟩
            have hsplit : new_alloc - v.n = (v.alloc - v.n) + (new_alloc - v.alloc) := by omega
            rw [Qvector.slots, Option.getD_some, h.slots_length, h.slots, hsplit, dead_add, List.append_assoc]
          · refine (moveArray_spec (Q := (Refines · l)) h (by omega) (by omega)).imp (fun v' hv' => ⟨hv'.1, ?_⟩)
              fun _ hv' => hv'
            rw [hv'.2]
            exact henough
  · next hless => exact ⟨h, Nat.le_of_not_lt hless⟩

theorem resize_less_spec (h : Refines v (xs ++ ys)) (hn : n = xs.length) :
    (v.resize_less n).Ends (Refines · xs) Q := by
  have hsize := h.size
  have hfits := h.fits
  rw [List.length_append] at hsize
  refine h.put (by omega) hn ?_
  have hsplit : v.alloc - n = (v.n - n) + (v.alloc - v.n) := by omega
  rw [h.slots, live_append, List.append_assoc, destroyRange_mid (by rw [live_length, hn]) (by omega), hsplit, dead_add]

theorem push_spec (h : Refines v l) (x : T) : (v.push e m x).Ends (Refines · (l ++ [x])) (Refines · l) := by
  refine (reserve_spec h (v.n + 1)).andThen fun v' ⟨h', hroom⟩ => ?_
  have hsize := h.size
  have hsize' := h'.size
  rw [show v.n = v'.n by omega] at hroom
  refine h'.put (by rw [List.length_append, List.length_singleton]; omega) (by simp; omega) ?_
  rw [h'.slots_room hroom, dead_succ, List.cons_append, construct_mid (by rw [live_length]; omega)]
  simp

theorem insertOne_spec (h : Refines v (xs ++ ys)) (hidx : idx = xs.length) (x : T) :
    (v.insertOne e m idx x).Ends (Refines · (xs ++ x :: ys)) (Refines · (xs ++ ys)) := by
  refine (reserve_spec h (v.n + 1)).andThen fun v' ⟨h', hroom⟩ => ?_
  have hsize := h.size
  have hsize' := h'.size
  rw [show v.n = v'.n by omega] at hroom
  rw [List.length_append] at hsize'
  refine h'.put (by simp; omega) (by simp; omega) ?_
  rw [h'.slots_room hroom, live_append, List.append_assoc,
    shift_up_spec (by decide) (by rw [live_length, hidx]) (by rw [live_length, hidx]) (by omega), Option.bind_some,
    dead_succ, List.cons_append, construct_mid (by rw [live_length, hidx])]
  simp

theorem erase_spec (h : Refines v (xs ++ x :: ys)) (hi : i = xs.length) :
    (v.erase e i).Ends (Refines · (xs ++ ys)) Q := by
  have hsize := h.size
  have hfits := h.fits
  rw [List.length_append, List.length_cons] at hsize
  refine h.put (by rw [List.length_append]; omega) (by rw [List.length_append]; omega) ?_
  have hslots : v.slots = live xs ++ some x :: (live ys ++ dead (v.alloc - v.n)) := by
    rw [h.slots]
    simp
  have hshift : shift_down e (live xs ++ (dead 1 ++ (live ys ++ dead (v.alloc - v.n)))) i (i + 1) (v.n - i - 1) =
      some (live xs ++ (live ys ++ (dead 1 ++ dead (v.alloc - v.n)))) :=
    shift_down_spec (Or.inr (Or.inl (by decide))) (by rw [live_length, hi]) (by rw [live_length, hi]) (by omega)
  rw [hslots, destroy_mid (by rw [live_length, hi]), Option.bind_some]
  refine hshift.trans ?_
  have hdead : v.alloc - (v.n - 1) = 1 + (v.alloc - v.n) := by omega
  rw [hdead, dead_add, live_append, List.append_assoc]

theorem erase_range_spec {first last : Nat} (h : Refines v (xs ++ (zs ++ ys)))
    (hfirst : first = xs.length) (hlast : last = first + zs.length)
    (hmoves : e.may_move_bytes = true ∨ zs ≠ [] ∨ ys = []) :
    (v.erase_range e first last).Ends (Refines · (xs ++ ys)) Q := by
  have hsize := h.size
  have hfits := h.fits
  rw [List.length_append, List.length_append] at hsize
  have hn : v.n - (last - first) = (xs ++ ys).length := by
    rw [List.length_append]
    omega
  refine h.put (by omega) hn ?_
  have hslots : v.slots = live xs ++ (live zs ++ (live ys ++ dead (v.alloc - v.n))) := by
    rw [h.slots]
    simp
  have hgap : e.may_move_bytes = true ∨ zs.length ≠ 0 ∨ ys = [] :=
    hmoves.imp_right (Or.imp_left fun hzs hlength => hzs (List.length_eq_zero_iff.mp hlength))
  rw [hslots, destroyRange_mid (by rw [live_length, hfirst]) (by omega), Option.bind_some,
    show last - first = zs.length by omega,
    shift_down_spec hgap (by rw [live_length, hfirst]) (by rw [live_length]; omega) (by omega),
    show v.alloc - (v.n - zs.length) = zs.length + (v.alloc - v.n) by omega, dead_add, live_append, List.append_assoc]

variable {r : Range T}

theorem insertLoop_spec (hk : k = ys.length) (hidx : idx = xs.length + ys.length)
    (hcnt : cnt = zs.length)
    (hget : ∀ (b : Slots T) (j : Nat) (x : T), (ys ++ zs)[j]? = some x → r.get (live xs ++ b) j = some x) :
    insertLoop r (live xs ++ (live ys ++ (dead cnt ++ b))) idx k cnt = some (live xs ++ (live (ys ++ zs) ++ b)) := by
  induction zs generalizing ys idx k cnt with
  | nil =>
      subst hcnt
      simp [insertLoop]
  | cons z zs ih =>
      subst hcnt
      have hz : (ys ++ z :: zs)[k]? = some z := by
        rw [hk, List.getElem?_append_right (Nat.le_refl _), Nat.sub_self]
        rfl
      have hnext : ys ++ z :: zs = (ys ++ [z]) ++ zs := by simp
      have hslots : live xs ++ (live ys ++ some z :: (dead zs.length ++ b)) =
          live xs ++ (live (ys ++ [z]) ++ (dead zs.length ++ b)) := by simp
      rw [List.length_cons, insertLoop, hget _ k z hz, Option.bind_eq_bind, Option.bind_some, dead_succ,
        List.cons_append, ← List.append_assoc (live xs),
        construct_mid (by rw [List.length_append, live_length, live_length, hidx]), Option.bind_eq_bind,
        Option.bind_some, List.append_assoc, hslots,
        ih (by rw [hk, List.length_append, List.length_singleton])
          (by rw [hidx, List.length_append, List.length_singleton]; omega) rfl (by rwa [← hnext]), ← hnext]

theorem insert_range_spec (h : Refines v (xs ++ ys)) (hidx : idx = xs.length)
    (hlength : r.length = zs.length) (hdangles : zs ≠ [] → r.dangles v = false)
    (hget : ∀ (b : Slots T) (j : Nat) (x : T), zs[j]? = some x → r.get (live xs ++ b) j = some x) :
    (v.insert_range e m idx r).Ends (Refines · (xs ++ (zs ++ ys))) (Refines · (xs ++ ys)) := by
  unfold Qvector.insert_range
  dsimp only
  split
  · next hzero =>
      have hnil : zs = [] := List.length_eq_zero_iff.mp (hlength ▸ hzero)
      rw [hnil]
      exact h
  · next hzero =>
      have hzs : zs ≠ [] := fun hnil => hzero (by rw [hlength, hnil]; rfl)
      rw [if_neg (by rw [hdangles hzs]; decide)]
      refine (reserve_spec h (v.n + r.length)).andThen fun v' ⟨h', hroom⟩ => ?_
      have hsize := h.size
      have hsize' := h'.size
      rw [show v.n = v'.n by omega] at hroom
      rw [List.length_append] at hsize'
      refine h'.put (by simp; omega) (by simp; omega) ?_
      rw [h'.slots_room hroom, live_append, List.append_assoc,
        shift_up_spec hzero (by rw [live_length, hidx]) (by rw [live_length, hidx]) (by omega), Option.bind_some]
      have hloop : insertLoop r
          (live xs ++ (live [] ++ (dead r.length ++ (live ys ++ dead (v'.alloc - (v'.n + r.length)))))) idx 0 r.length =
          some (live xs ++ (live ([] ++ zs) ++ (live ys ++ dead (v'.alloc - (v'.n + r.length))))) :=
        insertLoop_spec rfl hidx hlength hget
      refine hloop.trans ?_
      simp

theorem clear_spec (h : Refines v l) : v.clear.Ends (Refines · []) Q := by
  unfold Qvector.clear
  split
  · refine Outcome.EndsIf.andThen (P := (Refines · [])) (resize_less_spec h rfl) fun v' h' => ?_
    unfold Qvector.free_memory
    rw [if_pos (by rw [h'.slots]; exact released_dead)]
    exact ⟨h'.size, Nat.le_of_eq h'.size, by rw [h'.size]; rfl⟩
  · next hnull =>
      have hlength := h.slots_length
      have hsize := h.size
      have hfits := h.fits
      rw [Qvector.slots, Option.not_isSome_iff_eq_none.mp hnull] at hlength
      have halloc : v.alloc = 0 := hlength.symm
      have hnil : l = [] := List.length_eq_zero_iff.mp (by omega)
      exact hnil ▸ h

theorem truncate_spec (h : Refines v l) : (v.truncate e m).Ends (Refines · l) Q := by
  unfold Qvector.truncate Qvector._reallocate_array
  split
  · split
    · exact h
    rename_i hpos
    split
    · exact h
    split
    · have hsize := h.size
      have hdrop : v.slots.drop v.n = dead (v.alloc - v.n) := by
        rw [h.slots, List.drop_left' (by rw [live_length, hsize])]
      rw [hdrop, if_pos released_dead]
      refine ⟨hsize, Nat.le_refl _, ?_⟩
      rw [Qvector.slots, Option.getD_some, h.slots, List.take_left' (by rw [live_length, hsize]), Nat.sub_self,
        dead_zero, List.append_nil]
    · exact (moveArray_spec (Q := Q) h (Nat.le_refl _) fun hzero => hpos (Or.inr hzero)).imp (fun _ h' => h'.1)
        fun _ h' => h'
  · exact h

theorem pop_back_spec (h : Refines v l) : v.pop_back.Ends (Refines · l.dropLast) Q := by
  have hsize := h.size
  have hfits := h.fits
  unfold Qvector.pop_back
  split
  · next hpos =>
      have hne : l ≠ [] := fun hnil => by
        rw [hnil, List.length_nil] at hsize
        omega
      have hlast : live l = live l.dropLast ++ [some (l.getLast hne)] := by
        have hsplit := List.dropLast_append_getLast hne
        nth_rewrite 1 [← hsplit]
        simp
      refine h.put (by rw [List.length_dropLast]; omega) (by rw [List.length_dropLast, hsize]) ?_
      have hdead : v.alloc - (v.n - 1) = (v.alloc - v.n) + 1 := by omega
      rw [h.slots, hlast, List.append_assoc, List.singleton_append,
        destroy_mid (by rw [live_length, List.length_dropLast, hsize]), hdead, dead_succ]
  · next hpos =>
      have hnil : l = [] := List.length_eq_zero_iff.mp (by omega)
      rw [hnil] at h ⊢
      exact h

theorem resize_more_spec (h : Refines v l) (hn : v.n ≤ n) (x : T) :
    (v.resize_more e m n x).Ends (Refines · (l ++ List.replicate (n - l.length) x)) (Refines · l) := by
  refine (reserve_spec h n).andThen fun v' ⟨h', hroom⟩ => ?_
  have hsize := h.size
  have hsize' := h'.size
  have hslots := h'.slots_room (k := n - v'.n) (by omega)
  have hlength : n = (l ++ List.replicate (n - l.length) x).length := by
    rw [List.length_append, List.length_replicate]
    omega
  refine h'.put (by omega) hlength ?_
  rw [hslots, constructRange_mid (by rw [live_length, hsize']) (by rw [List.length_replicate]), hsize', live_append,
    List.append_assoc, show l.length + (n - l.length) = n by omega]

theorem copy_spec (h : Refines v l) : (v.copy m).Ends (Refines · l) (Refines · []) := by
  have hsize := h.size
  unfold Qvector.copy
  split
  · split
    · have hslots : (dead v.n : Slots T) = live ([] : List T) ++ (dead v.n ++ []) := by simp
      have hread : readRange v.slots 0 (v.n - 0) = some l := by
        rw [h.slots]
        exact readRange_mid (a := []) rfl hsize
      have hconstruct : constructRange (dead v.n) 0 l = some (live l) := by
        have hmid : constructRange ([] ++ (dead v.n ++ [])) 0 l = some ([] ++ (live l ++ [])) :=
          constructRange_mid rfl hsize
        simpa using hmid
      unfold Qvector.copy_range
      rw [hread, Option.bind_some]
      change Outcome.Ends (Qvector.put _ (constructRange (dead v.n) 0 l) _) _ _
      rw [hconstruct]
      refine ⟨hsize, Nat.le_refl _, ?_⟩
      simp [Qvector.slots]
    · exact refines_empty
  · have hnil : l = [] := List.length_eq_zero_iff.mp (by omega)
    rw [hnil]
    exact refines_empty

/-! ### The list model -/

def Arg.value (e : Element T) (l : List T) : Arg T → T
  | .outside x => x
  | .own i => l.getD i e.default

/-- What is left when the value has been moved. -/
def Arg.leave (e : Element T) (l : List T) : Arg T → List T
  | .outside _ => l
  | .own i => l.set i (e.moved (l.getD i e.default))

def Range.values (l : List T) : Range T → List T
  | .outside xs => xs
  | .own first last => (l.drop first).take (last - first)

/-- The elements after a call. -/
def Call.model (e : Element T) (l : List T) : Call T → List T
  | .push_back x => l ++ [x.value e l]
  | .push_back_move x => x.leave e l ++ [x.value e l]
  | .push_back_new init => l ++ [init]
  | .pop_back => l.dropLast
  | .insert idx x => l.take idx ++ x.value e l :: l.drop idx
  | .insert_move idx x => (x.leave e l).take idx ++ x.value e l :: (x.leave e l).drop idx
  | .insert_range idx r => l.take idx ++ (r.values l ++ l.drop idx)
  | .append r => l ++ r.values l
  | .erase i => l.take i ++ l.drop (i + 1)
  | .erase_range first last => l.take first ++ l.drop last
  | .resize newsize x => l.take newsize ++ List.replicate (newsize - l.length) (x.value e l)
  | .resize_default newsize => l.take newsize ++ List.replicate (newsize - l.length) e.default
  | .reserve _ => l
  | .truncate => l
  | .qclear => []
  | .clear => []

/-- The elements after a call that ends with an exception. -/
def Call.thrown (e : Element T) (l : List T) : Call T → List T
  | .push_back_move x => x.leave e l
  | .insert_move _ x => x.leave e l
  | _ => l

def Arg.Valid (n : Nat) : Arg T → Prop
  | .outside _ => True
  | .own i => i < n

def Range.Valid (n : Nat) : Range T → Prop
  | .outside _ => True
  | .own first last => first ≤ last ∧ last ≤ n

/-- The iterators and references of a call are those of the vector. -/
def Call.Valid (n : Nat) : Call T → Prop
  | .push_back x => x.Valid n
  | .push_back_move x => x.Valid n
  | .insert idx x => idx ≤ n ∧ x.Valid n
  | .insert_move idx x => idx ≤ n ∧ x.Valid n
  | .insert_range idx r => idx ≤ n ∧ r.Valid n
  | .append r => r.Valid n
  | .erase i => i < n
  | .erase_range first last => first ≤ last ∧ last ≤ n
  | .resize _ x => x.Valid n
  | _ => True

/-- The range is not disturbed while it is inserted at `idx`. -/
def Range.Undisturbed (v : Qvector T) (idx : Nat) : Range T → Prop
  | .outside _ => True
  | .own first last => first = last ∨ v.n + (last - first) ≤ v.alloc ∧ last ≤ idx

/-- The condition on a call: an empty range is removed only at the end, or where bytes are moved; and a range of the
vector's own elements is inserted only behind them and without a new array. -/
def Call.Safe (e : Element T) (v : Qvector T) : Call T → Prop
  | .insert_range idx r => r.Undisturbed v idx
  | .append r => r.Undisturbed v v.n
  | .erase_range first last => first = last → last = v.n ∨ e.may_move_bytes = true
  | _ => True

theorem val_spec (h : Refines v l) {a : Arg T} (ha : a.Valid l.length) : v.val a = some (a.value e l) := by
  cases a with
  | outside x => rfl
  | own i =>
      have hi : i < l.length := ha
      rw [Qvector.val, h.slots]
      refine (read_live (List.getElem?_eq_getElem hi)).trans ?_
      rw [Arg.value, List.getD_eq_getElem _ _ hi]

theorem leave_length (a : Arg T) : (a.leave e l).length = l.length := by
  cases a with
  | outside x => rfl
  | own i => exact List.length_set ..

theorem val_move_spec (h : Refines v l) {a : Arg T} (ha : a.Valid l.length) :
    v.val_move e a = some (a.value e l, live (a.leave e l) ++ dead (v.alloc - v.n)) := by
  cases a with
  | outside x =>
      rw [Qvector.val_move, h.slots]
      rfl
  | own i =>
      have hi : i < l.length := ha
      rw [Qvector.val_move, h.slots, read_live (List.getElem?_eq_getElem hi), Option.bind_eq_bind, Option.bind_some,
        assign_live hi, Option.bind_eq_bind, Option.bind_some, Arg.value, Arg.leave, List.getD_eq_getElem _ _ hi]

theorem put_leave (h : Refines v l) (a : Arg T) :
    (v.put (some (live (a.leave e l) ++ dead (v.alloc - v.n))) v.n).Ends (Refines · (a.leave e l)) Q := by
  have hsize := h.size
  exact h.put (by rw [leave_length, ← hsize]; exact h.fits) (by rw [leave_length, hsize]) rfl

theorem insert_range_call (h : Refines v l) (hidx : idx ≤ l.length) (hr : r.Valid l.length)
    (hsafe : r.Undisturbed v idx) :
    (v.insert_range e m idx r).Ends (Refines · (l.take idx ++ (r.values l ++ l.drop idx))) (Refines · l) := by
  have hsplit : l.take idx ++ l.drop idx = l := List.take_append_drop idx l
  have htake : idx = (l.take idx).length := by
    rw [List.length_take]
    omega
  rw [← hsplit] at h
  have hspec : (v.insert_range e m idx r).Ends (Refines · (l.take idx ++ (r.values l ++ l.drop idx)))
      (Refines · (l.take idx ++ l.drop idx)) := by
    cases r with
    | outside xs => exact insert_range_spec h htake rfl (fun _ => rfl) fun _ _ _ hx => hx
    | own first last =>
        have hvalid : first ≤ last ∧ last ≤ l.length := hr
        have hlength : last - first = ((l.drop first).take (last - first)).length := by
          rw [List.length_take, List.length_drop]
          omega
        refine insert_range_spec h htake hlength (fun hne => ?_) fun b j x hx => ?_
        · have hroom : v.n + (last - first) ≤ v.alloc := by
            refine (hsafe.resolve_left fun heq => hne ?_).1
            rw [Range.values, heq, Nat.sub_self]
            rfl
          exact decide_eq_false (Nat.not_lt.mpr hroom)
        · -- the range stands before the position, where nothing is moved
          obtain ⟨hj, -⟩ := List.getElem?_eq_some_iff.mp hx
          change j < ((l.drop first).take (last - first)).length at hj
          have hbefore : last ≤ idx := (hsafe.resolve_left fun heq => by omega).2
          refine read_live ?_
          change ((l.drop first).take (last - first))[j]? = some x at hx
          rw [List.getElem?_take_of_lt (by omega), List.getElem?_drop] at hx
          rw [List.getElem?_take_of_lt (by omega), hx]
  rwa [hsplit] at hspec

theorem resize_spec (h : Refines v l) {x : Arg T} (hx : x.Valid l.length) :
    (v.resize e m n x).Ends (Refines · (l.take n ++ List.replicate (n - l.length) (x.value e l))) (Refines · l) := by
  have hsize := h.size
  unfold Qvector.resize
  split
  · next hless =>
      rw [Nat.sub_eq_zero_of_le (by omega), List.replicate_zero, List.append_nil]
      rw [← List.take_append_drop n l] at h
      exact resize_less_spec h (by rw [List.length_take]; omega)
  · split
    · next hmore =>
        rw [val_spec h hx, List.take_of_length_le (by omega)]
        exact resize_more_spec h (by omega) _
    · rw [Nat.sub_eq_zero_of_le (by omega), List.replicate_zero, List.append_nil, List.take_of_length_le (by omega)]
      exact h

/-- A call on a vector does what it does to the list of its elements. -/
theorem call_spec (h : Refines v l) {c : Call T} (hvalid : c.Valid v.n) (hsafe : c.Safe e v) :
    (c.run e m v).Ends (Refines · (c.model e l)) (Refines · (c.thrown e l)) := by
  have hsize := h.size
  rw [hsize] at hvalid
  cases c with
  | push_back x =>
      change (v.push_back e m x).Ends _ _
      rw [Qvector.push_back, val_spec h hvalid]
      exact push_spec h _
  | push_back_move x =>
      change (v.push_back_move e m x).Ends _ _
      rw [Qvector.push_back_move, val_move_spec h hvalid]
      exact (put_leave h x).andThen fun v' h' => push_spec h' _
  | push_back_new init => exact push_spec h init
  | pop_back => exact pop_back_spec h
  | insert idx x =>
      have hidx : idx ≤ l.length := hvalid.1
      change (v.insert e m idx x).Ends _ _
      rw [Qvector.insert, val_spec h hvalid.2]
      have hsplit : Refines v (l.take idx ++ l.drop idx) := by rwa [List.take_append_drop]
      have hspec := insertOne_spec (e := e) (m := m) hsplit (show idx = _ by rw [List.length_take]; omega) (x.value e l)
      rwa [List.take_append_drop] at hspec
  | insert_move idx x =>
      have hidx : idx ≤ l.length := hvalid.1
      change (v.insert_move e m idx x).Ends _ _
      rw [Qvector.insert_move, val_move_spec h hvalid.2]
      refine (put_leave h x).andThen fun v' h' => ?_
      have hsplit : Refines v' ((x.leave e l).take idx ++ (x.leave e l).drop idx) := by rwa [List.take_append_drop]
      have hspec := insertOne_spec (e := e) (m := m) hsplit
        (show idx = _ by rw [List.length_take, leave_length]; omega) (x.value e l)
      rwa [List.take_append_drop] at hspec
  | insert_range idx r => exact insert_range_call h hvalid.1 hvalid.2 hsafe
  | append r =>
      have hspec := insert_range_call (e := e) (m := m) h (Nat.le_refl _) hvalid (hsize ▸ hsafe)
      rw [List.take_length, List.drop_length, List.append_nil, ← hsize] at hspec
      exact hspec
  | erase i =>
      have hi : i < l.length := hvalid
      refine erase_spec (x := l[i]) ?_ (by rw [List.length_take]; omega)
      rwa [List.getElem_cons_drop, List.take_append_drop]
  | erase_range first last =>
      have hrange : first ≤ last ∧ last ≤ l.length := hvalid
      have hsplit : l = l.take first ++ ((l.drop first).take (last - first) ++ l.drop last) := by
        have hdrop : l.drop last = (l.drop first).drop (last - first) := by
          rw [List.drop_drop]
          congr 1
          omega
        rw [hdrop, List.take_append_drop, List.take_append_drop]
      rw [hsplit] at h
      refine erase_range_spec h (by rw [List.length_take]; omega)
        (by rw [List.length_take, List.length_drop]; omega) ?_
      by_cases hempty : first = last
      · cases hsafe hempty with
        | inl hend => exact Or.inr (Or.inr (by rw [hend, hsize, List.drop_length]))
        | inr hmoves => exact Or.inl hmoves
      · refine Or.inr (Or.inl fun hnil => ?_)
        have hlength := congrArg List.length hnil
        rw [List.length_take, List.length_drop, List.length_nil] at hlength
        omega
  | resize newsize x => exact resize_spec h hvalid
  | resize_default newsize => exact resize_spec (x := .outside e.default) h trivial
  | reserve cnt => exact (reserve_spec h cnt).imp (fun _ h' => h'.1) fun _ h' => h'
  | truncate => exact truncate_spec h
  | qclear =>
      change (v.resize_less 0).Ends (Refines · []) _
      exact resize_less_spec h rfl
  | clear => exact clear_spec h

/-! ### Runs -/

abbrev Lists (T : Type) := Nat → List T

def Op.model (e : Element T) (ls : Lists T) : Op T → Lists T
  | .call v c => Function.update ls v (c.model e (ls v))
  | .swap v r => Function.update (Function.update ls v (ls r)) r (ls v)
  | .assign v x => Function.update ls v (ls x)
  | .assign_move v x => Function.update (Function.update ls x []) v (ls x)

def Op.thrown (e : Element T) (ls : Lists T) : Op T → Lists T
  | .call v c => Function.update ls v (c.thrown e (ls v))
  | _ => ls

def Op.Valid (w : World T) : Op T → Prop
  | .call v c => c.Valid (w v).n
  | _ => True

def Op.Safe (e : Element T) (w : World T) : Op T → Prop
  | .call v c => c.Safe e (w v)
  | _ => True

def RefinesAll (w : World T) (ls : Lists T) : Prop := ∀ v, Refines (w v) (ls v)

variable {ls : Lists T} {w : World T}

theorem RefinesAll.set (h : RefinesAll w ls) {v : Nat} {x : Qvector T}
    (hx : Refines x l) : RefinesAll (w.set v x) (Function.update ls v l) := by
  intro u
  by_cases hu : u = v
  · subst hu
    rwa [World.set, Function.update_self, Function.update_self]
  · rw [World.set, Function.update_of_ne hu, Function.update_of_ne hu]
    exact h u

theorem ends_into {r : Result (Qvector T)} {v : Nat} {l l' : List T}
    (hw : RefinesAll w ls) (h : r.Ends (Refines · l) (Refines · l')) :
    (r.into w v).Ends (RefinesAll · (Function.update ls v l)) (RefinesAll · (Function.update ls v l')) := by
  cases r with
  | undefined => exact h
  | threw x => exact hw.set h
  | done x => exact hw.set h

theorem assignFrom_spec {v : Nat} {x : Qvector T} {Q : World T → Prop}
    (hw : RefinesAll w ls) (hx : Refines x l) :
    (assignFrom w v x).Ends (RefinesAll · (Function.update ls v l)) Q := by
  have hclear := clear_spec (Q := fun _ => False) (hw v)
  cases hresult : (w v).clear with
  | undefined =>
      rw [hresult] at hclear
      exact (hclear trivial).elim
  | threw _ =>
      rw [hresult] at hclear
      exact hclear.elim
  | done y =>
      rw [hresult] at hclear
      unfold assignFrom
      rw [hresult]
      have hset := (hw.set (v := v) (show Refines y [] from hclear)).set (v := v) hx
      rwa [Function.update_idem] at hset

theorem op_spec (hw : RefinesAll w ls) {op : Op T} (hvalid : op.Valid w)
    (hsafe : op.Safe e w) : (op.run e m w).Ends (RefinesAll · (op.model e ls)) (RefinesAll · (op.thrown e ls)) := by
  cases op with
  | call v c => exact ends_into hw (call_spec (hw v) hvalid hsafe)
  | swap v r => exact (hw.set (hw r)).set (hw v)
  | assign v x =>
      have hcopy := copy_spec (m := m) (hw x)
      dsimp only [Op.run]
      cases hresult : (w x).copy m with
      | undefined =>
          rw [hresult] at hcopy
          exact hcopy
      | threw y => exact hw
      | done y =>
          rw [hresult] at hcopy
          exact assignFrom_spec hw hcopy
  | assign_move v x => exact assignFrom_spec (hw.set refines_empty) (hw x)

/-- The runs of a program: its calls have valid arguments, and each of them ends, by an exception or not. Beside the
vectors go the lists of the model. -/
inductive Run (e : Element T) : World T → Lists T → Prop
  | start : Run e (fun _ => .empty) (fun _ => [])
  | done {w w' : World T} {ls : Lists T} (h : Run e w ls) (m : Allocator) (op : Op T) (hvalid : op.Valid w)
      (hsafe : op.Safe e w) (hrun : op.run e m w = .done w') : Run e w' (op.model e ls)
  | threw {w w' : World T} {ls : Lists T} (h : Run e w ls) (m : Allocator) (op : Op T) (hvalid : op.Valid w)
      (hsafe : op.Safe e w) (hrun : op.run e m w = .threw w') : Run e w' (op.thrown e ls)

theorem Run.refines (h : Run e w ls) : RefinesAll w ls := by
  induction h with
  | start => exact fun _ => refines_empty
  | done h m op hvalid hsafe hrun ih =>
      have hspec := op_spec (m := m) ih hvalid hsafe
      rwa [hrun] at hspec
  | threw h m op hvalid hsafe hrun ih =>
      have hspec := op_spec (m := m) ih hvalid hsafe
      rwa [hrun] at hspec

theorem Refines.contents (h : Refines v l) : readRange v.slots 0 v.n = some l := by
  rw [h.slots]
  exact readRange_mid (a := []) rfl h.size

/-- What holds in a state that a run reaches: the vectors hold the elements of the lists and nothing else, whatever the
elements are moved by; the calls are defined; and the destructors leave nothing alive. -/
structure Kept (e : Element T) (w : World T) (ls : Lists T) : Prop where
  contents : ∀ v, readRange (w v).slots 0 (w v).n = some (ls v)
  size_le : ∀ v, (w v).n ≤ (w v).alloc
  alive : ∀ v, (w v).slots = live (ls v) ++ dead ((w v).alloc - (w v).n)
  defined : ∀ (m : Allocator) (op : Op T), op.Valid w → op.Safe e w → op.run e m w ≠ .undefined
  destroyed : ∀ v, ∃ x, (w v).destructor = .done x ∧ x.slots = dead x.alloc
  paths : ∀ (e' : Element T) (w' : World T), Run e' w' ls →
    ∀ v, readRange (w' v).slots 0 (w' v).n = readRange (w v).slots 0 (w v).n

theorem destructor_spec (h : Refines v l) : ∃ x, v.destructor = .done x ∧ x.slots = dead x.alloc := by
  have hclear : v.clear.Ends (Refines · []) fun _ => False := clear_spec h
  change ∃ x, v.clear = .done x ∧ _
  cases hresult : v.clear with
  | undefined =>
      rw [hresult] at hclear
      exact (hclear trivial).elim
  | threw x =>
      rw [hresult] at hclear
      exact hclear.elim
  | done x =>
      rw [hresult] at hclear
      have hx : Refines x [] := hclear
      refine ⟨x, rfl, ?_⟩
      rw [hx.slots, hx.size]
      rfl

theorem run_kept {w : World T} {ls : Lists T} (h : Run e w ls) : Kept e w ls where
  contents v := (h.refines v).contents
  size_le v := (h.refines v).fits
  alive v := (h.refines v).slots
  defined m op hvalid hsafe := (op_spec h.refines hvalid hsafe).ne_undefined trivial
  destroyed v := destructor_spec (h.refines v)
  paths e' w' h' v := by rw [(h'.refines v).contents, (h.refines v).contents]

def one_by_one : Element Nat := ⟨false, 0, fun _ => 0⟩

def plenty : Allocator := ⟨fun cnt => some (2 * cnt), fun _ => true, fun cnt alloc h => by cases h; omega⟩

def seven : World Nat := fun v => if v = 0 then ⟨some [some 7, none], 1, 2⟩ else .empty

theorem push_back_seven :
    (Op.call 0 (.push_back (.outside 7))).run one_by_one plenty (fun _ => .empty) = .done seven := by
  change Outcome.done _ = _
  congr 1
  funext v
  by_cases hv : v = 0
  · subst hv
    rfl
  · rw [World.set, Function.update_of_ne hv, seven, if_neg hv]

theorem run_kept_seven :
    Kept one_by_one seven ((Op.call 0 (.push_back (.outside 7))).model one_by_one fun _ => []) :=
  run_kept (.done .start plenty (.call 0 (.push_back (.outside 7))) trivial trivial push_back_seven)

/-- Of the vector `[7]` no elements are removed before the first one: it is destroyed, and nothing is constructed. -/
theorem erase_range_none :
    Run one_by_one seven ((Op.call 0 (.push_back (.outside 7))).model one_by_one fun _ => []) ∧
      (Op.call 0 (.erase_range 0 0)).Valid seven ∧
      (Op.call 0 (.erase_range 0 0)).run one_by_one plenty seven = .undefined ∧
      (Call.erase_range 0 0).model one_by_one [7] = [7] :=
  ⟨.done .start plenty (.call 0 (.push_back (.outside 7))) trivial trivial push_back_seven,
    ⟨Nat.le_refl _, Nat.zero_le _⟩, rfl, rfl⟩

end IdaSdk.Qvec
