import IdaSdk.QlistOps

/-!
Lists as a whole: the exchange of two lists, and the assignment that copies and the one that moves.
-/

namespace IdaSdk.Qlist
open Circular Outcomes

variable {T : Type} {m : Allocator} {h h' : Heap T} {ns : Nat → List Ptr} {ls : Nat → List T} {v x : Nat}
  {A B C M W : List Ptr} {xs ys zs : List T} {p q c : Ptr} {n : Nat}

/-! ### Exchange -/

theorem fix_links_close {Q : List Ptr} (hQ : .node v ∉ Q)
    (hends : Q ≠ [] → h.next (.node v) = Q.headD (.node v) ∧ h.prev (.node v) = Q.getLastD (.node v)) :
    (h.fix_links v Q.length).toLinks = h.toLinks.close (.node v) Q := by
  unfold Heap.fix_links
  by_cases hnil : Q = []
  · subst hnil
    have hn : (h.toLinks.close (.node v) []).next = Function.update h.next (.node v) (.node v) := Function.update_idem ..
    have hp : (h.toLinks.close (.node v) []).prev = Function.update h.prev (.node v) (.node v) := Function.update_idem ..
    exact (congrArg₂ Links.mk hn hp).symm
  · obtain ⟨hnext, hprev⟩ := hends hnil
    rw [if_neg fun hlength => hnil (List.length_eq_zero_iff.mp hlength)]
    have hhead : Q.headD (.node v) ≠ .node v := by
      cases Q with
      | nil => exact absurd rfl hnil
      | cons c M => exact fun heq => hQ (heq ▸ List.mem_cons_self)
    have hkept : (h.setPrev (h.next (.node v)) (.node v)).prev (.node v) = Q.getLastD (.node v) := by
      rw [← hprev, hnext]
      exact Function.update_of_ne (Ne.symm hhead) _ _
    have hn : Function.update h.next (Q.getLastD (.node v)) (.node v) = (h.toLinks.close (.node v) Q).next := by
      funext p
      rw [close_next, Function.update_apply]
      split
      · rfl
      · split
        · next hp => exact hp ▸ hnext
        · rfl
    have hp : Function.update h.prev (Q.headD (.node v)) (.node v) = (h.toLinks.close (.node v) Q).prev := by
      funext p
      rw [close_prev, Function.update_apply]
      by_cases hpv : p = .node v
      · rw [if_pos hpv, hpv, if_neg (Ne.symm hhead), hprev]
      · rw [if_neg hpv]
    dsimp only
    rw [hkept, hnext]
    exact congrArg₂ Links.mk hn hp

theorem Refines.ends (H : Refines h ns ls) (v : Nat) :
    h.next (.node v) = (ns v).headD (.node v) ∧ h.prev (.node v) = (ns v).getLastD (.node v) :=
  ⟨H.begin_eq, (H.next_prev (B := []) (List.append_nil _).symm).2⟩

theorem headD_getLastD {Q : List Ptr} (hQ : Q ≠ []) (p q : Ptr) : Q.headD p = Q.headD q ∧ Q.getLastD p = Q.getLastD q := by
  cases Q with
  | nil => exact absurd rfl hQ
  | cons c M => exact ⟨rfl, by rw [List.getLastD_cons, List.getLastD_cons]⟩

theorem fix_links_data : (h.fix_links v n).data = h.data := by
  unfold Heap.fix_links
  split <;> rfl

theorem fix_links_length : (h.fix_links v n).length = h.length := by
  unfold Heap.fix_links
  split <;> rfl

/-- The two lists have exchanged their members, and their nodes still point to the other one. -/
def swapped (h : Heap T) (v x : Nat) : Heap T :=
  ((h.swapNodes v x).setLength v (h.length x)).setLength x (h.length v)

theorem swap_eq (h : Heap T) (v x : Nat) : h.swap v x =
    ((swapped h v x).fix_links v ((swapped h v x).length v)).fix_links x ((swapped h v x).length x) := by
  change ((swapped h v x).fix_links v ((swapped h v x).length v)).fix_links x
    (((swapped h v x).fix_links v ((swapped h v x).length v)).length x) = _
  rw [fix_links_length]

theorem swapped_next (h : Heap T) (v x : Nat) : (swapped h v x).next =
    Function.update (Function.update h.next (.node v) (h.next (.node x))) (.node x) (h.next (.node v)) := rfl

theorem swapped_prev (h : Heap T) (v x : Nat) : (swapped h v x).prev =
    Function.update (Function.update h.prev (.node v) (h.prev (.node x))) (.node x) (h.prev (.node v)) := rfl

theorem swapped_length (h : Heap T) (v x : Nat) : (swapped h v x).length = h.length ∘ Equiv.swap v x := by
  rw [Equiv.comp_swap_eq_update]
  change Function.update (Function.update h.length v (h.length x)) x (h.length v) = _
  by_cases hne : v = x
  · subst hne
    rw [Function.update_idem]
  · exact Function.update_comm hne ..

theorem swap_links (H : Refines h ns ls) (hne : v ≠ x) :
    (h.swap v x).toLinks = (h.toLinks.close (.node v) (ns x)).close (.node x) (ns v) := by
  have hnode : Ptr.node v ≠ .node x := fun heq => hne (Ptr.node.inj heq)
  have hnot : ∀ v x, Ptr.node v ∉ ns x := fun v x hmem => by
    obtain ⟨a, _, ha, _⟩ := H.allocated hmem
    cases ha
  have hlenv : (swapped h v x).length v = (ns x).length := by
    rw [swapped_length, Function.comp_apply, Equiv.swap_apply_left, H.length]
  have hlenx : (swapped h v x).length x = (ns v).length := by
    rw [swapped_length, Function.comp_apply, Equiv.swap_apply_right, H.length]
  have hfirst : ((swapped h v x).fix_links v (ns x).length).toLinks =
      (swapped h v x).toLinks.close (.node v) (ns x) := by
    refine fix_links_close (hnot v x) fun hnil => ?_
    have hends := headD_getLastD hnil (.node x) (.node v)
    rw [swapped_next, swapped_prev, Function.update_of_ne hnode, Function.update_self, Function.update_of_ne hnode,
      Function.update_self, (H.ends x).1, (H.ends x).2]
    exact hends
  have hlast : Ptr.node x ≠ (ns x).getLastD (.node v) := by
    intro heq
    cases List.mem_cons.mp (getLastD_mem (.node v) (ns x)) with
    | inl hmem => exact hnode (hmem ▸ heq.symm)
    | inr hmem => exact hnot x x (heq ▸ hmem)
  have hhead : Ptr.node x ≠ (ns x).headD (.node v) := by
    intro heq
    cases List.mem_append.mp (headD_mem (.node v) (ns x)) with
    | inl hmem => exact hnot x x (heq ▸ hmem)
    | inr hmem => exact hnode (List.mem_singleton.mp hmem ▸ heq.symm)
  have hsecond : (((swapped h v x).fix_links v (ns x).length).fix_links x (ns v).length).toLinks =
      ((swapped h v x).fix_links v (ns x).length).toLinks.close (.node x) (ns v) := by
    refine fix_links_close (hnot x v) fun hnil => ?_
    have hends := headD_getLastD hnil (.node v) (.node x)
    rw [hfirst, close_next, close_prev, if_neg hlast, if_neg (Ne.symm hnode), if_neg (Ne.symm hnode), if_neg hhead,
      swapped_next, swapped_prev, Function.update_self, Function.update_self, (H.ends v).1, (H.ends v).2]
    exact hends
  rw [swap_eq, hlenv, hlenx, hsecond, hfirst]
  refine close_congr (fun p hv hx => ?_) fun p hv hx => ?_
  · rw [swapped_next, Function.update_of_ne hx, Function.update_of_ne hv]
  · rw [swapped_prev, Function.update_of_ne hx, Function.update_of_ne hv]

theorem swapped_self (h : Heap T) (v : Nat) : swapped h v v = h := by
  have hn : (swapped h v v).next = h.next := by
    rw [swapped_next, Function.update_idem, Function.update_eq_self]
  have hp : (swapped h v v).prev = h.prev := by
    rw [swapped_prev, Function.update_idem, Function.update_eq_self]
  have hl : (swapped h v v).length = h.length := by
    rw [swapped_length, Equiv.swap_self]
    rfl
  exact congr (congrArg (fun k l => Heap.mk k h.data l) (congrArg₂ Links.mk hn hp)) hl

theorem fix_links_self (H : Refines h ns ls) (v : Nat) : h.fix_links v (h.length v) = h := by
  have hlinks : (h.fix_links v (h.length v)).toLinks = h.toLinks := by
    rw [H.length, fix_links_close (fun hmem => (List.nodup_cons.mp (H.rings.nodup v)).1 hmem) fun _ => H.ends v]
    exact (H.rings.ring v).close_eq
  exact congr (congr (congrArg Heap.mk hlinks) fix_links_data) fix_links_length

theorem swap_spec (H : Refines h ns ls) (v x : Nat) :
    Refines (h.swap v x) (ns ∘ Equiv.swap v x) (ls ∘ Equiv.swap v x) := by
  by_cases hne : v = x
  · subst hne
    rw [swap_eq, swapped_self, fix_links_self H, fix_links_self H, Equiv.swap_self]
    exact H
  have hdata : (h.swap v x).data = h.data := by
    rw [swap_eq, fix_links_data, fix_links_data]
    rfl
  have hderef : (h.swap v x).deref = h.deref := by
    funext p
    cases p with
    | node w => rfl
    | cell a => exact congrFun hdata a
  have hlength : (h.swap v x).length = h.length ∘ Equiv.swap v x := by
    rw [swap_eq, fix_links_length, fix_links_length, swapped_length]
  refine ⟨?_, fun w => ?_, fun a ha => ?_, fun w => ?_⟩
  · rw [swap_links H hne]
    exact H.rings.swap hne
  · rw [hderef]
    exact H.values _
  · rw [hdata] at ha
    obtain ⟨w, hw⟩ := H.owned a ha
    refine ⟨Equiv.swap v x w, ?_⟩
    rwa [Function.comp_apply, Equiv.swap_apply_self]
  · rw [hlength]
    exact H.length _

/-! ### Assignment -/

theorem setData_spec {a : Nat} {y z : T} (H : Refines h ns ls) (hv : ns v = A ++ .cell a :: B) (hl : ls v = xs ++ y :: ys)
    (hA : A.length = xs.length) : Refines (h.setData a (some z)) ns (Function.update ls v (xs ++ z :: ys)) := by
  have hv' : ns v = A ++ ([Ptr.cell a] ++ B) := hv
  obtain ⟨hnotA, hnotB, -, hnotw⟩ := H.mem_split hv' (List.mem_singleton.mpr rfl)
  have hmap : ∀ l : List Ptr, Ptr.cell a ∉ l → l.map (h.setData a (some z)).deref = l.map h.deref := fun l hl =>
    List.map_congr_left fun q hmem => deref_setData h fun heq => hl (heq ▸ hmem)
  have hchange : Refines (h.setData a (some z)) (Function.update ns v (ns v)) (Function.update ls v (xs ++ z :: ys)) := by
    refine H.change ?_ ?_ (fun w hw => hmap _ (hnotw w hw)) (fun b hb => ?_) ?_
    · rw [Function.update_eq_self]
      exact H.rings
    · obtain ⟨hxs, hys⟩ := H.sides hv hl hA
      rw [List.map_cons, List.map_cons] at hys
      have hcell : (h.setData a (some z)).deref (.cell a) = some z := Function.update_self ..
      rw [hv, List.map_append, List.map_cons, List.map_append, List.map_cons, hmap A hnotA, hmap B hnotB, hcell, hxs,
        (List.cons.inj hys).2]
    · by_cases hba : b = a
      · left
        rw [hba, hv]
        exact List.mem_append_right _ List.mem_cons_self
      have hdata : (h.setData a (some z)).data b = h.data b := Function.update_of_ne hba _ _
      obtain ⟨w, hw⟩ := H.owned b (hdata ▸ hb)
      by_cases hwv : w = v
      · exact Or.inl (hwv ▸ hw)
      · exact Or.inr ⟨w, hwv, hw⟩
    · rw [← H.length, Function.update_eq_self]
      rfl
  rwa [Function.update_eq_self] at hchange

/-- The first elements of the list are those of the other one already. -/
theorem assignLoop_spec {fuel : Nat} {A' B' : List Ptr} {xs ys ys' : List T} (H : Refines h ns ls) (hne : v ≠ x)
    (hv : ns v = A ++ B) (hx : ns x = A' ++ B') (hlv : ls v = xs ++ ys) (hlx : ls x = xs ++ ys')
    (hA : A.length = xs.length) (hA' : A'.length = xs.length) :
    (Heap.assignLoop m fuel v x n h (B.headD (.node v)) (B'.headD (.node x))).EndsIf
      (B.length < fuel ∧ B'.length < fuel ∧ B'.length < n)
      (fun h' => ∃ ns', Refines h' ns' (Function.update ls v (ls x)))
      (fun h' => ∃ ns' k, Refines h' ns' (Function.update ls v ((ls x).take k))) := by
  induction n generalizing h ns ls A A' B B' xs ys ys' with
  | zero => exact fun hc => Nat.not_lt_zero _ hc.2.2
  | succ n ih =>
      have hnode : ∀ w : Nat, ∀ c ∈ ns w, ∀ u : Nat, c ≠ .node u := fun w c hc u heq => by
        obtain ⟨a, _, ha, _⟩ := H.allocated hc
        rw [heq] at ha
        cases ha
      have hys := (H.sides hv hlv hA).2
      have hys' := (H.sides hx hlx hA').2
      unfold Heap.assignLoop
      cases B' with
      | nil =>
          -- the other list is at its end: what is left is erased
          obtain rfl : ys' = [] := List.map_eq_nil_iff.mp hys'.symm
          rw [List.headD_nil, if_neg (fun hc => hc.2 rfl), if_pos rfl]
          have hlength := congrArg List.length hys
          rw [List.length_map, List.length_map] at hlength
          have herase : (Heap.eraseRange v (List.headD [] (.node v)) fuel h ((B ++ []).headD (.node v))).EndsIf
              (B.length < fuel) (fun h' => Refines h' (Function.update ns v (A ++ [])) (Function.update ls v (xs ++ [])))
              (fun h' => ∃ ns' k, Refines h' ns' (Function.update ls v ((ls x).take k))) :=
            eraseRange_spec H (by rw [List.append_nil, hv]) (by rw [List.append_nil, hlv]) hA hlength
          rw [List.append_nil B] at herase
          refine (herase.imp (fun h' H' => ⟨Function.update ns v (A ++ []), ?_⟩) fun _ => id).weaken And.left
          rw [hlx]
          exact H'
      | cons d B' =>
          cases ys' with
          | nil => cases hys'
          | cons z ys' =>
              have hd : d ∈ ns x := hx ▸ List.mem_append_right _ List.mem_cons_self
              have hz : h.deref d = some z := (List.cons.inj hys').1
              cases B with
              | nil =>
                  -- the list is at its end: the rest of the other one is inserted
                  obtain rfl : ys = [] := List.map_eq_nil_iff.mp hys.symm
                  rw [List.headD_nil, List.headD_cons, if_neg (fun hc => hc.1 rfl), if_neg (hnode x d hd x)]
                  have hwalk := H.walk (B := []) (W := d :: B') (by rw [List.append_nil]; exact hx) hys'
                  rw [List.append_nil] at hwalk
                  have hbefore : A.getLastD (.node v) ∉ (d :: B').tail := by
                    intro hmem
                    refine H.rings.disjoint v x hne _ (around_mem hv).1 (List.mem_cons_of_mem _ ?_)
                    rw [hx]
                    exact List.mem_append_right _ (List.mem_of_mem_tail hmem)
                  have hinsert := insertRange_spec (m := m) (n := fuel) H hv hlv hA rfl hwalk hbefore
                  rw [List.append_nil] at hinsert
                  refine (hinsert.imp (fun h' ⟨ns', H'⟩ => ⟨ns', ?_⟩) fun h' ⟨ns', k, H'⟩ =>
                    ⟨ns', xs.length + k, ?_⟩).weaken fun hc => hc.2.1
                  · rw [hlx]
                    exact H'
                  · rw [hlx, List.take_length_add_append]
                    rwa [List.append_nil] at H'
              | cons c B =>
                  cases ys with
                  | nil => cases hys
                  | cons y ys =>
                      have hc : c ∈ ns v := hv ▸ List.mem_append_right _ List.mem_cons_self
                      obtain ⟨a, u, rfl, ha⟩ := H.allocated hc
                      rw [List.headD_cons, List.headD_cons, if_pos ⟨hnode v _ hc v, hnode x d hd x⟩, hz]
                      dsimp only
                      rw [if_neg (by simp [ha])]
                      have H₁ := setData_spec (z := z) H hv hlv hA
                      have hnext₁ : h.next (.cell a) = B.headD (.node v) := by
                        have hnp := (H.next_prev (hv.trans (List.append_cons ..))).1
                        rwa [List.getLastD_concat] at hnp
                      have hnext₂ : h.next d = B'.headD (.node x) := by
                        have hnp := (H.next_prev (hx.trans (List.append_cons ..))).1
                        rwa [List.getLastD_concat] at hnp
                      have hlx₁ : Function.update ls v (xs ++ z :: ys) x = xs ++ z :: ys' :=
                        (Function.update_of_ne (Ne.symm hne) _ _).trans hlx
                      have hrounds := ih H₁ (hv.trans (List.append_cons ..)) (hx.trans (List.append_cons ..))
                        ((Function.update_self ..).trans (List.append_cons ..)) (hlx₁.trans (List.append_cons ..))
                        (by simp [hA]) (by simp [hA'])
                      simp only [hlx₁, ← hlx, Function.update_idem] at hrounds
                      rw [hnext₁, hnext₂]
                      refine hrounds.weaken fun ⟨hB, hB', hn⟩ => ?_
                      simp only [List.length_cons] at hB hB' hn
                      omega

theorem assign_spec (H : Refines h ns ls) (v x n : Nat) :
    (h.assign m n v x).EndsIf ((ls v).length + (ls x).length < n)
      (fun h' => ∃ ns', Refines h' ns' (Function.update ls v (ls x)))
      (fun h' => ∃ ns' k, Refines h' ns' (Function.update ls v ((ls x).take k))) := by
  unfold Heap.assign
  split
  · next heq =>
      subst heq
      refine ⟨ns, ?_⟩
      rw [Function.update_eq_self]
      exact H
  · next hne =>
      have hlv := H.length_eq v
      have hlx := H.length_eq x
      rw [H.begin_eq, H.begin_eq]
      refine (assignLoop_spec (A := []) H hne rfl (List.nil_append _).symm (List.nil_append _).symm
        (List.nil_append _).symm rfl rfl).weaken fun hn => ?_
      omega

theorem assign_move_spec {Q : Heap T → Prop} (H : Refines h ns ls) (v x n : Nat) :
    (h.assign_move n v x).EndsIf ((ls v).length + (ls x).length < n)
      (fun h' => ∃ ns', Refines h' ns' (if v = x then ls else Function.update (Function.update ls x []) v (ls x)))
      Q := by
  unfold Heap.assign_move
  split
  · exact ⟨ns, H⟩
  rename_i hne
  refine (clear_spec H v n).bind (fun hn => by omega) fun h₁ H₁ => ?_
  have hlx : Function.update ls v [] x = ls x := Function.update_of_ne (Ne.symm hne) _ _
  have hnx : Function.update ns v [] x = ns x := Function.update_of_ne (Ne.symm hne) _ _
  have hlength := H.length_eq x
  have hsplice : (h₁.splice n v (.node v) x ((ns x ++ []).headD (.node x)) (List.headD [] (.node x))).EndsIf
      ((ns x).length ≤ n)
      (fun h' => Refines h'
        (Function.update (Function.update (Function.update ns v []) x ([] ++ [])) v ([] ++ (ns x ++ [])))
        (Function.update (Function.update (Function.update ls v []) x ([] ++ [])) v ([] ++ (ls x ++ [])))) Q := by
    refine splice_spec H₁ (A := []) ?_ ?_ rfl hlength rfl rfl ?_ ?_ rfl rfl
    · rw [hnx, List.append_nil, List.nil_append]
    · rw [hlx, List.append_nil, List.nil_append]
    · rw [Function.update_of_ne hne, Function.update_self, List.append_nil]
    · rw [Function.update_of_ne hne, Function.update_self, List.append_nil]
  simp only [List.append_nil, List.nil_append, Function.update_comm hne, Function.update_idem] at hsplice
  have hbegin : h₁.begin v = .node v := by
    rw [H₁.begin_eq, Function.update_self]
    rfl
  have hbegin' : h₁.begin x = (ns x).headD (.node x) := by rw [H₁.begin_eq, hnx]
  rw [hbegin, hbegin']
  refine (hsplice.imp (fun h' H' => ⟨Function.update (Function.update ns x []) v (ns x), ?_⟩) fun _ => id).weaken
    fun hn => by omega
  exact H'

end IdaSdk.Qlist
