import IdaSdk.QlistModel

/-!
What the functions of a list do to the rings of nodes and to the sequences of their data.
-/

namespace IdaSdk.Qlist
open Circular Outcomes

variable {T : Type} {m : Allocator} {h h' : Heap T} {ns : Nat → List Ptr} {ls : Nat → List T} {v w y : Nat}
  {A B C M W : List Ptr} {xs ys zs : List T} {p q c : Ptr} {x z : T} {n : Nat}

/-- The lists have the nodes `ns`, and these the data `ls`; every allocated node belongs to a list. -/
structure Refines (h : Heap T) (ns : Nat → List Ptr) (ls : Nat → List T) : Prop where
  rings : Rings h.toLinks Ptr.node ns
  values : ∀ v, (ns v).map h.deref = (ls v).map some
  owned : ∀ a, (h.data a).isSome → ∃ v, .cell a ∈ ns v
  length : ∀ v, h.length v = (ns v).length

theorem Refines.length_eq (H : Refines h ns ls) (v : Nat) : (ns v).length = (ls v).length := by
  have hlength := congrArg List.length (H.values v)
  rwa [List.length_map, List.length_map] at hlength

theorem Refines.allocated (H : Refines h ns ls) (hp : p ∈ ns v) : ∃ a x, p = .cell a ∧ h.data a = some x := by
  have hmem : h.deref p ∈ (ls v).map some := H.values v ▸ List.mem_map_of_mem hp
  obtain ⟨x, -, hx⟩ := List.mem_map.mp hmem
  cases p with
  | node w => cases hx
  | cell a => exact ⟨a, x, rfl, hx.symm⟩

variable {a : Nat}

theorem Refines.not_mem (H : Refines h ns ls) (ha : h.data a = none) (v : Nat) : .cell a ∉ ns v := by
  intro hmem
  obtain ⟨b, x, hb, hx⟩ := H.allocated hmem
  obtain rfl := Ptr.cell.inj hb
  rw [ha] at hx
  cases hx

theorem Refines.next_prev (H : Refines h ns ls) (hv : ns v = A ++ B) :
    h.next (A.getLastD (.node v)) = B.headD (.node v) ∧ h.prev (B.headD (.node v)) = A.getLastD (.node v) := by
  have hring := H.rings.ring v
  rw [hv] at hring
  exact (isRing_cut.mp hring).2.1

theorem Refines.begin_eq (H : Refines h ns ls) : h.begin v = (ns v).headD (.node v) :=
  (H.next_prev (A := []) rfl).1

theorem Refines.iterator_eq (H : Refines h ns ls) (hv : ns v = A ++ B) (hn : n = A.length) :
    h.iterator v n = B.headD (.node v) := by
  have hring := H.rings.ring v
  rw [hv] at hring
  rw [hn]
  exact hring.iterate

/-! ### Insertion -/

theorem linkin_links {tmp : Ptr} (hp : p ≠ tmp) (hq : h.prev p ≠ tmp) :
    (h.linkin v p tmp).toLinks = (h.toLinks.link (h.prev p) tmp).link tmp p := by
  have hprev : Function.update h.prev tmp (h.prev p) p = h.prev p := Function.update_of_ne hp _ _
  have hnext : (h.linkin v p tmp).next = Function.update (Function.update h.next tmp p) (h.prev p) tmp :=
    congrArg (fun q => Function.update (Function.update h.next tmp p) q tmp) hprev
  have hlink : ((h.toLinks.link (h.prev p) tmp).link tmp p).next =
      Function.update (Function.update h.next (h.prev p) tmp) tmp p := rfl
  have hcomm : (h.linkin v p tmp).next = ((h.toLinks.link (h.prev p) tmp).link tmp p).next := by
    rw [hnext, hlink, Function.update_comm hq]
  exact congrArg₂ Links.mk hcomm rfl

/-- What an insertion before `p` leaves as it is. -/
structure Inserted (h h' : Heap T) (p : Ptr) (a : Nat) : Prop where
  unused : h.data a = none
  next : ∀ q, q ≠ h.prev p → q ≠ .cell a → h'.next q = h.next q
  deref : ∀ q, q ≠ .cell a → h'.deref q = h.deref q

theorem deref_setData (h : Heap T) {o : Option T} (hq : q ≠ .cell a) : (h.setData a o).deref q = h.deref q := by
  cases q with
  | node w => rfl
  | cell b => exact Function.update_of_ne (fun heq => hq (congrArg Ptr.cell heq)) _ _

theorem Refines.sides (H : Refines h ns ls) (hv : ns v = A ++ B) (hl : ls v = xs ++ ys) (hA : A.length = xs.length) :
    A.map h.deref = xs.map some ∧ B.map h.deref = ys.map some := by
  have hvalues := H.values v
  rw [hv, hl, List.map_append, List.map_append] at hvalues
  exact List.append_inj hvalues (by rw [List.length_map, List.length_map, hA])

theorem Refines.change {l : List Ptr} (H : Refines h ns ls) (hrings : Rings h'.toLinks Ptr.node (Function.update ns v l))
    (hvalues : l.map h'.deref = xs.map some) (hother : ∀ w, w ≠ v → (ns w).map h'.deref = (ns w).map h.deref)
    (howned : ∀ a, (h'.data a).isSome → .cell a ∈ l ∨ ∃ w, w ≠ v ∧ .cell a ∈ ns w)
    (hlength : h'.length = Function.update h.length v l.length) :
    Refines h' (Function.update ns v l) (Function.update ls v xs) := by
  refine ⟨hrings, fun w => ?_, fun a ha => ?_, fun w => ?_⟩
  · by_cases hw : w = v
    · subst hw
      rwa [Function.update_self, Function.update_self]
    · rw [Function.update_of_ne hw, Function.update_of_ne hw, hother w hw, H.values]
  · cases howned a ha with
    | inl hmem => exact ⟨v, by rwa [Function.update_self]⟩
    | inr hmem =>
        obtain ⟨w, hw, hmem⟩ := hmem
        exact ⟨w, by rwa [Function.update_of_ne hw]⟩
  · rw [hlength]
    by_cases hw : w = v
    · subst hw
      rw [Function.update_self, Function.update_self]
    · rw [Function.update_of_ne hw, Function.update_of_ne hw, H.length]

theorem around_mem (hv : ns v = A ++ B) :
    A.getLastD (.node v) ∈ Ptr.node v :: ns v ∧ B.headD (.node v) ∈ Ptr.node v :: ns v := by
  rw [hv]
  refine ⟨?_, ?_⟩
  · rw [← List.cons_append]
    exact List.mem_append_left _ (getLastD_mem _ A)
  · have hmem := headD_mem (.node v) B
    simp only [List.mem_append, List.mem_cons, List.not_mem_nil, or_false] at hmem ⊢
    tauto

theorem insert_spec (H : Refines h ns ls) (hv : ns v = A ++ B) (hl : ls v = xs ++ ys) (hA : A.length = xs.length)
    (hp : p = B.headD (.node v)) (x : T) :
    (h.insert m v p x).Ends
      (fun h' => ∃ a, Inserted h h' p a ∧
        Refines h' (Function.update ns v (A ++ .cell a :: B)) (Function.update ls v (xs ++ x :: ys)))
      (· = h) := by
  unfold Heap.insert
  split
  · exact rfl
  rename_i a halloc
  have hunused : h.data a = none := Option.not_isSome_iff_eq_none.mp (by rw [m.unused _ a halloc]; decide)
  have hfresh : ∀ w, Ptr.cell a ∉ Ptr.node w :: ns w := by
    intro w hmem
    cases List.mem_cons.mp hmem with
    | inl heq => cases heq
    | inr hmem => exact H.not_mem hunused w hmem
  have hq : h.prev p = A.getLastD (.node v) := hp ▸ (H.next_prev hv).2
  obtain ⟨hlast, hfirst⟩ := around_mem hv
  have hpne : p ≠ .cell a := fun heq => hfresh v (heq ▸ hp ▸ hfirst)
  have hqne : h.prev p ≠ .cell a := fun heq => hfresh v (heq ▸ hq ▸ hlast)
  have hlinks : ((h.setData a (some x)).linkin v p (.cell a)).toLinks =
      (h.toLinks.link (h.prev p) (.cell a)).link (.cell a) p := linkin_links (h := h.setData a (some x)) hpne hqne
  have hderef : ∀ q, q ≠ .cell a → ((h.setData a (some x)).linkin v p (.cell a)).deref q = h.deref q :=
    fun q hne => deref_setData h hne
  have hmap : ∀ l : List Ptr, Ptr.cell a ∉ l →
      l.map ((h.setData a (some x)).linkin v p (.cell a)).deref = l.map h.deref :=
    fun l hl => List.map_congr_left fun q hmem => hderef q fun heq => hl (heq ▸ hmem)
  refine ⟨a, ⟨hunused, fun q hne hne' => ?_, hderef⟩, H.change ?_ ?_ ?_ ?_ ?_⟩
  · rw [hlinks]
    exact (Function.update_of_ne hne' _ _).trans (Function.update_of_ne hne _ _)
  · rw [hlinks, hq, hp]
    exact H.rings.attach hv (M := []) (List.isChain_singleton (Ptr.cell a)) (List.nodup_singleton _)
      fun w q hmem => List.mem_singleton.mp hmem ▸ hfresh w
  · obtain ⟨hxs, hys⟩ := H.sides hv hl hA
    have hnot := H.not_mem hunused v
    rw [hv, List.mem_append, not_or] at hnot
    have hcell : ((h.setData a (some x)).linkin v p (.cell a)).deref (.cell a) = some x := Function.update_self ..
    rw [List.map_append, List.map_cons, List.map_append, List.map_cons, hmap A hnot.1, hmap B hnot.2, hcell, hxs, hys]
  · exact fun w _ => hmap _ (H.not_mem hunused w)
  · intro b hb
    by_cases hab : b = a
    · exact Or.inl (hab ▸ List.mem_append_right _ List.mem_cons_self)
    have hdata : ((h.setData a (some x)).linkin v p (.cell a)).data b = h.data b := Function.update_of_ne hab _ _
    obtain ⟨w, hw⟩ := H.owned b (hdata ▸ hb)
    by_cases hwv : w = v
    · subst hwv
      rw [hv] at hw
      exact Or.inl ((List.Sublist.append_left (List.sublist_cons_self ..) A).mem hw)
    · exact Or.inr ⟨w, hwv, hw⟩
  · have hlen : ((h.setData a (some x)).linkin v p (.cell a)).length =
        Function.update h.length v (h.length v + 1) := rfl
    rw [hlen, H.length, hv]
    congr 1
    simp only [List.length_append, List.length_cons]
    omega

/-! ### Insertion of a range -/

theorem insertValues_spec (H : Refines h ns ls) (hv : ns v = A ++ B) (hl : ls v = xs ++ ys) (hA : A.length = xs.length)
    (hp : p = B.headD (.node v)) :
    (h.insertValues m v p zs).Ends
      (fun h' => ∃ ns', Refines h' ns' (Function.update ls v (xs ++ (zs ++ ys))))
      (fun h' => ∃ ns' k, Refines h' ns' (Function.update ls v (xs ++ (zs.take k ++ ys)))) := by
  induction zs generalizing h ns ls A xs with
  | nil =>
      refine ⟨ns, ?_⟩
      rw [List.nil_append, ← hl, Function.update_eq_self]
      exact H
  | cons z zs ih =>
      refine Outcome.EndsIf.andThen ((insert_spec H hv hl hA hp z).imp (fun _ => id) fun h' hh' => ?_)
        fun h₁ ⟨a, _, H₁⟩ => ?_
      · refine ⟨ns, 0, ?_⟩
        rw [hh', List.take_zero, List.nil_append, ← hl, Function.update_eq_self]
        exact H
      have hrest := ih H₁ ((Function.update_self ..).trans (List.append_cons ..))
        ((Function.update_self ..).trans (List.append_cons ..)) (by simp [hA])
      refine hrest.imp (fun h₂ ⟨ns', H₂⟩ => ⟨ns', ?_⟩) fun h₂ ⟨ns', k, H₂⟩ => ⟨ns', k + 1, ?_⟩
      · rw [Function.update_idem, List.append_assoc] at H₂
        exact H₂
      · rw [Function.update_idem, List.append_assoc] at H₂
        exact H₂

/-- From `first` the nodes `W` are passed, with the data `zs`, until `last` is reached. -/
def Walk (h : Heap T) (last : Ptr) : Ptr → List Ptr → List T → Prop
  | first, [], [] => first = last
  | first, w :: W, z :: zs => first = w ∧ w ≠ last ∧ h.deref w = some z ∧ Walk h last (h.next w) W zs
  | _, _, _ => False

variable {first last : Ptr}

theorem Walk.frame (hw : Walk h last first W zs) (hnext : ∀ w ∈ W, h'.next w = h.next w)
    (hderef : ∀ w ∈ W, h'.deref w = h.deref w) : Walk h' last first W zs := by
  induction W generalizing first zs with
  | nil =>
      cases zs with
      | nil => exact hw
      | cons z zs => exact hw.elim
  | cons w W ih =>
      cases zs with
      | nil => exact hw.elim
      | cons z zs =>
          obtain ⟨hfirst, hne, hz, hrest⟩ := hw
          refine ⟨hfirst, hne, (hderef w List.mem_cons_self).trans hz, ?_⟩
          rw [hnext w List.mem_cons_self]
          exact ih hrest (fun w hw => hnext w (List.mem_cons_of_mem _ hw)) fun w hw =>
            hderef w (List.mem_cons_of_mem _ hw)

theorem Walk.allocated (hw : Walk h last first W zs) : ∀ w ∈ W, (h.deref w).isSome := by
  induction W generalizing first zs with
  | nil => exact fun w hw => nomatch hw
  | cons w W ih =>
      cases zs with
      | nil => exact hw.elim
      | cons z zs =>
          obtain ⟨-, -, hz, hrest⟩ := hw
          intro u hu
          cases List.mem_cons.mp hu with
          | inl heq =>
              rw [heq, hz]
              rfl
          | inr hu => exact ih hrest u hu

theorem Refines.walk (H : Refines h ns ls) (hy : ns y = C ++ (W ++ B)) (hW : W.map h.deref = zs.map some) :
    Walk h (B.headD (.node y)) ((W ++ B).headD (.node y)) W zs := by
  induction W generalizing C zs with
  | nil =>
      obtain rfl : zs = [] := List.map_eq_nil_iff.mp hW.symm
      exact rfl
  | cons w W ih =>
      cases zs with
      | nil => cases hW
      | cons z zs =>
          rw [List.map_cons, List.map_cons] at hW
          obtain ⟨hz, hrest⟩ := List.cons.inj hW
          have hnodup := H.rings.nodup y
          rw [hy] at hnodup
          have hy' : ns y = (C ++ [w]) ++ (W ++ B) := hy.trans (by simp)
          refine ⟨rfl, fun heq => (pieces hnodup).right w List.mem_cons_self (heq ▸ headD_mem _ B), hz, ?_⟩
          have hnext := (H.next_prev hy').1
          rw [List.getLastD_concat] at hnext
          rw [hnext]
          exact ih hy' hrest

theorem insertRange_spec (H : Refines h ns ls) (hv : ns v = A ++ B) (hl : ls v = xs ++ ys)
    (hA : A.length = xs.length) (hp : p = B.headD (.node v)) (hw : Walk h last first W zs)
    (hbefore : A.getLastD (.node v) ∉ W.tail) :
    (Heap.insertRange m v p last n h first).EndsIf (W.length < n)
      (fun h' => ∃ ns', Refines h' ns' (Function.update ls v (xs ++ (zs ++ ys))))
      (fun h' => ∃ ns' k, Refines h' ns' (Function.update ls v (xs ++ (zs.take k ++ ys)))) := by
  induction W generalizing h ns ls A xs zs first n with
  | nil =>
      cases zs with
      | cons z zs => exact hw.elim
      | nil =>
          cases n with
          | zero => exact Nat.not_lt_zero _
          | succ n =>
              rw [Heap.insertRange, if_pos (show first = last from hw)]
              refine ⟨ns, ?_⟩
              rw [List.nil_append, ← hl, Function.update_eq_self]
              exact H
  | cons w W ih =>
      cases zs with
      | nil => exact hw.elim
      | cons z zs =>
          cases n with
          | zero => exact Nat.not_lt_zero _
          | succ n =>
              have hallocated := hw.allocated
              obtain ⟨rfl, hne, hz, hrest⟩ := hw
              rw [Heap.insertRange, if_neg hne, hz]
              dsimp only
              refine Outcome.EndsIf.andThen ((insert_spec H hv hl hA hp z).imp (fun _ => id) fun h' hh' => ?_)
                fun h₁ ⟨a, hinserted, H₁⟩ => ?_
              · refine ⟨ns, 0, ?_⟩
                rw [hh', List.take_zero, List.nil_append, ← hl, Function.update_eq_self]
                exact H
              have hcell : ∀ w ∈ W, w ≠ .cell a := by
                rintro w hw rfl
                have hsome := hallocated (.cell a) (List.mem_cons_of_mem _ hw)
                rw [show h.deref (.cell a) = none from hinserted.unused] at hsome
                cases hsome
              have hprev : h.prev p = A.getLastD (.node v) := hp ▸ (H.next_prev hv).2
              -- the node before the position is passed already, or not in the range
              have hwalk : Walk h₁ last _ W zs := hrest.frame
                (fun w hw => hinserted.next w (fun heq => hbefore (by rw [← hprev, ← heq]; exact hw)) (hcell w hw))
                fun w hw => hinserted.deref w (hcell w hw)
              have hrounds := ih (n := n) H₁ ((Function.update_self ..).trans (List.append_cons ..))
                ((Function.update_self ..).trans (List.append_cons ..)) (by simp [hA]) hwalk
                (by rw [List.getLastD_concat]; exact fun hmem => hcell _ (List.mem_of_mem_tail hmem) rfl)
              refine (hrounds.imp (fun h₂ ⟨ns', H₂⟩ => ⟨ns', ?_⟩) fun h₂ ⟨ns', k, H₂⟩ =>
                ⟨ns', k + 1, ?_⟩).weaken Nat.lt_of_succ_lt_succ
              · rw [Function.update_idem, List.append_assoc] at H₂
                exact H₂
              · rw [Function.update_idem, List.append_assoc] at H₂
                exact H₂

theorem insertRange_endless (H : Refines h ns ls) (hv : ns v = (A ++ first :: C) ++ B)
    (hl : ls v = xs ++ ys) (hA : (A ++ first :: C).length = xs.length) (hp : p = B.headD (.node v)) (hC : C ≠ [])
    (hlast : last ∈ B ++ [.node v]) :
    (Heap.insertRange m v p last n h first).EndsIf False (fun _ => False)
      (fun h' => ∃ ns' zs', Refines h' ns' (Function.update ls v (xs ++ (zs' ++ ys)))) := by
  induction n generalizing h ns ls A C xs first with
  | zero => exact not_false
  | succ n ih =>
      have hnodup := H.rings.nodup v
      have hv' : ns v = A ++ ((first :: C) ++ B) := hv.trans (List.append_assoc ..)
      have hmem : first ∈ ns v := by
        rw [hv']
        exact List.mem_append_right _ (List.mem_append_left _ List.mem_cons_self)
      have hne : first ≠ last := by
        rw [hv'] at hnodup
        exact fun heq => (pieces hnodup).right first List.mem_cons_self (heq ▸ hlast)
      obtain ⟨b, z, hb, hz⟩ := H.allocated hmem
      have hderef : h.deref first = some z := hb ▸ hz
      obtain ⟨c, C, rfl⟩ := List.exists_cons_of_ne_nil hC
      have hnext : h.next first = c := by
        have hsplit : ns v = (A ++ [first]) ++ (c :: C ++ B) := hv'.trans (by simp)
        have hnp := (H.next_prev hsplit).1
        rwa [List.getLastD_concat] at hnp
      rw [Heap.insertRange, if_neg hne, hderef]
      dsimp only
      refine Outcome.EndsIf.andThen ((insert_spec H hv hl hA hp z).imp (fun _ => id) fun h' hh' => ?_)
        fun h₁ ⟨a, _, H₁⟩ => ?_
      · refine ⟨ns, [], ?_⟩
        rw [hh', List.nil_append, ← hl, Function.update_eq_self]
        exact H
      rw [hnext]
      have hnodes : Function.update ns v (A ++ first :: c :: C ++ Ptr.cell a :: B) v =
          ((A ++ [first]) ++ c :: (C ++ [Ptr.cell a])) ++ B := (Function.update_self ..).trans (by simp)
      have hrounds := ih H₁ hnodes ((Function.update_self ..).trans (List.append_cons ..))
        (by
          rw [List.length_append] at hA ⊢
          simp at hA ⊢
          omega) (by simp)
      refine hrounds.imp (fun _ => id) fun h₂ ⟨ns', zs', H₂⟩ => ⟨ns', z :: zs', ?_⟩
      rw [Function.update_idem, List.append_assoc] at H₂
      exact H₂

/-! ### Removal -/

/-- The nodes around the nodes from `p` to `q` are linked. -/
def unlink (h : Heap T) (p q : Ptr) : Heap T :=
  let h := h.setNext (h.prev p) (h.next q)
  h.setPrev (h.next q) (h.prev p)

theorem unlink_links (hne : q ≠ h.prev p) : (unlink h p q).toLinks = h.toLinks.link (h.prev p) (h.next q) := by
  have hnext : (h.setNext (h.prev p) (h.next q)).next q = h.next q := Function.update_of_ne hne _ _
  change (h.setNext (h.prev p) (h.next q)).toLinks.setPrev ((h.setNext (h.prev p) (h.next q)).next q) (h.prev p) = _
  rw [hnext]
  rfl

theorem erase_eq (ha : h.data a = some x) : h.erase v (.cell a) =
    .done (((unlink h (.cell a) (.cell a)).setData a none).setLength v (h.length v - 1), h.next (.cell a)) := by
  unfold Heap.erase
  dsimp only
  rw [if_neg (by simp [ha])]
  rfl

theorem Refines.mem_split (H : Refines h ns ls) (hv : ns v = A ++ (M ++ B)) (hp : p ∈ M) :
    p ∉ A ∧ p ∉ B ∧ p ≠ A.getLastD (.node v) ∧ ∀ w, w ≠ v → p ∉ ns w := by
  have hnodup := H.rings.nodup v
  rw [hv] at hnodup
  have hp' := pieces hnodup
  have hleft := hp'.left p hp
  refine ⟨fun hmem => hleft (List.mem_cons_of_mem _ hmem), fun hmem => hp'.right p hp (List.mem_append_left _ hmem),
    fun heq => hleft (heq ▸ getLastD_mem _ A), fun w hw hmem => ?_⟩
  refine H.rings.disjoint v w (Ne.symm hw) p ?_ (List.mem_cons_of_mem _ hmem)
  rw [hv]
  exact List.mem_cons_of_mem _ (List.mem_append_right _ (List.mem_append_left _ hp))

variable {Q : Heap T → Prop}

theorem erase_spec (H : Refines h ns ls) (hv : ns v = A ++ c :: B) (hl : ls v = xs ++ x :: ys)
    (hA : A.length = xs.length) :
    (h.erase v c).Ends
      (fun r => r.2 = B.headD (.node v) ∧
        Refines r.1 (Function.update ns v (A ++ B)) (Function.update ls v (xs ++ ys))) Q := by
  have hv' : ns v = A ++ ([c] ++ B) := hv
  obtain ⟨hnotA, hnotB, hlast, hnotw⟩ := H.mem_split hv' (List.mem_singleton.mpr rfl)
  obtain ⟨a, x', rfl, ha⟩ := H.allocated (v := v) (p := c) (hv ▸ List.mem_append_right _ List.mem_cons_self)
  have hprev : h.prev (.cell a) = A.getLastD (.node v) := (H.next_prev hv).2
  have hnext : h.next (.cell a) = B.headD (.node v) := by
    have hnp := (H.next_prev (hv'.trans (List.append_assoc ..).symm)).1
    rwa [List.getLastD_concat] at hnp
  rw [erase_eq ha]
  refine ⟨hnext, H.change ?_ ?_ ?_ ?_ ?_⟩
  · have hlinks := unlink_links (h := h) (p := .cell a) (q := .cell a) (hprev ▸ hlast)
    rw [hprev, hnext] at hlinks
    exact hlinks ▸ (H.rings.detach hv').1
  · obtain ⟨hxs, hys⟩ := H.sides hv hl hA
    rw [List.map_cons, List.map_cons] at hys
    have hmap : ∀ l : List Ptr, Ptr.cell a ∉ l → l.map (h.setData a none).deref = l.map h.deref := fun l hl =>
      List.map_congr_left fun q hmem => deref_setData h fun heq => hl (heq ▸ hmem)
    refine Eq.trans (b := (A ++ B).map (h.setData a none).deref) rfl ?_
    rw [List.map_append, List.map_append, hmap A hnotA, hmap B hnotB, hxs, (List.cons.inj hys).2]
  · intro w hw
    exact List.map_congr_left fun q hmem => deref_setData h fun heq => hnotw w hw (heq ▸ hmem)
  · intro b hb
    have hba : b ≠ a := by
      rintro rfl
      have hnone : (((unlink h (.cell b) (.cell b)).setData b none).setLength v (h.length v - 1)).data b = none :=
        Function.update_self ..
      rw [hnone] at hb
      cases hb
    have hdata : (((unlink h (.cell a) (.cell a)).setData a none).setLength v (h.length v - 1)).data b = h.data b :=
      Function.update_of_ne hba _ _
    obtain ⟨w, hw⟩ := H.owned b (hdata ▸ hb)
    by_cases hwv : w = v
    · subst hwv
      rw [hv'] at hw
      refine Or.inl ?_
      simp only [List.mem_append, List.mem_singleton, Ptr.cell.injEq] at hw ⊢
      tauto
    · exact Or.inr ⟨w, hwv, hw⟩
  · have hlen : (((unlink h (.cell a) (.cell a)).setData a none).setLength v (h.length v - 1)).length =
        Function.update h.length v (h.length v - 1) := rfl
    rw [hlen, H.length, hv]
    congr 1
    simp only [List.length_append, List.length_cons]
    omega

theorem eraseRange_spec (H : Refines h ns ls) (hv : ns v = A ++ (M ++ B))
    (hl : ls v = xs ++ (zs ++ ys)) (hA : A.length = xs.length) (hM : M.length = zs.length) :
    (Heap.eraseRange v (B.headD (.node v)) n h ((M ++ B).headD (.node v))).EndsIf (M.length < n)
      (fun h' => Refines h' (Function.update ns v (A ++ B)) (Function.update ls v (xs ++ ys))) Q := by
  induction M generalizing h ns ls zs n with
  | nil =>
      obtain rfl : zs = [] := List.length_eq_zero_iff.mp hM.symm
      cases n with
      | zero => exact Nat.not_lt_zero _
      | succ n =>
          rw [Heap.eraseRange, List.nil_append, if_pos rfl]
          change Refines h _ _
          have hns : A ++ B = ns v := hv.symm
          have hls : xs ++ ys = ls v := hl.symm
          rw [hns, hls, Function.update_eq_self, Function.update_eq_self]
          exact H
  | cons c M ih =>
      cases zs with
      | nil => cases hM
      | cons z zs =>
          cases n with
          | zero => exact Nat.not_lt_zero _
          | succ n =>
              have hne : c ≠ B.headD (.node v) := by
                have hnodup := H.rings.nodup v
                rw [hv] at hnodup
                exact fun heq => (pieces hnodup).right c List.mem_cons_self (heq ▸ headD_mem _ B)
              rw [Heap.eraseRange, List.cons_append, List.headD_cons, if_neg hne]
              refine Outcome.EndsIf.andThen (erase_spec H hv hl hA) fun ⟨h₁, p₁⟩ ⟨hp₁, H₁⟩ => ?_
              dsimp only at hp₁
              subst hp₁
              have hrest := ih (n := n) H₁ (Function.update_self ..) (Function.update_self ..) (Nat.succ.inj hM)
              rw [Function.update_idem, Function.update_idem] at hrest
              exact hrest.weaken Nat.lt_of_succ_lt_succ

theorem clear_spec (H : Refines h ns ls) (v n : Nat) :
    (h.clear n v).EndsIf ((ls v).length < n)
      (fun h' => Refines h' (Function.update ns v []) (Function.update ls v [])) Q := by
  have hrange : (Heap.eraseRange v (List.headD [] (.node v)) n h ((ns v ++ []).headD (.node v))).EndsIf
      ((ns v).length < n)
      (fun h' => Refines h' (Function.update ns v ([] ++ [])) (Function.update ls v ([] ++ []))) Q :=
    eraseRange_spec H (List.append_nil _).symm (List.append_nil _).symm rfl (H.length_eq v)
  rw [H.length_eq, List.append_nil, ← H.begin_eq] at hrange
  exact hrange

/-! ### Moving nodes -/

theorem countRange_spec (H : Refines h ns ls) (hy : ns y = A ++ ((c :: M) ++ B)) :
    h.countRange (M.getLastD c) n c = if M.length < n then some (M.length + 1) else none := by
  induction M generalizing A c n with
  | nil =>
      cases n with
      | zero => rfl
      | succ n =>
          rw [Heap.countRange, if_pos (show c = [].getLastD c from rfl),
            if_pos (show [].length < n + 1 from Nat.succ_pos n)]
          rfl
  | cons d M ih =>
      have hy' : ns y = (A ++ [c]) ++ ((d :: M) ++ B) := hy.trans (by simp)
      cases n with
      | zero => rfl
      | succ n =>
          have hnodup := H.rings.nodup y
          rw [hy] at hnodup
          have hne : c ≠ M.getLastD d := by
            have hM := (pieces hnodup).nodup
            exact fun heq => (List.nodup_cons.mp hM).1 (heq ▸ getLastD_mem d M)
          have hnext : h.next c = d := by
            have hnp := (H.next_prev hy').1
            rwa [List.getLastD_concat] at hnp
          rw [List.getLastD_cons, Heap.countRange, if_neg hne, hnext, ih hy', List.length_cons]
          by_cases hn : M.length < n
          · rw [if_pos hn, if_pos (by omega)]
            rfl
          · rw [if_neg hn, if_neg (by omega)]
            rfl

/-- The nodes from `c` to `last` are put before `pos`. -/
def relink (h : Heap T) (pos c last : Ptr) : Heap T :=
  let before := h.prev pos
  let h := h.setNext before c
  let h := h.setPrev c before
  let h := h.setNext last pos
  h.setPrev pos last

def moveRange (h : Heap T) (v : Nat) (pos : Ptr) (other : Nat) (first last_node : Ptr) (sublength : Nat) : Heap T :=
  let h := (unlink h first last_node).setLength other (h.length other - sublength)
  let h := relink h pos first last_node
  h.setLength v (h.length v + sublength)

variable {other : Nat} {pos : Ptr}

theorem splice_eq (H : Refines h ns ls) (ho : ns other = A ++ ((c :: M) ++ B))
    (hlast : last = B.headD (.node other)) :
    h.splice n v pos other c last = if c = h.begin other ∧ last = .node other ∨ M.length < n then
      .done (moveRange h v pos other c (M.getLastD c) (M.length + 1)) else .undefined := by
  have ho' : ns other = (A ++ c :: M) ++ B := ho.trans (List.append_assoc ..).symm
  have hnodup := H.rings.nodup other
  rw [ho] at hnodup
  have hne : c ≠ last := fun heq => (pieces hnodup).right c List.mem_cons_self (heq ▸ hlast ▸ headD_mem _ B)
  have hprev : h.prev last = M.getLastD c := by
    rw [hlast, (H.next_prev ho').2, getLastD_append_cons]
  have hcount : (if c = h.begin other ∧ last = .node other then some (h.length other)
      else h.countRange (M.getLastD c) n c) =
      if c = h.begin other ∧ last = .node other ∨ M.length < n then some (M.length + 1) else none := by
    by_cases hall : c = h.begin other ∧ last = .node other
    · rw [if_pos hall, if_pos (Or.inl hall), H.length, ho]
      obtain ⟨hbegin, hend⟩ := hall
      have hA : A = [] := by
        cases A with
        | nil => rfl
        | cons a A =>
            rw [H.begin_eq, ho] at hbegin
            obtain rfl : c = a := hbegin
            have hnot := (List.nodup_cons.mp (List.nodup_cons.mp hnodup).2).1
            exact absurd (List.mem_append_right _ (List.mem_append_left _ List.mem_cons_self)) hnot
      have hB : B = [] := by
        cases B with
        | nil => rfl
        | cons b B =>
            rw [hlast] at hend
            obtain rfl : b = .node other := hend
            have hnot := (List.nodup_cons.mp hnodup).1
            exact absurd (List.mem_append_right _ (List.mem_append_right _ List.mem_cons_self)) hnot
      simp [hA, hB]
    · rw [if_neg hall, countRange_spec H ho]
      simp only [hall, false_or]
  unfold Heap.splice
  rw [if_neg hne, hprev]
  dsimp only
  rw [hcount]
  by_cases hc : c = h.begin other ∧ last = .node other ∨ M.length < n
  · rw [if_pos hc, if_pos hc]
    rfl
  · rw [if_neg hc, if_neg hc]

theorem Refines.take_out (H : Refines h ns ls) (ho : ns y = A ++ (M ++ B)) (hl : ls y = xs ++ (zs ++ ys))
    (hA : A.length = xs.length) (hM : M.length = zs.length) :
    M.map h.deref = zs.map some ∧
      ∀ w, (Function.update ns y (A ++ B) w).map h.deref = (Function.update ls y (xs ++ ys) w).map some := by
  obtain ⟨hxs, hzys⟩ := H.sides ho hl hA
  rw [List.map_append, List.map_append] at hzys
  obtain ⟨hzs, hys⟩ := List.append_inj hzys (by rw [List.length_map, List.length_map, hM])
  refine ⟨hzs, fun w => ?_⟩
  by_cases hw : w = y
  · subst hw
    rw [Function.update_self, Function.update_self, List.map_append, List.map_append, hxs, hys]
  · rw [Function.update_of_ne hw, Function.update_of_ne hw, H.values]

theorem put_in {f : Ptr → Option T} (hvalues : ∀ w, (ns w).map f = (ls w).map some) (hv : ns v = A ++ B)
    (hl : ls v = xs ++ ys) (hA : A.length = xs.length) (hM : M.map f = zs.map some) (w : Nat) :
    (Function.update ns v (A ++ (M ++ B)) w).map f = (Function.update ls v (xs ++ (zs ++ ys)) w).map some := by
  by_cases hw : w = v
  · subst hw
    have hsides := hvalues w
    rw [hv, hl, List.map_append, List.map_append] at hsides
    obtain ⟨hxs, hys⟩ := List.append_inj hsides (by rw [List.length_map, List.length_map, hA])
    rw [Function.update_self, Function.update_self, List.map_append, List.map_append, List.map_append,
      List.map_append, hxs, hys, hM]
  · rw [Function.update_of_ne hw, Function.update_of_ne hw, hvalues]

theorem mem_take_out {x : Ptr} (ho : ns y = A ++ (M ++ B)) (hx : x ∈ ns w) :
    x ∈ M ∨ x ∈ Function.update ns y (A ++ B) w := by
  by_cases hw : w = y
  · subst hw
    rw [ho] at hx
    rw [Function.update_self]
    simp only [List.mem_append] at hx ⊢
    tauto
  · rw [Function.update_of_ne hw]
    exact Or.inr hx

theorem mem_put_in {x : Ptr} (hv : ns v = A ++ B) (hx : x ∈ M ∨ x ∈ ns w) :
    ∃ w, x ∈ Function.update ns v (A ++ (M ++ B)) w := by
  cases hx with
  | inl hmem =>
      refine ⟨v, ?_⟩
      rw [Function.update_self]
      exact List.mem_append_right _ (List.mem_append_left _ hmem)
  | inr hmem =>
      refine ⟨w, ?_⟩
      by_cases hw : w = v
      · subst hw
        rw [hv] at hmem
        rw [Function.update_self]
        simp only [List.mem_append] at hmem ⊢
        tauto
      · rwa [Function.update_of_ne hw]

theorem length_take_out (ho : ns y = A ++ (M ++ B)) (w : Nat) :
    Function.update (fun w => (ns w).length) y ((ns y).length - M.length) w =
      (Function.update ns y (A ++ B) w).length := by
  by_cases hw : w = y
  · subst hw
    rw [Function.update_self, Function.update_self, ho]
    simp only [List.length_append]
    omega
  · rw [Function.update_of_ne hw, Function.update_of_ne hw]

theorem length_put_in (hv : ns v = A ++ B) (w : Nat) :
    Function.update (fun w => (ns w).length) v ((ns v).length + M.length) w =
      (Function.update ns v (A ++ (M ++ B)) w).length := by
  by_cases hw : w = v
  · subst hw
    rw [Function.update_self, Function.update_self, hv]
    simp only [List.length_append]
    omega
  · rw [Function.update_of_ne hw, Function.update_of_ne hw]

theorem Refines.unlink_range (H : Refines h ns ls) (ho : ns y = A ++ ((c :: M) ++ B)) :
    (unlink h c (M.getLastD c)).toLinks = h.toLinks.link (A.getLastD (.node y)) (B.headD (.node y)) := by
  have hprev : h.prev c = A.getLastD (.node y) := (H.next_prev ho).2
  have hnext : h.next (M.getLastD c) = B.headD (.node y) := by
    have hnp := (H.next_prev (ho.trans (List.append_assoc ..).symm)).1
    rwa [getLastD_append_cons] at hnp
  obtain ⟨-, -, hlast, -⟩ := H.mem_split ho (getLastD_mem c M)
  rw [unlink_links (hprev ▸ hlast), hprev, hnext]

variable {ns' : Nat → List Ptr}

theorem moveRange_spec {ls' : Nat → List T} {A' B' : List Ptr}
    {xs' ys' : List T} (H : Refines h ns ls) (ho : ns other = A ++ ((c :: M) ++ B)) (hl : ls other = xs ++ (zs ++ ys))
    (hA : A.length = xs.length) (hM : (c :: M).length = zs.length)
    (hns' : ns' = Function.update ns other (A ++ B)) (hls' : ls' = Function.update ls other (xs ++ ys))
    (hv : ns' v = A' ++ B') (hl' : ls' v = xs' ++ ys') (hA' : A'.length = xs'.length)
    (hpos : pos = B'.headD (.node v)) :
    Refines (moveRange h v pos other c (M.getLastD c) (M.length + 1)) (Function.update ns' v (A' ++ ((c :: M) ++ B')))
      (Function.update ls' v (xs' ++ (zs ++ ys'))) := by
  obtain ⟨hrings, hpath, hfresh⟩ := H.rings.detach ho
  rw [← hns', ← H.unlink_range ho] at hrings
  rw [← H.unlink_range ho] at hpath
  rw [← hns'] at hfresh
  have hbefore : (unlink h c (M.getLastD c)).prev pos = A'.getLastD (.node v) := by
    have hring := hrings.ring v
    rw [hv] at hring
    exact hpos ▸ (isRing_cut.mp hring).2.1.2
  have hlinks : (moveRange h v pos other c (M.getLastD c) (M.length + 1)).toLinks =
      ((unlink h c (M.getLastD c)).toLinks.link (A'.getLastD (.node v)) c).link (M.getLastD c)
        (B'.headD (.node v)) := by
    rw [← hbefore, ← hpos]
    rfl
  obtain ⟨hzs, hvalues⟩ := H.take_out ho hl hA hM
  rw [← hns', ← hls'] at hvalues
  refine ⟨?_, fun w => ?_, fun a ha => ?_, fun w => ?_⟩
  · have hnodup := H.rings.nodup other
    rw [ho] at hnodup
    rw [hlinks]
    exact hrings.attach hv hpath (pieces hnodup).nodup hfresh
  · have hderef : (moveRange h v pos other c (M.getLastD c) (M.length + 1)).deref = h.deref := by
      funext q
      cases q <;> rfl
    rw [hderef]
    exact put_in hvalues hv hl' hA' hzs w
  · obtain ⟨w, hw⟩ := H.owned a ha
    exact mem_put_in hv (hns' ▸ mem_take_out ho hw)
  · have hlength : h.length = fun w => (ns w).length := funext H.length
    have hdetached : Function.update h.length other (h.length other - (c :: M).length) =
        fun w => (ns' w).length := by
      funext w
      rw [hlength, hns']
      exact length_take_out ho w
    have hmoved : (moveRange h v pos other c (M.getLastD c) (M.length + 1)).length =
        Function.update (Function.update h.length other (h.length other - (c :: M).length)) v
          (Function.update h.length other (h.length other - (c :: M).length) v + (c :: M).length) := rfl
    rw [hmoved, hdetached]
    exact length_put_in hv w

theorem splice_spec {ls' : Nat → List T}
    {A' B' : List Ptr} {xs' ys' : List T} (H : Refines h ns ls) (ho : ns other = A ++ (M ++ B))
    (hl : ls other = xs ++ (zs ++ ys)) (hA : A.length = xs.length) (hM : M.length = zs.length)
    (hns' : ns' = Function.update ns other (A ++ B)) (hls' : ls' = Function.update ls other (xs ++ ys))
    (hv : ns' v = A' ++ B') (hl' : ls' v = xs' ++ ys') (hA' : A'.length = xs'.length)
    (hpos : pos = B'.headD (.node v)) :
    (h.splice n v pos other ((M ++ B).headD (.node other)) (B.headD (.node other))).EndsIf (M.length ≤ n)
      (fun h' => Refines h' (Function.update ns' v (A' ++ (M ++ B'))) (Function.update ls' v (xs' ++ (zs ++ ys')))) Q := by
  cases M with
  | nil =>
      obtain rfl : zs = [] := List.length_eq_zero_iff.mp hM.symm
      have hns : ns' = ns := by
        have hupdate : A ++ B = ns other := ho.symm
        rw [hns', hupdate, Function.update_eq_self]
      have hls : ls' = ls := by
        have hupdate : xs ++ ys = ls other := hl.symm
        rw [hls', hupdate, Function.update_eq_self]
      unfold Heap.splice
      rw [List.nil_append, if_pos rfl, List.nil_append, List.nil_append, ← hv, ← hl', Function.update_eq_self,
        Function.update_eq_self, hns, hls]
      exact H
  | cons c M =>
      rw [List.cons_append, List.headD_cons, splice_eq H ho rfl]
      split
      · exact moveRange_spec H ho hl hA hM hns' hls' hv hl' hA' hpos
      · next hn =>
          intro hle
          exact hn (Or.inr hle)

end IdaSdk.Qlist
