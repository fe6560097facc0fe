import IdaSdk.JavaXtrnSort

/-!
The slots of sorted references: a reference has the slot of the first one of its class if it is like it, and else one of
its own.
-/

namespace IdaSdk.JavaXtrn
open Function

section
variable {parse : List UInt16 → parsed_t} {cp : constant_pool_t} {this j k : Nat} {co cr d : const_desc_t}
  {refs : List Nat} {s s' s'' : sort_t}

/-- The slots from `s` to `s'` are assigned one after another. -/
def Numbered (s s' : sort_t) : Prop :=
  ∃ new, s'.slots = s.slots ++ new ∧ new.map Prod.fst = List.range' (s.ui + 1) new.length ∧ s'.ui = s.ui + new.length

theorem Numbered.refl (s : sort_t) : Numbered s s := ⟨[], (List.append_nil _).symm, rfl, rfl⟩

theorem Numbered.trans (h : Numbered s s') (h' : Numbered s' s'') : Numbered s s'' := by
  obtain ⟨new, hslots, hnew, hui⟩ := h
  obtain ⟨new', hslots', hnew', hui'⟩ := h'
  refine ⟨new ++ new', by rw [hslots', hslots, List.append_assoc],
    ?_, by rw [hui', hui, List.length_append, Nat.add_assoc]⟩
  rw [List.map_append, hnew, hnew', hui, List.length_append, ← List.range'_append_1, Nat.add_right_comm]

theorem Numbered.le (h : Numbered s s') : s.ui ≤ s'.ui := by
  obtain ⟨new, _, _, hui⟩ := h
  omega

theorem Numbered.mem (h : Numbered s s') {x : Nat × Nat} (hx : x ∈ s.slots) : x ∈ s'.slots := by
  obtain ⟨new, hslots, _⟩ := h
  rw [hslots]
  exact List.mem_append_left _ hx

theorem numbered_nextSlot (s : sort_t) (j : Nat) : Numbered s (nextSlot s j) := ⟨[(s.ui + 1, j)], rfl, rfl, rfl⟩

theorem numbered_foldl (js : List Nat) (s : sort_t) : Numbered s (js.foldl nextSlot s) := by
  induction js generalizing s with
  | nil => exact .refl s
  | cons j js ih => exact (numbered_nextSlot s j).trans (ih _)

theorem Numbered.pool (h : Numbered s s') (pool : Nat → Option const_desc_t) : Numbered s { s' with pool := pool } := h

theorem foldl_nextSlot_of_mem {js : List Nat} (hnodup : js.Nodup) (h : k ∈ js) (hd : s.pool k = some d) :
    ∃ x, s.ui < x ∧ (js.foldl nextSlot s).pool k = some { d with ref_ip := x } ∧
      (x, k) ∈ (js.foldl nextSlot s).slots := by
  induction js generalizing s with
  | nil => exact absurd h List.not_mem_nil
  | cons j js ih =>
      obtain ⟨hnot, hrest⟩ := List.nodup_cons.1 hnodup
      rw [List.foldl_cons]
      obtain rfl | hmem := List.mem_cons.1 h
      · refine ⟨s.ui + 1, Nat.lt_succ_self _, ?_, (numbered_foldl js _).mem ?_⟩
        · rw [foldl_nextSlot_of_not_mem hnot]
          exact setSlot_self.trans (by rw [hd]; rfl)
        · exact List.mem_append_right _ (List.mem_singleton.2 rfl)
      · have hkj : k ≠ j := fun h => hnot (h ▸ hmem)
        have hd' : (nextSlot s j).pool k = some d := (setSlot_of_ne hkj).trans hd
        obtain ⟨x, hlt, hx⟩ := ih hrest hmem hd'
        exact ⟨x, (Nat.lt_succ_self _).trans hlt, hx⟩

/-- What one sweep gives to a class: its own slot, that of the first reference and those like it, and the others. -/
structure Taken (parse : List UInt16 → parsed_t) (cp : constant_pool_t) (j : Nat) (co : const_desc_t) (refs : List Nat)
    (s s' : sort_t) : Prop where
  numbered : Numbered s s'
  cls : ∀ cr, s.pool co.ref_ip = some cr → s'.pool co.ref_ip = some { cr with ref_ip := s.ui + 1 }
  cls_mem : (s.ui + 1, co.ref_ip) ∈ s'.slots
  first : s'.pool j = some { co with ref_ip := s.ui + 2 }
  first_mem : (s.ui + 2, j) ∈ s'.slots
  like : ∀ k ∈ refs, ∀ d, s.pool k = some d → d.ref_ip = co.ref_ip → Alike parse cp co d →
    s'.pool k = some { d with ref_ip := s.ui + 2 }
  other : ∀ k ∈ refs, ∀ d, s.pool k = some d → d.ref_ip = co.ref_ip → ¬Alike parse cp co d →
    ∃ x, s.ui + 2 < x ∧ s'.pool k = some { d with ref_ip := x } ∧ (x, k) ∈ s'.slots

theorem taken (hco : s.pool j = some co) (hnodup : refs.Nodup) (hj : j ∉ refs) (hic : co.ref_ip ∉ refs)
    (hicj : co.ref_ip ≠ j) : Taken parse cp j co refs s (takeClass parse cp j co refs s) := by
  have hjic : j ≠ co.ref_ip := hicj.symm
  have hnumbered : Numbered s (nextSlot (nextSlot s co.ref_ip) j) :=
    (numbered_nextSlot s co.ref_ip).trans (numbered_nextSlot _ j)
  have hrest (k : Nat) (hk : k ∉ refs) :
      (takeClass parse cp j co refs s).pool k = (nextSlot (nextSlot s co.ref_ip) j).pool k := by
    rw [takeClass, foldl_nextSlot_of_not_mem fun h => hk (List.mem_filter.1 h).1]
    exact foldl_setSlot_of_not_mem fun h => hk (List.mem_filter.1 h).1
  have hstart (k : Nat) (hk : k ∈ refs) : (nextSlot (nextSlot s co.ref_ip) j).pool k = s.pool k := by
    have hkj : k ≠ j := fun h => hj (h ▸ hk)
    have hkic : k ≠ co.ref_ip := fun h => hic (h ▸ hk)
    exact (setSlot_of_ne hkj).trans (setSlot_of_ne hkic)
  have hall : Numbered s (takeClass parse cp j co refs s) := (hnumbered.pool _).trans (numbered_foldl _ _)
  have hslots : ∀ x ∈ (nextSlot (nextSlot s co.ref_ip) j).slots, x ∈ (takeClass parse cp j co refs s).slots := by
    intro x hx
    exact (numbered_foldl _ _).mem hx
  refine ⟨hall, fun cr hcr => ?_, hslots _ ?_, ?_, hslots _ ?_, fun k hk d hd hip hlike => ?_,
    fun k hk d hd hip hlike => ?_⟩
  · rw [hrest _ hic]
    refine (setSlot_of_ne hicj).trans (setSlot_self.trans ?_)
    rw [hcr]
    rfl
  · exact List.mem_append_left _ (List.mem_append_right _ (List.mem_singleton.2 rfl))
  · rw [hrest _ hj]
    refine setSlot_self.trans ?_
    rw [show (nextSlot s co.ref_ip).pool j = s.pool j from setSlot_of_ne hjic, hco]
    rfl
  · exact List.mem_append_right _ (List.mem_singleton.2 rfl)
  · have hdup : isDup parse cp s.pool co.ref_ip co k = true := (isDup_some hd).2 ⟨hip, hlike⟩
    have hnot : k ∉ refs.filter fun k => ofClass s.pool co.ref_ip k && !isDup parse cp s.pool co.ref_ip co k := by
      intro h
      have htrue := (List.mem_filter.1 h).2
      rw [hdup, Bool.not_true, Bool.and_false] at htrue
      exact Bool.false_ne_true htrue
    rw [takeClass, foldl_nextSlot_of_not_mem hnot]
    refine (foldl_setSlot_of_mem (List.mem_filter.2 ⟨hk, hdup⟩)).trans ?_
    rw [hstart k hk, hd]
    rfl
  · have hdup : isDup parse cp s.pool co.ref_ip co k = false :=
      Bool.eq_false_iff.2 fun h => hlike ((isDup_some hd).1 h).2
    have hmem : k ∈ refs.filter fun k => ofClass s.pool co.ref_ip k && !isDup parse cp s.pool co.ref_ip co k := by
      refine List.mem_filter.2 ⟨hk, ?_⟩
      rw [hdup, (ofClass_some hd).2 hip]
      rfl
    have hnot : k ∉ refs.filter (isDup parse cp s.pool co.ref_ip co) := fun h =>
      Bool.false_ne_true (hdup.symm.trans (List.mem_filter.1 h).2)
    have hd' : (refs.filter (isDup parse cp s.pool co.ref_ip co)).foldl (setSlot (s.ui + 2))
        (nextSlot (nextSlot s co.ref_ip) j).pool k = some d := by
      rw [foldl_setSlot_of_not_mem hnot, hstart k hk, hd]
    exact @foldl_nextSlot_of_mem k d { nextSlot (nextSlot s co.ref_ip) j with pool := _ } _ (hnodup.filter _) hmem hd'

/-! ### All classes -/

/-- The first of the references to the class `ic` that are not to the class itself. -/
structure First (this : Nat) (s : sort_t) (refs : List Nat) (ic m : Nat) (e : const_desc_t) : Prop where
  mem : m ∈ refs
  pool : s.pool m = some e
  ref_ip : e.ref_ip = ic
  _class : e._class ≠ this
  least : ∀ k ∈ refs, ∀ d, s.pool k = some d → d.ref_ip = ic → d._class ≠ this → m ≤ k

/-- The slots `c` of a class and `x` of its first reference `m`, and those of the others. -/
structure Grouped (parse : List UInt16 → parsed_t) (cp : constant_pool_t) (refs : List Nat) (s s' : sort_t) (ic m : Nat)
    (e : const_desc_t) (c x : Nat) : Prop where
  start : s.ui < c
  lt : c < x
  cls : ∀ cr, s.pool ic = some cr → s'.pool ic = some { cr with ref_ip := c }
  cls_mem : (c, ic) ∈ s'.slots
  first : s'.pool m = some { e with ref_ip := x }
  first_mem : (x, m) ∈ s'.slots
  like : ∀ k ∈ refs, ∀ d, s.pool k = some d → d.ref_ip = ic → m < k → Alike parse cp e d →
    s'.pool k = some { d with ref_ip := x }
  other : ∀ k ∈ refs, ∀ d, s.pool k = some d → d.ref_ip = ic → m < k → ¬Alike parse cp e d →
    ∃ y, x < y ∧ s'.pool k = some { d with ref_ip := y } ∧ (y, k) ∈ s'.slots

/-- What the sweeps leave. -/
structure Sorted (parse : List UInt16 → parsed_t) (cp : constant_pool_t) (this : Nat) (refs : List Nat)
    (s s' : sort_t) :
    Prop where
  numbered : Numbered s s'
  still : Still s.pool s'.pool
  rest : ∀ k ∉ refs, (∀ j ∈ refs, ∀ d, s.pool j = some d → d._class ≠ this → d.ref_ip ≠ k) → s'.pool k = s.pool k
  own : ∀ j ∈ refs, ∀ d, s.pool j = some d → d._class = this → (∀ m e, First this s refs d.ref_ip m e → j < m) →
    s'.pool j = some { d with ref_ip := 0 }
  group : ∀ ic m e, First this s refs ic m e → ∃ c x, Grouped parse cp refs s s' ic m e c x

section
variable {refs' : List Nat} {ic m : Nat} {e : const_desc_t}

theorem First.mono (h : First this s refs ic m e) (hsub : ∀ k ∈ refs', k ∈ refs)
    (hpool : ∀ k ∈ refs', s'.pool k = s.pool k) (hm : m ∈ refs') : First this s' refs' ic m e where
  mem := hm
  pool := (hpool m hm).trans h.pool
  ref_ip := h.ref_ip
  _class := h._class
  least k hk d hd := h.least k (hsub k hk) d ((hpool k hk).symm.trans hd)

theorem First.of (h : First this s' refs' ic m e) (hsub : ∀ k ∈ refs', k ∈ refs)
    (hpool : ∀ k ∈ refs', s'.pool k = s.pool k)
    (hall : ∀ k ∈ refs, ∀ d, s.pool k = some d → d.ref_ip = ic → d._class ≠ this → k ∈ refs') :
    First this s refs ic m e where
  mem := hsub m h.mem
  pool := (hpool m h.mem).symm.trans h.pool
  ref_ip := h.ref_ip
  _class := h._class
  least k hk d hd hip hne := by
    have hk' := hall k hk d hd hip hne
    exact h.least k hk' d ((hpool k hk').trans hd) hip hne

theorem Sorted.nil (s : sort_t) : Sorted parse cp this [] s s where
  numbered := .refl s
  still _ := rfl
  rest _ _ _ := rfl
  own _ hj := absurd hj List.not_mem_nil
  group _ _ _ h := absurd h.mem List.not_mem_nil

theorem Sorted.cons_own {t : sort_t} (h : Sorted parse cp this refs t s')
    (ht : t = { s with pool := setSlot 0 s.pool j })
    (hco : s.pool j = some co) (hthis : co._class = this) (hlt : ∀ k ∈ refs, j < k) (hready : Ready s (j :: refs)) :
    Sorted parse cp this (j :: refs) s s' := by
  have hsub : ∀ k ∈ refs, k ∈ j :: refs := fun k hk => List.mem_cons_of_mem j hk
  have hne (k : Nat) (hk : k ∈ refs) : k ≠ j := Nat.ne_of_gt (hlt k hk)
  have hother (k : Nat) (hk : k ≠ j) : t.pool k = s.pool k := by
    rw [ht]
    exact setSlot_of_ne hk
  have hpool : ∀ k ∈ refs, t.pool k = s.pool k := fun k hk => hother k (hne k hk)
  have hself : t.pool j = some { co with ref_ip := 0 } := by
    rw [ht]
    exact setSlot_self.trans (by rw [hco]; rfl)
  have hui : t.ui = s.ui := by rw [ht]
  have hslots : t.slots = s.slots := by rw [ht]
  have hcons {k : Nat} {d : const_desc_t} (hk : k ∈ j :: refs) (hd : s.pool k = some d) (hclass : d._class ≠ this) :
      k ∈ refs := by
    obtain rfl | hk := List.mem_cons.1 hk
    · obtain rfl := Option.some.inj (hco.symm.trans hd)
      exact (hclass hthis).elim
    · exact hk
  refine ⟨?_, ?_, fun k hk hip => ?_, fun k hk d hd hclass hfirst => ?_, fun ic m e hfirst => ?_⟩
  · obtain ⟨new, hnew, hmap, hlen⟩ := h.numbered
    exact ⟨new, hslots ▸ hnew, hui ▸ hmap, hui ▸ hlen⟩
  · refine Still.trans ?_ h.still
    rw [ht]
    exact still_setSlot 0 s.pool j
  · rw [List.mem_cons, not_or] at hk
    rw [← hother k hk.1]
    exact h.rest k hk.2 fun i hi d hd => hip i (hsub i hi) d ((hpool i hi).symm.trans hd)
  · obtain rfl | hk := List.mem_cons.1 hk
    · obtain rfl := Option.some.inj (hco.symm.trans hd)
      rw [← hself]
      refine h.rest k (fun hmem => hne k hmem rfl) fun i hi d hd _ hip => ?_
      obtain ⟨d', cr, hd', _, hcr, htype⟩ := hready i (hsub i hi)
      obtain rfl := Option.some.inj (((hpool i hi).symm.trans hd).symm.trans hd')
      exact hready.class_not_mem hcr htype (hip ▸ List.mem_cons_self)
    · refine h.own k hk d ((hpool k hk).trans hd) hclass fun m e hm => ?_
      exact hfirst m e (hm.of hsub hpool fun i hi d' hd' _ hne' => hcons hi hd' hne')
  · have hm : m ∈ refs := hcons hfirst.mem hfirst.pool hfirst._class
    obtain ⟨c, x, hgroup⟩ := h.group ic m e (hfirst.mono hsub hpool hm)
    have hafter {k : Nat} (hk : k ∈ j :: refs) (hmk : m < k) : k ∈ refs := by
      obtain rfl | hk := List.mem_cons.1 hk
      · exact absurd (hlt m hm) (by omega)
      · exact hk
    refine ⟨c, x, hui ▸ hgroup.start, hgroup.lt, fun cr hcr => ?_, hgroup.cls_mem, hgroup.first, hgroup.first_mem,
      fun k hk d hd hip hmk => ?_, fun k hk d hd hip hmk => ?_⟩
    · obtain ⟨d, cr', hd, _, hcr', htype⟩ := hready m hfirst.mem
      obtain rfl := Option.some.inj (hfirst.pool.symm.trans hd)
      rw [hfirst.ref_ip] at hcr'
      have hicj : ic ≠ j := fun hicj => hready.class_not_mem hcr' htype (hicj ▸ List.mem_cons_self)
      exact hgroup.cls cr ((hother ic hicj).trans hcr)
    · have hk' := hafter hk hmk
      exact hgroup.like k hk' d ((hpool k hk').trans hd) hip hmk
    · have hk' := hafter hk hmk
      exact hgroup.other k hk' d ((hpool k hk').trans hd) hip hmk

/-- A class is the next one. -/
theorem Sorted.cons_next {t : sort_t} (ht : t = takeClass parse cp j co refs s)
    (h : Sorted parse cp this (refs.filter fun k => !ofClass s.pool co.ref_ip k) t s') (hco : s.pool j = some co)
    (hthis : co._class ≠ this) (hlt : ∀ k ∈ refs, j < k) (hnodup : refs.Nodup) (hready : Ready s (j :: refs)) :
    Sorted parse cp this (j :: refs) s s' := by
  have hj : j ∉ refs := fun hj => Nat.lt_irrefl j (hlt j hj)
  obtain ⟨co', cr, hco', -, hcr, htype⟩ := hready j List.mem_cons_self
  obtain rfl := Option.some.inj (hco.symm.trans hco')
  have hicmem : co.ref_ip ∉ j :: refs := hready.class_not_mem hcr htype
  have hicrefs : co.ref_ip ∉ refs := fun hic => hicmem (List.mem_cons_of_mem j hic)
  have hicj : co.ref_ip ≠ j := fun hic => hicmem (hic ▸ List.mem_cons_self)
  have htaken : Taken parse cp j co refs s t := ht ▸ taken hco hnodup hj hicrefs hicj
  have hclass {k : Nat} {d : const_desc_t} (hk : k ∈ j :: refs) (hd : s.pool k = some d) : d.ref_ip ∉ j :: refs := by
    obtain ⟨d', cr', hd', _, hcr', htype'⟩ := hready k hk
    obtain rfl := Option.some.inj (hd.symm.trans hd')
    exact hready.class_not_mem hcr' htype'
  -- the references of other classes stay
  have hsub : ∀ k ∈ refs.filter (fun k => !ofClass s.pool co.ref_ip k), k ∈ j :: refs :=
    fun k hk => List.mem_cons_of_mem j (List.mem_filter.1 hk).1
  have hpool : ∀ k ∈ refs.filter (fun k => !ofClass s.pool co.ref_ip k), t.pool k = s.pool k := by
    intro k hk
    obtain ⟨hmem, hfalse⟩ := List.mem_filter.1 hk
    rw [ht]
    exact takeClass_other (fun h => hj (h ▸ hmem)) (fun h => hicrefs (h ▸ hmem)) fun _ => Bool.not_eq_true' _ ▸ hfalse
  have hkeep {k : Nat} {d : const_desc_t} (hk : k ∈ j :: refs) (hd : s.pool k = some d) (hip : d.ref_ip ≠ co.ref_ip) :
      k ∈ refs.filter fun k => !ofClass s.pool co.ref_ip k := by
    obtain rfl | hk := List.mem_cons.1 hk
    · obtain rfl := Option.some.inj (hco.symm.trans hd)
      exact (hip rfl).elim
    · refine List.mem_filter.2 ⟨hk, ?_⟩
      rw [Bool.not_eq_true', Bool.eq_false_iff]
      exact fun htrue => hip ((ofClass_some hd).1 htrue)
  have hgone {k : Nat} {d : const_desc_t} (hd : s.pool k = some d) (hip : d.ref_ip = co.ref_ip) :
      k ∉ refs.filter fun k => !ofClass s.pool co.ref_ip k := by
    intro hk
    have hfalse := (List.mem_filter.1 hk).2
    rw [(ofClass_some hd).2 hip] at hfalse
    exact Bool.false_ne_true hfalse
  have hrest (k : Nat) (hk : k ∉ refs.filter fun k => !ofClass s.pool co.ref_ip k)
      (hip : k = co.ref_ip ∨ k ∈ j :: refs) : s'.pool k = t.pool k := by
    refine h.rest k hk fun i hi d hd _ heq => ?_
    have hd' := (hpool i hi).symm.trans hd
    obtain rfl | hmem := hip
    · exact hgone hd' heq hi
    · exact hclass (hsub i hi) hd' (heq ▸ hmem)
  have hj' : First this s (j :: refs) co.ref_ip j co := by
    refine ⟨List.mem_cons_self, hco, rfl, hthis, fun k hk d _ _ _ => ?_⟩
    obtain rfl | hk := List.mem_cons.1 hk
    · exact Nat.le_refl k
    · exact (hlt k hk).le
  refine ⟨htaken.numbered.trans h.numbered, ?_, fun k hk hip => ?_, fun k hk d hd hown hfirst => ?_,
    fun ic m e hfirst => ?_⟩
  · exact Still.trans (ht ▸ takeClass_still j co refs s) h.still
  · have hkj : k ≠ j := fun h => hk (h ▸ List.mem_cons_self)
    have hkic : k ≠ co.ref_ip := (hip j List.mem_cons_self co hco hthis).symm
    have hkrefs : k ∉ refs := fun h => hk (List.mem_cons_of_mem j h)
    have hsame : t.pool k = s.pool k := ht ▸ takeClass_other hkj hkic fun h => (hkrefs h).elim
    rw [← hsame]
    exact h.rest k (fun h => hk (hsub k h)) fun i hi d hd => hip i (hsub i hi) d ((hpool i hi).symm.trans hd)
  · have hip : d.ref_ip ≠ co.ref_ip := fun hip => by
      have hkj := hfirst j co (hip ▸ hj')
      obtain rfl | hk := List.mem_cons.1 hk
      · exact Nat.lt_irrefl k hkj
      · exact Nat.lt_asymm hkj (hlt k hk)
    have hk' := hkeep hk hd hip
    refine h.own k hk' d ((hpool k hk').trans hd) hown fun m e hm => ?_
    exact hfirst m e (hm.of hsub hpool fun i hi d' hd' hip' _ => hkeep hi hd' (hip'.symm ▸ hip))
  · by_cases hic : ic = co.ref_ip
    · subst hic
      have hmj : m = j := Nat.le_antisymm (hfirst.least j List.mem_cons_self co hco rfl hthis)
        (hj'.least m hfirst.mem e hfirst.pool hfirst.ref_ip hfirst._class)
      subst hmj
      obtain rfl := Option.some.inj (hco.symm.trans hfirst.pool)
      have hafter {k : Nat} (hk : k ∈ m :: refs) (hmk : m < k) : k ∈ refs := by
        obtain rfl | hk := List.mem_cons.1 hk
        · exact absurd hmk (Nat.lt_irrefl k)
        · exact hk
      refine ⟨s.ui + 1, s.ui + 2, Nat.lt_succ_self _, Nat.lt_succ_self _, fun cr hcr => ?_,
        h.numbered.mem htaken.cls_mem, ?_,
        h.numbered.mem htaken.first_mem, fun k hk d hd hip hmk hlike => ?_, fun k hk d hd hip hmk hlike => ?_⟩
      · rw [hrest _ (fun h => hicmem (hsub _ h)) (Or.inl rfl)]
        exact htaken.cls cr hcr
      · rw [hrest m (hgone hco rfl) (Or.inr List.mem_cons_self)]
        exact htaken.first
      · rw [hrest k (hgone hd hip) (Or.inr hk)]
        exact htaken.like k (hafter hk hmk) d hd hip hlike
      · obtain ⟨y, hy, hpooly, hmem⟩ := htaken.other k (hafter hk hmk) d hd hip hlike
        refine ⟨y, hy, ?_, h.numbered.mem hmem⟩
        rw [hrest k (hgone hd hip) (Or.inr hk)]
        exact hpooly
    · have hkeep' {k : Nat} {d : const_desc_t} (hk : k ∈ j :: refs) (hd : s.pool k = some d) (hip : d.ref_ip = ic) :
          k ∈ refs.filter fun k => !ofClass s.pool co.ref_ip k := hkeep hk hd (hip.symm ▸ hic)
      have hm := hkeep' hfirst.mem hfirst.pool hfirst.ref_ip
      obtain ⟨c, x, hgroup⟩ := h.group ic m e (hfirst.mono hsub hpool hm)
      have hcls : t.pool ic = s.pool ic := by
        have hmem : ic ∉ j :: refs := hfirst.ref_ip ▸ hclass hfirst.mem hfirst.pool
        rw [ht]
        refine takeClass_other (fun h => hmem (h ▸ List.mem_cons_self)) hic fun h => ?_
        exact (hmem (List.mem_cons_of_mem j h)).elim
      refine ⟨c, x, htaken.numbered.le.trans_lt hgroup.start, hgroup.lt, fun cr hcr => hgroup.cls cr (hcls.trans hcr),
        hgroup.cls_mem, hgroup.first, hgroup.first_mem, fun k hk d hd hip hmk => ?_, fun k hk d hd hip hmk => ?_⟩
      · have hk' := hkeep' hk hd hip
        exact hgroup.like k hk' d ((hpool k hk').trans hd) hip hmk
      · have hk' := hkeep' hk hd hip
        exact hgroup.other k hk' d ((hpool k hk').trans hd) hip hmk

end

theorem Sorts.sorted (h : Sorts parse cp this refs s s') (hsorted : refs.Pairwise (· < ·)) (hready : Ready s refs) :
    Sorted parse cp this refs s s' := by
  induction h with
  | nil => exact .nil _
  | @own j refs co s s' hco hthis _ ih =>
      obtain ⟨hlt, hrest⟩ := List.pairwise_cons.1 hsorted
      refine (ih hrest ?_).cons_own rfl hco hthis hlt hready
      refine hready.keep (still_setSlot 0 s.pool j) (fun k hk => List.mem_cons_of_mem j hk) fun k hk => ?_
      exact setSlot_of_ne (Nat.ne_of_gt (hlt k hk))
  | @next j refs co s s' hco hthis _ ih =>
      obtain ⟨hlt, hrest⟩ := List.pairwise_cons.1 hsorted
      refine .cons_next rfl (ih (hrest.filter _) ?_) hco hthis hlt (hrest.imp Nat.ne_of_lt) hready
      refine hready.keep (takeClass_still j co _ s) (fun k hk => List.mem_cons_of_mem j (List.mem_filter.1 hk).1)
        fun k hk => ?_
      obtain ⟨hmem, hfalse⟩ := List.mem_filter.1 hk
      obtain ⟨co', cr, hco', -, hcr, htype⟩ := hready j List.mem_cons_self
      obtain rfl := Option.some.inj (hco.symm.trans hco')
      refine takeClass_other (Nat.ne_of_gt (hlt k hmem)) (fun h => ?_) fun _ => Bool.not_eq_true' _ ▸ hfalse
      exact hready.class_not_mem hcr htype (h ▸ List.mem_cons_of_mem j hmem)

end

end IdaSdk.JavaXtrn
