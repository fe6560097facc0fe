import IdaSdk.JavaXtrnSlots

/-!
The classes after the references: the first class of a name gets a slot if no reference has given one to it, and the
others get the slot of the first one.
-/

namespace IdaSdk.JavaXtrn
open Function

section
variable (parse : List UInt16 → parsed_t) (cp : constant_pool_t)

/-- The classes with names are in the database, and each has the first one with its name. -/
structure Classes (pool : Nat → Option const_desc_t) : Prop where
  represents : ∀ k d, pool k = some d → d.type = .Class → Represents parse cp k d._subnam
  named : ∀ k, Named parse cp k → ∃ d, pool k = some d ∧ d.type = .Class

/-- The state in front of the index `i`. -/
structure Resting (this i : Nat) (s s' : sort_t) : Prop where
  pos : 0 < i
  numbered : Numbered s s'
  still : Still s.pool s'.pool
  keep : ∀ k, (FirstClass parse cp k k → k ≠ this → (∃ d, s.pool k = some d ∧ d.ref_ip ≠ 0) ∨ i ≤ k) →
    s'.pool k = s.pool k
  given : ∀ k < i, ∀ d, FirstClass parse cp k k → k ≠ this → s.pool k = some d → d.ref_ip = 0 →
    ∃ x, s.ui < x ∧ s'.pool k = some { d with ref_ip := x } ∧ (x, k) ∈ s'.slots

/-- The state in front of the index `i`. -/
structure Copying (i : Nat) (s s' : sort_t) : Prop where
  slots : s'.slots = s.slots
  ui : s'.ui = s.ui
  still : Still s.pool s'.pool
  keep : ∀ k, (∀ r, FirstClass parse cp k r → r ≠ k → i ≤ k) → s'.pool k = s.pool k
  copied : ∀ k < i, ∀ r d e, FirstClass parse cp k r → r ≠ k → s.pool k = some d → s.pool r = some e →
    s'.pool k = some { d with ref_ip := e.ref_ip }

end

section
variable {parse : List UInt16 → parsed_t} {cp : constant_pool_t} {this i k r : Nat} {d : const_desc_t}
  {pool pool' : Nat → Option const_desc_t} {s t : sort_t}

theorem Still.symm (h : Still pool pool') : Still pool' pool := fun k => (h k).symm

theorem FirstClass.of_named (h : FirstClass parse cp k r) : Named parse cp k := by
  obtain ⟨n, hn, hflag⟩ := h.named
  have hname : className cp k = some (cp.string n) := h.same.symm.trans (className_eq hn)
  rw [className] at hname
  cases hcon : cp.constant k with
  | none =>
      rw [hcon] at hname
      cases hname
  | some con =>
      rw [hcon] at hname
      cases con with
      | Class n' =>
          refine ⟨n', hcon, ?_⟩
          rw [utf8Flag, Option.some.inj hname]
          exact hflag
      | _ => cases hname

theorem Classes.still (h : Classes parse cp pool) (hstill : Still pool pool') : Classes parse cp pool' where
  represents k d hd htype := by
    obtain ⟨d', hd', heq⟩ := hstill.symm.some hd
    have hsub : d'.still._subnam = d.still._subnam := congrArg const_desc_t._subnam heq
    have htype' : d'.still.type = d.still.type := congrArg const_desc_t.type heq
    have hsub' : d'._subnam = d._subnam := hsub
    exact hsub' ▸ h.represents k d' hd' (htype'.trans htype)
  named k hk := by
    obtain ⟨d, hd, htype⟩ := h.named k hk
    obtain ⟨d', hd', heq⟩ := hstill.some hd
    have htype' : d'.still.type = d.still.type := congrArg const_desc_t.type heq
    exact ⟨d', hd', htype'.trans htype⟩

theorem Classes.subnam (h : Classes parse cp pool) (hr : FirstClass parse cp k r) (hd : pool k = some d) :
    d.type = .Class ∧ d._subnam = r := by
  obtain ⟨d', hd', htype⟩ := h.named k hr.of_named
  obtain rfl := Option.some.inj (hd.symm.trans hd')
  obtain ⟨_, hfirst⟩ | ⟨hnot, _⟩ := h.represents k d hd htype
  · exact ⟨htype, hfirst.unique hr⟩
  · exact (hnot hr.of_named).elim

theorem Resting.step (h : Resting parse cp this i s t) (hclasses : Classes parse cp s.pool) :
    ∃ t', sortRest this i t = some t' ∧ Resting parse cp this (i + 1) s t' := by
  have hsame : t.pool i = s.pool i := h.keep i fun _ _ => Or.inr (Nat.le_refl i)
  have hstay (hno : ∀ d, FirstClass parse cp i i → i ≠ this → s.pool i = some d → d.ref_ip ≠ 0) :
      Resting parse cp this (i + 1) s t := by
    refine ⟨Nat.succ_pos i, h.numbered, h.still, fun k hk => h.keep k fun hfirst hthis => ?_,
      fun k hk d hfirst hthis hd hip => ?_⟩
    · exact (hk hfirst hthis).imp_right fun hle => by omega
    · obtain hlt | rfl := Nat.lt_succ_iff_lt_or_eq.1 hk
      · exact h.given k hlt d hfirst hthis hd hip
      · exact (hno d hfirst hthis hd hip).elim
  rw [sortRest, hsame]
  cases hco : s.pool i with
  | none => exact ⟨t, rfl, hstay fun d _ _ hd => nomatch hco.symm.trans hd⟩
  | some co =>
      dsimp only
      by_cases hcond : co.type = .Class ∧ co._subnam = i ∧ i ≠ this ∧ co.ref_ip = 0
      · obtain ⟨htype, hsub, hthis, hip⟩ := hcond
        rw [if_pos ⟨htype, hsub, hthis, hip⟩, ← nextSlot_eq (hsame.trans hco)]
        refine ⟨_, rfl, Nat.succ_pos i, h.numbered.trans (numbered_nextSlot t i),
          h.still.trans (still_setSlot _ t.pool i),
          fun k hk => ?_, fun k hk d hfirst hne hd hip' => ?_⟩
        · have hki : k ≠ i := by
            rintro rfl
            have hrep := hclasses.represents k co hco htype
            rw [hsub] at hrep
            obtain ⟨_, hfirst⟩ | ⟨_, hzero⟩ := hrep
            · obtain ⟨d, hd, hne⟩ | hle := hk hfirst hthis
              · obtain rfl := Option.some.inj (hco.symm.trans hd)
                exact hne hip
              · omega
            · exact absurd h.pos (by omega)
          refine (setSlot_of_ne hki).trans (h.keep k fun hfirst hne => ?_)
          exact (hk hfirst hne).imp_right fun hle => by omega
        · obtain hlt | rfl := Nat.lt_succ_iff_lt_or_eq.1 hk
          · obtain ⟨x, hx, hpool, hmem⟩ := h.given k hlt d hfirst hne hd hip'
            exact ⟨x, hx, (setSlot_of_ne (Nat.ne_of_lt hlt)).trans hpool, List.mem_append_left _ hmem⟩
          · refine ⟨t.ui + 1, Nat.lt_succ_of_le h.numbered.le, setSlot_self.trans ?_, ?_⟩
            · rw [hsame, hd]
              rfl
            · exact List.mem_append_right _ (List.mem_singleton.2 rfl)
      · rw [if_neg hcond]
        refine ⟨t, rfl, hstay fun d hfirst hthis hd hip => ?_⟩
        obtain rfl := Option.some.inj (hco.symm.trans hd)
        obtain ⟨htype, hsub⟩ := hclasses.subnam hfirst hco
        exact hcond ⟨htype, hsub, hthis, hip⟩

theorem sortRest_resting (n : Nat) (hclasses : Classes parse cp s.pool) :
    ∃ t, forEachIndex (sortRest this) n 1 s = some t ∧ Resting parse cp this (1 + n) s t := by
  have hstart : Resting parse cp this 1 s s := by
    refine ⟨Nat.one_pos, .refl s, fun _ => rfl, fun k _ => rfl, ?_⟩
    intro k hk d hfirst hthis hd hip
    obtain ⟨n, hn, _⟩ := hfirst.named
    have hpos := (constant_bounds hn).1
    omega
  exact @forEachIndex_ends sort_t (sortRest this) (fun i t => Resting parse cp this i s t)
    (fun i t ht => ht.step hclasses) n 1 s hstart

theorem Copying.step (h : Copying parse cp i s t) (hclasses : Classes parse cp s.pool) (hi : 0 < i) :
    ∃ t', copySlot i t = some t' ∧ Copying parse cp (i + 1) s t' := by
  have hsame : t.pool i = s.pool i := h.keep i fun _ _ _ => Nat.le_refl i
  have hstay (hno : ∀ r d, FirstClass parse cp i r → s.pool i = some d → r = i) : Copying parse cp (i + 1) s t := by
    refine ⟨h.slots, h.ui, h.still, fun k hk => h.keep k fun r hr hne => ?_, fun k hk r d e hr hne hd he => ?_⟩
    · exact (Nat.le_succ i).trans (hk r hr hne)
    · obtain hlt | rfl := Nat.lt_succ_iff_lt_or_eq.1 hk
      · exact h.copied k hlt r d e hr hne hd he
      · exact (hne (hno r d hr hd)).elim
  rw [copySlot, hsame]
  cases hco : s.pool i with
  | none => exact ⟨t, rfl, hstay fun r d _ hd => nomatch hco.symm.trans hd⟩
  | some co =>
      dsimp only
      by_cases hcond : co.type = .Class ∧ co._subnam ≠ 0 ∧ co._subnam ≠ i
      · obtain ⟨htype, hzero, hne⟩ := hcond
        obtain ⟨_, hfirst⟩ | ⟨_, hnone⟩ := hclasses.represents i co hco htype
        · obtain ⟨tmp, htmp, _⟩ := hclasses.named co._subnam hfirst.named
          have hkeep : t.pool co._subnam = s.pool co._subnam := h.keep _ fun r hr hr' =>
            (hr' (hr.unique hfirst.self)).elim
          rw [if_pos ⟨htype, hzero, hne⟩, hkeep, htmp]
          refine ⟨_, rfl, h.slots, h.ui, ?_, fun k hk => ?_, fun k hk r d e hr hr' hd he => ?_⟩
          · have hset : update t.pool i (some { co with ref_ip := tmp.ref_ip }) = setSlot tmp.ref_ip t.pool i := by
              rw [setSlot, hsame, hco]
              rfl
            exact h.still.trans (hset ▸ still_setSlot tmp.ref_ip t.pool i)
          · have hki : k ≠ i := by
              rintro rfl
              exact absurd (hk _ hfirst hne) (by omega)
            exact (update_of_ne hki ..).trans (h.keep k fun r hr hr' => (Nat.le_succ i).trans (hk r hr hr'))
          · obtain hlt | rfl := Nat.lt_succ_iff_lt_or_eq.1 hk
            · exact (update_of_ne (Nat.ne_of_lt hlt) ..).trans (h.copied k hlt r d e hr hr' hd he)
            · obtain rfl := hr.unique hfirst
              obtain rfl := Option.some.inj (hco.symm.trans hd)
              obtain rfl := Option.some.inj (htmp.symm.trans he)
              exact update_self ..
        · exact (hzero hnone).elim
      · rw [if_neg hcond]
        refine ⟨t, rfl, hstay fun r d hr hd => ?_⟩
        obtain rfl := Option.some.inj (hco.symm.trans hd)
        obtain ⟨htype, hsub⟩ := hclasses.subnam hr hco
        by_contra hne
        have hpos : r ≠ 0 := by
          obtain ⟨n, hn, _⟩ := hr.named
          exact Nat.ne_of_gt (constant_bounds hn).1
        exact hcond ⟨htype, hsub.trans_ne hpos, hsub.trans_ne hne⟩

theorem copySlot_copying (n : Nat) (hclasses : Classes parse cp s.pool) :
    ∃ t, forEachIndex copySlot n 1 s = some t ∧ Copying parse cp (1 + n) s t := by
  have hstart : 0 < 1 ∧ Copying parse cp 1 s s := by
    refine ⟨Nat.one_pos, rfl, rfl, fun _ => rfl, fun _ _ => rfl, fun k hk r d e hr _ _ _ => ?_⟩
    obtain ⟨n, hn, _⟩ := hr.of_named
    have hpos := (constant_bounds hn).1
    omega
  obtain ⟨t, ht, _, hcopy⟩ := @forEachIndex_ends sort_t copySlot (fun i t => 0 < i ∧ Copying parse cp i s t)
    (fun i t ⟨hi, ht⟩ => by
      obtain ⟨t', ht', hcopy⟩ := ht.step hclasses hi
      exact ⟨t', ht', Nat.succ_pos i, hcopy⟩) n 1 s hstart
  exact ⟨t, ht, hcopy⟩

end

end IdaSdk.JavaXtrn
