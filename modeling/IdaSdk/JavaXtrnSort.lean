import IdaSdk.JavaXtrnRefs

/-!
How the references are sorted. The sweeps over the table take one class after another: the first reference of a class,
the references that are like it, and the others in their order.
-/

namespace IdaSdk.JavaXtrn
open Function

section
variable (parse : List UInt16 → parsed_t) (cp : constant_pool_t)

def live (refs : List Nat) : List Nat := refs.filter (· ≠ 0)

/-- Two references are the same for `deltry`, apart from their classes. -/
structure Alike (pco co : const_desc_t) : Prop where
  type : co.type = pco.type
  flag : co.flag = pco.flag
  _REF : co._REF = pco._REF
  subnam : CmpString parse cp co._subnam pco._subnam = 0
  dscr : CmpString parse cp co._dscr pco._dscr = 0

instance (pco co : const_desc_t) : Decidable (Alike parse cp pco co) :=
  decidable_of_iff (co.type = pco.type ∧ co.flag = pco.flag ∧ co._REF = pco._REF ∧
      CmpString parse cp co._subnam pco._subnam = 0 ∧ CmpString parse cp co._dscr pco._dscr = 0)
    ⟨fun ⟨h1, h2, h3, h4, h5⟩ => ⟨h1, h2, h3, h4, h5⟩, fun ⟨h1, h2, h3, h4, h5⟩ => ⟨h1, h2, h3, h4, h5⟩⟩

def ofClass (pool : Nat → Option const_desc_t) (ic j : Nat) : Bool := (pool j).any fun co => co.ref_ip = ic

def isDup (pool : Nat → Option const_desc_t) (ic : Nat) (pco : const_desc_t) (j : Nat) : Bool :=
  (pool j).any fun co => co.ref_ip = ic ∧ Alike parse cp pco co

def setSlot (ui : Nat) (pool : Nat → Option const_desc_t) (j : Nat) : Nat → Option const_desc_t :=
  update pool j ((pool j).map fun co => { co with ref_ip := ui })

def nextSlot (s : sort_t) (j : Nat) : sort_t where
  pool := setSlot (s.ui + 1) s.pool j
  ui := s.ui + 1
  slots := s.slots ++ [(s.ui + 1, j)]

end

section
variable {parse : List UInt16 → parsed_t} {cp : constant_pool_t} {pool : Nat → Option const_desc_t} {ic ui j k n : Nat}
  {co cr pco : const_desc_t} {refs : List Nat} {s : sort_t}

theorem live_zero : live (0 :: refs) = live refs := List.filter_cons_of_neg (by decide)

theorem live_cons (h : j ≠ 0) : live (j :: refs) = j :: live refs := List.filter_cons_of_pos (decide_eq_true h)

theorem nextSlot_eq (h : s.pool j = some co) : nextSlot s j = xtrnSet j co s := by
  rw [nextSlot, xtrnSet, setSlot, h]
  rfl

theorem setSlot_of_ne (h : k ≠ j) : setSlot ui pool j k = pool k := update_of_ne h ..

theorem setSlot_self : setSlot ui pool j j = (pool j).map fun co => { co with ref_ip := ui } := update_self ..

/-! ### Deleting -/

theorem isDup_of_ne (h : k ≠ j) : isDup parse cp (setSlot ui pool j) ic pco k = isDup parse cp pool ic pco k := by
  rw [isDup, setSlot_of_ne h, isDup]

theorem isDup_some (h : pool j = some co) :
    isDup parse cp pool ic pco j = true ↔ co.ref_ip = ic ∧ Alike parse cp pco co := by
  rw [isDup, h]
  exact decide_eq_true_iff

theorem not_dup_iff : (co.type ≠ pco.type ∨ co.flag ≠ pco.flag ∨ co._REF ≠ pco._REF ∨ co.ref_ip ≠ ic ∨
      CmpString parse cp co._subnam pco._subnam ≠ 0 ∨ CmpString parse cp co._dscr pco._dscr ≠ 0) ↔
    ¬(co.ref_ip = ic ∧ Alike parse cp pco co) := by
  constructor
  · rintro h ⟨hip, htype, hflag, hREF, hsubnam, hdscr⟩
    obtain h | h | h | h | h | h := h
    · exact h htype
    · exact h hflag
    · exact h hREF
    · exact h hip
    · exact h hsubnam
    · exact h hdscr
  · intro h
    by_contra hnot
    simp only [not_or, not_not] at hnot
    obtain ⟨htype, hflag, hREF, hip, hsubnam, hdscr⟩ := hnot
    exact h ⟨hip, htype, hflag, hREF, hsubnam, hdscr⟩

theorem filter_dup_setSlot (h : j ∉ refs) :
    refs.filter (isDup parse cp (setSlot ui pool j) ic pco) = refs.filter (isDup parse cp pool ic pco) :=
  List.filter_congr fun _ hk => isDup_of_ne fun hkj => h (hkj ▸ hk)

theorem deltry_eq (hnodup : (live refs).Nodup) :
    (deltry parse cp ic ui pco refs pool).1.length = refs.length ∧
      live (deltry parse cp ic ui pco refs pool).1 = (live refs).filter (fun j => !isDup parse cp pool ic pco j) ∧
      (deltry parse cp ic ui pco refs pool).2 =
        ((live refs).filter (isDup parse cp pool ic pco)).foldl (setSlot ui) pool := by
  induction refs generalizing pool with
  | nil => exact ⟨rfl, rfl, rfl⟩
  | cons j refs ih =>
      rw [deltry]
      by_cases hzero : j = 0
      · rw [if_pos hzero]
        subst hzero
        rw [live_zero] at hnodup ⊢
        obtain ⟨hlen, hlive, hpool⟩ := @ih pool hnodup
        exact ⟨congrArg (· + 1) hlen, live_zero.trans hlive, hpool⟩
      · rw [if_neg hzero]
        rw [live_cons hzero] at hnodup ⊢
        obtain ⟨hnot, hrest⟩ := List.nodup_cons.1 hnodup
        cases hco : pool j with
        | none =>
            have hdup : isDup parse cp pool ic pco j = false := by
              rw [isDup, hco]
              rfl
            obtain ⟨hlen, hlive, hpool⟩ := @ih pool hrest
            rw [List.filter_cons_of_pos (by rw [hdup]; rfl),
              List.filter_cons_of_neg (by rw [hdup]; exact Bool.false_ne_true)]
            exact ⟨congrArg (· + 1) hlen, (live_cons hzero).trans (congrArg _ hlive), hpool⟩
        | some co =>
            have hdup : isDup parse cp pool ic pco j = true ↔ co.ref_ip = ic ∧ Alike parse cp pco co := isDup_some hco
            dsimp only
            by_cases hlike : co.ref_ip = ic ∧ Alike parse cp pco co
            · have hset : update pool j (some { co with ref_ip := ui }) = setSlot ui pool j := by
                rw [setSlot, hco]
                rfl
              obtain ⟨hlen, hlive, hpool⟩ := @ih (setSlot ui pool j) hrest
              rw [if_neg fun h => not_dup_iff.1 h hlike, hset,
                List.filter_cons_of_neg (by rw [hdup.2 hlike]; exact Bool.false_ne_true),
                List.filter_cons_of_pos (hdup.2 hlike), List.foldl_cons]
              refine ⟨congrArg (· + 1) hlen, live_zero.trans (hlive.trans ?_), ?_⟩
              · exact List.filter_congr fun k hk => congrArg _ (isDup_of_ne fun hkj => hnot (hkj ▸ hk))
              · rw [← filter_dup_setSlot hnot]
                exact hpool
            · have hfalse : isDup parse cp pool ic pco j = false := Bool.eq_false_iff.2 fun h => hlike (hdup.1 h)
              obtain ⟨hlen, hlive, hpool⟩ := @ih pool hrest
              rw [if_pos (not_dup_iff.2 hlike), List.filter_cons_of_pos (by rw [hfalse]; rfl),
                List.filter_cons_of_neg (by rw [hfalse]; exact Bool.false_ne_true)]
              exact ⟨congrArg (· + 1) hlen, (live_cons hzero).trans (congrArg _ hlive), hpool⟩

theorem deltry_none (h : ∀ j ∈ live refs, isDup parse cp pool ic pco j = false) :
    deltry parse cp ic ui pco refs pool = (refs, pool) := by
  induction refs with
  | nil => rfl
  | cons j refs ih =>
      rw [deltry]
      by_cases hzero : j = 0
      · rw [if_pos hzero]
        subst hzero
        rw [live_zero] at h
        dsimp only
        rw [ih h]
      · rw [if_neg hzero]
        rw [live_cons hzero] at h
        have hrest := ih fun k hk => h k (List.mem_cons_of_mem j hk)
        cases hco : pool j with
        | none =>
            dsimp only
            rw [hrest]
        | some co =>
            have hfalse := h j List.mem_cons_self
            have hlike : ¬(co.ref_ip = ic ∧ Alike parse cp pco co) := fun hlike =>
              Bool.false_ne_true (hfalse.symm.trans ((isDup_some hco).2 hlike))
            dsimp only
            rw [if_pos (not_dup_iff.2 hlike), hrest]

theorem ofClass_of_ne (h : k ≠ j) : ofClass (setSlot ui pool j) ic k = ofClass pool ic k := by
  rw [ofClass, setSlot_of_ne h, ofClass]

theorem ofClass_some (h : pool j = some co) : ofClass pool ic j = true ↔ co.ref_ip = ic := by
  rw [ofClass, h]
  exact decide_eq_true_iff

/-- The references of the class get the next slots and are deleted, if none is like the first one. -/
theorem sortClass_eq (hn : refs.length ≤ n) (hnodup : (live refs).Nodup)
    (hdup : ∀ j ∈ live refs, isDup parse cp s.pool ic co j = false) :
    live (sortClass parse cp ic co n refs s).1 = (live refs).filter (fun j => !ofClass s.pool ic j) ∧
      (sortClass parse cp ic co n refs s).1.length = refs.length ∧
      (sortClass parse cp ic co n refs s).2 = ((live refs).filter (ofClass s.pool ic)).foldl nextSlot s := by
  induction n generalizing refs s with
  | zero =>
      obtain rfl := List.length_eq_zero_iff.1 (Nat.le_zero.1 hn)
      exact ⟨rfl, rfl, rfl⟩
  | succ n ih =>
      cases refs with
      | nil => exact ⟨rfl, rfl, rfl⟩
      | cons j refs =>
          have hn' : refs.length ≤ n := Nat.le_of_succ_le_succ hn
          rw [sortClass]
          by_cases hzero : j = 0
          · rw [if_pos hzero]
            subst hzero
            rw [live_zero] at hnodup hdup ⊢
            obtain ⟨hlive, hlen, hs⟩ := ih hn' hnodup hdup
            exact ⟨live_zero.trans hlive, congrArg (· + 1) hlen, hs⟩
          · rw [if_neg hzero]
            rw [live_cons hzero] at hnodup hdup ⊢
            obtain ⟨hnot, hrest⟩ := List.nodup_cons.1 hnodup
            have hne (k : Nat) (hk : k ∈ live refs) : k ≠ j := fun hkj => hnot (hkj ▸ hk)
            have hdup' : ∀ k ∈ live refs, isDup parse cp s.pool ic co k = false :=
              fun k hk => hdup k (List.mem_cons_of_mem j hk)
            cases hcr : s.pool j with
            | none =>
                have hof : ofClass s.pool ic j = false := by
                  rw [ofClass, hcr]
                  rfl
                obtain ⟨hlive, hlen, hs⟩ := ih hn' hrest hdup'
                rw [List.filter_cons_of_pos (by rw [hof]; rfl),
                  List.filter_cons_of_neg (by rw [hof]; exact Bool.false_ne_true)]
                exact ⟨(live_cons hzero).trans (congrArg _ hlive), congrArg (· + 1) hlen, hs⟩
            | some cr =>
                have hof : ofClass s.pool ic j = true ↔ cr.ref_ip = ic := ofClass_some hcr
                dsimp only
                by_cases hip : cr.ref_ip = ic
                · have hpool : (xtrnSet j cr s).pool = setSlot (s.ui + 1) s.pool j := by
                    rw [← nextSlot_eq hcr]
                    rfl
                  have hnone : ∀ k ∈ live refs, isDup parse cp (xtrnSet j cr s).pool ic co k = false := fun k hk => by
                    rw [hpool, isDup_of_ne (hne k hk)]
                    exact hdup' k hk
                  rw [if_neg (not_not.2 hip), deltry_none hnone]
                  obtain ⟨hlive, hlen, hs⟩ := @ih _ (xtrnSet j cr s) hn' hrest hnone
                  have hcongr :
                      ∀ k ∈ live refs, ofClass (xtrnSet j cr s).pool ic k = ofClass s.pool ic k := fun k hk => by
                    rw [hpool, ofClass_of_ne (hne k hk)]
                  rw [List.filter_cons_of_neg (by rw [hof.2 hip]; exact Bool.false_ne_true),
                    List.filter_cons_of_pos (hof.2 hip),
                    List.foldl_cons, nextSlot_eq hcr, ← List.filter_congr hcongr]
                  refine ⟨live_zero.trans (hlive.trans (List.filter_congr fun k hk => ?_)), congrArg (· + 1) hlen, hs⟩
                  rw [hcongr k hk]
                · have hfalse : ofClass s.pool ic j = false := Bool.eq_false_iff.2 fun h => hip (hof.1 h)
                  obtain ⟨hlive, hlen, hs⟩ := ih hn' hrest hdup'
                  rw [if_pos hip, List.filter_cons_of_pos (by rw [hfalse]; rfl),
                    List.filter_cons_of_neg (by rw [hfalse]; exact Bool.false_ne_true)]
                  exact ⟨(live_cons hzero).trans (congrArg _ hlive), congrArg (· + 1) hlen, hs⟩

def const_desc_t.still (d : const_desc_t) : const_desc_t := { d with ref_ip := 0 }

def Still (pool pool' : Nat → Option const_desc_t) : Prop :=
  ∀ k, (pool' k).map const_desc_t.still = (pool k).map const_desc_t.still

variable {pool' : Nat → Option const_desc_t}

theorem Still.trans {pool'' : Nat → Option const_desc_t} (h : Still pool pool') (h' : Still pool' pool'') :
    Still pool pool'' := fun k => (h' k).trans (h k)

theorem Still.some (h : Still pool pool') (hk : pool k = some co) :
    ∃ co', pool' k = some co' ∧ co'.still = co.still := by
  have hsame := h k
  rw [hk, Option.map_some] at hsame
  exact Option.map_eq_some_iff.1 hsame

theorem still_setSlot (ui : Nat) (pool : Nat → Option const_desc_t) (j : Nat) : Still pool (setSlot ui pool j) := by
  intro k
  by_cases hk : k = j
  · subst hk
    rw [setSlot_self, Option.map_map]
    rfl
  · rw [setSlot_of_ne hk]

theorem still_foldl_setSlot (ui : Nat) (js : List Nat) (pool : Nat → Option const_desc_t) :
    Still pool (js.foldl (setSlot ui) pool) := by
  induction js generalizing pool with
  | nil => exact fun _ => rfl
  | cons j js ih => exact (still_setSlot ui pool j).trans (ih _)

theorem still_foldl_nextSlot (js : List Nat) (s : sort_t) : Still s.pool (js.foldl nextSlot s).pool := by
  induction js generalizing s with
  | nil => exact fun _ => rfl
  | cons j js ih => exact (still_setSlot _ s.pool j).trans (ih (nextSlot s j))

variable {js : List Nat}

theorem foldl_setSlot_of_not_mem (h : k ∉ js) : js.foldl (setSlot ui) pool k = pool k := by
  induction js generalizing pool with
  | nil => rfl
  | cons j js ih =>
      rw [List.mem_cons, not_or] at h
      rw [List.foldl_cons, ih h.2, setSlot_of_ne h.1]

theorem foldl_setSlot_of_mem (h : k ∈ js) :
    js.foldl (setSlot ui) pool k = (pool k).map fun co => { co with ref_ip := ui } := by
  induction js generalizing pool with
  | nil => exact absurd h List.not_mem_nil
  | cons j js ih =>
      rw [List.foldl_cons]
      by_cases hk : k ∈ js
      · rw [ih hk]
        by_cases hkj : k = j
        · subst hkj
          rw [setSlot_self, Option.map_map]
          rfl
        · rw [setSlot_of_ne hkj]
      · obtain rfl | hmem := List.mem_cons.1 h
        · rw [foldl_setSlot_of_not_mem hk, setSlot_self]
        · exact absurd hmem hk

theorem foldl_nextSlot_of_not_mem (h : k ∉ js) : (js.foldl nextSlot s).pool k = s.pool k := by
  induction js generalizing s with
  | nil => rfl
  | cons j js ih =>
      rw [List.mem_cons, not_or] at h
      rw [List.foldl_cons, ih h.2]
      exact setSlot_of_ne h.1

/-! ### Classes -/

section
variable (parse cp)

/-- The first reference `j` of a class, `co`, and the others, which are among `refs`. -/
def takeClass (j : Nat) (co : const_desc_t) (refs : List Nat) (s : sort_t) : sort_t :=
  let t := nextSlot (nextSlot s co.ref_ip) j
  (refs.filter fun k => ofClass s.pool co.ref_ip k && !isDup parse cp s.pool co.ref_ip co k).foldl nextSlot
    { t with pool := (refs.filter (isDup parse cp s.pool co.ref_ip co)).foldl (setSlot t.ui) t.pool }

/-- The references are sorted class by class. Those of the class itself have no slot. -/
inductive Sorts (this : Nat) : List Nat → sort_t → sort_t → Prop
  | nil {s : sort_t} : Sorts this [] s s
  | own {j : Nat} {refs : List Nat} {co : const_desc_t} {s s' : sort_t} : s.pool j = some co → co._class = this →
      Sorts this refs { s with pool := setSlot 0 s.pool j } s' → Sorts this (j :: refs) s s'
  | next {j : Nat} {refs : List Nat} {co : const_desc_t} {s s' : sort_t} : s.pool j = some co → co._class ≠ this →
      Sorts this (refs.filter fun k => !ofClass s.pool co.ref_ip k) (takeClass parse cp j co refs s) s' →
      Sorts this (j :: refs) s s'

end

/-- The references are in the database, and their classes are. -/
def Ready (s : sort_t) (refs : List Nat) : Prop :=
  ∀ j ∈ refs, ∃ co cr, s.pool j = some co ∧ co.type.IsRef ∧ s.pool co.ref_ip = some cr ∧ cr.type = .Class

theorem Ready.class_not_mem (h : Ready s refs) (hk : s.pool k = some co) (hclass : co.type = .Class) : k ∉ refs := by
  intro hmem
  obtain ⟨co', _, hco', href, _⟩ := h k hmem
  obtain rfl := Option.some.inj (hk.symm.trans hco')
  exact not_isRef_of_eq hclass (Or.inr (Or.inl rfl)) href

theorem Ready.keep {s' : sort_t} {refs' : List Nat} (h : Ready s refs) (hstill : Still s.pool s'.pool)
    (hsub : ∀ j ∈ refs', j ∈ refs) (hsame : ∀ j ∈ refs', s'.pool j = s.pool j) : Ready s' refs' := by
  intro j hj
  obtain ⟨co, cr, hco, href, hcr, hclass⟩ := h j (hsub j hj)
  obtain ⟨cr', hcr', heq⟩ := hstill.some hcr
  have htype : cr'.still.type = cr.still.type := congrArg const_desc_t.type heq
  exact ⟨co, cr', (hsame j hj).trans hco, href, hcr', htype.trans hclass⟩

theorem ofClass_of_isDup (h : isDup parse cp pool ic pco j = true) : ofClass pool ic j = true := by
  rw [isDup, Option.any_eq_true] at h
  obtain ⟨co, hco, hdup⟩ := h
  rw [ofClass_some hco]
  exact (of_decide_eq_true hdup).1

theorem takeClass_still (j : Nat) (co : const_desc_t) (refs : List Nat) (s : sort_t) :
    Still s.pool (takeClass parse cp j co refs s).pool := by
  refine Still.trans ?_ (still_foldl_nextSlot _ _)
  refine Still.trans ?_ (still_foldl_setSlot _ _ _)
  exact (still_setSlot _ s.pool co.ref_ip).trans (still_setSlot _ _ j)

theorem takeClass_other (hj : k ≠ j) (hic : k ≠ co.ref_ip) (hof : k ∈ refs → ofClass s.pool co.ref_ip k = false) :
    (takeClass parse cp j co refs s).pool k = s.pool k := by
  have hrest :
      k ∉ refs.filter fun k => ofClass s.pool co.ref_ip k && !isDup parse cp s.pool co.ref_ip co k := fun hk => by
    obtain ⟨hmem, htrue⟩ := List.mem_filter.1 hk
    rw [hof hmem, Bool.false_and] at htrue
    exact Bool.false_ne_true htrue
  have hdup : k ∉ refs.filter (isDup parse cp s.pool co.ref_ip co) := fun hk => by
    obtain ⟨hmem, htrue⟩ := List.mem_filter.1 hk
    exact Bool.false_ne_true ((hof hmem).symm.trans (ofClass_of_isDup htrue))
  rw [takeClass, foldl_nextSlot_of_not_mem hrest]
  exact (foldl_setSlot_of_not_mem hdup).trans ((setSlot_of_ne hj).trans (setSlot_of_ne hic))

theorem sweep_eq (hnodup : (live refs).Nodup) (hj : j ∉ live refs) (hic : co.ref_ip ∉ live refs) (t : sort_t)
    (ht : t = nextSlot (nextSlot s co.ref_ip) j) (del : List Nat × (Nat → Option const_desc_t))
    (hdel : del = deltry parse cp co.ref_ip t.ui co refs t.pool) (rest : List Nat × sort_t)
    (hrest : rest = sortClass parse cp co.ref_ip co refs.length del.1 { t with pool := del.2 }) :
    live rest.1 = (live refs).filter (fun k => !ofClass s.pool co.ref_ip k) ∧ rest.1.length = refs.length ∧
      rest.2 = takeClass parse cp j co (live refs) s := by
  have htpool (k : Nat) (hk : k ∈ live refs) : t.pool k = s.pool k := by
    rw [ht]
    have hkj : k ≠ j := fun h => hj (h ▸ hk)
    have hkic : k ≠ co.ref_ip := fun h => hic (h ▸ hk)
    exact (setSlot_of_ne hkj).trans (setSlot_of_ne hkic)
  have hdup (k : Nat) (hk : k ∈ live refs) :
      isDup parse cp t.pool co.ref_ip co k = isDup parse cp s.pool co.ref_ip co k := by
    rw [isDup, htpool k hk, isDup]
  obtain ⟨hlen, hlive, hpool⟩ := @deltry_eq parse cp t.pool co.ref_ip t.ui co refs hnodup
  rw [← hdel, List.filter_congr fun k hk => congrArg not (hdup k hk)] at hlive
  rw [← hdel, List.filter_congr hdup] at hpool
  have hpool' (k : Nat) (hk : k ∈ live del.1) : del.2 k = s.pool k := by
    rw [hlive] at hk
    obtain ⟨hmem, hfalse⟩ := List.mem_filter.1 hk
    rw [hpool, foldl_setSlot_of_not_mem, htpool k hmem]
    intro hk'
    rw [(List.mem_filter.1 hk').2] at hfalse
    cases hfalse
  have hnone (k : Nat) (hk : k ∈ live del.1) : isDup parse cp del.2 co.ref_ip co k = false := by
    rw [isDup, hpool' k hk]
    rw [hlive] at hk
    exact Bool.not_eq_true' _ ▸ (List.mem_filter.1 hk).2
  have hof (k : Nat) (hk : k ∈ live del.1) : ofClass del.2 co.ref_ip k = ofClass s.pool co.ref_ip k := by
    rw [ofClass, hpool' k hk, ofClass]
  obtain ⟨hlive', hlen', hs⟩ := @sortClass_eq parse cp co.ref_ip refs.length co del.1 { t with pool := del.2 }
    (hdel ▸ hlen.le) (hlive ▸ hnodup.filter _) hnone
  rw [← hrest] at hlive' hlen' hs
  dsimp only at hlive' hs
  rw [List.filter_congr fun k hk => congrArg not (hof k hk), hlive, List.filter_filter] at hlive'
  rw [List.filter_congr hof, hlive, List.filter_filter] at hs
  refine ⟨hlive'.trans (List.filter_congr fun k _ => ?_), hlen'.trans (hdel ▸ hlen), ?_⟩
  · cases hfalse : isDup parse cp s.pool co.ref_ip co k with
    | false => rw [Bool.not_false, Bool.and_true]
    | true => rw [ofClass_of_isDup hfalse, Bool.not_true, Bool.false_and]
  · rw [hs, hpool, takeClass, ht]

theorem sortRefs_sorts {this : Nat} (hn : refs.length ≤ n) (hnodup : (live refs).Nodup) (hready : Ready s (live refs)) :
    Sorts parse cp this (live refs) s (sortRefs parse cp this n refs s) := by
  induction n generalizing refs s with
  | zero =>
      obtain rfl := List.length_eq_zero_iff.1 (Nat.le_zero.1 hn)
      exact .nil
  | succ n ih =>
      cases refs with
      | nil => exact .nil
      | cons j refs =>
          have hn' : refs.length ≤ n := Nat.le_of_succ_le_succ hn
          rw [sortRefs]
          by_cases hzero : j = 0
          · rw [if_pos hzero]
            subst hzero
            rw [live_zero] at hnodup hready ⊢
            exact ih hn' hnodup hready
          · rw [if_neg hzero]
            rw [live_cons hzero] at hnodup hready ⊢
            obtain ⟨hnot, hrest⟩ := List.nodup_cons.1 hnodup
            obtain ⟨co, cr, hco, href, hcr, hclass⟩ := hready j List.mem_cons_self
            rw [hco]
            dsimp only
            by_cases hthis : co._class = this
            · rw [if_pos hthis]
              have hset : update s.pool j (some { co with ref_ip := 0 }) = setSlot 0 s.pool j := by
                rw [setSlot, hco]
                rfl
              rw [hset]
              refine .own hco hthis (ih hn' hrest (hready.keep (still_setSlot 0 s.pool j)
                (fun k hk => List.mem_cons_of_mem j hk) ?_))
              exact fun k hk => setSlot_of_ne fun hkj => hnot (hkj ▸ hk)
            · rw [if_neg hthis, hcr]
              dsimp only
              have hic : co.ref_ip ∉ live refs := fun h =>
                hready.class_not_mem hcr hclass (List.mem_cons_of_mem j h)
              have hicj : co.ref_ip ≠ j := fun h => hready.class_not_mem hcr hclass (h ▸ List.mem_cons_self)
              have hset : xtrnSet j co (xtrnSet co.ref_ip cr s) = nextSlot (nextSlot s co.ref_ip) j := by
                rw [nextSlot_eq hcr]
                exact (nextSlot_eq ((update_of_ne hicj.symm ..).trans hco)).symm
              rw [hset]
              obtain ⟨hlive, hlen, hs⟩ := @sweep_eq parse cp j co refs s hrest hnot hic _ rfl _ rfl _ rfl
              refine .next hco hthis ?_
              rw [← hlive, ← hs]
              refine ih (hlen.trans_le hn') (hlive ▸ hrest.filter _) ?_
              rw [hlive, hs]
              refine hready.keep (takeClass_still j co _ s) (fun k hk => ?_) fun k hk => ?_
              · exact List.mem_cons_of_mem j (List.mem_filter.1 hk).1
              · obtain ⟨hmem, hfalse⟩ := List.mem_filter.1 hk
                have hkj : k ≠ j := fun h => hnot (h ▸ hmem)
                have hkic : k ≠ co.ref_ip := fun h => hic (h ▸ hmem)
                exact takeClass_other hkj hkic fun _ => Bool.not_eq_true' _ ▸ hfalse

end

end IdaSdk.JavaXtrn
