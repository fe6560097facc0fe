import IdaSdk.JavaXtrnModel

/-!
What `load_constants_pool` leaves of a constant pool: the first class of each name, and the references that are
external.
-/

namespace IdaSdk.JavaXtrn
open Function

def const_desc_t.bare (d : const_desc_t) : const_desc_t := { d with _REF := false }

def cp_tag_t.IsRef (t : cp_tag_t) : Prop := t = .Fieldref ∨ t = .Methodref ∨ t = .InterfaceMethodref

/-- A reference with the indices of its class, of its name and of its descriptor. -/
structure reference_t where
  type : cp_tag_t
  cls : Nat
  name : Nat
  dscr : Nat

section
variable (parse : List UInt16 → parsed_t) (cp : constant_pool_t)

def utf8Flag (i : Nat) : UInt8 := if cp.string i = [] then 0 else (parse (cp.string i)).flag

def Named (c : Nat) : Prop := ∃ n, cp.constant c = some (.Class n) ∧ utf8Flag parse cp n &&& HAS_CLSNAME ≠ 0

def className (c : Nat) : Option (List UInt16) :=
  match cp.constant c with
  | some (.Class n) => some (cp.string n)
  | _ => none

/-- The class `r` is the first one with the name of `c`. -/
structure FirstClass (c r : Nat) : Prop where
  named : Named parse cp r
  same : className cp r = className cp c
  least : ∀ c', Named parse cp c' → className cp c' = className cp c → r ≤ c'

def reference (j : Nat) : Option reference_t :=
  match cp.constant j with
  | some (.Fieldref c nat) => withName .Fieldref c nat
  | some (.Methodref c nat) => withName .Methodref c nat
  | some (.InterfaceMethodref c nat) => withName .InterfaceMethodref c nat
  | _ => none
where
  withName (type : cp_tag_t) (c nat : Nat) : Option reference_t :=
    match cp.constant nat with
    | some (.NameAndType n d) => some ⟨type, c, n, d⟩
    | _ => none

/-- The flag that the descriptor of a reference should have. -/
def dscrFlag (type : cp_tag_t) : UInt8 := if type = .Fieldref then HAS_TYPEDSCR else HAS_CALLDSCR

/-- A reference with nothing wrong with it. -/
structure External (j : Nat) (r : reference_t) : Prop where
  reference : reference cp j = some r
  cls : Named parse cp r.cls
  name : utf8Flag parse cp r.name &&& HAS_FLDNAME ≠ 0
  dscr : utf8Flag parse cp r.dscr &&& dscrFlag r.type ≠ 0

def Handled (j : Nat) : Prop := ∃ h kind, cp.constant h = some (.MethodHandle kind j)

end

section
variable {parse : List UInt16 → parsed_t} {cp : constant_pool_t} {c c' i r r' : Nat}

theorem FirstClass.unique (h : FirstClass parse cp c r) (h' : FirstClass parse cp c r') : r = r' :=
  Nat.le_antisymm (h.least r' h'.named h'.same) (h'.least r h.named h.same)

theorem FirstClass.self (h : FirstClass parse cp c r) : FirstClass parse cp r r :=
  ⟨h.named, rfl, fun c' hc' hsame => h.least c' hc' (hsame.trans h.same)⟩

theorem FirstClass.congr (h : FirstClass parse cp c r) (hsame : className cp c' = className cp c) :
    FirstClass parse cp c' r :=
  ⟨h.named, h.same.trans hsame.symm, fun d hd hd' => h.least d hd (hd'.trans hsame)⟩

theorem firstClass_exists (h : Named parse cp c) : ∃ r, FirstClass parse cp c r := by
  classical
  have hex : ∃ d, Named parse cp d ∧ className cp d = className cp c := ⟨c, h, rfl⟩
  exact ⟨Nat.find hex, (Nat.find_spec hex).1, (Nat.find_spec hex).2, fun c' hc' hsame => Nat.find_min' hex ⟨hc', hsame⟩⟩

theorem firstClass_le (h : FirstClass parse cp c r) (hc : Named parse cp c) : r ≤ c := h.least c hc rfl

theorem string_ne_nil {n : Nat} {mask : UInt8} (h : utf8Flag parse cp n &&& mask ≠ 0) : cp.string n ≠ [] := by
  intro hnil
  rw [utf8Flag, if_pos hnil, UInt8.zero_and] at h
  exact h rfl

theorem CmpString_eq {n n' : Nat} (h : cp.string n ≠ []) :
    CmpString parse cp n n' = 0 ↔ cp.string n = cp.string n' := by
  rw [CmpString]
  by_cases hsame : n = n'
  · rw [if_pos hsame, hsame]
    exact iff_of_true rfl rfl
  rw [if_neg hsame]
  by_cases heq : cp.string n = cp.string n'
  · rw [heq] at h ⊢
    rw [if_neg (by simp), if_neg h, if_neg (not_not.2 rfl)]
    exact iff_of_true rfl rfl
  refine iff_of_false ?_ heq
  rw [if_neg h]
  split_ifs
  · exact Int.one_ne_zero
  · exact Int.one_ne_zero

end

theorem forEachIndex_keeps {σ : Type} {body : Nat → σ → Option σ} {I : Nat → σ → Prop}
    (hstep : ∀ i s s', I i s → body i s = some s' → I (i + 1) s') {n i : Nat} {s s' : σ} (hs : I i s)
    (h : forEachIndex body n i s = some s') : I (i + n) s' := by
  induction n generalizing i s with
  | zero =>
      obtain rfl := Option.some.inj h
      exact hs
  | succ n ih =>
      obtain ⟨t, hbody, hrest⟩ := Option.bind_eq_some_iff.1 h
      have hall := ih (hstep i s t hs hbody) hrest
      rwa [Nat.add_assoc, Nat.add_comm 1 n] at hall

theorem forEachIndex_ends {σ : Type} {body : Nat → σ → Option σ} {I : Nat → σ → Prop}
    (hstep : ∀ i s, I i s → ∃ s', body i s = some s' ∧ I (i + 1) s') {n i : Nat} {s : σ} (hs : I i s) :
    ∃ s', forEachIndex body n i s = some s' ∧ I (i + n) s' := by
  induction n generalizing i s with
  | zero => exact ⟨s, rfl, hs⟩
  | succ n ih =>
      obtain ⟨t, hbody, ht⟩ := hstep i s hs
      obtain ⟨s', hrest, hs'⟩ := ih ht
      refine ⟨s', ?_, ?_⟩
      · rw [forEachIndex, hbody]
        exact hrest
      · rwa [Nat.add_assoc, Nat.add_comm 1 n] at hs'

section
variable {op : op_t} {index k : Nat} {s s' : load_t} {cr d : const_desc_t}

/-- What a constant is if it is what it should be. -/
def op_t.Is : op_t → const_desc_t → Prop
  | .any, _ => True
  | .type t, p => p.type = t
  | .named, p => p.type = .Class ∧ p.flag &&& HAS_CLSNAME ≠ 0
  | .check _, p => p.type = .Utf8
  | .load mask, p => p.type = .Utf8 ∧ p.flag &&& mask ≠ 0

theorem LoadOpis_none (h : s.pool index = none) : LoadOpis op index s = (none, s) := by
  rw [LoadOpis, h]

theorem LoadOpis_pool (h : s.pool index = some d) :
    (LoadOpis op index s).2.pool = update s.pool index (some { d with _REF := true }) := by
  rw [LoadOpis, h]
  cases op with
  | check mask =>
      dsimp only
      split_ifs <;> rfl
  | _ => rfl

theorem LoadOpis_classes (op : op_t) (index : Nat) (s : load_t) : (LoadOpis op index s).2.classes = s.classes := by
  rw [LoadOpis]
  cases s.pool index with
  | none => rfl
  | some d =>
      cases op with
      | check mask =>
          dsimp only
          split_ifs <;> rfl
      | _ => rfl

theorem LoadOpis_refs (op : op_t) (index : Nat) (s : load_t) : (LoadOpis op index s).2.refs = s.refs := by
  rw [LoadOpis]
  cases s.pool index with
  | none => rfl
  | some d =>
      cases op with
      | check mask =>
          dsimp only
          split_ifs <;> rfl
      | _ => rfl

theorem LoadOpis_some (h : (LoadOpis op index s).1 = some cr) :
    ∃ p, s.pool index = some p ∧ cr = { p with _REF := true } ∧ op.Is p := by
  rw [LoadOpis] at h
  cases hp : s.pool index with
  | none =>
      rw [hp] at h
      cases h
  | some p =>
      rw [hp] at h
      refine ⟨p, rfl, ?_⟩
      cases op with
      | any => exact ⟨(Option.some.inj h).symm, trivial⟩
      | type t =>
          dsimp only at h
          split_ifs at h with ht
          exact ⟨(Option.some.inj h).symm, ht.symm⟩
      | named =>
          dsimp only at h
          split_ifs at h with hnamed
          exact ⟨(Option.some.inj h).symm, hnamed⟩
      | check mask =>
          dsimp only at h
          split_ifs at h with htype hmask
          · exact ⟨(Option.some.inj h).symm, not_not.1 htype⟩
          · exact ⟨(Option.some.inj h).symm, not_not.1 htype⟩
      | load mask =>
          dsimp only at h
          split_ifs at h with hload
          exact ⟨(Option.some.inj h).symm, hload⟩

theorem need_some {r : Option const_desc_t × load_t} {f : const_desc_t → load_t → Option load_t}
    (h : need r f = some s') : ∃ cr, r.1 = some cr ∧ f cr r.2 = some s' := Option.bind_eq_some_iff.1 h

theorem LoadOpis_bare (op : op_t) (index k : Nat) (s : load_t) :
    ((LoadOpis op index s).2.pool k).map const_desc_t.bare = (s.pool k).map const_desc_t.bare := by
  cases hp : s.pool index with
  | none => rw [LoadOpis_none hp]
  | some d =>
      rw [LoadOpis_pool hp]
      by_cases hk : k = index
      · subst hk
        rw [update_self, hp]
        rfl
      · rw [update_of_ne hk]

theorem LoadOpis_other (op : op_t) (s : load_t) (h : k ≠ index) : (LoadOpis op index s).2.pool k = s.pool k := by
  cases hp : s.pool index with
  | none => rw [LoadOpis_none hp]
  | some d => rw [LoadOpis_pool hp, update_of_ne h]

end

section
variable (cp : constant_pool_t)

/-- Each constant of the file is in the database, as `R` says, and no other is. -/
def Pool (R : Nat → constant_t → const_desc_t → Prop) (s : load_t) : Prop :=
  ∀ k, (cp.constant k = none ∧ s.pool k = none) ∨
    ∃ con d, cp.constant k = some con ∧ s.pool k = some d ∧ R k con d.bare

variable {cp} {R R' : Nat → constant_t → const_desc_t → Prop} {s : load_t} {i k : Nat} {con : constant_t}
  {d : const_desc_t}

theorem Pool.get (h : Pool cp R s) (hk : s.pool k = some d) : ∃ con, cp.constant k = some con ∧ R k con d.bare := by
  obtain ⟨_, hnone⟩ | ⟨con, d', hcon, hd, hR⟩ := h k
  · cases hk.symm.trans hnone
  · obtain rfl := Option.some.inj (hk.symm.trans hd)
    exact ⟨con, hcon, hR⟩

theorem Pool.of_constant (h : Pool cp R s) (hk : cp.constant k = some con) :
    ∃ d, s.pool k = some d ∧ R k con d.bare := by
  obtain ⟨hnone, _⟩ | ⟨con', d, hcon, hd, hR⟩ := h k
  · cases hk.symm.trans hnone
  · obtain rfl := Option.some.inj (hk.symm.trans hcon)
    exact ⟨d, hd, hR⟩

theorem Pool.LoadOpis (h : Pool cp R s) (op : op_t) (index : Nat) : Pool cp R (JavaXtrn.LoadOpis op index s).2 := by
  intro k
  have hbare := LoadOpis_bare op index k s
  obtain ⟨hnone, hpool⟩ | ⟨con, d, hcon, hd, hR⟩ := h k
  · rw [hpool, Option.map_none, Option.map_eq_none_iff] at hbare
    exact Or.inl ⟨hnone, hbare⟩
  · rw [hd, Option.map_some] at hbare
    obtain ⟨d', hd', hsame⟩ := Option.map_eq_some_iff.1 hbare
    exact Or.inr ⟨con, d', hcon, hd', hsame ▸ hR⟩

theorem Pool.StoreOpis (h : Pool cp R s) (hcon : cp.constant i = some con) (hd : R' i con d.bare)
    (hother : ∀ k con d, k ≠ i → R k con d → R' k con d) : Pool cp R' (s.StoreOpis i d) := by
  intro k
  by_cases hk : k = i
  · subst hk
    exact Or.inr ⟨con, d, hcon, update_self .., hd⟩
  have hsame : (s.StoreOpis i d).pool k = s.pool k := update_of_ne hk ..
  rw [hsame]
  obtain hnone | ⟨con', d', hcon', hd', hR⟩ := h k
  · exact Or.inl hnone
  · exact Or.inr ⟨con', d', hcon', hd', hother k con' d'.bare hk hR⟩

theorem Pool.mono (h : Pool cp R s) (hR : ∀ k con d, cp.constant k = some con → R k con d → R' k con d) :
    Pool cp R' s := by
  intro k
  obtain hnone | ⟨con, d, hcon, hd, hRd⟩ := h k
  · exact Or.inl hnone
  · exact Or.inr ⟨con, d, hcon, hd, hR k con _ hcon hRd⟩

end

/-! ### Checking -/

def constant_t.tag : constant_t → cp_tag_t
  | .Utf8 _ => .Utf8
  | .Integer => .Integer
  | .Float => .Float
  | .Long => .Long
  | .Double => .Double
  | .Class _ => .Class
  | .String _ => .String
  | .Fieldref _ _ => .Fieldref
  | .Methodref _ _ => .Methodref
  | .InterfaceMethodref _ _ => .InterfaceMethodref
  | .NameAndType _ _ => .NameAndType
  | .MethodHandle _ _ => .MethodHandle
  | .MethodType _ => .MethodType
  | .InvokeDynamic _ _ => .InvokeDynamic

section
variable (parse : List UInt16 → parsed_t) (cp : constant_pool_t)

def Read (k : Nat) (con : constant_t) (b : const_desc_t) : Prop := b = readConstant parse k con

/-- A class that has been checked. -/
def classDesc (n sub : Nat) : const_desc_t where
  type := .Class
  _name := n
  flag := utf8Flag parse cp n &&& (HAS_FLDNAME ||| HAS_TYPEDSCR ||| HAS_CLSNAME)
  _subnam := sub

def natFlag (n m : Nat) : UInt8 :=
  (utf8Flag parse cp n &&& HAS_FLDNAME) <<< SUB_SHIFT |||
    ((utf8Flag parse cp m <<< SUB_SHIFT) &&& (SUB_TYPEDSCR ||| SUB_CALLDSCR))

def natDesc (n m : Nat) : const_desc_t where
  type := .NameAndType
  _class := n
  _name := m
  flag := natFlag parse cp n m

/-- A class is represented by the first one with its name. -/
def Represents (k sub : Nat) : Prop :=
  (Named parse cp k ∧ FirstClass parse cp k sub) ∨ (¬Named parse cp k ∧ sub = 0)

def IsUtf8 (n : Nat) : Prop := ∃ string, cp.constant n = some (.Utf8 string)

def Checked (k : Nat) : constant_t → const_desc_t → Prop
  | .Class n, b => IsUtf8 cp n ∧ ∃ sub, b = classDesc parse cp n sub ∧ Represents parse cp k sub
  | .NameAndType n m, b => IsUtf8 cp n ∧ IsUtf8 cp m ∧ b = natDesc parse cp n m
  | con, b => Read parse k con b

def Until (i : Nat) (R R' : Nat → constant_t → const_desc_t → Prop) (k : Nat) (con : constant_t) (b : const_desc_t) :
    Prop := if k < i then R' k con b else R k con b

def Unreferenced (s : load_t) : Prop := ∀ k d, s.pool k = some d → d.type.IsRef → d._REF = false

/-- The state in front of the index `i`. -/
structure Checking (i : Nat) (s : load_t) : Prop where
  pool : Pool cp (Until i (Read parse) (Checked parse cp)) s
  classes : ∀ rfc ∈ s.classes, rfc.1 < i ∧ cp.constant rfc.1 = some (.Class rfc.2) ∧ FirstClass parse cp rfc.1 rfc.1
  found : ∀ r < i, FirstClass parse cp r r → ∃ n, (r, n) ∈ s.classes
  refs : s.refs = []
  unref : Unreferenced s

end

section
variable {parse : List UInt16 → parsed_t} {cp : constant_pool_t} {i k n : Nat} {con : constant_t} {b d : const_desc_t}
  {s s' : load_t} {op : op_t}

theorem Read.type (h : Read parse k con b) : b.type = con.tag := by
  rw [h]
  cases con <;> rfl

theorem Checked.type (h : Checked parse cp k con b) : b.type = con.tag := by
  cases con with
  | Class n =>
      obtain ⟨_, sub, rfl, _⟩ := h
      rfl
  | NameAndType n m =>
      obtain ⟨_, _, rfl⟩ := h
      rfl
  | _ => exact Read.type h

theorem utf8_of_tag (h : con.tag = .Utf8) : ∃ string, con = .Utf8 string := by
  cases con with
  | Utf8 string => exact ⟨string, rfl⟩
  | _ => cases h

theorem utf8Flag_eq {string : List UInt16} (h : cp.constant n = some (.Utf8 string)) :
    utf8Flag parse cp n = if string = [] then 0 else (parse string).flag := by
  rw [utf8Flag, constant_pool_t.string, h]

theorem Read.utf8 (hcon : cp.constant n = some con) (h : Read parse n con b) (htype : b.type = .Utf8) :
    IsUtf8 cp n ∧ b.flag = utf8Flag parse cp n := by
  obtain ⟨string, rfl⟩ := utf8_of_tag (h.type.symm.trans htype)
  rw [h, utf8Flag_eq hcon]
  exact ⟨⟨string, hcon⟩, rfl⟩

theorem Checked.utf8 (hcon : cp.constant n = some con) (h : Checked parse cp n con b) (htype : b.type = .Utf8) :
    IsUtf8 cp n ∧ b.flag = utf8Flag parse cp n := by
  obtain ⟨string, rfl⟩ := utf8_of_tag (h.type.symm.trans htype)
  exact Read.utf8 hcon h htype

theorem Unreferenced.LoadOpis (h : Unreferenced s) (hd : s.pool n = some d) (htype : ¬d.type.IsRef) :
    Unreferenced (JavaXtrn.LoadOpis op n s).2 := by
  intro k d' hk href
  rw [LoadOpis_pool hd] at hk
  by_cases hkn : k = n
  · subst hkn
    rw [update_self] at hk
    obtain rfl := Option.some.inj hk
    exact (htype href).elim
  · rw [update_of_ne hkn] at hk
    exact h k d' hk href

theorem Unreferenced.StoreOpis (h : Unreferenced s) (htype : ¬d.type.IsRef) : Unreferenced (s.StoreOpis i d) := by
  intro k d' hk href
  by_cases hki : k = i
  · subst hki
    have hself : (s.StoreOpis k d).pool k = some d := update_self ..
    obtain rfl := Option.some.inj (hself.symm.trans hk)
    exact (htype href).elim
  · exact h k d' ((update_of_ne hki ..).symm.trans hk) href

theorem not_isRef_of_eq {t : cp_tag_t} (h : d.type = t) (ht : t = .Utf8 ∨ t = .Class ∨ t = .NameAndType) :
    ¬d.type.IsRef := by
  rw [h, cp_tag_t.IsRef]
  obtain rfl | rfl | rfl := ht
  · exact fun h => nomatch h
  · exact fun h => nomatch h
  · exact fun h => nomatch h

theorem clsname_and (flag : UInt8) :
    flag &&& (HAS_FLDNAME ||| HAS_TYPEDSCR ||| HAS_CLSNAME) &&& HAS_CLSNAME = flag &&& HAS_CLSNAME := by
  rw [UInt8.and_assoc]
  rfl

theorem check_utf8 {mask : UInt8} (p : const_desc_t) (h : (op_t.check mask).Is p) : p.type = .Utf8 := h

theorem type_utf8 (p : const_desc_t) (h : (op_t.type .Utf8).Is p) : p.type = .Utf8 := h

theorem Checking.utf8 {cr : const_desc_t} (h : Checking parse cp i s) (hop : ∀ p, op.Is p → p.type = .Utf8)
    (hcr : (LoadOpis op n s).1 = some cr) :
    Checking parse cp i (LoadOpis op n s).2 ∧ IsUtf8 cp n ∧ cr.flag = utf8Flag parse cp n := by
  obtain ⟨p, hp, rfl, his⟩ := LoadOpis_some hcr
  have htype := hop p his
  have hbare : p.bare.type = .Utf8 := htype
  obtain ⟨con, hcon, hR⟩ := h.pool.get hp
  obtain ⟨hutf8, hflag⟩ : IsUtf8 cp n ∧ p.bare.flag = utf8Flag parse cp n := by
    rw [Until] at hR
    split_ifs at hR
    · exact hR.utf8 hcon hbare
    · exact hR.utf8 hcon hbare
  refine ⟨⟨h.pool.LoadOpis _ _, ?_, ?_, ?_, h.unref.LoadOpis hp (not_isRef_of_eq htype (Or.inl rfl))⟩, hutf8, hflag⟩
  · rw [LoadOpis_classes]
    exact h.classes
  · rw [LoadOpis_classes]
    exact h.found
  · rw [LoadOpis_refs]
    exact h.refs

theorem Until.succ {R R' : Nat → constant_t → const_desc_t → Prop} (h : Until i R R' k con b) (hk : k ≠ i) :
    Until (i + 1) R R' k con b := by
  rw [Until] at h ⊢
  by_cases hlt : k < i
  · rw [if_pos (by omega)]
    rwa [if_pos hlt] at h
  · rw [if_neg (by omega)]
    rwa [if_neg hlt] at h

theorem Checking.next (h : Checking parse cp i s)
    (hi : ∀ con d, cp.constant i = some con → s.pool i = some d → Checked parse cp i con d.bare)
    (hclass : ¬FirstClass parse cp i i) : Checking parse cp (i + 1) s := by
  refine ⟨?_, fun rfc hrfc => ?_, fun r hr hfirst => ?_, h.refs, h.unref⟩
  · intro k
    obtain hnone | ⟨con, d, hcon, hd, hR⟩ := h.pool k
    · exact Or.inl hnone
    refine Or.inr ⟨con, d, hcon, hd, ?_⟩
    by_cases hk : k = i
    · subst hk
      rw [Until, if_pos (Nat.lt_succ_self k)]
      exact hi con d hcon hd
    · exact hR.succ hk
  · obtain ⟨hlt, hrest⟩ := h.classes rfc hrfc
    exact ⟨by omega, hrest⟩
  · obtain hlt | rfl := Nat.lt_succ_iff_lt_or_eq.1 hr
    · exact h.found r hlt hfirst
    · exact absurd hfirst hclass

theorem Checking.store (h : Checking parse cp i s) (hcon : cp.constant i = some con)
    (hd : Checked parse cp i con d.bare) (htype : ¬d.type.IsRef) (hclass : ¬FirstClass parse cp i i) :
    Checking parse cp (i + 1) (s.StoreOpis i d) := by
  refine ⟨h.pool.StoreOpis hcon ?_ ?_, fun rfc hrfc => ?_, fun r hr hfirst => ?_, h.refs, h.unref.StoreOpis htype⟩
  · rw [Until, if_pos (Nat.lt_succ_self i)]
    exact hd
  · exact fun k con d hk hR => hR.succ hk
  · obtain ⟨hlt, hrest⟩ := h.classes rfc hrfc
    exact ⟨by omega, hrest⟩
  · obtain hlt | rfl := Nat.lt_succ_iff_lt_or_eq.1 hr
    · exact h.found r hlt hfirst
    · exact absurd hfirst hclass

theorem StoreOpis_twice (s : load_t) (i : Nat) (d d' : const_desc_t) :
    (s.StoreOpis i d).StoreOpis i d' = s.StoreOpis i d' := by
  rw [load_t.StoreOpis, load_t.StoreOpis, load_t.StoreOpis, update_idem]

theorem className_eq (h : cp.constant k = some (.Class n)) : className cp k = some (cp.string n) := by
  rw [className, h]

theorem not_firstClass (h : cp.constant i = some con) (hcon : con.tag ≠ .Class) : ¬FirstClass parse cp i i := by
  rintro ⟨⟨n, hn, _⟩, _, _⟩
  obtain rfl := Option.some.inj (h.symm.trans hn)
  exact hcon rfl

/-- The class gets the first one with its name, and is one if there is none before it. -/
theorem Checking.findClass (h : Checking parse cp i s) (hcon : cp.constant i = some (.Class n))
    (hutf8 : IsUtf8 cp n) (hnamed : Named parse cp i) (hd : d.bare = classDesc parse cp n 0) :
    Checking parse cp (i + 1) (JavaXtrn.findClass parse cp i d (s.StoreOpis i d)) := by
  obtain ⟨n', hn', hflag⟩ := hnamed
  have hnamed' : Named parse cp i := ⟨n', hn', hflag⟩
  obtain rfl : n = n' := constant_t.Class.inj (Option.some.inj (hcon.symm.trans hn'))
  have hname : d._name = n := congrArg const_desc_t._name hd
  have hsub (r : Nat) (hr : FirstClass parse cp i r) :
      Checked parse cp i (.Class n) ({ d with _subnam := r } : const_desc_t).bare := by
    refine ⟨hutf8, r, ?_, Or.inl ⟨hnamed', hr⟩⟩
    have hset : ({ d with _subnam := r } : const_desc_t).bare = { d.bare with _subnam := r } := rfl
    rw [hset, hd]
    rfl
  have hclass : d.type = .Class := congrArg const_desc_t.type hd
  have htype (r : Nat) : ¬({ d with _subnam := r } : const_desc_t).type.IsRef :=
    @not_isRef_of_eq { d with _subnam := r } _ hclass (Or.inr (Or.inl rfl))
  have hclasses : (s.StoreOpis i d).classes = s.classes := rfl
  have hsame {c m : Nat} (hc : cp.constant c = some (.Class m)) :
      CmpString parse cp d._name m = 0 ↔ className cp c = className cp i := by
    rw [hname, CmpString_eq (string_ne_nil hflag), className_eq hc, className_eq hcon, Option.some_inj, eq_comm]
  obtain ⟨r, hr⟩ := firstClass_exists hnamed'
  rw [JavaXtrn.findClass, hclasses]
  cases hfind : s.classes.find? fun rfc => decide (CmpString parse cp d._name rfc.2 = 0) with
  | some rfc =>
      obtain ⟨hlt, hclass, hself⟩ := h.classes rfc (List.mem_of_find?_eq_some hfind)
      have hcmp := List.find?_some hfind
      have hfirst := hself.congr ((hsame hclass).1 (of_decide_eq_true hcmp)).symm
      dsimp only
      rw [StoreOpis_twice]
      refine h.store hcon (hsub rfc.1 hfirst) (htype rfc.1) fun hi => ?_
      have heq := hi.unique hfirst
      omega
  | none =>
      have hri : r = i := by
        by_contra hne
        have hlt : r < i := Nat.lt_of_le_of_ne (firstClass_le hr hnamed') hne
        obtain ⟨m, hm⟩ := h.found r hlt hr.self
        have hno := List.find?_eq_none.1 hfind (r, m) hm
        exact hno (decide_eq_true ((hsame (h.classes _ hm).2.1).2 hr.same))
      subst hri
      dsimp only
      have hpool : Pool cp (Until (r + 1) (Read parse) (Checked parse cp)) (s.StoreOpis r { d with _subnam := r }) := by
        refine h.pool.StoreOpis hcon ?_ fun k con b hk hR => ?_
        · rw [Until, if_pos (Nat.lt_succ_self r)]
          exact hsub r hr
        · exact hR.succ hk
      have hstore (classes : List (Nat × Nat)) :
          load_t.StoreOpis { (s.StoreOpis r d) with classes := classes } r { d with _subnam := r } =
            { s.StoreOpis r { d with _subnam := r } with classes := classes } := by
        rw [load_t.StoreOpis, load_t.StoreOpis, load_t.StoreOpis, update_idem]
      rw [hstore]
      refine ⟨hpool, fun rfc hrfc => ?_, fun r' hr' hfirst => ?_, h.refs, h.unref.StoreOpis (htype r)⟩
      · obtain hold | hnew := List.mem_append.1 hrfc
        · obtain ⟨hlt, hrest⟩ := h.classes rfc hold
          exact ⟨by omega, hrest⟩
        · obtain rfl := List.mem_singleton.1 hnew
          dsimp only
          rw [hname]
          exact ⟨Nat.lt_succ_self r, hcon, hr⟩
      · obtain hlt | rfl := Nat.lt_succ_iff_lt_or_eq.1 hr'
        · obtain ⟨m, hm⟩ := h.found r' hlt hfirst
          exact ⟨m, List.mem_append_left _ hm⟩
        · exact ⟨_, List.mem_append_right _ (List.mem_singleton.2 rfl)⟩

theorem Checking.skip (h : Checking parse cp i s)
    (htag : ∀ con, cp.constant i = some con → con.tag ≠ .Class ∧ con.tag ≠ .NameAndType) :
      Checking parse cp (i + 1) s := by
  refine h.next (fun con d hcon hd => ?_) ?_
  · obtain ⟨hclass, hnat⟩ := htag con hcon
    obtain ⟨con', hcon', hR⟩ := h.pool.get hd
    obtain rfl := Option.some.inj (hcon.symm.trans hcon')
    rw [Until, if_neg (Nat.lt_irrefl i)] at hR
    cases con with
    | Class n => exact (hclass rfl).elim
    | NameAndType n m => exact (hnat rfl).elim
    | _ => exact hR
  · rintro ⟨⟨n, hn, _⟩, _, _⟩
    exact (htag _ hn).1 rfl

theorem Checking.step (h : Checking parse cp i s) (hs : checkConstant parse cp i s = some s') :
    Checking parse cp (i + 1) s' := by
  rw [checkConstant] at hs
  cases hp : s.pool i with
  | none =>
      rw [hp] at hs
      obtain rfl := Option.some.inj hs
      refine h.skip fun con hcon => ?_
      obtain ⟨d, hd, _⟩ := h.pool.of_constant hcon
      cases hp.symm.trans hd
  | some cd =>
      obtain ⟨con, hcon, hR⟩ := h.pool.get hp
      rw [Until, if_neg (Nat.lt_irrefl i)] at hR
      have hbare : cd.bare.type = con.tag := hR.type
      have htype : cd.type = con.tag := hbare
      rw [hp] at hs
      dsimp only at hs
      rw [htype] at hs
      have hskip (hclass : con.tag ≠ .Class) (hnat : con.tag ≠ .NameAndType) {t : load_t} (ht : Checking parse cp i t) :
          Checking parse cp (i + 1) t := ht.skip fun con' hcon' => by
        obtain rfl := Option.some.inj (hcon.symm.trans hcon')
        exact ⟨hclass, hnat⟩
      cases con with
      | String n =>
          obtain ⟨cr, hcr, hrest⟩ := need_some hs
          obtain rfl := Option.some.inj hrest
          exact hskip nofun nofun (h.utf8 type_utf8 hcr).1
      | NameAndType n m =>
          obtain ⟨cr, hcr, hrest⟩ := need_some hs
          obtain ⟨hfirst, hutf8, hflag⟩ := h.utf8 check_utf8 hcr
          obtain ⟨cr', hcr', hrest'⟩ := need_some hrest
          obtain ⟨hsecond, hutf8', hflag'⟩ := hfirst.utf8 check_utf8 hcr'
          obtain rfl := Option.some.inj hrest'
          refine hsecond.store hcon ?_ (not_isRef_of_eq rfl (Or.inr (Or.inr rfl)))
            (not_firstClass hcon nofun)
          obtain ⟨type, flag, ref, ref_ip, name, cls, dscr, subnam⟩ := cd
          obtain ⟨rfl, rfl, -, rfl, rfl, rfl, rfl, rfl⟩ := const_desc_t.mk.inj hR
          rw [Checked, hflag, hflag', natDesc, natFlag, UInt8.zero_or]
          exact ⟨hutf8, hutf8', rfl⟩
      | Class n =>
          obtain ⟨cr, hcr, hrest⟩ := need_some hs
          obtain ⟨hfirst, hutf8, hflag⟩ := h.utf8 check_utf8 hcr
          obtain rfl := Option.some.inj hrest
          obtain ⟨type, flag, ref, ref_ip, name, cls, dscr, subnam⟩ := cd
          obtain ⟨rfl, rfl, -, rfl, rfl, rfl, rfl, rfl⟩ := const_desc_t.mk.inj hR
          dsimp only at hfirst hflag ⊢
          rw [UInt8.zero_or, hflag, clsname_and]
          have hnamed : utf8Flag parse cp name &&& HAS_CLSNAME ≠ 0 ↔ Named parse cp i := by
            constructor
            · exact fun h => ⟨name, hcon, h⟩
            · rintro ⟨n', hn', h⟩
              obtain rfl := constant_t.Class.inj (Option.some.inj (hcon.symm.trans hn'))
              exact h
          by_cases hflags : utf8Flag parse cp name &&& HAS_CLSNAME ≠ 0
          · rw [if_pos hflags]
            exact hfirst.findClass hcon hutf8 (hnamed.1 hflags) rfl
          · rw [if_neg hflags]
            have hnot : ¬Named parse cp i := fun h => hflags (hnamed.2 h)
            exact hfirst.store hcon ⟨hutf8, 0, rfl, Or.inr ⟨hnot, rfl⟩⟩ (not_isRef_of_eq rfl (Or.inr (Or.inl rfl)))
              fun h => hnot h.named
      | _ =>
          obtain rfl := Option.some.inj hs
          exact hskip nofun nofun h

end

end IdaSdk.JavaXtrn
