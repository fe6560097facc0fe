import IdaSdk.JavaXtrnLoad

/-!
The references of a constant pool. Each external one has the first class with the name of its class, and the strings
that it denotes determine its flags.
-/

namespace IdaSdk.JavaXtrn
open Function

section
variable (parse : List UInt16 → parsed_t) (cp : constant_pool_t)

/-- The flags of a reference to something in a class with the name `n`. -/
def refFlag (n : Nat) (r : reference_t) : UInt8 :=
  utf8Flag parse cp n &&& HAS_CLSNAME |||
    (natFlag parse cp r.name r.dscr &&& (SUB_FLDNAME ||| SUB_TYPEDSCR ||| SUB_CALLDSCR))

/-- An external reference. -/
def refDesc (type : cp_tag_t) (n sub : Nat) (r : reference_t) : const_desc_t where
  type := type
  flag := refFlag parse cp n r
  ref_ip := sub
  _name := n
  _class := r.cls
  _dscr := r.dscr
  _subnam := r.name

/-- A constant at the end of the load. -/
structure Referenced (k : Nat) (con : constant_t) (b : const_desc_t) : Prop where
  type : b.type = con.tag
  same : ¬con.tag.IsRef → Checked parse cp k con b
  external : ∀ r, External parse cp k r → ∃ n sub, cp.constant r.cls = some (.Class n) ∧
    FirstClass parse cp r.cls sub ∧ b = refDesc parse cp con.tag n sub r

/-- The state in front of the index `i`. -/
structure Referencing (i : Nat) (s : load_t) : Prop where
  pool : Pool cp (Until i (Checked parse cp) (Referenced parse cp)) s
  refs : ∀ j, j ∈ s.refs ↔ j < i ∧ ∃ r, External parse cp j r
  sorted : s.refs.Pairwise (· < ·)
  handled : ∀ k d, s.pool k = some d → d.type.IsRef →
    (d._REF = true ↔ ∃ h < i, ∃ kind, cp.constant h = some (.MethodHandle kind k))
  found : ∀ r ≤ cp.length, FirstClass parse cp r r → ∃ n, (r, n) ∈ s.classes

end

section
variable {parse : List UInt16 → parsed_t} {cp : constant_pool_t} {i k n index : Nat} {con : constant_t}
  {b d cr : const_desc_t} {s s' : load_t} {op : op_t} {r : reference_t}

/-! ### What is referred to -/

theorem Referencing.checked (h : Referencing parse cp i s) (hk : s.pool k = some d) (htype : ¬d.type.IsRef) :
    ∃ con, cp.constant k = some con ∧ con.tag = d.type ∧ Checked parse cp k con d.bare := by
  obtain ⟨con, hcon, hR⟩ := h.pool.get hk
  rw [Until] at hR
  split_ifs at hR
  · have htag : d.bare.type = con.tag := hR.type
    have hsame : con.tag = d.type := htag.symm
    exact ⟨con, hcon, hsame, hR.same (hsame ▸ htype)⟩
  · have htag : d.bare.type = con.tag := hR.type
    exact ⟨con, hcon, htag.symm, hR⟩

theorem Referencing.load (h : Referencing parse cp i s) (op : op_t)
    (htype : ∀ p, s.pool index = some p → ¬p.type.IsRef) : Referencing parse cp i (LoadOpis op index s).2 := by
  refine ⟨h.pool.LoadOpis _ _, ?_, ?_, fun k d hk href => ?_, ?_⟩
  · rw [LoadOpis_refs]
    exact h.refs
  · rw [LoadOpis_refs]
    exact h.sorted
  · by_cases hki : k = index
    · subst hki
      cases hp : s.pool k with
      | none =>
          rw [LoadOpis_none hp] at hk
          cases hp.symm.trans hk
      | some p =>
          rw [LoadOpis_pool hp, update_self] at hk
          obtain rfl := Option.some.inj hk
          exact (htype p hp href).elim
    · rw [LoadOpis_other op s hki] at hk
      exact h.handled k d hk href
  · rw [LoadOpis_classes]
    exact h.found

theorem LoadOpis_check (mask : UInt8) (h : Referencing parse cp i s) (hutf8 : IsUtf8 cp n) :
    Referencing parse cp i (LoadOpis (.check mask) n s).2 ∧
      (LoadOpis (.check mask) n s).2.errload =
        s.errload + if utf8Flag parse cp n &&& mask ≠ 0 then 0 else 1 := by
  obtain ⟨string, hcon⟩ := hutf8
  obtain ⟨p, hp, hR⟩ := h.pool.of_constant hcon
  have htag : p.bare.type = .Utf8 := by
    rw [Until] at hR
    split_ifs at hR
    · exact hR.type
    · exact hR.type
  have htype : p.type = .Utf8 := htag
  have hnot : ¬p.type.IsRef := not_isRef_of_eq htype (Or.inl rfl)
  obtain ⟨con', hcon', _, hchecked⟩ := h.checked hp hnot
  have hflag : p.flag = utf8Flag parse cp n := (hchecked.utf8 hcon' htag).2
  refine ⟨h.load _ fun p' hp' => Option.some.inj (hp.symm.trans hp') ▸ hnot, ?_⟩
  rw [LoadOpis, hp]
  dsimp only
  rw [if_neg (not_not.2 htype), hflag]
  split_ifs
  · rfl
  · rfl

theorem LoadOpis_load (mask : UInt8) (h : Referencing parse cp i s) (hutf8 : IsUtf8 cp n) :
    Referencing parse cp i (LoadOpis (.load mask) n s).2 ∧ (LoadOpis (.load mask) n s).2.errload = s.errload ∧
      ((LoadOpis (.load mask) n s).1.isSome = true ↔ utf8Flag parse cp n &&& mask ≠ 0) := by
  obtain ⟨string, hcon⟩ := hutf8
  obtain ⟨p, hp, hR⟩ := h.pool.of_constant hcon
  have htag : p.bare.type = .Utf8 := by
    rw [Until] at hR
    split_ifs at hR
    · exact hR.type
    · exact hR.type
  have htype : p.type = .Utf8 := htag
  have hnot : ¬p.type.IsRef := not_isRef_of_eq htype (Or.inl rfl)
  obtain ⟨con', hcon', _, hchecked⟩ := h.checked hp hnot
  have hflag : p.flag = utf8Flag parse cp n := (hchecked.utf8 hcon' htag).2
  refine ⟨h.load _ fun p' hp' => Option.some.inj (hp.symm.trans hp') ▸ hnot, ?_, ?_⟩
  · rw [LoadOpis, hp]
    rfl
  rw [LoadOpis, hp]
  dsimp only
  rw [hflag]
  by_cases hmask : utf8Flag parse cp n &&& mask ≠ 0
  · rw [if_pos ⟨htype, hmask⟩]
    exact iff_of_true rfl hmask
  · rw [if_neg fun h => hmask h.2]
    exact iff_of_false (fun h => by cases h) hmask

theorem LoadOpis_type_errload (t : cp_tag_t) (index : Nat) (s : load_t) :
    (LoadOpis (.type t) index s).2.errload = s.errload := by
  rw [LoadOpis]
  cases s.pool index with
  | none => rfl
  | some p => rfl

theorem class_of_tag (h : con.tag = .Class) : ∃ n, con = .Class n := by
  cases con with
  | Class n => exact ⟨n, rfl⟩
  | _ => cases h

theorem nameAndType_of_tag (h : con.tag = .NameAndType) : ∃ n m, con = .NameAndType n m := by
  cases con with
  | NameAndType n m => exact ⟨n, m, rfl⟩
  | _ => cases h

theorem Referencing.class (h : Referencing parse cp i s) (hcr : (LoadOpis (.type .Class) index s).1 = some cr) :
    Referencing parse cp i (LoadOpis (.type .Class) index s).2 ∧ ∃ n sub, cp.constant index = some (.Class n) ∧
      IsUtf8 cp n ∧ cr.bare = classDesc parse cp n sub ∧ Represents parse cp index sub := by
  obtain ⟨p, hp, rfl, htype⟩ := LoadOpis_some hcr
  have hnot : ¬p.type.IsRef := not_isRef_of_eq htype (Or.inr (Or.inl rfl))
  obtain ⟨con, hcon, htag, hchecked⟩ := h.checked hp hnot
  obtain ⟨n, rfl⟩ := class_of_tag (htag.trans htype)
  obtain ⟨hutf8, sub, hdesc, hsub⟩ := hchecked
  exact ⟨h.load _ fun p' hp' => Option.some.inj (hp.symm.trans hp') ▸ hnot, n, sub, hcon, hutf8, hdesc, hsub⟩

theorem Referencing.nameAndType (h : Referencing parse cp i s)
    (hcr : (LoadOpis (.type .NameAndType) index s).1 = some cr) :
    Referencing parse cp i (LoadOpis (.type .NameAndType) index s).2 ∧ ∃ n m,
      cp.constant index = some (.NameAndType n m) ∧ IsUtf8 cp n ∧ IsUtf8 cp m ∧ cr.bare = natDesc parse cp n m := by
  obtain ⟨p, hp, rfl, htype⟩ := LoadOpis_some hcr
  have hnot : ¬p.type.IsRef := not_isRef_of_eq htype (Or.inr (Or.inr rfl))
  obtain ⟨con, hcon, htag, hchecked⟩ := h.checked hp hnot
  obtain ⟨n, m, rfl⟩ := nameAndType_of_tag (htag.trans htype)
  obtain ⟨hn, hm, hdesc⟩ := hchecked
  exact ⟨h.load _ fun p' hp' => Option.some.inj (hp.symm.trans hp') ▸ hnot, n, m, hcon, hn, hm, hdesc⟩

/-! ### Steps -/

theorem handled_succ (hcon : cp.constant i = some con) (htag : con.tag ≠ .MethodHandle) :
    (∃ h < i + 1, ∃ kind, cp.constant h = some (.MethodHandle kind k)) ↔
      ∃ h < i, ∃ kind, cp.constant h = some (.MethodHandle kind k) := by
  constructor
  · rintro ⟨h, hlt, kind, hh⟩
    obtain hlt | rfl := Nat.lt_succ_iff_lt_or_eq.1 hlt
    · exact ⟨h, hlt, kind, hh⟩
    · obtain rfl := Option.some.inj (hcon.symm.trans hh)
      exact (htag rfl).elim
  · rintro ⟨h, hlt, hh⟩
    exact ⟨h, by omega, hh⟩

theorem Referencing.store (h : Referencing parse cp i s) (hcon : cp.constant i = some con)
    (hd : Referenced parse cp i con d.bare) (hext : ∀ r, ¬External parse cp i r) (htag : con.tag ≠ .MethodHandle)
    (hREF : d.type.IsRef → (d._REF = true ↔ ∃ h < i, ∃ kind, cp.constant h = some (.MethodHandle kind i))) :
    Referencing parse cp (i + 1) (s.StoreOpis i d) := by
  refine ⟨h.pool.StoreOpis hcon ?_ fun k con b hk hR => hR.succ hk, fun j => ?_, h.sorted, fun k d' hk href => ?_,
    h.found⟩
  · rw [Until, if_pos (Nat.lt_succ_self i)]
    exact hd
  · rw [show (s.StoreOpis i d).refs = s.refs from rfl, h.refs j]
    constructor
    · rintro ⟨hlt, hj⟩
      exact ⟨by omega, hj⟩
    · rintro ⟨hlt, r, hr⟩
      obtain hlt | rfl := Nat.lt_succ_iff_lt_or_eq.1 hlt
      · exact ⟨hlt, r, hr⟩
      · exact (hext r hr).elim
  · rw [handled_succ hcon htag]
    by_cases hki : k = i
    · subst hki
      have hself : (s.StoreOpis k d).pool k = some d := update_self ..
      obtain rfl := Option.some.inj (hself.symm.trans hk)
      exact hREF href
    · exact h.handled k d' ((update_of_ne hki ..).symm.trans hk) href

theorem Referencing.append (h : Referencing parse cp i s) (hcon : cp.constant i = some con)
    (hd : Referenced parse cp i con d.bare) (hext : External parse cp i r) (htag : con.tag ≠ .MethodHandle)
    (hREF : d._REF = true ↔ ∃ h < i, ∃ kind, cp.constant h = some (.MethodHandle kind i)) :
    Referencing parse cp (i + 1) ({ s with refs := s.refs ++ [i] }.StoreOpis i d) := by
  refine ⟨fun k => ?_, fun j => ?_, ?_, fun k d' hk href => ?_, h.found⟩
  · refine (h.pool.StoreOpis hcon ?_ fun k con b hk hR => hR.succ hk) k
    rw [Until, if_pos (Nat.lt_succ_self i)]
    exact hd
  · rw [show (load_t.StoreOpis { s with refs := s.refs ++ [i] } i d).refs = s.refs ++ [i] from rfl, List.mem_append,
      List.mem_singleton, h.refs j]
    constructor
    · rintro (⟨hlt, hj⟩ | rfl)
      · exact ⟨by omega, hj⟩
      · exact ⟨Nat.lt_succ_self j, r, hext⟩
    · rintro ⟨hlt, hj⟩
      obtain hlt | rfl := Nat.lt_succ_iff_lt_or_eq.1 hlt
      · exact Or.inl ⟨hlt, hj⟩
      · exact Or.inr rfl
  · refine List.pairwise_append.2 ⟨h.sorted, List.pairwise_singleton _ _, fun j hj k hk => ?_⟩
    obtain rfl := List.mem_singleton.1 hk
    exact ((h.refs j).1 hj).1
  · rw [handled_succ hcon htag]
    by_cases hki : k = i
    · subst hki
      have hself : (load_t.StoreOpis { s with refs := s.refs ++ [k] } k d).pool k = some d := update_self ..
      obtain rfl := Option.some.inj (hself.symm.trans hk)
      exact hREF
    · exact h.handled k d' ((update_of_ne hki ..).symm.trans hk) href

/-- The class and the name of a reference. -/
def constant_t.indices : constant_t → Option (Nat × Nat)
  | .Fieldref c nat => some (c, nat)
  | .Methodref c nat => some (c, nat)
  | .InterfaceMethodref c nat => some (c, nat)
  | _ => none

theorem indices_of_isRef (h : con.tag.IsRef) : ∃ c nat, con.indices = some (c, nat) := by
  cases con with
  | Fieldref c nat => exact ⟨c, nat, rfl⟩
  | Methodref c nat => exact ⟨c, nat, rfl⟩
  | InterfaceMethodref c nat => exact ⟨c, nat, rfl⟩
  | _ => obtain h | h | h := h <;> cases h

variable {c nat : Nat}

theorem isRef_of_indices (h : con.indices = some (c, nat)) : con.tag.IsRef := by
  cases con with
  | Fieldref => exact Or.inl rfl
  | Methodref => exact Or.inr (Or.inl rfl)
  | InterfaceMethodref => exact Or.inr (Or.inr rfl)
  | _ => cases h

theorem readConstant_ref (h : con.indices = some (c, nat)) :
    readConstant parse i con = { type := con.tag, _class := c, _name := nat } := by
  cases con with
  | Fieldref =>
      obtain ⟨rfl, rfl⟩ := Prod.mk.inj (Option.some.inj h)
      rfl
  | Methodref =>
      obtain ⟨rfl, rfl⟩ := Prod.mk.inj (Option.some.inj h)
      rfl
  | InterfaceMethodref =>
      obtain ⟨rfl, rfl⟩ := Prod.mk.inj (Option.some.inj h)
      rfl
  | _ => cases h

theorem reference_eq {m : Nat} (hcon : cp.constant i = some con) (h : con.indices = some (c, nat))
    (hnat : cp.constant nat = some (.NameAndType n m)) : reference cp i = some ⟨con.tag, c, n, m⟩ := by
  have hname (type : cp_tag_t) : reference.withName cp type c nat = some ⟨type, c, n, m⟩ := by
    rw [reference.withName, hnat]
  rw [reference, hcon]
  cases con with
  | Fieldref =>
      obtain ⟨rfl, rfl⟩ := Prod.mk.inj (Option.some.inj h)
      exact hname _
  | Methodref =>
      obtain ⟨rfl, rfl⟩ := Prod.mk.inj (Option.some.inj h)
      exact hname _
  | InterfaceMethodref =>
      obtain ⟨rfl, rfl⟩ := Prod.mk.inj (Option.some.inj h)
      exact hname _
  | _ => cases h

theorem checked_ref (h : con.tag.IsRef) (hb : Checked parse cp k con b) : Read parse k con b := by
  cases con with
  | Class => obtain h | h | h := h <;> cases h
  | NameAndType => obtain h | h | h := h <;> cases h
  | _ => exact hb

theorem Referencing.member {cd : const_desc_t} (h : Referencing parse cp i s) (hcon : cp.constant i = some con)
    (href : con.tag.IsRef) (hp : s.pool i = some cd) (hs : referenceMember i cd s = some s') :
    Referencing parse cp (i + 1) s' := by
  obtain ⟨c, nat, hindices⟩ := indices_of_isRef href
  obtain ⟨con', hcon', hR⟩ := h.pool.get hp
  obtain rfl := Option.some.inj (hcon.symm.trans hcon')
  rw [Until, if_neg (Nat.lt_irrefl i)] at hR
  have hread : cd.bare = { type := con.tag, _class := c, _name := nat } :=
    (checked_ref href hR).trans (readConstant_ref hindices)
  have hREF := h.handled i cd hp
  obtain ⟨type, flag, ref, ref_ip, name, cls, dscr, subnam⟩ := cd
  obtain ⟨rfl, rfl, -, rfl, rfl, rfl, rfl, rfl⟩ := const_desc_t.mk.inj hread
  obtain ⟨cr, hcr, hrest⟩ := need_some hs
  dsimp only at hcr hrest
  obtain ⟨h1, n, sub, hclass, hn, hdesc, hsub⟩ := h.class hcr
  have hcrname : cr._name = n := congrArg const_desc_t._name hdesc
  have hcrsub : cr._subnam = sub := congrArg const_desc_t._subnam hdesc
  have hcrflag : cr.flag &&& HAS_CLSNAME = utf8Flag parse cp n &&& HAS_CLSNAME :=
    (congrArg (fun d => const_desc_t.flag d &&& HAS_CLSNAME) hdesc).trans (clsname_and _)
  simp only [hcrname, hcrsub, hcrflag] at hrest
  obtain ⟨h2, herr2⟩ := LoadOpis_check HAS_CLSNAME h1 hn
  obtain ⟨cr', hcr', hrest⟩ := need_some hrest
  obtain ⟨h3, nm, ds, hnat, hnm, hds, hdesc'⟩ := h2.nameAndType hcr'
  have hcrname' : cr'._name = ds := congrArg const_desc_t._name hdesc'
  have hcrcls' : cr'._class = nm := congrArg const_desc_t._class hdesc'
  have hcrflag' : cr'.flag = natFlag parse cp nm ds := congrArg const_desc_t.flag hdesc'
  simp only [hcrname', hcrcls', hcrflag', UInt8.zero_or] at hrest
  have hreference := reference_eq hcon hindices hnat
  obtain ⟨h4, herr4⟩ := LoadOpis_check (dscrFlag con.tag) h3 hds
  obtain ⟨h5, herr5, hname⟩ := LoadOpis_load HAS_FLDNAME h4 hnm
  have herr3 := LoadOpis_type_errload .NameAndType name
    (LoadOpis (.check HAS_CLSNAME) n (LoadOpis (.type .Class) cls s).2).2
  rw [herr4, herr3, herr2] at herr5
  have hmask : (if con.tag = .Fieldref then HAS_TYPEDSCR else HAS_CALLDSCR) = dscrFlag con.tag := rfl
  rw [Option.some_inj, hmask] at hrest
  generalize LoadOpis (.load HAS_FLDNAME) nm _ = named at h5 herr5 hname hrest
  have hnamed : Named parse cp cls ↔ utf8Flag parse cp n &&& HAS_CLSNAME ≠ 0 := by
    constructor
    · rintro ⟨n', hn', hflag⟩
      obtain rfl := constant_t.Class.inj (Option.some.inj (hclass.symm.trans hn'))
      exact hflag
    · exact fun hflag => ⟨n, hclass, hflag⟩
  have hexternal (r : reference_t) (hr : External parse cp i r) : r = ⟨con.tag, cls, nm, ds⟩ :=
    Option.some.inj (hr.reference.symm.trans hreference)
  have htag : con.tag ≠ .MethodHandle := by
    obtain h | h | h := href
    · exact fun h' => by cases h.symm.trans h'
    · exact fun h' => by cases h.symm.trans h'
    · exact fun h' => by cases h.symm.trans h'
  by_cases hext : External parse cp i ⟨con.tag, cls, nm, ds⟩
  · rw [if_pos (hnamed.1 hext.cls), if_pos hext.dscr, Nat.add_zero] at herr5
    rw [if_pos (And.intro (hname.2 hext.name) herr5)] at hrest
    obtain hsub | ⟨hnot, _⟩ := hsub
    · rw [← hrest]
      refine h5.append hcon ⟨rfl, fun hnot => (hnot href).elim, fun r hr => ?_⟩ hext htag (hREF href)
      obtain rfl := hexternal r hr
      exact ⟨n, sub, hclass, hsub.2, rfl⟩
    · exact (hnot hext.cls).elim
  · have hno (r : reference_t) (hr : External parse cp i r) : False := hext (hexternal r hr ▸ hr)
    split_ifs at hrest with hcond
    · have herr := hcond.2.symm.trans herr5
      refine (hext ⟨hreference, hnamed.2 fun hflag => ?_, hname.1 hcond.1, fun hflag => ?_⟩).elim
      · rw [if_neg (not_not.2 hflag)] at herr
        omega
      · rw [if_neg (c := utf8Flag parse cp ds &&& dscrFlag con.tag ≠ 0) (not_not.2 hflag)] at herr
        omega
    · rw [← hrest]
      exact h5.store hcon ⟨rfl, fun hnot => (hnot href).elim, fun r hr => (hno r hr).elim⟩ hno htag hREF

theorem isRef_of_reference (hcon : cp.constant i = some con) (h : reference cp i = some r) : con.tag.IsRef := by
  rw [reference, hcon] at h
  cases con with
  | Fieldref => exact Or.inl rfl
  | Methodref => exact Or.inr (Or.inl rfl)
  | InterfaceMethodref => exact Or.inr (Or.inr rfl)
  | _ => cases h

theorem not_external (hcon : cp.constant i = some con) (hnot : ¬con.tag.IsRef) (r : reference_t) :
    ¬External parse cp i r := fun hr => hnot (isRef_of_reference hcon hr.reference)

theorem Checked.referenced (h : Checked parse cp i con b) (hcon : cp.constant i = some con) (hnot : ¬con.tag.IsRef) :
    Referenced parse cp i con b :=
  ⟨h.type, fun _ => h, fun r hr => (not_external hcon hnot r hr).elim⟩

theorem Referencing.restore (h : Referencing parse cp i s) (hcon : cp.constant i = some con)
    (hd : Checked parse cp i con d.bare) (hnot : ¬con.tag.IsRef) (htag : con.tag ≠ .MethodHandle) :
    Referencing parse cp (i + 1) (s.StoreOpis i d) := by
  have htype : d.bare.type = con.tag := hd.type
  refine h.store hcon (hd.referenced hcon hnot) (not_external hcon hnot) htag fun href => ?_
  have href' : d.bare.type.IsRef := href
  rw [htype] at href'
  exact (hnot href').elim

theorem Referencing.next (h : Referencing parse cp i s)
    (hi : ∀ con, cp.constant i = some con → ¬con.tag.IsRef ∧ con.tag ≠ .MethodHandle) :
    Referencing parse cp (i + 1) s := by
  refine ⟨fun k => ?_, fun j => ?_, h.sorted, fun k d hk href => ?_, h.found⟩
  · obtain hnone | ⟨con, d, hcon, hd, hR⟩ := h.pool k
    · exact Or.inl hnone
    refine Or.inr ⟨con, d, hcon, hd, ?_⟩
    by_cases hk : k = i
    · subst hk
      rw [Until, if_neg (Nat.lt_irrefl k)] at hR
      rw [Until, if_pos (Nat.lt_succ_self k)]
      exact hR.referenced hcon (hi con hcon).1
    · exact hR.succ hk
  · rw [h.refs j]
    constructor
    · rintro ⟨hlt, hj⟩
      exact ⟨by omega, hj⟩
    rintro ⟨hlt, r, hr⟩
    obtain hlt | rfl := Nat.lt_succ_iff_lt_or_eq.1 hlt
    · exact ⟨hlt, r, hr⟩
    cases hcon : cp.constant j with
    | none =>
        have href := hr.reference
        rw [reference, hcon] at href
        cases href
    | some con => exact (not_external hcon (hi con hcon).1 r hr).elim
  · rw [h.handled k d hk href]
    constructor
    · rintro ⟨m, hlt, hm⟩
      exact ⟨m, by omega, hm⟩
    · rintro ⟨m, hlt, kind, hm⟩
      obtain hlt | rfl := Nat.lt_succ_iff_lt_or_eq.1 hlt
      · exact ⟨m, hlt, kind, hm⟩
      · exact ((hi _ hm).2 rfl).elim

theorem Referencing.handle {kind j : Nat} (h : Referencing parse cp i s)
    (hcon : cp.constant i = some (.MethodHandle kind j)) (hd : Checked parse cp i (.MethodHandle kind j) d.bare)
    (hcr : (LoadOpis .any j s).1 = some cr) :
    Referencing parse cp (i + 1) ((LoadOpis .any j s).2.StoreOpis i d) := by
  obtain ⟨p, hp, rfl, -⟩ := LoadOpis_some hcr
  have hnot : ¬(constant_t.MethodHandle kind j).tag.IsRef := by rintro (h | h | h) <;> cases h
  have htype : d.type = .MethodHandle := hd.type
  refine ⟨(h.pool.LoadOpis .any j).StoreOpis hcon ?_ fun k con b hk hR => hR.succ hk, fun k => ?_, ?_,
    fun k d' hk href => ?_, ?_⟩
  · rw [Until, if_pos (Nat.lt_succ_self i)]
    exact hd.referenced hcon hnot
  · rw [show ((LoadOpis .any j s).2.StoreOpis i d).refs = s.refs from LoadOpis_refs .any j s, h.refs k]
    constructor
    · rintro ⟨hlt, hk⟩
      exact ⟨by omega, hk⟩
    · rintro ⟨hlt, r, hr⟩
      obtain hlt | rfl := Nat.lt_succ_iff_lt_or_eq.1 hlt
      · exact ⟨hlt, r, hr⟩
      · exact (not_external hcon hnot r hr).elim
  · rw [show ((LoadOpis .any j s).2.StoreOpis i d).refs = s.refs from LoadOpis_refs .any j s]
    exact h.sorted
  · by_cases hki : k = i
    · subst hki
      have hself : ((LoadOpis .any j s).2.StoreOpis k d).pool k = some d := update_self ..
      obtain rfl := Option.some.inj (hself.symm.trans hk)
      rw [htype] at href
      exact (hnot href).elim
    · have hk' : (LoadOpis .any j s).2.pool k = some d' := (update_of_ne hki ..).symm.trans hk
      by_cases hkj : k = j
      · subst hkj
        rw [LoadOpis_pool hp, update_self] at hk'
        obtain rfl := Option.some.inj hk'
        exact iff_of_true rfl ⟨i, Nat.lt_succ_self i, kind, hcon⟩
      · rw [LoadOpis_other .any s hkj] at hk'
        rw [h.handled k d' hk' href]
        constructor
        · rintro ⟨m, hlt, hm⟩
          exact ⟨m, by omega, hm⟩
        rintro ⟨m, hlt, kind', hm⟩
        obtain hlt | rfl := Nat.lt_succ_iff_lt_or_eq.1 hlt
        · exact ⟨m, hlt, kind', hm⟩
        · obtain ⟨rfl, rfl⟩ := constant_t.MethodHandle.inj (Option.some.inj (hcon.symm.trans hm))
          exact (hkj rfl).elim
  · rw [show ((LoadOpis .any j s).2.StoreOpis i d).classes = s.classes from LoadOpis_classes .any j s]
    exact h.found

theorem Referencing.step (h : Referencing parse cp i s) (hs : referenceConstant i s = some s') :
    Referencing parse cp (i + 1) s' := by
  rw [referenceConstant] at hs
  cases hp : s.pool i with
  | none =>
      rw [hp] at hs
      obtain rfl := Option.some.inj hs
      refine h.next fun con hcon => ?_
      obtain ⟨d, hd, _⟩ := h.pool.of_constant hcon
      cases hp.symm.trans hd
  | some cd =>
      obtain ⟨con, hcon, hR⟩ := h.pool.get hp
      rw [Until, if_neg (Nat.lt_irrefl i)] at hR
      have hbare : cd.bare.type = con.tag := hR.type
      have htype : cd.type = con.tag := hbare
      rw [hp] at hs
      dsimp only at hs
      rw [htype] at hs
      have hskip (hnot : ¬con.tag.IsRef) (htag : con.tag ≠ .MethodHandle) : Referencing parse cp (i + 1) s :=
        h.next fun con' hcon' => by
          obtain rfl := Option.some.inj (hcon.symm.trans hcon')
          exact ⟨hnot, htag⟩
      cases con with
      | Fieldref c nat => exact h.member hcon (Or.inl rfl) hp hs
      | Methodref c nat => exact h.member hcon (Or.inr (Or.inl rfl)) hp hs
      | InterfaceMethodref c nat => exact h.member hcon (Or.inr (Or.inr rfl)) hp hs
      | MethodHandle kind j =>
          obtain ⟨cr, hcr, hrest⟩ := need_some hs
          obtain rfl := Option.some.inj hrest
          have hj : cd._class = j := congrArg const_desc_t._class hR
          rw [hj] at hcr ⊢
          exact h.handle hcon hR hcr
      | MethodType n =>
          obtain ⟨cr, hcr, hrest⟩ := need_some hs
          obtain rfl := Option.some.inj hrest
          obtain ⟨p, hp', -, htype'⟩ := LoadOpis_some hcr
          refine (h.load _ fun p' hp'' => ?_).restore hcon hR (by rintro (h | h | h) <;> cases h) fun h => by cases h
          obtain rfl := Option.some.inj (hp'.symm.trans hp'')
          exact not_isRef_of_eq htype' (Or.inl rfl)
      | InvokeDynamic bm nat =>
          obtain ⟨cr, hcr, hrest⟩ := need_some hs
          obtain rfl := Option.some.inj hrest
          obtain ⟨p, hp', -, htype'⟩ := LoadOpis_some hcr
          refine (h.load _ fun p' hp'' => ?_).restore hcon hR (by rintro (h | h | h) <;> cases h) fun h => by cases h
          obtain rfl := Option.some.inj (hp'.symm.trans hp'')
          exact not_isRef_of_eq htype' (Or.inr (Or.inr rfl))
      | _ =>
          obtain rfl := Option.some.inj hs
          exact hskip (by rintro (h | h | h) <;> cases h) fun h => by cases h

variable (parse cp) in
/-- What a load leaves. -/
structure Loaded (s : load_t) : Prop where
  pool : Pool cp (Referenced parse cp) s
  refs : ∀ j, j ∈ s.refs ↔ ∃ r, External parse cp j r
  sorted : s.refs.Pairwise (· < ·)
  handled : ∀ k d, s.pool k = some d → d.type.IsRef → (d._REF = true ↔ Handled cp k)
  found : ∀ r, FirstClass parse cp r r → ∃ n, (r, n) ∈ s.classes

theorem constant_bounds (h : cp.constant i = some con) : 1 ≤ i ∧ i ≤ cp.length := by
  rw [constant_pool_t.constant] at h
  split_ifs at h with hzero
  have hlt := (List.getElem?_eq_some_iff.1 (Option.join_eq_some_iff.1 h)).1
  omega

theorem checking_start : Checking parse cp 1 { pool := fun i => (cp.constant i).map (readConstant parse i) } where
  pool k := by
    cases hcon : cp.constant k with
    | none => exact Or.inl ⟨rfl, congrArg (Option.map (readConstant parse k)) hcon⟩
    | some con =>
        refine Or.inr ⟨con, readConstant parse k con, rfl, congrArg (Option.map (readConstant parse k)) hcon, ?_⟩
        have hpos := (constant_bounds hcon).1
        rw [Until, if_neg (by omega)]
        cases con <;> rfl
  classes rfc hrfc := absurd hrfc List.not_mem_nil
  found r hr hfirst := by
    obtain ⟨n, hn, -⟩ := hfirst.named
    have hpos := (constant_bounds hn).1
    omega
  refs := rfl
  unref k d hk href := by
    obtain ⟨con, hcon, rfl⟩ := Option.map_eq_some_iff.1 hk
    cases con <;> rfl

theorem Checking.referencing (h : Checking parse cp (1 + cp.length) s) : Referencing parse cp 1 s where
  pool := h.pool.mono fun k con b hcon hR => by
    obtain ⟨hpos, hle⟩ := constant_bounds hcon
    rw [Until, if_pos (by omega)] at hR
    rwa [Until, if_neg (by omega)]
  refs j := by
    rw [h.refs]
    refine iff_of_false List.not_mem_nil ?_
    rintro ⟨hlt, r, hr⟩
    cases hcon : cp.constant j with
    | none =>
        have href := hr.reference
        rw [reference, hcon] at href
        cases href
    | some con =>
        have hpos := (constant_bounds hcon).1
        omega
  sorted := by
    rw [h.refs]
    exact List.Pairwise.nil
  handled k d hk href := by
    refine iff_of_false (by rw [h.unref k d hk href]; exact Bool.false_ne_true) ?_
    rintro ⟨m, hlt, kind, hm⟩
    have hpos := (constant_bounds hm).1
    omega
  found r hr hfirst := h.found r (by omega) hfirst

theorem loaded (h : load_constants_pool parse cp = some s) : Loaded parse cp s := by
  obtain ⟨t, hcheck, href⟩ := Option.bind_eq_some_iff.1 h
  have ht := forEachIndex_keeps (fun i s s' hi hs => Checking.step hi hs) checking_start hcheck
  have hs := forEachIndex_keeps (fun i s s' hi hs => Referencing.step hi hs) ht.referencing href
  refine ⟨hs.pool.mono fun k con b hcon hR => ?_, fun j => ?_, hs.sorted, fun k d hk hd => ?_, fun r hr => ?_⟩
  · have hle := (constant_bounds hcon).2
    rwa [Until, if_pos (by omega)] at hR
  · rw [hs.refs j]
    refine ⟨fun h => h.2, fun hj => ⟨?_, hj⟩⟩
    obtain ⟨r, hr⟩ := hj
    cases hcon : cp.constant j with
    | none =>
        have href := hr.reference
        rw [reference, hcon] at href
        cases href
    | some con =>
        have hle := (constant_bounds hcon).2
        omega
  · rw [hs.handled k d hk hd]
    constructor
    · rintro ⟨m, _, kind, hm⟩
      exact ⟨m, kind, hm⟩
    · rintro ⟨m, kind, hm⟩
      have hle := (constant_bounds hm).2
      exact ⟨m, by omega, kind, hm⟩
  · obtain ⟨n, hn, -⟩ := hr.named
    exact hs.found r (constant_bounds hn).2 hr

end

end IdaSdk.JavaXtrn
