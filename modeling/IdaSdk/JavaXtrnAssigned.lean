import IdaSdk.JavaXtrnRest

/-!
What a sorted constant pool has for its classes and references: the slot of the class, that of the first reference to
it, and those of the others.
-/

namespace IdaSdk.JavaXtrn
open Function

section
variable (parse : List UInt16 → parsed_t) (cp : constant_pool_t) (this_class : Nat)

/-- The name of the class that a constant is about. -/
def ownerName (k : Nat) : Option (List UInt16) :=
  match cp.constant k with
  | some (.Class n) => some (cp.string n)
  | _ => (reference cp k).bind fun r => className cp r.cls

/-- What a class or a reference denotes. -/
inductive denotation_t where
  | cls (name : List UInt16)
  | member (type : cp_tag_t) (cls : Option (List UInt16)) (name dscr : List UInt16)
deriving DecidableEq

def denoted (k : Nat) : Option denotation_t :=
  match cp.constant k with
  | some (.Class n) => some (.cls (cp.string n))
  | _ => (reference cp k).map fun r => .member r.type (className cp r.cls) (cp.string r.name) (cp.string r.dscr)

/-- Something has referred to the reference before the references are sorted. -/
def Used (k : Nat) : Prop := Handled cp k ∨ k = this_class

def slot (s : sort_t) (k : Nat) : Nat :=
  match s.pool k with
  | some d => d.ref_ip
  | none => 0

end

section
variable {parse : List UInt16 → parsed_t} {cp : constant_pool_t} {this_class this j k m : Nat} {q r : reference_t}
  {d e : const_desc_t} {l : load_t} {s : sort_t}

theorem reference_some (h : reference cp j = some r) : ∃ con nat, cp.constant j = some con ∧ con.tag = r.type ∧
    con.indices = some (r.cls, nat) ∧ cp.constant nat = some (.NameAndType r.name r.dscr) := by
  have hname {type : cp_tag_t} {c nat : Nat} (h : reference.withName cp type c nat = some r) :
      type = r.type ∧ c = r.cls ∧ cp.constant nat = some (.NameAndType r.name r.dscr) := by
    rw [reference.withName] at h
    cases hnat : cp.constant nat with
    | none =>
        rw [hnat] at h
        cases h
    | some con =>
        rw [hnat] at h
        cases con with
        | NameAndType n d =>
            obtain rfl := Option.some.inj h
            exact ⟨rfl, rfl, rfl⟩
        | _ => cases h
  rw [reference] at h
  cases hcon : cp.constant j with
  | none =>
      rw [hcon] at h
      cases h
  | some con =>
      rw [hcon] at h
      cases con with
      | Fieldref c nat =>
          obtain ⟨htype, rfl, hnat⟩ := hname h
          exact ⟨_, nat, rfl, htype, rfl, hnat⟩
      | Methodref c nat =>
          obtain ⟨htype, rfl, hnat⟩ := hname h
          exact ⟨_, nat, rfl, htype, rfl, hnat⟩
      | InterfaceMethodref c nat =>
          obtain ⟨htype, rfl, hnat⟩ := hname h
          exact ⟨_, nat, rfl, htype, rfl, hnat⟩
      | _ => cases h

theorem External.constant (h : External parse cp j r) :
    ∃ con, cp.constant j = some con ∧ con.tag = r.type ∧ con.tag.IsRef := by
  obtain ⟨con, nat, hcon, htag, hindices, -⟩ := reference_some h.reference
  exact ⟨con, hcon, htag, isRef_of_indices hindices⟩

theorem External.not_class (h : External parse cp j r) (n : Nat) : cp.constant j ≠ some (.Class n) := by
  intro hclass
  obtain ⟨con, hcon, -, href⟩ := h.constant
  obtain rfl := Option.some.inj (hcon.symm.trans hclass)
  obtain h | h | h := href
  · cases h
  · cases h
  · cases h

theorem External.ownerName (h : External parse cp j r) : ownerName cp j = className cp r.cls := by
  have hnot := h.not_class
  rw [JavaXtrn.ownerName]
  split
  · rename_i n hn
    exact (hnot n hn).elim
  · rw [h.reference, Option.bind_some]

theorem External.denoted (h : External parse cp j r) :
    denoted cp j = some (.member r.type (className cp r.cls) (cp.string r.name) (cp.string r.dscr)) := by
  have hnot := h.not_class
  rw [JavaXtrn.denoted]
  split
  · rename_i n hn
    exact (hnot n hn).elim
  · rw [h.reference, Option.map_some]

theorem Named.className (h : Named parse cp k) : ∃ name, className cp k = some name ∧ ownerName cp k = some name ∧
    denoted cp k = some (.cls name) := by
  obtain ⟨n, hn, _⟩ := h
  refine ⟨cp.string n, className_eq hn, ?_, ?_⟩
  · rw [ownerName, hn]
  · rw [denoted, hn]

theorem Named.not_external (h : Named parse cp k) (h' : External parse cp k r) : False := by
  obtain ⟨n, hn, _⟩ := h
  exact h'.not_class n hn

theorem External.denotation_eq (hj : External parse cp j r) (hm : External parse cp m q) :
    JavaXtrn.denoted cp j = JavaXtrn.denoted cp m ↔ r.type = q.type ∧
    JavaXtrn.className cp r.cls = JavaXtrn.className cp q.cls ∧
      cp.string r.name = cp.string q.name ∧ cp.string r.dscr = cp.string q.dscr := by
  rw [hj.denoted, hm.denoted, Option.some_inj, denotation_t.member.injEq]

/-! ### The start of the sort -/

section
variable (parse cp this_class)

/-- What is sorted. -/
structure Started (l : load_t) : Prop where
  pool : Pool cp (Referenced parse cp) l
  refs : ∀ j, j ∈ l.refs ↔ ∃ r, External parse cp j r
  sorted : l.refs.Pairwise (· < ·)
  used : ∀ k d, l.pool k = some d → d.type.IsRef → (d._REF = true ↔ Used cp this_class k)

/-- An external reference in the database. -/
structure IsDesc (j : Nat) (r : reference_t) (n sub : Nat) (d : const_desc_t) : Prop where
  name : cp.constant r.cls = some (.Class n)
  first : FirstClass parse cp r.cls sub
  desc : d.bare = refDesc parse cp r.type n sub r
  _REF : d._REF = true ↔ Used cp this_class j

end

theorem started (h : Loaded parse cp l) : Started parse cp this_class (loadThis this_class l).2 where
  pool := h.pool.LoadOpis .named this_class
  refs j := by
    rw [loadThis, LoadOpis_refs]
    exact h.refs j
  sorted := by
    rw [loadThis, LoadOpis_refs]
    exact h.sorted
  used k d hd href := by
    by_cases hk : k = this_class
    · subst hk
      cases hp : l.pool k with
      | none => exact nomatch hd.symm.trans ((congrArg (fun s => load_t.pool s.2 k) (LoadOpis_none hp)).trans hp)
      | some p =>
          have hself : (LoadOpis .named k l).2.pool k = some { p with _REF := true } := by
            rw [LoadOpis_pool hp, update_self]
          obtain rfl := Option.some.inj (hself.symm.trans hd)
          exact iff_of_true rfl (Or.inr rfl)
    · rw [h.handled k d ((LoadOpis_other .named l hk).symm.trans hd) href]
      exact ⟨Or.inl, fun hused => hused.resolve_right hk⟩

theorem loadThis_named (h : Loaded parse cp l) : ((loadThis this_class l).1 = this_class ∧ Named parse cp this_class) ∨
    ((loadThis this_class l).1 = 0 ∧ ¬Named parse cp this_class) := by
  have hiff : (LoadOpis .named this_class l).1.isSome = true ↔ Named parse cp this_class := by
    rw [LoadOpis]
    cases hp : l.pool this_class with
    | none =>
        refine iff_of_false (fun h => by cases h) ?_
        rintro ⟨n, hn, _⟩
        obtain ⟨d, hd, _⟩ := h.pool.of_constant hn
        cases hp.symm.trans hd
    | some p =>
        obtain ⟨con, hcon, hR⟩ := h.pool.get hp
        have htag : p.type = con.tag := hR.type
        have hclass {n : Nat} (hn : con = .Class n) : p.flag &&& HAS_CLSNAME = utf8Flag parse cp n &&& HAS_CLSNAME := by
          subst hn
          obtain ⟨_, sub, hdesc, _⟩ := hR.same (by rintro (h | h | h) <;> cases h)
          have hflag : p.bare.flag &&& HAS_CLSNAME = (classDesc parse cp n sub).flag &&& HAS_CLSNAME := by rw [hdesc]
          exact hflag.trans (clsname_and _)
        dsimp only
        constructor
        · intro hsome
          split_ifs at hsome with hnamed
          · obtain ⟨n, rfl⟩ := class_of_tag (htag.symm.trans hnamed.1)
            exact ⟨n, hcon, hclass rfl ▸ hnamed.2⟩
          · cases hsome
        · rintro ⟨n, hn, hflag⟩
          obtain rfl := Option.some.inj (hcon.symm.trans hn)
          rw [if_pos ⟨htag, (hclass rfl).trans_ne hflag⟩]
          rfl
  rw [loadThis]
  by_cases hnamed : Named parse cp this_class
  · exact Or.inl ⟨if_pos (hiff.2 hnamed), hnamed⟩
  · exact Or.inr ⟨if_neg fun h => hnamed (hiff.1 h), hnamed⟩

theorem Started.desc (h : Started parse cp this_class l) (hr : External parse cp j r) :
    ∃ d n sub, l.pool j = some d ∧ IsDesc parse cp this_class j r n sub d := by
  obtain ⟨con, hcon, htag, href⟩ := hr.constant
  obtain ⟨d, hd, hR⟩ := h.pool.of_constant hcon
  obtain ⟨n, sub, hn, hfirst, hdesc⟩ := hR.external r hr
  have htype : d.type = con.tag := hR.type
  exact ⟨d, n, sub, hd, hn, hfirst, htag ▸ hdesc, h.used j d hd (htype ▸ href)⟩

theorem Started.classes (h : Started parse cp this_class l) : Classes parse cp l.pool where
  represents k d hd htype := by
    obtain ⟨con, hcon, hR⟩ := h.pool.get hd
    have htag : d.type = con.tag := hR.type
    obtain ⟨n, rfl⟩ := class_of_tag (htag.symm.trans htype)
    obtain ⟨_, sub, hdesc, hrep⟩ := hR.same (by rintro (h | h | h) <;> cases h)
    have hsub : d.bare._subnam = sub := congrArg const_desc_t._subnam hdesc
    have hsub' : d._subnam = sub := hsub
    exact hsub' ▸ hrep
  named k hk := by
    obtain ⟨n, hn, _⟩ := hk
    obtain ⟨d, hd, hR⟩ := h.pool.of_constant hn
    exact ⟨d, hd, hR.type⟩

theorem Started.class_slot (h : Started parse cp this_class l) (hk : Named parse cp k) :
    ∃ d, l.pool k = some d ∧ d.ref_ip = 0 := by
  obtain ⟨n, hn, _⟩ := hk
  obtain ⟨d, hd, hR⟩ := h.pool.of_constant hn
  obtain ⟨_, sub, hdesc, _⟩ := hR.same (by rintro (h | h | h) <;> cases h)
  have hip : d.bare.ref_ip = 0 := congrArg const_desc_t.ref_ip hdesc
  exact ⟨d, hd, hip⟩

theorem Started.ready (h : Started parse cp this_class l) : Ready { pool := l.pool } l.refs := by
  intro j hj
  obtain ⟨r, hr⟩ := (h.refs j).1 hj
  obtain ⟨d, n, sub, hd, hdesc⟩ := h.desc hr
  obtain ⟨con, hcon, htag, href⟩ := hr.constant
  have hip : d.bare.ref_ip = sub := congrArg const_desc_t.ref_ip hdesc.desc
  have htype : d.bare.type = r.type := congrArg const_desc_t.type hdesc.desc
  have htype' : d.type = con.tag := htype.trans htag.symm
  obtain ⟨cr, hcr, hclass⟩ := h.classes.named sub hdesc.first.named
  have hip' : d.ref_ip = sub := hip
  exact ⟨d, cr, hd, htype' ▸ href, hip' ▸ hcr, hclass⟩

variable {n : Nat}

theorem alike_iff {n' sub sub' : Nat} (hm : External parse cp m q) (hr : External parse cp j r)
    (he : IsDesc parse cp this_class m q n sub e) (hd : IsDesc parse cp this_class j r n' sub' d)
    (hcls : className cp r.cls = className cp q.cls) :
    Alike parse cp e d ↔ denoted cp j = denoted cp m ∧ (Used cp this_class m ↔ Used cp this_class j) := by
  rw [hr.denotation_eq hm]
  have hetype : e.bare.type = q.type := congrArg const_desc_t.type he.desc
  have hdtype : d.bare.type = r.type := congrArg const_desc_t.type hd.desc
  have heflag : e.bare.flag = refFlag parse cp n q := congrArg const_desc_t.flag he.desc
  have hdflag : d.bare.flag = refFlag parse cp n' r := congrArg const_desc_t.flag hd.desc
  have hesub : e.bare._subnam = q.name := congrArg const_desc_t._subnam he.desc
  have hdsub : d.bare._subnam = r.name := congrArg const_desc_t._subnam hd.desc
  have hedscr : e.bare._dscr = q.dscr := congrArg const_desc_t._dscr he.desc
  have hddscr : d.bare._dscr = r.dscr := congrArg const_desc_t._dscr hd.desc
  have hname : CmpString parse cp d._subnam e._subnam = 0 ↔ cp.string r.name = cp.string q.name := by
    rw [show d._subnam = r.name from hdsub, show e._subnam = q.name from hesub]
    exact CmpString_eq (string_ne_nil hr.name)
  have hdscr : CmpString parse cp d._dscr e._dscr = 0 ↔ cp.string r.dscr = cp.string q.dscr := by
    rw [show d._dscr = r.dscr from hddscr, show e._dscr = q.dscr from hedscr]
    exact CmpString_eq (string_ne_nil hr.dscr)
  have hREF : d._REF = e._REF ↔ (Used cp this_class m ↔ Used cp this_class j) := by
    rw [← he._REF, ← hd._REF, Bool.eq_iff_iff]
    exact ⟨Iff.symm, Iff.symm⟩
  constructor
  · intro h
    exact ⟨⟨hdtype.symm.trans (h.type.trans hetype), hcls, hname.1 h.subnam, hdscr.1 h.dscr⟩, hREF.1 h._REF⟩
  rintro ⟨⟨htype, _, hnames, hdscrs⟩, hused⟩
  refine ⟨hdtype.trans (htype.trans hetype.symm), hdflag.trans (Eq.trans ?_ heflag.symm), hREF.2 hused,
    hname.2 hnames,
    hdscr.2 hdscrs⟩
  rw [className_eq he.name, className_eq hd.name, Option.some_inj] at hcls
  rw [refFlag, refFlag, natFlag, natFlag, utf8Flag, utf8Flag, utf8Flag, hcls, hnames, hdscrs]
  rfl

/-! ### The end of the sort -/

section
variable (parse cp this_class)

/-- The first reference `m` to a class other than the class itself. -/
structure Heads (this m : Nat) (q : reference_t) : Prop where
  external : External parse cp m q
  cls : q.cls ≠ this
  least : ∀ k r, External parse cp k r → className cp r.cls = className cp q.cls → r.cls ≠ this → m ≤ k

/-- The slots at the end. -/
structure Assigned (this : Nat) (s : sort_t) : Prop where
  once : s.slots.map Prod.fst = List.range' 1 s.ui
  first : ∀ k, FirstClass parse cp k k → k ≠ this → (slot s k, k) ∈ s.slots
  copy : ∀ k c, FirstClass parse cp k c → slot s k = slot s c
  this_slot : FirstClass parse cp this this → (∀ j r, External parse cp j r → className cp r.cls = className cp this →
    r.cls = this) → slot s this = 0
  own : ∀ j r, External parse cp j r → r.cls = this → (∀ k q, External parse cp k q →
    className cp q.cls = className cp this → q.cls = this) → slot s j = 0
  head : ∀ m q, Heads parse cp this m q → slot s q.cls < slot s m ∧ (slot s m, m) ∈ s.slots
  like : ∀ m q j r, Heads parse cp this m q → External parse cp j r → className cp r.cls = className cp q.cls → m < j →
    denoted cp j = denoted cp m → (Used cp this_class m ↔ Used cp this_class j) → slot s j = slot s m
  other : ∀ m q j r, Heads parse cp this m q → External parse cp j r → className cp r.cls = className cp q.cls → m < j →
    ¬(denoted cp j = denoted cp m ∧ (Used cp this_class m ↔ Used cp this_class j)) →
    slot s m < slot s j ∧ (slot s j, j) ∈ s.slots

end

theorem slot_eq {x : Nat} (h : s.pool k = some { d with ref_ip := x }) : slot s k = x := by
  rw [slot, h]

theorem slot_congr {s' : sort_t} (h : s'.pool k = s.pool k) : slot s' k = slot s k := by
  rw [slot, h, slot]

theorem Heads.first (h : Heads parse cp this m q) (hl : Started parse cp this_class l) :
    ∃ e n ic, l.pool m = some e ∧ IsDesc parse cp this_class m q n ic e ∧
      First this { pool := l.pool } l.refs ic m e := by
  obtain ⟨e, n, ic, he, hdesc⟩ := hl.desc h.external
  have hip : e.bare.ref_ip = ic := congrArg const_desc_t.ref_ip hdesc.desc
  have hcls : e.bare._class = q.cls := congrArg const_desc_t._class hdesc.desc
  refine ⟨e, n, ic, he, hdesc, (hl.refs m).2 ⟨q, h.external⟩, he, hip, ?_, fun k hk d hd hkip hkcls => ?_⟩
  · rw [show e._class = q.cls from hcls]
    exact h.cls
  obtain ⟨r, hr⟩ := (hl.refs k).1 hk
  obtain ⟨d', n', ic', hd', hdesc'⟩ := hl.desc hr
  obtain rfl := Option.some.inj (hd.symm.trans hd')
  have hip' : d.bare.ref_ip = ic' := congrArg const_desc_t.ref_ip hdesc'.desc
  have hcls' : d.bare._class = r.cls := congrArg const_desc_t._class hdesc'.desc
  have hsame : ic' = ic := hip'.symm.trans hkip
  refine h.least k r hr ?_ ?_
  · rw [← hdesc'.first.same, ← hdesc.first.same, hsame]
  · rw [← hcls']
    exact hkcls

theorem first_exists {refs : List Nat} {ic : Nat} (hj : j ∈ refs) (he : s.pool j = some e) (hip : e.ref_ip = ic)
    (hcls : e._class ≠ this) : ∃ m e, First this s refs ic m e := by
  classical
  have hex : ∃ m, m ∈ refs ∧ ∃ e, s.pool m = some e ∧ e.ref_ip = ic ∧ e._class ≠ this := ⟨j, hj, e, he, hip, hcls⟩
  obtain ⟨hmem, e', he', hip', hcls'⟩ := Nat.find_spec hex
  exact ⟨Nat.find hex, e', hmem, he', hip', hcls', fun k hk d hd hkip hkcls =>
    Nat.find_min' hex ⟨hk, d, hd, hkip, hkcls⟩⟩

variable {t u : sort_t}

theorem External.keep (hr : External parse cp j r) (hrest : Resting parse cp this n s t)
    (hcopy : Copying parse cp n t u) : u.pool j = s.pool j := by
  have hnot (c : Nat) (hc : FirstClass parse cp j c) : False := by
    obtain ⟨n', hn', _⟩ := hc.of_named
    exact hr.not_class n' hn'
  rw [hcopy.keep j fun c hc _ => (hnot c hc).elim]
  exact hrest.keep j fun hj _ => (hnot j hj).elim

theorem FirstClass.keep (hk : FirstClass parse cp k k) (hcopy : Copying parse cp n t u) :
    u.pool k = t.pool k :=
  hcopy.keep k fun _ hc hne => (hne (hc.unique hk)).elim

theorem assigned (hl : Started parse cp this_class l) {v : sort_t}
    (ht : Sorted parse cp this l.refs { pool := l.pool } t) (hu : Resting parse cp this (1 + cp.length) t u)
    (hv : Copying parse cp (1 + cp.length) u v) : Assigned parse cp this_class this v := by
  have hkeep (j : Nat) (r : reference_t) (hr : External parse cp j r) : v.pool j = t.pool j := hr.keep hu hv
  have hslots {x : Nat × Nat} (hx : x ∈ t.slots) : x ∈ v.slots := hv.slots ▸ hu.numbered.mem hx
  have hcls {ic c : Nat} {cr : const_desc_t} (hic : FirstClass parse cp ic ic) (hc : c ≠ 0)
      (h : t.pool ic = some { cr with ref_ip := c }) : slot v ic = c := by
    refine slot_eq (?_ : _ = some { cr with ref_ip := c })
    rw [hic.keep hv, hu.keep ic fun _ _ => Or.inl ⟨_, h, hc⟩]
    exact h
  have hcopy (k c : Nat) (h : FirstClass parse cp k c) : slot v k = slot v c := by
    by_cases hck : c = k
    · rw [hck]
    have hclasses := (hl.classes.still ht.still).still hu.still
    obtain ⟨d, hd, _⟩ := hclasses.named k h.of_named
    obtain ⟨e, he, _⟩ := hclasses.named c h.named
    obtain ⟨n, hn, _⟩ := h.of_named
    have hle := (constant_bounds hn).2
    rw [slot_eq (hv.copied k (by omega) c d e h hck hd he), slot_congr (h.self.keep hv), slot, he]
  have hgroup {m : Nat} {q : reference_t} (hm : Heads parse cp this m q) : ∃ e n ic c x,
      IsDesc parse cp this_class m q n ic e ∧ Grouped parse cp l.refs { pool := l.pool } t ic m e c x ∧
        slot v ic = c ∧ slot v m = x := by
    obtain ⟨e, n, ic, he, hdesc, hfirst⟩ := hm.first hl
    obtain ⟨c, x, h⟩ := ht.group ic m e hfirst
    obtain ⟨cr, hcr, _⟩ := hl.class_slot hdesc.first.named
    refine ⟨e, n, ic, c, x, hdesc, h, hcls hdesc.first.self ?_ (h.cls cr hcr), ?_⟩
    · exact Nat.ne_of_gt ((Nat.zero_le _).trans_lt h.start)
    · rw [slot_congr (hkeep m q hm.external), slot_eq h.first]
  have hmember {j ic : Nat} {r q : reference_t} (hr : External parse cp j r) (hq : FirstClass parse cp q.cls ic)
      (hsame : className cp r.cls = className cp q.cls) : ∃ d n sub, l.pool j = some d ∧ j ∈ l.refs ∧ d.ref_ip = ic ∧
        IsDesc parse cp this_class j r n sub d := by
    obtain ⟨d, n, sub, hd, hdesc⟩ := hl.desc hr
    have hip : d.bare.ref_ip = sub := congrArg const_desc_t.ref_ip hdesc.desc
    exact ⟨d, n, sub, hd, (hl.refs j).2 ⟨r, hr⟩, hip.trans (hdesc.first.unique (hq.congr hsame)), hdesc⟩
  refine ⟨?_, fun k hk hne => ?_, hcopy, fun hthis honly => ?_, fun j r hr hthis honly => ?_, fun m q hm => ?_,
    fun m q j r hm hr hsame hlt hden hused => ?_, fun m q j r hm hr hsame hlt hnot => ?_⟩
  · obtain ⟨new, hnew, hmap, hui⟩ := ht.numbered.trans hu.numbered
    rw [hv.slots, hv.ui, hnew, hui]
    simpa only [List.nil_append, Nat.zero_add] using hmap
  · obtain ⟨d, hd, _⟩ := (hl.classes.still ht.still).named k hk.of_named
    by_cases hip : d.ref_ip = 0
    · obtain ⟨n, hn, _⟩ := hk.named
      have hle := (constant_bounds hn).2
      obtain ⟨x, _, hx, hmem⟩ := hu.given k (by omega) d hk hne hd hip
      rw [slot_congr (hk.keep hv), slot_eq hx, hv.slots]
      exact hmem
    · obtain ⟨m, e, hm⟩ : ∃ m e, First this { pool := l.pool } l.refs k m e := by
        by_contra hno
        have hstay : t.pool k = l.pool k := by
          refine ht.rest k (fun hmem => ?_) fun j hj e he hcls hip => hno (first_exists hj he hip hcls)
          obtain ⟨r, hr⟩ := (hl.refs k).1 hmem
          exact hk.named.not_external hr
        obtain ⟨d', hd', hzero⟩ := hl.class_slot hk.named
        obtain rfl := Option.some.inj (hd.symm.trans (hstay.trans hd'))
        exact hip hzero
      obtain ⟨c, x, h⟩ := ht.group k m e hm
      obtain ⟨cr, hcr, _⟩ := hl.class_slot hk.named
      rw [hcls hk (Nat.ne_of_gt ((Nat.zero_le _).trans_lt h.start)) (h.cls cr hcr)]
      exact hslots h.cls_mem
  · obtain ⟨d, hd, hip⟩ := hl.class_slot hthis.named
    have hstay : t.pool this = l.pool this := by
      refine ht.rest this (fun hmem => ?_) fun j hj e he hcls hip => ?_
      · obtain ⟨r, hr⟩ := (hl.refs this).1 hmem
        exact hthis.named.not_external hr
      obtain ⟨r, hr⟩ := (hl.refs j).1 hj
      obtain ⟨e', n, sub, he', hdesc⟩ := hl.desc hr
      obtain rfl := Option.some.inj (he.symm.trans he')
      have hip' : e.bare.ref_ip = sub := congrArg const_desc_t.ref_ip hdesc.desc
      have hcls' : e.bare._class = r.cls := congrArg const_desc_t._class hdesc.desc
      have hsub : sub = this := hip'.symm.trans hip
      exact hcls (hcls'.trans (honly j r hr (hsub ▸ hdesc.first.same.symm)))
    rw [slot_congr (hthis.keep hv), slot_congr (hu.keep this fun _ hne => (hne rfl).elim), slot, hstay, hd]
    exact hip
  · obtain ⟨d, n, sub, hd, hdesc⟩ := hl.desc hr
    have hcls : d.bare._class = r.cls := congrArg const_desc_t._class hdesc.desc
    have hip : d.bare.ref_ip = sub := congrArg const_desc_t.ref_ip hdesc.desc
    have hzero := ht.own j ((hl.refs j).2 ⟨r, hr⟩) d hd (hcls.trans hthis) fun m e hm => by
      obtain ⟨q, hq⟩ := (hl.refs m).1 hm.mem
      obtain ⟨e', n', sub', he', hdesc'⟩ := hl.desc hq
      obtain rfl := Option.some.inj (hm.pool.symm.trans he')
      have hcls' : e.bare._class = q.cls := congrArg const_desc_t._class hdesc'.desc
      have hip' : e.bare.ref_ip = sub' := congrArg const_desc_t.ref_ip hdesc'.desc
      have hsub : sub' = sub := hip'.symm.trans (hm.ref_ip.trans hip)
      refine (hm._class (hcls'.trans (honly m q hq ?_))).elim
      rw [← hdesc'.first.same, hsub, hdesc.first.same, hthis]
    rw [slot_congr (hkeep j r hr), slot_eq hzero]
  · obtain ⟨e, n, ic, c, x, hdesc, h, hc, hx⟩ := hgroup hm
    rw [hx, hcopy q.cls ic hdesc.first, hc]
    exact ⟨h.lt, hslots h.first_mem⟩
  · obtain ⟨e, n, ic, c, x, hdesc, h, hc, hx⟩ := hgroup hm
    obtain ⟨d, n', sub, hd, hmem, hip, hdesc'⟩ := hmember hr hdesc.first hsame
    have halike := (alike_iff hm.external hr hdesc hdesc' hsame).2 ⟨hden, hused⟩
    rw [hx, slot_congr (hkeep j r hr), slot_eq (h.like j hmem d hd hip hlt halike)]
  · obtain ⟨e, n, ic, c, x, hdesc, h, hc, hx⟩ := hgroup hm
    obtain ⟨d, n', sub, hd, hmem, hip, hdesc'⟩ := hmember hr hdesc.first hsame
    have halike := fun halike => hnot ((alike_iff hm.external hr hdesc hdesc' hsame).1 halike)
    obtain ⟨y, hy, hpool, hymem⟩ := h.other j hmem d hd hip hlt halike
    rw [hx, slot_congr (hkeep j r hr), slot_eq hpool]
    exact ⟨hy, hslots hymem⟩

theorem live_refs (hl : Started parse cp this_class l) : live l.refs = l.refs := by
  refine List.filter_eq_self.2 fun j hj => decide_eq_true ?_
  obtain ⟨r, hr⟩ := (hl.refs j).1 hj
  obtain ⟨con, hcon, _⟩ := hr.constant
  exact Nat.ne_of_gt (constant_bounds hcon).1

theorem sortPool_assigned (h : load_constants_pool parse cp = some l) :
    ∃ s, sortPool parse cp this_class = some (l, (loadThis this_class l).1, s) ∧
      Assigned parse cp this_class (loadThis this_class l).1 s := by
  have hload := loaded h
  have hl : Started parse cp this_class (loadThis this_class l).2 := started hload
  rw [sortPool, h, Option.bind_some]
  dsimp only
  by_cases hempty : l.classes.length + l.refs.length = 0
  · rw [if_pos hempty]
    have hclasses : l.classes = [] := List.length_eq_zero_iff.1 (by omega)
    have hrefs : l.refs = [] := List.length_eq_zero_iff.1 (by omega)
    have hnofirst (k : Nat) (hk : FirstClass parse cp k k) : False := by
      obtain ⟨n, hn⟩ := hload.found k hk
      rw [hclasses] at hn
      exact List.not_mem_nil hn
    have hnoref (j : Nat) (r : reference_t) (hr : External parse cp j r) : False := by
      have hmem := (hload.refs j).2 ⟨r, hr⟩
      rw [hrefs] at hmem
      exact List.not_mem_nil hmem
    exact ⟨_, rfl, rfl, fun k hk => (hnofirst k hk).elim, fun k c hc => (hnofirst c hc.self).elim,
      fun hthis => (hnofirst _ hthis).elim, fun j r hr => (hnoref j r hr).elim, fun m q hm =>
      (hnoref m q hm.external).elim,
      fun m q _ _ hm => (hnoref m q hm.external).elim, fun m q _ _ hm => (hnoref m q hm.external).elim⟩
  · rw [if_neg hempty]
    generalize loadThis this_class l = this at hl ⊢
    have hlive := live_refs hl
    have hnodup : (live this.2.refs).Nodup := by
      rw [hlive]
      exact hl.sorted.imp Nat.ne_of_lt
    have hready : Ready { pool := this.2.pool } (live this.2.refs) := by
      rw [hlive]
      exact hl.ready
    have hsorts := @sortRefs_sorts parse cp this.2.refs.length this.2.refs { pool := this.2.pool } this.1
      (Nat.le_refl _)
      hnodup hready
    rw [hlive] at hsorts
    have ht := hsorts.sorted hl.sorted hl.ready
    obtain ⟨u, hrest, hu⟩ := @sortRest_resting parse cp this.1 _ cp.length (hl.classes.still ht.still)
    obtain ⟨v, hcopy, hv⟩ := copySlot_copying cp.length ((hl.classes.still ht.still).still hu.still)
    refine ⟨v, ?_, assigned hl ht hu hv⟩
    rw [setPoolReference, hrest, Option.bind_some, hcopy]
    rfl

end

end IdaSdk.JavaXtrn
