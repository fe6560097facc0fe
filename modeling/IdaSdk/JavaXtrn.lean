import IdaSdk.JavaXtrnAssigned

/-!
The slots of external references. Each slot is assigned once, but two references to the same member share one only if
they are like the first reference to their class.
-/

namespace IdaSdk.JavaXtrn
open Function

section
variable (parse : List UInt16 → parsed_t) (cp : constant_pool_t) (this_class : Nat)

/-- A class or a reference that there is a slot for. -/
def Entry (k : Nat) : Prop := Named parse cp k ∨ ∃ r, External parse cp k r

def Own (k : Nat) : Prop := Named parse cp this_class ∧ ownerName cp k = className cp this_class

/-- Slots as they should be. -/
structure SlotsAssigned (s : sort_t) : Prop where
  once : s.slots.map Prod.fst = List.range' 1 s.ui
  given : ∀ k, Entry parse cp k → ¬Own parse cp this_class k → slot s k ∈ s.slots.map Prod.fst
  same : ∀ k k', Entry parse cp k → Entry parse cp k' → ¬Own parse cp this_class k → ¬Own parse cp this_class k' →
    (slot s k = slot s k' ↔ denoted cp k = denoted cp k')
  before : ∀ j r, External parse cp j r → ¬Own parse cp this_class j → slot s r.cls < slot s j
  own : ∀ k, Entry parse cp k → Own parse cp this_class k → slot s k = 0

/-- The first reference to the class of `j`. -/
structure Leads (j m : Nat) : Prop where
  external : ∃ q, External parse cp m q
  same : ownerName cp m = ownerName cp j
  least : ∀ k q, External parse cp k q → ownerName cp k = ownerName cp j → m ≤ k

/-- References that cannot get different slots. -/
structure Mergeable : Prop where
  this_first : Named parse cp this_class → FirstClass parse cp this_class this_class
  this_only : Named parse cp this_class → ∀ j r, External parse cp j r → className cp r.cls = className cp this_class →
    r.cls = this_class
  like : ∀ j r j' r' m, External parse cp j r → External parse cp j' r' → j ≠ j' → ¬Own parse cp this_class j →
    denoted cp j = denoted cp j' → Leads parse cp j m →
    denoted cp m = denoted cp j ∧ (Used cp this_class m ↔ Used cp this_class j) ∧
      (Used cp this_class m ↔ Used cp this_class j')

end

section
variable {parse : List UInt16 → parsed_t} {cp : constant_pool_t} {this_class this j k m k' j' : Nat}
  {q r r' : reference_t}
  {d e : const_desc_t} {l : load_t} {s : sort_t}

/-! ### Slots and denotations -/

theorem Assigned.unique (h : Assigned parse cp this_class this s) {x a b : Nat} (ha : (x, a) ∈ s.slots)
    (hb : (x, b) ∈ s.slots) : a = b := by
  have hnodup : (s.slots.map Prod.fst).Nodup := h.once ▸ List.nodup_range'
  exact congrArg Prod.snd (List.inj_on_of_nodup_map hnodup ha hb rfl)

/-- A slot is assigned to a constant for the entry `k`. -/
structure Owns (parse : List UInt16 → parsed_t) (cp : constant_pool_t) (s : sort_t) (k o : Nat) : Prop where
  mem : (slot s k, o) ∈ s.slots
  denoted : denoted cp o = denoted cp k

theorem heads_exists (hr : External parse cp j r) (hcls : r.cls ≠ this) :
    ∃ m q, Heads parse cp this m q ∧ className cp q.cls = className cp r.cls ∧ m ≤ j := by
  classical
  have hex : ∃ m, ∃ q, External parse cp m q ∧ className cp q.cls = className cp r.cls ∧ q.cls ≠ this :=
    ⟨j, r, hr, rfl, hcls⟩
  obtain ⟨q, hq, hsame, hne⟩ := Nat.find_spec hex
  refine ⟨Nat.find hex, q, ⟨hq, hne, fun k p hp hpsame hpne => ?_⟩, hsame, Nat.find_min' hex ⟨r, hr, rfl, hcls⟩⟩
  exact Nat.find_min' hex ⟨p, hp, hpsame.trans hsame, hpne⟩

theorem Assigned.member (h : Assigned parse cp this_class this s) (hr : External parse cp j r) (hcls : r.cls ≠ this) :
    ∃ m q, Heads parse cp this m q ∧ className cp q.cls = className cp r.cls ∧
      ((denoted cp j = denoted cp m ∧ (Used cp this_class m ↔ Used cp this_class j) ∧ slot s j = slot s m) ∨
        (slot s m < slot s j ∧ (slot s j, j) ∈ s.slots ∧ j ≠ m ∧
          ¬(denoted cp j = denoted cp m ∧ (Used cp this_class m ↔ Used cp this_class j)))) := by
  obtain ⟨m, q, hm, hsame, hle⟩ := heads_exists hr hcls
  refine ⟨m, q, hm, hsame, ?_⟩
  obtain rfl | hlt := Nat.eq_or_lt_of_le hle
  · exact Or.inl ⟨rfl, Iff.rfl, rfl⟩
  · by_cases hlike : denoted cp j = denoted cp m ∧ (Used cp this_class m ↔ Used cp this_class j)
    · exact Or.inl ⟨hlike.1, hlike.2, h.like m q j r hm hr hsame.symm hlt hlike.1 hlike.2⟩
    · obtain ⟨hslot, hmem⟩ := h.other m q j r hm hr hsame.symm hlt hlike
      exact Or.inr ⟨hslot, hmem, Nat.ne_of_gt hlt, hlike⟩

theorem Assigned.owns_member (h : Assigned parse cp this_class this s) (hr : External parse cp j r)
    (hcls : r.cls ≠ this) :
    ∃ o, Owns parse cp s j o := by
  obtain ⟨m, q, hm, -, ⟨hden, -, hslot⟩ | ⟨-, hmem, -⟩⟩ := h.member hr hcls
  · exact ⟨m, hslot ▸ (h.head m q hm).2, hden.symm⟩
  · exact ⟨j, hmem, rfl⟩

theorem Assigned.owns_class (h : Assigned parse cp this_class this s) {c : Nat} (hk : FirstClass parse cp k c)
    (hne : c ≠ this) : Owns parse cp s k c := by
  refine ⟨h.copy k c hk ▸ h.first c hk.self hne, ?_⟩
  obtain ⟨name, hname, -, hden⟩ := hk.named.className
  obtain ⟨name', hname', -, hden'⟩ := hk.of_named.className
  rw [hden, hden', Option.some.inj (hname.symm.trans (hk.same.trans hname'))]

theorem own_iff (hthis : (this = this_class ∧ Named parse cp this_class) ∨ (this = 0 ∧ ¬Named parse cp this_class)) :
    Own parse cp this_class k ↔ Named parse cp this ∧ ownerName cp k = className cp this := by
  obtain ⟨rfl, hnamed⟩ | ⟨rfl, hnot⟩ := hthis
  · rfl
  · refine iff_of_false (fun h => hnot h.1) fun h => ?_
    obtain ⟨n, hn, _⟩ := h.1
    exact Nat.lt_irrefl 0 (constant_bounds hn).1

theorem Own.congr (h : ownerName cp k = ownerName cp k') : Own parse cp this_class k ↔ Own parse cp this_class k' := by
  rw [Own, Own, h]

theorem not_own_class {c : Nat} (hthis : (this = this_class ∧ Named parse cp this_class) ∨
    (this = 0 ∧ ¬Named parse cp this_class))
    (hown : ¬Own parse cp this_class k) (hc : FirstClass parse cp k c) : c ≠ this := by
  rintro rfl
  obtain ⟨name, hname, howner, _⟩ := hc.of_named.className
  exact hown ((own_iff hthis).2 ⟨hc.named, howner.trans (hname.symm.trans hc.same.symm)⟩)

theorem not_own_member (hthis : (this = this_class ∧ Named parse cp this_class) ∨
    (this = 0 ∧ ¬Named parse cp this_class))
    (hown : ¬Own parse cp this_class j) (hr : External parse cp j r) : r.cls ≠ this := by
  rintro rfl
  exact hown ((own_iff hthis).2 ⟨hr.cls, hr.ownerName⟩)

theorem ownerName_eq (hr : External parse cp j r) (hr' : External parse cp j' r')
    (h : denoted cp j = denoted cp j') :
    ownerName cp j = ownerName cp j' := by
  rw [hr.ownerName, hr'.ownerName]
  exact ((hr.denotation_eq hr').1 h).2.1

theorem Heads.leads (hthis : (this = this_class ∧ Named parse cp this_class) ∨ (this = 0 ∧ ¬Named parse cp this_class))
    (hm : Heads parse cp this m q) (hown : ¬Own parse cp this_class j) (hr : External parse cp j r)
    (hsame : className cp q.cls = className cp r.cls) : Leads parse cp j m where
  external := ⟨q, hm.external⟩
  same := by
    rw [hm.external.ownerName, hr.ownerName]
    exact hsame
  least k p hp hname := by
    have hown' : ¬Own parse cp this_class k := fun h => hown ((Own.congr hname).1 h)
    refine hm.least k p hp ?_ (not_own_member hthis hown' hp)
    rw [hsame, ← hp.ownerName, ← hr.ownerName]
    exact hname

theorem Leads.unique {m' : Nat} (h : Leads parse cp j m) (h' : Leads parse cp j m') : m = m' := by
  obtain ⟨q, hq⟩ := h.external
  obtain ⟨q', hq'⟩ := h'.external
  exact Nat.le_antisymm (h.least m' q' hq' h'.same) (h'.least m q hq h.same)

theorem Leads.congr (h : Leads parse cp j m) (hname : ownerName cp j = ownerName cp j') : Leads parse cp j' m where
  external := h.external
  same := h.same.trans hname
  least k p hp hk := h.least k p hp (hk.trans hname.symm)

theorem Assigned.slot_of_like (h : Assigned parse cp this_class this s) (hm : Heads parse cp this m q)
    (hr : External parse cp j r) (hcls : r.cls ≠ this) (hden : denoted cp j = denoted cp m)
    (hused : Used cp this_class m ↔ Used cp this_class j) : slot s j = slot s m := by
  have hsame := ((hr.denotation_eq hm.external).1 hden).2.1
  obtain rfl | hlt := Nat.eq_or_lt_of_le (hm.least j r hr hsame hcls)
  · rfl
  · exact h.like m q j r hm hr hsame hlt hden hused

theorem Assigned.before (h : Assigned parse cp this_class this s) (hr : External parse cp j r) (hcls : r.cls ≠ this) :
    slot s r.cls < slot s j := by
  obtain ⟨m, q, hm, hsame, hslot⟩ := h.member hr hcls
  obtain ⟨c, hc⟩ := firstClass_exists hr.cls
  have hlt := (h.head m q hm).1
  rw [h.copy q.cls c (hc.congr hsame), ← h.copy r.cls c hc] at hlt
  obtain ⟨-, -, heq⟩ | ⟨hother, -⟩ := hslot
  · exact heq ▸ hlt
  · exact hlt.trans hother

section
variable (hthis : (this = this_class ∧ Named parse cp this_class) ∨ (this = 0 ∧ ¬Named parse cp this_class))
include hthis

theorem Assigned.owns (h : Assigned parse cp this_class this s) (hk : Entry parse cp k)
    (hown : ¬Own parse cp this_class k) : ∃ o, Owns parse cp s k o := by
  obtain hnamed | ⟨r, hr⟩ := hk
  · obtain ⟨c, hc⟩ := firstClass_exists hnamed
    exact ⟨c, h.owns_class hc (not_own_class hthis hown hc)⟩
  · exact h.owns_member hr (not_own_member hthis hown hr)

theorem Mergeable.same_member (hmerge : Mergeable parse cp this_class) (h : Assigned parse cp this_class this s)
    (hr : External parse cp j r) (hr' : External parse cp j' r') (hown : ¬Own parse cp this_class j)
    (hden : denoted cp j = denoted cp j') : slot s j = slot s j' := by
  by_cases hne : j = j'
  · rw [hne]
  have hcls := not_own_member hthis hown hr
  have hown' : ¬Own parse cp this_class j' := fun h => hown ((Own.congr (ownerName_eq hr hr' hden)).2 h)
  obtain ⟨m, q, hm, hsame, -⟩ := heads_exists hr hcls
  obtain ⟨hdm, hused, hused'⟩ := hmerge.like j r j' r' m hr hr' hne hown hden (hm.leads hthis hown hr hsame)
  rw [h.slot_of_like hm hr hcls hdm.symm hused,
    h.slot_of_like hm hr' (not_own_member hthis hown' hr') (hden.symm.trans hdm.symm) hused']

theorem Mergeable.same (hmerge : Mergeable parse cp this_class) (h : Assigned parse cp this_class this s)
    (hk : Entry parse cp k) (hk' : Entry parse cp k') (hown : ¬Own parse cp this_class k)
    (hden : denoted cp k = denoted cp k') : slot s k = slot s k' := by
  obtain hnamed | ⟨r, hr⟩ := hk
  · obtain ⟨name, hname, -, hdk⟩ := hnamed.className
    obtain hnamed' | ⟨r', hr'⟩ := hk'
    · obtain ⟨name', hname', -, hdk'⟩ := hnamed'.className
      have heq : name = name' := denotation_t.cls.inj (Option.some.inj (hdk.symm.trans (hden.trans hdk')))
      obtain ⟨c, hc⟩ := firstClass_exists hnamed
      rw [h.copy k c hc, h.copy k' c (hc.congr (hname'.trans (heq ▸ hname.symm)))]
    · rw [hdk, hr'.denoted] at hden
      cases hden
  · obtain hnamed' | ⟨r', hr'⟩ := hk'
    · obtain ⟨name', -, -, hdk'⟩ := hnamed'.className
      rw [hdk', hr.denoted] at hden
      cases hden
    · exact hmerge.same_member hthis h hr hr' hown hden

theorem Mergeable.own (hmerge : Mergeable parse cp this_class) (h : Assigned parse cp this_class this s)
    (hk : Entry parse cp k) (hown : Own parse cp this_class k) : slot s k = 0 := by
  obtain ⟨rfl, hnamed⟩ | ⟨-, hnot⟩ := hthis
  · have hfirst := hmerge.this_first hnamed
    obtain hk | ⟨r, hr⟩ := hk
    · obtain ⟨name, hname, howner, -⟩ := hk.className
      have hsame : className cp k = className cp this := hname.trans (howner.symm.trans hown.2)
      rw [h.copy k this (hfirst.congr hsame)]
      exact h.this_slot hfirst (hmerge.this_only hnamed)
    · have hcls := hmerge.this_only hnamed k r hr (hr.ownerName.symm.trans hown.2)
      exact h.own k r hr hcls (hmerge.this_only hnamed)
  · exact (hnot hown.1).elim

theorem Mergeable.slotsAssigned (hmerge : Mergeable parse cp this_class) (h : Assigned parse cp this_class this s) :
    SlotsAssigned parse cp this_class s where
  once := h.once
  given k hk hown := by
    obtain ⟨o, ho⟩ := h.owns hthis hk hown
    exact List.mem_map.2 ⟨_, ho.mem, rfl⟩
  same k k' hk hk' hown hown' := by
    constructor
    · intro heq
      obtain ⟨o, ho⟩ := h.owns hthis hk hown
      obtain ⟨o', ho'⟩ := h.owns hthis hk' hown'
      obtain rfl : o = o' := h.unique ho.mem (heq ▸ ho'.mem)
      exact ho.denoted.symm.trans ho'.denoted
    · exact hmerge.same hthis h hk hk' hown
  before j r hr hown := h.before hr (not_own_member hthis hown hr)
  own k hk hown := hmerge.own hthis h hk hown

theorem SlotsAssigned.like (hslots : SlotsAssigned parse cp this_class s) (h : Assigned parse cp this_class this s)
    (hr : External parse cp j r) (hr' : External parse cp j' r') (hne : j ≠ j') (hown : ¬Own parse cp this_class j)
    (hden : denoted cp j = denoted cp j') (hlead : Leads parse cp j m) :
    denoted cp m = denoted cp j ∧ (Used cp this_class m ↔ Used cp this_class j) ∧
      (Used cp this_class m ↔ Used cp this_class j') := by
  have hname := ownerName_eq hr hr' hden
  have hown' : ¬Own parse cp this_class j' := fun h => hown ((Own.congr hname).2 h)
  have hslot := (hslots.same j j' (Or.inr ⟨r, hr⟩) (Or.inr ⟨r', hr'⟩) hown hown').2 hden
  obtain ⟨m1, q, hm, hsame, hcase⟩ := h.member hr (not_own_member hthis hown hr)
  obtain ⟨m2, q', hm', hsame', hcase'⟩ := h.member hr' (not_own_member hthis hown' hr')
  obtain rfl : m = m1 := hlead.unique (hm.leads hthis hown hr hsame)
  obtain rfl : m = m2 := (hlead.congr hname).unique (hm'.leads hthis hown' hr' hsame')
  obtain ⟨hdm, hused, heq⟩ | ⟨hlt, hmem, -⟩ := hcase
  · obtain ⟨-, hused', -⟩ | ⟨hlt', -⟩ := hcase'
    · exact ⟨hdm.symm, hused, hused'⟩
    · omega
  · obtain ⟨-, -, heq'⟩ | ⟨-, hmem', -⟩ := hcase'
    · omega
    · exact (hne (h.unique hmem (hslot ▸ hmem'))).elim

theorem SlotsAssigned.mergeable (hslots : SlotsAssigned parse cp this_class s)
    (h : Assigned parse cp this_class this s) :
    Mergeable parse cp this_class where
  this_first hnamed := by
    obtain ⟨rfl, -⟩ := hthis.resolve_right fun hnot => hnot.2 hnamed
    obtain ⟨c, hc⟩ := firstClass_exists hnamed
    by_cases hne : c = this
    · exact hne ▸ hc
    obtain ⟨name, hname, howner, -⟩ := hc.named.className
    have hzero := hslots.own c (Or.inl hc.named) ⟨hnamed, howner.trans (hname.symm.trans hc.same)⟩
    have hmem : slot s c ∈ s.slots.map Prod.fst := List.mem_map.2 ⟨_, h.first c hc.self hne, rfl⟩
    rw [hzero, h.once, List.mem_range'_1] at hmem
    omega
  this_only hnamed j r hr hsame := by
    obtain ⟨rfl, -⟩ := hthis.resolve_right fun hnot => hnot.2 hnamed
    by_contra hne
    have hzero := hslots.own j (Or.inr ⟨r, hr⟩) ⟨hnamed, hr.ownerName.trans hsame⟩
    have hlt := h.before hr hne
    omega
  like j r j' r' m hr hr' hne hown hden hlead := hslots.like hthis h hr hr' hne hown hden hlead

end

/-- The slots are as they should be if and only if the references can be merged. -/
theorem slotsAssigned_iff (h : load_constants_pool parse cp = some l) :
    (∃ this s, sortPool parse cp this_class = some (l, this, s) ∧ SlotsAssigned parse cp this_class s) ↔
      Mergeable parse cp this_class := by
  obtain ⟨s, hsort, hassigned⟩ := @sortPool_assigned parse cp this_class l h
  have hthis := @loadThis_named parse cp this_class l (loaded h)
  constructor
  · rintro ⟨this, s', hsort', hslots⟩
    obtain ⟨-, -, rfl⟩ : l = l ∧ (loadThis this_class l).1 = this ∧ s = s' := by
      have heq := Option.some.inj (hsort.symm.trans hsort')
      exact ⟨rfl, congrArg (fun p => p.2.1) heq, congrArg (fun p => p.2.2) heq⟩
    exact hslots.mergeable hthis hassigned
  · exact fun hmerge => ⟨_, s, hsort, hmerge.slotsAssigned hthis hassigned⟩

def everyString (_ : List UInt16) : parsed_t where
  flag := 0x1E
  opstr_flags := 0

/-- A class 4 that calls a method of the class 2. -/
def caller : constant_pool_t :=
  [some (.Utf8 [0x58]), some (.Class 1), some (.Utf8 [0x54]), some (.Class 3), some (.Utf8 [0x6D]),
    some (.Utf8 [0x28, 0x29, 0x56]), some (.NameAndType 5 6), some (.Methodref 2 7)]

theorem caller_reference (h : reference caller j = some r) : j = 8 ∧ r.cls = 2 := by
  have hall : ∀ j < 9, ((reference caller j).all fun r => decide (j = 8 ∧ r.cls = 2)) = true := by decide
  have hlt : j < 9 := by
    obtain ⟨con, nat, hcon, -⟩ := reference_some h
    exact Nat.lt_succ_of_le (constant_bounds hcon).2
  have hj := hall j hlt
  rw [h] at hj
  exact of_decide_eq_true hj

theorem slotsAssigned_caller : ∃ l this s, sortPool everyString caller 4 = some (l, this, s) ∧
    SlotsAssigned everyString caller 4 s := by
  have hload : (load_constants_pool everyString caller).isSome = true := by decide
  obtain ⟨l, hl⟩ := Option.isSome_iff_exists.1 hload
  have hclasses : ∀ c < 9, className caller c = className caller 4 → 4 ≤ c := by decide
  refine ⟨l, (slotsAssigned_iff hl).2 ⟨fun hnamed => ⟨hnamed, rfl, fun c hc => ?_⟩, fun _ j r hr => ?_,
    fun j r j' r' _ hr hr' hne => ?_⟩⟩
  · obtain ⟨n, hn, _⟩ := hc
    exact hclasses c (Nat.lt_succ_of_le (constant_bounds hn).2)
  · rw [(caller_reference hr.reference).2]
    exact fun h => absurd h (by decide)
  · exact (hne ((caller_reference hr.reference).1.trans (caller_reference hr'.reference).1.symm)).elim

/-- It calls another method of that class at two indices. -/
def repeated : constant_pool_t :=
  caller ++ [some (.Utf8 [0x6E]), some (.NameAndType 9 6), some (.Methodref 2 10), some (.Methodref 2 10)]

theorem not_slotsAssigned_repeated :
    ¬∃ l this s, sortPool everyString repeated 4 = some (l, this, s) ∧ SlotsAssigned everyString repeated 4 s := by
  rintro ⟨l, this, s, hsort, hslots⟩
  have hslot :
      (sortPool everyString repeated 4).map (fun p => (slot p.2.2 11, slot p.2.2 12)) = some (3, 4) := by decide
  rw [hsort] at hslot
  obtain ⟨h11, h12⟩ := Prod.mk.inj (Option.some.inj hslot)
  have hexternal (j : Nat) (hj : reference repeated j = some ⟨.Methodref, 2, 9, 6⟩) :
      External everyString repeated j ⟨.Methodref, 2, 9, 6⟩ := ⟨hj, ⟨1, rfl, by decide⟩, by decide, by decide⟩
  have hown (j : Nat) (hj : ownerName repeated j = some [0x58]) : ¬Own everyString repeated 4 j := fun h =>
    absurd (hj.symm.trans h.2) (by decide)
  have hsame := (hslots.same 11 12 (Or.inr ⟨_, hexternal 11 rfl⟩) (Or.inr ⟨_, hexternal 12 rfl⟩) (hown 11 rfl)
    (hown 12 rfl)).2 rfl
  rw [h11, h12] at hsame
  exact absurd hsame (by decide)

end

end IdaSdk.JavaXtrn
