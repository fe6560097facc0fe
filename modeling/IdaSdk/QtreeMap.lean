import IdaSdk.QtreeInterface

/-!
`qmap`: a tree of key and mapped-value pairs ordered by their keys. A mapped value may be assigned in
place, which leaves every link and every key as it is.
-/

namespace IdaSdk.QtreeDetail
open RedBlack RedBlack.Ctx SortedList

section
variable {N V : Type*} [NodeLayout N V]

/-- The item with the value `u` if it is the one at `a`. -/
def Item.assign (a : Ptr) (u : V) (x : Item V) : Item V := if x.addr = a then ⟨x.addr, u⟩ else x

@[simp] theorem Item.addr_assign (a : Ptr) (u : V) (x : Item V) : (x.assign a u).addr = x.addr := by
  unfold Item.assign
  split <;> rfl

variable (hdr a : Ptr)

theorem ptrOf_map_assign (u : V) (t : Shape V) : ptrOf hdr (t.map (Item.assign a u)) = ptrOf hdr t := by
  cases t with
  | nil => rfl
  | node c l e r => exact Item.addr_assign a u e

theorem addrs_map_assign (a : Ptr) (u : V) (t : Shape V) : addrs (t.map (Item.assign a u)) = addrs t := by
  rw [addrs, ColorTree.toList_map, List.map_map]
  exact List.map_congr_left fun x _ => Item.addr_assign a u x

theorem posPtr_map_assign (u : V) (x : Option (Item V)) :
    posPtr hdr (x.map (Item.assign a u)) = posPtr hdr x := by
  cases x with
  | none => rfl
  | some x => exact Item.addr_assign a u x

theorem endPtr_map_assign (d : Side) (u : V) (L : List (Item V)) :
    endPtr hdr d (L.map (Item.assign a u)) = endPtr hdr d L := by
  rw [endPtr_eq, endPtr_eq]
  cases d with
  | left => rw [endItem, endItem, List.head?_map, posPtr_map_assign]
  | right => rw [endItem, endItem, List.getLast?_map, posPtr_map_assign]

variable [LawfulNodeLayout N V]

theorem Holds.setValue {m : Mem N} {hdr parent : Ptr} {t : Shape V} (hh : Holds m.view hdr parent t) (a : Ptr) (u : V) :
    Holds (m.setValue a (some u)).view hdr parent (t.map (Item.assign a u)) := by
  induction t generalizing parent with
  | nil => trivial
  | node c l e r ihl ihr =>
      obtain ⟨hcell, hl, hr⟩ := hh
      refine ⟨?_, ?_, ?_⟩
      · rw [ptrOf_map_assign, ptrOf_map_assign, Item.addr_assign, Mem.view_setValue, Item.assign, hcell]
        by_cases he : e.addr = a
        · rw [if_pos he, if_pos he]
          rfl
        · rw [if_neg he, if_neg he]
      · rw [Item.addr_assign]
        exact ihl hl
      · rw [Item.addr_assign]
        exact ihr hr

variable {K : Type*} {lt : K → K → Bool} {key : V → K} {m : Mem N} {q : Qtree} {T : Shape V}
  {A B : List (Item V)} {x : Item V}

theorem RedBlackTree.setValue (h : RedBlackTree lt key m q T) (hT : T.toList = A ++ x :: B) {u : V}
    (hkey : key u = key x.val) :
    ∃ T' : Shape V, RedBlackTree lt key (m.setValue x.addr (some u)) q T' ∧ T'.toList = A ++ ⟨x.addr, u⟩ :: B ∧
      Evolves m (m.setValue x.addr (some u)) (q.header :: addrs T) (q.header :: addrs T') := by
  have hx : x ∈ T.toList := by simp [hT]
  have hhdr : q.header ≠ x.addr := (posPtr_ne_header h hx).symm
  have haddr : ∀ y ∈ A ++ B, y.addr ≠ x.addr := by
    have hnd := (List.nodup_cons.mp h.focus.nodup).2
    rw [hT, List.map_append, List.map_cons, List.nodup_append, List.nodup_cons] at hnd
    intro y hy
    rcases List.mem_append.mp hy with hy | hy
    · exact hnd.2.2 _ (List.mem_map_of_mem hy) _ (List.mem_cons_self ..)
    · exact fun he => hnd.2.1.1 (he ▸ List.mem_map_of_mem hy)
  have hassign : ∀ L : List (Item V), (∀ y ∈ L, y.addr ≠ x.addr) → L.map (Item.assign x.addr u) = L := by
    intro L hL
    refine (List.map_congr_left fun y hy => ?_).trans (List.map_id L)
    exact if_neg (hL y hy)
  have hlist : (T.map (Item.assign x.addr u)).toList = A ++ ⟨x.addr, u⟩ :: B := by
    rw [ColorTree.toList_map, hT, List.map_append, List.map_cons,
      hassign A fun y hy => haddr y (List.mem_append_left _ hy),
      hassign B fun y hy => haddr y (List.mem_append_right _ hy), Item.assign, if_pos rfl]
  have hkeys : (T.map (Item.assign x.addr u)).toList.map (itemKey key) = T.toList.map (itemKey key) := by
    rw [hlist, hT]
    simp [itemKey, hkey]
  have haddrs := addrs_map_assign x.addr u T
  have hview : ∀ a, a ≠ x.addr → (m.setValue x.addr (some u)).view a = m.view a := fun a ha => by
    rw [Mem.view_setValue, if_neg ha]
  refine ⟨T.map (Item.assign x.addr u), ⟨⟨h.focus.sub.setValue x.addr u, ?_, rfl, ?_, ?_⟩, fun d => ?_, ?_, ?_, ?_, ?_,
    ?_, ?_⟩, hlist, fun a ha haF => ⟨ha, hview a ?_⟩, fun a ha => .inl (haddrs ▸ ha)⟩
  · rw [ptrOf_map_assign, CtxHolds, hview _ hhdr]
    exact h.focus.ctx
  · show (q.header :: addrs (T.map (Item.assign x.addr u))).Nodup
    rw [haddrs]
    exact h.focus.nodup
  · rw [hview _ hhdr]
    exact h.focus.hdrNil
  · rw [Mem.child_eq, hview _ hhdr, ← Mem.child_eq, ColorTree.toList_map, endPtr_map_assign, h.cache]
  · rw [Mem.color_eq, hview _ hhdr, ← Mem.color_eq, h.headerBlack]
  · rw [ColorTree.size_map, h.count]
  · obtain ⟨n, hbal⟩ := h.balanced
    exact ⟨n, (Bal.map_iff _).mpr hbal⟩
  · have hsorted : (T.toList.map (itemKey key)).Pairwise fun a b => lt a b = true :=
      List.pairwise_map.mpr h.sorted_items
    rw [← hkeys] at hsorted
    exact List.pairwise_map.mpr (List.pairwise_map.mp hsorted)
  · rw [haddrs]
    exact h.nonnull
  · rw [haddrs]
    exact h.live
  · exact fun he => haF (he ▸ List.mem_cons_of_mem _ (List.mem_map_of_mem hx))

end

/-! ### The operations of a map -/

section
variable {N K M : Type*} [NodeLayout N (K × M)] (lt : K → K → Bool)

def assignSecond (m : Mem N) (it : Ptr) (mapped : M) : Option (Mem N) :=
  (m.value it).map fun v => m.setValue it (some (v.1, mapped))

variable (pol : AllocPolicy)

/-- `mapped` is what the arguments construct when the key is absent. -/
def tryEmplace (m : Mem N) (q : Qtree) (k : K) (mapped : M) :
    Option (Mem N × Qtree × Ptr × Bool) :=
  lazyEmplaceImpl lt Prod.fst pol m q k (k, mapped)

def insertOrAssign (m : Mem N) (q : Qtree) (k : K) (mapped : M) :
    Option (Mem N × Qtree × Ptr × Bool) :=
  match lazyEmplaceImpl lt Prod.fst pol m q k (k, mapped) with
  | none => none
  | some (m, q, it, inserted) =>
    if inserted then some (m, q, it, inserted)
    else (assignSecond m it mapped).map fun m => (m, q, it, inserted)

/-- `operator[]`: the node whose mapped value is referred to. -/
def index (m : Mem N) (q : Qtree) (dflt : M) (k : K) : Option (Mem N × Qtree × Ptr) :=
  (tryEmplace lt pol m q k dflt).map fun (m, q, it, _) => (m, q, it)

/-- `at`: the mapped value, or nothing where the code throws `std::out_of_range`. -/
def atKey (m : Mem N) (q : Qtree) (k : K) : Option (Option M) :=
  match find lt Prod.fst m q k with
  | none => none
  | some it => if it = endIt q then some none else (m.value it).map fun v => some v.2

end

section
variable {N K M : Type*} [NodeLayout N (K × M)] [LawfulNodeLayout N (K × M)] {lt : K → K → Bool} {m : Mem N} {q : Qtree}
  {T : Shape (K × M)}

theorem assignSecond_spec {A B : List (Item (K × M))} {x : Item (K × M)} (h : RedBlackTree lt Prod.fst m q T)
    (hT : T.toList = A ++ x :: B) (mapped : M) :
    ∃ (m' : Mem N) (T' : Shape (K × M)), assignSecond m x.addr mapped = some m' ∧ RedBlackTree lt Prod.fst m' q T' ∧
      T'.toList = A ++ ⟨x.addr, (x.val.1, mapped)⟩ :: B ∧
      Evolves m m' (q.header :: addrs T) (q.header :: addrs T') := by
  have hx : x ∈ T.toList := by simp [hT]
  obtain ⟨T', hrb, hlist, hev⟩ := h.setValue hT (show Prod.fst (x.val.1, mapped) = x.val.1 from rfl)
  exact ⟨_, T', by rw [assignSecond, (h.focus.value_of_mem hx).1]; rfl, hrb, hlist, hev⟩

theorem assignSecond_contents (o : StrictWeakOrder lt) (h : RedBlackTree lt Prod.fst m q T) {x : Item (K × M)}
    (hx : x ∈ T.toList) {k : K} (heq : equiv lt x.val.1 k = true) (mapped : M) :
    ∃ m', assignSecond m x.addr mapped = some m' ∧
      Becomes lt Prod.fst m q T m' q
        (updateKey lt Prod.fst k (fun v => (v.1, mapped)) (T.toList.map Item.val)) ∧
      deref m' q x.addr = some (some (x.val.1, mapped)) := by
  obtain ⟨A, B, hAB⟩ := List.append_of_mem hx
  obtain ⟨m', T', hrun, hrb, hlist, hev⟩ := assignSecond_spec h hAB mapped
  refine ⟨m', hrun, ?_, ?_⟩
  · have hsorted := h.sorted
    have hbecomes := becomes_of_redBlackTree h hrb hev
    rw [hlist] at hbecomes
    rw [hAB, List.map_append, List.map_cons] at hsorted ⊢
    rw [hsorted.updateKey_eq o heq]
    simpa using hbecomes
  · have hmem : ∀ y ∈ some (⟨x.addr, (x.val.1, mapped)⟩ : Item (K × M)), y ∈ T'.toList := fun y hy => by
      rw [hlist, ← Option.some.inj hy]
      simp
    exact deref_spec (.inr hrb) hmem

theorem tryEmplace_outcome (o : StrictWeakOrder lt) (pol : AllocPolicy) (h : Represents lt Prod.fst m q T) (k : K)
    (mapped : M) : EmplaceOutcome lt Prod.fst m q T k (k, mapped) (tryEmplace lt pol m q k mapped) :=
  @lazyEmplaceImpl_spec N (K × M) K _ _ lt Prod.fst m q T (k, mapped) o pol h

theorem insertOrAssign_spec (o : StrictWeakOrder lt) (pol : AllocPolicy) (h : Represents lt Prod.fst m q T) (k : K)
    (mapped : M) :
    ∃ m' q' it, insertOrAssign lt pol m q k mapped =
        some (m', q', it, (scanFind lt Prod.fst k (T.toList.map Item.val)).isNone) ∧
      Becomes lt Prod.fst m q T m' q' (insertOrUpdate lt Prod.fst (k, mapped) (fun v => (v.1, mapped))
        (T.toList.map Item.val)) ∧
      deref m' q' it = some (some (((scanFind lt Prod.fst k (T.toList.map Item.val)).map Prod.fst).getD k, mapped)) := by
  have hout := tryEmplace_outcome o pol h k mapped
  have hcontents := EmplaceOutcome.contents o (k, mapped) h hout
  rw [insertOrAssign, insertOrUpdate]
  rw [tryEmplace] at hout hcontents
  generalize lazyEmplaceImpl lt Prod.fst pol m q k (k, mapped) = res at hout hcontents
  cases hout with
  | @existing x hx heq =>
      have hrb := h.resolve_left fun hnil => by simp [hnil.2] at hx
      obtain ⟨m', hassign, hbecomes, hderef⟩ := assignSecond_contents o hrb hx heq mapped
      have hscan : scanFind lt Prod.fst k (T.toList.map Item.val) = some x.val := by
        have hsorted := h.sorted
        obtain ⟨A, B, hAB⟩ := List.append_of_mem hx
        rw [hAB, List.map_append, List.map_cons] at hsorted ⊢
        exact hsorted.scanFind_eq_some o heq
      rw [hscan]
      exact ⟨m', q, x.addr, by simp [hassign], hbecomes, hderef⟩
  | @inserted m' q' T' a A B hT hT' hb hrb hev =>
      obtain ⟨m₁, q₁, it, hrun, hbecomes, hderef⟩ := hcontents
      obtain ⟨rfl, rfl, rfl, hnone⟩ : m' = m₁ ∧ q' = q₁ ∧ a = it ∧
          true = (scanFind lt Prod.fst k (T.toList.map Item.val)).isNone := by simpa using hrun
      have hscan := Option.isNone_iff_eq_none.mp hnone.symm
      rw [insertIfAbsent, hscan] at hbecomes
      rw [hscan] at hderef ⊢
      exact ⟨m', q', a, rfl, hbecomes, hderef⟩

theorem index_spec (o : StrictWeakOrder lt) (pol : AllocPolicy) (h : Represents lt Prod.fst m q T) (dflt : M) (k : K) :
    ∃ m' q' it, index lt pol m q dflt k = some (m', q', it) ∧
      Becomes lt Prod.fst m q T m' q' (insertIfAbsent lt Prod.fst (k, dflt) (T.toList.map Item.val)) ∧
      deref m' q' it = some (some ((scanFind lt Prod.fst k (T.toList.map Item.val)).getD (k, dflt))) := by
  obtain ⟨m', q', it, hrun, hbecomes, hderef⟩ := EmplaceOutcome.contents o (k, dflt) h (tryEmplace_outcome o pol h k dflt)
  exact ⟨m', q', it, by rw [index, hrun]; rfl, hbecomes, hderef⟩

theorem index_assign_spec (o : StrictWeakOrder lt) (pol : AllocPolicy) (h : Represents lt Prod.fst m q T) (dflt : M)
    (k : K) (mapped : M) :
    ∃ m' q' it m'', index lt pol m q dflt k = some (m', q', it) ∧ assignSecond m' it mapped = some m'' ∧
      Becomes lt Prod.fst m q T m'' q' (insertOrUpdate lt Prod.fst (k, mapped) (fun v => (v.1, mapped))
        (T.toList.map Item.val)) := by
  have hout := tryEmplace_outcome o pol h k dflt
  rw [index, insertOrUpdate]
  generalize tryEmplace lt pol m q k dflt = res at hout
  cases hout with
  | @existing x hx heq =>
      have hrb := h.resolve_left fun hnil => by simp [hnil.2] at hx
      obtain ⟨m', hassign, hbecomes, -⟩ := assignSecond_contents o hrb hx heq mapped
      have hscan : (scanFind lt Prod.fst k (T.toList.map Item.val)).isNone = false := by
        have hsorted := h.sorted
        obtain ⟨A, B, hAB⟩ := List.append_of_mem hx
        rw [hAB, List.map_append, List.map_cons] at hsorted ⊢
        rw [hsorted.scanFind_eq_some o heq]
        rfl
      rw [hscan]
      exact ⟨m, q, x.addr, m', rfl, hassign, hbecomes⟩
  | @inserted m' q' T' a A B hT hT' hb hrb hev =>
      obtain ⟨m'', T'', hassign, hrb', hlist, hev'⟩ := assignSecond_spec hrb hT' mapped
      have hb' : Between lt Prod.fst (A.map Item.val) k (B.map Item.val) := Between.map Item.val hb
      have hscan : (scanFind lt Prod.fst k (T.toList.map Item.val)).isNone = true := by
        rw [hT, List.map_append, hb'.scanFind_eq_none]
        rfl
      have hins : insertSorted lt Prod.fst (k, mapped) (T.toList.map Item.val) = T''.toList.map Item.val := by
        have hsorted : Between lt Prod.fst (A.map Item.val) (Prod.fst (k, mapped)) (B.map Item.val) := hb'
        rw [hT, hlist, List.map_append, hsorted.insertSorted_eq o, List.map_append, List.map_cons]
      rw [hscan]
      rw [hrb.footprint_eq] at hev
      refine ⟨m', q', a, m'', rfl, hassign, T'', .inr hrb', hins.symm, ?_⟩
      rw [hrb'.footprint_eq]
      exact hev.trans hev'

omit [LawfulNodeLayout N (K × M)] in
theorem atKey_spec (o : StrictWeakOrder lt) (h : Represents lt Prod.fst m q T) (k : K) :
    atKey lt m q k = some ((scanFind lt Prod.fst k (T.toList.map Item.val)).map Prod.snd) := by
  obtain ⟨it, hrun, hderef⟩ := find_spec o h k
  rw [atKey, hrun]
  simp only [deref] at hderef
  by_cases hend : it = endIt q
  · rw [if_pos hend] at hderef
    rw [← Option.some.inj hderef]
    exact if_pos hend
  · rw [if_neg hend] at hderef
    obtain ⟨v, hvalue, hv⟩ := Option.map_eq_some_iff.mp hderef
    rw [← hv]
    simp only [if_neg hend, hvalue, Option.map_some]

end

end IdaSdk.QtreeDetail
