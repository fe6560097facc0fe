import IdaSdk.QtreeInsert
import IdaSdk.QtreeLookup

/-!
Emplacement with and without a hint. `try_hint_insert` may decline a hint, but the position it accepts
is one that `find_insert_position` could have returned.
-/

namespace IdaSdk.QtreeDetail
open RedBlack RedBlack.Ctx SortedList
open RedBlack.ColorTree (branch branch_flip)

section
variable {N V K : Type*} [NodeLayout N V] (lt : K → K → Bool) (key : V → K)

/-- The free slot between the hint and its neighbour `next` on side `d`. -/
def hintPlace (d : Side) (m : Mem N) (q : Qtree) (hint next : Ptr) : Option (Ptr × Ptr × Bool) :=
  if m.isNil (m.child d hint) then
    some (nullptr, hint, decide (d = .left))
  else if next ≠ q.header ∧ m.isNil (m.child d.flip next) = true then
    some (nullptr, next, decide (d ≠ .left))
  else
    none

/-- The part of `try_hint_insert` for a hint whose key differs from `k`: `d` is the side of the hint on
which `k` lies. `none` inside means that the hint is declined. -/
def hintBeside (d : Side) (m : Mem N) (q : Qtree) (k : K) (hint : Ptr) : Option (Option (Ptr × Ptr × Bool)) :=
  match neighbour d m hint with
  | none => none
  | some next =>
    let fits := if next = q.header then some true
      else (m.value next).map fun v => if d = .left then lt (key v) k else lt k (key v)
    match fits with
    | none => none
    | some false => some none
    | some true => some (hintPlace d m q hint next)

/-- Returns, unless the hint is declined, the node with an equivalent key or `nullptr`, the parent and the
side of the new node. -/
def tryHintInsert (m : Mem N) (q : Qtree) (k : K) (hint : Ptr) : Option (Option (Ptr × Ptr × Bool)) :=
  if hint = nullptr then
    some none
  else if q.empty then
    some (some (nullptr, q.header, true))
  else if hint = q.header then
    let maxNode := m.right q.header
    if m.isNil maxNode then
      some (some (nullptr, q.header, true))
    else
      (m.value maxNode).map fun v =>
        if lt (key v) k then some (nullptr, maxNode, false)
        else if keysEqual lt (key v) k then some (maxNode, q.header, true)
        else none
  else
    match m.value hint with
    | none => none
    | some v =>
      if keysEqual lt (key v) k then some (some (hint, q.header, true))
      else if lt k (key v) then hintBeside lt key .left m q k hint
      else hintBeside lt key .right m q k hint

variable (pol : AllocPolicy)

def emplaceIntoEmptyTree (m : Mem N) (q : Qtree) (v : V) : Option (Mem N × Qtree × Ptr × Bool) :=
  let (m, q) := ensureHeader pol m q
  (emplaceAt pol m q q.header true v).map fun (m, q, a) => (m, q, a, true)

/-- Emplaces at a position found by a search, or returns the node found there. -/
def emplaceFound (m : Mem N) (q : Qtree) (v : V) (pos : Ptr × Ptr × Bool) :
    Option (Mem N × Qtree × Ptr × Bool) :=
  if pos.1 ≠ nullptr then
    some (m, q, pos.1, false)
  else
    (emplaceAt pol m q pos.2.1 pos.2.2 v).map fun (m, q, a) => (m, q, a, true)

/-- `v` is what the builder constructs when `k` is absent. Returns the iterator and whether it was inserted. -/
def lazyEmplaceImpl (m : Mem N) (q : Qtree) (k : K) (v : V) : Option (Mem N × Qtree × Ptr × Bool) :=
  if q.header = nullptr ∨ q.nodeCount = 0 then
    emplaceIntoEmptyTree pol m q v
  else
    match findInsertPosition lt key m q k with
    | none => none
    | some pos => emplaceFound pol m q v pos

def lazyEmplaceWithHint (m : Mem N) (q : Qtree) (k : K) (hint : Ptr) (v : V) :
    Option (Mem N × Qtree × Ptr × Bool) :=
  if q.header = nullptr ∨ q.nodeCount = 0 then
    emplaceIntoEmptyTree pol m q v
  else if hint = nullptr then
    lazyEmplaceImpl lt key pol m q k v
  else
    match tryHintInsert lt key m q k hint with
    | none => none
    | some none => lazyEmplaceImpl lt key pol m q k v
    | some (some pos) => emplaceFound pol m q v pos

end

section
variable {N V K : Type*} [NodeLayout N V] {lt : K → K → Bool} {key : V → K} {m : Mem N} {q : Qtree} {T : Shape V}
  {k : K}

/-! ### Hints -/

variable {k' : Path V} {d : Side} {s u : Shape V} {x : Item V} {c : Color}

theorem between_of_fits (o : StrictWeakOrder lt)
    (hs : SortedBy lt (itemKey key) (plug k' (branch d c s x u)).toList)
    (hx : if d = .left then lt k (key x.val) = true else lt (key x.val) k = true)
    (hfits : ∀ y, endItem d.flip (joinFrom d s.toList (beyond d k')) = some y →
      (if d = .left then lt (key y.val) k else lt k (key y.val)) = true) :
    Between lt (itemKey key) (before (⟨d, c, x, u⟩ :: k') ++ (if d = .left then s.toList else [])) k
      ((if d = .left then [] else s.toList) ++ after (⟨d, c, x, u⟩ :: k')) := by
  cases d with
  | left =>
      simp only [if_true, Side.flip_left, endItem, joinFrom, beyond] at hx hfits
      have hL : (plug k' (branch .left c s x u)).toList = (before k' ++ s.toList) ++ x :: (u.toList ++ after k') := by
        simp [toList_plug]
      rw [hL] at hs
      refine ⟨SortedBy.below_of_last o (List.pairwise_append.mp hs).1 hfits, fun b hb => ?_⟩
      simp only [if_true, List.nil_append, after_cons_left, List.cons_append] at hb
      rcases List.mem_cons.mp hb with rfl | hb
      · exact hx
      · exact o.trans hx (hs.between.above b hb)
  | right =>
      simp only [reduceCtorEq, if_false, Side.flip_right, endItem, joinFrom, beyond] at hx hfits
      have hL : (plug k' (branch .right c s x u)).toList = (before k' ++ u.toList) ++ x :: (s.toList ++ after k') := by
        simp [toList_plug]
      rw [hL] at hs
      have hright := (List.pairwise_cons.mp (List.pairwise_append.mp hs).2.1).2
      refine ⟨fun a ha => ?_, SortedBy.above_of_head o hright hfits⟩
      simp only [reduceCtorEq, if_false, List.append_nil, before_cons_right] at ha
      rcases List.mem_append.mp ha with ha | ha
      · exact o.trans (hs.between.below a ha) hx
      · rw [List.mem_singleton.mp ha]
        exact hx

theorem hintPlace_spec (o : StrictWeakOrder lt)
    (h : RedBlackTree lt key m q (plug k' (branch d c s x u)))
    (hx : if d = .left then lt k (key x.val) = true else lt (key x.val) k = true)
    (hfits : ∀ y, endItem d.flip (joinFrom d s.toList (beyond d k')) = some y →
      (if d = .left then lt (key y.val) k else lt k (key y.val)) = true) :
    ∃ pos, hintPlace d m q x.addr (endPtr q.header d.flip (joinFrom d s.toList (beyond d k'))) = some pos ∧
      InsertPosition lt key q.header (plug k' (branch d c s x u)) k pos := by
  have hf : Focus m q.header (plug k' (branch d c s x u)).toList k' (branch d c s x u) := by
    simpa using h.focus.fromRoot
  have hchild := hf.child
  have hnil := hf.down.isNil_ptrOf
  have hb := between_of_fits o h.sorted_items hx hfits
  rw [hintPlace, hchild]
  by_cases hs : s = .nil
  · subst hs
    refine ⟨_, if_pos (hnil.mpr rfl), .hole (⟨d, c, x, u⟩ :: k') _ rfl ?_ (by simpa using hb)⟩
    cases d <;> simp
  have hlt := hf.down.size_lt h.live
  obtain ⟨ky, cy, y, ys, rfl, hky, -⟩ := extremumLoop_spec d.flip (m.live.length + 1) hf.down hs (by omega)
  have hne : (plug ky (branch d.flip cy .nil y ys)).toList ≠ [] := by
    cases d <;> simp [toList_plug]
  have hnext : endPtr q.header d.flip
      (joinFrom d (plug ky (branch d.flip cy .nil y ys)).toList (beyond d k')) = y.addr := by
    rw [endPtr_joinFrom q.header d hne, plug_outer_ends q.header d.flip ky cy y ys hky]
  have hfy := hf.down.fromRoot
  have hychild : m.isNil (m.child d.flip y.addr) = true := by
    rw [hfy.child]
    exact hf.hdrNil
  have hyhdr : y.addr ≠ q.header := by
    have hmem : y.addr ∈ addrs (branch d.flip cy .nil y ys) := by simp
    have hmem := hfy.mem_order.mpr (.inl hmem)
    exact ne_of_mem_of_not_mem hmem (List.nodup_cons.mp hf.nodup).1
  rw [hnext, if_neg (mt hnil.mp hs), if_pos ⟨hyhdr, hychild⟩]
  refine ⟨_, rfl, .hole (⟨d.flip, cy, y, ys⟩ :: (ky ++ ⟨d, c, x, u⟩ :: k')) _ ?_ ?_ ?_⟩
  · rw [plug_cons, plug_append]
    rfl
  · cases d <;> simp
  cases d with
  | left =>
      have hafter := after_eq_nil_of_right ky hky
      simpa [toList_plug, before_append, after_append, hafter] using hb
  | right =>
      have hbefore := before_eq_nil_of_left ky hky
      simpa [toList_plug, before_append, after_append, hbefore] using hb

theorem hintBeside_spec (o : StrictWeakOrder lt)
    (h : RedBlackTree lt key m q (plug k' (branch d c s x u)))
    (hx : if d = .left then lt k (key x.val) = true else lt (key x.val) k = true) :
    ∃ res, hintBeside lt key d m q k x.addr = some res ∧
      ∀ pos ∈ res, InsertPosition lt key q.header (plug k' (branch d c s x u)) k pos := by
  have hf : Focus m q.header (plug k' (branch d c s x u)).toList k' (branch d c s x u) := by
    simpa using h.focus.fromRoot
  have hnext := neighbour_spec hf h.live
  rw [hintBeside, hnext]
  cases hend : endItem d.flip (joinFrom d s.toList (beyond d k')) with
  | none =>
      have hhdr : endPtr q.header d.flip (joinFrom d s.toList (beyond d k')) = q.header := by
        rw [endPtr_eq, hend]
        rfl
      obtain ⟨pos, hplace, hpos⟩ := hintPlace_spec o h hx (by simp [hend])
      refine ⟨some pos, ?_, fun pos' hpos' => Option.some.inj hpos' ▸ hpos⟩
      simp only [← hplace, hhdr, if_true]
  | some y =>
      have hptr : endPtr q.header d.flip (joinFrom d s.toList (beyond d k')) = y.addr := by
        rw [endPtr_eq, hend]
        rfl
      have hymem : y ∈ (plug k' (branch d c s x u)).toList := by
        have hy := mem_of_endItem hend
        rw [toList_plug]
        cases d <;> simp only [joinFrom, beyond, List.mem_append] at hy <;> rcases hy with hy | hy <;> simp [hy]
      have hvalue := (hf.value_of_mem hymem).1
      have hyhdr : y.addr ≠ q.header :=
        ne_of_mem_of_not_mem (List.mem_map_of_mem hymem) (List.nodup_cons.mp hf.nodup).1
      simp only [hptr, if_neg hyhdr, hvalue, Option.map_some]
      cases hfit : (if d = .left then lt (key y.val) k else lt k (key y.val)) with
      | false => exact ⟨none, rfl, by simp⟩
      | true =>
          obtain ⟨pos, hplace, hpos⟩ := hintPlace_spec o h hx (by simpa [hend] using hfit)
          rw [hptr] at hplace
          exact ⟨some pos, congrArg some hplace, fun pos' hpos' => Option.some.inj hpos' ▸ hpos⟩

theorem tryHintInsert_end (o : StrictWeakOrder lt) (h : RedBlackTree lt key m q T) (hT : T ≠ .nil) :
    ∃ res, tryHintInsert lt key m q k q.header = some res ∧ ∀ pos ∈ res, InsertPosition lt key q.header T k pos := by
  have hhdr := h.nonnull q.header (by simp)
  have hcount : q.empty = false := by
    rw [Qtree.empty, beq_eq_false_iff_ne]
    exact h.count_ne_zero hT
  obtain ⟨k', c, x, u, rfl, hk', -⟩ := extremumLoop_spec .right (T.size + 1) h.focus hT (by omega)
  have hmax : m.right q.header = x.addr := by
    rw [← plug_outer_ends q.header .right k' c x u hk']
    exact h.cache .right
  have hf : Focus m q.header (plug k' (branch .right c .nil x u)).toList k' (branch .right c .nil x u) := by
    simpa using h.focus.fromRoot
  simp only [tryHintInsert, if_neg hhdr, hcount, Bool.false_eq_true, if_false, if_true, hmax, hf.isNil, hf.value,
    Option.map_some]
  refine ⟨_, rfl, fun pos hpos => ?_⟩
  cases hlt : lt (key x.val) k with
  | true =>
      rw [hlt, if_pos rfl, Option.mem_some_iff] at hpos
      have hbeyond : ∀ y, endItem .left (joinFrom .right (.nil : Shape V).toList (beyond .right k')) ≠ some y := by
        simp [endItem, joinFrom, beyond, after_eq_nil_of_right k' hk']
      have hb := between_of_fits o h.sorted_items (by simpa using hlt) fun y hy => absurd hy (hbeyond y)
      subst hpos
      exact .hole (⟨.right, c, x, u⟩ :: k') false rfl (by simp) (by simpa using hb)
  | false =>
      rw [hlt, if_neg (by decide)] at hpos
      cases heq : keysEqual lt (key x.val) k with
      | true =>
          rw [heq, if_pos rfl, Option.mem_some_iff] at hpos
          subst hpos
          exact .existing rfl heq
      | false => simp [heq] at hpos

theorem tryHintInsert_spec (o : StrictWeakOrder lt) (h : RedBlackTree lt key m q T) (hT : T ≠ .nil) {hint : Ptr}
    (hhint : hint = nullptr ∨ hint = q.header ∨ hint ∈ addrs T) :
    ∃ res, tryHintInsert lt key m q k hint = some res ∧ ∀ pos ∈ res, InsertPosition lt key q.header T k pos := by
  rcases hhint with rfl | rfl | hmem
  · exact ⟨none, if_pos rfl, by simp⟩
  · exact tryHintInsert_end o h hT
  have hhint0 : hint ≠ nullptr := h.nonnull hint (List.mem_cons_of_mem _ hmem)
  have hhdr : hint ≠ q.header := ne_of_mem_of_not_mem hmem (List.nodup_cons.mp h.focus.nodup).1
  obtain ⟨x, hx, rfl⟩ := List.mem_map.mp hmem
  have hvalue := (h.focus.value_of_mem hx).1
  obtain ⟨A, B, hAB⟩ := List.append_of_mem hx
  obtain ⟨k', c, l, r, rfl, -, -⟩ := exists_plug_of_toList hAB
  have hcount : q.empty = false := by
    rw [Qtree.empty, beq_eq_false_iff_ne]
    exact h.count_ne_zero hT
  simp only [tryHintInsert, if_neg hhint0, hcount, Bool.false_eq_true, if_false, if_neg hhdr, hvalue]
  cases heq : keysEqual lt (key x.val) k with
  | true =>
      refine ⟨_, if_pos rfl, fun pos hpos => ?_⟩
      rw [Option.mem_some_iff] at hpos
      subst hpos
      exact .existing rfl heq
  | false =>
      rw [if_neg (by decide)]
      cases hlt : lt k (key x.val) with
      | true =>
          rw [if_pos rfl]
          exact hintBeside_spec o (show RedBlackTree lt key m q (plug k' (branch .left c l x r)) from h) hlt
      | false =>
          have hgt : lt (key x.val) k = true := by simpa [keysEqual, hlt] using heq
          rw [if_neg (by decide)]
          exact hintBeside_spec o (show RedBlackTree lt key m q (plug k' (branch .right c r x l)) from h) hgt

end

/-- What an emplacement of `v` under the key `k` returns: either the item that is already there, with
nothing changed, or a new item between the smaller and the larger ones. -/
inductive EmplaceOutcome {N V K : Type*} [NodeLayout N V] (lt : K → K → Bool) (key : V → K) (m : Mem N) (q : Qtree)
    (T : Shape V) (k : K) (v : V) : Option (Mem N × Qtree × Ptr × Bool) → Prop
  | existing {x : Item V} : x ∈ T.toList → equiv lt (key x.val) k = true →
      EmplaceOutcome lt key m q T k v (some (m, q, x.addr, false))
  | inserted {m' : Mem N} {q' : Qtree} {T' : Shape V} {a : Ptr} {A B : List (Item V)} :
      T.toList = A ++ B → T'.toList = A ++ ⟨a, v⟩ :: B → Between lt (itemKey key) A k B →
      RedBlackTree lt key m' q' T' → Evolves m m' (footprint q T) (footprint q' T') →
      EmplaceOutcome lt key m q T k v (some (m', q', a, true))

section
variable {N V K : Type*} [NodeLayout N V] [LawfulNodeLayout N V] {lt : K → K → Bool} {key : V → K} {m : Mem N}
  {q : Qtree} {T : Shape V} {v : V}

theorem emplaceFound_spec (pol : AllocPolicy) (h : RedBlackTree lt key m q T) (hT : T ≠ .nil)
    {pos : Ptr × Ptr × Bool} (hpos : InsertPosition lt key q.header T (key v) pos) :
    EmplaceOutcome lt key m q T (key v) v (emplaceFound pol m q v pos) := by
  cases hpos with
  | @existing k' c l r x parentNode goLeft hplug heq =>
      have hmem : x ∈ T.toList := by
        rw [← hplug, toList_plug, ColorTree.toList_node]
        simp
      have hne := h.nonnull _ (List.mem_cons_of_mem _ (List.mem_map_of_mem hmem))
      rw [emplaceFound, if_pos hne]
      exact .existing hmem heq
  | hole k' goLeft hplug hside hb =>
      subst hplug
      cases k' with
      | nil => exact absurd rfl hT
      | cons f k' =>
          obtain ⟨m', a, T', hrun, hrb, hlist, hev⟩ := emplaceAt_child pol h (hside f (by simp)) (Between.map Item.val hb)
          rw [emplaceFound, if_neg (by simp), ctxPtr_cons, hrun, Option.map_some]
          refine .inserted ?_ hlist hb hrb ?_
          · rw [toList_plug]
            simp
          · rw [h.footprint_eq, hrb.footprint_eq]
            exact hev

theorem emplaceIntoEmptyTree_spec (pol : AllocPolicy) (h : Represents lt key m q .nil) :
    EmplaceOutcome lt key m q .nil (key v) v (emplaceIntoEmptyTree pol m q v) := by
  obtain ⟨hrb, hev⟩ := ensureHeader_spec pol h
  obtain ⟨m', a, hrun, hrb', hev'⟩ := emplaceAt_root pol true hrb
  have hvia : emplaceIntoEmptyTree pol m q v = (emplaceAt pol (ensureHeader pol m q).1 (ensureHeader pol m q).2
      (ensureHeader pol m q).2.header true v).map fun (m, q, a) => (m, q, a, true) := rfl
  rw [hvia, hrun, Option.map_some]
  refine @EmplaceOutcome.inserted _ _ _ _ _ _ _ _ _ _ _ _ _ _ _ [] [] rfl rfl ⟨by simp, by simp⟩ hrb' ?_
  rw [hrb'.footprint_eq]
  exact hev.trans (by simpa [addrs] using hev')

theorem lazyEmplaceImpl_spec (o : StrictWeakOrder lt) (pol : AllocPolicy) (h : Represents lt key m q T) :
    EmplaceOutcome lt key m q T (key v) v (lazyEmplaceImpl lt key pol m q (key v) v) := by
  rw [lazyEmplaceImpl]
  by_cases hT : T = .nil
  · subst hT
    have hcount := h.count
    rw [if_pos (.inr hcount)]
    exact emplaceIntoEmptyTree_spec pol h
  · obtain h := h.resolve_left fun h => hT h.2
    obtain ⟨pos, hrun, hpos⟩ := findInsertPosition_spec o h (key v)
    rw [if_neg (not_or.mpr ⟨h.nonnull _ (by simp), h.count_ne_zero hT⟩), hrun]
    exact emplaceFound_spec pol h hT hpos

theorem lazyEmplaceWithHint_spec (o : StrictWeakOrder lt) (pol : AllocPolicy) (h : Represents lt key m q T)
    {hint : Ptr} (hhint : hint = nullptr ∨ hint = q.header ∨ hint ∈ addrs T) :
    EmplaceOutcome lt key m q T (key v) v (lazyEmplaceWithHint lt key pol m q (key v) hint v) := by
  rw [lazyEmplaceWithHint]
  by_cases hT : T = .nil
  · subst hT
    have hcount := h.count
    rw [if_pos (.inr hcount)]
    exact emplaceIntoEmptyTree_spec pol h
  · have hrb := h.resolve_left fun h => hT h.2
    rw [if_neg (not_or.mpr ⟨hrb.nonnull _ (by simp), hrb.count_ne_zero hT⟩)]
    by_cases hnull : hint = nullptr
    · rw [if_pos hnull]
      exact lazyEmplaceImpl_spec o pol h
    obtain ⟨res, hrun, hres⟩ := tryHintInsert_spec o hrb hT hhint
    rw [if_neg hnull, hrun]
    cases res with
    | none => exact lazyEmplaceImpl_spec o pol h
    | some pos => exact emplaceFound_spec pol hrb hT (hres pos rfl)

end

end IdaSdk.QtreeDetail
