import IdaSdk.QtreeContract

/-!
Iterators of `qtree` over all runs. The elements of an object are listed with their nodes, so that an iterator to an
element is the address of its node before and after an operation. A hint changes neither the node that an insertion
returns nor the list that it leaves.
-/

namespace IdaSdk.QtreeDetail
open RedBlack SortedList

/-- `L` are the elements of an object as its iterators show them: in key order, each in a node of its own, with
`begin()` at the first and `end()` behind the last. -/
structure Listed {N V K : Type*} [NodeLayout N V] (lt : K → K → Bool) (key : V → K) (m : Mem N) (q : Qtree)
    (L : List (Item V)) : Prop where
  invariant : ∃ T : Shape V, Represents lt key m q T ∧ T.toList = L
  sorted : SortedBy lt key (L.map Item.val)
  distinct : (endIt q :: L.map Item.addr).Nodup
  count : q.size = L.length
  position : ∀ n ≤ L.length, iteratorAt m q n = some (posPtr (endIt q) (L.drop n).head?)
  value : ∀ x ∈ L, deref m q x.addr = some (some x.val)

section
variable {N V K : Type*} [NodeLayout N V] {lt : K → K → Bool} {key : V → K} {m : Mem N} {q : Qtree} {T : Shape V}
  {L : List (Item V)}

theorem Represents.listed (h : Represents lt key m q T) : Listed lt key m q T.toList where
  invariant := ⟨T, h, rfl⟩
  sorted := h.sorted
  distinct := by
    rcases h with ⟨rfl, rfl⟩ | h
    · simp
    · exact h.focus.nodup
  count := by
    rw [ColorTree.length_toList]
    exact h.count
  position n hn := iteratorAt_spec h hn
  value x hx := deref_spec h (x := some x) fun y hy => Option.some.inj hy ▸ hx

theorem Listed.steps (h : Listed lt key m q L) {n : Nat} (hn : n < L.length) :
    ∃ it next, iteratorAt m q n = some it ∧ iteratorAt m q (n + 1) = some next ∧
      successor m it = some next ∧ prevIncludingHeader m next = some it := by
  refine ⟨_, _, h.position n (by omega), h.position (n + 1) (by omega), ?_⟩
  obtain ⟨T, hrep, rfl⟩ := h.invariant
  rcases hrep with ⟨rfl, rfl⟩ | hrb
  · simp at hn
  have hsplit : T.toList = T.toList.take n ++ T.toList[n] :: T.toList.drop (n + 1) := by simp
  have hlast : (T.toList.take n ++ [T.toList[n]]).getLast? = some T.toList[n] := List.getLast?_concat
  rw [List.drop_eq_getElem_cons hn, List.head?_cons, posPtr_some]
  refine ⟨successor_item hrb hsplit, ?_⟩
  have hprev := prevIncludingHeader_spec hrb
    (show T.toList = (T.toList.take n ++ [T.toList[n]]) ++ T.toList.drop (n + 1) by simp)
  rwa [hlast, posPtr_some] at hprev

end

section
variable {N V K : Type*} [NodeLayout N V] [LawfulNodeLayout N V] {lt : K → K → Bool} {key : V → K} {m : Mem N}
  {q : Qtree} {L : List (Item V)}

theorem Listed.eraseAt (h : Listed lt key m q L) {n : Nat} (hn : n < L.length) :
    ∃ m' q', QtreeDetail.eraseAt m q L[n].addr = some (m', q', posPtr (endIt q) (L.drop (n + 1)).head?) ∧
      Listed lt key m' q' (L.eraseIdx n) ∧ endIt q' = endIt q := by
  obtain ⟨T, hrep, rfl⟩ := h.invariant
  rcases hrep with ⟨rfl, rfl⟩ | hrb
  · simp at hn
  · have hsplit : T.toList = T.toList.take n ++ T.toList[n] :: T.toList.drop (n + 1) := by simp
    obtain ⟨m', T', hrun, hrb', hlist, -⟩ := eraseAt_spec hrb hsplit
    rw [← List.eraseIdx_eq_take_drop_succ] at hlist
    exact ⟨m', _, hrun, hlist ▸ Represents.listed (.inr hrb'), rfl⟩

theorem Listed.eraseRange (h : Listed lt key m q L) {first last : Nat} (hle : first ≤ last) (hlast : last ≤ L.length) :
    ∃ a b m' q', iteratorAt m q first = some a ∧ iteratorAt m q last = some b ∧
      QtreeDetail.eraseRange m q a b = some (m', q', b) ∧ Listed lt key m' q' (L.take first ++ L.drop last) ∧
      endIt q' = endIt q := by
  have ha := h.position first (by omega)
  have hb := h.position last hlast
  refine ⟨posPtr (endIt q) (L.drop first).head?, posPtr (endIt q) (L.drop last).head?, ?_⟩
  obtain ⟨T, hrep, rfl⟩ := h.invariant
  rcases hrep with ⟨rfl, rfl⟩ | hrb
  · obtain rfl : last = 0 := by simpa using hlast
    obtain rfl : first = 0 := by simpa using hle
    exact ⟨m, Qtree.init, ha, hb, rfl, by simpa using h, rfl⟩
  · obtain ⟨m', q', T', hrun, hrb', hlist, hhdr, -⟩ := eraseRange_items hrb hle hlast
    rw [hhdr] at hrun
    exact ⟨m', q', ha, hb, hrun, hlist ▸ Represents.listed (.inr hrb'), hhdr⟩

theorem Listed.eraseIf (h : Listed lt key m q L) (pred : V → Bool) :
    ∃ m' q', QtreeDetail.eraseIf m q pred = some (m', q', (L.map Item.val).countP pred) ∧
      Listed lt key m' q' (L.filter fun x => !pred x.val) ∧ endIt q' = endIt q := by
  obtain ⟨T, hrep, rfl⟩ := h.invariant
  rcases hrep with ⟨rfl, rfl⟩ | hrb
  · exact ⟨m, Qtree.init, rfl, by simpa using h, rfl⟩
  · obtain ⟨m', q', T', hrun, hrb', hlist, hhdr, -⟩ := eraseIf_items hrb pred
    exact ⟨m', q', hrun, hlist ▸ Represents.listed (.inr hrb'), hhdr⟩

end

/-! ### Hints -/

section
variable {N V K : Type*} [NodeLayout N V] {lt : K → K → Bool} {key : V → K} {L A A' B B' : List V} {k : K} {x y : V}

theorem SortedBy.eq_of_equiv (o : StrictWeakOrder lt) (hs : SortedBy lt key L) (hx : x ∈ L) (hy : y ∈ L)
    (hxk : equiv lt (key x) k = true) (hyk : equiv lt (key y) k = true) : y = x := by
  obtain ⟨A, B, rfl⟩ := List.append_of_mem hx
  obtain ⟨hA, hB⟩ := hs.not_equiv o hxk
  rcases List.mem_append.mp hy with hy | hy
  · exact absurd hyk (by simp [hA y hy])
  · rcases List.mem_cons.mp hy with rfl | hy
    · rfl
    · exact absurd hyk (by simp [hB y hy])

theorem Between.not_equiv (hb : Between lt key A k B) (hx : x ∈ A ++ B) : equiv lt (key x) k = false := by
  rcases List.mem_append.mp hx with hx | hx
  · simp [equiv, hb.below x hx]
  · simp [equiv, hb.above x hx]

theorem Between.unique (o : StrictWeakOrder lt) (hb : Between lt key A k B) (hb' : Between lt key A' k B')
    (h : A ++ B = A' ++ B') : A = A' ∧ B = B' := by
  have key_lemma : ∀ {A B A' B' : List V}, Between lt key A k B → Between lt key A' k B' → A ++ B = A' ++ B' →
      A.length ≤ A'.length := by
    intro A B A' B' hb hb' h
    by_contra hlen
    obtain ⟨c, C, hC⟩ : ∃ c C, A.drop A'.length = c :: C := by
      cases hdrop : A.drop A'.length with
      | nil =>
          have hle := List.drop_eq_nil_iff.mp hdrop
          omega
      | cons c C => exact ⟨c, C, rfl⟩
    have hsplit : A = A' ++ c :: C := by
      have htake : A.take A'.length = A' := by
        have htake := congrArg (List.take A'.length) h
        rwa [List.take_append_of_le_length (by omega), List.take_left] at htake
      rw [← hC, ← htake, List.length_take, Nat.min_eq_left (by omega), List.take_append_drop]
    have hB' : B' = c :: C ++ B := by
      rw [hsplit, List.append_assoc] at h
      exact (List.append_cancel_left h).symm
    have hbelow := hb.below c (by simp [hsplit])
    have habove := hb'.above c (by simp [hB'])
    exact absurd habove (by simp [o.asymm hbelow])
  have hlen : A.length = A'.length := by
    have hle := key_lemma hb hb' h
    have hge := key_lemma hb' hb h.symm
    omega
  exact List.append_inj h hlen

end

section
variable {N V K : Type*} [NodeLayout N V] [LawfulNodeLayout N V] {lt : K → K → Bool} {key : V → K} {m m' : Mem N}
  {q q' : Qtree} {T : Shape V} {v : V} {a : Ptr}

omit [LawfulNodeLayout N V] in
theorem emplaceFound_node {pol : AllocPolicy} {pos : Ptr × Ptr × Bool}
    (h : emplaceFound pol m q v pos = some (m', q', a, true)) :
    a = (nodeNew pol m).1 ∧ q' = { q with nodeCount := q.nodeCount + 1 } := by
  rw [emplaceFound] at h
  split at h
  · simp at h
  obtain ⟨⟨m₁, q₁, a₁⟩, hrun, heq⟩ := Option.map_eq_some_iff.mp h
  simp only [Prod.mk.injEq] at heq
  obtain ⟨-, rfl, rfl, -⟩ := heq
  simp only [emplaceAt] at hrun
  split at hrun
  · simp only [Option.some.injEq, Prod.mk.injEq] at hrun
    exact ⟨hrun.2.2.symm, hrun.2.1.symm⟩
  · obtain ⟨m₂, -, heq⟩ := Option.map_eq_some_iff.mp hrun
    simp only [Prod.mk.injEq] at heq
    exact ⟨heq.2.2.symm, heq.2.1.symm⟩

theorem emplaceFound_agree (o : StrictWeakOrder lt) (pol : AllocPolicy) (h : RedBlackTree lt key m q T) (hT : T ≠ .nil)
    {pos pos' : Ptr × Ptr × Bool} (hpos : InsertPosition lt key q.header T (key v) pos)
    (hpos' : InsertPosition lt key q.header T (key v) pos') :
    ∃ m₁ m₂ q' a b L, emplaceFound pol m q v pos = some (m₁, q', a, b) ∧
      emplaceFound pol m q v pos' = some (m₂, q', a, b) ∧ Listed lt key m₁ q' L ∧ Listed lt key m₂ q' L ∧
      ∃ x ∈ L, x.addr = a ∧ equiv lt (key x.val) (key v) = true := by
  have hout := emplaceFound_spec pol h hT hpos
  have hout' := emplaceFound_spec pol h hT hpos'
  generalize hres : emplaceFound pol m q v pos = res at hout
  generalize hres' : emplaceFound pol m q v pos' = res' at hout'
  have hrep : Represents lt key m q T := .inr h
  cases hout with
  | @existing x hx heq =>
      cases hout' with
      | @existing y hy heq' =>
          obtain rfl := SortedBy.eq_of_equiv o h.sorted_items hx hy heq heq'
          exact ⟨m, m, q, _, _, _, rfl, rfl, hrep.listed, hrep.listed, y, hx, rfl, heq⟩
      | inserted hT' _ hb =>
          have hne := Between.not_equiv hb (x := x) (hT' ▸ hx)
          exact absurd heq (by simp [hne])
  | @inserted m₁ q₁ T₁ a A B hTl hT₁ hb hrb =>
      cases hout' with
      | @existing y hy heq' =>
          have hne := Between.not_equiv hb (x := y) (hTl ▸ hy)
          exact absurd heq' (by simp [hne])
      | @inserted m₂ q₂ T₂ a' A' B' hTl' hT₂ hb' hrb' =>
          obtain ⟨rfl, rfl⟩ := emplaceFound_node hres
          obtain ⟨rfl, rfl⟩ := emplaceFound_node hres'
          obtain ⟨rfl, rfl⟩ := Between.unique o hb hb' (hTl.symm.trans hTl')
          have hlisted := Represents.listed (.inr hrb)
          have hlisted' := Represents.listed (.inr hrb')
          rw [hT₁] at hlisted
          rw [hT₂] at hlisted'
          exact ⟨m₁, m₂, _, _, _, _, rfl, rfl, hlisted, hlisted', ⟨_, v⟩, by simp, rfl, by simp [equiv, o.irrefl]⟩

omit [LawfulNodeLayout N V] in
theorem EmplaceOutcome.listed (o : StrictWeakOrder lt) (h : Represents lt key m q T)
    {res : Option (Mem N × Qtree × Ptr × Bool)} (hout : EmplaceOutcome lt key m q T (key v) v res) :
    ∃ m' q' a b L, res = some (m', q', a, b) ∧ Listed lt key m' q' L ∧
      ∃ x ∈ L, x.addr = a ∧ equiv lt (key x.val) (key v) = true := by
  cases hout with
  | @existing x hx heq => exact ⟨m, q, _, _, _, rfl, h.listed, x, hx, rfl, heq⟩
  | @inserted m₁ q₁ T₁ a A B _ hT₁ _ hrb =>
      exact ⟨m₁, q₁, a, true, _, rfl, Represents.listed (.inr hrb), ⟨a, v⟩, by simp [hT₁], rfl, by simp [equiv, o.irrefl]⟩

theorem lazyEmplaceWithHint_agree (o : StrictWeakOrder lt) (pol : AllocPolicy) (h : Represents lt key m q T) {hint : Ptr}
    (hhint : hint = nullptr ∨ hint = q.header ∨ hint ∈ addrs T) :
    ∃ m₁ m₂ q' a b L, lazyEmplaceWithHint lt key pol m q (key v) hint v = some (m₁, q', a, b) ∧
      lazyEmplaceImpl lt key pol m q (key v) v = some (m₂, q', a, b) ∧ Listed lt key m₁ q' L ∧ Listed lt key m₂ q' L ∧
      ∃ x ∈ L, x.addr = a ∧ equiv lt (key x.val) (key v) = true := by
  have hsame : lazyEmplaceWithHint lt key pol m q (key v) hint v = lazyEmplaceImpl lt key pol m q (key v) v →
      ∃ m₁ m₂ q' a b L, lazyEmplaceWithHint lt key pol m q (key v) hint v = some (m₁, q', a, b) ∧
        lazyEmplaceImpl lt key pol m q (key v) v = some (m₂, q', a, b) ∧ Listed lt key m₁ q' L ∧ Listed lt key m₂ q' L ∧
        ∃ x ∈ L, x.addr = a ∧ equiv lt (key x.val) (key v) = true := by
    intro heq
    obtain ⟨m', q', a, b, L, hrun, hlisted, hx⟩ := (lazyEmplaceImpl_spec o pol h).listed o h
    exact ⟨m', m', q', a, b, L, heq.trans hrun, hrun, hlisted, hlisted, hx⟩
  by_cases hempty : q.header = nullptr ∨ q.nodeCount = 0
  · exact hsame (by rw [lazyEmplaceWithHint, lazyEmplaceImpl, if_pos hempty, if_pos hempty])
  have hT : T ≠ .nil := by
    rintro rfl
    exact hempty (.inr h.count)
  have hrb := h.resolve_left fun h => hT h.2
  by_cases hnull : hint = nullptr
  · exact hsame (by rw [lazyEmplaceWithHint, if_neg hempty, if_pos hnull])
  obtain ⟨res, hrun, hres⟩ := tryHintInsert_spec o hrb hT hhint
  cases res with
  | none => exact hsame (by rw [lazyEmplaceWithHint, if_neg hempty, if_neg hnull, hrun])
  | some pos =>
      -- the hint was accepted, so that its place competes with the one the search finds
      obtain ⟨pos', hrun', hpos'⟩ := findInsertPosition_spec o hrb (key v)
      rw [lazyEmplaceWithHint, if_neg hempty, if_neg hnull, hrun, lazyEmplaceImpl, if_neg hempty, hrun']
      exact emplaceFound_agree o pol hrb hT (hres pos rfl) hpos'

end

section
variable {N V K : Type} [NodeLayout N V] [LawfulNodeLayout N V] {lt : K → K → Bool} {key : V → K} {w : World N}

theorem represents_of_reachable (o : StrictWeakOrder lt) {pol : AllocPolicy}
    (h : (qtreeInterface N lt key pol).Reachable pol w) (i : Nat) :
    ∃ T : Shape V, Represents lt key w.mem (w.objs i) T := by
  obtain ⟨σ, S, hw, -⟩ := h.refines (qtreeInterface_sound o pol)
  exact ⟨S i, hw.represents i⟩

/-- With a hint to the element at position `n`, or to `end()`, an insertion of `v` returns the same element and leaves
the same elements in a tree of the same kind as one without a hint. -/
def HintAgrees (lt : K → K → Bool) (key : V → K) (pol : AllocPolicy) (m : Mem N) (q : Qtree) (n : Nat) (v : V) : Prop :=
  ∃ hint m₁ m₂ q' a b L, iteratorAt m q n = some hint ∧
    insertHint lt key pol m q hint v = some (m₁, q', a) ∧ emplaceHint lt key pol m q hint v = some (m₁, q', a) ∧
    insert lt key pol m q v = some (m₂, q', a, b) ∧ Listed lt key m₁ q' L ∧ Listed lt key m₂ q' L ∧
    ∃ x ∈ L, x.addr = a ∧ equiv lt (key x.val) (key v) = true

theorem hint_agrees (o : StrictWeakOrder lt) (pol : AllocPolicy) (h : (qtreeInterface N lt key pol).Reachable pol w)
    (i : Nat) (v : V) {n : Nat} (hn : n ≤ (w.objs i).size) : HintAgrees lt key pol w.mem (w.objs i) n v := by
  obtain ⟨T, hrep⟩ := represents_of_reachable o h i
  have hlen : n ≤ T.toList.length := by
    rw [ColorTree.length_toList]
    exact hn.trans (Nat.le_of_eq hrep.count)
  obtain ⟨hint, hhint, hvalid⟩ := @hintAt_spec _ _ _ _ _ _ _ _ _ hrep (some n) fun k hk => Option.some.inj hk ▸ hlen
  obtain ⟨m₁, m₂, q', a, b, L, hrun, hrun', hlisted⟩ := lazyEmplaceWithHint_agree (v := v) o pol hrep hvalid
  refine ⟨hint, m₁, m₂, q', a, b, L, hhint, ?_, ?_, hrun', hlisted⟩
  · rw [insertHint, hrun]
    rfl
  · rw [emplaceHint, hrun]
    rfl

/-- The only element of a tree as the hint for a smaller one. -/
theorem hint_agrees_one :
    ∃ w : World (Cell Nat), (w.objs 0).size = 1 ∧ HintAgrees (fun a b => decide (a < b)) id .bump w.mem (w.objs 0) 0 4 := by
  have hreach := @ObjectInterface.Reachable.step _ _ _ _ (qtreeInterface (Cell Nat) (fun a b => decide (a < b)) id .bump)
    _ .bump _ _ (.on 0 (.insert 5)) _ .init trivial rfl
  exact ⟨_, rfl, hint_agrees strictWeakOrder_nat .bump hreach 0 4 (Nat.zero_le _)⟩

/-- The iterators of an object run through its elements in key order, forwards and backwards; removals return
the iterator behind what they remove and leave the other iterators at their elements. -/
structure IteratorsHold (lt : K → K → Bool) (key : V → K) (m : Mem N) (q : Qtree) (L : List (Item V)) : Prop where
  listed : Listed lt key m q L
  steps : ∀ n < L.length, ∃ it next, iteratorAt m q n = some it ∧ iteratorAt m q (n + 1) = some next ∧
    successor m it = some next ∧ prevIncludingHeader m next = some it
  eraseAt : ∀ (n : Nat) (hn : n < L.length), ∃ m' q',
    eraseAt m q L[n].addr = some (m', q', posPtr (endIt q) (L.drop (n + 1)).head?) ∧
      Listed lt key m' q' (L.eraseIdx n) ∧ endIt q' = endIt q
  eraseRange : ∀ first last, first ≤ last → last ≤ L.length → ∃ a b m' q', iteratorAt m q first = some a ∧
    iteratorAt m q last = some b ∧ eraseRange m q a b = some (m', q', b) ∧
      Listed lt key m' q' (L.take first ++ L.drop last) ∧ endIt q' = endIt q
  eraseIf : ∀ pred : V → Bool, ∃ m' q', eraseIf m q pred = some (m', q', (L.map Item.val).countP pred) ∧
    Listed lt key m' q' (L.filter fun x => !pred x.val) ∧ endIt q' = endIt q

theorem iterators_hold (o : StrictWeakOrder lt) (pol : AllocPolicy) (h : (qtreeInterface N lt key pol).Reachable pol w)
    (i : Nat) : ∃ L, IteratorsHold lt key w.mem (w.objs i) L := by
  obtain ⟨T, hrep⟩ := represents_of_reachable o h i
  have hlisted := hrep.listed
  exact ⟨T.toList, hlisted, fun n hn => hlisted.steps hn, fun n hn => hlisted.eraseAt hn,
    fun first last hle hlast => hlisted.eraseRange hle hlast, fun pred => hlisted.eraseIf pred⟩

theorem iterators_hold_one :
    ∃ w : World (Cell Nat), (w.objs 0).size = 1 ∧
      ∃ L, IteratorsHold (fun a b => decide (a < b)) id w.mem (w.objs 0) L := by
  have hreach := @ObjectInterface.Reachable.step _ _ _ _ (qtreeInterface (Cell Nat) (fun a b => decide (a < b)) id .bump)
    _ .bump _ _ (.on 0 (.insert 5)) _ .init trivial rfl
  exact ⟨_, rfl, iterators_hold strictWeakOrder_nat .bump hreach 0⟩

end

end IdaSdk.QtreeDetail
