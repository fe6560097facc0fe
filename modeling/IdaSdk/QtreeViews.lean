import IdaSdk.QtreeContract

/-!
The tree code sees nodes through their accessors only. `views` reads every node of a memory that way, and
gives a memory of unpacked nodes; every operation commutes with it, up to whole runs.
-/

namespace IdaSdk.QtreeDetail
open RedBlack SortedList

namespace Mem

section
variable {N V : Type*} [NodeLayout N V] (m : Mem N) (p q : Ptr)

/-- The memory with all nodes read through their accessors. -/
def views : Mem (Cell V) := ⟨m.view, m.live⟩

@[simp] theorem live_views : m.views.live = m.live := rfl
@[simp] theorem left_views : m.views.left p = m.left p := rfl
@[simp] theorem right_views : m.views.right p = m.right p := rfl
@[simp] theorem parent_views : m.views.parent p = m.parent p := rfl
@[simp] theorem color_views : m.views.color p = m.color p := rfl
@[simp] theorem isNil_views : m.views.isNil p = m.isNil p := rfl
@[simp] theorem value_views : m.views.value p = m.value p := rfl
@[simp] theorem view_views : m.views.view p = m.view p := rfl
@[simp] theorem nodeColor_views : m.views.nodeColor p = m.nodeColor p := rfl
@[simp] theorem child_views (d : Side) : m.views.child d p = m.child d p := by cases d <;> rfl

@[simp] theorem ite_views (c : Prop) [Decidable c] (m m' : Mem N) :
    (if c then m.views else m'.views) = (if c then m else m').views := (apply_ite views c m m').symm

theorem views_modify (f : N → N) (g : Cell V → Cell V)
    (hfg : ∀ n : N, NodeLayout.view (f n) = g (NodeLayout.view n)) :
    m.views.modify p g = (m.modify p f).views := by
  have hview : Function.update m.view p (g (m.view p)) = (m.modify p f).view := by
    funext a
    rw [m.view_modify p a f g hfg, Function.update_apply]
    by_cases ha : a = p
    · rw [if_pos ha, if_pos ha, ha]
    · rw [if_neg ha, if_neg ha]
  exact congrArg (Mem.mk · m.live) hview
end

section
variable {N V : Type*} [NodeLayout N V] [LawfulNodeLayout N V] (m : Mem N) (p q : Ptr)

@[simp] theorem setLeft_views : m.views.setLeft p q = (m.setLeft p q).views :=
  m.views_modify p _ _ (LawfulNodeLayout.view_setLeft · q)

@[simp] theorem setRight_views : m.views.setRight p q = (m.setRight p q).views :=
  m.views_modify p _ _ (LawfulNodeLayout.view_setRight · q)

@[simp] theorem setParent_views : m.views.setParent p q = (m.setParent p q).views :=
  m.views_modify p _ _ (LawfulNodeLayout.view_setParent · q)

@[simp] theorem setColor_views (c : Color) : m.views.setColor p c = (m.setColor p c).views :=
  m.views_modify p _ _ (LawfulNodeLayout.view_setColor · c)

@[simp] theorem setIsNil_views (b : Bool) : m.views.setIsNil p b = (m.setIsNil p b).views :=
  m.views_modify p _ _ (LawfulNodeLayout.view_setIsNil · b)

@[simp] theorem setValue_views (v : Option V) : m.views.setValue p v = (m.setValue p v).views :=
  m.views_modify p _ _ (LawfulNodeLayout.view_setValue · v)

@[simp] theorem setChild_views (d : Side) : m.views.setChild d p q = (m.setChild d p q).views := by
  cases d
  · exact m.setLeft_views p q
  · exact m.setRight_views p q

@[simp] theorem setParentUnlessNil_views : m.views.setParentUnlessNil p q = (m.setParentUnlessNil p q).views := by
  simp [setParentUnlessNil]

@[simp] theorem setColorUnlessNil_views (c : Color) :
    m.views.setColorUnlessNil p c = (m.setColorUnlessNil p c).views := by
  simp [setColorUnlessNil]
end

/-- A result whose memory is read through the accessors. -/
def viewsFst {N V X : Type*} [NodeLayout N V] (r : Mem N × X) : Mem (Cell V) × X := (r.1.views, r.2)

@[simp] theorem viewsFst_mk {N V X : Type*} [NodeLayout N V] (m : Mem N) (x : X) : viewsFst (m, x) = (m.views, x) := rfl

end Mem

open Mem

/-! ### Readers -/

section
variable {N V K : Type*} [NodeLayout N V] (m : Mem N) (lt : K → K → Bool) (key : V → K) (hdr node : Ptr) (q : Qtree)
  (k : K)

variable (d : Side)

theorem extremumLoop_views (fuel : Nat) (node : Ptr) :
    extremumLoop d fuel m.views node = extremumLoop d fuel m node := by
  induction fuel generalizing node with
  | zero => rfl
  | succ fuel ih => simp [extremumLoop, ih]

@[simp] theorem extremum_views : extremum d m.views node = extremum d m node := by
  simp [extremum, extremumLoop_views]

@[simp] theorem minimum_views : minimum m.views node = minimum m node := extremum_views m node .left

@[simp] theorem maximum_views : maximum m.views node = maximum m node := extremum_views m node .right

theorem climb_views (fuel : Nat) (node parentNode : Ptr) :
    climb d fuel m.views node parentNode = climb d fuel m node parentNode := by
  induction fuel generalizing node parentNode with
  | zero => rfl
  | succ fuel ih => simp [climb, ih]

@[simp] theorem neighbour_views : neighbour d m.views node = neighbour d m node := by
  simp [neighbour, climb_views]

@[simp] theorem successor_views : successor m.views node = successor m node := neighbour_views m node .right

@[simp] theorem prevIncludingHeader_views : prevIncludingHeader m.views node = prevIncludingHeader m node := by
  simp [prevIncludingHeader, predecessor]

@[simp] theorem root_views : root m.views q = root m q := rfl

theorem findNodeLoop_views (fuel : Nat) (node : Ptr) :
    findNodeLoop lt key m.views hdr k fuel node = findNodeLoop lt key m hdr k fuel node := by
  induction fuel generalizing node with
  | zero => rfl
  | succ fuel ih => simp [findNodeLoop, ih]

@[simp] theorem findNode_views : findNode lt key m.views q k = findNode lt key m q k := by
  simp [findNode, findNodeLoop_views]

theorem boundLoop_views (candidate : V → Bool) (fuel : Nat) (node result : Ptr) :
    boundLoop m.views candidate fuel node result = boundLoop m candidate fuel node result := by
  induction fuel generalizing node result with
  | zero => rfl
  | succ fuel ih => simp [boundLoop, ih]

@[simp] theorem lowerBoundNode_views : lowerBoundNode lt key m.views q k = lowerBoundNode lt key m q k := by
  simp [lowerBoundNode, boundLoop_views]

@[simp] theorem upperBoundNode_views : upperBoundNode lt key m.views q k = upperBoundNode lt key m q k := by
  simp [upperBoundNode, boundLoop_views]

theorem findInsertPositionLoop_views (fuel : Nat) (node parentNode : Ptr) (goLeft : Bool) :
    findInsertPositionLoop lt key m.views k fuel node parentNode goLeft =
      findInsertPositionLoop lt key m k fuel node parentNode goLeft := by
  induction fuel generalizing node parentNode goLeft with
  | zero => rfl
  | succ fuel ih => simp [findInsertPositionLoop, ih]

@[simp] theorem findInsertPosition_views : findInsertPosition lt key m.views q k = findInsertPosition lt key m q k := by
  simp [findInsertPosition, findInsertPositionLoop_views]

@[simp] theorem hintPlace_views (hint next : Ptr) :
    hintPlace d m.views q hint next = hintPlace d m q hint next := by
  simp only [hintPlace, child_views, isNil_views]

@[simp] theorem hintBeside_views (hint : Ptr) :
    hintBeside lt key d m.views q k hint = hintBeside lt key d m q k hint := by
  simp only [hintBeside, neighbour_views, value_views, hintPlace_views]

@[simp] theorem tryHintInsert_views (hint : Ptr) :
    tryHintInsert lt key m.views q k hint = tryHintInsert lt key m q k hint := by
  unfold tryHintInsert
  rw [hintBeside_views, hintBeside_views]
  rfl

@[simp] theorem beginIt_views : beginIt m.views q = beginIt m q := rfl

theorem advance_views (n : Nat) (it : Ptr) : advance m.views n it = advance m n it := by
  induction n generalizing it with
  | zero => rfl
  | succ n ih => simp only [advance, successor_views, funext ih]

@[simp] theorem iteratorAt_views (n : Nat) : iteratorAt m.views q n = iteratorAt m q n := advance_views m n _

@[simp] theorem deref_views (it : Ptr) : deref m.views q it = deref m q it := rfl

theorem collectLoop_views (last : Ptr) (fuel : Nat) (it : Ptr) :
    collectLoop m.views last fuel it = collectLoop m last fuel it := by
  induction fuel generalizing it with
  | zero => rfl
  | succ fuel ih => simp [collectLoop, ih]

@[simp] theorem collect_views : collect m.views q = collect m q := collectLoop_views m _ _ _

theorem collectBackLoop_views (first : Ptr) (fuel : Nat) (it : Ptr) :
    collectBackLoop m.views first fuel it = collectBackLoop m first fuel it := by
  induction fuel generalizing it with
  | zero => rfl
  | succ fuel ih => simp [collectBackLoop, ih]

@[simp] theorem collectBack_views : collectBack m.views q = collectBack m q := collectBackLoop_views m _ _ _
end

section
variable {N V K : Type*} [NodeLayout N V] (m : Mem N) (lt : K → K → Bool) (key : V → K) (q : Qtree) (k : K)

@[simp] theorem find_views : find lt key m.views q k = find lt key m q k := findNode_views m lt key q k

@[simp] theorem contains_views : contains lt key m.views q k = contains lt key m q k := by
  rw [contains, contains, findNode_views]

@[simp] theorem count_views : count lt key m.views q k = count lt key m q k := by
  rw [count, count, contains_views]

@[simp] theorem lowerBound_views : lowerBound lt key m.views q k = lowerBound lt key m q k :=
  lowerBoundNode_views m lt key q k

@[simp] theorem upperBound_views : upperBound lt key m.views q k = upperBound lt key m q k :=
  upperBoundNode_views m lt key q k

@[simp] theorem equalRange_views : equalRange lt key m.views q k = equalRange lt key m q k := by
  rw [equalRange, equalRange, lowerBound_views, upperBound_views]
end

/-! ### Balancing -/

section
variable {N V : Type*} [NodeLayout N V] [LawfulNodeLayout N V] (m : Mem N) (hdr node : Ptr)

variable (d : Side)

@[simp] theorem relink_views (par u v root : Ptr) :
    relink m.views hdr d par u v root = (relink m hdr d par u v root).views := by
  simp [relink]

@[simp] theorem rotate_views : rotate d m.views hdr node = (rotate d m hdr node).map views := by
  by_cases hnil : m.isNil (m.child d.flip node) = true
  · simp [rotate, hnil]
  · simp [rotate, hnil]

variable (fuel : Nat)

theorem insertFixupLoop_views (m : Mem N) (node : Ptr) :
    insertFixupLoop hdr fuel m.views node = (insertFixupLoop hdr fuel m node).map views := by
  induction fuel generalizing m node with
  | zero => rfl
  | succ fuel ih =>
      have hside : (if m.views.parent node = m.views.left (m.views.parent (m.views.parent node)) then Side.left
          else Side.right) = if m.parent node = m.left (m.parent (m.parent node)) then Side.left else Side.right := rfl
      simp only [insertFixupLoop, ↓hside, parent_views, isNil_views, color_views, child_views, nodeColor_views,
        setColor_views, rotate_views]
      generalize (if m.parent node = m.left (m.parent (m.parent node)) then Side.left else Side.right) = d
      split_ifs
      · rfl
      · exact ih _ _
      · cases rotate d m hdr (m.parent node) with
        | none => rfl
        | some m' =>
            simp only [Option.map_some, parent_views, setColor_views, rotate_views]
            cases rotate d.flip ((m'.setColor (m'.parent (m.parent node)) .black).setColor
                (m'.parent (m'.parent (m.parent node))) .red) hdr (m'.parent (m'.parent (m.parent node))) with
            | none => rfl
            | some m'' => exact ih _ _
      · cases rotate d.flip ((m.setColor (m.parent node) .black).setColor (m.parent (m.parent node)) .red) hdr
            (m.parent (m.parent node)) with
        | none => rfl
        | some m' => exact ih _ _

@[simp] theorem insertFixup_views : insertFixup m.views hdr node = (insertFixup m hdr node).map views := by
  simp [insertFixup, insertFixupLoop_views, Function.comp_def]

omit [LawfulNodeLayout N V] in
@[simp] theorem childColor_views : childColor m.views d node = childColor m d node := by
  simp only [childColor, isNil_views, child_views, nodeColor_views]

@[simp] theorem eraseFixupCase1_views (parentNode w : Ptr) :
    eraseFixupCase1 d m.views hdr parentNode w = (eraseFixupCase1 d m hdr parentNode w).map viewsFst := by
  unfold eraseFixupCase1
  by_cases hred : m.nodeColor w = .red
  · simp [hred, Function.comp_def]
  · simp [hred]

@[simp] theorem eraseFixupCase3_views (parentNode w : Ptr) :
    eraseFixupCase3 d m.views hdr parentNode w = (eraseFixupCase3 d m hdr parentNode w).map viewsFst := by
  unfold eraseFixupCase3
  by_cases hnil : m.isNil w = true
  · simp [hnil]
  · simp [hnil, Function.comp_def]

@[simp] theorem eraseFixupCase4_views (parentNode w : Ptr) :
    eraseFixupCase4 d m.views hdr parentNode w = (eraseFixupCase4 d m hdr parentNode w).map views := by
  simp [eraseFixupCase4]

theorem eraseFixupLoop_views (m : Mem N) (x parentNode : Ptr) :
    eraseFixupLoop hdr fuel m.views x parentNode = (eraseFixupLoop hdr fuel m x parentNode).map viewsFst := by
  induction fuel generalizing m x parentNode with
  | zero => rfl
  | succ fuel ih =>
      have hside : (if x = m.views.left parentNode then Side.left else Side.right) =
          if x = m.left parentNode then Side.left else Side.right := rfl
      simp only [eraseFixupLoop, ↓hside, parent_views, child_views, nodeColor_views, eraseFixupCase1_views]
      generalize (if x = m.left parentNode then Side.left else Side.right) = d
      by_cases hend : x = m.parent hdr ∨ m.nodeColor x ≠ .black
      · rw [if_pos hend, if_pos hend]
        rfl
      rw [if_neg hend, if_neg hend]
      cases eraseFixupCase1 d m hdr parentNode (m.child d.flip parentNode) with
      | none => rfl
      | some r =>
          obtain ⟨m, w⟩ := r
          simp only [Option.map_some, viewsFst_mk, childColor_views, setColorUnlessNil_views, parent_views,
            eraseFixupCase3_views]
          by_cases hboth : childColor m d w = .black ∧ childColor m d.flip w = .black
          · rw [if_pos hboth, if_pos hboth]
            exact ih _ _ _
          rw [if_neg hboth, if_neg hboth]
          have hcase3 : (if childColor m d.flip w = .black then (eraseFixupCase3 d m hdr parentNode w).map viewsFst
                else some (m.views, w)) =
              (if childColor m d.flip w = .black then eraseFixupCase3 d m hdr parentNode w
                else some (m, w)).map viewsFst := (apply_ite (Option.map viewsFst) _ _ (some (m, w))).symm
          rw [hcase3]
          cases (if childColor m d.flip w = .black then eraseFixupCase3 d m hdr parentNode w else some (m, w)) with
          | none => rfl
          | some r =>
              obtain ⟨m, w⟩ := r
              simp only [Option.map_some, viewsFst_mk, eraseFixupCase4_views]
              cases eraseFixupCase4 d m hdr parentNode w with
              | none => rfl
              | some m => exact ih _ _ _

@[simp] theorem eraseFixup_views (x parentNode : Ptr) :
    eraseFixup m.views hdr x parentNode = (eraseFixup m hdr x parentNode).map views := by
  simp [eraseFixup, eraseFixupLoop_views, Function.comp_def, viewsFst]

@[simp] theorem transplant_views (u v : Ptr) : transplant m.views hdr u v = (transplant m hdr u v).views := by
  simp only [transplant, relink_views, parent_views, setParentUnlessNil_views]
  rfl

@[simp] theorem detachSuccessor_views (y : Ptr) :
    detachSuccessor m.views hdr node y = viewsFst (detachSuccessor m hdr node y) := by
  unfold detachSuccessor
  by_cases hy : m.parent y = node
  · simp [hy]
  · simp [hy]

@[simp] theorem replaceBySuccessor_views (y : Ptr) :
    replaceBySuccessor m.views hdr node y = (replaceBySuccessor m hdr node y).views := by
  simp [replaceBySuccessor]

@[simp] theorem spliceOut_views : spliceOut m.views hdr node = (spliceOut m hdr node).map viewsFst := by
  unfold spliceOut
  by_cases hleft : m.isNil (m.left node) = true
  · simp [hleft]
  · by_cases hright : m.isNil (m.right node) = true
    · simp [hleft, hright]
    · simp [hleft, hright, Function.comp_def, viewsFst]

@[simp] theorem initHeader_views : initHeader m.views hdr = (initHeader m hdr).views := by
  simp [initHeader]

variable (q : Qtree)

@[simp] theorem refreshHeader_views : refreshHeader m.views q = (refreshHeader m q).map views := by
  unfold refreshHeader
  by_cases hempty : q.nodeCount = 0
  · simp [hempty]
  · simp only [if_neg hempty, parent_views, minimum_views]
    cases minimum m (m.parent q.header) with
    | none => rfl
    | some first => simp [Function.comp_def]

@[simp] theorem destroyValue_views : destroyValue m.views node = (destroyValue m node).views := by
  simp [destroyValue]

omit [LawfulNodeLayout N V] in
@[simp] theorem nodeDelete_views : nodeDelete m.views node = (nodeDelete m node).views := by
  unfold nodeDelete
  by_cases hnull : node = nullptr
  · rw [if_pos hnull, if_pos hnull]
  · rw [if_neg hnull, if_neg hnull]
    rfl

@[simp] theorem eraseNode_views : eraseNode m.views q node = (eraseNode m q node).map viewsFst := by
  unfold eraseNode
  by_cases hnull : node = nullptr
  · rw [if_pos hnull, if_pos hnull]
    rfl
  rw [if_neg hnull, if_neg hnull, spliceOut_views]
  cases spliceOut m q.header node with
  | none => rfl
  | some r =>
      obtain ⟨m, x, xParent, original⟩ := r
      simp only [Option.map_some, viewsFst_mk, destroyValue_views, nodeDelete_views, eraseFixup_views]
      have hfix : (if original = .black then (eraseFixup (nodeDelete (destroyValue m node) node) q.header x xParent).map views
            else some (nodeDelete (destroyValue m node) node).views) =
          (if original = .black then eraseFixup (nodeDelete (destroyValue m node) node) q.header x xParent
            else some (nodeDelete (destroyValue m node) node)).map views :=
        (apply_ite (Option.map views) _ _ (some (nodeDelete (destroyValue m node) node))).symm
      rw [hfix]
      cases (if original = .black then eraseFixup (nodeDelete (destroyValue m node) node) q.header x xParent
          else some (nodeDelete (destroyValue m node) node)) with
      | none => rfl
      | some m => simp [Function.comp_def]

omit [LawfulNodeLayout N V] in
theorem eq_views {m₁ : Mem (Cell V)} {m₂ : Mem N} (hlive : m₁.live = m₂.live) (hview : ∀ a, m₁.view a = m₂.view a) :
    m₁ = m₂.views := by
  obtain ⟨cell, live⟩ := m₁
  obtain rfl : live = m₂.live := hlive
  exact congrArg (Mem.mk · m₂.live) (funext hview)

omit [LawfulNodeLayout N V] in
theorem nodeNew_fst (pol : AllocPolicy) : (nodeNew pol m).1 = pol.allocate m.live := rfl

theorem view_nodeNew_views (pol : AllocPolicy) (a : Ptr) :
    if a = pol.allocate m.live then
      ∃ b b' : Bool, (nodeNew pol m).2.view a = ⟨nullptr, nullptr, nullptr, .black, b, none⟩ ∧
        (nodeNew pol m.views).2.view a = ⟨nullptr, nullptr, nullptr, .black, b', none⟩
    else (nodeNew pol m).2.view a = m.view a ∧ (nodeNew pol m.views).2.view a = m.view a := by
  obtain ⟨b, hblank⟩ := LawfulNodeLayout.view_blank (N := N)
  obtain ⟨b', hblank'⟩ := LawfulNodeLayout.view_blank (N := Cell V)
  by_cases ha : a = pol.allocate m.live
  · rw [if_pos ha]
    exact ⟨b, b', by simp [nodeNew, view, ha, hblank], by simp [nodeNew, view, ha, hblank']⟩
  · rw [if_neg ha]
    exact ⟨(nodeNew_spec pol m).2.2.2 a ha, (nodeNew_spec pol m.views).2.2.2 a ha⟩

@[simp] theorem allocateHeader_views (pol : AllocPolicy) :
    allocateHeader pol m.views = ((allocateHeader pol m).1, (allocateHeader pol m).2.views) := by
  refine Prod.ext rfl (eq_views rfl fun a => ?_)
  have hnew := view_nodeNew_views m pol a
  by_cases ha : a = pol.allocate m.live
  · rw [if_pos ha] at hnew
    obtain ⟨b, b', hview, hview'⟩ := hnew
    simp only [ha] at hview hview'
    simp [allocateHeader, nodeNew_fst, hview, hview', ha, Cell.withIsNil, Cell.withColor, Cell.withChild,
      Cell.withParent]
  · rw [if_neg ha] at hnew
    simp [allocateHeader, nodeNew_fst, hnew, ha]

@[simp] theorem emplaceNode_views (pol : AllocPolicy) (parentNode : Ptr) (v : V) :
    emplaceNode pol m.views hdr parentNode v =
      ((emplaceNode pol m hdr parentNode v).1, (emplaceNode pol m hdr parentNode v).2.views) := by
  refine Prod.ext rfl (eq_views rfl fun a => ?_)
  have hnew := view_nodeNew_views m pol a
  by_cases ha : a = pol.allocate m.live
  · rw [if_pos ha] at hnew
    obtain ⟨b, b', hview, hview'⟩ := hnew
    simp only [ha] at hview hview'
    simp [emplaceNode, nodeNew_fst, hview, hview', ha, Cell.withIsNil, Cell.withColor, Cell.withChild,
      Cell.withParent, Cell.withValue]
  · rw [if_neg ha] at hnew
    simp [emplaceNode, nodeNew_fst, hnew, ha]

theorem color_nodeNew_views (pol : AllocPolicy) (a : Ptr) :
    (nodeNew pol m.views).2.color a = (nodeNew pol m).2.color a := by
  have hnew := view_nodeNew_views m pol a
  rw [color_eq, color_eq]
  by_cases ha : a = pol.allocate m.live
  · rw [if_pos ha] at hnew
    obtain ⟨b, b', hview, hview'⟩ := hnew
    rw [hview, hview']
  · rw [if_neg ha] at hnew
    rw [hnew.1, hnew.2]

@[simp] theorem cloneNode_views (pol : AllocPolicy) (otherNode parentNode : Ptr) (v : V) :
    cloneNode pol m.views hdr otherNode parentNode v =
      ((cloneNode pol m hdr otherNode parentNode v).1, (cloneNode pol m hdr otherNode parentNode v).2.views) := by
  refine Prod.ext rfl (eq_views rfl fun a => ?_)
  have hnew := view_nodeNew_views m pol a
  have hcolor := color_nodeNew_views m pol otherNode
  rw [color_eq, color_eq] at hcolor
  by_cases ha : a = pol.allocate m.live
  · rw [if_pos ha] at hnew
    obtain ⟨b, b', hview, hview'⟩ := hnew
    simp only [ha] at hview hview'
    by_cases hother : otherNode = pol.allocate m.live
    · simp [cloneNode, nodeNew_fst, color_eq, hview, hview', ha, hother, Cell.withIsNil, Cell.withColor, Cell.withChild,
        Cell.withParent, Cell.withValue]
    · simp [cloneNode, nodeNew_fst, color_eq, hview, hview', hcolor, ha, hother, Cell.withIsNil, Cell.withColor,
        Cell.withChild, Cell.withParent, Cell.withValue]
  · rw [if_neg ha] at hnew
    simp [cloneNode, nodeNew_fst, hnew, ha]

omit [LawfulNodeLayout N V] in
theorem viewsFst_eq {X : Type*} (r : Mem N × X) : viewsFst r = (r.1.views, r.2) := rfl

@[simp] theorem ensureHeader_views (pol : AllocPolicy) (q : Qtree) :
    ensureHeader pol m.views q = viewsFst (ensureHeader pol m q) := by
  unfold ensureHeader
  by_cases hnull : q.header = nullptr
  · simp [hnull]
  · simp [hnull]

@[simp] theorem linkRoot_views (newNode : Ptr) : linkRoot m.views hdr newNode = (linkRoot m hdr newNode).views := by
  simp [linkRoot]

@[simp] theorem linkChild_views (parentNode newNode : Ptr) :
    linkChild m.views hdr d parentNode newNode = (linkChild m hdr d parentNode newNode).views := by
  simp only [linkChild, setChild_views, child_views, ite_views]

@[simp] theorem emplaceAt_views (pol : AllocPolicy) (q : Qtree) (parentNode : Ptr) (goLeft : Bool) (v : V) :
    emplaceAt pol m.views q parentNode goLeft v = (emplaceAt pol m q parentNode goLeft v).map viewsFst := by
  unfold emplaceAt
  by_cases hroot : parentNode = q.header
  · simp [hroot]
  · simp [hroot, Function.comp_def]

@[simp] theorem emplaceIntoEmptyTree_views (pol : AllocPolicy) (q : Qtree) (v : V) :
    emplaceIntoEmptyTree pol m.views q v = (emplaceIntoEmptyTree pol m q v).map viewsFst := by
  simp [emplaceIntoEmptyTree, Function.comp_def, viewsFst_eq]

@[simp] theorem emplaceFound_views (pol : AllocPolicy) (q : Qtree) (v : V) (pos : Ptr × Ptr × Bool) :
    emplaceFound pol m.views q v pos = (emplaceFound pol m q v pos).map viewsFst := by
  unfold emplaceFound
  by_cases hfound : pos.1 ≠ nullptr
  · rw [if_pos hfound, if_pos hfound]
    rfl
  · rw [if_neg hfound, if_neg hfound]
    simp [Function.comp_def, viewsFst_eq]

variable {K : Type*} (lt : K → K → Bool) (key : V → K)

@[simp] theorem lazyEmplaceImpl_views (pol : AllocPolicy) (q : Qtree) (k : K) (v : V) :
    lazyEmplaceImpl lt key pol m.views q k v = (lazyEmplaceImpl lt key pol m q k v).map viewsFst := by
  unfold lazyEmplaceImpl
  by_cases hempty : q.header = nullptr ∨ q.nodeCount = 0
  · rw [if_pos hempty, if_pos hempty, emplaceIntoEmptyTree_views]
  · rw [if_neg hempty, if_neg hempty, findInsertPosition_views]
    cases findInsertPosition lt key m q k with
    | none => rfl
    | some pos => exact emplaceFound_views m pol q v pos

@[simp] theorem lazyEmplaceWithHint_views (pol : AllocPolicy) (q : Qtree) (k : K) (hint : Ptr) (v : V) :
    lazyEmplaceWithHint lt key pol m.views q k hint v =
      (lazyEmplaceWithHint lt key pol m q k hint v).map viewsFst := by
  unfold lazyEmplaceWithHint
  by_cases hempty : q.header = nullptr ∨ q.nodeCount = 0
  · rw [if_pos hempty, if_pos hempty, emplaceIntoEmptyTree_views]
  rw [if_neg hempty, if_neg hempty, lazyEmplaceImpl_views, tryHintInsert_views]
  by_cases hnull : hint = nullptr
  · rw [if_pos hnull, if_pos hnull]
  rw [if_neg hnull, if_neg hnull]
  cases tryHintInsert lt key m q k hint with
  | none => rfl
  | some declined =>
      cases declined with
      | none => rfl
      | some pos => exact emplaceFound_views m pol q v pos

/-! ### Clearing and copying -/

theorem clearSubtree_views (m : Mem N) (node : Ptr) :
    clearSubtree fuel m.views node = (clearSubtree fuel m node).map views := by
  induction fuel generalizing m node with
  | zero => rfl
  | succ fuel ih =>
      -- both children are cleared by the same conditional call
      have hchild : ∀ (m : Mem N) (c : Ptr),
          (if m.views.isNil c then some m.views else clearSubtree fuel m.views c) =
            (if m.isNil c then some m else clearSubtree fuel m c).map views := by
        intro m c
        rw [apply_ite (Option.map views), ih]
        rfl
      rw [clearSubtree, clearSubtree, apply_ite (Option.map views)]
      refine if_congr (Iff.of_eq (congrArg (· = true) (isNil_views m node))) rfl ?_
      rw [left_views, hchild]
      cases (if m.isNil (m.left node) then some m else clearSubtree fuel m (m.left node)) with
      | none => rfl
      | some m =>
          simp only [Option.map_some]
          rw [right_views, hchild]
          cases (if m.isNil (m.right node) then some m else clearSubtree fuel m (m.right node)) with
          | none => rfl
          | some m => simp

@[simp] theorem clear_views : clear m.views q = (clear m q).map viewsFst := by
  unfold clear
  by_cases hempty : q.header = nullptr ∨ q.nodeCount = 0
  · rw [if_pos hempty, if_pos hempty]
    simp
  · rw [if_neg hempty, if_neg hempty]
    simp [clearSubtree_views, Function.comp_def]

@[simp] theorem destruct_views : destruct m.views q = (destruct m q).map views := by
  unfold destruct
  by_cases hnull : q.header ≠ nullptr
  · rw [if_pos hnull, if_pos hnull]
    simp [Function.comp_def, viewsFst_eq]
  · rw [if_neg hnull, if_neg hnull]
    rfl

theorem cloneSubtree_views (pol : AllocPolicy) (fuel : Nat) (m : Mem N) (otherNode parentNode : Ptr) :
    cloneSubtree pol hdr fuel m.views otherNode parentNode =
      (cloneSubtree pol hdr fuel m otherNode parentNode).map viewsFst := by
  induction fuel generalizing m otherNode parentNode with
  | zero => rfl
  | succ fuel ih =>
      rw [cloneSubtree, cloneSubtree, apply_ite (Option.map viewsFst)]
      refine if_congr (Iff.of_eq (congrArg (· = true) (isNil_views m otherNode))) rfl ?_
      rw [value_views]
      cases m.value otherNode with
      | none => rfl
      | some v =>
          simp only [cloneNode_views, left_views, ih]
          generalize cloneNode pol m hdr otherNode parentNode v = new
          obtain ⟨newNode, m⟩ := new
          simp only
          cases cloneSubtree pol hdr fuel m (m.left otherNode) newNode with
          | none => rfl
          | some r =>
              obtain ⟨m, l⟩ := r
              simp only [Option.map_some, viewsFst_mk, setLeft_views, right_views, ih]
              cases cloneSubtree pol hdr fuel (m.setLeft newNode l) ((m.setLeft newNode l).right otherNode) newNode with
              | none => rfl
              | some r => simp [viewsFst_eq]

@[simp] theorem cloneFrom_views (pol : AllocPolicy) (q other : Qtree) :
    cloneFrom pol m.views q other = (cloneFrom pol m q other).map viewsFst := by
  unfold cloneFrom
  by_cases hempty : other.empty = true
  · rw [if_pos hempty, if_pos hempty]
    rfl
  rw [if_neg hempty, if_neg hempty]
  simp only [live_views, parent_views, cloneSubtree_views]
  cases cloneSubtree pol q.header (m.live.length + 1) m (m.parent other.header) q.header with
  | none => rfl
  | some r =>
      obtain ⟨m, newRoot⟩ := r
      simp only [Option.map_some, viewsFst_mk, setParent_views, minimum_views]
      cases minimum (m.setParent q.header newRoot) newRoot with
      | none => rfl
      | some first =>
          simp only [setLeft_views, maximum_views]
          cases maximum ((m.setParent q.header newRoot).setLeft q.header first) newRoot with
          | none => rfl
          | some last => simp

@[simp] theorem copyConstruct_views (pol : AllocPolicy) (other : Qtree) :
    copyConstruct pol m.views other = (copyConstruct pol m other).map viewsFst := by
  unfold copyConstruct
  by_cases hempty : other.empty = true
  · rw [if_pos hempty, if_pos hempty]
    rfl
  · rw [if_neg hempty, if_neg hempty]
    simp

@[simp] theorem copyAssign_views (pol : AllocPolicy) (q other : Qtree) :
    copyAssign pol m.views q other = (copyAssign pol m q other).map viewsFst := by
  rw [copyAssign, copyAssign, copyConstruct_views]
  cases copyConstruct pol m other with
  | none => rfl
  | some r => simp [Function.comp_def, viewsFst_eq]

@[simp] theorem moveAssign_views (q other : Qtree) :
    moveAssign m.views q other = (moveAssign m q other).map viewsFst := by
  simp [moveAssign, Function.comp_def]

/-! ### The interface -/

@[simp] theorem insert_views (pol : AllocPolicy) (q : Qtree) (v : V) :
    insert lt key pol m.views q v = (insert lt key pol m q v).map viewsFst := lazyEmplaceImpl_views m lt key pol q _ v

@[simp] theorem insertHint_views (pol : AllocPolicy) (q : Qtree) (hint : Ptr) (v : V) :
    insertHint lt key pol m.views q hint v = (insertHint lt key pol m q hint v).map viewsFst := by
  simp [insertHint, Function.comp_def, viewsFst_eq]

@[simp] theorem insertRange_views (pol : AllocPolicy) (q : Qtree) (vs : List V) :
    insertRange lt key pol m.views q vs = (insertRange lt key pol m q vs).map viewsFst := by
  induction vs generalizing m q with
  | nil => rfl
  | cons v vs ih =>
      rw [insertRange, insertRange, insert_views]
      cases insert lt key pol m q v with
      | none => rfl
      | some r => exact ih _ _

@[simp] theorem emplace_views (pol : AllocPolicy) (q : Qtree) (tmp : V) :
    emplace lt key pol m.views q tmp = (emplace lt key pol m q tmp).map viewsFst :=
  lazyEmplaceImpl_views m lt key pol q _ tmp

@[simp] theorem emplaceHint_views (pol : AllocPolicy) (q : Qtree) (hint : Ptr) (tmp : V) :
    emplaceHint lt key pol m.views q hint tmp = (emplaceHint lt key pol m q hint tmp).map viewsFst :=
  insertHint_views m lt key pol q hint tmp

@[simp] theorem eraseAt_views (pos : Ptr) : eraseAt m.views q pos = (eraseAt m q pos).map viewsFst := by
  rw [eraseAt, eraseAt, successor_views, eraseNode_views]
  cases successor m pos with
  | none => rfl
  | some next => simp [Function.comp_def, viewsFst_eq]

theorem eraseRangeLoop_views (last : Ptr) (fuel : Nat) (m : Mem N) (q : Qtree) (it : Ptr) :
    eraseRangeLoop last fuel m.views q it = (eraseRangeLoop last fuel m q it).map viewsFst := by
  induction fuel generalizing m q it with
  | zero => rfl
  | succ fuel ih =>
      rw [eraseRangeLoop, eraseRangeLoop, apply_ite (Option.map viewsFst), eraseAt_views]
      congr 1
      cases eraseAt m q it with
      | none => rfl
      | some r => exact ih _ _ _

@[simp] theorem eraseRange_views (first last : Ptr) :
    eraseRange m.views q first last = (eraseRange m q first last).map viewsFst := eraseRangeLoop_views last _ m q first

@[simp] theorem eraseEquiv_views (k : K) :
    eraseEquiv lt key m.views q k = (eraseEquiv lt key m q k).map viewsFst := by
  rw [eraseEquiv, eraseEquiv, findNode_views]
  cases findNode lt key m q k with
  | none => rfl
  | some node =>
      by_cases hend : node = q.header
      · simp [hend]
      · simp [hend, Function.comp_def, viewsFst_eq]

theorem eraseIfLoop_views (pred : V → Bool) (fuel : Nat) (m : Mem N) (q : Qtree) (it : Ptr) (n : Nat) :
    eraseIfLoop pred fuel m.views q it n = (eraseIfLoop pred fuel m q it n).map viewsFst := by
  induction fuel generalizing m q it n with
  | zero => rfl
  | succ fuel ih =>
      rw [eraseIfLoop, eraseIfLoop, apply_ite (Option.map viewsFst), value_views]
      congr 1
      cases m.value it with
      | none => rfl
      | some v =>
          simp only [eraseAt_views, successor_views]
          by_cases hpred : pred v = true
          · rw [if_pos hpred, if_pos hpred]
            cases eraseAt m q it with
            | none => rfl
            | some r => exact ih _ _ _ _
          · rw [if_neg hpred, if_neg hpred]
            cases successor m it with
            | none => rfl
            | some next => exact ih _ _ _ _

@[simp] theorem eraseIf_views (pred : V → Bool) :
    eraseIf m.views q pred = (eraseIf m q pred).map viewsFst := eraseIfLoop_views pred _ m q _ 0

end

section
variable {N K M : Type*} [NodeLayout N (K × M)] [LawfulNodeLayout N (K × M)] (m : Mem N) (lt : K → K → Bool)

@[simp] theorem assignSecond_views (it : Ptr) (mapped : M) :
    assignSecond m.views it mapped = (assignSecond m it mapped).map views := by
  simp [assignSecond, Function.comp_def]

variable (pol : AllocPolicy)

@[simp] theorem tryEmplace_views (q : Qtree) (k : K) (mapped : M) :
    tryEmplace lt pol m.views q k mapped = (tryEmplace lt pol m q k mapped).map viewsFst :=
  lazyEmplaceImpl_views m lt Prod.fst pol q k _

@[simp] theorem insertOrAssign_views (q : Qtree) (k : K) (mapped : M) :
    insertOrAssign lt pol m.views q k mapped = (insertOrAssign lt pol m q k mapped).map viewsFst := by
  rw [insertOrAssign, insertOrAssign, lazyEmplaceImpl_views]
  cases lazyEmplaceImpl lt Prod.fst pol m q k (k, mapped) with
  | none => rfl
  | some r =>
      obtain ⟨m, q, it, inserted⟩ := r
      cases inserted
      · simp [Function.comp_def]
      · rfl

@[simp] theorem index_views (q : Qtree) (dflt : M) (k : K) :
    index lt pol m.views q dflt k = (index lt pol m q dflt k).map viewsFst := by
  simp [index, Function.comp_def, viewsFst_eq]

omit [LawfulNodeLayout N (K × M)] in
@[simp] theorem atKey_views (q : Qtree) (k : K) : atKey lt m.views q k = atKey lt m q k := by
  simp [atKey, find]

end

/-! ### Runs -/

section
variable {N V K : Type} [NodeLayout N V] [LawfulNodeLayout N V] (m : Mem N) (lt : K → K → Bool) (key : V → K)

omit [LawfulNodeLayout N V] in
@[simp] theorem hintAt_views (q : Qtree) (hint : Option Nat) : hintAt m.views q hint = hintAt m q hint := by
  cases hint
  · rfl
  · exact iteratorAt_views m q _

theorem TreeOp.exec_views (pol : AllocPolicy) (q : Qtree) (op : TreeOp V K) :
    op.exec lt key pol m.views q = (op.exec lt key pol m q).map viewsFst := by
  cases op <;> simp [TreeOp.exec, Function.comp_def, viewsFst_eq, Option.map_bind, Option.bind_map]

end

section
variable {N K M : Type} [NodeLayout N (K × M)] [LawfulNodeLayout N (K × M)] (m : Mem N) (lt : K → K → Bool)

theorem MapOp.exec_views (dflt : M) (pol : AllocPolicy) (q : Qtree) (op : MapOp K M) :
    op.exec lt dflt pol m.views q = (op.exec lt dflt pol m q).map viewsFst := by
  cases op with
  | «at» k =>
      simp only [MapOp.exec, atKey_views]
      cases atKey lt m q k with
      | none => rfl
      | some found => cases found <;> rfl
  | tree op => simp [MapOp.exec, TreeOp.exec_views, viewsFst_eq, Option.map_bind, Option.bind_map, Function.comp_def]
  | _ => simp [MapOp.exec, Function.comp_def, viewsFst_eq, Option.map_bind, Option.bind_map]

end

section
variable {N V K O R : Type*} [NodeLayout N V]

/-- The same objects over the memory read through the accessors. -/
def World.views (w : World N) : World (Cell V) := ⟨w.mem.views, w.objs⟩

theorem Focus.views_iff (m : Mem N) (hdr : Ptr) (L : List (Item V)) (k : Path V) (t : Shape V) :
    Focus m.views hdr L k t ↔ Focus m hdr L k t :=
  ⟨fun h => ⟨h.sub, h.ctx, h.order, h.nodup, h.hdrNil⟩, fun h => ⟨h.sub, h.ctx, h.order, h.nodup, h.hdrNil⟩⟩

theorem represents_views (lt : K → K → Bool) (key : V → K) (m : Mem N) (q : Qtree) (T : Shape V) :
    Represents lt key m.views q T ↔ Represents lt key m q T := by
  refine or_congr_right ⟨fun h => ?_, fun h => ?_⟩
  · refine ⟨(Focus.views_iff m _ _ _ _).mp h.focus, fun d => ?_, h.headerBlack, h.count, h.balanced, h.sorted, h.nonnull,
      h.live⟩
    rw [← child_views]
    exact h.cache d
  · refine ⟨(Focus.views_iff m _ _ _ _).mpr h.focus, fun d => ?_, h.headerBlack, h.count, h.balanced, h.sorted,
      h.nonnull, h.live⟩
    rw [child_views]
    exact h.cache d

variable [LawfulNodeLayout N V] {I : ObjectInterface N V O R} {J : ObjectInterface (Cell V) V O R}

theorem step_views (hexec : ∀ op m q, J.exec op m.views q = (I.exec op m q).map viewsFst) (pol : AllocPolicy)
    (w : World N) (op : WorldOp O) :
    J.step pol w.views op = (I.step pol w op).map fun r => (r.1.views, r.2) := by
  cases op with
  | on i op =>
      simp only [ObjectInterface.step, World.views, hexec, Option.map_map]
      rfl
  | construct i =>
      simp only [ObjectInterface.step, World.views, destruct_views, Option.map_map]
      rfl
  | copyConstruct i j =>
      simp only [ObjectInterface.step, World.views, destruct_views]
      cases destruct w.mem (w.objs i) with
      | none => rfl
      | some m =>
          simp only [Option.map_some, copyConstruct_views, Option.map_map]
          rfl
  | moveConstruct i j =>
      simp only [ObjectInterface.step, World.views, destruct_views, Option.map_map]
      rfl
  | copyAssign i j =>
      by_cases hij : i = j
      · simp [ObjectInterface.step, hij]
      · simp only [ObjectInterface.step, World.views, if_neg hij, copyAssign_views, Option.map_map]
        rfl
  | moveAssign i j =>
      by_cases hij : i = j
      · simp [ObjectInterface.step, hij]
      · simp only [ObjectInterface.step, World.views, if_neg hij, moveAssign_views, Option.map_map]
        rfl
  | swap i j =>
      by_cases hij : i = j
      · simp [ObjectInterface.step, hij]
      · simp only [ObjectInterface.step, World.views, if_neg hij]
        rfl

theorem run_views (hexec : ∀ op m q, J.exec op m.views q = (I.exec op m q).map viewsFst) (pol : AllocPolicy)
    (w : World N) (ops : List (WorldOp O)) :
    J.run pol w.views ops = (I.run pol w ops).map fun r => (r.1.views, r.2) := by
  induction ops generalizing w with
  | nil => rfl
  | cons op ops ih =>
      rw [ObjectInterface.run, ObjectInterface.run, step_views hexec]
      cases I.step pol w op with
      | none => rfl
      | some r =>
          simp only [Option.map_some, ih, Option.map_map]
          rfl

end

end IdaSdk.QtreeDetail
