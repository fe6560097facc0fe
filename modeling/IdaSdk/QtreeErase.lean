import IdaSdk.QtreeEraseFixup
import IdaSdk.QtreeIterate

/-!
`transplant` and `erase_node`. Splicing a node out leaves the other items in order; `erase_fixup`
then restores the balance, and the cached ends are recomputed.
-/

namespace IdaSdk.QtreeDetail
open RedBlack RedBlack.Ctx SortedList
open RedBlack.ColorTree (branch branch_flip)

section
variable {N V : Type*} [NodeLayout N V]

variable (m : Mem N)

def transplant (hdr u v : Ptr) : Mem N :=
  let m := relink m hdr .left (m.parent u) u v (if m.isNil v then hdr else v)
  m.setParentUnlessNil v (m.parent u)

/-- The first half of case 3 of `erase_node`: takes the successor `y` out of the right subtree of `node`.
Returns the memory and the parent from which the fixup continues. -/
def detachSuccessor (hdr node y : Ptr) : Mem N × Ptr :=
  if m.parent y = node then
    (m, y)
  else
    let m := transplant m hdr y (m.right y)
    let m := m.setRight y (m.right node)
    let m := m.setParentUnlessNil (m.right y) y
    (m, m.parent y)

/-- The second half of case 3: `y` takes the place, the left subtree and the colour of `node`. -/
def replaceBySuccessor (hdr node y : Ptr) : Mem N :=
  let m := transplant m hdr node y
  let m := m.setLeft y (m.left node)
  let m := m.setParentUnlessNil (m.left y) y
  m.setColor y (m.color node)

/-- The three structural cases of `erase_node`. Returns the memory, `x`, `x_parent` and `original`. -/
def spliceOut (hdr node : Ptr) : Option (Mem N × Ptr × Ptr × Color) :=
  if m.isNil (m.left node) then
    some (transplant m hdr node (m.right node), m.right node, m.parent node, m.color node)
  else if m.isNil (m.right node) then
    some (transplant m hdr node (m.left node), m.left node, m.parent node, m.color node)
  else
    (minimum m (m.right node)).map fun y =>
      let (m', xParent) := detachSuccessor m hdr node y
      (replaceBySuccessor m' hdr node y, m.right y, xParent, m.color y)

/-- Refreshes the cached ends after a removal. -/
def refreshHeader (q : Qtree) : Option (Mem N) :=
  if q.nodeCount = 0 then
    some (initHeader m q.header)
  else
    match minimum m (m.parent q.header) with
    | none => none
    | some first =>
      let m := m.setLeft q.header first
      (maximum m (m.parent q.header)).map fun last => m.setRight q.header last

def eraseNode (q : Qtree) (node : Ptr) : Option (Mem N × Qtree) :=
  if node = nullptr then
    some (m, q)
  else
    match spliceOut m q.header node with
    | none => none
    | some (m, x, xParent, original) =>
      let m := nodeDelete (destroyValue m node) node
      let q' := { q with nodeCount := q.nodeCount - 1 }
      match if original = .black then eraseFixup m q.header x xParent else some m with
      | none => none
      | some m => (refreshHeader m q').map fun m => (m, q')

end

section
variable {N V : Type*} [NodeLayout N V] [LawfulNodeLayout N V] {m : Mem N} {hdr : Ptr} {L : List (Item V)}
  {k : Path V} {d : Side} {c : Color} {x y : Item V} {R : Shape V}

theorem transplant_spec {u parent : Ptr} (hk : CtxHolds m.view hdr k u) (hR : Holds m.view hdr parent R)
    (hu : m.parent u = ctxPtr hdr k) (hnil : (m.view hdr).isNil = true)
    (hsep : (hdr :: u :: (addrs R ++ ctxAddrs k)).Nodup) :
    CtxHolds (transplant m hdr u (ptrOf hdr R)).view hdr k (ptrOf hdr R) ∧
      Holds (transplant m hdr u (ptrOf hdr R)).view hdr (ctxPtr hdr k) R ∧
      SameOff hdr (addrs R ++ ctxAddrs k) m (transplant m hdr u (ptrOf hdr R)) := by
  simp only [List.nodup_cons, List.mem_cons, List.mem_append, not_or, List.nodup_append] at hsep
  obtain ⟨⟨hhu, hhR, hhk⟩, ⟨huR, huk⟩, hRnd, hknd, hRk⟩ := hsep
  have hroot : (if m.isNil (ptrOf hdr R) then hdr else ptrOf hdr R) = ptrOf hdr R := by
    cases R with
    | nil => split <;> rfl
    | node c l e r => simp [Mem.isNil_eq, ptrOf, hR.1]
  obtain ⟨hctx, hsame⟩ := @relink_spec _ _ _ _ _ _ _ .left _ (ptrOf hdr R) (ptrOf hdr R) hk
    (by simp [hhu, hhk, huk, hknd]) fun _ => rfl
  have hstep : transplant m hdr u (ptrOf hdr R) =
      (relink m hdr .left (ctxPtr hdr k) u (ptrOf hdr R) (ptrOf hdr R)).setParentUnlessNil (ptrOf hdr R)
        (ctxPtr hdr k) := by
    have hu' : (relink m hdr .left (ctxPtr hdr k) u (ptrOf hdr R) (ptrOf hdr R)).parent u = ctxPtr hdr k := by
      rw [Mem.parent_eq, hsame.off u huk (Ne.symm hhu), ← Mem.parent_eq, hu]
    simp only [transplant, hroot, hu, hu']
  generalize relink m hdr .left (ctxPtr hdr k) u (ptrOf hdr R) (ptrOf hdr R) = m₁ at *
  have hR₁ : Holds m₁.view hdr parent R := hR.congr fun a ha =>
    hsame.off a (fun hk => hRk _ ha _ hk rfl) (ne_of_mem_of_not_mem ha hhR)
  obtain ⟨hR₂, hlive, hoff⟩ := hR₁.setParentUnlessNil (ctxPtr hdr k) hRnd (by rw [hsame.isNil_header, hnil])
  rw [hstep]
  refine ⟨hctx.congr (by rw [hoff hdr hhR]) fun a ha => hoff a fun hR => hRk _ hR _ ha rfl, hR₂, ?_⟩
  refine ⟨by rw [hlive, hsame.live], by rw [hoff hdr hhR]; exact hsame.header, fun a ha hne => ?_⟩
  simp only [List.mem_append, not_or] at ha
  rw [hoff a ha.1, hsame.off a ha.2 hne]

theorem transplant_focus (hf : Focus m hdr L k (branch d c .nil x R)) :
    Focus (transplant m hdr x.addr (ptrOf hdr R)) hdr (before k ++ R.toList ++ after k) k R ∧
      SameOff hdr (addrs R ++ ctxAddrs k) m (transplant m hdr x.addr (ptrOf hdr R)) := by
  have hsep := hf.separated_branch
  rw [addrs_nil, List.nil_append] at hsep
  have hctx := hf.ctx
  rw [ptrOf_branch] at hctx
  obtain ⟨hctx', hR', hsame⟩ := transplant_spec hctx (holds_branch.mp hf.sub).2.2 hf.parent hf.hdrNil hsep
  refine ⟨⟨hR', hctx', toList_plug k R, ?_, hsame.isNil_header.trans hf.hdrNil⟩, hsame⟩
  have hsub : List.Sublist (before k ++ R.toList ++ after k) L := by
    rw [← hf.order, toList_plug]
    refine (List.Sublist.append_left ?_ _).append_right _
    cases d <;> simp
  exact List.Nodup.sublist ((hsub.map Item.addr).cons_cons hdr) hf.nodup

variable {cy : Color} {Lt : Shape V}

theorem replaceBySuccessor_spec {rx px : Ptr}
    (hx : m.view x.addr = Cell.material .left (ptrOf hdr Lt) rx (ctxPtr hdr k) c x.val)
    (hL : Holds m.view hdr x.addr Lt) (hy : Holds m.view hdr px (.node cy .nil y R))
    (hk : CtxHolds m.view hdr k x.addr) (hnil : (m.view hdr).isNil = true)
    (hsep : (hdr :: x.addr :: (addrs Lt ++ (y.addr :: addrs R ++ ctxAddrs k))).Nodup) :
    CtxHolds (replaceBySuccessor m hdr x.addr y.addr).view hdr k y.addr ∧
      Holds (replaceBySuccessor m hdr x.addr y.addr).view hdr (ctxPtr hdr k) (.node c Lt y R) ∧
      SameOff hdr (addrs Lt ++ (y.addr :: addrs R ++ ctxAddrs k)) m (replaceBySuccessor m hdr x.addr y.addr) := by
  simp only [List.nodup_cons, List.mem_cons, List.mem_append, not_or, List.nodup_append, List.cons_append] at hsep
  obtain ⟨⟨hhx, hhL, hhy, hhR, hhk⟩, ⟨hxL, hxy, hxR, hxk⟩, hLnd, ⟨⟨hyR, hyk⟩, hRnd, hknd, hRk⟩, hLd⟩ := hsep
  obtain ⟨hctx₁, hy₁, hsame₁⟩ := @transplant_spec _ _ _ _ _ _ _ (.node cy .nil y R) x.addr px hk hy
    (by simp [Mem.parent_eq, hx]) hnil (by
      simp only [addrs_node, addrs_nil, List.nil_append, List.nodup_cons, List.mem_cons, List.mem_append, not_or,
        List.nodup_append, List.cons_append]
      exact ⟨⟨hhx, hhy, hhR, hhk⟩, ⟨hxy, hxR, hxk⟩, ⟨hyR, hyk⟩, hRnd, hknd, hRk⟩)
  rw [show ptrOf hdr (.node cy .nil y R) = y.addr from rfl] at hctx₁ hy₁ hsame₁
  have hoff₁ : ∀ a, a ≠ hdr → a ≠ y.addr → a ∉ addrs R → a ∉ ctxAddrs k →
      (transplant m hdr x.addr y.addr).view a = m.view a := by
    intro a h₁ h₂ h₃ h₄
    refine hsame₁.off a ?_ h₁
    simp [h₂, h₃, h₄]
  generalize hm₁ : transplant m hdr x.addr y.addr = m₁ at *
  obtain ⟨hycell, -, hR₁⟩ := hy₁
  have hx₁ : m₁.view x.addr = Cell.material .left (ptrOf hdr Lt) rx (ctxPtr hdr k) c x.val := by
    rw [hoff₁ _ (Ne.symm hhx) hxy hxR hxk, hx]
  have hyL : y.addr ∉ addrs Lt := fun h => hLd _ h _ (.inl rfl) rfl
  -- the left subtree of `node` moves below `y`
  have hL₂ : Holds (m₁.setLeft y.addr (ptrOf hdr Lt)).view hdr x.addr Lt := hL.congr fun a ha => by
    have hay : a ≠ y.addr := ne_of_mem_of_not_mem ha hyL
    have haR : a ∉ addrs R := fun h => hLd _ ha _ (.inr (.inl h)) rfl
    have hak : a ∉ ctxAddrs k := fun h => hLd _ ha _ (.inr (.inr h)) rfl
    simp [hay, hoff₁ a (ne_of_mem_of_not_mem ha hhL) hay haR hak]
  obtain ⟨hL₃, hlive₃, hoff₃⟩ := hL₂.setParentUnlessNil y.addr hLnd (by
    simp [hhy, hsame₁.isNil_header, hnil])
  have hleft : m₁.left x.addr = ptrOf hdr Lt := by simp [Mem.left_eq, ← Cell.child_left, hx₁]
  have hleft₂ : (m₁.setLeft y.addr (ptrOf hdr Lt)).left y.addr = ptrOf hdr Lt := by
    simp [Mem.left_eq, ← Cell.child_left]
  have hcolor : ((m₁.setLeft y.addr (ptrOf hdr Lt)).setParentUnlessNil (ptrOf hdr Lt) y.addr).color x.addr = c := by
    rw [Mem.color_eq, hoff₃ _ hxL]
    simp [hxy, hx₁]
  have hstep : replaceBySuccessor m hdr x.addr y.addr =
      ((m₁.setLeft y.addr (ptrOf hdr Lt)).setParentUnlessNil (ptrOf hdr Lt) y.addr).setColor y.addr c := by
    simp only [replaceBySuccessor, hm₁, hleft, hleft₂, hcolor]
  have hoff : ∀ a, a ≠ y.addr → a ∉ addrs Lt → (replaceBySuccessor m hdr x.addr y.addr).view a = m₁.view a := by
    intro a ha haL
    rw [hstep, Mem.view_setColor, if_neg ha, hoff₃ a haL, Mem.view_setLeft, if_neg ha]
  refine ⟨hctx₁.congr (by rw [hoff hdr hhy hhL]) fun a ha => ?_, ⟨?_, ?_, ?_⟩, ?_, ?_, fun a ha hne => ?_⟩
  · exact hoff a (ne_of_mem_of_not_mem ha hyk) fun h => hLd _ h _ (.inr (.inr ha)) rfl
  · rw [hstep, Mem.view_setColor, if_pos rfl, hoff₃ _ hyL, Mem.view_setLeft, if_pos rfl, hycell]
    simp
  · refine hL₃.congr fun a ha => ?_
    rw [hstep, Mem.view_setColor, if_neg (ne_of_mem_of_not_mem ha hyL)]
  · exact hR₁.congr fun a ha => hoff a (ne_of_mem_of_not_mem ha hyR) fun h => hLd _ h _ (.inr (.inl ha)) rfl
  · rw [hstep, Mem.live_setColor, hlive₃, Mem.live_setLeft, hsame₁.live]
  · rw [hoff hdr hhy hhL]
    exact hsame₁.header
  · simp only [List.mem_append, List.mem_cons, List.cons_append, not_or] at ha
    rw [hoff a ha.2.1 ha.1, hoff₁ a hne ha.2.1 ha.2.2.1 ha.2.2.2]

/-- The first half of case 3, with the successor `y` at the end of `ky` in the right subtree. -/
theorem detachSuccessor_spec {Yr : Shape V} {ky : Path V}
    (hf : Focus m hdr L (ky ++ ⟨.right, c, x, Lt⟩ :: k) (.node cy .nil y Yr)) :
    ∃ m' rx py, detachSuccessor m hdr x.addr y.addr = (m', ctxPtr hdr (ky ++ ⟨.right, c, y, Lt⟩ :: k)) ∧
      m'.view x.addr = Cell.material .left (ptrOf hdr Lt) rx (ctxPtr hdr k) c x.val ∧
      Holds m'.view hdr x.addr Lt ∧ Holds m'.view hdr py (.node cy .nil y (plug ky Yr)) ∧
      CtxHolds m'.view hdr k x.addr ∧ SameOff hdr (L.map Item.addr) m m' := by
  have hnode : Focus m hdr L (ky ++ ⟨.right, c, x, Lt⟩ :: k) (branch .left cy .nil y Yr) := hf
  have hparent := hnode.parent
  cases ky with
  | nil =>
      have hx := hf.ctx
      refine ⟨m, y.addr, x.addr, ?_, hx.1, hx.2.1, hf.sub, hx.2.2, SameOff.refl _ _ _⟩
      rw [detachSuccessor, hparent]
      exact if_pos rfl
  | cons f ky =>
      have hsep := hnode.separated_branch
      rw [addrs_nil, List.nil_append] at hsep
      simp only [List.nodup_cons, List.mem_cons, not_or] at hsep
      obtain ⟨⟨hhy, -⟩, hyoff, -⟩ := hsep
      have hright : m.right y.addr = ptrOf hdr Yr := hnode.child_flip
      have hfx : f.entry.addr ≠ x.addr := by
        have hsepf := hf.separated
        simp only [List.cons_append, ctxAddrs_cons, List.nodup_cons, List.nodup_append, List.mem_append,
          not_or] at hsepf
        have hxmem : x.addr ∈ ctxAddrs (ky ++ (⟨.right, c, x, Lt⟩ : Frame (Item V)) :: k) :=
          mem_ctxAddrs_append ky _ k
        exact fun h => hsepf.2.2.1.1.2 (h ▸ hxmem)
      obtain ⟨hf₁, hsame₁⟩ := transplant_focus hnode
      generalize hm₁ : transplant m hdr y.addr (ptrOf hdr Yr) = m₁ at hf₁ hsame₁
      have hy₁ : m₁.view y.addr =
          Cell.material .left hdr (ptrOf hdr Yr) (ctxPtr hdr ((f :: ky) ++ ⟨.right, c, x, Lt⟩ :: k)) cy y.val := by
        rw [hsame₁.off _ hyoff (Ne.symm hhy)]
        exact hnode.cell
      have hyL₁ := mt hf₁.mem_order.mp (by simpa using hyoff)
      have hx₁ := hf₁.upTo
      obtain ⟨hxcell, hLt, hk⟩ := hx₁.ctx
      have hsepx := hx₁.separated
      simp only [ctxAddrs_cons, List.nodup_cons, List.mem_cons, List.mem_append, not_or, List.nodup_append] at hsepx
      obtain ⟨⟨hhR, hhx, -, -⟩, hRnd, -, hRx⟩ := hsepx
      have hxR : x.addr ∉ addrs (plug (f :: ky) Yr) := fun h => hRx _ h _ (.inl rfl) rfl
      have hyx : x.addr ≠ y.addr := fun h => hyL₁ (h ▸ hx₁.mem_order.mpr (.inr (by simp)))
      have hyR : y.addr ∉ addrs (plug (f :: ky) Yr) := fun h => hyL₁ (hx₁.mem_order.mpr (.inl h))
      have hyk : ∀ a ∈ ctxAddrs ((⟨.right, c, x, Lt⟩ : Frame (Item V)) :: k), a ≠ y.addr :=
        fun a ha h => hyL₁ (h ▸ hx₁.mem_order.mpr (.inr ha))
      have hright₁ : m₁.right x.addr = ptrOf hdr (plug (f :: ky) Yr) := by
        simp [Mem.right_eq, ← Cell.child_right, hxcell]
      -- the right subtree of `node` moves below `y`
      have hR₂ : Holds (m₁.setRight y.addr (ptrOf hdr (plug (f :: ky) Yr))).view hdr x.addr (plug (f :: ky) Yr) :=
        Holds.congr hx₁.sub fun a ha => by simp [ne_of_mem_of_not_mem ha hyR]
      obtain ⟨hR₃, hlive₃, hoff₃⟩ := hR₂.setParentUnlessNil y.addr hRnd (by simp [hhy, hf₁.hdrNil])
      have hright₂ : (m₁.setRight y.addr (ptrOf hdr (plug (f :: ky) Yr))).right y.addr =
          ptrOf hdr (plug (f :: ky) Yr) := by
        simp [Mem.right_eq, ← Cell.child_right]
      generalize hm₃ : (m₁.setRight y.addr (ptrOf hdr (plug (f :: ky) Yr))).setParentUnlessNil
        (ptrOf hdr (plug (f :: ky) Yr)) y.addr = m₃ at hR₃ hlive₃ hoff₃
      have hy₃ : m₃.view y.addr = Cell.material .left hdr (ptrOf hdr (plug (f :: ky) Yr)) f.entry.addr cy y.val := by
        rw [hoff₃ _ hyR, Mem.view_setRight, if_pos rfl, hy₁]
        rfl
      have hoff : ∀ a, a ≠ y.addr → a ∉ addrs (plug (f :: ky) Yr) → m₃.view a = m₁.view a := by
        intro a ha haR
        rw [hoff₃ a haR, Mem.view_setRight, if_neg ha]
      have hhdr : m₃.view hdr = m₁.view hdr := hoff hdr hhy hhR
      have hRx' : ∀ a ∈ ctxAddrs ((⟨.right, c, x, Lt⟩ : Frame (Item V)) :: k), m₃.view a = m₁.view a :=
        fun a ha => hoff a (hyk a ha) fun h => hRx _ h _ (by simpa using ha) rfl
      refine ⟨m₃, ptrOf hdr (plug (f :: ky) Yr), f.entry.addr, ?_, ?_, ?_, ⟨hy₃, trivial, hR₃⟩, ?_, ?_⟩
      · have hpar₃ : m₃.parent y.addr = f.entry.addr := by simp [Mem.parent_eq, hy₃]
        rw [detachSuccessor, hparent]
        refine (if_neg hfx).trans ?_
        simp only [hright, hm₁, hright₁, hright₂, hm₃, hpar₃]
        rfl
      · rw [hRx' x.addr (by simp)]
        exact hxcell
      · exact hLt.congr fun a ha => hRx' a (by simp [ha])
      · exact hk.congr (by rw [hhdr]) fun a ha => hRx' a (by simp [ha])
      · have hsame : SameOff hdr (L.map Item.addr) m m₁ := hsame₁.mono fun a ha =>
          hnode.mem_order.mpr ((List.mem_append.mp ha).imp_left fun h => by simp [h])
        refine hsame.trans ⟨hlive₃, ?_, fun a ha hne => ?_⟩
        · rw [hhdr]
          rfl
        rw [hf.mem_order] at ha
        refine hoff a (fun h => ha (.inl (by simp [h]))) fun h => ha ?_
        rcases hf₁.mem_order.mp (hx₁.mem_order.mpr (.inl h)) with h | h
        · exact .inl (by simp [h])
        · exact .inr h

theorem spliceOut_two_children {Yr : Shape V} {ky : Path V}
    (hf : Focus m hdr L (ky ++ ⟨.right, c, x, Lt⟩ :: k) (.node cy .nil y Yr)) (hky : before ky = []) :
    ∃ m', detachSuccessor m hdr x.addr y.addr = (m', ctxPtr hdr (ky ++ ⟨.right, c, y, Lt⟩ :: k)) ∧
      Focus (replaceBySuccessor m' hdr x.addr y.addr) hdr
        (before k ++ Lt.toList ++ (plug ky (.node cy .nil y Yr)).toList ++ after k)
        (ky ++ ⟨.right, c, y, Lt⟩ :: k) Yr ∧
      SameOff hdr (L.map Item.addr) m (replaceBySuccessor m' hdr x.addr y.addr) := by
  obtain ⟨m', rx, py, hrun, hx, hLt, hy, hk, hsame⟩ := detachSuccessor_spec hf
  have hsep := hf.upTo.up.separated_branch
  have hnode : Focus m hdr L k (.node c Lt x (plug ky (.node cy .nil y Yr))) := hf.upTo.up
  have hperm : (addrs (plug ky (.node cy .nil y Yr))).Perm (y.addr :: addrs (plug ky Yr)) := by
    refine (addrs_plug_perm _ _).trans ?_
    simpa using ((addrs_plug_perm ky Yr).cons y.addr).symm
  have hsep' : (hdr :: x.addr :: (addrs Lt ++ (y.addr :: addrs (plug ky Yr) ++ ctxAddrs k))).Nodup := by
    refine (List.Perm.nodup_iff ?_).mp hsep
    refine (List.Perm.cons _ (List.Perm.cons _ ?_))
    rw [← List.append_assoc, ← List.append_assoc]
    exact ((List.perm_append_comm.trans (hperm.append_left _))).append_right _
  obtain ⟨hctx, hsub, hsame'⟩ := replaceBySuccessor_spec hx hLt hy hk (hsame.isNil_header.trans hf.hdrNil) hsep'
  have hmono : ∀ a ∈ addrs Lt ++ (y.addr :: addrs (plug ky Yr) ++ ctxAddrs k), a ∈ L.map Item.addr := by
    intro a ha
    rw [hnode.mem_order]
    simp only [List.mem_append, List.mem_cons, addrs_node] at ha ⊢
    rcases ha with ha | (ha | ha) | ha
    · exact .inl (.inl ha)
    · exact .inl (.inr (.inr (hperm.mem_iff.mpr (by simp [ha]))))
    · exact .inl (.inr (.inr (hperm.mem_iff.mpr (by simp [ha]))))
    · exact .inr ha
  have hlist : (plug k (.node c Lt y (plug ky Yr))).toList =
      before k ++ Lt.toList ++ (plug ky (.node cy .nil y Yr)).toList ++ after k := by
    simp [toList_plug, hky]
  have hsubl : List.Sublist ((plug k (.node c Lt y (plug ky Yr))).toList) L := by
    rw [hlist, ← hnode.order, toList_plug k (.node c Lt x _)]
    simp
  have hfocus : Focus (replaceBySuccessor m' hdr x.addr y.addr) hdr
      (before k ++ Lt.toList ++ (plug ky (.node cy .nil y Yr)).toList ++ after k) k
      (branch .right c (plug ky Yr) y Lt) := by
    refine ⟨hsub, hctx, hlist, ?_, (hsame.trans (hsame'.mono hmono)).isNil_header.trans hf.hdrNil⟩
    rw [← hlist]
    exact List.Nodup.sublist ((hsubl.map Item.addr).cons_cons hdr) hf.nodup
  exact ⟨m', hrun, hfocus.down.fromRoot, hsame.trans (hsame'.mono hmono)⟩

theorem spliceOut_spec {l r : Shape V} {n : Nat} (hf : Focus m hdr L k (.node c l x r))
    (hlive : ∀ a ∈ hdr :: L.map Item.addr, a ∈ m.live) (hbal : Bal (plug k (.node c l x r)) .black n) :
    ∃ m' k' t' original, spliceOut m hdr x.addr = some (m', ptrOf hdr t', ctxPtr hdr k', original) ∧
      Focus m' hdr (before k ++ l.toList ++ r.toList ++ after k) k' t' ∧ Short original k' t' ∧
      SameOff hdr (L.map Item.addr) m m' := by
  have hnode : Focus m hdr L k (branch .left c l x r) := hf
  have hleft : m.left x.addr = ptrOf hdr l := hnode.child
  have hright : m.right x.addr = ptrOf hdr r := hnode.child_flip
  have hparent := hnode.parent
  have hcolor := hnode.color
  have hnilL := hnode.down.isNil_ptrOf
  have hnilR := hnode.down.across.isNil_ptrOf
  rw [spliceOut, hleft, hright]
  by_cases hl : l = .nil
  · subst hl
    obtain ⟨hf', hsame⟩ := transplant_focus hnode
    refine ⟨_, k, r, c, ?_, by simpa using hf', Bal.short (show Bal (plug k (branch .left c .nil x r)) _ _ from hbal),
      hsame.mono fun a ha => hnode.mem_order.mpr ((List.mem_append.mp ha).imp_left fun h => by simp [h])⟩
    rw [if_pos (hnilL.mpr rfl), hparent, hcolor]
  · by_cases hr : r = .nil
    · subst hr
      have hnode' : Focus m hdr L k (branch .right c .nil x l) := hf
      obtain ⟨hf', hsame⟩ := transplant_focus hnode'
      refine ⟨_, k, l, c, ?_, by simpa using hf',
        Bal.short (show Bal (plug k (branch .right c .nil x l)) _ _ from hbal),
        hsame.mono fun a ha => hnode'.mem_order.mpr ((List.mem_append.mp ha).imp_left fun h => by simp [h])⟩
      rw [if_neg (mt hnilL.mp hl), if_pos (hnilR.mpr rfl), hparent, hcolor]
    · have hdown : Focus m hdr L (⟨.right, c, x, l⟩ :: k) r := hnode.down.across
      obtain ⟨ky, cy, y, Yr, hplug, hside, hrun⟩ :=
        extremumLoop_spec .left (m.live.length + 1) hdown hr (by have := hdown.size_lt hlive; omega)
      subst hplug
      have hky : before ky = [] := before_eq_nil_of_left ky hside
      have hy := hdown.fromRoot
      obtain ⟨m', hdet, hf', hsame⟩ := spliceOut_two_children hy hky
      have hyright : m.right y.addr = ptrOf hdr Yr :=
        (show Focus m hdr L _ (branch .left cy .nil y Yr) from hy).child_flip
      have hycolor : m.color y.addr = cy := (show Focus m hdr L _ (branch .left cy .nil y Yr) from hy).color
      have hmin : minimum m (ptrOf hdr (plug ky (branch .left cy .nil y Yr))) = some y.addr := by
        rw [minimum, extremum, if_neg (mt hnilR.mp hr), hrun]
      have hshort : Short cy (ky ++ ⟨.right, c, x, l⟩ :: k) Yr := by
        refine Bal.short (show Bal (plug _ (branch .left cy .nil y Yr)) .black n from ?_)
        rw [plug_append]
        exact hbal
      refine ⟨_, _, Yr, cy, ?_, hf', hshort.replace_entry, hsame⟩
      rw [if_neg (mt hnilL.mp hl), if_neg (mt hnilR.mp hr), hmin]
      simp only [Option.map_some, hdet, hyright, hycolor]

theorem refreshHeader_spec {q : Qtree} {T : Shape V} (hf : Focus m q.header L [] T)
    (hlive : ∀ a ∈ q.header :: L.map Item.addr, a ∈ m.live) (hblack : m.color q.header = .black)
    (hcount : q.nodeCount = L.length) :
    ∃ m', refreshHeader m q = some m' ∧ Focus m' q.header L [] T ∧
      (∀ d, m'.child d q.header = endPtr q.header d L) ∧ m'.color q.header = .black ∧ m'.live = m.live ∧
      ∀ a, a ≠ q.header → m'.view a = m.view a := by
  cases L with
  | nil =>
      obtain ⟨hf', hcache, hcolor, hlive', hoff⟩ := initHeader_spec hf
      exact ⟨_, if_pos hcount, hf', hcache, hcolor, hlive', hoff⟩
  | cons x L =>
      have hne : q.nodeCount ≠ 0 := by simp [hcount]
      have hT : T ≠ .nil := by
        rintro rfl
        exact absurd hf.order (by simp)
      have horder : T.toList = x :: L := hf.order
      have hroot : m.parent q.header = ptrOf q.header T := hf.ctx
      have hmin : minimum m (ptrOf q.header T) = some (endPtr q.header .left (x :: L)) := by
        rw [minimum, extremum_spec .left hf hT hlive, horder]
      have hhdr : ∀ a ∈ (x :: L).map Item.addr, a ≠ q.header :=
        fun a ha => ne_of_mem_of_not_mem ha (List.nodup_cons.mp hf.nodup).1
      have hf₁ : Focus (m.setLeft q.header (endPtr q.header .left (x :: L))) q.header (x :: L) [] T :=
        hf.congr (fun a ha => by simp [hhdr a ha]) (by simp) (by simp)
      have hroot₁ : (m.setLeft q.header (endPtr q.header .left (x :: L))).parent q.header = ptrOf q.header T :=
        hf₁.ctx
      have hmax : maximum (m.setLeft q.header (endPtr q.header .left (x :: L))) (ptrOf q.header T) =
          some (endPtr q.header .right (x :: L)) := by
        rw [maximum, extremum_spec .right hf₁ hT hlive, horder]
      refine ⟨(m.setLeft q.header (endPtr q.header .left (x :: L))).setRight q.header
        (endPtr q.header .right (x :: L)), ?_, ?_, fun d => ?_, ?_, rfl, fun a ha => by simp [ha]⟩
      · simp only [refreshHeader, if_neg hne, hroot, hmin, hroot₁, hmax, Option.map_some]
      · exact hf₁.congr (fun a ha => by simp [hhdr a ha]) (by simp) (by simp)
      · cases d <;> simp [Mem.child_eq, Cell.withChild]
      · rw [Mem.color_eq] at hblack ⊢
        simp [hblack]

section
variable {K : Type*} {lt : K → K → Bool} {key : V → K} {q : Qtree}

variable {l r : Shape V}

omit [LawfulNodeLayout N V] in
theorem mem_addrs_remove (hf : Focus m hdr (plug k (.node c l x r)).toList k (.node c l x r)) :
    (∀ a, a ∈ addrs (plug k (.node c l x r)) ↔
      a = x.addr ∨ a ∈ (before k ++ l.toList ++ r.toList ++ after k).map Item.addr) ∧
    x.addr ∉ hdr :: (before k ++ l.toList ++ r.toList ++ after k).map Item.addr := by
  have hperm : (plug k (.node c l x r)).toList.Perm (x :: (before k ++ l.toList ++ r.toList ++ after k)) := by
    rw [toList_plug, ColorTree.toList_node, ← List.append_assoc, List.append_assoc _ _ (after k),
      List.append_assoc _ _ (after k)]
    exact List.perm_middle
  have hmem : ∀ a, a ∈ addrs (plug k (.node c l x r)) ↔
      a = x.addr ∨ a ∈ (before k ++ l.toList ++ r.toList ++ after k).map Item.addr := by
    intro a
    rw [addrs, (hperm.map Item.addr).mem_iff, List.map_cons, List.mem_cons]
  have hnd := List.nodup_cons.mp hf.nodup
  have hxhdr : x.addr ≠ hdr := fun he => hnd.1 (he ▸ (hmem _).mpr (.inl rfl))
  have hrest := (hperm.map Item.addr).nodup_iff.mp hnd.2
  rw [List.map_cons, List.nodup_cons] at hrest
  exact ⟨hmem, by simpa [hxhdr] using hrest.1⟩

theorem spliceOut_delete_spec (h : RedBlackTree lt key m q (plug k (.node c l x r))) :
    ∃ m₁ k₁ t₁ original, spliceOut m q.header x.addr = some (m₁, ptrOf q.header t₁, ctxPtr q.header k₁, original) ∧
      Focus (nodeDelete (destroyValue m₁ x.addr) x.addr) q.header (before k ++ l.toList ++ r.toList ++ after k) k₁ t₁ ∧
      Short original k₁ t₁ ∧ (nodeDelete (destroyValue m₁ x.addr) x.addr).color q.header = .black ∧
      (∀ a, a ∈ (nodeDelete (destroyValue m₁ x.addr) x.addr).live ↔ a ∈ m.live ∧ a ≠ x.addr) ∧
      ∀ a, a ∉ q.header :: addrs (plug k (.node c l x r)) →
        (nodeDelete (destroyValue m₁ x.addr) x.addr).view a = m.view a := by
  have hf : Focus m q.header (plug k (.node c l x r)).toList k (.node c l x r) := by
    simpa using h.focus.fromRoot
  obtain ⟨hmem, hx⟩ := mem_addrs_remove hf
  have hxmem : x.addr ∈ addrs (plug k (.node c l x r)) := (hmem _).mpr (.inl rfl)
  have hx0 : x.addr ≠ nullptr := h.nonnull _ (List.mem_cons_of_mem _ hxmem)
  simp only [List.mem_cons, not_or] at hx
  obtain ⟨n, hbal⟩ := h.balanced
  obtain ⟨m₁, k₁, t₁, original, hrun, hf₁, hshort, hsame₁⟩ := spliceOut_spec hf h.live hbal
  have hview : ∀ a, a ≠ x.addr → (nodeDelete (destroyValue m₁ x.addr) x.addr).view a = m₁.view a := by
    intro a ha
    rw [view_nodeDelete, view_destroyValue m₁ ha]
  have hhdr := hview q.header (Ne.symm hx.1)
  refine ⟨m₁, k₁, t₁, original, hrun, ?_, hshort, ?_, fun a => ?_, fun a ha => ?_⟩
  · exact hf₁.congr (fun a ha => hview a (ne_of_mem_of_not_mem ha hx.2)) (by rw [hhdr]) (by rw [hhdr])
  · rw [Mem.color_eq, hhdr, ← Mem.color_eq, hsame₁.color_header, h.headerBlack]
  · rw [mem_live_nodeDelete _ hx0, live_destroyValue, hsame₁.live]
  · simp only [List.mem_cons, not_or] at ha
    rw [hview a (fun he => ha.2 (he ▸ hxmem)), hsame₁.off a ha.2 ha.1]

theorem eraseNode_spec (h : RedBlackTree lt key m q (plug k (.node c l x r))) :
    ∃ m' T', eraseNode m q x.addr = some (m', { q with nodeCount := q.nodeCount - 1 }) ∧
      RedBlackTree lt key m' { q with nodeCount := q.nodeCount - 1 } T' ∧
      T'.toList = before k ++ l.toList ++ r.toList ++ after k ∧
      Evolves m m' (q.header :: addrs (plug k (.node c l x r))) (q.header :: addrs T') := by
  have hf : Focus m q.header (plug k (.node c l x r)).toList k (.node c l x r) := by
    simpa using h.focus.fromRoot
  obtain ⟨hmem, hx⟩ := mem_addrs_remove hf
  have hxmem : x.addr ∈ addrs (plug k (.node c l x r)) := (hmem _).mpr (.inl rfl)
  have hx0 : x.addr ≠ nullptr := h.nonnull _ (List.mem_cons_of_mem _ hxmem)
  obtain ⟨m₁, k₁, t₁, original, hrun, hf₂, hshort, hblack₂, hlive₂, hoff₂⟩ := spliceOut_delete_spec h
  generalize hm₂ : nodeDelete (destroyValue m₁ x.addr) x.addr = m₂ at hf₂ hblack₂ hlive₂ hoff₂
  have hL : (plug k (.node c l x r)).toList = before k ++ l.toList ++ x :: (r.toList ++ after k) := by
    simp [toList_plug]
  have hcount' : (before k ++ l.toList ++ r.toList ++ after k).length + 1 = q.nodeCount := by
    rw [h.count, ← ColorTree.length_toList, hL]
    simp only [List.length_append, List.length_cons]
    omega
  have hsorted : SortedBy lt key ((before k ++ l.toList ++ r.toList ++ after k).map Item.val) := by
    have hs := h.sorted
    rw [hL, List.map_append, List.map_cons] at hs
    simpa using hs.remove
  generalize before k ++ l.toList ++ r.toList ++ after k = L' at *
  have hcells : ∀ a ∈ q.header :: L'.map Item.addr, a ∈ q.header :: addrs (plug k (.node c l x r)) ∧ a ≠ x.addr :=
    fun a ha => ⟨(List.mem_cons.mp ha).elim (fun he => he ▸ List.mem_cons_self ..) fun ha =>
      List.mem_cons_of_mem _ ((hmem a).mpr (.inr ha)), ne_of_mem_of_not_mem ha hx⟩
  have hlive' : ∀ a ∈ q.header :: L'.map Item.addr, a ∈ m₂.live :=
    fun a ha => (hlive₂ a).mpr ⟨h.live a (hcells a ha).1, (hcells a ha).2⟩
  obtain ⟨m₃, T', hfix, hf₃, hbal₃, hsame₃⟩ : ∃ m₃ T',
      (if original = .black then eraseFixup m₂ q.header (ptrOf q.header t₁) (ctxPtr q.header k₁) else some m₂) = some m₃ ∧
        Focus m₃ q.header L' [] T' ∧ (∃ n', Bal T' .black n') ∧ SameOff q.header (L'.map Item.addr) m₂ m₃ := by
    cases original with
    | black =>
        obtain ⟨c', n', ht, hk⟩ := hshort
        exact eraseFixup_spec hlive' hf₂ ht hk
    | red =>
        obtain ⟨n', ht, hk⟩ := hshort
        exact ⟨m₂, _, rfl, hf₂.toRoot, hk.plug ht, SameOff.refl _ _ _⟩
  have hcount : q.nodeCount - 1 = L'.length := by omega
  obtain ⟨m₄, hrefresh, hf₄, hcache, hblack, hlive₄, hoff₄⟩ :=
    @refreshHeader_spec _ _ _ _ _ _ { q with nodeCount := q.nodeCount - 1 } T' hf₃
      (fun a ha => hsame₃.live ▸ hlive' a ha) (hsame₃.color_header.trans hblack₂) hcount
  have horder : T'.toList = L' := hf₄.order
  refine ⟨m₄, T', ?_, RedBlackTree.of_focus hf₄ hcache hblack hcount hbal₃ (horder ▸ hsorted) fun a ha => ⟨?_, ?_⟩,
    horder, fun a ha haF => ⟨?_, ?_⟩, fun a ha => .inl ?_⟩
  · simp only [eraseNode, if_neg hx0, hrun, hm₂, hfix, hrefresh, Option.map_some]
  · exact h.nonnull a (hcells a ha).1
  · rw [hlive₄, hsame₃.live]
    exact hlive' a ha
  · rw [hlive₄, hsame₃.live]
    exact (hlive₂ a).mpr ⟨ha, fun he => haF (he ▸ List.mem_cons_of_mem _ hxmem)⟩
  · have hoff := hoff₂ a haF
    simp only [List.mem_cons, not_or] at haF
    rw [hoff₄ a haF.1, hsame₃.off a (fun hm => haF.2 ((hmem a).mpr (.inr hm))) haF.1, hoff]
  · rw [addrs, horder] at ha
    exact (hcells a ha).1

end

end

end IdaSdk.QtreeDetail
