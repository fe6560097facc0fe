import IdaSdk.QtreeShape

/-!
Rotations and single-node colour changes. `rotate_left` and `rotate_right` are mirror images, so
both are `rotate` applied to a direction; `relink` is the part of a rotation, and of `transplant`,
that hangs another node below the parent of a node.
-/

namespace IdaSdk.QtreeDetail
open RedBlack RedBlack.ColorTree RedBlack.Ctx

section
variable {N V : Type*} [NodeLayout N V]

variable (m : Mem N)

/-- Replaces `u` by `v` below `par`, testing the child of `par` on side `d` first; `root` is the new
root when `par` is the header. -/
def relink (hdr : Ptr) (d : Side) (par u v root : Ptr) : Mem N :=
  if par = hdr then
    m.setParent hdr root
  else if u = m.child d par then
    m.setChild d par v
  else
    m.setChild d.flip par v

/-- `node` moves down to side `d` and its other child takes its place. -/
def rotate (d : Side) (m : Mem N) (hdr node : Ptr) : Option (Mem N) :=
  let pivot := m.child d.flip node
  if m.isNil pivot then
    none
  else
    let inner := m.child d pivot
    let m := m.setChild d.flip node inner
    let m := m.setParentUnlessNil inner node
    let m := m.setParent pivot (m.parent node)
    let m := relink m hdr d (m.parent node) node pivot pivot
    let m := m.setChild d pivot node
    some (m.setParent node pivot)

def rotateLeft (hdr node : Ptr) : Option (Mem N) := rotate .left m hdr node

def rotateRight (hdr node : Ptr) : Option (Mem N) := rotate .right m hdr node

end

section
variable {N V : Type*} [NodeLayout N V] [LawfulNodeLayout N V] {m : Mem N} {hdr : Ptr}
  {L : List (Item V)} {k : Path V} {s t : Shape V} {d : Side} {c : Color} {e : Item V}

omit [LawfulNodeLayout N V] in
@[simp] theorem live_relink (d : Side) (par u v root : Ptr) :
    (relink m hdr d par u v root).live = m.live := by
  unfold relink
  split
  · simp
  · split <;> simp

theorem relink_spec {u v root : Ptr} (hk : CtxHolds m.view hdr k u)
    (hnd : (hdr :: u :: ctxAddrs k).Nodup) (hroot : k = [] → root = v) :
    CtxHolds (relink m hdr d (ctxPtr hdr k) u v root).view hdr k v ∧
      SameOff hdr (ctxAddrs k) m (relink m hdr d (ctxPtr hdr k) u v root) := by
  cases k with
  | nil =>
      have hv := hroot rfl
      simp only [relink, ctxPtr_nil, if_true, CtxHolds]
      refine ⟨by simp [hv], by simp, by simp, fun a _ ha => by simp [ha]⟩
  | cons f k =>
      obtain ⟨side, color, e, s⟩ := f
      obtain ⟨hcell, hs, hk⟩ := hk
      simp only [ctxAddrs_cons, List.nodup_cons, List.mem_cons, List.mem_append, not_or] at hnd
      obtain ⟨⟨hhu, hhe, hhs, hhk⟩, ⟨hue, hus, huk⟩, ⟨hes, hek⟩, -⟩ := hnd
      have husib : u ≠ ptrOf hdr s := by
        rcases ptrOf_mem_or hdr s with hmem | rfl
        · exact fun h => hus (h ▸ hmem)
        · exact fun h => hhu h.symm
      have hedge : (relink m hdr d e.addr u v root) = m.setChild side e.addr v := by
        rw [relink, if_neg (Ne.symm hhe), Mem.child_eq, hcell]
        cases d <;> cases side <;> simp [Cell.material, Cell.child, husib]
      simp only [ctxPtr_cons, hedge]
      refine ⟨⟨by simp [hcell], hs.congr fun a ha => ?_, hk.congr ?_ fun a ha => ?_⟩, ?_⟩
      · simp [show a ≠ e.addr from fun h => hes (h ▸ ha)]
      · simp [hhe]
      · simp [show a ≠ e.addr from fun h => hek (h ▸ ha)]
      · refine SameOff.of_view (by simp) (by simp [hhe]) fun a ha => ?_
        simp only [ctxAddrs_cons, List.mem_cons, not_or] at ha
        simp [ha.1]

/-- A rotation keeps the items in order; both nodes keep their colours. -/
theorem Focus.rotate {A B C : Shape V} {x y : Item V} {cx cy : Color}
    (hf : Focus m hdr L k (branch d cx A x (branch d cy B y C))) :
    ∃ m', rotate d m hdr x.addr = some m' ∧
      Focus m' hdr L k (branch d cy (branch d cx A x B) y C) ∧ SameOff hdr (L.map Item.addr) m m' := by
  obtain ⟨hx, hA, hyBC⟩ := holds_branch.mp hf.sub
  obtain ⟨hy, hB, hC⟩ := holds_branch.mp hyBC
  have hctx := hf.ctx
  have hmem : ∀ a, a ∈ L.map Item.addr ↔ a ∈ addrs (branch d cx A x (branch d cy B y C)) ∨ a ∈ ctxAddrs k :=
    fun a => hf.mem_order
  have hsep := hf.separated_branch
  simp only [List.nodup_cons, List.mem_cons, List.mem_append, not_or, List.nodup_append,
    nodup_addrs_branch, mem_addrs_branch] at hsep hmem
  obtain ⟨⟨hhx, hhA, ⟨hhy, hhB, hhC⟩, hhk⟩, ⟨hxA, ⟨hxy, hxB, hxC⟩, hxk⟩, -, ⟨⟨⟨hyB, hyC⟩, hBnd, -, hBC⟩,
    hknd, hdisj⟩, hAdisj⟩ := hsep
  simp only [ptrOf_branch] at hx hctx
  have hinner : m.child d y.addr = ptrOf hdr B := by simp [Mem.child_eq, hy]
  have hpivot : m.child d.flip x.addr = y.addr := by simp [Mem.child_eq, hx]
  have hnil : m.isNil y.addr = false := by simp [Mem.isNil_eq, hy]
  -- the inner subtree changes its parent
  have hB₁ : Holds (m.setChild d.flip x.addr (ptrOf hdr B)).view hdr y.addr B :=
    hB.congr fun a ha => by simp [ne_of_mem_of_not_mem ha hxB]
  obtain ⟨hB₂, hlive₂, hoff₂⟩ := hB₁.setParentUnlessNil x.addr hBnd (by simp [hhx, hf.hdrNil])
  generalize hm₂ : (m.setChild d.flip x.addr (ptrOf hdr B)).setParentUnlessNil (ptrOf hdr B) x.addr = m₂
    at hB₂ hlive₂ hoff₂
  have hx₂ : m₂.view x.addr = Cell.material d (ptrOf hdr A) (ptrOf hdr B) (ctxPtr hdr k) cx x.val := by
    rw [hoff₂ _ hxB]
    simp [hx]
  have hoff₂' : ∀ a, a ≠ x.addr → a ∉ addrs B → m₂.view a = m.view a := by
    intro a ha haB
    rw [hoff₂ a haB]
    simp [ha]
  -- the parent of `x` now leads to `y`
  have hctx₃ : CtxHolds (m₂.setParent y.addr (ctxPtr hdr k)).view hdr k x.addr := by
    refine hctx.congr ?_ fun a ha => ?_
    · simp [hhy, hoff₂' hdr hhx hhB]
    · have hay : a ≠ y.addr := (hdisj _ (.inl rfl) _ ha).symm
      have haB : a ∉ addrs B := fun hB => hdisj _ (.inr (.inl hB)) _ ha rfl
      simp [hay, hoff₂' a (ne_of_mem_of_not_mem ha hxk) haB]
  have hk₃ : (hdr :: x.addr :: ctxAddrs k).Nodup := by simp [hhx, hhk, hxk, hknd]
  obtain ⟨hctx₄, hsame⟩ := @relink_spec _ _ _ _ _ _ _ d _ y.addr y.addr hctx₃ hk₃ fun _ => rfl
  generalize hm₄ : relink (m₂.setParent y.addr (ctxPtr hdr k)) hdr d (ctxPtr hdr k) x.addr y.addr y.addr = m₄
    at hctx₄ hsame
  have hoff₄ : ∀ a, a ≠ hdr → a ≠ y.addr → a ∉ ctxAddrs k → m₄.view a = m₂.view a := by
    intro a h₁ h₂ h₃
    rw [hsame.off a h₃ h₁]
    simp [h₂]
  have hyk : y.addr ∉ ctxAddrs k := fun h => hdisj _ (.inl rfl) _ h rfl
  have hy₄ : m₄.view y.addr = Cell.material d (ptrOf hdr B) (ptrOf hdr C) (ctxPtr hdr k) cy y.val := by
    rw [hsame.off _ hyk (Ne.symm hhy)]
    simp [hoff₂' y.addr (Ne.symm hxy) hyB, hy]
  -- cells of the three subtrees are as before, up to the parent link of `B`
  have hoff : ∀ a, a ≠ hdr → a ≠ x.addr → a ≠ y.addr → a ∉ ctxAddrs k →
      ((m₄.setChild d y.addr x.addr).setParent x.addr y.addr).view a = m₂.view a := by
    intro a h₁ h₂ h₃ h₄
    simp [h₂, h₃, hoff₄ a h₁ h₃ h₄]
  have hhdr : ((m₄.setChild d y.addr x.addr).setParent x.addr y.addr).view hdr = m₄.view hdr := by
    simp [hhx, hhy]
  have hsame_hdr := hsame.header
  simp only [Mem.view_setParent, hhy, if_false, hoff₂' hdr hhx hhB] at hsame_hdr
  refine ⟨(m₄.setChild d y.addr x.addr).setParent x.addr y.addr, ?_, ?_, ?_⟩
  · have hparent₂ : m₂.parent x.addr = ctxPtr hdr k := by simp [Mem.parent_eq, hx₂]
    have hparent₃ : (m₂.setParent y.addr (ctxPtr hdr k)).parent x.addr = ctxPtr hdr k := by
      simp [Mem.parent_eq, hx₂, hxy]
    simp only [QtreeDetail.rotate, hpivot, hinner, hnil, hm₂, hparent₂, hparent₃, hm₄, Bool.false_eq_true, if_false]
  · refine ⟨holds_branch.mpr ⟨?_, holds_branch.mpr ⟨?_, ?_, ?_⟩, ?_⟩, ?_, ?_, hf.nodup, ?_⟩
    · simp [Ne.symm hxy, hy₄]
    · simp [hxy, hoff₄ x.addr (Ne.symm hhx) hxy hxk, hx₂]
    · refine hA.congr fun a ha => ?_
      have hak : a ∉ ctxAddrs k := fun h => hAdisj _ ha _ (.inr h) rfl
      have hay : a ≠ y.addr := hAdisj _ ha _ (.inl (.inl rfl))
      have haB : a ∉ addrs B := fun h => hAdisj _ ha _ (.inl (.inr (.inl h))) rfl
      rw [hoff a (ne_of_mem_of_not_mem ha hhA) (ne_of_mem_of_not_mem ha hxA) hay hak,
        hoff₂' a (ne_of_mem_of_not_mem ha hxA) haB]
    · refine hB₂.congr fun a ha => ?_
      have hak : a ∉ ctxAddrs k := fun h => hdisj _ (.inr (.inl ha)) _ h rfl
      rw [hoff a (ne_of_mem_of_not_mem ha hhB) (ne_of_mem_of_not_mem ha hxB) (ne_of_mem_of_not_mem ha hyB) hak]
    · refine hC.congr fun a ha => ?_
      have hak : a ∉ ctxAddrs k := fun h => hdisj _ (.inr (.inr ha)) _ h rfl
      have haB : a ∉ addrs B := fun h => hBC _ h _ ha rfl
      rw [hoff a (ne_of_mem_of_not_mem ha hhC) (ne_of_mem_of_not_mem ha hxC) (ne_of_mem_of_not_mem ha hyC) hak,
        hoff₂' a (ne_of_mem_of_not_mem ha hxC) haB]
    · rw [ptrOf_branch]
      refine hctx₄.congr (by rw [hhdr]) fun a ha => ?_
      simp [ne_of_mem_of_not_mem ha hxk, ne_of_mem_of_not_mem ha hyk]
    · rw [← hf.order, toList_plug, toList_plug]
      cases d <;> simp
    · rw [hhdr, hsame_hdr, Cell.isNil_withParent, hf.hdrNil]
  · refine ⟨by simp [hsame.live, hlive₂], by rw [hhdr]; exact hsame_hdr, fun a ha hne => ?_⟩
    simp only [hmem, not_or] at ha
    obtain ⟨⟨hax, -, hay, haB, -⟩, hak⟩ := ha
    rw [hoff a hne hax hay hak, hoff₂' a hax haB]

end

end IdaSdk.QtreeDetail
