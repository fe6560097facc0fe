import IdaSdk.QtreeNode

/-!
Which tree a memory holds. `Focus m hdr L k t` says that the header at `hdr` roots the tree
`plug k t` with in-order items `L`, taken apart at the subtree `t`. The rebalancing loops move the
focus along the tree; `SameOff` records what a step leaves alone.
-/

namespace IdaSdk.QtreeDetail
open RedBlack RedBlack.ColorTree RedBlack.Ctx

/-- A stored value and the address of its node. -/
structure Item (V : Type*) where
  addr : Ptr
  val : V

abbrev Shape (V : Type*) := ColorTree (Item V)
abbrev Path (V : Type*) := Ctx (Item V)

variable {N V : Type*}

/-- The address of the root of a subtree; leaves are the header. -/
def ptrOf (hdr : Ptr) : Shape V → Ptr
  | .nil => hdr
  | .node _ _ e _ => e.addr

/-- The address of the parent of a hole; the header is the parent of the root. -/
def ctxPtr (hdr : Ptr) : Path V → Ptr
  | [] => hdr
  | f :: _ => f.entry.addr

def addrs (t : Shape V) : List Ptr := t.toList.map Item.addr

def ctxAddrs : Path V → List Ptr
  | [] => []
  | f :: k => f.entry.addr :: (addrs f.sibling ++ ctxAddrs k)

variable (hdr : Ptr)

variable (f : Frame (Item V))

@[simp] theorem ptrOf_nil : ptrOf hdr (.nil : Shape V) = hdr := rfl
@[simp] theorem ptrOf_node (c : Color) (l : Shape V) (e : Item V) (r : Shape V) :
    ptrOf hdr (.node c l e r) = e.addr := rfl
@[simp] theorem ptrOf_branch (d : Side) (c : Color) (s : Shape V) (e : Item V)
    (t : Shape V) : ptrOf hdr (branch d c s e t) = e.addr := by cases d <;> rfl
@[simp] theorem ctxPtr_nil : ctxPtr hdr ([] : Path V) = hdr := rfl
@[simp] theorem ctxPtr_cons (k : Path V) :
    ctxPtr hdr (f :: k) = f.entry.addr := rfl
@[simp] theorem addrs_nil : addrs (.nil : Shape V) = [] := rfl
@[simp] theorem ctxAddrs_nil : ctxAddrs ([] : Path V) = [] := rfl
@[simp] theorem ctxAddrs_cons (k : Path V) :
    ctxAddrs (f :: k) = f.entry.addr :: (addrs f.sibling ++ ctxAddrs k) := rfl

@[simp] theorem addrs_node (c : Color) (l : Shape V) (e : Item V) (r : Shape V) :
    addrs (.node c l e r) = addrs l ++ e.addr :: addrs r := by simp [addrs]

theorem addrs_branch_perm (d : Side) (c : Color) (s : Shape V) (e : Item V)
    (t : Shape V) : (addrs (branch d c s e t)).Perm (e.addr :: (addrs s ++ addrs t)) := by
  cases d
  · simp [addrs]
  · simpa [addrs] using List.perm_append_comm.trans (by simp)

variable {t : Shape V} {e : Item V} {c : Color}

@[simp] theorem mem_addrs_branch {d : Side} {s : Shape V} {a : Ptr} :
    a ∈ addrs (branch d c s e t) ↔ a = e.addr ∨ a ∈ addrs s ∨ a ∈ addrs t := by
  simp [(addrs_branch_perm d c s e t).mem_iff]

@[simp] theorem nodup_addrs_branch {d : Side} {s : Shape V} :
    (addrs (branch d c s e t)).Nodup ↔ (e.addr :: (addrs s ++ addrs t)).Nodup :=
  (addrs_branch_perm d c s e t).nodup_iff

theorem addrs_plug_perm (k : Path V) (t : Shape V) :
    (addrs (plug k t)).Perm (addrs t ++ ctxAddrs k) := by
  induction k generalizing t with
  | nil => simp
  | cons f k ih =>
      obtain ⟨d, c, e, s⟩ := f
      refine (ih _).trans ?_
      refine ((addrs_branch_perm d c t e s).append_right _).trans ?_
      simpa using (@List.perm_middle _ e.addr (addrs t) (addrs s ++ ctxAddrs k)).symm

theorem mem_ctxAddrs_append (k₁ : Path V) (f : Frame (Item V)) (k₂ : Path V) :
    f.entry.addr ∈ ctxAddrs (k₁ ++ f :: k₂) := by
  induction k₁ with
  | nil => simp
  | cons g k₁ ih => simp [ih]

theorem ptrOf_mem_or (t : Shape V) : ptrOf hdr t ∈ addrs t ∨ t = .nil := by
  cases t with
  | nil => exact .inr rfl
  | node c l e r => exact .inl (by simp [ptrOf, addrs])

theorem ptrOf_plug_mem (k : Path V) (t : Shape V) :
    ptrOf hdr (plug (f :: k) t) ∈ ctxAddrs (f :: k) := by
  induction k generalizing f t with
  | nil => simp
  | cons g k ih =>
      have hmem := ih g (branch f.side f.color t f.entry f.sibling)
      rw [ctxAddrs_cons]
      exact List.mem_cons_of_mem _ (List.mem_append_right _ hmem)

/-- The cells of the subtree `t`, whose parent link is `parent`. -/
def Holds (h : Ptr → Cell V) (hdr : Ptr) : Ptr → Shape V → Prop
  | _, .nil => True
  | parent, .node c l e r =>
      h e.addr = Cell.material .left (ptrOf hdr l) (ptrOf hdr r) parent c e.val ∧
        Holds h hdr e.addr l ∧ Holds h hdr e.addr r

/-- The cells around a hole whose content is linked to by `hole`. -/
def CtxHolds (h : Ptr → Cell V) (hdr : Ptr) : Path V → Ptr → Prop
  | [], hole => (h hdr).parent = hole
  | f :: k, hole =>
      h f.entry.addr = Cell.material f.side hole (ptrOf hdr f.sibling) (ctxPtr hdr k) f.color f.entry.val ∧
        Holds h hdr f.entry.addr f.sibling ∧ CtxHolds h hdr k f.entry.addr

section
variable {h h' : Ptr → Cell V} {hdr parent : Ptr}

@[simp] theorem holds_nil : Holds h hdr parent .nil ↔ True := Iff.rfl

theorem holds_branch {d : Side} {c : Color} {s : Shape V} {e : Item V} {t : Shape V} :
    Holds h hdr parent (branch d c s e t) ↔
      h e.addr = Cell.material d (ptrOf hdr s) (ptrOf hdr t) parent c e.val ∧
        Holds h hdr e.addr s ∧ Holds h hdr e.addr t := by
  cases d
  · exact Iff.rfl
  · simp only [branch_right, Holds, Cell.material]
    tauto

theorem Holds.congr {t : Shape V} (ht : Holds h hdr parent t)
    (heq : ∀ a ∈ addrs t, h' a = h a) : Holds h' hdr parent t := by
  induction t generalizing parent with
  | nil => trivial
  | node c l e r ihl ihr =>
      obtain ⟨hcell, hl, hr⟩ := ht
      exact ⟨(heq _ (by simp)).trans hcell, ihl hl fun a ha => heq a (by simp [ha]),
        ihr hr fun a ha => heq a (by simp [ha])⟩

theorem CtxHolds.congr {k : Path V} {hole : Ptr} (hk : CtxHolds h hdr k hole)
    (hhdr : (h' hdr).parent = (h hdr).parent) (heq : ∀ a ∈ ctxAddrs k, h' a = h a) :
    CtxHolds h' hdr k hole := by
  induction k generalizing hole with
  | nil => exact hhdr.trans hk
  | cons f k ih =>
      obtain ⟨hcell, hs, hk⟩ := hk
      refine ⟨(heq _ (by simp)).trans hcell, hs.congr fun a ha => heq a (by simp [ha]),
        ih hk fun a ha => heq a (by simp [ha])⟩

end

variable {m : Mem N} {hdr : Ptr}

theorem Holds.reads [NodeLayout N V] {parent : Ptr} {l r : Shape V}
    (h : Holds m.view hdr parent (.node c l e r)) :
    m.left e.addr = ptrOf hdr l ∧ m.right e.addr = ptrOf hdr r ∧ m.value e.addr = some e.val ∧
      m.isNil e.addr = false := by
  have hcell := h.1
  rw [Mem.left_eq, Mem.right_eq, Mem.value_eq, Mem.isNil_eq, hcell]
  exact ⟨rfl, rfl, rfl, rfl⟩

theorem Holds.value_of_mem [NodeLayout N V] {parent : Ptr} {x : Item V}
    (h : Holds m.view hdr parent t) (hx : x ∈ t.toList) : m.value x.addr = some x.val ∧ m.isNil x.addr = false := by
  induction t generalizing parent with
  | nil => simp at hx
  | node c l e r ihl ihr =>
      obtain ⟨-, -, hvalue, hnil⟩ := h.reads
      rcases List.mem_append.mp hx with hx | hx
      · exact ihl h.2.1 hx
      · rcases List.mem_cons.mp hx with rfl | hx
        · exact ⟨hvalue, hnil⟩
        · exact ihr h.2.2 hx

theorem Holds.setParentUnlessNil [NodeLayout N V] [LawfulNodeLayout N V] {parent : Ptr} (ht : Holds m.view hdr parent t) (q : Ptr) (hnd : (addrs t).Nodup)
    (hhdr : (m.view hdr).isNil = true) :
    Holds (m.setParentUnlessNil (ptrOf hdr t) q).view hdr q t ∧
      (m.setParentUnlessNil (ptrOf hdr t) q).live = m.live ∧
      ∀ a, a ∉ addrs t → (m.setParentUnlessNil (ptrOf hdr t) q).view a = m.view a := by
  cases t with
  | nil => simp [Mem.setParentUnlessNil, Mem.isNil_eq, hhdr]
  | node c l e r =>
      obtain ⟨hcell, hl, hr⟩ := ht
      simp only [addrs_node, List.nodup_append, List.nodup_cons, List.mem_cons] at hnd
      obtain ⟨-, ⟨her, -⟩, hle⟩ := hnd
      have hnil : (m.view e.addr).isNil = false := by simp [hcell]
      simp only [Mem.setParentUnlessNil, ptrOf, Mem.isNil_eq, hnil, Bool.false_eq_true, if_false]
      refine ⟨⟨by simp [hcell], hl.congr fun a ha => ?_, hr.congr fun a ha => ?_⟩, rfl, fun a ha => ?_⟩
      · simp [hle a ha e.addr (.inl rfl)]
      · simp [show a ≠ e.addr from fun h => her (h ▸ ha)]
      · simp only [addrs_node, List.mem_append, List.mem_cons, not_or] at ha
        simp [ha.2.1]

/-- Only the cells in `S` and the parent link of the header may differ. -/
structure SameOff [NodeLayout N V] (hdr : Ptr) (S : List Ptr) (m m' : Mem N) : Prop where
  live : m'.live = m.live
  header : m'.view hdr = (m.view hdr).withParent (m'.view hdr).parent
  off : ∀ a, a ∉ S → a ≠ hdr → m'.view a = m.view a

namespace SameOff

variable [NodeLayout N V] {hdr p q : Ptr} {S T : List Ptr} {m m' m'' : Mem N}

theorem refl (hdr : Ptr) (S : List Ptr) (m : Mem N) : SameOff hdr S m m := ⟨rfl, rfl, fun _ _ _ => rfl⟩

theorem isNil_header (h : SameOff hdr S m m') : (m'.view hdr).isNil = (m.view hdr).isNil := by
  rw [h.header, Cell.isNil_withParent]

theorem child_header (h : SameOff hdr S m m') (d : Side) : m'.child d hdr = m.child d hdr := by
  rw [Mem.child_eq, h.header, Cell.child_withParent, Mem.child_eq]

theorem color_header (h : SameOff hdr S m m') : m'.color hdr = m.color hdr := by
  rw [Mem.color_eq, h.header]
  rfl

theorem trans (h₁ : SameOff hdr S m m') (h₂ : SameOff hdr S m' m'') : SameOff hdr S m m'' where
  live := h₂.live.trans h₁.live
  header := by rw [h₂.header, h₁.header]; rfl
  off a ha hne := (h₂.off a ha hne).trans (h₁.off a ha hne)

theorem mono (h : SameOff hdr S m m') (hST : ∀ a ∈ S, a ∈ T) : SameOff hdr T m m' :=
  ⟨h.live, h.header, fun a ha hne => h.off a (fun hS => ha (hST a hS)) hne⟩

theorem of_view (hlive : m'.live = m.live) (hhdr : m'.view hdr = m.view hdr)
    (hoff : ∀ a, a ∉ S → m'.view a = m.view a) : SameOff hdr S m m' :=
  ⟨hlive, by simp [hhdr], fun a ha _ => hoff a ha⟩

end SameOff

/-- The tree `plug k t` with in-order items `L` is rooted at the header `hdr`. -/
structure Focus [NodeLayout N V] (m : Mem N) (hdr : Ptr) (L : List (Item V)) (k : Path V)
    (t : Shape V) : Prop where
  sub : Holds m.view hdr (ctxPtr hdr k) t
  ctx : CtxHolds m.view hdr k (ptrOf hdr t)
  order : (plug k t).toList = L
  nodup : (hdr :: L.map Item.addr).Nodup
  hdrNil : (m.view hdr).isNil = true

namespace Focus

variable [NodeLayout N V] {m m' : Mem N} {hdr : Ptr} {L : List (Item V)} {k : Path V}
  {s t : Shape V} {d : Side} {c : Color} {e : Item V}

theorem separated (hf : Focus m hdr L k t) : (hdr :: (addrs t ++ ctxAddrs k)).Nodup := by
  have hperm : (L.map Item.addr).Perm (addrs t ++ ctxAddrs k) := by
    rw [← hf.order]
    exact addrs_plug_perm k t
  exact (hperm.cons hdr).nodup_iff.mp hf.nodup

theorem separated_branch (hf : Focus m hdr L k (branch d c s e t)) :
    (hdr :: e.addr :: (addrs s ++ (addrs t ++ ctxAddrs k))).Nodup := by
  have hperm := (((addrs_branch_perm d c s e t).append_right (ctxAddrs k)).cons hdr).nodup_iff.mp hf.separated
  simpa using hperm

theorem mem_order (hf : Focus m hdr L k t) {a : Ptr} :
    a ∈ L.map Item.addr ↔ a ∈ addrs t ∨ a ∈ ctxAddrs k := by
  have hperm : (L.map Item.addr).Perm (addrs t ++ ctxAddrs k) := by
    rw [← hf.order]
    exact addrs_plug_perm k t
  simp [hperm.mem_iff]

theorem congr (hf : Focus m hdr L k t) (heq : ∀ a ∈ L.map Item.addr, m'.view a = m.view a)
    (hparent : (m'.view hdr).parent = (m.view hdr).parent)
    (hnil : (m'.view hdr).isNil = (m.view hdr).isNil) : Focus m' hdr L k t where
  sub := hf.sub.congr fun a ha => heq a (hf.mem_order.mpr (.inl ha))
  ctx := hf.ctx.congr hparent fun a ha => heq a (hf.mem_order.mpr (.inr ha))
  order := hf.order
  nodup := hf.nodup
  hdrNil := hnil.trans hf.hdrNil

theorem isNil_ptrOf (hf : Focus m hdr L k t) : m.isNil (ptrOf hdr t) = true ↔ t = .nil := by
  cases t with
  | nil => simpa [Mem.isNil_eq] using hf.hdrNil
  | node c l e r => simp [Mem.isNil_eq, ptrOf, hf.sub.1]

theorem cell (hf : Focus m hdr L k (branch d c s e t)) :
    m.view e.addr = Cell.material d (ptrOf hdr s) (ptrOf hdr t) (ctxPtr hdr k) c e.val :=
  (holds_branch.mp hf.sub).1

theorem size_lt (hf : Focus m hdr L k t) (hlive : ∀ a ∈ hdr :: L.map Item.addr, a ∈ m.live) :
    k.length + t.size < m.live.length := by
  have hle := hf.nodup.length_le_of_subset hlive
  have hsize := Ctx.length_add_size_le k t
  rw [← ColorTree.length_toList (plug k t), hf.order] at hsize
  rw [List.length_cons, List.length_map] at hle
  omega

theorem down (hf : Focus m hdr L k (branch d c s e t)) : Focus m hdr L (⟨d, c, e, t⟩ :: k) s where
  sub := (holds_branch.mp hf.sub).2.1
  ctx := ⟨hf.cell, (holds_branch.mp hf.sub).2.2, by simpa using hf.ctx⟩
  order := hf.order
  nodup := hf.nodup
  hdrNil := hf.hdrNil

theorem up (hf : Focus m hdr L (⟨d, c, e, t⟩ :: k) s) : Focus m hdr L k (branch d c s e t) where
  sub := holds_branch.mpr ⟨hf.ctx.1, hf.sub, hf.ctx.2.1⟩
  ctx := by simpa using hf.ctx.2.2
  order := hf.order
  nodup := hf.nodup
  hdrNil := hf.hdrNil

theorem across (hf : Focus m hdr L (⟨d, c, e, t⟩ :: k) s) : Focus m hdr L (⟨d.flip, c, e, s⟩ :: k) t := by
  have hup := hf.up
  rw [← branch_flip] at hup
  exact hup.down

theorem child (hf : Focus m hdr L k (branch d c s e t)) : m.child d e.addr = ptrOf hdr s := by
  simp [Mem.child_eq, hf.cell]

theorem child_flip (hf : Focus m hdr L k (branch d c s e t)) : m.child d.flip e.addr = ptrOf hdr t := by
  simp [Mem.child_eq, hf.cell]

theorem parent (hf : Focus m hdr L k (branch d c s e t)) : m.parent e.addr = ctxPtr hdr k := by
  simp [Mem.parent_eq, hf.cell]

theorem parent_ptrOf (hf : Focus m hdr L k t) (ht : t ≠ .nil) : m.parent (ptrOf hdr t) = ctxPtr hdr k := by
  cases t with
  | nil => exact absurd rfl ht
  | node c l e r => exact (show Focus m hdr L k (branch .left c l e r) from hf).parent

theorem color (hf : Focus m hdr L k (branch d c s e t)) : m.color e.addr = c := by
  simp [Mem.color_eq, hf.cell]

theorem value (hf : Focus m hdr L k (branch d c s e t)) : m.value e.addr = some e.val := by
  simp [Mem.value_eq, hf.cell]

theorem isNil (hf : Focus m hdr L k (branch d c s e t)) : m.isNil e.addr = false := by
  simp [Mem.isNil_eq, hf.cell]

theorem nodeColor (hf : Focus m hdr L k t) : m.nodeColor (ptrOf hdr t) = t.rootColor := by
  cases t with
  | nil => simp [Mem.nodeColor, Mem.isNil_eq, hf.hdrNil, rootColor]
  | node c l e r => simp [Mem.nodeColor, Mem.isNil_eq, Mem.color_eq, ptrOf, hf.sub.1, rootColor]

theorem fromRoot {k₀ : Path V} (hf : Focus m hdr L k₀ (plug k t)) : Focus m hdr L (k ++ k₀) t := by
  induction k generalizing t with
  | nil => exact hf
  | cons f k ih => exact (ih hf).down

theorem ptrOf_ne (hf : Focus m hdr L k (branch d c s e t)) (hs : s ≠ .nil) : ptrOf hdr s ≠ ptrOf hdr t := by
  have hsep := hf.separated_branch
  simp only [List.nodup_cons, List.mem_cons, List.mem_append, not_or, List.nodup_append] at hsep
  obtain ⟨⟨-, hhs, hht, -⟩, -, -, -, hst⟩ := hsep
  have hmem : ptrOf hdr s ∈ addrs s := (ptrOf_mem_or hdr s).resolve_right hs
  rcases ptrOf_mem_or hdr t with ht | rfl
  · exact hst _ hmem _ (.inl ht)
  · intro h
    rw [ptrOf_nil] at h
    exact hhs (h ▸ hmem)

theorem side_eq (hf : Focus m hdr L (⟨d, c, e, t⟩ :: k) s) (hs : s ≠ .nil) :
    (if ptrOf hdr s = m.left e.addr then Side.left else Side.right) = d := by
  have hne := hf.up.ptrOf_ne hs
  cases d with
  | left =>
      have hleft : m.left e.addr = ptrOf hdr s := hf.up.child
      rw [hleft, if_pos rfl]
  | right =>
      have hleft : m.left e.addr = ptrOf hdr t := hf.up.child_flip
      rw [hleft, if_neg hne]

theorem side_eq_of_sibling (hf : Focus m hdr L (⟨d, c, e, t⟩ :: k) s) (ht : t ≠ .nil) :
    (if ptrOf hdr s = m.left e.addr then Side.left else Side.right) = d := by
  have hup := hf.up
  rw [← branch_flip] at hup
  have hne := hup.ptrOf_ne ht
  cases d with
  | left =>
      have hleft : m.left e.addr = ptrOf hdr s := hf.up.child
      rw [hleft, if_pos rfl]
  | right =>
      have hleft : m.left e.addr = ptrOf hdr t := hf.up.child_flip
      rw [hleft, if_neg hne.symm]

theorem setColor [LawfulNodeLayout N V] (hf : Focus m hdr L k (branch d c s e t)) (c' : Color) :
    Focus (m.setColor e.addr c') hdr L k (branch d c' s e t) ∧
      SameOff hdr (L.map Item.addr) m (m.setColor e.addr c') := by
  obtain ⟨hcell, hs, ht⟩ := holds_branch.mp hf.sub
  have hctx := hf.ctx
  have hmem : e.addr ∈ L.map Item.addr := hf.mem_order.mpr (.inl (by simp))
  have hsep := hf.separated_branch
  simp only [List.nodup_cons, List.mem_cons, List.mem_append, not_or] at hsep
  obtain ⟨⟨hhe, -⟩, ⟨hes, het, hek⟩, -⟩ := hsep
  rw [ptrOf_branch] at hctx
  refine ⟨⟨holds_branch.mpr ⟨by simp [hcell], ?_, ?_⟩, ?_, ?_, hf.nodup, by simp [hhe, hf.hdrNil]⟩, ?_⟩
  · exact hs.congr fun a ha => by simp [ne_of_mem_of_not_mem ha hes]
  · exact ht.congr fun a ha => by simp [ne_of_mem_of_not_mem ha het]
  · rw [ptrOf_branch]
    exact hctx.congr (by simp [hhe]) fun a ha => by simp [ne_of_mem_of_not_mem ha hek]
  · rw [← hf.order, toList_plug, toList_plug]
    cases d <;> rfl
  · exact SameOff.of_view rfl (by simp [hhe]) fun a ha => by simp [ne_of_mem_of_not_mem hmem ha |>.symm]

theorem setColorUnlessNil [LawfulNodeLayout N V] (hf : Focus m hdr L k t) (c' : Color) :
    Focus (m.setColorUnlessNil (ptrOf hdr t) c') hdr L k (t.withColor c') ∧
      SameOff hdr (L.map Item.addr) m (m.setColorUnlessNil (ptrOf hdr t) c') := by
  cases t with
  | nil =>
      simp only [Mem.setColorUnlessNil, ptrOf_nil, Mem.isNil_eq, hf.hdrNil, if_true]
      exact ⟨hf, SameOff.refl _ _ _⟩
  | node c l e r =>
      have hnode : Focus m hdr L k (branch .left c l e r) := hf
      have hnil := hnode.isNil
      simp only [Mem.setColorUnlessNil, ptrOf, hnil, Bool.false_eq_true, if_false]
      exact hnode.setColor c'

theorem toRoot (hf : Focus m hdr L k t) : Focus m hdr L [] (plug k t) := by
  induction k generalizing t with
  | nil => exact hf
  | cons f k ih => exact ih hf.up

theorem ptrOf_ne_root {f : Frame (Item V)} (hf : Focus m hdr L (f :: k) t) : ptrOf hdr t ≠ m.parent hdr := by
  have hroot : m.parent hdr = ptrOf hdr (plug (f :: k) t) := hf.toRoot.ctx
  have hmem := ptrOf_plug_mem hdr f k t
  have hsep := hf.separated
  simp only [List.nodup_cons, List.mem_append, not_or, List.nodup_append] at hsep
  rw [hroot]
  rcases ptrOf_mem_or hdr t with ht | rfl
  · exact hsep.2.2.2 _ ht _ hmem
  · intro h
    rw [← h] at hmem
    exact hsep.1.2 hmem

theorem upTo {k₁ : Path V} (hf : Focus m hdr L (k₁ ++ k) t) : Focus m hdr L k (plug k₁ t) := by
  induction k₁ generalizing t with
  | nil => exact hf
  | cons f k₁ ih => exact ih hf.up

theorem value_of_mem {x : Item V} (hf : Focus m hdr L k t) (hx : x ∈ L) :
    m.value x.addr = some x.val ∧ m.isNil x.addr = false :=
  hf.toRoot.sub.value_of_mem (hf.order ▸ hx)

end Focus

end IdaSdk.QtreeDetail
