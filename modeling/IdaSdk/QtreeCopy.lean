import IdaSdk.QtreeIterate

/-!
Whole-tree operations: clearing, destruction, copy and move construction, assignment and swap. A clone
lives in fresh cells and has the shape, the colours and the values of its source.
-/

namespace IdaSdk.QtreeDetail
open RedBlack RedBlack.Ctx SortedList

section
variable {N V : Type*} [NodeLayout N V]

def clearSubtree : Nat → Mem N → Ptr → Option (Mem N)
  | 0, _, _ => none
  | fuel + 1, m, node =>
    if m.isNil node then
      some m
    else
      match if m.isNil (m.left node) then some m else clearSubtree fuel m (m.left node) with
      | none => none
      | some m =>
        match if m.isNil (m.right node) then some m else clearSubtree fuel m (m.right node) with
        | none => none
        | some m => some (nodeDelete (destroyValue m node) node)

variable (m : Mem N)

def clear (q : Qtree) : Option (Mem N × Qtree) :=
  if q.header = nullptr ∨ q.nodeCount = 0 then
    some (if q.header ≠ nullptr then initHeader m q.header else m, { q with nodeCount := 0 })
  else
    (clearSubtree (m.live.length + 1) m (m.parent q.header)).map fun m =>
      (initHeader m q.header, { q with nodeCount := 0 })

def destruct (q : Qtree) : Option (Mem N) :=
  if q.header ≠ nullptr then (clear m q).map fun (m, q) => nodeDelete m q.header else some m

variable (pol : AllocPolicy)

/-- The new node of `clone_subtree` before its children are cloned. -/
def cloneNode (m : Mem N) (hdr otherNode parentNode : Ptr) (v : V) : Ptr × Mem N :=
  let (newNode, m) := nodeNew pol m
  let m := m.setValue newNode (some v)
  let m := m.setIsNil newNode false
  let m := m.setColor newNode (m.color otherNode)
  let m := m.setParent newNode parentNode
  let m := m.setLeft newNode hdr
  (newNode, m.setRight newNode hdr)

def cloneSubtree (pol : AllocPolicy) (hdr : Ptr) : Nat → Mem N → Ptr → Ptr → Option (Mem N × Ptr)
  | 0, _, _, _ => none
  | fuel + 1, m, otherNode, parentNode =>
    if m.isNil otherNode then
      some (m, hdr)
    else
      match m.value otherNode with
      | none => none
      | some v =>
        let (newNode, m) := cloneNode pol m hdr otherNode parentNode v
        match cloneSubtree pol hdr fuel m (m.left otherNode) newNode with
        | none => none
        | some (m, l) =>
          let m := m.setLeft newNode l
          match cloneSubtree pol hdr fuel m (m.right otherNode) newNode with
          | none => none
          | some (m, r) => some (m.setRight newNode r, newNode)

def cloneFrom (m : Mem N) (q other : Qtree) : Option (Mem N × Qtree) :=
  if other.empty then
    none
  else
    match cloneSubtree pol q.header (m.live.length + 1) m (m.parent other.header) q.header with
    | none => none
    | some (m, newRoot) =>
      let m := m.setParent q.header newRoot
      match minimum m newRoot with
      | none => none
      | some first =>
        let m := m.setLeft q.header first
        match maximum m newRoot with
        | none => none
        | some last => some (m.setRight q.header last, { q with nodeCount := other.nodeCount })

/-- `qtree(qtree const &other)`. -/
def copyConstruct (m : Mem N) (other : Qtree) : Option (Mem N × Qtree) :=
  if other.empty then
    some (m, Qtree.init)
  else
    let (h, m) := allocateHeader pol m
    cloneFrom pol (initHeader m h) ⟨h, 0⟩ other

/-- `qtree(qtree &&other)`: the new object and what is left of the other one. -/
def moveConstruct (other : Qtree) : Qtree × Qtree := (⟨other.header, other.nodeCount⟩, Qtree.init)

/-- Copy assignment from a different object, through a temporary that takes the old contents. -/
def copyAssign (m : Mem N) (q other : Qtree) : Option (Mem N × Qtree) :=
  match copyConstruct pol m other with
  | none => none
  | some (m, tmp) => (destruct m q).map fun m => (m, tmp)

def moveAssign (q other : Qtree) : Option (Mem N × Qtree × Qtree) :=
  (destruct m q).map fun m => (m, ⟨other.header, other.nodeCount⟩, Qtree.init)

end

section
variable {N V K : Type*} [NodeLayout N V] [LawfulNodeLayout N V] {lt : K → K → Bool} {key : V → K} {m : Mem N}
  {hdr parent : Ptr} {q : Qtree} {t T : Shape V}

omit [LawfulNodeLayout N V] in
theorem clearSubtree_guard {fuel : Nat} (hfuel : fuel ≠ 0) (m : Mem N) (p : Ptr) :
    (if m.isNil p then some m else clearSubtree fuel m p) = clearSubtree fuel m p := by
  obtain ⟨fuel, rfl⟩ := Nat.exists_eq_succ_of_ne_zero hfuel
  by_cases hnil : m.isNil p
  · rw [if_pos hnil, clearSubtree, if_pos hnil]
  · rw [if_neg hnil]

theorem clearSubtree_spec (fuel : Nat) (hh : Holds m.view hdr parent t) (hhdr : (m.view hdr).isNil = true)
    (hnd : (hdr :: addrs t).Nodup) (hnull : ∀ a ∈ addrs t, a ≠ nullptr) (hfuel : t.size < fuel) :
    ∃ m', clearSubtree fuel m (ptrOf hdr t) = some m' ∧ (∀ a, a ∉ addrs t → m'.view a = m.view a) ∧
      ∀ a, a ∈ m'.live ↔ a ∈ m.live ∧ a ∉ addrs t := by
  induction t generalizing m parent fuel with
  | nil =>
      obtain ⟨fuel, rfl⟩ : ∃ f, fuel = f + 1 := ⟨fuel - 1, by omega⟩
      exact ⟨m, by simp [clearSubtree, Mem.isNil_eq, hhdr], fun _ _ => rfl, by simp⟩
  | node c l e r ihl ihr =>
      obtain ⟨fuel, rfl⟩ : ∃ f, fuel = f + 1 := ⟨fuel - 1, by omega⟩
      obtain ⟨hleft, -, -, hfalse⟩ := hh.reads
      obtain ⟨hcell, hl, hr⟩ := hh
      simp only [ColorTree.size] at hfuel
      simp only [addrs_node, List.nodup_cons, List.mem_append, List.mem_cons, not_or, List.nodup_append] at hnd
      obtain ⟨⟨hhl, hhe, hhr⟩, hndl, ⟨her, hndr⟩, hlr⟩ := hnd
      have hel : e.addr ∉ addrs l := fun h => hlr _ h _ (.inl rfl) rfl
      obtain ⟨m₁, hrun₁, hoff₁, hlive₁⟩ := ihl fuel hl hhdr (List.nodup_cons.mpr ⟨hhl, hndl⟩)
        (fun a ha => hnull a (by simp [ha])) (by omega)
      have hright₁ : m₁.right e.addr = ptrOf hdr r := by
        rw [Mem.right_eq, hoff₁ _ hel, hcell]
        rfl
      have hr₁ : Holds m₁.view hdr e.addr r := by
        apply hr.congr
        intro a ha
        exact hoff₁ a fun hal => hlr a hal a (.inr ha) rfl
      obtain ⟨m₂, hrun₂, hoff₂, hlive₂⟩ := ihr fuel hr₁ (by rw [hoff₁ _ hhl, hhdr])
        (List.nodup_cons.mpr ⟨hhr, hndr⟩) (fun a ha => hnull a (by simp [ha])) (by omega)
      refine ⟨nodeDelete (destroyValue m₂ e.addr) e.addr, ?_, fun a ha => ?_, fun a => ?_⟩
      · rw [ptrOf, clearSubtree, hfalse, if_neg (by decide), clearSubtree_guard (by omega), hleft, hrun₁]
        simp only [hright₁]
        rw [clearSubtree_guard (by omega), hrun₂]
      · simp only [addrs_node, List.mem_append, List.mem_cons, not_or] at ha
        rw [view_nodeDelete, view_destroyValue m₂ ha.2.1, hoff₂ a ha.2.2, hoff₁ a ha.1]
      · rw [mem_live_nodeDelete _ (hnull _ (by simp)), live_destroyValue, hlive₂, hlive₁]
        simp only [addrs_node, List.mem_append, List.mem_cons, not_or]
        tauto

theorem clear_spec (h : Represents lt key m q T) :
    ∃ m' q', clear m q = some (m', q') ∧ Represents lt key m' q' .nil ∧ q'.header = q.header ∧
      Evolves m m' (footprint q T) (footprint q' (.nil : Shape V)) := by
  rcases h with ⟨rfl, rfl⟩ | h
  · exact ⟨m, Qtree.init, rfl, .inl ⟨rfl, rfl⟩, rfl, Evolves.refl _ _⟩
  have hne := h.nonnull q.header (by simp)
  have hlive := h.live q.header (by simp)
  have hnd := List.nodup_cons.mp h.focus.nodup
  by_cases hcount : q.nodeCount = 0
  · have hrb : RedBlackTree lt key (initHeader m q.header) ⟨q.header, 0⟩ .nil := redBlackTree_initHeader hne hlive
    refine ⟨_, ⟨q.header, 0⟩, by rw [clear, if_pos (.inr hcount), if_pos hne], .inr hrb, rfl, ?_⟩
    obtain ⟨-, -, -, -, hlive', hoff⟩ := view_initHeader m q.header
    rw [h.footprint_eq, hrb.footprint_eq]
    refine ⟨fun a ha haF => ⟨by rwa [hlive'], hoff a fun he => haF (by simp [he])⟩, fun a ha => .inl ?_⟩
    exact List.mem_cons.mpr (.inl (List.mem_singleton.mp ha))
  · have hsize := h.focus.size_lt h.live
    have hroot : m.parent q.header = ptrOf q.header T := h.focus.ctx
    obtain ⟨m₁, hrun, hoff₁, hlive₁⟩ := clearSubtree_spec (m.live.length + 1) h.focus.sub h.focus.hdrNil
      h.focus.nodup (fun a ha => h.nonnull a (List.mem_cons_of_mem _ ha)) (by omega)
    have hhdr₁ : q.header ∈ m₁.live := (hlive₁ _).mpr ⟨hlive, hnd.1⟩
    have hrb : RedBlackTree lt key (initHeader m₁ q.header) ⟨q.header, 0⟩ .nil := redBlackTree_initHeader hne hhdr₁
    refine ⟨_, ⟨q.header, 0⟩, by rw [clear, if_neg (not_or.mpr ⟨hne, hcount⟩), hroot, hrun]; rfl, .inr hrb, rfl, ?_⟩
    obtain ⟨-, -, -, -, hlive', hoff⟩ := view_initHeader m₁ q.header
    rw [h.footprint_eq, hrb.footprint_eq]
    refine ⟨fun a ha haF => ?_, fun a ha => .inl ?_⟩
    · simp only [List.mem_cons, not_or] at haF
      exact ⟨by rw [hlive', hlive₁]; exact ⟨ha, haF.2⟩, by rw [hoff a haF.1, hoff₁ a haF.2]⟩
    · exact List.mem_cons.mpr (.inl (List.mem_singleton.mp ha))

theorem destruct_spec (h : Represents lt key m q T) :
    ∃ m', destruct m q = some m' ∧ Evolves m m' (footprint q T) [] := by
  by_cases hne : q.header = nullptr
  · exact ⟨m, by rw [destruct, if_neg (not_not.mpr hne)], (Evolves.refl m _).shrink (by simp)⟩
  obtain ⟨m₁, q₁, hrun, -, hheader, hev⟩ := clear_spec h
  refine ⟨nodeDelete m₁ q₁.header, by rw [destruct, if_pos hne, hrun]; rfl, hev.trans ⟨fun a ha haF => ?_, by simp⟩⟩
  have hne₁ : q₁.header ≠ nullptr := by rwa [hheader]
  rw [footprint, if_neg hne₁] at haF
  rw [mem_live_nodeDelete _ hne₁, view_nodeDelete]
  exact ⟨⟨ha, fun he => haF (by simp [he])⟩, rfl⟩

/-! ### Cloning -/

variable (pol : AllocPolicy)

theorem cloneNode_spec (m : Mem N) (hdr otherNode parentNode : Ptr) (v : V)
    (hother : otherNode ∈ m.live) :
    (cloneNode pol m hdr otherNode parentNode v).1 ≠ nullptr ∧
      (cloneNode pol m hdr otherNode parentNode v).1 ∉ m.live ∧
      (cloneNode pol m hdr otherNode parentNode v).2.live = (cloneNode pol m hdr otherNode parentNode v).1 :: m.live ∧
      (cloneNode pol m hdr otherNode parentNode v).2.view (cloneNode pol m hdr otherNode parentNode v).1 =
        Cell.material .left hdr hdr parentNode (m.color otherNode) v ∧
      ∀ b, b ≠ (cloneNode pol m hdr otherNode parentNode v).1 →
        (cloneNode pol m hdr otherNode parentNode v).2.view b = m.view b := by
  obtain ⟨hne, hnotMem, hlive, hoff⟩ := nodeNew_spec pol m
  have hother' : otherNode ≠ (nodeNew pol m).1 := fun h => hnotMem (h ▸ hother)
  refine ⟨hne, hnotMem, hlive, ?_, fun b hb => ?_⟩
  · simp only [cloneNode, Mem.view_setColor, Mem.view_setRight, Mem.view_setLeft, Mem.view_setParent,
      Mem.view_setIsNil, Mem.view_setValue, if_true, Mem.color_eq, if_neg hother', hoff _ hother']
    rfl
  · have hb' : b ≠ (nodeNew pol m).1 := hb
    simp [cloneNode, hb', hoff b hb']

/-- A clone has the shape, colours and values of its source, in fresh cells. -/
theorem cloneSubtree_spec (hdr : Ptr) {hdr' : Ptr} {par : Ptr} (fuel : Nat) (parentNode : Ptr)
    (hh : Holds m.view hdr' par t) (hhdr : (m.view hdr').isNil = true) (hlive : ∀ a ∈ hdr' :: addrs t, a ∈ m.live)
    (hfuel : t.size < fuel) :
    ∃ m' t', cloneSubtree pol hdr fuel m (ptrOf hdr' t) parentNode = some (m', ptrOf hdr t') ∧
      t'.map Item.val = t.map Item.val ∧ Holds m'.view hdr parentNode t' ∧ (addrs t').Nodup ∧
      (∀ a ∈ addrs t', a ≠ nullptr ∧ a ∈ m'.live) ∧ Evolves m m' [] (addrs t') ∧
      ∀ a ∈ m'.live, a ∈ m.live ∨ a ∈ addrs t' := by
  induction t generalizing m par fuel parentNode with
  | nil =>
      obtain ⟨fuel, rfl⟩ : ∃ f, fuel = f + 1 := ⟨fuel - 1, by omega⟩
      refine ⟨m, .nil, ?_, rfl, trivial, List.nodup_nil, by simp, Evolves.refl _ _, fun _ => .inl⟩
      simp [cloneSubtree, Mem.isNil_eq, hhdr]
  | node c l e r ihl ihr =>
      obtain ⟨fuel, rfl⟩ : ∃ f, fuel = f + 1 := ⟨fuel - 1, by omega⟩
      obtain ⟨hleft, hright, hvalue, hfalse⟩ := hh.reads
      obtain ⟨hcell, hl, hr⟩ := hh
      simp only [ColorTree.size] at hfuel
      simp only [List.mem_cons, addrs_node, List.mem_append] at hlive
      have hcolor : m.color e.addr = c := by
        rw [Mem.color_eq, hcell]
        rfl
      have hspec := cloneNode_spec pol m hdr e.addr parentNode e.val (hlive e.addr (by simp))
      rcases hnew : cloneNode pol m hdr e.addr parentNode e.val with ⟨a, m₁⟩
      simp only [hnew, hcolor] at hspec
      obtain ⟨ha0, hanew, halive, hacell, haoff⟩ := hspec
      have hkeep₁ : ∀ b, b = hdr' ∨ b ∈ addrs l ∨ b = e.addr ∨ b ∈ addrs r → b ∈ m₁.live ∧ m₁.view b = m.view b := by
        intro b hb
        exact ⟨by rw [halive]; exact List.mem_cons_of_mem _ (hlive b hb), haoff b fun h => hanew (h ▸ hlive b hb)⟩
      have hl₁ : Holds m₁.view hdr' e.addr l := hl.congr fun b hb => (hkeep₁ b (by simp [hb])).2
      obtain ⟨m₂, l', hrun₂, hmapl, hholdsl, hndl, hliveL, hev₂, hnew₂⟩ := ihl fuel a hl₁
        (by rw [(hkeep₁ hdr' (.inl rfl)).2, hhdr])
        (fun b hb => (hkeep₁ b (by rcases List.mem_cons.mp hb with h | h <;> simp [h])).1) (by omega)
      have hkeep₂ : ∀ b ∈ m₁.live, b ∈ m₂.live ∧ m₂.view b = m₁.view b := fun b hb => hev₂.keep b hb (by simp)
      have haL : a ∉ addrs l' := by
        intro h
        rcases hev₂.owned a h with h | h
        · simp at h
        · exact h (by simp [halive])
      have hkeep₃ : ∀ b, b = hdr' ∨ b ∈ addrs l ∨ b = e.addr ∨ b ∈ addrs r →
          b ∈ (m₂.setLeft a (ptrOf hdr l')).live ∧ (m₂.setLeft a (ptrOf hdr l')).view b = m.view b := by
        intro b hb
        have hba : b ≠ a := fun h => hanew (h ▸ hlive b hb)
        obtain ⟨hb₁, hview₁⟩ := hkeep₁ b hb
        obtain ⟨hb₂, hview₂⟩ := hkeep₂ b hb₁
        exact ⟨hb₂, by rw [Mem.view_setLeft, if_neg hba, hview₂, hview₁]⟩
      have hr₃ : Holds (m₂.setLeft a (ptrOf hdr l')).view hdr' e.addr r :=
        hr.congr fun b hb => (hkeep₃ b (by simp [hb])).2
      obtain ⟨m₄, r', hrun₄, hmapr, hholdsr, hndr, hliveR, hev₄, hnew₄⟩ := ihr fuel a hr₃
        (by rw [(hkeep₃ hdr' (.inl rfl)).2, hhdr])
        (fun b hb => (hkeep₃ b (by rcases List.mem_cons.mp hb with h | h <;> simp [h])).1) (by omega)
      have hkeep₄ : ∀ b ∈ m₂.live, b ∈ m₄.live ∧ m₄.view b = (m₂.setLeft a (ptrOf hdr l')).view b :=
        fun b hb => hev₄.keep b hb (by simp)
      have haM₁ : a ∈ m₁.live := by simp [halive]
      obtain ⟨haM₂, haview₂⟩ := hkeep₂ a haM₁
      obtain ⟨haM₄, haview₄⟩ := hkeep₄ a haM₂
      have hRnew : ∀ b ∈ addrs r', b ∉ m₂.live := by
        intro b hb
        exact (hev₄.owned b hb).resolve_left (by simp)
      have haR : a ∉ addrs r' := fun h => hRnew a h haM₂
      refine ⟨m₄.setRight a (ptrOf hdr r'), .node c l' ⟨a, e.val⟩ r', ?_, ?_, ⟨?_, ?_, ?_⟩, ?_, ?_, ?_, fun b hb => ?_⟩
      · have hleft₁ : m₁.left e.addr = ptrOf hdr' l := by
          rw [← hleft, Mem.left_eq, Mem.left_eq, (hkeep₁ e.addr (by simp)).2]
        have hright₃ : (m₂.setLeft a (ptrOf hdr l')).right e.addr = ptrOf hdr' r := by
          rw [← hright, Mem.right_eq, Mem.right_eq, (hkeep₃ e.addr (by simp)).2]
        simp only [ptrOf_node, cloneSubtree, hfalse, hvalue, hnew, Bool.false_eq_true, if_false, hleft₁, hrun₂,
          hright₃, hrun₄]
      · simp only [ColorTree.map, hmapl, hmapr]
      · rw [Mem.view_setRight, if_pos rfl, haview₄, Mem.view_setLeft, if_pos rfl, haview₂, hacell]
        rfl
      · refine hholdsl.congr fun b hb => ?_
        have hba : b ≠ a := fun h => haL (h ▸ hb)
        rw [Mem.view_setRight, if_neg hba, (hkeep₄ b (hliveL b hb).2).2, Mem.view_setLeft, if_neg hba]
      · refine hholdsr.congr fun b hb => ?_
        have hba : b ≠ a := fun h => haR (h ▸ hb)
        rw [Mem.view_setRight, if_neg hba]
      · rw [addrs_node, List.nodup_append, List.nodup_cons]
        refine ⟨hndl, ⟨haR, hndr⟩, fun b hb b' hb' he => ?_⟩
        subst he
        rcases List.mem_cons.mp hb' with h | h
        · have hba : b = a := h
          exact haL (hba ▸ hb)
        · exact hRnew b h (hliveL b hb).2
      · intro b hb
        rw [addrs_node, List.mem_append, List.mem_cons] at hb
        rcases hb with hb | rfl | hb
        · exact ⟨(hliveL b hb).1, (hkeep₄ b (hliveL b hb).2).1⟩
        · exact ⟨ha0, haM₄⟩
        · exact hliveR b hb
      · refine ⟨fun b hb _ => ?_, fun b hb => .inr fun hbm => ?_⟩
        · have hba : b ≠ a := fun h => hanew (h ▸ hb)
          have hb₁ : b ∈ m₁.live := by simp [halive, hb]
          obtain ⟨hb₂, hview₂⟩ := hkeep₂ b hb₁
          obtain ⟨hb₄, hview₄⟩ := hkeep₄ b hb₂
          exact ⟨hb₄, by rw [Mem.view_setRight, if_neg hba, hview₄, Mem.view_setLeft, if_neg hba, hview₂, haoff b hba]⟩
        · have hb₁ : b ∈ m₁.live := by simp [halive, hbm]
          rw [addrs_node, List.mem_append, List.mem_cons] at hb
          rcases hb with hb | rfl | hb
          · exact (hev₂.owned b hb).elim (by simp) fun h => h hb₁
          · exact hanew hbm
          · exact hRnew b hb (hkeep₂ b hb₁).1
      · rw [addrs_node, List.mem_append, List.mem_cons]
        rcases hnew₄ b hb with hb | hb
        · rcases hnew₂ b hb with hb | hb
          · rw [halive] at hb
            exact (List.mem_cons.mp hb).elim (fun he => .inr (.inr (.inl he))) .inl
          · exact .inr (.inl hb)
        · exact .inr (.inr (.inr hb))

variable {other : Qtree}

/-- Linking a clone under an initialised header gives a tree object of its own. -/
theorem cloneFrom_spec (hq : RedBlackTree lt key m ⟨hdr, 0⟩ .nil)
    (h : RedBlackTree lt key m other T) (hT : T ≠ .nil) :
    ∃ m' T', cloneFrom pol m ⟨hdr, 0⟩ other = some (m', ⟨hdr, other.nodeCount⟩) ∧
      RedBlackTree lt key m' ⟨hdr, other.nodeCount⟩ T' ∧ T'.map Item.val = T.map Item.val ∧
      Evolves m m' [hdr] (hdr :: addrs T') := by
  have hhdr : hdr ∈ m.live := hq.live hdr (by simp)
  have hlt := h.size_lt
  obtain ⟨m₁, T', hrun, hmap, hholds, hnd, hcells, hev, -⟩ :=
    cloneSubtree_spec pol hdr (m.live.length + 1) hdr h.focus.sub h.focus.hdrNil h.live (by omega)
  have hnew : hdr ∉ addrs T' := fun hmem => ((hev.owned hdr hmem).resolve_left (by simp)) hhdr
  obtain ⟨hhdr₁, hview₁⟩ := hev.keep hdr hhdr (by simp)
  have hT' : T' ≠ .nil := by
    rintro rfl
    cases T with
    | nil => exact hT rfl
    | node c l e r => exact absurd hmap (by simp [ColorTree.map])
  -- the header is linked to the root first, then to both ends
  have hfocus : ∀ m₂ : Mem N, (∀ a, a ≠ hdr → m₂.view a = m₁.view a) → (m₂.view hdr).parent = ptrOf hdr T' →
      (m₂.view hdr).isNil = true → Focus m₂ hdr T'.toList [] T' := by
    intro m₂ hoff hparent hnil
    exact ⟨hholds.congr fun a ha => hoff a fun he => hnew (he ▸ ha), hparent, rfl,
      List.nodup_cons.mpr ⟨hnew, hnd⟩, hnil⟩
  have hlive : ∀ a ∈ hdr :: T'.toList.map Item.addr, a ∈ m₁.live := by
    intro a ha
    rcases List.mem_cons.mp ha with rfl | ha
    · exact hhdr₁
    · exact (hcells a ha).2
  have hnil₁ : (m₁.view hdr).isNil = true := by rw [hview₁, hq.focus.hdrNil]
  have hblack₁ : (m₁.view hdr).color = .black := by rw [hview₁, ← Mem.color_eq, hq.headerBlack]
  have hf₂ := hfocus (m₁.setParent hdr (ptrOf hdr T')) (fun a ha => by simp [ha]) (by simp [Cell.withParent])
    (by simp [hnil₁])
  have hmin : minimum (m₁.setParent hdr (ptrOf hdr T')) (ptrOf hdr T') = some (endPtr hdr .left T'.toList) :=
    extremum_spec .left hf₂ hT' hlive
  have hf₃ := hfocus ((m₁.setParent hdr (ptrOf hdr T')).setLeft hdr (endPtr hdr .left T'.toList))
    (fun a ha => by simp [ha]) (by simp [Cell.withParent]) (by simp [hnil₁])
  have hmax : maximum ((m₁.setParent hdr (ptrOf hdr T')).setLeft hdr (endPtr hdr .left T'.toList)) (ptrOf hdr T') =
      some (endPtr hdr .right T'.toList) := extremum_spec .right hf₃ hT' hlive
  have hlist : T'.toList.map Item.val = T.toList.map Item.val := by
    rw [← ColorTree.toList_map, hmap, ColorTree.toList_map]
  have hsize : T'.toList.length = T.size := by
    rw [← List.length_map Item.val, hlist, List.length_map, ColorTree.length_toList]
  have hempty : other.empty = false := by
    rw [Qtree.empty, beq_eq_false_iff_ne]
    exact h.count_ne_zero hT
  refine ⟨((m₁.setParent hdr (ptrOf hdr T')).setLeft hdr (endPtr hdr .left T'.toList)).setRight hdr
    (endPtr hdr .right T'.toList), T', ?_, RedBlackTree.of_focus (hfocus _ (fun a ha => by simp [ha])
      (by simp [Cell.withParent]) (by simp [hnil₁])) (fun d => ?_) ?_ ?_ ?_ ?_ ?_, hmap, ?_⟩
  · have hroot : m.parent other.header = ptrOf other.header T := h.focus.ctx
    rw [cloneFrom, hempty, if_neg (by decide), hroot]
    simp only [hrun, hmin, hmax]
  · cases d <;> simp [Mem.child_eq, Cell.withChild, Cell.withParent]
  · simp [Mem.color_eq, hblack₁, Cell.withParent]
  · rw [hsize, h.count]
  · obtain ⟨n, hbal⟩ := h.balanced
    exact ⟨n, (Bal.map_iff Item.val).mp (hmap ▸ (Bal.map_iff Item.val).mpr hbal)⟩
  · rw [hlist]
    exact h.sorted
  · intro a ha
    rcases List.mem_cons.mp ha with rfl | hmem
    · exact ⟨hq.nonnull a (by simp), hlive a ha⟩
    · exact ⟨(hcells a hmem).1, hlive a ha⟩
  · refine ⟨fun a ha haF => ?_, fun a ha => ?_⟩
    · have hne : a ≠ hdr := fun he => haF (by simp [he])
      obtain ⟨ha₁, hview⟩ := hev.keep a ha (by simp)
      exact ⟨ha₁, by simp [hne, hview]⟩
    · rcases List.mem_cons.mp ha with rfl | ha
      · exact .inl (by simp)
      · exact .inr ((hev.owned a ha).resolve_left (by simp))

theorem copyConstruct_spec (h : Represents lt key m other T) :
    ∃ m' q' T', copyConstruct pol m other = some (m', q') ∧ Represents lt key m' q' T' ∧
      T'.map Item.val = T.map Item.val ∧ Evolves m m' [] (footprint q' T') := by
  by_cases hT : T = .nil
  · have hempty : other.empty = true := by
      rw [Qtree.empty, h.count, hT]
      rfl
    refine ⟨m, Qtree.init, .nil, by rw [copyConstruct, if_pos hempty], .inl ⟨rfl, rfl⟩, by rw [hT], ?_⟩
    exact Evolves.refl m []
  · have hrb := h.resolve_left fun h => hT h.2
    obtain ⟨hq, hev⟩ := allocateHeader_spec pol m
    rcases hnew : allocateHeader pol m with ⟨hdr, m₁⟩
    simp only [hnew] at hq hev
    have hrb₁ := (h.frame hev (by simp)).resolve_left fun h => hT h.2
    obtain ⟨m', T', hrun, hrb', hmap, hev'⟩ := cloneFrom_spec pol hq hrb₁ hT
    have hempty : other.empty = false := by
      rw [Qtree.empty, beq_eq_false_iff_ne]
      exact hrb.count_ne_zero hT
    refine ⟨m', ⟨hdr, other.nodeCount⟩, T', ?_, .inr hrb', hmap, ?_⟩
    · rw [copyConstruct, hempty, if_neg (by decide)]
      simp only [hnew, hrun]
    · rw [hrb'.footprint_eq]
      exact hev.trans hev'

theorem copyAssign_spec {U : Shape V} (hq : Represents lt key m q T)
    (h : Represents lt key m other U) :
    ∃ m' q' T', copyAssign pol m q other = some (m', q') ∧ Represents lt key m' q' T' ∧
      T'.map Item.val = U.map Item.val ∧ Evolves m m' (footprint q T) (footprint q' T') := by
  obtain ⟨m₁, q', T', hrun, hrep, hmap, hev⟩ := copyConstruct_spec pol h
  have hq₁ := hq.frame hev (by simp)
  obtain ⟨m₂, hrun₂, hev₂⟩ := destruct_spec hq₁
  have hdisj : ∀ a ∈ footprint q' T', a ∉ footprint q T := by
    intro a ha hmem
    exact ((hev.owned a ha).resolve_left (by simp)) (hq.live a hmem)
  refine ⟨m₂, q', T', ?_, hrep.frame hev₂ hdisj, hmap, fun a ha haF => ?_, fun a ha => ?_⟩
  · rw [copyAssign, hrun]
    simp only [hrun₂, Option.map_some]
  · obtain ⟨ha₁, hview₁⟩ := hev.keep a ha (by simp)
    obtain ⟨ha₂, hview₂⟩ := hev₂.keep a ha₁ haF
    exact ⟨ha₂, hview₂.trans hview₁⟩
  · exact .inr ((hev.owned a ha).resolve_left (by simp))

end

end IdaSdk.QtreeDetail
