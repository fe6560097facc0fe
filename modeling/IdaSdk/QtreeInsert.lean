import IdaSdk.QtreeRepr
import IdaSdk.QtreeRotate

/-!
`insert_fixup`: repairs a red node below a red parent. The case groups A and B of the source are
mirror images; `d` is the side on which the parent hangs below the grandparent.
-/

namespace IdaSdk.QtreeDetail
open RedBlack RedBlack.Ctx SortedList
open RedBlack.ColorTree (branch branch_flip)

section
variable {N V : Type*} [NodeLayout N V]

/-- The loop of `insert_fixup`. -/
def insertFixupLoop (hdr : Ptr) : Nat → Mem N → Ptr → Option (Mem N)
  | 0, _, _ => none
  | fuel + 1, m, node =>
    let parentNode := m.parent node
    if m.isNil parentNode = true ∨ m.color parentNode ≠ .red then
      some m
    else
      let grand := m.parent parentNode
      let d := if parentNode = m.left grand then Side.left else Side.right
      let uncle := m.child d.flip grand
      if m.nodeColor uncle = .red then
        -- A1, B1
        let m := m.setColor parentNode .black
        let m := m.setColor uncle .black
        let m := m.setColor grand .red
        insertFixupLoop hdr fuel m grand
      else if node = m.child d.flip parentNode then
        -- A2a, B2a followed by A2b, B2b
        match rotate d m hdr parentNode with
        | none => none
        | some m =>
          let node := parentNode
          let parentNode := m.parent node
          let grand := m.parent parentNode
          let m := m.setColor parentNode .black
          let m := m.setColor grand .red
          match rotate d.flip m hdr grand with
          | none => none
          | some m => insertFixupLoop hdr fuel m node
      else
        -- A2b, B2b
        let m := m.setColor parentNode .black
        let m := m.setColor grand .red
        match rotate d.flip m hdr grand with
        | none => none
        | some m => insertFixupLoop hdr fuel m node

variable (m : Mem N)

def insertFixup (hdr node : Ptr) : Option (Mem N) :=
  (insertFixupLoop hdr (m.live.length + 1) m node).map fun m => m.setColorUnlessNil (m.parent hdr) .black

/-- The node that `emplace_at` builds before it is linked: red, with nil children. -/
def emplaceNode (pol : AllocPolicy) (m : Mem N) (hdr parentNode : Ptr) (v : V) : Ptr × Mem N :=
  let (newNode, m) := nodeNew pol m
  let m := m.setValue newNode (some v)
  let m := m.setIsNil newNode false
  let m := m.setParent newNode parentNode
  let m := m.setLeft newNode hdr
  let m := m.setRight newNode hdr
  (newNode, m.setColor newNode .red)

/-- The branch of `emplace_at` for an empty tree. -/
def linkRoot (hdr newNode : Ptr) : Mem N :=
  let m := m.setParent hdr newNode
  let m := m.setLeft hdr newNode
  let m := m.setRight hdr newNode
  let m := m.setColor newNode .black
  m.setParent newNode hdr

/-- The other branch, up to the call of `insert_fixup`. -/
def linkChild (hdr : Ptr) (d : Side) (parentNode newNode : Ptr) : Mem N :=
  let m := m.setChild d parentNode newNode
  if parentNode = m.child d hdr then m.setChild d hdr newNode else m

/-- Returns the new node together with the changed memory and tree object. -/
def emplaceAt (pol : AllocPolicy) (m : Mem N) (q : Qtree) (parentNode : Ptr) (goLeft : Bool) (v : V) :
    Option (Mem N × Qtree × Ptr) :=
  let (newNode, m) := emplaceNode pol m q.header parentNode v
  let q' := { q with nodeCount := q.nodeCount + 1 }
  if parentNode = q.header then
    some (linkRoot m q.header newNode, q', newNode)
  else
    let d := if goLeft then Side.left else Side.right
    (insertFixup (linkChild m q.header d parentNode newNode) q.header newNode).map fun m => (m, q', newNode)

end

section
variable {N V : Type*} [NodeLayout N V] [LawfulNodeLayout N V] {hdr : Ptr} {L : List (Item V)}

variable {k : Path V} {d : Side} {m : Mem N} {s t : Shape V} {p : Item V}

theorem rotate_outer {u : Shape V} {g : Item V}
    (hf : Focus m hdr L (⟨d, .red, p, s⟩ :: ⟨d, .black, g, u⟩ :: k) t) :
    ∃ m', rotate d.flip ((m.setColor p.addr .black).setColor g.addr .red) hdr g.addr = some m' ∧
      Focus m' hdr L (⟨d, .black, p, branch d .red s g u⟩ :: k) t ∧ SameOff hdr (L.map Item.addr) m m' := by
  obtain ⟨hp, hsame₁⟩ := hf.up.setColor .black
  obtain ⟨hg, hsame₂⟩ := hp.up.setColor .red
  rw [← branch_flip d .red, ← branch_flip d .black] at hg
  obtain ⟨m', hrot, hf', hsame₃⟩ := hg.rotate
  rw [branch_flip, branch_flip] at hf'
  exact ⟨m', hrot, hf'.down, (hsame₁.trans hsame₂).trans hsame₃⟩

theorem rotate_inner {A B : Shape V} {x : Item V}
    (hf : Focus m hdr L (⟨d.flip, .red, p, s⟩ :: k) (branch d .red A x B)) :
    ∃ m', rotate d m hdr p.addr = some m' ∧
      Focus m' hdr L (⟨d, .red, x, B⟩ :: k) (branch d .red s p A) ∧ SameOff hdr (L.map Item.addr) m m' := by
  have hup := hf.up
  rw [branch_flip] at hup
  obtain ⟨m', hrot, hf', hsame⟩ := hup.rotate
  exact ⟨m', hrot, hf'.down, hsame⟩

theorem recolor_uncle {A B : Shape V} {g u : Item V}
    (hf : Focus m hdr L (⟨d, .red, p, s⟩ :: ⟨d', .black, g, branch d .red A u B⟩ :: k) t) :
    Focus (((m.setColor p.addr .black).setColor u.addr .black).setColor g.addr .red) hdr L k
        (branch d' .red (branch d .black t p s) g (branch d .black A u B)) ∧
      SameOff hdr (L.map Item.addr) m
        (((m.setColor p.addr .black).setColor u.addr .black).setColor g.addr .red) := by
  obtain ⟨hp, hsame₁⟩ := hf.up.setColor .black
  obtain ⟨hu, hsame₂⟩ := hp.across.setColor .black
  have hg := hu.across
  rw [Side.flip_flip] at hg
  obtain ⟨hg, hsame₃⟩ := hg.up.setColor .red
  exact ⟨hg, (hsame₁.trans hsame₂).trans hsame₃⟩

/-- Each iteration moves the red node up or leaves it below a black parent. -/
theorem insertFixupLoop_spec (fuel : Nat) {n : Nat}
    (hfuel : k.length < fuel) (hf : Focus m hdr L k t) (ht : Bal t .red n) (hk : CtxBal k .black n) :
    ∃ m' T, insertFixupLoop hdr fuel m (ptrOf hdr t) = some m' ∧ Focus m' hdr L [] T ∧
      (∃ c n', Bal T c n') ∧ SameOff hdr (L.map Item.addr) m m' := by
  induction fuel generalizing m k t n with
  | zero => omega
  | succ fuel ih =>
      have hne : t ≠ .nil := by
        rintro rfl
        cases ht
      have hparent := hf.parent_ptrOf hne
      cases k with
      | nil =>
          have hnil : m.isNil hdr = true := hf.hdrNil
          refine ⟨m, t, ?_, hf, ⟨_, _, ht⟩, SameOff.refl _ _ _⟩
          simp only [insertFixupLoop, hparent, ctxPtr_nil, hnil, true_or, if_true]
      | cons f k =>
          obtain ⟨d, color, p, s⟩ := f
          have hnil : m.isNil p.addr = false := hf.up.isNil
          have hcolor : m.color p.addr = color := hf.up.color
          rw [ctxPtr_cons] at hparent
          cases color with
          | black =>
              obtain ⟨⟨c', hs⟩, hk'⟩ := hk.of_cons_black
              obtain ⟨n', hT⟩ := hk'.plug (Bal.branch_black d ht hs)
              refine ⟨m, _, ?_, hf.up.toRoot, ⟨_, _, hT⟩, SameOff.refl _ _ _⟩
              simp [insertFixupLoop, hparent, hcolor]
          | red =>
              obtain ⟨-, hs, hk'⟩ := hk.of_cons_red
              obtain ⟨d', g, u, k, cu, rfl, hu, hk''⟩ := hk'.exists_of_red
              have hpne : branch d .red t p s ≠ .nil := by cases d <;> simp
              have hside := hf.up.side_eq hpne
              have hgrand : m.parent p.addr = g.addr := hf.up.parent
              have huncle : m.child d'.flip g.addr = ptrOf hdr u := hf.up.up.child_flip
              have hucolor : m.nodeColor (ptrOf hdr u) = cu := hf.up.across.nodeColor.trans hu.rootColor_eq
              rw [ptrOf_branch] at hside
              simp only [insertFixupLoop, hparent, hnil, hcolor, hgrand, hside, huncle, hucolor, Bool.false_eq_true,
                ne_eq, not_true_eq_false, or_self, if_false]
              simp only [List.length_cons] at hfuel
              cases cu with
              | red =>
                  obtain ⟨A, x, B, rfl, hA, hB⟩ := hu.exists_red d
                  obtain ⟨hf', hsame⟩ := recolor_uncle hf
                  obtain ⟨m', T, hrun, hT, hbal, hsame'⟩ := ih (by omega) hf'
                    (Bal.branch_red d' (Bal.branch_black d ht hs) (Bal.branch_black d hA hB)) hk''
                  rw [ptrOf_branch] at hrun ⊢
                  exact ⟨m', T, hrun, hT, hbal, hsame.trans hsame'⟩
              | black =>
                  have hk₂ : ∀ (e : Item V) {l : Shape V}, Bal l .black n →
                      CtxBal (⟨d', .black, e, branch d' .red l g u⟩ :: k) .black n :=
                    fun e l hl => .black (Bal.branch_red d' hl hu) hk''
                  rcases d.eq_or_eq_flip d' with rfl | rfl
                  · have hother : m.child d.flip p.addr = ptrOf hdr s := hf.up.child_flip
                    obtain ⟨m₁, hrot, hf', hsame⟩ := rotate_outer hf
                    obtain ⟨m', T, hrun, hT, hbal, hsame'⟩ := ih (by simpa using by omega) hf' ht (hk₂ p hs)
                    refine ⟨m', T, ?_, hT, hbal, hsame.trans hsame'⟩
                    simp only [hother, hf.up.ptrOf_ne hne, hrot, hrun, if_false, reduceCtorEq]
                  · have hsame_side : m.child d'.flip p.addr = ptrOf hdr t := hf.up.child
                    obtain ⟨A, x, B, rfl, hA, hB⟩ := ht.exists_red d'
                    obtain ⟨m₁, hrot₁, hf₁, hsame₁⟩ := rotate_inner hf
                    obtain ⟨m₂, hrot₂, hf₂, hsame₂⟩ := rotate_outer hf₁
                    obtain ⟨m', T, hrun, hT, hbal, hsame'⟩ :=
                      ih (by simpa using by omega) hf₂ (Bal.branch_red d' hs hA) (hk₂ x hB)
                    refine ⟨m', T, ?_, hT, hbal, (hsame₁.trans hsame₂).trans hsame'⟩
                    have hp₁ : m₁.parent p.addr = x.addr := hf₁.parent
                    have hx₁ : m₁.parent x.addr = g.addr := hf₁.up.parent
                    rw [ptrOf_branch] at hrun
                    simp only [hsame_side, hrot₁, hp₁, hx₁, hrot₂, hrun, if_true, if_false, reduceCtorEq]

theorem insertFixup_spec {n : Nat}
    (hlive : ∀ a ∈ hdr :: L.map Item.addr, a ∈ m.live) (hf : Focus m hdr L k t) (ht : Bal t .red n)
    (hk : CtxBal k .black n) :
    ∃ m' T, insertFixup m hdr (ptrOf hdr t) = some m' ∧ Focus m' hdr L [] T ∧ (∃ n', Bal T .black n') ∧
      SameOff hdr (L.map Item.addr) m m' := by
  have hlen : k.length < m.live.length + 1 := by
    have := hf.size_lt hlive
    omega
  obtain ⟨m₁, T, hrun, hT, ⟨c, n', hbal⟩, hsame⟩ := insertFixupLoop_spec _ hlen hf ht hk
  obtain ⟨hT', hsame'⟩ := hT.setColorUnlessNil .black
  refine ⟨_, _, ?_, hT', hbal.withColor_black, hsame.trans hsame'⟩
  have hroot : m₁.parent hdr = ptrOf hdr T := hT.ctx
  simp only [insertFixup, hrun, hroot, Option.map_some]

/-! ### Linking a new node -/

section
variable {m : Mem N} {k : Path V} {a : Ptr} {v : V} {d : Side}

theorem Focus.attach {c : Color} {p : Item V} {s : Shape V} (hf : Focus m hdr L (⟨d, c, p, s⟩ :: k) .nil)
    (hnew : m.view a = Cell.material .left hdr hdr p.addr .red v) (ha : a ∉ hdr :: L.map Item.addr) :
    Focus (m.setChild d p.addr a) hdr (before (⟨d, c, p, s⟩ :: k) ++ ⟨a, v⟩ :: after (⟨d, c, p, s⟩ :: k))
      (⟨d, c, p, s⟩ :: k) (.node .red .nil ⟨a, v⟩ .nil) := by
  have hsep := hf.separated
  have hmem : ∀ b, b ∈ L.map Item.addr ↔ b ∈ ctxAddrs (⟨d, c, p, s⟩ :: k) := fun b => by simp [hf.mem_order]
  simp only [addrs_nil, List.nil_append, ctxAddrs_cons, List.nodup_cons, List.mem_cons, List.mem_append,
    not_or] at hsep
  obtain ⟨⟨hhp, hhs, hhk⟩, ⟨hps, hpk⟩, -⟩ := hsep
  simp only [List.mem_cons, hmem, ctxAddrs_cons, List.mem_append, not_or] at ha
  obtain ⟨hah, hap, has, hak⟩ := ha
  obtain ⟨hcell, hs, hk⟩ := hf.ctx
  refine ⟨⟨by simpa [hap] using hnew, trivial, trivial⟩, ⟨by simp [hcell, ptrOf], ?_, ?_⟩, ?_, ?_,
    by simp [hhp, hf.hdrNil]⟩
  · exact hs.congr fun b hb => by simp [ne_of_mem_of_not_mem hb hps]
  · exact hk.congr (by simp [hhp]) fun b hb => by simp [ne_of_mem_of_not_mem hb hpk]
  · rw [toList_plug]
    simp
  have hperm : (before (⟨d, c, p, s⟩ :: k) ++ (⟨a, v⟩ : Item V) :: after (⟨d, c, p, s⟩ :: k)).Perm
      (⟨a, v⟩ :: L) := by
    rw [← hf.order, toList_plug]
    simp
  have hnd := hf.nodup
  have hnew : a ∉ L.map Item.addr := by
    simp only [hmem, ctxAddrs_cons, List.mem_cons, List.mem_append, not_or]
    exact ⟨hap, has, hak⟩
  rw [((hperm.map Item.addr).cons hdr).nodup_iff]
  rw [List.nodup_cons] at hnd
  simp only [List.map_cons, List.nodup_cons, List.mem_cons, not_or]
  exact ⟨⟨Ne.symm hah, hnd.1⟩, hnew, hnd.2⟩

theorem emplaceNode_spec (pol : AllocPolicy) (m : Mem N) (hdr parentNode : Ptr) (v : V) :
    (emplaceNode pol m hdr parentNode v).1 ≠ nullptr ∧
      (emplaceNode pol m hdr parentNode v).1 ∉ m.live ∧
      (emplaceNode pol m hdr parentNode v).2.live = (emplaceNode pol m hdr parentNode v).1 :: m.live ∧
      (emplaceNode pol m hdr parentNode v).2.view (emplaceNode pol m hdr parentNode v).1 =
        Cell.material .left hdr hdr parentNode .red v ∧
      ∀ b, b ≠ (emplaceNode pol m hdr parentNode v).1 →
        (emplaceNode pol m hdr parentNode v).2.view b = m.view b := by
  obtain ⟨hne, hnotMem, hlive, hoff⟩ := nodeNew_spec pol m
  refine ⟨hne, hnotMem, hlive, ?_, fun b hb => ?_⟩
  · simp only [emplaceNode, Mem.view_setColor, Mem.view_setRight, Mem.view_setLeft, Mem.view_setParent,
      Mem.view_setIsNil, Mem.view_setValue, if_true]
    rfl
  · have hb' : b ≠ (nodeNew pol m).1 := hb
    simp [emplaceNode, hb', hoff b hb']

end

section
variable {K : Type*} {lt : K → K → Bool} {key : V → K} {m : Mem N} {q : Qtree} {v : V}

variable (pol : AllocPolicy)

theorem emplaceAt_root (goLeft : Bool) (h : RedBlackTree lt key m q .nil) :
    ∃ m' a, emplaceAt pol m q q.header goLeft v = some (m', { q with nodeCount := q.nodeCount + 1 }, a) ∧
      RedBlackTree lt key m' { q with nodeCount := q.nodeCount + 1 } (.node .black .nil ⟨a, v⟩ .nil) ∧
      Evolves m m' [q.header] [q.header, a] := by
  obtain ⟨ha0, halive, hlive, hview, hoff⟩ := emplaceNode_spec pol m q.header q.header v
  have hhdr := h.live q.header (by simp)
  have hhdr0 := h.nonnull q.header (by simp)
  have hrun : emplaceAt pol m q q.header goLeft v =
      some (linkRoot (emplaceNode pol m q.header q.header v).2 q.header (emplaceNode pol m q.header q.header v).1,
        { q with nodeCount := q.nodeCount + 1 }, (emplaceNode pol m q.header q.header v).1) := by
    simp only [emplaceAt, if_true]
  generalize (emplaceNode pol m q.header q.header v).1 = a at *
  generalize (emplaceNode pol m q.header q.header v).2 = m₁ at *
  have hne : a ≠ q.header := fun h => halive (h ▸ hhdr)
  have hhdr₁ := hoff q.header (Ne.symm hne)
  refine ⟨linkRoot m₁ q.header a, a, hrun, ⟨⟨⟨?_, trivial, trivial⟩, ?_, rfl, ?_, ?_⟩, ?_, ?_, ?_,
    ⟨_, .black .nil .nil⟩, ?_, ?_, ?_⟩, fun b hb hbF => ?_, fun b hb => ?_⟩
  · simp [linkRoot, hne, hview]
  · simp [linkRoot, CtxHolds, Ne.symm hne, ptrOf]
  · simpa using Ne.symm hne
  · simp [linkRoot, Ne.symm hne, hhdr₁, h.focus.hdrNil]
  · intro d
    cases d <;> simp [linkRoot, Mem.child_eq, Ne.symm hne, hhdr₁, endPtr, Cell.withChild, Cell.withParent]
  · have hblack := h.headerBlack
    rw [Mem.color_eq] at hblack
    simp [linkRoot, Mem.color_eq, Ne.symm hne, hhdr₁, Cell.withChild, Cell.withParent, hblack]
  · simp [h.count, ColorTree.size]
  · exact List.pairwise_singleton _ _
  · simp [ha0, hhdr0]
  · simp [linkRoot, hlive, hhdr]
  · simp only [List.mem_singleton] at hbF
    have hba : b ≠ a := fun h => halive (h ▸ hb)
    simp [linkRoot, hlive, hb, hbF, hba, hoff b hba]
  · rcases List.mem_cons.mp hb with rfl | hb
    · exact .inl (by simp)
    · rw [List.mem_singleton.mp hb]
      exact .inr halive

variable {k : Path V}

theorem linkChild_spec {m₁ : Mem N} {L : List (Item V)} {d : Side} {c : Color} {p : Item V} {s : Shape V} {a : Ptr} (hf : Focus m₁ hdr L (⟨d, c, p, s⟩ :: k) .nil)
    (hnew : m₁.view a = Cell.material .left hdr hdr p.addr .red v) (ha : a ∉ hdr :: L.map Item.addr)
    (hcache : ∀ d, m₁.child d hdr = endPtr hdr d L) :
    Focus (linkChild m₁ hdr d p.addr a) hdr (before (⟨d, c, p, s⟩ :: k) ++ ⟨a, v⟩ :: after (⟨d, c, p, s⟩ :: k))
        (⟨d, c, p, s⟩ :: k) (.node .red .nil ⟨a, v⟩ .nil) ∧
      (∀ d', (linkChild m₁ hdr d p.addr a).child d' hdr =
        endPtr hdr d' (before (⟨d, c, p, s⟩ :: k) ++ ⟨a, v⟩ :: after (⟨d, c, p, s⟩ :: k))) ∧
      (linkChild m₁ hdr d p.addr a).live = m₁.live ∧
      (linkChild m₁ hdr d p.addr a).color hdr = m₁.color hdr ∧
      ∀ b, b ≠ hdr → b ∉ L.map Item.addr → (linkChild m₁ hdr d p.addr a).view b = m₁.view b := by
  have hp : p.addr ∈ L.map Item.addr := hf.mem_order.mpr (.inr (by simp))
  have hhp : hdr ≠ p.addr := fun h => (List.nodup_cons.mp hf.nodup).1 (h ▸ hp)
  have hL : L = before (⟨d, c, p, s⟩ :: k) ++ after (⟨d, c, p, s⟩ :: k) := by
    rw [← hf.order, toList_plug]
    simp
  have hnd : (L.map Item.addr).Nodup := (List.nodup_cons.mp hf.nodup).2
  rw [hL] at hnd
  obtain ⟨hend, hend_flip⟩ := @endPtr_insert _ hdr ⟨d, c, p, s⟩ k ⟨a, v⟩ hnd
  rw [← hL] at hend hend_flip
  have hcell : (m₁.setChild d p.addr a).view hdr = m₁.view hdr := by simp [hhp]
  have hdir : (m₁.setChild d p.addr a).child d hdr = endPtr hdr d L := by
    rw [Mem.child_eq, hcell, ← Mem.child_eq, hcache]
  have hflip : (m₁.setChild d p.addr a).child d.flip hdr = endPtr hdr d.flip L := by
    rw [Mem.child_eq, hcell, ← Mem.child_eq, hcache]
  have hatt := hf.attach hnew ha
  rw [linkChild, hdir]
  by_cases hpe : p.addr = endPtr hdr d L
  · simp only [if_pos hpe] at hend ⊢
    refine ⟨hatt.congr (fun b hb => ?_) ?_ ?_, fun d' => ?_, by simp, ?_, fun b hb hbL => ?_⟩
    · have hbh : b ≠ hdr := ne_of_mem_of_not_mem hb (List.nodup_cons.mp hatt.nodup).1
      simp [hbh]
    · simp
    · simp
    · rcases d'.eq_or_eq_flip d with rfl | rfl
      · rw [hend, Mem.child_eq]
        simp
      · rw [hend_flip, ← hflip, Mem.child_eq, Mem.child_eq]
        simp
    · simp [Mem.color_eq, hhp]
    · simp [hb, (ne_of_mem_of_not_mem hp hbL).symm]
  · simp only [if_neg hpe] at hend ⊢
    refine ⟨hatt, fun d' => ?_, by simp, ?_, fun b hb hbL => ?_⟩
    · rcases d'.eq_or_eq_flip d with rfl | rfl
      · rw [hend, hdir]
      · rw [hend_flip, hflip]
    · rw [Mem.color_eq, hcell, Mem.color_eq]
    · simp [(ne_of_mem_of_not_mem hp hbL).symm]

variable {f : Frame (Item V)}

theorem linkChild_emplaceNode_spec (v : V)
    (h : RedBlackTree lt key m q (plug (f :: k) .nil)) :
    ∃ a m₁ m₂, emplaceNode pol m q.header f.entry.addr v = (a, m₁) ∧
      linkChild m₁ q.header f.side f.entry.addr a = m₂ ∧ a ≠ nullptr ∧ a ∉ m.live ∧
      Focus m₂ q.header (before (f :: k) ++ ⟨a, v⟩ :: after (f :: k)) (f :: k) (.node .red .nil ⟨a, v⟩ .nil) ∧
      (∀ d, m₂.child d q.header = endPtr q.header d (before (f :: k) ++ ⟨a, v⟩ :: after (f :: k))) ∧
      m₂.live = a :: m.live ∧ m₂.color q.header = .black ∧
      ∀ b, b ≠ q.header → b ∉ addrs (plug (f :: k) .nil) → b ≠ a → m₂.view b = m.view b := by
  obtain ⟨d, c, p, s⟩ := f
  obtain ⟨ha0, halive, hlive, hview, hoff⟩ := emplaceNode_spec pol m q.header p.addr v
  have hf : Focus m q.header (plug (⟨d, c, p, s⟩ :: k) .nil).toList (⟨d, c, p, s⟩ :: k) .nil := by
    simpa using h.focus.fromRoot
  rcases hnew : emplaceNode pol m q.header p.addr v with ⟨a, m₁⟩
  rw [hnew] at ha0 halive hlive hview hoff
  have hafoot : a ∉ q.header :: addrs (plug (⟨d, c, p, s⟩ :: k) .nil) := fun ha => halive (h.live a ha)
  have hhdr₁ := hoff q.header (ne_of_mem_of_not_mem (List.mem_cons_self ..) hafoot)
  have hf₁ : Focus m₁ q.header (plug (⟨d, c, p, s⟩ :: k) .nil).toList (⟨d, c, p, s⟩ :: k) .nil :=
    hf.congr (fun b hb => hoff b (ne_of_mem_of_not_mem (List.mem_cons_of_mem _ hb) hafoot)) (by rw [hhdr₁])
      (by rw [hhdr₁])
  obtain ⟨hf₂, hcache, hlive₂, hcolor₂, hoff₂⟩ := linkChild_spec hf₁ hview hafoot fun d => by
    rw [Mem.child_eq, hhdr₁, ← Mem.child_eq, h.cache]
  refine ⟨a, m₁, _, rfl, rfl, ha0, halive, hf₂, hcache, hlive₂.trans hlive, ?_, fun b hb hbT hba => ?_⟩
  · rw [hcolor₂, Mem.color_eq, hhdr₁, ← Mem.color_eq, h.headerBlack]
  · rw [hoff₂ b hb hbT, hoff b hba]

theorem emplaceAt_child {goLeft : Bool}
    (h : RedBlackTree lt key m q (plug (f :: k) .nil))
    (hside : f.side = if goLeft then .left else .right)
    (hbetween : Between lt key ((before (f :: k)).map Item.val) (key v) ((after (f :: k)).map Item.val)) :
    ∃ m' a T', emplaceAt pol m q f.entry.addr goLeft v = some (m', { q with nodeCount := q.nodeCount + 1 }, a) ∧
      RedBlackTree lt key m' { q with nodeCount := q.nodeCount + 1 } T' ∧
      T'.toList = before (f :: k) ++ ⟨a, v⟩ :: after (f :: k) ∧
      Evolves m m' (q.header :: addrs (plug (f :: k) .nil)) (q.header :: addrs T') := by
  obtain ⟨a, m₁, m₂, hnew, hlink, ha0, halive, hf₂, hcache, hlive₂, hblack₂, hoff₂⟩ :=
    linkChild_emplaceNode_spec pol v h
  have hL : (plug (f :: k) .nil).toList = before (f :: k) ++ after (f :: k) := by
    rw [toList_plug]
    simp
  have hpne : f.entry.addr ≠ q.header := by
    have hf : Focus m q.header (plug (f :: k) .nil).toList (f :: k) .nil := by simpa using h.focus.fromRoot
    have hmem : f.entry.addr ∈ addrs (plug (f :: k) .nil) := hf.mem_order.mpr (.inr (by simp))
    exact fun he => (List.nodup_cons.mp hf.nodup).1 (he ▸ hmem)
  have hcells : ∀ b ∈ q.header :: (before (f :: k) ++ (⟨a, v⟩ : Item V) :: after (f :: k)).map Item.addr,
      b = a ∨ b ∈ q.header :: addrs (plug (f :: k) .nil) := by
    intro b hb
    rw [addrs, hL]
    simp only [List.map_append, List.map_cons, List.mem_cons, List.mem_append] at hb ⊢
    tauto
  have hlive' : ∀ b, b = a ∨ b ∈ q.header :: addrs (plug (f :: k) .nil) → b ∈ a :: m.live := by
    rintro b (rfl | hb)
    · exact List.mem_cons_self ..
    · exact List.mem_cons_of_mem _ (h.live b hb)
  obtain ⟨n, hbal⟩ := h.balanced
  obtain ⟨cn, n, hnil, hctx⟩ := hbal.of_plug
  cases hnil
  obtain ⟨m', T', hfix, hf', hbal', hsame⟩ := insertFixup_spec (fun b hb => by
    rw [hlive₂]
    exact hlive' b (hcells b hb)) hf₂ (.red .nil .nil) hctx
  have hT' : T'.toList = before (f :: k) ++ ⟨a, v⟩ :: after (f :: k) := hf'.order
  have hlive₃ : m'.live = a :: m.live := by rw [hsame.live, hlive₂]
  refine ⟨m', a, T', ?_, RedBlackTree.of_focus hf' ?_ ?_ ?_ hbal' ?_ ?_, hT', fun b hb hbF => ?_, fun b hb => ?_⟩
  · have hptr : ptrOf q.header (.node .red .nil (⟨a, v⟩ : Item V) .nil) = a := rfl
    rw [hptr] at hfix
    simp only [emplaceAt, hnew, if_neg hpne, ← hside, hlink, hfix, Option.map_some]
  · intro d'
    rw [hsame.child_header, hcache]
  · rw [hsame.color_header, hblack₂]
  · rw [h.count, ← ColorTree.length_toList, hL]
    simp only [List.length_append, List.length_cons]
    omega
  · have hs := h.sorted
    rw [hL, List.map_append] at hs
    rw [List.map_append, List.map_cons]
    exact hbetween.sortedBy_insert hs
  · intro b hb
    refine ⟨?_, hlive₃ ▸ hlive' b (hcells b hb)⟩
    rcases hcells b hb with rfl | hb
    · exact ha0
    · exact h.nonnull b hb
  · have hba : b ≠ a := fun he => halive (he ▸ hb)
    simp only [List.mem_cons, not_or] at hbF
    refine ⟨by simp [hlive₃, hb], ?_⟩
    have hbL : b ∉ (before (f :: k) ++ (⟨a, v⟩ : Item V) :: after (f :: k)).map Item.addr :=
      fun hmem => (hcells b (List.mem_cons_of_mem _ hmem)).elim hba fun hb' =>
        (List.mem_cons.mp hb').elim hbF.1 hbF.2
    rw [hsame.off b hbL hbF.1, hoff₂ b hbF.1 hbF.2 hba]
  · rw [addrs, hT'] at hb
    exact (hcells b hb).elim (fun he => .inr (he ▸ halive)) .inl

end

end

end IdaSdk.QtreeDetail
