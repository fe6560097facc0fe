import IdaSdk.QtreeRotate

/-!
`erase_fixup`: a subtree `x` is one black node short. The left and right sides of the source are
mirror images; `d` is the side of `x` below its parent, and `w` is its sibling.
-/

namespace IdaSdk.QtreeDetail
open RedBlack RedBlack.Ctx
open RedBlack.ColorTree (branch branch_flip)

section
variable {N V : Type*} [NodeLayout N V]

def childColor (m : Mem N) (d : Side) (node : Ptr) : Color :=
  if m.isNil node then .black else m.nodeColor (m.child d node)

/-- Case 1: a red sibling is rotated away. Returns the new sibling. -/
def eraseFixupCase1 (d : Side) (m : Mem N) (hdr parentNode w : Ptr) : Option (Mem N × Ptr) :=
  if m.nodeColor w = .red then
    let m := m.setColor w .black
    let m := m.setColor parentNode .red
    (rotate d m hdr parentNode).map fun m => (m, m.child d.flip parentNode)
  else
    some (m, w)

/-- Case 3: an inner red nephew becomes the sibling. Returns the new sibling. -/
def eraseFixupCase3 (d : Side) (m : Mem N) (hdr parentNode w : Ptr) : Option (Mem N × Ptr) :=
  if m.isNil w then
    some (m, m.child d.flip parentNode)
  else
    let m := m.setColorUnlessNil (m.child d w) .black
    let m := m.setColor w .red
    (rotate d.flip m hdr w).map fun m => (m, m.child d.flip parentNode)

/-- Case 4: an outer red nephew pays for the missing black node. -/
def eraseFixupCase4 (d : Side) (m : Mem N) (hdr parentNode w : Ptr) : Option (Mem N) :=
  let m := m.setColorUnlessNil w (m.color parentNode)
  let m := m.setColor parentNode .black
  let m := m.setColorUnlessNil (m.child d.flip w) .black
  rotate d m hdr parentNode

/-- The loop of `erase_fixup`; returns the memory and the final `x`. -/
def eraseFixupLoop (hdr : Ptr) : Nat → Mem N → Ptr → Ptr → Option (Mem N × Ptr)
  | 0, _, _, _ => none
  | fuel + 1, m, x, parentNode =>
    if x = m.parent hdr ∨ m.nodeColor x ≠ .black then
      some (m, x)
    else
      let d := if x = m.left parentNode then Side.left else Side.right
      match eraseFixupCase1 d m hdr parentNode (m.child d.flip parentNode) with
      | none => none
      | some (m, w) =>
        if childColor m d w = .black ∧ childColor m d.flip w = .black then
          -- case 2
          let m := m.setColorUnlessNil w .red
          eraseFixupLoop hdr fuel m parentNode (m.parent parentNode)
        else
          match if childColor m d.flip w = .black then eraseFixupCase3 d m hdr parentNode w else some (m, w) with
          | none => none
          | some (m, w) =>
            match eraseFixupCase4 d m hdr parentNode w with
            | none => none
            | some m => eraseFixupLoop hdr fuel m (m.parent hdr) hdr

/-- Whether the siblings that the loop looks at are nil: `w` at the start of each iteration, after case 1 and after
case 3. -/
def eraseFixupSiblings (hdr : Ptr) : Nat → Mem N → Ptr → Ptr → List Bool
  | 0, _, _, _ => []
  | fuel + 1, m, x, parentNode =>
    if x = m.parent hdr ∨ m.nodeColor x ≠ .black then
      []
    else
      let d := if x = m.left parentNode then Side.left else Side.right
      m.isNil (m.child d.flip parentNode) ::
        match eraseFixupCase1 d m hdr parentNode (m.child d.flip parentNode) with
        | none => []
        | some (m, w) =>
          m.isNil w ::
            if childColor m d w = .black ∧ childColor m d.flip w = .black then
              let m := m.setColorUnlessNil w .red
              eraseFixupSiblings hdr fuel m parentNode (m.parent parentNode)
            else
              match if childColor m d.flip w = .black then eraseFixupCase3 d m hdr parentNode w else some (m, w) with
              | none => []
              | some (m, w) =>
                m.isNil w ::
                  match eraseFixupCase4 d m hdr parentNode w with
                  | none => []
                  | some m => eraseFixupSiblings hdr fuel m (m.parent hdr) hdr

def eraseFixup (m : Mem N) (hdr x parentNode : Ptr) : Option (Mem N) :=
  (eraseFixupLoop hdr (m.live.length + 1) m x parentNode).map fun (m, x) =>
    let m := m.setColorUnlessNil x .black
    m.setColorUnlessNil (m.parent hdr) .black

end

section
variable {N V : Type*} [NodeLayout N V] [LawfulNodeLayout N V] {m : Mem N} {hdr : Ptr} {L : List (Item V)}
  {k : Path V} {d : Side} {t A B : Shape V} {p w : Item V} {cp : Color}

omit [LawfulNodeLayout N V] in
theorem Focus.childColor (hf : Focus m hdr L k (branch d cp A w B)) :
    childColor m d w.addr = A.rootColor ∧ childColor m d.flip w.addr = B.rootColor := by
  have hflip := hf
  rw [← branch_flip] at hflip
  refine ⟨?_, ?_⟩
  · rw [QtreeDetail.childColor, hf.isNil, if_neg (by decide), hf.child, hf.down.nodeColor]
  · rw [QtreeDetail.childColor, hf.isNil, if_neg (by decide), hf.child_flip, hflip.down.nodeColor]

theorem eraseFixupCase1_red (hf : Focus m hdr L (⟨d, cp, p, branch d .red A w B⟩ :: k) t) :
    ∃ m', eraseFixupCase1 d m hdr p.addr w.addr = some (m', ptrOf hdr A) ∧
      Focus m' hdr L (⟨d, .red, p, A⟩ :: ⟨d, .black, w, B⟩ :: k) t ∧ SameOff hdr (L.map Item.addr) m m' := by
  have hw : m.nodeColor w.addr = .red := by
    have hcolor := hf.across.nodeColor
    rw [ptrOf_branch] at hcolor
    cases d <;> exact hcolor
  obtain ⟨hw₁, hsame₁⟩ := hf.across.setColor .black
  have hp₁ := hw₁.across
  rw [Side.flip_flip] at hp₁
  obtain ⟨hp₂, hsame₂⟩ := hp₁.up.setColor .red
  obtain ⟨m', hrot, hf', hsame₃⟩ := hp₂.rotate
  have hchild := hf'.down.child_flip
  refine ⟨m', ?_, hf'.down.down, (hsame₁.trans hsame₂).trans hsame₃⟩
  simp only [eraseFixupCase1, hw, if_true, hrot, Option.map_some, hchild]

theorem eraseFixupCase3_spec {A₁ A₂ : Shape V} {a : Item V}
    (hf : Focus m hdr L (⟨d, cp, p, branch d .black (branch d .red A₁ a A₂) w B⟩ :: k) t) :
    ∃ m', eraseFixupCase3 d m hdr p.addr w.addr = some (m', a.addr) ∧
      Focus m' hdr L (⟨d, cp, p, branch d .black A₁ a (branch d .red A₂ w B)⟩ :: k) t ∧
      SameOff hdr (L.map Item.addr) m m' := by
  have hnil : m.isNil w.addr = false := hf.across.isNil
  have hchild : m.child d w.addr = a.addr := hf.across.child.trans (ptrOf_branch ..)
  have hanil : m.isNil a.addr = false := hf.across.down.isNil
  obtain ⟨ha₁, hsame₁⟩ := hf.across.down.setColor .black
  obtain ⟨hw₂, hsame₂⟩ := ha₁.up.setColor .red
  rw [← branch_flip d .red, ← branch_flip d .black] at hw₂
  obtain ⟨m', hrot, hf', hsame₃⟩ := hw₂.rotate
  rw [branch_flip, branch_flip] at hf'
  have hback := hf'.across
  rw [Side.flip_flip] at hback
  have hsib := hback.up.child_flip
  rw [ptrOf_branch] at hsib
  refine ⟨m', ?_, hback, (hsame₁.trans hsame₂).trans hsame₃⟩
  simp only [eraseFixupCase3, hnil, hchild, Mem.setColorUnlessNil, hanil, Bool.false_eq_true, if_false, hrot,
    Option.map_some, hsib]

theorem eraseFixupCase4_spec {B₁ B₂ : Shape V} {b : Item V}
    (hf : Focus m hdr L (⟨d, cp, p, branch d .black A w (branch d .red B₁ b B₂)⟩ :: k) t) :
    ∃ m', eraseFixupCase4 d m hdr p.addr w.addr = some m' ∧
      Focus m' hdr L k (branch d cp (branch d .black t p A) w (branch d .black B₁ b B₂)) ∧
      SameOff hdr (L.map Item.addr) m m' := by
  have hnil : m.isNil w.addr = false := hf.across.isNil
  have hcolor : m.color p.addr = cp := hf.up.color
  obtain ⟨hw₁, hsame₁⟩ := hf.across.setColor cp
  have hp₁ := hw₁.across
  rw [Side.flip_flip] at hp₁
  obtain ⟨hp₂, hsame₂⟩ := hp₁.up.setColor .black
  rw [← branch_flip d .black] at hp₂
  have hw₂ := hp₂.down
  rw [← branch_flip d cp] at hw₂
  have hchild : ((m.setColor w.addr cp).setColor p.addr .black).child d.flip w.addr = b.addr :=
    hw₂.child.trans (ptrOf_branch ..)
  have hbnil : ((m.setColor w.addr cp).setColor p.addr .black).isNil b.addr = false := hw₂.down.isNil
  obtain ⟨hb₃, hsame₃⟩ := hw₂.down.setColor .black
  have hp₃ := hb₃.up.up
  rw [branch_flip, branch_flip] at hp₃
  obtain ⟨m', hrot, hf', hsame₄⟩ := hp₃.rotate
  refine ⟨m', ?_, hf', ((hsame₁.trans hsame₂).trans hsame₃).trans hsame₄⟩
  simp only [eraseFixupCase4, Mem.setColorUnlessNil, hnil, hcolor, Bool.false_eq_true, if_false, hchild, hbnil,
    hrot]

theorem eraseFixupCase1_spec {W : Shape V} {n : Nat} (hf : Focus m hdr L (⟨d, cp, p, W⟩ :: k) t)
    (hk : CtxBal (⟨d, cp, p, W⟩ :: k) .black (n + 1)) :
    ∃ m' c' W' k', eraseFixupCase1 d m hdr p.addr (ptrOf hdr W) = some (m', ptrOf hdr W') ∧
      Focus m' hdr L (⟨d, c', p, W'⟩ :: k') t ∧ Bal W' .black (n + 1) ∧
      CtxBal (⟨d, c', p, W'⟩ :: k') .black (n + 1) ∧ (c' = .red ∨ c' = .black ∧ k' = k) ∧
      SameOff hdr (L.map Item.addr) m m' := by
  have hstay : Bal W .black (n + 1) → eraseFixupCase1 d m hdr p.addr (ptrOf hdr W) = some (m, ptrOf hdr W) := by
    intro hW
    have hcolor : m.nodeColor (ptrOf hdr W) = .black := hf.across.nodeColor.trans hW.rootColor_eq
    simp [eraseFixupCase1, hcolor]
  cases cp with
  | red =>
      have hW := hk.of_cons_red.2.1
      exact ⟨m, .red, W, k, hstay hW, hf, hW, hk, .inl rfl, SameOff.refl _ _ _⟩
  | black =>
      obtain ⟨⟨cw, hW⟩, hk'⟩ := hk.of_cons_black
      cases cw with
      | black => exact ⟨m, .black, W, k, hstay hW, hf, hW, hk, .inr ⟨rfl, rfl⟩, SameOff.refl _ _ _⟩
      | red =>
          obtain ⟨A, w, B, rfl, hA, hB⟩ := hW.exists_red d
          obtain ⟨m', hrun, hf', hsame⟩ := eraseFixupCase1_red hf
          rw [ptrOf_branch]
          exact ⟨m', .red, A, _, hrun, hf', hA, .red hA (.black hB hk'), .inl rfl, hsame⟩

omit [LawfulNodeLayout N V] in
theorem eraseFixupLoop_exit (fuel : Nat) (parentNode : Ptr) (hf : Focus m hdr L k t)
    (hstop : t.rootColor = .red ∨ k = []) :
    eraseFixupLoop hdr (fuel + 1) m (ptrOf hdr t) parentNode = some (m, ptrOf hdr t) ∧
      eraseFixupSiblings hdr (fuel + 1) m (ptrOf hdr t) parentNode = [] := by
  have hcond : ptrOf hdr t = m.parent hdr ∨ m.nodeColor (ptrOf hdr t) ≠ .black := by
    rcases hstop with hred | rfl
    · rw [hf.nodeColor, hred]
      exact .inr (by decide)
    · exact .inl (Eq.symm hf.ctx)
  exact ⟨by rw [eraseFixupLoop, if_pos hcond], by rw [eraseFixupSiblings, if_pos hcond]⟩

theorem eraseFixup_outer {ca cb : Color} {n : Nat} (hf : Focus m hdr L (⟨d, cp, p, branch d .black A w B⟩ :: k) t)
    (hA : Bal A ca n) (hB : Bal B cb n) (hblack : ¬ (ca = .black ∧ cb = .black)) :
    ∃ m' w' A' B₁ b B₂ c', (if cb = .black then eraseFixupCase3 d m hdr p.addr w.addr else some (m, w.addr)) =
        some (m', Item.addr w') ∧
      Focus m' hdr L (⟨d, cp, p, branch d .black A' w' (branch d .red B₁ b B₂)⟩ :: k) t ∧
      Bal A' c' n ∧ Bal B₁ .black n ∧ Bal B₂ .black n ∧ SameOff hdr (L.map Item.addr) m m' := by
  cases cb with
  | red =>
      obtain ⟨B₁, b, B₂, rfl, hB₁, hB₂⟩ := hB.exists_red d
      exact ⟨m, w, A, B₁, b, B₂, ca, if_neg (by decide), hf, hA, hB₁, hB₂, SameOff.refl _ _ _⟩
  | black =>
      cases ca with
      | black => exact absurd ⟨rfl, rfl⟩ hblack
      | red =>
          obtain ⟨A₁, a, A₂, rfl, hA₁, hA₂⟩ := hA.exists_red d
          obtain ⟨m', hrun, hf', hsame⟩ := eraseFixupCase3_spec hf
          exact ⟨m', a, A₁, A₂, w, B, .black, (if_pos rfl).trans hrun, hf', hA₁, hA₂, hB, hsame⟩

theorem eraseFixupCase4_bal {W B₁ B₂ : Shape V} {b : Item V} {ca : Color} {n : Nat}
    (hk : CtxBal (⟨d, cp, p, W⟩ :: k) .black (n + 1)) (ht : Bal t .black n) (hA : Bal A ca n)
    (hB₁ : Bal B₁ .black n) (hB₂ : Bal B₂ .black n) :
    ∃ n', Bal (plug k (branch d cp (branch d .black t p A) w (branch d .black B₁ b B₂))) .black n' := by
  have hleft : Bal (branch d .black t p A) .black (n + 1) := Bal.branch_black d ht hA
  have hright : Bal (branch d .black B₁ b B₂) .black (n + 1) := Bal.branch_black d hB₁ hB₂
  cases cp with
  | red => exact hk.of_cons_red.2.2.plug (Bal.branch_red d hleft hright)
  | black => exact hk.of_cons_black.2.plug (Bal.branch_black d hleft hright)

/-- Painting the final `x` black balances the whole tree. No sibling is nil on the way: the tree below it has the
black height that `x` lacks. -/
theorem eraseFixupLoop_spec (fuel : Nat) {n : Nat} (hf : Focus m hdr L k t) (ht : Bal t .black n)
    (hk : CtxBal k .black (n + 1)) (hfuel : k.length + 1 < fuel) :
    ∃ m' k' t', eraseFixupLoop hdr fuel m (ptrOf hdr t) (ctxPtr hdr k) = some (m', ptrOf hdr t') ∧
      Focus m' hdr L k' t' ∧ (∃ n', Bal (plug k' (t'.withColor .black)) .black n') ∧
      SameOff hdr (L.map Item.addr) m m' ∧
      ∀ b ∈ eraseFixupSiblings hdr fuel m (ptrOf hdr t) (ctxPtr hdr k), b = false := by
  induction fuel generalizing m k t n with
  | zero => omega
  | succ fuel ih =>
      cases k with
      | nil =>
          obtain ⟨hrun, hsib⟩ := eraseFixupLoop_exit fuel (ctxPtr hdr []) hf (.inr rfl)
          refine ⟨m, [], t, hrun, hf, ht.withColor_black, SameOff.refl _ _ _, ?_⟩
          rw [hsib]
          exact List.forall_mem_nil _
      | cons f k =>
          obtain ⟨d, cp, p, W⟩ := f
          have hWne := hk.sibling_ne_nil
          have hside := hf.side_eq_of_sibling hWne
          have hw : m.child d.flip p.addr = ptrOf hdr W := hf.up.child_flip
          have hstop : ¬ (ptrOf hdr t = m.parent hdr ∨ m.nodeColor (ptrOf hdr t) ≠ .black) := by
            rw [hf.nodeColor, ht.rootColor_eq]
            simpa using hf.ptrOf_ne_root
          obtain ⟨m₁, c', W', k', hrun₁, hf₁, hW, hk₁, hcolor, hsame₁⟩ := eraseFixupCase1_spec hf hk
          obtain ⟨A, w, B, ca, cb, rfl, hA, hB⟩ := hW.exists_black d
          have hcw := hf₁.across
          have hca : childColor m₁ d w.addr = ca := hcw.childColor.1.trans hA.rootColor_eq
          have hcb : childColor m₁ d.flip w.addr = cb := hcw.childColor.2.trans hB.rootColor_eq
          have hWnil : m.isNil (ptrOf hdr W) = false := by
            rw [← Bool.not_eq_true]
            exact mt hf.across.isNil_ptrOf.mp hWne
          have hwnil : m₁.isNil w.addr = false := hcw.isNil
          rw [ptrOf_branch] at hrun₁
          rw [ctxPtr_cons, eraseFixupLoop, eraseFixupSiblings, if_neg hstop, if_neg hstop]
          simp only [hside, hw, hrun₁, hca, hcb, hWnil, hwnil]
          by_cases hblack : ca = .black ∧ cb = .black
          · obtain ⟨rfl, rfl⟩ := hblack
            have hset : m₁.setColorUnlessNil w.addr .red = m₁.setColor w.addr .red := by
              rw [Mem.setColorUnlessNil, hwnil, if_neg (by decide)]
            obtain ⟨hw₂, hsame₂⟩ := hcw.setColor .red
            have hp₂ := hw₂.across
            rw [Side.flip_flip] at hp₂
            have hparent : (m₁.setColor w.addr .red).parent p.addr = ctxPtr hdr k' := hp₂.up.parent
            have hptr : p.addr = ptrOf hdr (branch d c' t p (branch d .red A w B)) := (ptrOf_branch ..).symm
            have hred : Bal (branch d .red A w B) .red n := Bal.branch_red d hA hB
            rw [if_pos ⟨rfl, rfl⟩, if_pos ⟨rfl, rfl⟩, hset, hparent]
            rcases hcolor with rfl | ⟨rfl, rfl⟩
            · obtain ⟨fuel, rfl⟩ : ∃ f, fuel = f + 1 := ⟨fuel - 1, by simp only [List.length_cons] at hfuel; omega⟩
              have hpaint : Bal (branch d .black t p (branch d .red A w B)) .black (n + 1) :=
                Bal.branch_black d ht hred
              have hstop' : (branch d .red t p (branch d .red A w B)).rootColor = .red := by cases d <;> rfl
              have hpainted : (branch d .red t p (branch d .red A w B)).withColor .black =
                  branch d .black t p (branch d .red A w B) := by cases d <;> rfl
              obtain ⟨hrun, hsib⟩ := eraseFixupLoop_exit fuel (ctxPtr hdr k') hp₂.up (.inl hstop')
              refine ⟨_, k', _, ?_, hp₂.up, ?_, hsame₁.trans hsame₂, ?_⟩
              · rw [hptr]
                exact hrun
              · rw [hpainted]
                exact hk₁.of_cons_red.2.2.weaken.plug hpaint
              · rw [hptr, hsib]
                simp
            · obtain ⟨m', k₂, t', hrun, hf', hbal, hsame', hsib⟩ := ih hp₂.up (Bal.branch_black d ht hred)
                hk₁.of_cons_black.2 (by simpa using hfuel)
              rw [← hptr] at hrun hsib
              exact ⟨m', k₂, t', hrun, hf', hbal, (hsame₁.trans hsame₂).trans hsame', by simpa using hsib⟩
          · rw [if_neg hblack, if_neg hblack]
            obtain ⟨m₂, w', A', B₁, b, B₂, c₂, hrun₂, hf₂, hA', hB₁, hB₂, hsame₂⟩ := eraseFixup_outer hf₁ hA hB hblack
            obtain ⟨m₃, hrun₃, hf₃, hsame₃⟩ := eraseFixupCase4_spec hf₂
            obtain ⟨n', hbal⟩ := @eraseFixupCase4_bal _ _ _ _ _ p w' c' _ _ _ b _ _ hk₁ ht hA' hB₁ hB₂
            have hroot : m₃.parent hdr = ptrOf hdr (plug k' (branch d c' (branch d .black t p A') w'
                (branch d .black B₁ b B₂))) := hf₃.toRoot.ctx
            obtain ⟨fuel, rfl⟩ : ∃ f, fuel = f + 1 := ⟨fuel - 1, by simp only [List.length_cons] at hfuel; omega⟩
            have hw'nil : m₂.isNil w'.addr = false := hf₂.across.isNil
            obtain ⟨hrun, hsib⟩ := eraseFixupLoop_exit fuel hdr hf₃.toRoot (.inr rfl)
            refine ⟨m₃, [], _, ?_, hf₃.toRoot, hbal.withColor_black, (hsame₁.trans hsame₂).trans hsame₃, ?_⟩
            · rw [hrun₂]
              simp only [hrun₃, hroot]
              exact hrun
            · rw [hrun₂]
              simp only [hrun₃, hroot, hw'nil, hsib]
              simp

theorem eraseFixup_spec {c : Color} {n : Nat} (hlive : ∀ a ∈ hdr :: L.map Item.addr, a ∈ m.live)
    (hf : Focus m hdr L k t) (ht : Bal t c n) (hk : CtxBal k .black (n + 1)) :
    ∃ m' T, eraseFixup m hdr (ptrOf hdr t) (ctxPtr hdr k) = some m' ∧ Focus m' hdr L [] T ∧
      (∃ n', Bal T .black n') ∧ SameOff hdr (L.map Item.addr) m m' := by
  have hlt := hf.size_lt hlive
  obtain ⟨m₁, k', t', hrun, hf₁, ⟨n', hbal⟩, hsame⟩ : ∃ m' k' t',
      eraseFixupLoop hdr (m.live.length + 1) m (ptrOf hdr t) (ctxPtr hdr k) = some (m', ptrOf hdr t') ∧
        Focus m' hdr L k' t' ∧ (∃ n', Bal (plug k' (t'.withColor .black)) .black n') ∧
        SameOff hdr (L.map Item.addr) m m' := by
    cases c with
    | black =>
        have hfuel : k.length + 1 < m.live.length + 1 := by omega
        obtain ⟨m', k', t', hrun, hf', hbal, hsame, -⟩ := eraseFixupLoop_spec _ hf ht hk hfuel
        exact ⟨m', k', t', hrun, hf', hbal, hsame⟩
    | red =>
        obtain ⟨A, x, B, rfl, hA, hB⟩ := ht.exists_red .left
        exact ⟨m, k, _, (eraseFixupLoop_exit _ _ hf (.inl rfl)).1, hf, hk.plug (Bal.black hA hB), SameOff.refl _ _ _⟩
  obtain ⟨hx, hsame₁⟩ := hf₁.setColorUnlessNil .black
  obtain ⟨hroot, hsame₂⟩ := hx.toRoot.setColorUnlessNil .black
  rw [hbal.withColor_eq] at hroot
  refine ⟨_, _, ?_, hroot, ⟨n', hbal⟩, (hsame.trans hsame₁).trans hsame₂⟩
  have hparent : (m₁.setColorUnlessNil (ptrOf hdr t') .black).parent hdr =
      ptrOf hdr (plug k' (t'.withColor .black)) := hx.toRoot.ctx
  simp only [eraseFixup, hrun, Option.map_some, hparent]

theorem eraseFixup_siblings {c : Color} {n : Nat} (hlive : ∀ a ∈ hdr :: L.map Item.addr, a ∈ m.live)
    (hf : Focus m hdr L k t) (ht : Bal t c n) (hk : CtxBal k .black (n + 1)) :
    ∀ b ∈ eraseFixupSiblings hdr (m.live.length + 1) m (ptrOf hdr t) (ctxPtr hdr k), b = false := by
  have hlt := hf.size_lt hlive
  cases c with
  | black =>
      have hfuel : k.length + 1 < m.live.length + 1 := by omega
      obtain ⟨-, -, -, -, -, -, -, hsib⟩ := eraseFixupLoop_spec _ hf ht hk hfuel
      exact hsib
  | red =>
      obtain ⟨A, x, B, rfl, -, -⟩ := ht.exists_red .left
      rw [(eraseFixupLoop_exit m.live.length (ctxPtr hdr k) hf (.inl rfl)).2]
      exact List.forall_mem_nil _

end

end IdaSdk.QtreeDetail
