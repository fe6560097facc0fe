import IdaSdk.RegValueLoop

/-!
What an abstract value stands for, and the operations on the values of a loop: each of them gives up, or its
result has all values that the operation has on the members of the loop.
-/

namespace IdaSdk.RegValue

namespace RegValueBase

/-- `w` is one of the values, or is reached from it by steps of the stride. -/
def Progresses (x : RegValueBase) (w : BitVec 64) : Prop :=
  ∃ p ∈ x.vals, ∃ k : ℕ, w = p.val + BitVec.ofInt 64 (k * x.stride.toInt)

/-- The 64-bit values that `x` stands for when the stack pointer was `sp₀` at the start of the function. -/
def Denotes (sp₀ : BitVec 64) (x : RegValueBase) (w : BitVec 64) : Prop :=
  match x.state with
  | .numinsn | .numaddr => ∃ p ∈ x.vals, w = p.val
  | .spdinsn | .spdaddr => ∃ p ∈ x.vals, w = sp₀ + p.val
  | .numloop => x.Progresses w
  | _ => True

variable {sp₀ : BitVec 64} {x r x' : RegValueBase} {insn : Insn} {w : BitVec 64}

theorem denotes_of_isNum (h : x.isNum = true) : Denotes sp₀ x w ↔ ∃ p ∈ x.vals, w = p.val := by
  cases hs : x.state <;> simp [isNum, hs] at h <;> simp only [Denotes, hs]

theorem isNumloop_iff : x.isNumloop = true ↔ x.state = .numloop := by simp [isNumloop]

theorem denotes_of_isNumloop (h : x.isNumloop = true) : Denotes sp₀ x w ↔ x.Progresses w := by
  rw [isNumloop_iff] at h
  simp only [Denotes, h]

theorem progresses_iff : x.Progresses w ↔ ∃ p ∈ x.vals, InLoop p.val x.stride.toInt w := by
  simp only [Progresses, inLoop_iff]

theorem byKey_toNat {n : Nat} :
    SortUnique.ByKey (fun v : BitVec n => v.toNat) (fun a b => decide (a < b)) (· == ·) := by
  refine ⟨fun a b => ?_, fun a b => ?_⟩
  · rw [decide_eq_true_eq, BitVec.lt_def]
  · rw [beq_iff_eq, BitVec.toNat_inj]

@[simp] theorem setMultivals_state (rvals : List (BitVec 64)) : (x.setMultivals insn rvals).state = x.state := rfl

@[simp] theorem setMultivals_stride (rvals : List (BitVec 64)) : (x.setMultivals insn rvals).stride = x.stride := rfl

theorem exists_mem_setMultivals {rvals : List (BitVec 64)} {v : BitVec 64} (h : v ∈ rvals) :
    ∃ p ∈ (x.setMultivals insn rvals).vals, p.val = v := by
  obtain ⟨u, hu, hkey⟩ := byKey_toNat.exists_sortUnique h
  exact ⟨.ofInsn u insn 0, List.mem_map_of_mem hu, BitVec.toNat_inj.mp hkey⟩

@[simp] theorem sortMultivals_state : x.sortMultivals.state = x.state := rfl

@[simp] theorem sortMultivals_stride : x.sortMultivals.stride = x.stride := rfl

variable {p : RegValueDef}

theorem exists_mem_sortMultivals (h : p ∈ x.vals) : ∃ q ∈ x.sortMultivals.vals, q.val = p.val := by
  obtain ⟨q, hq, hkey⟩ := RegValueDef.byKey.exists_sortUnique h
  refine ⟨q, hq, ?_⟩
  simp only [RegValueDef.key, toLex_inj, Prod.mk.injEq] at hkey
  exact BitVec.toNat_inj.mp hkey.2

@[simp] theorem mapVals_state (f : BitVec 64 → BitVec 64) : (x.mapVals f).state = x.state := rfl

@[simp] theorem mapVals_stride (f : BitVec 64 → BitVec 64) : (x.mapVals f).stride = x.stride := rfl

variable {f : BitVec 64 → BitVec 64}

theorem exists_mem_mapVals (h : p ∈ x.vals) :
    ∃ q ∈ (x.mapVals f).sortMultivals.vals, q.val = f p.val :=
  exists_mem_sortMultivals (x := x.mapVals f) (p := { p with val := f p.val }) (List.mem_map_of_mem h)

theorem val_eq_firstVal (h : x.isValueUnique = true) (hp : p ∈ x.vals) : p.val = x.firstVal := by
  simp only [isValueUnique, Bool.and_eq_true, List.all_eq_true, beq_iff_eq] at h
  exact h.2 p hp

theorem mem_of_mapM {α β : Type} {f : α → Option β} {l : List α} {l' : List β} (h : l.mapM f = some l') {a : α}
    (ha : a ∈ l) {b : β} (hb : f a = some b) : b ∈ l' := by
  induction l generalizing l' with
  | nil => cases ha
  | cons a' l ih =>
      rw [List.mapM_cons] at h
      obtain ⟨b', hb', h⟩ := Option.bind_eq_some_iff.mp h
      obtain ⟨l₁, hl₁, h⟩ := Option.bind_eq_some_iff.mp h
      obtain rfl : b' :: l₁ = l' := by simpa using h
      rcases List.mem_cons.mp ha with rfl | ha
      · rw [hb'] at hb
        simp [Option.some.inj hb]
      · exact List.mem_cons_of_mem b' (ih hl₁ ha)

theorem performBinaryOp_some {aop : ArithOp} (h : x.performBinaryOp r insn aop = some x') :
    x'.state = x.state ∧ x'.stride = x.stride ∧
      ∀ p ∈ x.vals, ∀ q ∈ r.vals, ∀ u, aop.eval p.val q.val = some u → ∃ p' ∈ x'.vals, p'.val = u := by
  rw [performBinaryOp] at h
  split at h
  · rename_i hr
    obtain ⟨rvals, hrvals, rfl⟩ := Option.map_eq_some_iff.mp h
    refine ⟨rfl, rfl, fun p hp q hq u hu => exists_mem_setMultivals (mem_of_mapM hrvals hp ?_)⟩
    rwa [← val_eq_firstVal hr hq]
  · split at h
    · rename_i hx
      obtain ⟨rvals, hrvals, rfl⟩ := Option.map_eq_some_iff.mp h
      refine ⟨rfl, rfl, fun p hp q hq u hu => exists_mem_setMultivals (mem_of_mapM hrvals hq ?_)⟩
      rwa [← val_eq_firstVal hx hp]
    · cases h

/-! ### Loops -/

/-- The result is unknown, or it is a loop that has all of `image`. -/
def LoopResult (x' : RegValueBase) (image : BitVec 64 → Prop) : Prop :=
  x'.isUnknown = true ∨ x'.isNumloop = true ∧ x'.stride ≠ 0 ∧ ∀ w, image w → x'.Progresses w

variable {image : BitVec 64 → Prop}

theorem loopResult_setUnkloop {ea : BitVec 64} : LoopResult (setUnkloop ea) image := .inl rfl

theorem loopResult_setUnkLoopOrInsn : LoopResult (setUnkLoopOrInsn x r insn) image := by
  unfold setUnkLoopOrInsn
  split
  · exact .inl rfl
  · exact .inl rfl

/-- All operations of the progression are sound on the loop `x`. -/
structure LoopSound (sp₀ : BitVec 64) (extendSign : BitVec 64 → Int → Bool → BitVec 64) (x : RegValueBase) : Prop where
  add : ∀ r insn, LoopResult (x.add r insn) fun w => ∃ u v, Denotes sp₀ x u ∧ Denotes sp₀ r v ∧ w = u + v
  add_right : ∀ l insn, LoopResult (l.add x insn) fun w => ∃ u v, Denotes sp₀ l u ∧ Denotes sp₀ x v ∧ w = u + v
  sub : ∀ r insn, LoopResult (x.sub r insn) fun w => ∃ u v, Denotes sp₀ x u ∧ Denotes sp₀ r v ∧ w = u - v
  sub_right : ∀ l insn, LoopResult (l.sub x insn) fun w => ∃ u v, Denotes sp₀ l u ∧ Denotes sp₀ x v ∧ w = u - v
  addNumInsn : ∀ insn num, LoopResult (x.addNumInsn insn num) fun w => ∃ u, Denotes sp₀ x u ∧ w = u + num
  addNum : ∀ num, LoopResult (x.addNum num) fun w => ∃ u, Denotes sp₀ x u ∧ w = u + num
  shiftLeft : ∀ count, LoopResult (x.shiftLeft count) fun w => ∃ u, Denotes sp₀ x u ∧ w = u <<< count.toNat
  shiftRight : ∀ count, LoopResult (x.shiftRight extendSign count 0) fun w =>
    ∃ u, Denotes sp₀ x u ∧ w = u >>> count.toNat
  shiftRight_signed : ∀ count (nbytes : ℕ), 0 < nbytes → LoopResult (x.shiftRight extendSign count nbytes) fun w =>
    ∃ u, Denotes sp₀ x u ∧ w = (extendSign u nbytes true).sshiftRight count.toNat

theorem isNum_of_isNumloop (h : x.isNumloop = true) : x.isNum = false := by
  rw [isNumloop_iff] at h
  simp [isNum, h]

theorem isSpd_of_isNumloop (h : x.isNumloop = true) : x.isSpd = false := by
  rw [isNumloop_iff] at h
  simp [isSpd, h]

theorem isNumloop_of_isNum (h : x.isNum = true) : x.isNumloop = false := by
  rw [← Bool.not_eq_true]
  intro hloop
  rw [isNum_of_isNumloop hloop] at h
  cases h

theorem not_skipped (hx : x.isNumloop = true) {num : BitVec 64} :
    ¬ (!x.isKnown && !x.isNumloop || num == 0) = true ↔ num ≠ 0 := by
  simp [hx]

theorem add_loop (hx : x.isNumloop = true) (hs : x.stride ≠ 0) :
    LoopResult (x.add r insn) fun w => ∃ u v, Denotes sp₀ x u ∧ Denotes sp₀ r v ∧ w = u + v := by
  have hnum := isNum_of_isNumloop hx
  have hspd := isSpd_of_isNumloop hx
  unfold add
  simp only [hx, hnum, hspd, Bool.true_and, Bool.false_and, Bool.or_false, Bool.false_eq_true, if_false]
  split
  · rename_i hr
    split
    · rename_i x' hop
      obtain ⟨hstate, hstride, hvals⟩ := performBinaryOp_some hop
      rw [if_neg (by simp [isNumloop_of_isNum hr])]
      refine .inr ⟨by rw [isNumloop_iff, hstate, isNumloop_iff.mp hx], by rwa [hstride], ?_⟩
      rintro w ⟨u, v, hu, hv, rfl⟩
      obtain ⟨p, hp, k, rfl⟩ := (denotes_of_isNumloop hx).mp hu
      obtain ⟨q, hq, rfl⟩ := (denotes_of_isNum hr).mp hv
      obtain ⟨p', hp', hval⟩ := hvals p hp q hq _ rfl
      refine ⟨p', hp', k, ?_⟩
      rw [hval, hstride]
      ac_rfl
    · exact loopResult_setUnkLoopOrInsn
  · exact loopResult_setUnkLoopOrInsn

theorem add_right_loop (hx : x.isNumloop = true) (hs : x.stride ≠ 0) (l : RegValueBase) :
    LoopResult (l.add x insn) fun w => ∃ u v, Denotes sp₀ l u ∧ Denotes sp₀ x v ∧ w = u + v := by
  have hnum := isNum_of_isNumloop hx
  have hspd := isSpd_of_isNumloop hx
  unfold add
  simp only [hx, hnum, hspd, Bool.and_true, Bool.and_false, Bool.or_false, Bool.false_or, Bool.false_eq_true, if_false,
    if_true]
  split
  · rename_i hl
    split
    · rename_i x' hop
      obtain ⟨-, -, hvals⟩ := performBinaryOp_some hop
      refine .inr ⟨hx, hs, ?_⟩
      rintro w ⟨u, v, hu, hv, rfl⟩
      obtain ⟨p, hp, rfl⟩ := (denotes_of_isNum hl).mp hu
      obtain ⟨q, hq, k, rfl⟩ := (denotes_of_isNumloop hx).mp hv
      obtain ⟨p', hp', hval⟩ := hvals p hp q hq _ rfl
      refine ⟨p', hp', k, ?_⟩
      rw [hval, BitVec.add_assoc]
    · exact loopResult_setUnkLoopOrInsn
  · exact loopResult_setUnkLoopOrInsn

theorem sub_loop (hx : x.isNumloop = true) (hs : x.stride ≠ 0) :
    LoopResult (x.sub r insn) fun w => ∃ u v, Denotes sp₀ x u ∧ Denotes sp₀ r v ∧ w = u - v := by
  have hnum := isNum_of_isNumloop hx
  have hspd := isSpd_of_isNumloop hx
  unfold sub
  simp only [hx, hnum, hspd, Bool.true_and, Bool.false_and, Bool.or_false, Bool.false_eq_true, if_false]
  split
  · rename_i hr
    split
    · rename_i x' hop
      obtain ⟨hstate, hstride, hvals⟩ := performBinaryOp_some hop
      refine .inr ⟨by rw [isNumloop_iff, hstate, isNumloop_iff.mp hx], by rwa [hstride], ?_⟩
      rintro w ⟨u, v, hu, hv, rfl⟩
      obtain ⟨p, hp, k, rfl⟩ := (denotes_of_isNumloop hx).mp hu
      obtain ⟨q, hq, rfl⟩ := (denotes_of_isNum hr).mp hv
      obtain ⟨p', hp', hval⟩ := hvals p hp q hq _ rfl
      refine ⟨p', hp', k, ?_⟩
      rw [hval, hstride, BitVec.sub_eq_add_neg, BitVec.sub_eq_add_neg]
      ac_rfl
    · exact loopResult_setUnkLoopOrInsn
  · exact loopResult_setUnkLoopOrInsn

theorem sub_right_loop (hx : x.isNumloop = true) (l : RegValueBase) :
    LoopResult (l.sub x insn) image := by
  have hnum := isNum_of_isNumloop hx
  have hspd := isSpd_of_isNumloop hx
  unfold sub
  simp only [hnum, hspd, Bool.and_false, Bool.or_false, Bool.false_eq_true, if_false]
  exact loopResult_setUnkLoopOrInsn

theorem loopResult_self (hx : x.isNumloop = true) (hs : x.stride ≠ 0)
    (hf : ∀ v u, InLoop v x.stride.toInt u → InLoop v x.stride.toInt (f u)) :
    LoopResult x fun w => ∃ u, Denotes sp₀ x u ∧ w = f u := by
  refine .inr ⟨hx, hs, ?_⟩
  rintro w ⟨u, hu, rfl⟩
  obtain ⟨p, hp, hu⟩ := progresses_iff.mp ((denotes_of_isNumloop hx).mp hu)
  exact progresses_iff.mpr ⟨p, hp, hf p.val u hu⟩

theorem addNumInsn_loop (hx : x.isNumloop = true) (hs : x.stride ≠ 0) (num : BitVec 64) :
    LoopResult (x.addNumInsn insn num) fun w => ∃ u, Denotes sp₀ x u ∧ w = u + num := by
  unfold addNumInsn
  split
  · rename_i hskip
    obtain rfl : num = 0 := by
      by_contra hne
      exact (not_skipped hx).mpr hne hskip
    exact loopResult_self hx hs fun v u hu => by simpa using hu
  · dsimp only
    rw [if_neg (by simp [isNumloop, isNumloop_iff.mp hx])]
    refine .inr ⟨hx, hs, ?_⟩
    rintro w ⟨u, hu, rfl⟩
    obtain ⟨p, hp, k, rfl⟩ := (denotes_of_isNumloop hx).mp hu
    obtain ⟨p', hp', hval⟩ := @exists_mem_setMultivals x insn _ _
      (List.mem_map_of_mem (f := fun p => p.val + num) hp)
    refine ⟨p', hp', k, ?_⟩
    rw [hval, setMultivals_stride]
    ac_rfl

theorem loopResult_mapVals (hx : x.isNumloop = true) {g : BitVec 64 → BitVec 64} {stride : BitVec 8}
    (hstride : stride ≠ 0)
    (hf : ∀ p ∈ x.vals, ∀ u, InLoop p.val x.stride.toInt u → InLoop (f p.val) stride.toInt (g u)) :
    LoopResult ({ x with stride := stride }.mapVals f).sortMultivals fun w => ∃ u, Denotes sp₀ x u ∧ w = g u := by
  refine .inr ⟨hx, hstride, ?_⟩
  rintro w ⟨u, hu, rfl⟩
  obtain ⟨p, hp, hu⟩ := progresses_iff.mp ((denotes_of_isNumloop hx).mp hu)
  obtain ⟨q, hq, hval⟩ := exists_mem_mapVals (x := { x with stride := stride }) (f := f) hp
  refine progresses_iff.mpr ⟨q, hq, ?_⟩
  rw [hval]
  exact hf p hp u hu

theorem addNum_loop (hx : x.isNumloop = true) (hs : x.stride ≠ 0) (num : BitVec 64) :
    LoopResult (x.addNum num) fun w => ∃ u, Denotes sp₀ x u ∧ w = u + num := by
  unfold addNum
  split
  · rename_i hskip
    obtain rfl : num = 0 := by
      by_contra hne
      exact (not_skipped hx).mpr hne hskip
    exact loopResult_self hx hs fun v u hu => by simpa using hu
  · exact loopResult_mapVals hx hs fun p _ u hu => hu.add num

theorem shiftLeft_loop (hx : x.isNumloop = true) (hs : x.stride ≠ 0) (count : BitVec 64) :
    LoopResult (x.shiftLeft count) fun w => ∃ u, Denotes sp₀ x u ∧ w = u <<< count.toNat := by
  unfold shiftLeft
  split
  · rename_i hskip
    obtain rfl : count = 0 := by
      by_contra hne
      exact (not_skipped hx).mpr hne hskip
    exact loopResult_self hx hs fun v u hu => by simpa using hu
  · split
    · exact loopResult_setUnkloop
    rename_i hcheck
    rw [Bool.or_eq_true, not_or, decide_eq_true_eq, BitVec.not_lt, bne_iff_ne, ne_eq, not_not] at hcheck
    obtain ⟨hle, hkept⟩ := hcheck
    have hc : count.toNat ≤ 7 := by simpa [BitVec.le_def] using hle
    have hint := stride_shiftLeft hc hkept
    refine loopResult_mapVals hx ?_ fun p _ u hu => ?_
    · intro hzero
      rw [hzero] at hkept
      exact hs (by rw [← hkept]; simp)
    · rw [hint]
      exact hu.shiftLeft count.toNat

variable {extendSign : BitVec 64 → Int → Bool → BitVec 64}

theorem shiftRight_loop_of (hx : x.isNumloop = true)
    (hs : x.stride ≠ 0) (count : BitVec 64) (nbytes : Int) {g : Nat → BitVec 64 → BitVec 64}
    (hg : ∀ (stride : BitVec 8) c v u, stride ≠ 0 → c ≤ 7 → x.stride.toInt = 2 ^ c * stride.toInt →
      InLoop v x.stride.toInt u → InLoop (shiftedRight extendSign c nbytes v) stride.toInt (g c u))
    (hzero : count = 0 → LoopResult x fun w => ∃ u, Denotes sp₀ x u ∧ w = g count.toNat u) :
    LoopResult (x.shiftRight extendSign count nbytes) fun w => ∃ u, Denotes sp₀ x u ∧ w = g count.toNat u := by
  unfold shiftRight
  split
  · rename_i hskip
    apply hzero
    by_contra hne
    exact (not_skipped hx).mpr hne hskip
  · split
    · exact loopResult_setUnkloop
    rename_i hcheck
    rw [Bool.or_eq_true, not_or, decide_eq_true_eq, BitVec.not_lt, bne_iff_ne, ne_eq, not_not] at hcheck
    obtain ⟨hle, hkept⟩ := hcheck
    have hc : count.toNat ≤ 7 := by simpa [BitVec.le_def] using hle
    have hint := stride_shiftRight hc hkept
    have hstride : x.stride.sshiftRight count.toNat ≠ 0 := by
      intro hzero
      rw [hzero] at hkept
      exact hs (by rw [← hkept]; simp)
    exact loopResult_mapVals hx hstride fun p _ u hu => hg _ _ _ _ hstride hc hint hu

theorem shiftRight_loop (hx : x.isNumloop = true)
    (hs : x.stride ≠ 0) (count : BitVec 64) :
    LoopResult (x.shiftRight extendSign count 0) fun w => ∃ u, Denotes sp₀ x u ∧ w = u >>> count.toNat := by
  refine shiftRight_loop_of (g := fun c u => u >>> c) hx hs count 0 (fun stride c v u hstride hc hint hu => ?_) ?_
  · rw [hint] at hu
    exact hu.shiftRight hstride hc
  · rintro rfl
    exact loopResult_self hx hs fun v u hu => by simpa using hu

theorem shiftRight_signed_loop (hext : ExtendsSign extendSign)
    (hx : x.isNumloop = true) (hs : x.stride ≠ 0) (count : BitVec 64) {nbytes : ℕ} (hn : 0 < nbytes) :
    LoopResult (x.shiftRight extendSign count nbytes) fun w =>
      ∃ u, Denotes sp₀ x u ∧ w = (extendSign u nbytes true).sshiftRight count.toNat := by
  refine shiftRight_loop_of (g := fun c u => (extendSign u nbytes true).sshiftRight c) hx hs count nbytes
    (fun stride c v u hstride hc hint hu => ?_) ?_
  · have hext' := hu.extend hext hs hn true
    rw [hint] at hext'
    have hne : ((nbytes : Int) != 0) = true := by simpa using hn.ne'
    rw [shiftedRight, if_pos hne]
    exact hext'.sshiftRight hstride hc
  · rintro rfl
    refine loopResult_self hx hs fun v u hu => ?_
    simpa using hu.extend_right hext hs hn true

/-- Every operation of the progression is sound on a loop with a stride. -/
theorem loop_sound {extendSign : BitVec 64 → Int → Bool → BitVec 64} (hext : ExtendsSign extendSign)
    (hx : x.isNumloop = true) (hs : x.stride ≠ 0) : LoopSound sp₀ extendSign x where
  add _ _ := add_loop hx hs
  add_right l _ := add_right_loop hx hs l
  sub _ _ := sub_loop hx hs
  sub_right l _ := sub_right_loop hx l
  addNumInsn _ num := addNumInsn_loop hx hs num
  addNum num := addNum_loop hx hs num
  shiftLeft count := shiftLeft_loop hx hs count
  shiftRight count := shiftRight_loop hx hs count
  shiftRight_signed count _ hn := shiftRight_signed_loop hext hx hs count hn

end RegValueBase

/-- Sign and zero extension of a value of `nbytes` bytes. -/
def extendSign64 (v : BitVec 64) (nbytes : Int) (signExtend : Bool) : BitVec 64 :=
  if signExtend then (v.setWidth (8 * nbytes.toNat)).signExtend 64 else (v.setWidth (8 * nbytes.toNat)).setWidth 64

theorem extendsSign_extendSign64 : ExtendsSign extendSign64 := fun v nbytes signExtend _ => by
  rw [extendSign64, Int.toNat_natCast]

theorem RegValueBase.loop_sound_fives : LoopSound 0 extendSign64 ⟨[.ofEa 5 0 0], .numloop, -4⟩ :=
  loop_sound extendsSign_extendSign64 (by decide) (by decide)

end IdaSdk.RegValue
