import IdaSdk.QtreeThrowing

/-!
Copies of a tree when allocations and constructions may throw. A level of `clone_subtree` that fails clears the part it
has linked so far and passes the exception on, so that nothing is left of the copy at the top.
-/

namespace IdaSdk.QtreeDetail.Throwing
open RedBlack SortedList Lifecycle

section
variable {N V : Type*} [NodeLayout N V]

def clearSubtree : Nat → Heap N → Ptr → Option (Heap N)
  | 0, _, _ => none
  | fuel + 1, h, node =>
    if h.mem.isNil node then
      some h
    else
      match if h.mem.isNil (h.mem.left node) then some h else clearSubtree fuel h (h.mem.left node) with
      | none => none
      | some h =>
        match if h.mem.isNil (h.mem.right node) then some h else clearSubtree fuel h (h.mem.right node) with
        | none => none
        | some h => some (nodeDelete (destroyValue h node) node)

def clear (h : Heap N) (q : Qtree) : Option (Heap N × Qtree) :=
  if q.header = nullptr ∨ q.nodeCount = 0 then
    some (if q.header ≠ nullptr then { h with mem := initHeader h.mem q.header } else h, { q with nodeCount := 0 })
  else
    (clearSubtree (h.mem.live.length + 1) h (h.mem.parent q.header)).map fun h =>
      ({ h with mem := initHeader h.mem q.header }, { q with nodeCount := 0 })

def destruct (h : Heap N) (q : Qtree) : Option (Heap N) :=
  if q.header ≠ nullptr then (clear h q).map fun (h, q) => nodeDelete h q.header else some h

variable (fails : Nat → Bool) (pol : AllocPolicy)

/-- The new node of `clone_subtree`, with the first of its two handlers. -/
def cloneNode (h : Heap N) (hdr otherNode parentNode : Ptr) (v : V) : Heap N × CallResult Ptr :=
  match nodeNew fails pol h with
  | (h, .thrown) => (h, .thrown)
  | (h, .returned newNode) =>
    match constructValue fails h newNode v with
    | (h, .thrown) => (nodeDelete h newNode, .thrown)
    | (h, .returned _) =>
      let m := h.mem.setIsNil newNode false
      let m := m.setColor newNode (m.color otherNode)
      let m := m.setParent newNode parentNode
      let m := m.setLeft newNode hdr
      ({ h with mem := m.setRight newNode hdr }, .returned newNode)

def cloneSubtree (hdr : Ptr) : Nat → Heap N → Ptr → Ptr → Option (Heap N × CallResult Ptr)
  | 0, _, _, _ => none
  | fuel + 1, h, otherNode, parentNode =>
    if h.mem.isNil otherNode then
      some (h, .returned hdr)
    else
      match h.mem.value otherNode with
      | none => none
      | some v =>
        match cloneNode fails pol h hdr otherNode parentNode v with
        | (h, .thrown) => some (h, .thrown)
        | (h, .returned newNode) =>
          match cloneSubtree hdr fuel h (h.mem.left otherNode) newNode with
          | none => none
          | some (h, .thrown) => (clearSubtree (h.mem.live.length + 1) h newNode).map fun h => (h, .thrown)
          | some (h, .returned l) =>
            let h := { h with mem := h.mem.setLeft newNode l }
            match cloneSubtree hdr fuel h (h.mem.right otherNode) newNode with
            | none => none
            | some (h, .thrown) => (clearSubtree (h.mem.live.length + 1) h newNode).map fun h => (h, .thrown)
            | some (h, .returned r) => some ({ h with mem := h.mem.setRight newNode r }, .returned newNode)

def cloneFrom (h : Heap N) (q other : Qtree) : Option (Heap N × Qtree × CallResult Unit) :=
  if other.empty then
    none
  else
    match cloneSubtree fails pol q.header (h.mem.live.length + 1) h (h.mem.parent other.header) q.header with
    | none => none
    | some (h, .thrown) => (clear h q).map fun (h, q) => (h, q, .thrown)
    | some (h, .returned newRoot) =>
      let m := h.mem.setParent q.header newRoot
      match minimum m newRoot with
      | none => none
      | some first =>
        let m := m.setLeft q.header first
        match maximum m newRoot with
        | none => none
        | some last =>
          some ({ h with mem := m.setRight q.header last }, { q with nodeCount := other.nodeCount }, .returned ())

/-- `qtree(qtree const &other)`. -/
def copyConstruct (h : Heap N) (other : Qtree) : Option (Heap N × CallResult Qtree) :=
  if other.empty then
    some (h, .returned Qtree.init)
  else
    match allocateHeader fails pol h with
    | (h, .thrown) => some (h, .thrown)
    | (h, .returned p) =>
      match cloneFrom fails pol { h with mem := initHeader h.mem p } ⟨p, 0⟩ other with
      | none => none
      | some (h, q, .thrown) => some (nodeDelete h q.header, .thrown)
      | some (h, q, .returned _) => some (h, .returned q)

/-- Copy assignment from a different object, through a temporary that takes the old contents. -/
def copyAssign (h : Heap N) (q other : Qtree) : Option (Heap N × Qtree × CallResult Unit) :=
  match copyConstruct fails pol h other with
  | none => none
  | some (h, .thrown) => some (h, q, .thrown)
  | some (h, .returned tmp) => (destruct h q).map fun h => (h, tmp, .returned ())

end

/-! ### Clearing -/

section
variable {N V : Type*} [NodeLayout N V] {h : Heap N}

theorem nodeDelete_mem (h : Heap N) (p : Ptr) : (nodeDelete h p).mem = QtreeDetail.nodeDelete h.mem p := by
  by_cases hp : p = nullptr
  · rw [nodeDelete, QtreeDetail.nodeDelete, if_pos hp, if_pos hp]
  · rw [nodeDelete, if_neg hp]

theorem destroyValue_mem (h : Heap N) (p : Ptr) : (destroyValue h p).mem = QtreeDetail.destroyValue h.mem p := by
  by_cases hp : h.mem.isNil p
  · rw [destroyValue, QtreeDetail.destroyValue, if_pos hp, if_pos hp]
  · rw [destroyValue, if_neg hp]

theorem clearSubtree_mem (fuel : Nat) (h : Heap N) (node : Ptr) :
    (clearSubtree fuel h node).map Heap.mem = QtreeDetail.clearSubtree fuel h.mem node := by
  induction fuel generalizing h node with
  | zero => rfl
  | succ fuel ih =>
      have hguard : ∀ (h : Heap N) (p : Ptr),
          (if h.mem.isNil p then some h.mem else QtreeDetail.clearSubtree fuel h.mem p) =
          (if h.mem.isNil p then some h else clearSubtree fuel h p).map Heap.mem := by
        intro h p
        split
        · rfl
        · exact (ih h p).symm
      rw [clearSubtree, QtreeDetail.clearSubtree]
      by_cases hnil : h.mem.isNil node
      · rw [if_pos hnil, if_pos hnil, Option.map_some]
      rw [if_neg hnil, if_neg hnil, hguard]
      cases (if h.mem.isNil (h.mem.left node) then some h else clearSubtree fuel h (h.mem.left node)) with
      | none => rfl
      | some h₁ =>
          simp only [Option.map_some]
          rw [hguard]
          cases (if h₁.mem.isNil (h₁.mem.right node) then some h₁ else clearSubtree fuel h₁ (h₁.mem.right node)) with
          | none => rfl
          | some h₂ => simp only [Option.map_some, nodeDelete_mem, destroyValue_mem]

theorem clear_mem (h : Heap N) (q : Qtree) :
    (clear h q).map (fun r => (r.1.mem, r.2)) = QtreeDetail.clear h.mem q := by
  by_cases hempty : q.header = nullptr ∨ q.nodeCount = 0
  · rw [clear, QtreeDetail.clear, if_pos hempty, if_pos hempty, Option.map_some]
    by_cases hnull : q.header = nullptr
    · simp [hnull]
    · simp [hnull]
  · rw [clear, QtreeDetail.clear, if_neg hempty, if_neg hempty, ← clearSubtree_mem, Option.map_map, Option.map_map]
    rfl

theorem destruct_mem (h : Heap N) (q : Qtree) : (destruct h q).map Heap.mem = QtreeDetail.destruct h.mem q := by
  by_cases hnull : q.header ≠ nullptr
  · rw [destruct, QtreeDetail.destruct, if_pos hnull, if_pos hnull, ← clear_mem, Option.map_map, Option.map_map]
    exact congrArg (fun f => (clear h q).map f) (funext fun r => nodeDelete_mem r.1 r.2.header)
  · rw [destruct, QtreeDetail.destruct, if_neg hnull, if_neg hnull, Option.map_some]

end

section
variable {N V : Type*} [NodeLayout N V] [LawfulNodeLayout N V] {h : Heap N} {hdr parent : Ptr} {t : Shape V}

omit [LawfulNodeLayout N V] in
theorem clearSubtree_guard {fuel : Nat} (hfuel : fuel ≠ 0) (h : Heap N) (p : Ptr) :
    (if h.mem.isNil p then some h else clearSubtree fuel h p) = clearSubtree fuel h p := by
  obtain ⟨fuel, rfl⟩ := Nat.exists_eq_succ_of_ne_zero hfuel
  by_cases hnil : h.mem.isNil p
  · exact (if_pos hnil).trans (if_pos hnil).symm
  · rw [if_neg hnil]

theorem clearSubtree_log (fuel : Nat) (hh : Holds h.mem.view hdr parent t) (hhdr : (h.mem.view hdr).isNil = true)
    (hnd : (hdr :: addrs t).Nodup) (hnull : ∀ a ∈ addrs t, a ≠ nullptr) (hfuel : t.size < fuel) :
    ∃ h' E, clearSubtree fuel h (ptrOf hdr t) = some h' ∧ h'.log = h.log ++ E ∧
      ∀ p, history p E = if p ∈ addrs t then [.destroyed p, .freed p] else [] := by
  induction t generalizing h parent fuel with
  | nil =>
      obtain ⟨fuel, rfl⟩ : ∃ f, fuel = f + 1 := ⟨fuel - 1, by omega⟩
      exact ⟨h, [], if_pos hhdr, by simp, by simp⟩
  | node c l e r ihl ihr =>
      obtain ⟨fuel, rfl⟩ : ∃ f, fuel = f + 1 := ⟨fuel - 1, by omega⟩
      obtain ⟨hleft, -, -, hfalse⟩ := hh.reads
      obtain ⟨hcell, hl, hr⟩ := hh
      simp only [ColorTree.size] at hfuel
      simp only [addrs_node, List.nodup_cons, List.mem_append, List.mem_cons, not_or, List.nodup_append] at hnd
      obtain ⟨⟨hhl, hhe, hhr⟩, hndl, ⟨her, hndr⟩, hlr⟩ := hnd
      have hel : e.addr ∉ addrs l := fun h => hlr _ h _ (.inl rfl) rfl
      have hnullL : ∀ a ∈ addrs l, a ≠ nullptr := fun a ha => hnull a (by simp [ha])
      have hnullR : ∀ a ∈ addrs r, a ≠ nullptr := fun a ha => hnull a (by simp [ha])
      have he0 : e.addr ≠ nullptr := hnull _ (by simp)
      obtain ⟨h₁, E₁, hrun₁, hlog₁, hhist₁⟩ := ihl fuel hl hhdr (List.nodup_cons.mpr ⟨hhl, hndl⟩) hnullL (by omega)
      -- where the nodes are afterwards is known from the run without a log
      obtain ⟨m₁, hmem₁, hoff₁, -⟩ := QtreeDetail.clearSubtree_spec fuel hl hhdr (List.nodup_cons.mpr ⟨hhl, hndl⟩) hnullL
        (by omega)
      rw [← clearSubtree_mem, hrun₁, Option.map_some, Option.some.injEq] at hmem₁
      subst hmem₁
      have hright₁ : h₁.mem.right e.addr = ptrOf hdr r := by
        rw [Mem.right_eq, hoff₁ _ hel, hcell]
        rfl
      have hr₁ : Holds h₁.mem.view hdr e.addr r := by
        apply hr.congr
        intro a ha
        exact hoff₁ a fun hal => hlr a hal a (.inr ha) rfl
      have hhdr₁ : (h₁.mem.view hdr).isNil = true := by rw [hoff₁ _ hhl, hhdr]
      obtain ⟨h₂, E₂, hrun₂, hlog₂, hhist₂⟩ := ihr fuel hr₁ hhdr₁ (List.nodup_cons.mpr ⟨hhr, hndr⟩) hnullR (by omega)
      obtain ⟨m₂, hmem₂, hoff₂, -⟩ := QtreeDetail.clearSubtree_spec fuel hr₁ hhdr₁ (List.nodup_cons.mpr ⟨hhr, hndr⟩)
        hnullR (by omega)
      rw [← clearSubtree_mem, hrun₂, Option.map_some, Option.some.injEq] at hmem₂
      subst hmem₂
      have hnil₂ : h₂.mem.isNil e.addr = false := by
        rw [Mem.isNil_eq, hoff₂ _ her, hoff₁ _ hel, hcell]
        rfl
      refine ⟨nodeDelete (destroyValue h₂ e.addr) e.addr, E₁ ++ E₂ ++ [Event.destroyed e.addr, Event.freed e.addr], ?_, ?_,
        fun p => ?_⟩
      · rw [ptrOf, clearSubtree, hfalse, if_neg (by decide), clearSubtree_guard (by omega), hleft, hrun₁]
        simp only [hright₁]
        rw [clearSubtree_guard (by omega), hrun₂]
      · simp [nodeDelete, destroyValue, hnil₂, he0, hlog₂, hlog₁]
      have hdisj : p ∈ addrs l → p ≠ e.addr ∧ p ∉ addrs r :=
        fun hp => ⟨fun he => hlr p hp p (.inl he) rfl, fun hpr => hlr p hp p (.inr hpr) rfl⟩
      have hdisj' : p ∈ addrs r → p ≠ e.addr := fun hp he => her (he ▸ hp)
      simp only [history_append, hhist₁, hhist₂, history_release, addrs_node, List.mem_append, List.mem_cons]
      by_cases hpl : p ∈ addrs l
      · simp [hpl, hdisj hpl]
      · by_cases hpr : p ∈ addrs r
        · simp [hpl, hpr, hdisj' hpr]
        · simp [hpl, hpr]

end

/-! ### Cloning -/

/-- A call that threw: the memory is as before, and what the call allocated and constructed is released. -/
structure RolledBack {N V : Type*} [NodeLayout N V] (h h' : Heap N) : Prop where
  restored : Restored h.mem h'.mem
  log : ∃ E, h'.log = h.log ++ E ∧ Released E ∧ ∀ p ∈ h.mem.live, history p E = []

/-- A part of a copy that succeeded: every new node was allocated and its value constructed. -/
structure Grown {N : Type*} (h h' : Heap N) : Prop where
  keep : ∀ p ∈ h.mem.live, p ∈ h'.mem.live
  log : ∃ E, h'.log = h.log ++ E ∧
    ∀ p, history p E = if p ∈ h'.mem.live ∧ p ∉ h.mem.live then [.allocated p, .constructed p] else []

section
variable {N V : Type*} [NodeLayout N V] {h h₁ h₂ : Heap N} {hdr parent : Ptr} {t : Shape V}

theorem RolledBack.of_restored (hr : Restored h.mem h₁.mem) (hlog : h₁.log = h.log) : RolledBack h h₁ :=
  ⟨hr, [], by rw [hlog, List.append_nil], .nil, fun _ _ => rfl⟩

theorem Grown.refl (h : Heap N) : Grown h h := ⟨fun _ hp => hp, [], by simp, by simp⟩

theorem Grown.trans (hg₁ : Grown h h₁) (hg₂ : Grown h₁ h₂) : Grown h h₂ := by
  obtain ⟨E₁, hlog₁, hhist₁⟩ := hg₁.log
  obtain ⟨E₂, hlog₂, hhist₂⟩ := hg₂.log
  refine ⟨fun p hp => hg₂.keep p (hg₁.keep p hp), E₁ ++ E₂, by rw [hlog₂, hlog₁, List.append_assoc], fun p => ?_⟩
  rw [history_append, hhist₁, hhist₂]
  by_cases hp : p ∈ h.mem.live
  · simp [hp, hg₁.keep p hp]
  · by_cases hp₁ : p ∈ h₁.mem.live
    · simp [hp, hp₁, hg₂.keep p hp₁]
    · simp [hp, hp₁]

variable [LawfulNodeLayout N V]

theorem clearSubtree_rolledBack (hg : Grown h h₁) (hview : ∀ a ∈ h.mem.live, h₁.mem.view a = h.mem.view a)
    (hr : RolledBack h₁ h₂) (hh : Holds h₁.mem.view hdr parent t)
    (hnew : ∀ a, a ∈ addrs t ↔ a ∈ h₁.mem.live ∧ a ∉ h.mem.live)
    (hlive : hdr ∈ h.mem.live) (hhdr : (h.mem.view hdr).isNil = true) (hnd : (addrs t).Nodup)
    (hnull : ∀ a ∈ addrs t, a ≠ nullptr) :
    ∃ h₃, clearSubtree (h₂.mem.live.length + 1) h₂ (ptrOf hdr t) = some h₃ ∧ RolledBack h h₃ := by
  have hh₂ : Holds h₂.mem.view hdr parent t := hh.congr fun a ha => hr.restored.view a ((hnew a).mp ha).1
  have hhdr₂ : (h₂.mem.view hdr).isNil = true := by
    rw [hr.restored.view hdr (hg.keep hdr hlive), hview hdr hlive, hhdr]
  have hnd₂ : (hdr :: addrs t).Nodup := List.nodup_cons.mpr ⟨fun hm => ((hnew hdr).mp hm).2 hlive, hnd⟩
  have hsize : t.size < h₂.mem.live.length + 1 := by
    have hsub : ∀ a ∈ addrs t, a ∈ h₂.mem.live := fun a ha => (hr.restored.live a).mpr ((hnew a).mp ha).1
    have hle := hnd.length_le_of_subset hsub
    rw [addrs, List.length_map, ColorTree.length_toList] at hle
    omega
  obtain ⟨h₃, E₃, hrun, hlog₃, hhist₃⟩ := clearSubtree_log _ hh₂ hhdr₂ hnd₂ hnull hsize
  obtain ⟨m₃, hmem₃, hoff₃, hlive₃⟩ := QtreeDetail.clearSubtree_spec _ hh₂ hhdr₂ hnd₂ hnull hsize
  rw [← clearSubtree_mem, hrun, Option.map_some, Option.some.injEq] at hmem₃
  subst hmem₃
  obtain ⟨E₁, hlog₁, hhist₁⟩ := hg.log
  obtain ⟨E₂, hlog₂, hreleased, hhist₂⟩ := hr.log
  refine ⟨h₃, hrun, ⟨fun a => ?_, fun a ha => ?_⟩, E₁ ++ E₂ ++ E₃, by rw [hlog₃, hlog₂, hlog₁]; simp, fun p => ?_,
    fun p hp => ?_⟩
  · rw [hlive₃, hr.restored.live, hnew]
    refine ⟨fun ha => ?_, fun ha => ⟨hg.keep a ha, fun hn => hn.2 ha⟩⟩
    by_contra hn
    exact ha.2 ⟨ha.1, hn⟩
  · rw [hoff₃ a fun hm => ((hnew a).mp hm).2 ha, hr.restored.view a (hg.keep a ha), hview a ha]
  · rw [history_append, history_append, hhist₁, hhist₃]
    by_cases hp : p ∈ addrs t
    · have hmem := (hnew p).mp hp
      rw [if_pos hmem, if_pos hp, hhist₂ p hmem.1]
      exact .inr (.inr rfl)
    · rw [if_neg (mt (hnew p).mpr hp), if_neg hp, List.nil_append, List.append_nil]
      exact hreleased p
  · have hpt : p ∉ addrs t := fun hm => ((hnew p).mp hm).2 hp
    rw [history_append, history_append, hhist₁, hhist₃, hhist₂ p (hg.keep p hp), if_neg (fun hn => hn.2 hp),
      if_neg hpt]
    rfl

end

section
variable {N V : Type*} [NodeLayout N V] [LawfulNodeLayout N V] (fails : Nat → Bool) (pol : AllocPolicy)

theorem cloneNode_cases (h : Heap N) (hdr otherNode parentNode : Ptr) (v : V) :
    (∃ h', cloneNode fails pol h hdr otherNode parentNode v = (h', .thrown) ∧ RolledBack h h') ∨
      ∃ h', cloneNode fails pol h hdr otherNode parentNode v =
          (h', .returned (QtreeDetail.cloneNode pol h.mem hdr otherNode parentNode v).1) ∧
        h'.mem = (QtreeDetail.cloneNode pol h.mem hdr otherNode parentNode v).2 ∧ Grown h h' := by
  obtain ⟨hne, hfresh, hlive, -⟩ := nodeNew_spec pol h.mem
  have hfreed := restored_nodeDelete pol h.mem
  rcases nodeNew_cases fails pol h with hnew | hnew
  · exact .inl ⟨h.attempt, by simp only [cloneNode, hnew], .of_restored (Restored.refl _) rfl⟩
  simp only [cloneNode, hnew, QtreeDetail.cloneNode]
  generalize QtreeDetail.nodeNew pol h.mem = new at *
  rcases constructValue_cases fails ⟨new.2, h.attempts + 1, h.log ++ [Event.allocated new.1]⟩ new.1 v with hv | hv
  · simp only [hv]
    refine .inl ⟨_, rfl, ?_⟩
    rw [nodeDelete, if_neg hne]
    refine ⟨hfreed, [.allocated new.1, .freed new.1], by simp [Heap.attempt], Released.unbuilt _, fun p hp => ?_⟩
    have hpn : new.1 ≠ p := fun he => hfresh (he ▸ hp)
    simp [history_cons, Event.object, hpn]
  · simp only [hv]
    refine .inr ⟨_, rfl, rfl, fun p hp => ?_, [.allocated new.1, .constructed new.1], by simp, fun p => ?_⟩
    · show p ∈ new.2.live
      rw [hlive]
      exact List.mem_cons_of_mem _ hp
    rw [history_build]
    show (if p = new.1 then _ else _) = if p ∈ new.2.live ∧ p ∉ h.mem.live then _ else _
    rw [hlive]
    by_cases hp : p = new.1
    · simp [hp, hfresh]
    · simp [hp]

theorem cloneSubtree_mem (hdr : Ptr) (fuel : Nat) {h h' : Heap N} {otherNode parentNode p : Ptr}
    (hrun : cloneSubtree fails pol hdr fuel h otherNode parentNode = some (h', .returned p)) :
    QtreeDetail.cloneSubtree pol hdr fuel h.mem otherNode parentNode = some (h'.mem, p) := by
  induction fuel generalizing h h' otherNode parentNode p with
  | zero => cases hrun
  | succ fuel ih =>
      have hcleared : ∀ (h : Heap N) (node : Ptr), (clearSubtree (h.mem.live.length + 1) h node).map (fun h =>
          (h, (.thrown : CallResult Ptr))) ≠ some (h', .returned p) := by
        intro h node
        cases clearSubtree (h.mem.live.length + 1) h node <;> simp
      rw [cloneSubtree] at hrun
      rw [QtreeDetail.cloneSubtree]
      by_cases hnil : h.mem.isNil otherNode
      · simp only [hnil, if_true, Option.some.injEq, Prod.mk.injEq, CallResult.returned.injEq] at hrun ⊢
        exact ⟨congrArg Heap.mem hrun.1, hrun.2⟩
      cases hvalue : h.mem.value otherNode with
      | none => simp [hnil, hvalue] at hrun
      | some v =>
          simp only [hnil, Bool.false_eq_true, if_false, hvalue] at hrun ⊢
          rcases cloneNode_cases fails pol h hdr otherNode parentNode v with ⟨h₁, hnew, -⟩ | ⟨h₁, hnew, hmem₁, -⟩
          · simp [hnew] at hrun
          simp only [hnew] at hrun
          rw [← hmem₁]
          generalize (QtreeDetail.cloneNode pol h.mem hdr otherNode parentNode v).1 = a at *
          rcases hleft : cloneSubtree fails pol hdr fuel h₁ (h₁.mem.left otherNode) a with _ | ⟨h₂, l | _⟩
          · simp [hleft] at hrun
          · simp only [hleft] at hrun
            simp only [ih hleft]
            rcases hright : cloneSubtree fails pol hdr fuel { h₂ with mem := h₂.mem.setLeft a l }
              ((h₂.mem.setLeft a l).right otherNode) a with _ | ⟨h₃, r | _⟩
            · simp [hright] at hrun
            · simp only [hright, Option.some.injEq, Prod.mk.injEq, CallResult.returned.injEq] at hrun
              obtain ⟨rfl, rfl⟩ := hrun
              have hmem : QtreeDetail.cloneSubtree pol hdr fuel (h₂.mem.setLeft a l)
                  ((h₂.mem.setLeft a l).right otherNode) a = some (h₃.mem, r) := ih hright
              rw [hmem]
            · simp only [hright] at hrun
              exact absurd hrun (hcleared _ _)
          · simp only [hleft] at hrun
            exact absurd hrun (hcleared _ _)

variable {hdr hdr' parent : Ptr} {t : Shape V}

theorem cloneHandler_rolledBack {h h₁ h₂ : Heap N} {a : Ptr} {v : V} {c : Color} {l' : Shape V} (hg : Grown h h₁)
    (hkeep : ∀ b ∈ h.mem.live, h₁.mem.view b = h.mem.view b) (hback : RolledBack h₁ h₂)
    (hacell : h₁.mem.view a = Cell.material .left (ptrOf hdr l') hdr parent c v) (hholds : Holds h₁.mem.view hdr a l')
    (hlive : ∀ b, b ∈ h₁.mem.live ↔ (b = a ∨ b ∈ addrs l') ∨ b ∈ h.mem.live)
    (hnew : ∀ b, b = a ∨ b ∈ addrs l' → b ∉ h.mem.live)
    (hnull : ∀ b, b = a ∨ b ∈ addrs l' → b ≠ nullptr) (hnd : (addrs l').Nodup) (haL : a ∉ addrs l')
    (hhdrLive : hdr ∈ h.mem.live) (hhdr : (h.mem.view hdr).isNil = true) :
    ∃ h₃, (clearSubtree (h₂.mem.live.length + 1) h₂ a).map (fun h => (h, (.thrown : CallResult Ptr))) =
      some (h₃, .thrown) ∧ RolledBack h h₃ := by
  have hmem : ∀ b, b ∈ addrs (.node c l' (⟨a, v⟩ : Item V) .nil) ↔ b = a ∨ b ∈ addrs l' := by
    intro b
    rw [addrs_node, addrs_nil, List.mem_append, List.mem_singleton, or_comm]
  have hnd' : (addrs (.node c l' (⟨a, v⟩ : Item V) .nil)).Nodup := by
    rw [addrs_node, addrs_nil, List.nodup_append]
    refine ⟨hnd, by simp, fun b hb b' hb' he => haL ?_⟩
    have hb' : b' = a := List.mem_singleton.mp hb'
    rwa [he, hb'] at hb
  obtain ⟨h₃, hrun, hback₃⟩ := clearSubtree_rolledBack hg hkeep hback
    (show Holds h₁.mem.view hdr parent (.node c l' ⟨a, v⟩ .nil) from ⟨hacell, hholds, trivial⟩)
    (fun b => by
      rw [hmem, hlive]
      exact ⟨fun hb => ⟨.inl hb, hnew b hb⟩, fun ⟨hb, hn⟩ => hb.resolve_right hn⟩)
    hhdrLive hhdr hnd' fun b hb => hnull b ((hmem b).mp hb)
  refine ⟨h₃, ?_, hback₃⟩
  rw [show a = ptrOf hdr (.node c l' (⟨a, v⟩ : Item V) .nil) from rfl, hrun, Option.map_some]

/-- Wherever a clone of a subtree throws, it is rolled back. -/
theorem cloneSubtree_cases (fuel : Nat) {h : Heap N} (parentNode : Ptr) (hh : Holds h.mem.view hdr' parent t)
    (hhdr' : (h.mem.view hdr').isNil = true) (hlive : ∀ a ∈ hdr' :: addrs t, a ∈ h.mem.live)
    (hhdr : (h.mem.view hdr).isNil = true) (hhdrLive : hdr ∈ h.mem.live) (hfuel : t.size < fuel) :
    (∃ h', cloneSubtree fails pol hdr fuel h (ptrOf hdr' t) parentNode = some (h', .thrown) ∧ RolledBack h h') ∨
      ∃ h' p, cloneSubtree fails pol hdr fuel h (ptrOf hdr' t) parentNode = some (h', .returned p) ∧ Grown h h' := by
  induction t generalizing h parent fuel parentNode with
  | nil =>
      obtain ⟨fuel, rfl⟩ : ∃ f, fuel = f + 1 := ⟨fuel - 1, by omega⟩
      exact .inr ⟨h, hdr, if_pos hhdr', Grown.refl h⟩
  | node c l e r ihl ihr =>
      obtain ⟨fuel, rfl⟩ : ∃ f, fuel = f + 1 := ⟨fuel - 1, by omega⟩
      obtain ⟨hleft, hright, hvalue, hfalse⟩ := hh.reads
      obtain ⟨hcell, hl, hr⟩ := hh
      simp only [ColorTree.size] at hfuel
      simp only [List.mem_cons, addrs_node, List.mem_append] at hlive
      have hspec := QtreeDetail.cloneNode_spec pol h.mem hdr e.addr parentNode e.val (hlive e.addr (by simp))
      simp only [ptrOf_node, cloneSubtree, hfalse, hvalue, Bool.false_eq_true, if_false]
      rcases cloneNode_cases fails pol h hdr e.addr parentNode e.val with ⟨h₁, hrun₁, hback⟩ | ⟨h₁, hrun₁, hmem₁, hg₁⟩
      · exact .inl ⟨h₁, by simp only [hrun₁], hback⟩
      rw [← hmem₁] at hspec
      generalize (QtreeDetail.cloneNode pol h.mem hdr e.addr parentNode e.val).1 = a at *
      obtain ⟨ha0, hanew, halive, hacell, haoff⟩ := hspec
      simp only [hrun₁]
      have hne : ∀ b ∈ h.mem.live, b ≠ a := fun b hb he => hanew (he ▸ hb)
      have hkeep₁ : ∀ b ∈ h.mem.live, b ∈ h₁.mem.live ∧ h₁.mem.view b = h.mem.view b :=
        fun b hb => ⟨hg₁.keep b hb, haoff b (hne b hb)⟩
      have hlive₁ : ∀ b, b ∈ h₁.mem.live ↔ b = a ∨ b ∈ h.mem.live := fun b => by rw [halive, List.mem_cons]
      have hleft₁ : h₁.mem.left e.addr = ptrOf hdr' l := by
        rw [← hleft, Mem.left_eq, Mem.left_eq, (hkeep₁ e.addr (hlive _ (by simp))).2]
      have hl₁ : Holds h₁.mem.view hdr' e.addr l := hl.congr fun b hb => (hkeep₁ b (hlive b (by simp [hb]))).2
      have hhdr₁ : (h₁.mem.view hdr).isNil = true := by rw [(hkeep₁ hdr hhdrLive).2, hhdr]
      have hhdr'₁ : (h₁.mem.view hdr').isNil = true := by rw [(hkeep₁ hdr' (hlive _ (by simp))).2, hhdr']
      have hlivel₁ : ∀ b ∈ hdr' :: addrs l, b ∈ h₁.mem.live := by
        intro b hb
        exact (hkeep₁ b (hlive b (by rcases List.mem_cons.mp hb with hb | hb <;> simp [hb]))).1
      rw [hleft₁]
      rcases ihl fuel a hl₁ hhdr'₁ hlivel₁ hhdr₁ (hkeep₁ hdr hhdrLive).1 (by omega) with
        ⟨h₂, hrun₂, hback⟩ | ⟨h₂, p, hrun₂, hg₂⟩
      · obtain ⟨h₃, hrun₃, hback₃⟩ := @cloneHandler_rolledBack _ _ _ _ _ _ h h₁ h₂ a e.val _ .nil hg₁
          (fun b hb => (hkeep₁ b hb).2) hback hacell trivial (fun b => by simp [hlive₁]) (by simpa using hanew)
          (by simpa using ha0) (by simp) (by simp) hhdrLive hhdr
        exact .inl ⟨h₃, by simp only [hrun₂, hrun₃], hback₃⟩
      · obtain ⟨m₂, l', hmem₂, -, hholdsl, hndl, hliveL, hev₂, hnew₂⟩ :=
          QtreeDetail.cloneSubtree_spec pol hdr fuel a hl₁ hhdr'₁ hlivel₁ (by omega)
        rw [← hleft₁, cloneSubtree_mem fails pol hdr fuel (hleft₁ ▸ hrun₂), Option.some.injEq, Prod.mk.injEq] at hmem₂
        obtain ⟨rfl, rfl⟩ := hmem₂
        have haL : a ∉ addrs l' := fun ha => (hev₂.owned a ha).elim (by simp) fun hn => hn ((hlive₁ a).mpr (.inl rfl))
        obtain ⟨haM₂, haview₂⟩ := hev₂.keep a ((hlive₁ a).mpr (.inl rfl)) (by simp)
        have hg₃ : Grown h { h₂ with mem := h₂.mem.setLeft a (ptrOf hdr l') } :=
          ⟨(hg₁.trans hg₂).keep, (hg₁.trans hg₂).log⟩
        have hkeep₃ : ∀ b ∈ h.mem.live, b ∈ h₂.mem.live ∧ (h₂.mem.setLeft a (ptrOf hdr l')).view b = h.mem.view b := by
          intro b hb
          obtain ⟨hb₁, hview₁⟩ := hkeep₁ b hb
          obtain ⟨hb₂, hview₂⟩ := hev₂.keep b hb₁ (by simp)
          exact ⟨hb₂, by rw [Mem.view_setLeft, if_neg (hne b hb), hview₂, hview₁]⟩
        have hright₃ : (h₂.mem.setLeft a (ptrOf hdr l')).right e.addr = ptrOf hdr' r := by
          rw [← hright, Mem.right_eq, Mem.right_eq, (hkeep₃ e.addr (hlive _ (by simp))).2]
        have hr₃ : Holds (h₂.mem.setLeft a (ptrOf hdr l')).view hdr' e.addr r :=
          hr.congr fun b hb => (hkeep₃ b (hlive b (by simp [hb]))).2
        have hrest := ihr fuel (h := { h₂ with mem := h₂.mem.setLeft a (ptrOf hdr l') }) a hr₃
          (by rw [(hkeep₃ hdr' (hlive _ (by simp))).2, hhdr'])
          (fun b hb => (hkeep₃ b (hlive b (by rcases List.mem_cons.mp hb with hb | hb <;> simp [hb]))).1)
          (by rw [(hkeep₃ hdr hhdrLive).2, hhdr]) (hkeep₃ hdr hhdrLive).1 (by omega)
        have hacell₃ : (h₂.mem.setLeft a (ptrOf hdr l')).view a =
            Cell.material .left (ptrOf hdr l') hdr parentNode (h.mem.color e.addr) e.val := by
          rw [Mem.view_setLeft, if_pos rfl, haview₂, hacell]
          rfl
        have hholds₃ : Holds (h₂.mem.setLeft a (ptrOf hdr l')).view hdr a l' := hholdsl.congr fun b hb => by
          rw [Mem.view_setLeft, if_neg (ne_of_mem_of_not_mem hb haL)]
        have hnew₃ : ∀ b, b = a ∨ b ∈ addrs l' → b ∉ h.mem.live := by
          rintro b (rfl | hb) hn
          · exact hanew hn
          · exact (hev₂.owned b hb).elim (by simp) fun h => h (hkeep₁ b hn).1
        have hnull₃ : ∀ b, b = a ∨ b ∈ addrs l' → b ≠ nullptr := by
          rintro b (rfl | hb)
          · exact ha0
          · exact (hliveL b hb).1
        have hlive₃ : ∀ b, b ∈ h₂.mem.live ↔ (b = a ∨ b ∈ addrs l') ∨ b ∈ h.mem.live := by
          intro b
          refine ⟨fun hb => ?_, fun hb => ?_⟩
          · rcases hnew₂ b hb with hb | hb
            · exact ((hlive₁ b).mp hb).imp_left .inl
            · exact .inl (.inr hb)
          · rcases hb with (rfl | hb) | hb
            · exact haM₂
            · exact (hliveL b hb).2
            · exact (hkeep₃ b hb).1
        simp only [hrun₂, hright₃]
        rcases hrest with ⟨h₄, hrun₄, hback⟩ | ⟨h₄, p, hrun₄, hg₄⟩
        · obtain ⟨h₅, hrun₅, hback₅⟩ := @cloneHandler_rolledBack _ _ _ _ _ _ h _ h₄ a e.val _ l' hg₃
            (fun b hb => (hkeep₃ b hb).2) hback hacell₃ hholds₃ hlive₃ hnew₃ hnull₃ hndl haL hhdrLive hhdr
          exact .inl ⟨h₅, by simp only [hrun₄, hrun₅], hback₅⟩
        · exact .inr ⟨{ h₄ with mem := h₄.mem.setRight a p }, a, by simp only [hrun₄],
            (hg₃.trans hg₄).keep, (hg₃.trans hg₄).log⟩

variable {K : Type*} {lt : K → K → Bool} {key : V → K} {q other : Qtree} {T : Shape V}

theorem cloneFrom_cases {h : Heap N} (hq : RedBlackTree lt key h.mem ⟨hdr, 0⟩ ColorTree.nil)
    (hother : RedBlackTree lt key h.mem other T) (hT : T ≠ ColorTree.nil) :
    (∃ h', cloneFrom fails pol h ⟨hdr, 0⟩ other = some ({ h' with mem := initHeader h'.mem hdr }, ⟨hdr, 0⟩, .thrown) ∧
      RolledBack h h') ∨
    ∃ h' q', cloneFrom fails pol h ⟨hdr, 0⟩ other = some (h', q', .returned ()) ∧
      QtreeDetail.cloneFrom pol h.mem ⟨hdr, 0⟩ other = some (h'.mem, q') := by
  have hlt := hother.size_lt
  have hroot : h.mem.parent other.header = ptrOf other.header T := hother.focus.ctx
  have hempty : other.empty = false := by
    rw [Qtree.empty, beq_eq_false_iff_ne]
    exact hother.count_ne_zero hT
  have hne : hdr ≠ nullptr := hq.nonnull hdr (by simp)
  obtain ⟨m', T', hmodel, -⟩ := cloneFrom_spec pol hq hother hT
  rcases cloneSubtree_cases fails pol (h.mem.live.length + 1) hdr hother.focus.sub hother.focus.hdrNil hother.live
      hq.focus.hdrNil (hq.live hdr (by simp)) (by omega) with ⟨h', hrun, hback⟩ | ⟨h', p, hrun, -⟩
  · refine .inl ⟨h', ?_, hback⟩
    simp only [cloneFrom, hempty, Bool.false_eq_true, if_false, hroot, hrun, clear, or_true, if_true, ne_eq, hne,
      not_false_eq_true, Option.map_some]
  have hmem := cloneSubtree_mem fails pol hdr _ hrun
  simp only [QtreeDetail.cloneFrom, cloneFrom, hempty, Bool.false_eq_true, if_false, hroot, hmem, hrun] at hmodel ⊢
  cases hmin : minimum (h'.mem.setParent hdr p) p with
  | none => simp [hmin] at hmodel
  | some first =>
      simp only [hmin] at hmodel ⊢
      cases hmax : maximum ((h'.mem.setParent hdr p).setLeft hdr first) p with
      | none => simp [hmax] at hmodel
      | some last => exact .inr ⟨_, _, rfl, rfl⟩

theorem header_rolledBack {h h' : Heap N} {n : Nat} (hback : RolledBack ⟨initHeader (QtreeDetail.allocateHeader pol h.mem).2
      (QtreeDetail.allocateHeader pol h.mem).1, n, h.log ++ [Event.allocated (QtreeDetail.allocateHeader pol h.mem).1]⟩ h') :
    RolledBack h (nodeDelete { h' with mem := initHeader h'.mem (QtreeDetail.allocateHeader pol h.mem).1 }
      (QtreeDetail.allocateHeader pol h.mem).1) := by
  obtain ⟨hne, hfresh, hlive, hoff⟩ := view_allocateHeader pol h.mem
  generalize QtreeDetail.allocateHeader pol h.mem = new at *
  obtain ⟨-, -, -, -, hlive₁, hoff₁⟩ := view_initHeader new.2 new.1
  obtain ⟨-, -, -, -, hlive₂, hoff₂⟩ := view_initHeader h'.mem new.1
  obtain ⟨⟨hlive', hview'⟩, E, hlog, hreleased, hold⟩ := hback
  simp only [hlive₁, hlive, List.mem_cons] at hlive' hview' hold
  rw [nodeDelete, if_neg hne]
  refine ⟨⟨fun a => ?_, fun a ha => ?_⟩, [Event.allocated new.1] ++ E ++ [Event.freed new.1], by simp [hlog], ?_, fun p hp => ?_⟩
  · rw [mem_live_nodeDelete _ hne, hlive₂, hlive']
    exact ⟨fun h => h.1.resolve_left h.2, fun ha => ⟨.inr ha, fun he => hfresh (he ▸ ha)⟩⟩
  · have hne' : a ≠ new.1 := fun he => hfresh (he ▸ ha)
    rw [view_nodeDelete, hoff₂ a hne', hview' a (.inr ha), hoff₁ a hne', hoff a hne']
  · exact hreleased.around (hold _ (.inl rfl))
  · have hne' : new.1 ≠ p := fun he => hfresh (he ▸ hp)
    simp [history_cons, Event.object, hne', hold p (.inr hp)]

theorem copyConstruct_cases {h : Heap N} (hother : Represents lt key h.mem other T) :
    (∃ h', copyConstruct fails pol h other = some (h', .thrown) ∧ RolledBack h h') ∨
      ∃ h' q', copyConstruct fails pol h other = some (h', .returned q') ∧
        QtreeDetail.copyConstruct pol h.mem other = some (h'.mem, q') := by
  by_cases hT : T = ColorTree.nil
  · have hempty : other.empty = true := by
      rw [Qtree.empty, hother.count, hT]
      rfl
    exact .inr ⟨h, Qtree.init, by rw [copyConstruct, if_pos hempty], by rw [QtreeDetail.copyConstruct, if_pos hempty]⟩
  · have hrb := hother.resolve_left fun h => hT h.2
    have hempty : other.empty = false := by
      rw [Qtree.empty, beq_eq_false_iff_ne]
      exact hrb.count_ne_zero hT
    rcases allocateHeader_cases fails pol h with hnew | hnew
    · refine .inl ⟨h.attempt, ?_, .of_restored (Restored.refl _) rfl⟩
      simp only [copyConstruct, hempty, Bool.false_eq_true, if_false, hnew]
    obtain ⟨hq, hev⟩ := @allocateHeader_spec _ _ _ _ _ lt key pol h.mem
    have hrb₁ := (hother.frame hev (by simp)).resolve_left fun h => hT h.2
    simp only [copyConstruct, QtreeDetail.copyConstruct, hempty, Bool.false_eq_true, if_false, hnew]
    rcases @cloneFrom_cases _ _ _ _ fails pol _ _ _ _ _ _ ⟨initHeader (QtreeDetail.allocateHeader pol h.mem).2
        (QtreeDetail.allocateHeader pol h.mem).1, h.attempts + 1,
        h.log ++ [Event.allocated (QtreeDetail.allocateHeader pol h.mem).1]⟩ hq hrb₁ hT
      with ⟨h', hrun, hback⟩ | ⟨h', q', hrun, hmem⟩
    · exact .inl ⟨_, by simp only [hrun], header_rolledBack pol hback⟩
    · exact .inr ⟨h', q', by simp only [hrun], hmem⟩

theorem copyAssign_cases {h : Heap N} {U : Shape V} (hq : Represents lt key h.mem q T)
    (hother : Represents lt key h.mem other U) :
    (∃ h', copyAssign fails pol h q other = some (h', q, .thrown) ∧ RolledBack h h') ∨
      ∃ h' q', copyAssign fails pol h q other = some (h', q', .returned ()) ∧
        QtreeDetail.copyAssign pol h.mem q other = some (h'.mem, q') := by
  rcases copyConstruct_cases fails pol hother with ⟨h', hrun, hback⟩ | ⟨h₁, tmp, hrun, hmem⟩
  · exact .inl ⟨h', by simp only [copyAssign, hrun], hback⟩
  obtain ⟨m', q', T', hmodel, -⟩ := copyAssign_spec pol hq hother
  have hdestruct := destruct_mem h₁ q
  simp only [QtreeDetail.copyAssign, hmem, ← hdestruct] at hmodel ⊢
  cases hd : destruct h₁ q with
  | none => simp [hd] at hmodel
  | some h' => exact .inr ⟨h', tmp, by simp [copyAssign, hrun, hd], by simp⟩

end

end IdaSdk.QtreeDetail.Throwing
