import IdaSdk.QtreeInterface

/-!
Runs over many tree objects that share one memory. The operations of a single object are a parameter
with a contract and a meaning on sorted lists; construction, assignment, moves and swaps are common to
all of them. An object that is constructed anew is destroyed first.
-/

namespace IdaSdk.QtreeDetail
open RedBlack SortedList

/-- The operations `O` of one object with results `R`: what the code does, what it means for the sorted
contents, and which calls the caller may make on an object of a given size. -/
structure ObjectInterface (N V O R : Type*) where
  exec : O → Mem N → Qtree → Option (Mem N × Qtree × R)
  spec : O → List V → List V × R
  contract : O → Nat → Prop

structure World (N : Type*) where
  mem : Mem N
  objs : Nat → Qtree

inductive WorldOp (O : Type*) where
  | on (i : Nat) (op : O)
  | construct (i : Nat)
  | copyConstruct (i j : Nat)
  | moveConstruct (i j : Nat)
  | copyAssign (i j : Nat)
  | moveAssign (i j : Nat)
  | swap (i j : Nat)

namespace World

/-- No node is allocated and every object is default-constructed. -/
def init {N V : Type*} [NodeLayout N V] : World N := ⟨⟨fun _ => NodeLayout.blank, []⟩, fun _ => Qtree.init⟩

def set {N : Type*} (w : World N) (i : Nat) (m : Mem N) (q : Qtree) : World N := ⟨m, Function.update w.objs i q⟩

/-- Two objects change; the memory is `m` afterwards. -/
def set₂ {N : Type*} (w : World N) (m : Mem N) (i : Nat) (q : Qtree) (j : Nat) (q' : Qtree) : World N :=
  ⟨m, Function.update (Function.update w.objs i q) j q'⟩

end World

namespace ObjectInterface

variable {N V O R : Type*} (I : ObjectInterface N V O R)

def step [NodeLayout N V] (pol : AllocPolicy) (w : World N) : WorldOp O → Option (World N × Option R)
  | .on i op => (I.exec op w.mem (w.objs i)).map fun (m, q, r) => (w.set i m q, some r)
  | .construct i => (destruct w.mem (w.objs i)).map fun m => (w.set i m Qtree.init, none)
  | .copyConstruct i j =>
    match destruct w.mem (w.objs i) with
    | none => none
    | some m => (copyConstruct pol m (w.objs j)).map fun (m, q) => (w.set i m q, none)
  | .moveConstruct i j =>
    (destruct w.mem (w.objs i)).map fun m =>
      (w.set₂ m i (moveConstruct (w.objs j)).1 j (moveConstruct (w.objs j)).2, none)
  | .copyAssign i j =>
    if i = j then some (w, none)
    else (copyAssign pol w.mem (w.objs i) (w.objs j)).map fun (m, q) => (w.set i m q, none)
  | .moveAssign i j =>
    if i = j then some (w, none)
    else (moveAssign w.mem (w.objs i) (w.objs j)).map fun (m, q, q') => (w.set₂ m i q j q', none)
  | .swap i j => if i = j then some (w, none) else some (w.set₂ w.mem i (w.objs j) j (w.objs i), none)

/-- The meaning of a step for the contents of all objects. -/
def specStep (σ : Nat → List V) : WorldOp O → (Nat → List V) × Option R
  | .on i op => (Function.update σ i (I.spec op (σ i)).1, some (I.spec op (σ i)).2)
  | .construct i => (Function.update σ i [], none)
  | .copyConstruct i j => (Function.update σ i (σ j), none)
  | .moveConstruct i j => (Function.update (Function.update σ i (σ j)) j [], none)
  | .copyAssign i j => (Function.update σ i (σ j), none)
  | .moveAssign i j => (if i = j then σ else Function.update (Function.update σ i (σ j)) j [], none)
  | .swap i j => (Function.update (Function.update σ i (σ j)) j (σ i), none)

/-- The calls that are allowed when the objects have the given sizes. -/
def InContract (size : Nat → Nat) : WorldOp O → Prop
  | .on i op => I.contract op (size i)
  | .copyConstruct i j => i ≠ j
  | .moveConstruct i j => i ≠ j
  | _ => True

def run [NodeLayout N V] (pol : AllocPolicy) : World N → List (WorldOp O) → Option (World N × List (Option R))
  | w, [] => some (w, [])
  | w, op :: ops =>
    match I.step pol w op with
    | none => none
    | some (w, r) => (run pol w ops).map fun (w, rs) => (w, r :: rs)

def specRun : (Nat → List V) → List (WorldOp O) → (Nat → List V) × List (Option R)
  | σ, [] => (σ, [])
  | σ, op :: ops =>
    let (σ, r) := I.specStep σ op
    ((specRun σ ops).1, r :: (specRun σ ops).2)

/-- Every call of the sequence is allowed when its turn comes. -/
def RunInContract : (Nat → List V) → List (WorldOp O) → Prop
  | _, [] => True
  | σ, op :: ops => I.InContract (fun i => (σ i).length) op ∧ RunInContract (I.specStep σ op).1 ops

/-- The worlds that a sequence of allowed calls can reach. -/
inductive Reachable [NodeLayout N V] (pol : AllocPolicy) : World N → Prop
  | init : Reachable pol World.init
  | step {w w' : World N} {op : WorldOp O} {r : Option R} : Reachable pol w →
      I.InContract (fun i => (w.objs i).size) op → I.step pol w op = some (w', r) → Reachable pol w'

/-- Each call meets its meaning on the sorted contents. -/
def Sound [NodeLayout N V] {K : Type*} (lt : K → K → Bool) (key : V → K) : Prop :=
  ∀ (op : O) (m : Mem N) (q : Qtree) (T : Shape V), Represents lt key m q T → I.contract op T.size →
    ∃ m' q', I.exec op m q = some (m', q', (I.spec op (T.toList.map Item.val)).2) ∧
      Becomes lt key m q T m' q' (I.spec op (T.toList.map Item.val)).1

end ObjectInterface

/-- Every object represents its tree, and no cell belongs to two objects. -/
structure World.Consistent {N V K : Type*} [NodeLayout N V] (lt : K → K → Bool) (key : V → K) (w : World N)
    (S : Nat → Shape V) : Prop where
  represents : ∀ i, Represents lt key w.mem (w.objs i) (S i)
  disjoint : ∀ i j, i ≠ j → ∀ a ∈ footprint (w.objs i) (S i), a ∉ footprint (w.objs j) (S j)

def World.Refines {N V K : Type*} [NodeLayout N V] (lt : K → K → Bool) (key : V → K) (w : World N)
    (σ : Nat → List V) : Prop :=
  ∃ S : Nat → Shape V, w.Consistent lt key S ∧ ∀ i, (S i).toList.map Item.val = σ i

section
variable {N V K O R : Type*} [NodeLayout N V] {lt : K → K → Bool} {key : V → K} {w : World N} {σ : Nat → List V}
  {S : Nat → Shape V}

namespace World

theorem Consistent.size_eq (h : w.Consistent lt key S) (i : Nat) : (w.objs i).size = (S i).size :=
  (h.represents i).count

theorem Consistent.set (h : w.Consistent lt key S) {i : Nat} {m : Mem N} {q : Qtree} {T : Shape V}
    (hrep : Represents lt key m q T)
    (hev : Evolves w.mem m (footprint (w.objs i) (S i)) (footprint q T)) :
    (w.set i m q).Consistent lt key (Function.update S i T) where
  represents j := by
    by_cases hj : j = i
    · subst hj
      simpa [World.set] using hrep
    · have hframe := (h.represents j).frame hev (h.disjoint j i hj)
      simpa [World.set, hj] using hframe
  disjoint j j' hne a ha ha' := by
    have howned : ∀ l, l ≠ i → a ∈ footprint q T → a ∈ footprint (w.objs l) (S l) → False := by
      intro l hl hq hmem
      rcases hev.owned a hq with hold | hnew
      · exact h.disjoint i l (Ne.symm hl) a hold hmem
      · exact hnew ((h.represents l).live a hmem)
    simp only [World.set, Function.update_apply] at ha ha'
    by_cases hj : j = i
    · have hj' : j' ≠ i := fun he => hne (hj.trans he.symm)
      rw [if_pos hj, if_pos hj] at ha
      rw [if_neg hj', if_neg hj'] at ha'
      exact howned j' hj' ha ha'
    · rw [if_neg hj, if_neg hj] at ha
      by_cases hj' : j' = i
      · rw [if_pos hj', if_pos hj'] at ha'
        exact howned j hj ha' ha
      · rw [if_neg hj', if_neg hj'] at ha'
        exact h.disjoint j j' hne a ha ha'

theorem Consistent.swap (h : w.Consistent lt key S) (i j : Nat) :
    (w.set₂ w.mem i (w.objs j) j (w.objs i)).Consistent lt key
      (Function.update (Function.update S i (S j)) j (S i)) := by
  rw [set₂, ← Equiv.comp_swap_eq_update, ← Equiv.comp_swap_eq_update]
  exact ⟨fun l => h.represents _, fun l l' hne => h.disjoint _ _ ((Equiv.swap j i).injective.ne hne)⟩

theorem Consistent.take (h : w.Consistent lt key S) {i j : Nat} (hij : i ≠ j) {m : Mem N}
    (hev : Evolves w.mem m (footprint (w.objs i) (S i)) []) :
    (w.set₂ m i (w.objs j) j Qtree.init).Consistent lt key (Function.update (Function.update S i (S j)) j .nil) := by
  have hfreed : (w.set i m Qtree.init).Consistent lt key (Function.update S i .nil) :=
    h.set (.inl ⟨rfl, rfl⟩) hev
  have hswap := hfreed.swap i j
  simp only [World.set, World.set₂, Function.update_self, Function.update_of_ne hij.symm,
    Function.update_idem] at hswap
  exact hswap

theorem refines_init : (World.init : World N).Refines lt key fun _ => [] :=
  ⟨fun _ => .nil, ⟨fun _ => .inl ⟨rfl, rfl⟩, fun _ _ _ a ha => absurd ha (by simp [footprint, World.init, Qtree.init])⟩,
    fun _ => rfl⟩

end World

theorem World.Refines.length_eq (h : w.Refines lt key σ) : (fun i => (w.objs i).size) = fun i => (σ i).length := by
  obtain ⟨S, hw, hσ⟩ := h
  funext i
  rw [hw.size_eq, ← hσ i, List.length_map, ColorTree.length_toList]

theorem Becomes.refines (hw : w.Consistent lt key S) (hσ : ∀ i, (S i).toList.map Item.val = σ i) {i : Nat}
    {m : Mem N} {q : Qtree} {L : List V} (hb : Becomes lt key w.mem (w.objs i) (S i) m q L) :
    (w.set i m q).Refines lt key (Function.update σ i L) := by
  obtain ⟨T, hrep, hlist, hev⟩ := hb
  refine ⟨Function.update S i T, hw.set hrep hev, fun l => ?_⟩
  by_cases hl : l = i
  · subst hl
    simpa using hlist
  · simpa [hl] using hσ l

end

namespace ObjectInterface

section
variable {N V K O R : Type*} [NodeLayout N V] [LawfulNodeLayout N V] {lt : K → K → Bool} {key : V → K} {w : World N}
  {σ : Nat → List V} {I : ObjectInterface N V O R}

/-- An allowed call succeeds with the result that it means, and the contents become what it means. -/
theorem step_refines (hI : I.Sound lt key) (pol : AllocPolicy) (h : w.Refines lt key σ) (op : WorldOp O)
    (hc : I.InContract (fun i => (σ i).length) op) :
    ∃ w', I.step pol w op = some (w', (I.specStep σ op).2) ∧ w'.Refines lt key (I.specStep σ op).1 := by
  obtain ⟨S, hw, hσ⟩ := h
  have hupdate : ∀ {f : Nat → List V} {g : Nat → Shape V} (i : Nat) (L : List V) (T : Shape V),
      (∀ l, (g l).toList.map Item.val = f l) → T.toList.map Item.val = L →
        ∀ l, (Function.update g i T l).toList.map Item.val = Function.update f i L l := by
    intro f g i L T hfg hT l
    by_cases hl : l = i
    · subst hl
      simpa using hT
    · simpa [hl] using hfg l
  cases op with
  | on i op =>
      have hlen : (σ i).length = (S i).size := by
        rw [← hσ i, List.length_map, ColorTree.length_toList]
      obtain ⟨m, q, hrun, hb⟩ := hI op w.mem (w.objs i) (S i) (hw.represents i) (hlen ▸ hc)
      rw [hσ i] at hrun hb
      exact ⟨w.set i m q, by rw [step, hrun]; rfl, hb.refines hw hσ⟩
  | construct i =>
      obtain ⟨m, hrun, hev⟩ := destruct_spec (hw.represents i)
      refine ⟨w.set i m Qtree.init, by rw [step, hrun]; rfl, Becomes.refines hw hσ ?_⟩
      exact ⟨.nil, .inl ⟨rfl, rfl⟩, rfl, hev⟩
  | copyConstruct i j =>
      have hij : i ≠ j := hc
      obtain ⟨m, hrun, hev⟩ := destruct_spec (hw.represents i)
      have hj : Represents lt key m (w.objs j) (S j) := (hw.represents j).frame hev (hw.disjoint j i hij.symm)
      obtain ⟨m', q, T, hrun', hrep, hmap, hev'⟩ := copyConstruct_spec pol hj
      refine ⟨w.set i m' q, ?_, Becomes.refines hw hσ ⟨T, hrep, ?_, hev.trans hev'⟩⟩
      · rw [step, hrun]
        simp only [hrun', Option.map_some]
        rfl
      · rw [← hσ j, ← ColorTree.toList_map, hmap, ColorTree.toList_map]
  | moveConstruct i j =>
      have hij : i ≠ j := hc
      obtain ⟨m, hrun, hev⟩ := destruct_spec (hw.represents i)
      refine ⟨w.set₂ m i (w.objs j) j Qtree.init, by rw [step, hrun]; rfl, _, hw.take hij hev, ?_⟩
      exact hupdate j [] .nil (hupdate i (σ j) (S j) hσ (hσ j)) rfl
  | copyAssign i j =>
      by_cases hij : i = j
      · subst hij
        refine ⟨w, if_pos rfl, ?_⟩
        rw [specStep, Function.update_eq_self]
        exact ⟨S, hw, hσ⟩
      · obtain ⟨m, q, T, hrun, hrep, hmap, hev⟩ := copyAssign_spec pol (hw.represents i) (hw.represents j)
        refine ⟨w.set i m q, ?_, Becomes.refines hw hσ ⟨T, hrep, ?_, hev⟩⟩
        · rw [step, if_neg hij, hrun]
          rfl
        · rw [← hσ j, ← ColorTree.toList_map, hmap, ColorTree.toList_map]
  | moveAssign i j =>
      by_cases hij : i = j
      · refine ⟨w, if_pos hij, ?_⟩
        rw [specStep, if_pos hij]
        exact ⟨S, hw, hσ⟩
      obtain ⟨m, hrun, hev⟩ := destruct_spec (hw.represents i)
      refine ⟨w.set₂ m i (w.objs j) j Qtree.init, ?_, ?_⟩
      · rw [step, if_neg hij, moveAssign, hrun]
        rfl
      · rw [specStep, if_neg hij]
        exact ⟨_, hw.take hij hev, hupdate j [] .nil (hupdate i (σ j) (S j) hσ (hσ j)) rfl⟩
  | swap i j =>
      by_cases hij : i = j
      · subst hij
        refine ⟨w, if_pos rfl, ?_⟩
        rw [specStep, Function.update_eq_self, Function.update_eq_self]
        exact ⟨S, hw, hσ⟩
      · exact ⟨_, if_neg hij, _, hw.swap i j, hupdate j (σ i) (S i) (hupdate i (σ j) (S j) hσ (hσ j)) (hσ i)⟩

theorem run_refines (hI : I.Sound lt key) (pol : AllocPolicy) (ops : List (WorldOp O)) (h : w.Refines lt key σ)
    (hc : I.RunInContract σ ops) :
    ∃ w', I.run pol w ops = some (w', (I.specRun σ ops).2) ∧ w'.Refines lt key (I.specRun σ ops).1 := by
  induction ops generalizing w σ with
  | nil => exact ⟨w, rfl, h⟩
  | cons op ops ih =>
      obtain ⟨w₁, hstep, h₁⟩ := step_refines hI pol h op hc.1
      obtain ⟨w', hrun, h'⟩ := ih h₁ hc.2
      refine ⟨w', ?_, h'⟩
      rw [run, hstep]
      simp only [hrun, Option.map_some]
      rfl

/-- Every run of allowed calls on default-constructed objects gives the results of the same calls on sorted
lists without equivalent keys, and leaves objects with those contents. -/
def RefinesSortedLists (I : ObjectInterface N V O R) (lt : K → K → Bool) (key : V → K) (pol : AllocPolicy) : Prop :=
  ∀ ops, I.RunInContract (fun _ => []) ops →
    ∃ w, I.run pol World.init ops = some (w, (I.specRun (fun _ => []) ops).2) ∧
      w.Refines lt key (I.specRun (fun _ => []) ops).1 ∧ ∀ i, SortedBy lt key ((I.specRun (fun _ => []) ops).1 i)

theorem Sound.refinesSortedLists (hI : I.Sound lt key) (pol : AllocPolicy) : I.RefinesSortedLists lt key pol := by
  intro ops hc
  obtain ⟨w, hrun, href⟩ := run_refines hI pol ops World.refines_init hc
  refine ⟨w, hrun, href, fun i => ?_⟩
  obtain ⟨S, hw, hσ⟩ := href
  rw [← hσ i]
  exact (hw.represents i).sorted

theorem Reachable.refines (hI : I.Sound lt key) {pol : AllocPolicy} (h : I.Reachable pol w) :
    ∃ σ, w.Refines lt key σ := by
  induction h with
  | init => exact ⟨_, World.refines_init⟩
  | @step w w' op r _ hc hstep ih =>
      obtain ⟨σ, hσ⟩ := ih
      obtain ⟨w₁, hstep₁, h₁⟩ := step_refines hI pol hσ op (hσ.length_eq ▸ hc)
      rw [hstep₁] at hstep
      obtain rfl : w₁ = w' := (Prod.mk.inj (Option.some.inj hstep)).1
      exact ⟨_, h₁⟩

theorem Reachable.exists_step (hI : I.Sound lt key) {pol : AllocPolicy} (h : I.Reachable pol w) {op : WorldOp O}
    (hc : I.InContract (fun i => (w.objs i).size) op) : ∃ r, I.step pol w op = some r := by
  obtain ⟨σ, hσ⟩ := h.refines hI
  obtain ⟨w', hstep, -⟩ := step_refines hI pol hσ op (hσ.length_eq ▸ hc)
  exact ⟨_, hstep⟩

end

end ObjectInterface

end IdaSdk.QtreeDetail
