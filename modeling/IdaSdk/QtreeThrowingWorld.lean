import IdaSdk.QtreeThrowingCopy

/-!
Exception safety over whole runs. Any call that allocates or constructs may throw and the run goes on; in every world
that is reached this way, an insertion that throws keeps its tree and a copy that throws leaves nothing behind.
-/

namespace IdaSdk.QtreeDetail.Throwing
open RedBlack SortedList Lifecycle

section
variable {N V K O R : Type} [NodeLayout N V]

/-- The worlds that allowed calls can reach when those that allocate or construct may throw. -/
inductive Reachable (I : ObjectInterface N V O R) (lt : K → K → Bool) (key : V → K) (pol : AllocPolicy) :
    World N → Prop
  | init : Reachable I lt key pol World.init
  | step {w w' : World N} {op : WorldOp O} {r : Option R} : Reachable I lt key pol w →
      I.InContract (fun i => (w.objs i).size) op → I.step pol w op = some (w', r) → Reachable I lt key pol w'
  | emplace {w : World N} {i : Nat} {c : EmplaceCall V} {fails : Nat → Bool} {h' : Heap N} {q' : Qtree} :
      Reachable I lt key pol w → c.contract (w.objs i).size →
      c.exec fails pol lt key (Heap.start w.mem) (w.objs i) = some (h', q', .thrown) →
      Reachable I lt key pol (w.set i h'.mem q')
  | insertRange {w : World N} {i : Nat} {vs : List V} {fails : Nat → Bool} {h' : Heap N} {q' : Qtree} :
      Reachable I lt key pol w →
      insertRange fails pol lt key (Heap.start w.mem) (w.objs i) vs = some (h', q', .thrown) →
      Reachable I lt key pol (w.set i h'.mem q')
  | copyConstruct {w : World N} {j : Nat} {fails : Nat → Bool} {h' : Heap N} : Reachable I lt key pol w →
      copyConstruct fails pol (Heap.start w.mem) (w.objs j) = some (h', .thrown) →
      Reachable I lt key pol ⟨h'.mem, w.objs⟩
  | copyAssign {w : World N} {i j : Nat} {fails : Nat → Bool} {h' : Heap N} {q' : Qtree} : Reachable I lt key pol w →
      i ≠ j → copyAssign fails pol (Heap.start w.mem) (w.objs i) (w.objs j) = some (h', q', .thrown) →
      Reachable I lt key pol (w.set i h'.mem q')

/-- What the calls that may throw do in the world `w` if they do. The log of a call starts empty. -/
structure ThrowSafe (lt : K → K → Bool) (key : V → K) (pol : AllocPolicy) (w : World N) : Prop where
  /-- Insertion of one element keeps the tree. -/
  emplace : ∀ (fails : Nat → Bool) (i : Nat) (c : EmplaceCall V), c.contract (w.objs i).size →
    ∃ h' q' r, c.exec fails pol lt key (Heap.start w.mem) (w.objs i) = some (h', q', r) ∧
      (r = .thrown → KeepsTree w.mem (w.objs i) h'.mem q')
  /-- Insertion of a range inserts the elements before the one that failed. -/
  insertRange : ∀ (fails : Nat → Bool) (i : Nat) (vs : List V), ∃ (T : Shape V) (h' : Heap N) (q' : Qtree) (r : CallResult Unit),
    Represents lt key w.mem (w.objs i) T ∧
    insertRange fails pol lt key (Heap.start w.mem) (w.objs i) vs = some (h', q', r) ∧
    (r = .thrown → ∃ vs₁ v vs₂, vs = vs₁ ++ v :: vs₂ ∧ Becomes lt key w.mem (w.objs i) T h'.mem q'
      (vs₁.foldl (fun L v => insertIfAbsent lt key v L) (T.toList.map Item.val)))
  /-- A copy constructor restores the memory and releases what it built. -/
  copyConstruct : ∀ (fails : Nat → Bool) (j : Nat),
    ∃ h' r, copyConstruct fails pol (Heap.start w.mem) (w.objs j) = some (h', r) ∧
      (r = .thrown → Restored w.mem h'.mem ∧ Released h'.log)
  /-- So does copy assignment, whose target keeps its contents. -/
  copyAssign : ∀ (fails : Nat → Bool) (i j : Nat), i ≠ j →
    ∃ h' q' r, copyAssign fails pol (Heap.start w.mem) (w.objs i) (w.objs j) = some (h', q', r) ∧
      (r = .thrown → q' = w.objs i ∧ Restored w.mem h'.mem ∧ Released h'.log)

end

section
variable {N V K O R : Type} [NodeLayout N V] {lt : K → K → Bool} {key : V → K} {w : World N} {σ : Nat → List V}
  {S : Nat → Shape V}

variable {m : Mem N}

theorem RolledBack.released {h' : Heap N} (hback : RolledBack (Heap.start m) h') :
    Restored m h'.mem ∧ Released h'.log := by
  obtain ⟨hr, E, hlog, hreleased, -⟩ := hback
  have hlog : h'.log = E := by simpa [Heap.start] using hlog
  exact ⟨hr, hlog ▸ hreleased⟩

theorem refines_set (h : w.Refines lt key σ) (i : Nat) {q : Qtree}
    (hkeeps : ∀ T : Shape V, Represents lt key w.mem (w.objs i) T →
      Represents lt key m q T ∧ Evolves w.mem m (footprint (w.objs i) T) (footprint q T)) :
    (w.set i m q).Refines lt key σ := by
  obtain ⟨S, hw, hσ⟩ := h
  obtain ⟨hrep, hev⟩ := hkeeps (S i) (hw.represents i)
  refine ⟨Function.update S i (S i), hw.set hrep hev, fun l => ?_⟩
  rw [Function.update_eq_self]
  exact hσ l

theorem Restored.refines (hr : Restored w.mem m) (h : w.Refines lt key σ) :
    (⟨m, w.objs⟩ : World N).Refines lt key σ := by
  obtain ⟨S, hw, hσ⟩ := h
  exact ⟨S, ⟨fun i => (hw.represents i).frame (hr.evolves []) (by simp), hw.disjoint⟩, hσ⟩

variable [LawfulNodeLayout N V] {I : ObjectInterface N V O R} {pol : AllocPolicy}

theorem Reachable.refines (o : StrictWeakOrder lt) (hI : I.Sound lt key) (h : Reachable I lt key pol w) :
    ∃ σ, w.Refines lt key σ := by
  induction h with
  | init => exact ⟨_, World.refines_init⟩
  | @step w w' op r _ hc hstep ih =>
      obtain ⟨σ, hσ⟩ := ih
      obtain ⟨w₁, hstep₁, h₁⟩ := ObjectInterface.step_refines hI pol hσ op (hσ.length_eq ▸ hc)
      rw [hstep₁] at hstep
      obtain rfl : w₁ = w' := (Prod.mk.inj (Option.some.inj hstep)).1
      exact ⟨_, h₁⟩
  | @emplace w i c fails h' q' _ hc hrun ih =>
      obtain ⟨σ, S, hw, hσ⟩ := ih
      rcases c.exec_spec o fails pol (h := Heap.start w.mem) (hw.represents i) (hw.size_eq i ▸ hc) with
        ⟨h₁, q₁, hrun₁, hk⟩ | ⟨h₁, q₁, a, hrun₁, -⟩
      · rw [hrun₁] at hrun
        obtain ⟨rfl, rfl, -⟩ : h₁ = h' ∧ q₁ = q' ∧ True := by simpa using hrun
        exact ⟨σ, refines_set ⟨S, hw, hσ⟩ i fun T hT => hk.represents hT⟩
      · rw [hrun₁] at hrun
        simp at hrun
  | @insertRange w i vs fails h' q' _ hrun ih =>
      obtain ⟨σ, S, hw, hσ⟩ := ih
      obtain ⟨h₁, q₁, r, hrun₁, hthrown⟩ := insertRange_spec o fails pol vs (h := Heap.start w.mem) (hw.represents i)
      rw [hrun₁] at hrun
      obtain ⟨rfl, rfl, rfl⟩ : h₁ = h' ∧ q₁ = q' ∧ r = .thrown := by simpa using hrun
      obtain ⟨vs₁, v, vs₂, -, hb⟩ := hthrown rfl
      exact ⟨_, Becomes.refines hw hσ hb⟩
  | @copyConstruct w j fails h' _ hrun ih =>
      obtain ⟨σ, S, hw, hσ⟩ := ih
      rcases copyConstruct_cases fails pol (h := Heap.start w.mem) (hw.represents j) with
        ⟨h₁, hrun₁, hback⟩ | ⟨h₁, q₁, hrun₁, -⟩
      · rw [hrun₁] at hrun
        obtain rfl : h₁ = h' := by simpa using hrun
        exact ⟨σ, hback.restored.refines ⟨S, hw, hσ⟩⟩
      · rw [hrun₁] at hrun
        simp at hrun
  | @copyAssign w i j fails h' q' _ _ hrun ih =>
      obtain ⟨σ, S, hw, hσ⟩ := ih
      rcases copyAssign_cases fails pol (h := Heap.start w.mem) (hw.represents i) (hw.represents j) with
        ⟨h₁, hrun₁, hback⟩ | ⟨h₁, q₁, hrun₁, -⟩
      · rw [hrun₁] at hrun
        obtain ⟨rfl, rfl⟩ : h₁ = h' ∧ w.objs i = q' := by simpa using hrun
        refine ⟨σ, refines_set ⟨S, hw, hσ⟩ i fun T hT => ?_⟩
        exact ⟨hT.frame (hback.restored.evolves []) (by simp), hback.restored.evolves _⟩
      · rw [hrun₁] at hrun
        simp at hrun

theorem Reachable.throwSafe (o : StrictWeakOrder lt) (hI : I.Sound lt key) (h : Reachable I lt key pol w) :
    ThrowSafe lt key pol w := by
  obtain ⟨σ, S, hw, hσ⟩ := h.refines o hI
  refine ⟨fun fails i c hc => ?_, fun fails i vs => ?_, fun fails j => ?_, fun fails i j _ => ?_⟩
  · rcases c.exec_spec o fails pol (h := Heap.start w.mem) (hw.represents i) (hw.size_eq i ▸ hc) with
      ⟨h', q', hrun, hk⟩ | ⟨h', q', a, hrun, -⟩
    · exact ⟨h', q', .thrown, hrun, fun _ => hk⟩
    · exact ⟨h', q', .returned a, hrun, fun hr => (by cases hr)⟩
  · obtain ⟨h', q', r, hrun, hthrown⟩ := insertRange_spec o fails pol vs (h := Heap.start w.mem) (hw.represents i)
    exact ⟨S i, h', q', r, hw.represents i, hrun, hthrown⟩
  · rcases copyConstruct_cases fails pol (h := Heap.start w.mem) (hw.represents j) with
      ⟨h', hrun, hback⟩ | ⟨h', q', hrun, -⟩
    · exact ⟨h', .thrown, hrun, fun _ => hback.released⟩
    · exact ⟨h', .returned q', hrun, fun hr => (by cases hr)⟩
  · rcases copyAssign_cases fails pol (h := Heap.start w.mem) (hw.represents i) (hw.represents j) with
      ⟨h', hrun, hback⟩ | ⟨h', q', hrun, -⟩
    · exact ⟨h', w.objs i, .thrown, hrun, fun _ => ⟨rfl, hback.released⟩⟩
    · exact ⟨h', q', .returned (), hrun, fun hr => (by cases hr)⟩

end

section
variable {N N' V K M : Type} [NodeLayout N V] [LawfulNodeLayout N V] [NodeLayout N' (K × M)]
  [LawfulNodeLayout N' (K × M)] {lt : K → K → Bool} {key : V → K}

/-- Calls of `qtree` and `qmap` that throw are safe after any sequence of calls, of which any may have thrown. -/
theorem qtree_qmap_throwSafe (o : StrictWeakOrder lt) (pol : AllocPolicy) (dflt : M) :
    (∀ w : World N, Reachable (qtreeInterface N lt key pol) lt key pol w → ThrowSafe lt key pol w) ∧
      ∀ w : World N', Reachable (qmapInterface N' lt dflt pol) lt Prod.fst pol w → ThrowSafe lt Prod.fst pol w :=
  ⟨fun _ h => h.throwSafe o (qtreeInterface_sound o pol), fun _ h => h.throwSafe o (qmapInterface_sound o dflt pol)⟩

theorem qtree_qmap_throwSafe_nat :
    (∀ w, Reachable (qtreeInterface (Cell Nat) (fun a b => decide (a < b)) id .bump) (fun a b => decide (a < b)) id
        .bump w → ThrowSafe (fun a b : Nat => decide (a < b)) id .bump w) ∧
      ∀ w, Reachable (qmapInterface (Cell (Nat × Bool)) (fun a b => decide (a < b)) false .bump)
        (fun a b => decide (a < b)) Prod.fst .bump w →
        ThrowSafe (fun a b : Nat => decide (a < b)) Prod.fst .bump w :=
  qtree_qmap_throwSafe strictWeakOrder_nat .bump false

/-- A range insertion that throws at its second element keeps the first one, and an insertion into an object without
a header node may leave one. -/
theorem insertRange_keeps_first :
    (∃ h' q', insertRange (fun n => n == 3) .bump (fun a b : Nat => decide (a < b)) id
        (Heap.start (World.init : World (Cell Nat)).mem) Qtree.init [1, 2] = some (h', q', .thrown) ∧
      collect (World.init : World (Cell Nat)).mem Qtree.init = some [] ∧ collect h'.mem q' = some [1]) ∧
    ∃ h' q', (EmplaceCall.insert 1).exec (fun n => n == 1) .bump (fun a b : Nat => decide (a < b)) id
        (Heap.start (World.init : World (Cell Nat)).mem) Qtree.init = some (h', q', .thrown) ∧
      q'.header ≠ nullptr :=
  ⟨⟨_, _, rfl, rfl, by decide +kernel⟩, _, _, rfl, by decide⟩

end

end IdaSdk.QtreeDetail.Throwing
