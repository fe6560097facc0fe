import IdaSdk.QtreeContract

/-!
The calls of `insert_fixup` and `erase_fixup` in a reachable tree: both loops end, no rotation meets a nil pivot,
and `erase_fixup` never looks at a nil sibling.
-/

namespace IdaSdk.QtreeDetail
open RedBlack RedBlack.Ctx SortedList

section
variable {N V : Type*} [NodeLayout N V]

/-- The state in which `emplace_at` calls `insert_fixup` for a value below the node `parentNode`, and the new node. -/
def beforeInsertFixup (pol : AllocPolicy) (m : Mem N) (q : Qtree) (parentNode : Ptr) (d : Side) (v : V) : Mem N × Ptr :=
  let (newNode, m) := emplaceNode pol m q.header parentNode v
  (linkChild m q.header d parentNode newNode, newNode)

/-- The state in which `erase_node` frees `node`, the arguments it has for `erase_fixup`, and the colour that decides
about the call. -/
def beforeEraseFixup (m : Mem N) (q : Qtree) (node : Ptr) : Option (Mem N × Ptr × Ptr × Color) :=
  (spliceOut m q.header node).map fun (m, x, parentNode, original) =>
    (nodeDelete (destroyValue m node) node, x, parentNode, original)

/-- The fix-ups of a tree object that represents `T`. A run that is out of fuel or meets a nil pivot has no result. -/
structure FixupsSafe (pol : AllocPolicy) (m : Mem N) (q : Qtree) (T : Shape V) : Prop where
  /-- Wherever a node can be linked, `insert_fixup` ends. -/
  insert : ∀ (f : Frame (Item V)) (k : Path V) (v : V), T = plug (f :: k) .nil →
    ∃ m', insertFixup (beforeInsertFixup pol m q f.entry.addr f.side v).1 q.header
      (beforeInsertFixup pol m q f.entry.addr f.side v).2 = some m'
  /-- Whichever node is removed, `erase_fixup` ends and looks at no nil sibling. -/
  erase : ∀ (k : Path V) (c : Color) (l : Shape V) (x : Item V) (r : Shape V), T = plug k (.node c l x r) →
    ∃ m₁ y parentNode original, beforeEraseFixup m q x.addr = some (m₁, y, parentNode, original) ∧
      (original = .black → (∃ m', eraseFixup m₁ q.header y parentNode = some m') ∧
        ∀ b ∈ eraseFixupSiblings q.header (m₁.live.length + 1) m₁ y parentNode, b = false)

end

section
variable {N V K : Type*} [NodeLayout N V] [LawfulNodeLayout N V] {lt : K → K → Bool} {key : V → K} {m : Mem N}
  {q : Qtree}

theorem insertFixup_ends (pol : AllocPolicy) (v : V) {f : Frame (Item V)} {k : Path V}
    (h : RedBlackTree lt key m q (plug (f :: k) .nil)) :
    ∃ m', insertFixup (beforeInsertFixup pol m q f.entry.addr f.side v).1 q.header
      (beforeInsertFixup pol m q f.entry.addr f.side v).2 = some m' := by
  obtain ⟨a, m₁, m₂, hnew, hlink, -, -, hf, -, hlive, -, -⟩ := linkChild_emplaceNode_spec pol v h
  obtain ⟨n, hbal⟩ := h.balanced
  obtain ⟨cn, n, hnil, hctx⟩ := hbal.of_plug
  cases hnil
  have hcells : ∀ b ∈ q.header :: (before (f :: k) ++ (⟨a, v⟩ : Item V) :: after (f :: k)).map Item.addr,
      b ∈ m₂.live := by
    intro b hb
    rw [hlive]
    have hmem : b = a ∨ b ∈ q.header :: addrs (plug (f :: k) .nil) := by
      rw [addrs, toList_plug]
      simp only [List.map_append, List.map_cons, List.mem_cons, List.mem_append, ColorTree.toList_nil] at hb ⊢
      tauto
    exact hmem.elim (fun he => he ▸ List.mem_cons_self ..) fun hb => List.mem_cons_of_mem _ (h.live b hb)
  obtain ⟨m', -, hrun, -⟩ := insertFixup_spec hcells hf (.red .nil .nil) hctx
  refine ⟨m', ?_⟩
  simp only [beforeInsertFixup, hnew, hlink]
  exact hrun

theorem eraseFixup_ends {k : Path V} {c : Color} {l r : Shape V} {x : Item V}
    (h : RedBlackTree lt key m q (plug k (.node c l x r))) :
    ∃ m₁ y parentNode original, beforeEraseFixup m q x.addr = some (m₁, y, parentNode, original) ∧
      (original = .black → (∃ m', eraseFixup m₁ q.header y parentNode = some m') ∧
        ∀ b ∈ eraseFixupSiblings q.header (m₁.live.length + 1) m₁ y parentNode, b = false) := by
  obtain ⟨m₁, k₁, t₁, original, hrun, hf, hshort, -, hlive, -⟩ := spliceOut_delete_spec h
  have hroot : Focus m q.header (plug k (.node c l x r)).toList k (.node c l x r) := by
    simpa using h.focus.fromRoot
  obtain ⟨hmem, hx⟩ := mem_addrs_remove hroot
  have hcells : ∀ a ∈ q.header :: (before k ++ l.toList ++ r.toList ++ after k).map Item.addr,
      a ∈ (nodeDelete (destroyValue m₁ x.addr) x.addr).live := by
    intro a ha
    refine (hlive a).mpr ⟨h.live a ?_, ne_of_mem_of_not_mem ha hx⟩
    rcases List.mem_cons.mp ha with rfl | ha
    · exact List.mem_cons_self ..
    · exact List.mem_cons_of_mem _ ((hmem a).mpr (.inr ha))
  refine ⟨_, _, _, original, by rw [beforeEraseFixup, hrun, Option.map_some], ?_⟩
  rintro rfl
  obtain ⟨c', n', ht, hk⟩ := hshort
  obtain ⟨m', -, hfix, -⟩ := eraseFixup_spec hcells hf ht hk
  exact ⟨⟨m', hfix⟩, eraseFixup_siblings hcells hf ht hk⟩

theorem Represents.fixupsSafe (pol : AllocPolicy) {T : Shape V} (h : Represents lt key m q T) :
    FixupsSafe pol m q T := by
  rcases h with ⟨-, rfl⟩ | hrb
  · refine ⟨fun f k v hT => ?_, fun k c l x r hT => absurd hT.symm (plug_node_ne_nil k c l x r)⟩
    -- an object without a header node has no node to link below
    obtain ⟨d, c, e, s⟩ := f
    have hne : plug (⟨d, c, e, s⟩ :: k) .nil ≠ .nil := by
      cases d
      · exact plug_node_ne_nil k c .nil e s
      · exact plug_node_ne_nil k c s e .nil
    exact absurd hT.symm hne
  · exact ⟨fun f k v hT => insertFixup_ends pol v (hT ▸ hrb), fun k c l x r hT => eraseFixup_ends (hT ▸ hrb)⟩

end

namespace ObjectInterface
variable {N V K : Type} {O R : Type} [NodeLayout N V] [LawfulNodeLayout N V] {lt : K → K → Bool} {key : V → K}
  {I : ObjectInterface N V O R} {pol : AllocPolicy}

/-- Whatever the calls were, every object is a tree whose next call is safe, and every allowed call comes to its
end with all its fix-ups. -/
def FixupsStaySafe (I : ObjectInterface N V O R) (lt : K → K → Bool) (key : V → K) (pol : AllocPolicy) : Prop :=
  ∀ w : World N, I.Reachable pol w →
    (∀ i, ∃ T : Shape V, Represents lt key w.mem (w.objs i) T ∧ FixupsSafe pol w.mem (w.objs i) T) ∧
    ∀ op, I.InContract (fun i => (w.objs i).size) op → ∃ r, I.step pol w op = some r

theorem Sound.fixupsStaySafe (hI : I.Sound lt key) (pol : AllocPolicy) : I.FixupsStaySafe lt key pol := by
  intro w h
  obtain ⟨σ, hσ⟩ := h.refines hI
  refine ⟨fun i => ?_, fun op hc => ?_⟩
  · obtain ⟨S, hw, -⟩ := hσ
    exact ⟨S i, hw.represents i, (hw.represents i).fixupsSafe pol⟩
  · exact h.exists_step hI hc

end ObjectInterface

section
variable {N N' V K M : Type} [NodeLayout N V] [LawfulNodeLayout N V] [NodeLayout N' (K × M)]
  [LawfulNodeLayout N' (K × M)] {lt : K → K → Bool} {key : V → K}

/-- The fix-ups of `qtree` and `qmap` are safe after any sequence of calls. -/
theorem qtree_qmap_fixups (o : StrictWeakOrder lt) (pol : AllocPolicy) (dflt : M) :
    (qtreeInterface N lt key pol).FixupsStaySafe lt key pol ∧
      (qmapInterface N' lt dflt pol).FixupsStaySafe lt Prod.fst pol :=
  ⟨(qtreeInterface_sound o pol).fixupsStaySafe pol, (qmapInterface_sound o dflt pol).fixupsStaySafe pol⟩

theorem qtree_qmap_fixups_nat :
    (qtreeInterface (Cell Nat) (fun a b => decide (a < b)) id .bump).FixupsStaySafe
        (fun a b => decide (a < b)) id .bump ∧
      (qmapInterface (Cell (Nat × Bool)) (fun a b => decide (a < b)) false .bump).FixupsStaySafe
        (fun a b => decide (a < b)) Prod.fst .bump :=
  qtree_qmap_fixups strictWeakOrder_nat .bump false

end

end IdaSdk.QtreeDetail
