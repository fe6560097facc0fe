import IdaSdk.LibLifecycle
import IdaSdk.QtreeContract

/-!
Insertion into trees when allocations and constructions may throw. `fails` decides which attempts of a call do; the
log says what happens to the nodes. When nothing throws, a call does what it does in the model without exceptions.
-/

namespace IdaSdk.QtreeDetail.Throwing
open RedBlack SortedList Lifecycle

/-- How a call ends. -/
inductive CallResult (α : Type*) where
  | returned (a : α)
  | thrown

/-- The node memory, the number of allocations and constructions attempted so far, and what happened to the nodes. -/
structure Heap (N : Type*) where
  mem : Mem N
  attempts : Nat
  log : List (Event Ptr)

namespace Heap

variable {N : Type*}

def start (m : Mem N) : Heap N := ⟨m, 0, []⟩

/-- One more allocation or construction was attempted. -/
def attempt (h : Heap N) : Heap N := { h with attempts := h.attempts + 1 }

end Heap

section
variable {N V : Type*} [NodeLayout N V] (fails : Nat → Bool) (pol : AllocPolicy)

/-- `node_new`: the allocator may throw, the bookkeeping fields do not. -/
def nodeNew (h : Heap N) : Heap N × CallResult Ptr :=
  if fails h.attempts then
    (h.attempt, .thrown)
  else
    let (p, m) := QtreeDetail.nodeNew pol h.mem
    ({ h.attempt with mem := m, log := h.log ++ [.allocated p] }, .returned p)

/-- `node_delete`; the destructor of a node does not touch the value in its storage. -/
def nodeDelete (h : Heap N) (p : Ptr) : Heap N :=
  if p = nullptr then h else { h with mem := QtreeDetail.nodeDelete h.mem p, log := h.log ++ [.freed p] }

def destroyValue (h : Heap N) (p : Ptr) : Heap N :=
  if h.mem.isNil p then h
  else { h with mem := QtreeDetail.destroyValue h.mem p, log := h.log ++ [.destroyed p] }

/-- Placement-new of `v` in the storage of a node. -/
def constructValue (h : Heap N) (p : Ptr) (v : V) : Heap N × CallResult Unit :=
  if fails h.attempts then
    (h.attempt, .thrown)
  else
    ({ h.attempt with mem := h.mem.setValue p (some v), log := h.log ++ [.constructed p] }, .returned ())

/-- Local objects that a call constructs one after the other; they are gone when it ends. -/
def constructTemporaries : Nat → Heap N → Heap N × CallResult Unit
  | 0, h => (h, .returned ())
  | n + 1, h => if fails h.attempts then (h.attempt, .thrown) else constructTemporaries n h.attempt

/-- A builder that constructs `temporaries` local objects and then the value of the node. -/
def builder (temporaries : Nat) (h : Heap N) (p : Ptr) (v : V) : Heap N × CallResult Unit :=
  match constructTemporaries fails temporaries h with
  | (h, .thrown) => (h, .thrown)
  | (h, .returned _) => constructValue fails h p v

/-- What `emplace_at` does once the value is there. -/
def linkNode (m : Mem N) (q : Qtree) (parentNode : Ptr) (goLeft : Bool) (newNode : Ptr) : Option (Mem N) :=
  let m := m.setIsNil newNode false
  let m := m.setParent newNode parentNode
  let m := m.setLeft newNode q.header
  let m := m.setRight newNode q.header
  let m := m.setColor newNode .red
  if parentNode = q.header then
    some (linkRoot m q.header newNode)
  else
    let d := if goLeft then Side.left else Side.right
    insertFixup (linkChild m q.header d parentNode newNode) q.header newNode

def emplaceAt (temporaries : Nat) (h : Heap N) (q : Qtree) (parentNode : Ptr) (goLeft : Bool) (v : V) :
    Option (Heap N × Qtree × CallResult Ptr) :=
  match nodeNew fails pol h with
  | (h, .thrown) => some (h, q, .thrown)
  | (h, .returned newNode) =>
    match builder fails temporaries h newNode v with
    | (h, .thrown) => some (nodeDelete h newNode, q, .thrown)
    | (h, .returned _) =>
      (linkNode h.mem q parentNode goLeft newNode).map fun m =>
        ({ h with mem := m }, { q with nodeCount := q.nodeCount + 1 }, .returned newNode)

def allocateHeader (h : Heap N) : Heap N × CallResult Ptr :=
  match nodeNew fails pol h with
  | (h, .thrown) => (h, .thrown)
  | (h, .returned p) =>
    let m := h.mem.setParent p p
    let m := m.setLeft p p
    let m := m.setRight p p
    let m := m.setColor p .black
    ({ h with mem := m.setIsNil p true }, .returned p)

def ensureHeader (h : Heap N) (q : Qtree) : Heap N × Qtree × CallResult Unit :=
  if q.header = nullptr then
    match allocateHeader fails pol h with
    | (h, .thrown) => (h, q, .thrown)
    | (h, .returned p) => ({ h with mem := initHeader h.mem p }, { q with header := p }, .returned ())
  else
    (h, q, .returned ())

def emplaceIntoEmptyTree (temporaries : Nat) (h : Heap N) (q : Qtree) (v : V) :
    Option (Heap N × Qtree × CallResult (Ptr × Bool)) :=
  match ensureHeader fails pol h q with
  | (h, q, .thrown) => some (h, q, .thrown)
  | (h, q, .returned _) =>
    match emplaceAt fails pol temporaries h q q.header true v with
    | none => none
    | some (h, q, .thrown) => some (h, q, .thrown)
    | some (h, q, .returned a) => some (h, q, .returned (a, true))

def emplaceFound (temporaries : Nat) (h : Heap N) (q : Qtree) (v : V) (pos : Ptr × Ptr × Bool) :
    Option (Heap N × Qtree × CallResult (Ptr × Bool)) :=
  if pos.1 ≠ nullptr then
    some (h, q, .returned (pos.1, false))
  else
    match emplaceAt fails pol temporaries h q pos.2.1 pos.2.2 v with
    | none => none
    | some (h, q, .thrown) => some (h, q, .thrown)
    | some (h, q, .returned a) => some (h, q, .returned (a, true))

variable {K : Type*} (lt : K → K → Bool) (key : V → K)

def lazyEmplaceImpl (temporaries : Nat) (h : Heap N) (q : Qtree) (k : K) (v : V) :
    Option (Heap N × Qtree × CallResult (Ptr × Bool)) :=
  if q.header = nullptr ∨ q.nodeCount = 0 then
    emplaceIntoEmptyTree fails pol temporaries h q v
  else
    match findInsertPosition lt key h.mem q k with
    | none => none
    | some pos => emplaceFound fails pol temporaries h q v pos

def lazyEmplaceWithHint (temporaries : Nat) (h : Heap N) (q : Qtree) (k : K) (hint : Ptr) (v : V) :
    Option (Heap N × Qtree × CallResult (Ptr × Bool)) :=
  if q.header = nullptr ∨ q.nodeCount = 0 then
    emplaceIntoEmptyTree fails pol temporaries h q v
  else if hint = nullptr then
    lazyEmplaceImpl fails pol lt key temporaries h q k v
  else
    match tryHintInsert lt key h.mem q k hint with
    | none => none
    | some none => lazyEmplaceImpl fails pol lt key temporaries h q k v
    | some (some pos) => emplaceFound fails pol temporaries h q v pos

end

/-- A call that inserts one element: the element, the temporaries that are constructed before the search and by the
builder, and the hint if the call has one. -/
structure EmplaceCall (V : Type) where
  value : V
  before : Nat
  within : Nat
  hint : Option (Option Nat)

namespace EmplaceCall

variable {V K M : Type}

def insert (value : V) : EmplaceCall V := ⟨value, 0, 0, none⟩

def insertHint (hint : Option Nat) (value : V) : EmplaceCall V := ⟨value, 0, 0, some hint⟩

/-- The temporary is the value that the arguments construct. -/
def emplace (tmp : V) : EmplaceCall V := ⟨tmp, 1, 0, none⟩

def emplaceHint (hint : Option Nat) (tmp : V) : EmplaceCall V := ⟨tmp, 1, 0, some hint⟩

/-- The builder constructs the mapped value first. -/
def tryEmplace (k : K) (mapped : M) : EmplaceCall (K × M) := ⟨(k, mapped), 0, 1, none⟩

/-- `try_emplace` with a key that the comparator takes as it is; the builder converts it. -/
def tryEmplaceTransparent (k : K) (mapped : M) : EmplaceCall (K × M) := ⟨(k, mapped), 0, 2, none⟩

/-- `try_emplace` with a key that is converted before the search. -/
def tryEmplaceConverted (k : K) (mapped : M) : EmplaceCall (K × M) := ⟨(k, mapped), 1, 1, none⟩

def index (dflt : M) (k : K) : EmplaceCall (K × M) := tryEmplace k dflt

def contract (c : EmplaceCall V) (size : Nat) : Prop := ∀ hint ∈ c.hint, ∀ pos ∈ hint, pos ≤ size

section
variable {N : Type} [NodeLayout N V] (fails : Nat → Bool) (pol : AllocPolicy) (lt : K → K → Bool) (key : V → K)

def exec (c : EmplaceCall V) (h : Heap N) (q : Qtree) : Option (Heap N × Qtree × CallResult (Ptr × Bool)) :=
  match constructTemporaries fails c.before h with
  | (h, .thrown) => some (h, q, .thrown)
  | (h, .returned _) =>
    match c.hint with
    | none => lazyEmplaceImpl fails pol lt key c.within h q (key c.value) c.value
    | some hint =>
      match hintAt h.mem q hint with
      | none => none
      | some it => lazyEmplaceWithHint fails pol lt key c.within h q (key c.value) it c.value

end

end EmplaceCall

/-- `insert(InputIt first, InputIt last)`. -/
def insertRange {N V K : Type} [NodeLayout N V] (fails : Nat → Bool) (pol : AllocPolicy) (lt : K → K → Bool) (key : V → K)
    (h : Heap N) (q : Qtree) : List V → Option (Heap N × Qtree × CallResult Unit)
  | [] => some (h, q, .returned ())
  | v :: vs =>
    match (EmplaceCall.insert v).exec fails pol lt key h q with
    | none => none
    | some (h, q, .thrown) => some (h, q, .thrown)
    | some (h, q, .returned _) => insertRange fails pol lt key h q vs

/-! ### What is left after a throw -/

/-- The same cells are allocated, with the same contents. -/
structure Restored {N V : Type*} [NodeLayout N V] (m m' : Mem N) : Prop where
  live : ∀ a, a ∈ m'.live ↔ a ∈ m.live
  view : ∀ a ∈ m.live, m'.view a = m.view a

/-- The tree is as before. An object that had no header node may have been given one, which is empty. -/
inductive KeepsTree {N V : Type*} [NodeLayout N V] (m : Mem N) (q : Qtree) (m' : Mem N) : Qtree → Prop
  | unchanged : Restored m m' → KeepsTree m q m' q
  | header {p : Ptr} : q.header = nullptr → p ≠ nullptr → p ∉ m.live → (∀ a, a ∈ m'.live ↔ a = p ∨ a ∈ m.live) →
      (∀ a ∈ m.live, m'.view a = m.view a) → (m'.view p).parent = p → (m'.view p).isNil = true →
      (∀ d, m'.child d p = p) → m'.color p = .black → KeepsTree m q m' { q with header := p }

/-- A call throws and keeps the tree, or it ends as the same call does in the model without exceptions. -/
inductive Agrees {N V : Type*} [NodeLayout N V] {α : Type*} (m : Mem N) (q : Qtree) :
    Option (Heap N × Qtree × CallResult α) → Option (Mem N × Qtree × α) → Prop
  | thrown {h' : Heap N} {q' : Qtree} {r : Option (Mem N × Qtree × α)} :
      KeepsTree m q h'.mem q' → Agrees m q (some (h', q', .thrown)) r
  | returned {h' : Heap N} {q' : Qtree} {a : α} : Agrees m q (some (h', q', .returned a)) (some (h'.mem, q', a))
  | none : Agrees m q none none

section
variable {N V : Type*} [NodeLayout N V] {m m' m'' : Mem N} {q q' : Qtree}

theorem Restored.refl (m : Mem N) : Restored m m := ⟨fun _ => Iff.rfl, fun _ _ => rfl⟩

theorem Restored.evolves (h : Restored m m') (F : List Ptr) : Evolves m m' F F where
  keep a ha _ := ⟨(h.live a).mpr ha, h.view a ha⟩
  owned _ ha := .inl ha

variable {K : Type*} {lt : K → K → Bool} {key : V → K} {T : Shape V}

theorem KeepsTree.represents (hk : KeepsTree m q m' q') (h : Represents lt key m q T) :
    Represents lt key m' q' T ∧ Evolves m m' (footprint q T) (footprint q' T) := by
  cases hk with
  | unchanged hr => exact ⟨h.frame (hr.evolves []) (by simp), hr.evolves _⟩
  | @header p hnull hne hnew hlive hview hparent hnil hchild hblack =>
      rcases h with ⟨rfl, rfl⟩ | hrb
      · have hp : p ∈ m'.live := (hlive p).mpr (.inl rfl)
        have hrb : RedBlackTree lt key m' ⟨p, 0⟩ .nil := by
          refine ⟨⟨trivial, hparent, rfl, by simp, hnil⟩, fun d => ?_, hblack, rfl, ⟨_, .nil⟩, List.Pairwise.nil,
            by simpa using hne, by simpa using hp⟩
          rw [hchild]
          cases d <;> rfl
        refine ⟨.inr hrb, fun a ha _ => ⟨(hlive a).mpr (.inr ha), hview a ha⟩, fun a ha => .inr ?_⟩
        have hfoot : footprint (⟨p, 0⟩ : Qtree) (.nil : Shape V) = [p] := hrb.footprint_eq
        have hap : a = p := List.mem_singleton.mp (hfoot ▸ ha)
        exact hap ▸ hnew
      · exact absurd hnull (hrb.nonnull _ (by simp))

end

section
variable {N V : Type*} [NodeLayout N V] (fails : Nat → Bool) (pol : AllocPolicy)

theorem nodeNew_cases (h : Heap N) : nodeNew fails pol h = (h.attempt, .thrown) ∨
    nodeNew fails pol h = (⟨(QtreeDetail.nodeNew pol h.mem).2, h.attempts + 1,
      h.log ++ [.allocated (QtreeDetail.nodeNew pol h.mem).1]⟩, .returned (QtreeDetail.nodeNew pol h.mem).1) := by
  unfold nodeNew
  by_cases hf : fails h.attempts
  · exact .inl (if_pos hf)
  · exact .inr (if_neg hf)

theorem constructTemporaries_cases (k : Nat) (h : Heap N) :
    ∃ n, constructTemporaries fails k h = ({ h with attempts := n }, .thrown) ∨
      constructTemporaries fails k h = ({ h with attempts := n }, .returned ()) := by
  induction k generalizing h with
  | zero => exact ⟨h.attempts, .inr rfl⟩
  | succ k ih =>
      rw [constructTemporaries]
      by_cases hf : fails h.attempts
      · exact ⟨h.attempts + 1, .inl (if_pos hf)⟩
      · rw [if_neg hf]
        exact ih h.attempt

theorem constructValue_cases (h : Heap N) (p : Ptr) (v : V) : constructValue fails h p v = (h.attempt, .thrown) ∨
    constructValue fails h p v =
      (⟨h.mem.setValue p (some v), h.attempts + 1, h.log ++ [.constructed p]⟩, .returned ()) := by
  unfold constructValue
  by_cases hf : fails h.attempts
  · exact .inl (if_pos hf)
  · exact .inr (if_neg hf)

theorem builder_cases (k : Nat) (h : Heap N) (p : Ptr) (v : V) :
    ∃ n, builder fails k h p v = ({ h with attempts := n }, .thrown) ∨
      builder fails k h p v = (⟨h.mem.setValue p (some v), n, h.log ++ [.constructed p]⟩, .returned ()) := by
  obtain ⟨n, hthrown | hreturned⟩ := constructTemporaries_cases fails k h
  · exact ⟨n, .inl (by simp only [builder, hthrown])⟩
  · simp only [builder, hreturned]
    exact ⟨n + 1, constructValue_cases fails _ p v⟩

end

section
variable {N V : Type*} [NodeLayout N V] [LawfulNodeLayout N V] (fails : Nat → Bool) (pol : AllocPolicy)

theorem restored_nodeDelete (m : Mem N) :
    Restored m (QtreeDetail.nodeDelete (QtreeDetail.nodeNew pol m).2 (QtreeDetail.nodeNew pol m).1) := by
  obtain ⟨hne, hnew, hlive, hoff⟩ := nodeNew_spec pol m
  refine ⟨fun a => ?_, fun a ha => ?_⟩
  · rw [mem_live_nodeDelete _ hne, hlive, List.mem_cons]
    refine ⟨fun ⟨h, hn⟩ => h.resolve_left hn, fun ha => ⟨.inr ha, fun he => hnew (he ▸ ha)⟩⟩
  · rw [view_nodeDelete, hoff a fun he => hnew (he ▸ ha)]

omit [LawfulNodeLayout N V] in
theorem emplaceAt_eq (m : Mem N) (q : Qtree) (parentNode : Ptr) (goLeft : Bool) (v : V) :
    QtreeDetail.emplaceAt pol m q parentNode goLeft v =
      (linkNode ((QtreeDetail.nodeNew pol m).2.setValue (QtreeDetail.nodeNew pol m).1 (some v)) q parentNode goLeft
        (QtreeDetail.nodeNew pol m).1).map fun m' =>
          (m', { q with nodeCount := q.nodeCount + 1 }, (QtreeDetail.nodeNew pol m).1) := by
  by_cases hp : parentNode = q.header
  · simp only [QtreeDetail.emplaceAt, emplaceNode, linkNode, if_pos hp, Option.map_some]
  · simp only [QtreeDetail.emplaceAt, emplaceNode, linkNode, if_neg hp]

theorem emplaceAt_cases (k : Nat) (h : Heap N) (q : Qtree) (parentNode : Ptr) (goLeft : Bool) (v : V) :
    (∃ h', emplaceAt fails pol k h q parentNode goLeft v = some (h', q, .thrown) ∧ Restored h.mem h'.mem) ∨
      ∃ n L, emplaceAt fails pol k h q parentNode goLeft v =
        (QtreeDetail.emplaceAt pol h.mem q parentNode goLeft v).map fun (m, q, a) => (⟨m, n, L⟩, q, .returned a) := by
  rw [emplaceAt_eq]
  have hne := (nodeNew_spec pol h.mem).1
  have hfreed := restored_nodeDelete pol h.mem
  rcases nodeNew_cases fails pol h with hnew | hnew
  · exact .inl ⟨h.attempt, by simp only [emplaceAt, hnew], Restored.refl _⟩
  generalize QtreeDetail.nodeNew pol h.mem = new at *
  obtain ⟨n, hb | hb⟩ := builder_cases fails k ⟨new.2, h.attempts + 1, h.log ++ [Event.allocated new.1]⟩ new.1 v
  · refine .inl ⟨nodeDelete ⟨new.2, n, h.log ++ [Event.allocated new.1]⟩ new.1, by simp only [emplaceAt, hnew, hb], ?_⟩
    rw [nodeDelete, if_neg hne]
    exact hfreed
  · refine .inr ⟨n, h.log ++ [Event.allocated new.1] ++ [Event.constructed new.1], ?_⟩
    simp only [emplaceAt, hnew, hb, Option.map_map]
    rfl

omit [LawfulNodeLayout N V] in
theorem allocateHeader_cases (h : Heap N) : allocateHeader fails pol h = (h.attempt, .thrown) ∨
    allocateHeader fails pol h = (⟨(QtreeDetail.allocateHeader pol h.mem).2, h.attempts + 1,
      h.log ++ [.allocated (QtreeDetail.allocateHeader pol h.mem).1]⟩,
      .returned (QtreeDetail.allocateHeader pol h.mem).1) := by
  rcases nodeNew_cases fails pol h with hnew | hnew
  · exact .inl (by simp only [allocateHeader, hnew])
  · exact .inr (by simp only [allocateHeader, hnew]; rfl)

theorem ensureHeader_cases (h : Heap N) (q : Qtree) :
    ensureHeader fails pol h q = (h.attempt, q, .thrown) ∨
      ∃ h', ensureHeader fails pol h q = (h', (QtreeDetail.ensureHeader pol h.mem q).2, .returned ()) ∧
        h'.mem = (QtreeDetail.ensureHeader pol h.mem q).1 ∧
        ∀ m', Restored h'.mem m' → KeepsTree h.mem q m' (QtreeDetail.ensureHeader pol h.mem q).2 := by
  by_cases hnull : q.header = nullptr
  · rcases allocateHeader_cases fails pol h with hnew | hnew
    · exact .inl (by simp only [ensureHeader, if_pos hnull, hnew])
    obtain ⟨hne, hfresh, hlive, hoff⟩ := view_allocateHeader pol h.mem
    simp only [ensureHeader, QtreeDetail.ensureHeader, if_pos hnull, hnew]
    generalize QtreeDetail.allocateHeader pol h.mem = new at *
    obtain ⟨hparent, hnil, hchild, hblack, hlive', hoff'⟩ := view_initHeader new.2 new.1
    refine .inr ⟨_, rfl, rfl, fun m' hr => ?_⟩
    have hmem : new.1 ∈ (initHeader new.2 new.1).live := by simp [hlive', hlive]
    have hview := hr.view new.1 hmem
    refine .header hnull hne hfresh (fun a => ?_) (fun a ha => ?_) (by rw [hview, hparent]) (by rw [hview, hnil])
      (fun d => by rw [Mem.child_eq, hview, ← Mem.child_eq, hchild]) (by rw [Mem.color_eq, hview, ← Mem.color_eq, hblack])
    · rw [hr.live, hlive', hlive, List.mem_cons]
    · have hne' : a ≠ new.1 := fun he => hfresh (he ▸ ha)
      rw [hr.view a (by simp [hlive', hlive, ha]), hoff' a hne', hoff a hne']
  · refine .inr ⟨h, ?_, ?_, fun m' hr => ?_⟩
    · simp only [ensureHeader, QtreeDetail.ensureHeader, if_neg hnull]
    · simp only [QtreeDetail.ensureHeader, if_neg hnull]
    · simp only [QtreeDetail.ensureHeader, if_neg hnull]
      exact .unchanged hr

theorem emplaceIntoEmptyTree_agrees (k : Nat) (h : Heap N) (q : Qtree) (v : V) :
    Agrees h.mem q (emplaceIntoEmptyTree fails pol k h q v) (QtreeDetail.emplaceIntoEmptyTree pol h.mem q v) := by
  rcases ensureHeader_cases fails pol h q with hthrown | ⟨h₁, hrun, hmem, hkeeps⟩
  · simp only [emplaceIntoEmptyTree, hthrown]
    exact .thrown (.unchanged (Restored.refl _))
  have hvia : QtreeDetail.emplaceIntoEmptyTree pol h.mem q v =
      (QtreeDetail.emplaceAt pol h₁.mem (QtreeDetail.ensureHeader pol h.mem q).2
        (QtreeDetail.ensureHeader pol h.mem q).2.header true v).map fun (m, q, a) => (m, q, a, true) := by
    rw [hmem]
    rfl
  rw [hvia]
  generalize (QtreeDetail.ensureHeader pol h.mem q).2 = q₁ at *
  rcases emplaceAt_cases fails pol k h₁ q₁ q₁.header true v with ⟨h', hat, hr⟩ | ⟨n, L, hat⟩
  · simp only [emplaceIntoEmptyTree, hrun, hat]
    exact .thrown (hkeeps _ hr)
  · simp only [emplaceIntoEmptyTree, hrun, hat]
    cases QtreeDetail.emplaceAt pol h₁.mem q₁ q₁.header true v with
    | none => exact .none
    | some r => exact .returned

theorem emplaceFound_agrees (k : Nat) (h : Heap N) (q : Qtree) (v : V) (pos : Ptr × Ptr × Bool) :
    Agrees h.mem q (emplaceFound fails pol k h q v pos) (QtreeDetail.emplaceFound pol h.mem q v pos) := by
  by_cases hpos : pos.1 ≠ nullptr
  · simp only [emplaceFound, QtreeDetail.emplaceFound, if_pos hpos]
    exact .returned
  simp only [emplaceFound, QtreeDetail.emplaceFound, if_neg hpos]
  rcases emplaceAt_cases fails pol k h q pos.2.1 pos.2.2 v with ⟨h', hat, hr⟩ | ⟨n, L, hat⟩
  · simp only [hat]
    exact .thrown (.unchanged hr)
  · simp only [hat]
    cases QtreeDetail.emplaceAt pol h.mem q pos.2.1 pos.2.2 v with
    | none => exact .none
    | some r => exact .returned

variable {K : Type*} (lt : K → K → Bool) (key : V → K)

theorem lazyEmplaceImpl_agrees (n : Nat) (h : Heap N) (q : Qtree) (k : K) (v : V) :
    Agrees h.mem q (lazyEmplaceImpl fails pol lt key n h q k v)
      (QtreeDetail.lazyEmplaceImpl lt key pol h.mem q k v) := by
  by_cases hempty : q.header = nullptr ∨ q.nodeCount = 0
  · simp only [lazyEmplaceImpl, QtreeDetail.lazyEmplaceImpl, if_pos hempty]
    exact emplaceIntoEmptyTree_agrees fails pol n h q v
  · simp only [lazyEmplaceImpl, QtreeDetail.lazyEmplaceImpl, if_neg hempty]
    cases findInsertPosition lt key h.mem q k with
    | none => exact .none
    | some pos => exact emplaceFound_agrees fails pol n h q v pos

theorem lazyEmplaceWithHint_agrees (n : Nat) (h : Heap N) (q : Qtree) (k : K) (hint : Ptr) (v : V) :
    Agrees h.mem q (lazyEmplaceWithHint fails pol lt key n h q k hint v)
      (QtreeDetail.lazyEmplaceWithHint lt key pol h.mem q k hint v) := by
  by_cases hempty : q.header = nullptr ∨ q.nodeCount = 0
  · simp only [lazyEmplaceWithHint, QtreeDetail.lazyEmplaceWithHint, if_pos hempty]
    exact emplaceIntoEmptyTree_agrees fails pol n h q v
  simp only [lazyEmplaceWithHint, QtreeDetail.lazyEmplaceWithHint, if_neg hempty]
  by_cases hnull : hint = nullptr
  · simp only [if_pos hnull]
    exact lazyEmplaceImpl_agrees fails pol lt key n h q k v
  simp only [if_neg hnull]
  cases tryHintInsert lt key h.mem q k hint with
  | none => exact .none
  | some found =>
      cases found with
      | none => exact lazyEmplaceImpl_agrees fails pol lt key n h q k v
      | some pos => exact emplaceFound_agrees fails pol n h q v pos

end

section
variable {N V K : Type} [NodeLayout N V] [LawfulNodeLayout N V] {lt : K → K → Bool} {key : V → K} {q : Qtree}
  {T : Shape V}

omit [LawfulNodeLayout N V] in
theorem Agrees.contents (o : StrictWeakOrder lt) (v : V) {m : Mem N}
    {run : Option (Heap N × Qtree × CallResult (Ptr × Bool))} {res : Option (Mem N × Qtree × Ptr × Bool)}
    (ha : Agrees m q run res) (h : Represents lt key m q T) (hout : EmplaceOutcome lt key m q T (key v) v res) :
    (∃ h' q', run = some (h', q', .thrown) ∧ KeepsTree m q h'.mem q') ∨
      ∃ h' q' a, run = some (h', q', .returned a) ∧
        Becomes lt key m q T h'.mem q' (insertIfAbsent lt key v (T.toList.map Item.val)) := by
  obtain ⟨m₁, q₁, a₁, hres, hbecomes, -⟩ := hout.contents o v h
  cases ha with
  | @thrown h' q' _ hk => exact .inl ⟨h', q', rfl, hk⟩
  | @returned h' q' a =>
      simp only [Option.some.injEq, Prod.mk.injEq] at hres
      obtain ⟨rfl, rfl, -⟩ := hres
      exact .inr ⟨h', q', a, rfl, hbecomes⟩
  | none => cases hres

theorem EmplaceCall.exec_spec (o : StrictWeakOrder lt) (fails : Nat → Bool) (pol : AllocPolicy) (c : EmplaceCall V)
    {h : Heap N} (hrep : Represents lt key h.mem q T) (hc : c.contract T.size) :
    (∃ h' q', c.exec fails pol lt key h q = some (h', q', .thrown) ∧ KeepsTree h.mem q h'.mem q') ∨
      ∃ h' q' a, c.exec fails pol lt key h q = some (h', q', .returned a) ∧
        Becomes lt key h.mem q T h'.mem q' (insertIfAbsent lt key c.value (T.toList.map Item.val)) := by
  obtain ⟨n, hpre | hpre⟩ := constructTemporaries_cases fails c.before h
  · exact .inl ⟨{ h with attempts := n }, q, by simp only [EmplaceCall.exec, hpre], .unchanged (Restored.refl _)⟩
  cases hhint : c.hint with
  | none =>
      simp only [EmplaceCall.exec, hpre, hhint]
      have hagrees := lazyEmplaceImpl_agrees fails pol lt key c.within { h with attempts := n } q (key c.value) c.value
      exact hagrees.contents o c.value hrep (lazyEmplaceImpl_spec o pol hrep)
  | some hint =>
      have hpos : ∀ pos ∈ hint, pos ≤ T.toList.length := by
        rw [ColorTree.length_toList]
        exact hc hint hhint
      obtain ⟨it, hit, hok⟩ := hintAt_spec hrep hpos
      simp only [EmplaceCall.exec, hpre, hhint, hit]
      have hagrees := lazyEmplaceWithHint_agrees fails pol lt key c.within { h with attempts := n } q (key c.value) it
        c.value
      exact hagrees.contents o c.value hrep (lazyEmplaceWithHint_spec o pol hrep hok)

theorem insertRange_spec (o : StrictWeakOrder lt) (fails : Nat → Bool) (pol : AllocPolicy) (vs : List V) {h : Heap N}
    (hrep : Represents lt key h.mem q T) :
    ∃ h' q' r, insertRange fails pol lt key h q vs = some (h', q', r) ∧
      (r = .thrown → ∃ vs₁ v vs₂, vs = vs₁ ++ v :: vs₂ ∧ Becomes lt key h.mem q T h'.mem q'
        (vs₁.foldl (fun L v => insertIfAbsent lt key v L) (T.toList.map Item.val))) := by
  induction vs generalizing h q T with
  | nil => exact ⟨h, q, .returned (), rfl, fun hr => (by cases hr)⟩
  | cons v vs ih =>
      have hcontract : (EmplaceCall.insert v).contract T.size := fun hint hh => (by cases hh)
      rcases EmplaceCall.exec_spec o fails pol (.insert v) hrep hcontract with
        ⟨h₁, q₁, hrun, hk⟩ | ⟨h₁, q₁, a, hrun, T₁, hrep₁, hlist, hev⟩
      · obtain ⟨hrep₁, hev⟩ := hk.represents hrep
        exact ⟨h₁, q₁, .thrown, by simp only [insertRange, hrun], fun _ => ⟨[], v, vs, rfl, T, hrep₁, rfl, hev⟩⟩
      obtain ⟨h', q', r, hrun', hthrown⟩ := ih hrep₁
      refine ⟨h', q', r, by simp only [insertRange, hrun, hrun'], fun hr => ?_⟩
      obtain ⟨vs₁, w, vs₂, rfl, T', hrep', hlist', hev'⟩ := hthrown hr
      refine ⟨v :: vs₁, w, vs₂, rfl, T', hrep', ?_, hev.trans hev'⟩
      rw [hlist', hlist, List.foldl_cons]
      rfl

end

end IdaSdk.QtreeDetail.Throwing
