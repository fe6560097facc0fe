import IdaSdk.LibSortedList
import IdaSdk.QtreeShape

/-!
The representation invariant of a whole tree object. A `qtree` is a header pointer and a count; the
header node caches the root, the first and the last node. `Evolves` is the frame condition of an
operation: it may change the cells it owns and cells it allocates, and nothing else.
-/

namespace IdaSdk.QtreeDetail
open RedBlack SortedList
open RedBlack.ColorTree (branch)

/-- The members of a `qtree` object. -/
structure Qtree where
  header : Ptr
  nodeCount : Nat
deriving DecidableEq

namespace Qtree

def init : Qtree := ⟨nullptr, 0⟩

def empty (q : Qtree) : Bool := q.nodeCount == 0

def size (q : Qtree) : Nat := q.nodeCount

end Qtree

variable {N V K : Type*}

abbrev itemKey (key : V → K) (x : Item V) : K := key x.val

/-- The iterator to an item; `end()` is the header. -/
def posPtr (hdr : Ptr) (x : Option (Item V)) : Ptr := (x.map Item.addr).getD hdr

variable (hdr : Ptr)

@[simp] theorem posPtr_none : posPtr hdr (none : Option (Item V)) = hdr := rfl
@[simp] theorem posPtr_some (x : Item V) : posPtr hdr (some x) = x.addr := rfl

variable (d : Side)

def endItem (L : List (Item V)) : Option (Item V) :=
  match d with
  | .left => L.head?
  | .right => L.getLast?

/-- The address of the first item, seen from side `d`. -/
def endPtr (hdr : Ptr) (d : Side) (L : List (Item V)) : Ptr :=
  match d with
  | .left => (L.head?.map Item.addr).getD hdr
  | .right => (L.getLast?.map Item.addr).getD hdr

theorem endPtr_eq (L : List (Item V)) : endPtr hdr d L = posPtr hdr (endItem d L) := by
  cases d <;> rfl

theorem mem_of_endItem {d : Side} {L : List (Item V)} {x : Item V} (h : endItem d L = some x) : x ∈ L := by
  cases d with
  | left => exact List.mem_of_head? h
  | right => exact List.mem_of_getLast? h

theorem endPtr_append_left (A B : List (Item V)) (p : Item V) :
    endPtr hdr .left (A ++ p :: B) = endPtr p.addr .left A := by
  cases A <;> simp [endPtr]

theorem endPtr_append_right (A B : List (Item V)) (p : Item V) :
    endPtr hdr .right (A ++ p :: B) = endPtr p.addr .right B := by
  rw [endPtr, List.getLast?_append, List.getLast?_cons, Option.some_or, endPtr]
  cases B.getLast? <;> rfl

theorem endPtr_mem_or (L : List (Item V)) :
    endPtr hdr d L ∈ L.map Item.addr ∨ L = [] := by
  cases d with
  | left => cases L <;> simp [endPtr]
  | right =>
      cases L with
      | nil => exact .inr rfl
      | cons x L =>
          refine .inl ?_
          rw [endPtr, List.getLast?_eq_some_getLast (by simp)]
          exact List.mem_map_of_mem (List.getLast_mem _)

theorem endPtr_cons (x : Item V) (L : List (Item V)) :
    endPtr hdr d (x :: L) = if d = .left then x.addr else endPtr x.addr .right L := by
  cases d with
  | left => simp [endPtr]
  | right => exact endPtr_append_right hdr [] L x

theorem endPtr_insert {hdr : Ptr} {f : Frame (Item V)} {k : Path V} (x : Item V)
    (hnd : ((Ctx.before (f :: k) ++ Ctx.after (f :: k)).map Item.addr).Nodup) :
    endPtr hdr f.side (Ctx.before (f :: k) ++ x :: Ctx.after (f :: k)) =
        (if f.entry.addr = endPtr hdr f.side (Ctx.before (f :: k) ++ Ctx.after (f :: k)) then x.addr
          else endPtr hdr f.side (Ctx.before (f :: k) ++ Ctx.after (f :: k))) ∧
      endPtr hdr f.side.flip (Ctx.before (f :: k) ++ x :: Ctx.after (f :: k)) =
        endPtr hdr f.side.flip (Ctx.before (f :: k) ++ Ctx.after (f :: k)) := by
  obtain ⟨d, c, p, s⟩ := f
  cases d with
  | left =>
      simp only [Ctx.before_cons_left, Ctx.after_cons_left, Side.flip_left, List.cons_append] at hnd ⊢
      refine ⟨?_, ?_⟩
      · simp only [endPtr_append_left]
        rcases endPtr_mem_or p.addr .left (Ctx.before k) with hmem | hnil
        · have hne : p.addr ≠ endPtr p.addr .left (Ctx.before k) := by
            intro h
            rw [← h] at hmem
            simp only [List.map_append, List.map_cons, List.nodup_append, List.mem_cons] at hnd
            exact hnd.2.2 _ hmem _ (.inl rfl) rfl
          rw [if_neg hne]
          cases hk : Ctx.before k with
          | nil => simp [hk] at hmem
          | cons b B => simp [endPtr]
        · simp [hnil, endPtr]
      · simp only [endPtr_append_right, endPtr_cons, reduceCtorEq, if_false]
  | right =>
      simp only [Ctx.before_cons_right, Ctx.after_cons_right, Side.flip_right, List.append_assoc,
        List.cons_append, List.nil_append] at hnd ⊢
      rw [← List.append_assoc, ← List.append_assoc] at *
      refine ⟨?_, ?_⟩
      · simp only [endPtr_append_right, endPtr_cons, reduceCtorEq, if_false]
        rcases endPtr_mem_or p.addr .right (Ctx.after k) with hmem | hnil
        · have hne : p.addr ≠ endPtr p.addr .right (Ctx.after k) := by
            intro h
            rw [← h] at hmem
            simp only [List.map_append, List.map_cons, List.nodup_append, List.nodup_cons] at hnd
            exact hnd.2.1.1 hmem
          rw [if_neg hne]
          cases hk : Ctx.after k with
          | nil => simp [hk] at hmem
          | cons b B => simp only [endPtr, List.getLast?_cons, Option.map_some, Option.getD_some]
        · simp [hnil, endPtr]
      · simp only [endPtr_append_left]

def footprint (q : Qtree) (T : Shape V) : List Ptr :=
  if q.header = nullptr then [] else q.header :: addrs T

/-- The red-black representation invariant of a tree object with a header node. -/
structure RedBlackTree [NodeLayout N V] (lt : K → K → Bool) (key : V → K) (m : Mem N) (q : Qtree)
    (T : Shape V) : Prop where
  focus : Focus m q.header T.toList [] T
  cache : ∀ d, m.child d q.header = endPtr q.header d T.toList
  headerBlack : m.color q.header = .black
  count : q.nodeCount = T.size
  balanced : ∃ n, Bal T .black n
  sorted : SortedBy lt key (T.toList.map Item.val)
  nonnull : ∀ a ∈ q.header :: addrs T, a ≠ nullptr
  live : ∀ a ∈ q.header :: addrs T, a ∈ m.live

/-- A tree object represents `T`; without a header node it represents the empty tree. -/
def Represents [NodeLayout N V] (lt : K → K → Bool) (key : V → K) (m : Mem N) (q : Qtree)
    (T : Shape V) : Prop :=
  (q = Qtree.init ∧ T = .nil) ∨ RedBlackTree lt key m q T

/-- An operation that owns the cells `F` leaves the cells `F'` and touches nothing else that is
allocated. -/
structure Evolves [NodeLayout N V] (m m' : Mem N) (F F' : List Ptr) : Prop where
  keep : ∀ a ∈ m.live, a ∉ F → a ∈ m'.live ∧ m'.view a = m.view a
  owned : ∀ a ∈ F', a ∈ F ∨ a ∉ m.live

namespace Evolves

variable [NodeLayout N V] {m m' m'' : Mem N} {F F' F'' : List Ptr}

theorem refl (m : Mem N) (F : List Ptr) : Evolves m m F F := ⟨fun _ h _ => ⟨h, rfl⟩, fun _ h => .inl h⟩

theorem trans (h₁ : Evolves m m' F F') (h₂ : Evolves m' m'' F' F'') : Evolves m m'' F F'' where
  keep a ha haF := by
    obtain ⟨ha', hview⟩ := h₁.keep a ha haF
    have haF' : a ∉ F' := fun h => (h₁.owned a h).elim haF (fun hn => hn ha)
    obtain ⟨ha'', hview'⟩ := h₂.keep a ha' haF'
    exact ⟨ha'', hview'.trans hview⟩
  owned a ha := by
    by_cases haF : a ∈ F
    · exact .inl haF
    · refine .inr fun hlive => ?_
      rcases h₂.owned a ha with h | h
      · exact (h₁.owned a h).elim haF (fun hn => hn hlive)
      · exact h (h₁.keep a hlive haF).1

theorem shrink (h : Evolves m m' F F') (hsub : ∀ a ∈ F'', a ∈ F') : Evolves m m' F F'' :=
  ⟨h.keep, fun a ha => h.owned a (hsub a ha)⟩

end Evolves

namespace RedBlackTree

variable [NodeLayout N V] {lt : K → K → Bool} {key : V → K} {m m' : Mem N} {q : Qtree} {T : Shape V}

theorem of_focus {L : List (Item V)} (hf : Focus m q.header L [] T)
    (hcache : ∀ d, m.child d q.header = endPtr q.header d L) (hblack : m.color q.header = .black)
    (hcount : q.nodeCount = L.length) (hbal : ∃ n, Bal T .black n) (hsorted : SortedBy lt key (L.map Item.val))
    (hcells : ∀ a ∈ q.header :: L.map Item.addr, a ≠ nullptr ∧ a ∈ m.live) : RedBlackTree lt key m q T := by
  obtain rfl : T.toList = L := hf.order
  exact ⟨hf, hcache, hblack, by rw [hcount, ColorTree.length_toList], hbal, hsorted,
    fun a ha => (hcells a ha).1, fun a ha => (hcells a ha).2⟩

theorem footprint_eq (h : RedBlackTree lt key m q T) : footprint q T = q.header :: addrs T :=
  if_neg (h.nonnull _ (by simp))

theorem size_lt (h : RedBlackTree lt key m q T) : T.size < m.live.length := by
  have := h.focus.size_lt h.live
  omega

theorem sorted_items (h : RedBlackTree lt key m q T) : SortedBy lt (itemKey key) T.toList :=
  List.pairwise_map.mp h.sorted

theorem count_ne_zero (h : RedBlackTree lt key m q T) (hT : T ≠ .nil) : q.nodeCount ≠ 0 := by
  rw [h.count]
  cases T with
  | nil => exact absurd rfl hT
  | node c l e r => simp [ColorTree.size]

theorem congr (h : RedBlackTree lt key m q T) (hlive : ∀ a ∈ q.header :: addrs T, a ∈ m'.live)
    (heq : ∀ a ∈ q.header :: addrs T, m'.view a = m.view a) : RedBlackTree lt key m' q T where
  focus := h.focus.congr (fun a ha => heq a (List.mem_cons_of_mem _ ha)) (by rw [heq _ (by simp)])
    (by rw [heq _ (by simp)])
  cache d := by rw [Mem.child_eq, heq _ (by simp), ← Mem.child_eq, h.cache]
  headerBlack := by rw [Mem.color_eq, heq _ (by simp), ← Mem.color_eq, h.headerBlack]
  count := h.count
  balanced := h.balanced
  sorted := h.sorted
  nonnull := h.nonnull
  live := hlive

end RedBlackTree

namespace Represents

variable [NodeLayout N V] {lt : K → K → Bool} {key : V → K} {m m' : Mem N} {q : Qtree} {T : Shape V}

theorem live (h : Represents lt key m q T) : ∀ a ∈ footprint q T, a ∈ m.live := by
  rcases h with ⟨rfl, rfl⟩ | h
  · simp [footprint, Qtree.init]
  · rw [h.footprint_eq]
    exact h.live

theorem frame {F F' : List Ptr} (h : Represents lt key m q T) (hev : Evolves m m' F F')
    (hdisj : ∀ a ∈ footprint q T, a ∉ F) : Represents lt key m' q T := by
  have hkeep : ∀ a ∈ footprint q T, a ∈ m'.live ∧ m'.view a = m.view a :=
    fun a ha => hev.keep a (h.live a ha) (hdisj a ha)
  rcases h with h | h
  · exact .inl h
  · rw [h.footprint_eq] at hkeep
    exact .inr (h.congr (fun a ha => (hkeep a ha).1) fun a ha => (hkeep a ha).2)

theorem count (h : Represents lt key m q T) : q.nodeCount = T.size := by
  rcases h with ⟨rfl, rfl⟩ | h
  · rfl
  · exact h.count

theorem sorted (h : Represents lt key m q T) : SortedBy lt key (T.toList.map Item.val) := by
  rcases h with ⟨rfl, rfl⟩ | h
  · exact List.Pairwise.nil
  · exact h.sorted

end Represents

/-! ### The header node -/

section
variable [NodeLayout N V]

def initHeader (m : Mem N) (hdr : Ptr) : Mem N :=
  let m := m.setParent hdr hdr
  let m := m.setLeft hdr hdr
  let m := m.setRight hdr hdr
  let m := m.setColor hdr .black
  m.setIsNil hdr true

def allocateHeader (pol : AllocPolicy) (m : Mem N) : Ptr × Mem N :=
  let (h, m) := nodeNew pol m
  let m := m.setParent h h
  let m := m.setLeft h h
  let m := m.setRight h h
  let m := m.setColor h .black
  (h, m.setIsNil h true)

def ensureHeader (pol : AllocPolicy) (m : Mem N) (q : Qtree) : Mem N × Qtree :=
  if q.header = nullptr then
    let (h, m) := allocateHeader pol m
    (initHeader m h, { q with header := h })
  else
    (m, q)

end

section
variable [NodeLayout N V] [LawfulNodeLayout N V] {lt : K → K → Bool} {key : V → K} {m : Mem N} {hdr : Ptr}
  {q : Qtree}

theorem view_initHeader (m : Mem N) (hdr : Ptr) :
    ((initHeader m hdr).view hdr).parent = hdr ∧ ((initHeader m hdr).view hdr).isNil = true ∧
      (∀ d, (initHeader m hdr).child d hdr = hdr) ∧ (initHeader m hdr).color hdr = .black ∧
      (initHeader m hdr).live = m.live ∧ ∀ a, a ≠ hdr → (initHeader m hdr).view a = m.view a := by
  refine ⟨?_, ?_, fun d => ?_, ?_, rfl, fun a ha => ?_⟩
  · simp [initHeader, Cell.withChild, Cell.withColor, Cell.withIsNil, Cell.withParent]
  · simp [initHeader, Cell.withIsNil]
  · cases d <;> simp [initHeader, Mem.child_eq, Cell.withChild, Cell.withColor, Cell.withIsNil]
  · simp [initHeader, Mem.color_eq, Cell.withColor, Cell.withIsNil]
  · simp [initHeader, ha]

theorem initHeader_spec {T : Shape V} (hf : Focus m hdr [] [] T) :
    Focus (initHeader m hdr) hdr [] [] T ∧ (∀ d, (initHeader m hdr).child d hdr = endPtr hdr d ([] : List (Item V))) ∧
      (initHeader m hdr).color hdr = .black ∧ (initHeader m hdr).live = m.live ∧
      ∀ a, a ≠ hdr → (initHeader m hdr).view a = m.view a := by
  have hT : T = .nil := by
    have horder : T.toList = [] := hf.order
    cases T with
    | nil => rfl
    | node c l e r => simp at horder
  subst hT
  obtain ⟨hparent, hnil, hchild, hblack, hlive, hoff⟩ := view_initHeader m hdr
  refine ⟨⟨trivial, hparent, rfl, hf.nodup, hnil⟩, fun d => ?_, hblack, hlive, hoff⟩
  rw [hchild]
  cases d <;> rfl

variable (pol : AllocPolicy)

theorem view_allocateHeader (m : Mem N) :
    (allocateHeader pol m).1 ≠ nullptr ∧ (allocateHeader pol m).1 ∉ m.live ∧
      (allocateHeader pol m).2.live = (allocateHeader pol m).1 :: m.live ∧
      ∀ a, a ≠ (allocateHeader pol m).1 → (allocateHeader pol m).2.view a = m.view a := by
  obtain ⟨hne, hnotMem, hlive, hoff⟩ := nodeNew_spec pol m
  refine ⟨hne, hnotMem, hlive, fun a ha => ?_⟩
  have ha' : a ≠ (nodeNew pol m).1 := ha
  simp [allocateHeader, ha', hoff a ha']

theorem redBlackTree_initHeader (hne : hdr ≠ nullptr) (hlive : hdr ∈ m.live) :
    RedBlackTree lt key (initHeader m hdr) ⟨hdr, 0⟩ .nil := by
  obtain ⟨hparent, hnil, hchild, hblack, hlive', -⟩ := view_initHeader m hdr
  refine ⟨⟨trivial, hparent, rfl, by simp, hnil⟩, fun d => ?_, hblack, rfl, ⟨_, .nil⟩,
    List.Pairwise.nil, by simpa using hne, by simpa [hlive'] using hlive⟩
  rw [hchild]
  cases d <;> rfl

theorem allocateHeader_spec (m : Mem N) :
    RedBlackTree lt key (initHeader (allocateHeader pol m).2 (allocateHeader pol m).1) ⟨(allocateHeader pol m).1, 0⟩
        .nil ∧
      Evolves m (initHeader (allocateHeader pol m).2 (allocateHeader pol m).1) [] [(allocateHeader pol m).1] := by
  obtain ⟨hne, hnotMem, hlive, hoff⟩ := view_allocateHeader pol m
  generalize (allocateHeader pol m).1 = h at *
  generalize (allocateHeader pol m).2 = m₁ at *
  obtain ⟨-, -, -, -, hlive', hoff'⟩ := view_initHeader m₁ h
  refine ⟨redBlackTree_initHeader hne (by simp [hlive]), fun a ha _ => ?_, fun a ha => ?_⟩
  · have hah : a ≠ h := fun he => hnotMem (he ▸ ha)
    exact ⟨by simp [hlive', hlive, ha], by rw [hoff' a hah, hoff a hah]⟩
  · rw [List.mem_singleton.mp ha]
    exact .inr hnotMem

theorem ensureHeader_spec (h : Represents lt key m q .nil) :
    RedBlackTree lt key (ensureHeader pol m q).1 (ensureHeader pol m q).2 .nil ∧
      Evolves m (ensureHeader pol m q).1 (footprint q (.nil : Shape V)) [(ensureHeader pol m q).2.header] := by
  rcases h with ⟨rfl, -⟩ | h
  · exact allocateHeader_spec pol m
  · rw [ensureHeader, if_neg (h.nonnull _ (by simp)), h.footprint_eq]
    exact ⟨h, Evolves.refl _ _⟩

end

end IdaSdk.QtreeDetail
