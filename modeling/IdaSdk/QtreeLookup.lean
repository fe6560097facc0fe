import IdaSdk.QtreeIterate

/-!
Descents by key: `find_node`, `lower_bound_node`, `upper_bound_node` and `find_insert_position`. Each
loop follows one path of the tree; the results are those of a scan of the in-order list.
-/

namespace IdaSdk.QtreeDetail
open RedBlack RedBlack.Ctx SortedList
open RedBlack.ColorTree (branch)

section
variable {N V K : Type*} [NodeLayout N V] (lt : K → K → Bool) (key : V → K)

variable (m : Mem N)

def root (q : Qtree) : Ptr := if q.header = nullptr then nullptr else m.parent q.header

def findNodeLoop (m : Mem N) (hdr : Ptr) (k : K) : Nat → Ptr → Option Ptr
  | 0, _ => none
  | fuel + 1, node =>
    if m.isNil node then
      some hdr
    else
      match m.value node with
      | none => none
      | some v =>
        if lt k (key v) then
          findNodeLoop m hdr k fuel (m.left node)
        else if lt (key v) k then
          findNodeLoop m hdr k fuel (m.right node)
        else
          some node

def findNode (q : Qtree) (k : K) : Option Ptr :=
  if root m q = nullptr then some nullptr
  else findNodeLoop lt key m q.header k (m.live.length + 1) (root m q)

/-- The loop of `lower_bound_node` and `upper_bound_node`, which differ in when a node is a candidate. -/
def boundLoop (m : Mem N) (candidate : V → Bool) : Nat → Ptr → Ptr → Option Ptr
  | 0, _, _ => none
  | fuel + 1, node, result =>
    if m.isNil node then
      some result
    else
      match m.value node with
      | none => none
      | some v =>
        if candidate v then
          boundLoop m candidate fuel (m.left node) node
        else
          boundLoop m candidate fuel (m.right node) result

def lowerBoundNode (q : Qtree) (k : K) : Option Ptr :=
  if root m q = nullptr then some nullptr
  else boundLoop m (fun v => !lt (key v) k) (m.live.length + 1) (root m q) q.header

def upperBoundNode (q : Qtree) (k : K) : Option Ptr :=
  if root m q = nullptr then some nullptr
  else boundLoop m (fun v => lt k (key v)) (m.live.length + 1) (root m q) q.header

def keysEqual (a b : K) : Bool := !lt a b && !lt b a

/-- Returns the node with an equivalent key or `nullptr`, with the last node visited and the side taken. -/
def findInsertPositionLoop (m : Mem N) (k : K) : Nat → Ptr → Ptr → Bool → Option (Ptr × Ptr × Bool)
  | 0, _, _, _ => none
  | fuel + 1, node, parentNode, goLeft =>
    if m.isNil node then
      some (nullptr, parentNode, goLeft)
    else
      match m.value node with
      | none => none
      | some v =>
        if lt k (key v) then
          findInsertPositionLoop m k fuel (m.left node) node true
        else if lt (key v) k then
          findInsertPositionLoop m k fuel (m.right node) node false
        else
          some (node, node, goLeft)

def findInsertPosition (q : Qtree) (k : K) : Option (Ptr × Ptr × Bool) :=
  findInsertPositionLoop lt key m k (m.live.length + 1) (root m q) q.header true

end

section
variable {N V K : Type*} [NodeLayout N V] {lt : K → K → Bool} {key : V → K} {m : Mem N} {hdr : Ptr}
  {L : List (Item V)} {t : Shape V}

theorem findNodeLoop_spec (o : StrictWeakOrder lt) (k : K) (fuel : Nat) {par : Ptr} (hh : Holds m.view hdr par t)
    (hnil : (m.view hdr).isNil = true) (hs : SortedBy lt (itemKey key) t.toList) (hfuel : t.size < fuel) :
    findNodeLoop lt key m hdr k fuel (ptrOf hdr t) = some (posPtr hdr (scanFind lt (itemKey key) k t.toList)) := by
  induction t generalizing fuel par with
  | nil =>
      obtain ⟨fuel, rfl⟩ : ∃ f, fuel = f + 1 := ⟨fuel - 1, by omega⟩
      simp [findNodeLoop, Mem.isNil_eq, hnil, scanFind, posPtr]
  | node c l e r ihl ihr =>
      obtain ⟨fuel, rfl⟩ : ∃ f, fuel = f + 1 := ⟨fuel - 1, by omega⟩
      obtain ⟨hleft, hright, hvalue, hfalse⟩ := hh.reads
      obtain ⟨-, hl, hr⟩ := hh
      simp only [ColorTree.size] at hfuel
      rw [ColorTree.toList_node] at hs
      obtain ⟨hsl, hsr, -⟩ := List.pairwise_append.mp hs
      rw [ColorTree.toList_node, hs.scanFind_append o, ptrOf]
      simp only [findNodeLoop, hfalse, hvalue, hleft, hright, Bool.false_eq_true, if_false]
      rw [ihl fuel hl hsl (by omega), ihr fuel hr (List.pairwise_cons.mp hsr).2 (by omega)]
      split
      · rfl
      · split <;> rfl

theorem boundLoop_spec {candidate : V → Bool} (fuel : Nat) {par result : Ptr} (hh : Holds m.view hdr par t)
    (hnil : (m.view hdr).isNil = true)
    (hs : t.toList.Pairwise fun a b => candidate a.val = true → candidate b.val = true) (hfuel : t.size < fuel) :
    boundLoop m candidate fuel (ptrOf hdr t) result =
      some (posPtr result (t.toList.find? fun x => candidate x.val)) := by
  induction t generalizing fuel par result with
  | nil =>
      obtain ⟨fuel, rfl⟩ : ∃ f, fuel = f + 1 := ⟨fuel - 1, by omega⟩
      simp [boundLoop, Mem.isNil_eq, hnil, posPtr]
  | node c l e r ihl ihr =>
      obtain ⟨fuel, rfl⟩ : ∃ f, fuel = f + 1 := ⟨fuel - 1, by omega⟩
      obtain ⟨hleft, hright, hvalue, hfalse⟩ := hh.reads
      obtain ⟨-, hl, hr⟩ := hh
      simp only [ColorTree.size] at hfuel
      rw [ColorTree.toList_node] at hs
      obtain ⟨hsl, hsr, -⟩ := List.pairwise_append.mp hs
      rw [ColorTree.toList_node, find?_append_of_mono hs, ptrOf]
      simp only [boundLoop, hfalse, hvalue, hleft, hright, Bool.false_eq_true, if_false]
      rw [ihl fuel hl hsl (by omega), ihr fuel hr (List.pairwise_cons.mp hsr).2 (by omega)]
      split
      · cases l.toList.find? fun x => candidate x.val <;> rfl
      · rfl

/-- Where the descent for a new key ends: at an equivalent item, or at a hole between smaller and larger
items. -/
inductive InsertPosition (lt : K → K → Bool) (key : V → K) (hdr : Ptr) (T : Shape V) (k : K) :
    Ptr × Ptr × Bool → Prop
  | existing {k' : Path V} {c : Color} {l r : Shape V} {x : Item V} {parentNode : Ptr} {goLeft : Bool} :
      plug k' (.node c l x r) = T → equiv lt (key x.val) k = true → InsertPosition lt key hdr T k (x.addr, parentNode, goLeft)
  | hole (k' : Path V) (goLeft : Bool) :
      plug k' .nil = T → (∀ f ∈ k'.head?, f.side = if goLeft then .left else .right) →
      Between lt (itemKey key) (before k') k (after k') →
      InsertPosition lt key hdr T k (nullptr, ctxPtr hdr k', goLeft)

theorem findInsertPositionLoop_spec (o : StrictWeakOrder lt) (k : K) (fuel : Nat) {k₀ : Path V} {goLeft : Bool}
    (hf : Focus m hdr L k₀ t) (hs : SortedBy lt (itemKey key) L) (hfuel : t.size < fuel)
    (hside : ∀ f ∈ k₀.head?, f.side = if goLeft then .left else .right)
    (hb : Between lt (itemKey key) (before k₀) k (after k₀)) :
    ∃ res, findInsertPositionLoop lt key m k fuel (ptrOf hdr t) (ctxPtr hdr k₀) goLeft = some res ∧
      InsertPosition lt key hdr (plug k₀ t) k res := by
  induction fuel generalizing k₀ t goLeft with
  | zero => omega
  | succ fuel ih =>
      cases t with
      | nil =>
          have hnil : m.isNil hdr = true := hf.hdrNil
          exact ⟨_, by simp [findInsertPositionLoop, hnil], .hole _ _ rfl hside hb⟩
      | node c l e r =>
          have hnode : Focus m hdr L k₀ (branch .left c l e r) := hf
          obtain ⟨hleft, hright, hvalue, hfalse⟩ := hf.sub.reads
          simp only [ColorTree.size] at hfuel
          have hL : L = (before k₀ ++ l.toList) ++ e :: (r.toList ++ after k₀) := by
            rw [← hf.order, toList_plug]
            simp
          have hbe : Between lt (itemKey key) (before k₀ ++ l.toList) (key e.val) (r.toList ++ after k₀) :=
            (hL ▸ hs).between
          simp only [findInsertPositionLoop, ptrOf_node, hfalse, hvalue, hleft, hright, Bool.false_eq_true, if_false]
          cases hlt : lt k (key e.val) with
          | true =>
              have hb' : Between lt (itemKey key) (before k₀) k (e :: r.toList ++ after k₀) := by
                refine ⟨hb.below, fun b hmem => ?_⟩
                rcases List.mem_cons.mp hmem with rfl | hmem
                · exact hlt
                · exact o.trans hlt (hbe.above b hmem)
              have hside' : ∀ f ∈ List.head? ((⟨.left, c, e, r⟩ : Frame (Item V)) :: k₀),
                  f.side = if true = true then .left else .right := by simp
              obtain ⟨res, hrun, hres⟩ := ih hnode.down (by omega) hside' hb'
              exact ⟨res, by simpa using hrun, hres⟩
          | false =>
              cases hgt : lt (key e.val) k with
              | true =>
                  have hb' : Between lt (itemKey key) (before k₀ ++ l.toList ++ [e]) k (after k₀) := by
                    refine ⟨fun a hmem => ?_, hb.above⟩
                    rcases List.mem_append.mp hmem with hmem | hmem
                    · exact o.trans (hbe.below a hmem) hgt
                    · rw [List.mem_singleton.mp hmem]
                      exact hgt
                  have hside' : ∀ f ∈ List.head? ((⟨.right, c, e, l⟩ : Frame (Item V)) :: k₀),
                      f.side = if false = true then .left else .right := by simp
                  obtain ⟨res, hrun, hres⟩ := ih hnode.down.across (by omega) hside' hb'
                  exact ⟨res, by simpa using hrun, hres⟩
              | false => exact ⟨(e.addr, e.addr, goLeft), by simp, .existing rfl (by simp [equiv, hlt, hgt])⟩

section
variable {q : Qtree} {T : Shape V}

theorem RedBlackTree.root_eq (h : RedBlackTree lt key m q T) : root m q = ptrOf q.header T ∧ root m q ≠ nullptr := by
  have hroot : root m q = ptrOf q.header T := by
    rw [root, if_neg (h.nonnull _ (by simp))]
    exact h.focus.ctx
  refine ⟨hroot, hroot ▸ h.nonnull _ ?_⟩
  rcases ptrOf_mem_or q.header T with hmem | rfl
  · exact List.mem_cons_of_mem _ hmem
  · exact List.mem_cons_self ..

theorem findNode_spec (o : StrictWeakOrder lt) (h : Represents lt key m q T) (k : K) :
    findNode lt key m q k = some (posPtr q.header (scanFind lt (itemKey key) k T.toList)) := by
  rcases h with ⟨rfl, rfl⟩ | h
  · rfl
  · have hlt := h.size_lt
    rw [findNode, if_neg h.root_eq.2, h.root_eq.1]
    exact findNodeLoop_spec o k _ h.focus.sub h.focus.hdrNil h.sorted_items (by omega)

theorem lowerBoundNode_spec (o : StrictWeakOrder lt) (h : Represents lt key m q T) (k : K) :
    lowerBoundNode lt key m q k = some (posPtr q.header (scanLowerBound lt (itemKey key) k T.toList)) := by
  rcases h with ⟨rfl, rfl⟩ | h
  · rfl
  · have hlt := h.size_lt
    rw [lowerBoundNode, if_neg h.root_eq.2, h.root_eq.1]
    exact boundLoop_spec _ h.focus.sub h.focus.hdrNil (h.sorted_items.mono_lower o k) (by omega)

theorem upperBoundNode_spec (o : StrictWeakOrder lt) (h : Represents lt key m q T) (k : K) :
    upperBoundNode lt key m q k = some (posPtr q.header (scanUpperBound lt (itemKey key) k T.toList)) := by
  rcases h with ⟨rfl, rfl⟩ | h
  · rfl
  · have hlt := h.size_lt
    rw [upperBoundNode, if_neg h.root_eq.2, h.root_eq.1]
    exact boundLoop_spec _ h.focus.sub h.focus.hdrNil (h.sorted_items.mono_upper o k) (by omega)

theorem findInsertPosition_spec (o : StrictWeakOrder lt) (h : RedBlackTree lt key m q T) (k : K) :
    ∃ res, findInsertPosition lt key m q k = some res ∧ InsertPosition lt key q.header T k res := by
  have hlt := h.size_lt
  rw [findInsertPosition, h.root_eq.1]
  exact findInsertPositionLoop_spec o k _ h.focus h.sorted_items (by omega) (by simp) ⟨by simp, by simp⟩

end

end

end IdaSdk.QtreeDetail
