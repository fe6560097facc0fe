import IdaSdk.QtreeRepr

/-!
Walking the tree: `minimum`, `maximum`, `successor` and `predecessor`. Each pair is one walk applied
to a side. The walks read the in-order list of items.
-/

namespace IdaSdk.QtreeDetail
open RedBlack RedBlack.Ctx
open RedBlack.ColorTree (branch)

section
variable {N V : Type*} [NodeLayout N V]

def extremumLoop (d : Side) : Nat → Mem N → Ptr → Option Ptr
  | 0, _, _ => none
  | fuel + 1, m, node =>
    if m.isNil (m.child d node) then some node else extremumLoop d fuel m (m.child d node)

def extremum (d : Side) (m : Mem N) (node : Ptr) : Option Ptr :=
  if m.isNil node then none else extremumLoop d (m.live.length + 1) m node

variable (m : Mem N)

def minimum (node : Ptr) : Option Ptr := extremum .left m node

def maximum (node : Ptr) : Option Ptr := extremum .right m node

/-- Climbs while `node` is the child of its parent on side `d`. -/
def climb (d : Side) : Nat → Mem N → Ptr → Ptr → Option Ptr
  | 0, _, _, _ => none
  | fuel + 1, m, node, parentNode =>
    if m.isNil parentNode = false ∧ node = m.child d parentNode then
      climb d fuel m parentNode (m.parent parentNode)
    else
      some parentNode

/-- The next node towards side `d`. -/
def neighbour (d : Side) (m : Mem N) (node : Ptr) : Option Ptr :=
  if m.isNil node then
    some node
  else if m.isNil (m.child d node) = false then
    extremum d.flip m (m.child d node)
  else
    climb d (m.live.length + 1) m node (m.parent node)

def successor (node : Ptr) : Option Ptr := neighbour .right m node

def predecessor (node : Ptr) : Option Ptr := neighbour .left m node

/-- `prev_including_header`, the decrement of iterators. -/
def prevIncludingHeader (node : Ptr) : Option Ptr :=
  if m.isNil node then some (m.right node) else predecessor m node

end

section
variable {N V : Type*} [NodeLayout N V] {m : Mem N} {hdr : Ptr} {L : List (Item V)} {k : Path V} {t : Shape V}

variable (d : Side)

/-- The items of the context on side `d` of the hole. -/
def beyond (k : Path V) : List (Item V) :=
  match d with
  | .left => before k
  | .right => after k

/-- Two lists joined in the order seen from side `d.flip`. -/
def joinFrom (A B : List (Item V)) : List (Item V) :=
  match d with
  | .left => B ++ A
  | .right => A ++ B

theorem endPtr_joinFrom (hdr : Ptr) (d : Side) {A B : List (Item V)} (hA : A ≠ []) :
    endPtr hdr d.flip (joinFrom d A B) = endPtr hdr d.flip A := by
  cases d with
  | left =>
      cases A with
      | nil => exact absurd rfl hA
      | cons a A => simp [joinFrom, endPtr, List.getLast?_append, List.getLast?_cons]
  | right =>
      cases A with
      | nil => exact absurd rfl hA
      | cons a A => simp [joinFrom, endPtr]

theorem extremumLoop_spec (fuel : Nat) (hf : Focus m hdr L k t) (ht : t ≠ .nil) (hfuel : t.size < fuel) :
    ∃ k' c y r, t = plug k' (branch d c .nil y r) ∧ (∀ f ∈ k', f.side = d) ∧
      extremumLoop d fuel m (ptrOf hdr t) = some y.addr := by
  induction fuel generalizing k t with
  | zero => omega
  | succ fuel ih =>
      obtain ⟨c, s, e, u, rfl⟩ := ColorTree.exists_branch d ht
      have hchild := hf.child
      have hnil := hf.down.isNil_ptrOf
      rw [ptrOf_branch, extremumLoop, hchild]
      by_cases hs : s = .nil
      · subst hs
        exact ⟨[], c, e, u, rfl, by simp, if_pos (hnil.mpr rfl)⟩
      have hsize : s.size < fuel := by
        have := ColorTree.size_branch d c s e u
        omega
      obtain ⟨k', c', y, r, hplug, hk', hrun⟩ := ih hf.down hs hsize
      refine ⟨k' ++ [⟨d, c, e, u⟩], c', y, r, ?_, ?_, ?_⟩
      · rw [plug_append, ← hplug]
        rfl
      · simpa [or_imp, forall_and] using hk'
      · rw [if_neg (fun h => hs (hnil.mp h)), hrun]

theorem plug_outer_ends (hdr : Ptr) (d : Side) (k' : Path V) (c : Color) (y : Item V) (r : Shape V)
    (hk' : ∀ f ∈ k', f.side = d) : endPtr hdr d (plug k' (branch d c .nil y r)).toList = y.addr := by
  rw [toList_plug]
  cases d with
  | left => simp [before_eq_nil_of_left k' hk', endPtr]
  | right => simp [after_eq_nil_of_right k' hk', endPtr, List.getLast?_append]

theorem extremum_spec (hf : Focus m hdr L k t) (ht : t ≠ .nil)
    (hlive : ∀ a ∈ hdr :: L.map Item.addr, a ∈ m.live) :
    extremum d m (ptrOf hdr t) = some (endPtr hdr d t.toList) := by
  have hlt := hf.size_lt hlive
  obtain ⟨k', c, y, r, rfl, hk', hrun⟩ := extremumLoop_spec d (m.live.length + 1) hf ht (by omega)
  rw [extremum, if_neg (fun h => ht (hf.isNil_ptrOf.mp h)), hrun, plug_outer_ends hdr d k' c y r hk']

theorem climb_spec (fuel : Nat) (hf : Focus m hdr L k t) (ht : t ≠ .nil) (hfuel : k.length < fuel) :
    climb d fuel m (ptrOf hdr t) (ctxPtr hdr k) = some (endPtr hdr d.flip (beyond d k)) := by
  induction fuel generalizing k t with
  | zero => omega
  | succ fuel ih =>
      cases k with
      | nil =>
          have hnil : m.isNil hdr = true := hf.hdrNil
          rw [climb, ctxPtr_nil, if_neg (by simp [hnil])]
          cases d <;> rfl
      | cons f k =>
          obtain ⟨side, c, p, s⟩ := f
          have hnil : m.isNil p.addr = false := hf.up.isNil
          have hpne : branch side c t p s ≠ .nil := by cases side <;> simp
          rw [climb, ctxPtr_cons]
          rcases side.eq_or_eq_flip d with rfl | rfl
          · have hchild : m.child side p.addr = ptrOf hdr t := hf.up.child
            have hparent : m.parent p.addr = ctxPtr hdr k := hf.up.parent
            have hrun := ih hf.up hpne (by simpa using hfuel)
            rw [ptrOf_branch] at hrun
            rw [if_pos ⟨hnil, hchild.symm⟩, hparent, hrun]
            cases side <;> rfl
          · have hne := hf.up.ptrOf_ne ht
            have hchild := hf.up.child_flip
            rw [Side.flip_flip] at hchild
            rw [if_neg (fun h => hne (h.2.trans hchild))]
            cases d <;> simp [beyond, endPtr]

variable {e : Item V} {c : Color}

theorem neighbour_spec {d : Side} {s u : Shape V}
    (hf : Focus m hdr L k (branch d c s e u)) (hlive : ∀ a ∈ hdr :: L.map Item.addr, a ∈ m.live) :
    neighbour d m e.addr = some (endPtr hdr d.flip (joinFrom d s.toList (beyond d k))) := by
  have hlt := hf.size_lt hlive
  have hchild := hf.child
  have hnil := hf.down.isNil_ptrOf
  rw [neighbour, hf.isNil, if_neg (by decide), hchild]
  by_cases hs : s = .nil
  · subst hs
    have hne : branch d c .nil e u ≠ .nil := by cases d <;> simp
    have hclimb := climb_spec d (m.live.length + 1) hf hne (by omega)
    rw [ptrOf_branch] at hclimb
    rw [if_neg (by rw [hnil.mpr rfl]; decide), hf.parent, hclimb]
    cases d <;> simp [joinFrom]
  · have hfalse : m.isNil (ptrOf hdr s) = false := by
      rw [Bool.eq_false_iff]
      exact fun h => hs (hnil.mp h)
    have hlist : s.toList ≠ [] := by
      cases s with
      | nil => exact absurd rfl hs
      | node c' l x r => simp
    rw [if_pos hfalse, extremum_spec d.flip hf.down hs hlive, endPtr_joinFrom hdr d hlist]

theorem successor_spec {l r : Shape V} (hf : Focus m hdr L k (.node c l e r))
    (hlive : ∀ a ∈ hdr :: L.map Item.addr, a ∈ m.live) :
    successor m e.addr = some (endPtr hdr .left (r.toList ++ after k)) :=
  neighbour_spec (show Focus m hdr L k (branch .right c r e l) from hf) hlive

theorem predecessor_spec {l r : Shape V} (hf : Focus m hdr L k (.node c l e r))
    (hlive : ∀ a ∈ hdr :: L.map Item.addr, a ∈ m.live) :
    predecessor m e.addr = some (endPtr hdr .right (before k ++ l.toList)) :=
  neighbour_spec (show Focus m hdr L k (branch .left c l e r) from hf) hlive

end

end IdaSdk.QtreeDetail
