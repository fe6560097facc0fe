import Mathlib.Data.List.Chain
import Mathlib.Data.List.Nodup
import Mathlib.Logic.Equiv.Basic
import Mathlib.Tactic.Common

/-!
Rings of nodes that are linked in both directions, each through a node of its own that holds no data. Pieces of a ring
are taken out and put in by relinking their ends; the rules are for a family of rings that share no node.
-/

namespace IdaSdk.Circular

/-- The two pointers of every node. -/
structure Links (P : Type) where
  next : P → P
  prev : P → P

section
variable {P : Type} [DecidableEq P]

variable (k : Links P)

def Links.setNext (a b : P) : Links P := { k with next := Function.update k.next a b }

def Links.setPrev (a b : P) : Links P := { k with prev := Function.update k.prev a b }

/-- `b` becomes the node after `a`. -/
def Links.link (a b : P) : Links P := (k.setNext a b).setPrev b a

end

variable {P : Type} {k : Links P} {a b c d s x y : P} {l m A B M ps qs : List P}

def Linked (k : Links P) (a b : P) : Prop := k.next a = b ∧ k.prev b = a

/-- Nodes that follow each other. -/
abbrev Path (k : Links P) (l : List P) : Prop := List.IsChain (Linked k) l

/-- The nodes `ps` of the ring through `s`. -/
def IsRing (k : Links P) (s : P) (ps : List P) : Prop := Path k (s :: (ps ++ [s]))

theorem cons_getLastD (s : P) (A : List P) : ∃ l, s :: A = l ++ [A.getLastD s] := by
  cases A using List.reverseRecOn with
  | nil => exact ⟨[], rfl⟩
  | append_singleton A a => exact ⟨s :: A, by simp⟩

theorem headD_append (s : P) (B : List P) : ∃ m, B ++ [s] = B.headD s :: m := by
  cases B with
  | nil => exact ⟨[], rfl⟩
  | cons b B => exact ⟨B ++ [s], rfl⟩

theorem getLastD_mem (s : P) (A : List P) : A.getLastD s ∈ s :: A := by
  obtain ⟨l, hl⟩ := cons_getLastD s A
  rw [hl]
  exact List.mem_append_right _ (List.mem_singleton.mpr rfl)

theorem headD_mem (s : P) (B : List P) : B.headD s ∈ B ++ [s] := by
  obtain ⟨m, hm⟩ := headD_append s B
  rw [hm]
  exact List.mem_cons_self

theorem getLastD_append_cons (A M : List P) (c s : P) : (A ++ c :: M).getLastD s = M.getLastD c := by
  induction A generalizing s with
  | nil => exact List.getLastD_cons ..
  | cons a A ih => exact (List.getLastD_cons ..).trans (ih a)

theorem path_cut : Path k (c :: (A ++ (B ++ [s]))) ↔
    Path k (c :: A) ∧ Linked k (A.getLastD c) (B.headD s) ∧ Path k (B ++ [s]) := by
  obtain ⟨l, hl⟩ := cons_getLastD c A
  obtain ⟨m, hm⟩ := headD_append s B
  have hpath : c :: (A ++ (B ++ [s])) = l ++ A.getLastD c :: B.headD s :: m := by
    rw [hm, ← List.cons_append, hl, List.append_assoc]
    rfl
  unfold Path
  rw [hpath, List.isChain_append_cons_cons, hl, hm]

theorem isRing_cut : IsRing k s (A ++ B) ↔
    Path k (s :: A) ∧ Linked k (A.getLastD s) (B.headD s) ∧ Path k (B ++ [s]) := by
  rw [IsRing, List.append_assoc]
  exact path_cut

theorem not_mem_dropLast (h : a ∉ l) : a ∉ l.dropLast := fun hmem => h ((List.dropLast_sublist l).mem hmem)

theorem not_mem_tail (h : a ∉ l) : a ∉ l.tail := fun hmem => h (List.mem_of_mem_tail hmem)

/-- A ring without repeated nodes, cut into three pieces. -/
structure Pieces (s : P) (A M B : List P) : Prop where
  nodup : M.Nodup
  last : A.getLastD s ∉ (s :: A).dropLast
  last_right : A.getLastD s ∉ B
  first : B.headD s ∉ (B ++ [s]).tail
  first_left : B.headD s ∉ A
  left : ∀ x ∈ M, x ∉ s :: A
  right : ∀ x ∈ M, x ∉ B ++ [s]

theorem pieces (h : (s :: (A ++ (M ++ B))).Nodup) : Pieces s A M B := by
  obtain ⟨hs, hAMB⟩ := List.nodup_cons.mp h
  obtain ⟨hA, hMB, hAdis⟩ := List.nodup_append.mp hAMB
  obtain ⟨hM, hB, hMdis⟩ := List.nodup_append.mp hMB
  simp only [List.mem_append, not_or] at hs
  have hBA : ∀ x, x ∈ B → x ∉ s :: A := by
    intro x hx hx'
    cases List.mem_cons.mp hx' with
    | inl heq => exact hs.2.2 (heq ▸ hx)
    | inr hx' => exact hAdis x hx' x (List.mem_append_right _ hx) rfl
  refine ⟨hM, ?_, fun hmem => hBA _ hmem (getLastD_mem s A), ?_, ?_, fun x hx hx' => ?_, fun x hx hx' => ?_⟩
  · have hsA : (s :: A).Nodup := List.nodup_cons.mpr ⟨hs.1, hA⟩
    obtain ⟨l, hl⟩ := cons_getLastD s A
    rw [hl] at hsA
    rw [hl, List.dropLast_concat]
    exact fun hmem => (List.nodup_append.mp hsA).2.2 _ hmem _ (List.mem_singleton.mpr rfl) rfl
  · cases B with
    | nil => exact List.not_mem_nil
    | cons b B =>
        intro hmem
        cases List.mem_append.mp hmem with
        | inl hmem => exact (List.nodup_cons.mp hB).1 hmem
        | inr hmem => exact hs.2.2 (List.mem_singleton.mp hmem ▸ List.mem_cons_self)
  · intro hmem
    cases List.mem_append.mp (headD_mem s B) with
    | inl hb => exact hBA _ hb (List.mem_cons_of_mem _ hmem)
    | inr hb => exact hs.1 (List.mem_singleton.mp hb ▸ hmem)
  · cases List.mem_cons.mp hx' with
    | inl heq => exact hs.2.1 (heq ▸ hx)
    | inr hx' => exact hAdis x hx' x (List.mem_append_left _ hx) rfl
  · cases List.mem_append.mp hx' with
    | inl hx' => exact hMdis x hx x hx' rfl
    | inr hx' => exact hs.2.1 (List.mem_singleton.mp hx' ▸ hx)

theorem mem_pieces : x ∈ y :: (A ++ (M ++ B)) ↔ x ∈ M ∨ x ∈ y :: (A ++ B) := by
  simp only [List.mem_cons, List.mem_append]
  tauto

theorem nodup_pieces : (y :: (A ++ (M ++ B))).Nodup ↔ (M ++ y :: (A ++ B)).Nodup := by
  refine List.Perm.nodup_iff ?_
  refine .trans (.cons y (List.perm_append_comm_assoc A M B)) ?_
  exact List.perm_middle.symm

theorem isRing_path (h : IsRing k s ps) : Path k ps := by
  have hcut := isRing_cut.mp (show IsRing k s (ps ++ []) by rwa [List.append_nil])
  exact hcut.1.tail

theorem ring_nodes (h : ∀ x ∈ l, x ∉ s :: ps) : ∀ x ∈ l, x ∉ s :: (ps ++ [s]) := by
  intro x hx hx'
  refine h x hx ?_
  simp only [List.mem_cons, List.mem_append, List.not_mem_nil, or_false] at hx' ⊢
  tauto

theorem iterate_next {f : P → P} (h : List.IsChain (fun x y => f x = y) (a :: l)) :
    List.iterate f (f a) l.length = l := by
  induction l generalizing a with
  | nil => rfl
  | cons b l ih =>
      obtain ⟨hab, hrest⟩ := List.isChain_cons_cons.mp h
      subst hab
      rw [List.length_cons, List.iterate, ih hrest]

theorem IsRing.forward (h : IsRing k s ps) : List.iterate k.next (k.next s) (ps.length + 1) = ps ++ [s] := by
  have hchain : List.IsChain (fun x y => k.next x = y) (s :: (ps ++ [s])) := List.IsChain.imp (fun _ _ h => h.1) h
  have hnodes := iterate_next hchain
  rwa [List.length_append, List.length_singleton] at hnodes

theorem IsRing.backward (h : IsRing k s ps) : List.iterate k.prev (k.prev s) (ps.length + 1) = ps.reverse ++ [s] := by
  have hchain : List.IsChain (fun x y => k.prev x = y) (s :: (ps.reverse ++ [s])) := by
    have hreverse : List.IsChain (fun x y => k.prev y = x) (s :: (ps ++ [s])) := List.IsChain.imp (fun _ _ h => h.2) h
    rw [← List.isChain_reverse] at hreverse
    simpa using hreverse
  have hnodes := iterate_next hchain
  rwa [List.length_append, List.length_singleton, List.length_reverse] at hnodes

theorem Path.iterate (h : Path k (c :: (A ++ (B ++ [s])))) : k.next^[A.length] (k.next c) = B.headD s := by
  induction A generalizing c with
  | nil => exact (path_cut.mp h).2.1.1
  | cons a A ih =>
      obtain ⟨hca, hrest⟩ := List.isChain_cons_cons.mp h
      rw [List.length_cons, Function.iterate_succ_apply, hca.1]
      exact ih hrest

theorem IsRing.iterate (h : IsRing k s (A ++ B)) : k.next^[A.length] (k.next s) = B.headD s := by
  refine Path.iterate (A := A) (B := B) ?_
  rwa [← List.append_assoc]

/-! ### Families of rings -/

/-- Rings that share no node; the ring `i` goes through `s i`. -/
structure Rings {ι : Type} (k : Links P) (s : ι → P) (R : ι → List P) : Prop where
  ring : ∀ i, IsRing k (s i) (R i)
  nodup : ∀ i, (s i :: R i).Nodup
  disjoint : ∀ i j, i ≠ j → ∀ x ∈ s i :: R i, x ∉ s j :: R j

section
variable {ι : Type} [DecidableEq ι] {s : ι → P} {R : ι → List P} {i j : ι}

/-- The rings may have the nodes of each other. -/
theorem Rings.separate {m m' n n' : ι} (h : Rings k s R) (hm : m ≠ m') (hn : n ≠ n') :
    ∀ x ∈ s m :: R n, x ∉ s m' :: R n' := by
  have hnode : ∀ m n, s m ∉ R n := by
    intro m n hmem
    by_cases hmn : m = n
    · exact (List.nodup_cons.mp (h.nodup m)).1 (hmn ▸ hmem)
    · exact h.disjoint m n hmn _ List.mem_cons_self (List.mem_cons_of_mem _ hmem)
  intro x hx hx'
  rcases List.mem_cons.mp hx with rfl | hx <;> rcases List.mem_cons.mp hx' with heq | hx'
  · exact h.disjoint m m' hm _ List.mem_cons_self (heq ▸ List.mem_cons_self)
  · exact hnode m n' hx'
  · exact hnode m' n (heq ▸ hx)
  · exact h.disjoint n n' hn x (List.mem_cons_of_mem _ hx) (List.mem_cons_of_mem _ hx')

theorem Rings.separate_nodup (h : Rings k s R) (i j : ι) : (s i :: R j).Nodup := by
  refine List.nodup_cons.mpr ⟨fun hmem => ?_, (List.nodup_cons.mp (h.nodup j)).2⟩
  by_cases hij : i = j
  · exact (List.nodup_cons.mp (h.nodup i)).1 (hij ▸ hmem)
  · exact h.disjoint i j hij _ List.mem_cons_self (List.mem_cons_of_mem _ hmem)

/-- A ring is replaced by one that no other ring shares a node with. -/
theorem Rings.replace {k' : Links P} {l : List P} (h : Rings k s R) (hring : IsRing k' (s i) l)
    (hframe : ∀ j, j ≠ i → IsRing k' (s j) (R j)) (hnodup : (s i :: l).Nodup)
    (hfresh : ∀ j, j ≠ i → ∀ x ∈ s i :: l, x ∉ s j :: R j) : Rings k' s (Function.update R i l) := by
  have hother : ∀ j, j ≠ i → Function.update R i l j = R j := fun j hj => Function.update_of_ne hj _ _
  refine ⟨fun j => ?_, fun j => ?_, fun j j' hjj' x hx hx' => ?_⟩
  · by_cases hj : j = i
    · subst hj
      rwa [Function.update_self]
    · rw [hother j hj]
      exact hframe j hj
  · by_cases hj : j = i
    · subst hj
      rwa [Function.update_self]
    · rw [hother j hj]
      exact h.nodup j
  · by_cases hj : j = i
    · subst hj
      rw [Function.update_self] at hx
      rw [hother j' (Ne.symm hjj')] at hx'
      exact hfresh j' (Ne.symm hjj') x hx hx'
    · rw [hother j hj] at hx
      by_cases hj' : j' = i
      · subst hj'
        rw [Function.update_self] at hx'
        exact hfresh j hj x hx' hx
      · rw [hother j' hj'] at hx'
        exact h.disjoint j j' hjj' x hx hx'

end

variable [DecidableEq P]

theorem linked_link : Linked (k.link a b) a b := ⟨Function.update_self .., Function.update_self ..⟩

theorem Linked.link (h : Linked k x y) (hx : x ≠ a) (hy : y ≠ b) : Linked (k.link a b) x y := by
  refine ⟨?_, ?_⟩
  · exact (Function.update_of_ne hx _ _).trans h.1
  · exact (Function.update_of_ne hy _ _).trans h.2

/-- A path is not disturbed where its inner links stay. -/
theorem path_link (h : Path k l) (ha : a ∉ l.dropLast) (hb : b ∉ l.tail) : Path (k.link a b) l := by
  induction l with
  | nil => exact .nil
  | cons x l ih =>
      cases l with
      | nil => exact .singleton x
      | cons y l =>
          rw [List.dropLast_cons_cons, List.mem_cons, not_or] at ha
          rw [List.tail_cons] at hb
          obtain ⟨hxy, hrest⟩ := List.isChain_cons_cons.mp h
          refine List.isChain_cons_cons.mpr ⟨hxy.link (Ne.symm ha.1) fun heq => hb ?_, ih hrest ha.2 fun hmem => hb ?_⟩
          · exact heq ▸ List.mem_cons_self
          · exact List.mem_cons_of_mem _ hmem

theorem isRing_frame (h : IsRing k s ps) (ha : a ∉ s :: ps) (hb : b ∉ s :: ps) : IsRing (k.link a b) s ps := by
  have hmem : ∀ c, c ∈ s :: (ps ++ [s]) → c ∈ s :: ps := by
    intro c hc
    simp only [List.mem_cons, List.mem_append, List.not_mem_nil, or_false] at hc ⊢
    tauto
  exact path_link h (not_mem_dropLast fun h => ha (hmem a h)) (not_mem_tail fun h => hb (hmem b h))

/-- Nodes are put between two parts of a ring. -/
theorem isRing_attach (hA : Path k (s :: A)) (hB : Path k (B ++ [s])) (hM : Path k (c :: M))
    (hnodup : (s :: (A ++ ((c :: M) ++ B))).Nodup) :
    IsRing ((k.link (A.getLastD s) c).link (M.getLastD c) (B.headD s)) s (A ++ ((c :: M) ++ B)) := by
  have hp := pieces hnodup
  have hfirst := headD_mem s B
  have hlast := getLastD_mem s A
  have hc : c ∈ c :: M := List.mem_cons_self
  have hd := getLastD_mem c M
  refine isRing_cut.mpr ⟨?_, ?_, ?_⟩
  · refine path_link (path_link hA hp.last fun hmem => hp.left c hc (List.mem_cons_of_mem _ hmem)) ?_ hp.first_left
    exact not_mem_dropLast (hp.left _ hd)
  · refine linked_link.link (fun heq => hp.left _ hd (heq ▸ hlast)) fun heq => hp.right c hc ?_
    exact heq ▸ hfirst
  rw [List.append_assoc]
  refine path_cut.mpr ⟨?_, linked_link, ?_⟩
  · have hlastM : M.getLastD c ∉ (c :: M).dropLast := (pieces (B := []) (M := []) (by simpa using hp.nodup)).last
    have hfirstM : c ∉ (c :: M).tail := (List.nodup_cons.mp hp.nodup).1
    refine path_link (path_link hM (not_mem_dropLast fun hmem => hp.left _ hmem hlast) hfirstM) hlastM ?_
    exact not_mem_tail fun hmem => hp.right _ hmem hfirst
  · refine path_link (path_link hB ?_ (not_mem_tail (hp.right c hc))) (not_mem_dropLast (hp.right _ hd)) hp.first
    rw [List.dropLast_concat]
    exact hp.last_right

/-- Nodes are taken out of a ring. -/
theorem isRing_detach (h : IsRing k s (A ++ ((c :: M) ++ B))) (hnodup : (s :: (A ++ ((c :: M) ++ B))).Nodup) :
    IsRing (k.link (A.getLastD s) (B.headD s)) s (A ++ B) ∧
      Path (k.link (A.getLastD s) (B.headD s)) (c :: M) := by
  have hp := pieces hnodup
  obtain ⟨hA, -, hMB⟩ := isRing_cut.mp h
  rw [List.append_assoc] at hMB
  obtain ⟨hM, -, hB⟩ := path_cut.mp hMB
  refine ⟨isRing_cut.mpr ⟨path_link hA hp.last hp.first_left, linked_link, path_link hB ?_ hp.first⟩, ?_⟩
  · rw [List.dropLast_concat]
    exact hp.last_right
  · refine path_link hM (not_mem_dropLast fun hmem => hp.left _ hmem (getLastD_mem s A)) ?_
    exact not_mem_tail fun hmem => hp.right _ hmem (headD_mem s B)

/-- The nodes `Q` are closed to a ring through `s`. -/
def Links.close (k : Links P) (s : P) (Q : List P) : Links P := (k.link s (Q.headD s)).link (Q.getLastD s) s

theorem close_next (k : Links P) (s : P) (Q : List P) (p : P) :
    (k.close s Q).next p = if p = Q.getLastD s then s else if p = s then Q.headD s else k.next p := by
  change Function.update (Function.update k.next s (Q.headD s)) (Q.getLastD s) s p = _
  simp only [Function.update_apply]

theorem close_prev (k : Links P) (s : P) (Q : List P) (p : P) :
    (k.close s Q).prev p = if p = s then Q.getLastD s else if p = Q.headD s then s else k.prev p := by
  change Function.update (Function.update k.prev (Q.headD s) s) s (Q.getLastD s) p = _
  simp only [Function.update_apply]

variable {Q : List P}

/-- Closing a ring forgets where its own node pointed to. -/
theorem close_congr {k' : Links P} {r : P} {R : List P} (hnext : ∀ p, p ≠ s → p ≠ r → k'.next p = k.next p)
    (hprev : ∀ p, p ≠ s → p ≠ r → k'.prev p = k.prev p) :
    (k'.close s Q).close r R = (k.close s Q).close r R := by
  have hn : ((k'.close s Q).close r R).next = ((k.close s Q).close r R).next := by
    funext p
    simp only [close_next]
    by_cases hs : p = s
    · simp [hs]
    · by_cases hr : p = r
      · simp [hr]
      · rw [hnext p hs hr]
  have hp : ((k'.close s Q).close r R).prev = ((k.close s Q).close r R).prev := by
    funext p
    simp only [close_prev]
    by_cases hs : p = s
    · simp [hs]
    · by_cases hr : p = r
      · simp [hr]
      · rw [hprev p hs hr]
  exact congrArg₂ Links.mk hn hp

/-- A ring is closed already. -/
theorem IsRing.close_eq (h : IsRing k s ps) : k.close s ps = k := by
  have hlast := (isRing_cut.mp (show IsRing k s (ps ++ []) by rwa [List.append_nil])).2.1
  have hfirst := (isRing_cut (A := [])).mp h |>.2.1
  have hn : (k.close s ps).next = k.next := by
    funext p
    rw [close_next]
    split
    · next hp => exact hp ▸ hlast.1.symm
    · split
      · next hp => exact hp ▸ hfirst.1.symm
      · rfl
  have hp : (k.close s ps).prev = k.prev := by
    funext p
    rw [close_prev]
    split
    · next hp => exact hp ▸ hlast.2.symm
    · split
      · next hp => exact hp ▸ hfirst.2.symm
      · rfl
  exact congrArg₂ Links.mk hn hp

theorem isRing_close (h : Path k Q) (hnodup : (s :: Q).Nodup) : IsRing (k.close s Q) s Q := by
  cases Q with
  | nil => exact List.isChain_cons_cons.mpr ⟨linked_link, .singleton s⟩
  | cons c M =>
      have hring := isRing_attach (A := []) (B := []) (s := s) (.singleton s) (.singleton s) h (by simpa using hnodup)
      rw [List.nil_append, List.append_nil] at hring
      rw [Links.close, List.getLastD_cons]
      exact hring

theorem path_close (h : Path k l) (hl : ∀ x ∈ s :: Q, x ∉ l) : Path (k.close s Q) l := by
  have hs : s ∉ l := hl s List.mem_cons_self
  have hhead : Q.headD s ∉ l := by
    refine hl _ ?_
    cases Q with
    | nil => exact List.mem_cons_self
    | cons c M => exact List.mem_cons_of_mem _ List.mem_cons_self
  refine path_link (path_link h (not_mem_dropLast hs) (not_mem_tail hhead)) ?_ (not_mem_tail hs)
  exact not_mem_dropLast (hl _ (getLastD_mem s Q))

section
variable {ι : Type} [DecidableEq ι] {s : ι → P} {R : ι → List P} {i j : ι}

/-- Two rings exchange their nodes. -/
theorem Rings.swap (h : Rings k s R) (hij : i ≠ j) :
    Rings ((k.close (s i) (R j)).close (s j) (R i)) s (R ∘ Equiv.swap i j) := by
  refine ⟨fun m => ?_, fun m => h.separate_nodup m _, fun m m' hm => h.separate hm ((Equiv.swap i j).injective.ne hm)⟩
  by_cases hi : m = i
  · subst hi
    rw [Function.comp_apply, Equiv.swap_apply_left]
    refine path_close (isRing_close (isRing_path (h.ring j)) (h.separate_nodup m j)) ?_
    exact ring_nodes (h.separate (Ne.symm hij) hij)
  · by_cases hj : m = j
    · subst hj
      rw [Function.comp_apply, Equiv.swap_apply_right]
      refine isRing_close (path_close (isRing_path (h.ring i)) fun x hx hx' => ?_) (h.separate_nodup m i)
      exact h.separate hij (Ne.symm hij) x hx (List.mem_cons_of_mem _ hx')
    · rw [Function.comp_apply, Equiv.swap_apply_of_ne_of_ne hi hj]
      refine path_close (path_close (h.ring m) (ring_nodes (h.separate (Ne.symm hi) (Ne.symm hj)))) ?_
      exact ring_nodes (h.separate (Ne.symm hj) (Ne.symm hi))

/-- Nodes that are in no ring are put into one. -/
theorem Rings.attach (h : Rings k s R) (hi : R i = A ++ B) (hM : Path k (c :: M)) (hnodup : (c :: M).Nodup)
    (hfresh : ∀ j, ∀ x ∈ c :: M, x ∉ s j :: R j) :
    Rings ((k.link (A.getLastD (s i)) c).link (M.getLastD c) (B.headD (s i))) s
      (Function.update R i (A ++ ((c :: M) ++ B))) := by
  have hring := h.ring i
  have hlast : A.getLastD (s i) ∈ s i :: R i := by
    rw [hi, ← List.cons_append]
    exact List.mem_append_left _ (getLastD_mem _ A)
  have hfirst : B.headD (s i) ∈ s i :: R i := by
    rw [hi]
    have hmem := headD_mem (s i) B
    simp only [List.mem_append, List.mem_cons, List.not_mem_nil, or_false] at hmem ⊢
    tauto
  have hall : (s i :: (A ++ ((c :: M) ++ B))).Nodup := by
    rw [nodup_pieces, ← hi, List.nodup_append]
    exact ⟨hnodup, h.nodup i, fun x hx y hy heq => hfresh i x hx (heq ▸ hy)⟩
  rw [hi] at hring
  obtain ⟨hA, -, hB⟩ := isRing_cut.mp hring
  refine h.replace (isRing_attach hA hB hM hall) (fun j hj => ?_) hall fun j hj x hx => ?_
  · have hring' := isRing_frame (h.ring j) (h.disjoint i j (Ne.symm hj) _ hlast) (hfresh j c List.mem_cons_self)
    exact isRing_frame hring' (hfresh j _ (getLastD_mem c M)) (h.disjoint i j (Ne.symm hj) _ hfirst)
  · rw [mem_pieces, ← hi] at hx
    cases hx with
    | inl hx => exact hfresh j x hx
    | inr hx => exact h.disjoint i j (Ne.symm hj) x hx

/-- Nodes are taken out of a ring; they still follow each other. -/
theorem Rings.detach (h : Rings k s R) (hi : R i = A ++ ((c :: M) ++ B)) :
    Rings (k.link (A.getLastD (s i)) (B.headD (s i))) s (Function.update R i (A ++ B)) ∧
      Path (k.link (A.getLastD (s i)) (B.headD (s i))) (c :: M) ∧
      ∀ j, ∀ x ∈ c :: M, x ∉ s j :: Function.update R i (A ++ B) j := by
  have hring := h.ring i
  have hnodup := h.nodup i
  rw [hi] at hring hnodup
  have hsub : ∀ x, x ∈ s i :: (A ++ B) → x ∈ s i :: R i := by
    intro x hx
    rw [hi]
    exact mem_pieces.mpr (Or.inr hx)
  have hlast : A.getLastD (s i) ∈ s i :: R i := by
    refine hsub _ ?_
    rw [← List.cons_append]
    exact List.mem_append_left _ (getLastD_mem _ A)
  have hfirst : B.headD (s i) ∈ s i :: R i := by
    refine hsub _ ?_
    have hmem := headD_mem (s i) B
    simp only [List.mem_append, List.mem_cons, List.not_mem_nil, or_false] at hmem ⊢
    tauto
  obtain ⟨hring', hM⟩ := isRing_detach hring hnodup
  have hparts := List.nodup_append.mp (nodup_pieces.mp hnodup)
  refine ⟨h.replace hring' (fun j hj => ?_) hparts.2.1 fun j hj x hx => ?_, hM, fun j x hx hx' => ?_⟩
  · exact isRing_frame (h.ring j) (h.disjoint i j (Ne.symm hj) _ hlast) (h.disjoint i j (Ne.symm hj) _ hfirst)
  · exact h.disjoint i j (Ne.symm hj) x (hsub x hx)
  by_cases hj : j = i
  · subst hj
    rw [Function.update_self] at hx'
    exact hparts.2.2 x hx x hx' rfl
  · rw [Function.update_of_ne hj] at hx'
    refine h.disjoint i j (Ne.symm hj) x ?_ hx'
    rw [hi]
    exact mem_pieces.mpr (Or.inl hx)

end

end IdaSdk.Circular
