import IdaSdk.BackwardFlowModel
import Mathlib.Data.List.Pairwise

/-!
Visited and waiting blocks. Visited blocks are disjoint, so that an address is in one of them if and only if
`find_visited` says so.
-/

namespace IdaSdk.BackwardFlow

section
variable (img : image_t)

variable (y x : Nat)

/-- There is a jump from `y` to `x` that is counted. -/
def Jumps : Prop :=
  img.is_func x = false ∧ ∃ type, (y, type) ∈ img.xrefs_to x ∧ (type = .fl_JF ∨ type = .fl_JN)

def Falls : Prop := img.is_flow x = true ∧ img.prev_not_tail x = some y

def Edge : Prop := Falls img y x ∨ Jumps img y x

def Covered (visited : Table Nat Nat) (x : Nat) : Prop := ∃ s e, visited.find s = some e ∧ s ≤ x ∧ x ≤ e

/-- Visited blocks are disjoint. All of their items are inside the bounds, apart from a first one. -/
structure Blocks (visited : Table Nat Nat) : Prop where
  le : ∀ s e, visited.find s = some e → s ≤ e
  heads : ∀ s e, visited.find s = some e → s ∈ img.heads ∧ e ∈ img.heads
  inside : ∀ s e, visited.find s = some e → ∀ x ∈ img.heads, s < x → x ≤ e → img.contains x = true
  outside : ∀ s e, visited.find s = some e → img.contains s = false → s < e
  disjoint : ∀ s e s' e', visited.find s = some e → visited.find s' = some e' → s ≠ s' → e < s' ∨ e' < s

end

section
variable {State : Type} {img : image_t} {ctrl : ctrl_t State} {it it' : iterator_t State} {visited : Table Nat Nat}
  {x y p s e ea : Nat}

theorem prev_not_tail_some (h : img.prev_not_tail x = some p) :
    p ∈ img.heads ∧ p < x ∧ ∀ y ∈ img.heads, y < x → y ≤ p := by
  have hmem := List.mem_filter.1 (List.mem_of_getLast? h)
  refine ⟨hmem.1, of_decide_eq_true hmem.2, fun y hy hlt => ?_⟩
  obtain ⟨before, hbefore⟩ := List.getLast?_eq_some_iff.1 h
  have hsorted := img.sorted.filter (fun y => decide (y < x))
  have hy' : y ∈ img.heads.filter (fun y => decide (y < x)) := List.mem_filter.2 ⟨hy, decide_eq_true hlt⟩
  rw [hbefore] at hsorted hy'
  obtain hy' | hy' := List.mem_append.1 hy'
  · exact ((List.pairwise_append.1 hsorted).2.2 y hy' p (List.mem_singleton.2 rfl)).le
  · exact (List.mem_singleton.1 hy').le

theorem Jumps.mem (h : Jumps img y x) : y ∈ img.heads := by
  obtain ⟨-, type, hmem, -⟩ := h
  exact img.sources x _ hmem

theorem Edge.mem (h : Edge img y x) : y ∈ img.heads := by
  obtain ⟨-, hprev⟩ | hjump := h
  · exact (prev_not_tail_some hprev).1
  · exact hjump.mem

theorem find_visited_some (h : it.find_visited ea = some (s, e)) : it.visited.find s = some e ∧ s ≤ ea ∧ ea ≤ e := by
  obtain ⟨hprev, hle⟩ := Option.filter_eq_some_iff.1 h
  obtain ⟨hfind, hlt⟩ := Table.mem_previous hprev
  exact ⟨hfind, Nat.le_of_lt_succ hlt, of_decide_eq_true hle⟩

theorem find_visited_none (hblocks : Blocks img it.visited) : it.find_visited ea = none ↔ ¬Covered it.visited ea := by
  constructor
  · rintro hnone ⟨s, e, hfind, hse, hle⟩
    rw [iterator_t.find_visited, Option.filter_eq_none_iff] at hnone
    cases hprev : it.visited.previous (ea + 1) with
    | none =>
        have hlt := Table.previous_eq_none hprev hfind
        omega
    | some v =>
        obtain ⟨hv, hlt⟩ := Table.mem_previous hprev
        have hsv := Table.le_previous hprev hfind (Nat.lt_succ_of_le hse)
        by_cases hne : s = v.1
        · rw [hne, hv] at hfind
          obtain rfl := Option.some.inj hfind
          exact hnone v hprev (decide_eq_true hle)
        · have hv' := hblocks.le _ _ hv
          obtain hdis | hdis := hblocks.disjoint _ _ _ _ hfind hv hne
          · omega
          · omega
  · intro hnot
    cases hfind : it.find_visited ea with
    | none => rfl
    | some v =>
        obtain ⟨hv, hle, hle'⟩ := find_visited_some hfind
        exact (hnot ⟨v.1, v.2, hv, hle, hle'⟩).elim

/-! ### Waiting blocks -/

theorem wait_find (k : Nat) :
    ((it.wait ctrl ea).waiting.find k).isSome = true ↔ (it.waiting.find k).isSome = true ∨ k = ea := by
  rw [show (it.wait ctrl ea).waiting = it.waiting.access ea _ _ from rfl, Table.find_access]
  split_ifs with hk
  · exact iff_of_true rfl (Or.inr hk)
  · exact ⟨Or.inl, fun h => h.resolve_right hk⟩

/-- The jumps from addresses that have not been visited wait. -/
theorem scan_jumps_spec (hnear : it.only_near = false) (hslot : ∀ ea branch, ctrl.process_delay_slot ea branch = ea)
    (xbs : List (Nat × cref_t)) (refcnt : Nat) : ∃ n waiting, scan_jumps img ctrl xbs refcnt it =
      (false, n, { it with waiting := waiting }) ∧ ∀ k, (waiting.find k).isSome = true ↔
        (it.waiting.find k).isSome = true ∨
        ((∃ type, (k, type) ∈ xbs ∧ (type = .fl_JF ∨ type = .fl_JN)) ∧ it.find_visited k = none) := by
  induction xbs generalizing it refcnt with
  | nil =>
      refine ⟨refcnt, it.waiting, rfl, fun k => ⟨Or.inl, fun h => h.resolve_right ?_⟩⟩
      rintro ⟨⟨_, hmem, _⟩, _⟩
      exact List.not_mem_nil hmem
  | cons xb xbs ih =>
      rw [scan_jumps]
      by_cases htype : xb.2 ≠ .fl_JF ∧ xb.2 ≠ .fl_JN
      · rw [if_pos htype]
        obtain ⟨n, waiting, heq, hfind⟩ := ih hnear refcnt
        refine ⟨n, waiting, heq, fun k => (hfind k).trans (or_congr_right (and_congr_left fun _ => ?_))⟩
        refine exists_congr fun type => and_congr_left fun hjump => ⟨List.mem_cons_of_mem xb, fun hmem => ?_⟩
        obtain rfl | hmem := List.mem_cons.1 hmem
        · exact (hjump.elim htype.1 htype.2).elim
        · exact hmem
      · have hjump : xb.2 = .fl_JF ∨ xb.2 = .fl_JN := by
          rw [not_and_or, not_not, not_not] at htype
          exact htype
        have hlinear : ¬(it.only_near && (refcnt > 0 || img.is_jump xb.1)) = true := by
          rw [hnear, Bool.false_and]
          exact Bool.false_ne_true
        rw [if_neg htype, if_neg hlinear, hslot]
        dsimp only
        have hcons (k : Nat) : (∃ type, (k, type) ∈ xb :: xbs ∧ (type = .fl_JF ∨ type = .fl_JN)) ↔
            k = xb.1 ∨ ∃ type, (k, type) ∈ xbs ∧ (type = .fl_JF ∨ type = .fl_JN) := by
          constructor
          · rintro ⟨type, hmem, htype⟩
            obtain rfl | hmem := List.mem_cons.1 hmem
            · exact Or.inl rfl
            · exact Or.inr ⟨type, hmem, htype⟩
          · rintro (rfl | ⟨type, hmem, htype⟩)
            · exact ⟨xb.2, List.mem_cons_self, hjump⟩
            · exact ⟨type, List.mem_cons_of_mem xb hmem, htype⟩
        by_cases hvisited : (it.find_visited xb.1).isSome = true
        · rw [if_pos hvisited]
          obtain ⟨n, waiting, heq, hfind⟩ := ih hnear (refcnt + 1)
          refine ⟨n, waiting, heq, fun k => (hfind k).trans (or_congr_right ?_)⟩
          rw [hcons]
          refine and_congr_left fun hnone => ⟨Or.inr, fun h => h.resolve_left ?_⟩
          rintro rfl
          rw [hnone] at hvisited
          exact Bool.false_ne_true hvisited
        · rw [if_neg hvisited]
          have hnone : it.find_visited xb.1 = none := by
            rwa [Bool.not_eq_true, Option.isSome_eq_false_iff, Option.isNone_iff_eq_none] at hvisited
          obtain ⟨n, waiting, heq, hfind⟩ := @ih (it.wait ctrl xb.1) hnear (refcnt + 1)
          refine ⟨n, waiting, heq, fun k => (hfind k).trans ?_⟩
          rw [wait_find, hcons, show (it.wait ctrl xb.1).find_visited k = it.find_visited k from rfl]
          constructor
          · rintro ((hwait | rfl) | ⟨hjump, hk⟩)
            · exact Or.inl hwait
            · exact Or.inr ⟨Or.inl rfl, hnone⟩
            · exact Or.inr ⟨Or.inr hjump, hk⟩
          · rintro (hwait | ⟨rfl | hjump, hk⟩)
            · exact Or.inl (Or.inl hwait)
            · exact Or.inl (Or.inr rfl)
            · exact Or.inr ⟨hjump, hk⟩

theorem scan_spec (hnear : it.only_near = false) (hslot : ∀ ea branch, ctrl.process_delay_slot ea branch = ea) :
    ∃ n waiting, scan img ctrl it = (false, n, { it with waiting := waiting }) ∧
      ∀ k, (waiting.find k).isSome = true ↔
        (it.waiting.find k).isSome = true ∨ (Jumps img k it.cur_ea ∧ it.find_visited k = none) := by
  rw [scan]
  by_cases hjumps : (img.has_xref it.cur_ea && !img.is_func it.cur_ea) = true
  · rw [if_pos hjumps]
    rw [Bool.and_eq_true, Bool.not_eq_true'] at hjumps
    obtain ⟨n, waiting, heq, hfind⟩ := @scan_jumps_spec State img ctrl it hnear hslot (img.xrefs_to it.cur_ea)
      (if img.is_flow it.cur_ea then 1 else 0)
    refine ⟨n, waiting, heq, fun k => (hfind k).trans (or_congr_right (and_congr_left fun _ => ?_))⟩
    exact ⟨fun h => ⟨hjumps.2, h⟩, fun h => h.2⟩
  · rw [if_neg hjumps]
    refine ⟨_, it.waiting, rfl, fun k => ⟨Or.inl, fun h => h.resolve_right ?_⟩⟩
    rintro ⟨⟨hfunc, type, hmem, -⟩, -⟩
    refine hjumps ?_
    rw [image_t.has_xref, hfunc, Bool.not_false, Bool.and_true, Bool.not_eq_true']
    cases hxrefs : img.xrefs_to it.cur_ea with
    | nil =>
        rw [hxrefs] at hmem
        exact absurd hmem List.not_mem_nil
    | cons => rfl

theorem next_waiting_some {w : Nat × state_t State} (h : next_waiting it = some w) :
    it.waiting.find w.1 = some w.2 := by
  obtain hprev | ⟨-, hhead⟩ := Option.or_eq_some_iff.1 h
  · exact (Table.mem_previous hprev).1
  · exact Table.find_of_mem (List.mem_of_head? hhead)

theorem next_waiting_none (h : next_waiting it = none) : it.waiting.entries = [] :=
  List.head?_eq_none_iff.1 (Option.or_eq_none_iff.1 h).2

theorem length_erase {w : state_t State} {k : Nat} (h : it.waiting.find k = some w) :
    (it.waiting.erase k).entries.length < it.waiting.entries.length := by
  rw [Table.entries_erase]
  refine List.length_filter_lt_length_iff_exists.2 ⟨(k, w), Table.find_eq_some.1 h, ?_⟩
  exact fun hne => of_decide_eq_true hne rfl

variable (img) in
/-- What is left of the waiting blocks when one of them has been taken, or none. -/
inductive Taken (it : iterator_t State) : cref_t → iterator_t State → Prop
  | none {it' : iterator_t State} : it'.visited = it.visited →
      (∀ k, (it.waiting.find k).isSome = true → img.contains k = false) → Taken it .fl_U it'
  | block {it' : iterator_t State} {w : state_t State} : it' = { it with
      cur_ea := it'.cur_ea, cur_end := .none, regs := w.regs, insn_cnt := w.insn_cnt, waiting := it'.waiting } →
      it.waiting.find it'.cur_ea = some w → img.contains it'.cur_ea = true → it'.waiting.find it'.cur_ea = .none →
      it'.waiting.entries.length < it.waiting.entries.length →
      (∀ k, (it'.waiting.find k).isSome = true → (it.waiting.find k).isSome = true) →
      (∀ k, (it.waiting.find k).isSome = true → k = it'.cur_ea ∨ (it'.waiting.find k).isSome = true ∨
        img.contains k = false) →
      Taken it .fl_JF it'

theorem get_waiting_taken (n : Nat) (hn : it.waiting.entries.length ≤ n) :
    Taken img it (get_waiting img n it).1 (get_waiting img n it).2 := by
  induction n generalizing it with
  | zero =>
      refine .none rfl fun k hk => ?_
      obtain ⟨w, hw⟩ := Option.isSome_iff_exists.1 hk
      have hmem := Table.find_eq_some.1 hw
      rw [List.length_eq_zero_iff.1 (Nat.le_zero.1 hn)] at hmem
      exact absurd hmem List.not_mem_nil
  | succ n ih =>
      rw [get_waiting]
      cases hnext : next_waiting it with
      | none =>
          refine .none rfl fun k hk => ?_
          obtain ⟨w, hw⟩ := Option.isSome_iff_exists.1 hk
          have hmem := Table.find_eq_some.1 hw
          rw [next_waiting_none hnext] at hmem
          exact absurd hmem List.not_mem_nil
      | some w =>
          have hw := next_waiting_some hnext
          have hlen := length_erase hw
          have herase (k : Nat) : ((it.waiting.erase w.1).find k).isSome = true ↔
              (it.waiting.find k).isSome = true ∧ k ≠ w.1 := by
            rw [Table.find_erase]
            split_ifs with hk
            · exact iff_of_false Bool.false_ne_true fun h => h.2 hk
            · exact ⟨fun h => ⟨h, hk⟩, fun h => h.1⟩
          dsimp only
          by_cases hinside : img.contains w.1 = true
          · rw [if_pos hinside]
            refine .block rfl hw hinside ?_ hlen (fun k hk => ((herase k).1 hk).1) fun k hk => ?_
            · rw [Table.find_erase, if_pos rfl]
            · by_cases hkw : k = w.1
              · exact Or.inl hkw
              · exact Or.inr (Or.inl ((herase k).2 ⟨hk, hkw⟩))
          · rw [if_neg hinside]
            have hout : img.contains w.1 = false := Bool.eq_false_iff.2 hinside
            have htaken := @ih { it with cur_ea := w.1, waiting := it.waiting.erase w.1 } (by
              have hle : (it.waiting.erase w.1).entries.length ≤ n := by omega
              exact hle)
            generalize get_waiting img n { it with cur_ea := w.1, waiting := it.waiting.erase w.1 } = ret at htaken ⊢
            obtain ⟨ret, it'⟩ := ret
            dsimp only at htaken ⊢
            cases htaken with
            | none hvisited hall =>
                refine .none hvisited fun k hk => ?_
                by_cases hkw : k = w.1
                · exact hkw ▸ hout
                · exact hall k ((herase k).2 ⟨hk, hkw⟩)
            | @block _ v heq hv hin hgone hlt hsub hall =>
                refine .block (w := v) heq ?_ hin hgone (hlt.trans hlen) (fun k hk => ((herase k).1 (hsub k hk)).1)
                  fun k hk => ?_
                · have hv' : (it.waiting.erase w.1).find it'.cur_ea = some v := hv
                  rw [Table.find_erase] at hv'
                  split_ifs at hv'
                  exact hv'
                · by_cases hkw : k = w.1
                  · exact Or.inr (Or.inr (hkw ▸ hout))
                  · exact hall k ((herase k).2 ⟨hk, hkw⟩)

end

end IdaSdk.BackwardFlow
