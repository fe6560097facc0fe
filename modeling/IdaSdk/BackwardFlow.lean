import IdaSdk.BackwardFlowCalls
import Mathlib.Data.Finset.Card
import Mathlib.Data.List.Range
import Mathlib.Logic.Relation

/-!
The whole iteration. It ends, and every instruction of the function that the start can be reached from is presented
exactly once before it is visited.
-/

namespace IdaSdk.BackwardFlow
open Relation

section
variable {State : Type} (img : image_t) (ctrl : ctrl_t State)

/-- The waiting blocks that have been discovered when a call looks for the previous instruction. -/
def discovered (it : iterator_t State) : Table Nat (state_t State) :=
  match it.find_visited it.cur_ea with
  | some _ => it.waiting
  | none => (scan img ctrl it).2.2.waiting

/-- A state and that of a waiting block, if there is one. -/
def combined (regs : State) (w : Option (state_t State)) (ea : Nat) : State :=
  match w with
  | some w => ctrl.combine_regs regs w.regs ea
  | none => regs

/-- The state that is presented is combined with that of the waiting block that ends there, which is none afterwards. -/
structure Presented (it it' : iterator_t State) : Prop where
  left : it'.waiting.find it'.cur_ea = none
  regs : (Falls img it'.cur_ea it.cur_ea ∧
      it'.regs = combined ctrl it.regs ((discovered img ctrl it).find it'.cur_ea) it'.cur_ea) ∨
    ∃ w, (discovered img ctrl it).find it'.cur_ea = some w ∧ it'.regs = w.regs

/-- Nothing waits any more. -/
structure Finished (it : iterator_t State) : Prop where
  blocks : Blocks img it.visited
  closed : ∀ x ∈ img.heads, img.contains x = true → Covered it.visited x → ∀ y, Edge img y x → img.contains y = true →
    Covered it.visited y

/-- The current instruction is in no visited block. -/
def is_new (it : iterator_t State) : Bool := (it.find_visited it.cur_ea).isNone

def news (its : List (iterator_t State)) : List Nat := (its.filter is_new).map iterator_t.cur_ea

/-- The instructions that have been presented when they were new. -/
structure Progress (start : Nat) (it : iterator_t State) (fresh : List Nat) : Prop where
  walked : ∀ x ∈ img.heads, img.contains x = true → Walked it x → x = start ∨ x ∈ fresh
  only : ∀ x ∈ fresh, Walked it x ∨ x = it.cur_ea
  cur : it.cur_ea = start ∨ it.cur_ea ∈ fresh ∨ Covered it.visited it.cur_ea
  nodup : (start :: fresh).Nodup
  start : Walked it start ∨ start = it.cur_ea

end

section
variable {State : Type} {img : image_t} {ctrl : ctrl_t State} {it it' last : iterator_t State} {x y start n : Nat}
  {fresh : List Nat} {its : List (iterator_t State)} {ret : cref_t}

/-! ### Calls -/

theorem Ended.taken (h : Ended img it) (htaken : Taken img it ret it') :
    (ret = .fl_U ∧ Finished img it' ∧ it'.visited = it.visited) ∨ (ret = .fl_JF ∧ Iterating img it' ∧
      (∀ x, Walked it' x ↔ Covered it.visited x) ∧ it'.waiting.entries.length < it.waiting.entries.length ∧
      it'.waiting.find it'.cur_ea = none ∧ ∃ w, it.waiting.find it'.cur_ea = some w ∧ it'.regs = w.regs) := by
  cases htaken with
  | none hvisited hall =>
      refine Or.inl ⟨rfl, ⟨hvisited.symm ▸ h.blocks, fun x hx hin hw y hedge hiny => ?_⟩, hvisited⟩
      rw [hvisited] at hw ⊢
      refine (h.closed x hx hin hw y hedge hiny).resolve_right fun hy => ?_
      exact Bool.false_ne_true ((hall y hy).symm.trans hiny)
  | @block _ w heq hw hin hgone hlen hsub hall =>
      have hvisited : it'.visited = it.visited := by rw [heq]
      have hend : it'.cur_end = none := by rw [heq]
      have hnear : it'.only_near = it.only_near := by rw [heq]
      have hmax : it'.max_insn_cnt = it.max_insn_cnt := by rw [heq]
      have hregs : it'.regs = w.regs := by rw [heq]
      have hwalked (x : Nat) : Walked it' x ↔ Covered it.visited x := by
        rw [Walked, hvisited, hend]
        exact ⟨fun h => h.resolve_right fun ⟨_, he, _⟩ => (nomatch he), Or.inl⟩
      refine Or.inr ⟨rfl, ⟨hnear.trans h.near, hmax.trans h.max, hvisited.symm ▸ h.blocks,
        h.waiting _ (by rw [hw]; rfl), hin,
        fun e he => (nomatch hend.symm.trans he), fun k hk => h.waiting k (hsub k hk),
        fun x hx hinx hx' y hedge hiny => ?_⟩,
        hwalked, hlen, hgone, w, hw, hregs⟩
      rw [hwalked] at hx' ⊢
      obtain hy | hy := h.closed x hx hinx hx' y hedge hiny
      · exact Or.inl hy
      · obtain hk | hk | hk := hall y hy
        · exact Or.inr (Or.inl hk)
        · exact Or.inr (Or.inr hk)
        · exact (Bool.false_ne_true (hk.symm.trans hiny)).elim

theorem next_block_taken (refcnt : Nat) (it : iterator_t State) :
    ((next_block img refcnt it).1 = .fl_U ∧ Taken img it .fl_U (next_block img refcnt it).2) ∨
      ((next_block img refcnt it).1 ≠ .fl_U ∧ Taken img it .fl_JF (next_block img refcnt it).2) := by
  have htaken := @get_waiting_taken State img it it.waiting.entries.length (Nat.le_refl _)
  rw [next_block]
  generalize get_waiting img it.waiting.entries.length it = got at htaken ⊢
  obtain ⟨ret, it'⟩ := got
  dsimp only at htaken ⊢
  cases htaken with
  | none hvisited hall => exact Or.inl ⟨if_neg fun h => (nomatch h.1), .none hvisited hall⟩
  | block heq hw hin hgone hlen hsub hall =>
      refine Or.inr ⟨?_, .block heq hw hin hgone hlen hsub hall⟩
      split_ifs
      · exact fun h => nomatch h
      · exact fun h => nomatch h

theorem next_block_spec (h : Ended img it) (refcnt : Nat) :
    ((next_block img refcnt it).1 = .fl_U ∧ Finished img (next_block img refcnt it).2 ∧
        (next_block img refcnt it).2.visited = it.visited) ∨
      ((next_block img refcnt it).1 ≠ .fl_U ∧ Iterating img (next_block img refcnt it).2 ∧
        (∀ x, Walked (next_block img refcnt it).2 x ↔ Covered it.visited x) ∧
        (next_block img refcnt it).2.waiting.entries.length < it.waiting.entries.length ∧
        (next_block img refcnt it).2.waiting.find (next_block img refcnt it).2.cur_ea = none ∧
        ∃ w, it.waiting.find (next_block img refcnt it).2.cur_ea = some w ∧
          (next_block img refcnt it).2.regs = w.regs) := by
  obtain ⟨hret, htaken⟩ | ⟨hret, htaken⟩ := @next_block_taken State img refcnt it
  · obtain ⟨-, hfin⟩ | ⟨hno, -⟩ := h.taken htaken
    · exact Or.inl ⟨hret, hfin⟩
    · cases hno
  · obtain ⟨hno, -⟩ | ⟨-, hit⟩ := h.taken htaken
    · cases hno
    · exact Or.inr ⟨hret, hit⟩

theorem reach_spec (hslot : ∀ ea branch, ctrl.process_delay_slot ea branch = ea) (it : iterator_t State) :
    ∃ cnt waiting, reach ctrl it = { it with
        regs := combined ctrl it.regs (it.waiting.find it.cur_ea) it.cur_ea, insn_cnt := cnt, waiting := waiting } ∧
      waiting.find it.cur_ea = none ∧
      ∀ k, (waiting.find k).isSome = true ↔ (it.waiting.find k).isSome = true ∧ k ≠ it.cur_ea := by
  rw [reach]
  cases hfind : it.waiting.find it.cur_ea with
  | none =>
      refine ⟨it.insn_cnt, it.waiting, ?_, hfind, fun k => ⟨fun hk => ⟨hk, ?_⟩, fun hk => hk.1⟩⟩
      · dsimp only
        rw [hslot]
        rfl
      · rintro rfl
        rw [hfind] at hk
        exact Bool.false_ne_true hk
  | some w =>
      refine ⟨_, it.waiting.erase it.cur_ea, rfl, ?_, fun k => ?_⟩
      · rw [Table.find_erase, if_pos rfl]
      · rw [Table.find_erase]
        split_ifs with hk
        · exact iff_of_false Bool.false_ne_true fun h => h.2 hk
        · exact ⟨fun h => ⟨h, hk⟩, fun h => h.1⟩

theorem flow_falls {p : Nat} (hmax : it.max_insn_cnt = 0) (hfalls : Falls img p it.cur_ea)
    (hin : img.contains p = true) :
    flow img ctrl it = (true, reach ctrl { it with cur_ea := p, insn_cnt := it.insn_cnt + 1 }) := by
  have hlimit : (img.contains p && (it.max_insn_cnt = 0 || it.insn_cnt < it.max_insn_cnt)) = true := by
    rw [hin, hmax]
    rfl
  rw [flow, if_pos hfalls.1, hfalls.2]
  exact if_pos hlimit

theorem flow_stop (hstop : ∀ p, Falls img p it.cur_ea → img.contains p = false) :
    ∃ c, (c = it.cur_ea ∨ Falls img c it.cur_ea) ∧ flow img ctrl it = (false, { it with cur_ea := c }) := by
  rw [flow]
  by_cases hflow : img.is_flow it.cur_ea = true
  · rw [if_pos hflow]
    cases hprev : img.prev_not_tail it.cur_ea with
    | none => exact ⟨it.cur_ea, Or.inl rfl, rfl⟩
    | some p =>
        have hfalls : Falls img p it.cur_ea := ⟨hflow, hprev⟩
        refine ⟨p, Or.inr hfalls, ?_⟩
        dsimp only
        rw [hstop p hfalls, Bool.false_and, if_neg Bool.false_ne_true]
  · rw [if_neg hflow]
    exact ⟨it.cur_ea, Or.inl rfl, rfl⟩

variable (img ctrl) in
/-- What a call does: the iteration ends, or the state of another instruction is presented. -/
inductive Called (it : iterator_t State) : cref_t × iterator_t State → Prop
  | last {it' : iterator_t State} : Finished img it' → Walks img it (Covered it'.visited) → Called it (.fl_U, it')
  | next {ret : cref_t} {it' : iterator_t State} : ret ≠ .fl_U → Iterating img it' → Walks img it (Walked it') →
      Presented img ctrl it it' →
      (it.find_visited it.cur_ea = none ∨ it'.waiting.entries.length < it.waiting.entries.length) → Called it (ret, it')

theorem Walks.congr {walked walked' : Nat → Prop} (h : Walks img it walked) (hiff : ∀ x, walked' x ↔ walked x) :
    Walks img it walked' where
  old x hx := (hiff x).2 (h.old x hx)
  new x hx hin hw := h.new x hx hin ((hiff x).1 hw)

theorem called_next_block (hended : Ended img it') (hwalks : Walks img it (Covered it'.visited))
    (hwaiting : discovered img ctrl it = it'.waiting)
    (hless : it.find_visited it.cur_ea = none ∨ it'.waiting.entries.length = it.waiting.entries.length) (refcnt : Nat) :
    Called img ctrl it (next_block img refcnt it') := by
  have hspec := next_block_spec hended refcnt
  generalize next_block img refcnt it' = ret at hspec ⊢
  obtain ⟨ret, next⟩ := ret
  dsimp only at hspec
  obtain ⟨rfl, hfin, hvisited⟩ | ⟨hret, hit, hwalked, hlen, hleft, hw⟩ := hspec
  · exact .last hfin (hvisited.symm ▸ hwalks)
  · refine .next hret hit (hwalks.congr hwalked) ⟨hleft, Or.inr (hwaiting ▸ hw)⟩ ?_
    exact hless.imp_right fun heq => hlen.trans_eq heq

theorem called_falls {p : Nat} {waiting : Table Nat (state_t State)} (h : Iterating img it)
    (hnone : it.find_visited it.cur_ea = none) (hscan : Scanned img it waiting) (hfalls : Falls img p it.cur_ea)
    (hin : img.contains p = true) (hcur : it'.cur_ea = p) (hend : it'.cur_end = some (it.cur_end.getD it.cur_ea))
    (hvisited : it'.visited = it.visited) (hnear : it'.only_near = it.only_near)
    (hmax : it'.max_insn_cnt = it.max_insn_cnt)
    (hwaiting : ∀ k, (it'.waiting.find k).isSome = true ↔ (waiting.find k).isSome = true ∧ k ≠ p)
    (hpresented : Presented img ctrl it it') : Called img ctrl it (.fl_F, it') := by
  obtain ⟨hit, hwalks⟩ := h.falls hnone hscan hfalls hin hcur hend hvisited hnear hmax hwaiting
  exact .next (fun h => nomatch h) hit hwalks hpresented (Or.inl hnone)

theorem Iterating.call (h : Iterating img it) (hslot : ∀ ea branch, ctrl.process_delay_slot ea branch = ea) :
    Called img ctrl it (prev_insn img ctrl it) := by
  rw [prev_insn]
  cases hfind : it.find_visited it.cur_ea with
  | some block =>
      obtain ⟨s, e⟩ := block
      obtain ⟨hended, hwalks⟩ := h.extends hfind
      have hwaiting : (extend_block s it).waiting = it.waiting := by
        rw [extend_block]
        cases it.cur_end <;> rfl
      refine called_next_block hended hwalks ?_ (Or.inr (by rw [hwaiting])) 0
      rw [discovered, hfind, hwaiting]
  | none =>
      obtain ⟨refcnt, waiting, hscan, hscanned⟩ := @scan_spec State img ctrl it h.near hslot
      have hdiscovered : discovered img ctrl it = waiting := by rw [discovered, hfind, hscan]
      dsimp only
      rw [hscan, if_neg Bool.false_ne_true]
      dsimp only
      by_cases hfalls : ∃ p, Falls img p it.cur_ea ∧ img.contains p = true
      · obtain ⟨p, hfalls, hin⟩ := hfalls
        have hflow := @flow_falls State img ctrl
          { it with waiting := waiting, cur_end := some (it.cur_end.getD it.cur_ea) } p h.max hfalls hin
        rw [hflow, if_pos rfl]
        obtain ⟨cnt, waiting', hreach, hleft, hwaiting⟩ := reach_spec hslot { it with
          cur_ea := p, insn_cnt := it.insn_cnt + 1, waiting := waiting, cur_end := some (it.cur_end.getD it.cur_ea) }
        dsimp only at hreach hleft hwaiting ⊢
        rw [hreach]
        refine called_falls h hfind hscanned hfalls hin rfl rfl rfl rfl rfl hwaiting ⟨hleft, Or.inl ⟨hfalls, ?_⟩⟩
        rw [hdiscovered]
      · have hstop (p : Nat) (hp : Falls img p it.cur_ea) : img.contains p = false :=
          Bool.eq_false_iff.2 fun hin => hfalls ⟨p, hp, hin⟩
        obtain ⟨c, hc, hflow⟩ := @flow_stop State img ctrl
          { it with waiting := waiting, cur_end := some (it.cur_end.getD it.cur_ea) } hstop
        rw [hflow, if_neg Bool.false_ne_true]
        obtain ⟨hended, hwalks⟩ := @Iterating.saves State img it (save_block { it with
          cur_ea := c, waiting := waiting, cur_end := some (it.cur_end.getD it.cur_ea) })
          c waiting h hfind hscanned hstop hc
          rfl rfl rfl rfl
        exact called_next_block hended hwalks hdiscovered (Or.inl hfind) refcnt

variable (img) in
open Classical in
/-- How many instructions have not been walked over. -/
noncomputable def unwalked (it : iterator_t State) : Nat := {x ∈ img.heads.toFinset | ¬Walked it x}.card

theorem Iterating.not_walked_cur (hnone : it.find_visited it.cur_ea = none) (h : Iterating img it) :
    ¬Walked it it.cur_ea := by
  rintro (hcovered | ⟨e, -, hlt, -⟩)
  · exact (find_visited_none h.blocks).1 hnone hcovered
  · exact Nat.lt_irrefl _ hlt

theorem Walks.unwalked_le (h : Walks img it (Walked it')) : unwalked img it' ≤ unwalked img it := by
  classical
  refine Finset.card_le_card fun x hx => ?_
  rw [Finset.mem_filter] at hx ⊢
  exact ⟨hx.1, fun hw => hx.2 (h.old x (Or.inl hw))⟩

theorem Walks.unwalked_lt (h : Walks img it (Walked it')) (hit : Iterating img it)
    (hnone : it.find_visited it.cur_ea = none) : unwalked img it' < unwalked img it := by
  classical
  refine Finset.card_lt_card ((Finset.ssubset_iff_of_subset fun x hx => ?_).2 ⟨it.cur_ea, ?_, fun hx => ?_⟩)
  · rw [Finset.mem_filter] at hx ⊢
    exact ⟨hx.1, fun hw => hx.2 (h.old x (Or.inl hw))⟩
  · exact Finset.mem_filter.2 ⟨List.mem_toFinset.2 hit.cur, hit.not_walked_cur hnone⟩
  · exact (Finset.mem_filter.1 hx).2 (h.old _ (Or.inr rfl))

theorem run_ends (hslot : ∀ ea branch, ctrl.process_delay_slot ea branch = ea) (h : Iterating img it) :
    ∃ n out, run img ctrl n it = some out := by
  induction hu : unwalked img it using Nat.strong_induction_on generalizing it with
  | _ u ihu =>
      induction hw : it.waiting.entries.length using Nat.strong_induction_on generalizing it with
      | _ w ihw =>
          have hcall := h.call hslot
          generalize hret : prev_insn img ctrl it = ret at hcall
          cases hcall with
          | @last it' hfin _ =>
              refine ⟨1, ([], it'), ?_⟩
              rw [run, hret, if_pos rfl]
          | @next ret it' hne hit hwalks _ hless =>
              have hrest : ∃ n out, run img ctrl n it' = some out := by
                obtain hlt | heq := Nat.lt_or_eq_of_le hwalks.unwalked_le
                · exact ihu _ (hu ▸ hlt) hit rfl
                · obtain hnone | hlen := hless
                  · exact absurd heq (hwalks.unwalked_lt h hnone).ne
                  · exact ihw _ (hw ▸ hlen) hit (heq.trans hu) rfl
              obtain ⟨n, out, hrun⟩ := hrest
              refine ⟨n + 1, (it' :: out.1, out.2), ?_⟩
              rw [run, hret, if_neg hne, hrun]
              rfl

theorem news_cons : news (it :: its) = (if is_new it then [it.cur_ea] else []) ++ news its := by
  rw [news, List.filter_cons]
  split_ifs
  · rfl
  · rfl

theorem is_new_iff (h : Iterating img it) : is_new it = true ↔ ¬Covered it.visited it.cur_ea := by
  rw [is_new, Option.isNone_iff_eq_none, find_visited_none h.blocks]

theorem Progress.walked_or_cur (h : Progress img start it fresh) (hx : x ∈ img.heads) (hin : img.contains x = true)
    (hw : Walked it x ∨ x = it.cur_ea) : x = start ∨ x ∈ fresh := by
  obtain hw | rfl := hw
  · exact h.walked x hx hin hw
  · obtain hcur | hcur | hcur := h.cur
    · exact Or.inl hcur
    · exact Or.inr hcur
    · exact h.walked _ hx hin (Or.inl hcur)

theorem Progress.call (h : Progress img start it fresh) (hit : Iterating img it') (hwalks : Walks img it (Walked it')) :
    Progress img start it' (fresh ++ if is_new it' then [it'.cur_ea] else []) := by
  have hstart : Walked it' start := hwalks.old start h.start
  have honly (x : Nat) (hx : x ∈ fresh) : Walked it' x := hwalks.old x (h.only x hx)
  have hwalked (x : Nat) (hx : x ∈ img.heads) (hin : img.contains x = true) (hw : Walked it' x) :
      x = start ∨ x ∈ fresh :=
    h.walked_or_cur hx hin (hwalks.new x hx hin hw)
  by_cases hnew : is_new it' = true
  · have hnot : ¬Walked it' it'.cur_ea := hit.not_walked_cur (Option.isNone_iff_eq_none.1 hnew)
    rw [if_pos hnew]
    refine ⟨fun x hx hin hw => (hwalked x hx hin hw).imp_right (List.mem_append_left _), fun x hx => ?_,
      Or.inr (Or.inl (List.mem_append_right _ (List.mem_singleton.2 rfl))), ?_, Or.inl hstart⟩
    · obtain hx | hx := List.mem_append.1 hx
      · exact Or.inl (honly x hx)
      · exact Or.inr (List.mem_singleton.1 hx)
    rw [← List.cons_append]
    refine h.nodup.append (List.nodup_singleton _) fun x hx hx' => ?_
    rw [List.mem_singleton] at hx'
    subst hx'
    obtain rfl | hx := List.mem_cons.1 hx
    · exact hnot hstart
    · exact hnot (honly _ hx)
  · rw [if_neg hnew, List.append_nil]
    refine ⟨hwalked, fun x hx => Or.inl (honly x hx), Or.inr (Or.inr ?_), h.nodup, Or.inl hstart⟩
    rw [is_new_iff hit, not_not] at hnew
    exact hnew

theorem run_spec (hslot : ∀ ea branch, ctrl.process_delay_slot ea branch = ea) (h : Iterating img it)
    (hprogress : Progress img start it fresh) (hrun : run img ctrl n it = some (its, last)) :
    Finished img last ∧ Covered last.visited start ∧
      (∀ x ∈ img.heads, img.contains x = true → Covered last.visited x → x = start ∨ x ∈ fresh ++ news its) ∧
      (start :: (fresh ++ news its)).Nodup ∧ (∀ it' ∈ its, Iterating img it') ∧
      (it :: its).IsChain (Presented img ctrl) := by
  induction n generalizing it fresh its with
  | zero => cases hrun
  | succ n ih =>
      have hcall := h.call hslot
      rw [run] at hrun
      generalize prev_insn img ctrl it = ret at hcall hrun
      cases hcall with
      | last hfin hwalks =>
          rw [if_pos rfl] at hrun
          obtain ⟨rfl, rfl⟩ := Prod.mk.inj (Option.some.inj hrun)
          rw [news, List.filter_nil, List.map_nil, List.append_nil]
          refine ⟨hfin, hwalks.old start hprogress.start, fun x hx hin hcovered => ?_, hprogress.nodup,
            fun it' hit' => absurd hit' List.not_mem_nil, List.isChain_singleton _⟩
          exact hprogress.walked_or_cur hx hin (hwalks.new x hx hin hcovered)
      | @next ret it' hne hit hwalks hpresented hless =>
          rw [if_neg hne] at hrun
          obtain ⟨out, hout, heq⟩ := Option.map_eq_some_iff.1 hrun
          obtain ⟨rfl, rfl⟩ := Prod.mk.inj heq
          obtain ⟨hfin, hstart, hall, hnodup, hits, hchain⟩ := ih hit (hprogress.call hit hwalks) hout
          rw [news_cons, ← List.append_assoc]
          refine ⟨hfin, hstart, hall, hnodup, fun it'' hit'' => ?_, hchain.cons_cons hpresented⟩
          obtain rfl | hit'' := List.mem_cons.1 hit''
          · exact hit
          · exact hits it'' hit''

/-! ### The whole iteration -/

/-- The iterator that `backward_flow_iterator_t` starts with, without limits. -/
def begin (start_ea : Nat) (start_regs : State) : iterator_t State :=
  { cur_ea := start_ea, regs := start_regs, only_near := false, max_insn_cnt := 0, start_ea := start_ea }

variable (img) in
/-- The flow goes from `y` to `x` inside the bounds. -/
def Within (y x : Nat) : Prop := Edge img y x ∧ img.contains y = true ∧ img.contains x = true

/-- The visited blocks have their ends behind their starts, and none of them overlap. -/
def Apart (visited : Table Nat Nat) : Prop :=
  (∀ s e, visited.find s = some e → s ≤ e) ∧
    ∀ s e s' e', visited.find s = some e → visited.find s' = some e' → s ≠ s' → e < s' ∨ e' < s

variable (img ctrl) in
/-- The states that are presented from a start on, and the last one. -/
structure IteratesBackward (start : Nat) (regs : State) (its : List (iterator_t State)) (last : iterator_t State) :
    Prop where
  disjoint : ∀ it ∈ begin start regs :: its ++ [last], Apart it.visited
  complete : ∀ x, ReflTransGen (Within img) x start → x = start ∨ ∃ it ∈ its, it.cur_ea = x ∧ is_new it = true
  once : (start :: news its).Nodup
  presented : (begin start regs :: its).IsChain (Presented img ctrl)

theorem not_covered_empty : ¬Covered .empty x := fun ⟨_, _, hfind, _⟩ => nomatch hfind

theorem iterating_begin (regs : State) (hstart : start ∈ img.heads) (hin : img.contains start = true) :
    Iterating img (begin start regs) where
  near := rfl
  max := rfl
  blocks := ⟨fun _ _ h => (nomatch h), fun _ _ h => (nomatch h), fun _ _ h => (nomatch h), fun _ _ h => (nomatch h),
    fun _ _ _ _ h => (nomatch h)⟩
  cur := hstart
  inside := hin
  block _ h := nomatch h
  waiting _ h := nomatch h
  closed x _ _ hw := by
    obtain hcovered | ⟨_, hend, _⟩ := hw
    · exact (not_covered_empty hcovered).elim
    · cases hend

theorem progress_begin (regs : State) : Progress img start (begin start regs) [] where
  walked x _ _ hw := by
    obtain hcovered | ⟨_, hend, _⟩ := hw
    · exact (not_covered_empty hcovered).elim
    · cases hend
  only x hx := absurd hx List.not_mem_nil
  cur := Or.inl rfl
  nodup := List.nodup_singleton _
  start := Or.inr rfl

theorem Finished.covered (h : Finished img last) (hstart : start ∈ img.heads) (hcovered : Covered last.visited start)
    (hpath : ReflTransGen (Within img) x start) : x ∈ img.heads ∧ Covered last.visited x := by
  induction hpath using ReflTransGen.head_induction_on with
  | refl => exact ⟨hstart, hcovered⟩
  | head hedge _ ih =>
      obtain ⟨hedge, hiny, hinx⟩ := hedge
      exact ⟨hedge.mem, h.closed _ ih.1 hinx ih.2 _ hedge hiny⟩

/-- The iteration ends, and it has been over all instructions that the start can be reached from. -/
theorem run_iterates (img : image_t) (ctrl : ctrl_t State) (start : Nat) (regs : State) (hstart : start ∈ img.heads)
    (hin : img.contains start = true) (hslot : ∀ ea branch, ctrl.process_delay_slot ea branch = ea) :
    ∃ n its last, run img ctrl n (begin start regs) = some (its, last) ∧
      IteratesBackward img ctrl start regs its last := by
  have hbegin := iterating_begin regs hstart hin
  obtain ⟨n, ⟨its, last⟩, hrun⟩ := run_ends hslot hbegin
  obtain ⟨hfin, hcovered, hall, hnodup, hits, hchain⟩ := run_spec hslot hbegin (progress_begin regs) hrun
  refine ⟨n, its, last, hrun, ⟨fun it hit => ?_, fun x hpath => ?_, hnodup, hchain⟩⟩
  · have hblocks : Blocks img it.visited := by
      obtain hit | hit := List.mem_append.1 hit
      · obtain rfl | hit := List.mem_cons.1 hit
        · exact hbegin.blocks
        · exact (hits it hit).blocks
      · exact List.mem_singleton.1 hit ▸ hfin.blocks
    exact ⟨hblocks.le, hblocks.disjoint⟩
  · obtain ⟨hx, hcoveredx⟩ := hfin.covered hstart hcovered hpath
    have hinx : img.contains x = true := by
      obtain rfl | ⟨z, hedge, -⟩ := ReflTransGen.cases_head hpath
      · exact hin
      · exact hedge.2.1
    refine (hall x hx hinx hcoveredx).imp_right fun hmem => ?_
    obtain ⟨it, hit, hcur⟩ := List.mem_map.1 hmem
    exact ⟨it, (List.mem_filter.1 hit).1, hcur, (List.mem_filter.1 hit).2⟩

theorem run_unique {m : Nat} {out out' : List (iterator_t State) × iterator_t State}
    (h : run img ctrl n it = some out) (h' : run img ctrl m it = some out') : out = out' := by
  induction n generalizing m it out out' with
  | zero => cases h
  | succ n ih =>
      cases m with
      | zero => cases h'
      | succ m =>
          rw [run] at h h'
          by_cases hret : (prev_insn img ctrl it).1 = .fl_U
          · rw [if_pos hret] at h h'
            exact Option.some.inj (h.symm.trans h')
          · rw [if_neg hret] at h h'
            obtain ⟨rest, hrest, rfl⟩ := Option.map_eq_some_iff.1 h
            obtain ⟨rest', hrest', rfl⟩ := Option.map_eq_some_iff.1 h'
            rw [ih hrest hrest']

/-- So many items that the ordinary flow goes through, with some places where it does not, and a jump. -/
def jumping (n : Nat) (stops : List Nat) (func source target : Nat) (h : source < n) : image_t where
  heads := List.range n
  is_flow ea := ea ∉ stops
  is_func ea := ea = func
  is_jump ea := ea = source
  xrefs_to ea := if ea = target then [(source, .fl_JN)] else []
  contains ea := ea < n
  sorted := List.pairwise_lt_range
  sources ea xb hxb := by
    split_ifs at hxb with htarget
    · obtain rfl := List.mem_singleton.1 hxb
      exact List.mem_range.2 h
    · exact absurd hxb List.not_mem_nil

/-- The states are counted. Jumps have delay slots that are so many addresses behind them. -/
def counting (slot : Nat) : ctrl_t Nat where
  init := 0
  combine_regs regs src _ := regs + src
  process_delay_slot ea branch := if branch then ea + slot else ea

/-- The iteration over a loop: the third instruction jumps to the second one. -/
theorem run_iterates_loop :
    ∃ n its last, run (jumping 4 [0] 0 2 1 (by decide)) (counting 0) n (begin 3 1) = some (its, last) ∧
      IteratesBackward (jumping 4 [0] 0 2 1 (by decide)) (counting 0) 3 1 its last := by
  refine run_iterates _ _ 3 1 (by decide) (by decide) fun ea branch => ?_
  dsimp only [counting]
  split_ifs
  · rfl
  · rfl

/-- A jump back in the block that is walked over is presented twice. Jumps to a function are not followed, and a jump
is not presented if the ordinary flow does not go from it to its delay slot. -/
theorem not_run_iterates :
    (¬∃ n its last, run (jumping 4 [0] 0 2 1 (by decide)) (counting 0) n (begin 3 1) = some (its, last) ∧
      (its.map iterator_t.cur_ea).Nodup) ∧
    (¬∃ n its last, run (jumping 3 [0, 2] 0 2 0 (by decide)) (counting 0) n (begin 1 1) = some (its, last) ∧
      ((2, .fl_JN) ∈ (jumping 3 [0, 2] 0 2 0 (by decide)).xrefs_to 0 →
        Falls (jumping 3 [0, 2] 0 2 0 (by decide)) 0 1 → 2 ∈ its.map iterator_t.cur_ea)) ∧
    ¬∃ n its last, run (jumping 3 [0, 1, 2] 0 0 2 (by decide)) (counting 1) n (begin 2 1) = some (its, last) ∧
      (Jumps (jumping 3 [0, 1, 2] 0 0 2 (by decide)) 0 2 → 0 ∈ its.map iterator_t.cur_ea) := by
  have hloop : (run (jumping 4 [0] 0 2 1 (by decide)) (counting 0) 5 (begin 3 1)).map
      (fun out => out.1.map iterator_t.cur_ea) = some [2, 1, 0, 2] := by decide
  have hfunc : (run (jumping 3 [0, 2] 0 2 0 (by decide)) (counting 0) 5 (begin 1 1)).map
      (fun out => out.1.map iterator_t.cur_ea) = some [0] := by decide
  have hslot : (run (jumping 3 [0, 1, 2] 0 0 2 (by decide)) (counting 1) 5 (begin 2 1)).map
      (fun out => out.1.map iterator_t.cur_ea) = some [1] := by decide
  refine ⟨?_, ?_, ?_⟩
  · rintro ⟨n, its, last, hrun, hnodup⟩
    obtain ⟨out, hout, hmap⟩ := Option.map_eq_some_iff.1 hloop
    rw [run_unique hout hrun] at hmap
    rw [hmap] at hnodup
    exact absurd hnodup (by decide)
  · rintro ⟨n, its, last, hrun, hmem⟩
    obtain ⟨out, hout, hmap⟩ := Option.map_eq_some_iff.1 hfunc
    rw [run_unique hout hrun] at hmap
    rw [hmap] at hmem
    exact absurd (hmem (by decide) ⟨by decide, by decide⟩) (by decide)
  · rintro ⟨n, its, last, hrun, hmem⟩
    obtain ⟨out, hout, hmap⟩ := Option.map_eq_some_iff.1 hslot
    rw [run_unique hout hrun] at hmap
    rw [hmap] at hmem
    exact absurd (hmem ⟨by decide, .fl_JN, by decide, Or.inr rfl⟩) (by decide)

end

end IdaSdk.BackwardFlow
