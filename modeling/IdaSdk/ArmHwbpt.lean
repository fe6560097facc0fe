import Mathlib.Logic.Function.Basic
import Mathlib.Tactic.Common

/-!
The hardware breakpoints of the ARM debugger module: a table of breakpoints and one of watchpoints. A slot with the
address `BADADDR` is free.
-/

namespace IdaSdk.ArmHwbpt
open Function

/-! ### The code -/

abbrev ea_t := BitVec 64

def BADADDR : ea_t := -1

abbrev bpttype_t := BitVec 32

def BPT_SOFT : bpttype_t := 4
def BPT_EXEC : bpttype_t := 8
def BPT_DEFAULT : bpttype_t := BPT_SOFT ||| BPT_EXEC

def BPT_OK : Nat := 0
def BPT_BAD_TYPE : Nat := 2
def BPT_BAD_ADDR : Nat := 4
def BPT_TOO_MANY : Nat := 6

def ARM_MAX_HWBPTS : Int := 16
def ARM_MAX_WATCHPOINTS : Int := 16

structure arm_hwbpt_info_t where
  type : bpttype_t
  addr : ea_t
  ctrl : ea_t
deriving DecidableEq

def cleared : arm_hwbpt_info_t := ⟨BPT_DEFAULT, BADADDR, 0⟩

/-- A table with the number of its slots that are supported, which is negative as long as it is unknown. -/
structure table_t where
  count : Int
  slots : Nat → arm_hwbpt_info_t

/-- What the subclass answers during a call. -/
structure Subclass where
  _getn_hwbpts_supported : Int
  _getn_watchpoints_supported : Int
  get_hwbpt_ctrl_bits : bpttype_t → ea_t → Int → ea_t
  get_watchpoint_ctrl_bits : bpttype_t → ea_t → Int → ea_t
  refresh_hwbpts : Bool

namespace table_t
variable (t : table_t)

/-- The number of supported slots, from the answer of the subclass if it is unknown. -/
def getn_supported (max answer : Int) : table_t :=
  if t.count < 0 then { t with count := if answer < 0 then 0 else min answer max } else t

/-- The loop over the slots, with the first free one. -/
def find_loop (slots : Nat → arm_hwbpt_info_t) (ea : ea_t) : List Nat → Option Nat → Except Nat Nat
  | [], none => .error BPT_TOO_MANY
  | [], some slot => .ok slot
  | i :: is, slot =>
    if (slots i).addr = ea then .error BPT_BAD_ADDR
    else find_loop slots ea is (if (slots i).addr = BADADDR ∧ slot = none then some i else slot)

variable (ea : ea_t)

def find_slot : Except Nat Nat := find_loop t.slots ea (List.range t.count.toNat) none

def is_ok : Nat :=
  if t.count ≤ 0 then BPT_BAD_TYPE
  else
    match t.find_slot ea with
    | .ok _ => BPT_OK
    | .error code => code

def add (bpt : arm_hwbpt_info_t) (refresh : Bool) : Bool × table_t :=
  match t.find_slot bpt.addr with
  | .ok slot => (refresh, { t with slots := update t.slots slot bpt })
  | .error _ => (false, t)

def holder : Option Nat := (List.range t.count.toNat).find? fun i => (t.slots i).addr = ea

def del (refresh : Bool) : Bool × table_t :=
  match t.holder ea with
  | some i => (refresh, { t with slots := update t.slots i cleared })
  | none => (false, t)

end table_t

def table_t.empty : table_t := ⟨-1, fun _ => cleared⟩

/-- `hwbpt_count` with `hwbpt_slots`, and `watch_count` with `watch_slots`. -/
structure arm_debmod_t where
  hwbpts : table_t
  watches : table_t

namespace arm_debmod_t
variable (sub : Subclass) (s : arm_debmod_t)

def getn_hwbpts_supported : table_t := s.hwbpts.getn_supported ARM_MAX_HWBPTS sub._getn_hwbpts_supported

def getn_watchpoints_supported : table_t := s.watches.getn_supported ARM_MAX_WATCHPOINTS sub._getn_watchpoints_supported

variable (type : bpttype_t)

def table : table_t :=
  if type = BPT_EXEC then s.getn_hwbpts_supported sub else s.getn_watchpoints_supported sub

def set_table (t : table_t) : arm_debmod_t :=
  if type = BPT_EXEC then { s with hwbpts := t } else { s with watches := t }

def dbg_is_ok_bpt (ea : ea_t) (_len : Int) : Nat × arm_debmod_t :=
  if type = BPT_SOFT then (BPT_OK, s) else ((s.table sub type).is_ok ea, s.set_table type (s.table sub type))

def ctrl_bits (ea : ea_t) (len : Int) : ea_t :=
  if type = BPT_EXEC then sub.get_hwbpt_ctrl_bits type ea len else sub.get_watchpoint_ctrl_bits type ea len

def add_hwbpt (ea : ea_t) (len : Int) : Bool × arm_debmod_t :=
  let r := (s.table sub type).add ⟨type, ea, ctrl_bits sub type ea len⟩ sub.refresh_hwbpts
  (r.1, s.set_table type r.2)

def del_hwbpt (ea : ea_t) (type : bpttype_t) : Bool × arm_debmod_t :=
  let r := (s.table sub type).del ea sub.refresh_hwbpts
  (r.1, s.set_table type r.2)

/-- The state after `reset_hwbpts`, with which a debugger module begins. -/
def reset_hwbpts : arm_debmod_t := ⟨.empty, .empty⟩

/-- `cleanup_hwbpts` does not look at the result of the refresh. -/
def cleanup_hwbpts : arm_debmod_t := reset_hwbpts

end arm_debmod_t

inductive Call where
  | dbg_is_ok_bpt (type : bpttype_t) (ea : ea_t) (len : Int)
  | add_hwbpt (type : bpttype_t) (ea : ea_t) (len : Int)
  | del_hwbpt (ea : ea_t) (type : bpttype_t)
  | reset_hwbpts
  | cleanup_hwbpts

def Call.run (sub : Subclass) (s : arm_debmod_t) : Call → arm_debmod_t
  | .dbg_is_ok_bpt type ea len => (s.dbg_is_ok_bpt sub type ea len).2
  | .add_hwbpt type ea len => (s.add_hwbpt sub type ea len).2
  | .del_hwbpt ea type => (s.del_hwbpt sub ea type).2
  | .reset_hwbpts => arm_debmod_t.reset_hwbpts
  | .cleanup_hwbpts => arm_debmod_t.cleanup_hwbpts

def table_t.Distinct (t : table_t) : Prop :=
  ∀ i j, (t.slots i).addr ≠ BADADDR → (t.slots i).addr = (t.slots j).addr → i = j

def Same (s s' : arm_debmod_t) : Prop := s'.hwbpts.slots = s.hwbpts.slots ∧ s'.watches.slots = s.watches.slots

/-- An addition succeeds only if the request has been found right; one that fails changes nothing, and one that succeeds
is taken back by a deletion. A deletion that fails changes nothing. -/
def Behaves (sub : Subclass) (s : arm_debmod_t) : Call → Prop
  | .add_hwbpt type ea len =>
    (∀ sub', ((s.dbg_is_ok_bpt sub' type ea len).2.add_hwbpt sub type ea len).1 = true →
      (s.dbg_is_ok_bpt sub' type ea len).1 = BPT_OK) ∧
    ((s.add_hwbpt sub type ea len).1 = false → Same s (s.add_hwbpt sub type ea len).2) ∧
    ((s.add_hwbpt sub type ea len).1 = true → ∀ sub', Same s ((s.add_hwbpt sub type ea len).2.del_hwbpt sub' ea type).2)
  | .del_hwbpt ea type => (s.del_hwbpt sub ea type).1 = false → Same s (s.del_hwbpt sub ea type).2
  | _ => True

/-- A run in which the used slots are always distinct and each call does what is asked of it. -/
def Meets (s : arm_debmod_t) : List (Subclass × Call) → Prop
  | [] => s.hwbpts.Distinct ∧ s.watches.Distinct
  | (sub, call) :: calls => (s.hwbpts.Distinct ∧ s.watches.Distinct) ∧ Behaves sub s call ∧ Meets (call.run sub s) calls

/-- The refresh succeeds if an addition has found a slot for its address, or a deletion a used slot that holds it. -/
def Refreshed (sub : Subclass) (s : arm_debmod_t) : Call → Prop
  | .add_hwbpt type ea _ => ∀ slot, (s.table sub type).find_slot ea = .ok slot → sub.refresh_hwbpts = true
  | .del_hwbpt ea type => ea ≠ BADADDR → ∀ i, (s.table sub type).holder ea = some i → sub.refresh_hwbpts = true
  | _ => True

def AllRefreshed (s : arm_debmod_t) : List (Subclass × Call) → Prop
  | [] => True
  | (sub, call) :: calls => Refreshed sub s call ∧ AllRefreshed (call.run sub s) calls

/-! ### One table -/

section
variable {t : table_t} {ea : ea_t} {i : Nat} {bpt : arm_hwbpt_info_t} {refresh : Bool}

/-- Free slots are cleared, and the used ones are distinct and supported. -/
structure Inv (t : table_t) : Prop where
  free : ∀ i, (t.slots i).addr = BADADDR → t.slots i = cleared
  used : ∀ i, (t.slots i).addr ≠ BADADDR → i < t.count.toNat
  distinct : t.Distinct

theorem inv_empty : Inv .empty := ⟨fun _ _ => rfl, fun _ h => absurd rfl h, fun _ _ h => absurd rfl h⟩

theorem Inv.getn_supported (h : Inv t) (max answer : Int) : Inv (t.getn_supported max answer) := by
  unfold table_t.getn_supported
  split
  · case isTrue hneg =>
    refine ⟨h.free, fun i hi => ?_, h.distinct⟩
    have hlt := h.used i hi
    omega
  · exact h

theorem find_loop_ok {slots : Nat → arm_hwbpt_info_t} {is : List Nat} {slot : Option Nat}
    (h : table_t.find_loop slots ea is slot = .ok i) :
    (∀ j ∈ is, (slots j).addr ≠ ea) ∧ (slot = some i ∨ i ∈ is ∧ (slots i).addr = BADADDR) := by
  induction is generalizing slot with
  | nil =>
      cases slot with
      | none => cases h
      | some slot =>
          cases h
          exact ⟨nofun, Or.inl rfl⟩
  | cons j is ih =>
      rw [table_t.find_loop] at h
      split at h
      · cases h
      case isFalse hne =>
      obtain ⟨hnone, hfound⟩ := ih h
      refine ⟨List.forall_mem_cons.mpr ⟨hne, hnone⟩, ?_⟩
      rcases hfound with hslot | ⟨hmem, hfree⟩
      · split at hslot
        · case isTrue hj =>
          cases hslot
          exact Or.inr ⟨List.mem_cons_self, hj.1⟩
        · exact Or.inl hslot
      · exact Or.inr ⟨List.mem_cons_of_mem _ hmem, hfree⟩

theorem find_slot_ok (h : t.find_slot ea = .ok i) :
    i < t.count.toNat ∧ (t.slots i).addr = BADADDR ∧ ea ≠ BADADDR ∧ ∀ j < t.count.toNat, (t.slots j).addr ≠ ea := by
  obtain ⟨hnone, hfound⟩ := find_loop_ok h
  rcases hfound with hslot | ⟨hmem, hfree⟩
  · cases hslot
  · refine ⟨List.mem_range.mp hmem, hfree, fun hea => ?_, fun j hj => hnone j (List.mem_range.mpr hj)⟩
    exact hnone i hmem (hfree.trans hea.symm)

theorem holder_some (h : t.holder ea = some i) : i < t.count.toNat ∧ (t.slots i).addr = ea := by
  rw [table_t.holder] at h
  have hheld := List.find?_some h
  exact ⟨List.mem_range.mp (List.mem_of_find?_eq_some h), of_decide_eq_true hheld⟩

theorem Inv.put (h : Inv t) (hi : t.find_slot bpt.addr = .ok i) : Inv { t with slots := update t.slots i bpt } := by
  obtain ⟨hlt, -, hea, hnone⟩ := find_slot_ok hi
  refine ⟨fun j hj => ?_, fun j hj => ?_, fun j k hj hjk => ?_⟩
  all_goals dsimp only at *
  · by_cases hji : j = i
    · rw [hji, update_self] at hj
      exact absurd hj hea
    · rw [update_of_ne hji] at hj ⊢
      exact h.free j hj
  · by_cases hji : j = i
    · exact hji ▸ hlt
    · rw [update_of_ne hji] at hj
      exact h.used j hj
  · by_cases hji : j = i
    · by_cases hki : k = i
      · exact hji.trans hki.symm
      · rw [hji, update_self, update_of_ne hki] at hjk
        exact absurd hjk.symm (hnone k (h.used k (hjk ▸ hea)))
    · by_cases hki : k = i
      · rw [hki, update_self, update_of_ne hji] at hjk
        exact absurd hjk (hnone j (h.used j (hjk ▸ hea)))
      · rw [update_of_ne hji, update_of_ne hki] at hjk
        rw [update_of_ne hji] at hj
        exact h.distinct j k hj hjk

theorem Inv.clear (h : Inv t) (i : Nat) : Inv { t with slots := update t.slots i cleared } := by
  have hslots (j : Nat) (hj : (update t.slots i cleared j).addr ≠ BADADDR) :
      update t.slots i cleared j = t.slots j := by
    by_cases hji : j = i
    · rw [hji, update_self] at hj
      exact absurd rfl hj
    · exact update_of_ne hji _ _
  refine ⟨fun j hj => ?_, fun j hj => h.used j (hslots j hj ▸ hj), fun j k hj hjk => ?_⟩
  all_goals dsimp only at *
  · by_cases hji : j = i
    · rw [hji, update_self]
    · rw [update_of_ne hji] at hj ⊢
      exact h.free j hj
  · have hk : (update t.slots i cleared k).addr ≠ BADADDR := hjk ▸ hj
    rw [hslots j hj, hslots k hk] at hjk
    rw [hslots j hj] at hj
    exact h.distinct j k hj hjk

theorem Inv.add (h : Inv t) : Inv (t.add bpt refresh).2 := by
  rw [table_t.add]
  cases hi : t.find_slot bpt.addr with
  | error e => exact h
  | ok i => exact h.put hi

theorem Inv.del (h : Inv t) : Inv (t.del ea refresh).2 := by
  rw [table_t.del]
  cases t.holder ea with
  | none => exact h
  | some i => exact h.clear i

theorem add_failed_iff (t : table_t) (bpt : arm_hwbpt_info_t) (refresh : Bool) :
    ((t.add bpt refresh).1 = false → (t.add bpt refresh).2.slots = t.slots) ↔
    ∀ i, t.find_slot bpt.addr = .ok i → refresh = true := by
  rw [table_t.add]
  cases hi : t.find_slot bpt.addr with
  | error e => exact iff_of_true (fun _ => rfl) nofun
  | ok i =>
      obtain ⟨-, hfree, hea, -⟩ := find_slot_ok hi
      cases refresh with
      | true => exact iff_of_true nofun fun _ _ => rfl
      | false =>
          refine iff_of_false (fun hsame => ?_) fun hall => nomatch hall i rfl
          have haddr := congrArg (fun slots : Nat → arm_hwbpt_info_t => (slots i).addr) (hsame rfl)
          simp only [update_self] at haddr
          exact hea (haddr.trans hfree)

theorem Inv.del_failed_iff (h : Inv t) (ea : ea_t) (refresh : Bool) :
    ((t.del ea refresh).1 = false → (t.del ea refresh).2.slots = t.slots) ↔
    (ea ≠ BADADDR → ∀ i, t.holder ea = some i → refresh = true) := by
  rw [table_t.del]
  cases hi : t.holder ea with
  | none => exact iff_of_true (fun _ => rfl) fun _ => nofun
  | some i =>
      obtain ⟨-, hheld⟩ := holder_some hi
      cases refresh with
      | true => exact iff_of_true nofun fun _ _ _ => rfl
      | false =>
          by_cases hea : ea = BADADDR
          · refine iff_of_true (fun _ => ?_) fun hne => absurd hea hne
            dsimp only
            rw [← h.free i (hheld.trans hea), update_eq_self]
          · refine iff_of_false (fun hsame => ?_) fun hall => nomatch hall hea i rfl
            have haddr := congrArg (fun slots : Nat → arm_hwbpt_info_t => (slots i).addr) (hsame rfl)
            simp only [update_self] at haddr
            exact hea (hheld.symm.trans haddr.symm)

theorem Inv.del_add (h : Inv t) (hadd : (t.add bpt refresh).1 = true) (refresh' : Bool) :
    ((t.add bpt refresh).2.del bpt.addr refresh').2.slots = t.slots := by
  rw [table_t.add] at hadd ⊢
  cases hi : t.find_slot bpt.addr with
  | error e =>
      rw [hi] at hadd
      cases hadd
  | ok i =>
      obtain ⟨hlt, hfree, -, hnone⟩ := find_slot_ok hi
      dsimp only
      rw [table_t.del]
      cases hj : table_t.holder { t with slots := update t.slots i bpt } bpt.addr with
      | none =>
          have hno := List.find?_eq_none.mp hj i (List.mem_range.mpr hlt)
          simp [update_self] at hno
      | some j =>
          obtain ⟨hjlt, hheld⟩ := holder_some hj
          obtain rfl : j = i := by
            by_contra hne
            have hheld : (update t.slots i bpt j).addr = bpt.addr := hheld
            rw [update_of_ne hne] at hheld
            exact hnone j hjlt hheld
          dsimp only
          rw [update_idem, ← h.free j hfree, update_eq_self]

theorem is_ok_of_add (hadd : (t.add bpt refresh).1 = true) : t.is_ok bpt.addr = BPT_OK := by
  rw [table_t.add] at hadd
  cases hi : t.find_slot bpt.addr with
  | error e =>
      rw [hi] at hadd
      cases hadd
  | ok i =>
      have hlt := (find_slot_ok hi).1
      rw [table_t.is_ok, if_neg (by omega), hi]

end

/-! ### Both tables -/

variable {sub sub' : Subclass} {s : arm_debmod_t} {type : bpttype_t} {t t' : table_t}

theorem getn_supported_slots (t : table_t) (max answer : Int) : (t.getn_supported max answer).slots = t.slots := by
  unfold table_t.getn_supported
  split <;> rfl

theorem getn_supported_known (h : 0 ≤ t.count) (max answer : Int) : t.getn_supported max answer = t :=
  if_neg (Int.not_lt.mpr h)

theorem table_known (sub : Subclass) (s : arm_debmod_t) (type : bpttype_t) : 0 ≤ (s.table sub type).count := by
  have hknown (t : table_t) (max answer : Int) (hmax : 0 ≤ max) : 0 ≤ (t.getn_supported max answer).count := by
    unfold table_t.getn_supported
    split
    · dsimp only
      split <;> omega
    · omega
  unfold arm_debmod_t.table
  split
  · exact hknown _ _ _ (by decide)
  · exact hknown _ _ _ (by decide)

theorem table_set_table (h : 0 ≤ t.count) : (s.set_table type t).table sub type = t := by
  unfold arm_debmod_t.table arm_debmod_t.set_table
  split
  · exact getn_supported_known h _ _
  · exact getn_supported_known h _ _

theorem set_table_set_table : (s.set_table type t).set_table type t' = s.set_table type t' := by
  unfold arm_debmod_t.set_table
  split <;> rfl

theorem same_set_table (sub : Subclass) : Same s (s.set_table type t) ↔ t.slots = (s.table sub type).slots := by
  unfold Same arm_debmod_t.set_table arm_debmod_t.table
  split
  · rw [arm_debmod_t.getn_hwbpts_supported, getn_supported_slots]
    exact and_iff_left rfl
  · rw [arm_debmod_t.getn_watchpoints_supported, getn_supported_slots]
    exact and_iff_right rfl

theorem add_known {bpt : arm_hwbpt_info_t} {refresh : Bool} : (t.add bpt refresh).2.count = t.count := by
  unfold table_t.add
  split <;> rfl

/-- The invariant of both tables. -/
structure Invs (s : arm_debmod_t) : Prop where
  hwbpts : Inv s.hwbpts
  watches : Inv s.watches

theorem Invs.table (h : Invs s) (sub : Subclass) (type : bpttype_t) : Inv (s.table sub type) := by
  unfold arm_debmod_t.table
  split
  · exact h.hwbpts.getn_supported _ _
  · exact h.watches.getn_supported _ _

theorem Invs.set_table (h : Invs s) (type : bpttype_t) (ht : Inv t) : Invs (s.set_table type t) := by
  unfold arm_debmod_t.set_table
  split
  · exact ⟨ht, h.watches⟩
  · exact ⟨h.hwbpts, ht⟩

theorem Invs.run (h : Invs s) (sub : Subclass) (call : Call) : Invs (call.run sub s) := by
  cases call with
  | dbg_is_ok_bpt type ea len =>
      rw [Call.run, arm_debmod_t.dbg_is_ok_bpt]
      split
      · exact h
      · exact h.set_table type (h.table sub type)
  | add_hwbpt type ea len => exact h.set_table type (h.table sub type).add
  | del_hwbpt ea type => exact h.set_table type (h.table sub type).del
  | reset_hwbpts => exact ⟨inv_empty, inv_empty⟩
  | cleanup_hwbpts => exact ⟨inv_empty, inv_empty⟩

theorem ok_of_add {ea : ea_t} {len : Int}
    (h : ((s.dbg_is_ok_bpt sub' type ea len).2.add_hwbpt sub type ea len).1 = true) :
    (s.dbg_is_ok_bpt sub' type ea len).1 = BPT_OK := by
  rw [arm_debmod_t.dbg_is_ok_bpt] at h ⊢
  split
  · rfl
  · case isFalse hsoft =>
    rw [if_neg hsoft] at h
    rw [arm_debmod_t.add_hwbpt, table_set_table (table_known sub' s type)] at h
    exact is_ok_of_add h

theorem Invs.behaves_iff (h : Invs s) (call : Call) : Behaves sub s call ↔ Refreshed sub s call := by
  cases call with
  | add_hwbpt type ea len =>
      have hfailed := add_failed_iff (s.table sub type) ⟨type, ea, arm_debmod_t.ctrl_bits sub type ea len⟩
        sub.refresh_hwbpts
      rw [← same_set_table sub] at hfailed
      refine ⟨fun hbehaves => hfailed.mp hbehaves.2.1, fun hrefreshed => ⟨fun sub' => ok_of_add, hfailed.mpr hrefreshed,
        fun hadd sub' => ?_⟩⟩
      rw [arm_debmod_t.del_hwbpt, arm_debmod_t.add_hwbpt]
      dsimp only
      rw [table_set_table (by rw [add_known]; exact table_known sub s type), set_table_set_table, same_set_table sub]
      exact (h.table sub type).del_add hadd _
  | del_hwbpt ea type =>
      have hfailed := (h.table sub type).del_failed_iff ea sub.refresh_hwbpts
      rw [← same_set_table sub] at hfailed
      exact hfailed
  | dbg_is_ok_bpt type ea len => exact Iff.rfl
  | reset_hwbpts => exact Iff.rfl
  | cleanup_hwbpts => exact Iff.rfl

/-- A run does what is asked of it exactly if the refresh succeeds wherever a table is changed. -/
theorem meets_iff (calls : List (Subclass × Call)) :
    Meets arm_debmod_t.reset_hwbpts calls ↔ AllRefreshed arm_debmod_t.reset_hwbpts calls := by
  have hinvs : Invs arm_debmod_t.reset_hwbpts := ⟨inv_empty, inv_empty⟩
  generalize arm_debmod_t.reset_hwbpts = s at *
  induction calls generalizing s with
  | nil => exact iff_of_true ⟨hinvs.hwbpts.distinct, hinvs.watches.distinct⟩ trivial
  | cons c calls ih =>
      obtain ⟨sub, call⟩ := c
      have hrest := ih (call.run sub s) (hinvs.run sub call)
      rw [Meets, AllRefreshed, hinvs.behaves_iff]
      have hdistinct : s.hwbpts.Distinct ∧ s.watches.Distinct := ⟨hinvs.hwbpts.distinct, hinvs.watches.distinct⟩
      exact (and_iff_right hdistinct).trans (and_congr_right fun _ => hrest)

/-- A subclass with one breakpoint and no watchpoints whose refresh fails. -/
def failing : Subclass := ⟨1, 0, fun _ _ _ => 0, fun _ _ _ => 0, false⟩

/-- The addition reports a failure and the breakpoint stays in its slot. -/
theorem failing_not_meets : ¬ Meets arm_debmod_t.reset_hwbpts [(failing, .add_hwbpt BPT_EXEC 0x1000 4)] := by
  rintro ⟨-, ⟨-, hsame, -⟩, -⟩
  have hslots := (hsame (by decide)).1
  have haddr := congrArg (fun slots : Nat → arm_hwbpt_info_t => (slots 0).addr) hslots
  revert haddr
  decide

end IdaSdk.ArmHwbpt
