import IdaSdk.LibTable
import Mathlib.Data.UInt

/-!
The iterator over the instructions in the backward execution flow. It walks down a basic block, and the jumps to the
block wait with the states of the tracked registers.
-/

namespace IdaSdk.BackwardFlow

inductive cref_t where
  | fl_U
  | fl_CF
  | fl_CN
  | fl_JF
  | fl_JN
  | fl_F
deriving DecidableEq

/-- The items in their order, their flags and the code references to them. The bounds are those of the function, or of
the segment if there is none. -/
structure image_t where
  heads : List Nat
  is_flow : Nat → Bool
  is_func : Nat → Bool
  is_jump : Nat → Bool
  xrefs_to : Nat → List (Nat × cref_t)
  contains : Nat → Bool
  sorted : heads.Pairwise (· < ·)
  sources : ∀ ea, ∀ xb ∈ xrefs_to ea, xb.1 ∈ heads

/-- There is no address if the result is `BADADDR`. -/
def image_t.prev_not_tail (img : image_t) (ea : Nat) : Option Nat := (img.heads.filter (· < ea)).getLast?

def image_t.has_xref (img : image_t) (ea : Nat) : Bool := !(img.xrefs_to ea).isEmpty

/-- The state of the tracked registers: what it is at first, and how it is combined with another one. -/
structure ctrl_t (State : Type) where
  init : State
  combine_regs : State → State → Nat → State
  process_delay_slot : Nat → Bool → Nat

/-- A waiting block: the state at its end. -/
structure state_t (State : Type) where
  regs : State
  insn_cnt : UInt32

/-- The visited blocks have their starts as keys, and the waiting ones their ends. -/
structure iterator_t (State : Type) where
  cur_ea : Nat
  regs : State
  only_near : Bool
  max_insn_cnt : UInt32
  start_ea : Nat
  cur_end : Option Nat := none
  insn_cnt : UInt32 := 0
  visited : Table Nat Nat := .empty
  waiting : Table Nat (state_t State) := .empty

section
variable {State : Type} (img : image_t) (ctrl : ctrl_t State)

variable (it : iterator_t State)

/-- The visited block that contains the address. -/
def iterator_t.find_visited (ea : Nat) : Option (Nat × Nat) :=
  (it.visited.previous (ea + 1)).filter fun v => ea ≤ v.2

def combine_insn_cnt (dst src : UInt32) : UInt32 := if src < dst then src else dst

/-- A jump from `ea` to the current address. -/
def iterator_t.wait (ea : Nat) : iterator_t State :=
  { it with
    waiting := it.waiting.access ea { regs := ctrl.init, insn_cnt := 0xFFFFFFFF } fun src_state =>
      { regs := ctrl.combine_regs src_state.regs it.regs ea
        insn_cnt := combine_insn_cnt src_state.insn_cnt it.insn_cnt } }

/-- The jumps to the current address, and whether they end the iteration. -/
def scan_jumps : List (Nat × cref_t) → Nat → iterator_t State → Bool × Nat × iterator_t State
  | [], refcnt, it => (false, refcnt, it)
  | xb :: xbs, refcnt, it =>
    if xb.2 ≠ .fl_JF ∧ xb.2 ≠ .fl_JN then scan_jumps xbs refcnt it
    else if it.only_near && (refcnt > 0 || img.is_jump xb.1) then (true, refcnt, it)
    else
      let ea := ctrl.process_delay_slot xb.1 true
      scan_jumps xbs (refcnt + 1) (if (it.find_visited ea).isSome then it else it.wait ctrl ea)

def scan : Bool × Nat × iterator_t State :=
  let refcnt := if img.is_flow it.cur_ea then 1 else 0
  if img.has_xref it.cur_ea && !img.is_func it.cur_ea then scan_jumps img ctrl (img.xrefs_to it.cur_ea) refcnt it
  else (false, refcnt, it)

/-- The waiting block that ends at the current address is reached. -/
def reach : iterator_t State :=
  match it.waiting.find it.cur_ea with
  | some w =>
    { it with
      regs := ctrl.combine_regs it.regs w.regs it.cur_ea
      insn_cnt := combine_insn_cnt it.insn_cnt w.insn_cnt
      waiting := it.waiting.erase it.cur_ea }
  | none => { it with cur_ea := ctrl.process_delay_slot it.cur_ea false }

/-- The ordinary flow, if there is one. -/
def flow : Bool × iterator_t State :=
  if img.is_flow it.cur_ea then
    match img.prev_not_tail it.cur_ea with
    | none => (false, it)
    | some prev_ea =>
      if img.contains prev_ea && (it.max_insn_cnt = 0 || it.insn_cnt < it.max_insn_cnt) then
        (true, reach ctrl { it with cur_ea := prev_ea, insn_cnt := it.insn_cnt + 1 })
      else (false, { it with cur_ea := prev_ea })
  else (false, it)

/-- The last waiting block that is not above the start, or the first one. -/
def next_waiting : Option (Nat × state_t State) :=
  (it.waiting.previous (it.start_ea + 1)).or it.waiting.entries.head?

/-- So many waiting blocks at most are out of bounds. -/
def get_waiting : Nat → iterator_t State → cref_t × iterator_t State
  | 0, it => (.fl_U, it)
  | n + 1, it =>
    match next_waiting it with
    | none => (.fl_U, it)
    | some w =>
      let it := { it with cur_ea := w.1, waiting := it.waiting.erase w.1 }
      if img.contains w.1 then (.fl_JF, { it with cur_end := none, regs := w.2.regs, insn_cnt := w.2.insn_cnt })
      else get_waiting n it

/-- The block that ends is saved, or the visited one that it has reached is extended. -/
def save_block : iterator_t State :=
  { it with visited := it.visited.access it.cur_ea 0 fun _ => it.cur_end.getD it.cur_ea }

def extend_block (start : Nat) (it : iterator_t State) : iterator_t State :=
  match it.cur_end with
  | some cur_end => { it with visited := it.visited.modify start fun _ => cur_end }
  | none => it

/-- One reference is considered as a linear flow. -/
def next_block (refcnt : Nat) (it : iterator_t State) : cref_t × iterator_t State :=
  let ret := get_waiting img it.waiting.entries.length it
  (if ret.1 = .fl_JF ∧ refcnt = 1 ∧ ret.2.waiting.entries = [] then .fl_F else ret.1, ret.2)

def prev_insn : cref_t × iterator_t State :=
  match it.find_visited it.cur_ea with
  | some block => next_block img 0 (extend_block block.1 it)
  | none =>
    let scanned := scan img ctrl it
    if scanned.1 then (.fl_U, scanned.2.2)
    else
      let it := { scanned.2.2 with cur_end := some (it.cur_end.getD it.cur_ea) }
      let flowed := flow img ctrl it
      if flowed.1 then (.fl_F, flowed.2) else next_block img scanned.2.1 (save_block flowed.2)

/-- The states that are presented until there is no previous instruction, and the last one. -/
def run : Nat → iterator_t State → Option (List (iterator_t State) × iterator_t State)
  | 0, _ => none
  | n + 1, it =>
    let ret := prev_insn img ctrl it
    if ret.1 = .fl_U then some ([], ret.2) else (run n ret.2).map fun rest => (ret.2 :: rest.1, rest.2)

end

end IdaSdk.BackwardFlow
