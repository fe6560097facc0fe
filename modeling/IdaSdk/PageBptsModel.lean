import IdaSdk.LibTable
import Mathlib.Data.Nat.Basic

/-!
Page breakpoints of the Windows debugger. A breakpoint takes access rights away from the pages it touches and keeps
the old protection, so that it can be put back and shown instead of the new one. The outcomes of the system
calls are given from outside; a call that succeeds acts on the memory.
-/

namespace IdaSdk.PageBpts

abbrev MEMORY_PAGE_SIZE : Nat := 0x1000

abbrev PAGE_NOACCESS : Nat := 0x01
abbrev PAGE_READONLY : Nat := 0x02
abbrev PAGE_READWRITE : Nat := 0x04
abbrev PAGE_WRITECOPY : Nat := 0x08
abbrev PAGE_EXECUTE : Nat := 0x10
abbrev PAGE_EXECUTE_READ : Nat := 0x20
abbrev PAGE_EXECUTE_READWRITE : Nat := 0x40
abbrev PAGE_EXECUTE_WRITECOPY : Nat := 0x80
abbrev PAGE_GUARD : Nat := 0x100

abbrev BPT_WRITE : Nat := 1
abbrev BPT_READ : Nat := 2
abbrev BPT_EXEC : Nat := 8

/-- `dep_policy_t`. -/
inductive DepPolicy where
  | dp_always_off | dp_always_on | dp_opt_in | dp_opt_out
deriving DecidableEq

/-- What the debugger knows of data execution prevention. `query` is the answer of `GetProcessDEPPolicy` with the flags
and whether they are permanent; it is not asked where the function is missing or known to be wrong. -/
structure Dep where
  policy : DepPolicy
  unusable : Bool
  query : Option (Nat × Nat)

variable (dep : Dep)

/-- Whether a page that may only be read can be executed. -/
def Dep.disabled : Bool :=
  dep.policy != .dp_always_on &&
    if dep.unusable then true
    else
      match dep.query with
      | none => false
      | some (flags, permanent) => (dep.policy == .dp_opt_in && permanent == 0) || flags == 0

/-- `win32_page_protections`, indexed by Unix permissions; 0xFF where there is no such protection. -/
def win32_page_protections : List Nat :=
  [PAGE_NOACCESS, PAGE_READONLY, 0xFF, PAGE_READWRITE, PAGE_EXECUTE, PAGE_EXECUTE_READ, 0xFF, PAGE_EXECUTE_READWRITE]

def unix_of (input : Nat) : Option Nat :=
  if input &&& PAGE_WRITECOPY ≠ 0 then some 3
  else if input &&& PAGE_EXECUTE_WRITECOPY ≠ 0 then some 7
  else win32_page_protections.findIdx? fun p => p ≠ 0xFF ∧ input &&& p ≠ 0

/-- The variable `del`: the permissions that a breakpoint of this type must not leave. -/
def trapped (bpttype : Nat) : Nat :=
  (if bpttype &&& BPT_READ ≠ 0 then 1 else 0) ||| (if bpttype &&& BPT_WRITE ≠ 0 then 2 else 0) |||
    (if bpttype &&& BPT_EXEC ≠ 0 then 4 ||| (if dep.disabled then 1 else 0) else 0)

/-- The Unix permissions that stay, without those that Windows does not have. -/
def keep_perms (unix del : Nat) : Nat :=
  if unix &&& (7 ^^^ del) = 2 ∨ unix &&& (7 ^^^ del) = 6 then 0 else unix &&& (7 ^^^ del)

/-- `remove_page_protections`: the new protection if there is one to set, nothing for a failing assertion. -/
def remove_page_protections (input bpttype : Nat) : Option (Bool × Nat) :=
  if input &&& PAGE_GUARD ≠ 0 then some (false, input)
  else
    match unix_of input with
    | none => none
    | some unix =>
      some (true, (input &&& 0xFFFFFF00) ||| win32_page_protections.getD (keep_perms unix (trapped dep bpttype)) 0)

/-! ### The table -/

/-- `pagebpt_data_t`. -/
structure Bpt where
  ea : Nat
  page_ea : Nat
  user_len : Int
  aligned_len : Int
  real_len : Int
  old_prot : Nat
  new_prot : Nat
  type : Nat
deriving DecidableEq

abbrev page_bpts_t := Table Nat Bpt

/-- The debugged process: the protection of every page, and the breakpoints the debugger has recorded. -/
structure State where
  prot : Nat → Nat
  page_bpts : page_bpts_t

/-- The answers of the system in one call: the state of the region if the query succeeds, whether a change of
protections at an address succeeds, and the policy for data execution. -/
structure Sys where
  query : Option Nat
  protects : Nat → Bool
  dep : Dep

def wrap (x : Int) : Nat := (x % 2 ^ 64).toNat

def int32 (x : Int) : Int := (x + 2 ^ 31) % 2 ^ 32 - 2 ^ 31

def calc_page_base (ea : Nat) : Nat := ea / MEMORY_PAGE_SIZE * MEMORY_PAGE_SIZE

def align_up (x : Nat) : Nat := wrap (x + (MEMORY_PAGE_SIZE - 1)) / MEMORY_PAGE_SIZE * MEMORY_PAGE_SIZE

def last (off s : Nat) : Nat := wrap (off + s - 1)

def overlap (off1 s1 off2 s2 : Nat) : Bool :=
  s1 ≠ 0 && s2 ≠ 0 && off2 ≤ last off1 s1 && off1 ≤ last off2 s2

variable (t : page_bpts_t)

def candidate (ea : Nat) (size : Int) : Option (Nat × Bpt) :=
  match t.lowerBound (calc_page_base ea) with
  | some p => if wrap (ea + size) ≤ p.1 then t.previous (calc_page_base ea) else some p
  | none => t.previous (calc_page_base ea)

def find_page_bpt (ea : Nat) (size : Int) : Option (Nat × Bpt) :=
  (candidate t ea size).filter fun p => overlap ea (wrap size) p.1 (wrap p.2.aligned_len)

/-- The memory after `VirtualProtectEx`: every page with a byte in the range has the new protection. -/
def virtualProtect (prot : Nat → Nat) (ea len new : Nat) : Nat → Nat :=
  fun page => if ea < (page + 1) * MEMORY_PAGE_SIZE ∧ page * MEMORY_PAGE_SIZE < ea + len then new else prot page

def State.at (s : State) (ea : Nat) : Nat := s.prot (ea / MEMORY_PAGE_SIZE)

variable (sys : Sys)

/-- `dbg_enable_page_bpt` for the entry `k`. -/
def dbg_enable_page_bpt (s : State) (k : Nat) (enable : Bool) : Bool × State :=
  match s.page_bpts.find k with
  | none => (false, s)
  | some bpt =>
    if decide (bpt.old_prot ≠ 0) = enable then (false, s)
    else if sys.protects bpt.page_ea then
      (true, ⟨virtualProtect s.prot bpt.page_ea (wrap bpt.real_len) (if enable then bpt.new_prot else bpt.old_prot),
        s.page_bpts.modify k fun p => { p with old_prot := if enable then s.at bpt.page_ea else 0 }⟩)
    else if enable then (false, s)
    else (true, { s with page_bpts := s.page_bpts.modify k fun p => { p with old_prot := 0 } })

def enable_page_bpts (s : State) (enable : Bool) : State :=
  s.page_bpts.keys.foldl (fun s k => (dbg_enable_page_bpt sys s k enable).2) s

def MEM_FREE : Nat := 0x10000

/-- `page_bpts.insert`, and the assignment of all fields. -/
def record (k : Nat) (bpt : Bpt) : page_bpts_t :=
  (t.insertNew k bpt).modify k fun _ => bpt

/-- The length of an addition rounded up to pages. -/
def aligned_len (ea : Nat) (size : Int) : Int := int32 (align_up (wrap (ea - calc_page_base ea + size)))

/-- The new entry: `removed` says that there is a protection to set. -/
def new_bpt (type ea : Nat) (size : Int) (removed : Bool) (prot old_prot : Nat) : Bpt :=
  ⟨ea, calc_page_base ea, size, aligned_len ea size, if removed then aligned_len ea size else 0, old_prot, prot, type⟩

def State.add (s : State) (bpt : Bpt) : State := { s with page_bpts := record s.page_bpts bpt.page_ea bpt }

def write_page_bpt (s : State) (bpt : Bpt) : Nat × State :=
  match dbg_enable_page_bpt sys (s.add bpt) bpt.page_ea true with
  | (ok, s) => (if ok then 2 else 0, s)

/-- `dbg_add_page_bpt` once the new protection is known. -/
def place_page_bpt (s : State) (type ea : Nat) (size : Int) (removed : Bool) (prot : Nat) : Nat × State :=
  if (new_bpt type ea size removed prot 0).real_len = 0 then
    (2, s.add (new_bpt type ea size removed prot (s.at (calc_page_base ea))))
  else
    write_page_bpt sys s (new_bpt type ea size removed prot 0)

/-- `dbg_add_page_bpt`: nothing for a failing assertion. -/
def dbg_add_page_bpt (s : State) (type ea : Nat) (size : Int) : Option (Nat × State) :=
  if (find_page_bpt s.page_bpts ea size).isSome then some (0, s)
  else
    match sys.query with
    | none => some (0, s)
    | some state =>
      if state &&& MEM_FREE ≠ 0 then some (0, s)
      else if s.at (calc_page_base ea) = 0 then some (0, s)
      else
        (remove_page_protections sys.dep (s.at (calc_page_base ea)) type).map fun (removed, prot) =>
          place_page_bpt sys s type ea size removed prot

/-- `del_page_bpt`. -/
def del_page_bpt (s : State) (ea type : Nat) : Bool × State :=
  match find_page_bpt s.page_bpts ea 1 with
  | none => (false, s)
  | some (k, bpt) =>
    if bpt.ea ≠ ea ∨ bpt.type ≠ type then (false, s)
    else
      match dbg_enable_page_bpt sys s k false with
      | (_, s) => (true, { s with page_bpts := s.page_bpts.erase k })

/-- What `mask_page_bpts` makes of an entry whose pages do not have the protection it set: the entry is changed so that
it is written again. -/
def adjust (protect : Nat) (pbd : Bpt) : Option Bpt :=
  if (protect = PAGE_WRITECOPY ∧ pbd.new_prot = PAGE_READWRITE) ∨
      (protect = PAGE_EXECUTE_WRITECOPY ∧ pbd.new_prot = PAGE_EXECUTE_READWRITE) then
    some pbd
  else
    (remove_page_protections dep protect pbd.type).map fun (removed, prot) =>
      if removed then { pbd with new_prot := prot, old_prot := 0 } else pbd

/-- The loop of `mask_page_bpts` over the entries from a key on: the table and `newprot`. -/
def mask_loop (dep : Dep) (startea endea protect : Nat) : List Nat → page_bpts_t → Nat → Option (page_bpts_t × Nat)
  | [], t, newprot => some (t, newprot)
  | k :: ks, t, newprot =>
    match t.find k with
    | none => mask_loop dep startea endea protect ks t newprot
    | some pbd =>
      if startea < wrap (pbd.page_ea + pbd.real_len) then
        if endea ≤ pbd.page_ea then some (t, newprot)
        else if pbd.old_prot ≠ 0 then
          if protect = pbd.new_prot then mask_loop dep startea endea protect ks t pbd.old_prot
          else
            match adjust dep protect pbd with
            | none => none
            | some pbd => mask_loop dep startea endea protect ks (t.modify k fun _ => pbd) newprot
        else mask_loop dep startea endea protect ks t newprot
      else mask_loop dep startea endea protect ks t newprot

/-- `mask_page_bpts`: whether it changed the protection, the protection, and the table. -/
def mask_page_bpts (t : page_bpts_t) (startea endea protect : Nat) : Option (Bool × Nat × page_bpts_t) :=
  (mask_loop dep startea endea protect t.keys t 0).map fun (t, newprot) =>
    if newprot ≠ 0 then (true, newprot, t) else (false, protect, t)

end IdaSdk.PageBpts
