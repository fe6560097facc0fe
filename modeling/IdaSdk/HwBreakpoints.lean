import Mathlib.Logic.Function.Basic
import Mathlib.Tactic.Common

/-!
Hardware breakpoints on x86. `pc_debmod_t` keeps four slots and an image of DR7; adding and deleting
a breakpoint changes both and then writes the debug registers of every thread. A `Table` says which
breakpoint each slot holds, with the length it was added with, which the debugger does not keep.
-/

namespace IdaSdk.HwBpt

abbrev ea_t := BitVec 64
abbrev uint32 := BitVec 32
abbrev bpttype_t := BitVec 32
abbrev Slot := Fin 4

def BADADDR : ea_t := -1

def BPT_WRITE : bpttype_t := 1
def BPT_READ : bpttype_t := 2
def BPT_RDWR : bpttype_t := 3
def BPT_SOFT : bpttype_t := 4
def BPT_EXEC : bpttype_t := 8

/-- What the process answers: its threads, the outcome of writing one of their debug registers, and
its memory. `read_memory` and `write_memory` return what `dbg_read_memory` and `dbg_write_memory` do. -/
structure Process where
  threads : List Nat
  set_dr : Nat → Nat → ea_t → Bool
  read_memory : ea_t → Nat → Int × List UInt8
  write_memory : ea_t → List UInt8 → Int

structure debmod_bpt_t where
  ea : ea_t
  saved : List UInt8

structure State where
  hwbpt_ea : Slot → ea_t
  hwbpt_type : Slot → bpttype_t
  dr6 : uint32
  dr7 : uint32
  bpts : ea_t → Option debmod_bpt_t
  removed_bpts : ea_t → Bool

def cleanup_hwbpts (s : State) : State :=
  { s with hwbpt_ea := fun _ => BADADDR, hwbpt_type := fun _ => 0, dr6 := 0, dr7 := 0x100 }

def State.start : State :=
  cleanup_hwbpts ⟨fun _ => 0, fun _ => 0, 0, 0, fun _ => none, fun _ => false⟩

variable (p : Process)

def Process.set_hwbpts (s : State) (tid : Nat) : Bool :=
  let dr := fun idx (ea : ea_t) => p.set_dr tid idx (if ea = BADADDR then 0 else ea)
  dr 0 (s.hwbpt_ea 0) && dr 1 (s.hwbpt_ea 1) && dr 2 (s.hwbpt_ea 2) && dr 3 (s.hwbpt_ea 3) &&
    dr 6 0 && dr 7 (s.dr7.setWidth 64)

/-- Nothing but the outcome comes back from writing the registers. -/
def Process.refresh_hwbpts (s : State) : Bool :=
  p.threads.all (p.set_hwbpts s)

/-- The loop of `find_hwbpt_slot`. -/
def find_hwbpt_slot.loop (s : State) (ea : ea_t) (type : bpttype_t) : List Slot → Option Slot
  | [] => none
  | i :: rest =>
      if s.hwbpt_ea i = ea ∧ s.hwbpt_type i = type then none
      else if s.hwbpt_ea i = BADADDR then some i
      else find_hwbpt_slot.loop s ea type rest

def find_hwbpt_slot (s : State) (ea : ea_t) (type : bpttype_t) : Option Slot :=
  find_hwbpt_slot.loop s ea type [0, 1, 2, 3]

def typeCode (type : bpttype_t) : uint32 :=
  if type = BPT_EXEC then 0 else type

variable (len : Int)

def lenCode : uint32 :=
  if len = 2 then 1 else if len = 4 then 3 else if len = 8 then 2 else 0

def State.put (s : State) (i : Slot) (type : bpttype_t) (ea : ea_t) (len : Int) : State :=
  { s with
    hwbpt_ea := Function.update s.hwbpt_ea i ea
    hwbpt_type := Function.update s.hwbpt_type i type
    dr7 := s.dr7 ||| (1 : uint32) <<< (2 * i.val) ||| typeCode type <<< (16 + 4 * i.val) |||
      lenCode len <<< (18 + 4 * i.val) }

def add_hwbpt (type : bpttype_t) (ea : ea_t) (len : Int) (s : State) : Bool × State :=
  match find_hwbpt_slot s ea type with
  | none => (false, s)
  | some i => (p.refresh_hwbpts (s.put i type ea len), s.put i type ea len)

def State.clear (s : State) (i : Slot) : State :=
  { s with
    hwbpt_ea := Function.update s.hwbpt_ea i BADADDR
    dr7 := s.dr7 &&& ~~~((3 : uint32) <<< (2 * i.val)) &&& ~~~((0xF : uint32) <<< (16 + 4 * i.val)) }

def find_hwbpt (s : State) (ea : ea_t) (type : bpttype_t) : Option Slot :=
  [0, 1, 2, 3].find? fun i => s.hwbpt_ea i = ea ∧ s.hwbpt_type i = type

def del_hwbpt (ea : ea_t) (type : bpttype_t) (s : State) : Bool × State :=
  match find_hwbpt s ea type with
  | none => (false, s)
  | some i => (p.refresh_hwbpts (s.clear i), s.clear i)

def bpt_code : List UInt8 := [0xCC]

inductive Outcome where
  | ok
  | failed
  | readFailed
  | interr
  deriving DecidableEq, Repr

def Outcome.ofBool (b : Bool) : Outcome := if b then .ok else .failed

/-- `orig_bytes` says whether the caller wants the original bytes, `can_cont_bpt` is
`DBG_FLAG_CAN_CONT_BPT`. -/
def read_bpt_orgbytes_ok (can_cont_bpt : Bool) (ea : ea_t) (len : Int) : Bool :=
  can_cont_bpt || (p.read_memory ea len.toNat).1 > 0

def softLen : Int := if len < 0 then bpt_code.length else len

def dbg_add_bpt (orig_bytes can_cont_bpt : Bool) (type : bpttype_t) (ea : ea_t)
    (len : Int) (s : State) : Outcome × State :=
  if type = BPT_SOFT then
    if orig_bytes ∧ ¬ read_bpt_orgbytes_ok p can_cont_bpt ea len then (.readFailed, s)
    else
      let len := softLen len
      if ¬ (0 < len ∧ len ≤ bpt_code.length) then (.interr, s)
      else
        let (nread, saved) := p.read_memory ea len.toNat
        if nread ≠ 0 ∧ p.write_memory ea (bpt_code.take len.toNat) = len then
          (.ok, { s with
            bpts := Function.update s.bpts ea (some ⟨ea, saved⟩)
            removed_bpts := Function.update s.removed_bpts ea false })
        else
          let (ok, s) := add_hwbpt p type ea len s
          (.ofBool ok, s)
  else
    let (ok, s) := add_hwbpt p type ea len s
    (.ofBool ok, s)

def dbg_del_bpt (type : bpttype_t) (ea : ea_t) (orig_bytes : Option (List UInt8))
    (s : State) : Outcome × State :=
  match orig_bytes with
  | some bytes =>
      if p.write_memory ea bytes = bytes.length then
        (.ok, { s with removed_bpts := Function.update s.removed_bpts ea true })
      else
        let (ok, s) := del_hwbpt p ea type s
        (.ofBool ok, s)
  | none =>
      let (ok, s) := del_hwbpt p ea type s
      (.ofBool ok, s)

inductive Call where
  | add_hwbpt (type : bpttype_t) (ea : ea_t) (len : Int)
  | del_hwbpt (ea : ea_t) (type : bpttype_t)
  | dbg_add_bpt (orig_bytes can_cont_bpt : Bool) (type : bpttype_t) (ea : ea_t) (len : Int)
  | dbg_del_bpt (type : bpttype_t) (ea : ea_t) (orig_bytes : Option (List UInt8))

def Call.run : Call → State → Outcome × State
  | .add_hwbpt type ea len, s => ((.ofBool (HwBpt.add_hwbpt p type ea len s).1), (HwBpt.add_hwbpt p type ea len s).2)
  | .del_hwbpt ea type, s => ((.ofBool (HwBpt.del_hwbpt p ea type s).1), (HwBpt.del_hwbpt p ea type s).2)
  | .dbg_add_bpt orig_bytes can_cont_bpt type ea len, s =>
      HwBpt.dbg_add_bpt p orig_bytes can_cont_bpt type ea len s
  | .dbg_del_bpt type ea orig_bytes, s => HwBpt.dbg_del_bpt p type ea orig_bytes s

/-- A breakpoint as it was asked for. -/
structure Bpt where
  type : bpttype_t
  ea : ea_t
  len : Int
  deriving DecidableEq

abbrev Table := Slot → Option Bpt

def Table.empty : Table := fun _ => none

/-- What a call asks of the debug registers. -/
inductive Request where
  | add (b : Bpt)
  | del (ea : ea_t) (type : bpttype_t)
  | none

def Call.request : Call → Request
  | .add_hwbpt type ea len => .add ⟨type, ea, len⟩
  | .del_hwbpt ea type => .del ea type
  | .dbg_add_bpt orig_bytes can_cont_bpt type ea len =>
      if type = BPT_SOFT then
        if orig_bytes ∧ ¬ read_bpt_orgbytes_ok p can_cont_bpt ea len then .none
        else if ¬ (0 < softLen len ∧ softLen len ≤ bpt_code.length) then .none
        else if (p.read_memory ea (softLen len).toNat).1 ≠ 0 ∧
            p.write_memory ea (bpt_code.take (softLen len).toNat) = softLen len then .none
        else .add ⟨type, ea, softLen len⟩
      else .add ⟨type, ea, len⟩
  | .dbg_del_bpt type ea (some bytes) =>
      if p.write_memory ea bytes = bytes.length then .none else .del ea type
  | .dbg_del_bpt type ea none => .del ea type

variable (v : Table)

/-- No two slots hold the same address and type. -/
def Table.Holds (ea : ea_t) (type : bpttype_t) (i : Slot) : Prop :=
  ∃ b, v i = some b ∧ b.ea = ea ∧ b.type = type

instance (v : Table) (ea : ea_t) (type : bpttype_t) : DecidablePred (v.Holds ea type) := fun i =>
  match h : v i with
  | none => .isFalse (by rintro ⟨b, hb, _⟩; rw [h] at hb; cases hb)
  | some b =>
      if hb : b.ea = ea ∧ b.type = type then .isTrue ⟨b, h, hb⟩
      else .isFalse (by rintro ⟨c, hc, hc'⟩; rw [h] at hc; cases hc; exact hb hc')

/-- What should become of the table: a breakpoint that is there already, that is nowhere, or that
finds no room, is refused; another one takes the first free slot. -/
def Table.add (b : Bpt) : Table :=
  if b.ea = BADADDR ∨ ∃ i, v.Holds b.ea b.type i then v
  else
    match [0, 1, 2, 3].find? fun i => v i = none with
    | none => v
    | some i => Function.update v i (some b)

def Table.del (ea : ea_t) (type : bpttype_t) : Table :=
  fun i => if v.Holds ea type i then none else v i

def Table.serve : Request → Table
  | .add b => v.add b
  | .del ea type => v.del ea type
  | .none => v

/-- The table and the state after a list of calls, each with the process as the call finds it. -/
def tableAfter : List (Process × Call) → Table
  | calls => calls.foldl (fun v c => v.serve (c.2.request c.1)) Table.empty

def stateAfter : List (Process × Call) → State
  | calls => calls.foldl (fun s c => (c.2.run c.1 s).2) State.start

def enableField (dr7 : uint32) (i : Slot) : uint32 := (dr7 >>> (2 * i.val)) &&& 3
def typeField (dr7 : uint32) (i : Slot) : uint32 := (dr7 >>> (16 + 4 * i.val)) &&& 3
def lenField (dr7 : uint32) (i : Slot) : uint32 := (dr7 >>> (18 + 4 * i.val)) &&& 3

def otherBits : uint32 := 0xFF00

/-- The slots and DR7 hold the breakpoints of the table. -/
structure Describes (v : Table) (s : State) : Prop where
  distinct : ∀ i j, i ≠ j → s.hwbpt_ea i ≠ BADADDR →
    ¬ (s.hwbpt_ea i = s.hwbpt_ea j ∧ s.hwbpt_type i = s.hwbpt_type j)
  used : ∀ i b, v i = some b → s.hwbpt_ea i = b.ea ∧ s.hwbpt_type i = b.type ∧ b.ea ≠ BADADDR ∧
    enableField s.dr7 i = 1 ∧ typeField s.dr7 i = typeCode b.type ∧ lenField s.dr7 i = lenCode b.len
  free : ∀ i, v i = none → s.hwbpt_ea i = BADADDR ∧ enableField s.dr7 i = 0 ∧
    typeField s.dr7 i = 0 ∧ lenField s.dr7 i = 0
  others : s.dr7 &&& otherBits = 0x100

/-- The same breakpoints in the same slots, and the same DR7. -/
def SameHw (s s' : State) : Prop :=
  s.hwbpt_ea = s'.hwbpt_ea ∧ (∀ i, s.hwbpt_ea i ≠ BADADDR → s.hwbpt_type i = s'.hwbpt_type i) ∧
    s.dr7 = s'.dr7

def Encodable (type : bpttype_t) : Prop := type = BPT_EXEC ∨ type < 4

/-- What a call has to meet in a state: an addition that finds a free slot is of a type DR7 can hold,
at an address that does not mark a free slot and that no slot holds with the type; and where the
slots change, the debug registers can be written. -/
def Call.Safe (c : Call) (s : State) : Prop :=
  match c.request p with
  | .add b => ∀ i, find_hwbpt_slot s b.ea b.type = some i →
      Encodable b.type ∧ b.ea ≠ BADADDR ∧
        (∀ j, ¬ (s.hwbpt_ea j = b.ea ∧ s.hwbpt_type j = b.type)) ∧
        p.refresh_hwbpts (s.put i b.type b.ea b.len) = true
  | .del ea type => ∀ i, find_hwbpt s ea type = some i → ea ≠ BADADDR →
      p.refresh_hwbpts (s.clear i) = true
  | .none => True

/-- Every call of the list is safe in the state it meets. -/
def Safe : State → List (Process × Call) → Prop
  | _, [] => True
  | s, c :: calls => c.2.Safe c.1 s ∧ Safe (c.2.run c.1 s).2 calls

/-! ### DR7 as the union of what the slots need -/

/-- What a slot needs in DR7 for a type and a length. -/
def slotBits (type len : uint32) (i : Slot) : uint32 :=
  (1 : uint32) <<< (2 * i.val) ||| type <<< (16 + 4 * i.val) ||| len <<< (18 + 4 * i.val)

def Table.bits (i : Slot) : uint32 :=
  match v i with
  | none => 0
  | some b => slotBits (typeCode b.type) (lenCode b.len) i

def Table.dr7 : uint32 :=
  0x100 ||| v.bits 0 ||| v.bits 1 ||| v.bits 2 ||| v.bits 3

def code (k : Fin 4) : uint32 := BitVec.ofNat 32 k.val

variable {type : bpttype_t}

theorem typeCode_eq (h : Encodable type) : ∃ k, typeCode type = code k := by
  rcases h with rfl | h
  · exact ⟨0, rfl⟩
  have hne : type ≠ BPT_EXEC := by
    rintro rfl
    exact absurd h (by decide)
  have hlt : type.toNat < 4 := h
  refine ⟨⟨type.toNat, hlt⟩, ?_⟩
  rw [typeCode, if_neg hne, code, BitVec.ofNat_toNat, BitVec.setWidth_eq]

theorem lenCode_eq : ∃ k, lenCode len = code k := by
  unfold lenCode
  split
  · exact ⟨1, rfl⟩
  split
  · exact ⟨3, rfl⟩
  split
  · exact ⟨2, rfl⟩
  · exact ⟨0, rfl⟩

theorem slotBits_fields : ∀ type len i j : Fin 4,
    enableField (slotBits (code type) (code len) i) j = (if i = j then 1 else 0) ∧
      typeField (slotBits (code type) (code len) i) j = (if i = j then code type else 0) ∧
      lenField (slotBits (code type) (code len) i) j = (if i = j then code len else 0) ∧
      slotBits (code type) (code len) i &&& otherBits = 0 := by
  decide +kernel

theorem slotBits_clear : ∀ type len i j : Fin 4,
    slotBits (code type) (code len) i &&& ~~~((3 : uint32) <<< (2 * j.val)) &&&
      ~~~((0xF : uint32) <<< (16 + 4 * j.val)) =
        if i = j then 0 else slotBits (code type) (code len) i := by
  decide +kernel

theorem field_or (x y m : uint32) (k : Nat) :
    ((x ||| y) >>> k) &&& m = ((x >>> k) &&& m) ||| ((y >>> k) &&& m) := by
  rw [BitVec.ushiftRight_or_distrib, BitVec.and_or_distrib_right]

theorem apply_dr7 {f : uint32 → uint32} (hor : ∀ x y, f (x ||| y) = f x ||| f y) (v : Table) (j : Slot)
    (hz : ∀ i, i ≠ j → f (v.bits i) = 0) : f v.dr7 = f 0x100 ||| f (v.bits j) := by
  have h0 : j ≠ 0 → f (v.bits 0) = 0 := fun h => hz 0 h.symm
  have h1 : j ≠ 1 → f (v.bits 1) = 0 := fun h => hz 1 h.symm
  have h2 : j ≠ 2 → f (v.bits 2) = 0 := fun h => hz 2 h.symm
  have h3 : j ≠ 3 → f (v.bits 3) = 0 := fun h => hz 3 h.symm
  simp only [Table.dr7, hor]
  match j with
  | 0 => simp [h1, h2, h3]
  | 1 => simp [h0, h2, h3]
  | 2 => simp [h0, h1, h3]
  | 3 => simp [h0, h1, h2]

def Table.Encodable : Prop := ∀ i b, v i = some b → HwBpt.Encodable b.type

variable {v : Table} {i : Slot}

theorem bits_of_none (h : v i = none) : v.bits i = 0 := by
  rw [Table.bits, h]

theorem bits_of_some {b : Bpt} (h : v i = some b) :
    v.bits i = slotBits (typeCode b.type) (lenCode b.len) i := by
  rw [Table.bits, h]

theorem bits_eq (hv : v.Encodable) {b : Bpt} (h : v i = some b) :
    ∃ type len, v.bits i = slotBits (code type) (code len) i ∧ typeCode b.type = code type ∧
      lenCode b.len = code len := by
  obtain ⟨type, htype⟩ := typeCode_eq (hv i b h)
  obtain ⟨len, hlen⟩ := lenCode_eq b.len
  exact ⟨type, len, by rw [bits_of_some h, htype, hlen], htype, hlen⟩

section Fields

variable {v : Table} (hv : v.Encodable)
include hv

theorem bits_fields (i j : Slot) (hij : i ≠ j) : enableField (v.bits i) j = 0 ∧
    typeField (v.bits i) j = 0 ∧ lenField (v.bits i) j = 0 := by
  cases h : v i with
  | none =>
      rw [bits_of_none h]
      simp [enableField, typeField, lenField]
  | some b =>
      obtain ⟨type, len, hbits, _, _⟩ := bits_eq hv h
      have hfields := slotBits_fields type len i j
      rw [if_neg hij, if_neg hij, if_neg hij] at hfields
      rw [hbits]
      exact ⟨hfields.1, hfields.2.1, hfields.2.2.1⟩

theorem fields_dr7 (i : Slot) : enableField v.dr7 i = enableField (v.bits i) i ∧
    typeField v.dr7 i = typeField (v.bits i) i ∧ lenField v.dr7 i = lenField (v.bits i) i := by
  have hbase : ∀ i : Slot, enableField 0x100 i = 0 ∧ typeField 0x100 i = 0 ∧ lenField 0x100 i = 0 := by
    decide
  refine ⟨?_, ?_, ?_⟩
  · rw [apply_dr7 (f := fun x => enableField x i) (fun x y => field_or x y 3 _) v i
      (fun j hj => (bits_fields hv j i hj).1)]
    exact (congrArg (· ||| _) (hbase i).1).trans BitVec.zero_or
  · rw [apply_dr7 (f := fun x => typeField x i) (fun x y => field_or x y 3 _) v i
      (fun j hj => (bits_fields hv j i hj).2.1)]
    exact (congrArg (· ||| _) (hbase i).2.1).trans BitVec.zero_or
  · rw [apply_dr7 (f := fun x => lenField x i) (fun x y => field_or x y 3 _) v i
      (fun j hj => (bits_fields hv j i hj).2.2)]
    exact (congrArg (· ||| _) (hbase i).2.2).trans BitVec.zero_or

theorem bits_others (i : Slot) : v.bits i &&& otherBits = 0 := by
  cases h : v i with
  | none =>
      rw [bits_of_none h]
      simp
  | some b =>
      obtain ⟨type, len, hbits, _, _⟩ := bits_eq hv h
      rw [hbits]
      exact (slotBits_fields type len i i).2.2.2

theorem others_dr7 : v.dr7 &&& otherBits = 0x100 := by
  simp only [Table.dr7, BitVec.and_or_distrib_right, bits_others hv]
  decide

theorem bits_clear (i j : Slot) : v.bits i &&& ~~~((3 : uint32) <<< (2 * j.val)) &&&
    ~~~((0xF : uint32) <<< (16 + 4 * j.val)) = if i = j then 0 else v.bits i := by
  cases h : v i with
  | none =>
      rw [bits_of_none h]
      simp
  | some b =>
      obtain ⟨type, len, hbits, _, _⟩ := bits_eq hv h
      rw [hbits]
      exact slotBits_clear type len i j

end Fields

theorem bits_update (i j : Slot) (x : Option Bpt) :
    Table.bits (Function.update v i x) j = if j = i then Table.bits (fun _ => x) i else v.bits j := by
  by_cases h : j = i
  · rw [if_pos h, h, Table.bits, Table.bits, Function.update_self]
  · rw [if_neg h, Table.bits, Table.bits, Function.update_of_ne h]

theorem dr7_put (hfree : v i = none) (b : Bpt) :
    Table.dr7 (Function.update v i (some b)) = v.dr7 ||| slotBits (typeCode b.type) (lenCode b.len) i := by
  have hi := bits_of_none hfree
  simp only [Table.dr7, bits_update]
  change _ = _ ||| Table.bits (fun _ => some b) i
  match i with
  | 0 =>
      simp only [hi, Fin.reduceEq, if_true, if_false]
      ac_rfl
  | 1 =>
      simp only [hi, Fin.reduceEq, if_true, if_false]
      ac_rfl
  | 2 =>
      simp only [hi, Fin.reduceEq, if_true, if_false]
      ac_rfl
  | 3 =>
      simp only [hi, Fin.reduceEq, if_true, if_false]
      ac_rfl

theorem dr7_clear (hv : v.Encodable) (i : Slot) :
    v.dr7 &&& ~~~((3 : uint32) <<< (2 * i.val)) &&& ~~~((0xF : uint32) <<< (16 + 4 * i.val)) =
      Table.dr7 (Function.update v i none) := by
  have hbase : ∀ i : Slot, (0x100 : uint32) &&& ~~~((3 : uint32) <<< (2 * i.val)) &&&
      ~~~((0xF : uint32) <<< (16 + 4 * i.val)) = 0x100 := by decide
  simp only [Table.dr7, BitVec.and_or_distrib_right, bits_clear hv, hbase, bits_update]
  match i with
  | 0 => simp [Table.bits]
  | 1 => simp [Table.bits]
  | 2 => simp [Table.bits]
  | 3 => simp [Table.bits]

/-! ### The calls against the table -/

/-- The slots hold the table, and DR7 is the union of what they need. -/
structure Represents (v : Table) (s : State) : Prop where
  used : ∀ i b, v i = some b →
    s.hwbpt_ea i = b.ea ∧ s.hwbpt_type i = b.type ∧ b.ea ≠ BADADDR ∧ Encodable b.type
  free : ∀ i, v i = none → s.hwbpt_ea i = BADADDR
  distinct : ∀ i j b c, i ≠ j → v i = some b → v j = some c → ¬ (b.ea = c.ea ∧ b.type = c.type)
  dr7 : s.dr7 = v.dr7

theorem represents_start : Represents Table.empty State.start where
  used := nofun
  free := fun _ _ => rfl
  distinct := nofun
  dr7 := by decide

namespace Represents

variable {v : Table} {s : State} (h : Represents v s)
include h

theorem encodable : v.Encodable := fun i b hb => (h.used i b hb).2.2.2

theorem free_iff (i : Slot) : s.hwbpt_ea i = BADADDR ↔ v i = none := by
  constructor
  · intro hea
    cases hv : v i with
    | none => rfl
    | some b =>
        obtain ⟨hb, _, hne, _⟩ := h.used i b hv
        exact absurd (hb.symm.trans hea) hne
  · exact h.free i

theorem holds_iff {ea : ea_t} (hea : ea ≠ BADADDR) (type : bpttype_t) (i : Slot) :
    v.Holds ea type i ↔ s.hwbpt_ea i = ea ∧ s.hwbpt_type i = type := by
  constructor
  · rintro ⟨b, hb, rfl, rfl⟩
    exact ⟨(h.used i b hb).1, (h.used i b hb).2.1⟩
  rintro ⟨hi, htype⟩
  cases hv : v i with
  | none => exact absurd (hi.symm.trans (h.free i hv)) hea
  | some b =>
      obtain ⟨hb, hb', _, _⟩ := h.used i b hv
      exact ⟨b, hv, hb.symm.trans hi, hb'.symm.trans htype⟩

theorem describes : Describes v s where
  distinct := by
    intro i j hij hea hsame
    cases hi : v i with
    | none => exact hea (h.free i hi)
    | some b =>
        obtain ⟨hb, hbt, hne, _⟩ := h.used i b hi
        cases hj : v j with
        | none => exact hea (hsame.1.trans (h.free j hj))
        | some c =>
            obtain ⟨hc, hct, _, _⟩ := h.used j c hj
            exact h.distinct i j b c hij hi hj
              ⟨hb.symm.trans (hsame.1.trans hc), hbt.symm.trans (hsame.2.trans hct)⟩
  used := by
    intro i b hb
    obtain ⟨hea, htype, hne, henc⟩ := h.used i b hb
    obtain ⟨type, len, hbits, htypec, hlenc⟩ := bits_eq h.encodable hb
    have hfields := slotBits_fields type len i i
    rw [if_pos rfl, if_pos rfl, if_pos rfl, ← hbits, ← htypec, ← hlenc] at hfields
    rw [h.dr7, (fields_dr7 h.encodable i).1, (fields_dr7 h.encodable i).2.1,
      (fields_dr7 h.encodable i).2.2]
    exact ⟨hea, htype, hne, hfields.1, hfields.2.1, hfields.2.2.1⟩
  free := by
    intro i hi
    rw [h.dr7, (fields_dr7 h.encodable i).1, (fields_dr7 h.encodable i).2.1,
      (fields_dr7 h.encodable i).2.2, bits_of_none hi]
    exact ⟨h.free i hi, by simp [enableField, typeField, lenField]⟩
  others := by
    rw [h.dr7]
    exact others_dr7 h.encodable

theorem put {i : Slot} {b : Bpt} (hfree : v i = none) (henc : HwBpt.Encodable b.type)
    (hea : b.ea ≠ BADADDR) (hnew : ∀ j, ¬ v.Holds b.ea b.type j) :
    Represents (Function.update v i (some b)) (s.put i b.type b.ea b.len) where
  used := by
    intro j c hj
    by_cases hji : j = i
    · subst hji
      rw [Function.update_self, Option.some.injEq] at hj
      subst hj
      exact ⟨Function.update_self .., Function.update_self .., hea, henc⟩
    · rw [Function.update_of_ne hji] at hj
      simp only [State.put, Function.update_of_ne hji]
      exact h.used j c hj
  free := by
    intro j hj
    have hji : j ≠ i := by
      rintro rfl
      rw [Function.update_self] at hj
      cases hj
    rw [Function.update_of_ne hji] at hj
    simp only [State.put, Function.update_of_ne hji]
    exact h.free j hj
  distinct := by
    intro j k c d hjk hj hk hsame
    by_cases hji : j = i
    · subst hji
      rw [Function.update_self, Option.some.injEq] at hj
      rw [Function.update_of_ne hjk.symm] at hk
      exact hnew k ⟨d, hk, hj ▸ hsame.1.symm, hj ▸ hsame.2.symm⟩
    rw [Function.update_of_ne hji] at hj
    by_cases hki : k = i
    · subst hki
      rw [Function.update_self, Option.some.injEq] at hk
      exact hnew j ⟨c, hj, hk ▸ hsame.1, hk ▸ hsame.2⟩
    rw [Function.update_of_ne hki] at hk
    exact h.distinct j k c d hjk hj hk hsame
  dr7 := by
    rw [dr7_put hfree b, ← h.dr7]
    simp only [State.put, slotBits, BitVec.or_assoc]

theorem clear (i : Slot) : Represents (Function.update v i none) (s.clear i) where
  used := by
    intro j c hj
    have hji : j ≠ i := by
      rintro rfl
      rw [Function.update_self] at hj
      cases hj
    rw [Function.update_of_ne hji] at hj
    simp only [State.clear, Function.update_of_ne hji]
    exact h.used j c hj
  free := by
    intro j hj
    by_cases hji : j = i
    · subst hji
      simp only [State.clear, Function.update_self]
    · rw [Function.update_of_ne hji] at hj
      simp only [State.clear, Function.update_of_ne hji]
      exact h.free j hj
  distinct := by
    intro j k c d hjk hj hk
    have hne : ∀ {m : Slot} {e : Bpt}, Function.update v i none m = some e → v m = some e := by
      intro m e hm
      by_cases hmi : m = i
      · subst hmi
        rw [Function.update_self] at hm
        cases hm
      · rwa [Function.update_of_ne hmi] at hm
    exact h.distinct j k c d hjk (hne hj) (hne hk)
  dr7 := by
    rw [← dr7_clear h.encodable, ← h.dr7]
    rfl

end Represents

variable {s : State}

theorem find_loop_some {ea : ea_t} {l : List Slot}
    (h : find_hwbpt_slot.loop s ea type l = some i) :
    l.find? (fun i => s.hwbpt_ea i = BADADDR) = some i := by
  induction l with
  | nil => simp [find_hwbpt_slot.loop] at h
  | cons j rest ih =>
      rw [find_hwbpt_slot.loop] at h
      split at h
      · cases h
      split at h
      · next hfree =>
          cases h
          rw [List.find?_cons_of_pos (by simpa using hfree)]
      · next hused =>
          rw [List.find?_cons_of_neg (by simpa using hused)]
          exact ih h

theorem find_loop_none {ea : ea_t} {l : List Slot}
    (h : find_hwbpt_slot.loop s ea type l = none) :
    (∃ i, s.hwbpt_ea i = ea ∧ s.hwbpt_type i = type) ∨
      l.find? (fun i => s.hwbpt_ea i = BADADDR) = none := by
  induction l with
  | nil => exact .inr rfl
  | cons j rest ih =>
      rw [find_hwbpt_slot.loop] at h
      split at h
      · next hsame => exact .inl ⟨j, hsame⟩
      split at h
      · cases h
      · next hused =>
          rw [List.find?_cons_of_neg (by simpa using hused)]
          exact ih h

theorem mem_slots : ∀ i : Slot, i ∈ ([0, 1, 2, 3] : List Slot) := by decide

section Calls

variable {v : Table} {s : State} (h : Represents v s) (p : Process) (c : Call)
include h

theorem find_free_eq : ([0, 1, 2, 3] : List Slot).find? (fun i => s.hwbpt_ea i = BADADDR) =
    [0, 1, 2, 3].find? fun i => v i = none := by
  simp only [h.free_iff]

variable {i : Slot}

theorem add_of_found {b : Bpt} (hi : find_hwbpt_slot s b.ea b.type = some i)
    (hea : b.ea ≠ BADADDR) (hnew : ∀ j, ¬ (s.hwbpt_ea j = b.ea ∧ s.hwbpt_type j = b.type)) :
    v i = none ∧ v.add b = Function.update v i (some b) := by
  have hfind := find_loop_some hi
  rw [find_free_eq h] at hfind
  have hno : ¬ (b.ea = BADADDR ∨ ∃ i, v.Holds b.ea b.type i) := by
    rintro (hbad | ⟨j, hj⟩)
    · exact hea hbad
    · exact hnew j ((h.holds_iff hea b.type j).mp hj)
  refine ⟨by simpa using List.find?_some hfind, ?_⟩
  rw [Table.add, if_neg hno, hfind]

theorem add_of_not_found {b : Bpt} (hi : find_hwbpt_slot s b.ea b.type = none) : v.add b = v := by
  rw [Table.add]
  split
  · rfl
  rename_i hno
  rw [not_or] at hno
  rcases find_loop_none hi with ⟨j, hj⟩ | hfull
  · exact absurd ⟨j, (h.holds_iff hno.1 b.type j).mpr hj⟩ hno.2
  · rw [find_free_eq h] at hfull
    rw [hfull]

theorem del_of_found {ea : ea_t} {type : bpttype_t} (hi : find_hwbpt s ea type = some i)
    (hea : ea ≠ BADADDR) : v.del ea type = Function.update v i none := by
  have hsame : s.hwbpt_ea i = ea ∧ s.hwbpt_type i = type := by
    simpa using List.find?_some hi
  obtain ⟨b, hb, hbea, hbtype⟩ := (h.holds_iff hea type i).mpr hsame
  funext j
  by_cases hji : j = i
  · rw [hji, Function.update_self, Table.del, if_pos ⟨b, hb, hbea, hbtype⟩]
  · rw [Function.update_of_ne hji, Table.del, if_neg]
    rintro ⟨c, hc, hcea, hctype⟩
    exact h.distinct j i c b hji hc hb ⟨hcea.trans hbea.symm, hctype.trans hbtype.symm⟩

theorem del_of_not_held {ea : ea_t} {type : bpttype_t}
    (hno : ea = BADADDR ∨ find_hwbpt s ea type = none) : v.del ea type = v := by
  funext j
  rw [Table.del, if_neg]
  rintro ⟨b, hb, rfl, rfl⟩
  obtain ⟨hbea, hbtype, hne, _⟩ := h.used j b hb
  rcases hno with hbad | hnone
  · exact hne hbad
  · have := List.find?_eq_none.mp hnone j (mem_slots j)
    simp [hbea, hbtype] at this

theorem clear_of_free (hi : s.hwbpt_ea i = BADADDR) :
    Function.update v i none = v ∧ SameHw (s.clear i) s := by
  have hnone := (h.free_iff i).mp hi
  have hv : Function.update v i none = v := by rw [← hnone, Function.update_eq_self]
  refine ⟨hv, ?_, fun _ _ => rfl, ?_⟩
  · simp only [State.clear]
    rw [← hi, Function.update_eq_self]
  · rw [(h.clear i).dr7, hv, h.dr7]

end Calls

/-! ### What a call does, by its request -/

/-- The parts of the state that the debug registers are made of. -/
def State.hw (s : State) : (Slot → ea_t) × (Slot → bpttype_t) × uint32 :=
  (s.hwbpt_ea, s.hwbpt_type, s.dr7)

theorem Represents.of_hw {s' : State} (h : Represents v s) (hs : s'.hw = s.hw) :
    Represents v s' := by
  simp only [State.hw, Prod.mk.injEq] at hs
  obtain ⟨hea, htype, hdr7⟩ := hs
  constructor
  · rw [hea, htype]
    exact h.used
  · rw [hea]
    exact h.free
  · exact h.distinct
  · rw [hdr7]
    exact h.dr7

theorem SameHw.of_hw {s' : State} (hs : s'.hw = s.hw) : SameHw s' s := by
  simp only [State.hw, Prod.mk.injEq] at hs
  exact ⟨hs.1, fun i _ => congrFun hs.2.1 i, hs.2.2⟩

section Requests

variable (p : Process) (c : Call) (s : State)

theorem run_none (hc : c.request p = .none) : (c.run p s).2.hw = s.hw := by
  cases c with
  | add_hwbpt type ea len => cases hc
  | del_hwbpt ea type => cases hc
  | dbg_add_bpt orig_bytes can_cont_bpt type ea len =>
      change ite _ _ _ = _ at hc
      simp only [Call.run, dbg_add_bpt]
      by_cases hsoft : type = BPT_SOFT
      · rw [if_pos hsoft] at hc ⊢
        split
        · rfl
        rename_i hread
        rw [if_neg hread] at hc
        split
        · rfl
        rename_i hlen
        rw [if_neg hlen] at hc
        split at hc
        · next hmem =>
            rw [if_pos hmem]
            rfl
        · cases hc
      · rw [if_neg hsoft] at hc
        cases hc
  | dbg_del_bpt type ea orig_bytes =>
      cases orig_bytes with
      | none => cases hc
      | some bytes =>
          change ite _ _ _ = _ at hc
          simp only [Call.run, dbg_del_bpt]
          split at hc
          · next hmem =>
              rw [if_pos hmem]
              rfl
          · cases hc

theorem run_add {b : Bpt} (hc : c.request p = .add b) :
    c.run p s = (.ofBool (add_hwbpt p b.type b.ea b.len s).1, (add_hwbpt p b.type b.ea b.len s).2) := by
  cases c with
  | add_hwbpt type ea len =>
      cases hc
      rfl
  | del_hwbpt ea type => cases hc
  | dbg_add_bpt orig_bytes can_cont_bpt type ea len =>
      change ite _ _ _ = _ at hc
      simp only [Call.run, dbg_add_bpt]
      by_cases hsoft : type = BPT_SOFT
      · rw [if_pos hsoft] at hc ⊢
        split at hc
        · cases hc
        rename_i hread
        rw [if_neg hread]
        split at hc
        · cases hc
        rename_i hlen
        rw [if_neg hlen]
        split at hc
        · cases hc
        · next hmem =>
            rw [if_neg hmem]
            cases hc
            rfl
      · rw [if_neg hsoft] at hc ⊢
        cases hc
        rfl
  | dbg_del_bpt type ea orig_bytes =>
      cases orig_bytes with
      | none => cases hc
      | some bytes =>
          change ite _ _ _ = _ at hc
          split at hc <;> cases hc

theorem run_del {ea : ea_t} {type : bpttype_t} (hc : c.request p = .del ea type) :
    c.run p s = (.ofBool (del_hwbpt p ea type s).1, (del_hwbpt p ea type s).2) := by
  cases c with
  | add_hwbpt type ea len => cases hc
  | del_hwbpt ea type =>
      cases hc
      rfl
  | dbg_add_bpt orig_bytes can_cont_bpt type ea len =>
      change ite _ _ _ = _ at hc
      repeat' split at hc
      all_goals cases hc
  | dbg_del_bpt type ea orig_bytes =>
      cases orig_bytes with
      | none =>
          cases hc
          rfl
      | some bytes =>
          change ite _ _ _ = _ at hc
          simp only [Call.run, dbg_del_bpt]
          split at hc
          · cases hc
          · next hmem =>
              rw [if_neg hmem]
              cases hc
              rfl

variable {p c s} {v : Table} (h : Represents v s) (hsafe : c.Safe p s)
include h hsafe

theorem step_represents : Represents (v.serve (c.request p)) (c.run p s).2 ∧
    ((c.run p s).1 ≠ .ok → SameHw (c.run p s).2 s) := by
  unfold Call.Safe at hsafe
  cases hc : c.request p with
  | none => exact ⟨h.of_hw (run_none p c s hc), fun _ => .of_hw (run_none p c s hc)⟩
  | add b =>
      rw [hc] at hsafe
      rw [run_add p c s hc, add_hwbpt]
      cases hi : find_hwbpt_slot s b.ea b.type with
      | none =>
          refine ⟨?_, fun _ => .of_hw rfl⟩
          rw [Table.serve, add_of_not_found h hi]
          exact h
      | some i =>
          obtain ⟨henc, hea, hnew, hwrite⟩ := hsafe i hi
          obtain ⟨hfree, hadd⟩ := add_of_found h hi hea hnew
          refine ⟨?_, ?_⟩
          · rw [Table.serve, hadd]
            exact h.put hfree henc hea fun j hj => hnew j ((h.holds_iff hea b.type j).mp hj)
          · intro hfail
            simp [hwrite, Outcome.ofBool] at hfail
  | del ea type =>
      rw [hc] at hsafe
      rw [run_del p c s hc, del_hwbpt]
      cases hi : find_hwbpt s ea type with
      | none =>
          refine ⟨?_, fun _ => .of_hw rfl⟩
          rw [Table.serve, del_of_not_held h (.inr hi)]
          exact h
      | some i =>
          by_cases hea : ea = BADADDR
          · have hfree : s.hwbpt_ea i = BADADDR := by
              have hsame := List.find?_some hi
              simp only [decide_eq_true_eq] at hsame
              exact hsame.1.trans hea
            obtain ⟨hv, hsame⟩ := clear_of_free h hfree
            refine ⟨?_, fun _ => hsame⟩
            rw [Table.serve, del_of_not_held h (.inl hea), ← hv]
            exact h.clear i
          · refine ⟨?_, ?_⟩
            · rw [Table.serve, del_of_found h hi hea]
              exact h.clear i
            · intro hfail
              simp [hsafe i hi hea, Outcome.ofBool] at hfail

theorem del_after_add {b : Bpt} {p' : Process} {c' : Call} (hc : c.request p = .add b)
    (hok : (c.run p s).1 = .ok) (hc' : c'.request p' = .del b.ea b.type)
    (hsafe' : c'.Safe p' (c.run p s).2) :
    (c'.run p' (c.run p s).2).1 = .ok ∧ SameHw (c'.run p' (c.run p s).2).2 s := by
  have hstep := (step_represents h hsafe).1
  unfold Call.Safe at hsafe hsafe'
  rw [hc] at hsafe hstep
  rw [hc'] at hsafe'
  rw [run_add p c s hc, add_hwbpt] at hok hsafe' hstep ⊢
  cases hi : find_hwbpt_slot s b.ea b.type with
  | none => simp [hi, Outcome.ofBool] at hok
  | some i =>
      obtain ⟨henc, hea, hnew, hwrite⟩ := hsafe i hi
      obtain ⟨hfree, hadd⟩ := add_of_found h hi hea hnew
      simp only [hi, Table.serve, hadd] at hsafe' hstep ⊢
      have hother : ∀ j, (s.put i b.type b.ea b.len).hwbpt_ea j = b.ea ∧
          (s.put i b.type b.ea b.len).hwbpt_type j = b.type ↔ j = i := by
        intro j
        by_cases hji : j = i
        · simp [hji, State.put]
        · simp only [State.put, Function.update_of_ne hji]
          exact iff_of_false (hnew j) hji
      have hfind : find_hwbpt (s.put i b.type b.ea b.len) b.ea b.type = some i := by
        simp only [find_hwbpt, hother]
        exact (show ∀ i : Slot, [0, 1, 2, 3].find? (fun j => decide (j = i)) = some i by decide) i
      rw [run_del p' c' _ hc', del_hwbpt, hfind]
      refine ⟨by simp [hsafe' i hfind hea, Outcome.ofBool], ?_, ?_, ?_⟩
      · simp only [State.clear, State.put, Function.update_idem]
        rw [← h.free i hfree, Function.update_eq_self]
      · intro j hj
        simp only [State.clear, State.put, Function.update_idem] at hj ⊢
        have hji : j ≠ i := by
          rintro rfl
          exact hj (Function.update_self ..)
        rw [Function.update_of_ne hji]
      · rw [(hstep.clear i).dr7, Function.update_idem, ← hfree, Function.update_eq_self, h.dr7]

end Requests

theorem run_represents (h : Represents v s) (calls : List (Process × Call))
    (hsafe : Safe s calls) :
    Represents (calls.foldl (fun v c => v.serve (c.2.request c.1)) v)
      (calls.foldl (fun s c => (c.2.run c.1 s).2) s) := by
  induction calls generalizing v s with
  | nil => exact h
  | cons c calls ih => exact ih (step_represents h hsafe.1).1 hsafe.2

/-- In every run of safe calls the slots and DR7 hold the breakpoints that were asked for; a safe
call that does not report success changes nothing; and deleting what a safe call added undoes it. -/
theorem describes_of_safe (calls : List (Process × Call)) (hsafe : Safe State.start calls) :
    Describes (tableAfter calls) (stateAfter calls) ∧
    (∀ p (c : Call), c.Safe p (stateAfter calls) → (c.run p (stateAfter calls)).1 ≠ .ok →
      SameHw (c.run p (stateAfter calls)).2 (stateAfter calls)) ∧
    (∀ p (c : Call) p' (c' : Call) b, c.request p = .add b → c.Safe p (stateAfter calls) →
      (c.run p (stateAfter calls)).1 = .ok → c'.request p' = .del b.ea b.type →
      c'.Safe p' (c.run p (stateAfter calls)).2 →
      (c'.run p' (c.run p (stateAfter calls)).2).1 = .ok ∧
        SameHw (c'.run p' (c.run p (stateAfter calls)).2).2 (stateAfter calls)) := by
  have h := run_represents represents_start calls hsafe
  refine ⟨h.describes, ?_, ?_⟩
  · intro p c hc
    exact (step_represents h hc).2
  · intro p c p' c' b hreq hc hok hreq' hc'
    exact del_after_add h hc hreq hok hreq' hc'

/-- A process without threads whose memory cannot be written. -/
def deadProcess : Process := ⟨[], fun _ _ _ => true, fun _ _ => (1, [0]), fun _ _ => -1⟩

/-- A process with a thread whose debug registers cannot be written. -/
def lockedProcess : Process := ⟨[1], fun _ _ _ => false, fun _ _ => (1, [0]), fun _ _ => -1⟩

theorem describes_of_safe_exec :
    Describes (tableAfter [(deadProcess, .add_hwbpt BPT_EXEC 0x1000 1)])
      (stateAfter [(deadProcess, .add_hwbpt BPT_EXEC 0x1000 1)]) :=
  (describes_of_safe [(deadProcess, .add_hwbpt BPT_EXEC 0x1000 1)]
    ⟨fun _ _ => ⟨.inl rfl, by decide, fun _ hj => absurd hj.1 (show BADADDR ≠ (0x1000 : ea_t) by decide), rfl⟩, trivial⟩).1

/-- The second breakpoint is added again once the first one has left its slot. -/
def doubledCalls : List (Process × Call) :=
  [(deadProcess, .add_hwbpt BPT_WRITE 0x1000 4), (deadProcess, .add_hwbpt BPT_EXEC 0x2000 1),
    (deadProcess, .del_hwbpt 0x1000 BPT_WRITE), (deadProcess, .add_hwbpt BPT_EXEC 0x2000 1)]

/-- Behind a freed slot the same breakpoint is set twice, a software breakpoint that cannot be
written is merged into the length bits, and a failed write leaves the breakpoint in its slot. -/
theorem not_describes :
    (∃ i j : Slot, i ≠ j ∧ (stateAfter doubledCalls).hwbpt_ea i ≠ BADADDR ∧
      (stateAfter doubledCalls).hwbpt_ea i = (stateAfter doubledCalls).hwbpt_ea j ∧
      (stateAfter doubledCalls).hwbpt_type i = (stateAfter doubledCalls).hwbpt_type j) ∧
    lenField (stateAfter [(deadProcess, .dbg_add_bpt true false BPT_SOFT 0x1000 1)]).dr7 0 ≠
      lenCode 1 ∧
    ((Call.run lockedProcess (.add_hwbpt BPT_EXEC 0x1000 1) State.start).1 ≠ .ok ∧
      (Call.run lockedProcess (.add_hwbpt BPT_EXEC 0x1000 1) State.start).2.dr7 ≠ State.start.dr7) := by
  decide

end IdaSdk.HwBpt
