import IdaSdk.LibOutcome
import Mathlib.Tactic.Ring
import Mathlib.Tactic.SplitIfs

/-!
Sections with pattern-initialized data: instructions for runs of zeroes, copied, repeated and interleaved blocks. The
loader reads them with counters of 32 bits; the format has plain numbers. A read outside the packed bytes, and a counter
that overflows, are undefined.
-/

namespace IdaSdk.PefPattern
open Outcomes

/-- Why a section is refused. -/
inductive Failure where
  | bad_packed_data
  | no_memory
deriving DecidableEq

abbrev Call (α : Type) := Outcome Failure α

/-- The number that starts with the digits in `arg`; `i` counts the bytes. -/
def readNumberFrom (i : Nat) (arg : BitVec 32) : List UInt8 → Call (BitVec 32 × List UInt8)
  | [] => .threw .bad_packed_data
  | b :: packed =>
    let arg := (arg <<< 7) ||| ((b &&& 0x7F).toBitVec.setWidth 32)
    if b &&& 0x80 = 0 then .done (arg, packed)
    else if i > 4 then .threw .bad_packed_data
    else readNumberFrom (i + 1) arg packed

variable (packed : List UInt8)

def read_number : Call (BitVec 32 × List UInt8) := readNumberFrom 0 0 packed

def readBytes (n : Nat) (packed : List UInt8) : Call (List UInt8 × List UInt8) :=
  if n ≤ packed.length then .done (packed.take n, packed.drop n) else .undefined

/-- A signed number as the size to grow by: a negative one asks for too much. -/
def growfill (n : BitVec 32) : Call (List UInt8) :=
  if n.toInt < 0 then .threw .no_memory else .done (List.replicate n.toInt.toNat 0)

def countdown (repeat_ : BitVec 32) : Call Nat :=
  if repeat_ = BitVec.intMin 32 then .undefined else .done repeat_.toInt.toNat

variable (arg : BitVec 32)

def zero (packed : List UInt8) : Call (List UInt8 × List UInt8) :=
  .done (List.replicate arg.toNat 0, packed)

def blockCopy (packed : List UInt8) : Call (List UInt8 × List UInt8) :=
  if arg.toNat > packed.length then .threw .bad_packed_data else readBytes arg.toNat packed

def repeatedBlock (packed : List UInt8) : Call (List UInt8 × List UInt8) :=
  (read_number packed).andThen fun count =>
    let repeat_ := count.1 + 1
    if arg.toNat > count.2.length then .threw .bad_packed_data
    else (countdown repeat_).andThen fun n => (readBytes arg.toNat count.2).andThen fun block =>
      .done ((List.replicate n block.1).flatten, block.2)

/-- The rounds of an interleaved repetition, and the common part behind them. -/
def interleave (common : Call (List UInt8)) (customSize : BitVec 32) : Nat → List UInt8 → Call (List UInt8 × List UInt8)
  | 0, packed => common.andThen fun c => .done (c, packed)
  | n + 1, packed =>
    if customSize.toInt < 0 ∨ customSize.toInt > packed.length then .threw .bad_packed_data
    else common.andThen fun c => (readBytes customSize.toInt.toNat packed).andThen fun custom =>
      (interleave common customSize n custom.2).andThen fun r => .done (c ++ (custom.1 ++ r.1), r.2)

def interleaveRepeatBlockWithBlockCopy (packed : List UInt8) : Call (List UInt8 × List UInt8) :=
  (read_number packed).andThen fun customSize => (read_number customSize.2).andThen fun repeatCount =>
    if arg.toInt < 0 ∨ arg.toInt > repeatCount.2.length then .threw .bad_packed_data
    else (countdown repeatCount.1).andThen fun n => (readBytes arg.toInt.toNat repeatCount.2).andThen fun common =>
      interleave (.done common.1) customSize.1 n common.2

def interleaveRepeatBlockWithZero (packed : List UInt8) : Call (List UInt8 × List UInt8) :=
  (read_number packed).andThen fun customSize => (read_number customSize.2).andThen fun repeatCount =>
    (countdown repeatCount.1).andThen fun n => interleave (growfill arg) customSize.1 n repeatCount.2

/-- The operand in the code byte, or behind it. -/
def readArg (code : UInt8) (packed : List UInt8) : Call (BitVec 32 × List UInt8) :=
  if code &&& 0x1F = 0 then read_number packed else .done ((code &&& 0x1F).toBitVec.setWidth 32, packed)

/-- What one instruction unpacks, and the packed bytes behind it. -/
def unpackInsn : List UInt8 → Call (List UInt8 × List UInt8)
  | [] => .undefined
  | code :: packed => (readArg code packed).andThen fun arg =>
    match (code >>> 5).toNat with
    | 0 => zero arg.1 arg.2
    | 1 => blockCopy arg.1 arg.2
    | 2 => repeatedBlock arg.1 arg.2
    | 3 => interleaveRepeatBlockWithBlockCopy arg.1 arg.2
    | 4 => interleaveRepeatBlockWithZero arg.1 arg.2
    | _ => .threw .bad_packed_data

/-- Every instruction takes a byte, so that there are no more of them than bytes. -/
def unpackLoop : Nat → List UInt8 → List UInt8 → Call (List UInt8)
  | _, unpacked, [] => .done unpacked
  | 0, _, _ :: _ => .undefined
  | n + 1, unpacked, code :: packed =>
    (unpackInsn (code :: packed)).andThen fun r => unpackLoop n (unpacked ++ r.1) r.2

def unpack_section (usize : Nat) : Call (List UInt8) :=
  (unpackLoop packed.length [] packed).andThen fun unpacked =>
    let unpacked := unpacked ++ List.replicate (usize - unpacked.length) 0
    if unpacked.length ≠ usize then .threw .bad_packed_data else .done unpacked

/-- A number of any size, in digits of seven bits. -/
def numberFrom (n : Nat) : List UInt8 → Option (Nat × List UInt8)
  | [] => none
  | b :: bytes =>
    if b.toNat < 128 then some (n * 128 + b.toNat, bytes) else numberFrom (n * 128 + (b.toNat - 128)) bytes

def number (bytes : List UInt8) : Option (Nat × List UInt8) := numberFrom 0 bytes

/-- An instruction: its code, its operand, the size and the number of the repeated parts, and the data behind it. -/
structure Insn where
  code : Nat
  size : Nat
  custom : Nat
  count : Nat
  data : List UInt8

/-- Which numbers an instruction has depends on its code. -/
def readInsn : List UInt8 → Option Insn
  | [] => none
  | b :: bytes =>
    (if b.toNat % 32 = 0 then number bytes else some (b.toNat % 32, bytes)).bind fun size =>
      if b.toNat / 32 = 2 then (number size.2).map fun count => ⟨2, size.1, 0, count.1, count.2⟩
      else if b.toNat / 32 = 3 ∨ b.toNat / 32 = 4 then
        (number size.2).bind fun custom => (number custom.2).map fun count =>
          ⟨b.toNat / 32, size.1, custom.1, count.1, count.2⟩
      else some ⟨b.toNat / 32, size.1, 0, 0, size.2⟩

/-- Some bytes of the data, and those behind them. -/
def takeBlock (n : Nat) (data : List UInt8) : Option (List UInt8 × List UInt8) :=
  if n ≤ data.length then some (data.take n, data.drop n) else none

/-- A common part, and behind it `n` times a custom part of the data and the common part again. -/
def interleaved (common : List UInt8) (custom : Nat) : Nat → List UInt8 → Option (List UInt8 × List UInt8)
  | 0, data => some (common, data)
  | n + 1, data => (takeBlock custom data).bind fun block =>
    (interleaved common custom n block.2).map fun r => (common ++ (block.1 ++ r.1), r.2)

namespace Insn
variable (i : Insn)

def Fits : Prop := i.size < 2 ^ 32 ∧ i.custom < 2 ^ 32 ∧ i.count < 2 ^ 32

instance : Decidable i.Fits := inferInstanceAs (Decidable (_ ∧ _))

/-- What an instruction stands for, and the bytes behind it. -/
def meaning : Option (List UInt8 × List UInt8) :=
  match i.code with
  | 0 => some (List.replicate i.size 0, i.data)
  | 1 => takeBlock i.size i.data
  | 2 => (takeBlock i.size i.data).map fun block => ((List.replicate (i.count + 1) block.1).flatten, block.2)
  | 3 => (takeBlock i.size i.data).bind fun block => interleaved block.1 i.custom i.count block.2
  | 4 => interleaved (List.replicate i.size 0) i.custom i.count i.data
  | _ => none

/-- The counter of the loader reaches the count, or nothing is repeated. -/
def Harmless : Prop :=
  i.Fits ∧ match i.code with
    | 2 => i.count + 1 < 2 ^ 31 ∨ (i.size = 0 ∧ i.count + 1 ≠ 2 ^ 31)
    | 3 => i.count < 2 ^ 31 ∨ (i.size = 0 ∧ i.custom = 0 ∧ i.count ≠ 2 ^ 31)
    | 4 => i.count < 2 ^ 31 ∨ (i.size = 0 ∧ i.custom = 0 ∧ i.count ≠ 2 ^ 31)
    | _ => True

end Insn

def formatInsn (bytes : List UInt8) : Option (List UInt8 × List UInt8) :=
  (readInsn bytes).bind fun i => if i.Fits then i.meaning else none

/-- The bytes that a packed section defines. -/
inductive Defines : List UInt8 → List UInt8 → Prop
  | nil : Defines [] []
  | insn {packed block rest unpacked} : formatInsn packed = some (block, rest) → Defines rest unpacked →
      Defines packed (block ++ unpacked)

/-- The instruction at the front is read in full by the loader. -/
def InsnHarmless : Prop := ∀ i, readInsn packed = some i → i.Harmless

/-- The places the loader comes to. -/
inductive Reaches : List UInt8 → List UInt8 → Prop
  | refl (packed : List UInt8) : Reaches packed packed
  | insn {packed block rest packed'} : unpackInsn packed = .done (block, rest) → Reaches rest packed' →
      Reaches packed packed'

/-- The section is refused, or it gives what it defines, with zeroes up to its size. -/
def UnpacksRight (usize : Nat) : Prop :=
  match unpack_section packed usize with
  | .undefined => False
  | .threw _ => True
  | .done section_ => ∃ unpacked, Defines packed unpacked ∧ unpacked.length ≤ usize ∧
      section_ = unpacked ++ List.replicate (usize - unpacked.length) 0

section
variable {packed data : List UInt8}

variable (b : UInt8)

theorem and_0x80 : b &&& 0x80 = 0 ↔ b.toNat < 128 := by
  have h : ∀ n : Fin 256, UInt8.ofNat n.val &&& 0x80 = 0 ↔ n.val < 128 := by decide +kernel
  have hb := h ⟨b.toNat, b.toNat_lt⟩
  rwa [UInt8.ofNat_toNat] at hb

theorem shifted_digit (m : Nat) (b : UInt8) :
    (BitVec.ofNat 32 m <<< 7) ||| ((b &&& 0x7F).toBitVec.setWidth 32) =
      BitVec.ofNat 32 (m * 128 + b.toNat % 128) := by
  have hlow : ((b &&& 0x7F).toBitVec.setWidth 32).toNat = b.toNat % 128 := by
    rw [BitVec.toNat_setWidth, UInt8.toNat_toBitVec, UInt8.toNat_and, show (0x7F : UInt8).toNat = 2 ^ 7 - 1 from rfl,
      Nat.and_two_pow_sub_one_eq_mod]
    omega
  apply BitVec.eq_of_toNat_eq
  rw [BitVec.toNat_or, BitVec.toNat_shiftLeft, hlow, BitVec.toNat_ofNat, BitVec.toNat_ofNat, Nat.shiftLeft_eq]
  have hhigh : m % 2 ^ 32 * 2 ^ 7 % 2 ^ 32 = 2 ^ 7 * (m % 2 ^ 25) := by omega
  rw [hhigh, ← Nat.two_pow_add_eq_or_of_lt (show b.toNat % 128 < 2 ^ 7 by omega)]
  omega

theorem readNumberFrom_ends (i m : Nat) (packed : List UInt8) :
    (readNumberFrom i (BitVec.ofNat 32 m) packed).Ends
      (fun r => ∃ n, numberFrom m packed = some (n, r.2) ∧ r.1 = BitVec.ofNat 32 n) (fun _ => True) := by
  induction packed generalizing i m with
  | nil => exact trivial
  | cons b packed ih =>
      rw [readNumberFrom, shifted_digit]
      refine .ite (fun hlast => ?_) fun hmore => .ite (fun _ => trivial) fun _ => ?_
      · have hlt := (and_0x80 b).1 hlast
        refine ⟨m * 128 + b.toNat, ?_, ?_⟩
        · rw [numberFrom, if_pos hlt]
        · rw [Nat.mod_eq_of_lt hlt]
      · have hge : ¬b.toNat < 128 := fun hlt => hmore ((and_0x80 b).2 hlt)
        have hb := b.toNat_lt
        have hdigit : b.toNat % 128 = b.toNat - 128 := by omega
        rw [numberFrom, if_neg hge, ← hdigit]
        exact ih (i + 1) _

theorem read_number_ends (packed : List UInt8) :
    (read_number packed).Ends (fun r => ∃ n, number packed = some (n, r.2) ∧ r.1 = BitVec.ofNat 32 n)
      (fun _ => True) :=
  readNumberFrom_ends 0 0 packed

variable {n : Nat}

theorem toNat_small (h : n < 2 ^ 32) : (BitVec.ofNat 32 n).toNat = n := by
  rw [BitVec.toNat_ofNat, Nat.mod_eq_of_lt h]

theorem toInt_small (h : n < 2 ^ 31) : (BitVec.ofNat 32 n).toInt = n := by
  rw [BitVec.toInt_eq_toNat_cond, toNat_small (by omega), if_pos (by omega)]

theorem toInt_large (h : 2 ^ 31 ≤ n) (hn : n < 2 ^ 32) : (BitVec.ofNat 32 n).toInt < 0 := by
  rw [BitVec.toInt_eq_toNat_cond, toNat_small hn, if_neg (by omega)]
  omega

theorem countdown_ends (h : n ≤ 2 ^ 32) :
    (countdown (BitVec.ofNat 32 n)).EndsIf (n ≠ 2 ^ 31) (fun k => (n < 2 ^ 31 ∧ k = n) ∨ (2 ^ 31 < n ∧ k = 0))
      (fun _ => True) := by
  rw [countdown]
  by_cases hsmall : n < 2 ^ 31
  · have hne : BitVec.ofNat 32 n ≠ BitVec.intMin 32 := by
      intro heq
      have hlow := congrArg BitVec.toNat heq
      rw [toNat_small (by omega), show (BitVec.intMin 32).toNat = 2 ^ 31 from rfl] at hlow
      omega
    rw [if_neg hne, toInt_small hsmall]
    exact Or.inl ⟨hsmall, rfl⟩
  by_cases hmin : n = 2 ^ 31
  · rw [if_pos (by rw [hmin]; rfl)]
    exact fun hne => hne hmin
  have hneg : (BitVec.ofNat 32 n).toInt ≤ 0 := by
    obtain hlt | rfl := Nat.lt_or_eq_of_le h
    · exact Int.le_of_lt (toInt_large (by omega) hlt)
    · decide
  have hne : BitVec.ofNat 32 n ≠ BitVec.intMin 32 := by
    intro heq
    have hlow := congrArg BitVec.toNat heq
    rw [BitVec.toNat_ofNat, show (BitVec.intMin 32).toNat = 2 ^ 31 from rfl] at hlow
    omega
  rw [if_neg hne]
  exact Or.inr ⟨by omega, Int.toNat_of_nonpos hneg⟩

theorem readBytes_of_le (h : n ≤ data.length) : readBytes n data = .done (data.take n, data.drop n) :=
  if_pos h

theorem takeBlock_of_le (h : n ≤ data.length) : takeBlock n data = some (data.take n, data.drop n) := if_pos h

/-- The call does what the instruction says just when the instruction is harmless. -/
def Insn.Result (i : Insn) (r : Call (List UInt8 × List UInt8)) : Prop :=
  r.EndsIf i.Harmless (fun x => (if i.Fits then i.meaning else none) = some x ↔ i.Harmless) (fun _ => True)

variable {i : Insn}

theorem Insn.result_of_not_fits (h : ¬i.Fits) (r : Call (List UInt8 × List UInt8)) : i.Result r := by
  have hnot : ¬i.Harmless := fun hi => h hi.1
  cases r with
  | undefined => exact hnot
  | threw e => exact trivial
  | done x =>
      rw [Insn.Result, if_neg h]
      exact ⟨nofun, fun hi => (hnot hi).elim⟩

variable {r : Call (List UInt8 × List UInt8)}

theorem Insn.result_of_fits (h : i.Fits)
    (hr : r.EndsIf i.Harmless (fun x => i.meaning = some x ↔ i.Harmless) (fun _ => True)) : i.Result r := by
  rw [Insn.Result, if_pos h]
  exact hr

theorem zero_result (size : Nat) (data : List UInt8) :
    Insn.Result ⟨0, size, 0, 0, data⟩ (zero (BitVec.ofNat 32 size) data) := by
  by_cases hfits : (⟨0, size, 0, 0, data⟩ : Insn).Fits
  · apply Insn.result_of_fits hfits
    rw [zero, toNat_small hfits.1]
    exact ⟨fun _ => ⟨hfits, trivial⟩, fun _ => rfl⟩
  · exact Insn.result_of_not_fits hfits _

theorem blockCopy_result (size : Nat) (data : List UInt8) :
    Insn.Result ⟨1, size, 0, 0, data⟩ (blockCopy (BitVec.ofNat 32 size) data) := by
  by_cases hfits : (⟨1, size, 0, 0, data⟩ : Insn).Fits
  · apply Insn.result_of_fits hfits
    rw [blockCopy, toNat_small hfits.1]
    refine .ite (fun _ => trivial) fun hle => ?_
    rw [readBytes_of_le (Nat.le_of_not_lt hle)]
    exact ⟨fun _ => ⟨hfits, trivial⟩, fun _ => takeBlock_of_le (Nat.le_of_not_lt hle)⟩
  · exact Insn.result_of_not_fits hfits _

theorem replicate_flatten_eq_nil {block : List UInt8} :
    (List.replicate (n + 1) block).flatten = [] ↔ block = [] := by
  rw [List.replicate_succ, List.flatten_cons, List.append_eq_nil_iff]
  constructor
  · exact fun h => h.1
  · rintro rfl
    exact ⟨rfl, by rw [List.flatten_replicate_nil]⟩

theorem repeatedBlock_result {size count : Nat} (hcount : number packed = some (count, data)) :
    Insn.Result ⟨2, size, 0, count, data⟩ (repeatedBlock (BitVec.ofNat 32 size) packed) := by
  by_cases hfits : (⟨2, size, 0, count, data⟩ : Insn).Fits
  · apply Insn.result_of_fits hfits
    rw [repeatedBlock, toNat_small hfits.1]
    refine (read_number_ends packed).andThen fun r hr => ?_
    obtain ⟨n, hn, hvalue⟩ := hr
    obtain ⟨rfl, hrest⟩ := Prod.mk.inj (Option.some.inj (hcount.symm.trans hn))
    have hsucc : r.1 + 1 = BitVec.ofNat 32 (count + 1) := by
      rw [hvalue, BitVec.ofNat_add]
      rfl
    dsimp only
    rw [hsucc, ← hrest]
    refine .ite (fun _ => trivial) fun hle => ?_
    have hsize : size ≤ data.length := Nat.le_of_not_lt hle
    have hmeaning : (⟨2, size, 0, count, data⟩ : Insn).meaning =
        some ((List.replicate (count + 1) (data.take size)).flatten, data.drop size) := by
      rw [Insn.meaning]
      dsimp only
      rw [takeBlock_of_le hsize]
      rfl
    have hbound : count + 1 ≤ 2 ^ 32 := hfits.2.2
    refine (countdown_ends hbound).bind (fun hi => ?_) fun k hk => ?_
    · obtain hlt | hne := hi.2
      · exact hlt.ne
      · exact hne.2
    rw [readBytes_of_le hsize]
    obtain ⟨hsmall, rfl⟩ | ⟨hlarge, rfl⟩ := hk
    · exact ⟨fun _ => ⟨hfits, Or.inl hsmall⟩, fun _ => hmeaning⟩
    show _ = some ([], data.drop size) ↔ _
    rw [hmeaning, Option.some_inj, Prod.mk.injEq, and_iff_left rfl, replicate_flatten_eq_nil, List.take_eq_nil_iff]
    constructor
    · intro hnil
      have hzero : size = 0 := by
        obtain hzero | hdata := hnil
        · exact hzero
        · rw [hdata] at hsize
          exact Nat.le_zero.1 hsize
      exact ⟨hfits, Or.inr ⟨hzero, hlarge.ne'⟩⟩
    · rintro ⟨_, hlt | hzero⟩
      · exact (Nat.lt_asymm hlarge hlt).elim
      · exact Or.inl hzero.1
  · exact Insn.result_of_not_fits hfits _

/-! ### Interleaved blocks -/

variable {common : List UInt8} {custom : Nat}

theorem interleaved_length {data : List UInt8} {r : List UInt8 × List UInt8}
    (h : interleaved common custom n data = some r) :
    r.1.length = (n + 1) * common.length + n * custom ∧ r.2.length + n * custom = data.length := by
  induction n generalizing data r with
  | zero =>
      obtain rfl := Option.some.inj h
      dsimp only
      omega
  | succ n ih =>
      rw [interleaved, takeBlock] at h
      split_ifs at h with hle
      · rw [Option.bind_some, Option.map_eq_some_iff] at h
        obtain ⟨r', hr', rfl⟩ := h
        obtain ⟨hout, hrest⟩ := ih hr'
        rw [List.length_append, List.length_append, List.length_take, hout, Nat.min_eq_left hle]
        rw [List.length_drop] at hrest
        constructor
        · ring
        · dsimp only
          rw [Nat.add_mul, Nat.one_mul]
          omega
      · cases h

theorem interleaved_nil (n : Nat) (data : List UInt8) : interleaved [] 0 n data = some ([], data) := by
  induction n with
  | zero => rfl
  | succ n ih =>
      rw [interleaved, takeBlock_of_le (Nat.zero_le _), Option.bind_some, List.drop_zero, ih]
      rfl

theorem interleaved_lost (hn : n ≠ 0) (data : List UInt8) :
    interleaved common custom n data = some (common, data) ↔ common.length = 0 ∧ custom = 0 := by
  constructor
  · intro h
    obtain ⟨hout, hrest⟩ := interleaved_length h
    dsimp only at hout hrest
    have hcustom : n * custom = 0 := by omega
    have hcommon : n * common.length = 0 := by
      rw [Nat.add_mul, Nat.one_mul] at hout
      omega
    exact ⟨(Nat.mul_eq_zero.1 hcommon).resolve_left hn, (Nat.mul_eq_zero.1 hcustom).resolve_left hn⟩
  · rintro ⟨hnil, rfl⟩
    obtain rfl := List.length_eq_zero_iff.1 hnil
    exact interleaved_nil n data

theorem interleave_ends (common : List UInt8) (hcustom : custom < 2 ^ 32) (n : Nat) (data : List UInt8) :
    (interleave (.done common) (BitVec.ofNat 32 custom) n data).Ends
      (fun x => interleaved common custom n data = some x) (fun _ => True) := by
  induction n generalizing data with
  | zero => exact rfl
  | succ n ih =>
      rw [interleave]
      refine .ite (fun _ => trivial) fun hin => ?_
      have hsmall : custom < 2 ^ 31 := by
        by_contra hge
        exact hin (Or.inl (toInt_large (Nat.le_of_not_lt hge) hcustom))
      rw [toInt_small hsmall] at hin ⊢
      have hle : custom ≤ data.length := by omega
      rw [Int.toNat_natCast, readBytes_of_le hle, interleaved, takeBlock_of_le hle]
      refine (ih (data.drop custom)).andThen fun r hr => ?_
      rw [Option.bind_some, hr]
      exact rfl

theorem interleave_threw (e : Failure) (custom : BitVec 32) (n : Nat) (data : List UInt8) :
    (interleave (.threw e) custom n data).Ends (fun _ => False) (fun _ => True) := by
  cases n with
  | zero => exact trivial
  | succ n => exact .ite (fun _ => trivial) fun _ => trivial

theorem interleave_result {count : Nat} (hfits : i.Fits)
    (hcustom : custom < 2 ^ 32) (hcount : count < 2 ^ 32)
    (hmeaning : i.meaning = interleaved common custom count data)
    (hharmless : i.Harmless ↔ count < 2 ^ 31 ∨ (common.length = 0 ∧ custom = 0 ∧ count ≠ 2 ^ 31)) :
    i.Result ((countdown (BitVec.ofNat 32 count)).andThen fun n =>
      interleave (.done common) (BitVec.ofNat 32 custom) n data) := by
  apply Insn.result_of_fits hfits
  rw [hharmless, hmeaning]
  refine (countdown_ends hcount.le).bind (fun hi => ?_) fun k hk => ?_
  · obtain hlt | hne := hi
    · exact hlt.ne
    · exact hne.2.2
  obtain ⟨hsmall, rfl⟩ | ⟨hlarge, rfl⟩ := hk
  · have hends := interleave_ends common hcustom k data
    refine Outcome.EndsIf.weaken (hends.imp (fun x hx => ?_) fun _ h => h) fun _ => trivial
    exact ⟨fun _ => Or.inl hsmall, fun _ => hx⟩
  show interleaved common custom count data = some (common, data) ↔ _
  rw [interleaved_lost (by omega)]
  constructor
  · exact fun h => Or.inr ⟨h.1, h.2, hlarge.ne'⟩
  · rintro (hlt | h)
    · omega
    · exact ⟨h.1, h.2.1⟩

variable {size custom count : Nat} {packed' : List UInt8}

theorem interleaveRepeatBlockWithBlockCopy_result (hcustom : number packed = some (custom, packed'))
    (hcount : number packed' = some (count, data)) :
    Insn.Result ⟨3, size, custom, count, data⟩
      (interleaveRepeatBlockWithBlockCopy (BitVec.ofNat 32 size) packed) := by
  by_cases hfits : (⟨3, size, custom, count, data⟩ : Insn).Fits
  · rw [Insn.Result, interleaveRepeatBlockWithBlockCopy]
    refine (read_number_ends packed).andThen fun r hr => ?_
    obtain ⟨_, hn, hvalue⟩ := hr
    obtain ⟨rfl, hrest⟩ := Prod.mk.inj (Option.some.inj (hcustom.symm.trans hn))
    rw [← hrest]
    refine (read_number_ends packed').andThen fun r' hr' => ?_
    obtain ⟨_, hn', hvalue'⟩ := hr'
    obtain ⟨rfl, hrest'⟩ := Prod.mk.inj (Option.some.inj (hcount.symm.trans hn'))
    rw [← hrest', hvalue, hvalue']
    refine .ite (fun _ => trivial) fun hin => ?_
    have hsmall : size < 2 ^ 31 := by
      by_contra hge
      exact hin (Or.inl (toInt_large (Nat.le_of_not_lt hge) hfits.1))
    rw [toInt_small hsmall] at hin ⊢
    have hle : size ≤ data.length := by omega
    rw [Int.toNat_natCast, readBytes_of_le hle]
    refine interleave_result hfits hfits.2.1 hfits.2.2 ?_ ?_
    · rw [Insn.meaning]
      dsimp only
      rw [takeBlock_of_le hle]
      rfl
    · rw [List.length_take, Nat.min_eq_left hle]
      exact and_iff_right hfits
  · exact Insn.result_of_not_fits hfits _

theorem interleaveRepeatBlockWithZero_result (hcustom : number packed = some (custom, packed'))
    (hcount : number packed' = some (count, data)) :
    Insn.Result ⟨4, size, custom, count, data⟩ (interleaveRepeatBlockWithZero (BitVec.ofNat 32 size) packed) := by
  by_cases hfits : (⟨4, size, custom, count, data⟩ : Insn).Fits
  · rw [Insn.Result, interleaveRepeatBlockWithZero]
    refine (read_number_ends packed).andThen fun r hr => ?_
    obtain ⟨_, hn, hvalue⟩ := hr
    obtain ⟨rfl, hrest⟩ := Prod.mk.inj (Option.some.inj (hcustom.symm.trans hn))
    rw [← hrest]
    refine (read_number_ends packed').andThen fun r' hr' => ?_
    obtain ⟨_, hn', hvalue'⟩ := hr'
    obtain ⟨rfl, hrest'⟩ := Prod.mk.inj (Option.some.inj (hcount.symm.trans hn'))
    rw [← hrest', hvalue, hvalue']
    have hharmless : (⟨4, size, custom, count, data⟩ : Insn).Harmless ↔
        count < 2 ^ 31 ∨ (size = 0 ∧ custom = 0 ∧ count ≠ 2 ^ 31) := and_iff_right hfits
    by_cases hsmall : size < 2 ^ 31
    · have hgrow : growfill (BitVec.ofNat 32 size) = .done (List.replicate size 0) := by
        rw [growfill, toInt_small hsmall, if_neg (by omega), Int.toNat_natCast]
      rw [hgrow]
      refine interleave_result hfits hfits.2.1 hfits.2.2 rfl ?_
      rw [List.length_replicate, hharmless]
    · -- a size of 2³¹ and more is no size to grow by
      have hgrow : growfill (BitVec.ofNat 32 size) = .threw .no_memory :=
        if_pos (toInt_large (Nat.le_of_not_lt hsmall) hfits.1)
      rw [hgrow]
      refine (countdown_ends hfits.2.2.le).bind (fun hi => ?_) fun k _ => ?_
      · obtain hlt | hne := hharmless.1 hi
        · exact hlt.ne
        · exact hne.2.2
      · exact ((interleave_threw .no_memory _ k data).imp (fun _ h => h.elim) fun _ h => h).weaken fun _ => trivial
  · exact Insn.result_of_not_fits hfits _

theorem readArg_ends (packed : List UInt8) :
    (readArg b packed).Ends (fun r => ∃ n, (if b.toNat % 32 = 0 then number packed else some (b.toNat % 32, packed)) =
      some (n, r.2) ∧ r.1 = BitVec.ofNat 32 n) (fun _ => True) := by
  have hlow : (b &&& 0x1F).toNat = b.toNat % 32 := by
    rw [UInt8.toNat_and, show (0x1F : UInt8).toNat = 2 ^ 5 - 1 from rfl, Nat.and_two_pow_sub_one_eq_mod]
  have hzero : b &&& 0x1F = 0 ↔ b.toNat % 32 = 0 := by
    rw [← hlow, ← UInt8.toNat_inj]
    rfl
  rw [readArg]
  refine .ite (fun h => ?_) fun h => ?_
  · rw [if_pos (hzero.1 h)]
    exact read_number_ends packed
  · rw [if_neg fun hb => h (hzero.2 hb)]
    refine ⟨_, rfl, ?_⟩
    apply BitVec.eq_of_toNat_eq
    rw [BitVec.toNat_setWidth, UInt8.toNat_toBitVec, hlow, BitVec.toNat_ofNat]

/-- What the loader does at the front, for the instruction that is there. -/
def InsnResult (packed : List UInt8) (r : Call (List UInt8 × List UInt8)) : Prop :=
  r.EndsIf (InsnHarmless packed) (fun x => formatInsn packed = some x ↔ InsnHarmless packed) (fun _ => True)

theorem insnResult_of (h : readInsn packed = some i)
    (hr : i.Result r) : InsnResult packed r := by
  have hharmless : InsnHarmless packed ↔ i.Harmless := by
    constructor
    · exact fun hall => hall i h
    · intro hi j hj
      obtain rfl := Option.some.inj (h.symm.trans hj)
      exact hi
  rw [InsnResult, hharmless, formatInsn, h, Option.bind_some]
  exact hr

theorem insnResult_of_none (hr : r.Ends (fun _ => False) (fun _ => True)) :
    InsnResult packed r :=
  (hr.imp (fun _ h => h.elim) fun _ h => h).weaken fun _ => trivial

theorem read_number_threw {α : Type} (h : number packed = none) (f : BitVec 32 × List UInt8 → Call α) :
    ((read_number packed).andThen f).Ends (fun _ => False) (fun _ => True) := by
  refine (read_number_ends packed).andThen fun r hr => ?_
  obtain ⟨n, hn, _⟩ := hr
  cases h.symm.trans hn

theorem unpackInsn_result (packed : List UInt8) : InsnResult (b :: packed) (unpackInsn (b :: packed)) := by
  have hcode : (b >>> 5).toNat = b.toNat / 32 := by
    rw [UInt8.toNat_shiftRight, show (5 : UInt8).toNat % 8 = 5 from rfl, Nat.shiftRight_eq_div_pow]
  rw [InsnResult, unpackInsn, hcode]
  refine (readArg_ends b packed).andThen fun r hr => ?_
  obtain ⟨size, hsize, hvalue⟩ := hr
  have hread : readInsn (b :: packed) =
      if b.toNat / 32 = 2 then (number r.2).map fun count => ⟨2, size, 0, count.1, count.2⟩
      else if b.toNat / 32 = 3 ∨ b.toNat / 32 = 4 then
        (number r.2).bind fun custom => (number custom.2).map fun count =>
          ⟨b.toNat / 32, size, custom.1, count.1, count.2⟩
      else some ⟨b.toNat / 32, size, 0, 0, r.2⟩ := by
    rw [readInsn, hsize]
    rfl
  rw [hvalue]
  generalize b.toNat / 32 = op at hread
  rcases op with _ | _ | _ | _ | _ | op
  · exact insnResult_of hread (zero_result size r.2)
  · exact insnResult_of hread (blockCopy_result size r.2)
  · cases hcount : number r.2 with
    | none => exact insnResult_of_none (read_number_threw hcount _)
    | some count =>
        rw [hcount] at hread
        exact insnResult_of hread (repeatedBlock_result hcount)
  · cases hcustom : number r.2 with
    | none => exact insnResult_of_none (read_number_threw hcustom _)
    | some custom => cases hcount : number custom.2 with
      | none =>
          refine insnResult_of_none ((read_number_ends r.2).andThen fun r' hr' => ?_)
          obtain ⟨_, hn, _⟩ := hr'
          obtain rfl := Option.some.inj (hcustom.symm.trans hn)
          exact read_number_threw hcount _
      | some count =>
          rw [hcustom, Option.bind_some, hcount] at hread
          exact insnResult_of hread (interleaveRepeatBlockWithBlockCopy_result hcustom hcount)
  · cases hcustom : number r.2 with
    | none => exact insnResult_of_none (read_number_threw hcustom _)
    | some custom => cases hcount : number custom.2 with
      | none =>
          refine insnResult_of_none ((read_number_ends r.2).andThen fun r' hr' => ?_)
          obtain ⟨_, hn, _⟩ := hr'
          obtain rfl := Option.some.inj (hcustom.symm.trans hn)
          exact read_number_threw hcount _
      | some count =>
          rw [hcustom, Option.bind_some, hcount] at hread
          exact insnResult_of hread (interleaveRepeatBlockWithZero_result hcustom hcount)
  · exact trivial

end

/-! ### The whole section -/

variable {n : Nat} {bytes : List UInt8}

theorem numberFrom_length {r : Nat × List UInt8} (h : numberFrom n bytes = some r) :
    r.2.length < bytes.length := by
  induction bytes generalizing n with
  | nil => cases h
  | cons b bytes ih =>
      rw [numberFrom] at h
      split_ifs at h with hb
      · obtain rfl := Option.some.inj h
        exact Nat.lt_succ_self _
      · exact (ih h).trans (Nat.lt_succ_self _)

theorem readInsn_length {b : UInt8} {i : Insn} (h : readInsn (b :: bytes) = some i) :
    i.data.length ≤ bytes.length := by
  rw [readInsn, Option.bind_eq_some_iff] at h
  obtain ⟨size, hsize, h⟩ := h
  have hle : size.2.length ≤ bytes.length := by
    split_ifs at hsize with hb
    · exact (numberFrom_length hsize).le
    · obtain rfl := Option.some.inj hsize
      exact le_rfl
  refine le_trans ?_ hle
  split_ifs at h with htwo hmore
  · obtain ⟨count, hcount, rfl⟩ := Option.map_eq_some_iff.1 h
    exact (numberFrom_length hcount).le
  · obtain ⟨custom, hcustom, h⟩ := Option.bind_eq_some_iff.1 h
    obtain ⟨count, hcount, rfl⟩ := Option.map_eq_some_iff.1 h
    exact ((numberFrom_length hcount).trans (numberFrom_length hcustom)).le
  · obtain rfl := Option.some.inj h
    exact le_rfl

variable {r : List UInt8 × List UInt8}

theorem takeBlock_length {data : List UInt8} (h : takeBlock n data = some r) :
    r.2.length ≤ data.length := by
  rw [takeBlock] at h
  split_ifs at h
  obtain rfl := Option.some.inj h
  exact (List.length_drop ..).trans_le (Nat.sub_le ..)

theorem meaning_length {i : Insn} (h : i.meaning = some r) :
    r.2.length ≤ i.data.length := by
  rw [Insn.meaning] at h
  split at h
  · obtain rfl := Option.some.inj h
    exact le_rfl
  · exact takeBlock_length h
  · obtain ⟨block, hblock, rfl⟩ := Option.map_eq_some_iff.1 h
    have hle := takeBlock_length hblock
    exact hle
  · obtain ⟨block, hblock, h⟩ := Option.bind_eq_some_iff.1 h
    exact (Nat.le.intro (interleaved_length h).2).trans (takeBlock_length hblock)
  · exact Nat.le.intro (interleaved_length h).2
  · cases h

theorem formatInsn_length {b : UInt8}
    (h : formatInsn (b :: bytes) = some r) : r.2.length ≤ bytes.length := by
  obtain ⟨i, hi, h⟩ := Option.bind_eq_some_iff.1 h
  split_ifs at h
  exact (meaning_length h).trans (readInsn_length hi)

theorem unpackLoop_ends {packed : List UInt8} (h : ∀ q, Reaches packed q → InsnHarmless q)
    (hn : packed.length ≤ n) (unpacked : List UInt8) :
    (unpackLoop n unpacked packed).Ends (fun out => ∃ o, Defines packed o ∧ out = unpacked ++ o) (fun _ => True) := by
  induction n generalizing packed unpacked with
  | zero =>
      obtain rfl := List.length_eq_zero_iff.1 (Nat.le_zero.1 hn)
      exact ⟨[], .nil, (List.append_nil _).symm⟩
  | succ n ih => cases packed with
    | nil => exact ⟨[], .nil, (List.append_nil _).symm⟩
    | cons b packed =>
        have hresult := unpackInsn_result b packed
        have hharmless := h (b :: packed) (.refl _)
        rw [unpackLoop]
        cases hinsn : unpackInsn (b :: packed) with
        | undefined =>
            rw [hinsn] at hresult
            exact (hresult hharmless).elim
        | threw e => exact trivial
        | done r =>
            rw [hinsn] at hresult
            have hformat : formatInsn (b :: packed) = some (r.1, r.2) := hresult.2 hharmless
            have hle : r.2.length ≤ n := (formatInsn_length hformat).trans (Nat.le_of_succ_le_succ hn)
            refine (ih (fun q hq => h q (.insn hinsn hq)) hle (unpacked ++ r.1)).imp (fun out hout => ?_) fun _ h => h
            obtain ⟨o, ho, rfl⟩ := hout
            exact ⟨r.1 ++ o, .insn hformat ho, List.append_assoc ..⟩

theorem unpack_section_of_harmless {packed : List UInt8} (h : ∀ q, Reaches packed q → InsnHarmless q) (usize : Nat) :
    UnpacksRight packed usize := by
  have hloop := unpackLoop_ends h le_rfl []
  rw [UnpacksRight, unpack_section]
  cases hunpacked : unpackLoop packed.length [] packed with
  | undefined =>
      rw [hunpacked] at hloop
      exact (hloop trivial).elim
  | threw e => exact trivial
  | done unpacked =>
      rw [hunpacked] at hloop
      obtain ⟨o, ho, ho'⟩ := hloop
      obtain rfl : unpacked = o := ho'
      rw [Outcome.andThen]
      dsimp only
      by_cases hsize : (unpacked ++ List.replicate (usize - unpacked.length) 0).length = usize
      · rw [if_neg (not_not.2 hsize)]
        rw [List.length_append, List.length_replicate] at hsize
        exact ⟨unpacked, ho, by omega, rfl⟩
      · rw [if_pos hsize]
        exact trivial

end IdaSdk.PefPattern
