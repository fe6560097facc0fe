import IdaSdk.ElfCfi

/-!
The records of the section: when each of them is read inside its bytes, and gives frames that nothing is left over in.
-/

namespace IdaSdk.Elf
open Codes Outcomes Words

section
variable (u : (nbits : Nat) → Bool → List UInt8 → Unpacked (BitVec nbits))

/-- The data are some operands and a sequence of instructions. -/
def WholeData (located : Bool) (os : List Operand) (ptr : List UInt8) : Prop :=
  ∃ rest, takeAll u os ptr = .rest rest ∧ Whole u located rest

/-- Some operand or instruction does not fit into the data. -/
def StraysData (located : Bool) (os : List Operand) (ptr : List UInt8) : Prop :=
  takeAll u os ptr = .strays ∨ ∃ rest, takeAll u os ptr = .rest rest ∧ Strays u located rest

/-- The numbers of a common record behind the string of its augmentation, and the augmentation data. -/
def cieOperands (augmentation : List UInt8) : List Operand :=
  [.number false, .number true, .number false] ++ if augmentation.head? = some 0x7a then [.block 32] else []

def fdeOperands (cie : cie_frame_t) : List Operand := if cie.has_augment_data then [.clipped 32] else []

end

/-- The frames of a function without the places of the records. -/
structure fde_contents_t where
  augment_data : List UInt8
  initial_location : BitVec 32
  final_location : BitVec 32
  cfis : List cfi_t
deriving DecidableEq

def fde_frame_t.contents (fde : fde_frame_t) : fde_contents_t :=
  ⟨fde.augment_data, fde.initial_location, fde.final_location, fde.cfis⟩

def fde_contents_t.init : fde_contents_t := fde_frame_t.init.contents

section
variable (u : (nbits : Nat) → Bool → List UInt8 → Unpacked (BitVec nbits)) (reader : eh_reader_t)

/-- The variables in front of the data of a function, and its common record. -/
structure HoldsRecord (s : eh_state_t) (li : linput_t) (cie_ptr : BitVec 32) (n : Nat) (record : fde_record_t) : Prop where
  base : record.base = reader.tell li
  initial : ∃ bytes, (reader.safe_read li 4).1 = some bytes ∧ record.initial_location = word bytes
  range : ∃ bytes, (reader.safe_read (reader.safe_read li 4).2 4).1 = some bytes ∧ record.address_range = word bytes
  data : ∃ bytes, (reader.safe_read (reader.safe_read (reader.safe_read li 4).2 4).2 n).1 = some bytes ∧
    record.data = reader.framedata bytes
  cie : s.cie_vec.find? (fun cie => cie.offset = cie_ptr) = some record.cie

namespace eh_state_t
variable (s : eh_state_t)

/-- The size in front of a record, and the number behind it. -/
def sizeBytes : Option (List UInt8) := (reader.safe_read s.li 4).1

def deltaBytes : Option (List UInt8) := (reader.safe_read (reader.safe_read s.li 4).2 4).1

def bodyInput : linput_t := (reader.safe_read (reader.safe_read s.li 4).2 4).2

/-- The place of the common record of a function. -/
def ciePlace (delta : List UInt8) : BitVec 32 := s.fde_frame.offset - word delta + 4

end eh_state_t

/-- What the record at this place says, and nothing else: the short ones say nothing. -/
inductive FromRecord (s : eh_state_t) : fde_contents_t → Prop
  | bare {size} : s.sizeBytes reader = some size → word size = 0 ∨ word size = 12 → FromRecord s .init
  | data {size delta record fde} : s.sizeBytes reader = some size → s.deltaBytes reader = some delta →
      12 < (word size).toInt →
      HoldsRecord reader s (s.bodyInput reader) (s.ciePlace delta) ((word size).toNat - 12) record →
      readFde u reader.ident_msb record fde_frame_t.init = .done fde → FromRecord s fde.contents

/-- The data of a common record are in the file, and nothing in them goes beyond their end or needs a location. -/
def CieOk (size : BitVec 32) (li : linput_t) : Prop :=
  5 ≤ size.toInt → ∃ bytes, (reader.safe_read (reader.safe_read li 1).2 (size.toNat - 5)).1 = some bytes ∧
    ¬StraysData u false (cieOperands (readAugmentation (reader.framedata bytes)).1)
      (readAugmentation (reader.framedata bytes)).2

/-- A record of a function, after the functions before it. -/
structure FdeOk (s : eh_state_t) (size cie_ptr : BitVec 32) (li : linput_t) : Prop where
  empty : size = 12 → s.fde_frame.augment_data = [] ∧ s.fde_frame.final_location = 0 ∧ s.fde_frame.cfis = []
  data : 12 < size.toInt → ∀ cie, s.cie_vec.find? (fun cie => cie.offset = cie_ptr) = some cie →
    ∃ record, HoldsRecord reader s li cie_ptr (size.toNat - 12) record ∧
      ¬StraysData u true (fdeOperands cie) record.data ∧
      (WholeData u true (fdeOperands cie) record.data →
        cie.has_augment_data = true ∨ s.fde_frame.augment_data = [])

/-- What has to be so when the loop comes to a record. -/
inductive RecordOk (sh_size : BitVec 64) (s : eh_state_t) : Prop
  | behind : s.fde_frame.offset.signExtend 64 ≥ sh_size → RecordOk sh_size s
  | terminator {size} : s.sizeBytes reader = some size → word size = 0 → s.fde_frame.contents = .init →
      RecordOk sh_size s
  | long {size} : s.sizeBytes reader = some size → word size ≥ 0xfffffff0#32 → RecordOk sh_size s
  | cie {size delta} : s.sizeBytes reader = some size → s.deltaBytes reader = some delta → word delta = 0 →
      word size ≠ 0 → CieOk u reader (word size) (s.bodyInput reader) → RecordOk sh_size s
  | fde {size delta} : s.sizeBytes reader = some size → s.deltaBytes reader = some delta → word delta ≠ 0 →
      word size ≠ 0 → FdeOk u reader s (word size) (s.ciePlace delta) (s.bodyInput reader) → RecordOk sh_size s

/-- The frames `fde` are the ones of the record at this place. -/
inductive Pushes (sh_size : BitVec 64) (s : eh_state_t) (fde : fde_frame_t) : Prop
  | next {s'} : readRecord u reader sh_size s = .done s' → s'.fde_vec = s.fde_vec ++ [fde] → Pushes sh_size s fde
  | last {ok cie_vec} : readRecord u reader sh_size s = .threw (.returned ok cie_vec (s.fde_vec ++ [fde])) →
      Pushes sh_size s fde

/-- A round that ends, with frames of its record only. -/
structure RoundOk (sh_size : BitVec 64) (s : eh_state_t) : Prop where
  ends : (readRecord u reader sh_size s).Ends (fun _ => True) (· ≠ .interr)
  own : ∀ fde, Pushes u reader sh_size s fde → FromRecord u reader s fde.contents

def Reached (li : linput_t) (sh_offset sh_size : BitVec 64) : eh_state_t → Prop :=
  Outcome.Reaches (readRecord u reader sh_size) (startEhFrame reader li sh_offset)

/-- The section is read to an end, no byte outside a record is used for it, and all frames are those of their records. -/
structure ReadsEhFrame (li : linput_t) (sh_offset sh_size : BitVec 64) : Prop where
  ends : ∃ result, read_eh_frame u reader li sh_offset sh_size = .done result
  own : ∀ s, Reached u reader li sh_offset sh_size s → ∀ fde, Pushes u reader sh_size s fde →
    FromRecord u reader s fde.contents

end

section
variable {u : (nbits : Nat) → Bool → List UInt8 → Unpacked (BitVec nbits)} {reader : eh_reader_t}

/-! ### Common records -/

variable {os : List Operand} {located : Bool} {ptr : List UInt8}

theorem strays_rest_iff {rest : List UInt8} (h : takeAll u os ptr = .rest rest) :
    StraysData u located os ptr ↔ Strays u located rest := by
  rw [StraysData, h]
  exact ⟨fun h => h.elim nofun fun ⟨_, heq, h⟩ => Taken.rest.inj heq ▸ h, fun h => Or.inr ⟨rest, rfl, h⟩⟩

theorem whole_rest_iff {rest : List UInt8} (h : takeAll u os ptr = .rest rest) :
    WholeData u located os ptr ↔ Whole u located rest := by
  rw [WholeData, h]
  exact ⟨fun ⟨_, heq, h⟩ => Taken.rest.inj heq ▸ h, fun h => ⟨rest, rfl, h⟩⟩

theorem refused_data (h : takeAll u os ptr = .refused) :
    ¬WholeData u located os ptr ∧ ¬StraysData u located os ptr := by
  rw [WholeData, StraysData, h]
  exact ⟨fun ⟨_, h, _⟩ => (nomatch h), fun h => h.elim nofun fun ⟨_, h, _⟩ => (nomatch h)⟩

theorem not_bad_done {α : Type} (a : α) : ¬Bad (.done a : Outcome Halt α) :=
  fun h => h.elim nofun nofun

theorem not_bad_corrupted {α : Type} : ¬Bad (.threw .corrupted : Outcome Halt α) :=
  fun h => h.elim nofun nofun

theorem readCie_follows (is_msb : Bool) (offset size id : BitVec 32) (version : UInt8) (data : List UInt8) :
    Follows (takeAll u (cieOperands (readAugmentation data).1) (readAugmentation data).2)
      (readCie u is_msb offset size id version data) fun ptr r => ∃ cie augment,
        r = (read_cfis u cie is_msb (ptr.length + 1) [] none ptr).andThen fun cfis =>
          .done { cie with augment_data := augment, cfis := cfis } := by
  rw [readCie, cieOperands]
  refine follows_number fun caf rest => follows_number fun daf rest => follows_number fun rac rest => ?_
  simp only [readCieAugmentData, cie_frame_t.has_augment_data]
  by_cases hz : (readAugmentation data).1.head? = some 0x7a
  · simp only [hz, if_true, decide_true, Outcome.andThen_assoc]
    apply follows_block
    · intro v rest hlen
      rw [if_neg hlen]
      exact ⟨_, _, rfl⟩
    · intro v rest hlen
      rw [if_pos hlen]
      exact Or.inl rfl
  · simp only [hz, if_false, decide_false]
    exact ⟨_, _, rfl⟩

/-- The frames of a function in the object `fde`. -/
def fde_record_t.frames (record : fde_record_t) (augment : List UInt8) (cfis : List cfi_t) (fde : fde_frame_t) :
    fde_frame_t :=
  { fde with
    augment_data := if record.cie.has_augment_data then augment else fde.augment_data
    initial_location := record.location
    final_location := record.location + record.address_range
    cfis := cfis }

theorem fdeAugmentData_cases (record : fde_record_t) :
    (∃ augment rest, takeAll u (fdeOperands record.cie) record.data = .rest rest ∧ ∀ augment_data,
      readFdeAugmentData u record.cie augment_data record.data =
        .done (if record.cie.has_augment_data then augment else augment_data, rest)) ∨
      (takeAll u (fdeOperands record.cie) record.data = .refused ∧ ∀ augment_data,
        readFdeAugmentData u record.cie augment_data record.data = .threw .corrupted) := by
  by_cases hz : record.cie.has_augment_data = true
  · by_cases hok : (u 32 false record.data).ok = true
    · refine Or.inl ⟨(u 32 false record.data).rest.take (u 32 false record.data).value.toNat,
        (u 32 false record.data).rest.drop (u 32 false record.data).value.toNat, ?_, fun augment_data => ?_⟩
      · rw [fdeOperands, if_pos hz, takeAll, Operand.take, if_pos hok]
        rfl
      · rw [readFdeAugmentData, if_pos hz, if_pos hz, unpack_uleb128, unpack_xleb128, if_pos hok]
        rfl
    · refine Or.inr ⟨?_, fun augment_data => ?_⟩
      · rw [fdeOperands, if_pos hz, takeAll, Operand.take, if_neg hok]
        rfl
      · rw [readFdeAugmentData, if_pos hz, unpack_uleb128, unpack_xleb128, if_neg hok]
        rfl
  · refine Or.inl ⟨[], record.data, ?_, fun augment_data => ?_⟩
    · rw [fdeOperands, if_neg hz]
      rfl
    · rw [readFdeAugmentData, if_neg hz, if_neg hz]

variable (hu : ∀ nbits is_signed, Consumes (u nbits is_signed))
include hu

theorem readCie_bad (is_msb : Bool) (offset size id : BitVec 32) (version : UInt8) (data : List UInt8) :
    Bad (readCie u is_msb offset size id version data) ↔
      StraysData u false (cieOperands (readAugmentation data).1) (readAugmentation data).2 := by
  have hread := readCie_follows (u := u) is_msb offset size id version data
  cases htake : takeAll u (cieOperands (readAugmentation data).1) (readAugmentation data).2 with
  | rest ptr =>
      rw [htake] at hread
      obtain ⟨cie, augment, hread⟩ := hread
      rw [strays_rest_iff htake, hread]
      obtain ⟨_, hnot, cfis, hdone⟩ | ⟨hs, hbad⟩ | ⟨_, hnot, hcorrupted⟩ :=
        read_cfis_cases hu cie is_msb [] (show (none : Option (BitVec 32)).isSome = false from rfl)
          (Nat.lt_succ_self ptr.length)
      · rw [hdone]
        exact iff_of_false (not_bad_done _) hnot
      · exact iff_of_true (hbad.andThen _) hs
      · rw [hcorrupted]
        exact iff_of_false not_bad_corrupted hnot
  | refused =>
      rw [htake] at hread
      rw [show readCie u is_msb offset size id version data = .threw .corrupted from hread]
      exact iff_of_false not_bad_corrupted (refused_data htake).2
  | strays =>
      rw [htake] at hread
      exact iff_of_true hread (Or.inl htake)

theorem readFde_cases (is_msb : Bool) (record : fde_record_t) :
    (WholeData u true (fdeOperands record.cie) record.data ∧ ¬StraysData u true (fdeOperands record.cie) record.data ∧
      ∃ augment cfis, ∀ fde, readFde u is_msb record fde = .done (record.frames augment cfis fde)) ∨
      (StraysData u true (fdeOperands record.cie) record.data ∧ ∀ fde, Bad (readFde u is_msb record fde)) ∨
      (¬WholeData u true (fdeOperands record.cie) record.data ∧
        ¬StraysData u true (fdeOperands record.cie) record.data ∧
        ∀ fde, readFde u is_msb record fde = .threw .corrupted) := by
  obtain ⟨augment, rest, htake, haugment⟩ | ⟨htake, haugment⟩ := fdeAugmentData_cases (u := u) record
  · have hcfis := read_cfis_cases hu record.cie is_msb [] (show (some record.location).isSome = true from rfl)
      (Nat.lt_succ_self rest.length)
    rw [strays_rest_iff htake, whole_rest_iff htake]
    obtain ⟨hwhole, hnot, cfis, hdone⟩ | ⟨hs, hbad⟩ | ⟨hnotwhole, hnot, hcorrupted⟩ := hcfis
    · refine Or.inl ⟨hwhole, hnot, augment, cfis, fun fde => ?_⟩
      rw [readFde, haugment]
      exact congrArg (Outcome.andThen · _) hdone
    · refine Or.inr (Or.inl ⟨hs, fun fde => ?_⟩)
      rw [readFde, haugment]
      exact hbad.andThen _
    · refine Or.inr (Or.inr ⟨hnotwhole, hnot, fun fde => ?_⟩)
      rw [readFde, haugment]
      exact congrArg (Outcome.andThen · _) hcorrupted
  · have hnot : ¬WholeData u true (fdeOperands record.cie) record.data ∧
        ¬StraysData u true (fdeOperands record.cie) record.data := refused_data htake
    refine Or.inr (Or.inr ⟨hnot.1, hnot.2, fun fde => ?_⟩)
    rw [readFde, haugment]
    rfl

end

section
variable {u : (nbits : Nat) → Bool → List UInt8 → Unpacked (BitVec nbits)} {reader : eh_reader_t} {sh_size : BitVec 64}
  {s : eh_state_t} {size delta : List UInt8}

/-- The same input at the same place or behind it. -/
structure After (li li' : linput_t) : Prop where
  bytes : li'.bytes = li.bytes
  pos : li.pos ≤ li'.pos

variable {li : linput_t}

theorem After.trans {li' li'' : linput_t} (h : After li li') (h' : After li' li'') : After li li'' :=
  ⟨h'.bytes.trans h.bytes, h.pos.trans h'.pos⟩

theorem after_safe_read (reader : eh_reader_t) (li : linput_t) (n : Nat) : After li (reader.safe_read li n).2 :=
  ⟨rfl, Nat.le_add_right ..⟩

theorem safe_read_some {n : Nat} {bytes : List UInt8} (h : (reader.safe_read li n).1 = some bytes) :
    (reader.safe_read li n).2.pos = li.pos + n ∧ (n = 0 ∨ li.pos + n ≤ li.bytes.length) := by
  rw [eh_reader_t.safe_read] at h ⊢
  dsimp only at h
  split_ifs at h with hlen
  · refine ⟨congrArg (li.pos + ·) hlen, ?_⟩
    rw [linput_t.qlread, List.length_take, List.length_drop] at hlen
    omega
  · refine ⟨congrArg (li.pos + ·) hlen, ?_⟩
    rw [linput_t.qlread, List.length_take, List.length_drop] at hlen
    omega

theorem readRecord_over (h : s.fde_frame.offset.signExtend 64 ≥ sh_size) :
    readRecord u reader sh_size s = .threw (.returned true s.cie_vec s.fde_vec) := by
  rw [readRecord, if_pos h]

/-- The state with the two numbers in front of a record. -/
def eh_state_t.inRecord (reader : eh_reader_t) (s : eh_state_t) (size delta : List UInt8) : eh_state_t :=
  { s with
    li := s.bodyInput reader
    fde_frame := { s.fde_frame with
      size := word size
      cie_ptr_delta := word delta } }

theorem readRecord_size (h : ¬s.fde_frame.offset.signExtend 64 ≥ sh_size) :
    readRecord u reader sh_size s = (known (s.sizeBytes reader)).andThen fun size =>
      if word size = 0 then
        .threw (.returned true s.cie_vec (s.fde_vec ++ [{ s.fde_frame with size := word size }]))
      else if word size ≥ 0xfffffff0#32 then .threw (.returned false s.cie_vec s.fde_vec)
      else (known (s.deltaBytes reader)).andThen fun delta =>
        rethrow s.leave (if word delta = 0 then readCieRecord u reader (s.inRecord reader size delta)
          else readFdeRecord u reader (s.inRecord reader size delta)) := by
  rw [readRecord, if_neg h]
  rfl

theorem append_one_ne {α : Type} (l : List α) (a : α) : l ≠ l ++ [a] := by
  intro h
  have hlen := congrArg List.length h
  rw [List.length_append, List.length_singleton] at hlen
  omega

theorem roundOk_rethrow {r : Outcome Halt eh_state_t} (h : readRecord u reader sh_size s = rethrow s.leave r) :
    RoundOk u reader sh_size s ↔ ¬Bad r ∧ ∀ s' fde, r = .done s' → s'.fde_vec = s.fde_vec ++ [fde] →
      FromRecord u reader s fde.contents := by
  cases r with
  | undefined =>
      refine iff_of_false (fun hok => ?_) fun hr => hr.1 (Or.inl rfl)
      have hends := hok.ends
      rw [h] at hends
      exact hends trivial
  | threw e =>
      cases e with
      | interr =>
          refine iff_of_false (fun hok => ?_) fun hr => hr.1 (Or.inr rfl)
          have hends := hok.ends
          rw [h] at hends
          exact hends rfl
      | corrupted =>
          refine iff_of_true ⟨?_, fun fde hpush => ?_⟩ ⟨not_bad_corrupted, nofun⟩
          · rw [h]
            exact nofun
          cases hpush with
          | next hnext _ => cases h.symm.trans hnext
          | last hlast =>
              have heq := Outcome.threw.inj (h.symm.trans hlast)
              exact (append_one_ne _ _ (Leave.returned.inj heq).2.2).elim
  | done s' =>
      constructor
      · intro hok
        refine ⟨not_bad_done s', fun s'' fde hdone hpush => ?_⟩
        obtain rfl := Outcome.done.inj hdone
        exact hok.own fde (.next h hpush)
      · intro hr
        refine ⟨?_, fun fde hpush => ?_⟩
        · rw [h]
          exact trivial
        cases hpush with
        | next hnext hvec =>
            obtain rfl := Outcome.done.inj (h.symm.trans hnext)
            exact hr.2 s' fde rfl hvec
        | last hlast => cases h.symm.trans hlast

theorem bad_andThen_done {α β : Type} {r : Outcome Halt α} {f : α → β} : Bad (r.andThen fun a => .done (f a)) ↔ Bad r := by
  cases r with
  | undefined => exact Iff.rfl.trans (iff_of_true (Or.inl rfl) (Or.inl rfl))
  | threw e => cases e with
    | interr => exact iff_of_true (Or.inr rfl) (Or.inr rfl)
    | corrupted => exact iff_of_false not_bad_corrupted not_bad_corrupted
  | done a => exact iff_of_false (not_bad_done _) (not_bad_done _)

theorem readCieRecord_long (h : ¬s.fde_frame.size.toInt < 5) :
    readCieRecord u reader s =
      (known (reader.safe_read (reader.safe_read s.li 1).2 (s.fde_frame.size.toNat - 5)).1).andThen fun bytes =>
      (readCie u reader.ident_msb s.fde_frame.offset s.fde_frame.size s.fde_frame.cie_ptr_delta
        (((reader.safe_read s.li 1).1.getD []).headD 0) (reader.framedata bytes)).andThen fun cie =>
        .done ⟨(reader.safe_read (reader.safe_read s.li 1).2 (s.fde_frame.size.toNat - 5)).2,
          { s.fde_frame with offset := s.fde_frame.offset + (s.fde_frame.size + 4) }, s.cie_vec ++ [cie], s.fde_vec⟩ := by
  rw [readCieRecord, if_neg h]

variable {s' : eh_state_t}

theorem readCieRecord_done (h : readCieRecord u reader s = .done s') :
    s'.fde_vec = s.fde_vec ∧ After s.li s'.li := by
  by_cases hsize : s.fde_frame.size.toInt < 5
  · rw [readCieRecord, if_pos hsize] at h
    cases h
  rw [readCieRecord_long hsize] at h
  cases hdata : (reader.safe_read (reader.safe_read s.li 1).2 (s.fde_frame.size.toNat - 5)).1 with
  | none =>
      rw [hdata] at h
      cases h
  | some bytes =>
      rw [hdata, known, Outcome.andThen] at h
      cases hcie : readCie u reader.ident_msb s.fde_frame.offset s.fde_frame.size s.fde_frame.cie_ptr_delta
          (((reader.safe_read s.li 1).1.getD []).headD 0) (reader.framedata bytes) with
      | undefined => exact nomatch hcie ▸ h
      | threw e => exact nomatch hcie ▸ h
      | done cie =>
          rw [hcie] at h
          obtain rfl := Outcome.done.inj h
          exact ⟨rfl, (after_safe_read reader ..).trans (after_safe_read reader ..)⟩

/-! ### The rest of a record of a function -/

/-- The object for the frames when the data of a record are read. -/
def eh_state_t.fdeStart (s : eh_state_t) : fde_frame_t :=
  { s.fde_frame with
    initial_location := 0
    cie_ptr := s.fde_frame.offset - s.fde_frame.cie_ptr_delta + 4 }

theorem readFdeRecord_short (h : s.fde_frame.size.toInt < 12) : readFdeRecord u reader s = .threw .corrupted := by
  rw [readFdeRecord, if_pos h]

theorem readFdeRecord_none (h : s.cie_vec.find? (fun cie => cie.offset = s.fdeStart.cie_ptr) = none)
    (hlong : 12 < s.fde_frame.size.toInt) : readFdeRecord u reader s = .threw .corrupted := by
  have hnat := BitVec.toInt_eq_toNat_cond s.fde_frame.size
  have hshort : ¬s.fde_frame.size.toInt < 12 := by omega
  have hempty : ¬s.fde_frame.size.toNat - 12 = 0 := by
    split_ifs at hnat
    · omega
    · omega
  rw [readFdeRecord, if_neg hshort, if_neg hempty]
  rw [eh_state_t.fdeStart] at h
  simp only [h]

theorem readFdeRecord_empty (h : s.fde_frame.size = 12) : readFdeRecord u reader s =
    .done (s.push (reader.safe_read (reader.safe_read s.li 4).2 4).2 s.fdeStart) := by
  rw [readFdeRecord, if_neg (by rw [h]; decide), if_pos (by rw [h]; decide)]
  rfl

theorem holdsRecord_unique {cie_ptr : BitVec 32} {n : Nat} {record record' : fde_record_t}
    (h : HoldsRecord reader s li cie_ptr n record) (h' : HoldsRecord reader s li cie_ptr n record') :
    record = record' := by
  obtain ⟨hbase, ⟨initial, hinitial, hloc⟩, ⟨range, hrange, haddr⟩, ⟨data, hdata, hbytes⟩, hcie⟩ := h
  obtain ⟨hbase', ⟨initial', hinitial', hloc'⟩, ⟨range', hrange', haddr'⟩, ⟨data', hdata', hbytes'⟩, hcie'⟩ := h'
  obtain rfl := Option.some.inj (hinitial.symm.trans hinitial')
  obtain rfl := Option.some.inj (hrange.symm.trans hrange')
  obtain rfl := Option.some.inj (hdata.symm.trans hdata')
  have heq := Option.some.inj (hcie.symm.trans hcie')
  cases record
  cases record'
  simp only at hbase hbase' hloc hloc' haddr haddr' hbytes hbytes' heq
  rw [hbase, hbase', hloc, hloc', haddr, haddr', hbytes, hbytes', heq]

theorem readFdeRecord_long (h : 12 < s.fde_frame.size.toInt) {cie : cie_frame_t}
    (hcie : s.cie_vec.find? (fun cie => cie.offset = s.fdeStart.cie_ptr) = some cie) :
    (∃ record li, After s.li li ∧ HoldsRecord reader s s.li s.fdeStart.cie_ptr (s.fde_frame.size.toNat - 12) record ∧
      record.cie = cie ∧ readFdeRecord u reader s =
        (readFde u reader.ident_msb record s.fdeStart).andThen fun fde => .done (s.push li fde)) ∨
      (readFdeRecord u reader s = .undefined ∧
        ∀ record, ¬HoldsRecord reader s s.li s.fdeStart.cie_ptr (s.fde_frame.size.toNat - 12) record) := by
  have hnat := BitVec.toInt_eq_toNat_cond s.fde_frame.size
  have hshort : ¬s.fde_frame.size.toInt < 12 := by omega
  have hempty : ¬s.fde_frame.size.toNat - 12 = 0 := by
    split_ifs at hnat
    · omega
    · omega
  have hread : readFdeRecord u reader s =
      (known (reader.safe_read s.li 4).1).andThen fun initial =>
      (known (reader.safe_read (reader.safe_read s.li 4).2 4).1).andThen fun range =>
      (known (reader.safe_read (reader.safe_read (reader.safe_read s.li 4).2 4).2
        (s.fde_frame.size.toNat - 12)).1).andThen fun bytes =>
      (readFde u reader.ident_msb ⟨reader.tell s.li, word initial, word range, reader.framedata bytes, cie⟩
        s.fdeStart).andThen fun fde => .done (s.push (reader.safe_read (reader.safe_read (reader.safe_read s.li 4).2 4).2
          (s.fde_frame.size.toNat - 12)).2 fde) := by
    rw [readFdeRecord, if_neg hshort, if_neg hempty]
    rw [eh_state_t.fdeStart] at hcie
    simp only [hcie]
    rfl
  rw [hread]
  cases hinitial : (reader.safe_read s.li 4).1 with
  | none => exact Or.inr ⟨rfl, fun record hr => hr.initial.elim fun _ hb => nomatch hinitial.symm.trans hb.1⟩
  | some initial =>
  cases hrange : (reader.safe_read (reader.safe_read s.li 4).2 4).1 with
  | none => exact Or.inr ⟨rfl, fun record hr => hr.range.elim fun _ hb => nomatch hrange.symm.trans hb.1⟩
  | some range =>
  cases hdata : (reader.safe_read (reader.safe_read (reader.safe_read s.li 4).2 4).2 (s.fde_frame.size.toNat - 12)).1 with
  | none => exact Or.inr ⟨rfl, fun record hr => hr.data.elim fun _ hb => nomatch hdata.symm.trans hb.1⟩
  | some bytes =>
      refine Or.inl ⟨⟨reader.tell s.li, word initial, word range, reader.framedata bytes, cie⟩, _, ?_, ?_, rfl, rfl⟩
      · exact ((after_safe_read ..).trans (after_safe_read ..)).trans (after_safe_read ..)
      · exact ⟨rfl, ⟨initial, hinitial, rfl⟩, ⟨range, hrange, rfl⟩, ⟨bytes, hdata, rfl⟩, hcie⟩

theorem readFdeRecord_done (h : readFdeRecord u reader s = .done s') :
    (∃ fde, s'.fde_vec = s.fde_vec ++ [fde]) ∧ After s.li s'.li := by
  by_cases hshort : s.fde_frame.size.toInt < 12
  · exact nomatch (readFdeRecord_short hshort).symm.trans h
  by_cases hempty : s.fde_frame.size = 12
  · obtain rfl := Outcome.done.inj ((readFdeRecord_empty hempty).symm.trans h)
    exact ⟨⟨_, rfl⟩, (after_safe_read reader ..).trans (after_safe_read reader ..)⟩
  have hlong : 12 < s.fde_frame.size.toInt := lt_of_le_of_ne (Int.not_lt.1 hshort) fun h =>
    hempty (BitVec.eq_of_toInt_eq h.symm)
  cases hcie : s.cie_vec.find? (fun cie => cie.offset = s.fdeStart.cie_ptr) with
  | none => exact nomatch (readFdeRecord_none hcie hlong).symm.trans h
  | some cie =>
      obtain ⟨record, li, hafter, _, _, hread⟩ | ⟨hundefined, _⟩ := readFdeRecord_long (u := u) hlong hcie
      · rw [hread] at h
        cases hfde : readFde u reader.ident_msb record s.fdeStart with
        | undefined => exact nomatch hfde ▸ h
        | threw e => exact nomatch hfde ▸ h
        | done fde =>
            rw [hfde] at h
            obtain rfl := Outcome.done.inj h
            exact ⟨⟨_, rfl⟩, hafter⟩
      · cases hundefined.symm.trans h

theorem readRecord_done (h : readRecord u reader sh_size s = .done s') :
    (s'.fde_vec = s.fde_vec ∨ ∃ fde, s'.fde_vec = s.fde_vec ++ [fde]) ∧
      s'.li.bytes.length - s'.li.pos < s.li.bytes.length - s.li.pos := by
  by_cases hover : s.fde_frame.offset.signExtend 64 ≥ sh_size
  · exact nomatch (readRecord_over hover).symm.trans h
  rw [readRecord_size hover] at h
  cases hsize : s.sizeBytes reader with
  | none => exact nomatch hsize ▸ h
  | some size =>
      have hplace := safe_read_some hsize
      rw [hsize, known, Outcome.andThen] at h
      split_ifs at h
      cases hdelta : s.deltaBytes reader with
      | none => exact nomatch hdelta ▸ h
      | some delta =>
          rw [hdelta, known, Outcome.andThen] at h
          have hrest : (s'.fde_vec = s.fde_vec ∨ ∃ fde, s'.fde_vec = s.fde_vec ++ [fde]) ∧
              After (s.bodyInput reader) s'.li := by
            split_ifs at h with hcie
            · cases hread : readCieRecord u reader (s.inRecord reader size delta) with
              | undefined => exact nomatch hread ▸ h
              | threw e => exact nomatch hread ▸ h
              | done t =>
                  rw [hread] at h
                  obtain rfl := Outcome.done.inj h
                  exact ⟨Or.inl (readCieRecord_done hread).1, (readCieRecord_done hread).2⟩
            · cases hread : readFdeRecord u reader (s.inRecord reader size delta) with
              | undefined => exact nomatch hread ▸ h
              | threw e => exact nomatch hread ▸ h
              | done t =>
                  rw [hread] at h
                  obtain rfl := Outcome.done.inj h
                  exact ⟨Or.inr (readFdeRecord_done hread).1, (readFdeRecord_done hread).2⟩
          have hfirst : (s.bodyInput reader).bytes = s.li.bytes := rfl
          have hpos : (reader.safe_read s.li 4).2.pos ≤ s'.li.pos := (after_safe_read ..).pos.trans hrest.2.pos
          refine ⟨hrest.1, ?_⟩
          rw [hrest.2.bytes, hfirst]
          omega

variable (hu : ∀ nbits is_signed, Consumes (u nbits is_signed))
include hu

theorem readCieRecord_bad : Bad (readCieRecord u reader s) ↔ ¬CieOk u reader s.fde_frame.size s.li := by
  rw [CieOk]
  by_cases hsize : s.fde_frame.size.toInt < 5
  · rw [readCieRecord, if_pos hsize]
    exact iff_of_false not_bad_corrupted fun hnot => hnot fun h => absurd hsize (Int.not_lt.2 h)
  rw [readCieRecord_long hsize, forall_prop_of_true (Int.not_lt.1 hsize)]
  cases hdata : (reader.safe_read (reader.safe_read s.li 1).2 (s.fde_frame.size.toNat - 5)).1 with
  | none => exact iff_of_true (Or.inl rfl) fun ⟨_, h, _⟩ => (nomatch h)
  | some bytes =>
      rw [known, Outcome.andThen, bad_andThen_done, readCie_bad hu]
      constructor
      · rintro h ⟨bytes', heq, hnot⟩
        exact hnot (Option.some.inj heq ▸ h)
      · intro h
        by_contra hnot
        exact h ⟨bytes, rfl, hnot⟩

omit hu in
theorem frames_own {record : fde_record_t} {augment : List UInt8} {cfis : List cfi_t} (fde : fde_frame_t)
    (hsize : s.sizeBytes reader = some size) (hdelta : s.deltaBytes reader = some delta) (hlong : 12 < (word size).toInt)
    (hne : word size ≠ 0)
    (hholds : HoldsRecord reader s (s.bodyInput reader) (s.ciePlace delta) ((word size).toNat - 12) record)
    (hframes : ∀ fde, readFde u reader.ident_msb record fde = .done (record.frames augment cfis fde)) :
    FromRecord u reader s (record.frames augment cfis fde).contents ↔
      record.cie.has_augment_data = true ∨ fde.augment_data = [] := by
  constructor
  · intro hfrom
    generalize hcontents : (record.frames augment cfis fde).contents = contents at hfrom
    cases hfrom with
    | bare hsize' hshort =>
        obtain rfl := Option.some.inj (hsize.symm.trans hsize')
        obtain hzero | htwelve := hshort
        · exact (hne hzero).elim
        · rw [htwelve] at hlong
          exact absurd hlong (by decide)
    | data hsize' hdelta' _ hholds' hread =>
        obtain rfl := Option.some.inj (hsize.symm.trans hsize')
        obtain rfl := Option.some.inj (hdelta.symm.trans hdelta')
        obtain rfl := holdsRecord_unique hholds hholds'
        obtain rfl := Outcome.done.inj ((hframes fde_frame_t.init).symm.trans hread)
        by_cases hz : record.cie.has_augment_data = true
        · exact Or.inl hz
        · have haugment := (fde_contents_t.mk.inj hcontents).1
          rw [fde_record_t.frames, fde_record_t.frames, if_neg hz, if_neg hz] at haugment
          exact Or.inr haugment
  · intro hkept
    have hcontents : (record.frames augment cfis fde).contents =
        (record.frames augment cfis fde_frame_t.init).contents := by
      obtain hz | hnil := hkept
      · simp only [fde_frame_t.contents, fde_record_t.frames, if_pos hz]
      · simp only [fde_frame_t.contents, fde_record_t.frames, hnil, fde_frame_t.init]
    rw [hcontents]
    exact .data hsize hdelta hlong hholds (hframes _)

/-- A record of a function is read inside its bytes, and the frames are its own, exactly if it is all right. -/
theorem readFdeRecord_ok (hsize : s.sizeBytes reader = some size) (hdelta : s.deltaBytes reader = some delta)
    (hne : word size ≠ 0) :
    (¬Bad (readFdeRecord u reader (s.inRecord reader size delta)) ∧
      ∀ s' fde, readFdeRecord u reader (s.inRecord reader size delta) = .done s' → s'.fde_vec = s.fde_vec ++ [fde] →
        FromRecord u reader s fde.contents) ↔
      FdeOk u reader s (word size) (s.ciePlace delta) (s.bodyInput reader) := by
  by_cases hshort : (word size).toInt < 12
  · rw [readFdeRecord_short (s := s.inRecord reader size delta) hshort]
    refine iff_of_true ⟨not_bad_corrupted, fun _ _ h => (nomatch h)⟩ ⟨fun h => ?_, fun h => ?_⟩
    · rw [h] at hshort
      exact absurd hshort (by decide)
    · omega
  by_cases hempty : word size = 12
  · rw [readFdeRecord_empty (s := s.inRecord reader size delta) hempty]
    constructor
    · rintro ⟨_, hown⟩
      have hfrom := hown _ _ rfl rfl
      generalize hcontents : (s.inRecord reader size delta).fdeStart.contents = contents at hfrom
      refine ⟨fun _ => ?_, fun hlong => ?_⟩
      · cases hfrom with
        | bare _ _ =>
            have heq := fde_contents_t.mk.inj hcontents
            exact ⟨heq.1, heq.2.2.1, heq.2.2.2⟩
        | data hsize' _ hlong _ _ =>
            obtain rfl := Option.some.inj (hsize.symm.trans hsize')
            rw [hempty] at hlong
            exact absurd hlong (by decide)
      · rw [hempty] at hlong
        exact absurd hlong (by decide)
    · intro hok
      refine ⟨not_bad_done _, fun s' fde hdone hpush => ?_⟩
      obtain rfl := Outcome.done.inj hdone
      obtain rfl := List.singleton_inj.1 (List.append_cancel_left hpush)
      obtain ⟨haugment, hfinal, hcfis⟩ := hok.empty hempty
      have hinit : (s.inRecord reader size delta).fdeStart.contents = .init :=
        fde_contents_t.mk.injEq .. ▸ ⟨haugment, rfl, hfinal, hcfis⟩
      rw [hinit]
      exact .bare hsize (Or.inr hempty)
  · have hlong : 12 < (word size).toInt := lt_of_le_of_ne (Int.not_lt.1 hshort) fun h =>
      hempty (BitVec.eq_of_toInt_eq h.symm)
    cases hcie : s.cie_vec.find? (fun cie => cie.offset = s.ciePlace delta) with
    | none =>
        rw [readFdeRecord_none (s := s.inRecord reader size delta) hcie hlong]
        refine iff_of_true ⟨not_bad_corrupted, fun _ _ h => (nomatch h)⟩ ⟨fun h => (hempty h).elim, fun _ cie h => ?_⟩
        cases hcie.symm.trans h
    | some cie =>
        obtain ⟨record, li, _, hholds, rfl, hread⟩ | ⟨hundefined, hnone⟩ :=
          readFdeRecord_long (u := u) (s := s.inRecord reader size delta) hlong hcie
        · have hholds' : HoldsRecord reader s (s.bodyInput reader) (s.ciePlace delta) ((word size).toNat - 12) record :=
            ⟨hholds.base, hholds.initial, hholds.range, hholds.data, hholds.cie⟩
          rw [hread]
          have hfde {cie' : cie_frame_t}
              (hcie' : s.cie_vec.find? (fun cie => cie.offset = s.ciePlace delta) = some cie') : record.cie = cie' :=
            Option.some.inj (hcie.symm.trans hcie')
          obtain ⟨hwhole, hnot, augment, cfis, hframes⟩ | ⟨hstrays, hbad⟩ | ⟨hnotwhole, hnot, hcorrupted⟩ :=
            readFde_cases hu reader.ident_msb record
          · rw [hframes]
            have hown := frames_own (s.inRecord reader size delta).fdeStart hsize hdelta hlong hne hholds' hframes
            constructor
            · rintro ⟨_, hpushed⟩
              refine ⟨fun h => (hempty h).elim, fun _ cie' hcie' => ?_⟩
              obtain rfl := hfde hcie'
              exact ⟨record, hholds', hnot, fun _ => hown.1 (hpushed _ _ rfl rfl)⟩
            · intro hok
              obtain ⟨record', hholds'', _, hkept⟩ := hok.data hlong record.cie hcie
              obtain rfl := holdsRecord_unique hholds' hholds''
              refine ⟨not_bad_done _, fun s' fde hdone hpush => ?_⟩
              obtain rfl := Outcome.done.inj hdone
              obtain rfl := List.singleton_inj.1 (List.append_cancel_left hpush)
              exact hown.2 (hkept hwhole)
          · refine iff_of_false (fun h => h.1 ((hbad _).andThen _)) fun h => ?_
            obtain ⟨record', hholds'', hnot, _⟩ := h.data hlong record.cie hcie
            exact hnot (holdsRecord_unique hholds'' hholds' ▸ hstrays)
          · rw [hcorrupted]
            refine iff_of_true ⟨not_bad_corrupted, fun _ _ h => (nomatch h)⟩
              ⟨fun h => (hempty h).elim, fun _ cie' hcie' => ?_⟩
            obtain rfl := hfde hcie'
            exact ⟨record, hholds', hnot, fun hwhole => (hnotwhole hwhole).elim⟩
        · refine iff_of_false (fun h => h.1 (Or.inl hundefined)) fun h => ?_
          obtain ⟨record, hholds, _⟩ := h.data hlong cie hcie
          exact hnone record ⟨hholds.base, hholds.initial, hholds.range, hholds.data, hholds.cie⟩

omit hu in
theorem recordOk_size (hover : ¬s.fde_frame.offset.signExtend 64 ≥ sh_size) (hsize : s.sizeBytes reader = some size) :
    RecordOk u reader sh_size s ↔ (word size = 0 ∧ s.fde_frame.contents = .init) ∨ word size ≥ 0xfffffff0#32 ∨
      (word size ≠ 0 ∧ ∃ delta, s.deltaBytes reader = some delta ∧
        if word delta = 0 then CieOk u reader (word size) (s.bodyInput reader)
        else FdeOk u reader s (word size) (s.ciePlace delta) (s.bodyInput reader)) := by
  constructor
  · intro hok
    cases hok with
    | behind h => exact (hover h).elim
    | terminator hsize' hzero hcontents =>
        obtain rfl := Option.some.inj (hsize.symm.trans hsize')
        exact Or.inl ⟨hzero, hcontents⟩
    | long hsize' hlong =>
        obtain rfl := Option.some.inj (hsize.symm.trans hsize')
        exact Or.inr (Or.inl hlong)
    | @cie _ delta hsize' hdelta hcie hne hok =>
        obtain rfl := Option.some.inj (hsize.symm.trans hsize')
        exact Or.inr (Or.inr ⟨hne, delta, hdelta, by rwa [if_pos hcie]⟩)
    | @fde _ delta hsize' hdelta hfde hne hok =>
        obtain rfl := Option.some.inj (hsize.symm.trans hsize')
        exact Or.inr (Or.inr ⟨hne, delta, hdelta, by rwa [if_neg hfde]⟩)
  · rintro (⟨hzero, hcontents⟩ | hlong | ⟨hne, delta, hdelta, hok⟩)
    · exact .terminator hsize hzero hcontents
    · exact .long hsize hlong
    by_cases hcie : word delta = 0
    · rw [if_pos hcie] at hok
      exact .cie hsize hdelta hcie hne hok
    · rw [if_neg hcie] at hok
      exact .fde hsize hdelta hcie hne hok

omit hu in
theorem not_roundOk_undefined (h : readRecord u reader sh_size s = .undefined) : ¬RoundOk u reader sh_size s := by
  intro hok
  have hends := hok.ends
  rw [h] at hends
  exact hends trivial

omit hu in
theorem roundOk_returned {ok : Bool} (h : readRecord u reader sh_size s = .threw (.returned ok s.cie_vec s.fde_vec)) :
    RoundOk u reader sh_size s := by
  refine ⟨?_, fun fde hpush => ?_⟩
  · rw [h]
    exact nofun
  · cases hpush with
    | next hnext _ => cases h.symm.trans hnext
    | last hlast => exact (append_one_ne _ _ (Leave.returned.inj (Outcome.threw.inj (h.symm.trans hlast))).2.2).elim

omit hu in
theorem roundOk_terminator {fde : fde_frame_t} (hsize : s.sizeBytes reader = some size) (hzero : word size = 0)
    (h : readRecord u reader sh_size s = .threw (.returned true s.cie_vec (s.fde_vec ++ [fde]))) :
    RoundOk u reader sh_size s ↔ fde.contents = .init := by
  constructor
  · intro hok
    have hfrom := hok.own fde (.last h)
    generalize hcontents : fde.contents = contents at hfrom
    cases hfrom with
    | bare _ _ => rfl
    | data hsize' _ hlong _ _ =>
        obtain rfl := Option.some.inj (hsize.symm.trans hsize')
        rw [hzero] at hlong
        exact absurd hlong (by decide)
  · intro hcontents
    refine ⟨?_, fun fde' hpush => ?_⟩
    · rw [h]
      exact nofun
    cases hpush with
    | next hnext _ => cases h.symm.trans hnext
    | last hlast =>
        have hvec := (Leave.returned.inj (Outcome.threw.inj (h.symm.trans hlast))).2.2
        obtain rfl := List.singleton_inj.1 (List.append_cancel_left hvec)
        rw [hcontents]
        exact .bare hsize (Or.inl hzero)

/-- A round ends, with frames of its record only, exactly if the record is all right. -/
theorem roundOk_iff : RoundOk u reader sh_size s ↔ RecordOk u reader sh_size s := by
  by_cases hover : s.fde_frame.offset.signExtend 64 ≥ sh_size
  · exact iff_of_true (roundOk_returned (readRecord_over hover)) (.behind hover)
  have hread : readRecord u reader sh_size s = _ := readRecord_size hover
  cases hsize : s.sizeBytes reader with
  | none =>
      rw [hsize] at hread
      refine iff_of_false (not_roundOk_undefined hread) fun hok => ?_
      cases hok with
      | behind h => exact hover h
      | terminator h _ _ => cases hsize.symm.trans h
      | long h _ => cases hsize.symm.trans h
      | cie h _ _ _ _ => cases hsize.symm.trans h
      | fde h _ _ _ _ => cases hsize.symm.trans h
  | some size =>
      rw [hsize, known, Outcome.andThen] at hread
      rw [recordOk_size hover hsize]
      by_cases hzero : word size = 0
      · rw [if_pos hzero] at hread
        rw [roundOk_terminator hsize hzero hread]
        refine ⟨fun h => Or.inl ⟨hzero, h⟩, fun h => ?_⟩
        obtain ⟨_, hcontents⟩ | hlong | ⟨hne, _⟩ := h
        · exact hcontents
        · rw [hzero] at hlong
          exact absurd hlong (by decide)
        · exact (hne hzero).elim
      rw [if_neg hzero] at hread
      by_cases hlong : word size ≥ 0xfffffff0#32
      · rw [if_pos hlong] at hread
        exact iff_of_true (roundOk_returned hread) (Or.inr (Or.inl hlong))
      rw [if_neg hlong] at hread
      cases hdelta : s.deltaBytes reader with
      | none =>
          rw [hdelta] at hread
          refine iff_of_false (not_roundOk_undefined hread) ?_
          rintro (⟨h, _⟩ | h | ⟨_, _, h, _⟩)
          · exact hzero h
          · exact hlong h
          · cases h
      | some delta =>
          rw [hdelta, known, Outcome.andThen] at hread
          rw [roundOk_rethrow hread]
          have hrest : ((word size = 0 ∧ s.fde_frame.contents = .init) ∨ word size ≥ 0xfffffff0#32 ∨
              (word size ≠ 0 ∧ ∃ delta', some delta = some delta' ∧
                if word delta' = 0 then CieOk u reader (word size) (s.bodyInput reader)
                else FdeOk u reader s (word size) (s.ciePlace delta') (s.bodyInput reader))) ↔
              if word delta = 0 then CieOk u reader (word size) (s.bodyInput reader)
              else FdeOk u reader s (word size) (s.ciePlace delta) (s.bodyInput reader) := by
            constructor
            · rintro (⟨h, _⟩ | h | ⟨_, _, heq, h⟩)
              · exact (hzero h).elim
              · exact (hlong h).elim
              · exact Option.some.inj heq ▸ h
            · exact fun h => Or.inr (Or.inr ⟨hzero, delta, rfl, h⟩)
          rw [hrest]
          by_cases hcie : word delta = 0
          · rw [if_pos hcie, if_pos hcie, readCieRecord_bad hu]
            refine ⟨fun h => not_not.1 h.1, fun h => ⟨not_not.2 h, fun s' fde hdone hvec => ?_⟩⟩
            exact (append_one_ne _ _ ((readCieRecord_done hdone).1.symm.trans hvec)).elim
          · rw [if_neg hcie, if_neg hcie]
            exact readFdeRecord_ok hu hsize hdelta hzero

/-- The section is read as it should be exactly if every record is all right that the loop comes to. -/
theorem readsEhFrame_iff (li : linput_t) (sh_offset : BitVec 64) :
    ReadsEhFrame u reader li sh_offset sh_size ↔
      ∀ s, Reached u reader li sh_offset sh_size s → RecordOk u reader sh_size s := by
  have hstart : (startEhFrame reader li sh_offset).li.bytes = li.bytes := by
    rw [startEhFrame, eh_reader_t.seek, linput_t.qlseek]
    split_ifs <;> rfl
  have henough : (startEhFrame reader li sh_offset).li.bytes.length - (startEhFrame reader li sh_offset).li.pos <
      li.bytes.length + 1 := by
    rw [hstart]
    omega
  have hloop : (Outcome.loop (readRecord u reader sh_size) (li.bytes.length + 1) (startEhFrame reader li sh_offset)).Ends
      (fun _ => False) (· ≠ .interr) ↔ ∀ s, Reached u reader li sh_offset sh_size s →
        (readRecord u reader sh_size s).Ends (fun _ => True) (· ≠ .interr) :=
    Outcome.loop_ends_iff (fun s => s.li.bytes.length - s.li.pos) (fun _ _ h => (readRecord_done h).2) henough
  have hends : (∃ result, read_eh_frame u reader li sh_offset sh_size = .done result) ↔
      (Outcome.loop (readRecord u reader sh_size) (li.bytes.length + 1) (startEhFrame reader li sh_offset)).Ends
        (fun _ => False) (· ≠ .interr) := by
    rw [read_eh_frame]
    cases Outcome.loop (readRecord u reader sh_size) (li.bytes.length + 1) (startEhFrame reader li sh_offset) with
    | undefined => exact ⟨fun ⟨_, h⟩ => (nomatch h), fun h => (h trivial).elim⟩
    | threw e => cases e with
      | interr => exact ⟨fun ⟨_, h⟩ => (nomatch h), fun h => (h rfl).elim⟩
      | returned ok cie_vec fde_vec => exact iff_of_true ⟨_, rfl⟩ nofun
    | done s => exact ⟨fun ⟨_, h⟩ => (nomatch h), fun h => h.elim⟩
  constructor
  · intro hreads s hs
    exact (roundOk_iff hu).1 ⟨hloop.1 (hends.1 hreads.ends) s hs, hreads.own s hs⟩
  · intro hok
    have hround (s : eh_state_t) (hs : Reached u reader li sh_offset sh_size s) := (roundOk_iff hu).2 (hok s hs)
    exact ⟨hends.2 (hloop.2 fun s hs => (hround s hs).ends), fun s hs => (hround s hs).own⟩

end

/-- The numbers in groups of seven bits. -/
def xleb128From (nbits : Nat) (is_signed : Bool) (shift : Nat) (acc : BitVec nbits) :
    List UInt8 → Unpacked (BitVec nbits)
  | [] => ⟨false, acc, []⟩
  | b :: bytes =>
    let acc := acc ||| ((b &&& 0x7f).toBitVec.setWidth nbits <<< shift)
    if b &&& 0x80 ≠ 0 then xleb128From nbits is_signed (shift + 7) acc bytes
    else ⟨true, if is_signed && b &&& 0x40 != 0 then acc ||| (BitVec.allOnes nbits <<< (shift + 7)) else acc, bytes⟩

def xleb128 (nbits : Nat) (is_signed : Bool) : List UInt8 → Unpacked (BitVec nbits) := xleb128From nbits is_signed 0 0

theorem xleb128From_consumes (nbits : Nat) (is_signed : Bool) (shift : Nat) (acc : BitVec nbits) :
    Consumes (xleb128From nbits is_signed shift acc) := by
  intro bytes
  induction bytes generalizing shift acc with
  | nil => exact nofun
  | cons b bytes ih =>
      intro hok
      rw [xleb128From] at hok ⊢
      split_ifs at hok ⊢
      · exact (ih _ _ hok).trans (Nat.lt_succ_self _)
      · exact Nat.lt_succ_self _
      · exact Nat.lt_succ_self _

def advancingCie : linput_t :=
  ⟨[11, 0, 0, 0, 0, 0, 0, 0, 1, 0, 1, 0x7c, 8, 2, 5], 0, by decide⟩

theorem readsEhFrame_iff_advancingCie : ReadsEhFrame xleb128 ⟨0, false, false⟩ advancingCie 0 15 ↔
    ∀ s, Reached xleb128 ⟨0, false, false⟩ advancingCie 0 15 s → RecordOk xleb128 ⟨0, false, false⟩ 15 s :=
  readsEhFrame_iff (fun nbits is_signed => xleb128From_consumes nbits is_signed 0 0) advancingCie 0

/-- The location of the instruction is not there. -/
theorem not_readsEhFrame_advancingCie : ¬ReadsEhFrame xleb128 ⟨0, false, false⟩ advancingCie 0 15 := by
  intro h
  obtain ⟨result, hdone⟩ := h.ends
  have hinterr : read_eh_frame xleb128 ⟨0, false, false⟩ advancingCie 0 15 = .threw .interr := by rfl
  cases hinterr.symm.trans hdone

end IdaSdk.Elf
