import IdaSdk.ElfModel
import IdaSdk.LibCodes
import IdaSdk.LibOutcome

/-!
Packed relocations of Android: groups of relocations as variable-length numbers, unpacked at once and then served one
after another. The reader of the numbers is a parameter. A reference outside the buffer is undefined.
-/

namespace IdaSdk.Elf
open Codes Outcomes

abbrev sleb128_t := Unpacked (BitVec 64)

def RELOCATION_GROUPED_BY_INFO_FLAG : BitVec 32 := 1

def RELOCATION_GROUPED_BY_OFFSET_DELTA_FLAG : BitVec 32 := 2

def RELOCATION_GROUPED_BY_ADDEND_FLAG : BitVec 32 := 4

def RELOCATION_GROUP_HAS_ADDEND_FLAG : BitVec 32 := 8

def grouped_by_offset_delta (flags : BitVec 32) : Bool := flags &&& RELOCATION_GROUPED_BY_OFFSET_DELTA_FLAG != 0

def grouped_by_info (flags : BitVec 32) : Bool := flags &&& RELOCATION_GROUPED_BY_INFO_FLAG != 0

def grouped_by_addend (flags : BitVec 32) : Bool := flags &&& RELOCATION_GROUPED_BY_ADDEND_FLAG != 0

def group_has_addend (flags : BitVec 32) : Bool := flags &&& RELOCATION_GROUP_HAS_ADDEND_FLAG != 0

/-- The unpacker with the variables of its loops and the relocations. -/
structure aps2_unpacker_t where
  ptr : List UInt8
  flags : BitVec 32
  ok : Bool
  rela : elf_rela_t
  offset_delta : BitVec 64
  out : List elf_rela_t
  n : Nat

def resizeRelas (out : List elf_rela_t) (n : Nat) : List elf_rela_t :=
  out.take n ++ List.replicate (n - out.length) elf_rela_t.init

section
variable (u : List UInt8 → sleb128_t)

namespace aps2_unpacker_t
variable (s : aps2_unpacker_t)

/-- The unpacker behind the next number. The number itself is used even if the reading fails. -/
def skipval : aps2_unpacker_t := { s with ptr := (u s.ptr).rest, ok := s.ok && (u s.ptr).ok }

def getval : BitVec 64 := (u s.ptr).value

def readDelta (c : Bool) : aps2_unpacker_t :=
  if c then { s.skipval u with offset_delta := s.getval u } else s

def readInfo (c : Bool) : aps2_unpacker_t :=
  if c then { s.skipval u with rela := ⟨s.rela.r_offset, s.getval u, s.rela.r_addend⟩ } else s

def readAddend (c : Bool) : aps2_unpacker_t :=
  if c then { s.skipval u with rela := ⟨s.rela.r_offset, s.rela.r_info, s.rela.r_addend + s.getval u⟩ } else s

/-- The fields of a group behind the number of its relocations. -/
def readGroup : aps2_unpacker_t :=
  let s := { s.skipval u with flags := (s.getval u).setWidth 32, offset_delta := 0 }
  let s := s.readDelta u (grouped_by_offset_delta s.flags)
  let s := s.readInfo u (grouped_by_info s.flags)
  if grouped_by_addend s.flags && group_has_addend s.flags then s.readAddend u true
  else if !group_has_addend s.flags then { s with rela := ⟨s.rela.r_offset, s.rela.r_info, 0⟩ }
  else s

/-- The fields of a relocation. -/
def readReloc : aps2_unpacker_t :=
  let s := s.readDelta u (!grouped_by_offset_delta s.flags)
  let s := { s with rela := ⟨s.rela.r_offset + s.offset_delta, s.rela.r_info, s.rela.r_addend⟩ }
  let s := s.readInfo u (!grouped_by_info s.flags)
  s.readAddend u (group_has_addend s.flags && !grouped_by_addend s.flags)

end aps2_unpacker_t

/-- The relocations of a group: the loop returns from the call, or goes on behind it. -/
def unpackRelocs (nrelocs : Nat) : Nat → aps2_unpacker_t → Outcome (List elf_rela_t) aps2_unpacker_t
  | 0, s => .done s
  | i + 1, s =>
    let s := s.readReloc u
    if !s.ok then .threw (resizeRelas s.out s.n)
    else if s.n = nrelocs then .threw s.out
    else unpackRelocs nrelocs i { s with out := s.out.set s.n s.rela, n := s.n + 1 }

def unpackGroup (nrelocs : Nat) (s : aps2_unpacker_t) : Outcome (List elf_rela_t) aps2_unpacker_t :=
  if !s.ok then .threw s.out
  else unpackRelocs u nrelocs (s.getval u).toInt.toNat ((s.skipval u).readGroup u)

/-- The first number is the offset in front of the first relocation. -/
def startUnpacking (bytes : List UInt8) (nrelocs : Nat) (out : List elf_rela_t) : aps2_unpacker_t :=
  ⟨(u bytes).rest, 0, (u bytes).ok, ⟨(u bytes).value, 0, 0⟩, 0, resizeRelas out nrelocs, 0⟩

/-- Every round takes at least two bytes, so that there are no more rounds than bytes. -/
def unpack (bytes : List UInt8) (nrelocs : Nat) (out : List elf_rela_t) : Outcome Unit (List elf_rela_t) :=
  match Outcome.loop (unpackGroup u nrelocs) (bytes.length + 1) (startUnpacking u bytes nrelocs out) with
  | .threw out => .done out
  | _ => .undefined

/-- The reader of a packed table. -/
structure buffered_rela_t where
  li : linput_t
  offset : BitVec 64
  count : BitVec 64
  buffer : List elf_rela_t
  cur : BitVec 32
  end_ : BitVec 32

def PKREL_APS2 : List UInt8 := [0x41, 0x50, 0x53, 0x32]

namespace buffered_rela_t
variable (s : buffered_rela_t)

/-- All relocations are unpacked. No result means that there are none to serve. -/
def fill : Outcome Unit (Option buffered_rela_t) :=
  let sought := s.li.qlseek s.offset
  let bytes := (sought.1.qlread s.count.toNat).2
  let n := u (bytes.drop 4)
  if !sought.2 then .done none
  else if bytes.length < s.count.toNat ∧ bytes.length ≤ 8 then .done none
  else if bytes.length < 4 then .done none
  else if !n.ok then .done none
  else if n.value.toInt ≤ 0 ∨ n.value.toNat ≥ s.count.toNat then .done none
  else if bytes.take 4 ≠ PKREL_APS2 then .done none
  else (unpack u n.rest n.value.toNat s.buffer).andThen fun buffer =>
      .done (some { s with buffer := buffer, end_ := n.value.setWidth 32 })

def serve : Outcome Unit (Option (elf_rela_t × buffered_rela_t)) :=
  match s.buffer[s.cur.toNat]? with
  | none => .undefined
  | some r => .done (some (r, { s with cur := s.cur + 1 }))

def next : Outcome Unit (Option (elf_rela_t × buffered_rela_t)) :=
  if s.cur ≥ s.end_ then
    if s.end_ ≠ 0 then .done none
    else (s.fill u).andThen fun filled =>
      match filled with
      | none => .done none
      | some s => s.serve
  else s.serve

end buffered_rela_t

/-- The relocations the calls deliver, until one says that there are no more. -/
inductive Delivers : buffered_rela_t → List elf_rela_t → Prop
  | nil {s} : s.next u = .done none → Delivers s []
  | cons {s r s' rs} : s.next u = .done (some (r, s')) → Delivers s' rs → Delivers s (r :: rs)

end

/-- The numbers of a relocation that are not those of its group. -/
structure aps2_entry_t where
  delta : BitVec 64
  info : BitVec 64
  addend : BitVec 64

/-- The numbers of a group, among them those its flags do not ask for. A negative size is that of an empty group. -/
structure aps2_group_t where
  size : BitVec 64
  flagbits : BitVec 64
  delta : BitVec 64
  info : BitVec 64
  addend : BitVec 64
  entries : List aps2_entry_t
  size_eq : size.toInt.toNat = entries.length

namespace aps2_group_t
variable (g : aps2_group_t)

def flags : BitVec 32 := g.flagbits.setWidth 32

variable (r : elf_rela_t)

/-- What a group does to the running values before its first relocation. -/
def start : elf_rela_t :=
  ⟨r.r_offset, if grouped_by_info g.flags then g.info else r.r_info,
    if !group_has_addend g.flags then 0 else if grouped_by_addend g.flags then r.r_addend + g.addend else r.r_addend⟩

def advance (e : aps2_entry_t) : elf_rela_t :=
  ⟨r.r_offset + if grouped_by_offset_delta g.flags then g.delta else e.delta,
    if grouped_by_info g.flags then r.r_info else e.info,
    if group_has_addend g.flags && !grouped_by_addend g.flags then r.r_addend + e.addend else r.r_addend⟩

def finish : elf_rela_t := g.entries.foldl g.advance (g.start r)

/-- The relocations of a group, each one complete behind its last number. -/
def relocEvents : elf_rela_t → List aps2_entry_t → List (Event (BitVec 64) elf_rela_t)
  | _, [] => []
  | r, e :: es =>
    valueIf (!grouped_by_offset_delta g.flags) e.delta ++ (valueIf (!grouped_by_info g.flags) e.info ++
      (valueIf (group_has_addend g.flags && !grouped_by_addend g.flags) e.addend ++
        .result (g.advance r e) :: relocEvents (g.advance r e) es))

/-- A group in front of what follows. -/
def events (following : List (Event (BitVec 64) elf_rela_t)) : List (Event (BitVec 64) elf_rela_t) :=
  valueIf true g.size ++ (valueIf true g.flagbits ++ (valueIf (grouped_by_offset_delta g.flags) g.delta ++
    (valueIf (grouped_by_info g.flags) g.info ++
      (valueIf (grouped_by_addend g.flags && group_has_addend g.flags) g.addend ++
        (g.relocEvents (g.start r) g.entries ++ following)))))

end aps2_group_t

def groupsEvents : elf_rela_t → List aps2_group_t → List (Event (BitVec 64) elf_rela_t)
  | _, [] => []
  | r, g :: gs => g.events r (groupsEvents (g.finish r) gs)

/-- The numbers of a stream behind the declared count, and the relocations between them. -/
def streamEvents (offset : BitVec 64) (gs : List aps2_group_t) : List (Event (BitVec 64) elf_rela_t) :=
  valueIf true offset ++ groupsEvents ⟨offset, 0, 0⟩ gs

def relocsOf (offset : BitVec 64) (gs : List aps2_group_t) : List elf_rela_t := results (streamEvents offset gs)

section
variable {u : List UInt8 → sleb128_t} {nrelocs : Nat} {all : List elf_rela_t} {s s' : aps2_unpacker_t}

/-- The unpacker has read on, or failed. -/
structure Reads (s s' : aps2_unpacker_t) : Prop where
  out : s'.out = s.out
  n : s'.n = s.n
  ptr : s'.ok = true → s.ok = true ∧ s'.ptr.length ≤ s.ptr.length

theorem Reads.refl (s : aps2_unpacker_t) : Reads s s := ⟨rfl, rfl, fun h => ⟨h, le_rfl⟩⟩

theorem Reads.trans {s'' : aps2_unpacker_t} (h : Reads s s') (h' : Reads s' s'') : Reads s s'' where
  out := h'.out.trans h.out
  n := h'.n.trans h.n
  ptr hok := ⟨(h.ptr (h'.ptr hok).1).1, (h'.ptr hok).2.trans (h.ptr (h'.ptr hok).1).2⟩

theorem skipval_shorter (hu : Consumes u) (s : aps2_unpacker_t) (hok : (s.skipval u).ok = true) :
    s.ok = true ∧ (s.skipval u).ptr.length < s.ptr.length := by
  have h := Bool.and_eq_true_iff.1 hok
  exact ⟨h.1, hu s.ptr h.2⟩

theorem skipval_reads (hu : Consumes u) (s : aps2_unpacker_t) : Reads s (s.skipval u) :=
  ⟨rfl, rfl, fun hok => ⟨(skipval_shorter hu s hok).1, (skipval_shorter hu s hok).2.le⟩⟩

theorem readDelta_reads (hu : Consumes u) (s : aps2_unpacker_t) (c : Bool) : Reads s (s.readDelta u c) := by
  cases c with
  | false => exact .refl s
  | true => exact ⟨rfl, rfl, (skipval_reads hu s).ptr⟩

theorem readInfo_reads (hu : Consumes u) (s : aps2_unpacker_t) (c : Bool) : Reads s (s.readInfo u c) := by
  cases c with
  | false => exact .refl s
  | true => exact ⟨rfl, rfl, (skipval_reads hu s).ptr⟩

theorem readAddend_reads (hu : Consumes u) (s : aps2_unpacker_t) (c : Bool) : Reads s (s.readAddend u c) := by
  cases c with
  | false => exact .refl s
  | true => exact ⟨rfl, rfl, (skipval_reads hu s).ptr⟩

theorem Reads.withRela (h : Reads s s') (r : elf_rela_t) : Reads s { s' with rela := r } := ⟨h.out, h.n, h.ptr⟩

theorem readGroup_reads (hu : Consumes u) (s : aps2_unpacker_t) : Reads s (s.readGroup u) := by
  have hflags : Reads s { s.skipval u with flags := (s.getval u).setWidth 32, offset_delta := 0 } :=
    ⟨rfl, rfl, (skipval_reads hu s).ptr⟩
  have hfields (c d : Bool) := (hflags.trans (readDelta_reads hu _ c)).trans (readInfo_reads hu _ d)
  rw [aps2_unpacker_t.readGroup]
  dsimp only
  split_ifs
  · exact (hfields _ _).trans (readAddend_reads hu _ _)
  · exact (hfields _ _).withRela _
  · exact hfields _ _

theorem readReloc_reads (hu : Consumes u) (s : aps2_unpacker_t) : Reads s (s.readReloc u) := by
  have hdelta := (readDelta_reads hu s (!grouped_by_offset_delta s.flags)).withRela
  exact ((hdelta _).trans (readInfo_reads hu _ _)).trans (readAddend_reads hu _ _)

/-- All relocations have a place, and the first ones are there. -/
structure Room (nrelocs : Nat) (all : List elf_rela_t) (s : aps2_unpacker_t) : Prop where
  length : s.out.length = nrelocs
  n_le : s.n ≤ nrelocs
  kept : all <+: s.out.take s.n

theorem Room.of_reads (h : Room nrelocs all s) (hr : Reads s s') : Room nrelocs all s' := by
  refine ⟨hr.out ▸ h.length, hr.n ▸ h.n_le, ?_⟩
  rw [hr.out, hr.n]
  exact h.kept

theorem take_set_succ {out : List elf_rela_t} {n : Nat} (r : elf_rela_t) (h : n < out.length) :
    (out.set n r).take (n + 1) = out.take n ++ [r] := by
  rw [List.take_add_one, List.take_set_of_le le_rfl, List.getElem?_set_self h]
  rfl

theorem Room.push (h : Room nrelocs all s) (hn : s.n ≠ nrelocs) (r : elf_rela_t) :
    Room nrelocs all { s with out := s.out.set s.n r, n := s.n + 1 } := by
  have hlt : s.n < s.out.length := by
    rw [h.length]
    exact lt_of_le_of_ne h.n_le hn
  refine ⟨(List.length_set ..).trans h.length, h.length ▸ hlt, ?_⟩
  dsimp only
  rw [take_set_succ r hlt]
  exact h.kept.trans (List.prefix_append ..)

theorem Room.shrunk (h : Room nrelocs all s) : all <+: resizeRelas s.out s.n :=
  h.kept.trans (List.prefix_append ..)

theorem Room.whole (h : Room nrelocs all s) : all <+: s.out := h.kept.trans (List.take_prefix ..)

theorem unpackRelocs_ends (hu : Consumes u) (i : Nat) (h : Room nrelocs all s) :
    (unpackRelocs u nrelocs i s).Ends
      (fun s' => Room nrelocs all s' ∧ (s'.ok = true → s.ok = true ∧ s'.ptr.length ≤ s.ptr.length))
      (fun out => all <+: out) := by
  induction i generalizing s with
  | zero => exact ⟨h, fun hok => ⟨hok, le_rfl⟩⟩
  | succ i ih =>
      have hread := readReloc_reads hu s
      have hroom := h.of_reads hread
      rw [unpackRelocs]
      refine .ite (fun _ => hroom.shrunk) fun hok => .ite (fun _ => hroom.whole) fun hn => ?_
      refine (ih (hroom.push hn _)).imp (fun s' hs' => ⟨hs'.1, fun hok' => ?_⟩) fun out hout => hout
      have hlater := hread.ptr (hs'.2 hok').1
      exact ⟨hlater.1, (hs'.2 hok').2.trans hlater.2⟩

def aps2_unpacker_t.left (s : aps2_unpacker_t) : Nat := if s.ok then s.ptr.length + 1 else 0

theorem unpackGroup_ends (hu : Consumes u) (h : Room nrelocs all s) :
    (unpackGroup u nrelocs s).Ends (fun s' => Room nrelocs all s' ∧ s'.left < s.left) (fun out => all <+: out) := by
  rw [unpackGroup]
  refine .ite (fun _ => h.whole) fun hok => ?_
  have hread := (skipval_reads hu s).trans (readGroup_reads hu (s.skipval u))
  refine (unpackRelocs_ends hu _ (h.of_reads hread)).imp (fun s' hs' => ⟨hs'.1, ?_⟩) fun out hout => hout
  have hokay : s.ok = true := by simpa using hok
  rw [aps2_unpacker_t.left, aps2_unpacker_t.left, if_pos hokay]
  by_cases hs : s'.ok = true
  · have hgroup := (readGroup_reads hu (s.skipval u)).ptr (hs'.2 hs).1
    have hsize := (skipval_shorter hu s hgroup.1).2
    rw [if_pos hs]
    have hlast := (hs'.2 hs).2
    omega
  · rw [if_neg hs]
    omega

theorem length_resizeRelas (out : List elf_rela_t) (n : Nat) : (resizeRelas out n).length = n := by
  rw [resizeRelas, List.length_append, List.length_take, List.length_replicate]
  omega

theorem startUnpacking_room (u : List UInt8 → sleb128_t) (bytes : List UInt8) (nrelocs : Nat) (out : List elf_rela_t) :
    Room nrelocs [] (startUnpacking u bytes nrelocs out) :=
  ⟨length_resizeRelas out nrelocs, Nat.zero_le _, List.nil_prefix⟩

theorem unpack_returns (hu : Consumes u) (bytes : List UInt8) (nrelocs : Nat) (out : List elf_rela_t) :
    ∃ out', unpack u bytes nrelocs out = .done out' := by
  have hleft : (startUnpacking u bytes nrelocs out).left < bytes.length + 1 := by
    rw [aps2_unpacker_t.left]
    split_ifs with hok
    · have hlt := hu bytes hok
      exact Nat.succ_lt_succ hlt
    · exact Nat.succ_pos _
  have hloop := Outcome.loop_ends (fun s hs => unpackGroup_ends hu hs) (startUnpacking_room u bytes nrelocs out) hleft
  rw [unpack]
  generalize Outcome.loop (unpackGroup u nrelocs) (bytes.length + 1) (startUnpacking u bytes nrelocs out) = r at hloop ⊢
  cases r with
  | undefined => exact (hloop trivial).elim
  | done s => exact hloop.elim
  | threw out' => exact ⟨out', rfl⟩

/-! ### Unpacking follows the stream -/

section
variable {v : BitVec 64} {rest : List UInt8} {c : Bool}

theorem readDelta_of (h : ReadsIf u c v s.ptr rest) :
    s.readDelta u c = { s with ptr := rest, offset_delta := if c then v else s.offset_delta } := by
  cases c with
  | false =>
      obtain rfl := h.skip rfl
      rfl
  | true =>
      rw [aps2_unpacker_t.readDelta, if_pos rfl, aps2_unpacker_t.skipval, aps2_unpacker_t.getval, h.read rfl,
        Bool.and_true, if_pos rfl]

theorem readInfo_of (h : ReadsIf u c v s.ptr rest) :
    s.readInfo u c = { s with
      ptr := rest
      rela := ⟨s.rela.r_offset, if c then v else s.rela.r_info, s.rela.r_addend⟩ } := by
  cases c with
  | false =>
      obtain rfl := h.skip rfl
      rfl
  | true =>
      rw [aps2_unpacker_t.readInfo, if_pos rfl, aps2_unpacker_t.skipval, aps2_unpacker_t.getval, h.read rfl,
        Bool.and_true, if_pos rfl]

theorem readAddend_of (h : ReadsIf u c v s.ptr rest) :
    s.readAddend u c = { s with
      ptr := rest
      rela := ⟨s.rela.r_offset, s.rela.r_info, if c then s.rela.r_addend + v else s.rela.r_addend⟩ } := by
  cases c with
  | false =>
      obtain rfl := h.skip rfl
      rfl
  | true =>
      rw [aps2_unpacker_t.readAddend, if_pos rfl, aps2_unpacker_t.skipval, aps2_unpacker_t.getval, h.read rfl,
        Bool.and_true, if_pos rfl]

end

/-- The unpacker is at the front of `es`, with the running values `r`; what is still complete there are the missing
relocations of `all`. -/
structure OnTrack (u : List UInt8 → sleb128_t) (nrelocs : Nat) (all : List elf_rela_t)
    (es : List (Event (BitVec 64) elf_rela_t)) (r : elf_rela_t) (s : aps2_unpacker_t) : Prop where
  ok : s.ok = true
  rela : s.rela = r
  length : s.out.length = nrelocs
  size : s.n + (results es).length ≤ nrelocs
  encodes : ∃ rs, Encodes u es s.ptr rs ∧ all <+: s.out.take s.n ++ rs

variable {es : List (Event (BitVec 64) elf_rela_t)} {r : elf_rela_t}

theorem OnTrack.room_of_nil (h : OnTrack u nrelocs all es r s) (hkept : all <+: s.out.take s.n ++ []) :
    Room nrelocs all s where
  length := h.length
  n_le := (Nat.le_add_right ..).trans h.size
  kept := by rwa [List.append_nil] at hkept

theorem OnTrack.room (h : OnTrack u nrelocs all [] r s) : Room nrelocs all s := by
  obtain ⟨rs, hrs, hall⟩ := h.encodes
  generalize s.ptr = bytes at hrs
  cases hrs with
  | nil => exact h.room_of_nil hall

/-- Either everything is there, or the unpacker is on its way. -/
def Underway (u : List UInt8 → sleb128_t) (nrelocs : Nat) (all : List elf_rela_t)
    (es : List (Event (BitVec 64) elf_rela_t)) (r : elf_rela_t) (s : aps2_unpacker_t) : Prop :=
  Room nrelocs all s ∨ OnTrack u nrelocs all es r s

variable {g : aps2_group_t}

theorem readReloc_of {e : aps2_entry_t} {p₁ p₂ p₃ : List UInt8} (hflags : s.flags = g.flags)
    (hdelta : grouped_by_offset_delta g.flags = true → s.offset_delta = g.delta)
    (h₁ : ReadsIf u (!grouped_by_offset_delta g.flags) e.delta s.ptr p₁)
    (h₂ : ReadsIf u (!grouped_by_info g.flags) e.info p₁ p₂)
    (h₃ : ReadsIf u (group_has_addend g.flags && !grouped_by_addend g.flags) e.addend p₂ p₃) :
    ∃ d, s.readReloc u = { s with ptr := p₃, offset_delta := d, rela := g.advance s.rela e } ∧
      (grouped_by_offset_delta g.flags = true → d = g.delta) := by
  refine ⟨if !grouped_by_offset_delta g.flags then e.delta else s.offset_delta, ?_, fun hg => ?_⟩
  · rw [aps2_unpacker_t.readReloc, hflags, readDelta_of h₁]
    dsimp only
    rw [hflags, readInfo_of h₂]
    dsimp only
    rw [readAddend_of h₃, aps2_group_t.advance]
    cases hd : grouped_by_offset_delta g.flags with
    | false => cases grouped_by_info g.flags <;> rfl
    | true =>
        rw [hdelta hd]
        cases grouped_by_info g.flags <;> rfl
  · rw [hg]
    exact hdelta hg

theorem unpackRelocs_follows (hu : Consumes u) (entries : List aps2_entry_t)
    (hflags : s.flags = g.flags) (hdelta : grouped_by_offset_delta g.flags = true → s.offset_delta = g.delta)
    (h : OnTrack u nrelocs all (g.relocEvents r entries ++ es) r s) :
    (unpackRelocs u nrelocs entries.length s).Ends (Underway u nrelocs all es (entries.foldl g.advance r))
      (fun out => all <+: out) := by
  induction entries generalizing s r with
  | nil => exact Or.inr h
  | cons e entries ih =>
      obtain ⟨rs, hrs, hall⟩ := h.encodes
      have hcut (hnil : rs = []) : (unpackRelocs u nrelocs (e :: entries).length s).Ends
          (Underway u nrelocs all es ((e :: entries).foldl g.advance r)) (fun out => all <+: out) :=
        (unpackRelocs_ends hu _ (h.room_of_nil (hnil ▸ hall))).imp (fun s' hs' => Or.inl hs'.1) fun out hout => hout
      rw [aps2_group_t.relocEvents, List.append_assoc, List.append_assoc, List.append_assoc] at hrs
      obtain hnil | ⟨p₁, h₁, hrs₁⟩ := hrs.readsIf hu
      · exact hcut hnil
      obtain hnil | ⟨p₂, h₂, hrs₂⟩ := hrs₁.readsIf hu
      · exact hcut hnil
      obtain hnil | ⟨p₃, h₃, hrs₃⟩ := hrs₂.readsIf hu
      · exact hcut hnil
      obtain ⟨d, hread, hd⟩ := readReloc_of hflags hdelta h₁ h₂ h₃
      have hsize : s.n + ((results (g.relocEvents (g.advance r e) entries ++ es)).length + 1) ≤ nrelocs := by
        have hsize := h.size
        rw [aps2_group_t.relocEvents, List.append_assoc, List.append_assoc, List.append_assoc, results_append,
          results_append, results_append, results_valueIf, results_valueIf, results_valueIf] at hsize
        exact hsize
      cases hrs₃ with
      | @result _ _ _ rs hrest =>
        rw [List.length_cons, unpackRelocs, hread]
        dsimp only
        have hlt : s.n < s.out.length := by
          rw [h.length]
          omega
        rw [if_neg (by rw [h.ok]; decide), if_neg (by omega)]
        refine ih hflags hd ⟨h.ok, by rw [h.rela], (List.length_set ..).trans h.length, ?_, rs, hrest, ?_⟩
        · dsimp only
          omega
        · rw [take_set_succ _ hlt, List.append_assoc, h.rela]
          exact hall

theorem skipval_of {v : BitVec 64} {rest : List UInt8} (h : ReadsIf u true v s.ptr rest) :
    s.skipval u = { s with ptr := rest } ∧ s.getval u = v := by
  rw [aps2_unpacker_t.skipval, aps2_unpacker_t.getval, h.read rfl, Bool.and_true]
  exact ⟨rfl, rfl⟩

theorem readGroup_of {p₁ p₂ p₃ p₄ : List UInt8} (h₁ : ReadsIf u true g.flagbits s.ptr p₁)
    (h₂ : ReadsIf u (grouped_by_offset_delta g.flags) g.delta p₁ p₂)
    (h₃ : ReadsIf u (grouped_by_info g.flags) g.info p₂ p₃)
    (h₄ : ReadsIf u (grouped_by_addend g.flags && group_has_addend g.flags) g.addend p₃ p₄) :
    ∃ d, s.readGroup u = { s with ptr := p₄, flags := g.flags, offset_delta := d, rela := g.start s.rela } ∧
      (grouped_by_offset_delta g.flags = true → d = g.delta) := by
  have hflags : (g.flagbits.setWidth 32 : BitVec 32) = g.flags := rfl
  refine ⟨if grouped_by_offset_delta g.flags then g.delta else 0, ?_, fun hg => if_pos hg⟩
  rw [aps2_unpacker_t.readGroup, (skipval_of h₁).1, (skipval_of h₁).2, hflags]
  dsimp only
  rw [readDelta_of h₂]
  dsimp only
  rw [readInfo_of h₃, aps2_group_t.start]
  dsimp only
  cases ha : grouped_by_addend g.flags && group_has_addend g.flags with
  | true =>
      obtain ⟨hby, hhas⟩ := Bool.and_eq_true_iff.1 ha
      rw [ha] at h₄
      rw [if_pos rfl, readAddend_of h₄, hby, hhas]
      rfl
  | false =>
      rw [ha] at h₄
      obtain rfl := h₄.skip rfl
      rw [if_neg Bool.false_ne_true]
      cases hhas : group_has_addend g.flags with
      | false => rfl
      | true =>
          rw [hhas, Bool.and_true] at ha
          rw [ha]
          rfl

theorem results_events (g : aps2_group_t) (r : elf_rela_t) (es : List (Event (BitVec 64) elf_rela_t)) :
    results (g.events r es) = results (g.relocEvents (g.start r) g.entries ++ es) := by
  rw [aps2_group_t.events, results_append, results_append, results_append, results_append, results_append,
    results_valueIf, results_valueIf, results_valueIf, results_valueIf, results_valueIf]
  rfl

theorem unpackGroup_follows (hu : Consumes u) (g : aps2_group_t) (h : OnTrack u nrelocs all (g.events r es) r s) :
    (unpackGroup u nrelocs s).Ends (Underway u nrelocs all es (g.finish r)) (fun out => all <+: out) := by
  obtain ⟨rs, hrs, hall⟩ := h.encodes
  have hcut (hnil : rs = []) :
      (unpackGroup u nrelocs s).Ends (Underway u nrelocs all es (g.finish r)) (fun out => all <+: out) :=
    (unpackGroup_ends hu (h.room_of_nil (hnil ▸ hall))).imp (fun s' hs' => Or.inl hs'.1) fun out hout => hout
  obtain hnil | ⟨p₀, h₀, hrs⟩ := hrs.readsIf hu
  · exact hcut hnil
  obtain hnil | ⟨p₁, h₁, hrs⟩ := hrs.readsIf hu
  · exact hcut hnil
  obtain hnil | ⟨p₂, h₂, hrs⟩ := hrs.readsIf hu
  · exact hcut hnil
  obtain hnil | ⟨p₃, h₃, hrs⟩ := hrs.readsIf hu
  · exact hcut hnil
  obtain hnil | ⟨p₄, h₄, hrs⟩ := hrs.readsIf hu
  · exact hcut hnil
  have hsize := h.size
  rw [results_events] at hsize
  rw [unpackGroup, if_neg (by rw [h.ok]; decide), (skipval_of h₀).1, (skipval_of h₀).2, g.size_eq]
  have hp₁ : ReadsIf u true g.flagbits { s with ptr := p₀ }.ptr p₁ := h₁
  obtain ⟨d, hread, hd⟩ := readGroup_of hp₁ h₂ h₃ h₄
  rw [hread]
  exact unpackRelocs_follows hu g.entries rfl hd ⟨h.ok, by rw [h.rela], h.length, hsize, rs, hrs, hall⟩

/-! ### The whole stream -/

theorem loop_keeps (hu : Consumes u) (k : Nat) (h : Room nrelocs all s) :
    (Outcome.loop (unpackGroup u nrelocs) k s).EndsIf False (fun _ => True) (fun out => all <+: out) := by
  induction k generalizing s with
  | zero => exact fun hfalse => hfalse
  | succ k ih => exact (unpackGroup_ends hu h).andThen fun s' hs' => ih hs'.1

theorem loop_follows (hu : Consumes u) (gs : List aps2_group_t) (k : Nat)
    (h : Underway u nrelocs all (groupsEvents r gs) r s) :
    (Outcome.loop (unpackGroup u nrelocs) k s).EndsIf False (fun _ => True) (fun out => all <+: out) := by
  induction gs generalizing r s k with
  | nil => exact loop_keeps hu k (h.elim (fun hroom => hroom) fun htrack => htrack.room)
  | cons g gs ih =>
      obtain hroom | htrack := h
      · exact loop_keeps hu k hroom
      cases k with
      | zero => exact fun hfalse => hfalse
      | succ k => exact (unpackGroup_follows hu g htrack).andThen fun s' hs' => ih k hs'

variable {bytes : List UInt8} {gs : List aps2_group_t}

theorem unpack_spec (hu : Consumes u) {offset : BitVec 64}
    (h : Encodes u (streamEvents offset gs) bytes all) (out : List elf_rela_t) :
    ∃ out', unpack u bytes (relocsOf offset gs).length out = .done out' ∧ all <+: out' := by
  obtain ⟨out', hout⟩ := unpack_returns hu bytes (relocsOf offset gs).length out
  refine ⟨out', hout, ?_⟩
  have hstart : Underway u (relocsOf offset gs).length all (groupsEvents ⟨offset, 0, 0⟩ gs) ⟨offset, 0, 0⟩
      (startUnpacking u bytes (relocsOf offset gs).length out) := by
    have hlength := length_resizeRelas out (relocsOf offset gs).length
    obtain rfl | ⟨rest, hread, hrest⟩ := h.readsIf hu
    · exact Or.inl ⟨hlength, Nat.zero_le _, List.nil_prefix⟩
    refine Or.inr ⟨?_, ?_, hlength, ?_, all, ?_, List.prefix_rfl⟩
    · rw [startUnpacking, hread.read rfl]
    · rw [startUnpacking, hread.read rfl]
    · rw [relocsOf, streamEvents, results_append, results_valueIf]
      exact (Nat.zero_add _).le
    · rw [startUnpacking, hread.read rfl]
      exact hrest
  have hloop := loop_follows hu gs (bytes.length + 1) hstart
  rw [unpack] at hout
  generalize Outcome.loop (unpackGroup u (relocsOf offset gs).length) (bytes.length + 1)
    (startUnpacking u bytes (relocsOf offset gs).length out) = result at hloop hout
  cases result with
  | undefined => cases hout
  | done s => cases hout
  | threw out'' =>
      cases hout
      exact hloop

theorem toNat_add_not (b : Bool) : b.toNat + (!b).toNat = 1 := by
  cases b <;> rfl

theorem groupsEvents_length (hu : Consumes u)
    (h : Encodes u (groupsEvents r gs) bytes all) : all = [] ∨ 4 ≤ bytes.length := by
  induction gs generalizing r bytes with
  | nil => cases h with
    | nil => exact Or.inl rfl
  | cons g gs ih =>
      obtain hnil | ⟨p₀, h₀, h⟩ := h.readsIf hu
      · exact Or.inl hnil
      obtain hnil | ⟨p₁, h₁, h⟩ := h.readsIf hu
      · exact Or.inl hnil
      obtain hnil | ⟨p₂, h₂, h⟩ := h.readsIf hu
      · exact Or.inl hnil
      obtain hnil | ⟨p₃, h₃, h⟩ := h.readsIf hu
      · exact Or.inl hnil
      obtain hnil | ⟨p₄, h₄, h⟩ := h.readsIf hu
      · exact Or.inl hnil
      have hfields := (h₄.length.trans' (Nat.le_add_right ..)).trans (h₃.length.trans' (Nat.le_add_right ..))
      have hlen₀ := h₀.length
      have hlen₁ := h₁.length
      have hlen₂ := h₂.length
      have hlen₃ := h₃.length
      have hlen₄ := h₄.length
      rw [Bool.toNat_true] at hlen₀ hlen₁
      cases hentries : g.entries with
      | nil =>
          rw [hentries] at h
          obtain hnil | hlen := ih h
          · exact Or.inl hnil
          · exact Or.inr (by omega)
      | cons e entries =>
          rw [hentries, aps2_group_t.relocEvents, List.append_assoc, List.append_assoc] at h
          obtain hnil | ⟨p₅, h₅, h⟩ := h.readsIf hu
          · exact Or.inl hnil
          obtain hnil | ⟨p₆, h₆, h⟩ := h.readsIf hu
          · exact Or.inl hnil
          have hlen₅ := h₅.length
          have hlen₆ := h₆.length
          have hdelta := toNat_add_not (grouped_by_offset_delta g.flags)
          have hinfo := toNat_add_not (grouped_by_info g.flags)
          exact Or.inr (by omega)

theorem streamEvents_length (hu : Consumes u) {offset : BitVec 64}
    (h : Encodes u (streamEvents offset gs) bytes all) : all = [] ∨ 5 ≤ bytes.length := by
  obtain hnil | ⟨rest, hread, h⟩ := h.readsIf hu
  · exact Or.inl hnil
  obtain hnil | hlen := groupsEvents_length hu h
  · exact Or.inl hnil
  · have hlength := hread.length
    rw [Bool.toNat_true] at hlength
    exact Or.inr (by omega)

end

section
variable {u : List UInt8 → sleb128_t} {s s' : buffered_rela_t} {rs : List elf_rela_t}

theorem delivers_congr (h : s.next u = s'.next u) : Delivers u s rs ↔ Delivers u s' rs := by
  constructor
  · intro hs
    cases hs with
    | nil hnext => exact .nil (h ▸ hnext)
    | cons hnext hrest => exact .cons (h ▸ hnext) hrest
  · intro hs
    cases hs with
    | nil hnext => exact .nil (h ▸ hnext)
    | cons hnext hrest => exact .cons (h ▸ hnext) hrest

theorem next_serve (h : s.cur < s.end_) : s.next u = s.serve := by
  rw [buffered_rela_t.next, if_neg (BitVec.not_le.2 h)]

theorem next_empty (hend : s.end_ = 0) :
    s.next u = (s.fill u).andThen fun filled => filled.elim (.done none) buffered_rela_t.serve := by
  rw [buffered_rela_t.next, if_pos (hend ▸ BitVec.le_def.2 (Nat.zero_le _)), if_neg (not_not.2 hend)]
  congr 1
  funext filled
  cases filled <;> rfl

theorem next_over (h : s.end_ ≤ s.cur) (hend : s.end_ ≠ 0) : s.next u = .done none := by
  rw [buffered_rela_t.next, if_pos h, if_pos hend]

/-- Once the buffer is filled, its relocations are delivered up to the end. -/
theorem delivers_filled (hend : s.end_ ≠ 0) (hcur : s.cur ≤ s.end_) :
    Delivers u s rs ↔ rs.length = s.end_.toNat - s.cur.toNat ∧ rs <+: s.buffer.drop s.cur.toNat := by
  obtain ⟨left, hleft⟩ : ∃ left, left = s.end_.toNat - s.cur.toNat := ⟨_, rfl⟩
  have hle := BitVec.le_def.1 hcur
  induction left generalizing s rs with
  | zero =>
      have hover : s.next u = .done none := next_over (BitVec.le_def.2 (by omega)) hend
      rw [← hleft, List.length_eq_zero_iff]
      constructor
      · intro h
        cases h with
        | nil => exact ⟨rfl, List.nil_prefix⟩
        | cons hnext => cases hover.symm.trans hnext
      · rintro ⟨rfl, _⟩
        exact .nil hover
  | succ left ih =>
      have hlt : s.cur < s.end_ := BitVec.lt_def.2 (by omega)
      have hserve : s.next u = s.serve := next_serve hlt
      rw [buffered_rela_t.serve] at hserve
      have hsucc : (s.cur + 1).toNat = s.cur.toNat + 1 := by
        have hbound := s.end_.isLt
        rw [BitVec.toNat_add, show (1 : BitVec 32).toNat = 1 from rfl, Nat.mod_eq_of_lt (by omega)]
      cases hget : s.buffer[s.cur.toNat]? with
      | none =>
          rw [hget] at hserve
          rw [List.drop_eq_nil_iff.2 (List.getElem?_eq_none_iff.1 hget), List.prefix_nil]
          constructor
          · intro h
            cases h with
            | nil hnext => cases hserve.symm.trans hnext
            | cons hnext => cases hserve.symm.trans hnext
          · rintro ⟨hlen, rfl⟩
            exact nomatch hlen.trans hleft.symm
      | some x =>
          rw [hget] at hserve
          obtain ⟨hin, rfl⟩ := List.getElem?_eq_some_iff.1 hget
          have hle' : (s.cur + 1).toNat ≤ s.end_.toNat := by
            rw [hsucc]
            omega
          have hrec (l : List elf_rela_t) : Delivers u { s with cur := s.cur + 1 } l ↔
              l.length = s.end_.toNat - (s.cur.toNat + 1) ∧ l <+: s.buffer.drop (s.cur.toNat + 1) := by
            rw [← hsucc]
            refine ih hend (BitVec.le_def.2 hle') ?_ hle'
            dsimp only
            omega
          rw [List.drop_eq_getElem_cons hin, ← hleft]
          constructor
          · intro h
            cases h with
            | nil hnext => cases hserve.symm.trans hnext
            | cons hnext hrest =>
                cases hserve.symm.trans hnext
                obtain ⟨hlen, hpre⟩ := (hrec _).1 hrest
                exact ⟨by rw [List.length_cons]; omega, List.cons_prefix_cons.2 ⟨rfl, hpre⟩⟩
          · rintro ⟨hlen, hpre⟩
            cases rs with
            | nil => cases hlen
            | cons y rs =>
                obtain ⟨rfl, hrest⟩ := List.cons_prefix_cons.1 hpre
                rw [List.length_cons] at hlen
                exact .cons hserve ((hrec rs).2 ⟨by omega, hrest⟩)

end

/-! ### A table of the file -/

variable (li : linput_t)

def tableBytes (offset count : BitVec 64) : List UInt8 :=
  (li.bytes.drop offset.toNat).take count.toNat

/-- The file has a stream of `n` relocations at the place of the table, or the front of one; `rs` are those complete. -/
structure Packed (u : List UInt8 → sleb128_t) (li : linput_t) (offset count n : BitVec 64) (first : BitVec 64)
    (gs : List aps2_group_t) (t body : List UInt8) (rs : List elf_rela_t) : Prop where
  bytes : tableBytes li offset count = PKREL_APS2 ++ (t ++ body)
  code : IsCode u t n
  pos : 0 < n.toInt
  lt : n.toNat < count.toNat
  size : n.toNat = (relocsOf first gs).length
  body : Encodes u (streamEvents first gs) body rs

/-- A read that is too short for the code to go on. -/
def ShortRead (offset count : BitVec 64) : Prop :=
  (tableBytes li offset count).length < count.toNat ∧ (tableBytes li offset count).length ≤ 8

/-- The reader of a table before its first call. -/
def buffered_rela_t.init (offset count : BitVec 64) : buffered_rela_t := ⟨li, offset, count, [], 0, 0⟩

/-- What the calls are for: every unpacking returns, and the relocations that are complete are delivered. -/
def UnpacksTable (u : List UInt8 → sleb128_t) (li : linput_t) (offset count : BitVec 64) (rs : List elf_rela_t) :
    Prop :=
  (∀ bytes nrelocs out, ∃ out', unpack u bytes nrelocs out = .done out') ∧
    Delivers u (buffered_rela_t.init li offset count) rs

section
variable {u : List UInt8 → sleb128_t} {li : linput_t} {offset count n first : BitVec 64} {gs : List aps2_group_t}
  {t body : List UInt8} {rs : List elf_rela_t} {s : buffered_rela_t}

theorem Packed.read (h : Packed u li offset count n first gs t body rs) :
    (li.qlseek offset).2 = true ∧ ((li.qlseek offset).1.qlread count.toNat).2 = tableBytes li offset count := by
  have hlt : offset.toNat < 2 ^ 63 := by
    by_contra hge
    have hnil : li.bytes.drop offset.toNat = [] := by
      apply List.drop_eq_nil_iff.2
      have hsize := li.size_lt
      omega
    have hbytes := h.bytes
    rw [tableBytes, hnil, List.take_nil] at hbytes
    cases hbytes
  rw [linput_t.qlseek, if_pos hlt]
  exact ⟨rfl, rfl⟩

theorem Packed.fill_short (h : Packed u li offset count n first gs t body rs) (hshort : ShortRead li offset count)
    (hli : s.li = li) (hoffset : s.offset = offset) (hcount : s.count = count) : s.fill u = .done none := by
  rw [ShortRead] at hshort
  rw [buffered_rela_t.fill, hli, hoffset, hcount, h.read.1, h.read.2, if_neg (by decide), if_pos hshort]

theorem Packed.fill (hu : Consumes u) (h : Packed u li offset count n first gs t body rs)
    (hshort : ¬ShortRead li offset count) (hli : s.li = li) (hoffset : s.offset = offset) (hcount : s.count = count) :
    ∃ out, rs <+: out ∧ s.fill u = .done (some { s with buffer := out, end_ := n.setWidth 32 }) := by
  obtain ⟨out, hout, hpre⟩ := unpack_spec hu h.body s.buffer
  refine ⟨out, hpre, ?_⟩
  have hread : u ((tableBytes li offset count).drop 4) = ⟨true, n, body⟩ := by
    rw [h.bytes]
    exact h.code.read body
  have hmagic : (tableBytes li offset count).take 4 = PKREL_APS2 := by
    rw [h.bytes]
    rfl
  have hlen : ¬(tableBytes li offset count).length < 4 := by
    rw [h.bytes, List.length_append]
    exact Nat.not_lt.2 (Nat.le_add_right ..)
  have hsane : ¬(n.toInt ≤ 0 ∨ n.toNat ≥ count.toNat) := by
    have hpos := h.pos
    have hlt := h.lt
    omega
  rw [ShortRead] at hshort
  rw [buffered_rela_t.fill, hli, hoffset, hcount, h.read.1, h.read.2, if_neg (by decide), if_neg hshort, if_neg hlen,
    hread, if_neg (by exact Bool.false_ne_true), if_neg hsane, if_neg (not_not.2 hmagic), h.size, hout]
  rfl

theorem Packed.next_fills (hu : Consumes u) (h : Packed u li offset count n first gs t body rs)
    (hshort : ¬ShortRead li offset count) (hli : s.li = li) (hoffset : s.offset = offset) (hcount : s.count = count)
    (hend : s.end_ = 0) :
    ∃ out, rs <+: out ∧ s.next u = { s with buffer := out, end_ := n.setWidth 32 }.serve := by
  obtain ⟨out, hpre, hfill⟩ := h.fill hu hshort hli hoffset hcount
  refine ⟨out, hpre, ?_⟩
  rw [next_empty hend, hfill]
  rfl

theorem Packed.not_delivers (hu : Consumes u) (h : Packed u li offset count n first gs t body rs)
    (hshort : ¬ShortRead li offset count) (hzero : n.setWidth 32 = (0 : BitVec 32)) {l : List elf_rela_t}
    (hd : Delivers u s l) : s.li = li → s.offset = offset → s.count = count → s.end_ ≠ 0 := by
  induction hd with
  | @nil s hnext =>
      intro hli hoffset hcount hend
      obtain ⟨out, _, hserve⟩ := h.next_fills hu hshort hli hoffset hcount hend
      rw [hserve, buffered_rela_t.serve] at hnext
      dsimp only at hnext
      cases hget : out[s.cur.toNat]? with
      | none =>
          rw [hget] at hnext
          cases hnext
      | some r =>
          rw [hget] at hnext
          cases hnext
  | @cons s r s' rs hnext _ ih =>
      intro hli hoffset hcount hend
      obtain ⟨out, _, hserve⟩ := h.next_fills hu hshort hli hoffset hcount hend
      rw [hserve, buffered_rela_t.serve] at hnext
      dsimp only at hnext
      cases hget : out[s.cur.toNat]? with
      | none =>
          rw [hget] at hnext
          cases hnext
      | some r' =>
          rw [hget] at hnext
          cases hnext
          exact ih hli hoffset hcount hzero

theorem Packed.delivers_short (h : Packed u li offset count n first gs t body rs)
    (hshort : ShortRead li offset count) : Delivers u (buffered_rela_t.init li offset count) [] := by
  apply Delivers.nil
  rw [next_empty rfl, h.fill_short hshort rfl rfl rfl]
  rfl

theorem Packed.short_nil (hu : Consumes u) (h : Packed u li offset count n first gs t body rs)
    (hshort : ShortRead li offset count) : rs = [] := by
  obtain hnil | hlen := streamEvents_length hu h.body
  · exact hnil
  have hpos := h.code.pos hu
  have hbytes := hshort.2
  rw [h.bytes, List.length_append, List.length_append] at hbytes
  have hmagic : PKREL_APS2.length = 4 := rfl
  omega

theorem Packed.delivers_iff (hu : Consumes u) (h : Packed u li offset count n first gs t body rs)
    (hshort : ¬ShortRead li offset count) :
    Delivers u (buffered_rela_t.init li offset count) rs ↔
      n.toNat % 2 ^ 32 ≠ 0 ∧ rs.length = n.toNat % 2 ^ 32 := by
  have hend : (n.setWidth 32 : BitVec 32).toNat = n.toNat % 2 ^ 32 := BitVec.toNat_setWidth ..
  by_cases hzero : (n.setWidth 32 : BitVec 32) = 0
  · have hmod : n.toNat % 2 ^ 32 = 0 := hend.symm.trans (congrArg BitVec.toNat hzero)
    exact ⟨fun hd => (h.not_delivers hu hshort hzero hd rfl rfl rfl rfl).elim, fun hne => (hne.1 hmod).elim⟩
  have hmod : n.toNat % 2 ^ 32 ≠ 0 := fun hmod => hzero (BitVec.eq_of_toNat_eq (hend.trans hmod))
  obtain ⟨out, hpre, hserve⟩ := h.next_fills hu hshort rfl rfl rfl
    (show (buffered_rela_t.init li offset count).end_ = 0 from rfl)
  have hcur : (0 : BitVec 32) < n.setWidth 32 := BitVec.lt_def.2 (hend ▸ Nat.pos_of_ne_zero hmod)
  rw [delivers_congr (hserve.trans (next_serve hcur).symm), delivers_filled hzero (BitVec.le_def.2 (Nat.zero_le _))]
  dsimp only
  rw [hend]
  exact ⟨fun hd => ⟨hmod, hd.1⟩, fun hd => ⟨hd.2, hpre⟩⟩

/-- The relocations that are complete are delivered, and no others, just when they are as many as the low half of the
declared count says; a stream that is cut inside its first few bytes has none. -/
theorem unpacksTable_iff (hu : Consumes u) (h : Packed u li offset count n first gs t body rs) :
    UnpacksTable u li offset count rs ↔
      ShortRead li offset count ∨ (n.toNat % 2 ^ 32 ≠ 0 ∧ rs.length = n.toNat % 2 ^ 32) := by
  rw [UnpacksTable, and_iff_right fun bytes nrelocs out => unpack_returns hu bytes nrelocs out]
  by_cases hshort : ShortRead li offset count
  · obtain rfl := h.short_nil hu hshort
    exact ⟨fun _ => Or.inl hshort, fun _ => h.delivers_short hshort⟩
  · rw [h.delivers_iff hu hshort, or_iff_right hshort]

end

/-- The numbers as the library reads them. -/
def sleb128From (shift : Nat) (acc : BitVec 64) : List UInt8 → sleb128_t
  | [] => ⟨false, 0, []⟩
  | b :: bytes =>
    let acc := acc ||| (((b &&& 0x7F).toBitVec.setWidth 64) <<< shift)
    if b &&& 0x80 ≠ 0 then sleb128From (shift + 7) acc bytes
    else ⟨true, if b &&& 0x40 ≠ 0 then acc ||| (BitVec.allOnes 64 <<< (shift + 7)) else acc, bytes⟩

def sleb128 : List UInt8 → sleb128_t := sleb128From 0 0

theorem sleb128From_consumes (shift : Nat) (acc : BitVec 64) : Consumes (sleb128From shift acc) := by
  intro bytes
  induction bytes generalizing shift acc with
  | nil => exact fun hok => nomatch hok
  | cons b bytes ih =>
      intro hok
      rw [sleb128From] at hok ⊢
      split_ifs at hok ⊢
      · exact (ih _ _ hok).trans (Nat.lt_succ_self _)
      · exact Nat.lt_succ_self _
      · exact Nat.lt_succ_self _

theorem sleb128_isCode {b : UInt8} {v : BitVec 64} (h : ∀ rest, sleb128 (b :: rest) = ⟨true, v, rest⟩) :
    IsCode sleb128 [b] v := by
  refine ⟨h, fun p hp hne => ?_⟩
  cases p with
  | nil => rfl
  | cons c p =>
      obtain ⟨rfl, hnil⟩ := List.cons_prefix_cons.1 hp
      exact (hne (congrArg (c :: ·) (List.prefix_nil.1 hnil))).elim

def twoRelocs : aps2_group_t := ⟨2, 0, 0, 0, 0, [⟨8, 23, 0⟩, ⟨4, 23, 0⟩], rfl⟩

theorem encodes_first {bytes : List UInt8} {rs : List elf_rela_t}
    (h : Encodes sleb128 (twoRelocs.relocEvents ⟨8, 23, 0⟩ [⟨4, 23, 0⟩] ++ []) bytes rs) :
    Encodes sleb128 (streamEvents 0 [twoRelocs]) (0 :: 2 :: 0 :: 8 :: 23 :: bytes) (⟨8, 23, 0⟩ :: rs) :=
  have hcode {b : UInt8} {v : BitVec 64} (h : ∀ rest, sleb128 (b :: rest) = ⟨true, v, rest⟩) := sleb128_isCode h
  .value (hcode fun _ => rfl) (.value (hcode fun _ => rfl) (.value (hcode fun _ => rfl) (.value (hcode fun _ => rfl)
    (.value (hcode fun _ => rfl) (.result h)))))

def wholeFile : linput_t := ⟨[0x41, 0x50, 0x53, 0x32, 2, 0, 2, 0, 8, 23, 4, 23], 0, by decide⟩

/-- A file that ends behind the first relocation. -/
def cutFile : linput_t := ⟨[0x41, 0x50, 0x53, 0x32, 2, 0, 2, 0, 8, 23], 0, by decide⟩

theorem wholeFile_packed : Packed sleb128 wholeFile 0 12 2 0 [twoRelocs] [2] [0, 2, 0, 8, 23, 4, 23]
    [⟨8, 23, 0⟩, ⟨12, 23, 0⟩] where
  bytes := rfl
  code := sleb128_isCode fun _ => rfl
  pos := by decide
  lt := by decide
  size := rfl
  body := encodes_first (.value (sleb128_isCode (b := 4) fun _ => rfl)
    (.value (sleb128_isCode (b := 23) fun _ => rfl) (.result .nil)))

theorem cutFile_packed : Packed sleb128 cutFile 0 12 2 0 [twoRelocs] [2] [0, 2, 0, 8, 23] [⟨8, 23, 0⟩] where
  bytes := rfl
  code := sleb128_isCode fun _ => rfl
  pos := by decide
  lt := by decide
  size := rfl
  body := encodes_first (.cut (sleb128_isCode (b := 4) fun _ => rfl) List.nil_prefix nofun)

theorem unpacksTable_whole : UnpacksTable sleb128 wholeFile 0 12 [⟨8, 23, 0⟩, ⟨12, 23, 0⟩] :=
  (unpacksTable_iff (sleb128From_consumes 0 0) wholeFile_packed).2 (Or.inr ⟨by decide, rfl⟩)

/-- Of a table that is cut behind its first relocation not just that relocation is delivered. -/
theorem not_unpacksTable_cut : Packed sleb128 cutFile 0 12 2 0 [twoRelocs] [2] [0, 2, 0, 8, 23] [⟨8, 23, 0⟩] ∧
    ¬UnpacksTable sleb128 cutFile 0 12 [⟨8, 23, 0⟩] := by
  refine ⟨cutFile_packed, fun h => ?_⟩
  have hshort : ¬ShortRead cutFile 0 12 := fun hshort => absurd hshort.2 (by decide)
  exact absurd ((cutFile_packed.delivers_iff (sleb128From_consumes 0 0) hshort).1 h.2).2 (by decide)

end IdaSdk.Elf
