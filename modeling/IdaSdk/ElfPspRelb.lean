import IdaSdk.ElfModel
import IdaSdk.LibOutcome

/-!
Packed relocations of PSP modules: a stream of commands of 16 bits with two lookup tables in front. A read outside the
table, or outside the list of segments, is undefined.
-/

namespace IdaSdk.Elf
open Words Outcomes

inductive psp_relb_type_t where
  | PSPRELB_NONE
  | PSPRELB_WORD32
  | PSPRELB_LO16
  | PSPRELB_HI16
  | PSPRELB_MIPS26
  | PSPRELB_J26
  | PSPRELB_JAL26
deriving DecidableEq

open psp_relb_type_t

def psp_relb_types_std : List psp_relb_type_t :=
  [PSPRELB_NONE, PSPRELB_LO16, PSPRELB_WORD32, PSPRELB_MIPS26, PSPRELB_HI16, PSPRELB_LO16, PSPRELB_J26, PSPRELB_JAL26]

def psp_relb_types_reboot : List psp_relb_type_t :=
  [PSPRELB_NONE, PSPRELB_MIPS26, PSPRELB_J26, PSPRELB_JAL26, PSPRELB_LO16, PSPRELB_WORD32, PSPRELB_HI16, PSPRELB_LO16]

def PSPRELB_HI16_CODE_STD : Nat := 4

def PSPRELB_HI16_CODE_REBOOT : Nat := 6

structure psp_relb_t where
  offset : BitVec 32
  addend : BitVec 32
  type : psp_relb_type_t
  code : Nat
  offbase : Nat
  addrbase : Nat
deriving DecidableEq

/-! ### The command stream -/

def fetch {ε α : Type} (xs : List α) (i : Nat) : Outcome ε α :=
  match xs[i]? with
  | none => .undefined
  | some x => .done x

def psp_relb_le16 {ε : Type} (table : List UInt8) (pos : Nat) : Outcome ε Nat :=
  (fetch table pos).andThen fun a => (fetch table (pos + 1)).andThen fun b => .done (a.toNat ||| (b.toNat <<< 8))

def psp_relb_le32 {ε : Type} (table : List UInt8) (pos : Nat) : Outcome ε Nat :=
  (psp_relb_le16 table pos).andThen fun a => (psp_relb_le16 table (pos + 2)).andThen fun b => .done (a ||| (b <<< 16))

/-- What the stream is decoded with: the table itself, the fields of its header and the segments. -/
structure psp_stream_t where
  table : List UInt8
  segs : List elf_phdr_t
  part1s : Nat
  part2s : Nat
  block1size : Nat
  block2 : Nat
  block2size : Nat
  types : List psp_relb_type_t
  hi16code : Nat

namespace psp_stream_t
variable (t : psp_stream_t)

def total : Nat := t.table.length

def nseg : Nat := t.segs.length % 2 ^ 32

def nbits : Nat := if t.nseg < 3 then 1 else 2

def segmask : Nat := (1 <<< t.nbits) - 1

end psp_stream_t

/-- The variables of the loop. The last field is not in the source: it tells for each relocation whether it asked for the
addend before it. -/
structure psp_state_t where
  pos : Nat
  offset : BitVec 32
  offbase : Nat
  addend : BitVec 32
  lastcode : Nat
  out : List psp_relb_t
  reuses : List Bool

/-- The end of the loop: an error, or a stream that is over or cut short. -/
structure psp_exit_t where
  ok : Bool
  state : psp_state_t

abbrev PspCall := Outcome psp_exit_t psp_state_t

section
variable (t : psp_stream_t)

/-- A command that sets the offset base. -/
def offsetBase (cmd flags : Nat) (s : psp_state_t) : PspCall :=
  let offbase := (cmd >>> t.part1s) &&& t.segmask
  if offbase ≥ t.nseg then .threw ⟨false, s⟩
  else if flags &&& 6 = 0 then
    .done { s with offbase := offbase, offset := BitVec.ofNat 32 (cmd >>> (t.part1s + t.nbits)) }
  else if flags &&& 6 = 4 then
    if s.pos + 4 > t.total then .threw ⟨true, s⟩
    else (psp_relb_le32 t.table s.pos).andThen fun w =>
      .done { s with offbase := offbase, offset := BitVec.ofNat 32 w, pos := s.pos + 4 }
  else .threw ⟨false, s⟩

/-- The bits of the command above its fields, as a signed number. -/
def cmdDelta (cmd shift : Nat) : BitVec 32 := ((BitVec.ofNat 16 cmd).signExtend 32).sshiftRight shift

def readOffset (cmd flags : Nat) (s : psp_state_t) : PspCall :=
  let shift := t.part1s + t.nbits + t.part2s
  if flags &&& 6 = 0 then .done { s with offset := s.offset + cmdDelta cmd shift }
  else if flags &&& 6 = 2 then
    if s.pos + 2 > t.total then .threw ⟨true, s⟩
    else (psp_relb_le16 t.table s.pos).andThen fun w =>
      .done { s with offset := s.offset + ((cmdDelta cmd shift <<< 16) ||| BitVec.ofNat 32 w), pos := s.pos + 2 }
  else if flags &&& 6 = 4 then
    if s.pos + 4 > t.total then .threw ⟨true, s⟩
    else (psp_relb_le32 t.table s.pos).andThen fun w => .done { s with offset := BitVec.ofNat 32 w, pos := s.pos + 4 }
  else .threw ⟨false, s⟩

/-- The offset has to be in the file image of the segment. -/
def checkOffset (s : psp_state_t) : PspCall :=
  (fetch t.segs s.offbase).andThen fun seg =>
    if s.offset.setWidth 64 ≥ seg.p_filesz then .threw ⟨false, s⟩ else .done s

def readAddend (aflags : Nat) (s : psp_state_t) : PspCall :=
  if aflags = 0x00 then .done { s with addend := 0 }
  else if aflags = 0x08 then .done { s with addend := if s.lastcode ≠ t.hi16code then 0 else s.addend }
  else if aflags = 0x10 then
    if s.pos + 2 > t.total then .threw ⟨true, s⟩
    else (psp_relb_le16 t.table s.pos).andThen fun w =>
      .done { s with addend := (BitVec.ofNat 16 w).signExtend 32, pos := s.pos + 2 }
  else .done s

def pushReloc (type aflags addrbase : Nat) (s : psp_state_t) : PspCall :=
  (fetch t.types type).andThen fun ty =>
    .done { s with
      lastcode := type
      out := s.out ++ [⟨s.offset, s.addend, ty, type, s.offbase % 2 ^ 8, addrbase % 2 ^ 8⟩]
      reuses := s.reuses ++ [decide (aflags = 0x08)] }

/-- A relocation entry. -/
def relocation (cmd flags : Nat) (s : psp_state_t) : PspCall :=
  let i2 := (cmd >>> (t.part1s + t.nbits)) &&& ((1 <<< t.part2s) - 1)
  if i2 ≥ t.block2size then .threw ⟨false, s⟩
  else (fetch t.table (t.block2 + i2)).andThen fun type =>
    let addrbase := (cmd >>> t.part1s) &&& t.segmask
    let aflags := flags &&& 0x38
    if type.toNat > 7 ∨ addrbase ≥ t.nseg ∨ aflags ≥ 0x18 then .threw ⟨false, s⟩
    else (readOffset t cmd flags s).andThen fun s => (checkOffset t s).andThen fun s =>
      (readAddend t aflags s).andThen fun s => pushReloc t type.toNat aflags addrbase s

/-- One round of the loop. -/
def pspCommand (s : psp_state_t) : PspCall :=
  if ¬s.pos < t.total then .threw ⟨true, s⟩
  else if s.pos + 2 > t.total then .threw ⟨true, s⟩
  else (psp_relb_le16 t.table s.pos).andThen fun cmd =>
    let s := { s with pos := s.pos + 2 }
    let i1 := cmd &&& ((1 <<< t.part1s) - 1)
    if i1 ≥ t.block1size then .threw ⟨false, s⟩
    else (fetch t.table (4 + i1)).andThen fun flags =>
      if flags.toNat &&& 1 = 0 then offsetBase t cmd flags.toNat s else relocation t cmd flags.toNat s

end

/-- The result of a decoding: whether the table is good, whether it is cut short, the relocations, and which of them asked
for the addend before. -/
structure psp_result_t where
  ok : Bool
  truncated : Bool
  out : List psp_relb_t
  reuses : List Bool

/-- The header of an already validated table. -/
def psp_stream (table : List UInt8) (segs : List elf_phdr_t) (reboot : Bool) : Outcome Unit psp_stream_t :=
  (fetch table 2).andThen fun part1s => (fetch table 3).andThen fun part2s => (fetch table 4).andThen fun block1size =>
    (fetch table (4 + block1size.toNat)).andThen fun block2size =>
      .done ⟨table, segs, part1s.toNat, part2s.toNat, block1size.toNat, 4 + block1size.toNat, block2size.toNat,
        if reboot then psp_relb_types_reboot else psp_relb_types_std,
        if reboot then PSPRELB_HI16_CODE_REBOOT else PSPRELB_HI16_CODE_STD⟩

/-- Every round takes at least two bytes, so that there are no more rounds than bytes. -/
def decode_psp_relb_stream (table : List UInt8) (segs : List elf_phdr_t) (reboot : Bool) : Outcome Unit psp_result_t :=
  (psp_stream table segs reboot).andThen fun t =>
    match Outcome.loop (pspCommand t) (table.length + 1) ⟨t.block2 + t.block2size, 0, 0, 0, t.block2size, [], []⟩ with
    | .threw e => .done ⟨e.ok, e.ok && e.state.pos < table.length, e.state.out, e.state.reuses⟩
    | _ => .undefined

def psp_relb_required_op (type : psp_relb_type_t) : Option Nat :=
  match type with
  | PSPRELB_HI16 => some 0x0F
  | PSPRELB_J26 => some 0x02
  | PSPRELB_JAL26 => some 0x03
  | _ => none

/-- The score of an opcode where one is required. -/
def scored (required : Option Nat) (op : Nat) (score : Int) : Int :=
  match required with
  | none => score
  | some r => if op = r then score + 1 else score - 1

def sampleRelocs (reader : reader_t) (li : linput_t) (segs : List elf_phdr_t) :
    List psp_relb_t → Int → Int → Nat → Outcome Unit Bool
  | [], std_score, rbt_score, _ => .done (rbt_score > std_score)
  | r :: relocs, std_score, rbt_score, nsampled =>
    (fetch psp_relb_types_std r.code).andThen fun std => (fetch psp_relb_types_reboot r.code).andThen fun rbt =>
      if psp_relb_required_op std = none ∧ psp_relb_required_op rbt = none then
        sampleRelocs reader li segs relocs std_score rbt_score nsampled
      else (fetch segs r.offbase).andThen fun seg =>
        let sought := li.qlseek (seg.p_offset + r.offset.setWidth 64)
        match (if sought.2 then reader.safe_read sought.1 4 else none) with
        | none => .done (rbt_score > std_score)
        | some (w, li) =>
          let op := w >>> 26
          let std_score := scored (psp_relb_required_op std) op std_score
          let rbt_score := scored (psp_relb_required_op rbt) op rbt_score
          if nsampled = 1024 then .done (rbt_score > std_score)
          else sampleRelocs reader li segs relocs std_score rbt_score (nsampled + 1)

def psp_relb_uses_reboot_mapping (reader : reader_t) (li : linput_t) (segs : List elf_phdr_t) (relocs : List psp_relb_t) :
    Outcome Unit Bool := sampleRelocs reader li segs relocs 0 0 0

/-- The checks of the header. -/
def psp_header_ok (table : List UInt8) : Outcome Unit Bool :=
  (fetch table 2).andThen fun part1s => (fetch table 3).andThen fun part2s => (fetch table 4).andThen fun block1size =>
    (psp_relb_le16 table 0).andThen fun magic =>
      let block2 := 4 + block1size.toNat
      if magic = 0 ∧ 1 ≤ part1s.toNat ∧ part1s.toNat ≤ 8 ∧ 1 ≤ part2s.toNat ∧ part2s.toNat ≤ 8 ∧ 1 ≤ block1size.toNat ∧
          block2 < table.length then
        (fetch table block2).andThen fun size => .done (1 ≤ size.toNat ∧ block2 + size.toNat ≤ table.length)
      else .done false

/-- The result of the call, the relocations and the mapping. -/
structure psp_decoded_t where
  ok : Bool
  out : List psp_relb_t
  reboot : Bool

def decode_psp_relb (reader : reader_t) (li : linput_t) (rel_phdr : elf_phdr_t) (segs : List elf_phdr_t) :
    Outcome Unit psp_decoded_t :=
  let total := rel_phdr.p_filesz.toNat
  let ok := segs.length % 2 ^ 32 ≠ 0 ∧ total ≥ 6 ∧ rel_phdr.p_offset.toNat < li.bytes.length ∧
    total ≤ li.bytes.length - rel_phdr.p_offset.toNat
  if ¬ok then .done ⟨false, [], false⟩
  else
    let sought := li.qlseek rel_phdr.p_offset
    if ¬sought.2 then .done ⟨false, [], false⟩
    else
      let table := (sought.1.qlread total).2
      if table.length ≠ total then .done ⟨false, [], false⟩
      else (psp_header_ok table).andThen fun ok =>
        if ¬ok then .done ⟨false, [], false⟩
        else (decode_psp_relb_stream table segs false).andThen fun first =>
          if ¬first.ok then .done ⟨false, first.out, false⟩
          else (psp_relb_uses_reboot_mapping reader li segs first.out).andThen fun reboot =>
            if reboot then (decode_psp_relb_stream table segs true).andThen fun second => .done ⟨true, second.out, true⟩
            else .done ⟨true, first.out, false⟩

/-! ### No access outside -/

/-- A relocation that a user may apply without looking at the bounds again. -/
structure RelocInside (segs : List elf_phdr_t) (r : psp_relb_t) : Prop where
  code : r.code ≤ 7
  offbase : r.offbase < segs.length
  addrbase : r.addrbase < segs.length
  offset : ∃ seg, segs[r.offbase]? = some seg ∧ r.offset.toNat < seg.p_filesz.toNat

/-- What the checks of the header leave. -/
structure psp_stream_t.Valid (t : psp_stream_t) : Prop where
  block2 : t.block2 = 4 + t.block1size
  blocks : t.block2 + t.block2size ≤ t.total
  types : t.types.length = 8

section
variable {ε α : Type} {t : psp_stream_t} {s : psp_state_t}

variable {Q : ε → Prop}

theorem fetch_ends {xs : List α} {i : Nat} (h : i < xs.length) :
    (fetch xs i : Outcome ε α).Ends (fun x => xs[i]? = some x) Q := by
  rw [fetch, List.getElem?_eq_getElem h]
  exact rfl

variable {pos : Nat}

theorem le16_ends {table : List UInt8} (h : pos + 2 ≤ table.length) :
    (psp_relb_le16 table pos : Outcome ε Nat).Ends (fun _ => True) Q :=
  (fetch_ends (by omega)).andThen fun _ _ => (fetch_ends (by omega)).andThen fun _ _ => trivial

theorem le32_ends {table : List UInt8} (h : pos + 4 ≤ table.length) :
    (psp_relb_le32 table pos : Outcome ε Nat).Ends (fun _ => True) Q :=
  (le16_ends (by omega)).andThen fun _ _ => (le16_ends (by omega)).andThen fun _ _ => trivial

/-- A segment index is below the number of segments, and fits a byte. -/
def IsSegment (t : psp_stream_t) (base : Nat) : Prop := base < t.nseg ∧ base ≤ 3

theorem and_segmask_le (t : psp_stream_t) (x : Nat) : x &&& t.segmask ≤ 3 := by
  apply Nat.le_trans Nat.and_le_right
  rw [psp_stream_t.segmask, psp_stream_t.nbits]
  split_ifs <;> decide

theorem IsSegment.lt {base : Nat} (h : IsSegment t base) : base < t.segs.length :=
  Nat.lt_of_lt_of_le h.1 (Nat.mod_le _ _)

/-- The invariant of the loop, from a position on. -/
structure PspInv (t : psp_stream_t) (pos : Nat) (s : psp_state_t) : Prop where
  pos : pos ≤ s.pos
  offbase : IsSegment t s.offbase
  out : ∀ r ∈ s.out, RelocInside t.segs r

/-- The offset is in the file image of its segment. -/
def InImage (t : psp_stream_t) (s : psp_state_t) : Prop :=
  ∃ seg, t.segs[s.offbase]? = some seg ∧ s.offset.toNat < seg.p_filesz.toNat

def ExitInside (t : psp_stream_t) (e : psp_exit_t) : Prop := ∀ r ∈ e.state.out, RelocInside t.segs r

variable (cmd flags : Nat)

theorem offsetBase_ends (h : PspInv t pos s) :
    (offsetBase t cmd flags s).Ends (PspInv t pos) (ExitInside t) := by
  rw [offsetBase]
  have hmask := and_segmask_le t (cmd >>> t.part1s)
  generalize (cmd >>> t.part1s) &&& t.segmask = offbase at hmask ⊢
  split_ifs with hbase hflags hflags' hshort
  · exact h.out
  · exact ⟨h.pos, ⟨Nat.lt_of_not_le hbase, hmask⟩, h.out⟩
  · exact h.out
  · exact (le32_ends (Nat.le_of_not_lt hshort)).andThen fun w _ =>
      ⟨Nat.le_add_right_of_le h.pos, ⟨Nat.lt_of_not_le hbase, hmask⟩, h.out⟩
  · exact h.out

theorem readOffset_ends (h : PspInv t pos s) :
    (readOffset t cmd flags s).Ends (PspInv t pos) (ExitInside t) := by
  rw [readOffset]
  split_ifs with hflags hflags' hshort hflags'' hshort'
  · exact ⟨h.pos, h.offbase, h.out⟩
  · exact h.out
  · exact (le16_ends (Nat.le_of_not_lt hshort)).andThen fun w _ =>
      ⟨Nat.le_add_right_of_le h.pos, h.offbase, h.out⟩
  · exact h.out
  · exact (le32_ends (Nat.le_of_not_lt hshort')).andThen fun w _ =>
      ⟨Nat.le_add_right_of_le h.pos, h.offbase, h.out⟩
  · exact h.out

theorem checkOffset_ends (h : PspInv t pos s) :
    (checkOffset t s).Ends (fun b => PspInv t pos b ∧ InImage t b) (ExitInside t) := by
  refine (fetch_ends h.offbase.lt).andThen fun seg hseg => ?_
  split_ifs with hoffset
  · exact h.out
  refine ⟨h, seg, hseg, ?_⟩
  have hlt := BitVec.lt_def.1 (BitVec.not_le.1 hoffset)
  have hs := s.offset.isLt
  rw [BitVec.toNat_setWidth] at hlt
  omega

theorem readAddend_ends (aflags : Nat) (h : PspInv t pos s) (himage : InImage t s) :
    (readAddend t aflags s).Ends (fun b => PspInv t pos b ∧ InImage t b) (ExitInside t) := by
  rw [readAddend]
  by_cases hreuse : aflags = 0x08
  · rw [hreuse]
    exact ⟨⟨h.pos, h.offbase, h.out⟩, himage⟩
  rw [if_neg hreuse]
  split_ifs with hzero hword hshort
  · exact ⟨⟨h.pos, h.offbase, h.out⟩, himage⟩
  · exact h.out
  · exact (le16_ends (Nat.le_of_not_lt hshort)).andThen fun w _ =>
      ⟨⟨Nat.le_add_right_of_le h.pos, h.offbase, h.out⟩, himage⟩
  · exact ⟨h, himage⟩

theorem pushReloc_ends {type aflags addrbase : Nat} (ht : t.Valid) (htype : type ≤ 7) (hbase : IsSegment t addrbase)
    (h : PspInv t pos s) (himage : InImage t s) :
    (pushReloc t type aflags addrbase s).Ends (PspInv t pos) (ExitInside t) := by
  have hlen := ht.types
  refine (fetch_ends (by omega)).andThen fun ty _ => ⟨h.pos, h.offbase, fun r hr => ?_⟩
  obtain hold | hnew := List.mem_append.1 hr
  · exact h.out r hold
  rw [List.mem_singleton.1 hnew]
  have hmod : s.offbase % 2 ^ 8 = s.offbase := Nat.mod_eq_of_lt (by have := h.offbase.2; omega)
  have hmod' : addrbase % 2 ^ 8 = addrbase := Nat.mod_eq_of_lt (by have := hbase.2; omega)
  refine ⟨htype, ?_, ?_, ?_⟩
  · rw [hmod]
    exact h.offbase.lt
  · rw [hmod']
    exact hbase.lt
  · rw [hmod]
    exact himage

theorem relocation_ends (ht : t.Valid) (h : PspInv t pos s) :
    (relocation t cmd flags s).Ends (PspInv t pos) (ExitInside t) := by
  have hblocks := ht.blocks
  rw [relocation]
  have hmask := and_segmask_le t (cmd >>> t.part1s)
  generalize (cmd >>> t.part1s) &&& t.segmask = addrbase at hmask ⊢
  dsimp only
  split_ifs with hindex
  · exact h.out
  refine (fetch_ends (by rw [psp_stream_t.total] at hblocks; omega)).andThen fun type _ => ?_
  split_ifs with hbad
  · exact h.out
  · rw [not_or, not_or] at hbad
    refine (readOffset_ends cmd flags h).andThen fun s₁ h₁ => (checkOffset_ends h₁).andThen fun s₂ h₂ =>
      (readAddend_ends _ h₂.1 h₂.2).andThen fun s₃ h₃ => ?_
    exact pushReloc_ends ht (Nat.le_of_not_lt hbad.1) ⟨Nat.lt_of_not_le hbad.2.1, hmask⟩ h₃.1 h₃.2

theorem pspCommand_ends (ht : t.Valid) (h : PspInv t 0 s) :
    (pspCommand t s).Ends (fun b => PspInv t 0 b ∧ t.total - b.pos < t.total - s.pos) (ExitInside t) := by
  have hblocks := ht.blocks
  have hblock2 := ht.block2
  have hlater : ∀ b, PspInv t (s.pos + 2) b → s.pos < t.total →
      PspInv t 0 b ∧ t.total - b.pos < t.total - s.pos := by
    intro b hb hlt
    have hpos := hb.pos
    exact ⟨⟨Nat.zero_le _, hb.offbase, hb.out⟩, by omega⟩
  rw [pspCommand]
  split_ifs with hend hshort
  · exact h.out
  · refine (le16_ends (Nat.le_of_not_lt hshort)).andThen fun cmd _ => ?_
    have hnext : PspInv t (s.pos + 2) { s with pos := s.pos + 2 } := ⟨Nat.le_refl _, h.offbase, h.out⟩
    dsimp only
    split_ifs with hindex
    · exact h.out
    · refine (fetch_ends (by rw [psp_stream_t.total] at hblocks; omega)).andThen fun flags _ => ?_
      split_ifs
      · exact (offsetBase_ends cmd flags.toNat hnext).imp (fun b hb => hlater b hb hend) fun e he => he
      · exact (relocation_ends cmd flags.toNat ht hnext).imp (fun b hb => hlater b hb hend) fun e he => he
  · exact h.out

end

/-! ### Two runs -/

/-- The relocations of two runs: the same but for the type, and for the addend where the one before is reused. -/
structure SameReloc (reuse : Bool) (r r' : psp_relb_t) : Prop where
  offset : r'.offset = r.offset
  code : r'.code = r.code
  offbase : r'.offbase = r.offbase
  addrbase : r'.addrbase = r.addrbase
  addend : reuse = false → r'.addend = r.addend

inductive SameRelocs : List psp_relb_t → List psp_relb_t → List Bool → Prop
  | nil : SameRelocs [] [] []
  | cons {r r' reuse out out' reuses} : SameReloc reuse r r' → SameRelocs out out' reuses →
      SameRelocs (r :: out) (r' :: out') (reuse :: reuses)

theorem SameRelocs.snoc {r r' : psp_relb_t} {reuse : Bool} {out out' : List psp_relb_t} {reuses : List Bool}
    (h : SameRelocs out out' reuses) (hr : SameReloc reuse r r') :
    SameRelocs (out ++ [r]) (out' ++ [r']) (reuses ++ [reuse]) := by
  induction h with
  | nil => exact .cons hr .nil
  | cons h _ ih => exact .cons h ih

/-- The states of the two runs differ in the addend only, beside what they have put out. -/
inductive Parallel : psp_state_t → psp_state_t → Prop
  | mk (s : psp_state_t) (addend' : BitVec 32) (out' : List psp_relb_t) :
      SameRelocs s.out out' s.reuses → Parallel s { s with addend := addend', out := out' }

def ParallelExit (e e' : psp_exit_t) : Prop := e.ok = e'.ok ∧ Parallel e.state e'.state

section
variable {ε ε' α : Type} {E : ε → ε' → Prop}

theorem fetch_alike (xs : List α) (i : Nat) :
    (fetch xs i : Outcome ε α).Alike (fetch xs i : Outcome ε' α) Eq E := by
  rw [fetch, fetch]
  cases xs[i]? with
  | none => exact trivial
  | some x => exact rfl

theorem le16_alike (table : List UInt8) (pos : Nat) :
    (psp_relb_le16 table pos : Outcome ε Nat).Alike (psp_relb_le16 table pos : Outcome ε' Nat) Eq E := by
  refine (fetch_alike table pos).andThen fun a a' ha => (fetch_alike table (pos + 1)).andThen fun b b' hb => ?_
  rw [ha, hb]
  exact rfl

theorem le32_alike (table : List UInt8) (pos : Nat) :
    (psp_relb_le32 table pos : Outcome ε Nat).Alike (psp_relb_le32 table pos : Outcome ε' Nat) Eq E := by
  refine (le16_alike table pos).andThen fun a a' ha => (le16_alike table (pos + 2)).andThen fun b b' hb => ?_
  rw [ha, hb]
  exact rfl

end

section
variable {t : psp_stream_t} {types' : List psp_relb_type_t} {hi16code' : Nat} {s s' : psp_state_t}

def psp_stream_t.mapped (t : psp_stream_t) (types' : List psp_relb_type_t) (hi16code' : Nat) : psp_stream_t :=
  { t with types := types', hi16code := hi16code' }

variable (cmd flags : Nat)

theorem offsetBase_alike (h : Parallel s s') :
    (offsetBase t cmd flags s).Alike (offsetBase (t.mapped types' hi16code') cmd flags s') Parallel ParallelExit := by
  cases h with
  | mk addend' out' h =>
      have hstop : ∀ ok, ParallelExit ⟨ok, s⟩ ⟨ok, { s with addend := addend', out := out' }⟩ :=
        fun ok => ⟨rfl, .mk s addend' out' h⟩
      refine .ite (fun _ => hstop false) fun _ => .ite (fun _ => .mk _ addend' out' h) fun _ =>
        .ite (fun _ => .ite (fun _ => hstop true) fun _ => ?_) fun _ => hstop false
      refine (le32_alike t.table s.pos).andThen fun w w' hw => ?_
      rw [hw]
      exact .mk _ addend' out' h

theorem readOffset_alike (h : Parallel s s') :
    (readOffset t cmd flags s).Alike (readOffset (t.mapped types' hi16code') cmd flags s') Parallel ParallelExit := by
  cases h with
  | mk addend' out' h =>
      have hstop : ∀ ok, ParallelExit ⟨ok, s⟩ ⟨ok, { s with addend := addend', out := out' }⟩ :=
        fun ok => ⟨rfl, .mk s addend' out' h⟩
      refine .ite (fun _ => .mk _ addend' out' h) fun _ => .ite (fun _ => .ite (fun _ => hstop true) fun _ => ?_) fun _ =>
        .ite (fun _ => .ite (fun _ => hstop true) fun _ => ?_) fun _ => hstop false
      · refine (le16_alike t.table s.pos).andThen fun w w' hw => ?_
        rw [hw]
        exact .mk _ addend' out' h
      · refine (le32_alike t.table s.pos).andThen fun w w' hw => ?_
        rw [hw]
        exact .mk _ addend' out' h

theorem checkOffset_alike (h : Parallel s s') :
    (checkOffset t s).Alike (checkOffset (t.mapped types' hi16code') s') Parallel ParallelExit := by
  cases h with
  | mk addend' out' h =>
      refine (fetch_alike t.segs s.offbase).andThen fun seg seg' hseg => ?_
      rw [← hseg]
      exact .ite (fun _ => ⟨rfl, .mk s addend' out' h⟩) fun _ => .mk s addend' out' h

/-- The addends differ only if the one before is reused. -/
def ParallelAddend (aflags : Nat) (s s' : psp_state_t) : Prop :=
  Parallel s s' ∧ (aflags ≠ 0x08 → s'.addend = s.addend)

theorem readAddend_alike {aflags : Nat} (haflags : aflags = 0x00 ∨ aflags = 0x08 ∨ aflags = 0x10) (h : Parallel s s') :
    (readAddend t aflags s).Alike (readAddend (t.mapped types' hi16code') aflags s')
      (ParallelAddend aflags) ParallelExit := by
  cases h with
  | mk addend' out' h =>
      obtain rfl | rfl | rfl := haflags
      · exact ⟨.mk { s with addend := 0 } 0 out' h, fun _ => rfl⟩
      · refine ⟨?_, fun hne => absurd rfl hne⟩
        exact .mk { s with addend := if s.lastcode ≠ t.hi16code then 0 else s.addend } _ out' h
      refine .ite (fun hne => absurd hne (by decide)) fun _ => .ite (fun hne => absurd hne (by decide)) fun _ =>
        .ite (fun _ => .ite (fun _ => ⟨rfl, .mk s addend' out' h⟩) fun _ => ?_) fun hne => absurd rfl hne
      refine (le16_alike t.table s.pos).andThen fun w w' hw => ?_
      rw [hw]
      exact ⟨.mk { s with addend := (BitVec.ofNat 16 w').signExtend 32, pos := s.pos + 2 } _ out' h, fun _ => rfl⟩

theorem pushReloc_alike {type aflags addrbase : Nat} (htype : type ≤ 7) (hlen : t.types.length = 8)
    (hlen' : types'.length = 8) (h : ParallelAddend aflags s s') :
    (pushReloc t type aflags addrbase s).Alike (pushReloc (t.mapped types' hi16code') type aflags addrbase s')
      Parallel ParallelExit := by
  obtain ⟨h, haddend⟩ := h
  cases h with
  | mk addend' out' h =>
      have hfetch : ∀ types : List psp_relb_type_t, types.length = 8 → ∃ ty, types[type]? = some ty :=
        fun types htypes => ⟨_, List.getElem?_eq_getElem (by omega)⟩
      obtain ⟨ty, hty⟩ := hfetch t.types hlen
      obtain ⟨ty', hty'⟩ := hfetch types' hlen'
      rw [pushReloc, pushReloc, fetch, fetch, hty, show (t.mapped types' hi16code').types[type]? = some ty' from hty']
      have hsame : SameReloc (decide (aflags = 0x08))
          ⟨s.offset, s.addend, ty, type, s.offbase % 2 ^ 8, addrbase % 2 ^ 8⟩
          ⟨s.offset, addend', ty', type, s.offbase % 2 ^ 8, addrbase % 2 ^ 8⟩ :=
        ⟨rfl, rfl, rfl, rfl, fun hne => haddend (of_decide_eq_false hne)⟩
      exact .mk { s with
        lastcode := type
        out := s.out ++ [⟨s.offset, s.addend, ty, type, s.offbase % 2 ^ 8, addrbase % 2 ^ 8⟩]
        reuses := s.reuses ++ [decide (aflags = 0x08)] } addend' _ (h.snoc hsame)

theorem aflags_cases {flags : Nat} (h : ¬flags &&& 0x38 ≥ 0x18) :
    flags &&& 0x38 = 0x00 ∨ flags &&& 0x38 = 0x08 ∨ flags &&& 0x38 = 0x10 := by
  have hmod : (flags &&& 0x38) % 8 = 0 := by
    have hand : (flags &&& 0x38) &&& 7 = 0 := by
      rw [Nat.and_assoc]
      exact Nat.and_zero _
    have hseven := Nat.and_two_pow_sub_one_eq_mod (flags &&& 0x38) 3
    rw [← hand]
    exact hseven.symm
  omega

theorem relocation_alike (hlen : t.types.length = 8) (hlen' : types'.length = 8) (h : Parallel s s') :
    (relocation t cmd flags s).Alike (relocation (t.mapped types' hi16code') cmd flags s') Parallel ParallelExit := by
  refine .ite (fun _ => ⟨rfl, h⟩) fun _ => (fetch_alike t.table _).andThen fun type type' htype => ?_
  rw [← htype]
  refine .ite (fun _ => ⟨rfl, h⟩) fun hbad => ?_
  rw [not_or, not_or] at hbad
  refine (readOffset_alike cmd flags h).andThen fun s₁ s₁' h₁ => (checkOffset_alike h₁).andThen fun s₂ s₂' h₂ =>
    (readAddend_alike (aflags_cases hbad.2.2) h₂).andThen fun s₃ s₃' h₃ => ?_
  exact pushReloc_alike (Nat.le_of_not_lt hbad.1) hlen hlen' h₃

theorem pspCommand_alike (hlen : t.types.length = 8) (hlen' : types'.length = 8) (h : Parallel s s') :
    (pspCommand t s).Alike (pspCommand (t.mapped types' hi16code') s') Parallel ParallelExit := by
  have hstop : ∀ ok, ParallelExit ⟨ok, s⟩ ⟨ok, s'⟩ := fun ok => ⟨rfl, h⟩
  have hpos : s'.pos = s.pos := by cases h; rfl
  have hnext : Parallel { s with pos := s.pos + 2 } { s' with pos := s'.pos + 2 } := by
    cases h with
    | mk addend' out' h => exact .mk { s with pos := s.pos + 2 } addend' out' h
  rw [pspCommand, pspCommand, hpos] at *
  refine .ite (fun _ => hstop true) fun _ => .ite (fun _ => hstop true) fun _ =>
    (le16_alike t.table s.pos).andThen fun cmd cmd' hcmd => ?_
  rw [← hcmd]
  refine .ite (fun _ => ⟨rfl, hnext⟩) fun _ => (fetch_alike t.table _).andThen fun flags flags' hflags => ?_
  rw [← hflags]
  exact .ite (fun _ => offsetBase_alike cmd _ hnext) fun _ => relocation_alike cmd _ hlen hlen' hnext

end

/-! ### The decoder -/

variable (reboot : Bool)

theorem types_length :
    (if reboot then psp_relb_types_reboot else psp_relb_types_std).length = 8 := by
  cases reboot <;> rfl

/-- The two results have the same shape. -/
structure SameDecoding (first second : psp_result_t) : Prop where
  ok : second.ok = first.ok
  truncated : second.truncated = first.truncated
  out : SameRelocs first.out second.out first.reuses

theorem psp_stream_alike (table : List UInt8) (segs : List elf_phdr_t) :
    (psp_stream table segs false).Alike (psp_stream table segs true)
      (fun t t' => t.types.length = 8 ∧ t.table = table ∧ t' = t.mapped psp_relb_types_reboot PSPRELB_HI16_CODE_REBOOT)
      (fun _ _ => True) := by
  refine (fetch_alike table 2).andThen fun a a' ha => (fetch_alike table 3).andThen fun b b' hb =>
    (fetch_alike table 4).andThen fun c c' hc => ?_
  rw [← ha, ← hb, ← hc]
  refine (fetch_alike table _).andThen fun d d' hd => ?_
  rw [← hd]
  exact ⟨rfl, rfl, rfl⟩

theorem decode_psp_relb_stream_alike (table : List UInt8) (segs : List elf_phdr_t) :
    (decode_psp_relb_stream table segs false).Alike (decode_psp_relb_stream table segs true) SameDecoding
      (fun _ _ => True) := by
  refine (psp_stream_alike table segs).andThen fun t t' ht => ?_
  obtain ⟨hlen, htable, rfl⟩ := ht
  have hloop : (Outcome.loop (pspCommand t) (table.length + 1)
        ⟨t.block2 + t.block2size, 0, 0, 0, t.block2size, [], []⟩).Alike
      (Outcome.loop (pspCommand (t.mapped psp_relb_types_reboot PSPRELB_HI16_CODE_REBOOT)) (table.length + 1)
        ⟨t.block2 + t.block2size, 0, 0, 0, t.block2size, [], []⟩) Parallel ParallelExit :=
    Outcome.loop_alike (fun s s' hs => pspCommand_alike hlen rfl hs) _
      (.mk ⟨t.block2 + t.block2size, 0, 0, 0, t.block2size, [], []⟩ 0 [] .nil)
  dsimp only [psp_stream_t.mapped] at hloop ⊢
  generalize Outcome.loop (pspCommand t) (table.length + 1) ⟨t.block2 + t.block2size, 0, 0, 0, t.block2size, [], []⟩ = r
    at hloop ⊢
  generalize Outcome.loop (pspCommand _) (table.length + 1) ⟨t.block2 + t.block2size, 0, 0, 0, t.block2size, [], []⟩ = r'
    at hloop ⊢
  cases r with
  | undefined => cases r' with
    | undefined => exact trivial
    | threw e' => exact hloop.elim
    | done s' => exact hloop.elim
  | done s => cases r' with
    | undefined => exact hloop.elim
    | threw e' => exact hloop.elim
    | done s' => exact trivial
  | threw e => cases r' with
    | undefined => exact hloop.elim
    | done s' => exact hloop.elim
    | threw e' =>
        obtain ⟨ok, state⟩ := e
        obtain ⟨ok', state'⟩ := e'
        obtain ⟨hok, hstate⟩ := hloop
        cases hstate with
        | mk addend' out' hout => exact ⟨hok.symm, by rw [hok], hout⟩

variable {table : List UInt8} {Q : Unit → Prop}

theorem psp_header_ok_ends (hlen : 6 ≤ table.length) :
    (psp_header_ok table).Ends (fun ok => ok = true → ∃ b1 b2, table[4]? = some b1 ∧
      table[4 + b1.toNat]? = some b2 ∧ 4 + b1.toNat + b2.toNat ≤ table.length) Q := by
  refine (fetch_ends (by omega)).andThen fun part1s _ => (fetch_ends (by omega)).andThen fun part2s _ =>
    (fetch_ends (by omega)).andThen fun block1size hblock1 => (le16_ends (by omega)).andThen fun magic _ => ?_
  dsimp only
  split_ifs with hchecks
  · refine (fetch_ends hchecks.2.2.2.2.2.2).andThen fun size hsize => fun hok => ?_
    exact ⟨block1size, size, hblock1, hsize, (of_decide_eq_true hok).2⟩
  · exact fun hfalse => nomatch hfalse

variable {segs : List elf_phdr_t}

theorem psp_stream_ends {b1 b2 : UInt8} (hlen : 6 ≤ table.length) (h1 : table[4]? = some b1) (h2 : table[4 + b1.toNat]? = some b2)
    (hblocks : 4 + b1.toNat + b2.toNat ≤ table.length) :
    (psp_stream table segs reboot).Ends (fun t => t.Valid ∧ t.table = table ∧ t.segs = segs) Q := by
  have hinside : 4 + b1.toNat < table.length := by
    obtain ⟨h, _⟩ := List.getElem?_eq_some_iff.1 h2
    exact h
  refine (fetch_ends (by omega)).andThen fun part1s _ => (fetch_ends (by omega)).andThen fun part2s _ =>
    (fetch_ends (by omega)).andThen fun block1size hblock1 => ?_
  obtain rfl : b1 = block1size := Option.some.inj (h1.symm.trans hblock1)
  refine (fetch_ends hinside).andThen fun block2size hblock2 => ?_
  obtain rfl : b2 = block2size := Option.some.inj (h2.symm.trans hblock2)
  exact ⟨⟨rfl, hblocks, types_length reboot⟩, rfl, rfl⟩

theorem decode_psp_relb_stream_ends {b1 b2 : UInt8} (hsegs : segs.length % 2 ^ 32 ≠ 0) (hlen : 6 ≤ table.length) (h1 : table[4]? = some b1)
    (h2 : table[4 + b1.toNat]? = some b2) (hblocks : 4 + b1.toNat + b2.toNat ≤ table.length) :
    (decode_psp_relb_stream table segs reboot).Ends (fun result => ∀ r ∈ result.out, RelocInside segs r) Q := by
  refine (psp_stream_ends reboot hlen h1 h2 hblocks).andThen fun t ht => ?_
  obtain ⟨hvalid, rfl, rfl⟩ := ht
  have hinv : PspInv t 0 ⟨t.block2 + t.block2size, 0, 0, 0, t.block2size, [], []⟩ :=
    ⟨Nat.zero_le _, ⟨Nat.pos_of_ne_zero hsegs, Nat.zero_le _⟩, fun r hr => nomatch hr⟩
  have hmeasure : t.total - (t.block2 + t.block2size) < t.table.length + 1 := by
    rw [psp_stream_t.total]
    omega
  have hloop := Outcome.loop_ends (fun s hs => pspCommand_ends hvalid hs) hinv hmeasure
  generalize Outcome.loop (pspCommand t) (t.table.length + 1) ⟨t.block2 + t.block2size, 0, 0, 0, t.block2size, [], []⟩ = r
    at hloop ⊢
  cases r with
  | undefined => exact hloop
  | done s => exact hloop.elim
  | threw e => exact hloop

theorem sampleRelocs_ends (reader : reader_t) {relocs : List psp_relb_t}
    (h : ∀ r ∈ relocs, RelocInside segs r) (li : linput_t) (std_score rbt_score : Int) (nsampled : Nat) :
    (sampleRelocs reader li segs relocs std_score rbt_score nsampled).Ends (fun _ => True) Q := by
  induction relocs generalizing li std_score rbt_score nsampled with
  | nil => exact trivial
  | cons r relocs ih =>
      have hr := h r (List.mem_cons_self ..)
      have hcode := hr.code
      have hrest := ih fun r hr => h r (List.mem_cons_of_mem _ hr)
      refine (fetch_ends (Nat.lt_succ_of_le hcode)).andThen fun std _ =>
        (fetch_ends (Nat.lt_succ_of_le hcode)).andThen fun rbt _ => ?_
      refine Outcome.EndsIf.ite (fun _ => hrest li std_score rbt_score nsampled) fun _ =>
        (fetch_ends hr.offbase).andThen fun seg _ => ?_
      dsimp only
      generalize (if (li.qlseek (seg.p_offset + r.offset.setWidth 64)).2 = true then
        reader.safe_read (li.qlseek (seg.p_offset + r.offset.setWidth 64)).1 4 else none) = word
      cases word with
      | none => exact trivial
      | some word => exact .ite (fun _ => trivial) fun _ => hrest ..

theorem decode_psp_relb_ends (reader : reader_t) (li : linput_t) (rel_phdr : elf_phdr_t) (segs : List elf_phdr_t) :
    (decode_psp_relb reader li rel_phdr segs).Ends (fun result => ∀ r ∈ result.out, RelocInside segs r)
      (fun _ => False) := by
  have hnone : ∀ r ∈ ([] : List psp_relb_t), RelocInside segs r := fun r hr => nomatch hr
  rw [decode_psp_relb]
  dsimp only
  by_cases hchecks : segs.length % 2 ^ 32 ≠ 0 ∧ rel_phdr.p_filesz.toNat ≥ 6 ∧
      rel_phdr.p_offset.toNat < li.bytes.length ∧
      rel_phdr.p_filesz.toNat ≤ li.bytes.length - rel_phdr.p_offset.toNat
  · rw [if_neg (not_not.2 hchecks)]
    generalize (li.qlseek rel_phdr.p_offset) = sought
    by_cases hsought : sought.2 = true
    · rw [if_neg (not_not.2 hsought)]
      generalize (sought.1.qlread rel_phdr.p_filesz.toNat).2 = table
      by_cases hfull : table.length = rel_phdr.p_filesz.toNat
      · rw [if_neg (not_not.2 hfull)]
        have hlen : 6 ≤ table.length := hfull ▸ hchecks.2.1
        refine (psp_header_ok_ends hlen).andThen fun ok hok => ?_
        cases ok with
        | false => exact hnone
        | true =>
            obtain ⟨b1, b2, h1, h2, hblocks⟩ := hok rfl
            rw [if_neg (by decide)]
            refine (decode_psp_relb_stream_ends false hchecks.1 hlen h1 h2 hblocks).andThen fun first hfirst => ?_
            split_ifs
            · refine (sampleRelocs_ends reader hfirst li 0 0 0).andThen fun reboot _ => ?_
              split_ifs
              · exact (decode_psp_relb_stream_ends true hchecks.1 hlen h1 h2 hblocks).andThen fun second hsecond => hsecond
              · exact hfirst
            · exact hfirst
      · rw [if_pos hfull]
        exact hnone
    · rw [if_pos hsought]
      exact hnone
  · rw [if_pos hchecks]
    exact hnone

/-- The whole call is safe, and a second decoding of a good table gives the relocations of the first one. -/
theorem decode_psp_relb_safe (reader : reader_t) (li : linput_t) (rel_phdr : elf_phdr_t) (segs : List elf_phdr_t) :
    (∃ result, decode_psp_relb reader li rel_phdr segs = .done result ∧ ∀ r ∈ result.out, RelocInside segs r) ∧
      ∀ table first, decode_psp_relb_stream table segs false = .done first →
        ∃ second, decode_psp_relb_stream table segs true = .done second ∧ SameDecoding first second := by
  constructor
  · have hends := decode_psp_relb_ends reader li rel_phdr segs
    cases hresult : decode_psp_relb reader li rel_phdr segs with
    | undefined =>
        rw [hresult] at hends
        exact (hends trivial).elim
    | threw e =>
        rw [hresult] at hends
        exact hends.elim
    | done result =>
        rw [hresult] at hends
        exact ⟨result, rfl, hends⟩
  · intro table first hfirst
    have halike := decode_psp_relb_stream_alike table segs
    rw [hfirst] at halike
    cases hsecond : decode_psp_relb_stream table segs true with
    | undefined =>
        rw [hsecond] at halike
        exact halike.elim
    | threw e =>
        rw [hsecond] at halike
        exact halike.elim
    | done second =>
        rw [hsecond] at halike
        exact ⟨second, rfl, halike⟩

/-- A table with two calls and the high half of an address, for two segments. -/
def relbTable : List UInt8 :=
  [0x00, 0x00, 0x03, 0x03, 0x06, 0x00, 0x01, 0x11, 0x09, 0x00, 0x08, 0x07, 0x04, 0x05, 0x06, 0x02, 0x03, 0x00,
    0x81, 0x00, 0x12, 0x00, 0x12, 0x04, 0x2B, 0x0E, 0x40, 0x00]

def relbSegs : List elf_phdr_t := [⟨0x100, 0x40, 0⟩, ⟨0x140, 0x40, 0x40⟩]

def relbDecoded : psp_result_t :=
  ⟨true, false, [⟨8, 0, PSPRELB_JAL26, 7, 0, 0⟩, ⟨0x10, 0, PSPRELB_JAL26, 7, 0, 0⟩, ⟨0x2C, 64, PSPRELB_HI16, 4, 0, 1⟩],
    [false, false, false]⟩

theorem decode_psp_relb_safe_relbTable :
    (∃ result, decode_psp_relb ⟨false, false, EM_MIPS⟩ ⟨relbTable, 0, by decide⟩ ⟨0, 28, 0⟩ relbSegs = .done result ∧
      ∀ r ∈ result.out, RelocInside relbSegs r) ∧
    ∃ second, decode_psp_relb_stream relbTable relbSegs true = .done second ∧ SameDecoding relbDecoded second :=
  have h := decode_psp_relb_safe ⟨false, false, EM_MIPS⟩ ⟨relbTable, 0, by decide⟩ ⟨0, 28, 0⟩ relbSegs
  ⟨h.1, h.2 relbTable relbDecoded rfl⟩

end IdaSdk.Elf
