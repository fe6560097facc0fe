import IdaSdk.LibStep
import Mathlib.Logic.Function.Iterate

/-!
The loader section of a PEF file and the interpreter of its relocation instructions. The interpreter walks over
16-bit words; a repeat instruction moves the position back and counts in a variable that all repeat instructions
share.
-/

namespace IdaSdk.Pef
open StepMachine

/-! ### Reading the section -/

/-- The contents of the loader section; their size comes from the 32-bit field `packedSize`. -/
structure LoaderSection where
  bytes : List UInt8
  size_lt : bytes.length < 2 ^ 32

variable (ldr : LoaderSection)

def byteAt (i : Nat) : Nat := (ldr.bytes.getD i 0).toNat

def mfshort (i : Nat) : Nat := byteAt ldr i * 256 + byteAt ldr (i + 1)

def mflong (i : Nat) : Nat := mfshort ldr i * 65536 + mfshort ldr (i + 2)

def sint32 (x : Nat) : Int := if x < 2 ^ 31 then x else (x : Int) - 2 ^ 32

structure PefSection where
  defaultAddress : UInt32
deriving Inhabited

structure PefLoader where
  mainSection : Int
  initSection : Int
  termSection : Int
  importLibraryCount : Nat
  totalImportedSymbolCount : Nat
  relocSectionCount : Nat
  relocInstrOffset : Nat
  loaderStringsOffset : Nat
  exportHashOffset : Nat
  exportHashTablePower : Nat
  exportedSymbolCount : Nat

def sizeofPefLoader : Nat := 56
def sizeofPefLibrary : Nat := 24
def sizeofPefRelocHeader : Nat := 12
def sizeofPefExport : Nat := 10

/-- `swap_pef_loader`. -/
def readPefLoader : PefLoader where
  mainSection := sint32 (mflong ldr 0)
  initSection := sint32 (mflong ldr 8)
  termSection := sint32 (mflong ldr 16)
  importLibraryCount := mflong ldr 24
  totalImportedSymbolCount := mflong ldr 28
  relocSectionCount := mflong ldr 32
  relocInstrOffset := mflong ldr 36
  loaderStringsOffset := mflong ldr 40
  exportHashOffset := mflong ldr 44
  exportHashTablePower := mflong ldr 48
  exportedSymbolCount := mflong ldr 52

structure RelocHeader where
  sectionIndex : Nat
  relocCount : Nat
  firstRelocOffset : Nat

def readRelocHeader (i : Nat) : RelocHeader where
  sectionIndex := mfshort ldr i
  relocCount := mflong ldr (i + 4)
  firstRelocOffset := mflong ldr (i + 8)

/-- Are `nelems` elements at the offset `p` completely inside the section? -/
def inside (p nelems elsize : Nat) : Bool :=
  decide (nelems * elsize < 2 ^ 64 ∧ p ≤ ldr.bytes.length ∧ p + nelems * elsize ≤ ldr.bytes.length)

/-- `pef_loader_data_t`; pointers are offsets into the section. -/
structure PefLoaderData where
  pl : PefLoader
  pil : Nat
  impsym : Nat
  prh : Nat
  stable : Nat
  relptr : Nat

/-- A section number is -1 or the number of a section. -/
def badVector (nsecs : Nat) (x : Int) : Bool := decide ((x + 1) % 2 ^ 64 > nsecs)

def extractLoaderData (sec : List PefSection) : Option PefLoaderData :=
  if ldr.bytes.length < sizeofPefLoader then
    none
  else
    let pl := readPefLoader ldr
    let pil := sizeofPefLoader
    let impsym := pil + pl.importLibraryCount * sizeofPefLibrary
    let prh := impsym + pl.totalImportedSymbolCount * 4
    let stable := pl.loaderStringsOffset
    let relptr := pl.relocInstrOffset
    let hashsize := ((1 : UInt32) <<< pl.exportHashTablePower.toUInt32).toNat
    let keytable := pl.exportHashOffset + hashsize * 4
    let pe := keytable + pl.exportedSymbolCount * 4
    if !inside ldr pil pl.importLibraryCount sizeofPefLibrary then none
    else if !inside ldr impsym pl.totalImportedSymbolCount 4 then none
    else if !inside ldr prh pl.relocSectionCount sizeofPefRelocHeader then none
    else if !inside ldr stable 0 0 then none
    else if !inside ldr relptr 0 0 then none
    else if !inside ldr pe pl.exportedSymbolCount sizeofPefExport then none
    else if !inside ldr keytable pl.exportedSymbolCount 4 then none
    else if badVector sec.length pl.termSection || badVector sec.length pl.initSection ||
        badVector sec.length pl.mainSection then none
    else some ⟨pl, pil, impsym, prh, stable, relptr⟩

/-- Is there a zero byte from the offset `p` on? -/
def goodString (p : Nat) : Bool := (ldr.bytes.drop p).any (· == 0)

/-- The names of the imported libraries and symbols are inside the section. -/
def importsOk (pd : PefLoaderData) : Bool :=
  (List.range pd.pl.importLibraryCount).all (fun i =>
      goodString ldr (pd.stable + mflong ldr (pd.pil + i * sizeofPefLibrary))) &&
    (List.range pd.pl.totalImportedSymbolCount).all fun i =>
      decide (pd.stable + mflong ldr (pd.impsym + i * 4) % 2 ^ 24 < ldr.bytes.length)

/-! ### Relocation instructions -/

inductive RelocInsn where
  | bySectDWithSkip (skipCount relocCount : Nat)
  | bySectC (cnt : Nat)
  | bySectD (cnt : Nat)
  | tVector12 (cnt : Nat)
  | tVector8 (cnt : Nat)
  | vTable8 (cnt : Nat)
  | importRun (cnt : Nat)
  | smByImport (cnt : Nat)
  | smSetSectC (cnt : Nat)
  | smSetSectD (cnt : Nat)
  | smBySection (cnt : Nat)
  | incrPosition (offset : Nat)
  | setPosition (offset : Nat)
  | lgByImport (index : Nat)
  | lgSetOrBySection (subcode index : Nat)
  | bad

/-- What the first word says: a whole instruction, the first half of one, or a repeat instruction with the number
of words that it repeats. -/
inductive Decoded where
  | single (i : RelocInsn)
  | double (i : Nat → RelocInsn)
  | smRepeat (blocks count : Nat)
  | lgRepeat (blocks : Nat) (count : Nat → Nat)

/-- The low bits of an instruction are the high bits of its operand, `next` holds the low ones. -/
def operand (insn bits next : Nat) : Nat := next ||| (insn % 2 ^ bits) <<< 16

def decode (insn : Nat) : Decoded :=
  let op := insn / 2 ^ 9
  let cnt := insn % 2 ^ 9
  if op < 0x20 then .single (.bySectDWithSkip (insn / 2 ^ 6 % 2 ^ 8) (insn % 2 ^ 6))
  else if op = 0x20 then .single (.bySectC (cnt + 1))
  else if op = 0x21 then .single (.bySectD (cnt + 1))
  else if op = 0x22 then .single (.tVector12 (cnt + 1))
  else if op = 0x23 then .single (.tVector8 (cnt + 1))
  else if op = 0x24 then .single (.vTable8 (cnt + 1))
  else if op = 0x25 then .single (.importRun (cnt + 1))
  else if op = 0x30 then .single (.smByImport cnt)
  else if op = 0x31 then .single (.smSetSectC cnt)
  else if op = 0x32 then .single (.smSetSectD cnt)
  else if op = 0x33 then .single (.smBySection cnt)
  else if 0x40 ≤ op ∧ op < 0x48 then .single (.incrPosition (insn % 2 ^ 12 + 1))
  else if 0x48 ≤ op ∧ op < 0x50 then .smRepeat (insn / 2 ^ 8 % 2 ^ 4 + 1) (insn % 2 ^ 8 + 1)
  else if 0x50 ≤ op ∧ op < 0x52 then .double fun next => .setPosition (operand insn 10 next)
  else if 0x52 ≤ op ∧ op < 0x54 then .double fun next => .lgByImport (operand insn 10 next)
  else if 0x58 ≤ op ∧ op < 0x5A then .lgRepeat (insn / 2 ^ 6 % 2 ^ 4 + 1) (operand insn 6)
  else if 0x5A ≤ op ∧ op < 0x5C then
    .double fun next => .lgSetOrBySection (insn / 2 ^ 6 % 2 ^ 4) (operand insn 6 next)
  else .single .bad

/-- One call of `fixup`. -/
structure Fixup where
  ea : UInt32
  delta : UInt32
  extdef : Bool
deriving DecidableEq

/-- An index that is used: into the section table or into the imported symbols. -/
inductive Use where
  | sec (i : Nat)
  | impsym (i : Nat)

/-- The variables that instructions change, with the fixups and the uses so far, newest first. -/
structure Reloc where
  reladdr : UInt32
  importIndex : Nat
  code : UInt32
  data : UInt32
  fixups : List Fixup
  uses : List Use

/-- What instructions refer to: the tables and the start of the section that is relocated. -/
structure Tables where
  sec : List PefSection
  total : Nat
  impsym : Nat → UInt32
  sea : UInt32

namespace Reloc

variable (r : Reloc)

def advance (n : UInt32) : Reloc := { r with reladdr := r.reladdr + n }

/-- `fixup(reladdr, delta, extdef); reladdr += 4;` -/
def fixup (delta : UInt32) (extdef : Bool) : Reloc :=
  { r with fixups := ⟨r.reladdr, delta, extdef⟩ :: r.fixups, reladdr := r.reladdr + 4 }

def use (u : Use) : Reloc := { r with uses := u :: r.uses }

def byCode : Reloc := r.fixup r.code false

def byData : Reloc := r.fixup r.data false

/-- `fixup(reladdr, pd.impsym[i], 1); reladdr += 4; import = i + 1;` -/
def byImport (t : Tables) (i : Nat) (r : Reloc) : Reloc :=
  { (r.use (.impsym i)).fixup (t.impsym i) true with importIndex := i + 1 }

end Reloc

variable (t : Tables)

def Tables.address (i : Nat) : UInt32 := (t.sec.getD i default).defaultAddress

/-- One case of the switch; an error is `bad_reloc_data`. -/
def exec (r : Reloc) : RelocInsn → Except Reloc Reloc
  | .bySectDWithSkip skipCount relocCount =>
    .ok (Reloc.byData^[relocCount] (r.advance (skipCount.toUInt32 * 4)))
  | .bySectC cnt => .ok (Reloc.byCode^[cnt] r)
  | .bySectD cnt => .ok (Reloc.byData^[cnt] r)
  | .tVector12 cnt => .ok ((fun r => r.byCode.byData.advance 4)^[cnt] r)
  | .tVector8 cnt => .ok ((fun r => r.byCode.byData)^[cnt] r)
  | .vTable8 cnt => .ok ((fun r => r.byData.advance 4)^[cnt] r)
  | .importRun cnt =>
    if r.importIndex + cnt > t.total then .error r
    else .ok ((fun r => r.byImport t r.importIndex)^[cnt] r)
  | .smByImport cnt => if cnt ≥ t.total then .error r else .ok (r.byImport t cnt)
  | .smSetSectC cnt =>
    if cnt ≥ t.sec.length then .error r else .ok { r.use (.sec cnt) with code := t.address cnt }
  | .smSetSectD cnt =>
    if cnt ≥ t.sec.length then .error r else .ok { r.use (.sec cnt) with data := t.address cnt }
  | .smBySection cnt =>
    if cnt ≥ t.sec.length then .error r else .ok ((r.use (.sec cnt)).fixup (t.address cnt) false)
  | .incrPosition offset => .ok (r.advance offset.toUInt32)
  | .setPosition offset => .ok { r with reladdr := t.sea + offset.toUInt32 }
  | .lgByImport index => if index ≥ t.total then .error r else .ok (r.byImport t index)
  | .lgSetOrBySection subcode index =>
    if index ≥ t.sec.length then .error r
    else if subcode = 0 then .ok ((r.use (.sec index)).fixup (t.address index) false)
    else if subcode = 1 then .ok { r.use (.sec index) with code := t.address index }
    else if subcode = 2 then .ok { r.use (.sec index) with data := t.address index }
    else .ok r
  | .bad => .error r

/-- The variables of the loop over the words, with the positions read so far, newest first. -/
structure RelocLoop where
  j : Int
  repeats : Int
  reloc : Reloc
  reads : List Int

/-- The instruction words as the code sees them: those of the relocation block are at 0 to `relocCount - 1`. -/
structure Stream where
  word : Int → Nat
  relocCount : Nat

namespace RelocLoop

/-- `mfshort(ptr[j++])`: the state after the read. -/
def read (s : RelocLoop) : RelocLoop := { s with j := s.j + 1, reads := s.j :: s.reads }

/-- The common part of the two repeat instructions. -/
def repeatBack (s : RelocLoop) (count : Nat) (dist : Int) : RelocLoop :=
  let repeats := (if s.repeats = -1 then (count : Int) else s.repeats) - 1
  { s with repeats, j := if repeats ≠ -1 then s.j - dist else s.j }

end RelocLoop

/-- The rest of the loop body for an instruction that is no repeat instruction. -/
def finishStep (s : RelocLoop) (i : RelocInsn) : Result RelocLoop (Bool × RelocLoop) :=
  match exec t s.reloc i with
  | .ok r => .next { s with reloc := r }
  | .error r => .done (false, { s with reloc := r })

/-- One round of the loop. It stops with `true` when the loop ends and with `false` when the file is rejected. -/
def relocStep (w : Stream) (s : RelocLoop) : Result RelocLoop (Bool × RelocLoop) :=
  -- `j` is signed and `relocCount` is not: the comparison is an unsigned one
  if (s.j % 2 ^ 32).toNat < w.relocCount then
    match decode (w.word s.j) with
    | .single i => finishStep t s.read i
    | .double i => finishStep t s.read.read (i (w.word s.read.j))
    | .smRepeat blocks count => .next (s.read.repeatBack count (blocks + 1))
    | .lgRepeat blocks count => .next (s.read.read.repeatBack (count (w.word s.read.j)) (blocks + 2))
  else
    .done (true, s)

/-- The world around the loader: where the imported symbols are put, whether their segment could be added, and
whether relocations are switched off. -/
structure Database where
  undef : UInt32
  addSegm : Bool
  noReloc : Bool

def tables (db : Database) (sec : List PefSection) (pd : PefLoaderData) (sidx : Nat) : Tables where
  sec := sec
  total := pd.pl.totalImportedSymbolCount
  impsym i := db.undef + 4 * i.toUInt32
  sea := (sec.getD sidx default).defaultAddress

def stream (pd : PefLoaderData) (h : RelocHeader) : Stream where
  word i := mfshort ldr (pd.relptr + 2 * h.firstRelocOffset + 2 * i.toNat)
  relocCount := h.relocCount

/-- The variables when the loop over the words of a header starts. -/
def startReloc (sec : List PefSection) (sea : UInt32) : Reloc where
  reladdr := sea
  importIndex := 0
  code := if sec.length > 0 then (sec.getD 0 default).defaultAddress else 0
  data := if sec.length > 1 then (sec.getD 1 default).defaultAddress else 0
  fixups := []
  uses := []

def startLoop : RelocLoop := ⟨0, -1, startReloc t.sec t.sea, []⟩

/-- What happened to one header: whether its words were processed to the end, and the final variables. -/
structure HeaderOutcome where
  tables : Tables
  stream : Stream
  accepted : Bool
  final : RelocLoop

/-- The loop over the relocation headers, with fuel for each of them. Returns whether the file is accepted. -/
def relocate (db : Database) (ldr : LoaderSection) (sec : List PefSection) (pd : PefLoaderData) (fuel : Nat) :
    List RelocHeader → Option (Bool × List HeaderOutcome)
  | [] => some (true, [])
  | h :: hs =>
    if h.sectionIndex ≥ sec.length then some (false, [])
    else if !inside ldr (pd.relptr + 2 * h.firstRelocOffset) h.relocCount 2 then some (false, [])
    else
      let t := tables db sec pd h.sectionIndex
      let w := stream ldr pd h
      match run (relocStep t w) fuel (startLoop t) with
      | none => none
      | some (false, s) => some (false, [⟨t, w, false, s⟩])
      | some (true, s) => (relocate db ldr sec pd fuel hs).map fun r => (r.1, ⟨t, w, true, s⟩ :: r.2)

def relocHeaders (pd : PefLoaderData) : List RelocHeader :=
  (List.range pd.pl.relocSectionCount).map fun i => readRelocHeader ldr (pd.prh + i * sizeofPefRelocHeader)

/-- The section numbers that `process_loader_data` uses to find the table of contents. -/
def tocUses (pl : PefLoader) : List Use :=
  if pl.mainSection ≠ -1 then [.sec pl.mainSection.toNat, .sec 1]
  else if pl.initSection ≠ -1 then [.sec pl.initSection.toNat, .sec 1]
  else []

structure Outcome where
  accepted : Bool
  uses : List Use
  headers : List HeaderOutcome

/-- `process_loader_data` up to the exports. -/
def processLoaderData (db : Database) (fuel : Nat) (ldr : LoaderSection) (sec : List PefSection) : Option Outcome :=
  match extractLoaderData ldr sec with
  | none => some ⟨false, [], []⟩
  | some pd =>
    if pd.pl.totalImportedSymbolCount ≠ 0 ∧ (db.addSegm = false ∨ importsOk ldr pd = false) then
      some ⟨false, [], []⟩
    else if db.noReloc then
      some ⟨true, tocUses pd.pl, []⟩
    else
      (relocate db ldr sec pd fuel (relocHeaders ldr pd)).map fun r => ⟨r.1, tocUses pd.pl, r.2⟩

end IdaSdk.Pef
