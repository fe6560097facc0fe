import Mathlib.Algebra.Group.Nat.Defs
import Mathlib.Data.List.Basic
import Mathlib.Data.List.Range

/-!
The debugger's binary search. A matcher reads memory page by page; a pattern that does not fit the rest
of a page is remembered as a partial match, to be continued on the next page that is read. Addresses are
64-bit, so the steps from page to page wrap around.
-/

namespace IdaSdk.BinSearch

def eaModulus : Nat := 2 ^ 64

def BADADDR : Nat := 2 ^ 64 - 1

/-- The size of a page is a constant of the build, 4096 or, in the self-test, 4. `align_down` masks with
`PAGESZ - 1`, an `int`, so that it is a power of two. -/
class PageSize where
  size : Nat
  pow2 : ∃ k ≤ 30, size = 2 ^ k

@[reducible] def debuggerPage : PageSize := ⟨4096, 12, by decide, rfl⟩

def PAGESZ [PageSize] : Nat := PageSize.size

def alignDown [PageSize] (val : Nat) : Nat := val / PAGESZ * PAGESZ

/-- The bits of `srch_flags` that the search reads. -/
structure SearchFlags where
  caseSensitive : Bool
  noBreak : Bool
  bitmask : Bool

/-- `compiled_binpat_t`; a mask is absent or has a byte for every byte of the pattern. -/
structure CompiledBinpat where
  bytes : List UInt8
  mask : List UInt8
  mask_ok : mask = [] ∨ mask.length = bytes.length

namespace CompiledBinpat

def allBytesDefined (ptn : CompiledBinpat) : Bool := ptn.mask.isEmpty

instance : Inhabited CompiledBinpat := ⟨⟨[], [], .inl rfl⟩⟩

end CompiledBinpat

/-- A listed memory range. -/
structure MemoryInfo where
  startEa : Nat
  endEa : Nat
  nonempty : startEa < endEa
  end_le : endEa ≤ BADADDR

def MemoryInfo.contains (r : MemoryInfo) (ea : Nat) : Bool := decide (r.startEa ≤ ea ∧ ea < r.endEa)

/-- What the search asks of the debugger. A read of `size` bytes succeeds as a whole or not at all. The
user may cancel before any page of any range. -/
structure Debmod where
  memory : Nat → UInt8
  readable : Nat → Nat → Bool
  cancelled : Nat → Nat → Bool
  oldRanges : List MemoryInfo

/-- `partmatch_t`. -/
structure PartMatch where
  matchEa : Nat
  ptnIdx : Nat
  ptnOff : Nat
deriving DecidableEq

/-- `drc_t`, with the address that is stored in `found_ea`. -/
inductive Drc where
  | ok (foundEa : Nat)
  | failed
  | error
deriving DecidableEq

def qtoupper (c : UInt8) : UInt8 := if 97 ≤ c ∧ c ≤ 122 then c - 32 else c

def bytesMatchForBinSearch (c1 c2 : UInt8) (mask : Option UInt8) (flags : SearchFlags) : Bool :=
  let c1 := if flags.caseSensitive then c1 else qtoupper c1
  let c2 := if flags.caseSensitive then c2 else qtoupper c2
  match mask with
  | some mk => if flags.bitmask then (c1 ^^^ c2) &&& mk == 0 else if mk == 0 then true else c1 == c2
  | none => c1 == c2

/-- The comparison of a memory byte with byte `i` of a pattern. -/
def byteMatches (flags : SearchFlags) (ptn : CompiledBinpat) (i : Nat) (c : UInt8) : Bool :=
  bytesMatchForBinSearch c (ptn.bytes.getD i 0) (if ptn.allBytesDefined then none else some (ptn.mask.getD i 0)) flags

abbrev Page := Nat → UInt8

/-- `match_pattern` on the page from `pageOff`. -/
def matchPattern (flags : SearchFlags) (page : Page) (pageOff : Nat) (ptn : CompiledBinpat) (ptnOff nbytes : Nat) :
    Bool :=
  (List.range nbytes).all fun i => byteMatches flags ptn (ptnOff + i) (page (pageOff + i))

/-- `memcmp` of `nbytes` bytes of the page with the pattern. -/
def memcmpEq (page : Page) (pageOff : Nat) (ptn : CompiledBinpat) (ptnOff nbytes : Nat) : Bool :=
  (List.range nbytes).all fun i => page (pageOff + i) == ptn.bytes.getD (ptnOff + i) 0

def memchr (page : Page) (off : Nat) (ch : UInt8) (n : Nat) : Option Nat :=
  (List.range' off n).find? fun i => page i == ch

def memrchr (page : Page) (off : Nat) (ch : UInt8) (n : Nat) : Option Nat :=
  (List.range' off n).reverse.find? fun i => page i == ch

/-- What a scan of the page comes to: an address to report, or the partial matches to keep. -/
inductive Scan where
  | found (ea : Nat)
  | more (pmatches : List PartMatch)
deriving DecidableEq

def Scan.andThen (s : Scan) (k : List PartMatch → Scan) : Scan :=
  match s with
  | .found ea => .found ea
  | .more pms => k pms

/-- A loop over `items` that ends with the first match. -/
def scanEach {ι : Type} (f : ι → List PartMatch → Scan) : List ι → List PartMatch → Scan
  | [], pms => .more pms
  | i :: items, pms => (f i pms).andThen (scanEach f items)

/-- The result of `finalize_partial_match`: `again` keeps the partial match for another page. -/
inductive Finalized where
  | ok
  | failed
  | again (pm : PartMatch)

/-- The loop over the partial matches. -/
def finalizeAll (finalize : PartMatch → Finalized) : List PartMatch → Scan
  | [] => .more []
  | pm :: pms =>
    match finalize pm with
    | .ok => .found pm.matchEa
    | .failed => finalizeAll finalize pms
    | .again pm' =>
      match finalizeAll finalize pms with
      | .found ea => .found ea
      | .more pms => .more (pm' :: pms)

section
variable (flags : SearchFlags) (ptns : List CompiledBinpat)

def ptnAt (idx : Nat) : CompiledBinpat := ptns.getD idx default

def simplePtns : List Nat :=
  (List.range ptns.length).filter fun i =>
    !(ptnAt ptns i).bytes.isEmpty && (flags.caseSensitive && (ptnAt ptns i).allBytesDefined)

def complexPtns : List Nat :=
  (List.range ptns.length).filter fun i =>
    !(ptnAt ptns i).bytes.isEmpty && !(flags.caseSensitive && (ptnAt ptns i).allBytesDefined)

/-- The common outline of `find` for one page: partial matches first, then new matches. -/
def scanPage (finalize : PartMatch → Finalized) (matchSimple matchComplex : List PartMatch → Scan)
    (pms : List PartMatch) : Scan :=
  (finalizeAll finalize pms).andThen fun pms => (matchSimple pms).andThen matchComplex

/-- What follows a comparison: `rest` bytes were there for a pattern of `ptnSz` bytes, so a match is full,
or partial and remembered as `pm`. -/
def keepMatch (isMatch : Bool) (ptnSz rest : Nat) (foundEa : Nat) (pm : PartMatch) (pms : List PartMatch) : Scan :=
  if isMatch then
    if ptnSz ≤ rest then .found foundEa else .more (pms ++ [pm])
  else
    .more pms

namespace Forward

/-- The loop of `match_simple_patterns` for one pattern, from page offset `off`. -/
def simpleLoop (page : Page) (pageEa : Nat) (lastOff idx : Nat) (ptn : CompiledBinpat) :
    Nat → Nat → List PartMatch → Scan
  | 0, _, pms => .more pms
  | fuel + 1, off, pms =>
    match memchr page off (ptn.bytes.getD 0 0) (lastOff - off) with
    | none => .more pms
    | some pnew =>
      let rest := lastOff - pnew
      let nbytes := min rest ptn.bytes.length
      (keepMatch (memcmpEq page pnew ptn 0 nbytes) ptn.bytes.length rest (pageEa + pnew)
        ⟨pageEa + pnew, idx, nbytes⟩ pms).andThen (simpleLoop page pageEa lastOff idx ptn fuel (pnew + 1))

def matchSimplePatterns (page : Page) (pageEa : Nat) (lastOff pageOff : Nat) : List PartMatch → Scan :=
  scanEach (fun idx => simpleLoop page pageEa lastOff idx (ptnAt ptns idx) (lastOff - pageOff) pageOff)
    (simplePtns flags ptns)

/-- The body of the loop of `match_at` for one pattern. -/
def matchPtnAt (page : Page) (pageEa : Nat) (lastOff pageOff idx : Nat) (pms : List PartMatch) : Scan :=
  let ptn := ptnAt ptns idx
  let rest := lastOff - pageOff
  let nbytes := min rest ptn.bytes.length
  keepMatch (matchPattern flags page pageOff ptn 0 nbytes) ptn.bytes.length rest (pageEa + pageOff)
    ⟨pageEa + pageOff, idx, nbytes⟩ pms

def matchAt (page : Page) (pageEa : Nat) (lastOff pageOff : Nat) : List PartMatch → Scan :=
  scanEach (matchPtnAt flags ptns page pageEa lastOff pageOff) (complexPtns flags ptns)

def matchComplexPatterns (page : Page) (pageEa : Nat) (lastOff pageOff : Nat) : List PartMatch → Scan :=
  scanEach (matchAt flags ptns page pageEa lastOff) (List.range' pageOff (lastOff - pageOff))

def finalizePartialMatch [PageSize] (page : Page) (lastOff : Nat) (pm : PartMatch) : Finalized :=
  let ptn := ptnAt ptns pm.ptnIdx
  let ptnRest := ptn.bytes.length - pm.ptnOff
  let nbytes := min ptnRest lastOff
  if !matchPattern flags page 0 ptn pm.ptnOff nbytes then .failed
  else if ptnRest ≤ lastOff then .ok
  else if lastOff ≠ PAGESZ then .failed
  else .again { pm with ptnOff := pm.ptnOff + PAGESZ }

/-- The loop of `find`; the partial matches are returned for the next range. -/
def findLoop [PageSize] (mod : Debmod) (startEa endEa : Nat) : Nat → Nat → Nat → List PartMatch → Option (Drc × List PartMatch)
  | 0, _, _, _ => none
  | fuel + 1, pageEa, pageOff, pms =>
    if pageEa < endEa then
      if !flags.noBreak && mod.cancelled startEa pageEa then
        some (.error, pms)
      else if !mod.readable pageEa PAGESZ then
        some (.error, pms)
      else
        let page : Page := fun off => mod.memory (pageEa + off)
        let lastOff := min (endEa - pageEa) PAGESZ
        match scanPage (finalizePartialMatch flags ptns page lastOff)
            (matchSimplePatterns flags ptns page pageEa lastOff pageOff)
            (matchComplexPatterns flags ptns page pageEa lastOff pageOff) pms with
        | .found ea => some (.ok ea, pms)
        | .more pms => findLoop mod startEa endEa fuel ((pageEa + PAGESZ) % eaModulus) 0 pms
    else
      some (.failed, pms)

def find [PageSize] (mod : Debmod) (fuel : Nat) (startEa endEa : Nat) (pms : List PartMatch) : Option (Drc × List PartMatch) :=
  findLoop flags ptns mod startEa endEa fuel (alignDown startEa) (startEa - alignDown startEa) pms

end Forward

namespace Backward

/-- The loop of `match_simple_patterns` for one pattern, over `rest` bytes from `pageOff`. -/
def simpleLoop (page : Page) (pageEa : Nat) (pageOff idx : Nat) (ptn : CompiledBinpat) :
    Nat → Nat → List PartMatch → Scan
  | 0, _, pms => .more pms
  | fuel + 1, rest, pms =>
    match memrchr page pageOff (ptn.bytes.getD (ptn.bytes.length - 1) 0) rest with
    | none => .more pms
    | some p =>
      let rest := p + 1 - pageOff
      let nbytes := min rest ptn.bytes.length
      let matchedEa := (pageEa + (p + 1) + (eaModulus - ptn.bytes.length % eaModulus)) % eaModulus
      (keepMatch (memcmpEq page (p + 1 - nbytes) ptn (ptn.bytes.length - nbytes) nbytes) ptn.bytes.length rest
        matchedEa ⟨matchedEa, idx, nbytes⟩ pms).andThen (simpleLoop page pageEa pageOff idx ptn fuel (rest - 1))

def matchSimplePatterns (page : Page) (pageEa : Nat) (pageOff lastOff : Nat) : List PartMatch → Scan :=
  scanEach (fun idx => simpleLoop page pageEa pageOff idx (ptnAt ptns idx) (lastOff - pageOff) (lastOff - pageOff))
    (simplePtns flags ptns)

/-- The body of the loop of `match_before` for one pattern. -/
def matchPtnBefore (page : Page) (pageEa : Nat) (pageOff lastOff idx : Nat) (pms : List PartMatch) : Scan :=
  let ptn := ptnAt ptns idx
  let rest := lastOff - pageOff
  let vecsize := ptn.bytes.length
  let nbytes := min rest vecsize
  keepMatch (matchPattern flags page (lastOff - nbytes) ptn (vecsize - nbytes) nbytes) vecsize rest
    (pageEa + lastOff - nbytes) ⟨(pageEa + lastOff + (eaModulus - vecsize % eaModulus)) % eaModulus, idx, nbytes⟩ pms

def matchBefore (page : Page) (pageEa : Nat) (pageOff lastOff : Nat) : List PartMatch → Scan :=
  scanEach (matchPtnBefore flags ptns page pageEa pageOff lastOff) (complexPtns flags ptns)

/-- `while ( page_off < last_off )` with a falling `last_off`. -/
def matchComplexPatterns (page : Page) (pageEa : Nat) (pageOff lastOff : Nat) : List PartMatch → Scan :=
  scanEach (matchBefore flags ptns page pageEa pageOff) (List.range' (pageOff + 1) (lastOff - pageOff)).reverse

def finalizePartialMatch [PageSize] (page : Page) (pageOff : Nat) (pm : PartMatch) : Finalized :=
  let ptn := ptnAt ptns pm.ptnIdx
  let ptnRest := ptn.bytes.length - pm.ptnOff
  let nbytes := min ptnRest (PAGESZ - pageOff)
  if !matchPattern flags page (PAGESZ - nbytes) ptn (ptnRest - nbytes) nbytes then .failed
  else if ptnRest ≤ PAGESZ - pageOff then .ok
  else if pageOff ≠ 0 then .failed
  else .again { pm with ptnOff := pm.ptnOff + PAGESZ }

def findLoop [PageSize] (mod : Debmod) (startEa endEa : Nat) : Nat → Nat → Nat → List PartMatch → Option (Drc × List PartMatch)
  | 0, _, _, _ => none
  | fuel + 1, pageEa, lastOff, pms =>
    if startEa < (pageEa + PAGESZ) % eaModulus then
      if !flags.noBreak && mod.cancelled endEa pageEa then
        some (.error, pms)
      else if !mod.readable pageEa PAGESZ then
        some (.error, pms)
      else
        let page : Page := fun off => mod.memory (pageEa + off)
        let pageOff := startEa - pageEa
        match scanPage (finalizePartialMatch flags ptns page pageOff)
            (matchSimplePatterns flags ptns page pageEa pageOff lastOff)
            (matchComplexPatterns flags ptns page pageEa pageOff lastOff) pms with
        | .found ea => some (.ok ea, pms)
        | .more pms => findLoop mod startEa endEa fuel ((pageEa + (eaModulus - PAGESZ)) % eaModulus) PAGESZ pms
    else
      some (.failed, pms)

def find [PageSize] (mod : Debmod) (fuel : Nat) (startEa endEa : Nat) (pms : List PartMatch) : Option (Drc × List PartMatch) :=
  findLoop flags ptns mod startEa endEa fuel (alignDown (endEa - 1)) (endEa - alignDown (endEa - 1)) pms

end Backward

end

end IdaSdk.BinSearch
