import IdaSdk.ElfModel
import IdaSdk.LibBuffer

/-!
Relocation tables with explicit addends. The records of a 32-bit file are read into the buffer of the 64-bit entries and
widened there, from the last one to the first.
-/

namespace IdaSdk.Elf
open Words LibBuffer

def load32 (b : List UInt8) (i : Nat) : Option (BitVec 32) := (load b i 4).map fun w => BitVec.ofNat 32 (ofLE w)

def load64 (b : List UInt8) (i : Nat) : Option (BitVec 64) := (load b i 8).map fun w => BitVec.ofNat 64 (ofLE w)

def store64 (b : List UInt8) (i : Nat) (v : BitVec 64) : Option (List UInt8) := store b i (toLE 8 v.toNat)

def sizeof_Elf32_Rela : Nat := 12

def sizeof_Elf64_Rela : Nat := 24

variable (swap : Bool)

/-- The record of the 32-bit file at index `k` becomes the entry at index `k`. The byte order of the host is
little-endian, and swapping an addend gives an unsigned word. -/
def widenItem (k : Nat) (b : List UInt8) : Option (List UInt8) := do
  let r_info ← load32 b (sizeof_Elf32_Rela * k + 4)
  let r_offset ← load32 b (sizeof_Elf32_Rela * k)
  let r_addend ← load32 b (sizeof_Elf32_Rela * k + 8)
  let inf64 := if swap then (swap32 r_info).setWidth 64 else r_info.setWidth 64
  let off64 := if swap then (swap32 r_offset).setWidth 64 else r_offset.setWidth 64
  let addend := if swap then (swap32 r_addend).setWidth 64 else r_addend.signExtend 64
  let b ← store64 b (sizeof_Elf64_Rela * k + 8) inf64
  let b ← store64 b (sizeof_Elf64_Rela * k) off64
  store64 b (sizeof_Elf64_Rela * k + 16) addend

/-- The first `i` rounds of the loop over `max` records, which goes backwards. -/
def widen (swap : Bool) (max : Nat) (b : List UInt8) : Nat → Option (List UInt8)
  | 0 => some b
  | i + 1 => (widen swap max b i).bind (widenItem swap (max - 1 - i))

def swap_64_at (i : Nat) (b : List UInt8) : Option (List UInt8) := do
  let v ← load64 b i
  store64 b i (swap64 v)

def swapItem (k : Nat) (b : List UInt8) : Option (List UInt8) := do
  let b ← swap_64_at (sizeof_Elf64_Rela * k) b
  let b ← swap_64_at (sizeof_Elf64_Rela * k + 8) b
  swap_64_at (sizeof_Elf64_Rela * k + 16) b

def swapItems (b : List UInt8) : Nat → Option (List UInt8)
  | 0 => some b
  | i + 1 => (swapItems b i).bind (swapItem i)

structure buffered_input_t where
  reader : reader_t
  li : linput_t
  offset : BitVec 64
  isize : Nat
  buffer : List UInt8
  read : Nat

def resize (b : List UInt8) (n : Nat) : List UInt8 := b.take n ++ List.replicate (n - b.length) 0

def is_mul_ok (x y : Nat) : Bool := x * y < 2 ^ 64

namespace buffered_input_t

variable (s : buffered_input_t)

/-- The number of items that were read, and the buffer. No result is an access outside the buffer. -/
def read_items (max : Nat) : Option (Nat × List UInt8) :=
  if s.isize ≠ sizeof_Elf32_Rela ∧ s.isize ≠ sizeof_Elf64_Rela then some (0, s.buffer)
  else if !is_mul_ok s.read s.isize || !is_mul_ok max s.isize then some (0, s.buffer)
  else if !(s.li.qlseek (s.offset + BitVec.ofNat 64 (s.read * s.isize))).2 then some (0, s.buffer)
  else
    let data := ((s.li.qlseek (s.offset + BitVec.ofNat 64 (s.read * s.isize))).1.qlread (max * s.isize)).2
    (store s.buffer 0 data).bind fun b =>
      if data.length ≠ max * s.isize then some (0, b)
      else if s.isize = sizeof_Elf32_Rela then (widen s.reader.is_msb max b max).map fun b => (max, b)
      else if s.reader.is_msb then (swapItems b max).map fun b => (max, b)
      else some (max, b)

def entryAt (b : List UInt8) (k : Nat) : elf_rela_t :=
  ⟨BitVec.ofNat 64 (ofLE (slice b (sizeof_Elf64_Rela * k) 8)), BitVec.ofNat 64 (ofLE (slice b (sizeof_Elf64_Rela * k + 8) 8)),
    BitVec.ofNat 64 (ofLE (slice b (sizeof_Elf64_Rela * k + 16) 8))⟩

def entries (b : List UInt8) (n : Nat) : List elf_rela_t := (List.range n).map (entryAt b)

/-- A batch of `left` entries: the buffer is resized, and what is read counts as read. -/
def refill (left : Nat) : Option (Nat × buffered_input_t) :=
  let s := { s with buffer := resize s.buffer (sizeof_Elf64_Rela * left) }
  (s.read_items left).map fun r => (r.1, { s with read := s.read + r.1, buffer := r.2 })

/-- The entries that are delivered, over a sequence of batches. -/
def deliver : buffered_input_t → List Nat → Option (List elf_rela_t)
  | _, [] => some []
  | s, left :: batches =>
    (s.refill left).bind fun r => (deliver r.2 batches).map fun rest => entries r.2.buffer r.1 ++ rest

def valueAt (pos n : Nat) : Nat :=
  if s.reader.is_msb then ofBE (slice s.li.bytes pos n) else ofLE (slice s.li.bytes pos n)

/-- The entry that the file has at index `j` of the table: unsigned offset and info, and a signed addend. -/
def tableEntry (j : Nat) : elf_rela_t :=
  if s.isize = sizeof_Elf32_Rela then
    ⟨BitVec.ofNat 64 (s.valueAt (s.offset.toNat + 12 * j) 4), BitVec.ofNat 64 (s.valueAt (s.offset.toNat + 12 * j + 4) 4),
      (BitVec.ofNat 32 (s.valueAt (s.offset.toNat + 12 * j + 8) 4)).signExtend 64⟩
  else
    ⟨BitVec.ofNat 64 (s.valueAt (s.offset.toNat + 24 * j) 8), BitVec.ofNat 64 (s.valueAt (s.offset.toNat + 24 * j + 8) 8),
      BitVec.ofNat 64 (s.valueAt (s.offset.toNat + 24 * j + 16) 8)⟩

/-- The entries with the indexes from `first` on. -/
def tableEntries (first n : Nat) : List elf_rela_t :=
  (List.range n).map fun i => s.tableEntry (first + i)

/-- The table goes on for at least `n` entries behind those already read. -/
structure HasEntries (s : buffered_input_t) (n : Nat) : Prop where
  isize : s.isize = sizeof_Elf32_Rela ∨ s.isize = sizeof_Elf64_Rela
  room : s.offset.toNat + (s.read + n) * s.isize ≤ s.li.bytes.length

end buffered_input_t

section
variable {b b' : List UInt8} {i j m : Nat}

theorem load32_inside (h : i + 4 ≤ b.length) : load32 b i = some (BitVec.ofNat 32 (ofLE (slice b i 4))) := by
  rw [load32, load_slice h, Option.map_some]

theorem load64_inside (h : i + 8 ≤ b.length) : load64 b i = some (BitVec.ofNat 64 (ofLE (slice b i 8))) := by
  rw [load64, load_slice h, Option.map_some]

/-- A store of a double word: its place has it, and nothing else changes. -/
structure Stored (b : List UInt8) (i : Nat) (v : BitVec 64) (b' : List UInt8) : Prop where
  length : b'.length = b.length
  value : BitVec.ofNat 64 (ofLE (slice b' i 8)) = v
  other : ∀ j m, j + m ≤ i ∨ i + 8 ≤ j → slice b' j m = slice b j m

theorem store64_inside {v : BitVec 64} (h : i + 8 ≤ b.length) : ∃ b', store64 b i v = some b' ∧ Stored b i v b' := by
  have hlen : (toLE 8 v.toNat).length = 8 := length_toLE 8 v.toNat
  have hin : i + (toLE 8 v.toNat).length ≤ b.length := by rwa [hlen]
  obtain ⟨b', hb'⟩ := store_inside hin
  have hsame := slice_store_same hb' hin
  rw [hlen] at hsame
  refine ⟨b', hb', store_length hb', ?_, fun j m hj => ?_⟩
  · have hv := v.isLt
    apply BitVec.eq_of_toNat_eq
    rw [hsame, ofLE_toLE, BitVec.toNat_ofNat, Nat.mod_eq_of_lt (by omega), Nat.mod_eq_of_lt (by omega)]
  · apply slice_store_other hb' hin
    rwa [hlen]

end

/-! ### Widening -/

/-- The value of a word of the host, swapped or not. -/
def fileWord (bytes : List UInt8) : Nat := if swap then ofBE bytes else ofLE bytes

/-- The entry the loop makes of the record at index `k`. -/
def widened (b : List UInt8) (k : Nat) : elf_rela_t :=
  ⟨BitVec.ofNat 64 (fileWord swap (slice b (12 * k) 4)), BitVec.ofNat 64 (fileWord swap (slice b (12 * k + 4) 4)),
    if swap then BitVec.ofNat 64 (ofBE (slice b (12 * k + 8) 4))
    else (BitVec.ofNat 32 (ofLE (slice b (12 * k + 8) 4))).signExtend 64⟩

theorem setWidth_ofNat {n : Nat} (h : n < 2 ^ 32) : (BitVec.ofNat 32 n).setWidth 64 = BitVec.ofNat 64 n := by
  apply BitVec.eq_of_toNat_eq
  rw [BitVec.toNat_setWidth, BitVec.toNat_ofNat, BitVec.toNat_ofNat, Nat.mod_eq_of_lt h]

variable (swap : Bool)

theorem word_setWidth {bytes : List UInt8} (h : bytes.length = 4) :
    (if swap then (swap32 (BitVec.ofNat 32 (ofLE bytes))).setWidth 64 else (BitVec.ofNat 32 (ofLE bytes)).setWidth 64) =
      BitVec.ofNat 64 (fileWord swap bytes) := by
  have hle := ofLE_lt bytes
  have hbe := ofBE_lt bytes
  rw [h] at hle hbe
  cases swap with
  | false => exact setWidth_ofNat hle
  | true =>
      rw [if_pos rfl, swap32_ofLE h]
      exact setWidth_ofNat hbe

variable {b : List UInt8} {k : Nat}

theorem storeEntry_spec (off64 inf64 addend : BitVec 64) (h : 24 * k + 24 ≤ b.length) :
    ∃ b', ((store64 b (24 * k + 8) inf64).bind fun b => (store64 b (24 * k) off64).bind fun b =>
        store64 b (24 * k + 16) addend) = some b' ∧ b'.length = b.length ∧
      buffered_input_t.entryAt b' k = ⟨off64, inf64, addend⟩ ∧
      ∀ j m, j + m ≤ 24 * k ∨ 24 * k + 24 ≤ j → slice b' j m = slice b j m := by
  obtain ⟨b₁, hb₁, hs₁⟩ := store64_inside (v := inf64) (show 24 * k + 8 + 8 ≤ b.length by omega)
  obtain ⟨b₂, hb₂, hs₂⟩ := store64_inside (v := off64) (show 24 * k + 8 ≤ b₁.length by rw [hs₁.length]; omega)
  obtain ⟨b₃, hb₃, hs₃⟩ := store64_inside (v := addend) (show 24 * k + 16 + 8 ≤ b₂.length by rw [hs₂.length, hs₁.length]; omega)
  refine ⟨b₃, ?_, ?_, ?_, fun j m hj => ?_⟩
  · rw [hb₁, Option.bind_some, hb₂, Option.bind_some, hb₃]
  · rw [hs₃.length, hs₂.length, hs₁.length]
  · have hoff : BitVec.ofNat 64 (ofLE (slice b₃ (24 * k) 8)) = off64 := by
      rw [hs₃.other _ _ (by omega), hs₂.value]
    have hinf : BitVec.ofNat 64 (ofLE (slice b₃ (24 * k + 8) 8)) = inf64 := by
      rw [hs₃.other _ _ (by omega), hs₂.other _ _ (by omega), hs₁.value]
    rw [buffered_input_t.entryAt, sizeof_Elf64_Rela, hoff, hinf, hs₃.value]
  · rw [hs₃.other _ _ (by omega), hs₂.other _ _ (by omega), hs₁.other _ _ (by omega)]

theorem widenItem_spec (h : 24 * k + 24 ≤ b.length) :
    ∃ b', widenItem swap k b = some b' ∧ b'.length = b.length ∧ buffered_input_t.entryAt b' k = widened swap b k ∧
      ∀ j m, j + m ≤ 24 * k ∨ 24 * k + 24 ≤ j → slice b' j m = slice b j m := by
  have hoff : (slice b (12 * k) 4).length = 4 := length_slice (by omega)
  have hinf : (slice b (12 * k + 4) 4).length = 4 := length_slice (by omega)
  have hadd : (slice b (12 * k + 8) 4).length = 4 := length_slice (by omega)
  obtain ⟨b', hb', hlen, hentry, hother⟩ := storeEntry_spec (BitVec.ofNat 64 (fileWord swap (slice b (12 * k) 4)))
    (BitVec.ofNat 64 (fileWord swap (slice b (12 * k + 4) 4)))
    (if swap then (swap32 (BitVec.ofNat 32 (ofLE (slice b (12 * k + 8) 4)))).setWidth 64
      else (BitVec.ofNat 32 (ofLE (slice b (12 * k + 8) 4))).signExtend 64) h
  refine ⟨b', ?_, hlen, ?_, hother⟩
  · rw [← hb', widenItem, sizeof_Elf32_Rela, sizeof_Elf64_Rela, load32_inside (by omega), load32_inside (by omega),
      load32_inside (by omega)]
    dsimp only [Option.bind_eq_bind, Option.bind_some]
    rw [word_setWidth swap hoff, word_setWidth swap hinf]
  · rw [hentry, widened]
    cases swap with
    | false => rfl
    | true =>
        have hval : (swap32 (BitVec.ofNat 32 (ofLE (slice b (12 * k + 8) 4)))).setWidth 64 =
            BitVec.ofNat 64 (fileWord true (slice b (12 * k + 8) 4)) := word_setWidth true hadd
        rw [if_pos rfl, hval]
        rfl

/-- After some rounds: the records that are still to be read are untouched, and the others have become entries. -/
structure WidenedFrom (swap : Bool) (max i : Nat) (b b' : List UInt8) : Prop where
  length : b'.length = b.length
  unread : ∀ j m, j + m ≤ 12 * (max - i) → slice b' j m = slice b j m
  done : ∀ k, max - i ≤ k → k < max → buffered_input_t.entryAt b' k = widened swap b k

theorem widened_congr {swap : Bool} {b' : List UInt8}
    (h : ∀ j m, j + m ≤ 12 * (k + 1) → slice b' j m = slice b j m) : widened swap b' k = widened swap b k := by
  rw [widened, widened, h _ _ (by omega), h _ _ (by omega), h _ _ (by omega)]

theorem entryAt_congr {b' : List UInt8}
    (h : ∀ j m, 24 * k ≤ j → slice b' j m = slice b j m) : buffered_input_t.entryAt b' k = buffered_input_t.entryAt b k := by
  rw [buffered_input_t.entryAt, buffered_input_t.entryAt, sizeof_Elf64_Rela, h _ _ (Nat.le_refl _), h _ _ (by omega),
    h _ _ (by omega)]

theorem widen_spec {max : Nat} (hlen : b.length = 24 * max) (i : Nat) (hi : i ≤ max) :
    ∃ b', widen swap max b i = some b' ∧ WidenedFrom swap max i b b' := by
  induction i with
  | zero => exact ⟨b, rfl, rfl, fun _ _ _ => rfl, fun k hk hk' => by omega⟩
  | succ i ih =>
      obtain ⟨b₁, hb₁, hw⟩ := ih (by omega)
      have hroom : 24 * (max - 1 - i) + 24 ≤ b₁.length := by rw [hw.length, hlen]; omega
      obtain ⟨b₂, hb₂, hlen₂, hentry, hother⟩ := widenItem_spec swap hroom
      refine ⟨b₂, ?_, hlen₂.trans hw.length, fun j m hj => ?_, fun k hk hk' => ?_⟩
      · rw [widen, hb₁, Option.bind_some, hb₂]
      · -- the entry that was written begins behind the records still unread
        rw [hother j m (by omega), hw.unread j m (by omega)]
      by_cases hlast : k = max - 1 - i
      · rw [hlast, hentry]
        exact widened_congr fun j m hj => hw.unread j m (by omega)
      · rw [entryAt_congr fun j m hj => hother j m (by omega)]
        exact hw.done k (by omega) hk'

theorem swap_64_at_spec {i : Nat} (h : i + 8 ≤ b.length) :
    ∃ b', swap_64_at i b = some b' ∧ Stored b i (BitVec.ofNat 64 (ofBE (slice b i 8))) b' := by
  have hlen : (slice b i 8).length = 8 := length_slice h
  obtain ⟨b', hb', hstored⟩ := store64_inside (v := BitVec.ofNat 64 (ofBE (slice b i 8))) h
  refine ⟨b', ?_, hstored⟩
  rw [← hb', swap_64_at, load64_inside h]
  dsimp only [Option.bind_eq_bind, Option.bind_some]
  rw [swap64_ofLE hlen]

def swapped (b : List UInt8) (k : Nat) : elf_rela_t :=
  ⟨BitVec.ofNat 64 (ofBE (slice b (24 * k) 8)), BitVec.ofNat 64 (ofBE (slice b (24 * k + 8) 8)),
    BitVec.ofNat 64 (ofBE (slice b (24 * k + 16) 8))⟩

theorem swapItem_spec (h : 24 * k + 24 ≤ b.length) :
    ∃ b', swapItem k b = some b' ∧ b'.length = b.length ∧ buffered_input_t.entryAt b' k = swapped b k ∧
      ∀ j m, j + m ≤ 24 * k ∨ 24 * k + 24 ≤ j → slice b' j m = slice b j m := by
  obtain ⟨b₁, hb₁, hs₁⟩ := swap_64_at_spec (show 24 * k + 8 ≤ b.length by omega)
  obtain ⟨b₂, hb₂, hs₂⟩ := swap_64_at_spec (show 24 * k + 8 + 8 ≤ b₁.length by rw [hs₁.length]; omega)
  obtain ⟨b₃, hb₃, hs₃⟩ := swap_64_at_spec (show 24 * k + 16 + 8 ≤ b₂.length by rw [hs₂.length, hs₁.length]; omega)
  refine ⟨b₃, ?_, ?_, ?_, fun j m hj => ?_⟩
  · rw [swapItem, sizeof_Elf64_Rela, hb₁]
    dsimp only [Option.bind_eq_bind, Option.bind_some]
    rw [hb₂, Option.bind_some, hb₃]
  · rw [hs₃.length, hs₂.length, hs₁.length]
  · have hoff : BitVec.ofNat 64 (ofLE (slice b₃ (24 * k) 8)) = BitVec.ofNat 64 (ofBE (slice b (24 * k) 8)) := by
      rw [hs₃.other _ _ (by omega), hs₂.other _ _ (by omega), hs₁.value]
    have hinf : BitVec.ofNat 64 (ofLE (slice b₃ (24 * k + 8) 8)) = BitVec.ofNat 64 (ofBE (slice b (24 * k + 8) 8)) := by
      rw [hs₃.other _ _ (by omega), hs₂.value, hs₁.other _ _ (by omega)]
    rw [buffered_input_t.entryAt, sizeof_Elf64_Rela, hoff, hinf, hs₃.value, hs₂.other _ _ (by omega),
      hs₁.other _ _ (by omega), swapped]
  · rw [hs₃.other _ _ (by omega), hs₂.other _ _ (by omega), hs₁.other _ _ (by omega)]

theorem swapItems_spec {max : Nat} (hlen : b.length = 24 * max) (i : Nat) (hi : i ≤ max) :
    ∃ b', swapItems b i = some b' ∧ b'.length = b.length ∧
      (∀ k, k < i → buffered_input_t.entryAt b' k = swapped b k) ∧
      ∀ j m, 24 * i ≤ j → slice b' j m = slice b j m := by
  induction i with
  | zero => exact ⟨b, rfl, rfl, fun k hk => by omega, fun _ _ _ => rfl⟩
  | succ i ih =>
      obtain ⟨b₁, hb₁, hlen₁, hdone, hrest⟩ := ih (by omega)
      obtain ⟨b₂, hb₂, hlen₂, hentry, hother⟩ := swapItem_spec (k := i) (b := b₁) (by rw [hlen₁, hlen]; omega)
      refine ⟨b₂, ?_, hlen₂.trans hlen₁, fun k hk => ?_, fun j m hj => ?_⟩
      · rw [swapItems, hb₁, Option.bind_some, hb₂]
      · by_cases hlast : k = i
        · rw [hlast, hentry, swapped, swapped, hrest _ _ (by omega), hrest _ _ (by omega), hrest _ _ (by omega)]
        · have hk' : k < i := by omega
          rw [← hdone k hk', buffered_input_t.entryAt, buffered_input_t.entryAt, sizeof_Elf64_Rela,
            hother _ _ (by omega), hother _ _ (by omega), hother _ _ (by omega)]
      · rw [hother j m (by omega), hrest j m (by omega)]

/-! ### One batch -/

namespace buffered_input_t
variable {s : buffered_input_t} {max : Nat}

/-- The entry that is delivered for index `j` of the table. It differs from the table's in the addends of 32-bit entries
in the other byte order. -/
def deliveredEntry (s : buffered_input_t) (j : Nat) : elf_rela_t :=
  if s.isize = sizeof_Elf32_Rela ∧ s.reader.is_msb then
    { s.tableEntry j with r_addend := BitVec.ofNat 64 (s.valueAt (s.offset.toNat + 12 * j + 8) 4) }
  else s.tableEntry j

theorem HasEntries.qlread (h : s.HasEntries max) :
    (s.li.qlseek (s.offset + BitVec.ofNat 64 (s.read * s.isize))).2 = true ∧
      ((s.li.qlseek (s.offset + BitVec.ofNat 64 (s.read * s.isize))).1.qlread (max * s.isize)).2 =
        slice s.li.bytes (s.offset.toNat + s.read * s.isize) (max * s.isize) := by
  have hlen := s.li.size_lt
  have hroom := h.room
  rw [Nat.add_mul] at hroom
  have hpos : (s.offset + BitVec.ofNat 64 (s.read * s.isize)).toNat = s.offset.toNat + s.read * s.isize := by
    rw [BitVec.toNat_add, BitVec.toNat_ofNat]
    omega
  rw [linput_t.qlseek, hpos, if_pos (by omega)]
  exact ⟨rfl, rfl⟩

theorem HasEntries.mul_ok (h : s.HasEntries max) : is_mul_ok s.read s.isize = true ∧ is_mul_ok max s.isize = true := by
  have hlen := s.li.size_lt
  have hroom := h.room
  rw [Nat.add_mul] at hroom
  constructor
  · rw [is_mul_ok, decide_eq_true_iff]
    omega
  · rw [is_mul_ok, decide_eq_true_iff]
    omega

theorem HasEntries.store (h : s.HasEntries max) (hbuf : s.buffer.length = 24 * max) :
    ∃ b, LibBuffer.store s.buffer 0 (slice s.li.bytes (s.offset.toNat + s.read * s.isize) (max * s.isize)) = some b ∧
      b.length = 24 * max ∧
      ∀ j m, j + m ≤ max * s.isize → slice b j m = slice s.li.bytes (s.offset.toNat + s.read * s.isize + j) m := by
  have hroom := h.room
  rw [Nat.add_mul] at hroom
  have hdata : (slice s.li.bytes (s.offset.toNat + s.read * s.isize) (max * s.isize)).length = max * s.isize :=
    length_slice (by omega)
  have hsize : max * s.isize ≤ max * 24 := by
    apply Nat.mul_le_mul_left
    obtain h | h := h.isize <;> rw [h] <;> decide
  have hin : 0 + (slice s.li.bytes (s.offset.toNat + s.read * s.isize) (max * s.isize)).length ≤ s.buffer.length := by
    rw [hdata, hbuf]
    omega
  obtain ⟨b, hb⟩ := store_inside hin
  have hsame := slice_store_same hb hin
  rw [hdata] at hsame
  refine ⟨b, hb, (store_length hb).trans hbuf, fun j m hj => ?_⟩
  have hslice := slice_slice (b := b) (i := 0) hj
  rw [Nat.zero_add] at hslice
  rw [← hslice, hsame, slice_slice hj]

theorem read_items_spec (h : s.HasEntries max) (hbuf : s.buffer.length = 24 * max) :
    ∃ b, s.read_items max = some (max, b) ∧ b.length = 24 * max ∧
      ∀ k, k < max → entryAt b k = s.deliveredEntry (s.read + k) := by
  have hroom := h.room
  rw [Nat.add_mul] at hroom
  have hdata : (slice s.li.bytes (s.offset.toNat + s.read * s.isize) (max * s.isize)).length = max * s.isize :=
    length_slice (by omega)
  obtain ⟨b, hb, hlen, hbytes⟩ := h.store hbuf
  have hread : s.read_items max =
      if s.isize = sizeof_Elf32_Rela then (widen s.reader.is_msb max b max).map fun b => (max, b)
      else if s.reader.is_msb then (swapItems b max).map fun b => (max, b)
      else some (max, b) := by
    have hisize : ¬(s.isize ≠ sizeof_Elf32_Rela ∧ s.isize ≠ sizeof_Elf64_Rela) := by
      intro hnot
      exact h.isize.elim hnot.1 hnot.2
    rw [read_items, if_neg hisize, h.mul_ok.1, h.mul_ok.2, if_neg (by decide), h.qlread.1, if_neg (by decide)]
    dsimp only
    rw [h.qlread.2, hb, Option.bind_some, if_neg (not_not.2 hdata)]
  rw [hread]
  by_cases h32 : s.isize = sizeof_Elf32_Rela
  · have hsize : s.isize = 12 := h32
    rw [hsize] at hbytes
    obtain ⟨b', hb', hw⟩ := widen_spec s.reader.is_msb hlen max (Nat.le_refl max)
    rw [if_pos h32, hb', Option.map_some]
    refine ⟨b', rfl, hw.length.trans hlen, fun k hk => ?_⟩
    have hpos : s.offset.toNat + s.read * 12 + 12 * k = s.offset.toNat + 12 * (s.read + k) := by omega
    have hword : ∀ d, d + 4 ≤ 12 →
        slice b (12 * k + d) 4 = slice s.li.bytes (s.offset.toNat + 12 * (s.read + k) + d) 4 := by
      intro d hd
      rw [hbytes _ _ (by omega), ← Nat.add_assoc, hpos]
    rw [hw.done k (by omega) hk, widened, deliveredEntry, tableEntry, if_pos h32, hword 4 (by decide),
      hword 8 (by decide), show 12 * k = 12 * k + 0 from rfl, hword 0 (by decide)]
    cases hmsb : s.reader.is_msb with
    | false => simp [fileWord, valueAt, hmsb]
    | true => simp [fileWord, valueAt, hmsb, h32]
  · have hsize : s.isize = 24 := h.isize.resolve_left h32
    rw [hsize] at hbytes
    rw [if_neg h32]
    have hword : ∀ k d, k < max → d + 8 ≤ 24 →
        slice b (24 * k + d) 8 = slice s.li.bytes (s.offset.toNat + 24 * (s.read + k) + d) 8 := by
      intro k d hk hd
      have hpos : s.offset.toNat + s.read * 24 + 24 * k = s.offset.toNat + 24 * (s.read + k) := by omega
      rw [hbytes _ _ (by omega), ← Nat.add_assoc, hpos]
    have hdelivered : ∀ k, s.deliveredEntry (s.read + k) = s.tableEntry (s.read + k) :=
      fun k => if_neg fun hand => h32 hand.1
    cases hmsb : s.reader.is_msb with
    | false =>
        rw [if_neg (by decide)]
        refine ⟨b, rfl, hlen, fun k hk => ?_⟩
        rw [hdelivered, tableEntry, if_neg h32, entryAt, sizeof_Elf64_Rela, hword k 8 hk (by decide),
          hword k 16 hk (by decide), show 24 * k = 24 * k + 0 from rfl, hword k 0 hk (by decide)]
        simp [valueAt, hmsb]
    | true =>
        obtain ⟨b', hb', hlen', hdone, _⟩ := swapItems_spec hlen max (Nat.le_refl max)
        rw [if_pos rfl, hb', Option.map_some]
        refine ⟨b', rfl, hlen'.trans hlen, fun k hk => ?_⟩
        rw [hdone k hk, hdelivered, tableEntry, if_neg h32, swapped, hword k 8 hk (by decide),
          hword k 16 hk (by decide), show 24 * k = 24 * k + 0 from rfl, hword k 0 hk (by decide)]
        simp [valueAt, hmsb]

theorem length_resize (b : List UInt8) (n : Nat) : (resize b n).length = n := by
  rw [resize, List.length_append, List.length_take, List.length_replicate]
  omega

theorem entries_eq {b : List UInt8} {f : Nat → elf_rela_t} (h : ∀ k, k < max → entryAt b k = f k) :
    entries b max = (List.range max).map f := by
  apply List.map_congr_left
  intro k hk
  exact h k (List.mem_range.1 hk)

theorem refill_spec (h : s.HasEntries max) :
    ∃ s', s.refill max = some (max, s') ∧ s'.read = s.read + max ∧ s'.deliveredEntry = s.deliveredEntry ∧
      (∀ n, s.HasEntries (max + n) → s'.HasEntries n) ∧
      entries s'.buffer max = (List.range max).map fun k => s.deliveredEntry (s.read + k) := by
  obtain ⟨b, hb, _, hentries⟩ := read_items_spec
    (s := { s with buffer := resize s.buffer (sizeof_Elf64_Rela * max) }) ⟨h.isize, h.room⟩ (length_resize _ _)
  refine ⟨{ s with read := s.read + max, buffer := b }, ?_, rfl, rfl, fun n hn => ⟨hn.isize, ?_⟩, entries_eq hentries⟩
  · rw [refill]
    dsimp only
    rw [hb, Option.map_some]
  · have hroom := hn.room
    rwa [← Nat.add_assoc] at hroom

theorem deliver_eq {batches : List Nat} (h : s.HasEntries batches.sum) :
    s.deliver batches = some ((List.range batches.sum).map fun k => s.deliveredEntry (s.read + k)) := by
  induction batches generalizing s with
  | nil => rfl
  | cons left batches ih =>
      rw [List.sum_cons] at h
      have hleft : s.HasEntries left := by
        refine ⟨h.isize, Nat.le_trans (Nat.add_le_add_left (Nat.mul_le_mul_right _ ?_) _) h.room⟩
        omega
      obtain ⟨s', hs', hread, hentry, hnext, hentries⟩ := refill_spec hleft
      rw [deliver, hs', Option.bind_some]
      dsimp only
      rw [ih (hnext _ h), Option.map_some, hentries, hentry, hread, List.sum_cons, List.range_add, List.map_append,
        List.map_map]
      congr 2
      apply List.map_congr_left
      intro k _
      rw [Function.comp_apply, Nat.add_assoc]

theorem valueAt_lt (s : buffered_input_t) (pos : Nat) : s.valueAt pos 4 < 2 ^ 32 := by
  have hlen : (slice s.li.bytes pos 4).length ≤ 4 := List.length_take_le ..
  have hpow := Nat.pow_le_pow_right (show 0 < 256 by decide) hlen
  rw [valueAt]
  split_ifs
  · exact Nat.lt_of_lt_of_le (ofBE_lt _) hpow
  · exact Nat.lt_of_lt_of_le (ofLE_lt _) hpow

theorem ofNat_eq_signExtend {v : Nat} (hv : v < 2 ^ 32) :
    BitVec.ofNat 64 v = (BitVec.ofNat 32 v).signExtend 64 ↔ 0 ≤ ((BitVec.ofNat 32 v).signExtend 64).toInt := by
  have hsign : ((BitVec.ofNat 32 v).signExtend 64).toInt = (BitVec.ofNat 32 v).toInt :=
    BitVec.toInt_signExtend_of_le (by decide)
  have hwide : (BitVec.ofNat 64 v).toInt = v := by
    rw [BitVec.toInt_eq_toNat_of_lt (by rw [BitVec.toNat_ofNat]; omega), BitVec.toNat_ofNat, Nat.mod_eq_of_lt (by omega)]
  rw [← BitVec.toInt_inj, hwide, hsign, BitVec.toInt_eq_toNat_cond, BitVec.toNat_ofNat, Nat.mod_eq_of_lt hv]
  split_ifs <;> omega

theorem deliveredEntry_eq_iff (s : buffered_input_t) (j : Nat) :
    s.deliveredEntry j = s.tableEntry j ↔
      (s.isize = sizeof_Elf32_Rela → s.reader.is_msb = true → 0 ≤ (s.tableEntry j).r_addend.toInt) := by
  rw [deliveredEntry]
  by_cases hswap : s.isize = sizeof_Elf32_Rela ∧ s.reader.is_msb = true
  · have haddend : (s.tableEntry j).r_addend =
        (BitVec.ofNat 32 (s.valueAt (s.offset.toNat + 12 * j + 8) 4)).signExtend 64 := by
      rw [tableEntry, if_pos hswap.1]
    have hsame := ofNat_eq_signExtend (s.valueAt_lt (s.offset.toNat + 12 * j + 8))
    rw [if_pos hswap, elf_rela_t.mk.injEq, haddend]
    constructor
    · intro h _ _
      exact hsame.1 h.2.2
    · intro h
      exact ⟨rfl, rfl, hsame.2 (h hswap.1 hswap.2)⟩
  · rw [if_neg hswap]
    exact iff_of_true rfl fun h32 hmsb => absurd ⟨h32, hmsb⟩ hswap

/-- The entries of the table are delivered, and widening leaves alone what it has still to read. -/
structure ReadsTable (s : buffered_input_t) (batches : List Nat) : Prop where
  delivered : s.deliver batches = some (s.tableEntries s.read batches.sum)
  unread : ∀ swap max b i, b.length = sizeof_Elf64_Rela * max → i ≤ max → ∃ b', widen swap max b i = some b' ∧
    ∀ j m, j + m ≤ sizeof_Elf32_Rela * (max - i) → slice b' j m = slice b j m

/-- The batches deliver the table, except for negative addends of 32-bit entries in the other byte order. -/
theorem readsTable_iff {batches : List Nat} (h : s.HasEntries batches.sum) :
    s.ReadsTable batches ↔ (s.isize = sizeof_Elf32_Rela → s.reader.is_msb = true →
      ∀ j, s.read ≤ j → j < s.read + batches.sum → 0 ≤ (s.tableEntry j).r_addend.toInt) := by
  have hlist : s.deliver batches = some (s.tableEntries s.read batches.sum) ↔
      ∀ k < batches.sum, s.deliveredEntry (s.read + k) = s.tableEntry (s.read + k) := by
    rw [deliver_eq h, Option.some_inj, tableEntries, List.map_inj_left]
    simp only [List.mem_range]
  constructor
  · intro hreads h32 hmsb j hj hlt
    have hentry := hlist.1 hreads.delivered (j - s.read) (by omega)
    rw [Nat.add_sub_cancel' hj] at hentry
    exact (deliveredEntry_eq_iff s j).1 hentry h32 hmsb
  · intro hsigns
    refine ⟨hlist.2 fun k hk => (deliveredEntry_eq_iff s _).2 fun h32 hmsb => ?_, fun swap max b i hlen hi => ?_⟩
    · exact hsigns h32 hmsb _ (Nat.le_add_right _ _) (Nat.add_lt_add_left hk _)
    · obtain ⟨b', hb', hw⟩ := widen_spec swap hlen i hi
      exact ⟨b', hb', hw.unread⟩

/-- A table of one entry of a 32-bit file, with the addend -4, in both byte orders. -/
def plainTable : buffered_input_t :=
  ⟨⟨false, false, 3⟩, ⟨[0x00, 0x10, 0x00, 0x00, 0x06, 0x01, 0x00, 0x00, 0xFC, 0xFF, 0xFF, 0xFF], 0, by decide⟩, 0, 12, [], 0⟩

def swappedTable : buffered_input_t :=
  ⟨⟨false, true, 20⟩, ⟨[0x00, 0x00, 0x10, 0x00, 0x00, 0x00, 0x01, 0x06, 0xFF, 0xFF, 0xFF, 0xFC], 0, by decide⟩, 0, 12, [], 0⟩

theorem readsTable_plain : plainTable.HasEntries [0, 1].sum ∧ plainTable.ReadsTable [0, 1] :=
  ⟨⟨by decide, by decide⟩, (readsTable_iff ⟨by decide, by decide⟩).2 fun _ hmsb => nomatch hmsb⟩

/-- The addend arrives as 4294967292. -/
theorem not_readsTable_swapped :
    swappedTable.HasEntries [1].sum ∧ swappedTable.tableEntries 0 1 = [⟨0x1000, 0x106, -4⟩] ∧
      swappedTable.deliver [1] = some [⟨0x1000, 0x106, 0xFFFFFFFC⟩] ∧ ¬swappedTable.ReadsTable [1] := by
  have hdeliver : swappedTable.deliver [1] = some [⟨0x1000, 0x106, 0xFFFFFFFC⟩] := by decide +kernel
  refine ⟨⟨by decide, by decide⟩, by decide +kernel, hdeliver, fun h => ?_⟩
  have hsame := hdeliver.symm.trans h.delivered
  exact absurd hsame (by decide +kernel)

end buffered_input_t
end IdaSdk.Elf
