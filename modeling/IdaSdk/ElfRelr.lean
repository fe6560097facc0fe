import IdaSdk.ElfRelInfo

/-!
Packed relative relocations. A section is a sequence of words, addresses and bitmaps; the decoder keeps the running base
in 64 bits whatever the class of the file is.
-/

namespace IdaSdk.Elf
open Words

/-- The count, when the file has room for so many elements, or else the greatest count it has room for. -/
def _validate_array_count (li : linput_t) (cnt elsize : Nat) (current_offset : BitVec 64) : Bool × Nat :=
  let current : Int := if current_offset.toInt = -1 then li.pos else current_offset.toInt
  let rest : Int := li.bytes.length - current
  if 0 ≤ current ∧ 0 ≤ rest then
    if elsize * cnt < 2 ^ 64 ∧ ((elsize * cnt : Nat) : Int) ≤ rest then (true, cnt) else (false, (rest / elsize).toNat)
  else (false, 0)

/-- A smaller count is taken only if the user wants to go on. Otherwise the loader stops. -/
def validate_array_count (li : linput_t) (cnt elsize : Nat) (curoff : BitVec 64) (yes : Bool) : Option Nat :=
  if (_validate_array_count li cnt elsize curoff).1 || yes then some (_validate_array_count li cnt elsize curoff).2
  else none

def is_add_ok (x y : Nat) : Bool := x + y < 2 ^ 64

namespace reader_t
variable (reader : reader_t) (relative_type : BitVec 32)

def relrReloc (r_offset : BitVec 64) : elf_rela_t :=
  reader.set_rel_info_type { elf_rela_t.init with r_offset := r_offset, r_addend := 0 } relative_type

/-- The relocations of a bitmap, appended to the output. -/
def decodeBitmap (base bitmap : BitVec 64) (out : List elf_rela_t) : List elf_rela_t :=
  (List.range (reader.elf_addr * 8 - 1)).foldl (fun out bit =>
    if bitmap &&& (1#64 <<< bit) ≠ 0 then
      out ++ [reader.relrReloc relative_type (base + BitVec.ofNat 64 (bit * reader.elf_addr))]
    else out) out

/-- The loop over the words that are left. An error clears the output. -/
def decodeWords : Nat → linput_t → BitVec 64 → List elf_rela_t → Bool × List elf_rela_t
  | 0, _, _, out => (true, out)
  | n + 1, li, base, out =>
    match reader.read_addr li with
    | none => (false, [])
    | some (value, li) =>
      let entry := BitVec.ofNat 64 value
      if entry &&& 1 = 0 then
        let out := out ++ [reader.relrReloc relative_type entry]
        if !is_add_ok entry.toNat reader.elf_addr then (false, [])
        else decodeWords n li (entry + BitVec.ofNat 64 reader.elf_addr) out
      else if base = 0 then (false, [])
      else
        let out := reader.decodeBitmap relative_type base (entry >>> 1) out
        let delta := (reader.elf_addr * 8 - 1) * reader.elf_addr
        if !is_add_ok base.toNat delta then (false, [])
        else decodeWords n li (base + BitVec.ofNat 64 delta) out

/-- No result is a loader that has stopped. -/
def decode_relr (li : linput_t) (offset size : BitVec 64) (yes : Bool) : Option (Bool × List elf_rela_t) :=
  if size = 0 ∨ size.toNat % reader.elf_addr ≠ 0 then some (false, [])
  else
    match validate_array_count li (size.toNat / reader.elf_addr) reader.elf_addr offset yes with
    | none => none
    | some count =>
      if count = 0 then some (false, [])
      else some (reader.decodeWords relative_type count (li.qlseek offset).1 0 [])

end reader_t

namespace Relr
variable (wordsize : Nat)

variable (base : Option Nat)

/-- What one word denotes, after words that left the base where it is. -/
def wordAddresses (word : Nat) : Option (List Nat) :=
  if word % 2 = 0 then some [word]
  else base.map fun b =>
    ((List.range (wordsize * 8 - 1)).filter fun k => word.testBit (k + 1)).map fun k => b + k * wordsize

def nextBase (word : Nat) : Option Nat :=
  if word % 2 = 0 then some (word + wordsize) else base.map fun b => b + (wordsize * 8 - 1) * wordsize

/-- The addresses of a sequence of words, in order. A bitmap before the first address denotes nothing. -/
def denote : Option Nat → List Nat → Option (List Nat)
  | _, [] => some []
  | base, word :: words =>
    (wordAddresses wordsize base word).bind fun xs => (denote (nextBase wordsize base word) words).map fun ys => xs ++ ys

def bases : Option Nat → List Nat → List Nat
  | _, [] => []
  | base, word :: words => (nextBase wordsize base word).toList ++ bases (nextBase wordsize base word) words

/-- What the words denote, provided no base is beyond 64 bits. -/
def denote64 (words : List Nat) : Option (List Nat) :=
  if ∀ b ∈ bases wordsize base words, b < 2 ^ 64 then denote wordsize base words else none

variable {wordsize}

theorem bases_cons_lt {base : Option Nat} {word : Nat} {words : List Nat} :
    (∀ b ∈ bases wordsize base (word :: words), b < 2 ^ 64) ↔
      (∀ b ∈ nextBase wordsize base word, b < 2 ^ 64) ∧
        ∀ b ∈ bases wordsize (nextBase wordsize base word) words, b < 2 ^ 64 := by
  simp only [bases, List.mem_append, Option.mem_toList, Option.mem_def, or_imp, forall_and]

theorem denote64_cons (word : Nat) (words : List Nat) :
    denote64 wordsize base (word :: words) =
      (wordAddresses wordsize base word).bind fun xs =>
        if ∀ b ∈ nextBase wordsize base word, b < 2 ^ 64 then
          (denote64 wordsize (nextBase wordsize base word) words).map fun ys => xs ++ ys
        else none := by
  rw [denote64, denote64, denote]
  by_cases hnext : ∀ b ∈ nextBase wordsize base word, b < 2 ^ 64
  · by_cases hrest : ∀ b ∈ bases wordsize (nextBase wordsize base word) words, b < 2 ^ 64
    · rw [if_pos (bases_cons_lt.2 ⟨hnext, hrest⟩), if_pos hrest]
      simp only [if_pos hnext]
    · rw [if_neg fun hall => hrest (bases_cons_lt.1 hall).2, if_neg hrest]
      simp only [Option.map_none, ite_self, Option.bind_fun_none]
  · rw [if_neg fun hall => hnext (bases_cons_lt.1 hall).1]
    simp only [if_neg hnext, Option.bind_fun_none]

end Relr

namespace reader_t
variable (reader : reader_t)

def wordAt (bytes : List UInt8) (pos : Nat) : Nat :=
  if reader.is_msb then ofBE ((bytes.drop pos).take reader.elf_addr) else ofLE ((bytes.drop pos).take reader.elf_addr)

def wordsAt (bytes : List UInt8) : Nat → Nat → List Nat
  | 0, _ => []
  | n + 1, pos => reader.wordAt bytes pos :: wordsAt bytes n (pos + reader.elf_addr)

variable {reader}

theorem elf_addr_cases (reader : reader_t) : reader.elf_addr = 4 ∨ reader.elf_addr = 8 := by
  rw [elf_addr]
  split_ifs
  · exact Or.inr rfl
  · exact Or.inl rfl

variable {li : linput_t}

theorem read_addr_eq (h : li.pos + reader.elf_addr ≤ li.bytes.length) :
    reader.read_addr li =
      some (reader.wordAt li.bytes li.pos, ⟨li.bytes, li.pos + reader.elf_addr, li.size_lt⟩) := by
  have hlen : ((li.bytes.drop li.pos).take reader.elf_addr).length = reader.elf_addr := by
    rw [List.length_take, List.length_drop]
    omega
  rw [read_addr, safe_read, linput_t.qlread, if_pos hlen]
  dsimp only
  rw [hlen, wordAt]

theorem wordAt_lt (reader : reader_t) (bytes : List UInt8) (pos : Nat) :
    reader.wordAt bytes pos < 256 ^ reader.elf_addr := by
  have hlen : ((bytes.drop pos).take reader.elf_addr).length ≤ reader.elf_addr := List.length_take_le ..
  have hpow := Nat.pow_le_pow_right (show 0 < 256 by decide) hlen
  rw [wordAt]
  split_ifs
  · exact Nat.lt_of_lt_of_le (ofBE_lt _) hpow
  · exact Nat.lt_of_lt_of_le (ofLE_lt _) hpow

/-! ### One word -/

theorem two_pow_wordsize (reader : reader_t) : 256 ^ reader.elf_addr ≤ 2 ^ 64 := by
  obtain h | h := elf_addr_cases reader <;> rw [h] <;> decide

variable {word : Nat}

theorem and_one_eq_zero : BitVec.ofNat 64 word &&& 1 = 0 ↔ word % 2 = 0 := by
  have hone : (1 : BitVec 64).toNat = 1 := rfl
  have hzero : (0 : BitVec 64).toNat = 0 := rfl
  rw [← BitVec.toNat_inj, BitVec.toNat_and, BitVec.toNat_ofNat, hone, hzero, Nat.and_one_is_mod]
  omega

theorem bitmap_and_ne_zero {bit : Nat} (hbit : bit < 63) :
    (BitVec.ofNat 64 word >>> 1) &&& (1#64 <<< bit) ≠ 0 ↔ word.testBit (bit + 1) = true := by
  have hpow : 1#64 <<< bit = BitVec.twoPow 64 bit := rfl
  have hbit' : (BitVec.ofNat 64 word >>> 1).getLsbD bit = word.testBit (bit + 1) := by
    rw [BitVec.getLsbD_ushiftRight, BitVec.getLsbD_ofNat, Nat.add_comm 1 bit]
    simp [show bit + 1 < 64 by omega]
  have hne : BitVec.twoPow 64 bit ≠ 0 := by
    intro hzero
    have hget := congrArg (fun x => x.getLsbD bit) hzero
    simp [show bit < 64 by omega] at hget
  rw [hpow, BitVec.and_twoPow, hbit']
  cases word.testBit (bit + 1) with
  | true => exact iff_of_true hne rfl
  | false => exact iff_of_false (fun h => h rfl) Bool.false_ne_true

theorem foldl_append_if {α β : Type} {p : α → Prop} [DecidablePred p] {f : α → β} (xs : List α) (out : List β) :
    xs.foldl (fun out x => if p x then out ++ [f x] else out) out = out ++ (xs.filter p).map f := by
  induction xs generalizing out with
  | nil => simp
  | cons x xs ih =>
      rw [List.foldl_cons, ih]
      by_cases hx : p x
      · simp [hx]
      · simp [hx]

/-- The base as the decoder keeps it: zero stands for none. -/
structure Tracks (base : BitVec 64) (b : Option Nat) : Prop where
  value : base = BitVec.ofNat 64 (b.getD 0)
  bound : ∀ x ∈ b, 0 < x ∧ x < 2 ^ 64

variable {relative_type : BitVec 32}

def relrRelocs (reader : reader_t) (relative_type : BitVec 32) (addresses : List Nat) : List elf_rela_t :=
  addresses.map fun a => reader.relrReloc relative_type (BitVec.ofNat 64 a)

theorem decodeBitmap_eq (b word : Nat) (out : List elf_rela_t) :
    reader.decodeBitmap relative_type (BitVec.ofNat 64 b) (BitVec.ofNat 64 word >>> 1) out =
      out ++ reader.relrRelocs relative_type
        (((List.range (reader.elf_addr * 8 - 1)).filter fun k => word.testBit (k + 1)).map
          fun k => b + k * reader.elf_addr) := by
  have hfilter : ∀ k ∈ List.range (reader.elf_addr * 8 - 1),
      decide ((BitVec.ofNat 64 word >>> 1) &&& (1#64 <<< k) ≠ 0) = word.testBit (k + 1) := by
    intro k hk
    have hbit : k < 63 := by
      have hlt := List.mem_range.1 hk
      obtain h | h := elf_addr_cases reader <;> omega
    rw [Bool.eq_iff_iff, decide_eq_true_iff]
    exact bitmap_and_ne_zero hbit
  rw [decodeBitmap, foldl_append_if, List.filter_congr hfilter, relrRelocs, List.map_map]
  congr 2
  funext k
  rw [Function.comp_apply, BitVec.ofNat_add]

open Relr

theorem Tracks.base_eq_zero {base : BitVec 64} {b : Option Nat} (h : Tracks base b) : base = 0 ↔ b = none := by
  cases b with
  | none => exact iff_of_true h.value rfl
  | some x =>
      have hx := h.bound x rfl
      refine iff_of_false (fun hzero => ?_) (fun hnone => nomatch hnone)
      have hval := congrArg BitVec.toNat (h.value.symm.trans hzero)
      have hz : (0 : BitVec 64).toNat = 0 := rfl
      rw [Option.getD_some, BitVec.toNat_ofNat, hz] at hval
      omega

variable {x y : Nat}

theorem not_is_add_ok : (!is_add_ok x y) = true ↔ ¬x + y < 2 ^ 64 := by
  rw [is_add_ok, Bool.not_eq_true', decide_eq_false_iff_not]

theorem Tracks.add (hy : 0 < y) (h : x + y < 2 ^ 64) :
    Tracks (BitVec.ofNat 64 x + BitVec.ofNat 64 y) (some (x + y)) := by
  refine ⟨(BitVec.ofNat_add x y).symm, fun z hz => ?_⟩
  have hz' : x + y = z := Option.some.inj hz
  omega

variable {words : List Nat} {n : Nat}

theorem decodeWords_next (xs : List Nat) (out : List elf_rela_t)
    (hrest : ∀ base b out, Tracks base b → reader.decodeWords relative_type n li base out =
      (denote64 reader.elf_addr b words).elim (false, [])
        fun addresses => (true, out ++ reader.relrRelocs relative_type addresses)) (hy : 0 < y) :
    (if !is_add_ok x y then (false, [])
      else reader.decodeWords relative_type n li (BitVec.ofNat 64 x + BitVec.ofNat 64 y)
        (out ++ reader.relrRelocs relative_type xs)) =
      (if ∀ b ∈ some (x + y), b < 2 ^ 64 then
          (denote64 reader.elf_addr (some (x + y)) words).map fun ys => xs ++ ys
        else none).elim (false, []) fun addresses => (true, out ++ reader.relrRelocs relative_type addresses) := by
  by_cases hlt : x + y < 2 ^ 64
  · have hall : ∀ b ∈ some (x + y), b < 2 ^ 64 := fun b hb => (Option.some.inj hb) ▸ hlt
    rw [if_neg fun h => not_is_add_ok.1 h hlt, if_pos hall, hrest _ _ _ (Tracks.add hy hlt)]
    cases denote64 reader.elf_addr (some (x + y)) words with
    | none => rfl
    | some addresses => simp only [Option.map_some, Option.elim_some, relrRelocs, List.map_append, List.append_assoc]
  · have hall : ¬∀ b ∈ some (x + y), b < 2 ^ 64 := fun h => hlt (h _ rfl)
    rw [if_pos (not_is_add_ok.2 hlt), if_neg hall, Option.elim_none]

theorem decodeWords_eq (n : Nat) (li : linput_t) (hroom : li.pos + n * reader.elf_addr ≤ li.bytes.length)
    (base : BitVec 64) (b : Option Nat) (out : List elf_rela_t) (hbase : Tracks base b) :
    reader.decodeWords relative_type n li base out =
      (denote64 reader.elf_addr b (reader.wordsAt li.bytes n li.pos)).elim (false, [])
        fun addresses => (true, out ++ reader.relrRelocs relative_type addresses) := by
  induction n generalizing li base b out with
  | zero => simp [decodeWords, wordsAt, denote64, denote, bases, relrRelocs]
  | succ n ih =>
      rw [Nat.succ_mul] at hroom
      have hws : 0 < reader.elf_addr := by obtain h | h := elf_addr_cases reader <;> omega
      have hword : reader.wordAt li.bytes li.pos < 2 ^ 64 :=
        Nat.lt_of_lt_of_le (wordAt_lt reader _ _) (two_pow_wordsize reader)
      have hnext : li.pos + reader.elf_addr + n * reader.elf_addr ≤ li.bytes.length := by omega
      have hrest := ih ⟨li.bytes, li.pos + reader.elf_addr, li.size_lt⟩ hnext
      rw [decodeWords, read_addr_eq (by omega), wordsAt, denote64_cons]
      generalize reader.wordAt li.bytes li.pos = word at hword ⊢
      dsimp only at hrest ⊢
      by_cases heven : word % 2 = 0
      · have haddr : wordAddresses reader.elf_addr b word = some [word] := if_pos heven
        have hbnext : nextBase reader.elf_addr b word = some (word + reader.elf_addr) := if_pos heven
        rw [if_pos (and_one_eq_zero.2 heven), haddr, hbnext, Option.bind_some, BitVec.toNat_ofNat,
          Nat.mod_eq_of_lt hword]
        exact decodeWords_next [word] out hrest hws
      · rw [if_neg fun h => heven (and_one_eq_zero.1 h), wordAddresses, if_neg heven, nextBase, if_neg heven]
        cases b with
        | none =>
            -- a bitmap before the first address
            rw [if_pos (hbase.base_eq_zero.2 rfl)]
            rfl
        | some b =>
            have hb := hbase.bound b rfl
            have hval : base = BitVec.ofNat 64 b := hbase.value
            have hdelta : 0 < (reader.elf_addr * 8 - 1) * reader.elf_addr := by
              apply Nat.mul_pos
              · omega
              · exact hws
            have hne : base ≠ 0 := fun h => nomatch hbase.base_eq_zero.1 h
            rw [if_neg hne, Option.map_some, Option.map_some, Option.bind_some,
              hval, decodeBitmap_eq, BitVec.toNat_ofNat, Nat.mod_eq_of_lt hb.2]
            exact decodeWords_next _ out hrest hdelta

/-! ### The section -/

/-- Where the words are read from: the offset of all ones stands for the current position. -/
def relrStart (li : linput_t) (offset : BitVec 64) : Nat := if offset.toInt = -1 then li.pos else offset.toNat

/-- The words of the section, as far as the file has them. -/
def relrWords (reader : reader_t) (li : linput_t) (offset size : BitVec 64) : List Nat :=
  reader.wordsAt li.bytes
    (min (size.toNat / reader.elf_addr) ((li.bytes.length - relrStart li offset) / reader.elf_addr)) (relrStart li offset)

theorem current_cases (li : linput_t) (offset : BitVec 64) :
    (if offset.toInt = -1 then (li.pos : Int) else offset.toInt) = (relrStart li offset : Nat) ∨
      ((if offset.toInt = -1 then (li.pos : Int) else offset.toInt) < 0 ∧ li.bytes.length ≤ relrStart li offset) := by
  have hlen := li.size_lt
  have hint := BitVec.toInt_eq_toNat_cond offset
  rw [relrStart]
  by_cases hall : offset.toInt = -1
  · rw [if_pos hall, if_pos hall]
    exact Or.inl rfl
  · rw [if_neg hall, if_neg hall]
    split_ifs at hint
    · exact Or.inl hint
    · refine Or.inr ⟨?_, ?_⟩ <;> omega

theorem _validate_array_count_eq {cnt elsize : Nat} (offset : BitVec 64) (hpos : 0 < cnt)
    (hsize : 0 < elsize) (hmul : elsize * cnt < 2 ^ 64) :
    _validate_array_count li cnt elsize offset =
      (decide (elsize * cnt ≤ li.bytes.length - relrStart li offset),
        min cnt ((li.bytes.length - relrStart li offset) / elsize)) := by
  have hprod : 0 < elsize * cnt := Nat.mul_pos hsize hpos
  have hcurrent := current_cases li offset
  rw [_validate_array_count]
  generalize (if offset.toInt = -1 then (li.pos : Int) else offset.toInt) = current at hcurrent ⊢
  generalize relrStart li offset = start at hcurrent ⊢
  obtain rfl | ⟨hneg, hstart⟩ := hcurrent
  · by_cases hle : start ≤ li.bytes.length
    · have hrest : (li.bytes.length : Int) - (start : Int) = ((li.bytes.length - start : Nat) : Int) := by omega
      rw [hrest, if_pos ⟨Int.natCast_nonneg _, Int.natCast_nonneg _⟩]
      by_cases hfits : elsize * cnt ≤ li.bytes.length - start
      · have hmin : cnt ≤ (li.bytes.length - start) / elsize := by
          rw [Nat.le_div_iff_mul_le hsize, Nat.mul_comm]
          exact hfits
        rw [if_pos ⟨hmul, Int.ofNat_le.2 hfits⟩, decide_eq_true hfits, Nat.min_eq_left hmin]
      · have hmin : (li.bytes.length - start) / elsize ≤ cnt := by
          apply Nat.le_of_lt
          rw [Nat.div_lt_iff_lt_mul hsize, Nat.mul_comm]
          omega
        rw [if_neg fun h => hfits (Int.ofNat_le.1 h.2), decide_eq_false hfits, Nat.min_eq_right hmin]
        rfl
    · have hzero : li.bytes.length - start = 0 := by omega
      rw [if_neg fun h => by omega, hzero, Nat.zero_div, Nat.min_zero, decide_eq_false (by omega)]
  · have hzero : li.bytes.length - start = 0 := by omega
    rw [if_neg fun h => by omega, hzero, Nat.zero_div, Nat.min_zero, decide_eq_false (by omega)]

/-- The relocations of a decoded section. -/
structure RelrDecoded (reader : reader_t) (relative_type : BitVec 32) (words : List Nat) (out : List elf_rela_t) :
    Prop where
  addresses : denote reader.elf_addr none words = some (out.map fun r => r.r_offset.toNat)
  type : ∀ r ∈ out, reader.rel_info_type r = relative_type
  index : ∀ r ∈ out, reader.rel_info_index r = 0
  addend : ∀ r ∈ out, r.r_addend = 0
  inside : ∀ r ∈ out, r.r_offset.toNat < 256 ^ reader.elf_addr

/-- A failure leaves nothing in the output, and success leaves what the words denote. -/
def RelrFaithful (reader : reader_t) (relative_type : BitVec 32) (words : List Nat)
    (result : Option (Bool × List elf_rela_t)) : Prop :=
  ∀ ok out, result = some (ok, out) → (ok = false ∧ out = []) ∨ (ok = true ∧ RelrDecoded reader relative_type words out)

/-- The section is turned away before its words are looked at: the size is not that of words, or the file is too short
and the user does not go on. -/
def RelrTurnedAway (reader : reader_t) (li : linput_t) (offset size : BitVec 64) (yes : Bool) : Prop :=
  size.toNat % reader.elf_addr ≠ 0 ∨ (yes = false ∧ li.bytes.length - relrStart li offset < size.toNat)

variable {offset : BitVec 64}

theorem qlseek_start (h : relrStart li offset < li.bytes.length) :
    (li.qlseek offset).1 = ⟨li.bytes, relrStart li offset, li.size_lt⟩ := by
  have hlen := li.size_lt
  have hint := BitVec.toInt_eq_toNat_cond offset
  rw [linput_t.qlseek]
  by_cases hall : offset.toInt = -1
  · have hneg : ¬offset.toNat < 2 ^ 63 := by
      split_ifs at hint <;> omega
    rw [if_neg hneg, relrStart, if_pos hall]
  · rw [relrStart, if_neg hall] at h ⊢
    rw [if_pos (by omega)]

theorem wordsAt_eq_nil {bytes : List UInt8} {pos : Nat} : reader.wordsAt bytes n pos = [] ↔ n = 0 := by
  cases n with
  | zero => exact iff_of_true rfl rfl
  | succ n => exact iff_of_false (List.cons_ne_nil _ _) (Nat.succ_ne_zero n)

theorem decode_relr_eq {size : BitVec 64} {yes : Bool}
    (h : ¬RelrTurnedAway reader li offset size yes) :
    reader.decode_relr relative_type li offset size yes =
      if relrWords reader li offset size = [] then some (false, [])
      else some ((denote64 reader.elf_addr none (relrWords reader li offset size)).elim (false, [])
        fun addresses => (true, reader.relrRelocs relative_type addresses)) := by
  rw [RelrTurnedAway, not_or, not_not] at h
  have hws : 0 < reader.elf_addr := by obtain h | h := elf_addr_cases reader <;> omega
  have hmul : reader.elf_addr * (size.toNat / reader.elf_addr) = size.toNat :=
    Nat.mul_div_cancel' (Nat.dvd_of_mod_eq_zero h.1)
  rw [decode_relr, relrWords]
  simp only [wordsAt_eq_nil]
  by_cases hzero : size = 0
  · have hcount : min (size.toNat / reader.elf_addr) ((li.bytes.length - relrStart li offset) / reader.elf_addr) = 0 := by
      have hz : size.toNat = 0 := by rw [hzero]; rfl
      rw [hz, Nat.zero_div, Nat.zero_min]
    rw [if_pos (Or.inl hzero), if_pos hcount]
  · have hpos : 0 < size.toNat / reader.elf_addr := by
      apply Nat.pos_of_ne_zero
      intro hz
      rw [hz, Nat.mul_zero] at hmul
      exact hzero (BitVec.eq_of_toNat_eq hmul.symm)
    have hvalid : validate_array_count li (size.toNat / reader.elf_addr) reader.elf_addr offset yes =
        some (min (size.toNat / reader.elf_addr) ((li.bytes.length - relrStart li offset) / reader.elf_addr)) := by
      rw [validate_array_count, _validate_array_count_eq offset hpos hws (by omega), if_pos]
      cases yes with
      | true => exact Bool.or_true _
      | false =>
          rw [Bool.or_false, decide_eq_true_iff, hmul]
          exact Nat.le_of_not_lt fun hlt => h.2 ⟨rfl, hlt⟩
    rw [if_neg fun hor => hor.elim hzero fun hmod => hmod h.1, hvalid]
    dsimp only
    generalize hcount : min (size.toNat / reader.elf_addr) ((li.bytes.length - relrStart li offset) / reader.elf_addr) =
      count
    by_cases hnone : count = 0
    · rw [if_pos hnone, if_pos hnone]
    have hle : count * reader.elf_addr ≤ li.bytes.length - relrStart li offset := by
      apply (Nat.le_div_iff_mul_le hws).1
      rw [← hcount]
      exact Nat.min_le_right _ _
    have hprod : 0 < count * reader.elf_addr := Nat.mul_pos (Nat.pos_of_ne_zero hnone) hws
    have hroom : relrStart li offset + count * reader.elf_addr ≤ li.bytes.length := by omega
    rw [if_neg hnone, if_neg hnone, qlseek_start (by omega),
      decodeWords_eq count ⟨li.bytes, relrStart li offset, li.size_lt⟩ hroom 0 none []
        ⟨rfl, fun x hx => nomatch hx⟩]
    simp only [List.nil_append]

theorem relrFaithful_of_turnedAway {size : BitVec 64} {yes : Bool} (words : List Nat)
    (h : RelrTurnedAway reader li offset size yes) :
    RelrFaithful reader relative_type words (reader.decode_relr relative_type li offset size yes) := by
  have hws : 0 < reader.elf_addr := by obtain h | h := elf_addr_cases reader <;> omega
  intro ok out hresult
  rw [decode_relr] at hresult
  split_ifs at hresult with hbad
  · cases hresult
    exact Or.inl ⟨rfl, rfl⟩
  rw [not_or, not_not] at hbad
  obtain ⟨hyes, hshort⟩ := h.resolve_left fun hmod => hmod hbad.2
  have hmul : reader.elf_addr * (size.toNat / reader.elf_addr) = size.toNat :=
    Nat.mul_div_cancel' (Nat.dvd_of_mod_eq_zero hbad.2)
  have hpos : 0 < size.toNat / reader.elf_addr := by
    apply Nat.pos_of_ne_zero
    intro hz
    rw [hz, Nat.mul_zero] at hmul
    omega
  have hstop : validate_array_count li (size.toNat / reader.elf_addr) reader.elf_addr offset yes = none := by
    rw [validate_array_count, _validate_array_count_eq offset hpos hws (by omega), hyes, hmul,
      decide_eq_false (by omega)]
    rfl
  rw [hstop] at hresult
  cases hresult

/-! ### Whether the decoder is right -/

theorem wordsAt_lt {bytes : List UInt8} {pos : Nat} : ∀ w ∈ reader.wordsAt bytes n pos, w < 2 ^ 64 := by
  induction n generalizing pos with
  | zero => exact fun w hw => nomatch hw
  | succ n ih =>
      intro w hw
      obtain rfl | hrest := List.mem_cons.1 hw
      · exact Nat.lt_of_lt_of_le (wordAt_lt reader _ _) (two_pow_wordsize reader)
      · exact ih w hrest

theorem wordAddresses_lt {base : Option Nat} {xs : List Nat} (hword : word < 2 ^ 64)
    (hnext : ∀ b ∈ nextBase reader.elf_addr base word, b < 2 ^ 64)
    (h : wordAddresses reader.elf_addr base word = some xs) : ∀ a ∈ xs, a < 2 ^ 64 := by
  intro a ha
  rw [wordAddresses] at h
  rw [nextBase] at hnext
  split_ifs at h hnext
  · cases h
    rwa [List.mem_singleton.1 ha]
  cases base with
  | none => cases h
  | some b =>
      cases h
      obtain ⟨k, hk, rfl⟩ := List.mem_map.1 ha
      have hlt := List.mem_range.1 (List.mem_filter.1 hk).1
      have hb : b + (reader.elf_addr * 8 - 1) * reader.elf_addr < 2 ^ 64 := hnext _ rfl
      have hmul : k * reader.elf_addr ≤ (reader.elf_addr * 8 - 1) * reader.elf_addr :=
        Nat.mul_le_mul_right _ (Nat.le_of_lt hlt)
      omega

variable {addresses : List Nat}

theorem denote64_lt (hwords : ∀ w ∈ words, w < 2 ^ 64) {base : Option Nat}
    (h : denote64 reader.elf_addr base words = some addresses) : ∀ a ∈ addresses, a < 2 ^ 64 := by
  induction words generalizing base addresses with
  | nil =>
      rw [denote64, denote] at h
      split_ifs at h
      cases h
      exact fun a ha => nomatch ha
  | cons word words ih =>
      rw [denote64_cons] at h
      obtain ⟨xs, hxs, h⟩ := Option.bind_eq_some_iff.1 h
      split_ifs at h with hnext
      obtain ⟨ys, hys, rfl⟩ := Option.map_eq_some_iff.1 h
      have hword := hwords word (List.mem_cons_self ..)
      intro a ha
      obtain hx | hy := List.mem_append.1 ha
      · exact wordAddresses_lt hword hnext hxs a hx
      · exact ih (fun w hw => hwords w (List.mem_cons_of_mem _ hw)) hys a hy

theorem relrReloc_offset (reader : reader_t) (r_offset : BitVec 64) :
    (reader.relrReloc relative_type r_offset).r_offset = r_offset := by
  rw [relrReloc, set_rel_info_type]
  split_ifs <;> rfl

theorem relrReloc_addend (reader : reader_t) (r_offset : BitVec 64) :
    (reader.relrReloc relative_type r_offset).r_addend = 0 := by
  rw [relrReloc, set_rel_info_type]
  split_ifs <;> rfl

theorem relrRelocs_offsets (h : ∀ a ∈ addresses, a < 2 ^ 64) :
    (reader.relrRelocs relative_type addresses).map (fun r => r.r_offset.toNat) = addresses := by
  rw [relrRelocs, List.map_map]
  conv_rhs => rw [← List.map_id addresses]
  apply List.map_congr_left
  intro a ha
  rw [Function.comp_apply, relrReloc_offset, BitVec.toNat_ofNat, Nat.mod_eq_of_lt (h a ha), id]

theorem relrDecoded_iff (htype : reader.is_64 = false → relative_type.toNat < 2 ^ 8)
    (hlt : ∀ a ∈ addresses, a < 2 ^ 64) (hdenote : denote reader.elf_addr none words = some addresses) :
    RelrDecoded reader relative_type words (reader.relrRelocs relative_type addresses) ↔
      ∀ a ∈ addresses, a < 256 ^ reader.elf_addr := by
  have hoffsets : (reader.relrRelocs relative_type addresses).map (fun r => r.r_offset.toNat) = addresses :=
    relrRelocs_offsets hlt
  constructor
  · intro h a ha
    rw [← hoffsets] at ha
    obtain ⟨r, hr, rfl⟩ := List.mem_map.1 ha
    exact h.inside r hr
  · intro h
    have hreloc : ∀ r ∈ reader.relrRelocs relative_type addresses, ∃ a ∈ addresses,
        r = reader.relrReloc relative_type (BitVec.ofNat 64 a) := by
      intro r hr
      obtain ⟨a, ha, rfl⟩ := List.mem_map.1 hr
      exact ⟨a, ha, rfl⟩
    refine ⟨?_, ?_, ?_, ?_, ?_⟩
    · rw [hoffsets, hdenote]
    · intro r hr
      obtain ⟨a, _, rfl⟩ := hreloc r hr
      exact (set_rel_info_type_fresh _ htype).1
    · intro r hr
      obtain ⟨a, _, rfl⟩ := hreloc r hr
      exact (set_rel_info_type_fresh _ htype).2
    · intro r hr
      obtain ⟨a, _, rfl⟩ := hreloc r hr
      exact relrReloc_addend reader _
    · intro r hr
      obtain ⟨a, ha, rfl⟩ := hreloc r hr
      rw [relrReloc_offset, BitVec.toNat_ofNat, Nat.mod_eq_of_lt (hlt a ha)]
      exact h a ha

/-- The addresses, so long as the class has them all. In the 64-bit class the checks of the base see to that; in the
32-bit class they come too late. -/
theorem decode_relr_iff {li : linput_t} {offset size : BitVec 64} {yes : Bool}
    (htype : reader.is_64 = false → relative_type.toNat < 2 ^ 8) :
    RelrFaithful reader relative_type (relrWords reader li offset size)
        (reader.decode_relr relative_type li offset size yes) ↔
      reader.is_64 = true ∨ RelrTurnedAway reader li offset size yes ∨
        (∃ b ∈ bases reader.elf_addr none (relrWords reader li offset size), 2 ^ 64 ≤ b) ∨
        ∀ addresses, denote reader.elf_addr none (relrWords reader li offset size) = some addresses →
          ∀ a ∈ addresses, a < 2 ^ 32 := by
  by_cases haway : RelrTurnedAway reader li offset size yes
  · exact iff_of_true (relrFaithful_of_turnedAway _ haway) (Or.inr (Or.inl haway))
  have hwords : ∀ w ∈ relrWords reader li offset size, w < 2 ^ 64 := wordsAt_lt
  rw [decode_relr_eq haway]
  generalize relrWords reader li offset size = words at hwords ⊢
  by_cases hnil : words = []
  · rw [if_pos hnil, hnil]
    refine iff_of_true (fun ok out h => ?_) (Or.inr (Or.inr (Or.inr fun addresses h => ?_)))
    · cases h
      exact Or.inl ⟨rfl, rfl⟩
    · cases h
      exact fun a ha => nomatch ha
  · rw [if_neg hnil]
    cases hdenote : denote64 reader.elf_addr none words with
    | none =>
        refine iff_of_true (fun ok out h => ?_) (Or.inr (Or.inr ?_))
        · cases h
          exact Or.inl ⟨rfl, rfl⟩
        rw [denote64] at hdenote
        split_ifs at hdenote with hbases
        · exact Or.inr fun addresses h => nomatch hdenote.symm.trans h
        · rw [not_forall] at hbases
          obtain ⟨b, hb⟩ := hbases
          rw [Classical.not_imp] at hb
          exact Or.inl ⟨b, hb.1, Nat.le_of_not_lt hb.2⟩
    | some addresses =>
        have hlt := denote64_lt hwords hdenote
        rw [denote64] at hdenote
        split_ifs at hdenote with hbases
        have hfaithful : RelrFaithful reader relative_type words
            (some (true, reader.relrRelocs relative_type addresses)) ↔ ∀ a ∈ addresses, a < 256 ^ reader.elf_addr := by
          rw [← relrDecoded_iff htype hlt hdenote]
          constructor
          · exact fun h => ((h true _ rfl).resolve_left fun hfail => Bool.noConfusion hfail.1).2
          · intro h ok out hout
            cases hout
            exact Or.inr ⟨rfl, h⟩
        rw [Option.elim_some, hfaithful]
        cases h64 : reader.is_64 with
        | true =>
            have hpow : 256 ^ reader.elf_addr = 2 ^ 64 := by rw [elf_addr, h64]; rfl
            rw [hpow]
            exact iff_of_true hlt (Or.inl rfl)
        | false =>
            have hpow : 256 ^ reader.elf_addr = 2 ^ 32 := by rw [elf_addr, h64]; rfl
            rw [hpow]
            constructor
            · intro h
              refine Or.inr (Or.inr (Or.inr fun other hother => ?_))
              rw [hdenote] at hother
              cases hother
              exact h
            · intro h
              obtain hwide | hturned | ⟨b, hb, hover⟩ | hall := h
              · cases hwide
              · exact absurd hturned haway
              · exact absurd (hbases b hb) (Nat.not_lt.2 hover)
              · exact hall addresses hdenote

/-- An address and a bitmap with its first bit set. -/
def lowSection : linput_t := ⟨[0x00, 0x10, 0x00, 0x00, 0x03, 0x00, 0x00, 0x00], 0, by decide⟩

theorem decode_relr_low :
    (mk false false 3).decode_relr 8 lowSection 0 8 false = some (true, [⟨0x1000, 8, 0⟩, ⟨0x1004, 8, 0⟩]) ∧
      RelrFaithful (mk false false 3) 8 (relrWords (mk false false 3) lowSection 0 8)
        ((mk false false 3).decode_relr 8 lowSection 0 8 false) := by
  refine ⟨by decide +kernel, (decode_relr_iff fun _ => by decide).2 ?_⟩
  refine Or.inr (Or.inr (Or.inr fun addresses h => ?_))
  have hdenote : denote 4 none (relrWords (mk false false 3) lowSection 0 8) = some [0x1000, 0x1004] := by
    decide +kernel
  have haddr := hdenote.symm.trans h
  cases haddr
  exact show ∀ a ∈ [0x1000, 0x1004], a < 2 ^ 32 by decide

def highSection : linput_t := ⟨[0xFC, 0xFF, 0xFF, 0xFF, 0x03, 0x00, 0x00, 0x00], 0, by decide⟩

/-- A relocation outside the address space of a 32-bit file. -/
theorem decode_relr_outside :
    (mk false false 3).decode_relr 8 highSection 0 8 false = some (true, [⟨0xFFFFFFFC, 8, 0⟩, ⟨0x100000000, 8, 0⟩]) ∧
      ¬RelrFaithful (mk false false 3) 8 (relrWords (mk false false 3) highSection 0 8)
        ((mk false false 3).decode_relr 8 highSection 0 8 false) := by
  have hresult : (mk false false 3).decode_relr 8 highSection 0 8 false =
      some (true, [⟨0xFFFFFFFC, 8, 0⟩, ⟨0x100000000, 8, 0⟩]) := by decide +kernel
  refine ⟨hresult, fun h => ?_⟩
  obtain hfail | ⟨_, hdecoded⟩ := h true _ hresult
  · exact Bool.noConfusion hfail.1
  · have hinside := hdecoded.inside ⟨0x100000000, 8, 0⟩ (by simp)
    exact absurd hinside (by decide)

end reader_t
end IdaSdk.Elf
