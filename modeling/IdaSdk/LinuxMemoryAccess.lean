import IdaSdk.LinuxMemory

/-!
Access by words is access by bytes: what is written, and when the buffer has what is counted as read.
-/

namespace IdaSdk.LinuxMemory
open Words

variable {host : host_t}

/-- The place of the byte `i` from an address on. -/
def place (host : host_t) (ea : BitVec 64) (i : Nat) : Nat := (ea.toNat + i) % 2 ^ (8 * host.PEEKSIZE)

theorem shift_eq (host : host_t) (ea : BitVec 64) : host.shift ea = ea.toNat % host.PEEKSIZE := by
  rw [host_t.shift, BitVec.toNat_and]
  obtain ⟨w, rfl | rfl⟩ := host
  · exact Nat.and_two_pow_sub_one_eq_mod ea.toNat 2
  · exact Nat.and_two_pow_sub_one_eq_mod ea.toNat 3

theorem peeksize_pos (host : host_t) : 0 < host.PEEKSIZE := by
  obtain h | h := host.ok
  · omega
  · omega

theorem shift_lt (host : host_t) (ea : BitVec 64) : host.shift ea < host.PEEKSIZE := by
  rw [shift_eq]
  exact Nat.mod_lt _ (peeksize_pos host)

theorem nbytes_le (host : host_t) (ea : BitVec 64) (size : Nat) : host.nbytes ea size ≤ size := Nat.min_le_right ..

theorem nbytes_pos (host : host_t) (ea : BitVec 64) {size : Nat} (h : 0 < size) : 0 < host.nbytes ea size := by
  have hshift := shift_lt host ea
  rw [host_t.nbytes]
  split_ifs <;> omega

theorem shift_add_nbytes (host : host_t) (ea : BitVec 64) (size : Nat) :
    host.shift ea + host.nbytes ea size ≤ host.PEEKSIZE := by
  have hshift := shift_lt host ea
  rw [host_t.nbytes]
  split_ifs <;> omega

variable {ea : BitVec 64}

theorem shift_whole {size : Nat} (h : host.nbytes ea size = host.PEEKSIZE) : host.shift ea = 0 := by
  have hle := shift_add_nbytes host ea size
  omega

theorem place_add (host : host_t) (ea : BitVec 64) (k i : Nat) :
    place host (ea + BitVec.ofNat 64 k) i = place host ea (k + i) := by
  rw [place, place, BitVec.toNat_add, BitVec.toNat_ofNat]
  obtain ⟨w, rfl | rfl⟩ := host
  · dsimp only
    omega
  · dsimp only
    omega

variable {i : Nat}

theorem place_inj {j : Nat} (hi : i < 2 ^ 31) (hj : j < 2 ^ 31)
    (h : place host ea i = place host ea j) : i = j := by
  rw [place, place] at h
  obtain ⟨w, rfl | rfl⟩ := host
  · dsimp only at h
    omega
  · dsimp only at h
    omega

theorem place_in_word (h : host.shift ea + i < host.PEEKSIZE) :
    place host ea i = host.wordAddress ea + (host.shift ea + i) := by
  have hlt := ea.isLt
  rw [host_t.wordAddress, host_t.size_t, BitVec.toNat_sub, BitVec.toNat_ofNat, place]
  rw [shift_eq] at h ⊢
  obtain ⟨w, rfl | rfl⟩ := host
  · dsimp only at h ⊢
    omega
  · dsimp only at h ⊢
    omega

theorem byte_peekWord (host : host_t) (mem : Nat → UInt8) (address : Nat) (h : i < host.PEEKSIZE) :
    byte i (host.peekWord mem address) = mem (address + i) := by
  rw [host_t.peekWord, byte_ofLE h, List.getD_eq_getElem?_getD, List.getElem?_map, List.getElem?_range h]
  rfl

theorem storeBytes_eq {n : Nat} (k : Nat) (v : BitVec n) : storeBytes k v = (List.range k).map fun i => byte i v := by
  induction k generalizing v with
  | zero => rfl
  | succ k ih =>
      rw [storeBytes, ih, List.range_succ_eq_map, List.map_cons, List.map_map]
      refine congrArg _ (List.map_congr_left fun i _ => ?_)
      rw [byte_ushiftRight v i 1, Nat.add_comm]
      rfl

section
variable {process : process_t host} {ea : BitVec 64}

/-- The bytes that the process has from an address on. -/
def memoryAt (process : process_t host) (ea : BitVec 64) (n : Nat) : List UInt8 :=
  (List.range n).map fun i => process.mem (place host ea i)

theorem length_memoryAt (ea : BitVec 64) (n : Nat) : (memoryAt process ea n).length = n := by
  rw [memoryAt, List.length_map, List.length_range]

theorem memoryAt_add (ea : BitVec 64) (k n : Nat) :
    memoryAt process ea (k + n) = memoryAt process ea k ++ memoryAt process (ea + BitVec.ofNat 64 k) n := by
  rw [memoryAt, List.range_add, List.map_append, List.map_map, memoryAt, memoryAt]
  refine congrArg _ (List.map_congr_left fun i _ => ?_)
  rw [Function.comp_apply, place_add]

/-- The requests succeed for `k` bytes, and then one fails or nothing is left to read. -/
inductive Stops (process : process_t host) : Nat → BitVec 64 → Nat → Nat → Prop
  | done {call ea} : Stops process call ea 0 0
  | fails {call ea size} : 0 < size → process.peekFails call (host.wordAddress ea) = true →
      Stops process call ea size 0
  | next {call ea size k} : 0 < size → process.peekFails call (host.wordAddress ea) = false →
      Stops process (call + 1) (ea + BitVec.ofNat 64 (host.nbytes ea size)) (size - host.nbytes ea size) k →
      Stops process call ea size (host.nbytes ea size + k)

variable {call k size : Nat}

theorem Stops.le (h : Stops process call ea size k) : k ≤ size := by
  induction h with
  | done => exact le_rfl
  | fails _ _ => exact Nat.zero_le _
  | @next _ ea size _ _ _ _ ih =>
      have hle := nbytes_le host ea size
      omega

theorem storeBytes_peekWord (ea : BitVec 64) (size : Nat) :
    (if host.nbytes ea size = host.PEEKSIZE then
        storeBytes host.PEEKSIZE (host.peekWord process.mem (host.wordAddress ea))
      else storeBytes (host.nbytes ea size) (host.peekWord process.mem (host.wordAddress ea) >>> (host.shift ea * 8))) =
      memoryAt process ea (host.nbytes ea size) := by
  have hinside := shift_add_nbytes host ea size
  by_cases hwhole : host.nbytes ea size = host.PEEKSIZE
  · have hshift := shift_whole hwhole
    rw [if_pos hwhole, hwhole, storeBytes_eq, memoryAt]
    refine List.map_congr_left fun i hi => ?_
    have hlt := List.mem_range.1 hi
    rw [byte_peekWord host process.mem _ hlt, place_in_word (by omega), hshift, Nat.zero_add]
  · rw [if_neg hwhole, storeBytes_eq, memoryAt]
    refine List.map_congr_left fun i hi => ?_
    have hlt := List.mem_range.1 hi
    rw [Nat.mul_comm (host.shift ea), byte_ushiftRight, byte_peekWord host process.mem _ (by omega),
      place_in_word (by omega)]

theorem readWords_eq {n : Nat} (h : Stops process call ea size k) (hn : size < n) :
    readWords process n call ea size = some (memoryAt process ea k, ea + BitVec.ofNat 64 k) := by
  induction h generalizing n with
  | @done call ea =>
      cases n with
      | zero => exact absurd hn (Nat.not_lt_zero _)
      | succ n =>
          rw [readWords, if_pos rfl, BitVec.add_zero]
          rfl
  | @fails call ea size hsize hfails =>
      cases n with
      | zero => exact absurd hn (Nat.not_lt_zero _)
      | succ n =>
          rw [readWords, if_neg hsize.ne', if_pos hfails, BitVec.add_zero]
          rfl
  | @next call ea size k hsize hok _ ih =>
      cases n with
      | zero => exact absurd hn (Nat.not_lt_zero _)
      | succ n =>
          have hpos := nbytes_pos host ea hsize
          have hfalse : ¬process.peekFails call (host.wordAddress ea) = true := by
            rw [hok]
            exact Bool.false_ne_true
          rw [readWords, if_neg hsize.ne', if_neg hfalse]
          simp only [storeBytes_peekWord]
          rw [ih (by omega), memoryAt_add, Option.map_some]
          congr 2
          rw [BitVec.add_assoc, ← BitVec.ofNat_add]

theorem stops_exists (process : process_t host) (call : Nat) (ea : BitVec 64) (size : Nat) :
    ∃ k, Stops process call ea size k := by
  induction size using Nat.strong_induction_on generalizing call ea with
  | h size ih =>
      obtain rfl | hsize := Nat.eq_zero_or_pos size
      · exact ⟨0, .done⟩
      cases hfails : process.peekFails call (host.wordAddress ea) with
      | true => exact ⟨0, .fails hsize hfails⟩
      | false =>
          have hpos := nbytes_pos host ea hsize
          obtain ⟨k, hk⟩ := ih (size - host.nbytes ea size) (by omega) (call + 1)
            (ea + BitVec.ofNat 64 (host.nbytes ea size))
          exact ⟨_, .next hsize hfails hk⟩

/-! ### Reading -/

/-- Every word with one of the bytes can be read. -/
def Readable (process : process_t host) (ea : BitVec 64) (size : Nat) : Prop :=
  process.exited = false ∧
    ∀ i < size, ∀ call, process.peekFails call (host.wordAddress (ea + BitVec.ofNat 64 i)) = false

/-- The count is that of bytes that are in the buffer and in the memory, and nothing is missing that can be read. -/
structure ReadsMemory (process : process_t host) (ea : BitVec 64) (size : Nat) (count : Int) (buffer : List UInt8) :
    Prop where
  nonneg : 0 ≤ count
  le : count ≤ size
  bytes : buffer.take count.toNat = memoryAt process ea count.toNat
  complete : Readable process ea size → count = size

/-- The memory after a write. -/
structure WritesMemory (host : host_t) (mem mem' : Nat → UInt8) (ea : BitVec 64) (bytes : List UInt8) : Prop where
  inside : ∀ i < bytes.length, mem' (place host ea i) = bytes.getD i 0
  outside : ∀ a, (∀ i < bytes.length, a ≠ place host ea i) → mem' a = mem a

/-- Both kinds of access end, and are access by bytes. -/
structure AccessesBytes (process : process_t host) (junk : Nat → List UInt8) (ea : BitVec 64) (buffer : List UInt8) :
    Prop where
  read : ∃ count buffer', _read_memory process ea buffer = some (count, buffer') ∧
    ReadsMemory process ea buffer.length count buffer'
  write : ∃ count mem', _write_memory process junk ea buffer = some (count, mem') ∧
    (count = buffer.length → WritesMemory host process.mem mem' ea buffer)

/-- No short read has an unreadable word behind a readable one, except if nothing is read from the file, or what is
read there from the unreadable word on is the same as the memory from the first word on. -/
def NotMisplaced (process : process_t host) (ea : BitVec 64) (size : Nat) : Prop :=
  process.exited = true ∨ process.openFails = true ∨ 3 * host.PEEKSIZE < size ∨
    ∀ k, Stops process 0 ea size k → 0 < k → k < size →
      ∀ bytes, process.pread64 (ea + BitVec.ofNat 64 k) size = some bytes →
        bytes = memoryAt process ea bytes.length

theorem stops_readable (h : Stops process call ea size k)
    (hread : ∀ i < size, ∀ call, process.peekFails call (host.wordAddress (ea + BitVec.ofNat 64 i)) = false) :
    k = size := by
  induction h with
  | done => rfl
  | @fails call ea size hsize hfails =>
      have hok := hread 0 hsize call
      rw [BitVec.add_zero, hfails] at hok
      cases hok
  | @next call ea size k hsize _ _ ih =>
      have hle := nbytes_le host ea size
      have hrest := ih fun i hi call => by
        have hok := hread (host.nbytes ea size + i) (by omega) call
        rwa [BitVec.ofNat_add, ← BitVec.add_assoc] at hok
      omega

theorem take_memoryAt (ea : BitVec 64) (k : Nat) (rest : List UInt8) :
    (memoryAt process ea k ++ rest).take k = memoryAt process ea k :=
  List.take_left' (length_memoryAt ea k)

theorem readsMemory_words (h : Stops process 0 ea size k) (rest : List UInt8) :
    ReadsMemory process ea size k (memoryAt process ea k ++ rest) where
  nonneg := Int.natCast_nonneg k
  le := Int.ofNat_le.2 h.le
  bytes := take_memoryAt ea k rest
  complete hread := congrArg _ (stops_readable h hread.2)

theorem pread64_eq {n : Nat} {bytes : List UInt8} (h : process.pread64 ea n = some bytes) :
    bytes = memoryAt process ea bytes.length := by
  apply List.ext_getElem (length_memoryAt ea _).symm
  intro i hi hi'
  rw [process.pread64_mem h i hi]
  simp only [memoryAt, List.getElem_map, List.getElem_range, place]

theorem Stops.unique {k' : Nat} (h : Stops process call ea size k) (h' : Stops process call ea size k') :
    k = k' := by
  have hread := readWords_eq h (Nat.lt_succ_self size)
  rw [readWords_eq h' (Nat.lt_succ_self size)] at hread
  have hlen := congrArg List.length (Prod.mk.inj (Option.some.inj hread)).1
  rw [length_memoryAt, length_memoryAt] at hlen
  exact hlen.symm

theorem readsMemory_bytes {bytes rest : List UInt8} (hle : bytes.length ≤ size)
    (hcomplete : Readable process ea size → bytes.length = size) :
    ReadsMemory process ea size bytes.length (bytes ++ rest) ↔ bytes = memoryAt process ea bytes.length := by
  constructor
  · intro h
    have hbytes := h.bytes
    rwa [Int.toNat_natCast, List.take_left' rfl] at hbytes
  · intro h
    refine ⟨Int.natCast_nonneg _, Int.ofNat_le.2 hle, ?_, fun hread => congrArg _ (hcomplete hread)⟩
    rw [Int.toNat_natCast, List.take_left' rfl]
    exact h

theorem readsMemory_zero (buffer : List UInt8) (h : Readable process ea size → size = 0) :
    ReadsMemory process ea size 0 buffer :=
  ⟨le_rfl, Int.natCast_nonneg _, rfl, fun hread => congrArg Int.ofNat (h hread).symm⟩

section
variable {buffer : List UInt8}

theorem readFile_closed (h : process.openFails = true) (read_size : Int) :
    readFile process ea buffer read_size = (read_size, buffer) := by
  unfold readFile
  exact if_pos h

theorem readFile_failed (h : ¬process.openFails = true) (hfile : process.pread64 ea buffer.length = none)
    (read_size : Int) : readFile process ea buffer read_size = (-1, buffer) := by
  unfold readFile
  rw [if_neg h, hfile]

theorem readFile_bytes (h : ¬process.openFails = true) {bytes : List UInt8}
    (hfile : process.pread64 ea buffer.length = some bytes) (read_size : Int) :
    readFile process ea buffer read_size = ((bytes.length : Int), bytes ++ buffer.drop bytes.length) := by
  unfold readFile
  rw [if_neg h, hfile]

theorem reads_long (hexited : process.exited = false) (hlong : 3 * host.PEEKSIZE < buffer.length) :
    ∃ count buffer', _read_memory process ea buffer = some (count, buffer') ∧
      ReadsMemory process ea buffer.length count buffer' := by
  obtain ⟨k, hk⟩ := stops_exists process 0 ea buffer.length
  rw [_read_memory, hexited, if_neg Bool.false_ne_true, if_pos hlong, readWords_eq hk (Nat.lt_succ_self _)]
  by_cases hwhole : (readFile process ea buffer 0).1 = buffer.length
  · refine ⟨(readFile process ea buffer 0).1, (readFile process ea buffer 0).2, if_pos hwhole, ?_⟩
    by_cases hopen : process.openFails = true
    · rw [readFile_closed hopen] at hwhole
      dsimp only at hwhole
      omega
    cases hfile : process.pread64 ea buffer.length with
    | none =>
        rw [readFile_failed hopen hfile] at hwhole
        dsimp only at hwhole
        omega
    | some bytes =>
        rw [readFile_bytes hopen hfile] at hwhole ⊢
        exact (readsMemory_bytes (process.pread64_le hfile) fun _ => Int.ofNat.inj hwhole).2 (pread64_eq hfile)
  · refine ⟨_, _, (if_neg hwhole).trans rfl, ?_⟩
    rw [length_memoryAt]
    exact readsMemory_words hk _

theorem reads_short (hexited : process.exited = false) (hshort : ¬3 * host.PEEKSIZE < buffer.length) {k : Nat}
    (hk : Stops process 0 ea buffer.length k) :
    (∃ count buffer', _read_memory process ea buffer = some (count, buffer') ∧
      ReadsMemory process ea buffer.length count buffer') ↔
      process.openFails = true ∨ (0 < k → k < buffer.length →
        ∀ bytes, process.pread64 (ea + BitVec.ofNat 64 k) buffer.length = some bytes →
          bytes = memoryAt process ea bytes.length) := by
  have hle := hk.le
  have hlen : (memoryAt process ea k ++ buffer.drop k).length = buffer.length := by
    rw [List.length_append, length_memoryAt, List.length_drop]
    omega
  have hread : _read_memory process ea buffer =
      if k < buffer.length then
        some (max (readFile process (ea + BitVec.ofNat 64 k) (memoryAt process ea k ++ buffer.drop k) k).1 0,
          (readFile process (ea + BitVec.ofNat 64 k) (memoryAt process ea k ++ buffer.drop k) k).2)
      else some ((k : Int), memoryAt process ea k ++ buffer.drop k) := by
    rw [_read_memory, hexited, if_neg Bool.false_ne_true, if_neg hshort, readWords_eq hk (Nat.lt_succ_self _)]
    simp only [Option.map_some, length_memoryAt, hlen]
    split_ifs <;> rfl
  rw [hread]
  by_cases hpart : k < buffer.length
  · have hnot : ¬Readable process ea buffer.length := fun h => hpart.ne (stops_readable hk h.2)
    rw [if_pos hpart]
    by_cases hopen : process.openFails = true
    · refine iff_of_true ⟨_, _, rfl, ?_⟩ (Or.inl hopen)
      rw [readFile_closed hopen, max_eq_left (Int.natCast_nonneg k)]
      exact readsMemory_words hk _
    rw [or_iff_right hopen]
    cases hfile : process.pread64 (ea + BitVec.ofNat 64 k) buffer.length with
    | none =>
        refine iff_of_true ⟨_, _, rfl, ?_⟩ fun _ _ => nofun
        rw [readFile_failed hopen (hlen ▸ hfile)]
        exact readsMemory_zero _ fun h => (hnot h).elim
    | some bytes =>
        have hbytes (rest : List UInt8) : ReadsMemory process ea buffer.length bytes.length (bytes ++ rest) ↔
            bytes = memoryAt process ea bytes.length :=
          readsMemory_bytes (process.pread64_le hfile) fun h => (hnot h).elim
        rw [readFile_bytes hopen (hlen ▸ hfile), max_eq_left (Int.natCast_nonneg _)]
        constructor
        · rintro ⟨count, buffer', heq, hreads⟩ _ _ bytes' hsame
          obtain rfl := Option.some.inj hsame
          obtain ⟨rfl, rfl⟩ := Prod.mk.inj (Option.some.inj heq)
          exact (hbytes _).1 hreads
        · intro h
          refine ⟨_, _, rfl, (hbytes _).2 ?_⟩
          obtain rfl | hpos := Nat.eq_zero_or_pos k
          · rw [BitVec.add_zero] at hfile
            exact pread64_eq hfile
          · exact h hpos hpart bytes rfl
  · rw [if_neg hpart]
    exact iff_of_true ⟨_, _, rfl, readsMemory_words hk _⟩ (Or.inr fun _ h => (hpart h).elim)

theorem reads_iff : (∃ count buffer', _read_memory process ea buffer = some (count, buffer') ∧
    ReadsMemory process ea buffer.length count buffer') ↔ NotMisplaced process ea buffer.length := by
  cases hexited : process.exited with
  | true =>
      refine iff_of_true ⟨0, buffer, ?_, readsMemory_zero buffer fun h => ?_⟩ (Or.inl hexited)
      · rw [_read_memory, hexited, if_pos rfl]
      · exact nomatch hexited.symm.trans h.1
  | false =>
      have hnot : ¬process.exited = true := by
        rw [hexited]
        exact Bool.false_ne_true
      rw [NotMisplaced, or_iff_right hnot]
      by_cases hlong : 3 * host.PEEKSIZE < buffer.length
      · exact iff_of_true (reads_long hexited hlong) (Or.inr (Or.inl hlong))
      obtain ⟨k, hk⟩ := stops_exists process 0 ea buffer.length
      rw [reads_short hexited hlong hk, or_iff_right hlong]
      refine or_congr Iff.rfl ⟨fun h k' hk' => ?_, fun h => h k hk⟩
      obtain rfl := hk.unique hk'
      exact h

end

/-! ### Writing -/

section
variable {mem mem' mem'' : Nat → UInt8} {bytes : List UInt8} {size : Nat}

/-- A word with the bytes from `shift ea` on new, and the others as they are in the memory. -/
structure MixesWord (host : host_t) (mem : Nat → UInt8) (ea : BitVec 64) (bytes : List UInt8)
    (word : BitVec (8 * host.PEEKSIZE)) : Prop where
  inside : ∀ i < bytes.length, byte (host.shift ea + i) word = bytes.getD i 0
  outside : ∀ i < host.PEEKSIZE, i < host.shift ea ∨ host.shift ea + bytes.length ≤ i →
    byte i word = mem (host.wordAddress ea + i)

theorem byte_memcpyWord {i : Nat} (hi : i < host.PEEKSIZE) (h : i < bytes.length) (rest : List UInt8) :
    byte i (memcpyWord host bytes rest) = bytes.getD i 0 := by
  rw [memcpyWord, byte_ofLE hi, List.getD_eq_getElem?_getD, List.getElem?_append_left h, List.getD_eq_getElem?_getD]

theorem mixesWord (mem : Nat → UInt8) (ea : BitVec 64) (rest : List UInt8)
    (hbytes : bytes.length = host.nbytes ea size) :
    MixesWord host mem ea bytes (if host.nbytes ea size = host.PEEKSIZE then memcpyWord host bytes rest
      else mixBytes host.PEEKSIZE (host.shift ea) (host.nbytes ea size) (memcpyWord host bytes rest)
        (host.peekWord mem (host.wordAddress ea))) := by
  have hinside := shift_add_nbytes host ea size
  by_cases hwhole : host.nbytes ea size = host.PEEKSIZE
  · have hshift := shift_whole hwhole
    rw [if_pos hwhole]
    constructor
    · intro i hi
      rw [hshift, Nat.zero_add]
      exact byte_memcpyWord (by omega) hi rest
    · intro i _ _
      omega
  · rw [if_neg hwhole]
    constructor
    · intro i hi
      rw [byte_mixBytes hinside (by omega), if_pos (by omega), Nat.add_sub_cancel_left]
      exact byte_memcpyWord (by omega) hi rest
    · intro i hi hout
      rw [byte_mixBytes hinside hi, if_neg (by omega), byte_peekWord host mem _ hi]

theorem writesMemory_poke {word : BitVec (8 * host.PEEKSIZE)} (h : MixesWord host mem ea bytes word)
    (hinside : host.shift ea + bytes.length ≤ host.PEEKSIZE) :
    WritesMemory host mem (host.pokeWord mem (host.wordAddress ea) word) ea bytes := by
  constructor
  · intro i hi
    rw [place_in_word (by omega), host_t.pokeWord, if_pos (by omega), Nat.add_sub_cancel_left, h.inside i hi]
  intro a ha
  rw [host_t.pokeWord]
  by_cases hword : host.wordAddress ea ≤ a ∧ a < host.wordAddress ea + host.PEEKSIZE
  · obtain ⟨j, rfl⟩ := Nat.exists_eq_add_of_le hword.1
    rw [if_pos hword, Nat.add_sub_cancel_left]
    refine h.outside j (by omega) ?_
    by_contra hnot
    refine ha (j - host.shift ea) (by omega) ?_
    rw [place_in_word (by omega)]
    omega
  · rw [if_neg hword]

theorem WritesMemory.append {bytes' : List UInt8} (h : WritesMemory host mem mem' ea bytes)
    (h' : WritesMemory host mem' mem'' (ea + BitVec.ofNat 64 bytes.length) bytes')
    (hsize : (bytes ++ bytes').length < 2 ^ 31) : WritesMemory host mem mem'' ea (bytes ++ bytes') := by
  rw [List.length_append] at hsize
  constructor
  · intro i hi
    rw [List.length_append] at hi
    rw [List.getD_eq_getElem?_getD]
    by_cases hfirst : i < bytes.length
    · rw [List.getElem?_append_left hfirst, ← List.getD_eq_getElem?_getD, ← h.inside i hfirst]
      refine h'.outside _ fun j hj heq => ?_
      rw [place_add] at heq
      have hsame := place_inj (by omega) (by omega) heq
      omega
    · obtain ⟨j, rfl⟩ := Nat.exists_eq_add_of_le (Nat.not_lt.1 hfirst)
      rw [List.getElem?_append_right (Nat.le_add_right ..), Nat.add_sub_cancel_left, ← List.getD_eq_getElem?_getD,
        ← h'.inside j (by omega), place_add]
  · intro a ha
    rw [List.length_append] at ha
    rw [h'.outside a fun j hj => ?_, h.outside a fun i hi => ha i (by omega)]
    rw [place_add]
    exact ha _ (by omega)

variable (process : process_t host)

variable (junk : Nat → List UInt8)

theorem writeWords_step (n : Nat) (s : ptrace_t)
    (ea : BitVec 64) (hnil : bytes ≠ []) :
    writeWords process junk (n + 1) s ea bytes = some (false, s) ∨
      ∃ word, ∃ s' : ptrace_t, MixesWord host s.mem ea (bytes.take (host.nbytes ea bytes.length)) word ∧
        s'.mem = s.mem ∧ writeWords process junk (n + 1) s ea bytes =
          if (s'.poke process (host.wordAddress ea) word).1 then
            writeWords process junk n (s'.poke process (host.wordAddress ea) word).2
              (ea + BitVec.ofNat 64 (host.nbytes ea bytes.length)) (bytes.drop (host.nbytes ea bytes.length))
          else some (false, (s'.poke process (host.wordAddress ea) word).2) := by
  have htake : (bytes.take (host.nbytes ea bytes.length)).length = host.nbytes ea bytes.length := by
    rw [List.length_take]
    exact Nat.min_eq_left (nbytes_le host ea _)
  by_cases hpeek : host.nbytes ea bytes.length ≠ host.PEEKSIZE ∧
      process.peekFails s.peeks (host.wordAddress ea) = true
  · left
    unfold writeWords
    rw [if_neg hnil]
    exact if_pos hpeek
  · right
    refine ⟨_, if host.nbytes ea bytes.length = host.PEEKSIZE then s else { s with peeks := s.peeks + 1 },
      mixesWord s.mem ea (junk s.pokes) htake, ?_, ?_⟩
    · split_ifs
      · rfl
      · rfl
    · rw [writeWords, if_neg hnil]
      exact if_neg hpeek

theorem poke_cases (s : ptrace_t) (address : Nat) (word : BitVec (8 * host.PEEKSIZE)) :
    (s.poke process address word).1 = false ∨
      (s.poke process address word).1 = true ∧
        (s.poke process address word).2.mem = host.pokeWord s.mem address word := by
  unfold ptrace_t.poke
  split_ifs
  · exact Or.inl rfl
  · exact Or.inr ⟨rfl, rfl⟩

theorem writeWords_spec {n : Nat} (s : ptrace_t)
    (ea : BitVec 64) (bytes : List UInt8) (hn : bytes.length < n) (hsize : bytes.length < 2 ^ 31) :
    ∃ ok s', writeWords process junk n s ea bytes = some (ok, s') ∧
      (ok = true → WritesMemory host s.mem s'.mem ea bytes) := by
  induction n generalizing s ea bytes with
  | zero => exact absurd hn (Nat.not_lt_zero _)
  | succ n ih =>
      by_cases hnil : bytes = []
      · subst hnil
        exact ⟨true, s, if_pos rfl, fun _ => ⟨fun i hi => absurd hi (Nat.not_lt_zero i), fun _ _ => rfl⟩⟩
      obtain hfails | ⟨word, s', hword, hmem, hstep⟩ := writeWords_step process junk n s ea hnil
      · exact ⟨false, s, hfails, nofun⟩
      have hpos := nbytes_pos host ea (List.length_pos_iff.2 hnil)
      have hle := nbytes_le host ea bytes.length
      have hinside := shift_add_nbytes host ea bytes.length
      have htake : (bytes.take (host.nbytes ea bytes.length)).length = host.nbytes ea bytes.length := by
        rw [List.length_take]
        omega
      rw [hstep]
      obtain hpoke | ⟨hpoke, hpoked⟩ := poke_cases process s' (host.wordAddress ea) word
      · rw [hpoke]
        exact ⟨false, _, rfl, nofun⟩
      rw [hpoke, if_pos rfl]
      have hdrop : (bytes.drop (host.nbytes ea bytes.length)).length = bytes.length - host.nbytes ea bytes.length :=
        List.length_drop
      obtain ⟨ok, s'', hwritten, hrest⟩ := ih (s'.poke process (host.wordAddress ea) word).2
        (ea + BitVec.ofNat 64 (host.nbytes ea bytes.length)) (bytes.drop (host.nbytes ea bytes.length)) (by omega)
        (by omega)
      refine ⟨ok, s'', hwritten, fun hok => ?_⟩
      have hfirst := writesMemory_poke hword (by omega)
      have hthen := hrest hok
      rw [hpoked, hmem] at hthen
      rw [← htake] at hthen
      have hboth := hfirst.append hthen (by rwa [htake, List.take_append_drop])
      rwa [htake, List.take_append_drop] at hboth

theorem writes (ea : BitVec 64)
    (hsize : bytes.length < 2 ^ 31) :
    ∃ count mem', _write_memory process junk ea bytes = some (count, mem') ∧
      (count = bytes.length → WritesMemory host process.mem mem' ea bytes) := by
  rw [_write_memory]
  cases hexited : process.exited with
  | true =>
      refine ⟨0, process.mem, if_pos rfl, fun hcount => ⟨fun i hi => ?_, fun _ _ => rfl⟩⟩
      omega
  | false =>
      obtain ⟨ok, s, hwritten, hall⟩ := writeWords_spec process junk ⟨process.mem, 0, 0⟩ ea bytes
        (Nat.lt_succ_self _) hsize
      rw [if_neg Bool.false_ne_true, hwritten]
      refine ⟨_, _, rfl, fun hcount => ?_⟩
      cases ok with
      | true => exact hall rfl
      | false =>
          obtain rfl := List.length_eq_zero_iff.1 hcount.symm
          exact nomatch (if_pos rfl : _ = some (true, _)).symm.trans hwritten

end

/-- Access by words is access by bytes, unless a short read goes on in the file behind a word that cannot be read. -/
theorem accessesBytes_iff (process : process_t host) (junk : Nat → List UInt8) (ea : BitVec 64) (buffer : List UInt8)
    (hsize : buffer.length < 2 ^ 31) :
    AccessesBytes process junk ea buffer ↔ NotMisplaced process ea buffer.length := by
  rw [← reads_iff]
  exact ⟨fun h => h.read, fun h => ⟨h, writes process junk ea hsize⟩⟩

end

/-- A process with a page that requests cannot read, but the file can. -/
def guarded (openFails : Bool) : process_t ⟨8, Or.inr rfl⟩ where
  exited := false
  mem a := if a < 8 then 1 else 2
  peekFails _ address := 8 ≤ address
  poketextFails _ _ := false
  pokedataFails _ _ := false
  openFails := openFails
  pread64 ea n := some ((List.range n).map fun i => if (ea.toNat + i) % 2 ^ 64 < 8 then 1 else 2)
  pread64_le h := by
    obtain rfl := Option.some.inj h
    rw [List.length_map, List.length_range]
  pread64_mem h i _ := by
    obtain rfl := Option.some.inj h
    rw [List.getElem_map, List.getElem_range]
    rfl

/-- Without the file the bytes of the first word are read. -/
theorem accessesBytes_iff_guarded : AccessesBytes (guarded true) (fun _ => []) 5 [0, 0, 0, 0] :=
  (accessesBytes_iff (guarded true) (fun _ => []) 5 [0, 0, 0, 0] (by decide)).2 (Or.inr (Or.inl rfl))

theorem read_guarded : _read_memory (guarded false) 0 (List.replicate 16 0) = some (16, List.replicate 16 2) := by
  decide +kernel

/-- The bytes at 8 are returned for the address 0. -/
theorem not_accessesBytes_guarded :
    ¬∀ {host : host_t} (process : process_t host) (junk : Nat → List UInt8) (ea : BitVec 64) (buffer : List UInt8),
      buffer.length < 2 ^ 31 → AccessesBytes process junk ea buffer := by
  intro h
  have haccess := h (guarded false) (fun _ => []) 0 (List.replicate 16 0) (by decide)
  obtain ⟨count, buffer', hread, hreads⟩ := haccess.read
  obtain ⟨rfl, rfl⟩ := Prod.mk.inj (Option.some.inj (hread.symm.trans read_guarded))
  exact absurd hreads.bytes (by decide +kernel)

end IdaSdk.LinuxMemory
