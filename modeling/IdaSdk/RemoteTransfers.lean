import IdaSdk.LibPacking

/-!
Reading and writing files of the server machine. The client packs a request, the server does the transfer with its
own file functions and packs a reply, which the client takes apart; the two sides decide separately whether
the reply ends with data or with an error code.
-/

namespace IdaSdk.RemoteTransfers

def int32 (x : UInt32) : Int := if x.toNat < 2 ^ 31 then x.toNat else x.toNat - 2 ^ 32

def word (x : Int) : UInt32 := UInt32.ofNat (x % 2 ^ 32).toNat

def sizeT (x : Int) : Int := x % 2 ^ 64

/-- The file functions of the server on the file of a request; nothing stands for a failure, for which they return
-1. `heap` is what a new buffer holds. -/
structure FilePrimitives where
  qfread : UInt32 → UInt64 → (n : Nat) → Option { data : List UInt8 // data.length ≤ n }
  qfwrite : UInt32 → UInt64 → (data : List UInt8) → Option { n : Nat // n ≤ data.length }
  errno : UInt32
  heap : Nat → UInt8

/-- `unpack_obj`: too few bytes leave the buffer as it is. -/
def unpackObj (buf : Nat → UInt8) (bytes : List UInt8) (n : Nat) : Nat → UInt8 :=
  if n ≤ bytes.length then fun i => if i < n then bytes.getD i 0 else buf i else buf

section
variable (dd : Codec UInt32) (dq : Codec UInt64) (files : FilePrimitives)

variable (req : List UInt8)

/-- The three arguments that requests on files begin with, and what follows them. -/
def fileArgs : (UInt32 × UInt64 × UInt32) × List UInt8 :=
  (((dd.unpack req).1, (dq.unpack (dd.unpack req).2).1, (dd.unpack (dq.unpack (dd.unpack req).2).2).1),
    (dd.unpack (dq.unpack (dd.unpack req).2).2).2)

variable (fn : UInt32)

def packArgs (off : UInt64) (size : UInt32) : List UInt8 := dd.pack fn ++ (dq.pack off ++ dd.pack size)

/-- What the server reads for a request of `size` bytes. -/
def readBytes (off : UInt64) (size : Int) : Option (List UInt8) :=
  if 0 < size then (files.qfread fn off size.toNat).map Subtype.val else some []

/-- What the server writes of `data`, which is nothing for an empty buffer. -/
def writtenBytes (off : UInt64) (data : List UInt8) : Option Nat :=
  if data.isEmpty then some 0 else (files.qfwrite fn off data).map Subtype.val

def s2 (count : Option Nat) : Int := count.elim (-1) fun n => (n : Int)

/-- The end of a reply: the error code when the sizes differ. -/
def replyEnd (size s2 : Int) (data : List UInt8) : List UInt8 :=
  if size ≠ s2 then dd.pack files.errno else data

/-- The case `RPC_READ_FILE` with the arguments unpacked. -/
def serveRead (args : UInt32 × UInt64 × UInt32) : List UInt8 :=
  dd.pack (word (s2 ((readBytes files args.1 args.2.1 (int32 args.2.2)).map List.length))) ++
    replyEnd dd files (int32 args.2.2) (s2 ((readBytes files args.1 args.2.1 (int32 args.2.2)).map List.length))
      ((readBytes files args.1 args.2.1 (int32 args.2.2)).getD [])

def onReadFile : List UInt8 := serveRead dd files (fileArgs dd dq req).1

def receivedBytes (size : UInt32) (rest : List UInt8) : List UInt8 :=
  (List.range size.toNat).map (unpackObj files.heap rest size.toNat)

/-- The case `RPC_WRITE_FILE` with the arguments unpacked: the size of the request goes back, not `s2`. -/
def serveWrite (args : UInt32 × UInt64 × UInt32) (rest : List UInt8) : List UInt8 :=
  dd.pack args.2.2 ++ replyEnd dd files args.2.2.toNat
    (word (s2 (writtenBytes files args.1 args.2.1 (receivedBytes files args.2.2 rest)))).toNat []

def onWriteFile : List UInt8 := serveWrite dd files (fileArgs dd dq req).1 (fileArgs dd dq req).2

/-- What a call leaves: the result, the buffer of the caller and `errno`. -/
structure Returned where
  value : Int
  buf : Nat → UInt8
  errno : UInt32

/-- The rest of the reply behind the size, and the error code that the client takes from it. -/
def takeErrno (size rsize : Int) (errno : UInt32) (rest : List UInt8) : UInt32 × List UInt8 :=
  if size ≠ sizeT rsize then dd.unpack rest else (errno, rest)

/-- `dbg_read_file` once the reply is there. Nothing is the failing assertion 1204. -/
def readReply (buf : Nat → UInt8) (size : UInt64) (errno : UInt32) (rsize : Int) (rest : List UInt8) :
    Option Returned :=
  if 0 < rsize then
    if sizeT rsize ≤ size.toNat then
      some ⟨rsize, unpackObj buf (takeErrno dd size.toNat rsize errno rest).2 rsize.toNat,
        (takeErrno dd size.toNat rsize errno rest).1⟩
    else
      none
  else
    some ⟨rsize, buf, (takeErrno dd size.toNat rsize errno rest).1⟩

/-- `rpc_debmod_t::dbg_read_file`; `exchange` sends a request and waits for the reply. -/
def dbgReadFile (exchange : List UInt8 → Option (List UInt8)) (fn : Int) (off : UInt64) (buf : Nat → UInt8)
    (size : UInt64) (errno : UInt32) : Option Returned :=
  match exchange (packArgs dd dq (word fn) off (word size.toNat)) with
  | none => some ⟨-1, buf, errno⟩
  | some reply => readReply dd buf size errno (int32 (dd.unpack reply).1) (dd.unpack reply).2

/-- `rpc_debmod_t::dbg_write_file`: the result and `errno`. Nothing is the failing assertion of `pack_buf`. -/
def dbgWriteFile (exchange : List UInt8 → Option (List UInt8)) (fn : Int) (off : UInt64) (data : List UInt8)
    (errno : UInt32) : Option (Int × UInt32) :=
  if data.length ≤ 0xFFFFFFFF then
    match exchange (packArgs dd dq (word fn) off (word data.length) ++ data) with
    | none => some (-1, errno)
    | some reply =>
      some (int32 (dd.unpack reply).1,
        (takeErrno dd data.length (int32 (dd.unpack reply).1) errno (dd.unpack reply).2).1)
  else
    none

/-- The call returns the number of the bytes that were read, which are in the buffer, or a negative error. -/
def ReadFaithful (bytes : Option (List UInt8)) (out : Option Returned) : Prop :=
  ∃ ret, out = some ret ∧ bytes.elim (ret.value < 0) fun data =>
    ret.value = data.length ∧ ∀ i < data.length, ret.buf i = data.getD i 0

/-- The call returns the number of the bytes that were written, or a negative error. -/
def WriteFaithful (count : Option Nat) (out : Option (Int × UInt32)) : Prop :=
  ∃ ret, out = some ret ∧ count.elim (ret.1 < 0) fun n => ret.1 = n

end

theorem int32_word {x : Int} (hlo : -2 ^ 31 ≤ x) (hhi : x < 2 ^ 31) : int32 (word x) = x := by
  rw [int32, word, UInt32.toNat_ofNat']
  split <;> omega

theorem int32_range (x : UInt32) : -2 ^ 31 ≤ int32 x ∧ int32 x < 2 ^ 31 := by
  have hx := x.toNat_lt
  rw [int32]
  split <;> omega

theorem toNat_word {n : Nat} (h : n < 2 ^ 32) : (word n).toNat = n := by
  rw [word, UInt32.toNat_ofNat']
  omega

/-! ### Reading -/

section
variable {dd : Codec UInt32} {dq : Codec UInt64} {files : FilePrimitives} {fn : UInt32} {off : UInt64}

theorem fileArgs_pack (size : UInt32) (rest : List UInt8) :
    fileArgs dd dq (packArgs dd dq fn off size ++ rest) = ((fn, off, size), rest) := by
  simp only [fileArgs, packArgs, List.append_assoc, Codec.unpack_pack]

theorem length_readBytes {size : Int} {data : List UInt8} (h : readBytes files fn off size = some data) :
    data.length = 0 ∨ 0 < size ∧ (data.length : Int) ≤ size := by
  rw [readBytes] at h
  split at h
  · rename_i hpos
    obtain ⟨found, -, rfl⟩ := Option.map_eq_some_iff.mp h
    have hle := found.property
    exact .inr ⟨hpos, by omega⟩
  · obtain rfl := Option.some.inj h
    exact .inl rfl

theorem readReply_short {buf : Nat → UInt8} {size : UInt64} {errno : UInt32} {rsize : Int} {rest : List UInt8}
    (hle : rsize ≤ size.toNat) (hrest : 0 < rsize → ((takeErrno dd size.toNat rsize errno rest).2.length : Int) < rsize) :
    ∃ ret, readReply dd buf size errno rsize rest = some ret ∧ ret.value = rsize ∧ ret.buf = buf := by
  unfold readReply
  split
  · rename_i hpos
    have hsize := size.toNat_lt
    have hmod : sizeT rsize = rsize := by
      rw [sizeT]
      omega
    have hfew := hrest hpos
    rw [if_pos (by omega)]
    refine ⟨_, rfl, rfl, ?_⟩
    rw [unpackObj, if_neg (by omega)]
  · exact ⟨_, rfl, rfl, rfl⟩

theorem dbgReadFile_eq (fn : Int) (buf : Nat → UInt8) (size : UInt64) (errno : UInt32) :
    dbgReadFile dd dq (fun req => some (onReadFile dd dq files req)) fn off buf size errno =
      readReply dd buf size errno
        (s2 ((readBytes files (word fn) off (int32 (word size.toNat))).map List.length))
        (replyEnd dd files (int32 (word size.toNat))
          (s2 ((readBytes files (word fn) off (int32 (word size.toNat))).map List.length))
          ((readBytes files (word fn) off (int32 (word size.toNat))).getD [])) := by
  have hcount : int32 (word (s2 ((readBytes files (word fn) off (int32 (word size.toNat))).map List.length))) =
      s2 ((readBytes files (word fn) off (int32 (word size.toNat))).map List.length) := by
    apply int32_word
    · cases readBytes files (word fn) off (int32 (word size.toNat)) with
      | none => decide
      | some data => simp only [s2, Option.map_some, Option.elim_some]; omega
    cases hread : readBytes files (word fn) off (int32 (word size.toNat)) with
    | none => decide
    | some data =>
        have hlen := length_readBytes hread
        have hrange := int32_range (word size.toNat)
        simp only [s2, Option.map_some, Option.elim_some]
        omega
  have hargs := @fileArgs_pack dd dq (word fn) off (word size.toNat) []
  rw [List.append_nil] at hargs
  simp only [dbgReadFile, onReadFile, serveRead, hargs, Codec.unpack_pack, hcount]

theorem readReply_full {buf : Nat → UInt8} {size : UInt64} {errno : UInt32} {data : List UInt8}
    (hlen : data.length = size.toNat) :
    ∃ ret, readReply dd buf size errno data.length data = some ret ∧ ret.value = data.length ∧
      ∀ i < data.length, ret.buf i = data.getD i 0 := by
  have hsize := size.toNat_lt
  have hmod : sizeT data.length = data.length := by
    rw [sizeT]
    omega
  unfold readReply
  split
  · rw [if_pos (by omega), takeErrno, if_neg (by omega)]
    refine ⟨_, rfl, rfl, fun i hi => ?_⟩
    simp [unpackObj, hi]
  · exact ⟨_, rfl, rfl, fun i hi => by omega⟩

theorem readFaithful_iff (fn : Int) (buf : Nat → UInt8) (size : UInt64) (errno : UInt32) :
    ReadFaithful (readBytes files (word fn) off (int32 (word size.toNat)))
        (dbgReadFile dd dq (fun req => some (onReadFile dd dq files req)) fn off buf size errno) ↔
      (readBytes files (word fn) off (int32 (word size.toNat))).elim True fun data =>
        (size.toNat < 2 ^ 31 ∧ data.length = size.toNat) ∨ ∀ i < data.length, buf i = data.getD i 0 := by
  have hsize := size.toNat_lt
  rw [dbgReadFile_eq]
  cases hread : readBytes files (word fn) off (int32 (word size.toNat)) with
  | none =>
      simp only [Option.elim_none, iff_true]
      obtain ⟨ret, hret, hvalue, -⟩ := @readReply_short dd buf size errno (s2 none)
        (replyEnd dd files (int32 (word size.toNat)) (s2 none) []) (by simp only [s2, Option.elim_none]; omega)
        (by simp only [s2, Option.elim_none]; omega)
      exact ⟨ret, hret, by rw [Option.elim_none, hvalue]; decide⟩
  | some data =>
      simp only [Option.elim_some, Option.map_some, Option.getD_some, s2]
      have hlen := length_readBytes hread
      have hle : data.length ≤ size.toNat := by
        rw [int32, word, UInt32.toNat_ofNat'] at hlen
        split at hlen <;> omega
      by_cases hfull : size.toNat < 2 ^ 31 ∧ data.length = size.toNat
      · have hint : int32 (word size.toNat) = data.length := by
          rw [int32_word (by omega) (by omega)]
          omega
        have hend : replyEnd dd files (int32 (word size.toNat)) data.length data = data := by
          rw [replyEnd, if_neg (by omega)]
        obtain ⟨ret, hret, hvalue, hbuf⟩ := @readReply_full dd buf size errno data hfull.2
        rw [hend]
        exact iff_of_true ⟨ret, hret, hvalue, hbuf⟩ (.inl hfull)
      · -- the client takes an error code out of the reply, after which the data are not complete
        have hfew : 0 < (data.length : Int) → ((takeErrno dd size.toNat data.length errno
            (replyEnd dd files (int32 (word size.toNat)) data.length data)).2.length : Int) < data.length := by
          intro hpos
          have hne : (size.toNat : Int) ≠ sizeT data.length := by
            rw [int32, word, UInt32.toNat_ofNat'] at hlen
            rw [sizeT]
            split at hlen <;> omega
          rw [takeErrno, if_pos hne, replyEnd]
          split
          · rw [dd.unpack_self]
            exact hpos
          · have hshorter := dd.unpack_length_lt (List.length_pos_iff.mp (Int.ofNat_lt.mp hpos))
            omega
        obtain ⟨ret, hret, hvalue, hbuf⟩ := @readReply_short dd buf size errno data.length _ (by omega) hfew
        have hnot : ¬ (size.toNat < 2 ^ 31 ∧ data.length = size.toNat) := hfull
        simp only [hnot, false_or]
        constructor
        · rintro ⟨ret', hret', -, hbuf'⟩
          obtain rfl := Option.some.inj (hret.symm.trans hret')
          rwa [hbuf] at hbuf'
        · intro hsame
          exact ⟨ret, hret, hvalue, by rwa [hbuf]⟩

/-! ### Writing -/

theorem receivedBytes_self {size : UInt32} {data : List UInt8} (h : data.length = size.toNat) :
    receivedBytes files size data = data := by
  apply List.ext_getElem
  · simp [receivedBytes, h]
  intro i hi hi'
  have hlt : i < size.toNat := h ▸ hi'
  have hfew : size.toNat ≤ data.length := Nat.le_of_eq h.symm
  simp only [receivedBytes, List.getElem_map, List.getElem_range, unpackObj, if_pos hfew, if_pos hlt]
  rw [List.getD_eq_getElem?_getD, List.getElem?_eq_getElem hi', Option.getD_some]

theorem onWriteFile_pack {data : List UInt8} (h : data.length < 2 ^ 32) :
    onWriteFile dd dq files (packArgs dd dq fn off (word data.length) ++ data) =
      dd.pack (word data.length) ++
        replyEnd dd files data.length (word (s2 (writtenBytes files fn off data))).toNat [] := by
  have hlen := toNat_word h
  simp only [onWriteFile, fileArgs_pack, serveWrite]
  rw [receivedBytes_self hlen.symm, hlen]

theorem dbgWriteFile_value (fn : Int) {data : List UInt8} (errno : UInt32) (h : data.length < 2 ^ 32) :
    ∃ errno', dbgWriteFile dd dq (fun req => some (onWriteFile dd dq files req)) fn off data errno =
      some (int32 (word data.length), errno') := by
  rw [dbgWriteFile, if_pos (by omega)]
  simp only [onWriteFile_pack h, Codec.unpack_pack]
  exact ⟨_, rfl⟩

theorem writtenBytes_le {data : List UInt8} {n : Nat} (h : writtenBytes files fn off data = some n) :
    n ≤ data.length := by
  rw [writtenBytes] at h
  split at h
  · obtain rfl := Option.some.inj h
    exact Nat.zero_le _
  · obtain ⟨found, -, rfl⟩ := Option.map_eq_some_iff.mp h
    exact found.property

theorem writeFaithful_iff (fn : Int) (data : List UInt8) (errno : UInt32) :
    WriteFaithful (writtenBytes files (word fn) off data)
        (dbgWriteFile dd dq (fun req => some (onWriteFile dd dq files req)) fn off data errno) ↔
      data.length < 2 ^ 32 ∧ (writtenBytes files (word fn) off data).elim (2 ^ 31 ≤ data.length) fun n =>
        n = data.length ∧ data.length < 2 ^ 31 := by
  by_cases hsize : data.length < 2 ^ 32
  · obtain ⟨errno', hret⟩ := @dbgWriteFile_value dd dq files off fn data errno hsize
    have hval : int32 (word data.length) = if data.length < 2 ^ 31 then (data.length : Int) else data.length - 2 ^ 32 := by
      rw [int32, toNat_word hsize]
    rw [hret]
    simp only [hsize, true_and]
    constructor
    · rintro ⟨ret, hsome, hfaithful⟩
      obtain rfl := Option.some.inj hsome
      cases hwritten : writtenBytes files (word fn) off data with
      | none =>
          rw [hwritten] at hfaithful
          simp only [Option.elim_none, hval] at hfaithful ⊢
          split at hfaithful <;> omega
      | some n =>
          have hle := writtenBytes_le hwritten
          rw [hwritten] at hfaithful
          simp only [Option.elim_some, hval] at hfaithful ⊢
          split at hfaithful <;> omega
    · intro hcond
      refine ⟨_, rfl, ?_⟩
      cases hwritten : writtenBytes files (word fn) off data with
      | none =>
          rw [hwritten] at hcond
          simp only [Option.elim_none, hval] at hcond ⊢
          split <;> omega
      | some n =>
          rw [hwritten] at hcond
          simp only [Option.elim_some, hval] at hcond ⊢
          split <;> omega
  · have hnone : dbgWriteFile dd dq (fun req => some (onWriteFile dd dq files req)) fn off data errno = none := by
      rw [dbgWriteFile, if_neg (by omega)]
    rw [hnone]
    refine iff_of_false ?_ fun h => hsize h.1
    rintro ⟨ret, hret, -⟩
    cases hret

end

/-- Both directions of a transfer: what the client returns is what the server did exactly if a read came back in full
and is below 2 GiB, failed, or brought only what the buffer held before, and if a write was done in full below 2 GiB,
or failed with a size of 2 GiB or more. -/
theorem transfers_faithful_iff (dd : Codec UInt32) (dq : Codec UInt64) (files : FilePrimitives) (fn : Int) (off : UInt64)
    (errno : UInt32) :
    (∀ (buf : Nat → UInt8) (size : UInt64),
      ReadFaithful (readBytes files (word fn) off (int32 (word size.toNat)))
          (dbgReadFile dd dq (fun req => some (onReadFile dd dq files req)) fn off buf size errno) ↔
        (readBytes files (word fn) off (int32 (word size.toNat))).elim True fun data =>
          (size.toNat < 2 ^ 31 ∧ data.length = size.toNat) ∨ ∀ i < data.length, buf i = data.getD i 0) ∧
      ∀ data : List UInt8,
        WriteFaithful (writtenBytes files (word fn) off data)
            (dbgWriteFile dd dq (fun req => some (onWriteFile dd dq files req)) fn off data errno) ↔
          data.length < 2 ^ 32 ∧ (writtenBytes files (word fn) off data).elim (2 ^ 31 ≤ data.length) fun n =>
            n = data.length ∧ data.length < 2 ^ 31 :=
  ⟨fun buf size => readFaithful_iff fn buf size errno, fun data => writeFaithful_iff fn data errno⟩

/-- A file function that transfers one byte at most. -/
def oneByte : FilePrimitives where
  qfread _ _ n := some ⟨List.replicate (min n 1) 7, by rw [List.length_replicate]; exact Nat.min_le_left n 1⟩
  qfwrite _ _ data := some ⟨min data.length 1, by omega⟩
  errno := 0
  heap _ := 0

/-- Of two bytes one is read, and the buffer stays as it was; of two bytes one is written, and both are reported. -/
theorem not_transfers_faithful :
    ¬ ReadFaithful (readBytes oneByte 3 0 2)
        (dbgReadFile Packing.dd (Packing.dq Packing.dd)
          (fun req => some (onReadFile Packing.dd (Packing.dq Packing.dd) oneByte req)) 3 0 (fun _ => 0) 2 0) ∧
      ¬ WriteFaithful (writtenBytes oneByte 3 0 [1, 2])
        (dbgWriteFile Packing.dd (Packing.dq Packing.dd)
          (fun req => some (onWriteFile Packing.dd (Packing.dq Packing.dd) oneByte req)) 3 0 [1, 2] 0) := by
  constructor
  · rintro ⟨ret, hret, hvalue, hbuf⟩
    have hzero : (dbgReadFile Packing.dd (Packing.dq Packing.dd)
        (fun req => some (onReadFile Packing.dd (Packing.dq Packing.dd) oneByte req)) 3 0 (fun _ => 0) 2 0).map
          (fun ret => ret.buf 0) = some 0 := by decide +kernel
    rw [hret] at hzero
    have hold : ret.buf 0 = 0 := Option.some.inj hzero
    have hseven : ret.buf 0 = 7 := hbuf 0 (by decide)
    exact absurd (hold.symm.trans hseven) (by decide)
  · rintro ⟨ret, hret, hvalue⟩
    have htwo : (dbgWriteFile Packing.dd (Packing.dq Packing.dd)
        (fun req => some (onWriteFile Packing.dd (Packing.dq Packing.dd) oneByte req)) 3 0 [1, 2] 0).map Prod.fst =
          some 2 := by decide +kernel
    rw [hret] at htwo
    have hone : ret.1 = 1 := hvalue
    rw [Option.map_some, hone] at htwo
    exact absurd (Option.some.inj htwo) (by decide)

end IdaSdk.RemoteTransfers
