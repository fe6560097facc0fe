import IdaSdk.LibWordBytes
import Mathlib.Tactic.Common

/-!
The memory of a debugged Linux process, which is read and written by words of the host or through a file. The words of
the host are little-endian.
-/

namespace IdaSdk.LinuxMemory
open Words

/-- The size of a word. -/
structure host_t where
  PEEKSIZE : Nat
  ok : PEEKSIZE = 4 ∨ PEEKSIZE = 8

namespace host_t
variable (host : host_t)

variable (ea : BitVec 64)

/-- An address of the process: `size_t` has one word. -/
def size_t : Nat := ea.toNat % 2 ^ (8 * host.PEEKSIZE)

def shift : Nat := (ea &&& BitVec.ofNat 64 (host.PEEKSIZE - 1)).toNat

/-- The bytes of the word, at most `size` of them. -/
def nbytes (size : Nat) : Nat :=
  min (if host.shift ea = 0 then host.PEEKSIZE else host.PEEKSIZE - host.shift ea) size

def wordAddress : Nat := host.size_t (ea - BitVec.ofNat 64 (host.shift ea))

def peekWord (mem : Nat → UInt8) (address : Nat) : BitVec (8 * host.PEEKSIZE) :=
  BitVec.ofNat _ (ofLE ((List.range host.PEEKSIZE).map fun i => mem (address + i)))

def pokeWord (mem : Nat → UInt8) (address : Nat) (word : BitVec (8 * host.PEEKSIZE)) (a : Nat) : UInt8 :=
  if address ≤ a ∧ a < address + host.PEEKSIZE then byte (a - address) word else mem a

end host_t

/-- A process with the requests that fail: the number of a request and its address say whether it does. What is read
from the file is memory of the process. -/
structure process_t (host : host_t) where
  exited : Bool
  mem : Nat → UInt8
  peekFails : Nat → Nat → Bool
  poketextFails : Nat → Nat → Bool
  pokedataFails : Nat → Nat → Bool
  openFails : Bool
  pread64 : BitVec 64 → Nat → Option (List UInt8)
  pread64_le : ∀ {ea n bytes}, pread64 ea n = some bytes → bytes.length ≤ n
  pread64_mem : ∀ {ea n bytes}, pread64 ea n = some bytes → ∀ i (h : i < bytes.length),
    bytes[i] = mem ((ea.toNat + i) % 2 ^ (8 * host.PEEKSIZE))

section
variable {host : host_t} (process : process_t host)

/-- So many bytes of a word, from the lowest one on. -/
def storeBytes {n : Nat} : Nat → BitVec n → List UInt8
  | 0, _ => []
  | k + 1, v => byte 0 v :: storeBytes k (v >>> 8)

/-- Words are read until a request fails: the bytes, and the address behind them. There are no more words than bytes. -/
def readWords : Nat → Nat → BitVec 64 → Nat → Option (List UInt8 × BitVec 64)
  | 0, _, _, _ => none
  | n + 1, call, ea, size =>
    if size = 0 then some ([], ea)
    else if process.peekFails call (host.wordAddress ea) then some ([], ea)
    else
      let v := host.peekWord process.mem (host.wordAddress ea)
      let nbytes := host.nbytes ea size
      let bytes := if nbytes = host.PEEKSIZE then storeBytes host.PEEKSIZE v
        else storeBytes nbytes (v >>> (host.shift ea * 8))
      (readWords n (call + 1) (ea + BitVec.ofNat 64 nbytes) (size - nbytes)).map fun read => (bytes ++ read.1, read.2)

/-- The file is read into the buffer. Without the file the count is the one from before. -/
def readFile (ea : BitVec 64) (buffer : List UInt8) (read_size : Int) : Int × List UInt8 :=
  if process.openFails then (read_size, buffer)
  else
    match process.pread64 ea buffer.length with
    | none => (-1, buffer)
    | some bytes => (bytes.length, bytes ++ buffer.drop bytes.length)

/-- A short read tries the words and then the file, a long one the file and then the words. -/
def _read_memory (ea : BitVec 64) (buffer : List UInt8) : Option (Int × List UInt8) :=
  if process.exited then some (0, buffer)
  else if buffer.length > 3 * host.PEEKSIZE then
    let file := readFile process ea buffer 0
    if file.1 = buffer.length then some file
    else (readWords process (buffer.length + 1) 0 ea buffer.length).map fun read =>
      (read.1.length, read.1 ++ file.2.drop read.1.length)
  else (readWords process (buffer.length + 1) 0 ea buffer.length).map fun read =>
    let buffer := read.1 ++ buffer.drop read.1.length
    if read.1.length < buffer.length then
      let file := readFile process read.2 buffer read.1.length
      (max file.1 0, file.2)
    else (read.1.length, buffer)

/-- The memory, with the numbers of requests. -/
structure ptrace_t where
  mem : Nat → UInt8
  peeks : Nat
  pokes : Nat

/-- One word is written, as text or else as data. A request that fails changes nothing. -/
def ptrace_t.poke (s : ptrace_t) (address : Nat) (word : BitVec (8 * host.PEEKSIZE)) : Bool × ptrace_t :=
  if process.poketextFails s.pokes address && process.pokedataFails s.pokes address then (false, s)
  else (true, { s with mem := host.pokeWord s.mem address word, pokes := s.pokes + 1 })

/-- A word with some bytes of the buffer; the rest of it is whatever was there. -/
def memcpyWord (host : host_t) (bytes rest : List UInt8) : BitVec (8 * host.PEEKSIZE) :=
  BitVec.ofNat _ (ofLE (bytes ++ rest))

/-- The words are written one after another, the first and the last one mixed with the memory. -/
def writeWords (junk : Nat → List UInt8) : Nat → ptrace_t → BitVec 64 → List UInt8 → Option (Bool × ptrace_t)
  | 0, _, _, _ => none
  | n + 1, s, ea, bytes =>
    if bytes = [] then some (true, s)
    else
      let nbytes := host.nbytes ea bytes.length
      let address := host.wordAddress ea
      let word := memcpyWord host (bytes.take nbytes) (junk s.pokes)
      if nbytes ≠ host.PEEKSIZE ∧ process.peekFails s.peeks address then some (false, s)
      else
        let word := if nbytes = host.PEEKSIZE then word
          else mixBytes host.PEEKSIZE (host.shift ea) nbytes word (host.peekWord s.mem address)
        let s := if nbytes = host.PEEKSIZE then s else { s with peeks := s.peeks + 1 }
        let poked := s.poke process address word
        if poked.1 then writeWords junk n poked.2 (ea + BitVec.ofNat 64 nbytes) (bytes.drop nbytes)
        else some (false, poked.2)

/-- The number of bytes, or zero, and the memory behind the call. -/
def _write_memory (junk : Nat → List UInt8) (ea : BitVec 64) (bytes : List UInt8) : Option (Nat × (Nat → UInt8)) :=
  if process.exited then some (0, process.mem)
  else (writeWords process junk (bytes.length + 1) ⟨process.mem, 0, 0⟩ ea bytes).map fun written =>
    (if written.1 then bytes.length else 0, written.2.mem)

end

end IdaSdk.LinuxMemory
