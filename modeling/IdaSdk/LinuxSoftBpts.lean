import IdaSdk.LinuxMemoryAccess
import Mathlib.Logic.Function.Basic

/-!
Software breakpoints of the Linux debugger on x86. An addition reads the byte in the memory, which the client keeps, and
writes the code of the breakpoint; a deletion writes the byte back. What is written has one byte, so that a request that
fails leaves the memory as it is.
-/

namespace IdaSdk.LinuxMemory
open Function

variable {host : host_t}

def bpt_code : List UInt8 := [0xCC]

/-- The memory, the two tables of the debugger, and `orgbytes` of the breakpoints that the client has added. -/
structure Debmod where
  mem : Nat → UInt8
  bpts : BitVec 64 → Option (List UInt8)
  removed_bpts : BitVec 64 → Bool
  orgbytes : BitVec 64 → Option (List UInt8)

/-- One call: the process as each access meets it, the bytes in `saved` and in words that are not set before, and the
result of `add_hwbpt` or `del_hwbpt`. -/
structure Env (host : host_t) (mem : Nat → UInt8) where
  process : Fin 3 → process_t host
  mem_eq : ∀ i, (process i).mem = mem
  saved : UInt8
  junk : Nat → List UInt8
  hwbpt : Bool

/-- `dbg_add_bpt` of one byte, as `dbg_update_bpts` calls it for `BPT_SOFT`: the code, and `orgbytes`. -/
def dbg_add_bpt (s : Debmod) (ea : BitVec 64) (env : Env host s.mem) : Option (Int × List UInt8 × Debmod) := do
  let (nread, org) ← _read_memory (env.process 0) ea [0]
  if nread ≤ 0 then return (-2, org, s)
  let (nsaved, saved) ← _read_memory (env.process 1) ea [env.saved]
  if nsaved = 0 then return (env.hwbpt.toInt, org, s)
  let (count, mem) ← _write_memory (env.process 2) env.junk ea bpt_code
  if count = bpt_code.length then
    return (1, org, { s with
      mem, bpts := update s.bpts ea (some saved), removed_bpts := update s.removed_bpts ea false })
  return (env.hwbpt.toInt, org, { s with mem })

/-- `dbg_del_bpt` of `BPT_SOFT`. -/
def dbg_del_bpt (s : Debmod) (ea : BitVec 64) (orig_bytes : List UInt8) (env : Env host s.mem) :
    Option (Bool × Debmod) := do
  let (count, mem) ← _write_memory (env.process 0) env.junk ea orig_bytes
  if count = orig_bytes.length then
    return (true, { s with mem, removed_bpts := update s.removed_bpts ea true })
  return (env.hwbpt, { s with mem })

inductive SoftCall where
  | add (ea : BitVec 64)
  | del (ea : BitVec 64)

/-- A call of the client, which has `orgbytes` exactly of the breakpoints that are there for it. -/
def softStep (s : Debmod) (env : Env host s.mem) : SoftCall → Option Debmod
  | .add ea => (dbg_add_bpt s ea env).map fun r =>
      if 0 < r.1 then { r.2.2 with orgbytes := update s.orgbytes ea (some r.2.1) } else r.2.2
  | .del ea => (s.orgbytes ea).bind fun org => (dbg_del_bpt s ea org env).map fun r =>
      if r.1 then { r.2 with orgbytes := update s.orgbytes ea none } else r.2

/-- The debugger has a breakpoint in the memory. -/
def Debmod.Active (s : Debmod) (ea : BitVec 64) : Prop := (s.bpts ea).isSome = true ∧ s.removed_bpts ea = false

/-- An addition is for an address of the process that has no breakpoint; a deletion of a breakpoint in the memory does
not find one in a debug register instead. -/
def SoftCall.Proper (s : Debmod) (env : Env host s.mem) : SoftCall → Prop
  | .add ea => ea.toNat < 2 ^ (8 * host.PEEKSIZE) ∧ s.orgbytes ea = none
  | .del ea => s.Active ea → env.hwbpt = false

inductive SoftRun (host : host_t) (orig : Nat → UInt8) : Debmod → Prop
  | start : SoftRun host orig ⟨orig, fun _ => none, fun _ => false, fun _ => none⟩
  | step {s s'} (env : Env host s.mem) (call : SoftCall) (h : SoftRun host orig s) (hc : call.Proper s env)
      (hs : softStep s env call = some s') : SoftRun host orig s'

section Accesses
variable {process : process_t host} {ea : BitVec 64} {buffer buffer' : List UInt8} {count : Int}

theorem length_readFile (read_size : Int) : (readFile process ea buffer read_size).2.length = buffer.length := by
  unfold readFile
  split
  · rfl
  split
  · rfl
  · next bytes hfile =>
      have hle := process.pread64_le hfile
      rw [List.length_append, List.length_drop]
      omega

theorem length_read (h : _read_memory process ea buffer = some (count, buffer')) : buffer'.length = buffer.length := by
  obtain ⟨k, hk⟩ := stops_exists process 0 ea buffer.length
  have hle := hk.le
  have hover (rest : List UInt8) (hrest : rest.length = buffer.length) :
      (memoryAt process ea k ++ rest.drop (memoryAt process ea k).length).length = buffer.length := by
    rw [List.length_append, List.length_drop, length_memoryAt]
    omega
  rw [_read_memory, readWords_eq hk (Nat.lt_succ_self _)] at h
  simp only [Option.map_some] at h
  have hbuffer (res : Int × List UInt8) (hres : some res = some (count, buffer')) :
      res.2.length = buffer.length → buffer'.length = buffer.length := by
    obtain rfl := Option.some.inj hres
    exact id
  split_ifs at h <;> apply hbuffer _ h
  · rfl
  · exact length_readFile 0
  · exact hover _ (length_readFile 0)
  · exact (length_readFile _).trans (hover _ rfl)
  · exact hover _ rfl

theorem read_one {x : UInt8} (h : _read_memory process ea [x] = some (count, buffer)) (hpos : 0 < count) :
    buffer = [process.mem (place host ea 0)] := by
  obtain ⟨count', buffer', hread, hbytes⟩ := (@reads_iff host process ea [x]).mpr
    (.inr (.inr (.inr fun k _ hk hlt => by rw [List.length_singleton] at hlt; omega)))
  obtain ⟨rfl, rfl⟩ := Prod.mk.inj (Option.some.inj (hread.symm.trans h))
  have hle : count' ≤ 1 := hbytes.le
  obtain rfl : count' = 1 := by omega
  have hlen : buffer'.length ≤ 1 := (length_read hread).le
  have htake : buffer'.take 1 = [process.mem (place host ea 0)] := hbytes.bytes
  rwa [List.take_of_length_le hlen] at htake

theorem write_one {junk : Nat → List UInt8} {c : UInt8} {count : Nat} {mem : Nat → UInt8}
    (h : _write_memory process junk ea [c] = some (count, mem)) :
    mem = if count = 1 then update process.mem (place host ea 0) c else process.mem := by
  split
  · case isTrue hcount =>
    obtain ⟨count', mem', hwrite, hall⟩ := @writes host [c] process junk ea (Nat.one_lt_two_pow (by decide))
    obtain ⟨rfl, rfl⟩ := Prod.mk.inj (Option.some.inj (hwrite.symm.trans h))
    have hw := hall hcount
    funext a
    by_cases ha : a = place host ea 0
    · rw [ha, update_self]
      exact hw.inside 0 Nat.one_pos
    · rw [update_of_ne ha]
      refine hw.outside a fun i hi => ?_
      obtain rfl := Nat.lt_one_iff.mp hi
      exact ha
  · case isFalse hcount =>
    rw [_write_memory] at h
    split at h
    · cases h
      rfl
    obtain ⟨⟨ok, s⟩, hwritten, hres⟩ := Option.map_eq_some_iff.mp h
    obtain ⟨rfl, rfl⟩ := Prod.mk.inj hres
    obtain rfl : ok = false := by
      cases ok with
      | false => rfl
      | true => exact absurd rfl hcount
    obtain hfails | ⟨word, s', -, hmem, hstep⟩ :=
      writeWords_step process junk 1 ⟨process.mem, 0, 0⟩ ea (List.cons_ne_nil c [])
    · cases hfails.symm.trans hwritten
      rfl
    · rw [List.length_singleton, hstep] at hwritten
      unfold ptrace_t.poke at hwritten
      by_cases hfail : (process.poketextFails s'.pokes (host.wordAddress ea) &&
          process.pokedataFails s'.pokes (host.wordAddress ea)) = true
      · rw [if_pos hfail] at hwritten
        cases hwritten
        exact hmem
      · rw [if_neg hfail, if_pos rfl, List.length_singleton,
          List.drop_of_length_le (nbytes_pos host ea Nat.one_pos)] at hwritten
        cases hwritten

end Accesses

/-! ### Runs -/

/-- The code is in the memory, and the breakpoint is recorded. -/
def Debmod.write (s : Debmod) (ea : BitVec 64) (saved : List UInt8) : Debmod :=
  { s with
    mem := update s.mem ea.toNat 0xCC, bpts := update s.bpts ea (some saved),
    removed_bpts := update s.removed_bpts ea false }

def Debmod.unwrite (s : Debmod) (ea : BitVec 64) (c : UInt8) : Debmod :=
  { s with mem := update s.mem ea.toNat c, removed_bpts := update s.removed_bpts ea true }

section Runs
variable {orig : Nat → UInt8} {s s' t : Debmod} {ea : BitVec 64}

theorem active_write {saved : List UInt8} {ea' : BitVec 64} :
    (s.write ea saved).Active ea' ↔ ea' = ea ∨ s.Active ea' := by
  by_cases h : ea' = ea <;> simp [Debmod.Active, Debmod.write, h]

theorem active_unwrite {c : UInt8} {ea' : BitVec 64} :
    (s.unwrite ea c).Active ea' ↔ ea' ≠ ea ∧ s.Active ea' := by
  by_cases h : ea' = ea <;> simp [Debmod.Active, Debmod.unwrite, h]

theorem place_zero (h : ea.toNat < 2 ^ (8 * host.PEEKSIZE)) : place host ea 0 = ea.toNat := Nat.mod_eq_of_lt h

/-- An addition has the byte in the memory, and either changes nothing or writes its code. -/
theorem dbg_add_spec (env : Env host s.mem) (hin : ea.toNat < 2 ^ (8 * host.PEEKSIZE)) {code : Int} {org : List UInt8}
    (h : dbg_add_bpt s ea env = some (code, org, t)) :
    (0 < code → org = [s.mem ea.toNat]) ∧ (t = s ∨ code = 1 ∧ ∃ saved, t = s.write ea saved) := by
  obtain ⟨⟨nread, org'⟩, hread, h⟩ := Option.bind_eq_some_iff.mp h
  dsimp only at h
  split_ifs at h with hneg
  · cases h
    exact ⟨fun hpos => absurd hpos (by decide), .inl rfl⟩
  have horg := env.mem_eq 0 ▸ read_one hread (by omega)
  rw [place_zero hin] at horg
  obtain ⟨⟨nsaved, saved⟩, -, h⟩ := Option.bind_eq_some_iff.mp h
  dsimp only at h
  split_ifs at h
  · cases h
    exact ⟨fun _ => horg, .inl rfl⟩
  obtain ⟨⟨count, mem⟩, hwrite, h⟩ := Option.bind_eq_some_iff.mp h
  have hmem := env.mem_eq 2 ▸ write_one hwrite
  rw [place_zero hin] at hmem
  dsimp only at h
  by_cases hcount : count = bpt_code.length
  · rw [if_pos hcount] at h
    rw [if_pos (show count = 1 from hcount)] at hmem
    cases h
    exact ⟨fun _ => horg, .inr ⟨rfl, saved, by rw [hmem]; rfl⟩⟩
  · rw [if_neg hcount] at h
    rw [if_neg (show ¬count = 1 from hcount)] at hmem
    cases h
    exact ⟨fun _ => horg, .inl (by rw [hmem])⟩

/-- A deletion either changes nothing or writes the byte. -/
theorem dbg_del_spec (env : Env host s.mem) (hin : ea.toNat < 2 ^ (8 * host.PEEKSIZE)) {c : UInt8} {ok : Bool}
    (h : dbg_del_bpt s ea [c] env = some (ok, t)) : ok = env.hwbpt ∧ t = s ∨ ok = true ∧ t = s.unwrite ea c := by
  obtain ⟨⟨count, mem⟩, hwrite, h⟩ := Option.bind_eq_some_iff.mp h
  have hmem := env.mem_eq 0 ▸ write_one hwrite
  rw [place_zero hin] at hmem
  dsimp only at h
  by_cases hcount : count = [c].length
  · rw [if_pos hcount] at h
    rw [if_pos (show count = 1 from hcount)] at hmem
    cases h
    exact .inr ⟨rfl, by rw [hmem]; rfl⟩
  · rw [if_neg hcount] at h
    rw [if_neg (show ¬count = 1 from hcount)] at hmem
    cases h
    exact .inl ⟨rfl, by rw [hmem]⟩

/-- The memory is the original one, but for the code of the breakpoints in it, whose original bytes the client has. -/
structure Patched (host : host_t) (orig : Nat → UInt8) (s : Debmod) : Prop where
  code : ∀ ea, s.Active ea → s.mem ea.toNat = 0xCC
  other : ∀ a, (∀ ea, s.Active ea → ea.toNat ≠ a) → s.mem a = orig a
  known : ∀ ea, s.Active ea → s.orgbytes ea ≠ none
  kept : ∀ ea org, s.orgbytes ea = some org → ea.toNat < 2 ^ (8 * host.PEEKSIZE) ∧ org = [orig ea.toNat]

theorem Patched.original (h : Patched host orig s) (hea : s.orgbytes ea = none) : s.mem ea.toNat = orig ea.toNat := by
  apply h.other
  intro ea' hactive heq
  obtain rfl := BitVec.eq_of_toNat_eq heq
  exact h.known ea' hactive hea

theorem Patched.keep (h : Patched host orig s) (org : Option (List UInt8)) (hknown : s.Active ea → org ≠ none)
    (hkept : ∀ bytes ∈ org, ea.toNat < 2 ^ (8 * host.PEEKSIZE) ∧ bytes = [orig ea.toNat]) :
    Patched host orig { s with orgbytes := update s.orgbytes ea org } := by
  refine ⟨h.code, h.other, fun ea' hactive => ?_, fun ea' bytes hbytes => ?_⟩
  · simp only [update_apply]
    split_ifs with heq
    · exact hknown (heq ▸ hactive)
    · exact h.known ea' hactive
  · simp only [update_apply] at hbytes
    split_ifs at hbytes with heq
    · exact heq ▸ hkept bytes hbytes
    · exact h.kept ea' bytes hbytes

theorem Patched.write (h : Patched host orig s) (hea : s.orgbytes ea ≠ none) (saved : List UInt8) :
    Patched host orig (s.write ea saved) := by
  refine ⟨fun ea' h' => ?_, fun a hnot => ?_, fun ea' h' => ?_, h.kept⟩
  · rw [active_write] at h'
    simp only [Debmod.write, update_apply]
    split_ifs with heq
    · rfl
    · exact h.code ea' (h'.resolve_left fun hea => heq (hea ▸ rfl))
  · simp only [active_write] at hnot
    refine (update_of_ne (hnot ea (.inl rfl)).symm _ _).trans ?_
    exact h.other a fun ea' h' => hnot ea' (.inr h')
  · obtain rfl | h' := active_write.mp h'
    · exact hea
    · exact h.known ea' h'

theorem Patched.unwrite (h : Patched host orig s) : Patched host orig (s.unwrite ea (orig ea.toNat)) := by
  refine ⟨fun ea' h' => ?_, fun a hnot => ?_, fun ea' h' => h.known ea' (active_unwrite.mp h').2, h.kept⟩
  · obtain ⟨hne, h'⟩ := active_unwrite.mp h'
    refine (update_of_ne (fun heq => hne (BitVec.eq_of_toNat_eq heq)) _ _).trans ?_
    exact h.code ea' h'
  · simp only [active_unwrite] at hnot
    simp only [Debmod.unwrite, update_apply]
    split_ifs with heq
    · rw [heq]
    · exact h.other a fun ea' h' hea => hnot ea' ⟨fun he => heq (he ▸ hea.symm), h'⟩ hea

theorem softStep_patched (h : Patched host orig s) (env : Env host s.mem) (call : SoftCall) (hc : call.Proper s env)
    (hs : softStep s env call = some s') : Patched host orig s' := by
  cases call with
  | add ea =>
      obtain ⟨hin, hnone⟩ := hc
      obtain ⟨⟨code, org, t⟩, hadd, rfl⟩ := Option.map_eq_some_iff.mp hs
      obtain ⟨horg, hres⟩ := dbg_add_spec env hin hadd
      rw [h.original hnone] at horg
      have hkept (hpos : 0 < code) : Patched host orig { s with orgbytes := update s.orgbytes ea (some org) } := by
        refine h.keep (some org) (fun _ => Option.some_ne_none org) fun bytes hbytes => ⟨hin, ?_⟩
        rw [← Option.some.inj hbytes, horg hpos]
      dsimp only
      obtain rfl | ⟨rfl, saved, rfl⟩ := hres
      · split_ifs with hpos
        · exact hkept hpos
        · exact h
      · rw [if_pos Int.one_pos]
        have hnew : update s.orgbytes ea (some org) ea ≠ none := by simp
        exact (hkept Int.one_pos).write hnew saved
  | del ea =>
      obtain ⟨org, horg, hs⟩ := Option.bind_eq_some_iff.mp hs
      obtain ⟨⟨ok, t⟩, hdel, rfl⟩ := Option.map_eq_some_iff.mp hs
      obtain ⟨hin, rfl⟩ := h.kept ea org horg
      have hforget (t : Debmod) (ht : Patched host orig t) (hnot : ¬t.Active ea) :
          Patched host orig { t with orgbytes := update t.orgbytes ea none } :=
        ht.keep none (fun hactive => absurd hactive hnot) fun _ hbytes => nomatch hbytes
      dsimp only
      obtain ⟨rfl, rfl⟩ | ⟨rfl, rfl⟩ := dbg_del_spec env hin hdel
      · split_ifs with hok
        · exact hforget t h fun hactive => Bool.false_ne_true ((hc hactive).symm.trans hok)
        · exact h
      · rw [if_pos rfl]
        exact hforget _ h.unwrite fun hactive => (active_unwrite.mp hactive).1 rfl

theorem SoftRun.patched (h : SoftRun host orig s) : Patched host orig s := by
  induction h with
  | start =>
      refine ⟨?_, fun _ _ => rfl, ?_, fun ea org horg => by cases horg⟩
      · rintro ea ⟨hnone, -⟩
        cases hnone
      · rintro ea ⟨hnone, -⟩
        cases hnone
  | step env call _ hc hs ih => exact softStep_patched ih env call hc hs

/-- Whatever fails in between, the memory has the code of the recorded breakpoints and is the original one elsewhere;
behind the deletion of all it is the original one. -/
theorem soft_bpts_transparent (h : SoftRun host orig s) :
    Patched host orig s ∧ ((∀ ea, s.orgbytes ea = none) → s.mem = orig) := by
  refine ⟨h.patched, fun hnone => ?_⟩
  funext a
  exact h.patched.other a fun ea hactive => absurd (hnone ea) (h.patched.known ea hactive)

end Runs

/-- The process stays as it is. -/
def Env.of (process : process_t host) : Env host process.mem := ⟨fun _ => process, fun _ => rfl, 0, fun _ => [], false⟩

theorem soft_bpts_transparent_added : ∃ s, s.Active 1 ∧ Patched ⟨8, Or.inr rfl⟩ (guarded true).mem s := by
  let start : Debmod := ⟨(guarded true).mem, fun _ => none, fun _ => false, fun _ => none⟩
  have hadd : ((softStep start (Env.of (guarded true)) (.add 1)).map fun s =>
      ((s.bpts 1).isSome, s.removed_bpts 1)) = some (true, false) := by decide +kernel
  obtain ⟨s, hs, hactive⟩ := Option.map_eq_some_iff.mp hadd
  have hrun : SoftRun ⟨8, Or.inr rfl⟩ (guarded true).mem s :=
    .step _ (.add 1) .start ⟨by decide, rfl⟩ hs
  exact ⟨s, Prod.mk.inj hactive, (soft_bpts_transparent hrun).1⟩

end IdaSdk.LinuxMemory
