import Mathlib.Tactic.Common

/-!
The file channels of the debugger server. A client opens a file on the server, gets a channel number and names
it in the requests that follow; the numbers in those requests come from the wire as they are.
-/

namespace IdaSdk.RemoteFiles

def numChannels : Nat := 16

/-- `channels`; an entry without a file is null. -/
abbrev Channels (File : Type) := Fin numChannels → Option File

/-- The entry that `channels[fn]` is, when there is one. -/
def channelAt (fn : Int32) : Option (Fin numChannels) :=
  if h : fn.toInt.toNat < numChannels then
    if 0 ≤ fn.toInt then some ⟨fn.toInt.toNat, h⟩ else none
  else
    none

/-- The files of the server machine as one request finds them, and the search for a free channel. -/
structure FileApi (File : Type) where
  findFreeChannel : Channels File → Option (Fin numChannels)
  fopen : List Char → Bool → Option File
  qfsize : File → UInt64
  qfread : File → UInt64 → Nat → List UInt8
  qfwrite : File → UInt64 → List UInt8 → Nat
  errno : UInt32
  free_of_found : ∀ channels c, findFreeChannel channels = some c → channels c = none

/-- The requests on files with their unpacked arguments; the other requests leave the channels alone. -/
inductive Request where
  | openFile (path : List Char) (readonly : Bool)
  | closeFile (fn : Int32)
  | readFile (fn : Int32) (off : UInt64) (size : Int32)
  | writeFile (fn : Int32) (off : UInt64) (data : List UInt8)
  | other

inductive Reply where
  | opened (fn : Fin numChannels) (fsize : UInt64)
  | openFailed (errno : UInt32)
  | closed
  | readOk (data : List UInt8)
  | readFailed (s2 : Nat) (errno : UInt32)
  | writeOk (size : Nat)
  | writeFailed (size : Nat) (errno : UInt32)
  | other

/-- A place where `channels[fn]` is evaluated: assigned by an open request, or used by another one. -/
inductive Access where
  | assign (c : Fin numChannels)
  | use (fn : Int32)

structure Outcome (File : Type) where
  channels : Channels File
  reply : Reply
  accesses : List Access

section
variable {File : Type}

/-- The file behind `channels[fn]`. What the code does without one is undefined; here nothing is transferred. -/
def fileAt (channels : Channels File) (fn : Int32) : Option File := (channelAt fn).bind channels

/-- The cases of `on_send_request_interrupt` for files. -/
def step (api : FileApi File) (channels : Channels File) : Request → Outcome File
  | .openFile path readonly =>
    match api.findFreeChannel channels with
    | none => ⟨channels, .openFailed api.errno, []⟩
    | some c =>
      match api.fopen path readonly with
      | none => ⟨Function.update channels c none, .openFailed api.errno, [.assign c]⟩
      | some file =>
        ⟨Function.update channels c (some file), .opened c (if readonly then api.qfsize file else 0), [.assign c]⟩
  | .closeFile fn =>
    match channelAt fn with
    | none => ⟨channels, .closed, []⟩
    | some c => ⟨Function.update channels c none, .closed, [.use fn]⟩
  | .readFile fn off size =>
    if 0 < size then
      let data := ((fileAt channels fn).map fun file => api.qfread file off size.toInt.toNat).getD []
      ⟨channels, if size.toInt ≠ data.length then .readFailed data.length api.errno else .readOk data, [.use fn]⟩
    else
      ⟨channels, if size ≠ 0 then .readFailed 0 api.errno else .readOk [], []⟩
  | .writeFile fn off data =>
    let s2 :=
      if data.isEmpty then 0 else ((fileAt channels fn).map fun file => api.qfwrite file off data).getD 0
    ⟨channels, if data.length ≠ s2 then .writeFailed data.length api.errno else .writeOk data.length, [.use fn]⟩
  | .other => ⟨channels, .other, []⟩

end

/-! ### The requests seen from outside -/

def Request.named : Request → Option Int32
  | .closeFile fn => some fn
  | .readFile fn _ _ => some fn
  | .writeFile fn _ _ => some fn
  | _ => none

def Reply.isError : Reply → Bool
  | .openFailed _ => true
  | .readFailed _ _ => true
  | .writeFailed _ _ => true
  | _ => false

def Reply.openedChannel : Reply → Option (Fin numChannels)
  | .opened c _ => some c
  | _ => none

def Request.closedChannel : Request → Option (Fin numChannels)
  | .closeFile fn => channelAt fn
  | _ => none

/-- The channels that earlier requests opened and no later one closed; the last request comes first. -/
def isOpen : List (Request × Reply) → Fin numChannels → Bool
  | [], _ => false
  | (req, reply) :: past, c =>
    if reply.openedChannel = some c then true
    else if req.closedChannel = some c then false
    else isOpen past c

def NamesOpen (past : List (Request × Reply)) (fn : Int32) : Prop :=
  ∃ c, channelAt fn = some c ∧ isOpen past c = true

/-- Every use of the table is inside it and meets an open channel, an open request takes a free entry, and a
request for another channel is answered with an error and changes nothing. -/
structure StepSafe {File : Type} (past : List (Request × Reply)) (channels : Channels File) (req : Request)
    (out : Outcome File) : Prop where
  assign : ∀ c, .assign c ∈ out.accesses → isOpen past c = false
  use : ∀ fn, .use fn ∈ out.accesses → NamesOpen past fn
  rejected : ∀ fn, req.named = some fn → ¬ NamesOpen past fn → out.reply.isError = true ∧ out.channels = channels

/-- The request names an open channel, or is a read request that fails before the channel is looked up. -/
def Acceptable (past : List (Request × Reply)) (req : Request) : Prop :=
  ∀ fn, req.named = some fn → NamesOpen past fn ∨ ∃ off size, req = .readFile fn off size ∧ size < 0

/-- `P` holds of every request of the sequence with what came before it. -/
def EveryStep {File : Type} (P : List (Request × Reply) → Channels File → Request → Outcome File → Prop) :
    List (Request × Reply) → Channels File → List (FileApi File × Request) → Prop
  | _, _, [] => True
  | past, channels, (api, req) :: rest =>
    P past channels req (step api channels req) ∧
      EveryStep P ((req, (step api channels req).reply) :: past) (step api channels req).channels rest

section
variable {File : Type} {past : List (Request × Reply)} {channels : Channels File} {api : FileApi File} {req : Request}

/-- The entries with a file are the open channels. -/
def Tracks (past : List (Request × Reply)) (channels : Channels File) : Prop :=
  ∀ c, (channels c).isSome = isOpen past c

theorem Tracks.step (h : Tracks past channels) (api : FileApi File) (req : Request) :
    Tracks ((req, (step api channels req).reply) :: past) (step api channels req).channels := by
  intro c
  cases req with
  | openFile path readonly =>
      simp only [RemoteFiles.step]
      split
      · simpa [isOpen, Reply.openedChannel, Request.closedChannel] using h c
      rename_i c' hfree
      split
      · by_cases hc : c = c'
        · subst hc
          have hnone := api.free_of_found channels c hfree
          have hopen := h c
          rw [hnone] at hopen
          simp [isOpen, Reply.openedChannel, Request.closedChannel, ← hopen]
        · simpa [isOpen, Reply.openedChannel, Request.closedChannel, hc] using h c
      · by_cases hc : c = c'
        · subst hc
          simp [isOpen, Reply.openedChannel]
        · have hne : c' ≠ c := fun he => hc he.symm
          simpa [isOpen, Reply.openedChannel, Request.closedChannel, hc, hne] using h c
  | closeFile fn =>
      simp only [RemoteFiles.step]
      split
      · rename_i hfn
        simpa [isOpen, Reply.openedChannel, Request.closedChannel, hfn] using h c
      rename_i c' hfn
      by_cases hc : c = c'
      · subst hc
        simp [isOpen, Reply.openedChannel, Request.closedChannel, hfn]
      · have hne : c' ≠ c := fun he => hc he.symm
        simpa [isOpen, Reply.openedChannel, Request.closedChannel, hfn, hc, hne] using h c
  | readFile fn off size =>
      have hreply : (RemoteFiles.step api channels (.readFile fn off size)).reply.openedChannel = none := by
        simp only [RemoteFiles.step]
        split <;> split <;> rfl
      have hchannels : (RemoteFiles.step api channels (.readFile fn off size)).channels = channels := by
        simp only [RemoteFiles.step]
        split <;> rfl
      rw [isOpen, hreply, hchannels]
      simpa [Request.closedChannel] using h c
  | writeFile fn off data =>
      have hreply : (RemoteFiles.step api channels (.writeFile fn off data)).reply.openedChannel = none := by
        simp only [RemoteFiles.step]
        rw [apply_ite Reply.openedChannel]
        exact ite_self none
      rw [isOpen, hreply]
      simpa [Request.closedChannel, RemoteFiles.step] using h c
  | other => simpa [isOpen, Reply.openedChannel, Request.closedChannel, RemoteFiles.step] using h c

/-- One request is handled safely exactly when it is acceptable. -/
theorem stepSafe_iff (h : Tracks past channels) (api : FileApi File) (req : Request) :
    StepSafe past channels req (step api channels req) ↔ Acceptable past req := by
  cases req with
  | openFile path readonly =>
      refine ⟨fun _ _ hfn => (nomatch hfn), fun _ => ⟨fun c hc => ?_, fun fn hfn => ?_, ?_⟩⟩
      · simp only [step] at hc
        split at hc
        · simp at hc
        rename_i c' hfree
        have hopen := h c'
        rw [api.free_of_found channels c' hfree] at hopen
        split at hc <;>
          · obtain rfl : c = c' := by simpa using hc
            exact hopen.symm
      · simp only [step] at hfn
        split at hfn
        · simp at hfn
        · split at hfn <;> simp at hfn
      · intro fn hfn
        cases hfn
  | closeFile fn =>
      refine ⟨fun hsafe fn' hfn => .inl ?_, fun hacc => ⟨fun c hc => ?_, fun fn' hfn => ?_, fun fn' hfn hclosed => ?_⟩⟩
      · by_contra hclosed
        have herror := (hsafe.rejected fn' hfn hclosed).1
        simp only [step] at herror
        split at herror <;> cases herror
      · simp only [step] at hc
        split at hc <;> simp at hc
      · simp only [step] at hfn
        split at hfn
        · simp at hfn
        · obtain rfl : fn' = fn := by simpa using hfn
          exact (hacc fn' rfl).resolve_right (by simp)
      · exact absurd ((hacc fn' hfn).resolve_right (by simp)) hclosed
  | readFile fn off size =>
      by_cases hsize : 0 < size
      · have hpos : ¬ size < 0 := by
          rw [Int32.lt_iff_toInt_lt] at hsize ⊢
          omega
        have hacc_iff : Acceptable past (.readFile fn off size) ↔ NamesOpen past fn := by
          refine ⟨fun hacc => (hacc fn rfl).resolve_right ?_, fun hopen fn' hfn => .inl ?_⟩
          · rintro ⟨off', size', heq, hneg⟩
            obtain ⟨-, -, rfl⟩ : fn = fn ∧ off = off' ∧ size = size' := by simpa using heq
            exact hpos hneg
          · cases hfn
            exact hopen
        rw [hacc_iff]
        refine ⟨fun hsafe => hsafe.use fn (by simp [step, hsize]), fun hopen => ⟨fun c hc => ?_, fun fn' hfn => ?_, ?_⟩⟩
        · simp [step, hsize] at hc
        · obtain rfl : fn' = fn := by simpa [step, hsize] using hfn
          exact hopen
        · intro fn' hfn hclosed
          cases hfn
          exact absurd hopen hclosed
      · refine ⟨fun hsafe fn' hfn => ?_, fun hacc => ⟨fun c hc => ?_, fun fn' hfn => ?_, fun fn' hfn hclosed => ?_⟩⟩
        · cases hfn
          by_cases hopen : NamesOpen past fn
          · exact .inl hopen
          refine .inr ⟨off, size, rfl, ?_⟩
          have herror := (hsafe.rejected fn rfl hopen).1
          have hne : size ≠ 0 := by
            rintro rfl
            simp [step, Reply.isError] at herror
          exact Int32.lt_of_le_of_ne (Int32.not_lt.mp hsize) hne
        · simp [step, hsize] at hc
        · simp [step, hsize] at hfn
        · obtain ⟨off', size', heq, hneg⟩ := (hacc fn' hfn).resolve_left hclosed
          obtain ⟨-, -, rfl⟩ : fn = fn' ∧ off = off' ∧ size = size' := by simpa using heq
          have hne : size ≠ 0 := Int32.ne_of_lt hneg
          simp [step, hsize, hne, Reply.isError]
  | writeFile fn off data =>
      have hacc_iff : Acceptable past (.writeFile fn off data) ↔ NamesOpen past fn := by
        refine ⟨fun hacc => (hacc fn rfl).resolve_right (by simp), fun hopen fn' hfn => .inl ?_⟩
        cases hfn
        exact hopen
      rw [hacc_iff]
      refine ⟨fun hsafe => hsafe.use fn (by simp [step]), fun hopen => ⟨fun c hc => ?_, fun fn' hfn => ?_, ?_⟩⟩
      · simp [step] at hc
      · obtain rfl : fn' = fn := by simpa [step] using hfn
        exact hopen
      · intro fn' hfn hclosed
        cases hfn
        exact absurd hopen hclosed
  | other =>
      refine ⟨fun _ _ hfn => (nomatch hfn), fun _ => ⟨?_, ?_, ?_⟩⟩
      · simp [step]
      · simp [step]
      · exact fun _ hfn => nomatch hfn

theorem everyStep_iff (h : Tracks past channels) (reqs : List (FileApi File × Request)) :
    EveryStep StepSafe past channels reqs ↔
      EveryStep (fun past _ req _ => Acceptable past req) past channels reqs := by
  induction reqs generalizing past channels with
  | nil => exact Iff.rfl
  | cons r reqs ih =>
      obtain ⟨api, req⟩ := r
      rw [EveryStep, EveryStep, stepSafe_iff h, ih (h.step api req)]

/-- The channels of a session that begins with an empty table are used safely exactly when every request names
an open channel or fails before the lookup. -/
theorem channels_safe_iff (reqs : List (FileApi File × Request)) :
    EveryStep StepSafe [] (fun _ => none) reqs ↔
      EveryStep (fun past _ req _ => Acceptable past req) [] (fun _ : Fin numChannels => (none : Option File)) reqs :=
  everyStep_iff (fun _ => rfl) reqs

/-- A read request on channel 16 of a new session. -/
theorem channels_safe_read_unopened :
    ¬ EveryStep StepSafe [] (fun _ => none)
      [((⟨fun _ => none, fun _ _ => none, fun _ => 0, fun _ _ _ => [], fun _ _ _ => 0, 0, by simp⟩ : FileApi Unit),
        .readFile 16 0 1)] := by
  intro h
  obtain ⟨c, hc, -⟩ := h.1.use 16 (by simp [step])
  have hnone : channelAt 16 = none := by decide
  simp [hnone] at hc

end

end IdaSdk.RemoteFiles
