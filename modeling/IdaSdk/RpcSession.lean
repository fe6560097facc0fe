import Mathlib.Data.LawfulXor.Basic
import Mathlib.Tactic.Common

/-!
One connection to the debugger server. The server opens the session and waits for the password, then it serves
the requests of the client, and while it serves one it may send requests of its own and wait for the replies.
Whatever arrives during such a wait goes through the same loop.
-/

namespace IdaSdk.RpcHandler

structure Packet where
  code : Nat
  payload : List UInt8
deriving DecidableEq

def RPC_OK : Nat := 0
def RPC_UNK : Nat := 1
def RPC_MEM : Nat := 2
def RPC_OPEN : Nat := 3
def RPC_CANCELLED : Nat := 6
def RPC_ERROR : Nat := 52

/-- What the wait for a packet meets: a call of the progress callback, a network error, or a packet. -/
inductive Arrival where
  | progress
  | failed
  | packet (p : Packet)

inductive Event where
  | received (p : Packet)
  | dispatched (p : Packet)
  | polled

/-- The part of the handler that commands work on. -/
structure Handler (σ : Type) where
  pollDebugEvents : Bool
  dbgMod : σ

/-- A piece of server code that may talk to the client: it returns, or it calls `send_request_and_receive_reply`
and goes on with the reply and with what the handler is by then. -/
inductive Talk (σ α : Type) where
  | ret (h : Handler σ) (a : α)
  | call (h : Handler σ) (req : Option Packet) (next : Option Packet → Handler σ → Talk σ α)

def Talk.bind {σ α β : Type} : Talk σ α → (Handler σ → α → Talk σ β) → Talk σ β
  | .ret h a, f => f h a
  | .call h req next, f => .call h req fun rp h => (next rp h).bind f

/-- `debmod_t` as the handler uses it; `command` is one case of `on_send_request_interrupt`. -/
structure DebugModule where
  State : Type
  create : State
  pid : State → Int
  command : Packet → Handler State → Talk State (Option Packet)
  pollEvents : Handler State → Talk State Int
  killProcess : Handler State → Talk State Unit
  prepareBrokenConnection : Handler State → Talk State Unit
  dbgTerm : Handler State → Talk State Unit

/-- `broken_conn_hndl_t`. -/
inductive OnBrokenConn where
  | default
  | keepDebmod
  | killProcess
deriving DecidableEq

/-- The world around the handler: the packing library, the network and the options of the server. `sendFails` says
which `send_data` fail, `dwarning` which requests the warning about a reply code makes. -/
structure Env where
  openRequest : Packet
  unpackDd : List UInt8 → Nat × List UInt8
  unpackStr : List UInt8 → Option (List UInt8)
  sendFails : Nat → Bool
  dwarning : Nat → List Packet
  brokenConnection : Bool
  onBrokenConn : OnBrokenConn

structure Session (σ : Type) where
  loggedIn : Bool
  handler : Handler σ
  inbox : List Arrival
  sent : Nat
  trace : List Event

/-- `exited` is `qexit`. -/
inductive Outcome (σ α : Type) where
  | done (s : Session σ) (a : α)
  | exited (s : Session σ)

namespace Outcome

variable {σ α β : Type}

def session : Outcome σ α → Session σ
  | .done s _ => s
  | .exited s => s

def bind : Outcome σ α → (Session σ → α → Outcome σ β) → Outcome σ β
  | .done s a, f => f s a
  | .exited s, _ => .exited s

end Outcome

section
variable {σ α : Type}

/-- Runs a piece of server code; `call` is the loop that serves its requests. -/
def runTalk (call : Session σ → Option Packet → Outcome σ (Option Packet)) : Talk σ α → Session σ → Outcome σ α
  | .ret h a, s => .done { s with handler := h } a
  | .call h req next, s =>
    (call { s with handler := h } req).bind fun s rp => runTalk call (next rp s.handler) s

def notify (call : Session σ → Option Packet → Outcome σ (Option Packet)) : List Packet → Session σ → Outcome σ Unit
  | [], s => .done s ()
  | req :: reqs, s => (call s (some req)).bind fun s _ => notify call reqs s

/-- `send_data` at the head of the loop, with the check for error packets. -/
def sendRequest (env : Env) (s : Session σ) : Option Packet → Outcome σ Bool
  | none => .done s true
  | some req =>
    let failed := env.sendFails s.sent
    let s := { s with sent := s.sent + 1 }
    if failed then .done s false
    else if req.code = RPC_ERROR then .exited s
    else .done s true
end

section
variable (M : DebugModule) (env : Env)

/-- `on_send_request_interrupt`. -/
def onSendRequestInterrupt (call : Session M.State → Option Packet → Outcome M.State (Option Packet))
    (s : Session M.State) (rp : Packet) : Outcome M.State (Option Packet) :=
  let savedPollMode := s.handler.pollDebugEvents
  let s := { s with handler := { s.handler with pollDebugEvents := false }, trace := .dispatched rp :: s.trace }
  (runTalk call (M.command rp s.handler) s).bind fun s req =>
    .done (if savedPollMode then { s with handler := { s.handler with pollDebugEvents := true } } else s) req

/-- `on_recv_packet_progress`. -/
def onRecvPacketProgress (call : Session M.State → Option Packet → Outcome M.State (Option Packet))
    (s : Session M.State) : Outcome M.State Int :=
  if s.handler.pollDebugEvents then
    let s := { s with handler := { s.handler with pollDebugEvents := false }, trace := .polled :: s.trace }
    runTalk call (M.pollEvents s.handler) s
  else
    .done s 0

/-- `send_request_and_receive_reply`; `req` is empty when there is nothing to send. The number bounds how many
arrivals are looked at. -/
def sendRequestAndReceiveReply : Nat → Session M.State → Option Packet → Outcome M.State (Option Packet)
  | 0, s, _ => .done s none
  | n + 1, s, req =>
    (sendRequest env s req).bind fun s sent =>
      if sent = false then
        .done s none
      else
        match s.inbox with
        | [] => .done s none
        | .failed :: rest => .done { s with inbox := rest } none
        | .progress :: rest =>
          (onRecvPacketProgress M (sendRequestAndReceiveReply n) { s with inbox := rest }).bind fun s code =>
            if code = 0 then sendRequestAndReceiveReply n s none else .done s none
        | .packet rp :: rest =>
          let s := { s with inbox := rest, trace := .received rp :: s.trace }
          if rp.code = RPC_UNK ∨ rp.code = RPC_MEM then
            (notify (sendRequestAndReceiveReply n) (env.dwarning rp.code) s).bind fun s _ => .done s none
          else if rp.code = RPC_CANCELLED then
            .done s none
          else if rp.code = RPC_OK then
            .done s (some rp)
          else if s.loggedIn = false then
            .done s none
          else
            (onSendRequestInterrupt M (sendRequestAndReceiveReply n) s rp).bind fun s req =>
              sendRequestAndReceiveReply n s req

/-- The comparison that does not stop at the first difference. -/
def passwordMatches (str : Option (List UInt8)) (pass : List UInt8) : Bool :=
  match str with
  | none => false
  | some str =>
    let res := str.length ^^^ pass.length
    let res := if pass.length ≠ 0 then
        (List.range str.length).foldl
          (fun res i => res ||| ((pass.getD (i % pass.length) 0).toNat ^^^ (str.getD i 0).toNat)) res
      else res
    res == 0

/-- The first half of `handle`. Returns `ok` and `send_response`. -/
def openSession (password : List UInt8) (n : Nat) (s : Session M.State) : Outcome M.State (Bool × Bool) :=
  (sendRequestAndReceiveReply M env n s (some env.openRequest)).bind fun s rp =>
    match rp with
    | none => .done s (false, false)
    | some rp =>
      let (version, rest) := env.unpackDd rp.payload
      if version = 0 then
        .done { s with loggedIn := false } (false, false)
      else
        let ok := password.isEmpty || passwordMatches (env.unpackStr rest) password
        .done { s with loggedIn := ok } (ok, true)

/-- The answer to the client and the main loop. -/
def serveRequests (n : Nat) (s : Session M.State) (r : Bool × Bool) : Outcome M.State Unit :=
  if r.2 then
    let s := { s with sent := s.sent + 1, loggedIn := true }
    if r.1 then (sendRequestAndReceiveReply M env n s none).bind fun s _ => .done s () else .done s ()
  else
    .done s ()

def termIrs (s : Session M.State) : Session M.State := { s with inbox := [] }

/-- The end of `handle`. -/
def terminate (n : Nat) (s : Session M.State) : Outcome M.State Unit :=
  let call := sendRequestAndReceiveReply M env n
  if env.brokenConnection then
    if env.onBrokenConn = .keepDebmod then
      let s := termIrs M s
      runTalk call (M.prepareBrokenConnection s.handler) s
    else
      (if env.onBrokenConn = .killProcess ∧ M.pid s.handler.dbgMod > 0 then
        runTalk call (M.killProcess s.handler) s
      else .done s ()).bind fun s _ =>
        (runTalk call (M.dbgTerm s.handler) s).bind fun s _ => .done (termIrs M s) ()
  else
    (runTalk call (M.dbgTerm s.handler) s).bind fun s _ => .done (termIrs M s) ()

def handle (password : List UInt8) (n : Nat) (inbox : List Arrival) : Outcome M.State Unit :=
  (openSession M env password n ⟨false, ⟨false, M.create⟩, inbox, 0, []⟩).bind fun s r =>
    (serveRequests M env n s r).bind fun s _ => terminate M env n s

end

/-- The members of `linux_debmod_t` that decide what its `dbg_term` does, and the others. -/
structure LinuxState (X : Type) where
  processHandle : Int
  pid : Int
  birthBpt : Nat
  deathBpt : Nat
  shlibBpt : Nat
  other : X

def invalidHandleValue : Int := -1

/-- What the module does apart from `dbg_term`; `cleanupOther` resets the other members. -/
structure LinuxApi (X : Type) where
  other : X
  cleanupOther : X → X
  command : Packet → Handler (LinuxState X) → Talk (LinuxState X) (Option Packet)
  pollEvents : Handler (LinuxState X) → Talk (LinuxState X) Int
  killProcess : Handler (LinuxState X) → Talk (LinuxState X) Unit
  prepareBrokenConnection : Handler (LinuxState X) → Talk (LinuxState X) Unit
  dbgExitProcess : Handler (LinuxState X) → Talk (LinuxState X) Unit
  dbgDelBpt : Nat → Handler (LinuxState X) → Talk (LinuxState X) Unit

section
variable {X : Type} (api : LinuxApi X)

/-- The part of `erase_internal_bp` that may talk. -/
def eraseInternalBp (ea : Nat) (h : Handler (LinuxState X)) : Talk (LinuxState X) Unit :=
  if ea = 0 then .ret h () else api.dbgDelBpt ea h

/-- `linux_debmod_t::dbg_term`, which is `cleanup` and members of no concern here. -/
def linuxDbgTerm (h : Handler (LinuxState X)) : Talk (LinuxState X) Unit :=
  (if h.dbgMod.processHandle ≠ invalidHandleValue then api.dbgExitProcess h else .ret h ()).bind fun h _ =>
    let h := { h with dbgMod := { h.dbgMod with processHandle := invalidHandleValue } }
    (eraseInternalBp api h.dbgMod.birthBpt h).bind fun h _ =>
      (eraseInternalBp api h.dbgMod.deathBpt h).bind fun h _ =>
        (eraseInternalBp api h.dbgMod.shlibBpt h).bind fun h _ =>
          .ret { h with dbgMod := ⟨h.dbgMod.processHandle, 0, 0, 0, 0, api.cleanupOther h.dbgMod.other⟩ } ()

def linuxDebmod : DebugModule where
  State := LinuxState X
  create := ⟨invalidHandleValue, -1, 0, 0, 0, api.other⟩
  pid := LinuxState.pid
  command := api.command
  pollEvents := api.pollEvents
  killProcess := api.killProcess
  prepareBrokenConnection := api.prepareBrokenConnection
  dbgTerm := linuxDbgTerm api
end

/-- The members of `win32_debmod_t` that decide what its `dbg_term` does: the handles that are open, the sessions
with the symbol server, and the others. -/
structure Win32State (X : Type) where
  pid : Int
  handles : List Nat
  pdbRemoteSessions : List Nat
  other : X

structure Win32Api (X : Type) where
  other : X
  cleanupOther : X → X
  command : Packet → Handler (Win32State X) → Talk (Win32State X) (Option Packet)
  pollEvents : Handler (Win32State X) → Talk (Win32State X) Int
  killProcess : Handler (Win32State X) → Talk (Win32State X) Unit
  prepareBrokenConnection : Handler (Win32State X) → Talk (Win32State X) Unit
  myCloseHandle : Nat → Handler (Win32State X) → Talk (Win32State X) Unit
  closePdbRemoteSession : Nat → Handler (Win32State X) → Talk (Win32State X) Unit

section
variable {X : Type} (api : Win32Api X)

def Talk.forAll {σ : Type} (f : Nat → Handler σ → Talk σ Unit) : List Nat → Handler σ → Talk σ Unit
  | [], h => .ret h ()
  | x :: xs, h => (f x h).bind fun h _ => Talk.forAll f xs h

def win32DbgTerm (h : Handler (Win32State X)) : Talk (Win32State X) Unit :=
  (Talk.forAll api.myCloseHandle h.dbgMod.handles h).bind fun h _ =>
    let h := { h with dbgMod := { h.dbgMod with pid := 0, handles := [], other := api.cleanupOther h.dbgMod.other } }
    Talk.forAll api.closePdbRemoteSession h.dbgMod.pdbRemoteSessions h

def win32Debmod : DebugModule where
  State := Win32State X
  create := ⟨-1, [], [], api.other⟩
  pid := Win32State.pid
  command := api.command
  pollEvents := api.pollEvents
  killProcess := api.killProcess
  prepareBrokenConnection := api.prepareBrokenConnection
  dbgTerm := win32DbgTerm api
end

theorem foldl_or_eq_zero (f : Nat → Nat) (l : List Nat) (init : Nat) :
    l.foldl (fun res i => res ||| f i) init = 0 ↔ init = 0 ∧ ∀ i ∈ l, f i = 0 := by
  induction l generalizing init with
  | nil => simp
  | cons i l ih =>
      rw [List.foldl_cons, ih, Nat.or_eq_zero_iff, List.forall_mem_cons, and_assoc]

theorem passwordMatches_iff {str pass : List UInt8} (hpass : pass ≠ []) :
    passwordMatches (some str) pass = true ↔ str = pass := by
  have hlen : pass.length ≠ 0 := fun h => hpass (List.length_eq_zero_iff.mp h)
  have hfold := foldl_or_eq_zero (fun i => (pass.getD (i % pass.length) 0).toNat ^^^ (str.getD i 0).toNat)
    (List.range str.length) (str.length ^^^ pass.length)
  simp only [passwordMatches, ne_eq, hlen, not_false_eq_true, if_true, beq_iff_eq]
  rw [hfold, xor_eq_zero_iff]
  constructor
  · rintro ⟨hsame, hbytes⟩
    apply List.ext_getElem hsame
    intro i hi hi'
    have hbyte := xor_eq_zero_iff.mp (hbytes i (List.mem_range.mpr hi))
    rw [Nat.mod_eq_of_lt hi'] at hbyte
    simpa [hi, hi'] using (UInt8.toNat_inj.mp hbyte).symm
  · rintro rfl
    refine ⟨rfl, fun i hi => ?_⟩
    rw [Nat.mod_eq_of_lt (List.mem_range.mp hi), xor_eq_zero_iff]

/-! ### What a wait can do -/

namespace Outcome

theorem session_bind {σ α β : Type} {P : Session σ → Prop} {o : Outcome σ α} {f : Session σ → α → Outcome σ β}
    (ho : P o.session) (hf : ∀ s a, o = .done s a → P (f s a).session) : P (o.bind f).session := by
  cases o with
  | done s a => exact hf s a rfl
  | exited s => exact ho

end Outcome

def Extends {σ : Type} (s s' : Session σ) : Prop := ∃ new, s'.trace = new ++ s.trace

namespace Extends

variable {σ : Type} {s s' s'' : Session σ}

theorem refl (s : Session σ) : Extends s s := ⟨[], rfl⟩

theorem trans (h : Extends s s') (h' : Extends s' s'') : Extends s s'' := by
  obtain ⟨new, hnew⟩ := h
  obtain ⟨new', hnew'⟩ := h'
  exact ⟨new' ++ new, by rw [hnew', hnew, List.append_assoc]⟩

end Extends

section
variable {σ α : Type} {call : Session σ → Option Packet → Outcome σ (Option Packet)}

theorem runTalk_extends (hcall : ∀ s req, Extends s (call s req).session) (t : Talk σ α) (s : Session σ) :
    Extends s (runTalk call t s).session := by
  induction t generalizing s with
  | ret h a => exact ⟨[], rfl⟩
  | call h req next ih =>
      have hsent : Extends s (call { s with handler := h } req).session := hcall { s with handler := h } req
      apply Outcome.session_bind hsent
      intro s' rp hdone
      rw [hdone] at hsent
      exact hsent.trans (ih rp s'.handler s')

theorem notify_extends (hcall : ∀ s req, Extends s (call s req).session) (reqs : List Packet) (s : Session σ) :
    Extends s (notify call reqs s).session := by
  induction reqs generalizing s with
  | nil => exact Extends.refl s
  | cons req reqs ih =>
      have hsent := hcall s (some req)
      apply Outcome.session_bind hsent
      intro s' rp hdone
      rw [hdone] at hsent
      exact hsent.trans (ih s')

theorem sendRequest_trace (env : Env) (s : Session σ) (req : Option Packet) :
    (sendRequest env s req).session.trace = s.trace ∧ (sendRequest env s req).session.inbox = s.inbox ∧
      (sendRequest env s req).session.handler = s.handler ∧ (sendRequest env s req).session.loggedIn = s.loggedIn := by
  cases req with
  | none => exact ⟨rfl, rfl, rfl, rfl⟩
  | some req =>
      simp only [sendRequest]
      split_ifs <;> exact ⟨rfl, rfl, rfl, rfl⟩

end

section
variable {M : DebugModule} {env : Env}

variable {call : Session M.State → Option Packet → Outcome M.State (Option Packet)}

theorem onSendRequestInterrupt_extends
    (hcall : ∀ s req, Extends s (call s req).session) (s : Session M.State) (rp : Packet) :
    Extends { s with trace := .dispatched rp :: s.trace } (onSendRequestInterrupt M call s rp).session := by
  have hrun : Extends { s with trace := .dispatched rp :: s.trace } _ :=
    runTalk_extends hcall (M.command rp { s.handler with pollDebugEvents := false })
      { s with handler := { s.handler with pollDebugEvents := false }, trace := .dispatched rp :: s.trace }
  apply Outcome.session_bind hrun
  intro s' req hdone
  rw [hdone] at hrun
  simp only [Outcome.session]
  split_ifs
  · exact hrun.trans ⟨[], rfl⟩
  · exact hrun

theorem onRecvPacketProgress_extends
    (hcall : ∀ s req, Extends s (call s req).session) (s : Session M.State) :
    Extends s (onRecvPacketProgress M call s).session := by
  unfold onRecvPacketProgress
  split_ifs
  · exact Extends.trans ⟨[.polled], rfl⟩ (runTalk_extends hcall _ _)
  · exact Extends.refl s

variable (n : Nat)

variable (s : Session M.State)

theorem sendRequestAndReceiveReply_extends (req : Option Packet) :
    Extends s (sendRequestAndReceiveReply M env n s req).session := by
  induction n generalizing s req with
  | zero => exact Extends.refl s
  | succ n ih =>
      have hsend : Extends s (sendRequest env s req).session := ⟨[], (sendRequest_trace env s req).1⟩
      apply Outcome.session_bind hsend
      intro s₁ sent hdone
      rw [hdone] at hsend
      by_cases hsent : sent = false
      · rw [if_pos hsent]
        exact hsend
      rw [if_neg hsent]
      apply hsend.trans
      change Extends s₁ _
      cases s₁.inbox with
      | nil => exact Extends.refl s₁
      | cons arrival rest =>
          cases arrival with
          | failed => exact ⟨[], rfl⟩
          | progress =>
              have hpoll : Extends s₁ _ := onRecvPacketProgress_extends ih { s₁ with inbox := rest }
              apply Outcome.session_bind hpoll
              intro s₂ code hcode
              rw [hcode] at hpoll
              split_ifs
              · exact hpoll.trans (ih s₂ none)
              · exact hpoll
          | packet rp =>
              have hreceived : Extends s₁ { s₁ with inbox := rest, trace := .received rp :: s₁.trace } :=
                ⟨[.received rp], rfl⟩
              apply hreceived.trans
              dsimp only
              split_ifs
              · have hnotify := notify_extends ih (env.dwarning rp.code)
                  { s₁ with inbox := rest, trace := .received rp :: s₁.trace }
                apply Outcome.session_bind hnotify
                intro s₂ _ hdone'
                rw [hdone'] at hnotify
                exact hnotify
              · exact Extends.refl _
              · exact Extends.refl _
              · exact Extends.refl _
              · have hcommand := Extends.trans ⟨[.dispatched rp], rfl⟩ (onSendRequestInterrupt_extends ih
                  { s₁ with inbox := rest, trace := .received rp :: s₁.trace } rp)
                apply Outcome.session_bind hcommand
                intro s₂ req' hdone'
                rw [hdone'] at hcommand
                exact hcommand.trans (ih s₂ req')

/-- Packets were received and nothing else happened. -/
structure Waits {σ : Type} (s s' : Session σ) : Prop where
  loggedIn : s'.loggedIn = s.loggedIn
  handler : s'.handler = s.handler
  trace : ∃ new, s'.trace = new ++ s.trace ∧ ∀ e ∈ new, ∃ p, e = .received p

namespace Waits

variable {σ : Type} {s s' s'' : Session σ}

theorem refl (s : Session σ) : Waits s s := ⟨rfl, rfl, [], rfl, by simp⟩

theorem trans (h : Waits s s') (h' : Waits s' s'') : Waits s s'' := by
  obtain ⟨new, hnew, honly⟩ := h.trace
  obtain ⟨new', hnew', honly'⟩ := h'.trace
  refine ⟨h'.loggedIn.trans h.loggedIn, h'.handler.trans h.handler, new' ++ new, ?_, ?_⟩
  · rw [hnew', hnew, List.append_assoc]
  · intro e he
    rcases List.mem_append.mp he with he | he
    · exact honly' e he
    · exact honly e he

end Waits

theorem notify_waits {σ : Type} {call : Session σ → Option Packet → Outcome σ (Option Packet)}
    (hcall : ∀ s req, s.loggedIn = false → s.handler.pollDebugEvents = false → Waits s (call s req).session)
    (reqs : List Packet) (s : Session σ) (hlogin : s.loggedIn = false) (hpoll : s.handler.pollDebugEvents = false) :
    Waits s (notify call reqs s).session := by
  induction reqs generalizing s with
  | nil => exact Waits.refl s
  | cons req reqs ih =>
      have hsent := hcall s (some req) hlogin hpoll
      apply Outcome.session_bind hsent
      intro s' rp hdone
      rw [hdone] at hsent
      exact hsent.trans (ih s' (hsent.loggedIn.trans hlogin) ((congrArg Handler.pollDebugEvents hsent.handler).trans hpoll))

theorem sendRequestAndReceiveReply_waits (req : Option Packet)
    (hlogin : s.loggedIn = false) (hpoll : s.handler.pollDebugEvents = false) :
    Waits s (sendRequestAndReceiveReply M env n s req).session := by
  induction n generalizing s req with
  | zero => exact Waits.refl s
  | succ n ih =>
      obtain ⟨htrace, -, hhandler, hlogged⟩ := sendRequest_trace env s req
      have hsend : Waits s (sendRequest env s req).session := ⟨hlogged, hhandler, [], htrace, by simp⟩
      apply Outcome.session_bind hsend
      intro s₁ sent hdone
      rw [hdone] at hsend
      have hlogin₁ : s₁.loggedIn = false := hsend.loggedIn.trans hlogin
      have hpoll₁ : s₁.handler.pollDebugEvents = false :=
        (congrArg Handler.pollDebugEvents hsend.handler).trans hpoll
      by_cases hsent : sent = false
      · rw [if_pos hsent]
        exact hsend
      rw [if_neg hsent]
      apply hsend.trans
      change Waits s₁ _
      cases s₁.inbox with
      | nil => exact Waits.refl s₁
      | cons arrival rest =>
          cases arrival with
          | failed => exact ⟨rfl, rfl, [], rfl, by simp⟩
          | progress =>
              simp only [onRecvPacketProgress, hpoll₁, Bool.false_eq_true, if_false, Outcome.bind, if_true]
              have hskip : Waits s₁ { s₁ with inbox := rest } := ⟨rfl, rfl, [], rfl, by simp⟩
              exact hskip.trans (ih { s₁ with inbox := rest } none hlogin₁ hpoll₁)
          | packet rp =>
              have hreceived : Waits s₁ { s₁ with inbox := rest, trace := .received rp :: s₁.trace } :=
                ⟨rfl, rfl, [.received rp], rfl, by simp⟩
              apply hreceived.trans
              dsimp only
              split_ifs
              · have hnotify := notify_waits ih (env.dwarning rp.code)
                  { s₁ with inbox := rest, trace := .received rp :: s₁.trace } hlogin₁ hpoll₁
                apply Outcome.session_bind hnotify
                intro s₂ _ hdone'
                rw [hdone'] at hnotify
                exact hnotify
              · exact Waits.refl _
              · exact Waits.refl _
              · exact Waits.refl _

theorem sendRequestAndReceiveReply_some (s s' : Session M.State) (req : Option Packet) (rp : Packet)
    (h : sendRequestAndReceiveReply M env n s req = .done s' (some rp)) :
    rp.code = RPC_OK ∧ .received rp ∈ s'.trace := by
  induction n generalizing s req with
  | zero => simp [sendRequestAndReceiveReply] at h
  | succ n ih =>
      rw [sendRequestAndReceiveReply] at h
      cases hsend : sendRequest env s req with
      | exited s₁ => simp [hsend, Outcome.bind] at h
      | done s₁ sent =>
          simp only [hsend, Outcome.bind] at h
          by_cases hsent : sent = false
          · simp [hsent] at h
          rw [if_neg hsent] at h
          cases hinbox : s₁.inbox with
          | nil => simp [hinbox] at h
          | cons arrival rest =>
              simp only [hinbox] at h
              cases arrival with
              | failed => simp at h
              | progress =>
                  cases hprogress : onRecvPacketProgress M (sendRequestAndReceiveReply M env n)
                      { s₁ with inbox := rest } with
                  | exited s₂ => simp [hprogress] at h
                  | done s₂ code =>
                      simp only [hprogress] at h
                      split_ifs at h
                      · exact ih s₂ none h
                      · simp at h
              | packet rp' =>
                  dsimp only at h
                  split_ifs at h with hunk hcancelled hok hlogin
                  · cases hnotify : notify (sendRequestAndReceiveReply M env n) (env.dwarning rp'.code)
                        { s₁ with inbox := rest, trace := .received rp' :: s₁.trace } with
                    | exited s₂ => simp [hnotify] at h
                    | done s₂ u => simp [hnotify] at h
                  · simp at h
                  · simp only [Outcome.done.injEq, Option.some.injEq] at h
                    obtain ⟨rfl, rfl⟩ := h
                    exact ⟨hok, List.mem_cons_self⟩
                  · simp at h
                  · cases hcommand : onSendRequestInterrupt M (sendRequestAndReceiveReply M env n)
                        { s₁ with inbox := rest, trace := .received rp' :: s₁.trace } rp' with
                    | exited s₂ => simp [hcommand] at h
                    | done s₂ req' =>
                        simp only [hcommand] at h
                        exact ih s₂ req' h

theorem sendRequestAndReceiveReply_nil (req : Option Packet) (h : s.inbox = []) :
    (sendRequestAndReceiveReply M env n s req).session.trace = s.trace ∧
      (sendRequestAndReceiveReply M env n s req).session.inbox = [] := by
  cases n with
  | zero => exact ⟨rfl, h⟩
  | succ n =>
      obtain ⟨htrace, hinbox, -, -⟩ := sendRequest_trace env s req
      rw [h] at hinbox
      rw [sendRequestAndReceiveReply]
      cases hsend : sendRequest env s req with
      | exited s₁ =>
          rw [hsend] at htrace hinbox
          exact ⟨htrace, hinbox⟩
      | done s₁ sent =>
          rw [hsend] at htrace hinbox
          change s₁.inbox = [] at hinbox
          simp only [Outcome.bind, hinbox]
          split_ifs
          · exact ⟨htrace, hinbox⟩
          · exact ⟨htrace, hinbox⟩

theorem runTalk_nil {α : Type} (t : Talk M.State α) (s : Session M.State) (h : s.inbox = []) :
    (runTalk (sendRequestAndReceiveReply M env n) t s).session.trace = s.trace := by
  induction t generalizing s with
  | ret h a => rfl
  | call hd req next ih =>
      obtain ⟨htrace, hinbox⟩ := @sendRequestAndReceiveReply_nil M env n { s with handler := hd } req h
      refine @Outcome.session_bind _ _ _ (fun s' => s'.trace = s.trace) _ _ htrace fun s' rp hdone => ?_
      rw [hdone] at htrace hinbox
      exact (ih rp s'.handler s' hinbox).trans htrace

end

/-! ### No command before the password -/

/-- Events other than the arrival of a packet: a command of the client or a call of the debugger module. -/
def Event.isCommand : Event → Prop
  | .received _ => False
  | _ => True

/-- The packet answers the opening request with the password. -/
def CarriesPassword (env : Env) (password : List UInt8) (p : Packet) : Prop :=
  p.code = RPC_OK ∧ (env.unpackDd p.payload).1 ≠ 0 ∧ env.unpackStr (env.unpackDd p.payload).2 = some password

/-- Every command comes after a packet with the password; the trace has the newest event first. -/
def Authorized (env : Env) (password : List UInt8) (trace : List Event) : Prop :=
  ∀ new e old, trace = new ++ e :: old → e.isCommand →
    ∃ p, .received p ∈ old ∧ CarriesPassword env password p

namespace Authorized

variable {env : Env} {password : List UInt8}

theorem of_received {trace : List Event} (h : ∀ e ∈ trace, ¬ e.isCommand) : Authorized env password trace := by
  intro new e old htrace hcommand
  exact absurd hcommand (h e (by rw [htrace]; simp))

theorem append {trace : List Event} (new : List Event) (h : Authorized env password trace)
    (hp : ∃ p, .received p ∈ trace ∧ CarriesPassword env password p) : Authorized env password (new ++ trace) := by
  induction new with
  | nil => exact h
  | cons e new ih =>
      intro new' e' old htrace hcommand
      cases new' with
      | nil =>
          obtain ⟨p, hmem, hcarries⟩ := hp
          obtain ⟨-, rfl⟩ := List.cons.inj htrace
          exact ⟨p, List.mem_append_right new hmem, hcarries⟩
      | cons e'' new' => exact ih new' e' old (List.cons.inj htrace).2 hcommand

end Authorized

/-- The module ends an unused session without talking to the client. -/
def DebugModule.Quiet (M : DebugModule) : Prop :=
  M.pid M.create ≤ 0 ∧ ∃ h, M.dbgTerm ⟨false, M.create⟩ = .ret h ()

section
variable {M : DebugModule} {env : Env} {password : List UInt8}

/-- What the first half of `handle` leaves: no command, an untouched module, and a packet with the password if the
login succeeded. -/
structure Opened (env : Env) (password : List UInt8) (s : Session M.State) (r : Bool × Bool) : Prop where
  handler : s.handler = ⟨false, M.create⟩
  received : ∀ e ∈ s.trace, ¬ e.isCommand
  login : r.1 = true → r.2 = true ∧ ∃ p, .received p ∈ s.trace ∧ CarriesPassword env password p

theorem not_isCommand_of_waits {s : Session M.State} {n : Nat} {inbox : List Arrival}
    (h : Waits (⟨false, ⟨false, M.create⟩, inbox, n, []⟩ : Session M.State) s) : ∀ e ∈ s.trace, ¬ e.isCommand := by
  obtain ⟨new, hnew, honly⟩ := h.trace
  intro e he
  rw [hnew, List.append_nil] at he
  obtain ⟨p, rfl⟩ := honly e he
  exact id

theorem openSession_opened (hpassword : password ≠ []) (n : Nat) (inbox : List Arrival) :
    (∀ e ∈ (openSession M env password n ⟨false, ⟨false, M.create⟩, inbox, 0, []⟩).session.trace, ¬ e.isCommand) ∧
      ∀ s r, openSession M env password n ⟨false, ⟨false, M.create⟩, inbox, 0, []⟩ = .done s r →
        Opened env password s r := by
  have hwaits := @sendRequestAndReceiveReply_waits M env n ⟨false, ⟨false, M.create⟩, inbox, 0, []⟩
    (some env.openRequest) rfl rfl
  rw [openSession]
  cases hreply : sendRequestAndReceiveReply M env n ⟨false, ⟨false, M.create⟩, inbox, 0, []⟩ (some env.openRequest) with
  | exited s =>
      rw [hreply] at hwaits
      exact ⟨not_isCommand_of_waits hwaits, fun s r h => by simp [Outcome.bind] at h⟩
  | done s rp =>
      rw [hreply] at hwaits
      have honly := not_isCommand_of_waits hwaits
      have hhandler : s.handler = ⟨false, M.create⟩ := hwaits.handler
      cases rp with
      | none =>
          refine ⟨honly, fun s' r h => ?_⟩
          obtain ⟨rfl, rfl⟩ := Outcome.done.inj h
          exact ⟨hhandler, honly, by simp⟩
      | some rp =>
          obtain ⟨hok, hmem⟩ := sendRequestAndReceiveReply_some n _ _ _ _ hreply
          by_cases hversion : (env.unpackDd rp.payload).1 = 0
          · simp only [Outcome.bind, hversion, if_true]
            refine ⟨honly, fun s' r h => ?_⟩
            obtain ⟨rfl, rfl⟩ := Outcome.done.inj h
            exact ⟨hhandler, honly, by simp⟩
          · simp only [Outcome.bind, hversion, if_false]
            refine ⟨honly, fun s' r h => ?_⟩
            obtain ⟨rfl, rfl⟩ := Outcome.done.inj h
            refine ⟨hhandler, honly, fun hlogin => ⟨rfl, rp, hmem, hok, hversion, ?_⟩⟩
            cases hstr : env.unpackStr (env.unpackDd rp.payload).2 with
            | none => simp [hstr, passwordMatches, hpassword] at hlogin
            | some str =>
                have hmatch : passwordMatches (some str) password = true := by
                  simpa [hstr, hpassword] using hlogin
                rw [(passwordMatches_iff hpassword).mp hmatch]

theorem terminate_quiet (hquiet : M.Quiet) (n : Nat) (s : Session M.State) (h : s.handler = ⟨false, M.create⟩) :
    (terminate M env n s).session.trace = s.trace := by
  obtain ⟨hpid, hd, hterm⟩ := hquiet
  have hdbgTerm : ∀ call, runTalk call (M.dbgTerm s.handler) s = .done { s with handler := hd } () := by
    intro call
    rw [h, hterm]
    rfl
  rw [terminate]
  dsimp only
  split_ifs with hbroken hkeep hkill
  · exact runTalk_nil n _ _ rfl
  · rw [h] at hkill
    exact absurd hkill.2 (Int.not_lt.mpr hpid)
  · simp only [Outcome.bind, hdbgTerm]
    rfl
  · simp only [hdbgTerm]
    rfl

theorem terminate_extends (n : Nat) (s : Session M.State) : Extends s (terminate M env n s).session := by
  have hcall := @sendRequestAndReceiveReply_extends M env n
  have hterm : ∀ s : Session M.State, Extends s ((runTalk (sendRequestAndReceiveReply M env n) (M.dbgTerm s.handler) s).bind
      fun s _ => .done (termIrs M s) ()).session := by
    intro s
    have hrun := runTalk_extends hcall (M.dbgTerm s.handler) s
    apply Outcome.session_bind hrun
    intro s' _ hdone
    rw [hdone] at hrun
    exact hrun
  rw [terminate]
  dsimp only
  split_ifs
  · exact Extends.trans ⟨[], rfl⟩ (runTalk_extends hcall _ (termIrs M s))
  · have hkill := runTalk_extends hcall (M.killProcess s.handler) s
    apply Outcome.session_bind hkill
    intro s' _ hdone
    rw [hdone] at hkill
    exact hkill.trans (hterm s')
  · exact hterm s
  · exact hterm s

theorem serveRequests_extends (n : Nat) (s : Session M.State) (r : Bool × Bool) :
    Extends s (serveRequests M env n s r).session := by
  rw [serveRequests]
  dsimp only
  split_ifs
  · have hserve : Extends s _ := @sendRequestAndReceiveReply_extends M env n
      { s with sent := s.sent + 1, loggedIn := true } none
    apply Outcome.session_bind hserve
    intro s' _ hdone
    rw [hdone] at hserve
    exact hserve
  · exact ⟨[], rfl⟩
  · exact Extends.refl s

theorem handle_authorized (hquiet : M.Quiet) (hpassword : password ≠ []) (n : Nat) (inbox : List Arrival) :
    Authorized env password (handle M env password n inbox).session.trace ∧
      ((∀ s, openSession M env password n ⟨false, ⟨false, M.create⟩, inbox, 0, []⟩ ≠ .done s (true, true)) →
        ∀ e ∈ (handle M env password n inbox).session.trace, ¬ e.isCommand) := by
  obtain ⟨honly, hopened⟩ := @openSession_opened M env password hpassword n inbox
  rw [handle]
  cases hopen : openSession M env password n ⟨false, ⟨false, M.create⟩, inbox, 0, []⟩ with
  | exited s =>
      rw [hopen] at honly
      exact ⟨Authorized.of_received honly, fun _ => honly⟩
  | done s r =>
      obtain ⟨hhandler, hreceived, hlogin⟩ := hopened s r hopen
      by_cases hok : r.1 = true
      · -- the password is in the trace already
        obtain ⟨hresponse, hp⟩ := hlogin hok
        have hserve := @serveRequests_extends M env n s r
        have htotal : Extends s ((Outcome.done s r).bind fun s r =>
            (serveRequests M env n s r).bind fun s _ => terminate M env n s).session := by
          apply Outcome.session_bind hserve
          intro s' _ hdone
          rw [hdone] at hserve
          exact hserve.trans (terminate_extends n s')
        obtain ⟨new, hnew⟩ := htotal
        rw [hnew]
        refine ⟨(Authorized.of_received hreceived).append new hp, fun hfailed => ?_⟩
        exact absurd (congrArg (Outcome.done s) (Prod.ext hok hresponse)) (hfailed s)
      · -- the module is still unused when the session ends
        have hserve : ∃ s', serveRequests M env n s r = .done s' () ∧ s'.trace = s.trace ∧ s'.handler = s.handler := by
          rw [serveRequests]
          dsimp only
          by_cases hresponse : r.2 = true
          · rw [if_pos hresponse, if_neg hok]
            exact ⟨_, rfl, rfl, rfl⟩
          · rw [if_neg hresponse]
            exact ⟨_, rfl, rfl, rfl⟩
        obtain ⟨s', hdone, htrace, hhandler'⟩ := hserve
        have hend := @terminate_quiet M env hquiet n s' (hhandler'.trans hhandler)
        simp only [Outcome.bind, hdone, hend, htrace]
        exact ⟨Authorized.of_received hreceived, fun _ => hreceived⟩

end

theorem linuxDebmod_quiet {X : Type} (api : LinuxApi X) : (linuxDebmod api).Quiet := ⟨show (-1 : Int) ≤ 0 by decide, _, rfl⟩

theorem win32Debmod_quiet {X : Type} (api : Win32Api X) : (win32Debmod api).Quiet := ⟨show (-1 : Int) ≤ 0 by decide, _, rfl⟩

/-- Whatever a client sends, the server runs no command for it before a packet with the password has arrived, and
none at all if the login fails, also while the session ends. -/
theorem no_command_before_password {X Y : Type} (linux : LinuxApi X) (win32 : Win32Api Y) (env : Env)
    {password : List UInt8} (hpassword : password ≠ []) (n : Nat) (inbox : List Arrival) :
    ∀ M ∈ [linuxDebmod linux, win32Debmod win32],
      Authorized env password (handle M env password n inbox).session.trace ∧
        ((∀ s, openSession M env password n ⟨false, ⟨false, M.create⟩, inbox, 0, []⟩ ≠ .done s (true, true)) →
          ∀ e ∈ (handle M env password n inbox).session.trace, ¬ e.isCommand) := by
  intro M hM
  have hquiet : M.Quiet := by
    simp only [List.mem_cons, List.not_mem_nil, or_false] at hM
    rcases hM with rfl | rfl
    · exact linuxDebmod_quiet linux
    · exact win32Debmod_quiet win32
  exact handle_authorized hquiet hpassword n inbox

/-- The library functions for a run in which a packet is a version byte and the password, and nothing fails. -/
def Env.plain : Env where
  openRequest := ⟨RPC_OPEN, []⟩
  unpackDd bytes := ((bytes.headD 0).toNat, bytes.drop 1)
  unpackStr bytes := some bytes
  sendFails _ := false
  dwarning _ := []
  brokenConnection := false
  onBrokenConn := .default

/-- A module that answers every command at once and is silent otherwise. -/
def LinuxApi.plain : LinuxApi Unit where
  other := ()
  cleanupOther := id
  command rp h := .ret h (some ⟨RPC_OK, rp.payload⟩)
  pollEvents h := .ret h 0
  killProcess h := .ret h ()
  prepareBrokenConnection h := .ret h ()
  dbgExitProcess h := .ret h ()
  dbgDelBpt _ h := .ret h ()

def Win32Api.plain : Win32Api Unit where
  other := ()
  cleanupOther := id
  command rp h := .ret h (some ⟨RPC_OK, rp.payload⟩)
  pollEvents h := .ret h 0
  killProcess h := .ret h ()
  prepareBrokenConnection h := .ret h ()
  myCloseHandle _ h := .ret h ()
  closePdbRemoteSession _ h := .ret h ()

/-- A client with the password has its command run. -/
example : (handle (linuxDebmod .plain) .plain [115] 9 [.packet ⟨RPC_OK, [1, 115]⟩, .packet ⟨10, []⟩]).session.trace =
    [.dispatched ⟨10, []⟩, .received ⟨10, []⟩, .received ⟨RPC_OK, [1, 115]⟩] := rfl

theorem no_command_before_password_wrong :
    Authorized .plain [115]
        (handle (linuxDebmod .plain) .plain [115] 9 [.packet ⟨RPC_OK, [1, 116]⟩, .packet ⟨10, []⟩]).session.trace ∧
      ((∀ s, openSession (linuxDebmod .plain) .plain [115] 9
          ⟨false, ⟨false, (linuxDebmod .plain).create⟩, [.packet ⟨RPC_OK, [1, 116]⟩, .packet ⟨10, []⟩], 0, []⟩ ≠
          .done s (true, true)) →
        ∀ e ∈ (handle (linuxDebmod .plain) .plain [115] 9
          [.packet ⟨RPC_OK, [1, 116]⟩, .packet ⟨10, []⟩]).session.trace, ¬ e.isCommand) :=
  no_command_before_password .plain .plain .plain (by decide) 9 _ _ (List.mem_cons_self ..)

end IdaSdk.RpcHandler
