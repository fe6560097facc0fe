import Mathlib.Logic.Function.Basic

/-!
The PDB sessions of the Windows debug server. The server thread handles one ioctl after the other, a single pdb thread
talks to the PDB reader, and the two meet at counting semaphores. The opening of a session is only started by its ioctl
and its end is asked for by later ones; all other requests are waited for.

A request has a number. The tokens of `fetch_complete` and `request_available` carry the number of the request that
they were posted for; no branch looks at it.
-/

namespace IdaSdk.PdbSession

abbrev bytevec_t := List UInt8

abbrev BADID : Nat := 0xFFFFFFFF

/-- `pdb_remote_session_t`. `request` is the request whose parameters the session holds, `opens` says that its
`fetch_type` is `FT_OPEN`, and `opened` is `session_ref.opened()`. `open_request` is the request that made the session. -/
structure Session where
  request : Nat
  opens : Bool
  fetch_id : Nat
  open_request : Nat
  opened : Bool
  is_opening : Bool
  fetch_ok : Bool
  storage : bytevec_t
  fetch_complete : List Nat
  read_req : Nat
  read_resp : Nat
deriving DecidableEq

inductive Fault where
  | assert628 | assert629
deriving DecidableEq

/-- Where the pdb thread is in `main_pdb_func`: not started, about to post `accepting_request`, at `request_available`,
in `perform`, at `read_resp` inside it, about to post `fetch_complete`, or at a failed assertion. -/
inductive Pdb where
  | off
  | posting
  | waiting
  | performing (sid n : Nat) (opens : Bool)
  | reading (sid n : Nat) (opens : Bool)
  | finishing (sid n : Nat)
  | failed (sid n : Nat) (fault : Fault)
deriving DecidableEq

/-- Where the server thread is: between two ioctls, at `accepting_request` (and whether it then waits for the
completion), at `fetch_complete`, behind it, at the `is_done` of a poll, or in the loop of `stop`. -/
inductive Server where
  | idle
  | accepting (sid : Nat) (wait_for_completion : Bool)
  | completing (sid n : Nat)
  | replying (sid n : Nat)
  | polling (sid : Nat)
  | stopping (sid : Nat)
deriving DecidableEq

/-- What the client gets. Storage comes only with a request that went well. -/
inductive Reply where
  | not_running
  | unknown
  | session (sid : Nat)
  | not_complete
  | complete
  | failure
  | fetched (n : Nat) (ok : Bool) (storage : Option bytevec_t)
  | closed
deriving DecidableEq

/-- A finished call of `perform`. -/
structure Perform where
  request : Nat
  ok : Bool
  storage : bytevec_t
deriving DecidableEq

/-- A token that was taken: the request that waited for it and the one it was posted for. -/
structure Token where
  waiter : Nat
  label : Nat
deriving DecidableEq

/-- `performed`, `completions`, `requests` and `replies` record what has happened. -/
structure State where
  sessions : Nat → Option Session
  last_id : Nat
  next : Nat
  pdb_rsess : Nat
  accepting_request : Nat
  request_available : List Nat
  pdb : Pdb
  server : Server
  performed : List Perform
  completions : List Token
  requests : List Token
  replies : List Reply

def initial : State where
  sessions := fun _ => none
  last_id := 0
  next := 0
  pdb_rsess := 0
  accepting_request := 0
  request_available := []
  pdb := .off
  server := .idle
  performed := []
  completions := []
  requests := []
  replies := []

def State.set (s : State) (sid : Nat) (se : Session) : State :=
  { s with sessions := Function.update s.sessions sid (some se) }

def State.answer (s : State) (r : Reply) : State := { s with server := .idle, replies := s.replies ++ [r] }

def new_session (n : Nat) : Session where
  request := n
  opens := true
  fetch_id := 0
  open_request := n
  opened := false
  is_opening := false
  fetch_ok := false
  storage := []
  fetch_complete := []
  read_req := 0
  read_resp := 0

def Pdb.start_if_needed (p : Pdb) : Pdb := if p = .off then .posting else p

/-- `WIN32_IOCTL_PDB_OPEN` up to `request_pdb_thread`. -/
def ioctl_open (s : State) : State :=
  { s.set (s.last_id + 1) (new_session s.next) with
    pdb := s.pdb.start_if_needed, last_id := s.last_id + 1, next := s.next + 1, server := .accepting (s.last_id + 1) false }

/-- `ENSURE_PDB_THREAD` and `ENSURE_SESSION_OPENED`. -/
def with_session (s : State) (sid : Nat) (f : Session → State) : State :=
  if s.pdb = .off then s.answer .not_running
  else
    match s.sessions sid with
    | none => s.answer .unknown
    | some se => f se

/-- The ioctls that fetch something, up to `request_pdb_thread`. Some of them set `fetch_id`. -/
def ioctl_fetch (s : State) (sid : Nat) (id : Option Nat) : State :=
  with_session s sid fun se =>
    { s.set sid { se with request := s.next, opens := false, fetch_id := id.getD se.fetch_id } with
      next := s.next + 1, server := .accepting sid true }

/-- `request_pdb_thread` behind `accepting_request`. An opening is not waited for. -/
def accept (s : State) (sid : Nat) (wait_for_completion : Bool) (se : Session) : State :=
  if wait_for_completion then
    { s with
      accepting_request := s.accepting_request - 1, pdb_rsess := sid,
      request_available := s.request_available ++ [se.request], server := .completing sid se.request }
  else
    { (s.set sid { se with is_opening := true }).answer (.session sid) with
      accepting_request := s.accepting_request - 1, pdb_rsess := sid,
      request_available := s.request_available ++ [se.request] }

/-- `FLUSH_PDB_REQUEST_STORAGE` for a request that went well. -/
def reply (s : State) (n : Nat) (se : Session) : State :=
  s.answer (.fetched n se.fetch_ok (if se.fetch_ok then some se.storage else none))

/-- `WIN32_IOCTL_PDB_OPERATION_COMPLETE` up to `is_done`: a read request is handled first. -/
def ioctl_poll (s : State) (sid : Nat) : State :=
  with_session s sid fun se =>
    if 0 < se.read_req then
      { s.set sid { se with read_req := se.read_req - 1, read_resp := se.read_resp + 1 } with server := .polling sid }
    else { s with server := .polling sid }

/-- The destructor; `get_pdb_session` does not find the session any more. -/
def State.delete (s : State) (sid : Nat) : State := { s with sessions := Function.update s.sessions sid none }

def State.took (s : State) (waiter label : Nat) : State := { s with completions := s.completions ++ [⟨waiter, label⟩] }

/-- `WIN32_IOCTL_PDB_OPERATION_COMPLETE` from `is_done` on. -/
def polled (s : State) (sid : Nat) (se : Session) : State :=
  match se.fetch_complete with
  | [] => s.answer .not_complete
  | label :: rest =>
    if se.opened then
      ((s.took se.open_request label).set sid { se with fetch_complete := rest, is_opening := false }).answer .complete
    else ((s.took se.open_request label).delete sid).answer .failure

def ioctl_close (s : State) (sid : Nat) : State :=
  if s.pdb = .off then s.answer .not_running
  else
    match s.sessions sid with
    | none => s.answer .closed
    | some _ => { s with server := .stopping sid }

/-- One round of the loop of `stop`, and the deletion behind it. Read requests are answered with a failure. -/
def stop (s : State) (sid : Nat) (se : Session) : State :=
  if se.is_opening then
    match se.fetch_complete with
    | label :: _ => ((s.took se.open_request label).delete sid).answer .closed
    | [] =>
      if 0 < se.read_req then s.set sid { se with read_req := se.read_req - 1, read_resp := se.read_resp + 1 }
      else s
  else (s.delete sid).answer .closed

/-- The first assertion of `perform` that fails. -/
def Session.fault (se : Session) : Option Fault :=
  if ¬ (se.opened ∨ se.opens) then some .assert628
  else if ¬ (se.fetch_id ≠ BADID ∨ se.opens) then some .assert629
  else none

/-- `request_available` is taken and `perform` begins. -/
def take (s : State) (label : Nat) (rest : List Nat) (se : Session) : State :=
  { s.set s.pdb_rsess (if se.fault = none then { se with storage := [] } else se) with
    request_available := rest,
    requests := s.requests ++ [⟨se.request, label⟩],
    pdb :=
      match se.fault with
      | none => .performing s.pdb_rsess se.request se.opens
      | some fault => .failed s.pdb_rsess se.request fault }

/-- `perform` ends. `pdb_access` may be there after an opening that failed. -/
def finish (s : State) (sid n : Nat) (opens ok opened : Bool) (storage : bytevec_t) (se : Session) : State :=
  { s.set sid
      { se with
        fetch_ok := ok, storage := storage,
        opened := if opens then se.opened || ok || opened else se.opened } with
    pdb := .finishing sid n, performed := s.performed ++ [⟨n, ok, storage⟩] }

/-- The ioctls and the further steps of the server thread, and the steps of the pdb thread. What the PDB reader does
comes with the step: whether it asks for bytes, and what a call of `perform` produces. -/
inductive Action where
  | ioctl_open
  | ioctl_fetch (sid : Nat) (id : Option Nat)
  | ioctl_poll (sid : Nat)
  | ioctl_close (sid : Nat)
  | accept | complete | reply | polled | stop
  | post | take | request_read | resume
  | finish (ok opened : Bool) (storage : bytevec_t)
  | posted
deriving DecidableEq

/-- The steps of the server thread. -/
def server_step (s : State) : Action → Option State
  | .ioctl_open => if s.server = .idle then some (ioctl_open s) else none
  | .ioctl_fetch sid id => if s.server = .idle then some (ioctl_fetch s sid id) else none
  | .ioctl_poll sid => if s.server = .idle then some (ioctl_poll s sid) else none
  | .ioctl_close sid => if s.server = .idle then some (ioctl_close s sid) else none
  | .accept =>
    match s.server with
    | .accepting sid wait => if 0 < s.accepting_request then (s.sessions sid).map (accept s sid wait) else none
    | _ => none
  | .complete =>
    match s.server with
    | .completing sid n =>
      (s.sessions sid).bind fun se =>
        match se.fetch_complete with
        | [] => none
        | label :: rest =>
          some { (s.took n label).set sid { se with fetch_complete := rest } with server := .replying sid n }
    | _ => none
  | .reply =>
    match s.server with
    | .replying sid n => (s.sessions sid).map (reply s n)
    | _ => none
  | .polled =>
    match s.server with
    | .polling sid => (s.sessions sid).map (polled s sid)
    | _ => none
  | .stop =>
    match s.server with
    | .stopping sid => (s.sessions sid).map (stop s sid)
    | _ => none
  | _ => none

/-- The steps of the pdb thread. Only an opening reads memory or the input file. -/
def pdb_step (s : State) : Action → Option State
  | .post => if s.pdb = .posting then some { s with pdb := .waiting, accepting_request := s.accepting_request + 1 } else none
  | .take =>
    if s.pdb = .waiting then
      match s.request_available with
      | [] => none
      | label :: rest => (s.sessions s.pdb_rsess).map (take s label rest)
    else none
  | .request_read =>
    match s.pdb with
    | .performing sid n true =>
      (s.sessions sid).map fun se =>
        { s.set sid { se with read_req := se.read_req + 1 } with pdb := .reading sid n true }
    | _ => none
  | .resume =>
    match s.pdb with
    | .reading sid n opens =>
      (s.sessions sid).bind fun se =>
        if 0 < se.read_resp then
          some { s.set sid { se with read_resp := se.read_resp - 1 } with pdb := .performing sid n opens }
        else none
    | _ => none
  | .finish ok opened storage =>
    match s.pdb with
    | .performing sid n opens => (s.sessions sid).map (finish s sid n opens ok opened storage)
    | _ => none
  | .posted =>
    match s.pdb with
    | .finishing sid n =>
      (s.sessions sid).map fun se =>
        { s.set sid { se with fetch_complete := se.fetch_complete ++ [n] } with pdb := .posting }
    | _ => none
  | _ => none

def Pdb.is_failed : Pdb → Bool
  | .failed .. => true
  | _ => false

def step (s : State) (a : Action) : Option State :=
  if s.pdb.is_failed then none else (server_step s a).or (pdb_step s a)

end IdaSdk.PdbSession
