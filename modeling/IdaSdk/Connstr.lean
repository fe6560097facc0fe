import Mathlib.Algebra.Group.Nat.Defs
import Mathlib.Data.List.Basic
import Mathlib.Data.List.TakeWhile
import Mathlib.Order.Basic
import Mathlib.Tactic.Common

/-!
Connection strings. `build_connstr` prints an endpoint as `user:pass@host:port`, with an IPv6 host in
brackets, and `parse_connstr` reads such a string back. A `qstring` without NUL characters is the list of its
characters.
-/

namespace IdaSdk.Connstr

/-- `qstring::split` for a separator of one character; the loop starts at `p`. -/
def splitLoop (sep : Char) : Nat → List Char → List (List Char)
  | 0, _ => []
  | fuel + 1, p =>
    if p.isEmpty then [] else p.takeWhile (· ≠ sep) :: splitLoop sep fuel (p.dropWhile (· ≠ sep)).tail

def split (sep : Char) (s : List Char) : List (List Char) :=
  splitLoop sep s.length s ++ if s.getLast? = some sep then [[]] else []

def isSpace (c : Char) : Bool := c == ' ' || (9 ≤ c.toNat && c.toNat ≤ 13)

def ulongMax : Nat := 2 ^ 64 - 1

/-- `strtoul` in base 10: the value and where the number ends, or nothing when there is no number. -/
def strtoul (s : List Char) : Option (Nat × List Char) :=
  let s := s.dropWhile isSpace
  let neg := s.head? == some '-'
  let s := if neg || s.head? == some '+' then s.tail else s
  let digits := s.takeWhile Char.isDigit
  if digits.isEmpty then
    none
  else
    let val := Nat.ofDigitChars 10 digits 0
    some (if val > ulongMax then ulongMax else if neg then (ulongMax + 1 - val) % (ulongMax + 1) else val,
      s.dropWhile Char.isDigit)

/-- `endpoint_credentials_t`. -/
structure EndpointCredentials where
  host : List Char
  port : UInt16
  username : List Char
  passwordOverride : List Char
deriving DecidableEq

def EndpointCredentials.clear : EndpointCredentials := ⟨[], 0, [], []⟩

/-- `host_port_t::connstr`. -/
def connstr (host : List Char) (port : UInt16) (defaultPort : Nat) : List Char :=
  if port ≠ 0 ∧ port.toNat ≠ defaultPort then
    if host.head? ≠ some '[' ∧ ':' ∈ host then
      ['['] ++ host ++ [']', ':'] ++ Nat.toDigits 10 port.toNat
    else
      host ++ [':'] ++ Nat.toDigits 10 port.toNat
  else
    host

/-- `build_connstr` with the flags `BCF_INCLUDE_USER` and `BCF_INCLUDE_PASS`. -/
def buildConnstr (e : EndpointCredentials) (includeUser includePass : Bool) (out : List Char) : List Char :=
  if e.host.isEmpty then
    out
  else
    let buf := if includeUser && !e.username.isEmpty then e.username else []
    let buf :=
      if includePass && !e.passwordOverride.isEmpty then
        (if buf.isEmpty then buf else buf ++ [':']) ++ e.passwordOverride
      else
        buf
    let buf := if buf.isEmpty then buf else buf ++ ['@']
    buf ++ connstr e.host e.port 0

/-- The test for an old style IPv4 address behind the IPv6 prefix for IPv4 addresses. -/
def isMapped (addr : List Char) : Bool :=
  (addr.take 7).map Char.toLower == [':', ':', 'f', 'f', 'f', 'f', ':'] && addr.contains '.'

/-- What follows the search for the colon: `host` is what stood in brackets, `skip` is where `ptr` points to
and `colon` is the offset of the colon from there. -/
def finishAddr (host addr : List Char) (skip : Nat) (colon : Option Nat) : Option (List Char × Option UInt16) :=
  match colon with
  | none => some (if host.isEmpty then addr else host, none)
  | some i =>
    match strtoul (addr.drop (skip + i + 1)) with
    | none => none
    | some (port, rest) =>
      if (rest.dropWhile (· = ' ')).isEmpty then
        some (if host.isEmpty then addr.take i else host, some (UInt16.ofNat port))
      else
        none

/-- The part of `parse_connstr` after the identity: the host, and the port when there is one. -/
def parseAddr (addr : List Char) : Option (List Char × Option UInt16) :=
  if addr.head? = some '[' then
    let host := addr.tail.takeWhile (· ≠ ']')
    if addr.contains ']' && !host.isEmpty then
      let addr := addr.drop (host.length + 1)
      finishAddr host addr 0 (if addr.head? = some ':' then some 0 else none)
    else
      none
  else
    let skip := if isMapped addr then 7 else 0
    finishAddr [] addr skip ((addr.drop skip).findIdx? (· = ':'))

/-- The address goes to `out`; a missing port leaves the port as it is. -/
def storeAddr (out : EndpointCredentials) (addr : List Char) : Bool × EndpointCredentials :=
  match parseAddr addr with
  | none => (false, out)
  | some (host, none) => (true, { out with host := host })
  | some (host, some port) => (true, { out with host := host, port := port })

/-- `parse_connstr`: the result and `*out`; `merge` is the flag `PCF_MERGE`. -/
def parseConnstr (out : EndpointCredentials) (s : List Char) (merge : Bool) : Bool × EndpointCredentials :=
  let out := if merge then out else .clear
  if s.isEmpty then
    (false, out)
  else
    match split '@' s with
    | [addr] => storeAddr out addr
    | [identity, addr] =>
      if identity.isEmpty then
        (false, out)
      else
        match split ':' identity with
        | [user] => storeAddr { out with username := user } addr
        | [user, pass] => storeAddr { out with username := user, passwordOverride := pass } addr
        | _ => (false, out)
    | _ => (false, out)

section
variable {sep : Char} {a b s : List Char}

theorem ne_of_free (ha : sep ∉ a) : ∀ c ∈ a, decide (c ≠ sep) = true := by
  intro c hc
  have hne : c ≠ sep := fun h => ha (h ▸ hc)
  simpa using hne

theorem takeWhile_append_sep (ha : sep ∉ a) : (a ++ sep :: b).takeWhile (· ≠ sep) = a := by
  rw [List.takeWhile_append_of_pos (ne_of_free ha)]
  simp

theorem dropWhile_append_sep (ha : sep ∉ a) : (a ++ sep :: b).dropWhile (· ≠ sep) = sep :: b := by
  rw [List.dropWhile_append_of_pos (ne_of_free ha)]
  simp

theorem splitLoop_succ (fuel : Nat) (p : List Char) : splitLoop sep (fuel + 1) p =
    if p.isEmpty then [] else p.takeWhile (· ≠ sep) :: splitLoop sep fuel (p.dropWhile (· ≠ sep)).tail := rfl

theorem splitLoop_fuel (n m : Nat) (hn : s.length ≤ n) (hm : s.length ≤ m) :
    splitLoop sep n s = splitLoop sep m s := by
  induction n generalizing m s with
  | zero =>
      obtain rfl : s = [] := List.length_eq_zero_iff.mp (by omega)
      cases m <;> rfl
  | succ n ih =>
      cases m with
      | zero =>
          obtain rfl : s = [] := List.length_eq_zero_iff.mp (by omega)
          rfl
      | succ m =>
          rw [splitLoop_succ, splitLoop_succ]
          by_cases hs : s = []
          · simp [hs]
          have hlen : (s.dropWhile (· ≠ sep)).tail.length + 1 ≤ s.length := by
            have hdrop := (@List.dropWhile_sublist _ s fun c => decide (c ≠ sep)).length_le
            have hpos := List.length_pos_iff.mpr hs
            rw [List.length_tail]
            omega
          rw [ih m (by omega) (by omega)]

theorem split_of_free (hs : sep ∉ s) (hne : s ≠ []) : split sep s = [s] := by
  obtain ⟨n, hn⟩ : ∃ n, s.length = n + 1 := Nat.exists_eq_succ_of_ne_zero fun h => hne (List.length_eq_zero_iff.mp h)
  have htake := List.takeWhile_eq_self_iff.mpr (ne_of_free hs)
  have hdrop := List.dropWhile_eq_nil_iff.mpr (ne_of_free hs)
  have hlast : s.getLast? ≠ some sep := fun h => hs (List.mem_of_getLast? h)
  have hrest : splitLoop sep n [] = [] := by cases n <;> rfl
  rw [split, if_neg hlast, hn, splitLoop_succ, if_neg (by simpa using hne), htake, hdrop]
  simp [hrest]

theorem split_append (ha : sep ∉ a) (hb : b ≠ []) : split sep (a ++ sep :: b) = a :: split sep b := by
  have hlen : (a ++ sep :: b).length = a.length + b.length + 1 := by
    simp
    omega
  have hlast : (a ++ sep :: b).getLast? = b.getLast? := by
    rw [List.getLast?_append, List.getLast?_cons]
    cases h : b.getLast? with
    | none => simp [hb] at h
    | some c => simp
  have hfuel := @splitLoop_fuel sep b (a.length + b.length) b.length (by omega) le_rfl
  rw [split, split, hlast, hlen, splitLoop_succ, if_neg (by simp), takeWhile_append_sep ha, dropWhile_append_sep ha,
    List.tail_cons, hfuel, List.cons_append]

theorem split_append_sep (ha : sep ∉ a) : split sep (a ++ [sep]) = [a, []] := by
  have hrest : splitLoop sep a.length [] = [] := by cases a.length <;> rfl
  have hlen : (a ++ [sep]).length = a.length + 1 := by simp
  rw [split, hlen, splitLoop_succ, if_neg (by simp), takeWhile_append_sep ha, dropWhile_append_sep ha, List.tail_cons, hrest]
  simp

theorem length_split_pos (hs : s ≠ []) : 0 < (split sep s).length := by
  by_cases hmem : sep ∈ s
  · obtain ⟨a, b, rfl, ha⟩ := List.eq_append_cons_of_mem hmem
    by_cases hb : b = []
    · rw [hb, split_append_sep ha]
      simp
    · rw [split_append ha hb]
      simp
  · rw [split_of_free hmem hs]
    simp

theorem two_le_length_split (hmem : sep ∈ s) : 2 ≤ (split sep s).length := by
  obtain ⟨a, b, rfl, ha⟩ := List.eq_append_cons_of_mem hmem
  by_cases hb : b = []
  · rw [hb, split_append_sep ha]
    simp
  · rw [split_append ha hb, List.length_cons]
    have hpos := @length_split_pos sep b hb
    omega

theorem three_le_length_split (hmem : sep ∈ a) : 3 ≤ (split sep (a ++ sep :: b)).length := by
  obtain ⟨a₁, a₂, rfl, ha⟩ := List.eq_append_cons_of_mem hmem
  rw [List.append_assoc, List.cons_append, split_append ha (by simp), List.length_cons]
  have htwo : 2 ≤ (split sep (a₂ ++ sep :: b)).length := two_le_length_split (by simp)
  omega

end

/-! ### Round trip -/

/-- The characters that separate the parts of a connection string are not in the host and the user name; an
IPv6 host may have colons. -/
structure WellFormed (e : EndpointCredentials) : Prop where
  host_ne : e.host ≠ []
  host_at : '@' ∉ e.host
  host_open : '[' ∉ e.host
  host_close : ']' ∉ e.host
  username_ne : e.username ≠ []
  username_at : '@' ∉ e.username
  username_colon : ':' ∉ e.username

def identity (username passwordOverride : List Char) : List Char :=
  username ++ if passwordOverride.isEmpty then [] else ':' :: passwordOverride

theorem isDigit_toDigits (n : Nat) : ∀ c ∈ Nat.toDigits 10 n, c.isDigit = true := by
  intro c hc
  exact Nat.isDigit_of_mem_toDigits (by decide) (by decide) hc

theorem toDigits_ne_nil (n : Nat) : Nat.toDigits 10 n ≠ [] := by
  intro h
  have hlen := @Nat.length_toDigits_pos 10 n
  simp [h] at hlen

theorem not_isSpace_of_isDigit {c : Char} (h : c.isDigit = true) : isSpace c = false ∧ c ≠ '-' ∧ c ≠ '+' := by
  have hlow : 48 ≤ c.toNat := by
    rw [Char.isDigit, Bool.and_eq_true, decide_eq_true_eq] at h
    exact h.1
  refine ⟨?_, ?_, ?_⟩
  · have hne : c ≠ ' ' := by
      rintro rfl
      exact absurd hlow (by decide)
    have hhigh : ¬ c.toNat ≤ 13 := by omega
    simp [isSpace, hne, hhigh]
  · rintro rfl
    exact absurd hlow (by decide)
  · rintro rfl
    exact absurd hlow (by decide)

theorem strtoul_toDigits (port : UInt16) :
    strtoul (Nat.toDigits 10 port.toNat) = some (port.toNat, []) := by
  have hall := isDigit_toDigits port.toNat
  have hne := toDigits_ne_nil port.toNat
  have hval : Nat.ofDigitChars 10 (Nat.toDigits 10 port.toNat) 0 = port.toNat := Nat.ofDigitChars_ten_toDigits
  have hlt := port.toNat_lt
  obtain ⟨c, ds, hds⟩ := List.exists_cons_of_ne_nil hne
  rw [hds] at hall hval ⊢
  obtain ⟨hspace, hminus, hplus⟩ := not_isSpace_of_isDigit (hall c (by simp))
  have htake := List.takeWhile_eq_self_iff.mpr hall
  have hdrop := List.dropWhile_eq_nil_iff.mpr hall
  have hmax : ¬ port.toNat > ulongMax := by
    unfold ulongMax
    omega
  simp [strtoul, hspace, hminus, hplus, htake, hdrop, hval, hmax]

variable {e : EndpointCredentials} {addr user pass : List Char} {port : UInt16}

theorem buildConnstr_eq (h : WellFormed e) :
    buildConnstr e true true [] = identity e.username e.passwordOverride ++ '@' :: connstr e.host e.port 0 := by
  have hhost := h.host_ne
  have huser := h.username_ne
  unfold buildConnstr identity
  by_cases hpass : e.passwordOverride = [] <;> simp [hhost, huser, hpass]

theorem storeAddr_eq_iff {host : List Char} :
    storeAddr ⟨[], 0, user, pass⟩ addr = (true, ⟨host, port, user, pass⟩) ↔
      parseAddr addr = some (host, none) ∧ port = 0 ∨ parseAddr addr = some (host, some port) := by
  unfold storeAddr
  split <;> rename_i hparse <;> rw [hparse]
  · simp
  · simp [eq_comm]
  · simp

theorem finishAddr_none (host addr : List Char) (skip : Nat) :
    finishAddr host addr skip none = some (if host.isEmpty then addr else host, none) := rfl

theorem parseAddr_host (hopen : '[' ∉ addr) (hcolon : ':' ∉ addr) :
    parseAddr addr = some (addr, none) := by
  have hhead : addr.head? ≠ some '[' := fun h => hopen (List.mem_of_head? h)
  have hidx : (addr.drop (if isMapped addr then 7 else 0)).findIdx? (· = ':') = none := by
    rw [List.findIdx?_eq_none_iff]
    intro c hc
    have hne : c ≠ ':' := fun h => hcolon (h ▸ List.mem_of_mem_drop hc)
    simpa using hne
  rw [parseAddr, if_neg hhead]
  simp only [hidx]
  simp [finishAddr_none]

theorem isMapped_eq_false {c : Char} {rest : List Char} (hc : c ≠ ':') : isMapped (c :: rest) = false := by
  have hlower : c.toLower ≠ ':' := by
    unfold Char.toLower
    split
    · rename_i hupper
      intro h
      have hval := congrArg Char.val h
      obtain ⟨hlow, hhigh⟩ := hupper
      simp only [ge_iff_le, UInt32.le_iff_toNat_le] at hlow hhigh
      have hsum := congrArg UInt32.toNat hval
      simp at hsum hlow hhigh
      omega
    · exact hc
  simp [isMapped, hlower]

theorem parseAddr_host_port (hne : addr ≠ []) (hopen : '[' ∉ addr) (hcolon : ':' ∉ addr) :
    parseAddr (addr ++ ':' :: Nat.toDigits 10 port.toNat) = some (addr, some port) := by
  obtain ⟨c, rest, rfl⟩ := List.exists_cons_of_ne_nil hne
  rw [List.mem_cons, not_or] at hopen hcolon
  have hmapped : isMapped (c :: rest ++ ':' :: Nat.toDigits 10 port.toNat) = false :=
    isMapped_eq_false (Ne.symm hcolon.1)
  have hall : ∀ x ∈ c :: rest, (decide (x = ':')) = false := by
    intro x hx
    have hxc : x ≠ ':' := by
      rintro rfl
      rcases List.mem_cons.mp hx with hx | hx
      · exact hcolon.1 hx
      · exact hcolon.2 hx
    simpa using hxc
  have hidx : (c :: rest ++ ':' :: Nat.toDigits 10 port.toNat).findIdx? (· = ':') = some (c :: rest).length := by
    rw [List.findIdx?_append, List.findIdx?_eq_none_iff.mpr hall, List.findIdx?_cons]
    simp
  have hdrop : (c :: rest ++ ':' :: Nat.toDigits 10 port.toNat).drop ((c :: rest).length + 1) =
      Nat.toDigits 10 port.toNat := by simp
  rw [parseAddr, if_neg (by simp [Ne.symm hopen.1])]
  simp only [hmapped, Bool.false_eq_true, if_false, List.drop_zero, hidx, finishAddr, Nat.zero_add, hdrop,
    strtoul_toDigits]
  simp

theorem parseAddr_bracketed (hne : addr ≠ []) (hclose : ']' ∉ addr) (rest : List Char) :
    parseAddr ('[' :: addr ++ ']' :: rest) = some (addr, none) := by
  have htake : (addr ++ ']' :: rest).takeWhile (· ≠ ']') = addr := takeWhile_append_sep hclose
  have hdrop : ('[' :: addr ++ ']' :: rest).drop (addr.length + 1) = ']' :: rest := by simp
  rw [parseAddr, if_pos (by simp)]
  simp only [List.cons_append, List.tail_cons, htake]
  rw [← List.cons_append, hdrop]
  simp [finishAddr_none, hne]

theorem parseAddr_colon_ne {found : Option UInt16} (hopen : '[' ∉ addr)
    (hcolon : ':' ∈ addr.drop (if isMapped addr then 7 else 0)) : parseAddr addr ≠ some (addr, found) := by
  have hhead : addr.head? ≠ some '[' := fun h => hopen (List.mem_of_head? h)
  have hidx : ((addr.drop (if isMapped addr then 7 else 0)).findIdx? (· = ':')).isSome := by
    rw [List.findIdx?_isSome, List.any_eq_true]
    exact ⟨':', hcolon, by simp⟩
  obtain ⟨i, hi⟩ := Option.isSome_iff_exists.mp hidx
  have hlen : i < addr.length := by
    have hlt := (List.findIdx?_eq_some_iff_getElem.mp hi).1
    rw [List.length_drop] at hlt
    omega
  rw [parseAddr, if_neg hhead]
  simp only [hi, finishAddr]
  intro h
  have hcut : addr.take i = addr := by
    split at h
    · simp at h
    · split at h
      · simp only [List.isEmpty_nil, if_true, Option.some.injEq, Prod.mk.injEq] at h
        exact h.1
      · simp at h
  have hshort := congrArg List.length hcut
  rw [List.length_take] at hshort
  omega

theorem parseAddr_mapped (hopen : '[' ∉ addr) (hmapped : isMapped addr = true)
    (hcolon : ':' ∉ addr.drop 7) : parseAddr addr = some (addr, none) := by
  have hhead : addr.head? ≠ some '[' := fun h => hopen (List.mem_of_head? h)
  have hidx : (addr.drop 7).findIdx? (· = ':') = none := by
    rw [List.findIdx?_eq_none_iff]
    intro c hc
    have hne : c ≠ ':' := fun h => hcolon (h ▸ hc)
    simpa using hne
  rw [parseAddr, if_neg hhead]
  simp only [hmapped, if_true, hidx]
  simp [finishAddr_none]

theorem parseAddr_connstr (h : WellFormed e) :
    (parseAddr (connstr e.host e.port 0) = some (e.host, none) ∧ e.port = 0 ∨
        parseAddr (connstr e.host e.port 0) = some (e.host, some e.port)) ↔
      ':' ∉ e.host ∨ e.port = 0 ∧ isMapped e.host = true ∧ ':' ∉ e.host.drop 7 := by
  have hhead : e.host.head? ≠ some '[' := fun hh => h.host_open (List.mem_of_head? hh)
  by_cases hport : e.port = 0
  · have hconn : connstr e.host e.port 0 = e.host := by simp [connstr, hport]
    rw [hconn]
    by_cases hcolon : ':' ∈ e.host
    · by_cases hskip : ':' ∈ e.host.drop (if isMapped e.host then 7 else 0)
      · have hnone := @parseAddr_colon_ne e.host none h.host_open hskip
        have hsome := @parseAddr_colon_ne e.host (some e.port) h.host_open hskip
        refine ⟨fun hparse => ?_, fun hcond => ?_⟩
        · rcases hparse with ⟨hparse, -⟩ | hparse
          · exact absurd hparse hnone
          · exact absurd hparse hsome
        · rcases hcond with hcond | ⟨-, hmapped, hcond⟩
          · exact absurd hcolon hcond
          · rw [hmapped, if_pos rfl] at hskip
            exact absurd hskip hcond
      · have hmapped : isMapped e.host = true := by
          by_contra hmapped
          rw [if_neg hmapped, List.drop_zero] at hskip
          exact hskip hcolon
        rw [hmapped, if_pos rfl] at hskip
        exact ⟨fun _ => .inr ⟨hport, hmapped, hskip⟩,
          fun _ => .inl ⟨parseAddr_mapped h.host_open hmapped hskip, hport⟩⟩
    · exact ⟨fun _ => .inl hcolon, fun _ => .inl ⟨parseAddr_host h.host_open hcolon, hport⟩⟩
  · have hnum : e.port.toNat ≠ 0 := by
      intro hzero
      exact hport (UInt16.toNat_inj.mp hzero)
    by_cases hcolon : ':' ∈ e.host
    · have hconn : connstr e.host e.port 0 = '[' :: e.host ++ ']' :: ':' :: Nat.toDigits 10 e.port.toNat := by
        simp [connstr, hport, hnum, hhead, hcolon]
      rw [hconn, parseAddr_bracketed h.host_ne h.host_close]
      simp [hport, hcolon]
    · have hconn : connstr e.host e.port 0 = e.host ++ ':' :: Nat.toDigits 10 e.port.toNat := by
        simp [connstr, hport, hnum, hcolon]
      rw [hconn, parseAddr_host_port h.host_ne h.host_open hcolon]
      simp [hcolon]

theorem connstr_free (h : WellFormed e) : '@' ∉ connstr e.host e.port 0 ∧ connstr e.host e.port 0 ≠ [] := by
  have hdigits : '@' ∉ Nat.toDigits 10 e.port.toNat := fun hc => absurd (isDigit_toDigits _ _ hc) (by decide)
  unfold connstr
  split
  · split <;> simp [h.host_at, hdigits]
  · exact ⟨h.host_at, h.host_ne⟩

/-- The printed connection string is read back exactly when the password has no separators and the host has no
colons; an IPv6 host is read back only as the prefix of an IPv4 address and without a port. -/
theorem parseConnstr_buildConnstr_iff (out : EndpointCredentials) (h : WellFormed e) :
    parseConnstr out (buildConnstr e true true []) false = (true, e) ↔
      ('@' ∉ e.passwordOverride ∧ ':' ∉ e.passwordOverride) ∧
        (':' ∉ e.host ∨ e.port = 0 ∧ isMapped e.host = true ∧ ':' ∉ e.host.drop 7) := by
  obtain ⟨haddr, haddr_ne⟩ := connstr_free h
  have hid_ne : identity e.username e.passwordOverride ≠ [] := by
    unfold identity
    simp [h.username_ne]
  rw [buildConnstr_eq h, parseConnstr, if_neg (by simp)]
  simp only [Bool.false_eq_true, if_false]
  by_cases hat : '@' ∈ e.passwordOverride
  · -- the password makes a third part
    have hid : '@' ∈ identity e.username e.passwordOverride := by
      unfold identity
      rw [if_neg (by simpa using List.ne_nil_of_mem hat)]
      simp [hat]
    have hlen := @three_le_length_split '@' _ (connstr e.host e.port 0) hid
    refine ⟨fun hparse => ?_, fun hcond => absurd hat hcond.1.1⟩
    split at hparse
    · rename_i hsplit
      rw [hsplit] at hlen
      simp at hlen
    · rename_i hsplit
      rw [hsplit] at hlen
      simp at hlen
    · simp at hparse
  · have hid : '@' ∉ identity e.username e.passwordOverride := by
      unfold identity
      split
      · simpa using h.username_at
      · simp [h.username_at, hat]
    rw [split_append hid haddr_ne, split_of_free haddr haddr_ne]
    simp only [List.isEmpty_iff, if_neg hid_ne]
    by_cases hcolon : ':' ∈ e.passwordOverride
    · have hpass : e.passwordOverride ≠ [] := List.ne_nil_of_mem hcolon
      have hlen : 3 ≤ (split ':' (identity e.username e.passwordOverride)).length := by
        unfold identity
        rw [if_neg (by simpa using hpass), split_append h.username_colon hpass, List.length_cons]
        have htwo := two_le_length_split hcolon
        omega
      refine ⟨fun hparse => ?_, fun hcond => absurd hcolon hcond.1.2⟩
      split at hparse
      · rename_i hsplit
        rw [hsplit] at hlen
        simp at hlen
      · rename_i hsplit
        rw [hsplit] at hlen
        simp at hlen
      · simp at hparse
    · rw [← parseAddr_connstr h, ← @storeAddr_eq_iff _ e.username e.passwordOverride]
      simp only [hat, hcolon, not_false_eq_true, true_and]
      by_cases hpass : e.passwordOverride = []
      · have hid : identity e.username e.passwordOverride = e.username := by simp [identity, hpass]
        obtain ⟨host, port, user, pass⟩ := e
        simp only at hpass
        subst hpass
        rw [hid, split_of_free h.username_colon h.username_ne]
        rfl
      · rw [identity, if_neg (by simpa using hpass), split_append h.username_colon hpass, split_of_free hcolon hpass]
        simp [EndpointCredentials.clear]

/-- An IPv6 host with a port loses the port. -/
theorem parseConnstr_buildConnstr_ipv6 :
    WellFormed ⟨[':', ':', '1'], 23946, ['u'], []⟩ ∧
      parseConnstr .clear (buildConnstr ⟨[':', ':', '1'], 23946, ['u'], []⟩ true true []) false ≠
        (true, ⟨[':', ':', '1'], 23946, ['u'], []⟩) := by
  refine ⟨⟨?_, ?_, ?_, ?_, ?_, ?_, ?_⟩, ?_⟩ <;> decide

/-- An endpoint with all parts comes back. -/
theorem parseConnstr_buildConnstr_name :
    parseConnstr .clear (buildConnstr ⟨['h'], 23946, ['u'], ['p']⟩ true true []) false =
      (true, ⟨['h'], 23946, ['u'], ['p']⟩) :=
  (parseConnstr_buildConnstr_iff .clear ⟨by decide, by decide, by decide, by decide, by decide, by decide, by decide⟩).mpr
    (by decide)

end IdaSdk.Connstr
