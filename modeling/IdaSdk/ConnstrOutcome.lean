import IdaSdk.Connstr

/-!
What a call of `parse_connstr` leaves behind, for every text: which fields a failing call has already stored,
and which port a successful one stores. The forms of the text are said without reference to the parser.
-/

namespace IdaSdk.Connstr

/-- The text is an identity, an `@` and an address; the identity is a user name, or a user name and a password
with a colon between them. -/
structure HasIdentity (s user : List Char) (pass : Option (List Char)) (addr : List Char) : Prop where
  whole : ∃ ident, s = ident ++ '@' :: addr ∧ ident = user ++ pass.elim [] (':' :: ·) ∧ ident ≠ [] ∧ '@' ∉ ident
  addr_at : '@' ∉ addr
  user_colon : ':' ∉ user
  pass_colon : ∀ p, pass = some p → ':' ∉ p

/-- The address of a text: all of it, or what follows its only `@`. -/
def HasAddress (s addr : List Char) : Prop :=
  (s = addr ∧ '@' ∉ s) ∨ ∃ user pass, HasIdentity s user pass addr

/-- A number as it is written in decimal: white space, a sign, digits, and blanks behind them. -/
def Decimal (text : List Char) (n : Int) : Prop :=
  ∃ spaces sign digits blanks, text = spaces ++ (sign ++ (digits ++ blanks)) ∧
    (∀ c ∈ spaces, isSpace c = true) ∧ (∀ c ∈ digits, c.isDigit = true) ∧ digits ≠ [] ∧ (∀ c ∈ blanks, c = ' ') ∧
    ((sign = [] ∨ sign = ['+']) ∧ n = Nat.ofDigitChars 10 digits 0 ∨
      sign = ['-'] ∧ n = -(Nat.ofDigitChars 10 digits 0 : Int))

/-- The port that an address without brackets gives after its last colon. -/
def PortWritten (addr : List Char) (n : Int) : Prop :=
  ∃ host text, addr = host ++ ':' :: text ∧ host.head? ≠ some '[' ∧ Decimal text n

section
variable {sep : Char} {s : List Char}

variable {a b : List Char}

theorem split_two (ha : sep ∉ a) (hb : sep ∉ b) : split sep (a ++ sep :: b) = [a, b] := by
  by_cases hnil : b = []
  · rw [hnil, split_append_sep ha]
  · rw [split_append ha hnil, split_of_free hb hnil]

theorem split_cases (hs : s ≠ []) :
    (sep ∉ s ∧ split sep s = [s]) ∨
      (∃ a b, s = a ++ sep :: b ∧ sep ∉ a ∧ sep ∉ b ∧ split sep s = [a, b]) ∨ 3 ≤ (split sep s).length := by
  by_cases hmem : sep ∈ s
  · obtain ⟨a, b, rfl, ha⟩ := List.eq_append_cons_of_mem hmem
    by_cases hsep : sep ∈ b
    · have htwo := two_le_length_split hsep
      rw [split_append ha (List.ne_nil_of_mem hsep), List.length_cons]
      exact .inr (.inr (by omega))
    · exact .inr (.inl ⟨a, b, rfl, ha, hsep, split_two ha hsep⟩)
  · exact .inl ⟨hmem, split_of_free hmem hs⟩

theorem append_sep_inj {a' b' : List Char} (h : a ++ sep :: b = a' ++ sep :: b') (ha : sep ∉ a)
    (ha' : sep ∉ a') : a = a' ∧ b = b' := by
  have htake := congrArg (List.takeWhile (· ≠ sep)) h
  rw [takeWhile_append_sep ha, takeWhile_append_sep ha'] at htake
  subst htake
  exact ⟨rfl, by simpa using h⟩

theorem sep_append_inj {a' b' : List Char} (h : a ++ sep :: b = a' ++ sep :: b') (hb : sep ∉ b)
    (hb' : sep ∉ b') : b = b' := by
  have hrev : b.reverse ++ sep :: a.reverse = b'.reverse ++ sep :: a'.reverse := by
    simpa using congrArg List.reverse h
  have heq := (append_sep_inj hrev (by simpa using hb) (by simpa using hb')).1
  simpa using heq

end

/-! ### The identity -/

variable {pass : Option (List Char)} {addr s user : List Char}

theorem HasIdentity.has_at (h : HasIdentity s user pass addr) :
    '@' ∈ s := by
  obtain ⟨ident, rfl, -⟩ := h.whole
  simp

theorem HasIdentity.length_parts
    (h : HasIdentity s user pass addr) : (split ':' (user ++ pass.elim [] (':' :: ·))).length ≤ 2 := by
  obtain ⟨ident, -, hident, hne, -⟩ := h.whole
  cases pass with
  | none =>
      rw [hident] at hne
      simp only [Option.elim_none, List.append_nil] at hne ⊢
      simp [split_of_free h.user_colon hne]
  | some p => simp [split_two h.user_colon (h.pass_colon p rfl)]

variable {addr' : List Char}

theorem HasIdentity.unique {user' : List Char} {pass' : Option (List Char)}
    (h : HasIdentity s user pass addr) (h' : HasIdentity s user' pass' addr') :
    user = user' ∧ pass = pass' ∧ addr = addr' := by
  obtain ⟨ident, rfl, hident, -, hat⟩ := h.whole
  obtain ⟨ident', heq, hident', -, hat'⟩ := h'.whole
  obtain ⟨rfl, rfl⟩ := append_sep_inj heq hat hat'
  have hcolon := hident.symm.trans hident'
  cases pass with
  | none =>
      cases pass' with
      | none => exact ⟨by simpa using hcolon, rfl, rfl⟩
      | some p' =>
          have hmem : ':' ∈ user := by
            rw [show user = user' ++ ':' :: p' by simpa using hcolon]
            simp
          exact absurd hmem h.user_colon
  | some p =>
      cases pass' with
      | none =>
          have hmem : ':' ∈ user' := by
            rw [show user' = user ++ ':' :: p by simpa using hcolon.symm]
            simp
          exact absurd hmem h'.user_colon
      | some p' =>
          obtain ⟨rfl, rfl⟩ := append_sep_inj hcolon h.user_colon h'.user_colon
          exact ⟨rfl, rfl, rfl⟩

theorem parseConnstr_cases (out : EndpointCredentials) (s : List Char) (merge : Bool) :
    (parseConnstr out s merge = (false, if merge then out else .clear) ∧ ∀ user pass addr, ¬ HasIdentity s user pass addr) ∨
      ('@' ∉ s ∧ parseConnstr out s merge = storeAddr (if merge then out else .clear) s) ∨
      ∃ user pass addr, HasIdentity s user pass addr ∧
        parseConnstr out s merge = storeAddr { (if merge then out else .clear) with
          username := user, passwordOverride := pass.getD (if merge then out else .clear).passwordOverride } addr := by
  unfold parseConnstr
  generalize (if merge then out else .clear) = start
  simp only
  by_cases hs : s = []
  · subst hs
    exact .inl ⟨rfl, fun _ _ _ h => absurd h.has_at (by simp)⟩
  rw [if_neg (by simpa using hs)]
  rcases @split_cases '@' s hs with ⟨hfree, hsplit⟩ | ⟨ident, addr, rfl, hat, hat', hsplit⟩ | hmany
  · rw [hsplit]
    exact .inr (.inl ⟨hfree, rfl⟩)
  · rw [hsplit]
    simp only
    by_cases hident : ident = []
    · rw [if_pos (by simpa using hident)]
      refine .inl ⟨rfl, fun user pass addr' h => ?_⟩
      obtain ⟨ident', heq, -, hne, hat''⟩ := h.whole
      exact hne ((append_sep_inj heq hat hat'').1 ▸ hident)
    rw [if_neg (by simpa using hident)]
    rcases @split_cases ':' ident hident with ⟨hfree, hparts⟩ | ⟨user, pass, rfl, hcolon, hcolon', hparts⟩ | hmany
    · rw [hparts]
      exact .inr (.inr ⟨ident, none, addr, ⟨⟨ident, rfl, by simp, hident, hat⟩, hat', hfree, by simp⟩, rfl⟩)
    · rw [hparts]
      refine .inr (.inr ⟨user, some pass, addr, ⟨⟨_, rfl, rfl, hident, hat⟩, hat', hcolon, ?_⟩, rfl⟩)
      rintro p ⟨rfl⟩
      exact hcolon'
    · refine .inl ⟨?_, fun user pass addr' h => ?_⟩
      · split
        · rename_i hparts
          simp [hparts] at hmany
        · rename_i hparts
          simp [hparts] at hmany
        · rfl
      · obtain ⟨ident', heq, hparts, -, hat''⟩ := h.whole
        obtain ⟨rfl, -⟩ := append_sep_inj heq hat hat''
        have htwo := h.length_parts
        rw [← hparts] at htwo
        omega
  · refine .inl ⟨?_, fun user pass addr h => ?_⟩
    · split
      · rename_i hparts
        simp [hparts] at hmany
      · rename_i hparts
        simp [hparts] at hmany
      · rfl
    · obtain ⟨ident, rfl, -, -, hat⟩ := h.whole
      rw [split_two hat h.addr_at] at hmany
      simp at hmany

/-! ### The address -/

variable {s addr user : List Char} {pass : Option (List Char)} {out : EndpointCredentials}

theorem storeAddr_identity (out : EndpointCredentials) (addr : List Char) :
    (storeAddr out addr).2.username = out.username ∧
      (storeAddr out addr).2.passwordOverride = out.passwordOverride := by
  unfold storeAddr
  split <;> exact ⟨rfl, rfl⟩

theorem storeAddr_failed (h : (storeAddr out addr).1 = false) : (storeAddr out addr).2 = out := by
  unfold storeAddr at h ⊢
  split <;> rename_i hparse <;> rw [hparse] at h <;> first | rfl | simp at h

theorem digits_blanks {digits blanks : List Char} (hdigits : ∀ c ∈ digits, c.isDigit = true)
    (hblanks : ∀ c ∈ blanks, c = ' ') :
    (digits ++ blanks).takeWhile Char.isDigit = digits ∧ (digits ++ blanks).dropWhile Char.isDigit = blanks := by
  rw [List.takeWhile_append_of_pos hdigits, List.dropWhile_append_of_pos hdigits]
  cases blanks with
  | nil => simp
  | cons b bs =>
      obtain rfl := hblanks b (by simp)
      simp

variable {text : List Char} {n : Int}

theorem strtoul_decimal (h : Decimal text n) (hlo : 0 ≤ n) (hhi : n ≤ ulongMax) :
    ∃ blanks, strtoul text = some (n.toNat, blanks) ∧ ∀ c ∈ blanks, c = ' ' := by
  obtain ⟨spaces, sign, digits, blanks, rfl, hspaces, hdigits, hne, hblanks, hsign⟩ := h
  obtain ⟨htake, hdrop⟩ := digits_blanks hdigits hblanks
  obtain ⟨d, ds, rfl⟩ := List.exists_cons_of_ne_nil hne
  obtain ⟨hspace, hminus, hplus⟩ := not_isSpace_of_isDigit (hdigits d (by simp))
  rw [List.cons_append] at htake hdrop
  refine ⟨blanks, ?_, hblanks⟩
  unfold strtoul
  rw [List.dropWhile_append_of_pos hspaces]
  obtain ⟨rfl | rfl, rfl⟩ | ⟨rfl, rfl⟩ := hsign
  · have hmax : ¬ ulongMax < Nat.ofDigitChars 10 (d :: ds) 0 := by omega
    have hskip : (d :: (ds ++ blanks)).dropWhile isSpace = d :: (ds ++ blanks) := by simp [hspace]
    simp only [List.nil_append, List.cons_append, hskip, List.head?_cons]
    simp [hminus, hplus, htake, hdrop, hmax]
  · have hmax : ¬ ulongMax < Nat.ofDigitChars 10 (d :: ds) 0 := by omega
    have hskip : ('+' :: (d :: (ds ++ blanks))).dropWhile isSpace = '+' :: d :: (ds ++ blanks) := by
      simp [show isSpace '+' = false by decide]
    simp only [List.cons_append, List.nil_append, hskip, List.head?_cons]
    simp [htake, hdrop, hmax]
  · -- only zero has a sign and is not negative
    have hzero : Nat.ofDigitChars 10 (d :: ds) 0 = 0 := by omega
    have hskip : ('-' :: (d :: (ds ++ blanks))).dropWhile isSpace = '-' :: d :: (ds ++ blanks) := by
      simp [show isSpace '-' = false by decide]
    simp only [List.cons_append, List.nil_append, hskip, List.head?_cons]
    simp [htake, hdrop, hzero]

theorem Decimal.chars (h : Decimal text n) : ∀ c ∈ text, c ≠ ':' ∧ c ≠ '.' := by
  obtain ⟨spaces, sign, digits, blanks, rfl, hspaces, hdigits, -, hblanks, hsign⟩ := h
  intro c hc
  simp only [List.mem_append] at hc
  rcases hc with hc | hc | hc | hc
  · have hspace := hspaces c hc
    constructor <;> (rintro rfl; exact absurd hspace (by decide))
  · obtain ⟨rfl | rfl, -⟩ | ⟨rfl, -⟩ := hsign <;> simp at hc <;> subst hc <;> decide
  · have hdigit := hdigits c hc
    constructor <;> (rintro rfl; exact absurd hdigit (by decide))
  · obtain rfl := hblanks c hc
    decide

theorem Decimal.free (h : Decimal text n) : ':' ∉ text := fun hc => (h.chars ':' hc).1 rfl

variable {found : List Char} {port : Option UInt16}

theorem finishAddr_eq {host : List Char} {skip : Nat} {colon : Option Nat} (h : finishAddr host addr skip colon = some (found, port)) :
    (colon = none ∧ port = none) ∨ ∃ i n rest, colon = some i ∧ port = some (UInt16.ofNat n) ∧
      strtoul (addr.drop (skip + i + 1)) = some (n, rest) ∧ (rest.dropWhile (· = ' ')).isEmpty = true := by
  cases colon with
  | none =>
      simp only [finishAddr, Option.some.injEq, Prod.mk.injEq] at h
      exact .inl ⟨rfl, h.2.symm⟩
  | some i =>
      rw [finishAddr] at h
      split at h
      · cases h
      rename_i n rest hnum
      split at h
      · rename_i hrest
        simp only [Option.some.injEq, Prod.mk.injEq] at h
        exact .inr ⟨i, n, rest, rfl, h.2.symm, hnum, hrest⟩
      · cases h

theorem strtoul_rest (text : List Char) :
    ∃ sign body, text.dropWhile isSpace = sign ++ body ∧ (sign = [] ∨ sign = ['+'] ∨ sign = ['-']) ∧
      (strtoul text).map Prod.snd = if (body.takeWhile Char.isDigit).isEmpty then none
        else some (body.dropWhile Char.isDigit) := by
  unfold strtoul
  cases hs : text.dropWhile isSpace with
  | nil => exact ⟨[], [], rfl, .inl rfl, by simp⟩
  | cons c body =>
      by_cases hminus : c = '-'
      · subst hminus
        refine ⟨['-'], body, rfl, by simp, ?_⟩
        simp only [List.head?_cons, beq_self_eq_true, Bool.true_or, if_true, List.tail_cons]
        rw [apply_ite (Option.map Prod.snd)]
        rfl
      · by_cases hplus : c = '+'
        · subst hplus
          refine ⟨['+'], body, rfl, by simp, ?_⟩
          simp only [List.head?_cons, beq_self_eq_true, Bool.or_true, if_true, List.tail_cons]
          rw [apply_ite (Option.map Prod.snd)]
          rfl
        · have hcond : ((some c == some '-') || (some c == some '+')) = false := by simp [hminus, hplus]
          refine ⟨[], c :: body, rfl, .inl rfl, ?_⟩
          simp only [List.head?_cons, hcond, Bool.false_eq_true, if_false]
          rw [apply_ite (Option.map Prod.snd)]
          rfl

theorem decimal_of_strtoul {rest : List Char} {n : Nat} (h : strtoul text = some (n, rest))
    (hrest : (rest.dropWhile (· = ' ')).isEmpty = true) : ∃ m, Decimal text m := by
  have hblanks : ∀ c ∈ rest, c = ' ' := by
    have hall := List.dropWhile_eq_nil_iff.mp (List.isEmpty_iff.mp hrest)
    intro c hc
    simpa using hall c hc
  have hspaces : ∀ c ∈ text.takeWhile isSpace, isSpace c = true := fun c hc => List.mem_takeWhile_imp hc
  obtain ⟨sign, body, hbody, hsign, hval⟩ := strtoul_rest text
  rw [h, Option.map_some] at hval
  split at hval
  · cases hval
  rename_i hdigits
  have hdrop : rest = body.dropWhile Char.isDigit := Option.some.inj hval
  have hparts := @List.takeWhile_append_dropWhile _ Char.isDigit body
  have htext : text = text.takeWhile isSpace ++ (sign ++ (body.takeWhile Char.isDigit ++ rest)) := by
    rw [hdrop, hparts, ← hbody, List.takeWhile_append_dropWhile]
  have hd : ∀ c ∈ body.takeWhile Char.isDigit, c.isDigit = true := fun c hc => List.mem_takeWhile_imp hc
  have hne : body.takeWhile Char.isDigit ≠ [] := by simpa using hdigits
  rcases hsign with hs | hs | hs
  · exact ⟨_, _, sign, _, rest, htext, hspaces, hd, hne, hblanks, .inl ⟨.inl hs, rfl⟩⟩
  · exact ⟨_, _, sign, _, rest, htext, hspaces, hd, hne, hblanks, .inl ⟨.inr hs, rfl⟩⟩
  · exact ⟨_, _, sign, _, rest, htext, hspaces, hd, hne, hblanks, .inr ⟨hs, rfl⟩⟩

theorem dot_of_isMapped (h : isMapped addr = true) : '.' ∈ addr.drop 7 := by
  rw [isMapped, Bool.and_eq_true, beq_iff_eq] at h
  have hmem : '.' ∈ addr.take 7 ++ addr.drop 7 := by
    rw [List.take_append_drop]
    simpa using h.2
  rcases List.mem_append.mp hmem with hfront | hback
  · have hlower : '.'.toLower ∈ (addr.take 7).map Char.toLower := List.mem_map_of_mem hfront
    rw [h.1] at hlower
    exact absurd hlower (by decide)
  · exact hback

theorem parseAddr_plain (h : parseAddr addr = some (found, port))
    (hopen : addr.head? ≠ some '[') :
    (port = none ∧ ∀ n, ¬ PortWritten addr n) ∨
      ∃ host text n m rest, addr = host ++ ':' :: text ∧ Decimal text m ∧ port = some (UInt16.ofNat n) ∧
        strtoul text = some (n, rest) := by
  rw [parseAddr, if_neg hopen] at h
  simp only at h
  rcases finishAddr_eq h with ⟨hnone, hport⟩ | ⟨i, n, rest, hcolon, hport, hnum, hrest⟩
  · left
    refine ⟨hport, ?_⟩
    rintro n ⟨host, text, rfl, -, hdecimal⟩
    rw [List.findIdx?_eq_none_iff] at hnone
    by_cases hmapped : isMapped (host ++ ':' :: text) = true
    · -- the colon is one of the prefix, so that the full stop stands behind it
      rw [if_pos hmapped] at hnone
      have hdot := dot_of_isMapped hmapped
      rw [List.drop_append, List.mem_append] at hdot
      have hback : '.' ∈ (':' :: text).drop (7 - host.length) := by
        rcases hdot with hfront | hback
        · have hlen : 7 - host.length = 0 := by
            have hpos := List.length_pos_of_mem hfront
            rw [List.length_drop] at hpos
            omega
          rw [List.drop_append, hlen] at hnone
          simpa using hnone ':' (by simp)
        · exact hback
      rcases List.mem_cons.mp (List.mem_of_mem_drop hback) with hc | hc
      · exact absurd hc (by decide)
      · exact (hdecimal.chars '.' hc).2 rfl
    · rw [if_neg hmapped] at hnone
      simpa using hnone ':' (by simp)
  · right
    generalize (if isMapped addr then 7 else 0) = skip at hcolon hnum
    obtain ⟨hlt, hi, -⟩ := List.findIdx?_eq_some_iff_getElem.mp hcolon
    obtain ⟨m, hdecimal⟩ := decimal_of_strtoul hnum hrest
    have hwhole : addr = addr.take (skip + i) ++ ':' :: addr.drop (skip + i + 1) := by
      rw [List.length_drop] at hlt
      have hget := List.drop_eq_getElem_cons (show skip + i < addr.length by omega)
      rw [List.getElem_drop, decide_eq_true_eq] at hi
      rw [hi] at hget
      rw [← hget, List.take_append_drop]
    exact ⟨_, _, n, m, rest, hwhole, hdecimal, hport, hnum⟩

theorem parseAddr_port
    (h : parseAddr addr = some (found, port)) (hwritten : PortWritten addr n) (hlo : 0 ≤ n) (hhi : n ≤ 65535) :
    ∃ p, port = some p ∧ (p.toNat : Int) = n := by
  obtain ⟨host, text, rfl, hopen, hdecimal⟩ := id hwritten
  have hhead : (host ++ ':' :: text).head? ≠ some '[' := by
    cases host with
    | nil => simp
    | cons c cs => simpa using hopen
  rcases parseAddr_plain h hhead with ⟨-, hnone⟩ | ⟨host', text', m, k, rest, heq, hdecimal', rfl, hnum⟩
  · exact absurd hwritten (hnone n)
  obtain rfl := sep_append_inj heq hdecimal.free hdecimal'.free
  obtain ⟨blanks, hval, -⟩ := strtoul_decimal hdecimal hlo (by unfold ulongMax; omega)
  rw [hnum] at hval
  simp only [Option.some.injEq, Prod.mk.injEq] at hval
  refine ⟨_, rfl, ?_⟩
  rw [UInt16.toNat_ofNat', hval.1, Nat.mod_eq_of_lt (by omega)]
  omega

/-- What `*out` holds after a call that starts from `start`. -/
structure Outcome (start : EndpointCredentials) (s : List Char) (ok : Bool) (out : EndpointCredentials) : Prop where
  failed : ok = false → out.host = start.host ∧ out.port = start.port
  unidentified : (∀ user pass addr, ¬ HasIdentity s user pass addr) →
    out.username = start.username ∧ out.passwordOverride = start.passwordOverride
  identified : ∀ user pass addr, HasIdentity s user pass addr →
    out.username = user ∧ out.passwordOverride = pass.getD start.passwordOverride
  port : ok = true → ∀ addr n, HasAddress s addr → PortWritten addr n → 0 ≤ n → n ≤ 65535 → (out.port.toNat : Int) = n
  no_port : ok = true → ∀ addr, HasAddress s addr → addr.head? ≠ some '[' → (∀ n, ¬ PortWritten addr n) →
    out.port = start.port

theorem storeAddr_port (h : (storeAddr out addr).1 = true) (hwritten : PortWritten addr n) (hlo : 0 ≤ n)
    (hhi : n ≤ 65535) : ((storeAddr out addr).2.port.toNat : Int) = n := by
  unfold storeAddr at h ⊢
  cases hparse : parseAddr addr with
  | none => simp [hparse] at h
  | some found =>
      obtain ⟨host, port⟩ := found
      obtain ⟨p, rfl, hp⟩ := parseAddr_port hparse hwritten hlo hhi
      exact hp

theorem storeAddr_no_port (h : (storeAddr out addr).1 = true) (hopen : addr.head? ≠ some '[')
    (hnone : ∀ n, ¬ PortWritten addr n) : (storeAddr out addr).2.port = out.port := by
  unfold storeAddr at h ⊢
  cases hparse : parseAddr addr with
  | none => simp [hparse] at h
  | some found =>
      obtain ⟨host, port⟩ := found
      rcases parseAddr_plain hparse hopen with ⟨rfl, -⟩ | ⟨pre, text, -, m, -, rfl, hdecimal, -⟩
      · rfl
      · refine absurd ⟨pre, text, rfl, ?_, hdecimal⟩ (hnone m)
        cases pre with
        | nil => simp
        | cons c cs => simpa using hopen

theorem HasAddress.of_identity (h : HasAddress s addr')
    (hid : HasIdentity s user pass addr) : addr' = addr := by
  rcases h with ⟨rfl, hfree⟩ | ⟨user', pass', h'⟩
  · exact absurd hid.has_at hfree
  · exact (h'.unique hid).2.2

theorem HasAddress.of_free (h : HasAddress s addr') (hfree : '@' ∉ s) : addr' = s := by
  rcases h with ⟨rfl, -⟩ | ⟨user', pass', h'⟩
  · rfl
  · exact absurd h'.has_at hfree

/-- A failing call leaves host and port as they are after the initial clearing, and stores user name and
password all the same once the identity is accepted; a successful one stores the port that is written. -/
theorem parseConnstr_outcome (out : EndpointCredentials) (s : List Char) (merge : Bool) :
    Outcome (if merge then out else .clear) s (parseConnstr out s merge).1 (parseConnstr out s merge).2 := by
  rcases parseConnstr_cases out s merge with ⟨hcall, hnone⟩ | ⟨hfree, hcall⟩ | ⟨user, pass, addr, hid, hcall⟩
  · rw [hcall]
    exact ⟨fun _ => ⟨rfl, rfl⟩, fun _ => ⟨rfl, rfl⟩, fun _ _ _ h => absurd h (hnone _ _ _),
      fun h => absurd h (by simp), fun h => absurd h (by simp)⟩
  · rw [hcall]
    generalize (if merge then out else .clear) = start
    refine ⟨fun h => ?_, fun _ => storeAddr_identity start s, fun _ _ _ h => absurd h.has_at hfree,
      fun h addr n haddr => ?_, fun h addr haddr => ?_⟩
    · rw [storeAddr_failed h]
      exact ⟨rfl, rfl⟩
    · rw [haddr.of_free hfree]
      exact storeAddr_port h
    · rw [haddr.of_free hfree]
      exact storeAddr_no_port h
  · rw [hcall]
    generalize (if merge then out else .clear) = start
    refine ⟨fun h => ?_, fun h => absurd hid (h _ _ _), fun user' pass' addr' h => ?_,
      fun h addr n haddr => ?_, fun h addr haddr => ?_⟩
    · rw [storeAddr_failed h]
      exact ⟨rfl, rfl⟩
    · obtain ⟨rfl, rfl, rfl⟩ := h.unique hid
      exact storeAddr_identity _ _
    · rw [haddr.of_identity hid]
      exact storeAddr_port h
    · rw [haddr.of_identity hid]
      exact storeAddr_no_port h

/-- A failing call clears, or in a merge replaces the user name; a port above 65535 is stored truncated. -/
theorem parseConnstr_stores_on_failure :
    parseConnstr ⟨['h'], 80, ['u'], ['p']⟩ [] false = (false, .clear) ∧
      .clear ≠ (⟨['h'], 80, ['u'], ['p']⟩ : EndpointCredentials) ∧
      parseConnstr ⟨['h'], 80, ['u'], ['p']⟩ ['x', '@', 'y', ':'] true = (false, ⟨['h'], 80, ['x'], ['p']⟩) ∧
      parseConnstr .clear ['h', ':', '6', '5', '5', '3', '6'] false = (true, ⟨['h'], 0, [], []⟩) := by
  decide

end IdaSdk.Connstr
