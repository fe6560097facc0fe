import IdaSdk.JavaSigModel
import IdaSdk.LibJavaLiteral

/-!
The string modes of the formatter of the Java module. A string is printed between quotation marks, every character either
as it is or as an escape that depends on its range and on what follows it.
-/

namespace IdaSdk.JavaSig
open JavaLiteral

variable (env : Env)

/-- The string modes among the formats. -/
inductive string_fmt_t where
  | fmt_debug
  | fmt_string
  | fmt_string_single_quotes
deriving DecidableEq

/-- The settings of the module that choose between the first two modes. -/
structure java_t where
  is_multiline_debug : Bool
  is_fmt_string_as_fmt_debug : Bool

def CHP_MAX : UInt32 := 0x7F

def out_escaped_char (cs : UInt32) (s : State) : Result :=
  emit env 2 (.line (String.ofList ['\\', Char.ofNat cs.toNat])) s

/-- `%.3o`: octal digits, at least three of them. -/
def octal3 (n : Nat) : List Char := List.replicate (3 - (Nat.toDigits 8 n).length) '0' ++ Nat.toDigits 8 n

def out_octal_char (cs : UInt32) (s : State) : Result :=
  let buf := '\\' :: octal3 cs.toNat
  emit env buf.length (.line (String.ofList buf)) s

variable (cp : UInt32)

/-- The table `casc` of escapes for the characters from 8 to 13. -/
def casc : UInt32 :=
  if cp = 8 then 0x62          -- b
  else if cp = 9 then 0x74     -- t
  else if cp = 10 then 0x6E    -- n
  else if cp = 11 then 0x3F    -- ?
  else if cp = 12 then 0x66    -- f
  else 0x72                    -- r

/-- The label `checkdig`: an octal escape must not run into a digit that follows. -/
def checkdig (s : State) : Result :=
  if s.tp ≠ [] ∧ lookahead_utf16 s ≤ 0x37 ∧ 0x30 ≤ lookahead_utf16 s then out_octal_char env cp s
  else if cp ≤ 7 then out_escaped_char env (cp + 0x30) s
  else
    let buf := '\\' :: Nat.toDigits 8 cp.toNat
    emit env buf.length (.line (String.ofList buf)) s

/-- A character of the first 256. In the debug mode a line ends after an escaped line feed. -/
def formatLatin (mode : string_fmt_t) (cp : UInt32) (s : State) : Result :=
  if CHP_MAX ≤ cp then out_octal_char env cp s
  else if 0x20 ≤ cp then
    if cp = 0x5C ∨ cp = 0x22 then out_escaped_char env cp s else out_cp env cp s
  else if cp < 0xD ∧ ¬(cp < 8 ∨ cp = 0xB) then
    if casc cp = 0x6E ∧ mode = .fmt_debug ∧ s.tp ≠ [] ∧ 2 < s.size then out_escaped_char env (casc cp) { s with size := 2 }
    else out_escaped_char env (casc cp) s
  else checkdig env cp s

/-- One round of the loop. -/
def formatChar (mode : string_fmt_t) (s : State) : Result := do
  let (ok, cp, s) ← next_cp s
  if !ok then out_unicode_escaped_cp env cp s
  else if 0x100 ≤ cp then
    if !env.is_cp_graphical cp then out_unicode_escaped_cp env cp s else out_cp env cp s
  else formatLatin env mode cp s

def formatLoop (mode : string_fmt_t) : Nat → State → Result
  | 0, s => .ok s
  | n + 1, s => if s.tp = [] then .ok s else (formatChar env mode s).bind (formatLoop mode n)

def quotation (mode : string_fmt_t) : UInt16 := if mode = .fmt_string_single_quotes then 0x27 else 0x22

def effective_mode (pm : java_t) (mode : string_fmt_t) : string_fmt_t :=
  match mode with
  | .fmt_debug => if !pm.is_multiline_debug then .fmt_string else .fmt_debug
  | .fmt_string => if pm.is_fmt_string_as_fmt_debug then .fmt_debug else .fmt_string
  | .fmt_string_single_quotes => .fmt_string_single_quotes

/-- Each round reads at least one code unit, so that there are no more rounds than units. -/
def format_string (pm : java_t) (mode : string_fmt_t) (s : State) : Result := do
  let s ← out_cp env (quotation mode).toUInt32 s
  let s ← formatLoop env (effective_mode pm mode) s.tp.length s
  out_cp env (quotation mode).toUInt32 s

def utf16 : List UInt16 :=
  if cp < 0x10000 then [cp.toUInt16]
  else [((0xD800 : UInt32) + (((cp - 0x10000) >>> 10) &&& 0x3FF)).toUInt16, ((0xDC00 : UInt32) + (cp &&& 0x3FF)).toUInt16]

def Piece.chars : Piece → List UInt16
  | .cp c => utf16 c
  | .line s => s.toList.map fun c => UInt16.ofNat c.toNat
  | .halfword hw => 0x5C :: 0x75 :: hex4 hw.toNat

def State.chars (s : State) : List UInt16 := s.out.flatMap Piece.chars

theorem toNat_and_3FF (c : UInt16) : (c &&& 0x3FF).toNat = c.toNat % 1024 := by
  have hmask : (0x3FF : UInt16).toNat = 2 ^ 10 - 1 := rfl
  rw [UInt16.toNat_and, hmask, Nat.and_two_pow_sub_one_eq_mod]

theorem toNat_and_3FF_wide (c : UInt32) : (c &&& 0x3FF).toNat = c.toNat % 1024 := by
  have hmask : (0x3FF : UInt32).toNat = 2 ^ 10 - 1 := rfl
  rw [UInt32.toNat_and, hmask, Nat.and_two_pow_sub_one_eq_mod]

theorem toNat_surrogates (c t : UInt16) :
    (utf16_surrogates_to_cp c t).toNat = 0x10000 + c.toNat % 1024 * 1024 + t.toNat % 1024 := by
  have hlow : t.toNat % 1024 < 2 ^ 10 := Nat.mod_lt _ (by decide)
  have hhigh : c.toNat % 1024 < 1024 := Nat.mod_lt _ (by decide)
  have hbase : ((0x10000 : UInt32) + ((c &&& 0x3FF).toUInt32 <<< 10)).toNat = (64 + c.toNat % 1024) <<< 10 := by
    have hshift : ((c &&& 0x3FF).toUInt32 <<< 10).toNat = c.toNat % 1024 * 1024 := by
      have hten : 2 ^ ((10 : UInt32).toNat % 32) = 1024 := rfl
      rw [UInt32.toNat_shiftLeft, UInt16.toNat_toUInt32, toNat_and_3FF, Nat.shiftLeft_eq, hten]
      exact Nat.mod_eq_of_lt (by omega)
    rw [UInt32.toNat_add, hshift, Nat.shiftLeft_eq]
    have hconst : (0x10000 : UInt32).toNat = 0x10000 := rfl
    rw [hconst]
    omega
  rw [utf16_surrogates_to_cp, UInt32.toNat_or, hbase, UInt16.toNat_toUInt32, toNat_and_3FF,
    ← Nat.shiftLeft_add_eq_or_of_lt hlow, Nat.shiftLeft_eq]
  omega

variable {c : UInt16}

theorem utf16_surrogates {t : UInt16} (hc : is_lead_surrogate c = true) (ht : is_tail_surrogate t = true) :
    ¬utf16_surrogates_to_cp c t < 0x10000 ∧
      ((0xD800 : UInt32) + (((utf16_surrogates_to_cp c t - 0x10000) >>> 10) &&& 0x3FF)).toUInt16 = c ∧
      ((0xDC00 : UInt32) + (utf16_surrogates_to_cp c t &&& 0x3FF)).toUInt16 = t := by
  have hcp := toNat_surrogates c t
  simp only [is_lead_surrogate, is_tail_surrogate, Bool.and_eq_true, decide_eq_true_iff, UInt16.le_iff_toNat_le] at hc ht
  have hc₁ : 0xD800 ≤ c.toNat := hc.1
  have hc₂ : c.toNat ≤ 0xDBFF := hc.2
  have ht₁ : 0xDC00 ≤ t.toNat := ht.1
  have ht₂ : t.toNat ≤ 0xDFFF := ht.2
  generalize utf16_surrogates_to_cp c t = cp at hcp ⊢
  have hge : (0x10000 : UInt32) ≤ cp := by
    rw [UInt32.le_iff_toNat_le]
    exact show 0x10000 ≤ cp.toNat by omega
  refine ⟨UInt32.not_lt.2 hge, ?_, ?_⟩
  · apply UInt16.toNat_inj.1
    have hsub : (cp - 0x10000).toNat = cp.toNat - 0x10000 := UInt32.toNat_sub_of_le _ _ hge
    have hconst : (0xD800 : UInt32).toNat = 0xD800 := rfl
    have hten : 2 ^ ((10 : UInt32).toNat % 32) = 1024 := rfl
    rw [UInt32.toNat_toUInt16, UInt32.toNat_add, toNat_and_3FF_wide, UInt32.toNat_shiftRight, hsub, hconst,
      Nat.shiftRight_eq_div_pow, hten]
    omega
  · apply UInt16.toNat_inj.1
    have hconst : (0xDC00 : UInt32).toNat = 0xDC00 := rfl
    rw [UInt32.toNat_toUInt16, UInt32.toNat_add, toNat_and_3FF_wide, hconst]
    omega

theorem utf16_unit (c : UInt16) : c.toUInt32 < 0x10000 ∧ utf16 c.toUInt32 = [c] := by
  have hlt : c.toUInt32 < 0x10000 := by
    rw [UInt32.lt_iff_toNat_lt, UInt16.toNat_toUInt32]
    exact c.toNat_lt
  refine ⟨hlt, ?_⟩
  rw [utf16, if_pos hlt]
  simp

/-- The printed text is that of `units`, with `after` left of the string: after the translation of the unicode escapes it
is read back as these units, whatever text follows that starts with an octal digit only if the string goes on so. An
apostrophe is printed as it is. -/
structure Denotes (units text lexed after : List UInt16) : Prop where
  translated : ∀ rest, translateEscapes .plain (text ++ rest) = (translateEscapes .plain rest).map (lexed ++ ·)
  read : ∀ quote, quote = 0x22 ∨ quote = 0x27 → (quote = 0x27 → 0x27 ∉ units) → ∀ rest,
    (StartsOctal rest → StartsOctal after) →
    readBody quote 0 (lexed ++ rest) = (readBody quote 0 rest).map (units ++ ·)
  apostrophe : 0x27 ∈ units → units = [0x27] ∧ lexed = [0x27]
  octal : ∀ rest, StartsOctal (lexed ++ rest) → StartsOctal (units ++ after)

variable {env} {s s' : State} {units text after : List UInt16}

theorem denotes_raws (hunits : units ≠ []) (hraw : ∀ c ∈ units, c ≠ 0x22 ∧ c ≠ 0x27 ∧ (c ≠ 0x0A ∧ c ≠ 0x0D) ∧ c ≠ 0x5C)
    (htranslated : ∀ rest, translateEscapes .plain (text ++ rest) = (translateEscapes .plain rest).map (units ++ ·)) :
    Denotes units text units after := by
  refine ⟨htranslated, fun quote hquote _ rest _ => readBody_raws fun c hc => ?_, fun hmem => ?_, fun rest h => ?_⟩
  · obtain ⟨hdouble, hsingle, hline, hback⟩ := hraw c hc
    refine ⟨?_, hline, hback⟩
    obtain rfl | rfl := hquote
    · exact hdouble
    · exact hsingle
  · exact absurd rfl (hraw _ hmem).2.1
  · obtain ⟨c, units, rfl⟩ := List.exists_cons_of_ne_nil hunits
    exact h

theorem denotes_char (hc : c ≠ 0x22 ∧ (c ≠ 0x0A ∧ c ≠ 0x0D) ∧ c ≠ 0x5C) : Denotes [c] [c] [c] after := by
  refine ⟨fun rest => translate_raw hc.2.2 rest, fun quote hquote hsingle rest _ => ?_, fun hmem => ?_, fun rest h => h⟩
  · apply readBody_raw _ hc.2.1 hc.2.2
    obtain rfl | rfl := hquote
    · exact hc.1
    · exact fun heq => hsingle rfl (heq ▸ List.mem_singleton_self c)
  · have heq := List.mem_singleton.1 hmem
    rw [← heq]
    exact ⟨rfl, rfl⟩

theorem not_startsOctal_backslash (rest : List UInt16) : ¬StartsOctal (0x5C :: rest) := by
  intro ⟨d, hd⟩
  exact nomatch show (none : Option Nat) = some d from hd

theorem denotes_simple {e v : UInt16} (he : simpleEscape e = some v) (hu : e ≠ 0x75) (hv : v ≠ 0x27) :
    Denotes [v] [0x5C, e] [0x5C, e] after := by
  refine ⟨fun rest => translate_escape hu rest, fun quote hquote _ rest _ => readBody_simple ?_ he, fun hmem => ?_,
    fun rest h => absurd h (not_startsOctal_backslash _)⟩
  · obtain rfl | rfl := hquote <;> decide
  · exact absurd (List.mem_singleton.1 hmem).symm hv

theorem denotes_octal {d v : Nat} (digits : List UInt16) (hd : d < 8) (hv : UInt16.ofNat v ≠ 0x27)
    (hdigits : ∀ c ∈ octalDigit d :: digits, c ≠ 0x75 ∧ c ≠ 0x5C)
    (hvalue : ∀ rest, (StartsOctal rest → StartsOctal after) →
      octalEscape (octalDigit d :: digits ++ rest) = some (v, digits.length + 1)) :
    Denotes [UInt16.ofNat v] (0x5C :: octalDigit d :: digits) (0x5C :: octalDigit d :: digits) after := by
  refine ⟨fun rest => ?_, fun quote hquote _ rest hrest => readBody_octal ?_ hd (hvalue rest hrest), fun hmem => ?_,
    fun rest h => absurd h (not_startsOctal_backslash _)⟩
  · rw [List.cons_append, List.cons_append, translate_escape (hdigits _ (List.mem_cons_self ..)).1,
      translate_raws fun c hc => (hdigits c (List.mem_cons_of_mem _ hc)).2, Option.map_map]
    rfl
  · obtain rfl | rfl := hquote <;> decide
  · exact absurd (List.mem_singleton.1 hmem).symm hv

/-! ### Output -/

theorem emit_spec {needed : Int} {piece : Piece} (h : emit env needed piece s = .ok s') :
    s'.tp = s.tp ∧ s'.chars = s.chars ++ piece.chars := by
  obtain ⟨a, ha, hs'⟩ : ∃ a, ensure_remaining env needed s = .ok a ∧ s' = { a with out := a.out ++ [piece] } := by
    cases hroom : ensure_remaining env needed s with
    | error e =>
        rw [emit, hroom] at h
        cases h
    | ok a =>
        rw [emit, hroom] at h
        cases h
        exact ⟨a, rfl, rfl⟩
  have hsame : a.tp = s.tp ∧ a.out = s.out := by
    rw [ensure_remaining] at ha
    split_ifs at ha
    · cases ha
      exact ⟨rfl, rfl⟩
    · cases ha
      exact ⟨rfl, rfl⟩
  rw [hs']
  refine ⟨hsame.1, ?_⟩
  simp [State.chars, hsame.2]

/-- What one round prints for the units it reads. -/
def Prints (s s' : State) (units : List UInt16) : Prop :=
  ∃ text lexed, s'.chars = s.chars ++ text ∧ Denotes units text lexed s'.tp

variable {cp : UInt32}

theorem out_cp_prints (h : out_cp env cp s = .ok s') (hdenotes : Denotes units (utf16 cp) units s.tp) :
    s'.tp = s.tp ∧ Prints s s' units := by
  obtain ⟨htp, hchars⟩ := emit_spec h
  refine ⟨htp, utf16 cp, units, hchars, ?_⟩
  rwa [htp]

theorem halfword_chars (hw : UInt16) (rest : List UInt16) :
    translateEscapes .plain ((Piece.halfword hw).chars ++ rest) = (translateEscapes .plain rest).map ([hw] ++ ·) := by
  have hval := translate_unicode hw.toNat_lt rest
  rwa [UInt16.ofNat_toNat] at hval

/-- A character above the first 256, or a surrogate. -/
def Beyond (c : UInt16) : Prop := 0x100 ≤ c.toNat

theorem Beyond.raw (h : Beyond c) : c ≠ 0x22 ∧ c ≠ 0x27 ∧ (c ≠ 0x0A ∧ c ≠ 0x0D) ∧ c ≠ 0x5C := by
  have hne : ∀ d : UInt16, d.toNat < 0x100 → c ≠ d := by
    intro d hd heq
    rw [Beyond, heq] at h
    omega
  exact ⟨hne _ (by decide), hne _ (by decide), ⟨hne _ (by decide), hne _ (by decide)⟩, hne _ (by decide)⟩

theorem Result.of_bind {α : Type} {x : Except Failure α} {f : α → Result} (h : x >>= f = .ok s') :
    ∃ a, x = .ok a ∧ f a = .ok s' := by
  cases x with
  | error e => cases h
  | ok a => exact ⟨a, rfl, h⟩

theorem out_unicode_escaped_cp_prints (h : out_unicode_escaped_cp env cp s = .ok s')
    (hbeyond : ∀ c ∈ utf16 cp, Beyond c) : s'.tp = s.tp ∧ Prints s s' (utf16 cp) := by
  rw [out_unicode_escaped_cp] at h
  by_cases hwide : cp < 0x10000
  · rw [if_pos hwide] at h
    have hunits : utf16 cp = [cp.toUInt16] := if_pos hwide
    rw [hunits] at hbeyond ⊢
    obtain ⟨htp, hchars⟩ := emit_spec h
    exact ⟨htp, _, _, hchars, denotes_raws (List.cons_ne_nil _ _) (fun c hc => (hbeyond c hc).raw) (halfword_chars _)⟩
  · rw [if_neg hwide] at h
    obtain ⟨a, ha, h⟩ := Result.of_bind h
    obtain ⟨htp₁, hchars₁⟩ := emit_spec ha
    obtain ⟨htp₂, hchars₂⟩ := emit_spec h
    refine ⟨htp₂.trans htp₁, _, utf16 cp, by rw [hchars₂, hchars₁, List.append_assoc], ?_⟩
    refine denotes_raws ?_ (fun c hc => (hbeyond c hc).raw) fun rest => ?_
    · rw [utf16, if_neg hwide]
      exact List.cons_ne_nil _ _
    · rw [List.append_assoc, halfword_chars, halfword_chars, Option.map_map, utf16, if_neg hwide]
      rfl

theorem line_chars (l : List Char) : (Piece.line (String.ofList l)).chars = l.map fun c => UInt16.ofNat c.toNat := by
  rw [Piece.chars, String.toList_ofList]

variable {n : Nat}

theorem ascii_chars (h : n < 128) : UInt16.ofNat (Char.ofNat n).toNat = UInt16.ofNat n := by
  have hall : ∀ n : Fin 128, UInt16.ofNat (Char.ofNat n).toNat = UInt16.ofNat n := by decide
  exact hall ⟨n, h⟩

theorem octal3_chars (h : n < 256) : (octal3 n).map (fun c => UInt16.ofNat c.toNat) =
    [octalDigit (n / 64), octalDigit (n / 8 % 8), octalDigit (n % 8)] := by
  have hall : ∀ n : Fin 256, (octal3 n).map (fun c => UInt16.ofNat c.toNat) =
      [octalDigit (n / 64), octalDigit (n / 8 % 8), octalDigit (n % 8)] := by decide +kernel
  exact hall ⟨n, h⟩

theorem octal2_chars (h : 8 ≤ n) (h' : n < 64) : (Nat.toDigits 8 n).map (fun c => UInt16.ofNat c.toNat) =
    [octalDigit (n / 8), octalDigit (n % 8)] := by
  have hlow : n % 8 < 8 := Nat.mod_lt _ (by omega)
  have happ := Nat.toDigits_append_toDigits (by omega) (show 0 < n / 8 by omega) hlow
  rw [Nat.div_add_mod, Nat.toDigits_of_lt_base hlow, Nat.toDigits_of_lt_base (by omega)] at happ
  rw [← happ, octalDigit, octalDigit, ← Nat.toNat_digitChar_of_lt_ten (by omega),
    ← Nat.toNat_digitChar_of_lt_ten (by omega)]
  rfl

theorem octalDigit_plain (h : n < 8) : octalDigit n ≠ 0x75 ∧ octalDigit n ≠ 0x5C := by
  have hall : ∀ n : Fin 8, octalDigit n ≠ 0x75 ∧ octalDigit n ≠ 0x5C := by decide
  exact hall ⟨n, h⟩

theorem out_escaped_char_spec (hn : n < 128) (h : out_escaped_char env (UInt32.ofNat n) s = .ok s') :
    s'.tp = s.tp ∧ s'.chars = s.chars ++ [0x5C, UInt16.ofNat n] := by
  obtain ⟨htp, hchars⟩ := emit_spec h
  have hval : (UInt32.ofNat n).toNat = n := by
    rw [UInt32.toNat_ofNat']
    omega
  refine ⟨htp, ?_⟩
  rw [hchars, line_chars, List.map_cons, List.map_cons, List.map_nil, hval, ascii_chars hn]
  rfl

theorem out_escaped_char_prints {v : UInt16} (hn : n < 128)
    (h : out_escaped_char env (UInt32.ofNat n) s = .ok s') (he : simpleEscape (UInt16.ofNat n) = some v)
    (hu : UInt16.ofNat n ≠ 0x75) (hv : v ≠ 0x27) : s'.tp = s.tp ∧ Prints s s' [v] := by
  obtain ⟨htp, hchars⟩ := out_escaped_char_spec hn h
  exact ⟨htp, _, _, hchars, denotes_simple he hu hv⟩

theorem out_octal_char_prints (hn : n < 256) (hne : UInt16.ofNat n ≠ 0x27)
    (h : out_octal_char env (UInt32.ofNat n) s = .ok s') : s'.tp = s.tp ∧ Prints s s' [UInt16.ofNat n] := by
  obtain ⟨htp, hchars⟩ := emit_spec h
  have hval : (UInt32.ofNat n).toNat = n := by
    rw [UInt32.toNat_ofNat']
    omega
  rw [line_chars, List.map_cons, hval, octal3_chars hn] at hchars
  refine ⟨htp, _, 0x5C :: octalDigit (n / 64) :: [octalDigit (n / 8 % 8), octalDigit (n % 8)], hchars, ?_⟩
  apply denotes_octal [octalDigit (n / 8 % 8), octalDigit (n % 8)] (by omega) hne
  · intro c hc
    simp only [List.mem_cons, List.not_mem_nil, or_false] at hc
    obtain rfl | rfl | rfl := hc <;> apply octalDigit_plain <;> omega
  intro rest _
  have hsum : (n / 64 * 8 + n / 8 % 8) * 8 + n % 8 = n := by omega
  have hthree : octalEscape ([octalDigit (n / 64), octalDigit (n / 8 % 8), octalDigit (n % 8)] ++ rest) =
      some ((n / 64 * 8 + n / 8 % 8) * 8 + n % 8, 3) := octalEscape_three (by omega) (by omega) (by omega)
  rwa [hsum] at hthree

theorem startsOctal_iff (s : State) :
    (s.tp ≠ [] ∧ lookahead_utf16 s ≤ 0x37 ∧ 0x30 ≤ lookahead_utf16 s) ↔ StartsOctal s.tp := by
  rw [lookahead_utf16]
  cases s.tp with
  | nil => exact iff_of_false (fun h => h.1 rfl) (fun ⟨_, hd⟩ => nomatch hd)
  | cons c rest =>
      simp only [StartsOctal, List.head?_cons, Option.bind_some, octalValue]
      by_cases hc : 0x30 ≤ c ∧ c ≤ 0x37
      · rw [if_pos hc]
        exact iff_of_true ⟨List.cons_ne_nil _ _, hc.2, hc.1⟩ ⟨_, rfl⟩
      · rw [if_neg hc]
        exact iff_of_false (fun h => hc ⟨h.2.2, h.2.1⟩) (fun ⟨_, hd⟩ => nomatch hd)

theorem checkdig_prints (hn : n < 0x20) (h : checkdig env (UInt32.ofNat n) s = .ok s') :
    s'.tp = s.tp ∧ Prints s s' [UInt16.ofNat n] := by
  have hne : UInt16.ofNat n ≠ 0x27 := by
    have hall : ∀ n : Fin 32, UInt16.ofNat n ≠ 0x27 := by decide
    exact hall ⟨n, hn⟩
  have hval : (UInt32.ofNat n).toNat = n := by
    rw [UInt32.toNat_ofNat']
    omega
  rw [checkdig] at h
  by_cases hdigit : s.tp ≠ [] ∧ lookahead_utf16 s ≤ 0x37 ∧ 0x30 ≤ lookahead_utf16 s
  · rw [if_pos hdigit] at h
    exact out_octal_char_prints (by omega) hne h
  rw [if_neg hdigit] at h
  rw [startsOctal_iff] at hdigit
  by_cases hsmall : UInt32.ofNat n ≤ 7
  · rw [if_pos hsmall] at h
    have hn7 : n ≤ 7 := by
      have hle := UInt32.le_iff_toNat_le.1 hsmall
      rw [hval] at hle
      exact hle
    have hsum : UInt32.ofNat n + 0x30 = UInt32.ofNat (0x30 + n) := by
      rw [UInt32.ofNat_add, UInt32.add_comm]
      rfl
    rw [hsum] at h
    obtain ⟨htp, hchars⟩ := out_escaped_char_spec (by omega) h
    refine ⟨htp, _, 0x5C :: octalDigit n :: [], hchars, ?_⟩
    apply denotes_octal [] (show n < 8 by omega) hne
    · intro c hc
      rw [List.mem_singleton.1 hc]
      exact octalDigit_plain (by omega)
    · intro rest hrest
      rw [htp] at hrest
      exact octalEscape_one (by omega) fun hstart => hdigit (hrest hstart)
  · rw [if_neg hsmall] at h
    have hn8 : 8 ≤ n := by
      have hlt := UInt32.lt_iff_toNat_lt.1 (UInt32.not_le.1 hsmall)
      rw [hval] at hlt
      exact hlt
    obtain ⟨htp, hchars⟩ := emit_spec h
    rw [line_chars, List.map_cons, hval, octal2_chars hn8 (by omega)] at hchars
    refine ⟨htp, _, 0x5C :: octalDigit (n / 8) :: [octalDigit (n % 8)], hchars, ?_⟩
    apply denotes_octal [octalDigit (n % 8)] (by omega) hne
    · intro c hc
      simp only [List.mem_cons, List.not_mem_nil, or_false] at hc
      obtain rfl | rfl := hc <;> apply octalDigit_plain <;> omega
    intro rest hrest
    rw [htp] at hrest
    have hsum : n / 8 * 8 + n % 8 = n := by omega
    have htwo := octalEscape_two (show n / 8 < 8 by omega) (show n % 8 < 8 by omega)
      fun hstart => hdigit (hrest hstart)
    rwa [hsum] at htwo

/-! ### One round -/

/-- A code unit that is a character of its own or half of a broken pair, or a whole pair. -/
inductive Reads : Bool → UInt32 → List UInt16 → Prop
  | unit (ok : Bool) (c : UInt16) (h : ok = false → Beyond c) : Reads ok c.toUInt32 [c]
  | pair (cp : UInt32) (c t : UInt16) (hc : Beyond c) (ht : Beyond t) (hcp : ¬cp < 0x10000) (h : utf16 cp = [c, t]) :
    Reads true cp [c, t]

theorem beyond_lead (h : is_lead_surrogate c = true) : Beyond c := by
  simp only [is_lead_surrogate, Bool.and_eq_true, decide_eq_true_iff, UInt16.le_iff_toNat_le] at h
  exact Nat.le_trans (by decide) h.1

theorem beyond_tail (h : is_tail_surrogate c = true) : Beyond c := by
  simp only [is_tail_surrogate, Bool.and_eq_true, decide_eq_true_iff, UInt16.le_iff_toNat_le] at h
  exact Nat.le_trans (by decide) h.1

theorem next_cp_reads {ok : Bool} {a : State} (h : next_cp s = .ok (ok, cp, a)) :
    ∃ units, s.tp = units ++ a.tp ∧ a.chars = s.chars ∧ Reads ok cp units := by
  rw [next_cp] at h
  cases htp : s.tp with
  | nil =>
      rw [htp] at h
      cases h
  | cons c rest =>
      rw [htp] at h
      dsimp only at h
      by_cases htail : is_tail_surrogate c = true
      · rw [if_pos htail] at h
        cases h
        exact ⟨[c], rfl, rfl, .unit false c fun _ => beyond_tail htail⟩
      rw [if_neg htail] at h
      by_cases hlead : is_lead_surrogate c = true
      · rw [if_pos hlead] at h
        cases rest with
        | nil =>
            cases h
            exact ⟨[c], rfl, rfl, .unit false c fun _ => beyond_lead hlead⟩
        | cons t rest =>
            dsimp only at h
            by_cases ht : is_tail_surrogate t = true
            · rw [if_pos ht] at h
              cases h
              obtain ⟨hwide, hhigh, hlow⟩ := utf16_surrogates hlead ht
              refine ⟨[c, t], rfl, rfl, .pair _ c t (beyond_lead hlead) (beyond_tail ht) hwide ?_⟩
              rw [utf16, if_neg hwide, hhigh, hlow]
            · rw [if_neg ht] at h
              cases h
              exact ⟨[c], rfl, rfl, .unit false c fun _ => beyond_lead hlead⟩
      · rw [if_neg hlead] at h
        cases h
        exact ⟨[c], rfl, rfl, .unit true c fun hfalse => nomatch hfalse⟩

variable {k : UInt32}

theorem le_ofNat (hn : n < 256) : k ≤ UInt32.ofNat n ↔ k.toNat ≤ n := by
  rw [UInt32.le_iff_toNat_le, UInt32.toNat_ofNat', Nat.mod_eq_of_lt (by omega)]

theorem ofNat_lt (hn : n < 256) : UInt32.ofNat n < k ↔ n < k.toNat := by
  rw [UInt32.lt_iff_toNat_lt, UInt32.toNat_ofNat', Nat.mod_eq_of_lt (by omega)]

theorem ofNat_eq (hn : n < 256) : UInt32.ofNat n = k ↔ n = k.toNat := by
  rw [← UInt32.toNat_inj, UInt32.toNat_ofNat', Nat.mod_eq_of_lt (by omega)]

theorem printable_prints (hn : n < 0x7F) (hn' : 0x20 ≤ n)
    (h : (if UInt32.ofNat n = 0x5C ∨ UInt32.ofNat n = 0x22 then out_escaped_char env (UInt32.ofNat n) s
      else out_cp env (UInt32.ofNat n) s) = .ok s') : s'.tp = s.tp ∧ Prints s s' [UInt16.ofNat n] := by
  by_cases hescaped : UInt32.ofNat n = 0x5C ∨ UInt32.ofNat n = 0x22
  · rw [if_pos hescaped] at h
    rw [ofNat_eq (by omega), ofNat_eq (by omega)] at hescaped
    apply out_escaped_char_prints (by omega) h
    · obtain rfl | rfl := hescaped <;> rfl
    · obtain rfl | rfl := hescaped <;> decide
    · obtain rfl | rfl := hescaped <;> decide
  · rw [if_neg hescaped] at h
    rw [ofNat_eq (by omega), ofNat_eq (by omega), not_or] at hescaped
    have hne : ∀ k : Nat, k < 256 → n ≠ k → UInt16.ofNat n ≠ UInt16.ofNat k := by
      intro k hk hnk heq
      have hval := congrArg UInt16.toNat heq
      rw [UInt16.toNat_ofNat', UInt16.toNat_ofNat'] at hval
      omega
    have hunits : utf16 (UInt32.ofNat n) = [UInt16.ofNat n] := by
      have hunit := (utf16_unit (UInt16.ofNat n)).2
      have hcast : (UInt16.ofNat n).toUInt32 = UInt32.ofNat n := by
        apply UInt32.toNat_inj.1
        rw [UInt16.toNat_toUInt32, UInt16.toNat_ofNat', UInt32.toNat_ofNat']
        omega
      rwa [hcast] at hunit
    apply out_cp_prints h
    rw [hunits]
    exact denotes_char ⟨hne 0x22 (by decide) hescaped.2, ⟨hne 0x0A (by decide) (by omega), hne 0x0D (by decide) (by omega)⟩,
      hne 0x5C (by decide) hescaped.1⟩

theorem casc_prints (hn : n < 0xD ∧ ¬(n < 8 ∨ n = 0xB))
    (h : out_escaped_char env (casc (UInt32.ofNat n)) s = .ok s') : s'.tp = s.tp ∧ Prints s s' [UInt16.ofNat n] := by
  have hcases : n = 8 ∨ n = 9 ∨ n = 10 ∨ n = 12 := by omega
  obtain rfl | rfl | rfl | rfl := hcases
  · exact out_escaped_char_prints (n := 0x62) (by decide) h rfl (by decide) (by decide)
  · exact out_escaped_char_prints (n := 0x74) (by decide) h rfl (by decide) (by decide)
  · exact out_escaped_char_prints (n := 0x6E) (by decide) h rfl (by decide) (by decide)
  · exact out_escaped_char_prints (n := 0x66) (by decide) h rfl (by decide) (by decide)

variable {mode : string_fmt_t}

theorem formatLatin_prints (hn : n < 256)
    (h : formatLatin env mode (UInt32.ofNat n) s = .ok s') : s'.tp = s.tp ∧ Prints s s' [UInt16.ofNat n] := by
  have hmax : CHP_MAX.toNat = 0x7F := rfl
  have hspace : (0x20 : UInt32).toNat = 0x20 := rfl
  have hd : (0xD : UInt32).toNat = 0xD := rfl
  have h8 : (8 : UInt32).toNat = 8 := rfl
  have hb : (0xB : UInt32).toNat = 0xB := rfl
  rw [formatLatin] at h
  by_cases hhigh : CHP_MAX ≤ UInt32.ofNat n
  · rw [if_pos hhigh] at h
    rw [le_ofNat hn, hmax] at hhigh
    apply out_octal_char_prints hn _ h
    intro heq
    have hval := congrArg UInt16.toNat heq
    have h27 : (0x27 : UInt16).toNat = 0x27 := rfl
    rw [UInt16.toNat_ofNat', h27] at hval
    omega
  · rw [if_neg hhigh] at h
    rw [le_ofNat hn, hmax] at hhigh
    by_cases hvisible : 0x20 ≤ UInt32.ofNat n
    · rw [if_pos hvisible] at h
      rw [le_ofNat hn, hspace] at hvisible
      exact printable_prints (by omega) hvisible h
    rw [if_neg hvisible] at h
    rw [le_ofNat hn, hspace] at hvisible
    by_cases hletter : UInt32.ofNat n < 0xD ∧ ¬(UInt32.ofNat n < 8 ∨ UInt32.ofNat n = 0xB)
    · rw [if_pos hletter] at h
      rw [ofNat_lt hn, ofNat_lt hn, ofNat_eq hn, hd, h8, hb] at hletter
      split_ifs at h
      · exact casc_prints (s := { s with size := 2 }) hletter h
      · exact casc_prints hletter h
    · rw [if_neg hletter] at h
      exact checkdig_prints (by omega) h

/-- A round reads some code units and prints what denotes them. -/
theorem formatChar_prints (h : formatChar env mode s = .ok s') :
    ∃ units, units ≠ [] ∧ s.tp = units ++ s'.tp ∧ Prints s s' units := by
  obtain ⟨⟨ok, cp, a⟩, hnext, h⟩ := Result.of_bind h
  obtain ⟨units, htp, hchars, hreads⟩ := next_cp_reads hnext
  have hsuffices : (s'.tp = a.tp ∧ Prints a s' units) → ∃ units, units ≠ [] ∧ s.tp = units ++ s'.tp ∧ Prints s s' units := by
    intro hprints
    obtain ⟨htp', text, lexed, htext, hdenotes⟩ := hprints
    refine ⟨units, ?_, by rw [htp, htp'], text, lexed, by rw [htext, hchars], hdenotes⟩
    cases hreads with
    | unit _ c _ => exact List.cons_ne_nil _ _
    | pair cp c t _ _ _ _ => exact List.cons_ne_nil _ _
  apply hsuffices
  dsimp only at h
  have hall : (∀ c ∈ utf16 cp, Beyond c) → utf16 cp = units →
      (out_unicode_escaped_cp env cp a = .ok s' ∨ out_cp env cp a = .ok s') → s'.tp = a.tp ∧ Prints a s' units := by
    intro hbeyond hunits hout
    rw [← hunits]
    obtain hescaped | hraw := hout
    · exact out_unicode_escaped_cp_prints hescaped hbeyond
    · refine out_cp_prints hraw (denotes_raws ?_ (fun c hc => (hbeyond c hc).raw) fun rest => ?_)
      · rw [utf16]
        split_ifs <;> exact List.cons_ne_nil _ _
      · exact translate_raws (fun c hc => (hbeyond c hc).raw.2.2.2) rest
  cases hreads with
  | unit ok c hbroken =>
      have hunits := (utf16_unit c).2
      have hone : Beyond c → ∀ d ∈ utf16 c.toUInt32, Beyond d := by
        intro hc d hd
        rw [hunits] at hd
        rwa [List.mem_singleton.1 hd]
      cases ok with
      | false => exact hall (hone (hbroken rfl)) hunits (Or.inl h)
      | true =>
          rw [if_neg (by decide)] at h
          by_cases hhigh : 0x100 ≤ c.toUInt32
          · rw [if_pos hhigh] at h
            have hbeyond : Beyond c := by
              rw [UInt32.le_iff_toNat_le, UInt16.toNat_toUInt32] at hhigh
              exact hhigh
            apply hall (hone hbeyond) hunits
            split_ifs at h
            · exact Or.inl h
            · exact Or.inr h
          · rw [if_neg hhigh] at h
            have hlow : c.toNat < 256 := by
              have hlt := UInt32.lt_iff_toNat_lt.1 (UInt32.not_le.1 hhigh)
              rw [UInt16.toNat_toUInt32] at hlt
              exact hlt
            have hcast : c.toUInt32 = UInt32.ofNat c.toNat := by
              apply UInt32.toNat_inj.1
              rw [UInt16.toNat_toUInt32, UInt32.toNat_ofNat', Nat.mod_eq_of_lt (by omega)]
            have hprints := formatLatin_prints hlow (hcast ▸ h)
            rwa [UInt16.ofNat_toNat] at hprints
  | pair _ c t hc ht hcp hunits =>
      have hhigh : 0x100 ≤ cp := by
        apply UInt32.le_trans _ (UInt32.not_lt.1 hcp)
        decide
      rw [if_neg (by decide), if_pos hhigh] at h
      apply hall _ hunits
      · split_ifs at h
        · exact Or.inl h
        · exact Or.inr h
      intro d hd
      rw [hunits] at hd
      simp only [List.mem_cons, List.not_mem_nil, or_false] at hd
      obtain rfl | rfl := hd
      · exact hc
      · exact ht

/-! ### The whole literal -/

def IsQuote (quote : UInt16) : Prop := quote = 0x22 ∨ quote = 0x27

theorem not_startsOctal_quote {quote : UInt16} (hquote : IsQuote quote) : ¬StartsOctal [quote] := by
  intro ⟨d, hd⟩
  obtain rfl | rfl := hquote
  · exact nomatch show (none : Option Nat) = some d from hd
  · exact nomatch show (none : Option Nat) = some d from hd

/-- The text between the marks: it reads as `units`, but for an apostrophe between apostrophes. -/
structure DenotesBody (units text lexed : List UInt16) : Prop where
  translated : ∀ rest, translateEscapes .plain (text ++ rest) = (translateEscapes .plain rest).map (lexed ++ ·)
  octal : ∀ quote, IsQuote quote → StartsOctal (lexed ++ [quote]) → StartsOctal units
  read : ∀ quote, IsQuote quote → (quote = 0x27 → 0x27 ∉ units) → readBody quote 0 (lexed ++ [quote]) = some units
  broken : 0x27 ∈ units → readBody 0x27 0 (lexed ++ [0x27]) = none

theorem denotesBody_nil : DenotesBody [] [] [] := by
  refine ⟨fun rest => Option.map_id'.symm, fun quote hquote h => absurd h (not_startsOctal_quote hquote),
    fun quote _ _ => ?_, fun h => nomatch h⟩
  rw [List.nil_append, readBody, if_pos rfl, if_pos rfl]

theorem Denotes.append {units' text' lexed lexed' : List UInt16} (h : Denotes units text lexed units')
    (hrest : DenotesBody units' text' lexed') : DenotesBody (units ++ units') (text ++ text') (lexed ++ lexed') := by
  refine ⟨fun rest => ?_, fun quote hquote hstart => ?_, fun quote hquote hsingle => ?_, fun hmem => ?_⟩
  · rw [List.append_assoc, h.translated, hrest.translated, Option.map_map]
    congr 1
    funext x
    exact (List.append_assoc ..).symm
  · rw [List.append_assoc] at hstart
    exact h.octal _ hstart
  · rw [List.append_assoc, h.read quote hquote (fun heq hmem => hsingle heq (List.mem_append_left _ hmem)) _
      (hrest.octal quote hquote), hrest.read quote hquote fun heq hmem => hsingle heq (List.mem_append_right _ hmem)]
    rfl
  · rw [List.append_assoc]
    by_cases hhead : 0x27 ∈ units
    · rw [(h.apostrophe hhead).2, List.singleton_append, readBody, if_pos rfl, if_neg]
      exact List.append_ne_nil_of_right_ne_nil _ (List.cons_ne_nil _ _)
    · have htail : 0x27 ∈ units' := (List.mem_append.1 hmem).resolve_left hhead
      rw [h.read 0x27 (Or.inr rfl) (fun _ => hhead) _ (hrest.octal 0x27 (Or.inr rfl)), hrest.broken htail]
      rfl

theorem formatLoop_prints (n : Nat) (hn : s.tp.length ≤ n)
    (h : formatLoop env mode n s = .ok s') : ∃ text lexed, s'.chars = s.chars ++ text ∧ DenotesBody s.tp text lexed := by
  induction n generalizing s with
  | zero =>
      cases h
      rw [List.length_eq_zero_iff.1 (Nat.le_zero.1 hn)]
      exact ⟨[], [], (List.append_nil _).symm, denotesBody_nil⟩
  | succ n ih =>
      rw [formatLoop] at h
      by_cases hnil : s.tp = []
      · rw [if_pos hnil] at h
        cases h
        rw [hnil]
        exact ⟨[], [], (List.append_nil _).symm, denotesBody_nil⟩
      · rw [if_neg hnil] at h
        obtain ⟨a, ha, h⟩ := Result.of_bind h
        obtain ⟨units, hunits, htp, text, lexed, hchars, hdenotes⟩ := formatChar_prints ha
        have hlen : a.tp.length ≤ n := by
          have hpos := List.length_pos_iff.2 hunits
          rw [htp, List.length_append] at hn
          omega
        obtain ⟨text', lexed', hchars', hbody⟩ := ih hlen h
        refine ⟨text ++ text', lexed ++ lexed', ?_, ?_⟩
        · rw [hchars', hchars, List.append_assoc]
        · rw [htp]
          exact hdenotes.append hbody

theorem isQuote_quotation (mode : string_fmt_t) : IsQuote (quotation mode) := by
  rw [quotation]
  split_ifs
  · exact Or.inr rfl
  · exact Or.inl rfl

theorem quotation_eq_apostrophe : quotation mode = 0x27 ↔ mode = .fmt_string_single_quotes := by
  cases mode <;> decide

theorem readLiteral_printed {quote : UInt16} (hquote : IsQuote quote) {lexed : List UInt16}
    (h : DenotesBody units text lexed) :
    readLiteral quote ([quote] ++ text ++ [quote]) = readBody quote 0 (lexed ++ [quote]) := by
  have hraw : ∀ c ∈ [quote], c ≠ 0x5C := by
    intro c hc
    rw [List.mem_singleton.1 hc]
    obtain rfl | rfl := hquote <;> decide
  have hlast : translateEscapes .plain [quote] = some [quote] := by
    have hq := translate_raws hraw []
    rwa [List.append_nil] at hq
  rw [readLiteral, List.append_assoc, translate_raws hraw, h.translated, hlast]
  exact if_pos rfl

/-- The literal is read back as the string, unless an apostrophe stands between apostrophes. -/
theorem format_string_reads_back_iff {pm : java_t} {mode : string_fmt_t} {tp : List UInt16} {size : Int}
    (h : format_string env pm mode ⟨tp, size, 0, []⟩ = .ok s') :
    readLiteral (quotation mode) s'.chars = some tp ↔ mode ≠ .fmt_string_single_quotes ∨ 0x27 ∉ tp := by
  have hquote := isQuote_quotation mode
  obtain ⟨a, ha, h⟩ := Result.of_bind h
  obtain ⟨b, hb, h⟩ := Result.of_bind h
  obtain ⟨htp, hopen⟩ := emit_spec ha
  obtain ⟨text, lexed, hbody, hdenotes⟩ := formatLoop_prints _ (Nat.le_refl _) hb
  obtain ⟨_, hclose⟩ := emit_spec h
  rw [htp] at hdenotes
  have hmark : (Piece.cp (quotation mode).toUInt32).chars = [quotation mode] := (utf16_unit _).2
  have htext : s'.chars = [quotation mode] ++ text ++ [quotation mode] := by
    rw [hclose, hbody, hopen, hmark]
    rfl
  rw [htext, readLiteral_printed hquote hdenotes]
  by_cases hsingle : mode = .fmt_string_single_quotes ∧ 0x27 ∈ tp
  · rw [quotation_eq_apostrophe.2 hsingle.1, hdenotes.broken hsingle.2]
    refine iff_of_false (fun hnone => nomatch hnone) fun hor => ?_
    exact hor.elim (fun hmode => hmode hsingle.1) (fun hmem => hmem hsingle.2)
  · have hread := hdenotes.read _ hquote fun heq hmem => hsingle ⟨quotation_eq_apostrophe.1 heq, hmem⟩
    exact iff_of_true hread (not_and_or.1 hsingle)

def listing : Env := ⟨fun c => decide (c < 0x3000), fun _ => 80⟩

/-- A control character before a digit, a quotation mark, a pair, half of a pair and an apostrophe. -/
def mixedString : List UInt16 := [0x01, 0x31, 0x22, 0xD83D, 0xDE00, 0xD800, 0x27]

theorem format_string_reads_back : ∃ s', format_string listing ⟨false, false⟩ .fmt_string ⟨mixedString, 80, 0, []⟩ = .ok s' ∧
    readLiteral (quotation .fmt_string) s'.chars = some mixedString := by
  have hprinted : ∃ s', format_string listing ⟨false, false⟩ .fmt_string ⟨mixedString, 80, 0, []⟩ = .ok s' := ⟨_, rfl⟩
  obtain ⟨s', hs'⟩ := hprinted
  exact ⟨s', hs', (format_string_reads_back_iff hs').2 (Or.inl (by decide))⟩

/-- The string `it's`, printed as `'it's'`. -/
theorem format_string_apostrophe : ∃ s',
    format_string listing ⟨false, false⟩ .fmt_string_single_quotes ⟨[0x69, 0x74, 0x27, 0x73], 80, 0, []⟩ = .ok s' ∧
      s'.chars = [0x27, 0x69, 0x74, 0x27, 0x73, 0x27] ∧ readLiteral 0x27 s'.chars ≠ some [0x69, 0x74, 0x27, 0x73] :=
  ⟨_, rfl, by decide, by decide⟩

end IdaSdk.JavaSig
