import IdaSdk.Tms6Decoded
import Mathlib.Data.List.Range
import Mathlib.Logic.Relation

/-!
The beginning of an execute packet. It is found by walking backwards over p-bits and headers, which goes too far if a
header is in front of the packet.
-/

namespace IdaSdk.Tms6
open Relation

section
variable (tables : tables_t) (db : database_t)

/-- The instruction `b` is the next one behind `a`. There may be a header between them. -/
def Follows (a b : Nat) : Prop :=
  IsInsn tables db a ∧ IsInsn tables db b ∧ (Next db a b ∨ ∃ fph, IsHeader tables db fph ∧ Next db a fph ∧
    Next db fph b)

/-- Both instructions are in one execute packet. -/
def Joined (a b : Nat) : Prop := Follows tables db a b ∧ IsPara tables db a

/-- The first instruction of the execute packet of `ea`. -/
structure FirstOf (s ea : Nat) : Prop where
  insn : IsInsn tables db s
  first : ∀ a, ¬Joined tables db a s
  joined : ReflTransGen (Joined tables db) s ea

/-- No execute packet has more than eight instructions. -/
def AtMostEight : Prop :=
  ∀ l : List Nat, l.IsChain (Follows tables db) → (∀ ea ∈ l, IsInsn tables db ea ∧ IsPara tables db ea) → l.length ≤ 7

/-- Execute packets are found as they should be. -/
structure PacketsFound : Prop where
  para : ∀ ea, IsInsn tables db ea → (insn_has_pbit db ea = true ↔ IsPara tables db ea)
  same : ∀ a b, Joined tables db a b → get_start_of_exec_packet db a = get_start_of_exec_packet db b
  start : ∀ s ea, FirstOf tables db s ea → get_start_of_exec_packet db ea = s
  idem : ∀ ea ∈ db.heads, get_start_of_exec_packet db (get_start_of_exec_packet db ea) = get_start_of_exec_packet db ea
  first : ∀ ea, IsInsn tables db ea → (is_first_insn_of_exec_packet db ea true = true ↔ FirstOf tables db ea ea)

/-- No header is in front of an execute packet with more than one instruction. -/
structure HeadersApart : Prop where
  single : ∀ fph b, IsHeader tables db fph → Next db fph b → (∀ a, ¬Joined tables db a b) → ∀ c, ¬Joined tables db b c
  begins : ∀ fph b, IsHeader tables db fph → Next db fph b → db.prev_not_tail fph = none →
    bit (db.get_dword fph) 0 = false

end

section
variable {tables : tables_t} {db : database_t} {a b c ea fph s : Nat} {m n k : Nat}

/-! ### Items -/

theorem Decoded.cases (h : Decoded tables db) (hmem : ea ∈ db.heads) : IsInsn tables db ea ∨ IsHeader tables db ea := by
  obtain ⟨insn, hana⟩ := h.insns ea hmem
  cases hfph : insn.fphead with
  | false => exact Or.inl ⟨hmem, insn, hana, hfph⟩
  | true => exact Or.inr ⟨hmem, insn, hana, hfph⟩

theorem IsHeader.place (h : Decoded tables db) (hfph : IsHeader tables db fph) :
    fph % 32 = 28 ∧ is_fph fph (db.get_dword fph) = true := by
  obtain ⟨hmem, insn, hana, hhead⟩ := hfph
  cases h.item hmem hana with
  | header _ _ h28 hfph => exact ⟨h28, hfph⟩
  | compact _ hnot => cases hhead.symm.trans hnot
  | classic _ hnot => cases hhead.symm.trans hnot

theorem IsInsn.not_fph (h : Decoded tables db) (hea : IsInsn tables db ea) : is_fph ea (db.get_dword ea) = false := by
  obtain ⟨hmem, insn, hana, hhead⟩ := hea
  cases h.item hmem hana with
  | header _ hnot => cases hhead.symm.trans hnot
  | compact _ _ hlt =>
      refine Bool.eq_false_iff.2 fun hfph => ?_
      have haddr := (of_decide_eq_true hfph).1
      rw [get_fph_pos] at haddr
      omega
  | classic _ _ _ hfph => exact hfph

theorem IsInsn.not_header (h : Decoded tables db) (hea : IsInsn tables db ea) (hfph : IsHeader tables db ea) : False :=
  Bool.false_ne_true ((hea.not_fph h).symm.trans (hfph.place h).2)

theorem IsInsn.pbit (h : Decoded tables db) (hea : IsInsn tables db ea) :
    insn_has_pbit db ea = true ↔ IsPara tables db ea := by
  obtain ⟨hmem, insn, hana, hhead⟩ := hea
  have hpara : IsPara tables db ea ↔ insn.cflags &&& aux_para ≠ 0 := by
    constructor
    · rintro ⟨insn', hana', hflag⟩
      rwa [Option.some.inj (hana.symm.trans hana')]
    · exact fun hflag => ⟨insn, hana, hflag⟩
  rw [hpara]
  unfold insn_has_pbit
  cases h.item hmem hana with
  | header _ hnot => cases hhead.symm.trans hnot
  | compact _ _ _ hget hcompact hflag =>
      rw [hget]
      dsimp only
      rw [if_pos hcompact, hflag, fph_has_pbit, fph_layout_pos, if_pos hcompact]
  | classic _ _ _ _ hlayout hflag =>
      rw [hflag]
      cases hget : db.get_fph (get_fph_pos ea) with
      | none => rfl
      | some word =>
          dsimp only
          rw [if_neg (Bool.eq_false_iff.1 (hlayout word hget))]

theorem IsHeader.pbit (h : Decoded tables db) (hfph : IsHeader tables db fph) :
    insn_has_pbit db fph = bit (db.get_dword fph) 0 := by
  obtain ⟨h28, hhead⟩ := hfph.place h
  have haddr : get_fph_pos fph = fph := (of_decide_eq_true hhead).1.symm
  have hpos : get_word_pos fph false = 7 := by
    rw [get_word_pos]
    simp only [Bool.false_eq_true, ↓reduceIte]
    omega
  rw [insn_has_pbit, haddr, database_t.get_fph, if_pos hhead]
  dsimp only
  rw [hpos, if_neg (Bool.eq_false_iff.1 (not_compact_header hhead))]

theorem Next.bounds (h : Decoded tables db) (hnext : Next db a b) : a < b ∧ b ≤ a + 4 := by
  obtain ⟨insn, hana⟩ := h.insns a hnext.mem.1
  obtain ⟨hpos, hle⟩ := (h.item hnext.mem.1 hana).size_pos
  have hb := hnext.size h hana
  omega

theorem Next.header (h : Decoded tables db) (hfph : IsHeader tables db fph) (hnext : Next db fph b) : b = fph + 4 := by
  obtain ⟨hmem, insn, hana, hhead⟩ := hfph
  cases h.item hmem hana with
  | header hsize => exact hsize ▸ hnext.size h hana
  | compact _ hnot => cases hhead.symm.trans hnot
  | classic _ hnot => cases hhead.symm.trans hnot

theorem Next.insn (h : Decoded tables db) (hfph : IsHeader tables db fph) (hnext : Next db fph b) :
    IsInsn tables db b := by
  refine (h.cases hnext.mem.2).resolve_right fun hb => ?_
  have hplace := (hfph.place h).1
  have hplace' := (hb.place h).1
  have heq := hnext.header h hfph
  omega

theorem Next.insn_left (h : Decoded tables db) (hfph : IsHeader tables db fph) (hnext : Next db a fph) :
    IsInsn tables db a := by
  refine (h.cases hnext.mem.1).resolve_right fun ha => ?_
  exact (hnext.insn h ha).not_header h hfph

theorem Next.unique (h : Decoded tables db) (hnext : Next db a b) (hnext' : Next db c b) : a = c :=
  Option.some.inj ((hnext.prev h).symm.trans (hnext'.prev h))

theorem Next.get_prev (h : Decoded tables db) (hnext : Next db a b) : get_prev db b = some a := by
  rw [Tms6.get_prev, hnext.prev h]
  exact Option.filter_some_pos (h.code a hnext.mem.1)

theorem get_prev_none (h : db.prev_not_tail ea = none) : get_prev db ea = none := by
  rw [get_prev, h]
  rfl

theorem Next.fph_pos (h : Decoded tables db) (hfph : IsHeader tables db fph) (hnext : Next db a fph) :
    get_fph_pos a = fph := by
  have hplace := (hfph.place h).1
  have hbounds := hnext.bounds h
  rw [get_fph_pos]
  omega

theorem is_first_none (h : db.prev_not_tail ea = none) : is_first_insn_of_exec_packet db ea true = true := by
  rw [is_first_insn_of_exec_packet, if_pos rfl, get_prev_none h]

theorem is_first_some (h : get_prev db ea = some a) :
    is_first_insn_of_exec_packet db ea true = !insn_has_pbit db (skip_fph db a) := by
  rw [is_first_insn_of_exec_packet, if_pos rfl, h]

theorem IsInsn.skip_fph (h : Decoded tables db) (ha : IsInsn tables db a) : skip_fph db a = a :=
  if_neg (Bool.eq_false_iff.1 (ha.not_fph h))

theorem is_first_insn (h : Decoded tables db) (hnext : Next db a ea) (ha : IsInsn tables db a) :
    is_first_insn_of_exec_packet db ea true = !insn_has_pbit db a := by
  rw [is_first_some (hnext.get_prev h), ha.skip_fph h]

theorem is_first_header (h : Decoded tables db) (hfph : IsHeader tables db fph) (hnext : Next db fph ea)
    (hprev : Next db a fph) : is_first_insn_of_exec_packet db ea true = !insn_has_pbit db a := by
  rw [is_first_some (hnext.get_prev h), skip_fph, if_pos (hfph.place h).2, hprev.get_prev h]
  dsimp only
  rw [if_pos (hprev.fph_pos h hfph)]

theorem is_first_begin (h : Decoded tables db) (hfph : IsHeader tables db fph) (hnext : Next db fph ea)
    (hprev : db.prev_not_tail fph = none) : is_first_insn_of_exec_packet db ea true = !bit (db.get_dword fph) 0 := by
  rw [is_first_some (hnext.get_prev h)]
  unfold skip_fph
  rw [if_pos (hfph.place h).2, get_prev_none hprev]
  dsimp only
  rw [hfph.pbit h]

theorem walk_succ : walk db (m + 1) ea = (db.prev_not_tail ea).elim ea fun a =>
    if !db.is_code a || (!is_fph a (db.get_dword a) && is_first_insn_of_exec_packet db a false) then ea
    else walk db m a := by
  rw [walk]
  cases db.prev_not_tail ea <;> rfl

theorem walk_none (h : db.prev_not_tail ea = none) : walk db m ea = ea := by
  cases m with
  | zero => rfl
  | succ m => rw [walk_succ, h, Option.elim_none]

theorem walk_prev (h : Decoded tables db) (hnext : Next db a ea) : walk db (m + 1) ea =
    if !is_fph a (db.get_dword a) && is_first_insn_of_exec_packet db a false then ea else walk db m a := by
  rw [walk_succ, hnext.prev h, Option.elim_some, h.code a hnext.mem.1]
  rfl

theorem walk_header (h : Decoded tables db) (hfph : IsHeader tables db fph) (hnext : Next db fph ea) :
    walk db (m + 1) ea = walk db m fph := by
  rw [walk_prev h hnext, (hfph.place h).2]
  rfl

theorem walk_insn (h : Decoded tables db) (ha : IsInsn tables db a) (hnext : Next db a ea) :
    walk db (m + 1) ea = if insn_has_pbit db a then walk db m a else ea := by
  have hfirst : is_first_insn_of_exec_packet db a false = !insn_has_pbit db a := by
    rw [is_first_insn_of_exec_packet, if_neg Bool.false_ne_true, ha.skip_fph h]
  rw [walk_prev h hnext, ha.not_fph h, hfirst]
  cases insn_has_pbit db a <;> rfl

theorem walk_para (h : Decoded tables db) (ha : IsInsn tables db a) (hpara : IsPara tables db a)
    (hnext : Next db a ea) :
    walk db (m + 1) ea = walk db m a := by
  rw [walk_insn h ha hnext, if_pos ((ha.pbit h).2 hpara)]

theorem walk_stop (h : Decoded tables db) (ha : IsInsn tables db a) (hpara : ¬IsPara tables db a)
    (hnext : Next db a ea) :
    walk db m ea = ea := by
  cases m with
  | zero => rfl
  | succ m => rw [walk_insn h ha hnext, if_neg fun hpbit => hpara ((ha.pbit h).1 hpbit)]

/-! ### Paths -/

/-- The items from the first instruction of a packet: `n` instructions with p-bits, and `k` headers between them. -/
inductive Path (tables : tables_t) (db : database_t) : Nat → Nat → Nat → Nat → Prop
  | refl {s : Nat} : IsInsn tables db s → Path tables db s s 0 0
  | near {s a b n k : Nat} : Path tables db s a n k → IsPara tables db a → Next db a b → IsInsn tables db b →
      Path tables db s b (n + 1) k
  | past {s a fph b n k : Nat} : Path tables db s a n k → IsPara tables db a → Next db a fph → IsHeader tables db fph →
      Next db fph b → IsInsn tables db b → Path tables db s b (n + 1) (k + 1)

theorem Path.insn (h : Path tables db s ea n k) : IsInsn tables db ea := by
  cases h with
  | refl h => exact h
  | near _ _ _ h => exact h
  | past _ _ _ _ _ h => exact h

theorem path_of_joined (hs : IsInsn tables db s) (h : ReflTransGen (Joined tables db) s ea) :
    ∃ n k, Path tables db s ea n k := by
  induction h with
  | refl => exact ⟨0, 0, .refl hs⟩
  | tail _ hjoined ih =>
      obtain ⟨n, k, hpath⟩ := ih
      obtain ⟨⟨_, hb, hnext | ⟨fph, hfph, hnext, hnext'⟩⟩, hpara⟩ := hjoined
      · exact ⟨n + 1, k, hpath.near hpara hnext hb⟩
      · exact ⟨n + 1, k + 1, hpath.past hpara hnext hfph hnext' hb⟩

theorem Path.chain (h : Path tables db s ea n k) : ∃ l : List Nat, l.length = n ∧
    (l ++ [ea]).IsChain (Follows tables db) ∧ ∀ x ∈ l, IsInsn tables db x ∧ IsPara tables db x := by
  have happend {l : List Nat} {a b : Nat} (hl : (l ++ [a]).IsChain (Follows tables db)) (hab : Follows tables db a b)
      (hpara : IsPara tables db a) (hall : ∀ x ∈ l, IsInsn tables db x ∧ IsPara tables db x) :
      ((l ++ [a]) ++ [b]).IsChain (Follows tables db) ∧ ∀ x ∈ l ++ [a], IsInsn tables db x ∧ IsPara tables db x := by
    refine ⟨hl.append (List.isChain_singleton b) fun x hx y hy => ?_, fun x hx => ?_⟩
    · rw [List.getLast?_concat] at hx
      obtain rfl := Option.some.inj hx
      obtain rfl := Option.some.inj hy
      exact hab
    · obtain hx | hx := List.mem_append.1 hx
      · exact hall x hx
      · obtain rfl := List.mem_singleton.1 hx
        exact ⟨hab.1, hpara⟩
  induction h with
  | refl => exact ⟨[], rfl, List.isChain_singleton _, fun x hx => absurd hx List.not_mem_nil⟩
  | @near a b n k hpath hpara hnext hb ih =>
      obtain ⟨l, hlen, hchain, hall⟩ := ih
      obtain ⟨hchain', hall'⟩ := happend hchain ⟨hpath.insn, hb, Or.inl hnext⟩ hpara hall
      exact ⟨l ++ [a], by rw [List.length_append, hlen]; rfl, hchain', hall'⟩
  | @past a fph b n k hpath hpara hnext hfph hnext' hb ih =>
      obtain ⟨l, hlen, hchain, hall⟩ := ih
      obtain ⟨hchain', hall'⟩ := happend hchain ⟨hpath.insn, hb, Or.inr ⟨fph, hfph, hnext, hnext'⟩⟩ hpara hall
      exact ⟨l ++ [a], by rw [List.length_append, hlen]; rfl, hchain', hall'⟩

theorem Path.length (hmax : AtMostEight tables db) (h : Path tables db s ea n k) : n ≤ 7 := by
  obtain ⟨l, hlen, hchain, hall⟩ := h.chain
  exact hlen ▸ hmax l hchain.left_of_append hall

theorem Path.length_para (hmax : AtMostEight tables db) (h : Path tables db s ea n k) (hpara : IsPara tables db ea) :
    n + 1 ≤ 7 := by
  obtain ⟨l, hlen, hchain, hall⟩ := h.chain
  have hle := hmax (l ++ [ea]) hchain fun x hx => by
    obtain hx | hx := List.mem_append.1 hx
    · exact hall x hx
    · obtain rfl := List.mem_singleton.1 hx
      exact ⟨h.insn, hpara⟩
  rwa [List.length_append, hlen] at hle

theorem Path.headers (hdec : Decoded tables db) (hmax : AtMostEight tables db) (h : Path tables db s ea n k) :
    k = 0 ∨ (k = 1 ∧ ∃ fph, fph % 32 = 28 ∧ fph < ea ∧ ea ≤ fph + 4 * n) := by
  induction h with
  | refl => exact Or.inl rfl
  | near hpath hpara hnext hb ih =>
      have hbounds := hnext.bounds hdec
      obtain rfl | ⟨rfl, fph, h28, hlt, hle⟩ := ih
      · exact Or.inl rfl
      · exact Or.inr ⟨rfl, fph, h28, by omega, by omega⟩
  | past hpath hpara hnext hfph hnext' hb ih =>
      have hbounds := hnext.bounds hdec
      have hplace := (hfph.place hdec).1
      have heq := hnext'.header hdec hfph
      obtain rfl | ⟨rfl, fph', h28, hlt, hle⟩ := ih
      · exact Or.inr ⟨rfl, _, hplace, by omega, by omega⟩
      · have hlen := hpath.length_para hmax hpara
        omega

theorem Path.walk (hdec : Decoded tables db) (h : Path tables db s ea n k) :
    walk db (m + n + k) ea = walk db m s := by
  induction h with
  | refl => rfl
  | @near a b n k hpath hpara hnext hb ih =>
      rw [← ih, show m + (n + 1) + k = m + n + k + 1 by omega, walk_para hdec hpath.insn hpara hnext]
  | @past a fph b n k hpath hpara hnext hfph hnext' hb ih =>
      rw [← ih, show m + (n + 1) + (k + 1) = m + n + k + 1 + 1 by omega, walk_header hdec hfph hnext',
        walk_para hdec hpath.insn hpara hnext]

theorem joined_of_ne (h : ReflTransGen (Joined tables db) s ea) (hne : s ≠ ea) : ∃ c, Joined tables db s c := by
  obtain rfl | ⟨c, hc, -⟩ := h.cases_head
  · exact (hne rfl).elim
  · exact ⟨c, hc⟩

theorem Follows.lt (hdec : Decoded tables db) (h : Follows tables db a b) : a < b := by
  obtain ⟨-, -, hnext | ⟨fph, -, hnext, hnext'⟩⟩ := h
  · exact (hnext.bounds hdec).1
  · exact (hnext.bounds hdec).1.trans (hnext'.bounds hdec).1

theorem firstOf_exists (hdec : Decoded tables db) (hea : IsInsn tables db ea) : ∃ s, FirstOf tables db s ea := by
  induction ea using Nat.strong_induction_on with
  | _ ea ih =>
      by_cases hjoined : ∃ a, Joined tables db a ea
      · obtain ⟨a, ha⟩ := hjoined
        obtain ⟨s, hs⟩ := ih a (ha.1.lt hdec) ha.1.1
        exact ⟨s, hs.insn, hs.first, hs.joined.tail ha⟩
      · exact ⟨ea, hea, fun a ha => hjoined ⟨a, ha⟩, .refl⟩

/-! ### The first instruction -/

theorem is_first_iff (hdec : Decoded tables db) (hapart : HeadersApart tables db) (hea : IsInsn tables db ea) :
    is_first_insn_of_exec_packet db ea true = true ↔ ∀ a, ¬Joined tables db a ea := by
  obtain hprev | ⟨a, hnext⟩ := hdec.prev_cases hea.1
  · rw [is_first_none hprev]
    refine iff_of_true rfl ?_
    rintro a ⟨⟨-, -, hnext | ⟨fph, -, -, hnext⟩⟩, -⟩
    · cases hprev.symm.trans (hnext.prev hdec)
    · cases hprev.symm.trans (hnext.prev hdec)
  · obtain ha | hfph := hdec.cases hnext.mem.1
    · rw [is_first_insn hdec hnext ha, Bool.not_eq_true', Bool.eq_false_iff, Ne, ha.pbit hdec]
      constructor
      · rintro hpara c ⟨⟨hc, -, hnext' | ⟨fph, hfph, -, hnext'⟩⟩, hpara'⟩
        · exact hpara (hnext.unique hdec hnext' ▸ hpara')
        · exact ha.not_header hdec (hnext.unique hdec hnext' ▸ hfph)
      · exact fun hnot hpara => hnot a ⟨⟨ha, hea, Or.inl hnext⟩, hpara⟩
    · have hjoined {c : Nat} (hc : Joined tables db c ea) : Next db c a := by
        obtain ⟨⟨hc, -, hnext' | ⟨fph, -, hprev, hnext'⟩⟩, -⟩ := hc
        · exact (hc.not_header hdec (hnext.unique hdec hnext' ▸ hfph)).elim
        · exact hnext.unique hdec hnext' ▸ hprev
      obtain hprev | ⟨c, hprev⟩ := hdec.prev_cases hnext.mem.1
      · rw [is_first_begin hdec hfph hnext hprev, hapart.begins a ea hfph hnext hprev]
        refine iff_of_true rfl fun c hc => ?_
        exact nomatch hprev.symm.trans ((hjoined hc).prev hdec)
      have hc := hprev.insn_left hdec hfph
      rw [is_first_header hdec hfph hnext hprev, Bool.not_eq_true', Bool.eq_false_iff, Ne, hc.pbit hdec]
      constructor
      · exact fun hpara c' hc' => hpara (hprev.unique hdec (hjoined hc') ▸ hc'.2)
      · exact fun hnot hpara => hnot c ⟨⟨hc, hea, Or.inr ⟨a, hfph, hprev, hnext⟩⟩, hpara⟩

theorem get_start_first (hdec : Decoded tables db) (hea : IsInsn tables db ea)
    (hfirst : is_first_insn_of_exec_packet db ea true = true) : get_start_of_exec_packet db ea = ea := by
  rw [get_start_of_exec_packet, hdec.spec ea hea.1, if_neg Bool.false_ne_true, hea.not_fph hdec, hfirst]
  rfl

theorem get_start_walk (hdec : Decoded tables db) (hea : IsInsn tables db ea)
    (hfirst : is_first_insn_of_exec_packet db ea true = false) : get_start_of_exec_packet db ea = walk db 8 ea := by
  rw [get_start_of_exec_packet, hdec.spec ea hea.1, if_neg Bool.false_ne_true, hfirst, Bool.and_false,
    if_neg Bool.false_ne_true]

theorem get_start_header (hdec : Decoded tables db) (hfph : IsHeader tables db fph) :
    get_start_of_exec_packet db fph = walk db 8 fph := by
  rw [get_start_of_exec_packet, hdec.spec fph hfph.1, if_neg Bool.false_ne_true, (hfph.place hdec).2]
  rfl

theorem walk_first (hdec : Decoded tables db) (hs : IsInsn tables db s) (hfirst : ∀ a, ¬Joined tables db a s)
    (hapart : ∀ fph, IsHeader tables db fph → ¬Next db fph s) : walk db m s = s := by
  obtain hprev | ⟨a, hnext⟩ := hdec.prev_cases hs.1
  · exact walk_none hprev
  · have ha := (hdec.cases hnext.mem.1).resolve_right fun hfph => hapart a hfph hnext
    exact walk_stop hdec ha (fun hpara => hfirst a ⟨⟨ha, hs, Or.inl hnext⟩, hpara⟩) hnext

theorem HeadersApart.start (hapart : HeadersApart tables db) (hdec : Decoded tables db) (hmax : AtMostEight tables db)
    (h : FirstOf tables db s ea) : get_start_of_exec_packet db ea = s := by
  obtain ⟨n, k, hpath⟩ := path_of_joined h.insn h.joined
  by_cases hne : s = ea
  · subst hne
    exact get_start_first hdec h.insn ((is_first_iff hdec hapart h.insn).2 h.first)
  obtain ⟨c, hc⟩ := joined_of_ne h.joined hne
  have hlen := hpath.length hmax
  have hk : k ≤ 1 := by
    obtain rfl | ⟨rfl, -⟩ := hpath.headers hdec hmax
    · exact Nat.zero_le 1
    · exact Nat.le_refl 1
  have hnot : is_first_insn_of_exec_packet db ea true = false := by
    refine Bool.eq_false_iff.2 fun hfirst => ?_
    obtain rfl | ⟨a, -, ha⟩ := h.joined.cases_tail
    · exact hne rfl
    · exact (is_first_iff hdec hapart hpath.insn).1 hfirst a ha
  rw [get_start_walk hdec hpath.insn hnot, show 8 = (8 - n - k) + n + k by omega, hpath.walk hdec]
  exact walk_first hdec h.insn h.first fun fph hfph hnext => hapart.single fph s hfph hnext h.first c hc

theorem HeadersApart.idem (hapart : HeadersApart tables db) (hdec : Decoded tables db) (hmax : AtMostEight tables db)
    (hea : ea ∈ db.heads) :
    get_start_of_exec_packet db (get_start_of_exec_packet db ea) = get_start_of_exec_packet db ea := by
  obtain hinsn | hfph := hdec.cases hea
  · obtain ⟨s, hs⟩ := firstOf_exists hdec hinsn
    rw [hapart.start hdec hmax hs]
    exact hapart.start hdec hmax ⟨hs.insn, hs.first, .refl⟩
  have hself (hstop : walk db 8 ea = ea) :
      get_start_of_exec_packet db (get_start_of_exec_packet db ea) = get_start_of_exec_packet db ea := by
    have hstart := (get_start_header hdec hfph).trans hstop
    rw [hstart, hstart]
  obtain hprev | ⟨a, hnext⟩ := hdec.prev_cases hea
  · exact hself (walk_none hprev)
  have ha := hnext.insn_left hdec hfph
  by_cases hpara : IsPara tables db a
  · obtain ⟨s, hs⟩ := firstOf_exists hdec ha
    obtain ⟨n, k, hpath⟩ := path_of_joined hs.insn hs.joined
    have hlen := hpath.length_para hmax hpara
    have hk : k ≤ 1 := by
      obtain rfl | ⟨rfl, -⟩ := hpath.headers hdec hmax
      · exact Nat.zero_le 1
      · exact Nat.le_refl 1
    have hstop : walk db (7 - n - k) s = s := by
      refine walk_first hdec hs.insn hs.first fun fph hfph' hnext' => ?_
      -- the packet has one instruction, which cannot be between two headers
      by_cases hne : s = a
      · subst hne
        have hplace := (hfph.place hdec).1
        have hplace' := (hfph'.place hdec).1
        have hbounds := hnext.bounds hdec
        have hbounds' := hnext'.bounds hdec
        omega
      · obtain ⟨c, hc⟩ := joined_of_ne hs.joined hne
        exact hapart.single fph s hfph' hnext' hs.first c hc
    have hstart : get_start_of_exec_packet db ea = s := by
      rw [get_start_header hdec hfph, walk_para hdec ha hpara hnext, show 7 = (7 - n - k) + n + k by omega,
        hpath.walk hdec, hstop]
    rw [hstart]
    exact hapart.start hdec hmax ⟨hs.insn, hs.first, .refl⟩
  · exact hself (walk_stop hdec ha hpara hnext)

theorem HeadersApart.packetsFound (hapart : HeadersApart tables db) (hdec : Decoded tables db)
    (hmax : AtMostEight tables db) : PacketsFound tables db where
  para _ hea := hea.pbit hdec
  same a b hjoined := by
    obtain ⟨s, hs⟩ := firstOf_exists hdec hjoined.1.1
    rw [hapart.start hdec hmax hs, hapart.start hdec hmax ⟨hs.insn, hs.first, hs.joined.tail hjoined⟩]
  start _ _ h := hapart.start hdec hmax h
  idem _ hea := hapart.idem hdec hmax hea
  first ea hea := by
    rw [is_first_iff hdec hapart hea]
    exact ⟨fun h => ⟨hea, h, .refl⟩, fun h => h.first⟩

theorem PacketsFound.begins (h : PacketsFound tables db) (hdec : Decoded tables db) (hfph : IsHeader tables db fph)
    (hnext : Next db fph b) (hprev : db.prev_not_tail fph = none) : bit (db.get_dword fph) 0 = false := by
  have hb := hnext.insn hdec hfph
  have hfirst : FirstOf tables db b b := by
    refine ⟨hb, ?_, .refl⟩
    rintro a ⟨⟨ha, -, hnext' | ⟨fph', -, hprev', hnext'⟩⟩, -⟩
    · exact ha.not_header hdec (hnext.unique hdec hnext' ▸ hfph)
    · rw [← hnext.unique hdec hnext'] at hprev'
      cases hprev.symm.trans (hprev'.prev hdec)
  have htrue := (h.first b hb).2 hfirst
  rw [is_first_begin hdec hfph hnext hprev, Bool.not_eq_true'] at htrue
  exact htrue

theorem PacketsFound.single (h : PacketsFound tables db) (hdec : Decoded tables db) (hfph : IsHeader tables db fph)
    (hnext : Next db fph b) (hfirst : ∀ a, ¬Joined tables db a b) (hjoined : Joined tables db b c) : False := by
  have hb := hnext.insn hdec hfph
  have hstart := h.start b c ⟨hb, hfirst, .single hjoined⟩
  have hnot : is_first_insn_of_exec_packet db c true = false := by
    refine Bool.eq_false_iff.2 fun htrue => ?_
    exact ((h.first c hjoined.1.2.1).1 htrue).first b hjoined
  have hstop : ∀ m, walk db m fph = fph := by
    intro m
    obtain hprev | ⟨a, hprev⟩ := hdec.prev_cases hfph.1
    · exact walk_none hprev
    · have ha := hprev.insn_left hdec hfph
      refine walk_stop hdec ha (fun hpara => ?_) hprev
      exact hfirst a ⟨⟨ha, hb, Or.inr ⟨fph, hfph, hprev, hnext⟩⟩, hpara⟩
  have hwalk : walk db 8 c = fph := by
    obtain ⟨⟨-, -, hnext' | ⟨fph', hfph', hprev', hnext'⟩⟩, hpara⟩ := hjoined
    · rw [walk_para hdec hb hpara hnext', walk_header hdec hfph hnext, hstop]
    · rw [walk_header hdec hfph' hnext', walk_para hdec hb hpara hprev', walk_header hdec hfph hnext, hstop]
  have hne := (hnext.bounds hdec).1
  rw [get_start_walk hdec hjoined.1.2.1 hnot, hwalk] at hstart
  omega

/-- Execute packets are found if and only if no header is in front of one with more than one instruction. -/
theorem packetsFound_iff (hdec : Decoded tables db) (hmax : AtMostEight tables db) :
    PacketsFound tables db ↔ HeadersApart tables db := by
  constructor
  · intro h
    exact ⟨fun fph b hfph hnext hfirst c hc => h.single hdec hfph hnext hfirst hc,
      fun fph b hfph hnext hprev => h.begins hdec hfph hnext hprev⟩
  · exact fun hapart => hapart.packetsFound hdec hmax

/-! ### Two memories -/

/-- Tables that know `NOP` only. -/
def nops : tables_t where
  classic _ code := if code ≤ 1 then some 0 else none
  compact _ _ _ := none
  classic_para ea code flags h := by
    split_ifs at h
    obtain rfl := Option.some.inj h
    rfl
  compact_para _ _ _ _ h := nomatch h

def memory (words : List UInt32) : database_t where
  get_byte ea := (words.getD (ea / 4) 0 >>> UInt32.ofNat (8 * (ea % 4))).toUInt8
  heads := (List.range words.length).map (4 * ·)
  is_code _ := true
  is_spec_ea _ := false

theorem decoded_memory {words : List UInt32}
    (h : (List.range words.length).all fun i => (ana nops (memory words) (4 * i)).map insn_t.size == some 4) :
    Decoded nops (memory words) where
  word hne := by
    have hmem := List.head_mem hne
    obtain ⟨i, -, hi⟩ := List.mem_map.1 hmem
    rw [← hi]
    exact Nat.mul_mod_right 4 i
  insns ea hea := by
    obtain ⟨i, hi, rfl⟩ := List.mem_map.1 hea
    obtain ⟨insn, hana, -⟩ := Option.map_eq_some_iff.1 (beq_iff_eq.1 (List.all_eq_true.1 h i hi))
    exact ⟨insn, hana⟩
  next := by
    have hrange : (List.range words.length).IsChain fun i j => i < words.length ∧ j = i + 1 :=
      (List.isChain_range _ _).2 fun i hi => ⟨by omega, rfl⟩
    refine List.isChain_map_of_isChain _ ?_ hrange
    rintro i _ ⟨hi, rfl⟩
    have hall := List.all_eq_true.1 h i (List.mem_range.2 hi)
    obtain ⟨insn, hana, hsize⟩ := Option.map_eq_some_iff.1 (beq_iff_eq.1 hall)
    exact ⟨insn, hana, by rw [hsize]; omega⟩
  code _ _ := rfl
  spec _ _ := rfl

def paired : List UInt32 := [1, 0, 0, 0, 0, 0, 0, 0xE0000000, 0, 0, 0, 0, 0, 0, 0, 0]

theorem decoded_paired : Decoded nops (memory paired) := decoded_memory rfl

theorem atMostEight_of {p : Nat} (hdec : Decoded tables db)
    (h : ∀ ea ∈ db.heads, insn_has_pbit db ea = true → ea = p) : AtMostEight tables db := by
  intro l hl hpara
  cases l with
  | nil => exact Nat.zero_le 7
  | cons a l =>
      cases l with
      | nil => exact Nat.le_of_ble_eq_true rfl
      | cons b l =>
          have hlt := (List.isChain_cons_cons.1 hl).1.lt hdec
          obtain ⟨ha, hpa⟩ := hpara a List.mem_cons_self
          obtain ⟨hb, hpb⟩ := hpara b (List.mem_cons_of_mem a List.mem_cons_self)
          have hap := h a ha.1 ((ha.pbit hdec).2 hpa)
          have hbp := h b hb.1 ((hb.pbit hdec).2 hpb)
          omega

theorem pbit_paired :
    ∀ ea ∈ (memory paired).heads, insn_has_pbit (memory paired) ea = true → ea = 0 :=
  of_decide_eq_true rfl

/-- Two instructions that are joined, and a header behind them. -/
theorem packetsFound_paired : PacketsFound nops (memory paired) := by
  refine (packetsFound_iff decoded_paired (atMostEight_of decoded_paired pbit_paired)).2
    ⟨fun fph b hfph hnext _ c hc => ?_, fun fph b hfph _ _ => ?_⟩
  · have hzero := pbit_paired b hnext.mem.2 ((hc.1.1.pbit decoded_paired).2 hc.2)
    have hlt := (hnext.bounds decoded_paired).1
    omega
  · have hall : ∀ ea ∈ (memory paired).heads, is_fph ea ((memory paired).get_dword ea) = true →
        bit ((memory paired).get_dword ea) 0 = false := by decide +kernel
    exact hall fph hfph.1 (hfph.place decoded_paired).2

def parted : List UInt32 := [0, 0, 0, 0, 0, 0, 0, 0xE0000000, 1, 0, 0, 0, 0, 0, 0, 0]

theorem decoded_parted : Decoded nops (memory parted) := decoded_memory rfl

/-- The second of the two instructions gets the header. -/
theorem not_packetsFound_parted : Decoded nops (memory parted) ∧ AtMostEight nops (memory parted) ∧
    ¬PacketsFound nops (memory parted) := by
  have hpbit : ∀ ea ∈ (memory parted).heads, insn_has_pbit (memory parted) ea = true → ea = 32 := by decide +kernel
  refine ⟨decoded_parted, atMostEight_of decoded_parted hpbit, fun h => ?_⟩
  have hstart :
      get_start_of_exec_packet (memory parted) 32 = 32 ∧ get_start_of_exec_packet (memory parted) 36 = 28 := by
    decide +kernel
  have hinsn (ea : Nat) (hea : ea = 32 ∨ ea = 36) : IsInsn nops (memory parted) ea := by
    obtain rfl | rfl := hea
    · exact ⟨by decide +kernel, ⟨4, false, 1⟩, by decide +kernel, rfl⟩
    · exact ⟨by decide +kernel, ⟨4, false, 0⟩, by decide +kernel, rfl⟩
  have hnext : Next (memory parted) 32 36 :=
    ⟨[0, 4, 8, 12, 16, 20, 24, 28], [40, 44, 48, 52, 56, 60], by decide +kernel⟩
  have hsame := h.same 32 36 ⟨⟨hinsn 32 (Or.inl rfl), hinsn 36 (Or.inr rfl), Or.inl hnext⟩,
    ⟨4, false, 1⟩, by decide +kernel,
    by decide⟩
  rw [hstart.1, hstart.2] at hsame
  exact absurd hsame (by decide)

end

end IdaSdk.Tms6
