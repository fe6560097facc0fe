import IdaSdk.Tms6Model

/-!
Memory that is decoded as code from end to end. Each item is an instruction or the header at the end of a fetch packet,
and the next one begins behind it.
-/

namespace IdaSdk.Tms6

section
variable (tables : tables_t) (db : database_t)

/-- The memory begins with a word, and all of it is decoded. -/
structure Decoded : Prop where
  word : ∀ h : db.heads ≠ [], db.heads.head h % 4 = 0
  insns : ∀ ea ∈ db.heads, ∃ insn, ana tables db ea = some insn
  next : db.heads.IsChain fun ea next => ∃ insn, ana tables db ea = some insn ∧ next = ea + insn.size
  code : ∀ ea ∈ db.heads, db.is_code ea = true
  spec : ∀ ea ∈ db.heads, db.is_spec_ea ea = false

def IsInsn (ea : Nat) : Prop := ea ∈ db.heads ∧ ∃ insn, ana tables db ea = some insn ∧ insn.fphead = false

def IsHeader (ea : Nat) : Prop := ea ∈ db.heads ∧ ∃ insn, ana tables db ea = some insn ∧ insn.fphead = true

def IsPara (ea : Nat) : Prop := ∃ insn, ana tables db ea = some insn ∧ insn.cflags &&& aux_para ≠ 0

def Next (a b : Nat) : Prop := [a, b] <:+: db.heads

end

section
variable {tables : tables_t} {db : database_t} {a a' b ea : Nat} {insn : insn_t}

theorem or_and_para {flags : UInt8} (h : flags &&& aux_para = 0) (p : Bool) :
    ((if p then aux_para else 0) ||| flags) &&& aux_para ≠ 0 ↔ p = true := by
  cases p with
  | false => simp only [Bool.false_eq_true, ↓reduceIte, UInt8.zero_or, h, ne_eq, not_true_eq_false]
  | true =>
      have hself : (aux_para ||| flags) &&& aux_para = aux_para := by
        apply UInt8.toBitVec_inj.1
        rw [UInt8.toBitVec_and, UInt8.toBitVec_or]
        ext i hi
        simp only [BitVec.getElem_and, BitVec.getElem_or]
        cases aux_para.toBitVec[i] <;> simp
      rw [if_pos rfl, hself]
      exact iff_of_true (by decide) rfl

theorem not_compact_header {addr : Nat} {fph : UInt32} (h : is_fph addr fph = true) :
    fph_is_compact_insn fph 7 = false := by
  obtain ⟨-, hmask⟩ := of_decide_eq_true h
  have hzero : fph &&& 0x10000000 = 0 := by
    have hsplit : fph &&& 0x10000000 = (fph &&& 0xf0000000) &&& 0x10000000 := by
      rw [UInt32.and_assoc]
      rfl
    rw [hsplit, hmask]
    rfl
  rw [fph_is_compact_insn, bit]
  exact decide_eq_false (not_not.2 hzero)

theorem get_fph_eq_some {pos : Nat} {fph : UInt32} (h : db.get_fph pos = some fph) :
    fph = db.get_dword pos ∧ is_fph pos fph = true := by
  rw [database_t.get_fph] at h
  split_ifs at h with hfph
  obtain rfl := Option.some.inj h
  exact ⟨rfl, hfph⟩

theorem get_fph_pos_eq (h : b / 32 = a / 32) : get_fph_pos b = get_fph_pos a := by
  rw [get_fph_pos, h, get_fph_pos]

/-! ### Places of items -/

/-- Items begin with a word, or with the second half of one if it is compact. -/
def Placed (db : database_t) (ea : Nat) : Prop :=
  ea % 4 = 0 ∨ (ea % 4 = 2 ∧ ∃ fph, db.get_fph (get_fph_pos ea) = some fph ∧
    fph_is_compact_insn fph (get_word_pos ea false) = true)

/-- What an item can be. -/
inductive Item (tables : tables_t) (db : database_t) (ea : Nat) : insn_t → Prop
  | header {insn : insn_t} : insn.size = 4 → insn.fphead = true → ea % 32 = 28 →
      is_fph ea (db.get_dword ea) = true → Item tables db ea insn
  | compact {insn : insn_t} {fph : UInt32} : insn.size = 2 → insn.fphead = false → ea % 32 < 28 →
      db.get_fph (get_fph_pos ea) = some fph → fph_is_compact_insn fph (get_word_pos ea false) = true →
      (insn.cflags &&& aux_para ≠ 0 ↔ bit fph (get_word_pos ea true) = true) → Item tables db ea insn
  | classic {insn : insn_t} : insn.size = 4 → insn.fphead = false → ea % 4 = 0 →
      is_fph ea (db.get_dword ea) = false →
      (∀ fph, db.get_fph (get_fph_pos ea) = some fph → fph_is_compact_insn fph (get_word_pos ea false) = false) →
      (insn.cflags &&& aux_para ≠ 0 ↔ bit (db.get_dword ea) 0 = true) → Item tables db ea insn

theorem ana_classic_item (h : ana_classic tables db ea = some insn) (hfph : is_fph ea (db.get_dword ea) = false)
    (hlayout : ∀ fph, db.get_fph (get_fph_pos ea) = some fph →
      fph_is_compact_insn fph (get_word_pos ea false) = false) :
    Item tables db ea insn := by
  rw [ana_classic] at h
  by_cases halign : ea % 4 ≠ 0
  · rw [if_pos halign] at h
    cases h
  rw [if_neg halign] at h
  obtain ⟨flags, hflags, rfl⟩ := Option.map_eq_some_iff.1 h
  have hpara := or_and_para (tables.classic_para _ _ _ hflags) (bit (db.get_dword ea) 0)
  exact .classic rfl rfl (not_not.1 halign) hfph hlayout hpara

theorem item (hplaced : Placed db ea) (h : ana tables db ea = some insn) : Item tables db ea insn := by
  have hpos : get_word_pos ea false = ea % 32 / 4 := rfl
  rw [ana] at h
  cases hget : db.get_fph (get_fph_pos ea) with
  | none =>
      rw [hget] at h
      refine ana_classic_item h ?_ fun fph hfph => nomatch hget.symm.trans hfph
      refine Bool.eq_false_iff.2 fun hfph => ?_
      have haddr := (of_decide_eq_true hfph).1
      rw [database_t.get_fph, ← haddr, if_pos hfph] at hget
      cases hget
  | some fph =>
      rw [hget] at h
      obtain ⟨hdword, hfph⟩ := get_fph_eq_some hget
      dsimp only at h
      split_ifs at h with hseven hcompact
      · obtain rfl := Option.some.inj h
        have h28 : ea % 32 = 28 := by
          obtain h0 | ⟨-, fph', hget', hcompact⟩ := hplaced
          · omega
          · obtain rfl := Option.some.inj (hget.symm.trans hget')
            rw [hseven, not_compact_header hfph] at hcompact
            cases hcompact
        have haddr : get_fph_pos ea = ea := by
          rw [get_fph_pos]
          omega
        rw [haddr] at hdword hfph
        exact .header rfl rfl h28 (hdword ▸ hfph)
      · rw [ana_compact] at h
        by_cases halign : ea % 2 ≠ 0
        · rw [if_pos halign] at h
          cases h
        rw [if_neg halign] at h
        obtain ⟨flags, hflags, rfl⟩ := Option.map_eq_some_iff.1 h
        have hpara := or_and_para (tables.compact_para _ _ _ _ hflags) (bit fph (get_word_pos ea true))
        have hlt : ea % 32 < 28 := by omega
        exact .compact rfl rfl hlt hget hcompact hpara
      · refine ana_classic_item h ?_ fun fph' hfph' => ?_
        · refine Bool.eq_false_iff.2 fun hfph' => ?_
          have haddr := (of_decide_eq_true hfph').1
          rw [get_fph_pos] at haddr
          omega
        · obtain rfl := Option.some.inj (hget.symm.trans hfph')
          exact Bool.eq_false_iff.2 hcompact

theorem Item.placed (h : Item tables db ea insn) (hplaced : Placed db ea) : Placed db (ea + insn.size) := by
  cases h with
  | header hsize _ h28 _ =>
      rw [hsize]
      exact Or.inl (by omega)
  | compact hsize _ hlt hget hcompact _ =>
      rw [hsize]
      obtain h0 | ⟨h2, -⟩ := hplaced
      · have hsame : (ea + 2) / 32 = ea / 32 := by omega
        have hpos : get_word_pos (ea + 2) false = get_word_pos ea false := by
          rw [get_word_pos, get_word_pos]
          simp only [Bool.false_eq_true, ↓reduceIte]
          omega
        exact Or.inr ⟨by omega, _, by rw [get_fph_pos_eq hsame]; exact hget, by rw [hpos]; exact hcompact⟩
      · exact Or.inl (by omega)
  | classic hsize _ h0 _ _ _ =>
      rw [hsize]
      exact Or.inl (by omega)

theorem Decoded.placed (h : Decoded tables db) : ∀ ea ∈ db.heads, Placed db ea := by
  refine h.next.induction _ _ ?_ fun hne => Or.inl (h.word hne)
  rintro a b ⟨insn, hana, rfl⟩ hplaced
  exact (item hplaced hana).placed hplaced

theorem Decoded.item (h : Decoded tables db) (hmem : ea ∈ db.heads) (hana : ana tables db ea = some insn) :
    Item tables db ea insn := Tms6.item (h.placed ea hmem) hana

theorem Item.size_pos (h : Item tables db ea insn) : 0 < insn.size ∧ insn.size ≤ 4 := by
  cases h with
  | header hsize => omega
  | compact hsize => omega
  | classic hsize => omega

theorem Decoded.sorted (h : Decoded tables db) : db.heads.Pairwise (· < ·) := by
  refine List.isChain_iff_pairwise.1 ?_
  refine List.IsChain.imp_of_mem_imp ?_ h.next
  rintro a b ha _ ⟨insn, hana, rfl⟩
  have hpos := (h.item ha hana).size_pos.1
  omega

theorem Next.mem (h : Next db a b) : a ∈ db.heads ∧ b ∈ db.heads :=
  ⟨h.subset List.mem_cons_self, h.subset (List.mem_cons_of_mem _ List.mem_cons_self)⟩

theorem Next.prev (h : Decoded tables db) (hnext : Next db a b) : db.prev_not_tail b = some a := by
  obtain ⟨before, after, heq⟩ := hnext
  have hsorted := h.sorted
  rw [← heq, List.append_assoc] at hsorted
  obtain ⟨-, hright, hcross⟩ := List.pairwise_append.1 hsorted
  have hleft : before.filter (· < b) = before :=
    List.filter_eq_self.2 fun x hx => decide_eq_true (hcross x hx b (List.mem_cons_of_mem a List.mem_cons_self))
  obtain ⟨hab, hrest⟩ := List.pairwise_cons.1 hright
  have hafter : after.filter (· < b) = [] := by
    refine List.filter_eq_nil_iff.2 fun x hx hlt => ?_
    exact Nat.lt_asymm ((List.pairwise_cons.1 hrest).1 x hx) (of_decide_eq_true hlt)
  have hlt : a < b := hab b List.mem_cons_self
  have hpair : [a, b].filter (· < b) = [a] := by
    rw [List.filter_cons_of_pos (by exact decide_eq_true hlt),
      List.filter_cons_of_neg (by exact fun h => Nat.lt_irrefl b (of_decide_eq_true h)), List.filter_nil]
  have hfilter : db.heads.filter (· < b) = before ++ [a] := by
    rw [← heq, List.append_assoc, List.filter_append, hleft, List.filter_append, hpair, hafter, List.append_nil]
  rw [database_t.prev_not_tail, hfilter, List.getLast?_concat]

theorem Next.size (h : Decoded tables db) (hnext : Next db a b) (hana : ana tables db a = some insn) :
    b = a + insn.size := by
  have hchain := List.isChain_pair.1 ( List.IsChain.infix h.next hnext)
  obtain ⟨insn', hana', rfl⟩ := hchain
  rw [Option.some.inj (hana.symm.trans hana')]

theorem Decoded.prev_cases (h : Decoded tables db) (hmem : ea ∈ db.heads) :
    db.prev_not_tail ea = none ∨ ∃ a, Next db a ea := by
  obtain ⟨before, after, heq⟩ := List.append_of_mem hmem
  obtain rfl | ⟨before', a, rfl⟩ := List.eq_nil_or_concat before
  · have hsorted := h.sorted
    rw [heq, List.nil_append, List.pairwise_cons] at hsorted
    refine Or.inl ?_
    have hfilter : db.heads.filter (· < ea) = [] := by
      refine List.filter_eq_nil_iff.2 fun x hx hlt => ?_
      rw [heq] at hx
      obtain rfl | hx := List.mem_cons.1 hx
      · exact Nat.lt_irrefl x (of_decide_eq_true hlt)
      · exact Nat.lt_asymm (hsorted.1 x hx) (of_decide_eq_true hlt)
    rw [database_t.prev_not_tail, hfilter]
    rfl
  · refine Or.inr ⟨a, before', after, ?_⟩
    rw [heq, List.concat_eq_append, List.append_assoc, List.append_assoc]
    rfl

end

end IdaSdk.Tms6
