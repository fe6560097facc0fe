import IdaSdk.JavaUtf8Model

/-!
`LoadUtf8` accepts what is well-formed, and keeps the code units that it denotes.
-/

namespace IdaSdk.JavaUtf8
open ModifiedUtf8

theorem forall_byte {P : UInt8 → Prop} (h : ∀ n : Fin 256, P (UInt8.ofNat n.val)) (b : UInt8) : P b := by
  have hb := h ⟨b.toNat, b.toNat_lt⟩
  rwa [show UInt8.ofNat b.toNat = b from UInt8.ofNat_toNat] at hb

variable (b : UInt8)

/-- What the first bits of a byte say about its value. -/
theorem first_bits : (b &&& 0xC0 = 0x80 ↔ IsTail b) ∧ (b &&& 0xE0 = 0xC0 ↔ 0xC0 ≤ b.toNat ∧ b.toNat < 0xE0) ∧
    (b &&& 0xF0 = 0xE0 ↔ 0xE0 ≤ b.toNat ∧ b.toNat < 0xF0) := by
  rw [IsTail]
  revert b
  exact forall_byte (by decide +kernel)

theorem tail_iff : b &&& 0xC0 = 0x80 ↔ IsTail b := (first_bits b).1

theorem toNat_low6 : (b &&& 0x3F).toNat = b.toNat % 64 := by
  rw [UInt8.toNat_and]
  exact Nat.and_two_pow_sub_one_eq_mod _ 6

theorem toNat_low5 : (b &&& 0x1F).toNat = b.toNat % 32 := by
  rw [UInt8.toNat_and]
  exact Nat.and_two_pow_sub_one_eq_mod _ 5

theorem isTwo_iff : b &&& 0xE0 = 0xC0 ↔ 0xC0 ≤ b.toNat ∧ b.toNat < 0xE0 := (first_bits b).2.1

theorem isThree_iff : b &&& 0xF0 = 0xE0 ↔ 0xE0 ≤ b.toNat ∧ b.toNat < 0xF0 := (first_bits b).2.2

theorem start_iff : b = 0 ∨ 0xF0 ≤ b ↔ b.toNat = 0 ∨ 0xF0 ≤ b.toNat := by
  rw [← UInt8.toNat_inj, UInt8.le_iff_toNat_le]
  rfl

theorem ascii_iff : b < 0x80 ↔ b.toNat < 0x80 := UInt8.lt_iff_toNat_lt

theorem toNat_append6 (cw : UInt16) (b : UInt8) :
    (cw <<< 6 ||| (b &&& 0x3F).toUInt16).toNat = (cw.toNat * 64) % 65536 + b.toNat % 64 := by
  have hlow : b.toNat % 64 < 2 ^ 6 := Nat.mod_lt _ (by decide)
  have hsplit : (cw.toNat * 64) % 65536 = (cw.toNat % 1024) <<< 6 := by
    rw [Nat.shiftLeft_eq]
    omega
  rw [UInt16.toNat_or, UInt8.toNat_toUInt16, toNat_low6, UInt16.toNat_shiftLeft]
  rw [show (6 : UInt16).toNat % 16 = 6 from rfl, Nat.shiftLeft_eq, show 2 ^ 6 = 64 from rfl,
    show 2 ^ 16 = 65536 from rfl, hsplit, ← Nat.shiftLeft_add_eq_or_of_lt hlow]

theorem toNat_two (a b : UInt8) :
    ((a &&& 0x1F).toUInt16 <<< 6 ||| (b &&& 0x3F).toUInt16).toNat = (a.toNat % 32) * 64 + b.toNat % 64 := by
  rw [toNat_append6, UInt8.toNat_toUInt16, toNat_low5]
  omega

theorem toNat_three (a b c : UInt8) :
    (((a &&& 0x1F).toUInt16 <<< 6 ||| (b &&& 0x3F).toUInt16) <<< 6 ||| (c &&& 0x3F).toUInt16).toNat =
      (a.toNat % 16) * 0x1000 + (b.toNat % 64) * 64 + c.toNat % 64 := by
  rw [toNat_append6, toNat_two]
  omega

/-! ### Code units -/

/-- One code unit has been read: its bytes, and the counts behind it. -/
structure ReadsUnit (s : cursor_t) (cw : UInt16) (s' : cursor_t) (symbol : List UInt8) : Prop where
  denotes : Symbol symbol cw
  file : s.file = symbol ++ s'.file
  size : s.size = symbol.length + s'.size
  opstr_size : s'.opstr_size + UInt16.ofNat symbol.length = s.opstr_size + 1

section
variable {index : UInt16} {s s' : cursor_t} {cw cw' : UInt16}

variable {a : UInt8}

theorem readUnit_wide {b : UInt8} {size : Nat} {opstr_size : UInt16} {file : List UInt8} (ha : 0x80 ≤ a.toNat)
    (ha' : a.toNat < 0xF0) (hb : IsTail b) (hsize : 2 ≤ size) :
    readUnit index ⟨size, opstr_size, a :: b :: file⟩ =
      readThird index a ((a &&& 0x1F).toUInt16 <<< 6 ||| (b &&& 0x3F).toUInt16) ⟨size - 2, opstr_size - 1, file⟩ := by
  have hstart : ¬(a = 0 ∨ 0xF0 ≤ a) := by
    rw [start_iff]
    omega
  have hascii : ¬a < 0x80 := by
    rw [ascii_iff]
    omega
  have hmore : ¬size - 1 = 0 := by omega
  have htail : ¬b &&& 0xC0 ≠ 0x80 := not_not.2 ((tail_iff b).2 hb)
  simp only [readUnit, read1, bind, Except.bind]
  rw [if_neg hstart, if_neg hascii, if_neg hmore, if_neg htail]
  rfl

theorem readThird_two (ha : a &&& 0xE0 = 0xC0) (hcw : ¬(cw < 0x80 ∧ cw.toUInt8 ≠ 0)) :
    readThird index a cw s = .ok (cw, s) := by
  unfold readThird
  rw [if_neg (not_not.2 ha), if_neg hcw]

theorem readThird_three {c : UInt8} {size : Nat} {opstr_size : UInt16} {file : List UInt8}
    (ha : ¬a &&& 0xE0 = 0xC0) (ha' : a &&& 0xF0 = 0xE0) (hc : IsTail c) (hsize : size ≠ 0)
    (hcw : ¬(cw <<< 6 ||| (c &&& 0x3F).toUInt16) < 0x800) :
    readThird index a cw ⟨size, opstr_size, c :: file⟩ =
      .ok (cw <<< 6 ||| (c &&& 0x3F).toUInt16, ⟨size - 1, opstr_size - 1, file⟩) := by
  have hmore : ¬(size = 0 ∨ a &&& 0xF0 ≠ 0xE0) := not_or.2 ⟨hsize, not_not.2 ha'⟩
  have htail : ¬c &&& 0xC0 ≠ 0x80 := not_not.2 ((tail_iff c).2 hc)
  simp only [readThird, read1, bind, Except.bind]
  rw [if_pos ha, if_neg hmore, if_neg htail, if_neg hcw]

theorem two_short : cw < 0x80 ∧ cw.toUInt8 ≠ 0 ↔ cw.toNat ≠ 0 ∧ cw.toNat < 0x80 := by
  rw [UInt16.lt_iff_toNat_lt, ne_eq, ← UInt8.toNat_inj, UInt16.toNat_toUInt8]
  change cw.toNat < 128 ∧ ¬cw.toNat % 2 ^ 8 = 0 ↔ _
  omega

theorem readUnit_of {symbol : List UInt8} (h : ReadsUnit s cw s' symbol) : readUnit index s = .ok (cw, s') := by
  obtain ⟨size, opstr_size, file⟩ := s
  obtain ⟨size', opstr_size', file'⟩ := s'
  obtain ⟨hsymbol, hfile, hsize, hopstr⟩ := h
  dsimp only at hfile hsize hopstr
  subst hfile
  cases hsymbol with
  | @one a u hpos hlt hcw =>
      have hstart : ¬(a = 0 ∨ 0xF0 ≤ a) := by
        rw [start_iff]
        omega
      have hsame : a.toUInt16 = cw := UInt16.toNat_inj.1 hcw.symm
      have hcount : size - 1 = size' := by rw [hsize, List.length_singleton, Nat.add_sub_cancel_left]
      have hops : opstr_size = opstr_size' := ((UInt16.add_left_inj 1).1 hopstr).symm
      simp only [readUnit, List.cons_append, read1, bind, Except.bind]
      rw [if_neg hstart, if_pos ((ascii_iff a).2 hlt), hsame, hcount, hops]
      rfl
  | @two a b u hle hlt htail hshort hcw =>
      have htail' := htail
      rw [IsTail] at htail'
      have hsize' : size = 2 + size' := hsize
      have hsame : (a &&& 0x1F).toUInt16 <<< 6 ||| (b &&& 0x3F).toUInt16 = cw := by
        rw [← UInt16.toNat_inj, toNat_two]
        omega
      have hnot : ¬(cw < 0x80 ∧ cw.toUInt8 ≠ 0) := by
        rw [two_short]
        omega
      have hops : opstr_size - 1 = opstr_size' := by
        have hopstr' : opstr_size' + 2 = opstr_size + 1 := hopstr
        grind
      have hcount : size - 2 = size' := by omega
      rw [List.cons_append, List.cons_append, List.nil_append, readUnit_wide (by omega) (by omega) htail (by omega),
        hsame, readThird_two ((isTwo_iff a).2 ⟨hle, hlt⟩) hnot, hops, hcount]
  | @three a b c u hle hlt htail htail' hlong hcw =>
      have hb := htail
      have hc := htail'
      rw [IsTail] at hb hc
      have hsize' : size = 3 + size' := hsize
      have hsame : ((a &&& 0x1F).toUInt16 <<< 6 ||| (b &&& 0x3F).toUInt16) <<< 6 ||| (c &&& 0x3F).toUInt16 = cw := by
        rw [← UInt16.toNat_inj, toNat_three]
        omega
      have hnot :
          ¬(((a &&& 0x1F).toUInt16 <<< 6 ||| (b &&& 0x3F).toUInt16) <<< 6 ||| (c &&& 0x3F).toUInt16) < 0x800 := by
        rw [hsame, UInt16.lt_iff_toNat_lt]
        exact Nat.not_lt.2 hlong
      have hops : opstr_size - 1 - 1 = opstr_size' := by
        have hopstr' : opstr_size' + 3 = opstr_size + 1 := hopstr
        grind
      have hcount : size - 2 - 1 = size' := by omega
      have hlead : ¬a &&& 0xE0 = 0xC0 := by
        rw [isTwo_iff]
        omega
      rw [List.cons_append, List.cons_append, List.cons_append, List.nil_append,
        readUnit_wide (by omega) (by omega) htail (by omega),
        readThird_three hlead ((isThree_iff a).2 ⟨hle, hlt⟩) htail' (by omega) hnot, hsame, hops, hcount]

theorem readThird_ok (h : readThird index a cw s = .ok (cw', s')) :
    (a &&& 0xE0 = 0xC0 ∧ ¬(cw < 0x80 ∧ cw.toUInt8 ≠ 0) ∧ cw' = cw ∧ s' = s) ∨
      ∃ c, ¬a &&& 0xE0 = 0xC0 ∧ a &&& 0xF0 = 0xE0 ∧ IsTail c ∧ s.size ≠ 0 ∧
        cw' = cw <<< 6 ||| (c &&& 0x3F).toUInt16 ∧ ¬cw' < 0x800 ∧ s.file = c :: s'.file ∧ s'.size = s.size - 1 ∧
        s'.opstr_size = s.opstr_size - 1 := by
  by_cases htwo : a &&& 0xE0 = 0xC0
  · left
    unfold readThird at h
    rw [if_neg (not_not.2 htwo)] at h
    by_cases hcw : cw < 0x80 ∧ cw.toUInt8 ≠ 0
    · rw [if_pos hcw] at h
      cases h
    · rw [if_neg hcw] at h
      obtain ⟨rfl, rfl⟩ := Prod.mk.inj (Except.ok.inj h)
      exact ⟨htwo, hcw, rfl, rfl⟩
  · right
    obtain ⟨size, opstr_size, file⟩ := s
    unfold readThird at h
    rw [if_pos htwo] at h
    by_cases hlead : size = 0 ∨ a &&& 0xF0 ≠ 0xE0
    · rw [if_pos hlead] at h
      cases h
    rw [if_neg hlead] at h
    cases file with
    | nil => cases h
    | cons c file =>
        simp only [read1, bind, Except.bind] at h
        by_cases htail : c &&& 0xC0 ≠ 0x80
        · rw [if_pos htail] at h
          cases h
        rw [if_neg htail] at h
        by_cases hlong : cw <<< 6 ||| (c &&& 0x3F).toUInt16 < 0x800
        · rw [if_pos hlong] at h
          cases h
        · rw [if_neg hlong] at h
          obtain ⟨rfl, rfl⟩ := Prod.mk.inj (Except.ok.inj h)
          obtain ⟨hsize, hthree⟩ := not_or.1 hlead
          exact ⟨c, htwo, not_not.1 hthree, (tail_iff c).1 (not_not.1 htail), hsize, rfl, hlong, rfl, rfl, rfl⟩

/-- What is read is a code unit. -/
theorem readUnit_ok (h : readUnit index s = .ok (cw, s')) (hsize : 0 < s.size) :
    ∃ symbol, ReadsUnit s cw s' symbol := by
  obtain ⟨size, opstr_size, file⟩ := s
  cases file with
  | nil => cases h
  | cons a file =>
      simp only [readUnit, read1, bind, Except.bind] at h
      by_cases hstart : a = 0 ∨ 0xF0 ≤ a
      · rw [if_pos hstart] at h
        cases h
      rw [if_neg hstart] at h
      rw [start_iff] at hstart
      by_cases hascii : a < 0x80
      · rw [if_pos hascii] at h
        obtain ⟨rfl, rfl⟩ := Prod.mk.inj (Except.ok.inj h)
        have hsize' : size = 1 + (size - 1) := by
          dsimp only at hsize
          omega
        exact ⟨[a], .one (by omega) ((ascii_iff a).1 hascii) rfl, rfl, hsize', rfl⟩
      rw [if_neg hascii] at h
      rw [ascii_iff] at hascii
      by_cases hmore : size - 1 = 0
      · rw [if_pos hmore] at h
        cases h
      rw [if_neg hmore] at h
      cases file with
      | nil => cases h
      | cons b file =>
          dsimp only at h
          by_cases htail : b &&& 0xC0 ≠ 0x80
          · rw [if_pos htail] at h
            cases h
          rw [if_neg htail] at h
          have hb := (tail_iff b).1 (not_not.1 htail)
          have hb' := hb
          rw [IsTail] at hb'
          obtain ⟨htwo, hcw, rfl, rfl⟩ | ⟨c, htwo, hthree, hc, hmore', rfl, hlong, hfile, hcount, hops⟩ :=
            readThird_ok h
          · rw [isTwo_iff] at htwo
            rw [two_short] at hcw
            refine ⟨[a, b], .two htwo.1 htwo.2 hb (by omega) ?_, rfl, ?_, ?_⟩
            · rw [toNat_two]
              omega
            · change size = 2 + (size - 1 - 1)
              omega
            · change opstr_size - 1 + 2 = opstr_size + 1
              grind
          · rw [isThree_iff] at hthree
            have hc' := hc
            rw [IsTail] at hc'
            dsimp only at hmore' hfile hcount hops
            refine ⟨[a, b, c], .three hthree.1 hthree.2 hb hc ?_ ?_, ?_, ?_, ?_⟩
            · rw [UInt16.lt_iff_toNat_lt] at hlong
              exact Nat.not_lt.1 hlong
            · rw [toNat_three]
              omega
            · rw [hfile]
              rfl
            · change size = 3 + s'.size
              omega
            · change s'.opstr_size + 3 = opstr_size + 1
              grind

def Illegal (index : UInt16) (e : Failure) : Prop := e = .errtrunc ∨ e = .errchar index ∨ e = .errcoding index

theorem readThird_error {e : Failure} (h : readThird index a cw s = .error e) : Illegal index e := by
  obtain ⟨size, opstr_size, file⟩ := s
  unfold readThird at h
  cases file with
  | nil =>
      simp only [read1, bind, Except.bind] at h
      split_ifs at h
      · exact Or.inr (Or.inl (Except.error.inj h).symm)
      · exact Or.inl (Except.error.inj h).symm
      · exact Or.inr (Or.inr (Except.error.inj h).symm)
  | cons c file =>
      simp only [read1, bind, Except.bind] at h
      split_ifs at h
      · exact Or.inr (Or.inl (Except.error.inj h).symm)
      · exact Or.inr (Or.inl (Except.error.inj h).symm)
      · exact Or.inr (Or.inr (Except.error.inj h).symm)
      · exact Or.inr (Or.inr (Except.error.inj h).symm)

theorem readUnit_error {e : Failure} (h : readUnit index s = .error e) : Illegal index e := by
  obtain ⟨size, opstr_size, file⟩ := s
  rcases file with _ | ⟨a, _ | ⟨b, file⟩⟩
  · exact Or.inl (Except.error.inj h).symm
  · simp only [readUnit, read1, bind, Except.bind] at h
    split_ifs at h
    · exact Or.inr (Or.inr (Except.error.inj h).symm)
    · exact Or.inr (Or.inl (Except.error.inj h).symm)
    · exact Or.inl (Except.error.inj h).symm
  · simp only [readUnit, read1, bind, Except.bind] at h
    split_ifs at h
    · exact Or.inr (Or.inr (Except.error.inj h).symm)
    · exact Or.inr (Or.inl (Except.error.inj h).symm)
    · exact Or.inr (Or.inl (Except.error.inj h).symm)
    · exact readThird_error h

end

/-! ### Strings -/

section
variable {javaIdent : UInt16 → Bool} {buffer : tmp_buffer_t} {index : UInt16} {is_sde : Bool} {n : Nat} {s s' : load_t}
  {cw : UInt16} {cursor : cursor_t}

@[simp] theorem noteSymbol_cursor (cw : UInt16) (s : load_t) :
    (noteSymbol javaIdent is_sde cw s).cursor = s.cursor := by
  unfold noteSymbol
  split_ifs <;> rfl

@[simp] theorem noteSymbol_po (cw : UInt16) (s : load_t) : (noteSymbol javaIdent is_sde cw s).po = s.po := by
  unfold noteSymbol
  split_ifs <;> rfl

/-- The buffer has room for the rest, and the size field is right if each byte that is left is a code unit. -/
structure Counts (buffer : tmp_buffer_t) (s : load_t) : Prop where
  size : 0 < s.cursor.size
  room : s.po.length + s.cursor.size ≤ buffer.capacity
  opstr_size : s.cursor.opstr_size = UInt16.ofNat (s.po.length + s.cursor.size)

def nextUnit (javaIdent : UInt16 → Bool) (is_sde : Bool) (cw : UInt16) (cursor : cursor_t) (s : load_t) : load_t :=
  noteSymbol javaIdent is_sde cw { s with cursor := cursor, po := s.po ++ [cw], cw := cw }

theorem nextUnit_cursor : (nextUnit javaIdent is_sde cw cursor s).cursor = cursor := noteSymbol_cursor _ _

theorem nextUnit_po : (nextUnit javaIdent is_sde cw cursor s).po = s.po ++ [cw] := noteSymbol_po _ _

theorem loadUnits_next (hread : readUnit index s.cursor = .ok (cw, cursor)) (hroom : s.po.length < buffer.capacity) :
    loadUnits javaIdent buffer index is_sde (n + 1) s =
      if cursor.size = 0 then .ok (nextUnit javaIdent is_sde cw cursor s)
      else loadUnits javaIdent buffer index is_sde n (nextUnit javaIdent is_sde cw cursor s) := by
  have hstore : store buffer s.po cw = .ok (s.po ++ [cw]) := if_pos hroom
  simp only [loadUnits, hread, hstore, bind, Except.bind, noteSymbol_cursor]
  rfl

theorem loadUnits_error {e : Failure} (hread : readUnit index s.cursor = .error e) :
    loadUnits javaIdent buffer index is_sde (n + 1) s = .error e := by
  change readUnit _ _ >>= _ = _
  rw [hread]
  rfl

theorem Counts.next (javaIdent : UInt16 → Bool) (is_sde : Bool) (h : Counts buffer s) {symbol : List UInt8}
    (hread : ReadsUnit s.cursor cw cursor symbol) :
    s.po.length < buffer.capacity ∧
      cursor.opstr_size = UInt16.ofNat ((nextUnit javaIdent is_sde cw cursor s).po.length + cursor.size) ∧
      (cursor.size ≠ 0 → Counts buffer (nextUnit javaIdent is_sde cw cursor s)) := by
  have hsymbol := hread.denotes.length_pos
  have hsize := hread.size
  have hroom := h.room
  have hlen : (nextUnit javaIdent is_sde cw cursor s).po.length = s.po.length + 1 := by
    rw [nextUnit_po, List.length_append, List.length_singleton]
  have hopstr : cursor.opstr_size = UInt16.ofNat ((nextUnit javaIdent is_sde cw cursor s).po.length + cursor.size) := by
    have hfield := hread.opstr_size
    rw [h.opstr_size, hsize] at hfield
    rw [hlen]
    apply (UInt16.add_left_inj (UInt16.ofNat symbol.length)).1
    rw [hfield, ← UInt16.ofNat_add, show (1 : UInt16) = UInt16.ofNat 1 from rfl, ← UInt16.ofNat_add]
    congr 1
    omega
  refine ⟨by omega, hopstr, fun hmore => ⟨?_, ?_, ?_⟩⟩
  · rw [nextUnit_cursor]
    exact Nat.pos_of_ne_zero hmore
  · rw [hlen, nextUnit_cursor]
    omega
  · rw [nextUnit_cursor]
    exact hopstr

theorem loadUnits_of (javaIdent : UInt16 → Bool) (index : UInt16) (is_sde : Bool) (hcounts : Counts buffer s)
    (hfuel : s.cursor.size ≤ n) {bytes rest : List UInt8} {units : List UInt16} (h : Denotes bytes units)
    (hfile : s.cursor.file = bytes ++ rest)
    (hsize : bytes.length = s.cursor.size) :
    ∃ s', loadUnits javaIdent buffer index is_sde n s = .ok s' ∧ s'.po = s.po ++ units ∧ s'.cursor.file = rest ∧
      s'.cursor.opstr_size = UInt16.ofNat s'.po.length := by
  have hpos := hcounts.size
  induction n generalizing s bytes units with
  | zero => omega
  | succ n ih =>
      cases h with
      | nil => exact absurd hsize (by rw [List.length_nil]; omega)
      | @cons symbol bytes u units hsymbol hbytes =>
          rw [List.length_append] at hsize
          have hread : ReadsUnit s.cursor u
              ⟨bytes.length, s.cursor.opstr_size + 1 - UInt16.ofNat symbol.length, bytes ++ rest⟩ symbol :=
            ⟨hsymbol, by rw [hfile, List.append_assoc], hsize.symm, UInt16.sub_add_cancel _ _⟩
          obtain ⟨hroom, hopstr, hnext⟩ := hcounts.next javaIdent is_sde hread
          rw [loadUnits_next (readUnit_of hread) hroom]
          by_cases hmore : bytes.length = 0
          · rw [if_pos hmore]
            obtain rfl := List.length_eq_zero_iff.1 hmore
            cases hunits : units with
            | nil =>
                refine ⟨_, rfl, nextUnit_po, ?_, ?_⟩
                · rw [nextUnit_cursor]
                  rfl
                · rw [nextUnit_cursor]
                  exact hopstr
            | cons v units =>
                have hle := hbytes.length_le
                rw [hunits] at hle
                exact absurd hle (Nat.not_succ_le_zero _)
          · rw [if_neg hmore]
            have hpos' := hsymbol.length_pos
            have hless : bytes.length ≤ n := by omega
            obtain ⟨s', hload, hpo, hrest, hfield⟩ := ih (hnext hmore) (by rwa [nextUnit_cursor]) hbytes
              (by rw [nextUnit_cursor]) (by rw [nextUnit_cursor]) (hnext hmore).size
            refine ⟨s', hload, ?_, hrest, hfield⟩
            rw [hpo, nextUnit_po, List.append_assoc]
            rfl

theorem loadUnits_ok (hpos : 0 < s.cursor.size) (h : loadUnits javaIdent buffer index is_sde n s = .ok s') :
    ∃ bytes units, Denotes bytes units ∧ s.cursor.file = bytes ++ s'.cursor.file ∧ bytes.length = s.cursor.size := by
  induction n generalizing s with
  | zero => cases h
  | succ n ih =>
      cases hread : readUnit index s.cursor with
      | error e =>
          rw [loadUnits_error hread] at h
          cases h
      | ok r =>
          obtain ⟨cw, cursor⟩ := r
          obtain ⟨symbol, hsymbol⟩ := readUnit_ok hread hpos
          by_cases hroom : s.po.length < buffer.capacity
          · rw [loadUnits_next hread hroom] at h
            by_cases hmore : cursor.size = 0
            · rw [if_pos hmore] at h
              obtain rfl := Except.ok.inj h
              refine ⟨symbol ++ [], [cw], .cons hsymbol.denotes .nil, ?_, ?_⟩
              · rw [nextUnit_cursor, List.append_nil]
                exact hsymbol.file
              · rw [List.append_nil, hsymbol.size, hmore, Nat.add_zero]
            · rw [if_neg hmore] at h
              obtain ⟨bytes, units, hbytes, hfile, hsize⟩ := ih (by rw [nextUnit_cursor]; omega) h
              rw [nextUnit_cursor] at hfile hsize
              refine ⟨symbol ++ bytes, cw :: units, .cons hsymbol.denotes hbytes, ?_, ?_⟩
              · rw [hsymbol.file, hfile, List.append_assoc]
              · rw [List.length_append, hsize, hsymbol.size]
          · have hstore : store buffer s.po cw = .error .overrun := if_neg hroom
            simp only [loadUnits, hread, hstore, bind, Except.bind] at h
            cases h

theorem loadUnits_illegal {e : Failure} (hcounts : Counts buffer s) (hfuel : s.cursor.size ≤ n)
    (h : loadUnits javaIdent buffer index is_sde n s = .error e) : Illegal index e := by
  have hpos := hcounts.size
  induction n generalizing s with
  | zero => omega
  | succ n ih =>
      cases hread : readUnit index s.cursor with
      | error e' =>
          rw [loadUnits_error hread] at h
          obtain rfl := Except.error.inj h
          exact readUnit_error hread
      | ok r =>
          obtain ⟨cw, cursor⟩ := r
          obtain ⟨symbol, hsymbol⟩ := readUnit_ok hread hpos
          obtain ⟨hroom, _, hnext⟩ := hcounts.next javaIdent is_sde hsymbol
          rw [loadUnits_next hread hroom] at h
          by_cases hmore : cursor.size = 0
          · rw [if_pos hmore] at h
            cases h
          · rw [if_neg hmore] at h
            have hsize := hsymbol.size
            have hlen := hsymbol.denotes.length_pos
            exact ih (hnext hmore) (by rw [nextUnit_cursor]; omega) h (hnext hmore).size

/-! ### Calls -/

/-- The string has been kept, not only the message that it has an illegal byte. -/
def Accepted (r : Except Failure loaded_t) : Prop := ∃ loaded opstr, r = .ok loaded ∧ loaded.opstr = some opstr

/-- What a call keeps of the code units, and what it leaves of the file. -/
def Stores (r : Except Failure loaded_t) (units : List UInt16) (rest : List UInt8) : Prop :=
  ∃ loaded opstr, r = .ok loaded ∧ loaded.opstr = some opstr ∧ opstr.size.toNat = units.length ∧
    loaded.blob.getD [] = units ∧ loaded.file = rest

theorem append_tmp_buffer_capacity (size : UInt16) (buffer : tmp_buffer_t) :
    size.toNat ≤ (append_tmp_buffer size.toNat buffer).capacity := by
  have hfits := buffer.fits
  unfold append_tmp_buffer
  split_ifs with h
  · dsimp only
    omega
  · rw [UInt16.ofNat_toNat] at h
    exact (UInt16.le_iff_toNat_le.1 (UInt16.not_lt.1 h)).trans hfits

theorem finishUtf8_eq (buffer : tmp_buffer_t) (flags : UInt16) (s : load_t) :
    ∃ result flags', finishUtf8 false is_sde buffer flags s =
      .ok ⟨result, some ⟨s.cursor.opstr_size, flags'⟩, some s.po, none, buffer, s.cursor.file⟩ := by
  unfold finishUtf8
  rw [if_neg fun h => nomatch h.2.2.1]
  exact ⟨_, _, rfl⟩

section
variable (javaIdent buffer index) (opstr : _STROP_) (file : List UInt8)

def startUnits : load_t := ⟨⟨opstr.size.toNat, opstr.size, file⟩, [], 0, 0, 0⟩

theorem counts_start (h : opstr.size ≠ 0) :
    Counts (append_tmp_buffer opstr.size.toNat buffer) (startUnits opstr file) where
  size := Nat.pos_of_ne_zero fun hzero => h (UInt16.toNat_inj.1 hzero)
  room := (Nat.zero_add _).trans_le (append_tmp_buffer_capacity opstr.size buffer)
  opstr_size := by
    rw [show (startUnits opstr file).po.length = 0 from rfl, Nat.zero_add]
    exact UInt16.ofNat_toNat.symm

theorem loadString_ok (hzero : opstr.size ≠ 0) {s' : load_t}
    (hload : loadUnits javaIdent (append_tmp_buffer opstr.size.toNat buffer) index (decide (index = 0xFFFF))
      opstr.size.toNat (startUnits opstr file) = .ok s') :
    ∃ result flags, loadString javaIdent false buffer index opstr file =
      .ok ⟨result, some ⟨s'.cursor.opstr_size, flags⟩, some s'.po, none, append_tmp_buffer opstr.size.toNat buffer,
        s'.cursor.file⟩ := by
  unfold startUnits at hload
  unfold loadString
  simp only [if_neg hzero, hload]
  exact finishUtf8_eq _ _ _

theorem loadString_error (hzero : opstr.size ≠ 0) {e : Failure}
    (hload : loadUnits javaIdent (append_tmp_buffer opstr.size.toNat buffer) index (decide (index = 0xFFFF))
      opstr.size.toNat (startUnits opstr file) = .error e) :
    loadString javaIdent false buffer index opstr file = .error e ∨
      ∃ loaded, loadString javaIdent false buffer index opstr file = .ok loaded ∧ loaded.opstr = none := by
  unfold startUnits at hload
  unfold loadString
  simp only [if_neg hzero, hload]
  split_ifs
  · exact Or.inr ⟨_, rfl, rfl⟩
  · exact Or.inl rfl

variable {file}

theorem loadString_stores {bytes rest : List UInt8} {units : List UInt16} (h : Denotes bytes units)
    (hsize : bytes.length = opstr.size.toNat) :
    Stores (loadString javaIdent false buffer index opstr (bytes ++ rest)) units rest := by
  have hle := h.length_le
  have hlt := opstr.size.toNat_lt
  by_cases hzero : opstr.size = 0
  · rw [hzero] at hsize
    obtain rfl := List.length_eq_zero_iff.1 hsize
    obtain rfl := List.length_eq_zero_iff.1 (Nat.le_zero.1 hle)
    unfold loadString
    exact ⟨_, opstr, if_pos hzero, rfl, by rw [hzero]; rfl, rfl, rfl⟩
  · obtain ⟨s', hload, hpo, hrest, hfield⟩ := loadUnits_of javaIdent index (decide (index = 0xFFFF))
      (counts_start buffer opstr _ hzero) le_rfl h rfl hsize
    obtain ⟨result, flags, hfinish⟩ := loadString_ok javaIdent buffer index opstr _ hzero hload
    have hunits : s'.po = units := hpo
    refine ⟨_, _, hfinish, rfl, ?_, hunits, hrest⟩
    dsimp only
    rw [hfield, hunits, UInt16.toNat_ofNat']
    exact Nat.mod_eq_of_lt (by omega)

theorem loadString_accepted (h : Accepted (loadString javaIdent false buffer index opstr file)) :
    ∃ bytes rest units, file = bytes ++ rest ∧ bytes.length = opstr.size.toNat ∧ Denotes bytes units := by
  by_cases hzero : opstr.size = 0
  · exact ⟨[], file, [], rfl, by rw [hzero]; rfl, .nil⟩
  cases hload : loadUnits javaIdent (append_tmp_buffer opstr.size.toNat buffer) index (decide (index = 0xFFFF))
      opstr.size.toNat (startUnits opstr file) with
  | ok s' =>
      obtain ⟨bytes, units, hbytes, hfile, hsize⟩ := loadUnits_ok (counts_start buffer opstr file hzero).size hload
      exact ⟨bytes, _, units, hfile, hsize, hbytes⟩
  | error e =>
      obtain ⟨loaded, opstr', hok, hkept⟩ := h
      obtain herror | ⟨loaded', hok', hnone⟩ := loadString_error javaIdent buffer index opstr file hzero hload
      · cases hok.symm.trans herror
      · obtain rfl := Except.ok.inj (hok.symm.trans hok')
        cases hkept.symm.trans hnone

theorem loadString_illegal {e : Failure} (h : loadString javaIdent false buffer index opstr file = .error e) :
    Illegal index e := by
  by_cases hzero : opstr.size = 0
  · unfold loadString at h
    cases h.symm.trans (if_pos hzero)
  cases hload : loadUnits javaIdent (append_tmp_buffer opstr.size.toNat buffer) index (decide (index = 0xFFFF))
      opstr.size.toNat (startUnits opstr file) with
  | ok s' =>
      obtain ⟨result, flags, hok⟩ := loadString_ok javaIdent buffer index opstr file hzero hload
      cases h.symm.trans hok
  | error e' =>
      have hillegal := loadUnits_illegal (counts_start buffer opstr file hzero) le_rfl hload
      obtain herror | ⟨loaded, hok, _⟩ := loadString_error javaIdent buffer index opstr file hzero hload
      · obtain rfl := Except.error.inj (h.symm.trans herror)
        exact hillegal
      · cases h.symm.trans hok

end

/-- Where the bytes of a string are, and how many of them it should have. -/
inductive Declares (index : UInt16) (co : UInt64) : List UInt8 → Nat → List UInt8 → Prop
  | constant {hi lo file} : index ≠ 0xFFFF → Declares index co (hi :: lo :: file) (hi.toNat * 256 + lo.toNat) file
  | extension {file} : index = 0xFFFF → Declares index co file (co.toNat % 65536) file

/-- A call accepts exactly the strings that are well-formed, without a byte more or less than declared, and keeps the
code units and their number. -/
structure LoadsUtf8 (javaIdent : UInt16 → Bool) (buffer : tmp_buffer_t) (index : UInt16) (co : UInt64)
    (file : List UInt8) : Prop where
  inside : LoadUtf8 javaIdent false buffer index co file ≠ .error .overrun
  ends : LoadUtf8 javaIdent false buffer index co file ≠ .error .endless
  accepts : Accepted (LoadUtf8 javaIdent false buffer index co file) ↔ ∃ size bytes rest units,
    Declares index co file size (bytes ++ rest) ∧ bytes.length = size ∧ Denotes bytes units
  stores : ∀ {size bytes rest units}, Declares index co file size (bytes ++ rest) → bytes.length = size →
    Denotes bytes units → Stores (LoadUtf8 javaIdent false buffer index co file) units rest

theorem toNat_read2 (hi lo : UInt8) : (hi.toUInt16 <<< 8 ||| lo.toUInt16).toNat = hi.toNat * 256 + lo.toNat := by
  have hhi := hi.toNat_lt
  have hlo : lo.toNat < 2 ^ 8 := lo.toNat_lt
  rw [UInt16.toNat_or, UInt16.toNat_shiftLeft, UInt8.toNat_toUInt16, UInt8.toNat_toUInt16]
  rw [show (8 : UInt16).toNat % 16 = 8 from rfl, Nat.mod_eq_of_lt (by rw [Nat.shiftLeft_eq]; omega),
    ← Nat.shiftLeft_add_eq_or_of_lt hlo, Nat.shiftLeft_eq]

theorem LoadUtf8_cases (javaIdent : UInt16 → Bool) (buffer : tmp_buffer_t) (index : UInt16) (co : UInt64)
    (file : List UInt8) :
    (LoadUtf8 javaIdent false buffer index co file = .error .errtrunc ∧
        ∀ size rest, ¬Declares index co file size rest) ∨
      ∃ opstr rest, LoadUtf8 javaIdent false buffer index co file = loadString javaIdent false buffer index opstr rest ∧
        ∀ size rest', Declares index co file size rest' ↔ size = opstr.size.toNat ∧ rest' = rest := by
  unfold LoadUtf8
  by_cases hsde : index = 0xFFFF
  · refine Or.inr ⟨⟨co.toUInt16, 0⟩, file, if_pos hsde, fun size rest' => ⟨fun h => ?_, ?_⟩⟩
    · cases h with
      | constant hnot => exact absurd hsde hnot
      | extension _ => exact ⟨(UInt64.toNat_toUInt16 co).symm, rfl⟩
    · rintro ⟨rfl, rfl⟩
      rw [show (⟨co.toUInt16, 0⟩ : _STROP_).size.toNat = co.toNat % 65536 from UInt64.toNat_toUInt16 co]
      exact .extension hsde
  · rw [if_neg hsde]
    rcases file with _ | ⟨hi, _ | ⟨lo, file⟩⟩
    · refine Or.inl ⟨rfl, fun size rest h => ?_⟩
      cases h with
      | extension h => exact hsde h
    · refine Or.inl ⟨rfl, fun size rest h => ?_⟩
      cases h with
      | extension h => exact hsde h
    refine Or.inr ⟨_, file, rfl, fun size rest' => ⟨fun h => ?_, ?_⟩⟩
    · cases h with
      | constant _ => exact ⟨(toNat_read2 hi lo).symm, rfl⟩
      | extension h => exact absurd h hsde
    · rintro ⟨rfl, rfl⟩
      dsimp only
      rw [toNat_read2]
      exact .constant hsde

theorem loadsUtf8 (javaIdent : UInt16 → Bool) (buffer : tmp_buffer_t) (index : UInt16) (co : UInt64)
    (file : List UInt8) : LoadsUtf8 javaIdent buffer index co file := by
  obtain ⟨htrunc, hnone⟩ | ⟨opstr, rest, hload, hdeclares⟩ := LoadUtf8_cases javaIdent buffer index co file
  · constructor
    · rw [htrunc]
      exact fun h => nomatch h
    · rw [htrunc]
      exact fun h => nomatch h
    · rw [htrunc]
      refine iff_of_false ?_ ?_
      · rintro ⟨loaded, opstr, hok, _⟩
        cases hok
      · rintro ⟨size, bytes, rest, units, hdecl, _⟩
        exact hnone _ _ hdecl
    · exact fun hdecl => (hnone _ _ hdecl).elim
  · have hillegal {e : Failure} (h : LoadUtf8 javaIdent false buffer index co file = .error e) : Illegal index e :=
      loadString_illegal javaIdent buffer index opstr (hload ▸ h)
    have hstores {size bytes rest' units} (hdecl : Declares index co file size (bytes ++ rest'))
        (hsize : bytes.length = size) (h : Denotes bytes units) :
        Stores (LoadUtf8 javaIdent false buffer index co file) units rest' := by
      obtain ⟨rfl, rfl⟩ := (hdeclares _ _).1 hdecl
      rw [hload]
      exact loadString_stores javaIdent buffer index opstr h hsize
    refine ⟨?_, ?_, ⟨fun h => ?_, ?_⟩, hstores⟩
    · intro h
      obtain h | h | h := hillegal h
      · cases h
      · cases h
      · cases h
    · intro h
      obtain h | h | h := hillegal h
      · cases h
      · cases h
      · cases h
    · rw [hload] at h
      obtain ⟨bytes, rest', units, hfile, hsize, hbytes⟩ := loadString_accepted javaIdent buffer index opstr h
      exact ⟨_, bytes, rest', units, (hdeclares _ _).2 ⟨rfl, hfile.symm⟩, hsize, hbytes⟩
    · rintro ⟨size, bytes, rest', units, hdecl, hsize, hbytes⟩
      obtain ⟨loaded, opstr', hok, hkept, _⟩ := hstores hdecl hsize hbytes
      exact ⟨loaded, opstr', hok, hkept⟩

example : (LoadUtf8 (fun _ => false) false ⟨0, 0, le_rfl⟩ 1 0 [0, 3, 0xC0, 0x80, 0x41]).toOption.map loaded_t.blob =
    some (some [0, 0x41]) := by decide

end

/-- The two bytes of a length. -/
def writeSize (n : Nat) : List UInt8 := [UInt8.ofNat (n / 256), UInt8.ofNat (n % 256)]

/-- A constant is kept exactly if it is what the format writes for its code units. -/
theorem stores_iff_written (javaIdent : UInt16 → Bool) (buffer : tmp_buffer_t) {index : UInt16} (hindex : index ≠ 0xFFFF)
    (co : UInt64) (file rest : List UInt8) (units : List UInt16) :
    Stores (LoadUtf8 javaIdent false buffer index co file) units rest ↔ (units.flatMap encode).length < 65536 ∧
      file = writeSize (units.flatMap encode).length ++ (units.flatMap encode ++ rest) := by
  rcases LoadUtf8_cases javaIdent buffer index co file with ⟨htrunc, hnone⟩ | ⟨opstr, body, hload, hdeclares⟩
  · rw [htrunc]
    refine iff_of_false ?_ ?_
    · rintro ⟨loaded, opstr, hok, -⟩
      cases hok
    · rintro ⟨-, rfl⟩
      exact hnone _ _ (.constant hindex)
  rw [hload]
  constructor
  · intro hstores
    obtain ⟨loaded, kept, hok, hkept, -, rfl, rfl⟩ := id hstores
    obtain ⟨bytes, rest', units', rfl, hsize, hbytes⟩ := loadString_accepted javaIdent buffer index opstr ⟨loaded, kept, hok, hkept⟩
    obtain ⟨loaded', kept', hok', -, -, hunits, hrest⟩ := loadString_stores javaIdent buffer index opstr hbytes hsize
    obtain rfl := Except.ok.inj (hok.symm.trans hok')
    rw [hunits, hrest, ← denotes_iff.mp hbytes]
    have hdecl := (hdeclares _ _).mpr ⟨hsize, rfl⟩
    generalize bytes.length = size at hdecl ⊢
    cases hdecl with
    | extension hext => exact absurd hext hindex
    | @constant hi lo _ _ =>
        have hhi := hi.toNat_lt
        have hlo := lo.toNat_lt
        have hhi' : hi = UInt8.ofNat ((hi.toNat * 256 + lo.toNat) / 256) := eq_ofNat (by omega)
        have hlo' : lo = UInt8.ofNat ((hi.toNat * 256 + lo.toNat) % 256) := eq_ofNat (by omega)
        refine ⟨by omega, ?_⟩
        rw [writeSize, ← hhi', ← hlo']
        rfl
  · rintro ⟨hlt, rfl⟩
    obtain ⟨hsize, rfl⟩ := (hdeclares _ _).mp (.constant hindex)
    rw [toNat_ofNat (by omega), toNat_ofNat (by omega)] at hsize
    exact loadString_stores javaIdent buffer index opstr (denotes_iff.mpr rfl) (by omega)

/-- The letter A and zero, in front of another byte. -/
theorem stores_iff_written_zero :
    Stores (LoadUtf8 (fun _ => false) false ⟨0, 0, Nat.le_refl 0⟩ 1 0 [0, 3, 0x41, 0xC0, 0x80, 7]) [0x41, 0] [7] :=
  (stores_iff_written (fun _ => false) ⟨0, 0, Nat.le_refl 0⟩ (by decide) 0 _ [7] [0x41, 0]).mpr
    ⟨by decide, by decide⟩

end IdaSdk.JavaUtf8
