import IdaSdk.PdbSymbols
import Mathlib.Data.List.Forall2

/-!
The replies with symbols. A reply is the number of symbols and their records; the client takes it apart again if the
number and the lengths in it fit their fields.
-/

namespace IdaSdk.PdbSymbols

variable {p : Packers} {sym : DiaSymbol}

theorem encode_length (x : Item) (h : x.type ≠ .t_string) : (encode p x).length ≤ 13 := by
  cases x with
  | string s => exact absurd rfl h
  | bool x => exact (by decide : 1 ≤ 13)
  | dword x => exact Nat.le_trans (p.dd_packed_size x) (by decide)
  | dword64 x => exact Nat.le_trans (p.dq_packed_size x) (by decide)
  | long x => exact Nat.le_trans (p.dd_packed_size _) (by decide)
  | ulonglong x => exact Nat.le_trans (p.dq_packed_size x) (by decide)
  | variant x =>
      have hcode := p.dw_packed_size x.vt.code
      have hmember : (pack_member p x).length ≤ 10 := by
        obtain ⟨vt, bytes⟩ := x
        cases vt with
        | VT_I2 | VT_UI2 => exact Nat.le_trans (p.dw_packed_size _) (by decide)
        | VT_I4 | VT_UI4 | VT_R4 | VT_INT | VT_UINT => exact Nat.le_trans (p.dd_packed_size _) (by decide)
        | VT_R8 | VT_I8 | VT_UI8 => exact p.dq_packed_size _
        | VT_I1 | VT_UI1 => exact (by decide : 1 ≤ 10)
      show (p.dw.pack x.vt.code ++ pack_member p x).length ≤ 13
      rw [List.length_append]
      omega

theorem values_length (ts : List Nat) (h : ∀ t ∈ ts, type_of t ≠ some .t_string) :
    ((values (sent sym) ts).flatMap (encode p)).length ≤ 13 * ts.length := by
  induction ts with
  | nil => exact Nat.le_refl 0
  | cons t ts ih =>
      have ih := ih fun u hu => h u (List.mem_cons_of_mem t hu)
      rw [values] at ih ⊢
      cases hx : sent sym t with
      | none =>
          rw [List.filterMap_cons_none hx, List.length_cons]
          omega
      | some x =>
          have hne : x.type ≠ .t_string := fun heq =>
            h t List.mem_cons_self (heq ▸ (sent_properties sym).type_of t x hx)
          have := encode_length (p := p) x hne
          rw [List.filterMap_cons_some hx, List.flatMap_cons, List.length_append, List.length_cons]
          omega

theorem storage_length (h : 2 ^ 32 ≤ (sym_storage p sym).length) :
    ∃ s, sym.name = some s ∧ (sym_storage p sym).length ≤ s.val.length + 417 := by
  have hrange : List.range t_end = List.range t_name ++ t_name :: List.range' (t_name + 1) 3 := by decide
  have hbefore : ((values (sent sym) (List.range t_name)).flatMap (encode p)).length ≤ 377 :=
    values_length _ (by decide)
  have hafter : ((values (sent sym) (List.range' (t_name + 1) 3)).flatMap (encode p)).length ≤ 39 :=
    values_length _ (by decide)
  have hsplit : sym_storage p sym = (values (sent sym) (List.range t_name)).flatMap (encode p) ++
      (((sent sym t_name).toList).flatMap (encode p) ++
        (values (sent sym) (List.range' (t_name + 1) 3)).flatMap (encode p)) := by
    rw [storage_eq, hrange, values, List.filterMap_append, List.flatMap_append, values, values]
    congr 1
    cases hx : sent sym t_name with
    | none => rw [List.filterMap_cons_none hx]; rfl
    | some x => rw [List.filterMap_cons_some hx, List.flatMap_cons]; simp
  have hlen := congrArg List.length hsplit
  rw [List.length_append, List.length_append] at hlen
  rw [sent_name] at hlen
  cases hname : sym.name with
  | none =>
      rw [hname] at hlen
      simp only [Option.map_none, Option.toList_none, List.flatMap_nil, List.length_nil] at hlen
      omega
  | some s =>
      rw [hname] at hlen
      simp only [Option.map_some, Option.toList_some, List.flatMap_singleton, encode, List.length_append,
        List.length_singleton] at hlen
      exact ⟨s, rfl, by omega⟩

/-! ### Records -/

variable (syms : List DiaSymbol)

/-- The symbols with an index are those that are sent. -/
def indexed : List DiaSymbol := syms.filter fun sym => (sym.dword t_symIndexId).isSome

def record_tail (p : Packers) (sym : DiaSymbol) : List UInt8 :=
  p.dq.pack (UInt64.ofNat (present_of p sym)) ++
    (p.dd.pack (UInt32.ofNat (sym_storage p sym).length) ++ sym_storage p sym)

def record (p : Packers) (sym : DiaSymbol) : List UInt8 :=
  p.dd.pack ((sym.dword t_symIndexId).getD 0) ++ record_tail p sym

theorem filterMap_pack (p : Packers) (syms : List DiaSymbol) :
    syms.filterMap (pack_symbol p) = (indexed syms).map (record p) := by
  induction syms with
  | nil => rfl
  | cons sym syms ih =>
      rw [indexed] at ih ⊢
      cases hid : sym.dword t_symIndexId with
      | none =>
          rw [List.filterMap_cons_none (by rw [pack_symbol, hid]; rfl), List.filter_cons_of_neg (by rw [hid]; decide), ih]
      | some id =>
          have hpack : pack_symbol p sym = some (record p sym) := by
            rw [pack_symbol, record, record_tail, hid]
            rfl
          rw [List.filterMap_cons_some hpack, List.filter_cons_of_pos (by rw [hid]; rfl), ih]
          rfl

variable {id : UInt32}

theorem build_record (hid : sym.dword t_symIndexId = some id) (rest : List UInt8) :
    build_and_register_sym_data p (record p sym ++ rest) =
      (sym_data p (UInt64.ofNat (present_of p sym)).toNat
        ((sym_storage p sym).take ((sym_storage p sym).length % 2 ^ 32))).map fun d =>
          ((id, d), (sym_storage p sym).drop ((sym_storage p sym).length % 2 ^ 32) ++ rest) := by
  have hsz : (UInt32.ofNat (sym_storage p sym).length).toNat = (sym_storage p sym).length % 2 ^ 32 := UInt32.toNat_ofNat'
  have hle : (sym_storage p sym).length % 2 ^ 32 ≤ (sym_storage p sym).length := Nat.mod_le _ _
  rw [build_and_register_sym_data, record, record_tail, hid]
  simp only [Option.getD_some, List.append_assoc, Codec.unpack_pack, hsz]
  rw [if_pos (by rw [List.length_append]; omega), List.take_append_of_le_length hle, List.drop_append_of_le_length hle]

/-- The lengths and the virtual address of a symbol can be sent. -/
def Fits (p : Packers) (sym : DiaSymbol) : Prop :=
  (sym_storage p sym).length < 2 ^ 32 ∧ ∀ va, sym.virtualAddress = some va → as_long va = va

/-- The created symbols, in the order of those that were sent. -/
def Right (sym : DiaSymbol) (reg : UInt32 × sym_data_t) : Prop :=
  sym.dword t_symIndexId = some reg.1 ∧ Answers reg.2 sym

theorem build_fits (hid : sym.dword t_symIndexId = some id) (h : (sym_storage p sym).length < 2 ^ 32)
    (rest : List UInt8) :
    build_and_register_sym_data p (record p sym ++ rest) = .ok ((id, created p sym), rest) := by
  rw [build_record hid, Nat.mod_eq_of_lt h, List.take_length, List.drop_length, sym_data_storage]
  rfl

theorem not_right_of_long (hid : sym.dword t_symIndexId = some id)
    (h : 2 ^ 32 ≤ (sym_storage p sym).length) {rest rest' : List UInt8} {reg : UInt32 × sym_data_t}
    (hbuild : build_and_register_sym_data p (record p sym ++ rest) = .ok (reg, rest')) : ¬ Right sym reg := by
  intro hright
  obtain ⟨s, hs, hlen⟩ := storage_length h
  have hname := hright.2.name
  rw [hs] at hname
  rw [build_record hid] at hbuild
  cases hd : sym_data p (UInt64.ofNat (present_of p sym)).toNat
      ((sym_storage p sym).take ((sym_storage p sym).length % 2 ^ 32)) with
  | error e =>
      rw [hd] at hbuild
      cases hbuild
  | ok d =>
      rw [hd] at hbuild
      obtain ⟨rfl, -⟩ := Prod.mk.inj (Except.ok.inj hbuild)
      have hshort := sym_data_strings hd (get_string_mem hname)
      rw [List.length_take] at hshort
      omega

variable {regs : List (UInt32 × sym_data_t)}

theorem build_loop_length {n : Nat} {raw rest : List UInt8}
    (h : build_loop p n raw = .ok (regs, rest)) : regs.length = n := by
  induction n generalizing raw regs with
  | zero =>
      obtain ⟨rfl, -⟩ := Prod.mk.inj (Except.ok.inj h)
      rfl
  | succ n ih =>
      rw [build_loop] at h
      cases hb : build_and_register_sym_data p raw with
      | error e =>
          rw [hb] at h
          cases h
      | ok r =>
          rw [hb] at h
          dsimp only at h
          cases hl : build_loop p n r.2 with
          | error e =>
              rw [hl] at h
              cases h
          | ok q =>
              rw [hl] at h
              obtain ⟨rfl, rfl⟩ := Prod.mk.inj (Except.ok.inj h)
              exact congrArg (· + 1) (ih hl)

theorem build_loop_cons (hid : sym.dword t_symIndexId = some id)
    (h : (sym_storage p sym).length < 2 ^ 32) (n : Nat) (rest : List UInt8) :
    build_loop p (n + 1) (record p sym ++ rest) =
      (build_loop p n rest).map fun r => ((id, created p sym) :: r.1, r.2) := by
  rw [build_loop, build_fits hid h]
  dsimp only
  cases build_loop p n rest with
  | error e => rfl
  | ok r => rfl

variable (syms : List DiaSymbol)

theorem build_loop_iff (h : ∀ sym ∈ syms, (sym.dword t_symIndexId).isSome = true)
    (rest : List UInt8) :
    (∃ regs rest', build_loop p syms.length (syms.flatMap (record p) ++ rest) = .ok (regs, rest') ∧
      List.Forall₂ Right syms regs) ↔ ∀ sym ∈ syms, Fits p sym := by
  induction syms with
  | nil =>
      constructor
      · intro _ sym hsym
        cases hsym
      · intro _
        exact ⟨[], rest, rfl, List.Forall₂.nil⟩
  | cons sym syms ih =>
      rw [List.forall_mem_cons] at h
      obtain ⟨id, hid⟩ := Option.isSome_iff_exists.mp h.1
      have ih := ih h.2
      rw [List.flatMap_cons, List.append_assoc, List.length_cons, List.forall_mem_cons]
      rcases Nat.lt_or_ge (sym_storage p sym).length (2 ^ 32) with hlt | hge
      · rw [build_loop_cons hid hlt]
        constructor
        · rintro ⟨regs, rest', hok, hall⟩
          cases hl : build_loop p syms.length (syms.flatMap (record p) ++ rest) with
          | error e =>
              rw [hl] at hok
              cases hok
          | ok r =>
              rw [hl] at hok
              obtain ⟨rfl, rfl⟩ := Prod.mk.inj (Except.ok.inj hok)
              cases hall with
              | cons hhead htail =>
                  exact ⟨⟨hlt, (created_answers p sym).mp hhead.2⟩, ih.mp ⟨r.1, r.2, hl, htail⟩⟩
        · rintro ⟨hfits, hall⟩
          obtain ⟨regs, rest', hok, hregs⟩ := ih.mpr hall
          refine ⟨(id, created p sym) :: regs, rest', ?_, List.Forall₂.cons ⟨hid, (created_answers p sym).mpr hfits.2⟩ hregs⟩
          rw [hok]
          rfl
      · constructor
        · rintro ⟨regs, rest', hok, hall⟩
          rw [build_loop] at hok
          cases hb : build_and_register_sym_data p (record p sym ++ (syms.flatMap (record p) ++ rest)) with
          | error e =>
              rw [hb] at hok
              cases hok
          | ok r =>
              rw [hb] at hok
              dsimp only at hok
              cases hl : build_loop p syms.length r.2 with
              | error e =>
                  rw [hl] at hok
                  cases hok
              | ok q =>
                  rw [hl] at hok
                  obtain ⟨rfl, -⟩ := Prod.mk.inj (Except.ok.inj hok)
                  cases hall with
                  | cons hhead _ => exact absurd hhead (not_right_of_long hid hge hb)
        · rintro ⟨hfits, -⟩
          exact absurd hfits.1 (Nat.not_lt_of_le hge)

theorem build_loop_rest (h : ∀ sym ∈ syms, (sym.dword t_symIndexId).isSome = true)
    (hfits : ∀ sym ∈ syms, Fits p sym) (rest : List UInt8) :
    ∃ regs, build_loop p syms.length (syms.flatMap (record p) ++ rest) = .ok (regs, rest) ∧
      List.Forall₂ Right syms regs := by
  induction syms with
  | nil => exact ⟨[], rfl, List.Forall₂.nil⟩
  | cons sym syms ih =>
      rw [List.forall_mem_cons] at h hfits
      obtain ⟨id, hid⟩ := Option.isSome_iff_exists.mp h.1
      obtain ⟨regs, hok, hregs⟩ := ih h.2 hfits.2
      refine ⟨(id, created p sym) :: regs, ?_, List.Forall₂.cons ⟨hid, (created_answers p sym).mpr hfits.1.2⟩ hregs⟩
      rw [List.flatMap_cons, List.append_assoc, List.length_cons, build_loop_cons hid hfits.1.1, hok]
      rfl

/-! ### Replies -/

/-- The map `cache` after the symbols were put into it. -/
def cache (regs : List (UInt32 × sym_data_t)) (id : UInt32) : Option sym_data_t :=
  (regs.reverse.find? fun reg => reg.1 = id).map Prod.snd

def Identified : Prop :=
  ∀ sym ∈ syms, ∀ sym' ∈ syms, sym.dword t_symIndexId = sym'.dword t_symIndexId → sym = sym'

def Cached (regs : List (UInt32 × sym_data_t)) : Prop :=
  ∀ sym ∈ syms, ∀ id, sym.dword t_symIndexId = some id → ∃ d, cache regs id = some d ∧ Answers d sym

theorem cached_of_right {syms : List DiaSymbol} (h : List.Forall₂ Right syms regs)
    (hid : Identified syms) : Cached syms regs := by
  have hregs : ∀ {syms regs}, List.Forall₂ Right syms regs →
      (∀ sym ∈ syms, ∃ reg ∈ regs, Right sym reg) ∧ ∀ reg ∈ regs, ∃ sym ∈ syms, Right sym reg := by
    intro syms regs h
    induction h with
    | nil => exact ⟨fun _ h => (by cases h), fun _ h => (by cases h)⟩
    | cons hhead _ ih =>
        rw [List.forall_mem_cons, List.forall_mem_cons]
        refine ⟨⟨⟨_, List.mem_cons_self, hhead⟩, fun sym hsym => ?_⟩, ⟨_, List.mem_cons_self, hhead⟩, fun reg hreg => ?_⟩
        · obtain ⟨reg, hmem, hright⟩ := ih.1 sym hsym
          exact ⟨reg, List.mem_cons_of_mem _ hmem, hright⟩
        · obtain ⟨sym, hmem, hright⟩ := ih.2 reg hreg
          exact ⟨sym, List.mem_cons_of_mem _ hmem, hright⟩
  intro sym hsym id hsymid
  obtain ⟨reg, hreg, hright⟩ := (hregs h).1 sym hsym
  have hregid : reg.1 = id := Option.some.inj (hright.1.symm.trans hsymid)
  cases hf : regs.reverse.find? fun reg => reg.1 = id with
  | none =>
      rw [List.find?_eq_none] at hf
      exact absurd (decide_eq_true hregid) (hf reg (List.mem_reverse.mpr hreg))
  | some reg' =>
      have hid' : reg'.1 = id := by simpa using List.find?_some hf
      obtain ⟨sym', hsym', hright'⟩ := (hregs h).2 reg' (List.mem_reverse.mp (List.mem_of_find?_eq_some hf))
      obtain rfl := hid sym' hsym' sym hsym (hright'.1.trans (hid' ▸ hsymid.symm))
      exact ⟨reg'.2, by rw [cache, hf]; rfl, hright'.2⟩

/-- The whole reply is read; the symbols that come of it are right, in order, and where the indices tell the symbols apart,
so are those in the cache. -/
def Faithful (p : Packers) (syms : List DiaSymbol) : Prop :=
  ∃ regs, handle_fetch_response p (perform p syms) = .ok (regs, []) ∧ List.Forall₂ Right (indexed syms) regs ∧
    (Identified (indexed syms) → Cached (indexed syms) regs)

theorem indexed_isSome : ∀ sym ∈ indexed syms, (sym.dword t_symIndexId).isSome = true :=
  fun _ h => (List.mem_filter.mp h).2

theorem response_eq (p : Packers) (syms : List DiaSymbol) :
    handle_fetch_response p (perform p syms) =
      build_loop p ((indexed syms).length % 2 ^ 32) ((indexed syms).flatMap (record p)) := by
  have hraw : ∀ n rest, handle_fetch_response p (raw_dd n ++ rest) = build_loop p (n % 2 ^ 32) rest := by
    intro n rest
    show build_loop p ((Packing.byteOf n 0).toNat + 256 * (Packing.byteOf n 1).toNat +
      65536 * (Packing.byteOf n 2).toNat + 16777216 * (Packing.byteOf n 3).toNat) rest = _
    simp only [Packing.toNat_byteOf]
    congr 1
    omega
  rw [perform, filterMap_pack, hraw, List.length_map, List.flatMap_def]

/-- A reply is faithful exactly when the number of its symbols, the lengths of their data and their virtual addresses
survive. -/
theorem fetch_faithful_iff (p : Packers) (syms : List DiaSymbol) :
    Faithful p syms ↔ (indexed syms).length < 2 ^ 32 ∧ ∀ sym ∈ indexed syms, Fits p sym := by
  rw [Faithful, response_eq]
  constructor
  · rintro ⟨regs, hok, hall, -⟩
    have hcount : (indexed syms).length = (indexed syms).length % 2 ^ 32 :=
      hall.length_eq.trans (build_loop_length hok)
    have hlt : (indexed syms).length < 2 ^ 32 := by omega
    refine ⟨hlt, (build_loop_iff (indexed syms) (indexed_isSome syms) []).mp ⟨regs, [], ?_, hall⟩⟩
    rw [List.append_nil, hcount]
    exact hok
  · rintro ⟨hlt, hfits⟩
    obtain ⟨regs, hok, hall⟩ := build_loop_rest (indexed syms) (indexed_isSome syms) hfits []
    rw [List.append_nil] at hok
    exact ⟨regs, (Nat.mod_eq_of_lt hlt).symm ▸ hok, hall, cached_of_right hall⟩

/-- The packing of numbers in which the first byte tells the length. -/
def packers : Packers where
  dw := Packing.dw
  dd := Packing.dd
  dq := Packing.dq Packing.dd
  dw_packed_size := Packing.packDw_length
  dd_packed_size := Packing.packDd_length
  dq_packed_size x := by
    have hlow := Packing.packDd_length (Packing.lowDd x)
    have hhigh := Packing.packDd_length (Packing.highDd x)
    show (Packing.packDd (Packing.lowDd x) ++ Packing.packDd (Packing.highDd x)).length ≤ 10
    rw [List.length_append]
    omega

/-- A symbol of a module that is loaded above 4 gigabytes. -/
def high_symbol : DiaSymbol where
  bool _ := none
  dword t := if t = t_symIndexId then some 1 else none
  symid _ := none
  length := none
  name := none
  offset := none
  virtualAddress := some 0x180001000
  value := none

/-- Its virtual address comes back with other upper bits. -/
theorem high_symbol_not_faithful : ¬ Faithful packers [high_symbol] := by
  have hresult : (handle_fetch_response packers (perform packers [high_symbol])).toOption.map
      (fun r => r.1.map fun reg => (get_ulonglong reg.2 t_virtualAddress).toOption) =
      some [some (some 0xFFFFFFFF80001000)] := by decide +kernel
  rintro ⟨regs, hok, hall, -⟩
  rw [hok] at hresult
  have hregs : regs.map (fun reg => (get_ulonglong reg.2 t_virtualAddress).toOption) =
      [some (some 0xFFFFFFFF80001000)] := Option.some.inj hresult
  obtain ⟨reg, rfl, hva⟩ := List.map_eq_singleton_iff.mp hregs
  cases hall with
  | cons hright _ =>
      rw [hright.2.virtualAddress] at hva
      exact absurd hva (by decide)

end IdaSdk.PdbSymbols
