import IdaSdk.PdbSymbolsModel
import Mathlib.Data.List.Basic

/-!
What the client makes of packed properties. The properties of a symbol are a function from tokens to values; the block of
memory has the values in the order of the tokens, and the getters find them again.
-/

namespace IdaSdk.PdbSymbols

variable {p : Packers} {f : Nat → Option Item} {d : sym_data_t}

/-- The bytes of a value. -/
def encode (p : Packers) : Item → List UInt8
  | .bool x => [x]
  | .dword x => p.dd.pack x
  | .dword64 x => p.dq.pack x
  | .string s => s ++ [0]
  | .long x => p.dd.pack x.toUInt32
  | .ulonglong x => p.dq.pack x
  | .variant x => serialize p x

variable (x : VARIANT)

/-- Only the member of the union that the kind has. -/
def VARIANT.member : UInt64 :=
  match x.vt with
  | .VT_I2 | .VT_UI2 => x.bytes.toUInt16.toUInt64
  | .VT_I4 | .VT_UI4 | .VT_R4 | .VT_INT | .VT_UINT => x.bytes.toUInt32.toUInt64
  | .VT_R8 | .VT_I8 | .VT_UI8 => x.bytes
  | .VT_I1 | .VT_UI1 => x.bytes.toUInt8.toUInt64

def VARIANT.number : VARIANT := ⟨x.vt, x.member⟩

def Item.received : Item → Item
  | .variant x => .variant x.number
  | x => x

/-- A value that can be packed: a string without zeros. -/
def Item.Packable : Item → Prop
  | .string s => 0 ∉ s
  | _ => True

theorem received_type (x : Item) : x.received.type = x.type := by
  cases x <;> rfl

variable (ty : type_t)

theorem size_pos : 0 < ty.size := by
  cases ty <;> decide

theorem unpack_str_pack {s : List UInt8} (h : 0 ∉ s) (rest : List UInt8) :
    unpack_str (s ++ [0] ++ rest) = some (s, rest) := by
  have hne : ∀ b ∈ s, decide (b ≠ 0) = true := by
    intro b hb
    exact decide_eq_true fun h0 => h (h0 ▸ hb)
  rw [unpack_str, if_pos (by simp), List.append_assoc, List.takeWhile_append_of_pos hne, List.dropWhile_append_of_pos hne]
  simp

theorem find_code (vt : VARTYPE) : (VARTYPE.all.find? fun vt' => vt'.code = vt.code) = some vt := by
  cases vt <;> decide

theorem deserialize_serialize (rest : List UInt8) :
    deserialize p (serialize p x ++ rest) = (some x.number, rest) := by
  have hmember : unpack_member p x.vt (pack_member p x ++ rest) = (x.member, rest) := by
    obtain ⟨vt, bytes⟩ := x
    cases vt <;> simp only [unpack_member, pack_member, VARIANT.member, Codec.unpack_pack] <;> rfl
  rw [deserialize, serialize, List.append_assoc, Codec.unpack_pack]
  dsimp only
  rw [find_code]
  dsimp only
  rw [hmember]
  rfl

theorem read_item_encode {x : Item} (h : x.Packable) (rest : List UInt8) :
    read_item p x.type (encode p x ++ rest) = (some x.received, rest) := by
  cases x with
  | bool x => rfl
  | dword x =>
      show (some (Item.dword (p.dd.unpack (p.dd.pack x ++ rest)).1), (p.dd.unpack (p.dd.pack x ++ rest)).2) = _
      rw [Codec.unpack_pack]
      rfl
  | dword64 x =>
      show (some (Item.dword64 (p.dq.unpack (p.dq.pack x ++ rest)).1), (p.dq.unpack (p.dq.pack x ++ rest)).2) = _
      rw [Codec.unpack_pack]
      rfl
  | string s =>
      dsimp only [Item.type, encode, read_item]
      rw [unpack_str_pack h]
      rfl
  | long x =>
      show (some (Item.long (p.dd.unpack (p.dd.pack x.toUInt32 ++ rest)).1.toInt32),
        (p.dd.unpack (p.dd.pack x.toUInt32 ++ rest)).2) = _
      rw [Codec.unpack_pack]
      rfl
  | ulonglong x =>
      show (some (Item.ulonglong (p.dq.unpack (p.dq.pack x ++ rest)).1), (p.dq.unpack (p.dq.pack x ++ rest)).2) = _
      rw [Codec.unpack_pack]
      rfl
  | variant x =>
      show ((deserialize p (serialize p x ++ rest)).1.map Item.variant, (deserialize p (serialize p x ++ rest)).2) = _
      rw [deserialize_serialize]
      rfl

/-- The values of properties, each of its token's type. -/
structure Properties (f : Nat → Option Item) : Prop where
  type_of : ∀ t x, f t = some x → type_of t = some x.type
  packable : ∀ t x, f t = some x → x.Packable

def values (f : Nat → Option Item) (ts : List Nat) : List Item := ts.filterMap f

def received (f : Nat → Option Item) (t : Nat) : Option Item := (f t).map Item.received

/-- The mask tells which of the tokens have values. -/
def Masks (present : Nat) (f : Nat → Option Item) (ts : List Nat) : Prop :=
  ∀ t ∈ ts, token_present present t = (f t).isSome

def counted (data : List Item) (ty : type_t) : Nat := data.countP fun x => x.type = ty

theorem unpack_tokens_spec (hf : Properties f) (ts : List Nat) (hm : Masks d.present f ts) (rest : List UInt8) :
    unpack_tokens p ts d ((values f ts).flatMap (encode p) ++ rest) =
      .ok (⟨d.present, d.data ++ values (received f) ts,
        fun ty => d.counters ty + counted (values (received f) ts) ty⟩, rest) := by
  induction ts generalizing d with
  | nil => simp [unpack_tokens, values, counted]
  | cons t ts ih =>
      have hm' : Masks d.present f ts := fun u hu => hm u (List.mem_cons_of_mem t hu)
      have ht := hm t List.mem_cons_self
      rw [unpack_tokens, ht]
      cases hx : f t with
      | none =>
          rw [if_neg (by decide)]
          have hv : values f (t :: ts) = values f ts := List.filterMap_cons_none hx
          have hr : values (received f) (t :: ts) = values (received f) ts :=
            List.filterMap_cons_none (by rw [received, hx]; rfl)
          rw [hv, hr]
          exact ih hm'
      | some x =>
          rw [if_pos (by rfl), hf.type_of t x hx]
          have hv : values f (t :: ts) = x :: values f ts := List.filterMap_cons_some hx
          have hr : values (received f) (t :: ts) = x.received :: values (received f) ts :=
            List.filterMap_cons_some (by rw [received, hx]; rfl)
          dsimp only
          rw [hv, hr, List.flatMap_cons, List.append_assoc, read_item_encode (hf.packable t x hx)]
          have hpush := ih (d := d.push x.type (some x.received)) hm'
          dsimp only
          rw [hpush]
          congr 2
          rw [sym_data_t.push]
          simp only [Option.toList_some, List.append_assoc, List.singleton_append, counted, List.countP_cons,
            received_type, decide_eq_true_eq]
          congr 1
          funext ty
          by_cases hty : ty = x.type
          · rw [if_pos hty, if_pos hty.symm]
            omega
          · rw [if_neg hty, if_neg (Ne.symm hty)]
            omega

theorem data_size_counted (data : List Item) :
    data_size data = (type_t.all.map fun ty => counted data ty * ty.size).sum := by
  induction data with
  | nil => rfl
  | cons x xs ih =>
      have hcons : data_size (x :: xs) = x.size + data_size xs := by simp [data_size]
      rw [hcons, ih, Item.size]
      simp only [counted, type_t.all, List.map_cons, List.map_nil, List.sum_cons, List.sum_nil, List.countP_cons,
        decide_eq_true_eq]
      cases x.type <;> simp [type_t.size] <;> omega

theorem sym_data_spec (hf : Properties f) {tokens : Nat} (hm : Masks tokens f (List.range t_end)) :
    sym_data p tokens ((values f (List.range t_end)).flatMap (encode p)) =
      .ok ⟨tokens, values (received f) (List.range t_end), counted (values (received f) (List.range t_end))⟩ := by
  have hspec := unpack_tokens_spec (p := p) (d := ⟨tokens, [], fun _ => 0⟩) hf (List.range t_end) hm []
  simp only [List.append_nil, List.nil_append, Nat.zero_add] at hspec
  rw [sym_data, hspec]
  dsimp only
  rw [if_neg (not_not.mpr (data_size_counted _)), if_neg (by simp)]

/-! ### The getters -/

theorem token_present_eq (present : Nat) (t : Nat) : token_present present t = present.testBit t := by
  rw [token_present, Nat.and_two_pow]
  have hpos : 0 < 2 ^ t := Nat.two_pow_pos t
  cases present.testBit t with
  | true => simp
  | false =>
      rw [Bool.toNat_false, Nat.zero_mul]
      exact decide_eq_false fun h => Nat.ne_of_gt hpos h.symm

theorem type_of_range {t : Nat} (h : ty.start ≤ t) (h' : t ≤ ty.last) : type_of t = some ty := by
  have hall : ∀ ty ∈ type_t.all, ∀ t ≤ ty.last, ty.start ≤ t → type_of t = some ty := by decide
  exact hall ty (by cases ty <;> decide) t h' h

theorem range_of_type {ty : type_t} {t : Nat} (h : type_of t = some ty) : ty.start ≤ t ∧ t ≤ ty.last := by
  have := List.find?_eq_some_iff_append.mp h
  simpa using this.1

theorem last_lt : ty.last < t_end ∧ ty.start ≤ ty.last := by
  cases ty <;> decide

section
variable {g : Nat → Option Item} (hg : ∀ t x, g t = some x → type_of t = some x.type)

def offset_of (g : Nat → Option Item) (t : Nat) : Nat := data_size (values g (List.range t))

variable {t : Nat}

theorem offset_of_succ_none (h : g t = none) : offset_of g (t + 1) = offset_of g t := by
  simp [offset_of, values, List.range_succ, h]

theorem offset_of_succ_some {x : Item} (h : g t = some x) :
    offset_of g (t + 1) = offset_of g t + x.size := by
  simp [offset_of, values, List.range_succ, h, data_size]

theorem offset_of_row (g : Nat → Option Item) (ty : type_t) (s n : Nat)
    (h : ∀ t ∈ List.range' s n, ∀ x, g t = some x → x.type = ty) :
    offset_of g (s + n) = offset_of g s + (values g (List.range' s n)).length * ty.size := by
  induction n with
  | zero => simp [values]
  | succ n ih =>
      have ih := ih fun t ht => h t (by
        rw [List.mem_range'_1] at ht ⊢
        omega)
      have hlast : s + n ∈ List.range' s (n + 1) := by
        rw [List.mem_range'_1]
        omega
      rw [List.range'_1_concat]
      cases hx : g (s + n) with
      | none =>
          have hvalues : values g (List.range' s n ++ [s + n]) = values g (List.range' s n) := by
            simp [values, List.filterMap_append, hx]
          rw [hvalues, ← Nat.add_assoc, offset_of_succ_none hx, ih]
      | some x =>
          have hvalues : values g (List.range' s n ++ [s + n]) = values g (List.range' s n) ++ [x] := by
            simp [values, List.filterMap_append, hx]
          rw [hvalues, ← Nat.add_assoc, offset_of_succ_some hx, ih, Item.size, h _ hlast x hx, List.length_append,
            List.length_singleton, Nat.succ_mul, Nat.add_assoc]

include hg

variable {ty : type_t}

theorem type_in_range {x : Item} (hx : g t = some x) :
    x.type = ty ↔ ty.start ≤ t ∧ t ≤ ty.last := by
  constructor
  · rintro rfl
    exact range_of_type (hg t x hx)
  · rintro ⟨h, h'⟩
    exact Option.some.inj ((hg t x hx).symm.trans (type_of_range ty h h'))

theorem counted_range (ty : type_t) : counted (values g (List.range t_end)) ty =
    (values g (List.range' ty.start (ty.last + 1 - ty.start))).length := by
  obtain ⟨hlast, hstart⟩ := last_lt ty
  have hsplit : List.range t_end = List.range' 0 ty.start ++ (List.range' ty.start (ty.last + 1 - ty.start) ++
      List.range' (ty.last + 1) (t_end - (ty.last + 1))) := by
    have h2 := List.range'_append_1 (s := ty.start) (m := ty.last + 1 - ty.start) (n := t_end - (ty.last + 1))
    rw [show ty.start + (ty.last + 1 - ty.start) = ty.last + 1 by omega] at h2
    have h1 := List.range'_append_1 (s := 0) (m := ty.start)
      (n := (ty.last + 1 - ty.start) + (t_end - (ty.last + 1)))
    rw [Nat.zero_add] at h1
    rw [h2, h1, List.range_eq_range']
    congr 1
    omega
  have houtside : ∀ ts : List Nat, (∀ t ∈ ts, ¬ (ty.start ≤ t ∧ t ≤ ty.last)) → counted (values g ts) ty = 0 := by
    intro ts hts
    rw [counted, List.countP_eq_zero]
    intro x hx
    obtain ⟨t, ht, hgt⟩ := List.mem_filterMap.mp hx
    simpa using fun h => hts t ht ((type_in_range hg hgt).mp h)
  have hinside : counted (values g (List.range' ty.start (ty.last + 1 - ty.start))) ty =
      (values g (List.range' ty.start (ty.last + 1 - ty.start))).length := by
    rw [counted, List.countP_eq_length]
    intro x hx
    obtain ⟨t, ht, hgt⟩ := List.mem_filterMap.mp hx
    rw [List.mem_range'_1] at ht
    exact decide_eq_true ((type_in_range hg hgt).mpr ⟨ht.1, by omega⟩)
  have happend : ∀ A B, counted (values g (A ++ B)) ty = counted (values g A) ty + counted (values g B) ty := by
    intro A B
    rw [values, List.filterMap_append, counted, List.countP_append]
    rfl
  rw [hsplit, happend, happend, hinside, houtside, houtside]
  · omega
  · intro t ht h
    rw [List.mem_range'_1] at ht
    omega
  · intro t ht h
    rw [List.mem_range'_1] at ht
    omega

theorem offset_of_last (ty : type_t) :
    offset_of g (ty.last + 1) = offset_of g ty.start + counted (values g (List.range t_end)) ty * ty.size := by
  obtain ⟨-, hstart⟩ := last_lt ty
  rw [counted_range hg]
  have hrow := offset_of_row g ty ty.start (ty.last + 1 - ty.start) fun t ht x hx => by
    rw [List.mem_range'_1] at ht
    exact (type_in_range hg hx).mpr ⟨ht.1, by omega⟩
  rwa [show ty.start + (ty.last + 1 - ty.start) = ty.last + 1 by omega] at hrow

omit hg

/-- Types whose ranges follow one another from a token on. -/
def Consecutive : Nat → List type_t → Prop
  | _, [] => True
  | s, ty :: tys => ty.start = s ∧ Consecutive (ty.last + 1) tys

include hg

variable {d : sym_data_t}

theorem skip_types_spec (hd : ∀ ty, d.counters ty = counted (values g (List.range t_end)) ty) (ht : type_of t = some ty) (tys : List type_t) (s : Nat)
    (hc : Consecutive s tys) (hs : s ≤ t) (hty : ty ∈ tys) :
    skip_types d t tys (offset_of g s) = some (offset_of g ty.start, ty.size) := by
  induction tys generalizing s with
  | nil => cases hty
  | cons ty' tys ih =>
      obtain ⟨rfl, hc⟩ := hc
      rw [skip_types]
      by_cases hle : t ≤ ty'.last
      · obtain rfl := Option.some.inj (ht.symm.trans (type_of_range ty' hs hle))
        rw [if_pos hle]
      rw [if_neg hle, hd, ← offset_of_last hg]
      refine ih _ hc (Nat.lt_of_not_le hle) ?_
      rcases List.mem_cons.mp hty with rfl | hty
      · exact absurd (range_of_type ht).2 hle
      · exact hty

omit hg

theorem skip_tokens_spec (ty : type_t) (hsome : (g t).isSome = true) (s n : Nat)
    (hm : ∀ u ∈ List.range' s n, token_present d.present u = (g u).isSome)
    (hrow : ∀ u ∈ List.range' s n, ∀ x, g u = some x → x.type = ty) (ht : t ∈ List.range' s n) :
    skip_tokens d t ty.size (List.range' s n) (offset_of g s) = some (offset_of g t) := by
  induction n generalizing s with
  | zero => cases ht
  | succ n ih =>
      rw [List.range'_succ] at hm hrow ht ⊢
      have ih := ih (s + 1) (fun u hu => hm u (List.mem_cons_of_mem s hu))
        (fun u hu => hrow u (List.mem_cons_of_mem s hu))
      rw [skip_tokens, hm s List.mem_cons_self]
      cases hx : g s with
      | none =>
          rw [if_neg (by decide), ← offset_of_succ_none hx]
          apply ih
          rcases List.mem_cons.mp ht with rfl | ht
          · rw [hx] at hsome
            cases hsome
          · exact ht
      | some x =>
          rw [if_pos (by rfl)]
          by_cases heq : s = t
          · rw [if_pos heq, heq]
          · have hsize : x.size = ty.size := by rw [Item.size, hrow s List.mem_cons_self x hx]
            rw [if_neg heq, ← hsize, ← offset_of_succ_some hx, hsize]
            exact ih ((List.mem_cons.mp ht).resolve_left (Ne.symm heq))

theorem item_at_append (A B : List Item) (x : Item) : item_at (A ++ x :: B) (data_size A) = some x := by
  induction A with
  | nil => rfl
  | cons y A ih =>
      have hpos : 0 < y.size := size_pos y.type
      have hcons : data_size (y :: A) = y.size + data_size A := by simp [data_size]
      rw [List.cons_append, item_at, hcons, if_neg (by omega), if_neg (by omega), Nat.add_sub_cancel_left]
      exact ih

include hg

theorem read_if_found_spec (hdata : d.data = values g (List.range t_end))
    (hcount : ∀ ty, d.counters ty = counted (values g (List.range t_end)) ty)
    (hm : ∀ u < t_end, token_present d.present u = (g u).isSome)
    (ht : type_of t = some ty) : read_if_found d ty t = .ok (g t) := by
  obtain ⟨hstart, hlast⟩ := range_of_type ht
  have hend := (last_lt ty).1
  have hskip := skip_types_spec hg hcount ht type_t.all 0
    (by simp [Consecutive, type_t.all, type_t.start, type_t.last]) (Nat.zero_le t) (by cases ty <;> decide)
  rw [read_if_found, any_ptr, hm t (by omega)]
  cases hx : g t with
  | none => rfl
  | some x =>
      have htokens := skip_tokens_spec (d := d) (t := t) (g := g) ty (by rw [hx]; rfl) ty.start
        (ty.last + 1 - ty.start) (fun u hu => hm u (by
          rw [List.mem_range'_1] at hu
          omega))
        (fun u hu y hy => (type_in_range hg hy).mpr (by
          rw [List.mem_range'_1] at hu
          omega))
        (by
          rw [List.mem_range'_1]
          omega)
      have hzero : offset_of g 0 = 0 := rfl
      rw [hzero] at hskip
      rw [if_pos (by rfl), hskip]
      dsimp only
      rw [htokens]
      have hsplit : values g (List.range t_end) =
          values g (List.range t) ++ x :: values g (List.range' (t + 1) (t_end - (t + 1))) := by
        have hrange : List.range t_end = List.range t ++ t :: List.range' (t + 1) (t_end - (t + 1)) := by
          have happend := List.range'_append_1 (s := 0) (m := t) (n := t_end - t)
          rw [Nat.zero_add, show t_end - t = (t_end - (t + 1)) + 1 by omega, List.range'_succ] at happend
          rw [List.range_eq_range', List.range_eq_range', happend]
          congr 1
          omega
        rw [hrange, values, List.filterMap_append, List.filterMap_cons_some hx]
        rfl
      dsimp only
      rw [hdata, hsplit, offset_of, item_at_append]

end

end IdaSdk.PdbSymbols
