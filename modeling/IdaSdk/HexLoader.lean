import IdaSdk.HexLoaderModel
import Mathlib.Data.List.GetD

/-!
Which characters of a line a record is made of, which numbers its fields give, and when a wrong checksum is reported.
-/

namespace IdaSdk.HexLoader
open HexScan

/-! ### A field -/

/-- The characters of a line between two positions. -/
def Line.slice (line : Line) (a b : Nat) : List UInt8 := (line.chars.drop a).take (b - a)

variable {line : Line} {behind : Nat → UInt8} {env : Env} {size : Nat} {data addr : UInt32} {lc lc' lc'' : Lc}
  {st st' : Loader} {a b c : Nat}

theorem slice_append (hab : a ≤ b) (hbc : b ≤ c) : line.slice a c = line.slice a b ++ line.slice b c := by
  have hac : c - a = (b - a) + (c - b) := by omega
  have hb : b = a + (b - a) := by omega
  unfold Line.slice
  rw [hac, List.take_add, List.drop_drop, ← hb]

theorem slice_length (h : b ≤ line.chars.length) : (line.slice a b).length = b - a := by
  rw [Line.slice, List.length_take, List.length_drop]
  omega

theorem mem_of_lt (h : a < line.chars.length) : line.mem behind a = line.chars.getD a 0 := if_pos h

theorem mem_length : line.mem behind line.chars.length = 0 := by
  rw [Line.mem, if_neg (Nat.lt_irrefl _), if_pos rfl]

theorem field_eq_slice (h : a + width size ≤ line.chars.length) :
    field (line.mem behind) a size = line.slice a (a + width size) := by
  have hlength : (line.slice a (a + width size)).length = width size := by
    rw [slice_length h]
    omega
  apply List.ext_getElem
  · rw [field, List.length_map, List.length_range, hlength]
  · intro k hk hk'
    rw [field, List.length_map, List.length_range] at hk
    simp only [field, List.getElem_map, List.getElem_range, Line.slice, List.getElem_take, List.getElem_drop]
    rw [mem_of_lt (by omega), List.getD_eq_getElem _ _ (by omega)]

theorem width_pos (size : Nat) : 0 < width size := by
  unfold width
  split <;> omega

theorem field_inside (hptr : a ≤ line.chars.length) (h : (strtoul (field (line.mem behind) a size)).2 = []) :
    ∀ k, a ≤ k → k < a + width size → k < line.chars.length ∧ line.chars.getD k 0 ≠ 0x0A := by
  have hlength : (field (line.mem behind) a size).length = width size := by
    rw [field, List.length_map, List.length_range]
  have hne : field (line.mem behind) a size ≠ [] := by
    rw [← List.length_pos_iff, hlength]
    exact width_pos size
  obtain ⟨hnul, pre, d, hlast, hdigit⟩ := strtoul_whole hne h
  have hmem : ∀ j, j < width size → line.mem behind (a + j) ≠ 0 := by
    intro j hj hzero
    refine hnul ?_
    rw [field, List.mem_map]
    exact ⟨j, List.mem_range.mpr hj, hzero⟩
  -- no character is the NUL, so the field does not reach the end
  have hin : ∀ j, j < width size → a + j < line.chars.length := by
    intro j hj
    induction j with
    | zero =>
        refine Nat.lt_of_le_of_ne hptr fun heq => hmem 0 hj ?_
        rw [heq]
        exact mem_length
    | succ j ih =>
        have hprev := ih (by omega)
        refine Nat.lt_of_le_of_ne hprev fun heq => hmem (j + 1) hj ?_
        rw [← Nat.add_assoc]
        exact heq ▸ mem_length
  intro k hak hk
  obtain ⟨j, rfl⟩ := Nat.exists_eq_add_of_le hak
  have hj : j < width size := by omega
  refine ⟨hin j hj, fun hnewline => ?_⟩
  by_cases hnext : j + 1 < width size
  · -- a newline before the last character of the field would not be the last one of the line
    have hk' := hin (j + 1) hnext
    refine line.newline ?_
    rw [List.mem_iff_getElem]
    have hlt : a + j < line.chars.dropLast.length := by
      rw [List.length_dropLast]
      omega
    refine ⟨a + j, hlt, ?_⟩
    rw [List.getElem_dropLast, ← List.getD_eq_getElem _ 0]
    exact hnewline
  · -- the last character is a digit
    have hprelength : pre.length = j := by
      have hcount := congrArg List.length hlast
      rw [hlength, List.length_append, List.length_singleton] at hcount
      omega
    have hd : d = line.mem behind (a + j) := by
      have hget := congrArg (fun s : List UInt8 => s.getD j 0) hlast
      simp only [field, ← hprelength, List.getD_append_right _ _ _ _ (Nat.le_refl _), Nat.sub_self] at hget
      rw [List.getD_eq_getElem _ _ (by simp; omega), List.getElem_map, List.getElem_range] at hget
      rw [← hprelength]
      exact hget.symm
    rw [hd, mem_of_lt (hin j hj), hnewline] at hdigit
    exact absurd hdigit (by decide)

/-- What `hexdata` takes from a line, and gives. -/
structure Took (line : Line) (size : Nat) (lc : Lc) (data : UInt32) (lc' : Lc) : Prop where
  ptr : lc'.ptr = lc.ptr + width size
  inside : ∀ k, lc.ptr ≤ k → k < lc'.ptr → k < line.chars.length ∧ line.chars.getD k 0 ≠ 0x0A
  ln : lc'.ln = lc.ln
  value : size ≤ 4 → (∀ c ∈ line.slice lc.ptr lc'.ptr, isDigit c = true) →
    data.toNat = number (line.slice lc.ptr lc'.ptr)
  length_byte : size = 0 → lc'.len = data &&& 0xFF ∧ lc'.sum = (data &&& 0xFF).toUInt16
  counted : size ≠ 0 → size ≤ lc.len.toNat ∧ lc'.len = lc.len - UInt32.ofNat size ∧
    lc'.sum = lc.sum + field_sum size data

theorem hexdata_took (hptr : lc.ptr ≤ line.chars.length) (h : hexdata (line.mem behind) size lc = .ok (data, lc')) :
    Took line size lc data lc' := by
  unfold hexdata at h
  split at h
  · cases h
  rename_i hcounted
  generalize hscan : strtoul (field (line.mem behind) lc.ptr size) = r at h
  obtain ⟨n, endp⟩ := r
  dsimp only at h
  split at h
  · cases h
  rename_i hend
  have hwhole : (strtoul (field (line.mem behind) lc.ptr size)).2 = [] := by
    rw [hscan]
    exact not_not.mp hend
  have hinside := field_inside hptr hwhole
  have hfits : lc.ptr + width size ≤ line.chars.length := by
    have hlast := (hinside (lc.ptr + width size - 1) (by have := width_pos size; omega)
      (by have := width_pos size; omega)).1
    omega
  have hvalue : size ≤ 4 → (∀ c ∈ line.slice lc.ptr (lc.ptr + width size), isDigit c = true) →
      (UInt32.ofNat n).toNat = number (line.slice lc.ptr (lc.ptr + width size)) := by
    intro hsize hdigits
    have hlength : (line.slice lc.ptr (lc.ptr + width size)).length = width size := by
      rw [slice_length hfits]
      omega
    have hwidth : width size ≤ 8 := by
      unfold width
      split <;> omega
    have hne : line.slice lc.ptr (lc.ptr + width size) ≠ [] := by
      rw [← List.length_pos_iff, hlength]
      exact width_pos size
    rw [field_eq_slice hfits, strtoul_digits hne hdigits (by omega)] at hscan
    obtain ⟨rfl, -⟩ := Prod.mk.inj hscan
    rw [UInt32.toNat_ofNat']
    refine Nat.mod_eq_of_lt (Nat.lt_of_lt_of_le (number_lt _) ?_)
    rw [hlength]
    calc 16 ^ width size ≤ 16 ^ 8 := Nat.pow_le_pow_right (by decide) hwidth
      _ = 2 ^ 32 := by decide
  split at h
  · next hzero =>
      obtain ⟨rfl, rfl⟩ := Prod.mk.inj (Except.ok.inj h)
      exact ⟨rfl, hinside, rfl, hvalue, fun _ => ⟨rfl, rfl⟩, fun hne => absurd hzero hne⟩
  rename_i hsize
  obtain ⟨rfl, rfl⟩ := Prod.mk.inj (Except.ok.inj h)
  refine ⟨rfl, hinside, rfl, hvalue, fun hzero => absurd hzero hsize, fun _ => ⟨?_, rfl, rfl⟩⟩
  have hnot := fun hlt => hcounted ⟨hsize, hlt⟩
  omega

/-! ### Several fields -/

/-- The sum of the bytes between two positions. -/
def Line.sum (line : Line) (a b : Nat) : UInt16 := UInt16.ofNat (octets (line.slice a b)).sum

/-- Fields that follow each other: they lie in the line, and if they consist of digits, their bytes are summed up. -/
structure Reads (line : Line) (lc lc' : Lc) : Prop where
  even : ∃ n, lc'.ptr = lc.ptr + 2 * n
  inside : ∀ k, lc.ptr ≤ k → k < lc'.ptr → k < line.chars.length ∧ line.chars.getD k 0 ≠ 0x0A
  ln : lc'.ln = lc.ln
  sum : (∀ c ∈ line.slice lc.ptr lc'.ptr, isDigit c = true) → lc'.sum = lc.sum + line.sum lc.ptr lc'.ptr

theorem Reads.le (h : Reads line lc lc') : lc.ptr ≤ lc'.ptr := by
  obtain ⟨n, hn⟩ := h.even
  omega

theorem Reads.fits (h : Reads line lc lc') (hptr : lc.ptr ≤ line.chars.length) : lc'.ptr ≤ line.chars.length := by
  have hle := h.le
  by_cases heq : lc'.ptr = lc.ptr
  · omega
  · have hlast := (h.inside (lc'.ptr - 1) (by omega) (by omega)).1
    omega

theorem slice_length_even (h : b ≤ line.chars.length) {n : Nat} (hab : b = a + 2 * n) :
    (line.slice a b).length = 2 * n := by
  rw [slice_length h]
  omega

theorem sum_append (hab : a ≤ b) (hbc : b ≤ c) (heven : (line.slice a b).length % 2 = 0) :
    line.sum a c = line.sum a b + line.sum b c := by
  rw [Line.sum, slice_append hab hbc, octets_append heven, List.sum_append, Line.sum, Line.sum, UInt16.ofNat_add]

theorem Reads.trans (h : Reads line lc lc') (h' : Reads line lc' lc'') (hptr : lc.ptr ≤ line.chars.length) :
    Reads line lc lc'' := by
  have hle := h.le
  have hle' := h'.le
  obtain ⟨n, hn⟩ := h.even
  obtain ⟨n', hn'⟩ := h'.even
  refine ⟨⟨n + n', by omega⟩, fun k hk hk' => ?_, h'.ln.trans h.ln, fun hdigits => ?_⟩
  · by_cases hlt : k < lc'.ptr
    · exact h.inside k hk hlt
    · exact h'.inside k (by omega) hk'
  have hmod : (line.slice lc.ptr lc'.ptr).length % 2 = 0 := by
    rw [slice_length_even (h.fits hptr) hn]
    omega
  rw [slice_append hle hle'] at hdigits
  obtain ⟨hfirst, hsecond⟩ := List.forall_mem_append.mp hdigits
  rw [h'.sum hsecond, h.sum hfirst, sum_append hle hle' hmod, UInt16.add_assoc]

theorem Reads.refl (lc : Lc) : Reads line lc lc where
  even := ⟨0, rfl⟩
  inside k hk hk' := by omega
  ln := rfl
  sum _ := by simp [Line.sum, Line.slice, octets]

theorem Reads.of_len {len : UInt32} (h : Reads line { lc with len := len } lc') : Reads line lc lc' :=
  ⟨h.even, h.inside, h.ln, h.sum⟩

theorem field_sum_eq (h : b ≤ line.chars.length) (hab : b = a + 2 * size) (hvalue : data.toNat = number (line.slice a b)) :
    field_sum size data = line.sum a b := by
  have hlist : ∀ l : List Nat, (l.map UInt16.ofNat).sum = UInt16.ofNat l.sum := by
    intro l
    induction l with
    | nil => rfl
    | cons n l ih => rw [List.map_cons, List.sum_cons, List.sum_cons, ih, UInt16.ofNat_add]
  have hbytes := sum_bytes_number (slice_length_even h hab)
  rw [← hvalue] at hbytes
  rw [field_sum, Line.sum, ← hbytes, ← hlist, List.map_map]
  rfl

theorem Took.reads (h : Took line size lc data lc') (hptr : lc.ptr ≤ line.chars.length) (hsize : size ≠ 0)
    (hle : size ≤ 4) : Reads line lc lc' := by
  have hwidth : width size = 2 * size := if_neg hsize
  have hptr' : lc'.ptr = lc.ptr + 2 * size := by rw [h.ptr, hwidth]
  have hfits : lc'.ptr ≤ line.chars.length := by
    have hlast := (h.inside (lc'.ptr - 1) (by omega) (by omega)).1
    omega
  refine ⟨⟨size, hptr'⟩, h.inside, h.ln, fun hdigits => ?_⟩
  rw [(h.counted hsize).2.2, field_sum_eq hfits hptr' (h.value hle hdigits)]

theorem toNat_and_0xFF (x : UInt32) : (x &&& 0xFF).toNat = x.toNat % 256 := by
  rw [UInt32.toNat_and]
  exact Nat.and_two_pow_sub_one_eq_mod x.toNat 8

theorem Took.reads_length (h : Took line 0 lc data lc') (hsum : lc.sum = 0) : Reads line lc lc' := by
  have hptr' : lc'.ptr = lc.ptr + 2 * 1 := by rw [h.ptr, width, if_pos rfl]
  have hfits : lc'.ptr ≤ line.chars.length := by
    have hlast := (h.inside (lc'.ptr - 1) (by omega) (by omega)).1
    omega
  refine ⟨⟨1, hptr'⟩, h.inside, h.ln, fun hdigits => ?_⟩
  have hvalue := h.value (Nat.zero_le 4) hdigits
  rw [(h.length_byte rfl).2, hsum, UInt16.zero_add, ← field_sum_eq hfits hptr' hvalue]
  have hlt : data.toNat < 256 := by
    rw [hvalue]
    exact Nat.lt_of_lt_of_eq (number_lt _) (by rw [slice_length_even hfits hptr']; rfl)
  apply UInt16.toNat_inj.mp
  rw [UInt32.toNat_toUInt16, toNat_and_0xFF]
  simp [field_sum]

theorem read_data_spec {n : Nat} {bytes : List UInt8} (hptr : lc.ptr ≤ line.chars.length)
    (h : read_data (line.mem behind) n lc = .ok (bytes, lc')) : Reads line lc lc' ∧ lc'.ptr = lc.ptr + 2 * n := by
  induction n generalizing lc bytes with
  | zero =>
      obtain ⟨-, rfl⟩ := Prod.mk.inj (Except.ok.inj h)
      exact ⟨.refl lc, rfl⟩
  | succ n ih =>
      rw [read_data] at h
      cases hbyte : hexdata (line.mem behind) 1 lc with
      | error e =>
          rw [hbyte] at h
          cases h
      | ok r =>
          obtain ⟨b, lc₁⟩ := r
          rw [hbyte] at h
          have htook := hexdata_took hptr hbyte
          have hreads := htook.reads hptr (by decide) (by decide)
          change (read_data (line.mem behind) n lc₁ >>= _) = _ at h
          cases hrest : read_data (line.mem behind) n lc₁ with
          | error e =>
              rw [hrest] at h
              cases h
          | ok r =>
              obtain ⟨bytes', lc₂⟩ := r
              rw [hrest] at h
              obtain ⟨-, rfl⟩ := Prod.mk.inj (Except.ok.inj h)
              obtain ⟨hreads', hptr'⟩ := ih (hreads.fits hptr) hrest
              refine ⟨hreads.trans hreads' hptr, ?_⟩
              rw [hptr', htook.ptr, show width 1 = 2 from rfl]
              omega

/-! ### The checksum -/

variable (ftype : FileType)

def FileType.check : Nat := if ftype = .f_MEX then 2 else 1

/-- The record between two positions has the right checksum: all its bytes add up to a fixed number, or those before
the checksum to the checksum. -/
def FileType.Matches (line : Line) (a b : Nat) : Prop :=
  match ftype with
  | .f_SREC => (octets (line.slice a b)).sum % 256 = 255
  | .f_HEX => (octets (line.slice a b)).sum % 256 = 0
  | .f_MEX => (octets (line.slice a (b - 4))).sum % 65536 = number (line.slice (b - 4) b)

theorem bind_eq_ok {α β ε : Type} {x : Except ε α} {f : α → Except ε β} {r : β} :
    x >>= f = .ok r ↔ ∃ y, x = .ok y ∧ f y = .ok r := by
  cases x with
  | error e =>
      constructor
      · intro h
        cases h
      · rintro ⟨y, hy, -⟩
        cases hy
  | ok y =>
      constructor
      · exact fun h => ⟨y, rfl, h⟩
      · rintro ⟨y', hy, h⟩
        obtain rfl := Except.ok.inj hy
        exact h

theorem toNat_ofNat_and_0xFF (n : Nat) : (UInt16.ofNat n &&& 0xFF).toNat = n % 256 := by
  rw [UInt16.toNat_and, UInt16.toNat_ofNat']
  refine (Nat.and_two_pow_sub_one_eq_mod (n % 2 ^ 16) 8).trans ?_
  omega

theorem field_spec {len : UInt32} (hptr : lc.ptr ≤ line.chars.length) (hsize : size ≠ 0) (hle : size ≤ 4)
    (h : hexdata (line.mem behind) size { lc with len := len } = .ok (data, lc')) :
    Reads line lc lc' ∧ lc'.ptr = lc.ptr + 2 * size ∧
      ((∀ c ∈ line.slice lc.ptr lc'.ptr, isDigit c = true) → data.toNat = number (line.slice lc.ptr lc'.ptr)) := by
  have htook : Took line size ⟨lc.ptr, lc.ln, len, lc.sum⟩ data lc' := hexdata_took (by exact hptr) h
  refine ⟨(htook.reads hptr hsize hle).of_len, ?_, htook.value hle⟩
  rw [htook.ptr, width, if_neg hsize]

theorem octets_sum_pair {s : List UInt8} (h : s.length = 2) : (octets s).sum = number s := by
  match s, h with
  | [c, d], _ =>
      rw [number_cons, number_cons]
      simp [octets, number, Nat.mul_comm]

/-- The checksum field; `a` is where the sum began. -/
theorem checksum_spec {chi : UInt16} (hptr : lc.ptr ≤ line.chars.length)
    (h : checksum env (line.mem behind) lc = .ok (chi, lc')) :
    Reads line lc lc' ∧ lc'.ptr = lc.ptr + 2 * env.ftype.check ∧
      ∀ a, (∃ n, lc.ptr = a + 2 * n) → lc.sum = line.sum a lc.ptr →
        (∀ c ∈ line.slice lc.ptr lc'.ptr, isDigit c = true) → (chi = 0 ↔ env.ftype.Matches line a lc'.ptr) := by
  unfold checksum at h
  cases hftype : env.ftype with
  | f_SREC =>
      rw [hftype] at h
      obtain ⟨⟨data, lc₁⟩, hdata, h⟩ := bind_eq_ok.mp h
      obtain ⟨rfl, rfl⟩ := Prod.mk.inj (Except.ok.inj h)
      obtain ⟨hreads, hptr', hvalue⟩ := field_spec hptr (by decide) (by decide) hdata
      refine ⟨hreads, hptr', fun a ⟨n, hn⟩ hsum hdigits => ?_⟩
      have hlength := slice_length_even (hreads.fits hptr) hptr'
      have hdata : data.toNat < 256 := by
        rw [hvalue hdigits]
        exact Nat.lt_of_lt_of_eq (number_lt _) (by rw [hlength]; rfl)
      have heven : (line.slice a lc.ptr).length % 2 = 0 := by
        rw [slice_length_even hptr hn]
        omega
      have hall : (octets (line.slice a lc₁.ptr)).sum = (octets (line.slice a lc.ptr)).sum + data.toNat := by
        rw [slice_append (by omega) hreads.le, octets_append heven, List.sum_append, octets_sum_pair hlength,
          hvalue hdigits]
      rw [FileType.Matches, hall, hsum, Line.sum, UInt16.xor_eq_zero_iff, ← UInt16.toNat_inj]
      have hnot : (~~~UInt16.ofNat (octets (line.slice a lc.ptr)).sum &&& 0xFF).toNat =
          255 - (octets (line.slice a lc.ptr)).sum % 256 := by
        rw [UInt16.toNat_and, UInt16.toNat_not, UInt16.toNat_ofNat']
        refine (Nat.and_two_pow_sub_one_eq_mod _ 8).trans ?_
        change (65535 - _ % 65536) % 256 = _
        omega
      have hchecksum : data.toUInt8.toUInt16.toNat = data.toNat := by
        rw [UInt8.toNat_toUInt16, UInt32.toNat_toUInt8]
        exact Nat.mod_eq_of_lt hdata
      rw [hnot, hchecksum]
      omega
  | f_HEX =>
      rw [hftype] at h
      obtain ⟨⟨data, lc₁⟩, hdata, h⟩ := bind_eq_ok.mp h
      obtain ⟨rfl, rfl⟩ := Prod.mk.inj (Except.ok.inj h)
      obtain ⟨hreads, hptr', hvalue⟩ := field_spec hptr (by decide) (by decide) hdata
      refine ⟨hreads, hptr', fun a ⟨n, hn⟩ hsum hdigits => ?_⟩
      have heven : (line.slice a lc.ptr).length % 2 = 0 := by
        rw [slice_length_even hptr hn]
        omega
      rw [FileType.Matches, hreads.sum hdigits, hsum, ← sum_append (by omega) hreads.le heven, ← UInt16.toNat_inj,
        Line.sum, toNat_ofNat_and_0xFF]
      rfl
  | f_MEX =>
      rw [hftype] at h
      obtain ⟨⟨data, lc₁⟩, hdata, h⟩ := bind_eq_ok.mp h
      obtain ⟨rfl, rfl⟩ := Prod.mk.inj (Except.ok.inj h)
      obtain ⟨hreads, hptr', hvalue⟩ := field_spec hptr (by decide) (by decide) hdata
      refine ⟨hreads, hptr', fun a ⟨n, hn⟩ hsum hdigits => ?_⟩
      have hlength := slice_length_even (hreads.fits hptr) hptr'
      have hdata : data.toNat < 65536 := by
        rw [hvalue hdigits]
        exact Nat.lt_of_lt_of_eq (number_lt _) (by rw [hlength]; rfl)
      have hback : lc₁.ptr - 4 = lc.ptr := by omega
      rw [FileType.Matches, hback, ← hvalue hdigits, hsum, Line.sum]
      have hchecksum : data.toUInt16.toNat = data.toNat := by
        rw [UInt32.toNat_toUInt16]
        exact Nat.mod_eq_of_lt hdata
      rw [← UInt16.toNat_inj, UInt16.toNat_sub, UInt16.toNat_ofNat', hchecksum, UInt16.toNat_zero]
      omega

/-! ### A record -/

/-- How many bytes the length byte does not count: address, type and checksum of the formats other than the S-records. -/
def FileType.uncounted : Nat := if ftype = .f_SREC then 0 else 4

/-- The end of a record that begins with a length byte at `a`. -/
def FileType.record_end (a : Nat) (length : UInt32) : Nat :=
  a + 2 + 2 * (length.toNat % 256 + ftype.uncounted)

theorem toNat_ofNat_size (h : size ≤ 4) : (UInt32.ofNat size).toNat = size := by
  rw [UInt32.toNat_ofNat']
  omega

theorem Took.len_toNat (h : Took line size lc data lc') (hsize : size ≠ 0) (hle : size ≤ 4) :
    lc'.len.toNat + size = lc.len.toNat := by
  obtain ⟨hcount, hlen, -⟩ := h.counted hsize
  have hofNat := toNat_ofNat_size hle
  have hlt := lc.len.toNat_lt
  rw [hlen, UInt32.toNat_sub_of_le _ _ (by rw [UInt32.le_iff_toNat_le, hofNat]; exact hcount), hofNat]
  omega

variable {mode : UInt8}

theorem srec_mode_size {sz : Nat} {is_start : Bool} (h : srec_mode mode = some (sz, is_start)) :
    sz ≠ 0 ∧ sz ≤ 4 := by
  unfold srec_mode at h
  split_ifs at h <;> obtain ⟨rfl, -⟩ := Prod.mk.inj (Option.some.inj h) <;> decide

/-- Where a data record stands when its header has been read: so many bytes are to follow. -/
def FileType.Follows (p : Nat) (length : UInt32) (lc : Lc) : Prop :=
  lc.ptr + 2 * (lc.len.toNat + ftype.check) = ftype.record_end p length ∨ 2 ^ 31 ≤ lc.len.toNat

theorem length_pos_le (hstart : line.mem behind line.skip_blanks = env.ftype.rstart)
    (hmode : env.ftype = .f_SREC → line.mem behind (line.skip_blanks + 1) ≠ 0) :
    env.length_pos line ≤ line.chars.length := by
  have hblanks : line.skip_blanks ≤ line.chars.length := (List.takeWhile_sublist _).length_le
  have hne : line.skip_blanks ≠ line.chars.length := by
    intro heq
    rw [heq, mem_length] at hstart
    cases hftype : env.ftype <;> rw [hftype] at hstart <;> exact absurd hstart (by decide)
  unfold Env.length_pos
  split
  · next hsrec =>
      have hne' : line.skip_blanks + 1 ≠ line.chars.length := by
        intro heq
        refine hmode hsrec ?_
        rw [heq]
        exact mem_length
      omega
  · omega

theorem srec_header_mode {r : Header} (h : srec_header (line.mem behind) mode lc = .ok r) : mode ≠ 0 := by
  rintro rfl
  cases h

theorem srec_header_data {p : Nat} {length : UInt32} (hptr : lc.ptr ≤ line.chars.length)
    (hp : lc.ptr = p + 2) (hlen : lc.len.toNat = length.toNat % 256)
    (h : srec_header (line.mem behind) mode lc = .ok (.data addr lc')) :
    Reads line lc lc' ∧ FileType.f_SREC.Follows p length lc' := by
  unfold srec_header at h
  split at h
  · cases h
  split at h
  · cases h
  rename_i sz is_start hmode
  obtain ⟨hsize, hle⟩ := srec_mode_size hmode
  obtain ⟨⟨data, lc₁⟩, hdata, h⟩ := bind_eq_ok.mp h
  dsimp only at h
  split at h
  · cases h
  obtain ⟨-, rfl⟩ := Header.data.inj (Except.ok.inj h)
  obtain ⟨hreads, hptr', -⟩ := field_spec hptr hsize hle hdata
  refine ⟨hreads, ?_⟩
  have hcount := (hexdata_took (by exact hptr) hdata).len_toNat hsize hle
  dsimp only at hcount
  unfold FileType.Follows FileType.record_end
  rw [show FileType.f_SREC.check = 1 from rfl, show FileType.f_SREC.uncounted = 0 from rfl]
  -- a length byte of zero wraps around
  by_cases hzero : length.toNat % 256 = 0
  · rw [UInt32.toNat_sub, hlen, hzero] at hcount
    right
    change _ = (2 ^ 32 - 1 + 0) % 2 ^ 32 at hcount
    omega
  · rw [UInt32.toNat_sub_of_le _ _ (by rw [UInt32.le_iff_toNat_le, hlen]; change 1 ≤ _; omega), hlen] at hcount
    left
    change _ = _ - 1 at hcount
    omega

theorem intel_type_data {addr' : UInt32} (hptr : lc.ptr ≤ line.chars.length)
    (h : intel_type (line.mem behind) addr' lc = .ok (.data addr lc')) :
    Reads line lc lc' ∧ lc'.ptr = lc.ptr + 2 ∧ lc'.len.toNat + 1 = lc.len.toNat := by
  obtain ⟨⟨type, lc₁⟩, htype, h⟩ := bind_eq_ok.mp h
  have htook := hexdata_took hptr htype
  dsimp only at h
  split at h
  · obtain ⟨_, -, h⟩ := bind_eq_ok.mp h
    cases h
  split at h
  · obtain ⟨_, -, h⟩ := bind_eq_ok.mp h
    cases h
  split at h
  · obtain ⟨_, -, h⟩ := bind_eq_ok.mp h
    cases h
  split at h
  · cases h
  · split at h
    · cases h
    · obtain ⟨-, rfl⟩ := Header.data.inj (Except.ok.inj h)
      exact ⟨htook.reads hptr (by decide) (by decide), htook.ptr, htook.len_toNat (by decide) (by decide)⟩

theorem plain_header_data {p : Nat} {length : UInt32} (hptr : lc.ptr ≤ line.chars.length) (hp : lc.ptr = p + 2)
    (hlen : lc.len.toNat = length.toNat % 256) (hftype : env.ftype ≠ .f_SREC)
    (h : plain_header env (line.mem behind) lc = .ok (.data addr lc')) :
    Reads line lc lc' ∧ env.ftype.Follows p length lc' := by
  unfold plain_header at h
  split at h
  · cases h
  obtain ⟨⟨data, lc₁⟩, hdata, h⟩ := bind_eq_ok.mp h
  obtain ⟨hreads, hptr', -⟩ := field_spec hptr (by decide) (by decide) hdata
  have hcount := (hexdata_took (by exact hptr) hdata).len_toNat (by decide) (by decide)
  dsimp only at hcount h
  unfold FileType.Follows FileType.record_end FileType.check FileType.uncounted
  cases henv : env.ftype with
  | f_SREC => exact absurd henv hftype
  | f_HEX =>
      rw [henv, if_pos rfl, UInt32.toNat_add, hlen] at hcount
      rw [henv, if_pos rfl] at h
      obtain ⟨hreads', hptr'', hcount'⟩ := intel_type_data (hreads.fits hptr) h
      refine ⟨hreads.trans hreads' hptr, Or.inl ?_⟩
      change _ = (_ + 3) % _ at hcount
      simp
      omega
  | f_MEX =>
      rw [henv, if_neg (by decide), UInt32.toNat_add, hlen] at hcount
      rw [henv, if_neg (by decide)] at h
      obtain ⟨-, rfl⟩ := Header.data.inj (Except.ok.inj h)
      refine ⟨hreads, Or.inl ?_⟩
      change _ = (_ + 2) % _ at hcount
      simp
      omega

variable {ln : Nat}

theorem header_length {r : Header} (h : header env line behind ln = .ok r)
    (hblank : ¬(line.mem behind line.skip_blanks = 0x0A ∨ line.mem behind line.skip_blanks = 0x0D)) :
    line.mem behind line.skip_blanks = env.ftype.rstart ∧ env.length_pos line ≤ line.chars.length ∧
      ∃ length lc₀, hexdata (line.mem behind) 0 ⟨env.length_pos line, ln, 0, 0⟩ = .ok (length, lc₀) ∧
        (if env.ftype = .f_SREC then srec_header (line.mem behind) (line.mem behind (line.skip_blanks + 1)) lc₀
          else plain_header env (line.mem behind) lc₀) = .ok r := by
  unfold header at h
  dsimp only at h
  rw [if_neg hblank] at h
  split at h
  · cases h
  rename_i hstart
  obtain ⟨⟨length, lc₀⟩, hlength, h⟩ := bind_eq_ok.mp h
  refine ⟨not_not.mp hstart, length_pos_le (not_not.mp hstart) fun hsrec => ?_, length, lc₀, hlength, h⟩
  dsimp only at h
  rw [if_pos hsrec] at h
  exact srec_header_mode h

theorem header_data (h : header env line behind ln = .ok (.data addr lc)) :
    env.length_pos line ≤ line.chars.length ∧
      ∃ length lc₀, hexdata (line.mem behind) 0 ⟨env.length_pos line, ln, 0, 0⟩ = .ok (length, lc₀) ∧
        Reads line ⟨env.length_pos line, ln, 0, 0⟩ lc ∧ env.ftype.Follows (env.length_pos line) length lc := by
  have hblank : ¬(line.mem behind line.skip_blanks = 0x0A ∨ line.mem behind line.skip_blanks = 0x0D) := by
    intro hblank
    unfold header at h
    dsimp only at h
    rw [if_pos hblank] at h
    cases h
  obtain ⟨-, hpos, length, lc₀, hlength, h⟩ := header_length h hblank
  have htook := hexdata_took (by exact hpos) hlength
  have hreads := htook.reads_length rfl
  have hp : lc₀.ptr = env.length_pos line + 2 := htook.ptr
  have hlen : lc₀.len.toNat = length.toNat % 256 := by
    rw [(htook.length_byte rfl).1, toNat_and_0xFF]
  refine ⟨hpos, length, lc₀, hlength, ?_⟩
  split at h
  · next hsrec =>
      obtain ⟨hreads', hfollows⟩ := srec_header_data (hreads.fits hpos) hp hlen h
      exact ⟨hreads.trans hreads' hpos, hsrec ▸ hfollows⟩
  · next hplain =>
      obtain ⟨hreads', hfollows⟩ := plain_header_data (hreads.fits hpos) hp hlen hplain h
      exact ⟨hreads.trans hreads' hpos, hfollows⟩

/-! ### A line of the file -/

/-- What a data record does, when it is accepted: it consists of the fields that its length byte announces, and if
these consist of digits, a wrong checksum is reported unless one has been before. -/
structure DataRecord (env : Env) (line : Line) (behind : Nat → UInt8) (ln : Nat) (st st' : Loader) (length : UInt32) :
    Prop where
  announced : ∃ lc, hexdata (line.mem behind) 0 ⟨env.length_pos line, ln, 0, 0⟩ = .ok (length, lc)
  inside : ∀ k, env.length_pos line ≤ k → k < env.ftype.record_end (env.length_pos line) length →
    k < line.chars.length ∧ line.chars.getD k 0 ≠ 0x0A
  reported :
    (∀ c ∈ line.slice (env.length_pos line) (env.ftype.record_end (env.length_pos line) length), isDigit c = true) →
    ((∃ effects, st'.effects = st.effects ++ effects ∧ .bad_checksum ln ∈ effects) ↔
      ¬env.ftype.Matches line (env.length_pos line) (env.ftype.record_end (env.length_pos line) length) ∧
        st.displayed = false)

/-- The effects of `st'` are those of `st` and others, none of them the report of a checksum. -/
structure Silent (st st' : Loader) : Prop where
  displayed : st'.displayed = st.displayed
  effects : ∃ effects, st'.effects = st.effects ++ effects ∧ ∀ ln, .bad_checksum ln ∉ effects

theorem Silent.of_eq (heffects : st'.effects = st.effects) (hdisplayed : st'.displayed = st.displayed) : Silent st st' :=
  ⟨hdisplayed, [], by rw [heffects, List.append_nil], fun _ h => nomatch h⟩

theorem Silent.refl (st : Loader) : Silent st st := .of_eq rfl rfl

variable {st'' : Loader}

theorem Silent.trans (h : Silent st st') (h' : Silent st' st'') : Silent st st'' := by
  obtain ⟨effects, heffects, hno⟩ := h.effects
  obtain ⟨effects', heffects', hno'⟩ := h'.effects
  refine ⟨h'.displayed.trans h.displayed, effects ++ effects', ?_, fun ln hmem => ?_⟩
  · rw [heffects', heffects, List.append_assoc]
  · cases List.mem_append.mp hmem with
    | inl hmem => exact hno ln hmem
    | inr hmem => exact hno' ln hmem

theorem Silent.of_effect (e : Effect) (he : ∀ ln, e ≠ .bad_checksum ln) (heffects : st'.effects = st.effects ++ [e])
    (hdisplayed : st'.displayed = st.displayed) : Silent st st' :=
  ⟨hdisplayed, [e], heffects, fun ln hmem => he ln (List.mem_singleton.mp hmem).symm⟩

theorem effect_silent {e : Effect} (he : ∀ ln, e ≠ .bad_checksum ln) : Silent st (st.effect e) :=
  .of_effect e he rfl rfl

variable {ea : UInt64}

theorem extend_segment_silent {top : UInt64} (h : st.extend_segment env ea top = .ok st') : Silent st st' := by
  unfold Loader.extend_segment at h
  dsimp only at h
  split at h
  · split at h
    · cases h
      exact .of_eq rfl rfl
    split at h
    · cases h
      exact .of_effect (.set_segm_end _ _ _) (fun _ heq => nomatch heq) rfl rfl
    · split at h
      · cases h
        exact .of_effect (.add_segm _ _) (fun _ heq => nomatch heq) rfl rfl
      · cases h
  · cases h
    exact .refl _

theorem lower_segment_silent : Silent st (st.lower_segment env ea) := by
  unfold Loader.lower_segment
  split
  · cases hsegs : env.nef_segs
    · exact .of_eq rfl rfl
    · exact .of_effect (.set_segm_start _ _ _) (fun _ heq => nomatch heq) rfl rfl
  · exact .refl st

theorem put_data_spec (hptr : lc.ptr ≤ line.chars.length)
    (h : st.put_data env (line.mem behind) ea lc = .ok (lc', st')) :
    Reads line lc lc' ∧ lc'.ptr = lc.ptr + 2 * lc.len.toNat ∧ Silent st st' := by
  unfold Loader.put_data at h
  split at h
  · next hzero =>
      obtain ⟨rfl, rfl⟩ := Prod.mk.inj (Except.ok.inj h)
      refine ⟨.refl _, ?_, .refl _⟩
      rw [hzero]
      rfl
  · obtain ⟨⟨bytes, lc₁⟩, hread, h⟩ := bind_eq_ok.mp h
    obtain ⟨st₁, hextend, h⟩ := bind_eq_ok.mp h
    obtain ⟨rfl, rfl⟩ := Prod.mk.inj (Except.ok.inj h)
    obtain ⟨hreads, hptr'⟩ := read_data_spec hptr hread
    refine ⟨hreads, hptr', ?_⟩
    have hextended : Silent st st₁ := by
      refine .trans (.of_eq ?_ ?_) (extend_segment_silent hextend) <;> rfl
    exact (hextended.trans lower_segment_silent).trans (.of_effect (.mem2base _ _ _) (fun _ heq => nomatch heq) rfl rfl)

theorem report_effects (st : Loader) (chi : UInt16) (ln : Nat) :
    (∃ effects, (st.report chi ln).effects = st.effects ++ effects ∧ .bad_checksum ln ∈ effects) ↔
      chi ≠ 0 ∧ st.displayed = false := by
  unfold Loader.report
  split
  · next h =>
      refine ⟨fun _ => ⟨h.1, by simpa using h.2⟩, fun _ => ⟨[.bad_checksum ln], rfl, by simp⟩⟩
  rename_i h
  constructor
  · rintro ⟨effects, heffects, hmem⟩
    obtain rfl := List.self_eq_append_right.mp heffects
    cases hmem
  · rintro ⟨hchi, hdisplayed⟩
    exact absurd ⟨hchi, by simp [hdisplayed]⟩ h

theorem Silent.reported_iff (h : Silent st st') (h' : ∃ e, st''.effects = st'.effects ++ e) :
    (∃ effects, st''.effects = st.effects ++ effects ∧ .bad_checksum ln ∈ effects) ↔
      ∃ effects, st''.effects = st'.effects ++ effects ∧ .bad_checksum ln ∈ effects := by
  obtain ⟨silent, hsilent, hno⟩ := h.effects
  obtain ⟨e, he⟩ := h'
  rw [he, hsilent]
  constructor
  · rintro ⟨effects, heffects, hmem⟩
    refine ⟨e, rfl, ?_⟩
    rw [List.append_assoc] at heffects
    rw [← List.append_cancel_left heffects] at hmem
    exact (List.mem_append.mp hmem).resolve_left (hno ln)
  · rintro ⟨effects, heffects, hmem⟩
    exact ⟨silent ++ e, List.append_assoc .., List.mem_append_right _ (List.append_cancel_left heffects ▸ hmem)⟩

theorem report_append (st : Loader) (chi : UInt16) (ln : Nat) : ∃ e, (st.report chi ln).effects = st.effects ++ e := by
  unfold Loader.report
  split
  · exact ⟨_, rfl⟩
  · exact ⟨[], (List.append_nil _).symm⟩

theorem data_record_spec (hheader : header env line behind ln = .ok (.data addr lc))
    (h : st.data_record env (line.mem behind) addr lc = .ok (lc', st')) :
    ∃ length, DataRecord env line behind ln st st' length := by
  obtain ⟨hpos, length, lc₀, hlength, hreads, hfollows⟩ := header_data hheader
  have hfits := hreads.fits (by exact hpos)
  obtain ⟨⟨lc₁, st₁⟩, hput, h⟩ := bind_eq_ok.mp h
  obtain ⟨⟨chi, lc₂⟩, hchi, h⟩ := bind_eq_ok.mp h
  obtain ⟨rfl, rfl⟩ := Prod.mk.inj (Except.ok.inj h)
  obtain ⟨hdata, hptr₁, hsilent⟩ := put_data_spec hfits hput
  have hfits₁ := hdata.fits hfits
  obtain ⟨hcheck, hptr₂, hmatches⟩ := checksum_spec hfits₁ hchi
  have hbefore := hreads.trans hdata (by exact hpos)
  have hall := hbefore.trans hcheck (by exact hpos)
  have hend : lc₂.ptr = env.ftype.record_end (env.length_pos line) length := by
    cases hfollows with
    | inl hfollows =>
        rw [hptr₂, hptr₁, ← hfollows]
        omega
    | inr hwrap =>
        have hfit := line.fits
        have hbuffer : BUFFSIZE = 598 := rfl
        omega
  refine ⟨length, ⟨lc₀, hlength⟩, ?_, ?_⟩
  · rw [← hend]
    exact hall.inside
  rw [← hend]
  intro hdigits
  have hle := hbefore.le
  dsimp only at hle
  rw [slice_append hle hcheck.le] at hdigits
  obtain ⟨hfirst, hsecond⟩ := List.forall_mem_append.mp hdigits
  have hsum := hbefore.sum hfirst
  rw [UInt16.zero_add] at hsum
  have hln : lc₂.ln = ln := hall.ln
  rw [hsilent.reported_iff (report_append ..), hln, report_effects, hsilent.displayed,
    not_congr (hmatches _ hbefore.even hsum hsecond).symm]

/-! ### Nothing behind the line -/

section
variable {r : UInt32 × Lc} (behind' : Nat → UInt8)

theorem hexdata_fits (hptr : lc.ptr ≤ line.chars.length) (h : hexdata (line.mem behind) size lc = .ok (data, lc')) :
    lc'.ptr ≤ line.chars.length := by
  have htook := hexdata_took hptr h
  have hwidth := width_pos size
  have hptr' := htook.ptr
  have hlast := (htook.inside (lc'.ptr - 1) (by omega) (by omega)).1
  omega

theorem hexdata_behind (hptr : lc.ptr ≤ line.chars.length) (h : hexdata (line.mem behind) size lc = .ok r) :
    hexdata (line.mem behind') size lc = .ok r := by
  have htook := hexdata_took hptr h
  have hfits : lc.ptr + width size ≤ line.chars.length := htook.ptr ▸ hexdata_fits hptr h
  unfold hexdata at h ⊢
  rwa [field_eq_slice hfits] at h ⊢

theorem read_data_behind {n : Nat} {r : List UInt8 × Lc} (hptr : lc.ptr ≤ line.chars.length)
    (h : read_data (line.mem behind) n lc = .ok r) : read_data (line.mem behind') n lc = .ok r := by
  induction n generalizing lc r with
  | zero => exact h
  | succ n ih =>
      obtain ⟨⟨b, lc₁⟩, hbyte, h⟩ := bind_eq_ok.mp h
      obtain ⟨⟨bytes, lc₂⟩, hrest, h⟩ := bind_eq_ok.mp h
      refine bind_eq_ok.mpr ⟨_, hexdata_behind behind' hptr hbyte, ?_⟩
      exact bind_eq_ok.mpr ⟨_, ih (hexdata_fits hptr hbyte) hrest, h⟩

theorem checksum_behind {r : UInt16 × Lc} (hptr : lc.ptr ≤ line.chars.length)
    (h : checksum env (line.mem behind) lc = .ok r) : checksum env (line.mem behind') lc = .ok r := by
  unfold checksum at h ⊢
  cases hftype : env.ftype <;> rw [hftype] at h <;> obtain ⟨_, hdata, h⟩ := bind_eq_ok.mp h <;>
    exact bind_eq_ok.mpr ⟨_, hexdata_behind behind' (by exact hptr) hdata, h⟩

variable {r : Header}

theorem srec_header_behind {mode : UInt8} (hptr : lc.ptr ≤ line.chars.length)
    (h : srec_header (line.mem behind) mode lc = .ok r) : srec_header (line.mem behind') mode lc = .ok r := by
  unfold srec_header at h ⊢
  split at h
  · next hmode => rwa [if_pos hmode]
  rename_i hmode
  rw [if_neg hmode]
  split at h
  · cases h
  · obtain ⟨_, hdata, h⟩ := bind_eq_ok.mp h
    exact bind_eq_ok.mpr ⟨_, hexdata_behind behind' (by exact hptr) hdata, h⟩

theorem intel_type_behind {addr : UInt32} (hptr : lc.ptr ≤ line.chars.length)
    (h : intel_type (line.mem behind) addr lc = .ok r) : intel_type (line.mem behind') addr lc = .ok r := by
  obtain ⟨⟨type, lc₁⟩, htype, h⟩ := bind_eq_ok.mp h
  have hfits := hexdata_fits hptr htype
  refine bind_eq_ok.mpr ⟨_, hexdata_behind behind' hptr htype, ?_⟩
  dsimp only at h ⊢
  split at h
  · next hlinear =>
      rw [if_pos hlinear]
      obtain ⟨_, hbase, h⟩ := bind_eq_ok.mp h
      exact bind_eq_ok.mpr ⟨_, hexdata_behind behind' hfits hbase, h⟩
  · next hlinear =>
      rw [if_neg hlinear]
      split at h
      · next hsegment =>
          rw [if_pos hsegment]
          obtain ⟨_, hbase, h⟩ := bind_eq_ok.mp h
          exact bind_eq_ok.mpr ⟨_, hexdata_behind behind' hfits hbase, h⟩
      · next hsegment =>
          rw [if_neg hsegment]
          split at h
          · next hstart =>
              rw [if_pos hstart]
              obtain ⟨_, hstart_addr, h⟩ := bind_eq_ok.mp h
              exact bind_eq_ok.mpr ⟨_, hexdata_behind behind' hfits hstart_addr, h⟩
          · next hstart => rwa [if_neg hstart]

theorem plain_header_behind (hptr : lc.ptr ≤ line.chars.length)
    (h : plain_header env (line.mem behind) lc = .ok r) : plain_header env (line.mem behind') lc = .ok r := by
  unfold plain_header at h ⊢
  split at h
  · next hlast => rwa [if_pos hlast]
  rename_i hlast
  rw [if_neg hlast]
  obtain ⟨⟨addr, lc₁⟩, haddr, h⟩ := bind_eq_ok.mp h
  refine bind_eq_ok.mpr ⟨_, hexdata_behind behind' (by exact hptr) haddr, ?_⟩
  dsimp only at h ⊢
  split at h
  · next hhex =>
      rw [if_pos hhex]
      exact intel_type_behind behind' (hexdata_fits (by exact hptr) haddr) h
  · next hhex => rwa [if_neg hhex]

theorem skip_blanks_le : line.skip_blanks ≤ line.chars.length := (List.takeWhile_sublist _).length_le

theorem mem_behind (h : a ≤ line.chars.length) : line.mem behind' a = line.mem behind a := by
  unfold Line.mem
  split
  · rfl
  · rw [if_pos (by omega), if_pos (by omega)]

theorem header_behind {ln : Nat} (h : header env line behind ln = .ok r) :
    header env line behind' ln = .ok r := by
  have hfirst : line.mem behind' line.skip_blanks = line.mem behind line.skip_blanks := mem_behind behind' skip_blanks_le
  by_cases hblank : line.mem behind line.skip_blanks = 0x0A ∨ line.mem behind line.skip_blanks = 0x0D
  · unfold header at h ⊢
    dsimp only at h ⊢
    rw [hfirst]
    rwa [if_pos hblank] at h ⊢
  · obtain ⟨hstart, hpos, length, lc₀, hlength, h⟩ := header_length h hblank
    unfold header
    dsimp only
    rw [hfirst, if_neg hblank, if_neg (not_not.mpr hstart)]
    refine bind_eq_ok.mpr ⟨_, hexdata_behind behind' (by exact hpos) hlength, ?_⟩
    have hfits : lc₀.ptr ≤ line.chars.length := hexdata_fits (by exact hpos) hlength
    dsimp only
    split at h
    · next hsrec =>
        have hsecond : line.skip_blanks + 1 ≤ line.chars.length := by
          rw [Env.length_pos, if_pos hsrec] at hpos
          omega
        rw [if_pos hsrec, mem_behind behind' hsecond]
        exact srec_header_behind behind' hfits h
    · next hsrec =>
        rw [if_neg hsrec]
        exact plain_header_behind behind' hfits h

theorem put_data_behind {ea : UInt64} {r : Lc × Loader} (hptr : lc.ptr ≤ line.chars.length)
    (h : st.put_data env (line.mem behind) ea lc = .ok r) : st.put_data env (line.mem behind') ea lc = .ok r := by
  unfold Loader.put_data at h ⊢
  split at h
  · next hempty => rwa [if_pos hempty]
  · next hempty =>
      rw [if_neg hempty]
      obtain ⟨_, hread, h⟩ := bind_eq_ok.mp h
      exact bind_eq_ok.mpr ⟨_, read_data_behind behind' hptr hread, h⟩

theorem data_record_behind {r : Lc × Loader} (hptr : lc.ptr ≤ line.chars.length)
    (h : st.data_record env (line.mem behind) addr lc = .ok r) :
    st.data_record env (line.mem behind') addr lc = .ok r := by
  obtain ⟨⟨lc₁, st₁⟩, hput, h⟩ := bind_eq_ok.mp h
  obtain ⟨_, hchi, h⟩ := bind_eq_ok.mp h
  have hfits := (put_data_spec hptr hput).1.fits hptr
  refine bind_eq_ok.mpr ⟨_, put_data_behind behind' hptr hput, ?_⟩
  exact bind_eq_ok.mpr ⟨_, checksum_behind behind' hfits hchi, h⟩

theorem record_behind {ln : Nat} {r : Loader × Bool} (h : st.record env line behind ln = .ok r) :
    st.record env line behind' ln = .ok r := by
  obtain ⟨hd, hheader, h⟩ := bind_eq_ok.mp h
  refine bind_eq_ok.mpr ⟨hd, header_behind behind' hheader, ?_⟩
  cases hd with
  | data addr lc =>
      obtain ⟨hpos, -, -, -, hreads, -⟩ := header_data hheader
      obtain ⟨_, hdata, h⟩ := bind_eq_ok.mp h
      exact bind_eq_ok.mpr ⟨_, data_record_behind behind' (hreads.fits (by exact hpos)) hdata, h⟩
  | _ => exact h

end

/-! ### The file -/

/-- What an accepted line does. -/
structure Accepted (env : Env) (line : Line) (behind : Nat → UInt8) (ln : Nat) (st st' : Loader) (last : Bool) : Prop
    where
  within : ∀ behind', st.record env line behind' ln = .ok (st', last)
  data : ∀ addr lc, header env line behind ln = .ok (.data addr lc) →
    ∃ length, DataRecord env line behind ln st st' length
  other : (∀ addr lc, header env line behind ln ≠ .ok (.data addr lc)) → Silent st st'

/-- The lines that are read, with the states before them. -/
inductive Processed (env : Env) (behind : Nat → Nat → UInt8) : Loader → Nat → List Line → Loader → Nat → Line → Prop
  | first (st : Loader) (ln : Nat) (line : Line) (lines : List Line) : Processed env behind st ln (line :: lines) st ln line
  | next {st st₁ st₂ : Loader} {ln ln₂ : Nat} {line line₂ : Line} {lines : List Line}
      (h : st.record env line (behind ln) ln = .ok (st₁, false))
      (hrest : Processed env behind st₁ (ln + 1) lines st₂ ln₂ line₂) :
      Processed env behind st ln (line :: lines) st₂ ln₂ line₂

theorem record_accepted {last : Bool} (h : st.record env line behind ln = .ok (st', last)) :
    Accepted env line behind ln st st' last := by
  refine ⟨fun behind' => record_behind behind' h, fun addr lc hdata => ?_, fun hother => ?_⟩
  · obtain ⟨hd, hheader, h⟩ := bind_eq_ok.mp h
    rw [hdata] at hheader
    obtain rfl := Except.ok.inj hheader
    obtain ⟨⟨lc', st₁⟩, hrecord, h⟩ := bind_eq_ok.mp h
    obtain ⟨rfl, -⟩ := Prod.mk.inj (Except.ok.inj h)
    exact data_record_spec hdata hrecord
  · obtain ⟨hd, hheader, h⟩ := bind_eq_ok.mp h
    cases hd with
    | data addr lc => exact absurd hheader (hother addr lc)
    | start addr =>
        obtain ⟨rfl, -⟩ := Prod.mk.inj (Except.ok.inj h)
        exact effect_silent fun _ heq => nomatch heq
    | start32 addr =>
        obtain ⟨rfl, -⟩ := Prod.mk.inj (Except.ok.inj h)
        have hcode16 : Silent st (if env.has_code16_bit && addr &&& 1 != 0 then
            st.effect (.set_code16_mode addr.toUInt64) else st) := by
          split
          · exact effect_silent fun _ heq => nomatch heq
          · exact .refl _
        refine (hcode16.trans (effect_silent ?_)).trans (effect_silent ?_)
        · exact fun _ heq => nomatch heq
        · exact fun _ heq => nomatch heq
    | _ =>
        obtain ⟨rfl, -⟩ := Prod.mk.inj (Except.ok.inj h)
        exact .of_eq rfl rfl

/-- The effects only grow, and what is displayed is among them. -/
structure Grows (st st' : Loader) : Prop where
  effects : ∃ effects, st'.effects = st.effects ++ effects
  displayed : st'.displayed = true → st.displayed = true ∨ ∃ ln, .bad_checksum ln ∈ st'.effects

theorem Grows.mem {e : Effect} (h : Grows st st') (he : e ∈ st.effects) : e ∈ st'.effects := by
  obtain ⟨effects, heffects⟩ := h.effects
  rw [heffects]
  exact List.mem_append_left _ he

theorem Grows.refl (st : Loader) : Grows st st := ⟨⟨[], by rw [List.append_nil]⟩, Or.inl⟩

theorem Grows.trans (h : Grows st st') (h' : Grows st' st'') : Grows st st'' := by
  obtain ⟨effects, heffects⟩ := h.effects
  obtain ⟨effects', heffects'⟩ := h'.effects
  refine ⟨⟨effects ++ effects', by rw [heffects', heffects, List.append_assoc]⟩, fun hdisplayed => ?_⟩
  cases h'.displayed hdisplayed with
  | inl hdisplayed => exact (h.displayed hdisplayed).imp_right fun ⟨ln, hmem⟩ => ⟨ln, h'.mem hmem⟩
  | inr hreport => exact Or.inr hreport

theorem Silent.grows (h : Silent st st') : Grows st st' := by
  obtain ⟨effects, heffects, -⟩ := h.effects
  exact ⟨⟨effects, heffects⟩, fun hdisplayed => Or.inl (h.displayed ▸ hdisplayed)⟩

theorem report_grows (st : Loader) (chi : UInt16) (ln : Nat) : Grows st (st.report chi ln) := by
  refine ⟨report_append st chi ln, fun hdisplayed => ?_⟩
  unfold Loader.report at hdisplayed ⊢
  split at hdisplayed
  · next hreport =>
      rw [if_pos hreport]
      exact Or.inr ⟨ln, List.mem_append_right _ (List.mem_singleton.mpr rfl)⟩
  · exact Or.inl hdisplayed

theorem record_grows {last : Bool} (h : st.record env line behind ln = .ok (st', last)) : Grows st st' := by
  by_cases hdata : ∃ addr lc, header env line behind ln = .ok (.data addr lc)
  · obtain ⟨addr, lc, hdata⟩ := hdata
    obtain ⟨hd, hheader, h⟩ := bind_eq_ok.mp h
    rw [hdata] at hheader
    obtain rfl := Except.ok.inj hheader
    obtain ⟨⟨lc', st₁⟩, hrecord, h⟩ := bind_eq_ok.mp h
    obtain ⟨rfl, -⟩ := Prod.mk.inj (Except.ok.inj h)
    obtain ⟨⟨lc₁, st₁⟩, hput, hrecord⟩ := bind_eq_ok.mp hrecord
    obtain ⟨⟨chi, lc₂⟩, -, hrecord⟩ := bind_eq_ok.mp hrecord
    obtain ⟨-, rfl⟩ := Prod.mk.inj (Except.ok.inj hrecord)
    obtain ⟨hpos, -, -, -, hreads, -⟩ := header_data hdata
    exact (put_data_spec (hreads.fits (by exact hpos)) hput).2.2.grows.trans (report_grows ..)
  · exact ((record_accepted h).other fun addr lc heq => hdata ⟨addr, lc, heq⟩).grows

section
variable {behind : Nat → Nat → UInt8} {st₁ : Loader} {ln ln₁ : Nat} {lines : List Line} {line₁ : Line}

theorem load_file_cons (h : st.load_file env behind ln (line :: lines) = .ok st') :
    ∃ st₁ last, st.record env line (behind ln) ln = .ok (st₁, last) ∧
      (if last then .ok st₁ else st₁.load_file env behind (ln + 1) lines) = Except.ok st' := by
  obtain ⟨⟨st₁, last⟩, hrecord, h⟩ := bind_eq_ok.mp h
  exact ⟨st₁, last, hrecord, h⟩

theorem load_file_grows (h : st.load_file env behind ln lines = .ok st') : Grows st st' := by
  induction lines generalizing st ln with
  | nil =>
      obtain rfl := Except.ok.inj h
      exact .refl st
  | cons line lines ih =>
      obtain ⟨st₁, last, hrecord, h⟩ := load_file_cons h
      cases last with
      | true =>
          obtain rfl := Except.ok.inj h
          exact record_grows hrecord
      | false => exact (record_grows hrecord).trans (ih h)

theorem load_file_processed (h : st.load_file env behind ln lines = .ok st')
    (hline : Processed env behind st ln lines st₁ ln₁ line₁) :
    ∃ st₂ last, st₁.record env line₁ (behind ln₁) ln₁ = .ok (st₂, last) ∧ Grows st st₁ ∧ Grows st₂ st' := by
  induction hline with
  | first st ln line lines =>
      obtain ⟨st₂, last, hrecord, h⟩ := load_file_cons h
      refine ⟨st₂, last, hrecord, .refl st, ?_⟩
      cases last with
      | true =>
          obtain rfl := Except.ok.inj h
          exact .refl _
      | false => exact load_file_grows h
  | next hfirst hrest ih =>
      obtain ⟨st₁, last, hrecord, h⟩ := load_file_cons h
      rw [hfirst] at hrecord
      obtain ⟨rfl, rfl⟩ := Prod.mk.inj (Except.ok.inj hrecord)
      obtain ⟨st₂, last, hrecord₂, hbefore, hafter⟩ := ih h
      exact ⟨st₂, last, hrecord₂, (record_grows hfirst).trans hbefore, hafter⟩

end

/-- What a line of a file that is loaded is made of, and when its checksum is reported. -/
structure LineLoaded (env : Env) (line : Line) (behind : Nat → UInt8) (ln : Nat) (st₀ st st' : Loader) : Prop where
  accepted : ∃ st₁ last, st.record env line behind ln = .ok (st₁, last) ∧ Accepted env line behind ln st st₁ last
  reported : ∀ addr lc length, header env line behind ln = .ok (.data addr lc) →
    (∃ lc, hexdata (line.mem behind) 0 ⟨env.length_pos line, ln, 0, 0⟩ = .ok (length, lc)) →
    (∀ c ∈ line.slice (env.length_pos line) (env.ftype.record_end (env.length_pos line) length), isDigit c = true) →
    ¬env.ftype.Matches line (env.length_pos line) (env.ftype.record_end (env.length_pos line) length) →
    st₀.displayed = true ∨ ∃ ln, .bad_checksum ln ∈ st'.effects

theorem load_file_records (env : Env) (behind : Nat → Nat → UInt8) :
    (∀ (line : Line) (ln size : Nat) (lc : Lc) (data : UInt32) (lc' : Lc), lc.ptr ≤ line.chars.length →
      hexdata (line.mem (behind ln)) size lc = .ok (data, lc') → Took line size lc data lc') ∧
    ∀ (st st' st₁ : Loader) (ln ln₁ : Nat) (lines : List Line) (line : Line),
      st.load_file env behind ln lines = .ok st' → Processed env behind st ln lines st₁ ln₁ line →
      LineLoaded env line (behind ln₁) ln₁ st st₁ st' := by
  refine ⟨fun _ _ _ _ _ _ hptr h => hexdata_took hptr h, fun st st' st₁ ln ln₁ lines line h hline => ?_⟩
  obtain ⟨st₂, last, hrecord, hbefore, hafter⟩ := load_file_processed h hline
  have haccepted := record_accepted hrecord
  refine ⟨⟨st₂, last, hrecord, haccepted⟩, fun addr lc length hheader ⟨lc₀, hlength⟩ hdigits hwrong => ?_⟩
  obtain ⟨length', hdata⟩ := haccepted.data addr lc hheader
  obtain ⟨lc₀', hlength'⟩ := hdata.announced
  rw [hlength] at hlength'
  obtain ⟨rfl, -⟩ := Prod.mk.inj (Except.ok.inj hlength')
  cases hdisplayed : st₁.displayed with
  | false =>
      -- the first mismatch: this line is reported
      obtain ⟨effects, heffects, hmem⟩ := (hdata.reported hdigits).mpr ⟨hwrong, hdisplayed⟩
      refine Or.inr ⟨ln₁, hafter.mem ?_⟩
      rw [heffects]
      exact List.mem_append_right _ hmem
  | true =>
      refine (hbefore.displayed hdisplayed).imp_right fun ⟨n, hmem⟩ => ⟨n, hafter.mem ?_⟩
      exact (record_grows hrecord).mem hmem

/-- An Intel file in a program without options. -/
def intel : Env := ⟨.f_HEX, 1, false, false, false, true, 0, fun _ _ => true⟩

def fresh : Loader := ⟨0, 0, 0, 0, false, false, false, []⟩

/-- The line `:0100000041BF`, a data record with a wrong checksum. -/
def wrong_data : Line :=
  ⟨[0x3A, 0x30, 0x31, 0x30, 0x30, 0x30, 0x30, 0x30, 0x30, 0x34, 0x31, 0x42, 0x46, 0x0A], by decide, by decide, by decide⟩

theorem load_file_records_wrong_data :
    Took wrong_data 0 ⟨1, 1, 0, 0⟩ 1 ⟨3, 1, 1, 1⟩ ∧
      ∃ st', fresh.load_file intel (fun _ _ => 0) 1 [wrong_data] = .ok st' ∧
        LineLoaded intel wrong_data (fun _ => 0) 1 fresh fresh st' :=
  ⟨(load_file_records intel fun _ _ => 0).1 wrong_data 1 0 ⟨1, 1, 0, 0⟩ 1 ⟨3, 1, 1, 1⟩ (by decide) rfl,
    _, rfl, (load_file_records intel fun _ _ => 0).2 fresh _ fresh 1 1 [wrong_data] wrong_data rfl (.first ..)⟩

/-- The line `:020000040001FF`, an address record with a wrong checksum. -/
def wrong_address : Line :=
  ⟨[0x3A, 0x30, 0x32, 0x30, 0x30, 0x30, 0x30, 0x30, 0x34, 0x30, 0x30, 0x30, 0x31, 0x46, 0x46, 0x0A], by decide,
    by decide, by decide⟩

/-- The checksum of an address record is not looked at. -/
theorem record_unchecked :
    ∃ st', fresh.record intel wrong_address (fun _ => 0) 1 = .ok (st', false) ∧
      ¬FileType.f_HEX.Matches wrong_address 1 15 ∧ st'.displayed = false ∧ st'.effects = [] :=
  ⟨_, rfl, by unfold FileType.Matches; decide, rfl, rfl⟩

end IdaSdk.HexLoader
