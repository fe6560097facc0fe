import IdaSdk.PdbOverlapModel

/-!
The order in which a compiler filled the storage units of a PDB structure's bitfields. A PDB counts the position of a
field from the least significant bit in either order, so `detect_bf_order` looks at the direction in which the positions
of a unit move, and `reverse_bf_offsets` counts them from the other end.
-/

namespace IdaSdk.PdbBitfields
open PdbOverlap

inductive bf_order_t where
  | BFO_DEFAULT | BFO_LSB_TO_MSB | BFO_MSB_TO_LSB
deriving DecidableEq

def minus (x y : Nat) : Nat := wrap (x + 2 ^ 64 - y)

def bf_unit_start (udm : pdb_udm_t) : Nat := minus udm.offset udm.bit_offset

/-- What `detect_bf_order` has seen. -/
structure Seen where
  saw_lsb : Bool
  saw_msb : Bool
  saw_lone_at_lsb : Bool

/-- Whether a member is in the unit that begins with `bi`. -/
def in_unit (bi udm : pdb_udm_t) : Bool :=
  udm.is_bitfield && udm.nbytes == bi.nbytes && bf_unit_start udm == bf_unit_start bi

/-- The loop over the members of one unit. -/
def compare_fields (seen : Seen) : List pdb_udm_t → Seen
  | m :: m' :: fields =>
    compare_fields
      (if m'.bit_offset > m.bit_offset then { seen with saw_lsb := true }
       else if m'.bit_offset < m.bit_offset then { seen with saw_msb := true }
       else if m'.size ≠ m.size then { seen with saw_lsb := true }
       else seen)
      (m' :: fields)
  | _ => seen

/-- The loop over the units. -/
def detect_loop (seen : Seen) : List pdb_udm_t → Seen
  | [] => seen
  | m :: udt =>
    if m.is_bitfield = false then detect_loop seen udt
    else
      detect_loop
        (if udt.takeWhile (in_unit m) ≠ [] then compare_fields seen (m :: udt.takeWhile (in_unit m))
         else if m.bit_offset = 0 ∧ m.size < m.nbytes * 8 then { seen with saw_lone_at_lsb := true }
         else seen)
        (udt.dropWhile (in_unit m))
termination_by udt => udt.length
decreasing_by
  · exact Nat.lt_succ_self _
  · exact Nat.lt_succ_of_le (List.dropWhile_sublist _).length_le

def detect_bf_order (udt : List pdb_udm_t) : bf_order_t :=
  let seen := detect_loop ⟨false, false, false⟩ udt
  if seen.saw_msb ≠ seen.saw_lsb then if seen.saw_msb then .BFO_MSB_TO_LSB else .BFO_LSB_TO_MSB
  else if seen.saw_msb then .BFO_DEFAULT
  else if seen.saw_lone_at_lsb then .BFO_LSB_TO_MSB else .BFO_DEFAULT

/-- The body of the loop of `reverse_bf_offsets`; `bit_offset` is a `uint32`. -/
def reverse_bf (udm : pdb_udm_t) : pdb_udm_t :=
  if udm.is_bitfield = false then udm
  else
    let nbits := udm.nbytes * 8
    if wrap (udm.bit_offset + udm.size) > nbits then udm
    else
      let start := bf_unit_start udm
      let bit_offset := minus (minus nbits udm.bit_offset) udm.size % 2 ^ 32
      { udm with bit_offset, offset := wrap (start + bit_offset) }

def reverse_bf_offsets (udt : List pdb_udm_t) : List pdb_udm_t := udt.map reverse_bf

/-- The lines of `convert_udt` about the order: the members and the flag `TAUDT_INVBF`. -/
def convert_bf_order (inf_bf_order : bf_order_t) (udt : List pdb_udm_t) (invbf : Bool) : List pdb_udm_t × Bool :=
  let detected := detect_bf_order udt
  let bf_order := if detected = .BFO_DEFAULT then inf_bf_order else detected
  (if bf_order = .BFO_MSB_TO_LSB then reverse_bf_offsets udt else udt, invbf || decide (bf_order ≠ inf_bf_order))

/-- A storage unit and the fields it was filled with, in the order of their declarations. -/
structure StorageUnit where
  start : Nat
  nbytes : Nat
  fields : List pdb_udm_t

/-- The second field is put after the first one. Unnamed fields in between leave room. -/
def Follows : bf_order_t → pdb_udm_t → pdb_udm_t → Prop
  | .BFO_LSB_TO_MSB, m, m' => m.bit_offset + m.size ≤ m'.bit_offset
  | .BFO_MSB_TO_LSB, m, m' => m'.bit_offset + m'.size ≤ m.bit_offset
  | .BFO_DEFAULT, _, _ => False

/-- A field of a unit as the PDB records it. -/
structure Placed (start nbytes : Nat) (m : pdb_udm_t) : Prop where
  type : m.type = .bitfield nbytes
  offset : m.offset = start + m.bit_offset
  size : 0 < m.size
  fits : m.bit_offset + m.size ≤ nbytes * 8

structure StorageUnit.Filled (order : bf_order_t) (u : StorageUnit) : Prop where
  nbytes : u.nbytes ∈ [1, 2, 4, 8]
  fits : u.start + u.nbytes * 8 ≤ 2 ^ 64
  placed : ∀ m ∈ u.fields, Placed u.start u.nbytes m
  order : u.fields.Pairwise (Follows order)

/-- A structure consists of storage units and of other members. -/
inductive Slot where
  | member (m : pdb_udm_t)
  | unit (u : StorageUnit)

def Slot.members : Slot → List pdb_udm_t
  | .member m => [m]
  | .unit u => u.fields

def Slot.unit? : Slot → Option StorageUnit
  | .member _ => none
  | .unit u => some u

def members (slots : List Slot) : List pdb_udm_t := slots.flatMap Slot.members

def units (slots : List Slot) : List StorageUnit := slots.filterMap Slot.unit?

/-- The compiler fills each unit in the order and lays the units out one after the other. -/
structure Laid (order : bf_order_t) (slots : List Slot) : Prop where
  filled : ∀ u ∈ units slots, u.Filled order
  others : ∀ m, .member m ∈ slots → m.is_bitfield = false
  apart : (units slots).Pairwise fun u v => u.start + u.nbytes * 8 ≤ v.start

def Apart (m m' : pdb_udm_t) : Prop := m.offset + m.size ≤ m'.offset ∨ m'.offset + m'.size ≤ m.offset

variable {order : bf_order_t} {slots : List Slot} {u : StorageUnit} {m m' : pdb_udm_t} {start nbytes : Nat}

theorem minus_of_le {x y : Nat} (hx : x < 2 ^ 64) (h : y ≤ x) : minus x y = x - y := by
  unfold minus wrap
  omega

theorem Placed.is_bitfield (h : Placed start nbytes m) : m.is_bitfield = true := by
  rw [pdb_udm_t.is_bitfield, h.type]

theorem Placed.nbytes_eq (h : Placed start nbytes m) : m.nbytes = nbytes := by
  rw [pdb_udm_t.nbytes, h.type]

theorem Placed.unit_start (h : Placed start nbytes m) (hfits : start + nbytes * 8 ≤ 2 ^ 64) :
    bf_unit_start m = start := by
  have hsize := h.size
  have hroom := h.fits
  rw [bf_unit_start, h.offset, minus_of_le (by omega) (Nat.le_add_left _ _), Nat.add_sub_cancel]

theorem reverse_bf_eq (htype : m.type = .bitfield nbytes) (hfits : m.bit_offset + m.size ≤ nbytes * 8)
    (hbits : nbytes * 8 < 2 ^ 32) :
    reverse_bf m = { m with
      bit_offset := nbytes * 8 - m.bit_offset - m.size,
      offset := wrap (bf_unit_start m + (nbytes * 8 - m.bit_offset - m.size)) } := by
  have hbit : m.is_bitfield = true := by rw [pdb_udm_t.is_bitfield, htype]
  have hbytes : m.nbytes = nbytes := by rw [pdb_udm_t.nbytes, htype]
  have hsum : wrap (m.bit_offset + m.size) ≤ nbytes * 8 := Nat.le_trans (Nat.mod_le _ _) hfits
  have hposition : minus (minus (nbytes * 8) m.bit_offset) m.size % 2 ^ 32 =
      nbytes * 8 - m.bit_offset - m.size := by
    have hinner : minus (nbytes * 8) m.bit_offset = nbytes * 8 - m.bit_offset := minus_of_le (by omega) (by omega)
    rw [hinner, minus_of_le (by omega) (by omega), Nat.mod_eq_of_lt (by omega)]
  rw [reverse_bf, if_neg (by rw [hbit]; decide), hbytes]
  dsimp only
  rw [if_neg (Nat.not_lt.mpr hsum), hposition]

theorem reverse_bf_other (h : m.is_bitfield = false) : reverse_bf m = m := by
  rw [reverse_bf, if_pos h]

/-- A bitfield, its numbers within their types, that fits its unit. -/
structure Fits (m : pdb_udm_t) : Prop where
  offset : m.offset < 2 ^ 64
  nbytes : m.nbytes < 2 ^ 8
  fits : m.bit_offset + m.size ≤ m.nbytes * 8

theorem reverse_bf_reverse_bf (h : m.is_bitfield = true → Fits m) : reverse_bf (reverse_bf m) = m := by
  cases hbit : m.is_bitfield with
  | false => rw [reverse_bf_other hbit, reverse_bf_other hbit]
  | true =>
      have htype : m.type = .bitfield m.nbytes := by
        unfold pdb_udm_t.is_bitfield at hbit
        unfold pdb_udm_t.nbytes
        split at hbit
        · case h_1 n htype => rw [htype]
        · cases hbit
      obtain ⟨hoffset, hbyte, hroom⟩ := h hbit
      have hbytes : m.nbytes * 8 < 2 ^ 32 := by omega
      have hfirst := reverse_bf_eq htype hroom hbytes
      have htype' : (reverse_bf m).type = .bitfield m.nbytes := by
        rw [hfirst]
        exact htype
      have hsecond := reverse_bf_eq htype' (by rw [hfirst]; dsimp only; omega) hbytes
      rw [hsecond, hfirst]
      cases m with
      | mk tag offset size name bit_offset is_baseclass type =>
          dsimp only at hroom hoffset
          simp only [pdb_udm_t.mk.injEq, true_and, and_true, bf_unit_start, minus, wrap]
          omega

theorem Placed.reverse (h : Placed start nbytes m) (hfits : start + nbytes * 8 ≤ 2 ^ 64) (hbits : nbytes * 8 < 2 ^ 32) :
    Placed start nbytes (reverse_bf m) ∧ (reverse_bf m).size = m.size ∧
      (reverse_bf m).bit_offset = nbytes * 8 - m.bit_offset - m.size := by
  have hroom := h.fits
  have hsize := h.size
  have heq := reverse_bf_eq h.type hroom hbits
  rw [h.unit_start hfits] at heq
  rw [heq]
  refine ⟨⟨h.type, ?_, h.size, ?_⟩, rfl, rfl⟩
  · exact Nat.mod_eq_of_lt (by omega)
  · dsimp only
    omega

theorem StorageUnit.Filled.bits_lt (h : u.Filled order) : u.nbytes * 8 < 2 ^ 32 := by
  have hbytes := h.nbytes
  simp only [List.mem_cons, List.not_mem_nil, or_false] at hbytes
  omega

theorem StorageUnit.Filled.fits_of_mem (h : u.Filled order) (hm : m ∈ u.fields) : Fits m where
  offset := by
    have hroom := (h.placed m hm).fits
    have hsize := (h.placed m hm).size
    have hunit := h.fits
    rw [(h.placed m hm).offset]
    omega
  nbytes := by
    have hbytes := h.nbytes
    rw [(h.placed m hm).nbytes_eq]
    simp only [List.mem_cons, List.not_mem_nil, or_false] at hbytes
    omega
  fits := by
    rw [(h.placed m hm).nbytes_eq]
    exact (h.placed m hm).fits

theorem StorageUnit.Filled.order_ne (h : u.Filled order) (hlen : 2 ≤ u.fields.length) : order ≠ .BFO_DEFAULT := by
  rintro rfl
  match hfields : u.fields, hlen with
  | m :: m' :: fields, _ =>
    have horder := h.order
    rw [hfields] at horder
    exact (List.pairwise_cons.mp horder).1 m' List.mem_cons_self

theorem apart_of_follows (hm : Placed start nbytes m) (hm' : Placed start nbytes m') (h : Follows order m m') :
    Apart m m' := by
  have ho := hm.offset
  have ho' := hm'.offset
  cases order with
  | BFO_DEFAULT => exact h.elim
  | BFO_LSB_TO_MSB =>
      have hle : m.bit_offset + m.size ≤ m'.bit_offset := h
      left
      omega
  | BFO_MSB_TO_LSB =>
      have hle : m'.bit_offset + m'.size ≤ m.bit_offset := h
      right
      omega

def opposite : bf_order_t → bf_order_t
  | .BFO_LSB_TO_MSB => .BFO_MSB_TO_LSB
  | .BFO_MSB_TO_LSB => .BFO_LSB_TO_MSB
  | .BFO_DEFAULT => .BFO_DEFAULT

theorem follows_reverse (hm : Placed start nbytes m) (hm' : Placed start nbytes m')
    (hfits : start + nbytes * 8 ≤ 2 ^ 64) (hbits : nbytes * 8 < 2 ^ 32) (h : Follows order m m') :
    Follows (opposite order) (reverse_bf m) (reverse_bf m') := by
  obtain ⟨-, hsize, hposition⟩ := hm.reverse hfits hbits
  obtain ⟨-, hsize', hposition'⟩ := hm'.reverse hfits hbits
  have hroom := hm.fits
  have hroom' := hm'.fits
  cases order with
  | BFO_DEFAULT => exact h
  | BFO_LSB_TO_MSB =>
      have hle : m.bit_offset + m.size ≤ m'.bit_offset := h
      change (reverse_bf m').bit_offset + (reverse_bf m').size ≤ (reverse_bf m).bit_offset
      omega
  | BFO_MSB_TO_LSB =>
      have hle : m'.bit_offset + m'.size ≤ m.bit_offset := h
      change (reverse_bf m).bit_offset + (reverse_bf m).size ≤ (reverse_bf m').bit_offset
      omega

def StorageUnit.reversed (u : StorageUnit) : StorageUnit := { u with fields := reverse_bf_offsets u.fields }

theorem StorageUnit.Filled.reversed (h : u.Filled order) : u.reversed.Filled (opposite order) where
  nbytes := h.nbytes
  fits := h.fits
  placed := by
    intro m hm
    obtain ⟨m₀, hm₀, rfl⟩ := List.mem_map.mp hm
    exact ((h.placed m₀ hm₀).reverse h.fits h.bits_lt).1
  order := by
    refine List.pairwise_map.mpr (h.order.imp_of_mem fun hm hm' hfollows => ?_)
    exact follows_reverse (h.placed _ hm) (h.placed _ hm') h.fits h.bits_lt hfollows

theorem StorageUnit.Filled.apart (h : u.Filled order) : u.fields.Pairwise Apart :=
  h.order.imp_of_mem fun hm hm' hfollows => apart_of_follows (h.placed _ hm) (h.placed _ hm') hfollows

/-! ### The structure -/

section Slots
variable {slot : Slot}

theorem units_cons_unit : units (.unit u :: slots) = u :: units slots := rfl

theorem members_cons : members (slot :: slots) = slot.members ++ members slots := List.flatMap_cons

theorem Laid.tail (h : Laid order (slot :: slots)) : Laid order slots := by
  cases slot with
  | member m =>
      exact ⟨h.filled, fun m' hm' => h.others m' (List.mem_cons_of_mem _ hm'), h.apart⟩
  | unit u =>
      exact ⟨fun v hv => h.filled v (List.mem_cons_of_mem _ hv), fun m' hm' => h.others m' (List.mem_cons_of_mem _ hm'),
        h.apart.of_cons⟩

theorem Laid.head (h : Laid order (.unit u :: slots)) : u.Filled order := h.filled u List.mem_cons_self

theorem Laid.next (h : Laid order (.unit u :: slots)) {v : StorageUnit} (hv : v ∈ units slots) :
    u.start + u.nbytes * 8 ≤ v.start :=
  (List.pairwise_cons.mp h.apart).1 v hv

theorem Laid.unit_of_mem (h : Laid order slots) (hm : m ∈ members slots) (hbit : m.is_bitfield = true) :
    ∃ u ∈ units slots, m ∈ u.fields := by
  obtain ⟨slot, hslot, hmem⟩ := List.mem_flatMap.mp hm
  cases slot with
  | member m' =>
      cases List.mem_singleton.mp hmem
      rw [h.others m hslot] at hbit
      cases hbit
  | unit u => exact ⟨u, List.mem_filterMap.mpr ⟨.unit u, hslot, rfl⟩, hmem⟩

def Slot.reversed : Slot → Slot
  | .member m => .member m
  | .unit u => .unit u.reversed

theorem units_reversed (slots : List Slot) :
    units (slots.map Slot.reversed) = (units slots).map StorageUnit.reversed := by
  induction slots with
  | nil => rfl
  | cons slot slots ih =>
      cases slot with
      | member m => exact ih
      | unit u => exact congrArg (u.reversed :: ·) ih

theorem Laid.members_reversed (h : Laid order slots) :
    members (slots.map Slot.reversed) = reverse_bf_offsets (members slots) := by
  induction slots with
  | nil => rfl
  | cons slot slots ih =>
      rw [List.map_cons, members_cons, members_cons, ih h.tail]
      simp only [reverse_bf_offsets, List.map_append]
      cases slot with
      | member m =>
          change m :: _ = reverse_bf m :: _
          rw [reverse_bf_other (h.others m List.mem_cons_self)]
          rfl
      | unit u => rfl

theorem Laid.reversed (h : Laid order slots) : Laid (opposite order) (slots.map Slot.reversed) where
  filled := by
    intro u hu
    rw [units_reversed] at hu
    obtain ⟨u₀, hu₀, rfl⟩ := List.mem_map.mp hu
    exact (h.filled u₀ hu₀).reversed
  others := by
    intro m hm
    obtain ⟨slot, hslot, heq⟩ := List.mem_map.mp hm
    cases slot with
    | member m' =>
        cases heq
        exact h.others m hslot
    | unit u => cases heq
  apart := by
    rw [units_reversed]
    exact List.pairwise_map.mpr h.apart

theorem Laid.increasing (h : Laid .BFO_LSB_TO_MSB slots) :
    ((members slots).filter pdb_udm_t.is_bitfield).Pairwise fun m m' => m.offset < m'.offset := by
  induction slots with
  | nil => exact .nil
  | cons slot slots ih =>
      rw [members_cons, List.filter_append, List.pairwise_append]
      refine ⟨?_, ih h.tail, ?_⟩
      · cases slot with
        | member m =>
            change ([m].filter pdb_udm_t.is_bitfield).Pairwise _
            rw [List.filter_cons_of_neg (by rw [h.others m List.mem_cons_self]; decide)]
            exact .nil
        | unit u =>
            refine List.Pairwise.filter _ (h.head.order.imp_of_mem fun {m m'} hm hm' hle => ?_)
            have hsize := (h.head.placed m hm).size
            have hfollows : m.bit_offset + m.size ≤ m'.bit_offset := hle
            rw [(h.head.placed m hm).offset, (h.head.placed m' hm').offset]
            omega
      · intro m hm m' hm'
        obtain ⟨hm, hbit⟩ := List.mem_filter.mp hm
        obtain ⟨hm', hbit'⟩ := List.mem_filter.mp hm'
        cases slot with
        | member m₀ =>
            cases List.mem_singleton.mp hm
            rw [h.others m List.mem_cons_self] at hbit
            cases hbit
        | unit u =>
            obtain ⟨v, hv, hmem⟩ := h.tail.unit_of_mem hm' hbit'
            have hnext := h.next hv
            have hfield := h.head.placed m hm
            have hroom := hfield.fits
            have hsize := hfield.size
            rw [hfield.offset, ((h.tail.filled v hv).placed m' hmem).offset]
            omega

/-! ### Detection -/

theorem Placed.in_unit (hm : Placed start nbytes m) (hm' : Placed start nbytes m')
    (hfits : start + nbytes * 8 ≤ 2 ^ 64) : in_unit m m' = true := by
  rw [PdbBitfields.in_unit, hm'.is_bitfield, hm.nbytes_eq, hm'.nbytes_eq, hm.unit_start hfits, hm'.unit_start hfits]
  simp

theorem Laid.not_in_unit (h : Laid order (.unit u :: slots)) (hm : m ∈ u.fields) (hm' : m' ∈ members slots) :
    in_unit m m' = false := by
  cases hbit : m'.is_bitfield with
  | false => rw [PdbBitfields.in_unit, hbit, Bool.false_and, Bool.false_and]
  | true =>
      obtain ⟨v, hv, hmem⟩ := h.tail.unit_of_mem hm' hbit
      have hfilled := h.tail.filled v hv
      have hnext := h.next hv
      have hplaced := h.head.placed m hm
      have hroom := hplaced.fits
      have hsize := hplaced.size
      have hne : bf_unit_start m' ≠ bf_unit_start m := by
        rw [(hfilled.placed m' hmem).unit_start hfilled.fits, hplaced.unit_start h.head.fits]
        omega
      rw [PdbBitfields.in_unit, beq_false_of_ne hne, Bool.and_false]

def Seen.moved (seen : Seen) (order : bf_order_t) (several : Bool) : Seen :=
  { seen with
    saw_lsb := seen.saw_lsb || (several && decide (order = .BFO_LSB_TO_MSB))
    saw_msb := seen.saw_msb || (several && decide (order = .BFO_MSB_TO_LSB)) }

variable (seen : Seen)

theorem Seen.moved_moved (order : bf_order_t) (several : Bool) :
    (seen.moved order true).moved order several = seen.moved order true := by
  simp only [Seen.moved, Bool.true_and, Seen.mk.injEq]
  cases several <;> simp

theorem Seen.moved_false (order : bf_order_t) : seen.moved order false = seen := by
  simp only [Seen.moved, Bool.false_and, Bool.or_false]

theorem compare_fields_spec (fields : List pdb_udm_t) (horder : fields.Pairwise (Follows order))
    (hsize : ∀ m ∈ fields, 0 < m.size) :
    compare_fields seen fields = seen.moved order (decide (2 ≤ fields.length)) := by
  induction fields generalizing seen with
  | nil => exact (seen.moved_false order).symm
  | cons m fields ih =>
      cases fields with
      | nil => exact (seen.moved_false order).symm
      | cons m' fields =>
          have hfollows : Follows order m m' := (List.pairwise_cons.mp horder).1 m' List.mem_cons_self
          have hpos := hsize m List.mem_cons_self
          have hpos' := hsize m' (List.mem_cons_of_mem _ List.mem_cons_self)
          have hmove : compare_fields seen (m :: m' :: fields) =
              compare_fields (seen.moved order true) (m' :: fields) := by
            rw [compare_fields]
            congr 1
            cases order with
            | BFO_DEFAULT => exact hfollows.elim
            | BFO_LSB_TO_MSB =>
                have hle : m.bit_offset + m.size ≤ m'.bit_offset := hfollows
                rw [if_pos (by omega)]
                simp [Seen.moved]
            | BFO_MSB_TO_LSB =>
                have hle : m'.bit_offset + m'.size ≤ m.bit_offset := hfollows
                rw [if_neg (by omega), if_pos (by omega)]
                simp [Seen.moved]
          rw [hmove, ih _ horder.of_cons fun m hm => hsize m (List.mem_cons_of_mem _ hm), Seen.moved_moved,
            decide_eq_true (show 2 ≤ (m :: m' :: fields).length from Nat.le_add_left 2 fields.length)]

theorem takeWhile_unit {l rest : List pdb_udm_t} {p : pdb_udm_t → Bool} (hl : ∀ m ∈ l, p m = true)
    (hrest : ∀ m ∈ rest, p m = false) : (l ++ rest).takeWhile p = l ∧ (l ++ rest).dropWhile p = rest := by
  rw [List.takeWhile_append_of_pos hl, List.dropWhile_append_of_pos hl]
  cases rest with
  | nil => exact ⟨List.append_nil l, rfl⟩
  | cons m rest =>
      have hm := hrest m List.mem_cons_self
      rw [List.takeWhile_cons_of_neg (by rw [hm]; decide), List.dropWhile_cons_of_neg (by rw [hm]; decide)]
      exact ⟨List.append_nil l, rfl⟩

/-- Two records agree on the directions that were seen. -/
def Seen.Agrees (seen seen' : Seen) : Prop := seen.saw_lsb = seen'.saw_lsb ∧ seen.saw_msb = seen'.saw_msb

theorem Seen.Agrees.trans {a b c : Seen} (hab : a.Agrees b) (hbc : b.Agrees c) : a.Agrees c :=
  ⟨hab.1.trans hbc.1, hab.2.trans hbc.2⟩

theorem Seen.Agrees.moved {a b : Seen} {several : Bool} (h : a.Agrees (b.moved order several)) (more : Bool) :
    (a.moved order more).Agrees (b.moved order (several || more)) := by
  obtain ⟨hlsb, hmsb⟩ := h
  simp only [Seen.Agrees, Seen.moved] at *
  rw [hlsb, hmsb]
  cases several <;> cases more <;> simp

theorem detect_unit (h : Laid order (.unit u :: slots)) (seen : Seen) :
    ∃ seen', detect_loop seen (u.fields ++ members slots) = detect_loop seen' (members slots) ∧
      seen'.Agrees (seen.moved order (decide (2 ≤ u.fields.length))) := by
  cases hfields : u.fields with
  | nil => exact ⟨seen, rfl, by rw [List.length_nil]; exact (congrArg _ (seen.moved_false order)).symm.mp ⟨rfl, rfl⟩⟩
  | cons m fields =>
      have hm : m ∈ u.fields := by
        rw [hfields]
        exact List.mem_cons_self
      have hsub : ∀ m' ∈ fields, m' ∈ u.fields := by
        rw [hfields]
        exact fun m' => List.mem_cons_of_mem m
      obtain ⟨htake, hdrop⟩ := takeWhile_unit (p := in_unit m)
        (fun m' hm' => (h.head.placed m hm).in_unit (h.head.placed m' (hsub m' hm')) h.head.fits)
        fun m' hm' => h.not_in_unit hm hm'
      rw [List.cons_append, detect_loop, if_neg (by rw [(h.head.placed m hm).is_bitfield]; decide), htake, hdrop]
      refine ⟨_, rfl, ?_⟩
      by_cases hlone : fields = []
      · rw [if_neg (by rw [hlone]; exact fun h => h rfl), hlone, List.length_singleton]
        have hsame : seen.moved order (decide (2 ≤ 1)) = seen := seen.moved_false order
        rw [hsame]
        split <;> exact ⟨rfl, rfl⟩
      · rw [if_pos hlone, ← hfields,
          compare_fields_spec seen u.fields h.head.order fun m' hm' => (h.head.placed m' hm').size]
        exact ⟨rfl, rfl⟩

theorem detect_loop_spec (h : Laid order slots) (seen : Seen) :
    (detect_loop seen (members slots)).Agrees
      (seen.moved order ((units slots).any fun u => decide (2 ≤ u.fields.length))) := by
  induction slots generalizing seen with
  | nil =>
      have hnone : seen.moved order ((units []).any fun u => decide (2 ≤ u.fields.length)) = seen :=
        seen.moved_false order
      rw [hnone, members, List.flatMap_nil, detect_loop]
      exact ⟨rfl, rfl⟩
  | cons slot slots ih =>
      rw [members_cons]
      cases slot with
      | member m =>
          change (detect_loop seen (m :: members slots)).Agrees _
          rw [detect_loop, if_pos (h.others m List.mem_cons_self)]
          exact ih h.tail seen
      | unit u =>
          obtain ⟨seen', hloop, hseen⟩ := detect_unit h seen
          change (detect_loop seen (u.fields ++ members slots)).Agrees _
          rw [hloop, units_cons_unit, List.any_cons]
          exact (ih h.tail seen').trans (hseen.moved _)

theorem detect_bf_order_spec (h : Laid order slots) (hseveral : ∃ u ∈ units slots, 2 ≤ u.fields.length) :
    detect_bf_order (members slots) = order := by
  obtain ⟨u, hu, hlen⟩ := hseveral
  have hany : ((units slots).any fun u => decide (2 ≤ u.fields.length)) = true :=
    List.any_eq_true.mpr ⟨u, hu, decide_eq_true hlen⟩
  obtain ⟨hlsb, hmsb⟩ := detect_loop_spec h ⟨false, false, false⟩
  rw [hany] at hlsb hmsb
  rw [detect_bf_order, hlsb, hmsb]
  cases order with
  | BFO_LSB_TO_MSB => rfl
  | BFO_MSB_TO_LSB => rfl
  | BFO_DEFAULT => exact absurd rfl ((h.filled u hu).order_ne hlen)

end Slots

/-- The order in which a compiler filled the units is found, and reversal keeps the fields in their units and gives the
fields of an MSB-to-LSB structure increasing offsets. It is its own inverse. -/
theorem bf_order_recovered (order : bf_order_t) (slots : List Slot) (h : Laid order slots) :
    ((∃ u ∈ units slots, 2 ≤ u.fields.length) → detect_bf_order (members slots) = order ∧
      ∀ inf_bf_order invbf, convert_bf_order inf_bf_order (members slots) invbf =
        (if order = .BFO_MSB_TO_LSB then reverse_bf_offsets (members slots) else members slots,
          invbf || decide (order ≠ inf_bf_order))) ∧
    (∀ u ∈ units slots, (∀ m ∈ u.fields, (reverse_bf m).type = m.type ∧ (reverse_bf m).size = m.size ∧
        (reverse_bf m).bit_offset + m.size ≤ u.nbytes * 8 ∧
        (reverse_bf m).offset = u.start + (reverse_bf m).bit_offset ∧ bf_unit_start (reverse_bf m) = u.start) ∧
      (reverse_bf_offsets u.fields).Pairwise Apart) ∧
    (order = .BFO_MSB_TO_LSB → ((reverse_bf_offsets (members slots)).filter pdb_udm_t.is_bitfield).Pairwise
      fun m m' => m.offset < m'.offset) ∧
    reverse_bf_offsets (reverse_bf_offsets (members slots)) = members slots ∧
    ∀ udt : List pdb_udm_t, (∀ m ∈ udt, m.is_bitfield = true → Fits m) →
      reverse_bf_offsets (reverse_bf_offsets udt) = udt := by
  have hinverse : ∀ udt : List pdb_udm_t, (∀ m ∈ udt, m.is_bitfield = true → Fits m) →
      reverse_bf_offsets (reverse_bf_offsets udt) = udt := by
    intro udt hfits
    rw [reverse_bf_offsets, reverse_bf_offsets, List.map_map]
    exact (List.map_congr_left fun m hm => reverse_bf_reverse_bf (hfits m hm)).trans (List.map_id udt)
  refine ⟨fun hseveral => ⟨detect_bf_order_spec h hseveral, fun inf_bf_order invbf => ?_⟩,
    fun u hu => ⟨fun m hm => ?_, ?_⟩, ?_, hinverse _ fun m hm hbit => ?_, hinverse⟩
  · have hdetect := detect_bf_order_spec h hseveral
    obtain ⟨u, hu, hlen⟩ := hseveral
    have hknown := (h.filled u hu).order_ne hlen
    rw [convert_bf_order, hdetect, if_neg hknown]
  · have hfilled := h.filled u hu
    obtain ⟨hplaced, hsize, -⟩ := (hfilled.placed m hm).reverse hfilled.fits hfilled.bits_lt
    have hroom := hplaced.fits
    rw [hsize] at hroom
    exact ⟨hplaced.type.trans (hfilled.placed m hm).type.symm, hsize, hroom, hplaced.offset,
      hplaced.unit_start hfilled.fits⟩
  · exact (h.filled u hu).reversed.apart
  · rintro rfl
    rw [← h.members_reversed]
    exact h.reversed.increasing
  · obtain ⟨u, hu, hmem⟩ := h.unit_of_mem hm hbit
    exact (h.filled u hu).fits_of_mem hmem

/-- The members of `struct { unsigned a : 4; unsigned b : 8; }`, filled from the top. -/
def top_down : List Slot :=
  [.unit ⟨0, 4, [⟨0, 28, 4, "a", 28, false, .bitfield 4⟩, ⟨1, 20, 8, "b", 20, false, .bitfield 4⟩]⟩]

theorem bf_order_recovered_top_down :
    detect_bf_order (members top_down) = .BFO_MSB_TO_LSB ∧
      reverse_bf_offsets (reverse_bf_offsets (members top_down)) = members top_down := by
  have hlaid : Laid .BFO_MSB_TO_LSB top_down := by
    refine ⟨?_, ?_, List.pairwise_singleton _ _⟩
    · intro u hu
      cases List.mem_singleton.mp hu
      refine ⟨by decide, by decide, ?_, by simp [Follows]⟩
      intro m hm
      simp only [List.mem_cons, List.not_mem_nil, or_false] at hm
      rcases hm with rfl | rfl
      · exact ⟨rfl, rfl, by decide, by decide⟩
      · exact ⟨rfl, rfl, by decide, by decide⟩
    · intro m hm
      simp [top_down] at hm
  have h := bf_order_recovered .BFO_MSB_TO_LSB top_down hlaid
  exact ⟨(h.1 ⟨_, List.mem_singleton.mpr rfl, by decide⟩).1, h.2.2.2.1⟩

end IdaSdk.PdbBitfields
