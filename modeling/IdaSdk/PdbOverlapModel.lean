import Mathlib.Algebra.GroupWithZero.Nat
import IdaSdk.LibStep

/-!
Members of a PDB structure that overlap. A PDB lists the members of nested unions and structures as members of the
outer type, and `handle_overlapping_members` puts overlapping ones back into unions. Offsets and sizes are bit
numbers; the arithmetic is that of `uint64`.
-/

namespace IdaSdk.PdbOverlap

open StepMachine

def wrap (x : Nat) : Nat := x % 2 ^ 64

/-- The conversion of a `size_t` to `int` and then to `uint64`. -/
def of_int (x : Nat) : Nat := if x % 2 ^ 32 < 2 ^ 31 then x % 2 ^ 32 else x % 2 ^ 32 + 2 ^ 64 - 2 ^ 32

mutual

/-- What the splitting sees of a type: whether it is a bitfield and of which unit, or else a structure or a union that
was made for some members. -/
inductive tinfo_t where
  | other
  | bitfield (nbytes : Nat)
  | udt (is_union invbf : Bool) (total_size : Nat) (members : List pdb_udm_t)

/-- `pdb_udm_t`. No branch looks at the tag, which tells the members of the PDB apart. -/
structure pdb_udm_t where
  tag : Nat
  offset : Nat
  size : Nat
  name : String
  bit_offset : Nat
  is_baseclass : Bool
  type : tinfo_t

end

namespace pdb_udm_t

def default : pdb_udm_t := ⟨0, 0, 0, "", 0, false, .other⟩

variable (m : pdb_udm_t)

def is_bitfield : Bool :=
  match m.type with
  | .bitfield _ => true
  | _ => false

/-- `type.get_size()` of a bitfield is the size of its unit. -/
def nbytes : Nat :=
  match m.type with
  | .bitfield n => n
  | _ => 0

def begin : Nat := m.offset

def finish : Nat := wrap (m.offset + m.size)

end pdb_udm_t

inductive Fault where
  | cvt_failed | assert498 | assert499 | assert30385
deriving DecidableEq

/-! ### Stems -/

/-- One member of the future union. -/
structure Stem where
  members : List pdb_udm_t
  total_size : Nat

/-- One pass of `verify_union_stem`: a bitfield gets the unit of the next one. -/
def widen : List pdb_udm_t → List pdb_udm_t × Bool
  | udm0 :: udm1 :: udt =>
    if udm0.bit_offset < udm1.bit_offset ∧ udm0.finish ≤ udm1.offset ∧ udm0.nbytes < udm1.nbytes then
      ({ udm0 with type := .bitfield udm1.nbytes } :: (widen (udm1 :: udt)).1, true)
    else (udm0 :: (widen (udm1 :: udt)).1, (widen (udm1 :: udt)).2)
  | udt => (udt, false)

def units (udt : List pdb_udm_t) : Nat := udt.foldr (fun m n => max m.nbytes n) 0

/-- How far the units are from the largest one. -/
def narrowness (n : Nat) (udt : List pdb_udm_t) : Nat := (udt.map fun m => n - m.nbytes).sum

variable {udt : List pdb_udm_t}

theorem le_units {m : pdb_udm_t} (h : m ∈ udt) : m.nbytes ≤ units udt := by
  induction udt with
  | nil => cases h
  | cons m' udt ih =>
      rcases List.mem_cons.mp h with rfl | h
      · exact Nat.le_max_left ..
      · exact Nat.le_trans (ih h) (Nat.le_max_right ..)

variable {n : Nat}

theorem units_le (h : ∀ m ∈ udt, m.nbytes ≤ n) : units udt ≤ n := by
  induction udt with
  | nil => exact Nat.zero_le _
  | cons m udt ih =>
      exact Nat.max_le.mpr ⟨h m List.mem_cons_self, ih fun m' hm => h m' (List.mem_cons_of_mem _ hm)⟩

theorem narrowness_mono {n' : Nat} (h : n ≤ n') (udt : List pdb_udm_t) : narrowness n udt ≤ narrowness n' udt := by
  induction udt with
  | nil => exact Nat.le_refl _
  | cons m udt ih =>
      simp only [narrowness, List.map_cons, List.sum_cons] at ih ⊢
      omega

theorem widen_narrowness (udt : List pdb_udm_t) (h : ∀ m ∈ udt, m.nbytes ≤ n) :
    (∀ m ∈ (widen udt).1, m.nbytes ≤ n) ∧ narrowness n (widen udt).1 ≤ narrowness n udt ∧
      ((widen udt).2 = true → narrowness n (widen udt).1 < narrowness n udt) := by
  induction udt using widen.induct with
  | case1 udm0 udm1 udt hfix ih =>
      have htail := ih fun m hm => h m (List.mem_cons_of_mem _ hm)
      have h1 := h udm1 (List.mem_cons_of_mem _ List.mem_cons_self)
      rw [widen, if_pos hfix]
      have hsize : narrowness n ({ udm0 with type := .bitfield udm1.nbytes } :: (widen (udm1 :: udt)).1) <
          narrowness n (udm0 :: udm1 :: udt) := by
        have hlt := hfix.2.2
        have hle := htail.2.1
        simp only [narrowness, List.map_cons, List.sum_cons] at hle ⊢
        have hnew : pdb_udm_t.nbytes { udm0 with type := .bitfield udm1.nbytes } = udm1.nbytes := rfl
        rw [hnew]
        omega
      refine ⟨?_, Nat.le_of_lt hsize, fun _ => hsize⟩
      intro m hm
      rcases List.mem_cons.mp hm with rfl | hm
      · exact h1
      · exact htail.1 m hm
  | case2 udm0 udm1 udt hfix ih =>
      have htail := ih fun m hm => h m (List.mem_cons_of_mem _ hm)
      rw [widen, if_neg hfix]
      have hcons : ∀ l : List pdb_udm_t, narrowness n (udm0 :: l) = n - udm0.nbytes + narrowness n l := fun l => rfl
      refine ⟨?_, ?_, fun hf => ?_⟩
      · intro m hm
        rcases List.mem_cons.mp hm with rfl | hm
        · exact h _ List.mem_cons_self
        · exact htail.1 m hm
      · rw [hcons, hcons]
        exact Nat.add_le_add_left htail.2.1 _
      · rw [hcons, hcons]
        exact Nat.add_lt_add_left (htail.2.2 hf) _
  | case3 udt hne =>
      have heq : widen udt = (udt, false) := by
        cases udt with
        | nil => rfl
        | cons m udt =>
            cases udt with
            | nil => rfl
            | cons m' udt => exact absurd rfl (hne m m' udt)
      rw [heq]
      exact ⟨h, Nat.le_refl _, fun hf => by cases hf⟩

/-- The passes of `verify_union_stem`, until one changes nothing. -/
def widen_all (udt : List pdb_udm_t) : List pdb_udm_t :=
  if (widen udt).2 then widen_all (widen udt).1 else (widen udt).1
termination_by narrowness (units udt) udt
decreasing_by
  have h := widen_narrowness udt fun _ hm => le_units hm
  exact Nat.lt_of_le_of_lt (narrowness_mono (units_le h.1) _) (h.2.2 ‹_›)

def verify_union_stem (udt : List pdb_udm_t) : List pdb_udm_t :=
  if udt.length < 2 then udt
  else if udt.all pdb_udm_t.is_bitfield then widen_all udt
  else udt

def verify_struct (udt : List pdb_udm_t) : Bool := udt.all fun m => m.is_bitfield || m.offset % 8 == 0

variable (q : pdb_udm_t)

/-- Whether `sm` suits `q` better than the best stem so far. -/
def suits (sm : Stem) (best : Option (Nat × Nat)) : Option Nat :=
  match sm.members.getLast? with
  | none => none
  | some lastmem =>
    if (lastmem.is_bitfield == q.is_bitfield || q.bit_offset == 0) ∧ lastmem.finish ≤ q.begin ∧
        (∀ b ∈ best, b.2 < lastmem.finish) then
      some lastmem.finish
    else none

/-- The stem whose end is closest to the offset of `q`, with its number. -/
def find_best (q : pdb_udm_t) : List Stem → Nat → Option (Nat × Nat) → Option (Nat × Nat)
  | [], _, best => best
  | sm :: stems, i, best =>
    match suits q sm best with
    | none => find_best q stems (i + 1) best
    | some smend => find_best q stems (i + 1) (some (i, smend))

/-- The number of bytes that a stem needs for `q`. -/
def qend : Except Fault Nat :=
  match q.type with
  | .bitfield nbytes =>
    if nbytes * 8 = 8 ∨ nbytes * 8 = 16 ∨ nbytes * 8 = 32 ∨ nbytes * 8 = 64 then
      .ok (wrap (q.offset + 2 ^ 64 - q.bit_offset + nbytes * 8) / 8)
    else .error .assert30385
  | _ => .ok (wrap (q.offset + q.size + 7) / 8)

variable (sm : Stem)

def Stem.push_back (q : pdb_udm_t) (size : Nat) : Stem :=
  ⟨sm.members ++ [q], max sm.total_size size⟩

def place (size : Nat) (stems : List Stem) : List Stem :=
  match if q.offset ≠ 0 then find_best q stems 0 none else none with
  | none => stems ++ [⟨[q], size⟩]
  | some (i, _) => stems.modify i fun sm => sm.push_back q size

def rebase (off : Nat) (q : pdb_udm_t) : pdb_udm_t := { q with offset := wrap (q.offset + 2 ^ 64 - off) }

/-- The first loop of `verify_union`. -/
def collect (off : Nat) : List pdb_udm_t → List Stem → Except Fault (List Stem)
  | [], stems => .ok stems
  | q :: qs, stems =>
    match qend (rebase off q) with
    | .error e => .error e
    | .ok size => collect off qs (place (rebase off q) size stems)

/-- A single member at the start needs no structure. -/
def Stem.trivial : Bool :=
  match sm.members with
  | [m] => m.offset == 0 && !m.is_bitfield
  | _ => false

def Stem.verify : Stem := if sm.trivial then sm else { sm with members := verify_union_stem sm.members }

/-- The answers of `create_udt_ref`: whether a type can be created from its kind, its size and its members. A type
that is created keeps them. -/
abbrev Create := Bool → Nat → List pdb_udm_t → Bool

variable (create : Create) (bf_bits : Bool)

def create_udt_ref (is_union : Bool) (total_size : Nat) (udt : List pdb_udm_t) : Except Fault tinfo_t :=
  if create is_union total_size udt then .ok (.udt is_union bf_bits total_size udt) else .error .cvt_failed

/-- A stem becomes a structure; what is left is its first member with the new type. -/
def convert (i : Nat) (sm : Stem) : Except Fault pdb_udm_t :=
  match sm.members with
  | [] => .error .assert499
  | m :: ms =>
    if sm.trivial then .ok m
    else if !verify_struct (m :: ms) then .error .cvt_failed
    else
      match create_udt_ref create bf_bits false sm.total_size (m :: ms) with
      | .error e => .error e
      | .ok tif =>
        .ok { m with
          offset := 0, size := wrap (of_int sm.total_size * 8), name := "__s" ++ toString i, type := tif }

def convert_all : Nat → List Stem → Except Fault (List pdb_udm_t)
  | _, [] => .ok []
  | i, sm :: stems =>
    match convert create bf_bits i sm with
    | .error e => .error e
    | .ok m =>
      match convert_all (i + 1) stems with
      | .error e => .error e
      | .ok ms => .ok (m :: ms)

/-- `verify_union` of the members from `p1` to `p2`. -/
def verify_union (udt : List pdb_udm_t) (p1 p2 : Nat) : Except Fault (List pdb_udm_t) :=
  if p1 = p2 then .ok []
  else if p2 < p1 then .error .assert498
  else
    match collect (udt.getD p1 .default).offset ((udt.take p2).drop p1) [] with
    | .error e => .error e
    | .ok stems => convert_all create bf_bits 0 (stems.map Stem.verify)

def union_bytes (unimems : List pdb_udm_t) : Nat := unimems.foldl (fun n m => max n (wrap (m.finish + 7) / 8)) 0

def create_union (udt : List pdb_udm_t) (p1 p2 : Nat) : Except Fault (Nat × tinfo_t) :=
  match verify_union create bf_bits udt p1 p2 with
  | .error e => .error e
  | .ok unimems =>
    match create_udt_ref create bf_bits true (union_bytes unimems) unimems with
    | .error e => .error e
    | .ok tif => .ok (union_bytes unimems, tif)

/-- The variables of the loop of `handle_overlapping_members`; `none` is the end. -/
structure State where
  udt : List pdb_udm_t
  p : Nat
  first : Option Nat
  last : Option Nat

variable (s : State)

def State.at (i : Nat) : pdb_udm_t := s.udt.getD i .default

/-- The unit of the first bitfield between `first` and `p`. -/
def bf_typesize (udt : List pdb_udm_t) (first p : Nat) : Nat :=
  match ((udt.take p).drop first).find? pdb_udm_t.is_bitfield with
  | none => 0
  | some m => m.nbytes

def same_unit (n : Nat) (m : pdb_udm_t) : Bool := m.is_bitfield && m.nbytes == n

/-- `first` goes back over the bitfields with the same unit. -/
def move_back (udt : List pdb_udm_t) (n : Nat) : Nat → Nat
  | 0 => 0
  | first + 1 => if same_unit n (udt.getD first .default) then move_back udt n first else first + 1

def bf_collected_size (udt : List pdb_udm_t) (first p : Nat) : Nat :=
  wrap ((((udt.take p).drop first).filter pdb_udm_t.is_bitfield).map fun m => m.bit_offset + m.size).sum

/-- A member that is no bitfield may stand between the bitfields of one structure. -/
def skip_member (udt : List pdb_udm_t) (n collected p : Nat) : Bool :=
  match udt[p]?, udt[p + 1]? with
  | some m, some m' =>
    !m.is_bitfield && collected != 0 && collected < n * 8 && m.offset == m'.offset && m'.is_bitfield &&
      collected ≤ m'.bit_offset && m'.nbytes == n
  | _, _ => false

/-- `p` goes on over the bitfields with the same unit. -/
def move_on (udt : List pdb_udm_t) (n p : Nat) : Nat := p + ((udt.drop p).takeWhile (same_unit n)).length

/-- The range of members that a union is made of. -/
def union_range (udt : List pdb_udm_t) (first p : Nat) : Nat × Nat :=
  if bf_typesize udt first p = 0 then (first, p)
  else
    let n := bf_typesize udt first p
    let start := move_back udt n first
    (start, move_on udt n (if skip_member udt n (bf_collected_size udt start p) p then p + 1 else p))

/-- The overlap that is collected, if it ends before `p`. -/
def State.overlap : Option (Nat × Nat) :=
  match s.first, s.last with
  | some first, some last =>
    if s.p < s.udt.length ∧ (s.at s.p).begin < (s.at last).finish then none
    else some (union_range s.udt first s.p)
  | _, _ => none

def union_member (off fidx size : Nat) (tif : tinfo_t) : pdb_udm_t :=
  { pdb_udm_t.default with
    offset := off / 8 * 8, size := wrap (size * 8), name := "___u" ++ toString fidx, type := tif }

/-- The label `NEXT` with `++p`. -/
def State.next : State :=
  { s with
    p := s.p + 1
    last :=
      match s.last with
      | none => some s.p
      | some last => if (s.at last).finish < (s.at s.p).finish then some s.p else some last }

/-- One round of the loop. -/
def step : Result State (Except Fault (List pdb_udm_t)) :=
  match s.overlap with
  | some (first, p) =>
    match create_union create bf_bits s.udt first p with
    | .error e => .done (.error e)
    | .ok (size, tif) =>
      .next {
        udt := s.udt.take first ++ union_member (s.at first).offset first size tif :: s.udt.drop p
        p := first + 1
        first := none
        last := some first }
  | none =>
    if s.p < s.udt.length then
      match s.last with
      | none => .next { s with p := s.p + 1, last := some s.p }
      | some last =>
        if (s.at s.p).begin < (s.at last).finish ∧ s.first = none ∧ !(s.at last).is_baseclass then
          .next { s with first := some last }.next
        else .next s.next
    else .done (.ok s.udt)

def start (udt : List pdb_udm_t) : State := ⟨udt, 0, none, none⟩

end IdaSdk.PdbOverlap
