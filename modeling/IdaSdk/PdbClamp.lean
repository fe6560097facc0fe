import Mathlib.Algebra.Group.Int.Defs
import Mathlib.Algebra.Group.Nat.Defs
import Mathlib.Data.List.Basic
import Mathlib.Tactic.Common

/-!
The last loop of `create_udt`. Members that overlap the one before them or go past the end of the structure become
arrays of bytes or are erased. Offsets and sizes are numbers of bits in `uint64`.
-/

namespace IdaSdk.PdbClamp

variable {T : Type}

/-- What the loop reads and sets of a member. -/
structure pdb_udm_t (T : Type) where
  offset : BitVec 64
  size : BitVec 64
  name : String
  is_baseclass : Bool
  is_virtbase : Bool
  type : T
deriving DecidableEq

def pdb_udm_t.finish (udm : pdb_udm_t T) : BitVec 64 := udm.offset + udm.size

/-- `create_udt` gives up, or a product does not fit an `int`. -/
inductive Failure where
  | cvt_failed
  | overflow
deriving DecidableEq

def to_int (x : BitVec 64) : Int := (x.setWidth 32).toInt

section
variable (create_array : Nat → Option T)

/-- `set_array_type` of a positive number of bytes. -/
def set_array_type (udm : pdb_udm_t T) (nbytes : Int) : Except Failure (pdb_udm_t T) :=
  match create_array nbytes.toNat with
  | none => .error .cvt_failed
  | some type =>
    if nbytes * 8 < 2 ^ 31 then .ok { udm with type, size := BitVec.ofInt 64 (nbytes * 8) } else .error .overflow

def bytes_name (last : BitVec 64) : String := "_bytes_" ++ String.ofList (Nat.toDigits 16 (last / 8).toNat)

/-- One pass of the loop: the member, unless it is erased, and `last`. -/
def clamp_member (is_union : Bool) (total_bits last : BitVec 64) (udm : pdb_udm_t T) :
    Except Failure (Option (pdb_udm_t T) × BitVec 64) :=
  if udm.offset < last ∨ udm.finish > total_bits then
    let udm := if udm.finish > total_bits then { udm with size := total_bits - udm.offset } else udm
    let last := if udm.offset > last then udm.offset else last
    let nbytes := to_int ((udm.finish + 7 - last) / 8)
    if nbytes > 0 then do
      let udm ← set_array_type create_array udm nbytes
      let name := if udm.name = "" then bytes_name last else udm.name
      let udm := { udm with name, offset := last, is_baseclass := false, is_virtbase := false }
      return (some udm, if is_union then last else udm.finish)
    else return (none, last)
  else return (some udm, if is_union then last else udm.finish)

/-- The loop over the members from `i` on, which are changed and erased in place. -/
def clamp_loop (is_union : Bool) (total_bits : BitVec 64) (udt : List (pdb_udm_t T)) (i : Nat) (last : BitVec 64) :
    Except Failure (List (pdb_udm_t T)) :=
  if h : i < udt.length then do
    match ← clamp_member create_array is_union total_bits last (udt.get ⟨i, h⟩) with
    | (none, last) => clamp_loop is_union total_bits (udt.eraseIdx i) i last
    | (some udm, last) => clamp_loop is_union total_bits (udt.set i udm) (i + 1) last
  else return udt
termination_by udt.length - i
decreasing_by
  · rw [List.length_eraseIdx_of_lt h]
    omega
  · rw [List.length_set]
    omega

end

/-- The size of the structure in bits; without a size it ends with its last member. -/
def total_bits (total_size : BitVec 64) (udt : List (pdb_udm_t T)) : BitVec 64 :=
  match udt.getLast? with
  | none => total_size * 8
  | some udm => (if total_size = 0 then (udm.finish + 7) / 8 else total_size) * 8

def pdb_udm_t.bound (udm : pdb_udm_t T) : Nat := udm.offset.toNat + udm.size.toNat

/-- The members follow each other without an overlap and end before the end of the structure. -/
structure Laid (total : BitVec 64) (udt : List (pdb_udm_t T)) : Prop where
  apart : udt.Pairwise fun a b => a.bound ≤ b.offset.toNat
  inside : ∀ a ∈ udt, a.bound ≤ total.toNat

/-- The member needs no change behind the others. -/
def Fits (total : BitVec 64) (udt : List (pdb_udm_t T)) (udm : pdb_udm_t T) : Prop :=
  (∀ a ∈ udt, a.bound ≤ udm.offset.toNat) ∧ udm.bound ≤ total.toNat

def stop (total : BitVec 64) (udm : pdb_udm_t T) : BitVec 64 := if udm.finish > total then total else udm.finish

/-- The bytes of the array are those that the rest of the member begins in. -/
structure Counted (total : BitVec 64) (udm a : pdb_udm_t T) : Prop where
  inside : a.offset.toNat < (stop total udm).toNat
  all : (stop total udm).toNat ≤ a.bound
  none_behind : a.bound < (stop total udm).toNat + 8

/-- What becomes of a member behind the others. -/
inductive Handled (create_array : Nat → Option T) (total : BitVec 64) (udt : List (pdb_udm_t T)) (udm : pdb_udm_t T) :
    List (pdb_udm_t T) → Prop
  | kept : Handled create_array total udt udm (udt ++ [udm])
  | erased : ¬ Fits total udt udm → Handled create_array total udt udm udt
  | bytes (a : pdb_udm_t T) (nbytes : Nat) : ¬ Fits total udt udm → 0 < nbytes → create_array nbytes = some a.type →
    a.size.toNat = 8 * nbytes → a.offset.toNat % 8 = 0 → Counted total udm a →
    Handled create_array total udt udm (udt ++ [a])

/-- No product overflows, and as long as arrays can be created each member is handled and the layout is right. -/
def Meets (create_array : Nat → Option T) (total : BitVec 64) (udt : List (pdb_udm_t T)) : Prop :=
  clamp_loop create_array false total udt 0 0 ≠ .error .overflow ∧
    ∀ before udm after v v', udt = before ++ udm :: after → clamp_loop create_array false total before 0 0 = .ok v →
      clamp_loop create_array false total (before ++ [udm]) 0 0 = .ok v' →
      Handled create_array total v udm v' ∧ Laid total v'

variable (total last : BitVec 64)

def Past (udm : pdb_udm_t T) : Prop := udm.offset < last ∨ udm.finish > total

instance (total last : BitVec 64) (udm : pdb_udm_t T) : Decidable (Past total last udm) :=
  inferInstanceAs (Decidable (_ ∨ _))

def start (last : BitVec 64) (udm : pdb_udm_t T) : BitVec 64 := if udm.offset > last then udm.offset else last

def nbytes (udm : pdb_udm_t T) : Int := to_int ((stop total udm + 7 - start last udm) / 8)

/-- A member that is not changed ends below `2^64`. The rest of a changed one, unless it counts as no byte, begins at a
byte, ends behind its begin and has less than `2^28` bytes. -/
def Suits (udm : pdb_udm_t T) : Prop :=
  if Past total last udm then
    0 < nbytes total last udm → (start last udm).toNat % 8 = 0 ∧ (start last udm).toNat ≤ (stop total udm).toNat ∧
      ((stop total udm).toNat + 7 - (start last udm).toNat) / 8 < 2 ^ 28
  else udm.bound < 2 ^ 64

instance (total last : BitVec 64) (udm : pdb_udm_t T) : Decidable (Suits total last udm) := by
  unfold Suits
  infer_instance

/-- `last` behind a member. -/
def next (udm : pdb_udm_t T) : BitVec 64 :=
  if Past total last udm then
    if 0 < nbytes total last udm then start last udm + BitVec.ofInt 64 (nbytes total last udm * 8)
    else start last udm
  else udm.finish

/-- Each member suits the end of those before it, up to the first array that cannot be created. -/
def AllSuit (create_array : Nat → Option T) (total last : BitVec 64) : List (pdb_udm_t T) → Prop
  | [] => True
  | udm :: udt =>
    (Past total last udm → 0 < nbytes total last udm → create_array (nbytes total last udm).toNat ≠ none) →
      Suits total last udm ∧ AllSuit create_array total (next total last udm) udt

/-! ### One pass -/

section
variable {create_array : Nat → Option T} {total last : BitVec 64} {udt before after v : List (pdb_udm_t T)}
  {udm a : pdb_udm_t T} {s s' : List (pdb_udm_t T) × BitVec 64}

/-- The array that the rest of a member becomes. -/
def array_of (total last : BitVec 64) (udm : pdb_udm_t T) (type : T) : pdb_udm_t T where
  offset := start last udm
  size := BitVec.ofInt 64 (nbytes total last udm * 8)
  name := if udm.name = "" then bytes_name (start last udm) else udm.name
  is_baseclass := false
  is_virtbase := false
  type := type

variable (create_array total) in
/-- One pass, with the members so far and `last`. -/
def step (s : List (pdb_udm_t T) × BitVec 64) (udm : pdb_udm_t T) :
    Except Failure (List (pdb_udm_t T) × BitVec 64) := do
  let (kept, last) ← clamp_member create_array false total s.2 udm
  return (s.1 ++ kept.toList, last)

/-- What one pass does. -/
inductive Outcome (create_array : Nat → Option T) (total : BitVec 64) (s : List (pdb_udm_t T) × BitVec 64)
    (udm : pdb_udm_t T) : Except Failure (List (pdb_udm_t T) × BitVec 64) → Prop
  | keeps : ¬ Past total s.2 udm → Outcome create_array total s udm (.ok (s.1 ++ [udm], next total s.2 udm))
  | erases : Past total s.2 udm → ¬ 0 < nbytes total s.2 udm →
    Outcome create_array total s udm (.ok (s.1, next total s.2 udm))
  | fails : Past total s.2 udm → 0 < nbytes total s.2 udm → create_array (nbytes total s.2 udm).toNat = none →
    Outcome create_array total s udm (.error .cvt_failed)
  | overflows : Past total s.2 udm → 0 < nbytes total s.2 udm → create_array (nbytes total s.2 udm).toNat ≠ none →
    ¬ nbytes total s.2 udm * 8 < 2 ^ 31 → Outcome create_array total s udm (.error .overflow)
  | replaces (type : T) : Past total s.2 udm → 0 < nbytes total s.2 udm → nbytes total s.2 udm * 8 < 2 ^ 31 →
    create_array (nbytes total s.2 udm).toNat = some type →
    Outcome create_array total s udm (.ok (s.1 ++ [array_of total s.2 udm type], next total s.2 udm))

theorem finish_cut (total : BitVec 64) (udm : pdb_udm_t T) :
    (if udm.finish > total then { udm with size := total - udm.offset } else udm).finish = stop total udm := by
  unfold stop
  split
  · exact (BitVec.add_comm _ _).trans (BitVec.sub_add_cancel _ _)
  · rfl

theorem step_outcome (create_array : Nat → Option T) (total : BitVec 64) (s : List (pdb_udm_t T) × BitVec 64)
    (udm : pdb_udm_t T) : Outcome create_array total s udm (step create_array total s udm) := by
  rw [step, clamp_member]
  by_cases hpast : Past total s.2 udm
  · have hpast' : udm.offset < s.2 ∨ udm.finish > total := hpast
    rw [if_pos hpast']
    have hfinish := finish_cut total udm
    have hoffset :
        (if udm.finish > total then { udm with size := total - udm.offset } else udm).offset = udm.offset := by
      split <;> rfl
    have hname : (if udm.finish > total then { udm with size := total - udm.offset } else udm).name = udm.name := by
      split <;> rfl
    generalize (if udm.finish > total then { udm with size := total - udm.offset } else udm) = cut at *
    have hnbytes :
        to_int ((cut.finish + 7 - if cut.offset > s.2 then cut.offset else s.2) / 8) = nbytes total s.2 udm := by
      rw [hfinish, hoffset]
      rfl
    dsimp only
    rw [hnbytes, hoffset]
    by_cases hpos : 0 < nbytes total s.2 udm
    · rw [if_pos hpos, set_array_type]
      cases hcreate : create_array (nbytes total s.2 udm).toNat with
      | none => exact .fails hpast hpos hcreate
      | some type =>
          by_cases hfit : nbytes total s.2 udm * 8 < 2 ^ 31
          · have houtcome := Outcome.replaces type hpast hpos hfit hcreate
            rw [next, if_pos hpast, if_pos hpos] at houtcome
            dsimp only
            rw [if_pos hfit]
            have harray : array_of total s.2 udm type = ⟨start s.2 udm, BitVec.ofInt 64 (nbytes total s.2 udm * 8),
                if cut.name = "" then bytes_name (start s.2 udm) else cut.name, false, false, type⟩ := by
              rw [hname]
              rfl
            rw [harray] at houtcome
            exact houtcome
          · dsimp only
            rw [if_neg hfit]
            exact .overflows hpast hpos (by rw [hcreate]; exact nofun) hfit
    · have houtcome := @Outcome.erases _ create_array _ _ _ hpast hpos
      rw [next, if_pos hpast, if_neg hpos] at houtcome
      rw [if_neg hpos]
      rw [← List.append_nil s.1] at houtcome
      exact houtcome
  · have houtcome := @Outcome.keeps _ create_array _ _ _ hpast
    rw [next, if_neg hpast] at houtcome
    rw [if_neg (by exact hpast)]
    exact houtcome

theorem clamp_loop_eq (before udt : List (pdb_udm_t T)) (last : BitVec 64) :
    clamp_loop create_array false total (before ++ udt) before.length last =
      Prod.fst <$> udt.foldlM (step create_array total) (before, last) := by
  induction udt generalizing before last with
  | nil =>
      rw [List.append_nil, clamp_loop, dif_neg (Nat.lt_irrefl _)]
      rfl
  | cons udm udt ih =>
      have hget : (before ++ udm :: udt).get ⟨before.length, by simp⟩ = udm := by simp [List.get_eq_getElem]
      rw [clamp_loop, dif_pos (by simp), hget, List.foldlM_cons, step]
      cases clamp_member create_array false total last udm with
      | error e => rfl
      | ok r =>
          obtain ⟨kept, last'⟩ := r
          cases kept with
          | none =>
              have herase : (before ++ udm :: udt).eraseIdx before.length = before ++ udt := by
                rw [List.eraseIdx_append_of_length_le (Nat.le_refl _), Nat.sub_self]
                rfl
              have hrest := ih before last'
              rw [← herase] at hrest
              have hnil : before ++ Option.toList (none : Option (pdb_udm_t T)) = before := List.append_nil _
              change clamp_loop create_array false total ((before ++ udm :: udt).eraseIdx before.length) before.length
                last' =
                Prod.fst <$> udt.foldlM (step create_array total) (before ++ Option.toList none, last')
              rw [hnil]
              exact hrest
          | some udm' =>
              have hset : (before ++ udm :: udt).set before.length udm' = (before ++ [udm']) ++ udt := by simp
              have hrest := ih (before ++ [udm']) last'
              rw [← hset, List.length_append, List.length_singleton] at hrest
              exact hrest

theorem clamp_loop_start (udt : List (pdb_udm_t T)) :
    clamp_loop create_array false total udt 0 0 = Prod.fst <$> udt.foldlM (step create_array total) ([], 0) :=
  clamp_loop_eq [] udt 0

theorem ok_bind {α β : Type} (a : α) (f : α → Except Failure β) : (Except.ok a >>= f) = f a := rfl

theorem nbytes_eq (hle : (start last udm).toNat ≤ (stop total udm).toNat)
    (hfew : ((stop total udm).toNat + 7 - (start last udm).toNat) / 8 < 2 ^ 28) :
    nbytes total last udm = (((stop total udm).toNat + 7 - (start last udm).toNat) / 8 : Nat) := by
  have hvalue : ((stop total udm + 7 - start last udm) / 8).toNat =
      ((stop total udm).toNat + 7 - (start last udm).toNat) / 8 := by
    rw [BitVec.toNat_udiv, BitVec.toNat_sub, BitVec.toNat_add]
    generalize start last udm = b at *
    generalize stop total udm = e at *
    have hb := b.isLt
    have he := e.isLt
    have h7 : (7 : BitVec 64).toNat = 7 := rfl
    have h8 : (8 : BitVec 64).toNat = 8 := rfl
    rw [h7, h8]
    omega
  rw [nbytes, to_int, BitVec.toInt_eq_toNat_of_lt, BitVec.toNat_setWidth, hvalue, Nat.mod_eq_of_lt (by omega)]
  rw [BitVec.toNat_setWidth, hvalue]
  omega

variable {type : T}

theorem array_size (type : T) (hpos : 0 < nbytes total last udm) (hfit : nbytes total last udm * 8 < 2 ^ 31) :
    (array_of total last udm type).size.toNat = 8 * (nbytes total last udm).toNat := by
  rw [array_of, BitVec.toNat_ofInt]
  omega

theorem next_array (type : T) (hpast : Past total last udm) (hpos : 0 < nbytes total last udm)
    (hfit : nbytes total last udm * 8 < 2 ^ 31)
    (hbound : (array_of total last udm type).bound < 2 ^ 64) :
    (next total last udm).toNat = (array_of total last udm type).bound := by
  have hsize := array_size type hpos hfit
  rw [next, if_pos hpast, if_pos hpos, BitVec.toNat_add]
  exact Nat.mod_eq_of_lt hbound

/-! ### What is reached -/

/-- The members and `last` behind some members that suit. -/
structure Reached (total : BitVec 64) (before : List (pdb_udm_t T)) (s : List (pdb_udm_t T) × BitVec 64) : Prop where
  laid : Laid total s.1
  ends : ∀ a ∈ s.1, a.bound ≤ s.2.toNat
  low : ∀ x, (∀ a ∈ s.1, a.bound ≤ x) → (∀ m ∈ before, m.offset.toNat ≤ x) → s.2.toNat ≤ x

theorem Laid.concat (h : Laid total v) (hends : ∀ b ∈ v, b.bound ≤ a.offset.toNat) (hin : a.bound ≤ total.toNat) :
    Laid total (v ++ [a]) where
  apart := List.pairwise_append.mpr ⟨h.apart, List.pairwise_singleton _ _, fun b hb _ hc =>
    List.mem_singleton.mp hc ▸ hends b hb⟩
  inside := List.forall_mem_append.mpr ⟨h.inside, List.forall_mem_singleton.mpr hin⟩

theorem le_start (last : BitVec 64) (udm : pdb_udm_t T) :
    last.toNat ≤ (start last udm).toNat ∧ udm.offset.toNat ≤ (start last udm).toNat ∧
      (start last udm = last ∨ start last udm = udm.offset) := by
  unfold start
  split
  · case isTrue h =>
    have hlt : last.toNat < udm.offset.toNat := h
    exact ⟨Nat.le_of_lt hlt, Nat.le_refl _, Or.inr rfl⟩
  · case isFalse h =>
    have hle : ¬ last.toNat < udm.offset.toNat := h
    exact ⟨Nat.le_refl _, Nat.le_of_not_lt hle, Or.inl rfl⟩

theorem Reached.not_fits (h : Reached total before s) (hsorted : ∀ m ∈ before, m.offset.toNat ≤ udm.offset.toNat)
    (hpast : Past total s.2 udm) : ¬ Fits total s.1 udm := by
  rintro ⟨hends, hin⟩
  have hlast := h.low _ hends hsorted
  have hwrap : udm.finish.toNat ≤ udm.bound := by
    rw [pdb_udm_t.finish, BitVec.toNat_add]
    exact Nat.mod_le _ _
  rcases hpast with hover | hover
  · have hover : udm.offset.toNat < s.2.toNat := hover
    omega
  · have hover : total.toNat < udm.finish.toNat := hover
    omega

theorem Reached.keep (h : Reached total before s) (hpast : ¬ Past total s.2 udm) (hsuit : udm.bound < 2 ^ 64) :
    Laid total (s.1 ++ [udm]) ∧ Reached total (before ++ [udm]) (s.1 ++ [udm], udm.finish) := by
  have hbound : udm.finish.toNat = udm.bound := by
    rw [pdb_udm_t.finish, BitVec.toNat_add]
    exact Nat.mod_eq_of_lt hsuit
  have hlast : ¬ udm.offset.toNat < s.2.toNat := fun h => hpast (Or.inl h)
  have hin : ¬ total.toNat < udm.finish.toNat := fun h => hpast (Or.inr h)
  have hends (b : pdb_udm_t T) (hb : b ∈ s.1) : b.bound ≤ udm.offset.toNat := by
    have hle := h.ends b hb
    omega
  have hlaid := h.laid.concat hends (by omega)
  refine ⟨hlaid, hlaid, List.forall_mem_append.mpr ⟨fun b hb => ?_, ?_⟩, fun x hx _ => ?_⟩
  · dsimp only
    rw [hbound]
    exact Nat.le_trans (hends b hb) (Nat.le_add_right _ _)
  · exact List.forall_mem_singleton.mpr (Nat.le_of_eq hbound.symm)
  · dsimp only
    rw [hbound]
    exact hx udm (List.mem_append_right _ List.mem_cons_self)

theorem Reached.erase (h : Reached total before s) (udm : pdb_udm_t T) :
    Laid total s.1 ∧ Reached total (before ++ [udm]) (s.1, start s.2 udm) := by
  obtain ⟨hlast, hoffset, hstart⟩ := le_start s.2 udm
  refine ⟨h.laid, h.laid, fun a ha => Nat.le_trans (h.ends a ha) hlast, fun x hx hbefore => ?_⟩
  obtain ⟨hbefore, hudm⟩ := List.forall_mem_append.mp hbefore
  rcases hstart with hstart | hstart
  · dsimp only
    rw [hstart]
    exact h.low x hx hbefore
  · dsimp only
    rw [hstart]
    exact hudm udm List.mem_cons_self

theorem Reached.replace (type : T) (h : Reached total before s) (htotal : total.toNat % 8 = 0)
    (hpast : Past total s.2 udm) (hpos : 0 < nbytes total s.2 udm) (hfit : nbytes total s.2 udm * 8 < 2 ^ 31)
    (halign : (start s.2 udm).toNat % 8 = 0) (hle : (start s.2 udm).toNat ≤ (stop total udm).toNat)
    (hfew : ((stop total udm).toNat + 7 - (start s.2 udm).toNat) / 8 < 2 ^ 28) :
    Counted total udm (array_of total s.2 udm type) ∧ Laid total (s.1 ++ [array_of total s.2 udm type]) ∧
      Reached total (before ++ [udm]) (s.1 ++ [array_of total s.2 udm type], next total s.2 udm) := by
  obtain ⟨hlast, -, -⟩ := le_start s.2 udm
  have hsize := array_size type hpos hfit
  have hcount := nbytes_eq hle hfew
  have hoffset : (array_of total s.2 udm type).offset = start s.2 udm := rfl
  have hstop : (stop total udm).toNat ≤ total.toNat := by
    unfold stop
    split
    · exact Nat.le_refl _
    · case isFalse h => exact Nat.le_of_not_lt h
  have hbound : (array_of total s.2 udm type).bound =
      (start s.2 udm).toNat + 8 * (((stop total udm).toNat + 7 - (start s.2 udm).toNat) / 8) := by
    rw [pdb_udm_t.bound, hsize, hoffset, hcount, Int.toNat_natCast]
  have hin : (array_of total s.2 udm type).bound ≤ total.toNat := by omega
  have hends (b : pdb_udm_t T) (hb : b ∈ s.1) : b.bound ≤ (array_of total s.2 udm type).offset.toNat :=
    Nat.le_trans (h.ends b hb) hlast
  have hlaid := h.laid.concat hends hin
  have hnext := next_array type hpast hpos hfit (Nat.lt_of_le_of_lt hin total.isLt)
  refine ⟨⟨?_, by omega, by omega⟩, hlaid, hlaid, List.forall_mem_append.mpr ⟨fun b hb => ?_, ?_⟩, fun x hx _ => ?_⟩
  · rw [hoffset]
    omega
  · have hle' := hends b hb
    dsimp only
    rw [hnext, hbound]
    rw [hoffset] at hle'
    omega
  · exact List.forall_mem_singleton.mpr (Nat.le_of_eq hnext.symm)
  · dsimp only
    rw [hnext]
    exact hx _ (List.mem_append_right _ List.mem_cons_self)

/-! ### The loop -/

/-- What is asked of the loop, from a state on. -/
def MeetsFrom (create_array : Nat → Option T) (total : BitVec 64) (s : List (pdb_udm_t T) × BitVec 64)
    (udt : List (pdb_udm_t T)) : Prop :=
  udt.foldlM (step create_array total) s ≠ .error .overflow ∧
    ∀ before udm after s₁ s₂, udt = before ++ udm :: after → before.foldlM (step create_array total) s = .ok s₁ →
      step create_array total s₁ udm = .ok s₂ → Handled create_array total s₁.1 udm s₂.1 ∧ Laid total s₂.1

theorem meetsFrom_cons (hstep : step create_array total s udm = .ok s') :
    MeetsFrom create_array total s (udm :: udt) ↔
      (Handled create_array total s.1 udm s'.1 ∧ Laid total s'.1) ∧ MeetsFrom create_array total s' udt := by
  have hfold (before : List (pdb_udm_t T)) : (udm :: before).foldlM (step create_array total) s =
      before.foldlM (step create_array total) s' := by
    rw [List.foldlM_cons, hstep]
    rfl
  rw [MeetsFrom, MeetsFrom, hfold]
  constructor
  · rintro ⟨hno, hall⟩
    refine ⟨hall [] udm udt s s' rfl rfl hstep, hno, fun before udm' after s₁ s₂ heq hrun => ?_⟩
    exact hall (udm :: before) udm' after s₁ s₂ (heq ▸ rfl) ((hfold before).trans hrun)
  rintro ⟨hfirst, hno, hall⟩
  refine ⟨hno, fun before udm' after s₁ s₂ heq hrun hstep' => ?_⟩
  cases before with
  | nil =>
      cases hrun
      obtain ⟨rfl, -⟩ := List.cons.inj heq
      cases hstep.symm.trans hstep'
      exact hfirst
  | cons m before =>
      obtain ⟨rfl, hrest⟩ := List.cons.inj heq
      exact hall before udm' after s₁ s₂ hrest ((hfold before).symm.trans hrun) hstep'

theorem meetsFrom_error {e : Failure} (hstep : step create_array total s udm = .error e) :
    MeetsFrom create_array total s (udm :: udt) ↔ e ≠ .overflow := by
  have hfold (before : List (pdb_udm_t T)) : (udm :: before).foldlM (step create_array total) s = .error e := by
    rw [List.foldlM_cons, hstep]
    rfl
  rw [MeetsFrom, hfold]
  refine ⟨fun h he => h.1 (congrArg _ he), fun h => ⟨fun he => h (Except.error.inj he), ?_⟩⟩
  intro before udm' after s₁ s₂ heq hrun hstep'
  cases before with
  | nil =>
      cases hrun
      obtain ⟨rfl, -⟩ := List.cons.inj heq
      cases hstep.symm.trans hstep'
  | cons m before =>
      obtain ⟨rfl, -⟩ := List.cons.inj heq
      cases (hfold before).symm.trans hrun

theorem meetsFrom_iff (htotal : total.toNat % 8 = 0) (h : Reached total before s)
    (hsorted : (before ++ udt).Pairwise fun a b => a.offset.toNat ≤ b.offset.toNat) :
    MeetsFrom create_array total s udt ↔ AllSuit create_array total s.2 udt := by
  induction udt generalizing before s with
  | nil =>
      refine iff_of_true ⟨nofun, fun before udm after s₁ s₂ heq => ?_⟩ trivial
      cases before <;> cases heq
  | cons udm udt ih =>
      have hlow (m : pdb_udm_t T) (hm : m ∈ before) : m.offset.toNat ≤ udm.offset.toNat :=
        (List.pairwise_append.mp hsorted).2.2 m hm udm List.mem_cons_self
      have hrest : ((before ++ [udm]) ++ udt).Pairwise fun a b => a.offset.toNat ≤ b.offset.toNat := by
        rw [List.append_assoc]
        exact hsorted
      have hout := step_outcome create_array total s udm
      generalize hstep : step create_array total s udm = r at hout
      rw [AllSuit]
      cases hout with
      | keeps hpast =>
          have hfinish : next total s.2 udm = udm.finish := if_neg hpast
          rw [meetsFrom_cons hstep, Suits, if_neg hpast, hfinish]
          constructor
          · rintro ⟨⟨-, hlaid⟩, hmeets⟩ -
            have hin := hlaid.inside udm (List.mem_append_right _ List.mem_cons_self)
            have hsuit : udm.bound < 2 ^ 64 := Nat.lt_of_le_of_lt hin total.isLt
            exact ⟨hsuit, (ih (h.keep hpast hsuit).2 hrest).mp hmeets⟩
          · intro hsuits
            obtain ⟨hsuit, hall⟩ := hsuits fun hp => absurd hp hpast
            obtain ⟨hlaid, hreached⟩ := h.keep hpast hsuit
            exact ⟨⟨.kept, hlaid⟩, (ih hreached hrest).mpr hall⟩
      | erases hpast hpos =>
          have hstart : next total s.2 udm = start s.2 udm := by rw [next, if_pos hpast, if_neg hpos]
          obtain ⟨hlaid, hreached⟩ := h.erase udm
          rw [meetsFrom_cons hstep, Suits, if_pos hpast, ih (hstart ▸ hreached) hrest]
          exact ⟨fun hmeets _ => ⟨fun hn => absurd hn hpos, hmeets.2⟩, fun hsuits =>
            ⟨⟨.erased (h.not_fits hlow hpast), hlaid⟩, (hsuits fun _ hn => absurd hn hpos).2⟩⟩
      | fails hpast hpos hcreate =>
          rw [meetsFrom_error hstep]
          exact iff_of_true nofun fun hsome => absurd hcreate (hsome hpast hpos)
      | overflows hpast hpos hcreate hfit =>
          rw [meetsFrom_error hstep, Suits, if_pos hpast]
          refine iff_of_false (fun hno => hno rfl) fun hsuits => ?_
          obtain ⟨-, hle, hfew⟩ := (hsuits fun _ _ => hcreate).1 hpos
          rw [nbytes_eq hle hfew] at hfit
          omega
      | replaces type hpast hpos hfit hcreate =>
          have hnotfits := h.not_fits hlow hpast
          have hsize := array_size type hpos hfit
          have hoffset : (array_of total s.2 udm type).offset = start s.2 udm := rfl
          rw [meetsFrom_cons hstep, Suits, if_pos hpast]
          constructor
          · rintro ⟨⟨hhandled, hlaid⟩, hmeets⟩ -
            generalize hv : s.1 ++ [array_of total s.2 udm type] = v at hhandled
            cases hhandled with
            | kept =>
                -- an array that is the member itself would fit
                rw [List.singleton_inj.mp (List.append_cancel_left hv)] at hlaid
                refine absurd ⟨fun b hb => ?_, ?_⟩ hnotfits
                · exact (List.pairwise_append.mp hlaid.apart).2.2 b hb udm List.mem_cons_self
                · exact hlaid.inside udm (List.mem_append_right _ List.mem_cons_self)
            | erased => exact absurd (congrArg List.length hv) (by simp)
            | bytes a n hno hn htype hasize haalign hcounted =>
                obtain rfl : array_of total s.2 udm type = a := List.singleton_inj.mp (List.append_cancel_left hv)
                obtain ⟨hinside, hall, -⟩ := hcounted
                rw [pdb_udm_t.bound, hsize] at hall
                rw [hoffset] at haalign hinside hall
                have hle : (start s.2 udm).toNat ≤ (stop total udm).toNat := Nat.le_of_lt hinside
                have hfew : ((stop total udm).toNat + 7 - (start s.2 udm).toNat) / 8 < 2 ^ 28 := by omega
                refine ⟨fun _ => ⟨haalign, hle, hfew⟩, ?_⟩
                exact (ih (h.replace type htotal hpast hpos hfit haalign hle hfew).2.2 hrest).mp hmeets
          · intro hsuits
            obtain ⟨hsuit, hall⟩ := hsuits fun _ _ => by rw [hcreate]; exact nofun
            obtain ⟨halign, hle, hfew⟩ := hsuit hpos
            obtain ⟨hcounted, hlaid, hreached⟩ := h.replace type htotal hpast hpos hfit halign hle hfew
            refine ⟨⟨.bytes _ _ hnotfits ?_ hcreate hsize halign hcounted, hlaid⟩, (ih hreached hrest).mpr hall⟩
            omega

/-- The layout is right exactly if each member suits the end of those before it. -/
theorem clamp_iff (create_array : Nat → Option T) (total_size : BitVec 64) (udt : List (pdb_udm_t T))
    (hsorted : udt.Pairwise fun a b => a.offset.toNat ≤ b.offset.toNat) :
    Meets create_array (total_bits total_size udt) udt ↔ AllSuit create_array (total_bits total_size udt) 0 udt := by
  have htotal : (total_bits total_size udt).toNat % 8 = 0 := by
    have hbytes : ∃ bytes, total_bits total_size udt = bytes * 8 := by
      unfold total_bits
      split <;> exact ⟨_, rfl⟩
    obtain ⟨bytes, hbytes⟩ := hbytes
    have h8 : (8 : BitVec 64).toNat = 8 := rfl
    rw [hbytes, BitVec.toNat_mul, h8]
    omega
  generalize total_bits total_size udt = total at *
  have hreached : Reached total [] (([], 0) : List (pdb_udm_t T) × BitVec 64) :=
    ⟨⟨.nil, fun a ha => (nomatch ha)⟩, fun a ha => (nomatch ha), fun x _ _ => Nat.zero_le x⟩
  rw [← meetsFrom_iff htotal hreached hsorted, Meets, MeetsFrom, clamp_loop_start]
  refine and_congr ?_ ⟨fun hall before udm after s₁ s₂ heq hrun hstep => ?_, ?_⟩
  · cases udt.foldlM (step create_array total) ([], 0) with
    | error e => exact not_congr ⟨fun h => congrArg _ (Except.error.inj h), fun h => congrArg _ (Except.error.inj h)⟩
    | ok s => exact iff_of_true nofun nofun
  · refine hall before udm after s₁.1 s₂.1 heq ?_ ?_
    · rw [clamp_loop_start, hrun]
      rfl
    · rw [clamp_loop_start, List.foldlM_append, hrun, ok_bind, List.foldlM_cons, hstep]
      rfl
  · intro hall before udm after v v' heq hrun hstep
    rw [clamp_loop_start] at hrun hstep
    rw [List.foldlM_append] at hstep
    cases hbefore : before.foldlM (step create_array total) ([], 0) with
    | error e =>
        rw [hbefore] at hrun
        cases hrun
    | ok s₁ =>
        rw [hbefore] at hrun hstep
        rw [ok_bind, List.foldlM_cons] at hstep
        cases hrun
        cases hudm : step create_array total s₁ udm with
        | error e =>
            rw [hudm] at hstep
            cases hstep
        | ok s₂ =>
            rw [hudm] at hstep
            cases hstep
            exact hall before udm after s₁ s₂ heq hbefore hudm

end

/-- A word at an offset in the second half of the one before it, which goes past the end. -/
def two_words : List (pdb_udm_t Unit) := [⟨0, 32, "a", false, false, ()⟩, ⟨16, 32, "b", true, false, ()⟩]

/-- The second word becomes an array of one byte. -/
theorem clamp_iff_two_words :
    two_words.Pairwise (fun a b => a.offset.toNat ≤ b.offset.toNat) ∧
      Meets (fun _ => some ()) (total_bits 5 two_words) two_words :=
  ⟨by decide, (clamp_iff _ 5 two_words (by decide)).mpr fun _ => ⟨by decide, fun _ => ⟨by decide, trivial⟩⟩⟩

/-- A bitfield of three bits and a member of two bytes at the same place. -/
def beside_bitfield : List (pdb_udm_t Unit) := [⟨0, 3, "x", false, false, ()⟩, ⟨0, 16, "w", false, false, ()⟩]

/-- The second member becomes an array of two bytes that begins in the first byte, behind the bitfield. -/
theorem beside_bitfield_not_meets : ¬ Meets (fun _ => some ()) (total_bits 2 beside_bitfield) beside_bitfield := by
  rintro ⟨-, hall⟩
  have hrun : clamp_loop (fun _ => some ()) false (total_bits 2 beside_bitfield) beside_bitfield 0 0 =
      .ok [⟨0, 3, "x", false, false, ()⟩, ⟨3, 16, "w", false, false, ()⟩] := by
    rw [clamp_loop_start]
    decide
  have hfirst : clamp_loop (fun _ => some ()) false (total_bits 2 beside_bitfield) [⟨0, 3, "x", false, false, ()⟩] 0 0 =
      .ok [⟨0, 3, "x", false, false, ()⟩] := by
    rw [clamp_loop_start]
    decide
  obtain ⟨-, hlaid⟩ := hall [⟨0, 3, "x", false, false, ()⟩] _ [] _ _ rfl hfirst hrun
  exact absurd (hlaid.inside _ (List.mem_cons_of_mem _ List.mem_cons_self)) (by decide)

end IdaSdk.PdbClamp
