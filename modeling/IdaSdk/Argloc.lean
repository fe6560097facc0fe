import Mathlib.Algebra.Group.Int.Defs
import Mathlib.Algebra.Group.Nat.Defs
import Mathlib.Data.List.Pairwise
import Mathlib.Tactic.Common

/-!
Where the arguments of a call are: in registers, on the stack, or scattered over both. The locations of a call are right
if each one has every byte of its argument once and no two share a register or a byte of the stack. An allocator that
only moves a register counter and a stack offset upwards gives such locations.
-/

namespace IdaSdk.Argloc

/-- A failed assertion, an internal error, or a result that its type cannot hold. -/
inductive Failure where
  | interr (code : Nat)
  | overflow
deriving DecidableEq

theorem ok_bind {β γ : Type} (b : β) (f : β → Except Failure γ) : (Except.ok b >>= f) = f b := rfl

theorem error_bind {β γ : Type} (e : Failure) (f : β → Except Failure γ) : (Except.error e >>= f) = .error e := rfl

/-- What `get_size` gives for a type without a size. -/
def BADSIZE : Nat := 2 ^ 64 - 1

def to_int (x : Nat) : Int := if x % 2 ^ 32 < 2 ^ 31 then x % 2 ^ 32 else (x % 2 ^ 32 : Nat) - 2 ^ 32

/-- The place of a part. -/
inductive place_t where
  | reg1 (reg : Nat)
  | stkoff (off : Int)
deriving DecidableEq

/-- `argpart_t`. -/
structure argpart_t where
  off : Nat
  size : Nat
  place : place_t
deriving DecidableEq

inductive argloc_t where
  | badloc
  | reg1 (reg : Nat)
  | reg2 (r r' : Nat)
  | stkoff (off : Int)
  | scattered (parts : List argpart_t)
deriving DecidableEq

/-- A location of `size` bytes as parts. Registers have 4 bytes. -/
def argloc_t.parts (size : Nat) : argloc_t → List argpart_t
  | .badloc => []
  | .reg1 r => [⟨0, size, .reg1 r⟩]
  | .reg2 r r' => [⟨0, 4, .reg1 r⟩, ⟨4, size - 4, .reg1 r'⟩]
  | .stkoff off => [⟨0, size, .stkoff off⟩]
  | .scattered parts => parts

def registers (parts : List argpart_t) : List Nat :=
  parts.filterMap fun p => match p.place with
    | .reg1 reg => some reg
    | .stkoff _ => none

def spans (parts : List argpart_t) : List (Int × Nat) :=
  parts.filterMap fun p => match p.place with
    | .reg1 _ => none
    | .stkoff off => some (off, p.size)

def argpart_t.Has (p : argpart_t) (b : Nat) : Prop := p.off ≤ b ∧ b < p.off + p.size

instance (p : argpart_t) (b : Nat) : Decidable (p.Has b) := inferInstanceAs (Decidable (_ ∧ _))

/-- Each of the bytes is in one part, and no register has more than it can hold. -/
structure Covers (parts : List argpart_t) (size : Nat) : Prop where
  once : ∀ b < size, (parts.filter fun p => p.Has b).length = 1
  width : ∀ p ∈ parts, ∀ reg, p.place = .reg1 reg → p.size ≤ 4

def Clear (s t : Int × Nat) : Prop := s.1 + s.2 ≤ t.1 ∨ t.1 + t.2 ≤ s.1

/-- The locations of arguments of these sizes, with the registers from `first` to before `last` for arguments. -/
structure Sound (first last : Nat) (stkargs : Int) (args : List (Nat × argloc_t)) : Prop where
  covers : ∀ a ∈ args, Covers (a.2.parts a.1) a.1
  allowed : ∀ a ∈ args, ∀ reg ∈ registers (a.2.parts a.1), first ≤ reg ∧ reg < last
  apart : args.Pairwise fun a b => ∀ reg ∈ registers (a.2.parts a.1), reg ∉ registers (b.2.parts b.1)
  clear : args.Pairwise fun a b => ∀ s ∈ spans (a.2.parts a.1), ∀ t ∈ spans (b.2.parts b.1), Clear s t
  inside : ∀ a ∈ args, ∀ s ∈ spans (a.2.parts a.1), 0 ≤ s.1 ∧ s.1 + s.2 ≤ stkargs

/-- The location has its registers and its stack parts between two states of an allocator. -/
structure Between (a : Nat × argloc_t) (reg : Nat) (off : Int) (reg' : Nat) (off' : Int) : Prop where
  covers : Covers (a.2.parts a.1) a.1
  registers : ∀ r ∈ registers (a.2.parts a.1), reg ≤ r ∧ r < reg'
  spans : ∀ s ∈ spans (a.2.parts a.1), off ≤ s.1 ∧ s.1 + s.2 ≤ off'
  reg_le : reg ≤ reg'
  off_le : off ≤ off'

/-- Locations that are allocated one after the other. -/
inductive Upwards : Nat → Int → List (Nat × argloc_t) → Nat → Int → Prop
  | nil (reg : Nat) (off : Int) : Upwards reg off [] reg off
  | cons {a : Nat × argloc_t} {args : List (Nat × argloc_t)} {reg reg' reg'' : Nat} {off off' off'' : Int} :
    Between a reg off reg' off' → Upwards reg' off' args reg'' off'' → Upwards reg off (a :: args) reg'' off''

variable {args : List (Nat × argloc_t)} {reg reg' first last : Nat} {off off' : Int}

theorem Upwards.le (h : Upwards reg off args reg' off') : reg ≤ reg' ∧ off ≤ off' := by
  induction h with
  | nil reg off => exact ⟨Nat.le_refl reg, Int.le_refl off⟩
  | cons ha _ ih => exact ⟨Nat.le_trans ha.reg_le ih.1, Int.le_trans ha.off_le ih.2⟩

theorem Upwards.between (h : Upwards reg off args reg' off') : ∀ a ∈ args, Between a reg off reg' off' := by
  induction h with
  | nil => exact fun a ha => absurd ha List.not_mem_nil
  | cons ha hrest ih =>
      have hle := hrest.le
      intro a hmem
      rcases List.mem_cons.mp hmem with rfl | hmem
      · exact ⟨ha.covers, fun r hr => ⟨(ha.registers r hr).1, Nat.lt_of_lt_of_le (ha.registers r hr).2 hle.1⟩,
          fun s hs => ⟨(ha.spans s hs).1, Int.le_trans (ha.spans s hs).2 hle.2⟩, Nat.le_trans ha.reg_le hle.1,
          Int.le_trans ha.off_le hle.2⟩
      · have hb := ih a hmem
        exact ⟨hb.covers, fun r hr => ⟨Nat.le_trans ha.reg_le (hb.registers r hr).1, (hb.registers r hr).2⟩,
          fun s hs => ⟨Int.le_trans ha.off_le (hb.spans s hs).1, (hb.spans s hs).2⟩, Nat.le_trans ha.reg_le hb.reg_le,
          Int.le_trans ha.off_le hb.off_le⟩

theorem Upwards.sound (h : Upwards reg off args reg' off') (hfirst : first ≤ reg) (hlast : reg' ≤ last)
    (hoff : 0 ≤ off) : Sound first last off' args where
  covers := fun a ha => (h.between a ha).covers
  allowed := by
    intro a ha r hr
    obtain ⟨hlow, hhigh⟩ := (h.between a ha).registers r hr
    exact ⟨Nat.le_trans hfirst hlow, Nat.lt_of_lt_of_le hhigh hlast⟩
  apart := by
    clear hfirst hlast hoff
    induction h with
    | nil => exact .nil
    | cons ha hrest ih =>
        refine .cons (fun b hb r hr hr' => ?_) ih
        have hlow := ((hrest.between b hb).registers r hr').1
        have hhigh := (ha.registers r hr).2
        omega
  clear := by
    clear hfirst hlast hoff
    induction h with
    | nil => exact .nil
    | cons ha hrest ih =>
        refine .cons (fun b hb s hs t ht => Or.inl ?_) ih
        exact Int.le_trans (ha.spans s hs).2 ((hrest.between b hb).spans t ht).1
  inside := fun a ha s hs =>
    ⟨Int.le_trans hoff ((h.between a ha).spans s hs).1, ((h.between a ha).spans s hs).2⟩

/-- Parts that follow each other without a gap. -/
inductive Tiles : Nat → List argpart_t → Nat → Prop
  | nil (b : Nat) : Tiles b [] b
  | cons {p : argpart_t} {parts : List argpart_t} {b b' : Nat} :
    p.off = b → Tiles (b + p.size) parts b' → Tiles b (p :: parts) b'

variable {parts : List argpart_t}

theorem Tiles.le {b b' : Nat} (h : Tiles b parts b') : b ≤ b' := by
  induction h with
  | nil => exact Nat.le_refl _
  | cons _ _ ih => exact Nat.le_trans (Nat.le_add_right _ _) ih

theorem Tiles.count {b b' x : Nat} (h : Tiles b parts b') :
    (parts.filter fun p => p.Has x).length = if b ≤ x ∧ x < b' then 1 else 0 := by
  induction h with
  | nil b => rw [List.filter_nil, List.length_nil, if_neg (by omega)]
  | @cons p parts b b' hoff hrest ih =>
      have hle := hrest.le
      by_cases hx : p.Has x
      · have hlow : b ≤ x ∧ x < b + p.size := hoff ▸ hx
        rw [List.filter_cons, if_pos (decide_eq_true hx), List.length_cons, ih, if_neg (by omega), if_pos (by omega)]
      have hlow : ¬ (b ≤ x ∧ x < b + p.size) := hoff ▸ hx
      rw [List.filter_cons, if_neg (by rwa [decide_eq_true_eq]), ih]
      congr 1
      apply propext
      omega

variable {size : Nat}

theorem Tiles.covers {total : Nat} (h : Tiles 0 parts total) (hsize : size ≤ total)
    (hwidth : ∀ p ∈ parts, ∀ reg, p.place = .reg1 reg → p.size ≤ 4) : Covers parts size where
  once := by
    intro b hb
    rw [h.count, if_pos ⟨Nat.zero_le b, Nat.lt_of_lt_of_le hb hsize⟩]
  width := hwidth

theorem le_of_tiles {total : Nat} (htiles : Tiles 0 parts total)
    (hcovers : Covers parts size) : size ≤ total := by
  by_contra hlt
  have hone := hcovers.once total (Nat.lt_of_not_le hlt)
  rw [htiles.count, if_neg (by omega)] at hone
  cases hone

theorem registers_append (ps qs : List argpart_t) : registers (ps ++ qs) = registers ps ++ registers qs :=
  List.filterMap_append

theorem spans_append (ps qs : List argpart_t) : spans (ps ++ qs) = spans ps ++ spans qs := List.filterMap_append

theorem covers_reg1 (h : size ≤ 4) (r : Nat) : Covers (argloc_t.parts size (.reg1 r)) size := by
  refine Tiles.covers (.cons rfl (.nil _)) (Nat.le_add_left size 0) fun p hp _ _ => ?_
  cases List.mem_singleton.mp hp
  exact h

theorem covers_stkoff (size : Nat) (off : Int) : Covers (argloc_t.parts size (.stkoff off)) size := by
  refine Tiles.covers (.cons rfl (.nil _)) (Nat.le_add_left size 0) fun p hp r hr => ?_
  cases List.mem_singleton.mp hp
  cases hr

theorem covers_reg2 (h : size ≤ 8) (r r' : Nat) : Covers (argloc_t.parts size (.reg2 r r')) size := by
  refine Tiles.covers (.cons rfl (.cons rfl (.nil _))) (by dsimp only; omega) fun p hp _ _ => ?_
  simp only [argloc_t.parts, List.mem_cons, List.not_mem_nil, or_false] at hp
  rcases hp with rfl | rfl
  · exact Nat.le_refl 4
  · dsimp only
    omega

end IdaSdk.Argloc
