import IdaSdk.PdbOverlapModel
import Mathlib.Tactic.Common

/-!
The members of the PDB in a tree of generated unions and structures: where each of them is, and in which structures.
-/

namespace IdaSdk.PdbOverlap

variable {m q : pdb_udm_t} {ms udt : List pdb_udm_t} {b off : Nat}

/-- A member of the PDB with its bit offset in the whole type. -/
structure Leaf where
  tag : Nat
  offset : Nat
  size : Nat
  bit_offset : Nat
deriving DecidableEq

mutual

/-- The members of the PDB in a member that stands in a type at the offset `b`. -/
def pdb_udm_t.leaves (b : Nat) : pdb_udm_t → List Leaf
  | ⟨tag, offset, size, _, bit_offset, _, type⟩ =>
    match type with
    | .udt _ _ _ members => leaves (b + offset) members
    | _ => [⟨tag, b + offset, size, bit_offset⟩]

def leaves (b : Nat) : List pdb_udm_t → List Leaf
  | [] => []
  | m :: ms => m.leaves b ++ leaves b ms

end

mutual

/-- The members of all structures that were made for a member. -/
def pdb_udm_t.structs : pdb_udm_t → List (List pdb_udm_t)
  | ⟨_, _, _, _, _, _, type⟩ =>
    match type with
    | .udt true _ _ members => structs members
    | .udt false _ _ members => members :: structs members
    | _ => []

def structs : List pdb_udm_t → List (List pdb_udm_t)
  | [] => []
  | m :: ms => m.structs ++ structs ms

end

def Ordered (udt : List pdb_udm_t) : Prop := udt.Pairwise fun m m' => m.offset ≤ m'.offset ∧ m.finish ≤ m'.begin

def Leaf.shift (c : Nat) (l : Leaf) : Leaf := { l with offset := l.offset + c }

def pdb_udm_t.leaf (m : pdb_udm_t) : Leaf := ⟨m.tag, m.offset, m.size, m.bit_offset⟩

def pdb_udm_t.original (m : pdb_udm_t) : Bool :=
  match m.type with
  | .udt .. => false
  | _ => true

theorem leaves_eq_flatMap (b : Nat) (ms : List pdb_udm_t) : leaves b ms = ms.flatMap (pdb_udm_t.leaves b) := by
  induction ms with
  | nil => rfl
  | cons m ms ih => rw [leaves, ih, List.flatMap_cons]

theorem structs_eq_flatMap (ms : List pdb_udm_t) : structs ms = ms.flatMap pdb_udm_t.structs := by
  induction ms with
  | nil => rfl
  | cons m ms ih => rw [structs, ih, List.flatMap_cons]

theorem leaves_append (b : Nat) (ms ms' : List pdb_udm_t) : leaves b (ms ++ ms') = leaves b ms ++ leaves b ms' := by
  simp only [leaves_eq_flatMap, List.flatMap_append]

theorem structs_append (ms ms' : List pdb_udm_t) : structs (ms ++ ms') = structs ms ++ structs ms' := by
  simp only [structs_eq_flatMap, List.flatMap_append]

theorem leaves_singleton (b : Nat) (m : pdb_udm_t) : leaves b [m] = m.leaves b := by
  rw [leaves, leaves, List.append_nil]

variable {ms ms' : List pdb_udm_t}

theorem leaves_perm (b : Nat) (h : ms.Perm ms') : (leaves b ms).Perm (leaves b ms') := by
  rw [leaves_eq_flatMap, leaves_eq_flatMap]
  exact h.flatMap_right _

theorem structs_perm (h : ms.Perm ms') : (structs ms).Perm (structs ms') := by
  rw [structs_eq_flatMap, structs_eq_flatMap]
  exact h.flatMap_right _

mutual

theorem leaves_shift (b c : Nat) : ∀ m : pdb_udm_t, m.leaves (b + c) = (m.leaves b).map (Leaf.shift c)
  | ⟨tag, offset, size, name, bit_offset, base, type⟩ => by
    cases type with
    | other =>
        simp only [pdb_udm_t.leaves, List.map_cons, List.map_nil, Leaf.shift]
        rw [Nat.add_right_comm]
    | bitfield n =>
        simp only [pdb_udm_t.leaves, List.map_cons, List.map_nil, Leaf.shift]
        rw [Nat.add_right_comm]
    | udt is_union invbf total_size members =>
        rw [pdb_udm_t.leaves, pdb_udm_t.leaves, Nat.add_right_comm]
        exact all_leaves_shift (b + offset) c members

theorem all_leaves_shift (b c : Nat) : ∀ ms : List pdb_udm_t, leaves (b + c) ms = (leaves b ms).map (Leaf.shift c)
  | [] => rfl
  | m :: ms => by
    rw [leaves, leaves, List.map_append, leaves_shift b c m, all_leaves_shift b c ms]

end

theorem original_leaves (h : m.original = true) : m.leaves b = [m.leaf.shift b] := by
  obtain ⟨tag, offset, size, name, bit_offset, base, type⟩ := m
  cases type with
  | udt => cases h
  | other => simp only [pdb_udm_t.leaves, pdb_udm_t.leaf, Leaf.shift, Nat.add_comm]
  | bitfield n => simp only [pdb_udm_t.leaves, pdb_udm_t.leaf, Leaf.shift, Nat.add_comm]

theorem original_structs (h : m.original = true) : m.structs = [] := by
  obtain ⟨tag, offset, size, name, bit_offset, base, type⟩ := m
  cases type with
  | udt => cases h
  | _ => rfl

variable {total_size : Nat} {invbf : Bool}

theorem union_leaves (h : m.type = .udt true invbf total_size ms) :
    m.leaves b = leaves (b + m.offset) ms := by
  obtain ⟨tag, offset, size, name, bit_offset, base, type⟩ := m
  obtain rfl : type = .udt true invbf total_size ms := h
  rfl

theorem struct_leaves (h : m.type = .udt false invbf total_size ms) :
    m.leaves b = leaves (b + m.offset) ms := by
  obtain ⟨tag, offset, size, name, bit_offset, base, type⟩ := m
  obtain rfl : type = .udt false invbf total_size ms := h
  rfl

theorem union_structs (h : m.type = .udt true invbf total_size ms) :
    m.structs = structs ms := by
  obtain ⟨tag, offset, size, name, bit_offset, base, type⟩ := m
  obtain rfl : type = .udt true invbf total_size ms := h
  rfl

theorem struct_structs (h : m.type = .udt false invbf total_size ms) :
    m.structs = ms :: structs ms := by
  obtain ⟨tag, offset, size, name, bit_offset, base, type⟩ := m
  obtain rfl : type = .udt false invbf total_size ms := h
  rfl

theorem offset_leaves (c : Nat) : pdb_udm_t.leaves b { m with offset := m.offset + c } = m.leaves (b + c) := by
  obtain ⟨tag, offset, size, name, bit_offset, base, type⟩ := m
  cases type with
  | udt is_union invbf total_size members =>
      have heq : b + (offset + c) = b + c + offset := by omega
      simp only [pdb_udm_t.leaves, heq]
  | other => simp only [pdb_udm_t.leaves, Nat.add_assoc, Nat.add_comm c]
  | bitfield n => simp only [pdb_udm_t.leaves, Nat.add_assoc, Nat.add_comm c]

theorem offset_structs (offset : Nat) : pdb_udm_t.structs { m with offset := offset } = m.structs := by
  obtain ⟨tag, offset, size, name, bit_offset, base, type⟩ := m
  cases type with
  | udt is_union invbf total_size members => cases is_union <;> rfl
  | other => rfl
  | bitfield n => rfl

theorem rebase_offset (hoff : off ≤ q.offset) (hq : q.offset < 2 ^ 64) : (rebase off q).offset = q.offset - off := by
  simp only [rebase, wrap]
  omega

theorem rebase_structs : (rebase off q).structs = q.structs := offset_structs _

theorem rebase_leaves (hoff : off ≤ q.offset) (hq : q.offset < 2 ^ 64) : (rebase off q).leaves (b + off) = q.leaves b := by
  have h := offset_leaves (m := rebase off q) (b := b) off
  rw [← h]
  have heq : { rebase off q with offset := (rebase off q).offset + off } = q := by
    rw [rebase_offset hoff hq]
    obtain ⟨tag, offset, size, name, bit_offset, base, type⟩ := q
    simp only [rebase, pdb_udm_t.mk.injEq, true_and, and_true]
    simp only at hoff
    omega
  rw [heq]

theorem rebase_leaves_wrap (hoff : off < 2 ^ 64) (hq : q.offset < 2 ^ 64) :
    ∃ k, (rebase off q).leaves (b + off) = (q.leaves b).map (Leaf.shift (2 ^ 64 * k)) := by
  by_cases hle : off ≤ q.offset
  · refine ⟨0, ?_⟩
    rw [rebase_leaves hle hq, ← leaves_shift]
    rfl
  refine ⟨1, ?_⟩
  rw [← leaves_shift, Nat.mul_one, ← offset_leaves (m := rebase off q) (b := b) off, ← offset_leaves (m := q) (b := b)]
  have heq : { rebase off q with offset := (rebase off q).offset + off } = { q with offset := q.offset + 2 ^ 64 } := by
    simp only [rebase, wrap, pdb_udm_t.mk.injEq, true_and, and_true]
    omega
  rw [heq]

theorem rebase_all_leaves (h : ∀ q ∈ ms, off ≤ q.offset ∧ q.offset < 2 ^ 64) :
    leaves (b + off) (ms.map (rebase off)) = leaves b ms := by
  induction ms with
  | nil => rfl
  | cons q ms ih =>
      obtain ⟨hoff, hq⟩ := h q List.mem_cons_self
      rw [List.map_cons, leaves, leaves, rebase_leaves hoff hq, ih fun q hq => h q (List.mem_cons_of_mem _ hq)]

theorem rebase_all_structs (off : Nat) (ms : List pdb_udm_t) : structs (ms.map (rebase off)) = structs ms := by
  induction ms with
  | nil => rfl
  | cons q ms ih => rw [List.map_cons, structs, structs, ih, rebase_structs]

end IdaSdk.PdbOverlap
