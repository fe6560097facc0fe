import IdaSdk.PageBptsModel
import Mathlib.Data.Nat.Bitwise

/-!
The access rights that `remove_page_protections` leaves. A protection has one of eight constants in its low byte and
modifiers above it; a guard page traps every access.
-/

namespace IdaSdk.PageBpts

/-- The constants for protections, with the rights they grant as Unix permissions. -/
def rights : List (Nat × Nat) :=
  [(PAGE_NOACCESS, 0), (PAGE_READONLY, 1), (PAGE_READWRITE, 3), (PAGE_WRITECOPY, 3), (PAGE_EXECUTE, 4),
    (PAGE_EXECUTE_READ, 5), (PAGE_EXECUTE_READWRITE, 7), (PAGE_EXECUTE_WRITECOPY, 7)]

/-- Each page has exactly one of the constants. -/
def Proper (prot : Nat) : Prop := prot % 256 ∈ rights.map Prod.fst

def access (prot : Nat) : Nat := if prot &&& PAGE_GUARD ≠ 0 then 0 else (rights.lookup (prot % 256)).getD 0

inductive Access where
  | read | write | exec
deriving DecidableEq

/-- Whether the program may access a page. Without data execution prevention what can be read can be executed. -/
def grants (dep : Dep) (prot : Nat) : Access → Bool
  | .read => (access prot).testBit 0
  | .write => (access prot).testBit 1
  | .exec => (access prot).testBit 2 || (dep.disabled && (access prot).testBit 0)

/-- The accesses at which a breakpoint of this type stops. -/
def traps (bpttype : Nat) : Access → Bool
  | .read => bpttype &&& BPT_READ ≠ 0
  | .write => bpttype &&& BPT_WRITE ≠ 0
  | .exec => bpttype &&& BPT_EXEC ≠ 0

theorem and_low (p x : Nat) (hx : x < 256) : p &&& x = p % 256 &&& x := by
  have hle : p &&& x < 2 ^ 8 := Nat.lt_of_le_of_lt Nat.and_le_right hx
  have hmod : (p &&& x) % 2 ^ 8 = p % 2 ^ 8 &&& x % 2 ^ 8 := Nat.and_mod_two_pow
  rwa [Nat.mod_eq_of_lt hle, Nat.mod_eq_of_lt (show x < 2 ^ 8 from hx)] at hmod

theorem unix_of_low (p : Nat) : unix_of p = unix_of (p % 256) := by
  have hlow : ∀ x, x < 256 → (p % 256 &&& x = p &&& x) := fun x hx => (and_low p x hx).symm
  have hwc := hlow PAGE_WRITECOPY (by decide)
  have hew := hlow PAGE_EXECUTE_WRITECOPY (by decide)
  rw [unix_of, unix_of, hwc, hew]
  have hidx : (win32_page_protections.findIdx? fun q => decide (q ≠ 0xFF ∧ p &&& q ≠ 0)) =
      win32_page_protections.findIdx? fun q => decide (q ≠ 0xFF ∧ p % 256 &&& q ≠ 0) := by
    simp only [win32_page_protections, List.findIdx?_cons, List.findIdx?_nil]
    simp only [hlow _ (show PAGE_NOACCESS < 256 by decide), hlow _ (show PAGE_READONLY < 256 by decide),
      hlow _ (show PAGE_READWRITE < 256 by decide), hlow _ (show PAGE_EXECUTE < 256 by decide),
      hlow _ (show PAGE_EXECUTE_READ < 256 by decide), hlow _ (show PAGE_EXECUTE_READWRITE < 256 by decide),
      hlow _ (show 0xFF < 256 by decide)]
  rw [hidx]

theorem replace_low (p x : Nat) (hx : x < 256) :
    ((p &&& 0xFFFFFF00) ||| x) % 256 = x ∧ ((p &&& 0xFFFFFF00) ||| x) &&& PAGE_GUARD = p &&& PAGE_GUARD := by
  constructor
  · have hmod : ((p &&& 0xFFFFFF00) ||| x) % 2 ^ 8 = ((p &&& 0xFFFFFF00) % 2 ^ 8) ||| (x % 2 ^ 8) := Nat.or_mod_two_pow
    have hhigh : (p &&& 0xFFFFFF00) % 2 ^ 8 = 0 := by
      rw [Nat.and_mod_two_pow]
      simp
    rw [hhigh, Nat.mod_eq_of_lt (show x < 2 ^ 8 from hx), Nat.zero_or] at hmod
    exact hmod
  · have hguard : x &&& PAGE_GUARD = 0 := by
      rw [Nat.and_comm, show PAGE_GUARD = 2 ^ 8 by rfl, Nat.two_pow_and, Nat.testBit_lt_two_pow (show x < 2 ^ 8 from hx)]
      rfl
    rw [Nat.and_or_distrib_right, hguard, Nat.and_assoc, show 0xFFFFFF00 &&& PAGE_GUARD = PAGE_GUARD by decide,
      Nat.or_zero]

variable (dep : Dep)

theorem trapped_lt (bpttype : Nat) : trapped dep bpttype < 8 := by
  unfold trapped
  cases dep.disabled <;> split <;> split <;> split <;> decide

theorem kept_rights : ∀ base ∈ rights.map Prod.fst, ∀ del < 8,
    (unix_of base).isSome = true ∧
      win32_page_protections.getD (keep_perms ((unix_of base).getD 0) del) 0 ∈ rights.map Prod.fst ∧
      (∀ i < 3, (access (win32_page_protections.getD (keep_perms ((unix_of base).getD 0) del) 0)).testBit i = true →
        (access base).testBit i = true ∧ del.testBit i = false) := by
  decide

theorem low_lt : ∀ base ∈ rights.map Prod.fst, base < 256 ∧ base ≠ 0 := by decide

theorem access_eq (p : Nat) (h : p &&& PAGE_GUARD = 0) : access p = access (p % 256) := by
  have hlow : p % 256 &&& PAGE_GUARD = 0 := by
    rw [show PAGE_GUARD = 2 ^ 8 by rfl, Nat.and_two_pow,
      Nat.testBit_lt_two_pow (show p % 256 < 2 ^ 8 from Nat.mod_lt p (by decide))]
    rfl
  rw [access, access, if_neg (not_not.mpr h), if_neg (not_not.mpr hlow), Nat.mod_mod]

theorem remove_page_protections_access (input bpttype : Nat) (h : Proper input) :
    ∃ removed out, remove_page_protections dep input bpttype = some (removed, out) ∧ Proper out ∧
      (removed = false → out = input) ∧
      ∀ i < 3, (access out).testBit i = true →
        (access input).testBit i = true ∧ (trapped dep bpttype).testBit i = false := by
  by_cases hguard : input &&& PAGE_GUARD ≠ 0
  · refine ⟨false, input, by rw [remove_page_protections, if_pos hguard], h, fun _ => rfl, ?_⟩
    intro i _ hi
    rw [access, if_pos hguard, Nat.zero_testBit] at hi
    cases hi
  · rw [remove_page_protections, if_neg hguard]
    obtain ⟨hsome, hmem, hkeep⟩ := kept_rights (input % 256) h (trapped dep bpttype) (trapped_lt dep bpttype)
    rw [← unix_of_low] at hsome hmem hkeep
    obtain ⟨unix, hunix⟩ := Option.isSome_iff_exists.mp hsome
    rw [hunix, Option.getD_some] at hmem hkeep
    rw [hunix]
    obtain ⟨hlow, hbit⟩ := replace_low input _ (low_lt _ hmem).1
    rw [not_not] at hguard
    rw [hguard] at hbit
    refine ⟨true, _, rfl, ?_, fun h => absurd h (by decide), ?_⟩
    · rw [Proper, hlow]
      exact hmem
    · rw [access_eq _ hbit, hlow, access_eq _ hguard]
      exact hkeep

theorem trapped_testBit (bpttype : Nat) :
    (traps bpttype .read = true → (trapped dep bpttype).testBit 0 = true) ∧
      (traps bpttype .write = true → (trapped dep bpttype).testBit 1 = true) ∧
      (traps bpttype .exec = true → (trapped dep bpttype).testBit 2 = true ∧
        (dep.disabled = true → (trapped dep bpttype).testBit 0 = true)) := by
  unfold trapped traps
  refine ⟨fun h => ?_, fun h => ?_, fun h => ⟨?_, fun hd => ?_⟩⟩
  · rw [if_pos (of_decide_eq_true h), Nat.testBit_or, Nat.testBit_or]
    rfl
  · rw [if_pos (c := bpttype &&& BPT_WRITE ≠ 0) (of_decide_eq_true h), Nat.testBit_or, Nat.testBit_or,
      show Nat.testBit 2 1 = true by rfl, Bool.or_true, Bool.true_or]
  · rw [if_pos (c := bpttype &&& BPT_EXEC ≠ 0) (of_decide_eq_true h), Nat.testBit_or, Nat.testBit_or 4,
      show Nat.testBit 4 2 = true by rfl, Bool.true_or, Bool.or_true]
  · rw [if_pos (c := bpttype &&& BPT_EXEC ≠ 0) (of_decide_eq_true h), if_pos hd, Nat.testBit_or,
      show Nat.testBit (4 ||| 1) 0 = true by rfl, Bool.or_true]

/-- What the protection for a breakpoint grants. -/
structure Restricts (dep : Dep) (input out bpttype : Nat) : Prop where
  grants_before : ∀ a, grants dep out a = true → grants dep input a = true
  not_trapped : ∀ a, traps bpttype a = true → grants dep out a = false

theorem remove_page_protections_restricts (input bpttype : Nat) (h : Proper input) :
    ∃ removed out, remove_page_protections dep input bpttype = some (removed, out) ∧
      Restricts dep input out bpttype := by
  obtain ⟨removed, out, heq, -, -, hkeep⟩ := remove_page_protections_access dep input bpttype h
  obtain ⟨hread, hwrite, hexec⟩ := trapped_testBit dep bpttype
  have hnot : ∀ i < 3, (trapped dep bpttype).testBit i = true → (access out).testBit i = false := by
    intro i hi ht
    rw [← Bool.not_eq_true]
    intro hbit
    rw [(hkeep i hi hbit).2] at ht
    cases ht
  refine ⟨removed, out, heq, ?_, ?_⟩
  · intro a ha
    cases a with
    | read => exact (hkeep 0 (by decide) ha).1
    | write => exact (hkeep 1 (by decide) ha).1
    | exec =>
        rw [grants, Bool.or_eq_true, Bool.and_eq_true] at ha ⊢
        exact ha.imp (fun h => (hkeep 2 (by decide) h).1) fun h => ⟨h.1, (hkeep 0 (by decide) h.2).1⟩
  · intro a ha
    cases a with
    | read => exact hnot 0 (by decide) (hread ha)
    | write => exact hnot 1 (by decide) (hwrite ha)
    | exec =>
        rw [grants, hnot 2 (by decide) (hexec ha).1, Bool.false_or]
        cases hd : dep.disabled with
        | false => rfl
        | true => exact hnot 0 (by decide) ((hexec ha).2 hd)

end IdaSdk.PageBpts
