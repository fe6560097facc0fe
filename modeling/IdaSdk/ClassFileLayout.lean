import Mathlib.Logic.Function.Iterate
import IdaSdk.ClassFileModel

/-!
Where the structures of a class file lie: the abstract view of a file, from the lengths and the counts
that it declares. The loader does not occur here.
-/

namespace IdaSdk.ClassFile

section Layout

variable (file : File)

/-- The end of the attribute that starts at `p`. -/
def attrEnd (p : Nat) : Nat := p + 6 + file.u4 (p + 2)

/-- The start of an attribute of the table at `p`. -/
def attrAt (p k : Nat) : Nat := (attrEnd file)^[k] (p + 2)

def tableEnd (p : Nat) : Nat := attrAt file p (file.u2 p)

/-- The end of the field or method that starts at `p`. -/
def memberEnd (p : Nat) : Nat := tableEnd file (p + 6)

/-- The start of a field or method of the table at `p`. -/
def memberAt (p k : Nat) : Nat := (memberEnd file)^[k] (p + 2)

/-- The end of the bootstrap method that starts at `p`. -/
def bootstrapEnd (p : Nat) : Nat := p + 4 + 2 * file.u2 (p + 2)

/-- The bootstrap methods of the attribute at `p` fill it. -/
def BootstrapAt (p : Nat) : Prop := (bootstrapEnd file)^[file.u2 (p + 6)] (p + 8) = attrEnd file p

variable (old : Bool)

/-- The length of the code of the attribute at `p`; before JDK1.1 it has 16 bits. -/
def codeLength (p : Nat) : Nat := if old then file.u2 (p + 8) else file.u4 (p + 10)

/-- Where the exception table of the attribute at `p` starts. -/
def exceptionsAt (p : Nat) : Nat := p + (if old then 10 else 14) + codeLength file old p

def nestedAt (p : Nat) : Nat :=
  exceptionsAt file old p + 2 + 8 * file.u2 (exceptionsAt file old p)

/-- What is nested in the code fills the attribute at `p`. -/
def CodeAt (p : Nat) : Prop := tableEnd file (nestedAt file old p) = attrEnd file p

variable (env : Env) (old : Bool) (apk : attr_parent_kind_t)

def kindAt (p : Nat) : attr_t := env.attribute_type_from_str (file.u2 p) apk

/-- The tables in the attribute at `p` agree with its length. -/
def ConsistentAttr (p : Nat) : Prop :=
  (kindAt file env apk p = .Code → CodeAt file old p) ∧ (kindAt file env apk p = .BootstrapMethods → BootstrapAt file p)

/-- A constant value exists, and code without instructions has no exceptions. -/
def LegalAttr (p : Nat) : Prop :=
  (kindAt file env apk p = .ConstantValue → file.u4 (p + 2) = 2 → env.LoadOpis (file.u2 (p + 6)) 0 = true) ∧
    (kindAt file env apk p = .Code → codeLength file old p = 0 → file.u2 (exceptionsAt file old p) = 0)

def ConsistentTable (p : Nat) : Prop := ∀ k, k < file.u2 p → ConsistentAttr file env old apk (attrAt file p k)

def LegalTable (p : Nat) : Prop := ∀ k, k < file.u2 p → LegalAttr file env old apk (attrAt file p k)

/-- The same for the fields or methods of the table at `p`. -/
def ConsistentMembers (p : Nat) : Prop :=
  ∀ k, k < file.u2 p → ConsistentTable file env old apk (memberAt file p k + 6)

def LegalMembers (p : Nat) : Prop := ∀ k, k < file.u2 p → LegalTable file env old apk (memberAt file p k + 6)

/-! ### The file -/

/-- The size of the record of the constant pool at `p`. -/
def constantSize (p : Nat) : Nat :=
  let type := file.u1 p
  if type = CONSTANT_Long ∨ type = CONSTANT_Double then 9
  else if type = CONSTANT_Integer ∨ type = CONSTANT_Float then 5
  else if type = CONSTANT_NameAndType ∨ type = CONSTANT_Fieldref ∨ type = CONSTANT_Methodref ∨
      type = CONSTANT_InterfaceMethodref then 5
  else if type = CONSTANT_Class ∨ type = CONSTANT_String ∨ type = CONSTANT_MethodType then 3
  else if type = CONSTANT_Utf8 then 3 + file.u2 (p + 1)
  else if type = CONSTANT_MethodHandle then 4
  else 5

/-- Where the records of so many indices end that start at `p`. -/
def constantsEnd : Nat → Nat → Nat
  | 0, p => p
  | 1, p => p + constantSize file p
  | n + 2, p =>
      if file.u1 p = CONSTANT_Long ∨ file.u1 p = CONSTANT_Double then constantsEnd n (p + constantSize file p)
      else constantsEnd (n + 1) (p + constantSize file p)

def poolEnd : Nat := constantsEnd file (file.u2 8 - 1) 10

def isOld : Bool := file.u2 6 = 45 && file.u2 4 < 3

/-- Where the number of fields is, after the interfaces. -/
def fieldsAt : Nat := poolEnd file + 8 + 2 * file.u2 (poolEnd file + 6)

def methodsAt : Nat := memberAt file (fieldsAt file) (file.u2 (fieldsAt file))

def classAttributesAt : Nat := memberAt file (methodsAt file) (file.u2 (methodsAt file))

def classEnd : Nat := tableEnd file (classAttributesAt file)

/-- The nested tables and the lengths of the attributes agree. -/
structure Consistent : Prop where
  fields : ConsistentMembers file env (isOld file) .field (fieldsAt file)
  methods : ConsistentMembers file env (isOld file) .method (methodsAt file)
  attributes : ConsistentTable file env (isOld file) .class_file (classAttributesAt file)

/-- The values of the fields exist, and methods without instructions have no exceptions. -/
structure Legal : Prop where
  fields : LegalMembers file env (isOld file) .field (fieldsAt file)
  methods : LegalMembers file env (isOld file) .method (methodsAt file)

instance (p : Nat) : Decidable (ConsistentAttr file env old apk p) :=
  inferInstanceAs (Decidable ((_ = _ → _ = _) ∧ (_ = _ → _ = _)))

instance (p : Nat) : Decidable (LegalAttr file env old apk p) :=
  inferInstanceAs (Decidable ((_ = _ → _ = _ → _ = _) ∧ (_ = _ → _ = _ → _ = _)))

instance (p : Nat) : Decidable (ConsistentTable file env old apk p) :=
  inferInstanceAs (Decidable (∀ k, k < _ → ConsistentAttr file env old apk (attrAt file p k)))

instance (p : Nat) : Decidable (LegalTable file env old apk p) :=
  inferInstanceAs (Decidable (∀ k, k < _ → LegalAttr file env old apk (attrAt file p k)))

instance (p : Nat) : Decidable (ConsistentMembers file env old apk p) :=
  inferInstanceAs (Decidable (∀ k, k < _ → ConsistentTable file env old apk (memberAt file p k + 6)))

instance (p : Nat) : Decidable (LegalMembers file env old apk p) :=
  inferInstanceAs (Decidable (∀ k, k < _ → LegalTable file env old apk (memberAt file p k + 6)))

end Layout

section Lemmas

variable {file : File} {env : Env} {old : Bool} {apk : attr_parent_kind_t} {p k : Nat}

theorem attrAt_succ : attrAt file p (k + 1) = attrEnd file (attrAt file p k) := Function.iterate_succ_apply' _ _ _

theorem memberAt_succ : memberAt file p (k + 1) = memberEnd file (memberAt file p k) :=
  Function.iterate_succ_apply' _ _ _

theorem le_iterate {f : Nat → Nat} (h : ∀ p, p ≤ f p) (n p : Nat) : p ≤ f^[n] p := by
  induction n generalizing p with
  | zero => exact Nat.le_refl p
  | succ n ih => exact Nat.le_trans (h p) (ih (f p))

theorem le_tableEnd : p + 2 ≤ tableEnd file p :=
  le_iterate (fun p => by rw [attrEnd, Nat.add_assoc]; exact Nat.le_add_right _ _) _ _

theorem le_bootstrapEnd (n p : Nat) : p ≤ (bootstrapEnd file)^[n] p :=
  le_iterate (fun p => by rw [bootstrapEnd, Nat.add_assoc]; exact Nat.le_add_right _ _) n p

variable {index : Nat}

theorem type_mem {kind : attr_t} (h : env.attribute_type_from_str index apk = kind)
    (hk : kind ∉ [attr_t.NONAME, .TRUNCATED, .UNKNOWN]) : kind ∈ (names apk).map Prod.snd := by
  subst h
  rw [Env.attribute_type_from_str] at hk ⊢
  split at hk
  · exact absurd (by simp) hk
  rename_i hname
  rw [if_neg hname]
  split at hk
  · exact absurd (by simp) hk
  rename_i str _
  cases hfind : (names apk).find? fun x => x.1 = str with
  | none =>
      rw [hfind] at hk
      exact absurd (by simp) hk
  | some x => exact List.mem_map_of_mem (List.mem_of_find?_eq_some hfind)

theorem apk_of_ConstantValue (h : env.attribute_type_from_str index apk = .ConstantValue) :
    apk = .field := by
  have hmem := type_mem h (by decide)
  revert hmem
  cases apk <;> decide

theorem apk_of_Code (h : env.attribute_type_from_str index apk = .Code) : apk = .method := by
  have hmem := type_mem h (by decide)
  revert hmem
  cases apk <;> decide

theorem apk_of_BootstrapMethods (h : env.attribute_type_from_str index apk = .BootstrapMethods) :
    apk = .class_file := by
  have hmem := type_mem h (by decide)
  revert hmem
  cases apk <;> decide

theorem consistent_code : ConsistentAttr file env old .code p :=
  ⟨fun h => absurd (apk_of_Code h) (by simp), fun h => absurd (apk_of_BootstrapMethods h) (by simp)⟩

theorem legal_code : LegalAttr file env old .code p :=
  ⟨fun h => absurd (apk_of_ConstantValue h) (by simp), fun h => absurd (apk_of_Code h) (by simp)⟩

theorem legal_class_file : LegalAttr file env old .class_file p :=
  ⟨fun h => absurd (apk_of_ConstantValue h) (by simp), fun h => absurd (apk_of_Code h) (by simp)⟩

end Lemmas

end IdaSdk.ClassFile
