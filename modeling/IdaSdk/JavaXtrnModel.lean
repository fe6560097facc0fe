import Mathlib.Logic.Function.Basic
import Mathlib.Data.UInt
import Mathlib.Tactic.Common

/-!
The constant pool of the Java module and its external references. `load_constants_pool` checks the constants and
collects those that refer to fields and methods, and `setPoolReference` gives slots to them and to their classes.
External references are loaded (`MLD_EXTREF`). A file has fewer constants than 2^16, so that no index and no slot
wraps.
-/

namespace IdaSdk.JavaXtrn
open Function

/-! ### Constants -/

inductive cp_tag_t where
  | Utf8
  | Integer
  | Float
  | Long
  | Double
  | Class
  | String
  | Fieldref
  | Methodref
  | InterfaceMethodref
  | NameAndType
  | MethodHandle
  | MethodType
  | InvokeDynamic
deriving DecidableEq

/-- A constant of the file, with the indices that it has. -/
inductive constant_t where
  | Utf8 (string : List UInt16)
  | Integer
  | Float
  | Long
  | Double
  | Class (name_index : Nat)
  | String (string_index : Nat)
  | Fieldref (class_index name_and_type_index : Nat)
  | Methodref (class_index name_and_type_index : Nat)
  | InterfaceMethodref (class_index name_and_type_index : Nat)
  | NameAndType (name_index descriptor_index : Nat)
  | MethodHandle (reference_kind reference_index : Nat)
  | MethodType (descriptor_index : Nat)
  | InvokeDynamic (bootstrap_method_attr_index name_and_type_index : Nat)

def HAS_FLDNAME : UInt8 := 0x02
def HAS_TYPEDSCR : UInt8 := 0x04
def HAS_CALLDSCR : UInt8 := 0x08
def HAS_CLSNAME : UInt8 := 0x10
def SUB_FLDNAME : UInt8 := 0x20
def SUB_TYPEDSCR : UInt8 := 0x40
def SUB_CALLDSCR : UInt8 := 0x80
def SUB_SHIFT : UInt8 := 4

/-- A constant of the database. The flag `_REF` stands by itself. -/
structure const_desc_t where
  type : cp_tag_t
  flag : UInt8 := 0
  _REF : Bool := false
  ref_ip : Nat := 0
  _name : Nat := 0
  _class : Nat := 0
  _dscr : Nat := 0
  _subnam : Nat := 0
deriving DecidableEq

/-- What is made of a string when it is loaded: the flags of its constant, and those beside its size. -/
structure parsed_t where
  flag : UInt8
  opstr_flags : UInt16

/-- The constants by their indices, from 1 on. There is none behind a `Long` or a `Double`. -/
abbrev constant_pool_t := List (Option constant_t)

namespace constant_pool_t
variable (cp : constant_pool_t)

def constant (index : Nat) : Option constant_t := if index = 0 then none else (cp[index - 1]?).join

def string (index : Nat) : List UInt16 :=
  match constant cp index with
  | some (.Utf8 string) => string
  | _ => []

end constant_pool_t

section
variable (parse : List UInt16 → parsed_t) (cp : constant_pool_t)

variable (i : Nat)

/-- A constant as it is read. No empty string is parsed. -/
def readConstant : constant_t → const_desc_t
  | .Utf8 string => { type := .Utf8, _name := i, flag := if string = [] then 0 else (parse string).flag }
  | .Integer => { type := .Integer }
  | .Float => { type := .Float }
  | .Long => { type := .Long }
  | .Double => { type := .Double }
  | .Class name => { type := .Class, _name := name }
  | .String string => { type := .String, _name := string }
  | .Fieldref cls nat => { type := .Fieldref, _class := cls, _name := nat }
  | .Methodref cls nat => { type := .Methodref, _class := cls, _name := nat }
  | .InterfaceMethodref cls nat => { type := .InterfaceMethodref, _class := cls, _name := nat }
  | .NameAndType name dscr => { type := .NameAndType, _class := name, _name := dscr }
  | .MethodHandle kind index => { type := .MethodHandle, _name := kind, _class := index }
  | .MethodType dscr => { type := .MethodType, _name := dscr }
  | .InvokeDynamic bm nat => { type := .InvokeDynamic, _class := bm, _name := nat }

/-- Two strings are compared by their sizes and flags, then by their contents; an empty one equals itself only. -/
def CmpString (index1 index2 : Nat) : Int :=
  let string1 := cp.string index1
  let string2 := cp.string index2
  if index1 = index2 then 0
  else if string1.length ≠ string2.length ∨ (parse string1).opstr_flags ≠ (parse string2).opstr_flags then 1
  else if string1 = [] then -1
  else if string1 ≠ string2 then 1
  else 0

/-! ### Loading -/

/-- The constants, the number of messages, and the two tables of `XtrnNode`: classes with the indices of their names,
and references. -/
structure load_t where
  pool : Nat → Option const_desc_t
  errload : Nat := 0
  classes : List (Nat × Nat) := []
  refs : List Nat := []

def load_t.StoreOpis (s : load_t) (index : Nat) (opis : const_desc_t) : load_t :=
  { s with pool := update s.pool index (some opis) }

/-- What a constant should be. A string that only is checked gives a message and no error. -/
inductive op_t where
  | any
  | type (t : cp_tag_t)
  | named
  | check (mask : UInt8)
  | load (mask : UInt8)

/-- The constant, if it is what it should be. -/
def LoadOpis (op : op_t) (index : Nat) (s : load_t) : Option const_desc_t × load_t :=
  match s.pool index with
  | none => (none, s)
  | some p =>
    let p := { p with _REF := true }
    let s := s.StoreOpis index p
    match op with
    | .any => (some p, s)
    | .type t => (if t = p.type then some p else none, s)
    | .named => (if p.type = .Class ∧ p.flag &&& HAS_CLSNAME ≠ 0 then some p else none, s)
    | .check mask =>
      if p.type ≠ .Utf8 then (none, s)
      else if p.flag &&& mask ≠ 0 then (some p, s)
      else (some p, { s with errload := s.errload + 1 })
    | .load mask => (if p.type = .Utf8 ∧ p.flag &&& mask ≠ 0 then some p else none, s)

def need (r : Option const_desc_t × load_t) (k : const_desc_t → load_t → Option load_t) : Option load_t :=
  r.1.bind fun cr => k cr r.2

/-- The first class with the same name, which may be this one. -/
def findClass (cd : const_desc_t) (s : load_t) : load_t :=
  match s.classes.find? fun rfc => CmpString parse cp cd._name rfc.2 = 0 with
  | some rfc => s.StoreOpis i { cd with _subnam := rfc.1 }
  | none => { s with classes := s.classes ++ [(i, cd._name)] }.StoreOpis i { cd with _subnam := i }

def checkConstant (s : load_t) : Option load_t :=
  match s.pool i with
  | none => some s
  | some cd =>
    match cd.type with
    | .String => need (LoadOpis (.type .Utf8) cd._name s) fun _ s => some s
    | .NameAndType =>
      need (LoadOpis (.check HAS_FLDNAME) cd._class s) fun cr s =>
        let cd := { cd with flag := cd.flag ||| (cr.flag &&& HAS_FLDNAME) <<< SUB_SHIFT }
        need (LoadOpis (.check (HAS_TYPEDSCR ||| HAS_CALLDSCR)) cd._name s) fun cr s =>
          some (s.StoreOpis i { cd with
            flag := cd.flag ||| ((cr.flag <<< SUB_SHIFT) &&& (SUB_TYPEDSCR ||| SUB_CALLDSCR)) })
    | .Class =>
      need (LoadOpis (.check (HAS_TYPEDSCR ||| HAS_CLSNAME)) cd._name s) fun cr s =>
        let cd := { cd with
          flag := cd.flag ||| (cr.flag &&& (HAS_FLDNAME ||| HAS_TYPEDSCR ||| HAS_CLSNAME)), _dscr := 0, _subnam := 0 }
        let s := s.StoreOpis i cd
        some (if cd.flag &&& HAS_CLSNAME ≠ 0 then findClass parse cp i cd s else s)
    | _ => some s

/-- A reference to a field or a method. It is external if it gives no message. -/
def referenceMember (cd : const_desc_t) (s : load_t) : Option load_t :=
  need (LoadOpis (.type .Class) cd._class s) fun cr s =>
    let k := cd._name
    let sav := s.errload
    let cd := { cd with flag := cd.flag ||| (cr.flag &&& HAS_CLSNAME), ref_ip := cr._subnam, _name := cr._name }
    let s := (LoadOpis (.check HAS_CLSNAME) cd._name s).2
    need (LoadOpis (.type .NameAndType) k s) fun cr s =>
      let cd := { cd with
        flag := cd.flag ||| (cr.flag &&& (SUB_FLDNAME ||| SUB_TYPEDSCR ||| SUB_CALLDSCR)), _dscr := cr._name,
        _subnam := cr._class }
      let s := (LoadOpis (.check (if cd.type = .Fieldref then HAS_TYPEDSCR else HAS_CALLDSCR)) cd._dscr s).2
      let named := LoadOpis (.load HAS_FLDNAME) cd._subnam s
      let s := named.2
      some (if named.1.isSome ∧ s.errload = sav then { s with refs := s.refs ++ [i] }.StoreOpis i cd
        else s.StoreOpis i { cd with ref_ip := 0 })

def referenceConstant (s : load_t) : Option load_t :=
  match s.pool i with
  | none => some s
  | some cd =>
    match cd.type with
    | .InterfaceMethodref => referenceMember i cd s
    | .Fieldref => referenceMember i cd s
    | .Methodref => referenceMember i cd s
    | .MethodHandle => need (LoadOpis .any cd._class s) fun _ s => some (s.StoreOpis i cd)
    | .MethodType => need (LoadOpis (.type .Utf8) cd._name s) fun _ s => some (s.StoreOpis i cd)
    | .InvokeDynamic => need (LoadOpis (.type .NameAndType) cd._name s) fun _ s => some (s.StoreOpis i cd)
    | _ => some s

/-- `FOR_EACH_CONSTANT_POOL_INDEX`: so many indices from `i` on. -/
def forEachIndex {σ : Type} (body : Nat → σ → Option σ) : Nat → Nat → σ → Option σ
  | 0, _, s => some s
  | n + 1, i, s => (body i s).bind (forEachIndex body n (i + 1))

def load_constants_pool : Option load_t :=
  (forEachIndex (checkConstant parse cp) cp.length 1
    { pool := fun i => (cp.constant i).map (readConstant parse i) }).bind
    (forEachIndex referenceConstant cp.length 1)

/-- The constants, and which of them the slots have been assigned to. -/
structure sort_t where
  pool : Nat → Option const_desc_t
  ui : Nat := 0
  slots : List (Nat × Nat) := []

def xtrnSet (cin : Nat) (co : const_desc_t) (s : sort_t) : sort_t where
  pool := update s.pool cin (some { co with ref_ip := s.ui + 1 })
  ui := s.ui + 1
  slots := s.slots ++ [(s.ui + 1, cin)]

/-- References that are the same as `pco` get its slot; a deleted one is 0. -/
def deltry (ic ui : Nat) (pco : const_desc_t) : List Nat → (Nat → Option const_desc_t) →
    List Nat × (Nat → Option const_desc_t)
  | [], pool => ([], pool)
  | j :: refs, pool =>
    match if j = 0 then none else pool j with
    | none => let rest := deltry ic ui pco refs pool; (j :: rest.1, rest.2)
    | some co =>
      if co.type ≠ pco.type ∨ co.flag ≠ pco.flag ∨ co._REF ≠ pco._REF ∨ co.ref_ip ≠ ic ∨
          CmpString parse cp co._subnam pco._subnam ≠ 0 ∨ CmpString parse cp co._dscr pco._dscr ≠ 0 then
        let rest := deltry ic ui pco refs pool; (j :: rest.1, rest.2)
      else let rest := deltry ic ui pco refs (update pool j (some { co with ref_ip := ui })); (0 :: rest.1, rest.2)

/-- The other references of a class, behind the first one, which is `co`. -/
def sortClass (ic : Nat) (co : const_desc_t) : Nat → List Nat → sort_t → List Nat × sort_t
  | 0, refs, s => (refs, s)
  | _ + 1, [], s => ([], s)
  | n + 1, j :: refs, s =>
    match if j = 0 then none else s.pool j with
    | none => let rest := sortClass ic co n refs s; (j :: rest.1, rest.2)
    | some cr =>
      if cr.ref_ip ≠ ic then let rest := sortClass ic co n refs s; (j :: rest.1, rest.2)
      else
        let s := xtrnSet j cr s
        let del := deltry parse cp ic s.ui co refs s.pool
        let rest := sortClass ic co n del.1 { s with pool := del.2 }
        (0 :: rest.1, rest.2)

/-- The classes of the references, in their order. -/
def sortRefs (this : Nat) : Nat → List Nat → sort_t → sort_t
  | 0, _, s => s
  | _ + 1, [], s => s
  | n + 1, j :: refs, s =>
    match if j = 0 then none else s.pool j with
    | none => sortRefs this n refs s
    | some co =>
      if co._class = this then sortRefs this n refs { s with pool := update s.pool j (some { co with ref_ip := 0 }) }
      else
        let ic := co.ref_ip
        match s.pool ic with
        | none => s
        | some cr =>
          let s := xtrnSet j co (xtrnSet ic cr s)
          let del := deltry parse cp ic s.ui co refs s.pool
          let rest := sortClass parse cp ic co refs.length del.1 { s with pool := del.2 }
          sortRefs this n rest.1 rest.2

/-- The first class of a name gets a slot, if it has none. -/
def sortRest (this i : Nat) (s : sort_t) : Option sort_t :=
  match s.pool i with
  | none => some s
  | some co =>
    if co.type = .Class ∧ co._subnam = i ∧ i ≠ this ∧ co.ref_ip = 0 then some (xtrnSet i co s) else some s

/-- The other classes of a name have the slot of the first one. -/
def copySlot (s : sort_t) : Option sort_t :=
  match s.pool i with
  | none => some s
  | some co =>
    if co.type = .Class ∧ co._subnam ≠ 0 ∧ co._subnam ≠ i then
      (s.pool co._subnam).bind fun tmp =>
        some { s with pool := update s.pool i (some { co with ref_ip := tmp.ref_ip }) }
    else some s

def setPoolReference (this : Nat) (s : load_t) : Option sort_t :=
  ((forEachIndex (sortRest this) cp.length 1 (sortRefs parse cp this s.refs.length s.refs { pool := s.pool }))).bind
    (forEachIndex copySlot cp.length 1)

/-- `This.Dscr`: the class itself, if it is one. -/
def loadThis (this_class : Nat) (s : load_t) : Nat × load_t :=
  ((if (LoadOpis .named this_class s).1.isSome then this_class else 0), (LoadOpis .named this_class s).2)

/-- A pool without classes and references has no segment for them. -/
def sortPool (this_class : Nat) : Option (load_t × Nat × sort_t) :=
  (load_constants_pool parse cp).bind fun s =>
    let this := loadThis this_class s
    if s.classes.length + s.refs.length = 0 then some (s, this.1, { pool := this.2.pool })
    else (setPoolReference parse cp this.1 this.2).map fun sorted => (s, this.1, sorted)

end

end IdaSdk.JavaXtrn
