import IdaSdk.LibRecogniser
import IdaSdk.JavaSigModel

/-!
The signature grammar that the comments of the formatter quote, as phrases: relations between the
text before a production and the text after it. A whole string belongs to a production when nothing
is left behind it. The grammar is written once for several dialects. `Dialect.jvm` is the quoted
one; the others differ from it in what the formatter lets pass and in what it misses.
-/

namespace IdaSdk.JavaSig
open Recogniser Relation

/-- Where a dialect departs from the quoted grammar. -/
structure Dialect where
  /-- A name may be empty. -/
  emptyNames : Bool
  /-- The class type of a descriptor is a `ClassTypeSignature`. -/
  signaturesInDescriptors : Bool
  /-- Type arguments of the first simple class name may be followed by suffixes. -/
  argumentsBeforeSuffix : Bool
  /-- An empty class bound need not be followed by an interface bound. -/
  bareEmptyBound : Bool
  deriving DecidableEq, Repr

def Dialect.jvm : Dialect := ⟨false, false, true, true⟩

/-- The grammar of the comments, with empty names and with signatures in descriptors. -/
def Dialect.lenient : Dialect := ⟨true, true, true, true⟩

/-- `lenient` without the two forms that `parse_class_desc` and `parse_ClassBound` miss. -/
def Dialect.core : Dialect := ⟨true, true, false, false⟩

/-- Two dialects with the same names and descriptors, the second with all forms of the first. -/
structure Dialect.Within (d d' : Dialect) : Prop where
  emptyNames : d.emptyNames = d'.emptyNames
  signaturesInDescriptors : d.signaturesInDescriptors = d'.signaturesInDescriptors
  argumentsBeforeSuffix : d.argumentsBeforeSuffix = true → d'.argumentsBeforeSuffix = true
  bareEmptyBound : d.bareEmptyBound = true → d'.bareEmptyBound = true

theorem Dialect.core_within_lenient : Dialect.core.Within .lenient :=
  ⟨rfl, rfl, nofun, nofun⟩

def baseTypes : List UInt16 :=
  [j_byte, j_char, j_double, j_float, j_int, j_long, j_short, j_bool]

def BaseType : Phrase UInt16 := fun s t => ∃ c ∈ baseTypes, s = c :: t

/-- `. ; [ /`, which no unqualified name contains. -/
def unqualifiedStops : List UInt16 := [j_field_dlm, j_endclass, j_array, j_clspath_dlm]

/-- `. ; [ / < > :`, which no identifier contains. -/
def identifierStops : List UInt16 := unqualifiedStops ++ [j_sign, j_endsign, j_tag]

variable (d : Dialect)

/-- The longest run of symbols outside `stops`. In every production one of `stops` follows a name. -/
def Name (stops : List UInt16) : Phrase UInt16 := fun s t =>
  t = s.dropWhile (fun c => c ∉ stops) ∧ (d.emptyNames = false → t ≠ s)

def Identifier : Phrase UInt16 := Name d identifierStops

def TypeVariableSignature : Phrase UInt16 :=
  Comp (Terminal j_typeref) (Comp (Identifier d) (Terminal j_endclass))

mutual

inductive FieldTypeSignature (d : Dialect) : List UInt16 → List UInt16 → Prop
  | classType {s t} (h : ClassTypeSignature d s t) : FieldTypeSignature d s t
  | arrayType {s t} (h : ArrayTypeSignature d s t) : FieldTypeSignature d s t
  | typeVariable {s t} (h : TypeVariableSignature d s t) : FieldTypeSignature d s t

/-- `L PackageSpecifier_opt SimpleClassTypeSignature ClassTypeSignatureSuffix* ;` -/
inductive ClassTypeSignature (d : Dialect) : List UInt16 → List UInt16 → Prop
  | mk {s a b t} (hclass : Terminal j_class s a) (hname : ClassTypeName d a b)
      (hend : Terminal j_endclass b t) : ClassTypeSignature d s t

/-- What stands between `L` and `;`. -/
inductive ClassTypeName (d : Dialect) : List UInt16 → List UInt16 → Prop
  | package {s a b t} (hname : Identifier d s a) (hdlm : Terminal j_clspath_dlm a b)
      (h : ClassTypeName d b t) : ClassTypeName d s t
  | simple {s a t} (hname : Identifier d s a) (h : ClassTypeSignatureSuffixes d a t) :
      ClassTypeName d s t
  | generic {s a b t} (hname : Identifier d s a) (hargs : TypeArguments d a b)
      (h : ClassTypeSignatureSuffixes d b t) (hend : d.argumentsBeforeSuffix = false → t = b) :
      ClassTypeName d s t

/-- `ClassTypeSignatureSuffix*` -/
inductive ClassTypeSignatureSuffixes (d : Dialect) : List UInt16 → List UInt16 → Prop
  | nil {s} : ClassTypeSignatureSuffixes d s s
  | cons {s a t} (h : ClassTypeSignatureSuffix d s a) (hs : ClassTypeSignatureSuffixes d a t) :
      ClassTypeSignatureSuffixes d s t

/-- `. SimpleClassTypeSignature` -/
inductive ClassTypeSignatureSuffix (d : Dialect) : List UInt16 → List UInt16 → Prop
  | mk {s a t} (hdlm : Terminal j_field_dlm s a) (h : SimpleClassTypeSignature d a t) :
      ClassTypeSignatureSuffix d s t

/-- `Identifier TypeArguments_opt` -/
inductive SimpleClassTypeSignature (d : Dialect) : List UInt16 → List UInt16 → Prop
  | plain {s t} (hname : Identifier d s t) : SimpleClassTypeSignature d s t
  | generic {s a t} (hname : Identifier d s a) (hargs : TypeArguments d a t) :
      SimpleClassTypeSignature d s t

/-- `[ TypeSignature` -/
inductive ArrayTypeSignature (d : Dialect) : List UInt16 → List UInt16 → Prop
  | mk {s a t} (harray : Terminal j_array s a) (h : TypeSignature d a t) : ArrayTypeSignature d s t

inductive TypeSignature (d : Dialect) : List UInt16 → List UInt16 → Prop
  | fieldType {s t} (h : FieldTypeSignature d s t) : TypeSignature d s t
  | baseType {s t} (h : BaseType s t) : TypeSignature d s t

/-- `< TypeArgument+ >` -/
inductive TypeArguments (d : Dialect) : List UInt16 → List UInt16 → Prop
  | mk {s a b t} (hsign : Terminal j_sign s a) (h : TypeArgumentList d a b)
      (hend : Terminal j_endsign b t) : TypeArguments d s t

/-- `TypeArgument+` -/
inductive TypeArgumentList (d : Dialect) : List UInt16 → List UInt16 → Prop
  | one {s t} (h : TypeArgument d s t) : TypeArgumentList d s t
  | cons {s a t} (h : TypeArgument d s a) (hs : TypeArgumentList d a t) : TypeArgumentList d s t

/-- `WildcardIndicator_opt FieldTypeSignature` or `*` -/
inductive TypeArgument (d : Dialect) : List UInt16 → List UInt16 → Prop
  | wild {s t} (h : Terminal j_wild s t) : TypeArgument d s t
  | bounded {s a t} (hwild : Terminal j_wild_e s a ∨ Terminal j_wild_s s a)
      (h : FieldTypeSignature d a t) : TypeArgument d s t
  | plain {s t} (h : FieldTypeSignature d s t) : TypeArgument d s t

end

/-- `: FieldTypeSignature_opt` -/
inductive ClassBound (d : Dialect) : List UInt16 → List UInt16 → Prop
  | typed {s a t} (htag : Terminal j_tag s a) (h : FieldTypeSignature d a t) : ClassBound d s t
  | empty {s t} (htag : Terminal j_tag s t)
      (hnext : d.bareEmptyBound = false → t.head? = some j_tag) : ClassBound d s t

def InterfaceBound : Phrase UInt16 :=
  Comp (Terminal j_tag) (FieldTypeSignature d)

/-- `InterfaceBound*`. Where names may be empty every `:` that follows opens another bound. -/
def InterfaceBounds : Phrase UInt16 := fun s t =>
  ReflTransGen (InterfaceBound d) s t ∧ (d.emptyNames = true → t.head? ≠ some j_tag)

def FormalTypeParameter : Phrase UInt16 :=
  Comp (Identifier d) (Comp (ClassBound d) (InterfaceBounds d))

def FormalTypeParameters : Phrase UInt16 :=
  Comp (Terminal j_sign) (Comp (TransGen (FormalTypeParameter d)) (Terminal j_endsign))

/-- `SuperclassSignature SuperinterfaceSignature*` -/
def Supertypes : Phrase UInt16 :=
  Comp (ClassTypeSignature d) (ReflTransGen (ClassTypeSignature d))

/-- `FormalTypeParameters_opt SuperclassSignature SuperinterfaceSignature*` -/
def ClassSignature : Phrase UInt16 := fun s t =>
  Supertypes d s t ∨ Comp (FormalTypeParameters d) (Supertypes d) s t

def VoidDescriptor : Phrase UInt16 := Terminal j_void_ret

def ReturnType : Phrase UInt16 := fun s t => TypeSignature d s t ∨ VoidDescriptor s t

/-- `^ ClassTypeSignature` or `^ TypeVariableSignature` -/
def ThrowsSignature : Phrase UInt16 :=
  Comp (Terminal j_throw) (fun s t => ClassTypeSignature d s t ∨ TypeVariableSignature d s t)

def UnqualifiedName : Phrase UInt16 := Name d unqualifiedStops

def ClassName : Phrase UInt16 :=
  Comp (ReflTransGen (Comp (UnqualifiedName d) (Terminal j_clspath_dlm))) (UnqualifiedName d)

def ObjectType : Phrase UInt16 := fun s t =>
  if d.signaturesInDescriptors then ClassTypeSignature d s t
  else Comp (Terminal j_class) (Comp (ClassName d) (Terminal j_endclass)) s t

inductive FieldType (d : Dialect) : List UInt16 → List UInt16 → Prop
  | base {s t} (h : BaseType s t) : FieldType d s t
  | object {s t} (h : ObjectType d s t) : FieldType d s t
  | array {s a t} (harray : Terminal j_array s a) (h : FieldType d a t) : FieldType d s t

def ReturnDescriptor : Phrase UInt16 := fun s t =>
  FieldType d s t ∨ VoidDescriptor s t

/-- `( ParameterDescriptor* ) ReturnDescriptor` -/
def MethodDescriptor : Phrase UInt16 :=
  Comp (Terminal j_parm_list_start)
    (Comp (ReflTransGen (FieldType d)) (Comp (Terminal j_parm_list_end) (ReturnDescriptor d)))

inductive Production where
  | classSignature
  | fieldDescriptor
  | methodDescriptor
  | formalTypeParameters
  | returnType
  | throwsList
  deriving DecidableEq, Repr

def Production.phrase : Production → Phrase UInt16
  | classSignature => ClassSignature d
  | fieldDescriptor => FieldType d
  | methodDescriptor => MethodDescriptor d
  | formalTypeParameters => FormalTypeParameters d
  | returnType => ReturnType d
  | throwsList => ReflTransGen (ThrowsSignature d)

/-- The whole string belongs to the production. -/
def Production.InGrammar (p : Production) (w : List UInt16) : Prop :=
  p.phrase d w []

def Production.MayFollow (w t : List UInt16) : Production → Prop
  | classSignature => w.head? = some j_sign → t.head? ≠ some j_class
  | throwsList => t = []
  | _ => True

/-- A phrase of the production stands at the front of the string. -/
def Production.Readable (p : Production) (w : List UInt16) : Prop :=
  ∃ t, p.phrase d w t ∧ p.MayFollow w t

/-! ### Dialects with more forms read more -/

section Mono

variable {d d' : Dialect}

variable {s t : List UInt16}

theorem Name.mono (hd : d.Within d') {stops : List UInt16} (h : Name d stops s t) :
    Name d' stops s t :=
  ⟨h.1, fun hempty => h.2 (hd.emptyNames.trans hempty)⟩

theorem Identifier.mono (hd : d.Within d') (h : Identifier d s t) :
    Identifier d' s t :=
  Name.mono hd h

theorem TypeVariableSignature.mono (hd : d.Within d') :
    TypeVariableSignature d s t → TypeVariableSignature d' s t
  | ⟨a, htyperef, b, hname, hend⟩ => ⟨a, htyperef, b, hname.mono hd, hend⟩

mutual

theorem FieldTypeSignature.mono (hd : d.Within d') : ∀ {s t : List UInt16},
    FieldTypeSignature d s t → FieldTypeSignature d' s t
  | _, _, .classType h => .classType (ClassTypeSignature.mono hd h)
  | _, _, .arrayType h => .arrayType (ArrayTypeSignature.mono hd h)
  | _, _, .typeVariable h => .typeVariable (h.mono hd)

theorem ClassTypeSignature.mono (hd : d.Within d') : ∀ {s t : List UInt16},
    ClassTypeSignature d s t → ClassTypeSignature d' s t
  | _, _, .mk hclass hname hend => .mk hclass (ClassTypeName.mono hd hname) hend

theorem ClassTypeName.mono (hd : d.Within d') : ∀ {s t : List UInt16},
    ClassTypeName d s t → ClassTypeName d' s t
  | _, _, .package hname hdlm h => .package (hname.mono hd) hdlm (ClassTypeName.mono hd h)
  | _, _, .simple hname h => .simple (hname.mono hd) (ClassTypeSignatureSuffixes.mono hd h)
  | _, _, .generic hname hargs h hend =>
      .generic (hname.mono hd) (TypeArguments.mono hd hargs) (ClassTypeSignatureSuffixes.mono hd h)
        (fun hno => hend (Bool.eq_false_iff.mpr
          (mt hd.argumentsBeforeSuffix (Bool.eq_false_iff.mp hno))))

theorem ClassTypeSignatureSuffixes.mono (hd : d.Within d') : ∀ {s t : List UInt16},
    ClassTypeSignatureSuffixes d s t → ClassTypeSignatureSuffixes d' s t
  | _, _, .nil => .nil
  | _, _, .cons h hs =>
      .cons (ClassTypeSignatureSuffix.mono hd h) (ClassTypeSignatureSuffixes.mono hd hs)

theorem ClassTypeSignatureSuffix.mono (hd : d.Within d') : ∀ {s t : List UInt16},
    ClassTypeSignatureSuffix d s t → ClassTypeSignatureSuffix d' s t
  | _, _, .mk hdlm h => .mk hdlm (SimpleClassTypeSignature.mono hd h)

theorem SimpleClassTypeSignature.mono (hd : d.Within d') : ∀ {s t : List UInt16},
    SimpleClassTypeSignature d s t → SimpleClassTypeSignature d' s t
  | _, _, .plain hname => .plain (hname.mono hd)
  | _, _, .generic hname hargs => .generic (hname.mono hd) (TypeArguments.mono hd hargs)

theorem ArrayTypeSignature.mono (hd : d.Within d') : ∀ {s t : List UInt16},
    ArrayTypeSignature d s t → ArrayTypeSignature d' s t
  | _, _, .mk harray h => .mk harray (TypeSignature.mono hd h)

theorem TypeSignature.mono (hd : d.Within d') : ∀ {s t : List UInt16},
    TypeSignature d s t → TypeSignature d' s t
  | _, _, .fieldType h => .fieldType (FieldTypeSignature.mono hd h)
  | _, _, .baseType h => .baseType h

theorem TypeArguments.mono (hd : d.Within d') : ∀ {s t : List UInt16},
    TypeArguments d s t → TypeArguments d' s t
  | _, _, .mk hsign h hend => .mk hsign (TypeArgumentList.mono hd h) hend

theorem TypeArgumentList.mono (hd : d.Within d') : ∀ {s t : List UInt16},
    TypeArgumentList d s t → TypeArgumentList d' s t
  | _, _, .one h => .one (TypeArgument.mono hd h)
  | _, _, .cons h hs => .cons (TypeArgument.mono hd h) (TypeArgumentList.mono hd hs)

theorem TypeArgument.mono (hd : d.Within d') : ∀ {s t : List UInt16},
    TypeArgument d s t → TypeArgument d' s t
  | _, _, .wild h => .wild h
  | _, _, .bounded hwild h => .bounded hwild (FieldTypeSignature.mono hd h)
  | _, _, .plain h => .plain (FieldTypeSignature.mono hd h)

end

variable {s t : List UInt16}

theorem ClassBound.mono (hd : d.Within d') (h : ClassBound d s t) : ClassBound d' s t := by
  cases h with
  | typed htag h => exact .typed htag (h.mono hd)
  | empty htag hnext =>
      refine .empty htag fun hno => hnext (Bool.eq_false_iff.mpr ?_)
      exact mt hd.bareEmptyBound (Bool.eq_false_iff.mp hno)

theorem InterfaceBounds.mono (hd : d.Within d') (h : InterfaceBounds d s t) :
    InterfaceBounds d' s t := by
  refine ⟨ReflTransGen.mono ?_ _ _ h.1, fun hempty => h.2 (hd.emptyNames.trans hempty)⟩
  rintro a b ⟨c, htag, h⟩
  exact ⟨c, htag, h.mono hd⟩

theorem FormalTypeParameters.mono (hd : d.Within d') :
    FormalTypeParameters d s t → FormalTypeParameters d' s t := by
  rintro ⟨a, hsign, b, h, hend⟩
  refine ⟨a, hsign, b, TransGen.mono ?_ _ _ h, hend⟩
  rintro _ _ ⟨_, hname, _, hbound, hbounds⟩
  exact ⟨_, hname.mono hd, _, hbound.mono hd, hbounds.mono hd⟩

theorem Supertypes.mono (hd : d.Within d') : Supertypes d s t → Supertypes d' s t := by
  rintro ⟨a, h, hs⟩
  exact ⟨a, h.mono hd, ReflTransGen.mono (fun _ _ h => ClassTypeSignature.mono hd h) _ _ hs⟩

theorem ObjectType.mono (hd : d.Within d') (h : ObjectType d s t) : ObjectType d' s t := by
  unfold ObjectType at h ⊢
  rw [← hd.signaturesInDescriptors]
  split at h
  · next hsig =>
      rw [if_pos hsig]
      exact h.mono hd
  rename_i hsig
  rw [if_neg hsig]
  obtain ⟨a, hclass, b, ⟨c, hpath, hname⟩, hend⟩ := h
  refine ⟨a, hclass, b, ⟨c, ReflTransGen.mono ?_ _ _ hpath, Name.mono hd hname⟩, hend⟩
  rintro _ _ ⟨e, he, hdlm⟩
  exact ⟨e, Name.mono hd he, hdlm⟩

theorem FieldType.mono (hd : d.Within d') (h : FieldType d s t) : FieldType d' s t := by
  induction h with
  | base h => exact .base h
  | object h => exact .object (h.mono hd)
  | array harray _ ih => exact .array harray ih

theorem MethodDescriptor.mono (hd : d.Within d') :
    MethodDescriptor d s t → MethodDescriptor d' s t := by
  rintro ⟨a, hstart, b, hparams, c, hend, hret⟩
  exact ⟨a, hstart, b, ReflTransGen.mono (fun _ _ h => FieldType.mono hd h) _ _ hparams, c, hend,
    hret.imp (FieldType.mono hd) id⟩

theorem ThrowsSignature.mono (hd : d.Within d') : ThrowsSignature d s t → ThrowsSignature d' s t := by
  rintro ⟨a, hthrow, h⟩
  exact ⟨a, hthrow, h.imp (ClassTypeSignature.mono hd) (TypeVariableSignature.mono hd)⟩

theorem Production.phrase_mono (hd : d.Within d') (p : Production) (h : p.phrase d s t) :
    p.phrase d' s t := by
  cases p with
  | classSignature =>
      refine h.imp (Supertypes.mono hd) ?_
      rintro ⟨a, hparams, hsuper⟩
      exact ⟨a, hparams.mono hd, hsuper.mono hd⟩
  | fieldDescriptor => exact FieldType.mono hd h
  | methodDescriptor => exact MethodDescriptor.mono hd h
  | formalTypeParameters => exact FormalTypeParameters.mono hd h
  | returnType => exact h.imp (TypeSignature.mono hd) id
  | throwsList => exact ReflTransGen.mono (fun _ _ h => ThrowsSignature.mono hd h) _ _ h

theorem Production.Readable.mono (hd : d.Within d') {p : Production} {w : List UInt16} :
    p.Readable d w → p.Readable d' w := by
  rintro ⟨t, h, hfollow⟩
  exact ⟨t, p.phrase_mono hd h, hfollow⟩

end Mono

/-- The function of the formatter that reads the production. -/
def Production.parse (env : Env) : Production → Nat → State → Result
  | classSignature => fun n s => format env .fmt_ClassSignature ⟨0, 0, 0⟩ n s
  | fieldDescriptor => fun n s => format env .fmt_FieldDescriptor ⟨0, 0, 0⟩ n s
  | methodDescriptor => parse_MethodDescriptor env
  | formalTypeParameters => parse_FormalTypeParameters env
  | returnType => parse_ReturnType env
  | throwsList => fun n s => parse_ThrowsSignature env n 0 s

end IdaSdk.JavaSig
