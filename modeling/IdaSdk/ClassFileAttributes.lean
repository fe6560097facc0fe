import IdaSdk.ClassFileModel

/-!
The attributes of a class file. What is read of each one, and which part of its length is skipped
afterwards.
-/

namespace IdaSdk.ClassFile

open Program

/-- Where `load_attributes` goes on after it has looked at an attribute, with what is left of
`attribute_length` then. -/
inductive Next where
  | done
  | skipAttr (attribute_length : Nat)
  | declerr (attribute_length : Nat)
  | declerr_w (attribute_length : Nat)
  | duplerr (attribute_length : Nat)
  | duplerr_w (attribute_length : Nat)
  | incompatible (msg : String) (attribute_length : Nat)
  | attr2file (attribute_length : Nat)

section Attributes

variable (file : File) (env : Env)

/-- Whether all `cnt` arguments are fine, and what is left of the size. -/
def sm_chkargs : Nat → Nat → Load (Bool × Nat)
  | 0, dopsize => pure (true, dopsize)
  | cnt + 1, dopsize => do
      if dopsize = 0 then pure (false, dopsize)
      else
        let tag ← read1 file
        if tag > 8 then pure (false, dopsize - 1)
        else if tag ≥ 7 then
          if dopsize - 1 < 2 then pure (false, dopsize - 1)
          else
            let var ← read2 file
            let s ← get
            if tag = 8 ∧ var ≠ 0 ∧ var ≥ s.curSeg.CodeSize then pure (false, dopsize - 3)
            else sm_chkargs cnt (dopsize - 3)
        else sm_chkargs cnt (dopsize - 1)

/-- The number of locals or of stack items, and these. -/
def sm_list (dopsize : Nat) : Load (Bool × Nat × Nat) := do
  if dopsize < 2 then pure (false, 0, dopsize)
  else
    let cnt ← read2 file
    let (ok, dopsize) ← sm_chkargs file cnt (dopsize - 2)
    pure (ok, cnt, dopsize)

/-- The part of a frame that depends on its type: whether it is fine, the number of locals, and what
is left of the size. -/
def sm_frame (rectype fcnt dopsize : Nat) : Load (Bool × Nat × Nat) := do
  if rectype = 255 then
    let (ok, nxcnt, dopsize) ← sm_list file dopsize
    if ok then
      let (ok, _, dopsize) ← sm_list file dopsize
      pure (ok, nxcnt, dopsize)
    else pure (false, nxcnt, dopsize)
  else if rectype > 251 then
    let (ok, dopsize) ← sm_chkargs file (rectype - 251) dopsize
    pure (ok, fcnt + (rectype - 251), dopsize)
  else if rectype ≥ 247 then
    if fcnt < 251 - rectype then pure (false, fcnt, dopsize)
    else if 251 - rectype = 4 then
      let (ok, dopsize) ← sm_chkargs file 1 dopsize
      pure (ok, fcnt - 4, dopsize)
    else pure (true, fcnt - (251 - rectype), dopsize)
  else if rectype ≥ 64 then
    let (ok, dopsize) ← sm_chkargs file 1 dopsize
    pure (ok, fcnt, dopsize)
  else pure (true, fcnt, dopsize)

/-- The type of a frame. -/
def sm_rectype (dopsize : Nat) : Load (Bool × Nat × Nat) := do
  let s ← get
  if s.curClass.SMF_mode then
    if dopsize = 0 then pure (false, 0, dopsize)
    else
      let rectype ← read1 file
      pure (true, rectype, dopsize - 1)
  else pure (true, 255, dopsize)

/-- The offset that a frame has, counted from the previous one since JDK6. -/
def sm_offset (rectype prevoff dopsize : Nat) : Load (Bool × Nat × Nat) := do
  let s ← get
  let base := if s.curClass.SMF_mode then prevoff + 1 else 0
  if rectype < 247 then
    if rectype > 127 then pure (false, 0, dopsize)
    else if rectype ≥ 64 then pure (true, (rectype - 64 + base) % 0x100000000, dopsize)
    else pure (true, (rectype + base) % 0x100000000, dopsize)
  else if dopsize < 2 then pure (false, 0, dopsize)
  else
    let off ← read2 file
    pure (true, (off + base) % 0x100000000, dopsize - 2)

/-- The frames: 1 if all are fine, 0 if one is not, -1 if two have the same offset; and what is left
of the size. -/
def sm_frames : Nat → Nat → Nat → List Nat → Nat → Load (Int × Nat)
  | 0, _, _, _, dopsize => pure (1, dopsize)
  | declcnt + 1, prevoff, fcnt, seen, dopsize => do
      let (ok, rectype, dopsize) ← sm_rectype file dopsize
      if !ok then pure (0, dopsize)
      else
        let (ok, off, dopsize) ← sm_offset file rectype prevoff dopsize
        let s ← get
        if !ok || off ≥ s.curSeg.CodeSize then pure (0, dopsize)
        else if off ∈ seen then pure (-1, dopsize)
        else
          let (ok, nxcnt, dopsize) ← sm_frame file rectype fcnt dopsize
          if !ok then pure (0, dopsize) else sm_frames declcnt off nxcnt (off :: seen) dopsize

def sm_load (declcnt dopsize : Nat) : Load (Int × Nat) := sm_frames file declcnt 0xffffffff 0 [] (dopsize - 2)

/-! ### Annotations -/

/-- So many pairs of a name and a value, which `annot_elm` reads: whether they are fine, and what is
left of the size. -/
def annotation_pairs (annot_elm : Nat → Load (Bool × Nat × Nat)) : Nat → Nat → Load (Bool × Nat)
  | 0, psize => pure (true, psize)
  | pairs + 1, psize => do
      if psize < 2 then pure (false, psize)
      else
        let id ← read2 file
        if !env.LoadFieldName id then pure (false, psize - 2)
        else
          let (ok, psize, _) ← annot_elm (psize - 2)
          if !ok then pure (false, psize) else annotation_pairs annot_elm pairs psize

def annotation_with (annot_elm : Nat → Load (Bool × Nat × Nat)) (psize : Nat) : Load (Bool × Nat) := do
  if psize < 2 then pure (false, psize)
  else
    let pairs ← read2 file
    annotation_pairs file env annot_elm pairs (psize - 2)

/-- The elements of an array. The second one must have the tag of the first one. -/
def annot_array (annot_elm : Nat → Load (Bool × Nat × Nat)) : Nat → Option Nat → Nat → Load (Bool × Nat)
  | 0, _, psize => pure (true, psize)
  | val + 1, first, psize => do
      let (ok, psize, tag) ← annot_elm psize
      if !ok then pure (false, psize)
      else
        match first with
        | none => annot_array annot_elm val (some tag) psize
        | some tag' =>
            if tag' ≠ 0xff ∧ tag ≠ tag' then pure (false, psize)
            else annot_array annot_elm val (some 0xff) psize

/-- The constant that a tag stands for; `none` for the tags that are no constants. -/
def annot_const (tag : Nat) : Option Nat :=
  if tag = 's'.toNat then some CONSTANT_Utf8
  else if tag = 'F'.toNat then some CONSTANT_Float
  else if tag = 'J'.toNat then some CONSTANT_Long
  else if tag = 'D'.toNat then some CONSTANT_Double
  else if tag ∈ ['I', 'B', 'C', 'S', 'Z'].map Char.toNat then some CONSTANT_Integer
  else none

/-- The value of an element: whether it is fine, what is left of the size, and its tag. -/
def annot_elm : Nat → Nat → Bool → Load (Bool × Nat × Nat)
  | 0, _, _ => fail .endless
  | fuel + 1, psize, is_array => do
      if psize < 3 then pure (false, psize, 0)
      else
        let tag ← read1 file
        let val ← read2 file
        if tag = '@'.toNat then
          if env.isSingleClass val then
            let (ok, psize) ← annotation_with file env (fun psize => annot_elm fuel psize false) (psize - 3)
            pure (ok, psize, tag)
          else pure (false, psize - 3, tag)
        else if tag = '['.toNat then
          if val ≠ 0 ∧ is_array = false then
            let (ok, psize) ← annot_array (fun psize => annot_elm fuel psize true) val none (psize - 3)
            pure (ok, psize, tag)
          else pure (false, psize - 3, tag)
        else if tag = 'e'.toNat then
          if !env.LoadFieldDscr val || psize - 3 < 2 then pure (false, psize - 3, tag)
          else
            let val ← read2 file
            pure (env.LoadFieldName val, psize - 5, tag)
        else if tag = 'c'.toNat then pure (env.isSingleClass val, psize - 3, tag)
        else
          match annot_const tag with
          | none => pure (false, psize - 3, tag)
          | some op => pure (env.LoadOpis val op, psize - 3, tag)

def annotation (psize : Nat) : Load (Bool × Nat) :=
  annotation_with file env (fun size => annot_elm file env psize size false) psize

/-- The annotations of one parameter or of the whole. -/
def annotations : Nat → Nat → Load (Bool × Nat)
  | 0, attribute_length => pure (true, attribute_length)
  | cnt + 1, attribute_length => do
      if attribute_length < 2 then pure (false, attribute_length)
      else
        let id ← read2 file
        if !env.isSingleClass id then pure (false, attribute_length - 2)
        else
          let (ok, attribute_length) ← annotation file env (attribute_length - 2)
          if !ok then pure (false, attribute_length) else annotations cnt attribute_length

/-- The loop over the parameters: whether all is fine, whether there were any annotations, and what is
left of the length. -/
def annot_params (params : Bool) : Nat → Bool → Nat → Load (Bool × Bool × Nat)
  | 0, any, attribute_length => pure (true, any, attribute_length)
  | r + 1, any, attribute_length => do
      if attribute_length < 2 then pure (false, any, attribute_length)
      else
        let cnt ← read2 file
        if cnt = 0 then
          if !params then pure (false, any, attribute_length - 2)
          else annot_params params r any (attribute_length - 2)
        else
          let (ok, attribute_length) ← annotations file env cnt (attribute_length - 2)
          if !ok then pure (false, true, attribute_length) else annot_params params r true attribute_length

/-! ### The kinds of attributes -/

variable (attribute_length : Nat)

def SourceDebugExtension : Load Next := do
  let s ← get
  if s.sde then pure (.duplerr_w attribute_length)
  else
    modify fun s => { s with sde := true }
    if attribute_length = 0 then pure .done
    else
      let ok ← (if attribute_length < 0x10000 then do
        let ok ← LoadUtf8_sde file attribute_length
        if ok then pure true
        else
          modify fun s' => { s' with pos := s.pos, FileSize := s.FileSize }
          pure false
      else pure false)
      if ok then pure .done
      else if env.ask_sde then pure (.attr2file attribute_length)
      else pure (.skipAttr attribute_length)

def bootstrap_arguments (last : Nat) : Nat → Load Bool
  | 0 => pure true
  | n + 1 => do
      let s ← get
      if s.pos ≥ last then pure false
      else
        let _ ← read2 file
        bootstrap_arguments last n

def bootstrap_methods (last : Nat) : Nat → Load Bool
  | 0 => pure true
  | n + 1 => do
      let s ← get
      if s.pos ≥ last then pure false
      else
        let _ ← read2 file
        let s ← get
        if s.pos ≥ last then pure false
        else
          let num_bootstrap_arguments ← read2 file
          let ok ← bootstrap_arguments file last num_bootstrap_arguments
          if ok then bootstrap_methods last n else pure false

def BootstrapMethods (attribute_length : Nat) : Load Next := do
  let s ← get
  if s.bootstrap then loader_failure "Duplicate 'BootstrapMethods' attribute definition"
  else
    modify fun s => { s with bootstrap := true }
    if attribute_length < 2 then pure (.declerr_w attribute_length)
    else
      let num_bootstrap_methods ← read2 file
      let s ← get
      let ok ← bootstrap_methods file (s.pos + (attribute_length - 2)) num_bootstrap_methods
      if ok then pure .done else pure (.declerr_w (attribute_length - 2))

def UNKNOWN : Load Next := do
  let s ← get
  if s.extattr then pure (.attr2file attribute_length)
  else if s.requnk then
    modify fun s => { s with requnk := false }
    if env.ask_unknown then
      modify fun s => { s with extattr := true }
      pure (.attr2file attribute_length)
    else pure (.skipAttr attribute_length)
  else pure (.skipAttr attribute_length)

def ConstantValue : Load Next := do
  if attribute_length ≠ 2 then pure (.declerr attribute_length)
  else
    let constantvalue_index ← read2 file
    if env.LoadOpis constantvalue_index 0 then pure .done else pure (.declerr attribute_length)

def int32 (n : Nat) : Int := if n < 0x80000000 then n else n - 0x100000000

variable (nested : Load Unit)

/-- The end of `Code`: the attributes that are nested in it. -/
def nested_attributes (attribute_length : Nat) : Load Next := do
  modify fun s => { s with savesize := int32 attribute_length }
  nested
  modify fun s => { s with savesize := -1 }
  pure .done

/-- The exception table. The 16 bits of its counter are compared with its length. -/
def exception_table (exception_table_length : Nat) : Load Unit := do
  let s ← get
  let r ← loop .endless (fun r => r % 0x10000 ≤ exception_table_length) (fun _ => do
    let _ ← read2 file
    let _ ← read2 file
    let _ ← read2 file
    let _ ← read2 file) (s.FileSize + 1) 1
  record (.table .exceptions exception_table_length (r - 1))

/-- The code itself, which is copied into a segment. -/
def load_code (CodeSize : Nat) : Load Unit := do
  let s ← get
  if s.FileSize < CodeSize then errtrunc
  else modify fun s => { s with FileSize := s.FileSize - CodeSize, pos := s.pos + CodeSize }

/-- The sizes at the start of `Code`, of which the last one is that of the code. -/
def code_header : Load Nat := do
  let s ← get
  if s.curClass.JDKsubver ≠ 0 then
    let _ ← read2 file
    let _ ← read2 file
    read4 file
  else
    let _ ← read1 file
    let _ ← read1 file
    read2 file

def Code (attribute_length : Nat) : Load Next := do
  let s ← get
  if s.curSeg.CodeSize ≠ 0 then pure (.duplerr attribute_length)
  else if attribute_length < (if s.curClass.JDKsubver ≠ 0 then 12 else 8) then pure (.declerr attribute_length)
  else
    let attribute_length := attribute_length - (if s.curClass.JDKsubver ≠ 0 then 12 else 8)
    let CodeSize ← code_header file
    modify fun s => { s with curSeg := { s.curSeg with CodeSize := CodeSize } }
    if attribute_length < CodeSize then pure (.declerr attribute_length)
    else
      load_code CodeSize
      let attribute_length := attribute_length - CodeSize
      let exception_table_length ← read2 file
      if exception_table_length = 0 then nested_attributes nested attribute_length
      else if CodeSize = 0 then pure (.declerr attribute_length)
      else if attribute_length < exception_table_length * 8 then pure (.declerr attribute_length)
      else
        exception_table file exception_table_length
        nested_attributes nested (attribute_length - exception_table_length * 8)

def Exceptions : Load Next := do
  let s ← get
  if s.curSeg.thrNode then pure (.duplerr_w attribute_length)
  else if attribute_length < 4 ∨ attribute_length % 2 ≠ 0 then pure (.declerr_w attribute_length)
  else
    let n ← read2 file
    if (attribute_length - 2) / 2 ≠ n then pure (.declerr_w (attribute_length - 2))
    else
      modify fun s => { s with curSeg := { s.curSeg with thrNode := true } }
      rounds (fun _ => do let _ ← read2 file) n 0
      pure .done

variable (size : Nat)

/-- A table whose rows have `size` bytes each, where the length of the attribute must fit. -/
def fixed_table (row : Load Unit) (attribute_length : Nat) : Load Next := do
  if attribute_length < 2 ∨ (attribute_length - 2) % size ≠ 0 then pure (.declerr_w attribute_length)
  else
    let n ← read2 file
    if (attribute_length - 2) / size ≠ n then pure (.declerr_w (attribute_length - 2))
    else
      rounds (fun _ => row) n 0
      pure .done

def LineNumberTable : Load Next := do
  let s ← get
  if s.loc.lntb then pure (.duplerr_w attribute_length)
  else
    modify fun s => { s with loc := { s.loc with lntb := true } }
    fixed_table file 4 (do
      let _ ← read2 file
      let _ ← read2 file) attribute_length

/-- A row of the table of local variables or of their types. -/
def local_variable : Load Unit := do
  let _ ← read2 file
  let _ ← read2 file
  let _ ← read2 file
  let _ ← read2 file
  let _ ← read2 file

def local_variables (eflg attribute_length : Nat) : Load Next := do
  let s ← get
  if s.loc.lvtb &&& eflg ≠ 0 then pure (.duplerr_w attribute_length)
  else
    modify fun s => { s with loc := { s.loc with lvtb := s.loc.lvtb ||| eflg } }
    fixed_table file 10 (local_variable file) attribute_length

def LocalVariableTable : Load Next := local_variables file 1 attribute_length

def LocalVariableTypeTable : Load Next := do
  let s ← get
  if s.loc.lvtb &&& 1 = 0 then pure (.incompatible "%s before LocalVariableTable%s" attribute_length)
  else local_variables file 2 attribute_length

/-- `SourceFile` and `Signature` hold an index. -/
def one_index : Load Next := do
  if attribute_length ≠ 2 then pure (.declerr_w attribute_length)
  else
    let _ ← read2 file
    pure .done

def SourceFile : Load Next := one_index file attribute_length

def InnerClasses : Load Next :=
  fixed_table file 8 (do
    let _ ← read2 file
    let _ ← read2 file
    let _ ← read2 file
    let _ ← read2 file) attribute_length

def EnclosingMethod : Load Next := do
  let s ← get
  if s.curClass.encClass ≠ 0 then pure (.duplerr_w attribute_length)
  else if attribute_length ≠ 4 then pure (.declerr_w attribute_length)
  else
    let i ← read2 file
    modify fun s => { s with
      curClass := { s.curClass with encClass := (env.LoadNamedClass i).getD 0xffff } }
    let _ ← read2 file
    pure .done

variable (apk : attr_parent_kind_t)

def flag_attribute (attribute_length : Nat) : Load Next :=
  if attribute_length ≠ 0 ∨ apk = .code then pure (.declerr_w attribute_length) else pure .done

def Signature (attribute_length : Nat) : Load Next :=
  if apk = .code then pure (.declerr_w attribute_length) else one_index file attribute_length

/-- `StackMap`, and `StackMapTable` since JDK6. -/
def StackMap (table : Bool) (attribute_length : Nat) : Load Next := do
  let s ← get
  if (table = false) ≠ (s.curClass.JDKsubver < 6) then
    pure (.incompatible "JDK1.%u incompatible with attribute%s%s" attribute_length)
  else if s.curSeg.smNode then pure (.duplerr_w attribute_length)
  else if attribute_length < 2 then pure (.declerr_w attribute_length)
  else
    let number_of_entries ← read2 file
    modify fun s => { s with curSeg := { s.curSeg with smNode := true } }
    if number_of_entries = 0 then pure (.skipAttr (attribute_length - 2))
    else
      let (r, attribute_length) ← sm_load file number_of_entries attribute_length
      if r = 0 then pure (.declerr_w attribute_length)
      else if r < 0 then pure (.incompatible "Inconsistent declaration of %s%s" attribute_length)
      else pure (.skipAttr attribute_length)

def annNodes (s : State) : attr_parent_kind_t → List Nat
  | .class_file => s.curClass.annNodes
  | .field => s.curField.annNodes
  | _ => s.curSeg.annNodes

def set_annNode (n : Nat) (s : State) : attr_parent_kind_t → State
  | .class_file => { s with curClass := { s.curClass with annNodes := n :: s.curClass.annNodes } }
  | .field => { s with curField := { s.curField with annNodes := n :: s.curField.annNodes } }
  | _ => { s with curSeg := { s.curSeg with annNodes := n :: s.curSeg.annNodes } }

/-- What is read of annotations: a default value (4), those of the parameters (2, or 3 where they are
invisible), or those of the whole (0 or 1). -/
def annot_contents (eflg attribute_length : Nat) : Load (Bool × Nat) := do
  if eflg = 4 then
    let (ok, attribute_length, _) ← annot_elm file env (attribute_length + 1) attribute_length false
    pure (ok, attribute_length)
  else if eflg ≥ 2 then
    let r ← read1 file
    if r = 0 then pure (false, attribute_length - 1)
    else
      let (ok, any, attribute_length) ← annot_params file env true r false (attribute_length - 1)
      pure (ok && (any || eflg ≠ 2), attribute_length)
  else
    let (ok, _, attribute_length) ← annot_params file env false 1 false attribute_length
    pure (ok, attribute_length)

/-- The annotations that are kept in the node `n`. -/
def do_annot (n eflg : Nat) (apk : attr_parent_kind_t) (attribute_length : Nat) : Load Next := do
  let s ← get
  if apk = .code ∨ (eflg ≥ 2 ∧ apk ≠ .method) then pure (.declerr_w attribute_length)
  else if n ∈ annNodes s apk then pure (.duplerr_w attribute_length)
  else
    modify fun s => set_annNode n s apk
    if attribute_length = 0 then pure (.declerr_w attribute_length)
    else
      let (ok, attribute_length) ← annot_contents file env eflg attribute_length
      if ok then pure (.skipAttr attribute_length) else pure (.declerr_w attribute_length)

def attribute_contents (apk : attr_parent_kind_t) (attribute_length : Nat) :
    attr_t → Load Next
  | .LineNumberTable => LineNumberTable file attribute_length
  | .LocalVariableTable => LocalVariableTable file attribute_length
  | .LocalVariableTypeTable => LocalVariableTypeTable file attribute_length
  | .StackMap => StackMap file false attribute_length
  | .StackMapTable => StackMap file true attribute_length
  | .ConstantValue => ConstantValue file env attribute_length
  | .Code => Code file nested attribute_length
  | .Exceptions => Exceptions file attribute_length
  | .RuntimeVisibleParameterAnnotations => do_annot file env 3 2 apk attribute_length
  | .RuntimeInvisibleParameterAnnotations => do_annot file env 4 3 apk attribute_length
  | .AnnotationDefault => do_annot file env 2 4 apk attribute_length
  | .SourceFile => SourceFile file attribute_length
  | .InnerClasses => InnerClasses file attribute_length
  | .EnclosingMethod => EnclosingMethod file env attribute_length
  | .SourceDebugExtension => SourceDebugExtension file env attribute_length
  | .BootstrapMethods => BootstrapMethods file attribute_length
  | .Signature => Signature file apk attribute_length
  | .Synthetic => flag_attribute apk attribute_length
  | .Deprecated => flag_attribute apk attribute_length
  | .RuntimeVisibleAnnotations => do_annot file env 0 0 apk attribute_length
  | .RuntimeInvisibleAnnotations => do_annot file env 1 1 apk attribute_length
  | .UNKNOWN => UNKNOWN env attribute_length
  | .TRUNCATED => pure (.skipAttr attribute_length)
  | .NONAME => pure (.skipAttr attribute_length)

def CopyAttrToFile : Load Unit := do
  let s ← get
  if s.FileSize < size then errtrunc
  else
    match env.path_error s.pos with
    | some msg => loader_failure msg
    | none =>
        let p ← readData file size
        match env.write_error p with
        | some msg => loader_failure msg
        | none => pure ()

def skipAttr : Load Unit :=
  if attribute_length = 0 then pure () else skipData attribute_length

/-- What goes wrong is fatal unless the user wants to ignore it. -/
def unless_fatal (msg : String) (attribute_length : Nat) : Load Unit := do
  let s ← get
  if s.loc.fatal ≠ 0 then loader_failure msg else skipAttr attribute_length

def count_fatal : Load Unit := modify fun s => { s with loc := { s.loc with fatal := (s.loc.fatal + 1) % 0x100 } }

def Next.finish : Next → Load Unit
  | .done => pure ()
  | .skipAttr attribute_length => ClassFile.skipAttr attribute_length
  | .declerr attribute_length => do
      count_fatal
      ClassFile.skipAttr attribute_length
  | .declerr_w attribute_length => ClassFile.skipAttr attribute_length
  | .duplerr attribute_length => do
      count_fatal
      unless_fatal "Duplicate %s attribute declaration%s" attribute_length
  | .duplerr_w attribute_length => unless_fatal "Duplicate %s attribute declaration%s" attribute_length
  | .incompatible msg attribute_length => unless_fatal msg attribute_length
  | .attr2file attribute_length => CopyAttrToFile file env attribute_length

/-- What the enclosing attribute has left is not exceeded. -/
def check_savesize : Load Unit := do
  let s ← get
  if s.savesize < 0 then pure ()
  else if s.savesize < size then loader_failure "Illegal declaration size%s"
  else modify fun s => { s with savesize := s.savesize - size }

def load_attribute (apk : attr_parent_kind_t) : Load Unit := do
  let s ← get
  check_savesize 6
  let attribute_name_index ← read2 file
  let attribute_length ← read4 file
  check_savesize attribute_length
  let next ← attribute_contents file env nested apk attribute_length
    (env.attribute_type_from_str attribute_name_index apk)
  next.finish file env
  let s' ← get
  record (.attribute s.pos attribute_length s'.pos s'.FileSize)

def load_attributes_with (apk : attr_parent_kind_t) : Load Unit := do
  let s ← get
  modify fun s => { s with loc := ⟨0, false, if env.MLD_FORCE then 0 else 1⟩ }
  let j ← read2 file
  let i ← loop .endless (· < j) (fun _ => load_attribute file env nested apk) j 0
  record (.table .attributes j i)
  modify fun s' => { s' with loc := s.loc }

/-- `Code` is not found among the attributes of `Code`, so the recursion has two levels. -/
def load_attributes : Load Unit :=
  load_attributes_with file env (load_attributes_with file env (fail .endless) .code) apk

def load_field : Load Unit := do
  modify fun s => { s with curField := {} }
  let _ ← read2 file
  let _ ← read2 file
  let _ ← read2 file
  load_attributes file env .field

def load_method : Load Unit := do
  modify fun s => { s with curSeg := {} }
  let _ ← read2 file
  let _ ← read2 file
  let _ ← read2 file
  load_attributes file env .method

/-- The 16 bits of the counter are compared with the number of fields. -/
def load_fields (FieldCnt : Nat) : Load Unit := do
  let s ← get
  let i ← loop .endless (fun i => i % 0x10000 ≤ FieldCnt) (fun _ => load_field file env) (s.FileSize + 1) 1
  record (.table .fields FieldCnt (i - 1))

def load_methods (MethodCnt : Nat) : Load Unit := do
  let i ← loop .endless (· ≤ MethodCnt) (fun _ => load_method file env) MethodCnt 1
  record (.table .methods MethodCnt (i - 1))

/-- The magic number and the version. -/
def load_header : Load Unit := do
  let magic ← read4 file
  if magic ≠ 0xcafebabe then fail (.error "Illegal magic number")
  else
    let MinVers ← read2 file
    let MajVers ← read2 file
    if MajVers < 45 ∨ MajVers > 55 ∨ (MajVers > 45 ∧ MinVers ≠ 0) then
      loader_failure "Unsupported file format (version %u.%u)"
    else
      modify fun s => { s with
        curClass := { s.curClass with
          JDKsubver := if MajVers = 45 then (if MinVers ≥ 3 then 1 else 0) else MajVers - 44
          SMF_mode := MajVers ≥ 50 } }

/-- The number of fields is read behind the interfaces, and the position goes back to these. -/
def peek_FieldCnt (interfaces : Nat) : Load Nat := do
  let s ← get
  if s.FileSize < interfaces * 2 then errtrunc
  else
    modify fun s => { s with pos := s.pos + interfaces * 2 }
    let FieldCnt ← read2 file
    modify fun s => { s with pos := s.pos - (2 + interfaces * 2) }
    pure FieldCnt

def load_interfaces : Load Nat := do
  let interfaces ← read2 file
  let FieldCnt ← peek_FieldCnt file interfaces
  rounds (fun _ => do let _ ← read2 file) interfaces 0
  modify fun s => { s with pos := s.pos + 2 }
  pure FieldCnt

def loader : Load Unit := do
  load_header file
  let maxCPindex ← read2 file
  if maxCPindex ≤ 2 then loader_failure "Empty constant pool"
  else
    load_constants_pool file env (maxCPindex - 1)
    let _ ← read2 file
    let _ ← read2 file
    let _ ← read2 file
    let FieldCnt ← load_interfaces file
    load_fields file env FieldCnt
    let MethodCnt ← read2 file
    load_methods file env MethodCnt
    load_attributes file env .class_file
    let s ← get
    record (.finish s.pos s.FileSize)

def State.start : State where
  pos := 0
  FileSize := file.length % 0x100000000
  extattr := env.MLD_EXTATR
  requnk := env.IDM_REQUNK

end Attributes

end IdaSdk.ClassFile
