import IdaSdk.ClassFileAttributes
import IdaSdk.LibFollows

/-!
What the Java loader stores of stack maps and annotations. It is written to a buffer that has as many bytes as the
attribute.
-/

namespace IdaSdk.JavaBlob
open Program ClassFile

/-- A failure of the loader, or a byte that is written behind the end of the buffer. -/
inductive Stop where
  | abort (e : Abort)
  | overrun

abbrev Store (α : Type) := Program State Stop α

def reading {α : Type} (x : Load α) : Store α := lift .abort x

/-- A buffer, and the bytes in front of the pointer to it. -/
structure buffer_t where
  size : Nat
  bytes : List UInt8 := []

variable (buf : buffer_t)

def write1 (v : Nat) : Store buffer_t :=
  if buf.bytes.length < buf.size then pure { buf with bytes := buf.bytes ++ [v.toUInt8] } else fail .overrun

def write2 (v : Nat) : Store buffer_t := do
  let buf ← write1 buf (v % 0x100)
  write1 buf (v / 0x100)

/-- The byte in front of the pointer is replaced. -/
def buffer_t.replace (v : Nat) : buffer_t :=
  { buf with bytes := buf.bytes.dropLast ++ [v.toUInt8] }

def ITEM_Object := 7
def ITEM_Uninitialized := 8
def ITEM_BADOBJECT := 9
def ITEM_CURCLASS := 10

def SMT_SAME_FRM_S1_min := 64
def SMT_SAME_FRM_S1_max := 127
def SMT_SAME_FRM_S1 := 247
def SMT_SAME_FRM_S0 := 251
def SMT_FULL_FRAME := 255

structure Ref where
  Name : Nat
  Dscr : Nat

/-- Information record of a stack map. -/
structure sm_info_t where
  noff : Nat
  eoff : Nat
  fcnt : Nat

/-- The node of a stack map: the records by their addresses, and the blob. -/
structure smNode_t where
  records : List (Nat × sm_info_t) := []
  blob : List UInt8 := []

def smNode_t.supset (temp : smNode_t) (refea : Nat) (smr : sm_info_t) : smNode_t :=
  { temp with records := temp.records ++ [(refea, smr)] }

section
variable (file : File) (env : Env)

/-! ### Stack maps -/

variable (this : Ref)

/-- The class that an object has. -/
def sm_object (var : Nat) (buf : buffer_t) : Nat × buffer_t :=
  if var = this.Dscr then (this.Name, buf.replace ITEM_CURCLASS)
  else
    match env.LoadNamedClass var with
    | some name => (name, buf)
    | none => (var, buf.replace ITEM_BADOBJECT)

def sm_chkargs (this : Ref) : Nat → Nat → buffer_t → Store (Bool × Nat × buffer_t)
  | 0, dopsize, buf => pure (true, dopsize, buf)
  | cnt + 1, dopsize, buf => do
      if dopsize = 0 then pure (false, dopsize, buf)
      else
        let tag ← reading (read1 file)
        if tag > ITEM_Uninitialized then pure (false, dopsize - 1, buf)
        else
          let buf ← write1 buf tag
          if tag ≥ ITEM_Object then
            if dopsize - 1 < 2 then pure (false, dopsize - 1, buf)
            else
              let var ← reading (read2 file)
              let s ← get
              if tag = ITEM_Uninitialized ∧ var ≠ 0 ∧ var ≥ s.curSeg.CodeSize then pure (false, dopsize - 3, buf)
              else
                let object := if tag = ITEM_Object then sm_object env this var buf else (var, buf)
                let buf ← write2 object.2 object.1
                sm_chkargs this cnt (dopsize - 3) buf
          else sm_chkargs this cnt (dopsize - 1) buf

/-- The number of locals or of stack items, and these. -/
def sm_list (dopsize : Nat) (buf : buffer_t) : Store (Bool × Nat × Nat × buffer_t) := do
  if dopsize < 2 then pure (false, 0, dopsize, buf)
  else
    let cnt ← reading (read2 file)
    let buf ← write2 buf cnt
    let (ok, dopsize, buf) ← sm_chkargs file env this cnt (dopsize - 2) buf
    pure (ok, cnt, dopsize, buf)

/-- The part of a frame that depends on its type, and the number of locals behind the frame. -/
def sm_frame (rectype fcnt dopsize : Nat) (buf : buffer_t) : Store (Bool × Nat × Nat × buffer_t) := do
  if rectype = SMT_FULL_FRAME then
    let (ok, nxcnt, dopsize, buf) ← sm_list file env this dopsize buf
    if ok then
      let (ok, _, dopsize, buf) ← sm_list file env this dopsize buf
      pure (ok, nxcnt, dopsize, buf)
    else pure (false, nxcnt, dopsize, buf)
  else if rectype > SMT_SAME_FRM_S0 then
    let (ok, dopsize, buf) ← sm_chkargs file env this (rectype - SMT_SAME_FRM_S0) dopsize buf
    pure (ok, fcnt + (rectype - SMT_SAME_FRM_S0), dopsize, buf)
  else if rectype ≥ SMT_SAME_FRM_S1 then
    if fcnt < SMT_SAME_FRM_S0 - rectype then pure (false, fcnt, dopsize, buf)
    else if SMT_SAME_FRM_S0 - rectype = 4 then
      let (ok, dopsize, buf) ← sm_chkargs file env this 1 dopsize buf
      pure (ok, fcnt - 4, dopsize, buf)
    else pure (true, fcnt - (SMT_SAME_FRM_S0 - rectype), dopsize, buf)
  else if rectype ≥ SMT_SAME_FRM_S1_min then
    let (ok, dopsize, buf) ← sm_chkargs file env this 1 dopsize buf
    pure (ok, fcnt, dopsize, buf)
  else pure (true, fcnt, dopsize, buf)

def sm_rectype (dopsize : Nat) (buf : buffer_t) : Store (Bool × Nat × Nat × buffer_t) := do
  let s ← get
  if s.curClass.SMF_mode then
    if dopsize = 0 then pure (false, 0, dopsize, buf)
    else
      let rectype ← reading (read1 file)
      let buf ← write1 buf rectype
      pure (true, rectype, dopsize - 1, buf)
  else pure (true, SMT_FULL_FRAME, dopsize, buf)

/-- The offset that a frame has, counted from the previous one since JDK6. -/
def sm_offset (rectype prevoff dopsize : Nat) (buf : buffer_t) : Store (Bool × Nat × Nat × buffer_t) := do
  let s ← get
  let base := if s.curClass.SMF_mode then prevoff + 1 else 0
  if rectype < SMT_SAME_FRM_S1 then
    if rectype > SMT_SAME_FRM_S1_max then pure (false, 0, dopsize, buf)
    else if rectype ≥ SMT_SAME_FRM_S1_min then
      pure (true, (rectype - SMT_SAME_FRM_S1_min + base) % 0x100000000, dopsize, buf)
    else pure (true, (rectype + base) % 0x100000000, dopsize, buf)
  else if dopsize < 2 then pure (false, 0, dopsize, buf)
  else
    let off ← reading (read2 file)
    let buf ← write2 buf off
    pure (true, (off + base) % 0x100000000, dopsize - 2, buf)

def sm_frames (start_ea : Nat) (this : Ref) :
    Nat → Nat → Nat → smNode_t → Nat → buffer_t → Store (Int × Nat × smNode_t)
  | 0, _, _, temp, dopsize, buf => pure (1, dopsize, { temp with blob := buf.bytes })
  | declcnt + 1, prevoff, fcnt, temp, dopsize, buf => do
      let noff := buf.bytes.length
      let (ok, rectype, dopsize, buf) ← sm_rectype file dopsize buf
      if !ok then pure (0, dopsize, temp)
      else
        let (ok, off, dopsize, buf) ← sm_offset file rectype prevoff dopsize buf
        let s ← get
        if !ok || off ≥ s.curSeg.CodeSize then pure (0, dopsize, temp)
        else if start_ea + off ∈ temp.records.map Prod.fst then pure (-1, dopsize, temp)
        else
          let (ok, nxcnt, dopsize, buf) ← sm_frame file env this rectype fcnt dopsize buf
          if !ok then pure (0, dopsize, temp)
          else
            sm_frames start_ea this declcnt off nxcnt
              (temp.supset (start_ea + off) ⟨noff, buf.bytes.length, fcnt⟩) dopsize buf

def sm_load (start_ea : Nat) (this : Ref) (declcnt dopsize : Nat) : Store (Int × Nat × smNode_t) := do
  let buf ← write2 { size := dopsize } declcnt
  sm_frames file env start_ea this declcnt 0xffffffff 0 {} (dopsize - 2) buf

/-- `StackMap`, and `StackMapTable` since JDK6: the node is kept if it has been loaded. -/
def StackMap (start_ea : Nat) (this : Ref) (table : Bool) (attribute_length : Nat) :
    Store (Next × Option smNode_t) := do
  let s ← get
  if (table = false) ≠ (s.curClass.JDKsubver < 6) then
    pure (.incompatible "JDK1.%u incompatible with attribute%s%s" attribute_length, none)
  else if s.curSeg.smNode then pure (.duplerr_w attribute_length, none)
  else if attribute_length < 2 then pure (.declerr_w attribute_length, none)
  else
    let number_of_entries ← reading (read2 file)
    modify fun s => { s with curSeg := { s.curSeg with smNode := true } }
    if number_of_entries = 0 then pure (.skipAttr (attribute_length - 2), none)
    else
      let (r, attribute_length, temp) ← sm_load file env start_ea this number_of_entries attribute_length
      if r = 0 then pure (.declerr_w attribute_length, none)
      else if r < 0 then pure (.incompatible "Inconsistent declaration of %s%s" attribute_length, none)
      else pure (.skipAttr attribute_length, some temp)

/-! ### Annotations -/

def annotation_pairs (annot_elm : Nat → buffer_t → Store (Bool × Nat × Nat × buffer_t)) :
    Nat → Nat → buffer_t → Store (Bool × Nat × buffer_t)
  | 0, psize, p => pure (true, psize, p)
  | pairs + 1, psize, p => do
      if psize < 2 then pure (false, psize, p)
      else
        let id ← reading (read2 file)
        if !env.LoadFieldName id then pure (false, psize - 2, p)
        else
          let p ← write2 p id
          let (ok, psize, _, p) ← annot_elm (psize - 2) p
          if !ok then pure (false, psize, p) else annotation_pairs annot_elm pairs psize p

def annotation_with (annot_elm : Nat → buffer_t → Store (Bool × Nat × Nat × buffer_t)) (psize : Nat) (p : buffer_t) :
    Store (Bool × Nat × buffer_t) := do
  if psize < 2 then pure (false, psize, p)
  else
    let pairs ← reading (read2 file)
    let p ← write2 p pairs
    annotation_pairs file env annot_elm pairs (psize - 2) p

/-- The elements of an array. The second one must have the tag of the first one. -/
def annot_array (annot_elm : Nat → buffer_t → Store (Bool × Nat × Nat × buffer_t)) :
    Nat → Option Nat → Nat → buffer_t → Store (Bool × Nat × buffer_t)
  | 0, _, psize, p => pure (true, psize, p)
  | val + 1, first, psize, p => do
      let (ok, psize, tag, p) ← annot_elm psize p
      if !ok then pure (false, psize, p)
      else
        match first with
        | none => annot_array annot_elm val (some tag) psize p
        | some tag' =>
            if tag' ≠ 0xff ∧ tag ≠ tag' then pure (false, psize, p)
            else annot_array annot_elm val (some 0xff) psize p

def annot_elm : Nat → Nat → Bool → buffer_t → Store (Bool × Nat × Nat × buffer_t)
  | 0, _, _, _ => fail (.abort .endless)
  | fuel + 1, psize, is_array, p => do
      if psize < 3 then pure (false, psize, 0, p)
      else
        let tag ← reading (read1 file)
        let val ← reading (read2 file)
        let p ← write1 p tag
        let p ← write2 p val
        if tag = '@'.toNat then
          if env.isSingleClass val then
            let (ok, psize, p) ← annotation_with file env (fun psize p => annot_elm fuel psize false p) (psize - 3) p
            pure (ok, psize, tag, p)
          else pure (false, psize - 3, tag, p)
        else if tag = '['.toNat then
          if val ≠ 0 ∧ is_array = false then
            let (ok, psize, p) ← annot_array (fun psize p => annot_elm fuel psize true p) val none (psize - 3) p
            pure (ok, psize, tag, p)
          else pure (false, psize - 3, tag, p)
        else if tag = 'e'.toNat then
          if !env.LoadFieldDscr val || psize - 3 < 2 then pure (false, psize - 3, tag, p)
          else
            let val ← reading (read2 file)
            let p ← write2 p val
            pure (env.LoadFieldName val, psize - 5, tag, p)
        else if tag = 'c'.toNat then pure (env.isSingleClass val, psize - 3, tag, p)
        else
          match annot_const tag with
          | none => pure (false, psize - 3, tag, p)
          | some op => pure (env.LoadOpis val op, psize - 3, tag, p)

def annotation (psize : Nat) (p : buffer_t) : Store (Bool × Nat × buffer_t) :=
  annotation_with file env (fun size p => annot_elm file env psize size false p) psize p

def annotations : Nat → Nat → buffer_t → Store (Bool × Nat × buffer_t)
  | 0, attribute_length, p => pure (true, attribute_length, p)
  | cnt + 1, attribute_length, p => do
      if attribute_length < 2 then pure (false, attribute_length, p)
      else
        let id ← reading (read2 file)
        if !env.isSingleClass id then pure (false, attribute_length - 2, p)
        else
          let p ← write2 p id
          let (ok, attribute_length, p) ← annotation file env (attribute_length - 2) p
          if !ok then pure (false, attribute_length, p) else annotations cnt attribute_length p

def annot_params (params : Bool) : Nat → Bool → Nat → buffer_t → Store (Bool × Bool × Nat × buffer_t)
  | 0, any, attribute_length, p => pure (true, any, attribute_length, p)
  | r + 1, any, attribute_length, p => do
      if attribute_length < 2 then pure (false, any, attribute_length, p)
      else
        let cnt ← reading (read2 file)
        let p ← write2 p cnt
        if cnt = 0 then
          if !params then pure (false, any, attribute_length - 2, p)
          else annot_params params r any (attribute_length - 2) p
        else
          let (ok, attribute_length, p) ← annotations file env cnt (attribute_length - 2) p
          if !ok then pure (false, true, attribute_length, p) else annot_params params r true attribute_length p

def annot_contents (eflg attribute_length : Nat) (p : buffer_t) : Store (Bool × Nat × buffer_t) := do
  if eflg = 4 then
    let (ok, attribute_length, _, p) ← annot_elm file env (attribute_length + 1) attribute_length false p
    pure (ok, attribute_length, p)
  else if eflg ≥ 2 then
    let r ← reading (read1 file)
    let p ← write1 p r
    if r = 0 then pure (false, attribute_length - 1, p)
    else
      let (ok, any, attribute_length, p) ← annot_params file env true r false (attribute_length - 1) p
      pure (ok && (any || eflg ≠ 2), attribute_length, p)
  else
    let (ok, _, attribute_length, p) ← annot_params file env false 1 false attribute_length p
    pure (ok, attribute_length, p)

/-- The annotations that are kept in the node `n`: the blob of the node. -/
def do_annot (n eflg : Nat) (apk : attr_parent_kind_t) (attribute_length : Nat) :
    Store (Next × Option (List UInt8)) := do
  let s ← get
  if apk = .code ∨ (eflg ≥ 2 ∧ apk ≠ .method) then pure (.declerr_w attribute_length, none)
  else if n ∈ annNodes s apk then pure (.duplerr_w attribute_length, none)
  else
    modify fun s => set_annNode n s apk
    if attribute_length = 0 then pure (.declerr_w attribute_length, none)
    else
      let (ok, attribute_length, p) ← annot_contents file env eflg attribute_length { size := attribute_length }
      if ok then pure (.skipAttr attribute_length, some p.bytes) else pure (.declerr_w attribute_length, none)

end

end IdaSdk.JavaBlob
