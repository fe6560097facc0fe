import IdaSdk.JavaSigGrammar

/-!
What the formatter accepts. Every reading function decides a phrase of the core dialect once it has
fuel in proportion to the text, so it stops, never reads behind the end of the string, and accepts
exactly what the core dialect can read. The core dialect lies below the lenient one.
-/

namespace IdaSdk.JavaSig
open Recogniser Relation

/-- The text that is left, and the way a reading function says no. -/
def reading : Reading UInt16 State Failure where
  rest := State.tp
  refuses e := ∃ s, e = .rejected s

@[simp] theorem reading_rest (s : State) : reading.rest s = s.tp := rfl

variable {c : UInt16}

theorem lookahead_eq_iff {s : State} (hc : c ≠ 0) :
    lookahead_utf16 s = c ↔ s.tp.head? = some c := by
  unfold lookahead_utf16
  cases s.tp with
  | nil => exact iff_of_false (Ne.symm hc) (by simp)
  | cons d rest => simp

theorem discard_decides (c : UInt16) (s : State) :
    Decides reading 1 (Terminal c) s.tp (discard_utf16_expect c s) := by
  unfold discard_utf16_expect
  cases htp : s.tp with
  | nil => exact .refused _ ⟨s, rfl⟩ (fun t => not_terminal_nil)
  | cons d rest =>
      by_cases hd : d = c
      · simp only [hd, if_true]
        exact .accepted _ (fun t => by rw [terminal_cons]; simp) (by simp)
      · simp only [hd, if_false]
        exact .refused _ ⟨s, rfl⟩ (fun t ht => hd (terminal_cons.mp ht).1)

theorem seq {k l m : Nat} {P Q : Phrase UInt16} {s : State} {x : Result} {f : State → Result}
    (hm : m ≤ k + l) (hx : Decides reading k P s.tp x)
    (hf : ∀ a : State, a.tp.length + k ≤ s.tp.length → P s.tp a.tp →
      Decides reading l Q a.tp (f a)) :
    Decides reading m (Comp P Q) s.tp (x >>= f) :=
  (hx.bind hf).mono hm

section Output

variable {env : Env} (hroom : ∀ out, env.putproc out ≠ 0)
include hroom

theorem emit_ok (needed : Int) (piece : Piece) (s : State) :
    ∃ a, emit env needed piece s = .ok a ∧ a.tp = s.tp := by
  unfold emit ensure_remaining
  by_cases hsize : s.size < needed
  · rw [if_pos hsize, if_neg (hroom _)]
    exact ⟨_, rfl, rfl⟩
  · rw [if_neg hsize]
    exact ⟨_, rfl, rfl⟩

theorem out_cp_ok (cp : UInt32) (s : State) : ∃ a, out_cp env cp s = .ok a ∧ a.tp = s.tp :=
  emit_ok hroom _ _ s

theorem out_line_ok (text : String) (s : State) : ∃ a, out_line env text s = .ok a ∧ a.tp = s.tp :=
  emit_ok hroom _ _ s

theorem out_sfx_ok (sfxt : sfx_type_t) (s : State) : ∃ a, out_sfx env sfxt s = .ok a ∧ a.tp = s.tp :=
  out_line_ok hroom _ s

theorem out_unicode_escaped_cp_ok (cp : UInt32) (s : State) :
    ∃ a, out_unicode_escaped_cp env cp s = .ok a ∧ a.tp = s.tp := by
  unfold out_unicode_escaped_cp
  split
  · exact emit_ok hroom _ _ s
  obtain ⟨a, ha, hrest⟩ := emit_ok hroom 6 (.halfword
    ((0xD800 : UInt32) + (((cp - 0x10000) >>> 10) &&& 0x3FF)).toUInt16) s
  obtain ⟨b, hb, hrest'⟩ := emit_ok hroom 6 (.halfword
    ((0xDC00 : UInt32) + (cp &&& 0x3FF)).toUInt16) a
  refine ⟨b, ?_, hrest'.trans hrest⟩
  simp only [out_utf16_escaped_halfword, ha]
  exact hb

theorem separator_ok (c : Prop) [Decidable c] (s : State) :
    ∃ a, (if c then out_param_sep env s else .ok s) = .ok a ∧ a.tp = s.tp := by
  by_cases hc : c
  · rw [if_pos hc]
    exact out_line_ok hroom _ s
  · rw [if_neg hc]
    exact ⟨s, rfl, rfl⟩

theorem sfx_or_sep_ok (sfxt : sfx_type_t) (c : Prop) [Decidable c] (s : State) :
    ∃ a, (if c then out_sfx env sfxt s else out_param_sep env s) = .ok a ∧ a.tp = s.tp := by
  split
  · exact out_sfx_ok hroom sfxt s
  · exact out_line_ok hroom _ s

theorem consume_decides (c : UInt16) (s : State) :
    Decides reading 1 (Terminal c) s.tp (consume_utf16_expect env c s) := by
  unfold consume_utf16_expect
  refine ((discard_decides c s).bind (Q := fun s t => t = s) (l := 0) ?_).of_iff fun t => by simp [Comp]
  intro a _ _
  obtain ⟨b, hb, hrest⟩ := out_cp_ok hroom c.toUInt32 a
  rw [hb]
  exact .skip hrest

omit hroom in
theorem identifier_core_iff {s t : List UInt16} :
    Identifier .core s t ↔ t = s.dropWhile (fun c => c ∉ identifierStops) := by
  simp [Identifier, Name, Dialect.core]

variable {c : UInt16}

omit hroom in
theorem endsIdentifier_iff : endsIdentifier c = true ↔ c ∈ identifierStops := by
  simp [endsIdentifier, identifierStops, unqualifiedStops, or_assoc]

omit hroom in
theorem not_stop_of_tail (hc : is_tail_surrogate c = true) : c ∉ identifierStops := by
  intro hmem
  have hlow := List.all_eq_true.mp
    (show identifierStops.all (fun d => is_tail_surrogate d == false) = true by decide) c hmem
  rw [beq_iff_eq.mp hlow] at hc
  cases hc

omit hroom in
theorem next_cp_of_name {s : State} {rest : List UInt16} (htp : s.tp = c :: rest)
    (hc : c ∉ identifierStops) :
    ∃ ok cp a, next_cp s = .ok (ok, cp, a) ∧ a.tp.length < s.tp.length ∧
      a.tp.dropWhile (fun c => c ∉ identifierStops) =
        s.tp.dropWhile (fun c => c ∉ identifierStops) := by
  unfold next_cp
  rw [htp]
  dsimp only
  split
  · exact ⟨_, _, _, rfl, by simp, by simp [hc]⟩
  split
  · split
    · exact ⟨_, _, _, rfl, by simp, by simp [hc]⟩
    rename_i d rest'
    split
    · next hpair =>
        refine ⟨_, _, _, rfl, ?_, by simp [hc, not_stop_of_tail hpair]⟩
        simp only [List.length_cons]
        omega
    · exact ⟨_, _, _, rfl, by simp, by simp [hc]⟩
  · exact ⟨_, _, _, rfl, by simp, by simp [hc]⟩

theorem identifier_decides (n : Nat) (s : State) (hn : s.tp.length < n) :
    Decides reading 0 (Identifier .core) s.tp (parse_Identifier env n s) := by
  induction n generalizing s with
  | zero => omega
  | succ n ih =>
      rw [parse_Identifier]
      cases htp : s.tp with
      | nil =>
          rw [if_pos rfl]
          exact .accepted s (fun t => by rw [identifier_core_iff]; simp [htp]) (by simp [htp])
      | cons c rest =>
          have hla : lookahead_utf16 s = c := by simp [lookahead_utf16, htp]
          rw [if_neg (by simp), hla]
          by_cases hc : c ∈ identifierStops
          · rw [if_pos (endsIdentifier_iff.2 hc)]
            exact .accepted s (fun t => by rw [identifier_core_iff]; simp [htp, hc]) (by simp [htp])
          rw [if_neg (mt endsIdentifier_iff.1 hc)]
          obtain ⟨ok, cp, a, ha, hlen, hdrop⟩ := next_cp_of_name htp hc
          have hrun : ∀ b, b.tp = a.tp →
              Decides reading 0 (Identifier .core) a.tp (parse_Identifier env n b) := by
            intro b hb
            rw [← hb]
            exact ih b (by rw [hb]; omega)
          rw [ha, ← htp]
          have hread : ∀ t, Identifier .core s.tp t ↔ Identifier .core a.tp t := by
            intro t
            rw [identifier_core_iff, identifier_core_iff, hdrop]
          refine .back ?_ (Nat.le_of_lt hlen) hread
          change Decides reading 0 _ _ (if ok && env.is_cp_graphical cp then _ else _)
          split
          · exact .after (out_cp_ok hroom cp a) hrun
          · exact .after (out_unicode_escaped_cp_ok hroom cp a) hrun

end Output

variable {d : Dialect} {s t : List UInt16}

theorem is_BaseType_iff : is_BaseType c = true ↔ c ∈ baseTypes := by
  constructor
  · intro h
    simp only [is_BaseType, Bool.and_eq_true] at h
    by_contra hc
    simp only [baseTypes, List.mem_cons, List.not_mem_nil, or_false, not_or] at hc
    simp [get_base_typename, hc] at h
  · exact List.all_eq_true.mp (show baseTypes.all is_BaseType = true from rfl) c

theorem TypeVariableSignature.head (h : TypeVariableSignature d s t) : s.head? = some j_typeref := by
  obtain ⟨a, ha, _⟩ := h
  exact ha.head

theorem ClassTypeSignature.head (h : ClassTypeSignature d s t) : s.head? = some j_class := by
  cases h with
  | mk hclass _ _ => exact hclass.head

theorem ArrayTypeSignature.head (h : ArrayTypeSignature d s t) : s.head? = some j_array := by
  cases h with
  | mk harray _ => exact harray.head

theorem TypeArguments.head (h : TypeArguments d s t) : s.head? = some j_sign := by
  cases h with
  | mk hsign _ _ => exact hsign.head

theorem ClassTypeSignatureSuffix.head (h : ClassTypeSignatureSuffix d s t) :
    s.head? = some j_field_dlm := by
  cases h with
  | mk hdlm _ => exact hdlm.head

theorem ClassTypeSignatureSuffixes.head (h : ClassTypeSignatureSuffixes d s t) :
    t = s ∨ s.head? = some j_field_dlm := by
  cases h with
  | nil => exact .inl rfl
  | cons h _ => exact .inr h.head

theorem FieldTypeSignature.head (h : FieldTypeSignature d s t) :
    s.head? = some j_class ∨ s.head? = some j_array ∨ s.head? = some j_typeref := by
  cases h with
  | classType h => exact .inl h.head
  | arrayType h => exact .inr (.inl h.head)
  | typeVariable h => exact .inr (.inr h.head)

theorem TypeArgument.head (h : TypeArgument d s t) :
    s.head? = some j_wild ∨ s.head? = some j_wild_e ∨ s.head? = some j_wild_s ∨
      s.head? = some j_class ∨ s.head? = some j_array ∨ s.head? = some j_typeref := by
  cases h with
  | wild h => exact .inl h.head
  | bounded hwild _ =>
      cases hwild with
      | inl h => exact .inr (.inl h.head)
      | inr h => exact .inr (.inr (.inl h.head))
  | plain h => exact .inr (.inr (.inr h.head))

theorem TypeArgument.head_ne (h : TypeArgument d s t) : s.head? ≠ some j_endsign := by
  rcases h.head with h | h | h | h | h | h <;> rw [h] <;> decide

-- the recursor, as the grammar is mutual and `induction` does not take it
theorem transGen_of_list {s t : List UInt16} (h : TypeArgumentList d s t) : TransGen (TypeArgument d) s t := by
  have hrec := @TypeArgumentList.rec d (fun _ _ _ => True) (fun _ _ _ => True) (fun _ _ _ => True) (fun _ _ _ => True)
    (fun _ _ _ => True) (fun _ _ _ => True) (fun _ _ _ => True) (fun _ _ _ => True) (fun _ _ _ => True)
    (fun s t _ => TransGen (TypeArgument d) s t) (fun _ _ _ => True)
  refine hrec ?_ ?_ ?_ ?_ ?_ ?_ ?_ ?_ ?_ ?_ ?_ ?_ ?_ ?_ ?_ ?_ ?_ ?_ ?_ ?_ ?_ h
  all_goals intros
  all_goals try trivial
  · exact .single ‹_›
  · exact .head ‹_› ‹_›

theorem typeArgumentList_iff : TypeArgumentList d s t ↔ TransGen (TypeArgument d) s t := by
  constructor
  · exact transGen_of_list
  · intro h
    induction h using TransGen.head_induction_on with
    | single h => exact .one h
    | head h _ ih => exact .cons h ih

theorem BaseType.head (h : BaseType s t) : ∃ c ∈ baseTypes, s.head? = some c := by
  obtain ⟨c, hc, rfl⟩ := h
  exact ⟨c, hc, rfl⟩

theorem baseType_of_head {rest : List UInt16} (hc : is_BaseType c = true) :
    BaseType (c :: rest) t ↔ t = rest := by
  constructor
  · rintro ⟨d, _, hd⟩
    exact (List.cons.inj hd).2.symm
  · rintro rfl
    exact ⟨c, is_BaseType_iff.mp hc, rfl⟩

theorem is_BaseType_lookahead {s : State} (h : is_BaseType (lookahead_utf16 s) = true) :
    ∃ c rest, s.tp = c :: rest ∧ is_BaseType c = true := by
  unfold lookahead_utf16 at h
  cases htp : s.tp with
  | nil =>
      rw [htp] at h
      exact absurd h (by decide)
  | cons c rest =>
      rw [htp] at h
      exact ⟨c, rest, rfl, h⟩

theorem not_baseType {s : State} (h : ¬ is_BaseType (lookahead_utf16 s) = true) :
    ¬ BaseType s.tp t := by
  rintro ⟨c, hc, htp⟩
  apply h
  rw [lookahead_utf16, htp]
  exact is_BaseType_iff.mpr hc

section Types

variable {env : Env} (hroom : ∀ out, env.putproc out ≠ 0)
include hroom

theorem baseType_decides (s : State) (h : is_BaseType (lookahead_utf16 s) = true) :
    Decides reading 1 BaseType s.tp (parse_BaseType env s) := by
  obtain ⟨c, rest, htp, hc⟩ := is_BaseType_lookahead h
  obtain ⟨htail, hlead, hcp, hname⟩ := of_decide_eq_true (List.all_eq_true.mp
    (show baseTypes.all (fun c => is_tail_surrogate c = false ∧ is_lead_surrogate c = false ∧
      ¬ c.toUInt32 ≥ 0x10000 ∧
      (get_base_typename (c.toUInt32.toUInt16 &&& 0xFF) false).isSome = true) = true by decide)
    c (is_BaseType_iff.mp hc))
  obtain ⟨tname, htname⟩ := Option.isSome_iff_exists.mp hname
  have hnext : next_cp s = .ok (true, c.toUInt32, { s with tp := rest }) := by
    unfold next_cp
    simp [htp, htail, hlead]
  have hrun : parse_BaseType env s = out_line env tname { s with tp := rest } := by
    unfold parse_BaseType
    rw [hnext]
    simp only [bind, Except.bind, if_neg hcp, htname]
    rfl
  obtain ⟨a, ha, hrest⟩ := out_line_ok hroom tname { s with tp := rest }
  rw [hrun, ha, htp]
  refine .accepted a (fun t => ?_) ?_
  · rw [baseType_of_head hc, reading_rest, hrest]
  · rw [reading_rest, hrest]
    simp

theorem typeVariableSignature_decides (n : Nat) (s : State) (hn : s.tp.length ≤ n) :
    Decides reading 2 (TypeVariableSignature .core) s.tp (parse_TypeVariableSignature env n s) := by
  unfold parse_TypeVariableSignature TypeVariableSignature
  refine seq (l := 1) (by omega) (discard_decides _ s) fun a hlen _ => ?_
  exact seq (by omega) (identifier_decides hroom n a (by omega)) fun b _ _ => discard_decides _ b

end Types

/-! ### Field type signatures -/

/-- `TypeArguments_opt`, as one symbol ahead decides it. -/
def ArgumentsOpt : Phrase UInt16 := fun s t =>
  if s.head? = some j_sign then TypeArguments .core s t else t = s

/-- What the first loop of `parse_class_desc` reads. -/
inductive NamesRead : List UInt16 → List UInt16 → Prop
  | package {s a b t} (hname : Identifier .core s a) (hdlm : Terminal j_clspath_dlm a b)
      (h : NamesRead b t) : NamesRead s t
  | generic {s a t} (hname : Identifier .core s a) (hargs : TypeArguments .core a t) : NamesRead s t
  | simple {s a t} (hname : Identifier .core s a)
      (h : Until j_endclass (ClassTypeSignatureSuffixes .core) a t) : NamesRead s t

theorem until_suffixes_head (h : Until j_endclass (ClassTypeSignatureSuffixes d) s t) :
    s.head? = some j_endclass ∨ s.head? = some j_field_dlm := by
  obtain ⟨hs, hend⟩ := h
  rcases hs.head with rfl | hdlm
  · exact .inl hend
  · exact .inr hdlm

theorem namesRead_of_className : ∀ {s t : List UInt16}, ClassTypeName .core s t →
    t.head? = some j_endclass → NamesRead s t
  | _, _, .package hname hdlm h, hend => .package hname hdlm (namesRead_of_className h hend)
  | _, _, .simple hname h, hend => .simple hname ⟨h, hend⟩
  | _, _, .generic hname hargs _ hlast, _ => hlast rfl ▸ .generic hname hargs

theorem NamesRead.className (h : NamesRead s t) : ClassTypeName .core s t := by
  induction h with
  | package hname hdlm _ ih => exact .package hname hdlm ih
  | generic hname hargs => exact .generic hname hargs .nil fun _ => rfl
  | simple hname h => exact .simple hname h.1

/-- What the mutually recursive functions decide with fuel `n`. -/
structure TypesDecided (env : Env) (n : Nat) : Prop where
  fieldTypeSignature : ∀ s : State, 8 * s.tp.length + 3 ≤ n →
    Decides reading 1 (FieldTypeSignature .core) s.tp (parse_FieldTypeSignature env n s)
  classTypeSignature : ∀ s : State, 8 * s.tp.length + 2 ≤ n →
    Decides reading 2 (ClassTypeSignature .core) s.tp (parse_ClassTypeSignature env n s)
  arrayTypeSignature : ∀ s : State, 8 * s.tp.length + 1 ≤ n →
    Decides reading 1 (ArrayTypeSignature .core) s.tp (parse_ArrayTypeSignature env n s)
  simpleClassTypeSignature : ∀ s : State, 8 * s.tp.length + 3 ≤ n →
    Decides reading 0 (Comp (Identifier .core) ArgumentsOpt) s.tp
      (parse_SimpleClassTypeSignature env n s)
  classTypeSignatureSuffix : ∀ s : State, 8 * s.tp.length + 1 ≤ n →
    Decides reading 1 (Comp (Terminal j_field_dlm) (Comp (Identifier .core) ArgumentsOpt)) s.tp
      (parse_ClassTypeSignatureSuffix env n s)
  typeSignature : ∀ s : State, 8 * s.tp.length + 4 ≤ n →
    Decides reading 1 (TypeSignature .core) s.tp (parse_TypeSignature env n s)
  typeArgument : ∀ s : State, 8 * s.tp.length + 4 ≤ n →
    Decides reading 1 (TypeArgument .core) s.tp (parse_TypeArgument env n s)
  typeArguments : ∀ s : State, 8 * s.tp.length + 1 ≤ n →
    Decides reading 1 (TypeArguments .core) s.tp (parse_TypeArguments env n s)
  typeArgumentLoop : ∀ (cnt : UInt32) (s : State), 8 * s.tp.length + 5 ≤ n →
    Decides reading 1 (Until j_endsign (TransGen (TypeArgument .core))) s.tp
      (parse_TypeArguments.loop env n cnt s)
  typeArguments_opt : ∀ s : State, 8 * s.tp.length + 2 ≤ n →
    Decides reading 0 ArgumentsOpt s.tp (parse_TypeArguments_opt env n s)
  class_desc : ∀ s : State, 8 * s.tp.length + 1 ≤ n →
    Decides reading 2 (ClassTypeSignature .core) s.tp (parse_class_desc env n true true s)
  names : ∀ s : State, 8 * s.tp.length + 3 ≤ n →
    Decides reading 0 NamesRead s.tp (parse_class_desc.names env n true true s)
  suffixes : ∀ s : State, 8 * s.tp.length + 2 ≤ n →
    Decides reading 0 (Until j_endclass (ClassTypeSignatureSuffixes .core)) s.tp
      (parse_class_desc.suffixes env n s)

section Step

variable {env : Env} {n : Nat} (hroom : ∀ out, env.putproc out ≠ 0) (ih : TypesDecided env n)
  (s : State)
include hroom ih

theorem fieldTypeSignature_step (hn : 8 * s.tp.length + 3 ≤ n + 1) :
    Decides reading 1 (FieldTypeSignature .core) s.tp (parse_FieldTypeSignature env (n + 1) s) := by
  rw [parse_FieldTypeSignature]
  simp only [lookahead_eq_iff (show j_class ≠ 0 by decide),
    lookahead_eq_iff (show j_array ≠ 0 by decide), lookahead_eq_iff (show j_typeref ≠ 0 by decide)]
  by_cases hclass : s.tp.head? = some j_class
  · rw [if_pos hclass]
    refine ((ih.classTypeSignature s (by omega)).mono (by omega)).of_iff fun t => ⟨?_, .classType⟩
    intro h
    cases h with
    | classType h => exact h
    | arrayType h => exact absurd (hclass.symm.trans h.head) (by decide)
    | typeVariable h => exact absurd (hclass.symm.trans h.head) (by decide)
  rw [if_neg hclass]
  by_cases harray : s.tp.head? = some j_array
  · rw [if_pos harray]
    refine (ih.arrayTypeSignature s (by omega)).of_iff fun t => ⟨?_, .arrayType⟩
    intro h
    cases h with
    | classType h => exact absurd h.head hclass
    | arrayType h => exact h
    | typeVariable h => exact absurd (harray.symm.trans h.head) (by decide)
  rw [if_neg harray]
  by_cases htyperef : s.tp.head? = some j_typeref
  · rw [if_pos htyperef]
    refine ((typeVariableSignature_decides hroom n s (by omega)).mono (by omega)).of_iff
      fun t => ⟨?_, .typeVariable⟩
    intro h
    cases h with
    | classType h => exact absurd h.head hclass
    | arrayType h => exact absurd h.head harray
    | typeVariable h => exact h
  rw [if_neg htyperef]
  refine .refused _ ⟨s, rfl⟩ fun t h => ?_
  rcases h.head with h | h | h
  · exact hclass h
  · exact harray h
  · exact htyperef h

omit hroom in
theorem classTypeSignature_step (hn : 8 * s.tp.length + 2 ≤ n + 1) :
    Decides reading 2 (ClassTypeSignature .core) s.tp (parse_ClassTypeSignature env (n + 1) s) := by
  rw [parse_ClassTypeSignature]
  exact ih.class_desc s (by omega)

theorem arrayTypeSignature_step (hn : 8 * s.tp.length + 1 ≤ n + 1) :
    Decides reading 1 (ArrayTypeSignature .core) s.tp (parse_ArrayTypeSignature env (n + 1) s) := by
  rw [parse_ArrayTypeSignature]
  have hseq : Decides reading 1 (Comp (Terminal j_array) (TypeSignature .core)) s.tp
      (discard_utf16_expect j_array s >>= fun s =>
        parse_TypeSignature env n s >>= fun s => out_array_dim env s) := by
    refine seq (l := 1) (by omega) (discard_decides _ s) fun a hlen _ => ?_
    exact (ih.typeSignature a (by omega)).before fun b => out_line_ok hroom _ b
  refine hseq.of_iff fun t => ⟨?_, ?_⟩
  · rintro ⟨harray, h⟩
    exact ⟨_, harray, h⟩
  · rintro ⟨a, harray, h⟩
    exact .mk harray h

theorem simpleClassTypeSignature_step (hn : 8 * s.tp.length + 3 ≤ n + 1) :
    Decides reading 0 (Comp (Identifier .core) ArgumentsOpt) s.tp
      (parse_SimpleClassTypeSignature env (n + 1) s) := by
  rw [parse_SimpleClassTypeSignature]
  exact seq (by omega) (identifier_decides hroom n s (by omega)) fun a hlen _ =>
    ih.typeArguments_opt a (by omega)

theorem classTypeSignatureSuffix_step (hn : 8 * s.tp.length + 1 ≤ n + 1) :
    Decides reading 1 (Comp (Terminal j_field_dlm) (Comp (Identifier .core) ArgumentsOpt)) s.tp
      (parse_ClassTypeSignatureSuffix env (n + 1) s) := by
  rw [parse_ClassTypeSignatureSuffix]
  exact seq (by omega) (consume_decides hroom _ s) fun a hlen _ =>
    ih.simpleClassTypeSignature a (by omega)

theorem typeSignature_step (hn : 8 * s.tp.length + 4 ≤ n + 1) :
    Decides reading 1 (TypeSignature .core) s.tp (parse_TypeSignature env (n + 1) s) := by
  rw [parse_TypeSignature]
  by_cases hbase : is_BaseType (lookahead_utf16 s) = true
  · rw [if_pos hbase]
    refine (baseType_decides hroom s hbase).of_iff fun t => ⟨?_, .baseType⟩
    intro h
    cases h with
    | fieldType h =>
        obtain ⟨c, rest, htp, hc⟩ := is_BaseType_lookahead hbase
        rw [htp] at h
        rcases h.head with h | h | h <;> cases h <;> exact absurd hc (by decide)
    | baseType h => exact h
  · rw [if_neg hbase]
    refine (ih.fieldTypeSignature s (by omega)).of_iff fun t => ⟨?_, .fieldType⟩
    intro h
    cases h with
    | fieldType h => exact h
    | baseType h => exact absurd h (not_baseType hbase)

theorem typeArgument_step (hn : 8 * s.tp.length + 4 ≤ n + 1) :
    Decides reading 1 (TypeArgument .core) s.tp (parse_TypeArgument env (n + 1) s) := by
  rw [parse_TypeArgument]
  by_cases hwild : lookahead_utf16 s = j_wild
  · rw [if_pos hwild, hwild]
    refine ((discard_decides j_wild s).before fun a => out_cp_ok hroom _ a).of_iff fun t => ⟨?_, .wild⟩
    intro h
    rw [lookahead_eq_iff (by decide)] at hwild
    cases h with
    | wild h => exact h
    | bounded h _ => rcases h with h | h <;> exact absurd (hwild.symm.trans h.head) (by decide)
    | plain h => rcases h.head with h | h | h <;> exact absurd (hwild.symm.trans h) (by decide)
  rw [if_neg hwild]
  by_cases hbound : lookahead_utf16 s = j_wild_e ∨ lookahead_utf16 s = j_wild_s
  · rw [if_pos hbound]
    have hla : s.tp.head? = some (lookahead_utf16 s) := by
      refine (lookahead_eq_iff ?_).mp rfl
      rcases hbound with h | h <;> rw [h] <;> decide
    have hseq : Decides reading 1 (Comp (Terminal (lookahead_utf16 s)) (FieldTypeSignature .core)) s.tp
        (discard_utf16_expect (lookahead_utf16 s) s >>= fun a => out_cp env 0x3F a >>= fun a =>
          out_sfx env (if lookahead_utf16 s = j_wild_s then .super_ else .extends_) a >>= fun a =>
            parse_FieldTypeSignature env n a) := by
      refine seq (l := 1) (by omega) (discard_decides _ s) fun a hlen _ => ?_
      refine .after (out_cp_ok hroom _ a) fun b hb => ?_
      refine .after (hb ▸ out_sfx_ok hroom _ b) fun c hc => ?_
      rw [← hc]
      refine ih.fieldTypeSignature c ?_
      rw [show c.tp = a.tp from hc]
      omega
    refine hseq.of_iff fun t => ⟨?_, ?_⟩
    · intro h
      cases h with
      | wild h => exact absurd ((lookahead_eq_iff (by decide)).mpr h.head) hwild
      | bounded h hfield =>
          rcases h with h | h <;>
          · rw [(lookahead_eq_iff (by decide)).mpr h.head]
            exact ⟨_, h, hfield⟩
      | plain h =>
          rcases hbound with hbound | hbound <;> rw [hbound] at hla <;>
            rcases h.head with h | h | h <;> exact absurd (hla.symm.trans h) (by decide)
    · rintro ⟨a, ha, hfield⟩
      rcases hbound with hbound | hbound <;> rw [hbound] at ha
      · exact .bounded (.inl ha) hfield
      · exact .bounded (.inr ha) hfield
  rw [if_neg hbound]
  refine (ih.fieldTypeSignature s (by omega)).of_iff fun t => ⟨?_, .plain⟩
  intro h
  cases h with
  | wild h => exact absurd ((lookahead_eq_iff (by decide)).mpr h.head) hwild
  | bounded h _ =>
      refine absurd ?_ hbound
      rcases h with h | h
      · exact .inl ((lookahead_eq_iff (by decide)).mpr h.head)
      · exact .inr ((lookahead_eq_iff (by decide)).mpr h.head)
  | plain h => exact h

theorem typeArguments_step (hn : 8 * s.tp.length + 1 ≤ n + 1) :
    Decides reading 1 (TypeArguments .core) s.tp (parse_TypeArguments env (n + 1) s) := by
  rw [parse_TypeArguments]
  have hseq : Decides reading 1 (Comp (Terminal j_sign)
      (Comp (Until j_endsign (TransGen (TypeArgument .core))) (Terminal j_endsign))) s.tp
      (consume_utf16_expect env j_sign s >>= fun s => parse_TypeArguments.loop env n 0 s >>= fun s =>
        consume_utf16_expect env j_endsign s) := by
    refine seq (l := 1) (by omega) (consume_decides hroom _ s) fun a hlen _ => ?_
    exact seq (by omega) (ih.typeArgumentLoop 0 a (by omega)) fun b _ _ => consume_decides hroom _ b
  rw [comp_until] at hseq
  refine hseq.of_iff fun t => ⟨?_, ?_⟩
  · rintro ⟨hsign, h, hend⟩
    exact ⟨_, hsign, _, typeArgumentList_iff.mp h, hend⟩
  · rintro ⟨a, hsign, b, h, hend⟩
    exact .mk hsign (typeArgumentList_iff.mpr h) hend

omit hroom in
theorem typeArguments_opt_step (hn : 8 * s.tp.length + 2 ≤ n + 1) :
    Decides reading 0 ArgumentsOpt s.tp (parse_TypeArguments_opt env (n + 1) s) := by
  rw [parse_TypeArguments_opt]
  simp only [lookahead_eq_iff (show j_sign ≠ 0 by decide)]
  by_cases hsign : s.tp.head? = some j_sign
  · rw [if_pos hsign]
    refine ((ih.typeArguments s (by omega)).mono (by omega)).of_iff fun t => ?_
    rw [ArgumentsOpt, if_pos hsign]
  · rw [if_neg hsign]
    refine (Decides.skip (R := reading) (a := s) rfl).of_iff fun t => ?_
    rw [ArgumentsOpt, reading_rest, if_neg hsign]

theorem typeArgumentLoop_step (cnt : UInt32) (hn : 8 * s.tp.length + 5 ≤ n + 1) :
    Decides reading 1 (Until j_endsign (TransGen (TypeArgument .core))) s.tp
      (parse_TypeArguments.loop env (n + 1) cnt s) := by
  rw [parse_TypeArguments.loop]
  refine .after (separator_ok hroom _ s) fun a ha => ?_
  replace ha : a.tp = s.tp := ha
  rw [← ha]
  refine (seq (l := 0) (Q := Until j_endsign (ReflTransGen (TypeArgument .core))) (by omega)
    (ih.typeArgument a (by rw [ha]; omega)) fun b hlen _ => ?_).of_iff fun t => until_transGen_iff
  rw [ha] at hlen
  simp only [ne_eq, lookahead_eq_iff (show j_endsign ≠ 0 by decide)]
  by_cases hend : b.tp.head? = some j_endsign
  · rw [if_neg (not_not_intro hend)]
    exact (Decides.skip (R := reading) (a := b) rfl).of_iff
      fun t => until_reflTransGen_of_head (fun _ _ h => h.head_ne) hend
  · rw [if_pos hend]
    exact ((ih.typeArgumentLoop (cnt + 1) b (by omega)).mono (by omega)).of_iff
      fun t => until_reflTransGen_of_ne hend

omit hroom in
theorem class_desc_step (hn : 8 * s.tp.length + 1 ≤ n + 1) :
    Decides reading 2 (ClassTypeSignature .core) s.tp
      (parse_class_desc env (n + 1) true true s) := by
  rw [parse_class_desc]
  have hseq : Decides reading 2 (Comp (Terminal j_class) (Comp NamesRead (Terminal j_endclass))) s.tp
      (discard_utf16_expect j_class s >>= fun s => parse_class_desc.names env n true true s >>= fun s =>
        discard_utf16_expect j_endclass s) := by
    refine seq (l := 1) (by omega) (discard_decides _ s) fun a hlen _ => ?_
    exact seq (by omega) (ih.names a (by omega)) fun b _ _ => discard_decides _ b
  refine hseq.of_iff fun t => ⟨?_, ?_⟩
  · rintro ⟨hclass, h, hend⟩
    exact ⟨_, hclass, _, namesRead_of_className h hend.head, hend⟩
  · rintro ⟨a, hclass, b, h, hend⟩
    exact .mk hclass h.className hend

omit hroom in
theorem suffixes_step (hn : 8 * s.tp.length + 2 ≤ n + 1) :
    Decides reading 0 (Until j_endclass (ClassTypeSignatureSuffixes .core)) s.tp
      (parse_class_desc.suffixes env (n + 1) s) := by
  rw [parse_class_desc.suffixes]
  simp only [lookahead_eq_iff (show j_endclass ≠ 0 by decide),
    lookahead_eq_iff (show j_field_dlm ≠ 0 by decide)]
  by_cases hend : s.tp.head? = some j_endclass
  · rw [if_pos hend]
    refine (Decides.skip (R := reading) (a := s) rfl).of_iff fun t => ⟨?_, ?_⟩
    · rintro ⟨h, _⟩
      rcases h.head with h | h
      · exact h
      · exact absurd (hend.symm.trans h) (by decide)
    · rintro rfl
      exact ⟨.nil, hend⟩
  rw [if_neg hend]
  by_cases hdlm : s.tp.head? = some j_field_dlm
  · rw [if_pos hdlm]
    have hseq : Decides reading 0 (Comp (Comp (Terminal j_field_dlm) (Comp (Identifier .core) ArgumentsOpt))
        (Until j_endclass (ClassTypeSignatureSuffixes .core))) s.tp
        (parse_ClassTypeSignatureSuffix env n s >>= fun s => parse_class_desc.suffixes env n s) :=
      seq (by omega) (ih.classTypeSignatureSuffix s (by omega)) fun a hlen _ =>
        ih.suffixes a (by omega)
    refine hseq.of_iff fun t => ⟨?_, ?_⟩
    · rintro ⟨h, ht⟩
      cases h with
      | nil => exact absurd ht hend
      | cons h hs =>
          refine ⟨_, ?_, hs, ht⟩
          obtain ⟨hdlm, h⟩ := h
          refine ⟨_, hdlm, ?_⟩
          cases h with
          | plain hname =>
              refine ⟨_, hname, ?_⟩
              rw [ArgumentsOpt, if_neg]
              intro hsign
              rcases until_suffixes_head ⟨hs, ht⟩ with h | h <;>
                exact absurd (hsign.symm.trans h) (by decide)
          | generic hname hargs =>
              refine ⟨_, hname, ?_⟩
              rw [ArgumentsOpt, if_pos hargs.head]
              exact hargs
    · rintro ⟨a, ⟨b, hdlm, c, hname, hargs⟩, hs, ht⟩
      refine ⟨.cons (.mk hdlm ?_) hs, ht⟩
      rw [ArgumentsOpt] at hargs
      split at hargs
      · exact .generic hname hargs
      · exact hargs ▸ .plain hname
  rw [if_neg hdlm]
  refine .refused _ ⟨s, rfl⟩ fun t h => ?_
  rcases until_suffixes_head h with h | h
  · exact hend h
  · exact hdlm h

/-- What may follow an identifier in the first loop of `parse_class_desc`. -/
inductive NameEnd : List UInt16 → List UInt16 → Prop
  | package {a b t} (hdlm : Terminal j_clspath_dlm a b) (h : NamesRead b t) : NameEnd a t
  | generic {a t} (hargs : TypeArguments .core a t) : NameEnd a t
  | simple {a t} (h : Until j_endclass (ClassTypeSignatureSuffixes .core) a t) : NameEnd a t

omit hroom ih in
theorem comp_nameEnd_iff {s t : List UInt16} :
    NamesRead s t ↔ Comp (Identifier .core) NameEnd s t := by
  constructor
  · intro h
    cases h with
    | package hname hdlm h => exact ⟨_, hname, .package hdlm h⟩
    | generic hname hargs => exact ⟨_, hname, .generic hargs⟩
    | simple hname h => exact ⟨_, hname, .simple h⟩
  · rintro ⟨a, hname, h⟩
    cases h with
    | package hdlm h => exact .package hname hdlm h
    | generic hargs => exact .generic hname hargs
    | simple h => exact .simple hname h

omit hroom ih in
theorem NameEnd.head {a t : List UInt16} (h : NameEnd a t) :
    a.head? = some j_clspath_dlm ∨ a.head? = some j_sign ∨ a.head? = some j_field_dlm ∨
      a.head? = some j_endclass := by
  cases h with
  | package hdlm _ => exact .inl hdlm.head
  | generic hargs => exact .inr (.inl hargs.head)
  | simple h => exact .inr (.inr (until_suffixes_head h).symm)

theorem names_step (hn : 8 * s.tp.length + 3 ≤ n + 1) :
    Decides reading 0 NamesRead s.tp (parse_class_desc.names env (n + 1) true true s) := by
  rw [parse_class_desc.names]
  refine (seq (l := 0) (Q := NameEnd) (by omega) (identifier_decides hroom n s (by omega))
    fun a hlen _ => ?_).of_iff fun t => comp_nameEnd_iff
  simp only [lookahead_eq_iff (show j_clspath_dlm ≠ 0 by decide),
    lookahead_eq_iff (show j_sign ≠ 0 by decide), lookahead_eq_iff (show j_field_dlm ≠ 0 by decide),
    lookahead_eq_iff (show j_endclass ≠ 0 by decide)]
  by_cases hpath : a.tp.head? = some j_clspath_dlm
  · rw [if_pos hpath]
    have hseq : Decides reading 0 (Comp (Terminal j_clspath_dlm) NamesRead) a.tp
        (out_cp env 0x2E a >>= fun s => discard_utf16_expect j_clspath_dlm s >>= fun s =>
          parse_class_desc.names env n true true s) := by
      refine .after (out_cp_ok hroom _ a) fun b hb => ?_
      replace hb : b.tp = a.tp := hb
      rw [← hb]
      exact seq (by omega) (discard_decides _ b) fun c hlen' _ =>
        ih.names c (by rw [hb] at hlen'; omega)
    refine hseq.of_iff fun t => ⟨?_, ?_⟩
    · intro h
      cases h with
      | package hdlm h => exact ⟨_, hdlm, h⟩
      | generic hargs => exact absurd (hpath.symm.trans hargs.head) (by decide)
      | simple h => rcases until_suffixes_head h with h | h <;> exact absurd (hpath.symm.trans h) (by decide)
    · rintro ⟨b, hdlm, h⟩
      exact .package hdlm h
  rw [if_neg hpath]
  by_cases hsign : a.tp.head? = some j_sign
  · rw [if_pos hsign]
    refine ((ih.typeArguments a (by omega)).mono (by omega)).of_iff fun t => ⟨?_, .generic⟩
    intro h
    cases h with
    | package hdlm _ => exact absurd hdlm.head hpath
    | generic hargs => exact hargs
    | simple h => rcases until_suffixes_head h with h | h <;> exact absurd (hsign.symm.trans h) (by decide)
  rw [if_neg hsign]
  have hread : ∀ t, NameEnd a.tp t ↔ Until j_endclass (ClassTypeSignatureSuffixes .core) a.tp t := by
    refine fun t => ⟨?_, .simple⟩
    intro h
    cases h with
    | package hdlm _ => exact absurd hdlm.head hpath
    | generic hargs => exact absurd hargs.head hsign
    | simple h => exact h
  by_cases hdlm : a.tp.head? = some j_field_dlm
  · rw [if_pos hdlm]
    exact (ih.suffixes a (by omega)).of_iff hread
  rw [if_neg hdlm]
  by_cases hend : a.tp.head? = some j_endclass
  · rw [if_pos hend]
    refine (Decides.skip (R := reading) (a := a) rfl).of_iff fun t => (hread t).trans ⟨?_, ?_⟩
    · rintro ⟨h, _⟩
      exact h.head.resolve_right hdlm
    · rintro rfl
      exact ⟨.nil, hend⟩
  rw [if_neg hend, if_neg (by simp)]
  refine .refused _ ⟨a, rfl⟩ fun t h => ?_
  rcases h.head with h | h | h | h
  · exact hpath h
  · exact hsign h
  · exact hdlm h
  · exact hend h

end Step

theorem typesDecided {env : Env} (hroom : ∀ out, env.putproc out ≠ 0) (n : Nat) :
    TypesDecided env n := by
  induction n with
  | zero => constructor <;> intros <;> omega
  | succ n ih =>
      exact {
        fieldTypeSignature := fieldTypeSignature_step hroom ih
        classTypeSignature := classTypeSignature_step ih
        arrayTypeSignature := arrayTypeSignature_step hroom ih
        simpleClassTypeSignature := simpleClassTypeSignature_step hroom ih
        classTypeSignatureSuffix := classTypeSignatureSuffix_step hroom ih
        typeSignature := typeSignature_step hroom ih
        typeArgument := typeArgument_step hroom ih
        typeArguments := typeArguments_step hroom ih
        typeArgumentLoop := fun cnt s => typeArgumentLoop_step hroom ih s cnt
        typeArguments_opt := typeArguments_opt_step ih
        class_desc := class_desc_step ih
        names := names_step hroom ih
        suffixes := suffixes_step ih }

end IdaSdk.JavaSig
