import IdaSdk.JavaSigCorrect

/-!
The productions that `format` reads, on top of the types. `accepted_iff_readable` is the exact
language of the formatter, and `Readable.lenient` puts it below the grammar of the comments with
empty names and with signatures in descriptors.
-/

namespace IdaSdk.JavaSig
open Recogniser Relation

variable {s t : List UInt16}

variable {d : Dialect}

theorem ClassBound.head (h : ClassBound d s t) : s.head? = some j_tag := by
  cases h with
  | typed htag _ => exact htag.head
  | empty htag _ => exact htag.head

theorem InterfaceBound.head (h : InterfaceBound d s t) : s.head? = some j_tag := by
  obtain ⟨a, htag, _⟩ := h
  exact htag.head

theorem Identifier.eq_of_stop {c : UInt16} (h : Identifier .core s t) (hc : c ∈ identifierStops)
    (hs : s.head? = some c) : t = s := by
  rw [identifier_core_iff.mp h]
  cases s with
  | nil => rfl
  | cons e rest =>
      rw [List.head?_cons, Option.some.injEq] at hs
      rw [List.dropWhile_cons_of_neg (by simpa [hs] using hc)]

theorem FormalTypeParameter.head_ne (h : FormalTypeParameter .core s t) :
    s.head? ≠ some j_endsign := by
  intro hend
  obtain ⟨a, hname, b, hbound, _⟩ := h
  rw [hname.eq_of_stop (by decide) hend] at hbound
  exact absurd (hend.symm.trans hbound.head) (by decide)

theorem FormalTypeParameters.head (h : FormalTypeParameters d s t) :
    s.head? = some j_sign := by
  obtain ⟨a, hsign, _⟩ := h
  exact hsign.head

theorem objectType_core_iff : ObjectType .core s t ↔ ClassTypeSignature .core s t := by
  simp [ObjectType, Dialect.core]

theorem FieldType.head (h : FieldType .core s t) :
    (∃ c ∈ baseTypes, s.head? = some c) ∨ s.head? = some j_class ∨ s.head? = some j_array := by
  cases h with
  | base h => exact .inl h.head
  | object h => exact .inr (.inl (objectType_core_iff.1 h).head)
  | array harray _ => exact .inr (.inr harray.head)

theorem FieldType.head_ne {c : UInt16} (h : FieldType .core s t)
    (hc : c ∉ baseTypes ∧ c ≠ j_class ∧ c ≠ j_array) : s.head? ≠ some c := by
  rintro hs
  rcases h.head with ⟨e, he, h⟩ | h | h
  · exact hc.1 (Option.some.inj (hs.symm.trans h) ▸ he)
  · exact hc.2.1 (Option.some.inj (hs.symm.trans h))
  · exact hc.2.2 (Option.some.inj (hs.symm.trans h))

theorem TypeSignature.head_ne (h : TypeSignature d s t) : s.head? ≠ some j_void_ret := by
  intro hs
  cases h with
  | fieldType h => rcases h.head with h | h | h <;> exact absurd (hs.symm.trans h) (by decide)
  | baseType h =>
      obtain ⟨c, hc, h⟩ := h.head
      exact absurd (Option.some.inj (hs.symm.trans h) ▸ hc) (by decide)

/-- `FieldTypeSignature_opt`, as `parse_ClassBound` decides it by one symbol ahead. -/
def BoundOpt : Phrase UInt16 := fun s t =>
  if s.head? = some j_tag then t = s else FieldTypeSignature .core s t

section Accept

variable {env : Env} (hroom : ∀ out, env.putproc out ≠ 0) (n : Nat) (s : State)
include hroom

/-! ### Formal type parameters -/

theorem classBound_decides (hn : 8 * s.tp.length ≤ n) :
    Decides reading 1 (ClassBound .core) s.tp (parse_ClassBound env n s) := by
  unfold parse_ClassBound
  have hseq : Decides reading 1 (Comp (Terminal j_tag) BoundOpt) s.tp
      (discard_utf16_expect j_tag s >>= fun s =>
        if lookahead_utf16 s ≠ j_tag then
          out_sfx env .extends_ s >>= fun s => parse_FieldTypeSignature env n s
        else .ok s) := by
    refine seq (l := 0) (by omega) (discard_decides _ s) fun a hlen _ => ?_
    simp only [ne_eq, lookahead_eq_iff (show j_tag ≠ 0 by decide)]
    by_cases htag : a.tp.head? = some j_tag
    · rw [if_neg (not_not_intro htag)]
      exact (Decides.skip (R := reading) (a := a) rfl).of_iff
        fun t => by rw [BoundOpt, reading_rest, if_pos htag]
    rw [if_pos htag]
    refine .after (out_sfx_ok hroom _ a) fun b hb => ?_
    replace hb : b.tp = a.tp := hb
    rw [← hb] at hlen htag ⊢
    exact (((typesDecided hroom n).fieldTypeSignature b (by omega)).mono (by omega)).of_iff
      fun t => by rw [BoundOpt, if_neg htag]
  refine hseq.of_iff fun t => ⟨?_, ?_⟩
  · intro h
    cases h with
    | typed htag h =>
        refine ⟨_, htag, ?_⟩
        rw [BoundOpt, if_neg]
        · exact h
        · intro hs
          rcases h.head with h | h | h <;> exact absurd (hs.symm.trans h) (by decide)
    | empty htag hnext => exact ⟨t, htag, by rw [BoundOpt, if_pos (hnext rfl)]⟩
  · rintro ⟨a, htag, h⟩
    rw [BoundOpt] at h
    split at h
    · next hnext => exact h ▸ .empty htag fun _ => hnext
    · exact .typed htag h

theorem interfaceBound_decides (hn : 8 * s.tp.length ≤ n) :
    Decides reading 2 (InterfaceBound .core) s.tp (parse_InterfaceBound env n s) := by
  unfold parse_InterfaceBound
  refine seq (l := 1) (by omega) (discard_decides _ s) fun a hlen _ => ?_
  refine .after (out_sfx_ok hroom _ a) fun b hb => ?_
  replace hb : b.tp = a.tp := hb
  rw [← hb] at hlen ⊢
  exact (typesDecided hroom n).fieldTypeSignature b (by omega)

omit hroom in
theorem interfaceBounds_iff {s t : List UInt16} :
    InterfaceBounds .core s t ↔ NotBefore j_tag (ReflTransGen (InterfaceBound .core)) s t := by
  simp [InterfaceBounds, NotBefore, Dialect.core]

theorem interfaceBounds_decides (hn : 8 * s.tp.length + 1 ≤ n) :
    Decides reading 0 (InterfaceBounds .core) s.tp (parse_FormalTypeParameter.bounds env n s) := by
  induction n generalizing s with
  | zero => omega
  | succ n ih =>
      rw [parse_FormalTypeParameter.bounds]
      have hdone (hs : s.tp.head? ≠ some j_tag) :
          Decides reading 0 (InterfaceBounds .core) s.tp (.ok s) :=
        (Decides.skip (R := reading) (a := s) rfl).of_iff fun t => by
          rw [interfaceBounds_iff, reading_rest]
          exact notBefore_reflTransGen_of_ne (fun _ _ h => h.head) hs
      by_cases hnil : s.tp = []
      · rw [if_pos hnil]
        exact hdone (by simp [hnil])
      rw [if_neg hnil]
      simp only [ne_eq, lookahead_eq_iff (show j_tag ≠ 0 by decide)]
      by_cases htag : s.tp.head? = some j_tag
      · rw [if_neg (not_not_intro htag)]
        refine (seq (l := 0) (by omega) (interfaceBound_decides hroom n s (by omega))
          fun a hlen _ => ih a (by omega)).of_iff fun t => ?_
        rw [interfaceBounds_iff, notBefore_reflTransGen_of_head htag]
        simp only [Comp, interfaceBounds_iff]
      · rw [if_pos htag]
        exact hdone htag

theorem formalTypeParameter_decides (hn : 8 * s.tp.length + 1 ≤ n) :
    Decides reading 1 (FormalTypeParameter .core) s.tp (parse_FormalTypeParameter env n s) := by
  unfold parse_FormalTypeParameter
  refine seq (l := 1) (by omega) (identifier_decides hroom n s (by omega)) fun a hlen _ => ?_
  exact seq (by omega) (classBound_decides hroom n a (by omega)) fun b hlen' _ =>
    interfaceBounds_decides hroom n b (by omega)

variable (cnt : UInt32)

theorem formalTypeParameterLoop_decides (hn : 8 * s.tp.length + 2 ≤ n) :
    Decides reading 1 (Until j_endsign (TransGen (FormalTypeParameter .core))) s.tp
      (parse_FormalTypeParameters.loop env n cnt s) := by
  induction n generalizing s cnt with
  | zero => omega
  | succ n ih =>
      rw [parse_FormalTypeParameters.loop]
      refine .after (separator_ok hroom _ s) fun a ha => ?_
      replace ha : a.tp = s.tp := ha
      rw [← ha] at hn ⊢
      refine (seq (l := 0) (Q := Until j_endsign (ReflTransGen (FormalTypeParameter .core))) (by omega)
        (formalTypeParameter_decides hroom n a (by omega)) fun b hlen _ => ?_).of_iff
        fun t => until_transGen_iff
      simp only [lookahead_eq_iff (show j_endsign ≠ 0 by decide)]
      by_cases hend : b.tp.head? = some j_endsign
      · rw [if_pos hend]
        exact (Decides.skip (R := reading) (a := b) rfl).of_iff
          fun t => until_reflTransGen_of_head (fun _ _ h => h.head_ne) hend
      · rw [if_neg hend]
        exact ((ih b (cnt + 2) (by omega)).mono (by omega)).of_iff
          fun t => until_reflTransGen_of_ne hend

theorem formalTypeParameters_decides (hn : 8 * s.tp.length ≤ n) :
    Decides reading 1 (FormalTypeParameters .core) s.tp (parse_FormalTypeParameters env n s) := by
  unfold parse_FormalTypeParameters FormalTypeParameters
  refine seq (l := 1) (by omega) (consume_decides hroom _ s) fun a hlen _ => ?_
  rw [← comp_until]
  exact seq (by omega) (formalTypeParameterLoop_decides hroom n a 0 (by omega)) fun b _ _ =>
    consume_decides hroom _ b

theorem classTypeSignature_decides (hn : 8 * s.tp.length + 2 ≤ n) :
    Decides reading 2 (ClassTypeSignature .core) s.tp (parse_ClassTypeSignature env n s) :=
  (typesDecided hroom n).classTypeSignature s hn

theorem interfaces_decides (impl_cnt : UInt32) (hn : 8 * s.tp.length + 3 ≤ n) :
    Decides reading 0 (NotBefore j_class (ReflTransGen (ClassTypeSignature .core))) s.tp
      (parse_ClassSignature.interfaces env n impl_cnt s) := by
  induction n generalizing s impl_cnt with
  | zero => omega
  | succ n ih =>
      rw [parse_ClassSignature.interfaces]
      simp only [lookahead_eq_iff (show j_class ≠ 0 by decide)]
      by_cases hclass : s.tp.head? = some j_class
      · rw [if_pos hclass]
        refine .after (sfx_or_sep_ok hroom .implements_ (impl_cnt = 0) s) fun a ha => ?_
        replace ha : a.tp = s.tp := ha
        rw [← ha] at hn hclass ⊢
        exact (seq (l := 0) (by omega) (classTypeSignature_decides hroom n a (by omega))
          fun b hlen _ => ih b (impl_cnt + 1) (by omega)).of_iff
          fun t => notBefore_reflTransGen_of_head hclass
      · rw [if_neg hclass]
        exact (Decides.skip (R := reading) (a := s) rfl).of_iff
          fun t => notBefore_reflTransGen_of_ne (fun _ _ h => h.head) hclass

/-- What `parse_ClassSignature` reads behind formal type parameters. -/
def SupertypesRead : Phrase UInt16 :=
  Comp (ClassTypeSignature .core) (NotBefore j_class (ReflTransGen (ClassTypeSignature .core)))

theorem classSignature_decides (hn : 8 * s.tp.length ≤ n) (hsign : s.tp.head? = some j_sign) :
    Decides reading 1 (Comp (FormalTypeParameters .core) SupertypesRead) s.tp
      (parse_ClassSignature env n s) := by
  unfold parse_ClassSignature
  simp only [lookahead_eq_iff (show j_sign ≠ 0 by decide)]
  rw [if_pos hsign]
  refine seq (l := 2) (by omega) (formalTypeParameters_decides hroom n s hn) fun a hlen _ => ?_
  refine .after (out_sfx_ok hroom _ a) fun b hb => ?_
  replace hb : b.tp = a.tp := hb
  rw [← hb] at hlen ⊢
  exact seq (by omega) (classTypeSignature_decides hroom n b (by omega)) fun c hlen' _ =>
    interfaces_decides hroom n c 0 (by omega)

theorem void_decides : Decides reading 1 VoidDescriptor s.tp (parse_void env s) := by
  unfold parse_void
  refine .after (out_line_ok hroom _ s) fun a ha => ?_
  replace ha : a.tp = s.tp := ha
  rw [← ha]
  exact discard_decides _ a

theorem orVoid_decides {P : Phrase UInt16} {x : Result} (hP : ∀ t, P s.tp t → s.tp.head? ≠ some j_void_ret)
    (hx : Decides reading 1 P s.tp x) :
    Decides reading 1 (fun s t => P s t ∨ VoidDescriptor s t) s.tp
      (if lookahead_utf16 s = j_void_ret then parse_void env s else x) := by
  simp only [lookahead_eq_iff (show j_void_ret ≠ 0 by decide)]
  by_cases hvoid : s.tp.head? = some j_void_ret
  · rw [if_pos hvoid]
    exact (void_decides hroom s).of_iff fun t => or_iff_right fun h => hP t h hvoid
  · rw [if_neg hvoid]
    exact hx.of_iff fun t => or_iff_left fun h => hvoid (Terminal.head h)

theorem returnType_decides (hn : 8 * s.tp.length + 4 ≤ n) :
    Decides reading 1 (ReturnType .core) s.tp (parse_ReturnType env n s) :=
  orVoid_decides hroom s (fun _ h => h.head_ne) ((typesDecided hroom n).typeSignature s hn)

def ThrowsList : Phrase UInt16 := fun s t => ReflTransGen (ThrowsSignature .core) s t ∧ t = []

theorem throwsSignature_decides (hn : 8 * s.tp.length + 1 ≤ n) :
    Decides reading 0 ThrowsList s.tp (parse_ThrowsSignature env n cnt s) := by
  induction n generalizing s cnt with
  | zero => omega
  | succ n ih =>
      rw [parse_ThrowsSignature]
      by_cases hnil : s.tp = []
      · rw [if_pos hnil]
        refine (Decides.skip (R := reading) (a := s) rfl).of_iff fun t => ?_
        rw [reading_rest, hnil]
        exact ⟨And.right, fun h => ⟨h ▸ .refl, h⟩⟩
      rw [if_neg hnil]
      have hseq : Decides reading 0 (Comp (Comp (Terminal j_throw) (fun s t =>
          ClassTypeSignature .core s t ∨ TypeVariableSignature .core s t)) ThrowsList) s.tp
          (discard_utf16_expect j_throw s >>= fun s =>
            (if cnt = 0 then out_sfx env .throws_ s else out_param_sep env s) >>= fun s =>
            (if lookahead_utf16 s = j_class then parse_ClassTypeSignature env n s
              else parse_TypeVariableSignature env n s) >>= fun s =>
            parse_ThrowsSignature env n (cnt + 1) s) := by
        rw [Relation.comp_assoc]
        refine seq (l := 0) (by omega) (discard_decides _ s) fun a hlen _ => ?_
        refine .after (sfx_or_sep_ok hroom .throws_ (cnt = 0) a) fun b hb => ?_
        replace hb : b.tp = a.tp := hb
        rw [← hb] at hlen ⊢
        refine seq (k := 1) (by omega) ?_ fun c hlen' _ => ih c (cnt + 1) (by omega)
        simp only [lookahead_eq_iff (show j_class ≠ 0 by decide)]
        by_cases hclass : b.tp.head? = some j_class
        · rw [if_pos hclass]
          exact ((classTypeSignature_decides hroom n b (by omega)).mono (by omega)).of_iff
            fun t => or_iff_left fun h => absurd (hclass.symm.trans h.head) (by decide)
        · rw [if_neg hclass]
          exact ((typeVariableSignature_decides hroom n b (by omega)).mono (by omega)).of_iff
            fun t => or_iff_right fun h => hclass h.head
      refine hseq.of_iff fun t => ⟨?_, ?_⟩
      · rintro ⟨h, rfl⟩
        rcases ReflTransGen.cases_head h with h | ⟨a, ha, h⟩
        · exact absurd h hnil
        · exact ⟨a, ha, h, rfl⟩
      · rintro ⟨a, ha, h, hend⟩
        exact ⟨.head ha h, hend⟩

theorem fieldType_decides : ∀ (n : Nat) (s : State), (8 * s.tp.length + 2 ≤ n →
    Decides reading 1 (FieldType .core) s.tp (parse_FieldType env n s)) := by
  intro n
  induction n using Nat.strongRecOn with
  | _ n ih =>
  intro s hn
  obtain ⟨n, rfl⟩ : ∃ m, n = m + 1 := ⟨n - 1, by omega⟩
  rw [parse_FieldType]
  simp only [lookahead_eq_iff (show j_class ≠ 0 by decide),
    lookahead_eq_iff (show j_array ≠ 0 by decide)]
  by_cases hclass : s.tp.head? = some j_class
  · rw [if_pos hclass]
    refine (((typesDecided hroom n).class_desc s (by omega)).mono (by omega)).of_iff fun t => ⟨?_, ?_⟩
    · intro h
      cases h with
      | base h =>
          obtain ⟨c, hc, h⟩ := h.head
          exact absurd (Option.some.inj (hclass.symm.trans h) ▸ hc) (by decide)
      | object h => exact objectType_core_iff.mp h
      | array harray _ => exact absurd (hclass.symm.trans harray.head) (by decide)
    · exact fun h => .object (objectType_core_iff.mpr h)
  rw [if_neg hclass]
  by_cases harray : s.tp.head? = some j_array
  · rw [if_pos harray]
    have hpos : 0 < s.tp.length := by
      cases htp : s.tp with
      | nil => simp [htp] at harray
      | cons c rest => simp
    obtain ⟨n, rfl⟩ : ∃ m, n = m + 1 := ⟨n - 1, by omega⟩
    rw [parse_ArrayType]
    have hseq : Decides reading 1 (Comp (Terminal j_array) (FieldType .core)) s.tp
        (discard_utf16_expect j_array s >>= fun s =>
          parse_FieldType env n s >>= fun s => out_array_dim env s) := by
      refine seq (l := 1) (by omega) (discard_decides _ s) fun a hlen _ => ?_
      exact (ih n (by omega) a (by omega)).before fun b => out_line_ok hroom _ b
    refine hseq.of_iff fun t => ⟨?_, ?_⟩
    · intro h
      cases h with
      | base h =>
          obtain ⟨c, hc, h⟩ := h.head
          exact absurd (Option.some.inj (harray.symm.trans h) ▸ hc) (by decide)
      | object h => exact absurd (objectType_core_iff.mp h).head hclass
      | array harray h => exact ⟨_, harray, h⟩
    · rintro ⟨a, harray, h⟩
      exact .array harray h
  rw [if_neg harray]
  by_cases hbase : is_BaseType (lookahead_utf16 s) = true
  · rw [if_neg (by simp [hbase])]
    refine (baseType_decides hroom s hbase).of_iff fun t => ⟨?_, .base⟩
    intro h
    cases h with
    | base h => exact h
    | object h => exact absurd (objectType_core_iff.mp h).head hclass
    | array h _ => exact absurd h.head harray
  · rw [if_pos (by simpa using hbase)]
    refine .refused _ ⟨s, rfl⟩ fun t h => ?_
    cases h with
    | base h => exact not_baseType hbase h
    | object h => exact hclass (objectType_core_iff.mp h).head
    | array h _ => exact harray h.head

theorem returnDescriptor_decides (hn : 8 * s.tp.length + 2 ≤ n) :
    Decides reading 1 (ReturnDescriptor .core) s.tp (parse_ReturnDescriptor env n s) :=
  orVoid_decides hroom s (fun _ h => h.head_ne (by decide)) (fieldType_decides hroom n s hn)

theorem methodDescriptorLoop_decides (hn : 8 * s.tp.length + 3 ≤ n) :
    Decides reading 0 (Until j_parm_list_end (ReflTransGen (FieldType .core))) s.tp
      (parse_MethodDescriptor.loop env n cnt s) := by
  induction n generalizing s cnt with
  | zero => omega
  | succ n ih =>
      rw [parse_MethodDescriptor.loop]
      simp only [ne_eq, lookahead_eq_iff (show j_parm_list_end ≠ 0 by decide)]
      by_cases hend : s.tp.head? = some j_parm_list_end
      · rw [if_neg (not_not_intro hend)]
        exact (Decides.skip (R := reading) (a := s) rfl).of_iff
          fun t => until_reflTransGen_of_head (fun _ _ h => h.head_ne (by decide)) hend
      rw [if_pos hend]
      refine .after (separator_ok hroom _ s) fun a ha => ?_
      replace ha : a.tp = s.tp := ha
      rw [← ha] at hn hend ⊢
      refine (seq (l := 0) (by omega) (fieldType_decides hroom n a (by omega))
        fun b hlen _ => ih b (cnt + 1) (by omega)).of_iff fun t => ?_
      rw [until_reflTransGen_of_ne hend, until_transGen_iff]

theorem methodDescriptor_decides (hn : 8 * s.tp.length + 2 ≤ n) :
    Decides reading 1 (MethodDescriptor .core) s.tp (parse_MethodDescriptor env n s) := by
  unfold parse_MethodDescriptor MethodDescriptor
  refine seq (l := 1) (by omega) (consume_decides hroom _ s) fun a hlen _ => ?_
  rw [← Relation.comp_assoc, ← comp_until, Relation.comp_assoc]
  refine seq (l := 1) (by omega) (methodDescriptorLoop_decides hroom n a 0 (by omega)) fun b hlen' _ => ?_
  exact seq (by omega) (consume_decides hroom _ b) fun c hlen'' _ =>
    returnDescriptor_decides hroom n c (by omega)

omit hroom in
theorem format_classSignature_eq : Production.classSignature.parse env n s =
    if lookahead_utf16 s = j_class then parse_ClassTypeSignature env n s
    else if lookahead_utf16 s = j_sign then parse_ClassSignature env n s
    else .error (.rejected s) := rfl

theorem production_decides (p : Production) (hn : 8 * s.tp.length + 8 ≤ n) :
    ∃ Q, Decides reading 0 Q s.tp (p.parse env n s) ∧ ((∃ t, Q s.tp t) ↔ p.Readable .core s.tp) := by
  have hplain : ∀ Q : Phrase UInt16, (∃ t, Q s.tp t) ↔ ∃ t, Q s.tp t ∧ True := by simp
  cases p with
  | classSignature =>
      rw [format_classSignature_eq]
      simp only [lookahead_eq_iff (show j_class ≠ 0 by decide),
        lookahead_eq_iff (show j_sign ≠ 0 by decide)]
      by_cases hclass : s.tp.head? = some j_class
      · rw [if_pos hclass]
        refine ⟨_, (classTypeSignature_decides hroom n s (by omega)).mono (by omega), ?_, ?_⟩
        · rintro ⟨t, h⟩
          exact ⟨t, .inl ⟨t, h, .refl⟩, fun hsign => absurd (hclass.symm.trans hsign) (by decide)⟩
        · rintro ⟨t, h | ⟨a, h, _⟩, _⟩
          · obtain ⟨a, h, _⟩ := h
            exact ⟨a, h⟩
          · exact absurd (hclass.symm.trans h.head) (by decide)
      rw [if_neg hclass]
      by_cases hsign : s.tp.head? = some j_sign
      · rw [if_pos hsign]
        refine ⟨_, (classSignature_decides hroom n s (by omega) hsign).mono (by omega), ?_, ?_⟩
        · rintro ⟨t, a, hparams, b, h, hs, hend⟩
          exact ⟨t, .inr ⟨a, hparams, b, h, hs⟩, fun _ => hend⟩
        · rintro ⟨t, h | ⟨a, hparams, b, h, hs⟩, hend⟩
          · obtain ⟨a, h, _⟩ := h
            exact absurd h.head hclass
          · exact ⟨t, a, hparams, b, h, hs, hend hsign⟩
      rw [if_neg hsign]
      refine ⟨fun _ _ => False, .refused _ ⟨s, rfl⟩ fun _ h => h, ?_, ?_⟩
      · rintro ⟨t, h⟩
        exact h.elim
      · rintro ⟨t, h | ⟨a, h, _⟩, _⟩
        · obtain ⟨a, h, _⟩ := h
          exact absurd h.head hclass
        · exact absurd h.head hsign
  | fieldDescriptor =>
      refine ⟨FieldType .core, ?_, hplain _⟩
      exact ((fieldType_decides hroom n s (by omega)).mono (by omega)).before
        fun a => out_cp_ok hroom _ a
  | methodDescriptor =>
      exact ⟨_, (methodDescriptor_decides hroom n s (by omega)).mono (by omega), hplain _⟩
  | formalTypeParameters =>
      exact ⟨_, (formalTypeParameters_decides hroom n s (by omega)).mono (by omega), hplain _⟩
  | returnType =>
      exact ⟨_, (returnType_decides hroom n s (by omega)).mono (by omega), hplain _⟩
  | throwsList => exact ⟨_, throwsSignature_decides hroom n s 0 (by omega), Iff.rfl⟩

end Accept

/-- A run that ends well, or with a refusal; not by reading behind the end or for want of fuel. -/
def Ends (r : Result) (verdict : Bool) : Prop :=
  if verdict then ∃ a, r = .ok a else ∃ a, r = .error (.rejected a)

theorem ends_readable {env : Env} (hroom : ∀ out, env.putproc out ≠ 0) (p : Production) (s : State)
    {n : Nat} (hn : 8 * s.tp.length + 8 ≤ n) {verdict : Bool}
    (hv : verdict = true ↔ p.Readable .core s.tp) : Ends (p.parse env n s) verdict := by
  obtain ⟨Q, hQ, hread⟩ := production_decides hroom n s p hn
  have hok := hQ.isOk_iff.trans (hread.trans hv.symm)
  unfold Ends
  split
  · next h => exact hok.mpr h
  · next h =>
      rcases hQ.ends with hacc | ⟨e, ⟨a, rfl⟩, he⟩
      · exact absurd (hok.mp hacc) h
      · exact ⟨a, he⟩

/-- On every string the formatter stops with one verdict, for all fuel from a bound linear in the
length on, without reading behind the end. It accepts what the core dialect can read off the front
and nothing that the lenient dialect cannot. -/
theorem verdict_between {env : Env} (hroom : ∀ out, env.putproc out ≠ 0) (p : Production) (s : State) :
    ∃ verdict : Bool, (∀ n, 8 * s.tp.length + 8 ≤ n → Ends (p.parse env n s) verdict) ∧
      (p.Readable .core s.tp → verdict = true) ∧ (verdict = true → p.Readable .lenient s.tp) := by
  classical
  refine ⟨decide (p.Readable .core s.tp), fun n hn => ?_, ?_, ?_⟩
  · exact ends_readable hroom p s hn (by rw [decide_eq_true_iff])
  · exact fun h => decide_eq_true_iff.mpr h
  · exact fun h => (decide_eq_true_iff.mp h).mono Dialect.core_within_lenient

/-- A listing with lines of eighty characters that takes every line. -/
def wideListing : Env := ⟨fun _ => true, fun _ => 80⟩

theorem verdict_between_innerClass : ∃ verdict : Bool,
    (∀ n, 48 ≤ n → Ends (Production.fieldDescriptor.parse wideListing n
      ⟨[j_array, j_class, 0x41, j_endclass, j_int], 80, 0, []⟩) verdict) ∧
    (Production.Readable .core .fieldDescriptor [j_array, j_class, 0x41, j_endclass, j_int] →
      verdict = true) ∧
    (verdict = true →
      Production.Readable .lenient .fieldDescriptor [j_array, j_class, 0x41, j_endclass, j_int]) :=
  verdict_between (fun _ => by simp [wideListing]) .fieldDescriptor
    ⟨[j_array, j_class, 0x41, j_endclass, j_int], 80, 0, []⟩

/-- `II` has text behind the descriptor, `L;` has no name, and `LA<TB;>;` is a signature in the place
of a descriptor: none belongs to the grammar of the comments, and all are accepted. -/
theorem accepted_outside_jvm :
    (Ends (Production.fieldDescriptor.parse wideListing 99 ⟨[j_int, j_int], 80, 0, []⟩) true ∧
      ¬ Production.InGrammar .jvm .fieldDescriptor [j_int, j_int]) ∧
    (Ends (Production.classSignature.parse wideListing 99 ⟨[j_class, j_endclass], 80, 0, []⟩) true ∧
      ¬ Production.InGrammar .jvm .classSignature [j_class, j_endclass]) ∧
    (Ends (Production.fieldDescriptor.parse wideListing 99
        ⟨[j_class, 0x41, j_sign, j_typeref, 0x42, j_endclass, j_endsign, j_endclass], 80, 0, []⟩) true ∧
      ¬ Production.InGrammar .jvm .fieldDescriptor
        [j_class, 0x41, j_sign, j_typeref, 0x42, j_endclass, j_endsign, j_endclass]) := by
  refine ⟨⟨⟨_, rfl⟩, ?_⟩, ⟨⟨_, rfl⟩, ?_⟩, ⟨⟨_, rfl⟩, ?_⟩⟩
  · intro h
    cases h with
    | base h =>
        obtain ⟨c, _, h⟩ := h
        cases h
    | object h =>
        obtain ⟨a, h, _⟩ := h
        exact absurd h.head (by decide)
    | array h _ => exact absurd h.head (by decide)
  · rintro (⟨a, h, _⟩ | ⟨a, h, _⟩)
    · cases h with
      | mk hclass hname _ =>
          obtain rfl := (terminal_cons.mp hclass).2
          have hempty : ∀ u, ¬ Identifier .jvm [j_endclass] u := fun u hu => hu.2 rfl hu.1
          cases hname with
          | package h _ _ => exact hempty _ h
          | simple h _ => exact hempty _ h
          | generic h _ _ _ => exact hempty _ h
    · exact absurd h.head (by decide)
  · intro h
    cases h with
    | base h =>
        obtain ⟨c, hc, h⟩ := h
        rw [← (List.cons.inj h).1] at hc
        exact absurd hc (by decide)
    | object h =>
        obtain ⟨a, hclass, b, ⟨c, hpath, hname⟩, hend⟩ := h
        obtain rfl := (terminal_cons.mp hclass).2
        -- the name runs up to `;`, where neither `/` nor the end of the string is
        rcases ReflTransGen.cases_head hpath with rfl | ⟨e, ⟨f, hname, hdlm⟩, _⟩
        · rw [hname.1] at hend
          exact absurd hend (by simp [Terminal]; decide)
        · rw [hname.1] at hdlm
          exact absurd hdlm.head (by decide)
    | array h _ => exact absurd h.head (by decide)

end IdaSdk.JavaSig
