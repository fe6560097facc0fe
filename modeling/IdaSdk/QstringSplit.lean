import IdaSdk.QstringScan

/-!
Splitting a string and joining the parts. The loop of `split` cuts at the leftmost occurrences of the separator up to the
first NUL; an empty part at the end is added if the string ends with the separator, even if that occurrence overlaps the
last cut. `join` omits the separators before the first part that is not empty.
-/

namespace IdaSdk.Qstring
open LibOccurrences

variable {α : Type} [Zero α] [DecidableEq α] {s v : List α} {sep : CString α} {parts : List (List α)}

/-! ### The loop -/

variable {drop_empty : Bool}

theorem split_loop_nil (hs : s ≠ []) (fuel : Nat) (out : List (List α)) :
    split_loop [] drop_empty fuel s out = none := by
  induction fuel generalizing out with
  | zero => rfl
  | succ fuel ih =>
      rw [split_loop, if_neg hs, qstrstr_nil]
      exact ih _

/-- The parts that the loop finds, without its accumulator. -/
inductive Pieces (sep : List α) : List α → List (List α) → Prop
  | done : Pieces sep [] []
  | cut {p rest : List α} {rem : Nat} {parts : List (List α)} (hp : p ≠ []) (h : qstrstr p sep = some rem)
      (hrest : rest = p.drop (rem + sep.length)) (more : Pieces sep rest parts) : Pieces sep p (p.take rem :: parts)
  | last {p : List α} (hp : p ≠ []) (h : qstrstr p sep = none) : Pieces sep p [p]

variable {t : List α}

theorem Pieces.unique {parts' : List (List α)} (h : Pieces t s parts) (h' : Pieces t s parts') :
    parts = parts' := by
  induction h generalizing parts' with
  | done =>
      cases h' with
      | done => rfl
      | cut hp _ _ _ => exact absurd rfl hp
      | last hp _ => exact absurd rfl hp
  | cut hp hfound hrest _ ih =>
      cases h' with
      | done => exact absurd rfl hp
      | cut _ hfound' hrest' more' =>
          obtain rfl := Option.some.inj (hfound.symm.trans hfound')
          subst hrest hrest'
          rw [ih more']
      | last _ hnone => cases hfound.symm.trans hnone
  | last hp hnone =>
      cases h' with
      | done => exact absurd rfl hp
      | cut _ hfound _ _ => cases hnone.symm.trans hfound
      | last _ _ => rfl

variable {fuel : Nat}

theorem split_loop_pieces (ht : t ≠ []) (drop_empty : Bool) (hfuel : s.length < fuel)
    (out : List (List α)) :
    ∃ parts, Pieces t s parts ∧
      split_loop t drop_empty fuel s out = some (parts.foldl (fun out part => push_part drop_empty part out) out) := by
  induction fuel generalizing s out with
  | zero => omega
  | succ fuel ih =>
      rw [split_loop]
      split
      · case isTrue hs =>
        subst hs
        exact ⟨[], .done, rfl⟩
      case isFalse hs =>
      split
      · case h_1 rem hfound =>
        have hpos := List.length_pos_iff.mpr ht
        have hpos' := List.length_pos_iff.mpr hs
        obtain ⟨parts, hpieces, hrun⟩ := ih (s := s.drop (rem + t.length)) (by
          rw [List.length_drop]
          omega) (push_part drop_empty (s.take rem) out)
        exact ⟨_, .cut hs hfound rfl hpieces, hrun⟩
      · case h_2 hnone =>
        refine ⟨[s], .last hs hnone, ?_⟩
        cases fuel with
        | zero =>
            have hpos' := List.length_pos_iff.mpr hs
            omega
        | succ fuel => rfl

omit [Zero α] [DecidableEq α] in
theorem foldl_push_part (parts out : List (List α)) :
    parts.foldl (fun out part => push_part false part out) out = out ++ parts := by
  induction parts generalizing out with
  | nil => rw [List.foldl_nil, List.append_nil]
  | cons part parts ih =>
      have hpush : push_part false part out = out ++ [part] := by
        rw [push_part, Bool.not_false, Bool.or_true, if_pos rfl]
      rw [List.foldl_cons, hpush, ih, List.append_assoc, List.singleton_append]

variable {out x : List (List α)}

theorem split_loop_more
    (h : split_loop t drop_empty fuel s out = some x) (more : Nat) :
    split_loop t drop_empty (fuel + more) s out = some x := by
  induction fuel generalizing s out with
  | zero => cases h
  | succ fuel ih =>
      rw [Nat.add_right_comm, split_loop]
      rw [split_loop] at h
      split
      · case isTrue hs => rwa [if_pos hs] at h
      case isFalse hs =>
      rw [if_neg hs] at h
      split at h
      · exact ih h
      · exact ih h

theorem split_unique {fuel' : Nat} {x' : List (List α)}
    (h : split fuel s out sep drop_empty = some x) (h' : split fuel' s out sep drop_empty = some x') : x = x' := by
  obtain ⟨y, hy, rfl⟩ := Option.map_eq_some_iff.mp h
  obtain ⟨y', hy', rfl⟩ := Option.map_eq_some_iff.mp h'
  have heq := split_loop_more hy fuel'
  rw [Nat.add_comm, split_loop_more hy' fuel] at heq
  rw [Option.some.inj heq]

theorem nul_rest_drop {n : Nat} (ht : 0 ∉ t) (h : qstrstr s t = some n) :
    nul_rest (s.drop (n + t.length)) = nul_rest s := by
  obtain ⟨hfirst, -, hbefore⟩ := qstrstr_some h
  have hnul : 0 ∉ s.take n ++ t := by
    rw [List.mem_append]
    exact not_or.mpr ⟨hbefore, ht⟩
  have hcut : s = (s.take n ++ t) ++ s.drop (n + t.length) := by
    rw [List.append_assoc]
    exact hfirst.cut
  conv_rhs => rw [hcut]
  symm
  apply List.dropWhile_append_of_pos
  intro c hc
  apply decide_eq_true
  rintro rfl
  exact hnul hc

theorem Pieces.cuts (ht : t ≠ []) (hnul : 0 ∉ t) (h : Pieces t s parts) (hrest : ¬t <:+: nul_rest s) :
    Chopped t s ∧ Cuts t s (parts ++ [[]]) ∨ ¬Chopped t s ∧ Cuts t s parts := by
  induction h with
  | done => exact .inl ⟨.nil, .last fun hin => ht (List.infix_nil.mp hin)⟩
  | cut hp hfound hdrop _ ih =>
      subst hdrop
      rw [nul_rest_drop hnul hfound] at ih
      have hfirst := (qstrstr_some hfound).1
      rcases ih hrest with ⟨hchop, hcuts⟩ | ⟨hchop, hcuts⟩
      · exact .inl ⟨.cut hfirst hchop, .cut hfirst hcuts⟩
      · exact .inr ⟨fun h => hchop ((Chopped.cut_iff hfirst ht).mp h), .cut hfirst hcuts⟩
  | last hp hnone =>
      right
      have hnot := fun hin => (occurs_cases hnul hin).elim (qstrstr_none hnone) hrest
      exact ⟨fun hchop => hp (hchop.eq_nil hnot), .last hnot⟩

theorem Pieces.unclean (ht : t ≠ []) (hnul : 0 ∉ t) (h : Pieces t s parts) (hrest : t <:+: nul_rest s) :
    ∃ part ∈ parts, t <:+: part := by
  induction h with
  | done => exact absurd (List.infix_nil.mp hrest) ht
  | cut hp hfound hdrop _ ih =>
      subst hdrop
      rw [nul_rest_drop hnul hfound] at ih
      obtain ⟨part, hmem, hin⟩ := ih hrest
      exact ⟨part, List.mem_cons_of_mem _ hmem, hin⟩
  | last hp hnone => exact ⟨_, List.mem_singleton_self _, hrest.trans (List.dropWhile_suffix _).isInfix⟩

omit [Zero α] [DecidableEq α] in
theorem foldl_join_part {buf : List α} (hbuf : buf ≠ []) :
    parts.foldl (join_part t) buf = t.intercalate (buf :: parts) := by
  induction parts generalizing buf with
  | nil => rw [List.foldl_nil, List.intercalate_singleton]
  | cons part parts ih =>
      rw [List.foldl_cons, join_part, if_neg hbuf, ih (by simp [hbuf]), List.intercalate_cons_cons]
      cases parts with
      | nil => rw [List.intercalate_singleton, List.intercalate_singleton]
      | cons next parts =>
          rw [List.intercalate_cons_cons, List.intercalate_cons_cons]
          simp only [List.append_assoc]

omit [DecidableEq α] in
theorem join_cons_nil : join ([] :: parts) sep = join parts sep := rfl

omit [DecidableEq α] in
theorem join_cons {part : List α} (h : part ≠ []) : join (part :: parts) sep = sep.chars.intercalate (part :: parts) :=
  foldl_join_part h

omit [DecidableEq α] in
theorem join_snoc_nil (h : join parts sep ≠ []) : join (parts ++ [[]]) sep = join parts sep ++ sep.chars := by
  rw [join] at h ⊢
  rw [List.foldl_append, List.foldl_cons, List.foldl_nil, join_part, if_neg h, List.append_nil, join]

omit [DecidableEq α] in
theorem join_cuts (hsep : sep.chars ≠ []) (h : Cuts sep.chars s parts) :
    join parts sep <:+ s ∧ (join parts sep = s ↔ ¬sep.chars <+: s) := by
  induction h with
  | last hnot =>
      exact ⟨List.suffix_refl _, fun _ hprefix => hnot hprefix.isInfix, fun _ => rfl⟩
  | @cut s u v parts hfirst rest ih =>
      by_cases hu : u = []
      · subst hu
        have hs : s = sep.chars ++ v := hfirst.cut
        rw [join_cons_nil]
        refine ⟨ih.1.trans (by rw [hs]; exact List.suffix_append _ _), fun heq => ?_, fun hnot => ?_⟩
        · have hle := ih.1.length_le
          have hlt := hfirst.shorter hsep
          rw [heq] at hle
          omega
        · exact absurd (by rw [hs]; exact List.prefix_append _ _) hnot
      · have hjoin : join (u :: parts) sep = s := by
          rw [join_cons hu]
          exact (Cuts.cut hfirst rest).intercalate_eq
        rw [hjoin]
        refine ⟨List.suffix_refl _, fun _ => ?_, fun _ => rfl⟩
        rintro ⟨w, hw⟩
        have hle := hfirst.first [] w hw.symm
        exact hu (List.length_eq_zero_iff.mp (Nat.le_zero.mp hle))

omit [DecidableEq α] in
theorem chopped_of_join_nil (h : Cuts sep.chars s parts) (hjoin : join parts sep = []) : Chopped sep.chars s := by
  induction h with
  | @last t hnot =>
      have ht : t = [] := hjoin
      rw [ht]
      exact .nil
  | @cut s u v parts hfirst rest ih =>
      by_cases hu : u = []
      · subst hu
        exact .cut hfirst (ih hjoin)
      · rw [join_cons hu, (Cuts.cut hfirst rest).intercalate_eq] at hjoin
        rw [hjoin]
        exact .nil

/-! ### Splitting and joining -/

/-- `split` ends, for a separator that is not empty with parts that do not contain it and that `join` puts together. -/
def SplitsAndJoins (s : List α) (sep : CString α) : Prop :=
  (∀ drop_empty out, ∃ fuel parts, split fuel s out sep drop_empty = some parts) ∧
    (sep.chars ≠ [] → ∃ fuel parts, split fuel s [] sep false = some parts ∧
      (∀ part ∈ parts, ¬sep.chars <:+: part) ∧ join parts sep = s)

/-- An empty separator in an empty string only. Another one not behind a NUL and not at the start; at the end only if
the leftmost occurrences reach it, or if the string is the separator and a shorter rest, in both orders. -/
def SplitAgrees (s : List α) (sep : CString α) : Prop :=
  if sep.chars = [] then s = []
  else
    ¬sep.chars <:+: nul_rest s ∧
      (¬sep.chars <+: s ∧ (sep.chars <:+ s → Chopped sep.chars s) ∨
        ∃ rest, rest ≠ [] ∧ rest.length < sep.chars.length ∧ s = sep.chars ++ rest ∧ s = rest ++ sep.chars)

theorem split_pieces (hsep : sep.chars ≠ []) :
    ∃ parts, Pieces sep.chars s parts ∧ split (s.length + 1) s [] sep false =
      some (if sep.chars <:+ s then parts ++ [[]] else parts) := by
  obtain ⟨parts, hpieces, hrun⟩ := split_loop_pieces (s := s) hsep false (Nat.lt_succ_self _) []
  refine ⟨parts, hpieces, ?_⟩
  rw [split, hrun, foldl_push_part, List.nil_append, Option.map_some, Bool.not_false, Bool.and_true]
  by_cases hsuffix : sep.chars <:+ s
  · rw [if_pos hsuffix, if_pos ((ends_with_iff sep.no_nul).mpr hsuffix)]
  · rw [if_neg hsuffix, if_neg fun h => hsuffix ((ends_with_iff sep.no_nul).mp h)]

theorem split_ends (hsep : sep.chars ≠ []) (drop_empty : Bool) (out : List (List α)) :
    ∃ fuel parts, split fuel s out sep drop_empty = some parts := by
  obtain ⟨parts, -, hrun⟩ := split_loop_pieces (s := s) hsep drop_empty (Nat.lt_succ_self _) out
  exact ⟨s.length + 1, _, by rw [split, hrun]; rfl⟩

omit [Zero α] [DecidableEq α] in
theorem swapped_pieces {rest : List α} (hrest : rest ≠ []) (hlt : rest.length < t.length) (hs : s = t ++ rest) :
    ¬Chopped t s ∧ Cuts t s [[], rest] := by
  have hnot : ¬t <:+: rest := fun hin => absurd hin.length_le (Nat.not_le.mpr hlt)
  have ht : t ≠ [] := by
    rintro rfl
    exact absurd hlt (Nat.not_lt_zero _)
  refine ⟨fun h => hrest ?_, .cut (.start hs) (.last hnot)⟩
  exact ((Chopped.cut_iff (.start hs) ht).mp h).eq_nil hnot

omit [DecidableEq α] in
theorem join_overlap (hsep : sep.chars ≠ []) (hchop : ¬Chopped sep.chars s) (hcuts : Cuts sep.chars s parts) :
    join (parts ++ [[]]) sep = s ↔
      ∃ rest, rest ≠ [] ∧ rest.length < sep.chars.length ∧ s = sep.chars ++ rest ∧ s = rest ++ sep.chars := by
  rw [join_snoc_nil fun h => hchop (chopped_of_join_nil hcuts h)]
  constructor
  · intro heq
    have hne : join parts sep ≠ s := by
      intro hsame
      rw [hsame] at heq
      exact hsep (List.append_right_eq_self.mp heq)
    cases hcuts with
    | last hnot => exact absurd rfl hne
    | @cut _ u v parts hfirst hcuts' =>
        by_cases hu : u = []
        · subst hu
          have hs : s = sep.chars ++ v := hfirst.cut
          rw [join_cons_nil] at heq
          have hsuffix := join_cuts hsep hcuts'
          have hlen : (join parts sep).length = v.length := by
            have h₁ := congrArg List.length heq
            have h₂ := congrArg List.length hs
            rw [List.length_append] at h₁ h₂
            omega
          have hv : join parts sep = v := hsuffix.1.eq_of_length hlen
          rw [hv] at heq
          refine ⟨v, ?_, ?_, hs, heq.symm⟩
          · rintro rfl
            exact hchop (.cut hfirst .nil)
          -- A longer rest would start with the separator, and its pieces would lose it.
          by_contra hle
          apply hsuffix.2.mp hv
          exact List.prefix_of_prefix_length_le (List.prefix_append sep.chars v)
            (by rw [← hs, ← heq]; exact List.prefix_append v sep.chars) (Nat.le_of_not_lt hle)
        · have hjoin : join (u :: parts) sep = s := by
            rw [join_cons hu]
            exact (Cuts.cut hfirst hcuts').intercalate_eq
          exact absurd hjoin hne
  · rintro ⟨rest, hrest, hlt, hs, hs'⟩
    rw [hcuts.unique (swapped_pieces hrest hlt hs).2, hs']
    have hjoin : join [[], rest] sep = rest := rfl
    rw [hjoin]

theorem pieces_join_iff (hsep : sep.chars ≠ []) (hpieces : Pieces sep.chars s parts)
    (hnul : ¬sep.chars <:+: nul_rest s) {final : List (List α)}
    (hfinal : final = if sep.chars <:+ s then parts ++ [[]] else parts) :
    (∀ part ∈ final, ¬sep.chars <:+: part) ∧
      (join final sep = s ↔ ¬sep.chars <+: s ∧ (sep.chars <:+ s → Chopped sep.chars s) ∨
        ∃ rest, rest ≠ [] ∧ rest.length < sep.chars.length ∧ s = sep.chars ++ rest ∧ s = rest ++ sep.chars) := by
  subst hfinal
  have hlast : ∀ part ∈ parts ++ [[]], part ∈ parts ∨ part = [] := fun part hmem => by
    rw [List.mem_append, List.mem_singleton] at hmem
    exact hmem
  rcases hpieces.cuts hsep sep.no_nul hnul with ⟨hchop, hcuts⟩ | ⟨hchop, hcuts⟩
  · have hswap : ¬∃ rest, rest ≠ [] ∧ rest.length < sep.chars.length ∧ s = sep.chars ++ rest ∧ s = rest ++ sep.chars :=
      fun ⟨rest, hrest, hlt, hs, _⟩ => (swapped_pieces hrest hlt hs).1 hchop
    by_cases hs : s = []
    · subst hs
      have hnot : ¬sep.chars <:+ [] := fun h => hsep (List.suffix_nil.mp h)
      rw [if_neg hnot, hpieces.unique .done]
      exact ⟨fun _ h => absurd h List.not_mem_nil,
        fun _ => .inl ⟨fun h => hsep (List.prefix_nil.mp h), fun _ => hchop⟩, fun _ => rfl⟩
    · rw [if_pos (hchop.suffix hs)]
      refine ⟨hcuts.clean hsep, ?_⟩
      rw [(join_cuts hsep hcuts).2]
      exact ⟨fun h => .inl ⟨h, fun _ => hchop⟩, fun h => (h.resolve_right hswap).1⟩
  · have hclean := hcuts.clean hsep
    by_cases hsuffix : sep.chars <:+ s
    · rw [if_pos hsuffix, join_overlap hsep hchop hcuts]
      refine ⟨fun part hmem => ?_, .inr, fun h => h.resolve_left fun h => hchop (h.2 hsuffix)⟩
      cases hlast part hmem with
      | inl hmem => exact hclean part hmem
      | inr hnil =>
          rw [hnil]
          exact fun hin => hsep (List.infix_nil.mp hin)
    · rw [if_neg hsuffix, (join_cuts hsep hcuts).2]
      refine ⟨hclean, fun h => .inl ⟨h, fun h => absurd h hsuffix⟩, ?_⟩
      rintro (h | ⟨rest, -, -, -, hs⟩)
      · exact h.1
      · exact absurd (by rw [hs]; exact List.suffix_append _ _) hsuffix

/-- Splitting and joining give the string back on exactly these strings. -/
theorem splits_and_joins_iff (s : List α) (sep : CString α) : SplitsAndJoins s sep ↔ SplitAgrees s sep := by
  unfold SplitsAndJoins SplitAgrees
  split
  · case isTrue hsep =>
    constructor
    · rintro ⟨hends, -⟩
      by_contra hs
      obtain ⟨fuel, parts, hrun⟩ := hends false []
      rw [split, hsep, split_loop_nil hs] at hrun
      cases hrun
    · rintro rfl
      exact ⟨fun drop_empty out => ⟨1, _, rfl⟩, fun h => absurd hsep h⟩
  · case isFalse hsep =>
    obtain ⟨parts, hpieces, hsplit⟩ := split_pieces (s := s) hsep
    constructor
    · rintro ⟨-, hjoins⟩
      obtain ⟨fuel, final, hrun, hclean, hjoin⟩ := hjoins hsep
      have hfinal := split_unique hrun hsplit
      by_cases hnul : sep.chars <:+: nul_rest s
      · obtain ⟨part, hmem, hin⟩ := hpieces.unclean hsep sep.no_nul hnul
        refine absurd hin (hclean part ?_)
        rw [hfinal]
        split
        · exact List.mem_append_left _ hmem
        · exact hmem
      · exact ⟨hnul, (pieces_join_iff hsep hpieces hnul hfinal).2.mp hjoin⟩
    · rintro ⟨hnul, hcond⟩
      obtain ⟨hclean, hjoin⟩ := pieces_join_iff hsep hpieces hnul rfl
      exact ⟨split_ends hsep, fun _ => ⟨_, _, hsplit, hclean, hjoin.mpr hcond⟩⟩

def comma : CString Nat := ⟨[44], by decide⟩

/-- `",a"` is split into two parts, which are joined to `"a"`. -/
theorem leading_separator_lost : ¬∀ (s : List Nat) (sep : CString Nat), SplitsAndJoins s sep := by
  intro h
  obtain ⟨fuel, parts, hrun, -, hjoin⟩ := (h [44, 97] comma).2 (by decide)
  have hparts : split 3 [44, 97] [] comma false = some [[], [97]] := by decide
  rw [split_unique hrun hparts] at hjoin
  revert hjoin
  decide

end IdaSdk.Qstring
