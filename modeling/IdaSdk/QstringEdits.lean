import IdaSdk.QstringModel

/-!
The editing operations compared with operations on lists of characters. Each one is right exactly if the sizes it computes
do not wrap; `fill` also has to start within the string, and `rtrim` must not look before the buffer.
-/

namespace IdaSdk.Qstring
open LibBuffer

variable {α : Type} [Zero α] {m : Nat → α} {s : _qstring α}

theorem size_t_of_lt {x : Nat} (h : x < 2 ^ 64) : size_t x = x := Nat.mod_eq_of_lt h

theorem _qstring.body_cases (s : _qstring α) : s.body = [] ∧ s.chars = [] ∨ s.body = s.chars ++ [0] := by
  rcases s.terminated with hnil | ⟨chars, hbody⟩
  · left
    rw [_qstring.chars, hnil]
    exact ⟨rfl, rfl⟩
  · right
    rw [_qstring.chars, hbody, List.dropLast_concat]

theorem length_body (s : _qstring α) : length s.body = s.chars.length := by
  rw [length, _qstring.chars, List.length_dropLast]
  split <;> omega

theorem _qstring.chars_fit (s : _qstring α) : s.chars.length + 1 < 2 ^ 64 := by
  rcases s.body_cases with ⟨-, hchars⟩ | hbody
  · rw [hchars]
    exact Nat.one_lt_two_pow (by decide)
  · have hfits := s.fits
    rw [hbody, List.length_append] at hfits
    exact hfits

/-- A body with these characters. -/
def body_of (chars : List α) (h : chars.length + 1 < 2 ^ 64) : _qstring α where
  body := chars ++ [0]
  fits := by
    rw [List.length_append]
    exact h
  terminated := .inr ⟨chars, rfl⟩

def empty_body : _qstring α where
  body := []
  fits := Nat.two_pow_pos 64
  terminated := .inl rfl

variable {n : Nat}

theorem resize_noinit_grow (h : s.chars.length + 1 ≤ n) :
    ∃ junk, resize_noinit m s.body n = s.chars ++ junk ∧ junk.length = n - s.chars.length := by
  rcases s.body_cases with ⟨hbody, hchars⟩ | hbody
  · rw [hbody, hchars]
    refine ⟨_, List.nil_append _, ?_⟩
    simp
  rw [hbody]
  refine ⟨[0] ++ (List.range (n - (s.chars ++ [0]).length)).map m, ?_, ?_⟩
  · rw [resize_noinit, List.take_of_length_le (by simpa using h), List.append_assoc]
  · simp only [List.length_append, List.length_map, List.length_range, List.length_singleton]
    omega

variable {body : List α}

omit [Zero α] in
theorem resize_noinit_shrink (h : n ≤ body.length) : resize_noinit m body n = body.take n := by
  rw [resize_noinit, Nat.sub_eq_zero_of_le h, List.range_zero, List.map_nil, List.append_nil]

omit [Zero α] in
theorem resize_noinit_length (body : List α) (n : Nat) : (resize_noinit m body n).length = n := by
  rw [resize_noinit, List.length_append, List.length_take, List.length_map, List.length_range]
  omega

omit [Zero α] in
theorem qvector_resize_length (body : List α) (n : Nat) (x : α) : (qvector_resize body n x).length = n := by
  rw [qvector_resize, List.length_append, List.length_take, List.length_replicate]
  omega

theorem put_grown {k : Nat} (h : s.chars.length + k + 1 < 2 ^ 64) :
    ∃ junk, put (resize_noinit m s.body (size_t (s.chars.length + k + 1))) (size_t (s.chars.length + k)) 0 =
      some (s.chars ++ (junk ++ [0])) ∧ junk.length = k := by
  rw [size_t_of_lt h, size_t_of_lt (by omega)]
  obtain ⟨junk, hgrow, hlen⟩ := resize_noinit_grow (m := m) (s := s) (n := s.chars.length + k + 1) (by omega)
  obtain ⟨junk', c, hjunk, hlen'⟩ := last_of_length (l := junk) (k := k) (by omega)
  refine ⟨junk', ?_, hlen'⟩
  rw [hgrow, hjunk, ← List.append_assoc, ← List.append_assoc]
  exact put_mid (by rw [List.length_append, hlen'])

theorem resize_zero_eq (hn : n ≠ 0) : resize_zero s.body n = resize s.body n 0 := by
  rw [resize_zero, if_neg hn, resize]
  rcases s.body_cases with ⟨hbody, -⟩ | hbody
  · rw [hbody, if_neg (fun h => h.1 rfl)]
    rfl
  rw [hbody]
  split
  · rw [List.length_append, List.length_singleton, Nat.add_sub_cancel, put_mid rfl]
    rfl
  · rfl

theorem resize_zero_shrink (h : n < body.length) (hfit : n + 1 < 2 ^ 64) :
    resize_zero body n = some (if n = 0 then [] else body.take n ++ [0]) := by
  unfold resize_zero
  split
  · rfl
  · rw [size_t_of_lt hfit, put_last (qvector_resize_length _ _ _), qvector_resize, Nat.sub_eq_zero_of_le h,
      List.replicate_zero, List.append_nil, List.take_take, Nat.min_eq_left (Nat.le_succ n)]

theorem cut_at_eq {idx : Nat} (h : idx < body.length) (hfit : idx + 1 < 2 ^ 64) :
    cut_at m body idx = some (body.take idx ++ [0]) := by
  rw [cut_at, size_t_of_lt hfit, resize_noinit_shrink h, put_last (List.length_take_of_le h), List.take_take,
    Nat.min_eq_left (Nat.le_succ idx)]

theorem cut_at_length {body' : List α} {idx : Nat} (h : cut_at m body idx = some body') :
    body'.length = size_t (idx + 1) := by
  unfold cut_at put at h
  rw [store_length h, resize_noinit_length]

theorem assign_eq {ptr : List α} (h : ptr.length + 1 < 2 ^ 64) : assign m ptr = some (ptr ++ [0]) := by
  obtain ⟨junk, c, hjunk, hlen⟩ := last_of_length (resize_noinit_length (m := m) [] (ptr.length + 1))
  have hstore := store_mid (i := 0) (x := []) (z := [c]) rfl hlen.symm
  rw [List.nil_append, ← hjunk] at hstore
  rw [assign, size_t_of_lt h, hstore, Option.bind_eq_bind, Option.bind_some]
  exact put_mid rfl

omit [Zero α] in
theorem move_down (x y z w : List α) :
    move (x ++ (y ++ (z ++ w))) x.length (x.length + y.length) z.length =
      some (x ++ (z ++ ((y ++ z).drop z.length ++ w))) := by
  have hsource : x ++ (y ++ (z ++ w)) = (x ++ y) ++ (z ++ w) := (List.append_assoc x y (z ++ w)).symm
  have htarget : (x ++ y) ++ (z ++ w) = x ++ ((y ++ z).take z.length ++ ((y ++ z).drop z.length ++ w)) := by
    rw [← List.append_assoc ((y ++ z).take z.length), List.take_append_drop]
    simp only [List.append_assoc]
  rw [hsource]
  refine move_up List.length_append.symm rfl ?_ rfl htarget
  rw [List.length_take, List.length_append]
  omega

omit [Zero α] in
theorem insert_step (x y junk w z : List α) (h : w.length = junk.length) :
    ((move (x ++ (y ++ (junk ++ z))) (x.length + w.length) x.length y.length).bind fun b => store b x.length w) =
      some (x ++ (w ++ (y ++ z))) := by
  have hlen : (y ++ junk).length = y.length + junk.length := List.length_append
  have htarget : x ++ (y ++ (junk ++ z)) =
      (x ++ (y ++ junk).take junk.length) ++ ((y ++ junk).drop junk.length ++ z) := by
    rw [List.append_assoc x, ← List.append_assoc ((y ++ junk).take junk.length), List.take_append_drop]
    simp only [List.append_assoc]
  rw [move_up rfl rfl ?_ ?_ htarget, Option.bind_some, List.append_assoc]
  · refine store_mid rfl ?_
    rw [List.length_take]
    omega
  · rw [List.length_drop]
    omega
  · rw [List.length_append, List.length_take]
    omega

section Results
variable [DecidableEq α] {op : Operation α}

/-- The operation leaves a string, and its characters are those of the list operation. -/
def EditsAs (m : Nat → α) (s : _qstring α) (op : Operation α) : Prop :=
  ∃ t : _qstring α, run m s.body op = some t.body ∧ t.chars = meaning s.chars op

theorem EditsAs.of_chars (chars : List α) (hfits : chars.length + 1 < 2 ^ 64)
    (h : run m s.body op = some (chars ++ [0])) (hchars : chars = meaning s.chars op) : EditsAs m s op :=
  ⟨body_of chars hfits, h, by rw [← hchars]; exact List.dropLast_concat⟩

theorem EditsAs.of_nil (h : run m s.body op = some []) (hchars : meaning s.chars op = []) : EditsAs m s op :=
  ⟨empty_body, h, by rw [hchars]; rfl⟩

theorem EditsAs.of_same (h : run m s.body op = some s.body) (hchars : meaning s.chars op = s.chars) :
    EditsAs m s op :=
  ⟨s, h, hchars.symm⟩

theorem not_editsAs_of_none (h : run m s.body op = none) : ¬EditsAs m s op := by
  rintro ⟨t, ht, -⟩
  rw [h] at ht
  cases ht

theorem not_editsAs_of_length {body : List α} (h : run m s.body op = some body)
    (hlen : body.length - 1 ≠ (meaning s.chars op).length) : ¬EditsAs m s op := by
  rintro ⟨t, ht, hchars⟩
  rw [h] at ht
  apply hlen
  rw [← hchars, Option.some.inj ht, _qstring.chars, List.length_dropLast]

variable {n : Nat} {c : α}

theorem resize_edits (hn : n < 2 ^ 64) : EditsAs m s (.resize n c) ↔ n + 1 < 2 ^ 64 := by
  constructor
  · intro h
    by_contra hwrap
    refine not_editsAs_of_none ?_ h
    have hzero : size_t (n + 1) = 0 := by
      unfold size_t
      omega
    change resize s.body n c = none
    unfold resize
    rw [hzero]
    cases (if s.body.length ≠ 0 ∧ s.body.length ≤ n then put s.body (s.body.length - 1) c else some s.body) with
    | none => rfl
    | some body =>
        rw [Option.bind_eq_bind, Option.bind_some]
        apply put_outside
        rw [qvector_resize_length]
        exact Nat.zero_le n
  · intro hfit
    refine .of_chars (s.chars.take n ++ List.replicate (n - s.chars.length) c) ?_ ?_ rfl
    · rw [List.length_append, List.length_take, List.length_replicate]
      omega
    change resize s.body n c = _
    unfold resize
    rw [size_t_of_lt hfit]
    rcases s.body_cases with ⟨hbody, hchars⟩ | hbody
    · rw [hbody, hchars, if_neg (fun h => h.1 rfl), Option.bind_eq_bind, Option.bind_some,
        put_last (qvector_resize_length _ _ _)]
      simp [qvector_resize]
    rw [hbody]
    have hlen : (s.chars ++ [0]).length = s.chars.length + 1 := List.length_append
    rw [hlen, Nat.add_sub_cancel]
    split
    · case isTrue h =>
      rw [put_mid rfl, Option.bind_eq_bind, Option.bind_some, put_last (qvector_resize_length _ _ _), qvector_resize,
        List.take_of_length_le (l := s.chars ++ [c]) (by rw [List.length_append, List.length_singleton]; omega),
        List.length_append, List.length_singleton, Nat.add_sub_add_right, List.append_assoc s.chars,
        List.singleton_append, ← List.replicate_succ, List.take_append, List.take_replicate,
        Nat.min_eq_left (Nat.le_succ _)]
    · case isFalse h =>
      rw [Option.bind_eq_bind, Option.bind_some, put_last (qvector_resize_length _ _ _), qvector_resize, hlen,
        Nat.sub_eq_zero_of_le (by omega), List.replicate_zero, List.append_nil, List.take_take,
        Nat.min_eq_left (Nat.le_succ n), List.take_append_of_le_length (by omega),
        Nat.sub_eq_zero_of_le (by omega), List.replicate_zero, List.append_nil]

theorem resize_zero_edits (hn : n < 2 ^ 64) : EditsAs m s (.resize_zero n) ↔ n + 1 < 2 ^ 64 := by
  by_cases hzero : n = 0
  · subst hzero
    refine ⟨fun _ => Nat.one_lt_two_pow (by decide), fun _ => .of_nil rfl ?_⟩
    rw [meaning, Nat.zero_sub, List.take_zero, List.replicate_zero, List.append_nil]
  rw [← resize_edits (m := m) (s := s) (c := 0) hn]
  have hrun : run m s.body (.resize_zero n) = run m s.body (.resize n 0) := resize_zero_eq hzero
  unfold EditsAs
  rw [hrun]
  rfl

/-! ### Taking characters -/

variable {pos : Nat}

theorem substr_edits : EditsAs m s (.substr pos n) := by
  have hlen := s.chars_fit
  have hmeaning : (meaning s.chars (.substr pos n)).length = min s.chars.length n - pos := by
    rw [meaning, List.length_drop, List.length_take, Nat.min_comm]
  by_cases hpos : pos < min s.chars.length n
  · have hbody : s.body = s.chars ++ [0] := s.body_cases.resolve_left fun h => by
      rw [h.2] at hpos
      simp at hpos
    have hsplit : s.chars = s.chars.take pos ++
        ((s.chars.take n).drop pos ++ (s.chars.drop pos).drop (n - pos)) := by
      rw [List.drop_take, List.take_append_drop, List.take_append_drop]
    refine .of_chars ((s.chars.take n).drop pos) ?_ ?_ rfl
    · rw [List.length_drop, List.length_take]
      omega
    change substr m s.body pos n = _
    have hbody' : s.body = s.chars.take pos ++
        ((s.chars.take n).drop pos ++ ((s.chars.drop pos).drop (n - pos) ++ [0])) := by
      rw [hbody]
      conv_lhs => rw [hsplit]
      simp only [List.append_assoc]
    have hload : load s.body pos (min s.chars.length n - pos) = some ((s.chars.take n).drop pos) := by
      rw [hbody']
      refine load_mid ?_ hmeaning.symm
      rw [List.length_take]
      omega
    rw [substr, length_body, if_neg (Nat.not_le.mpr hpos), hload, Option.bind_eq_bind, Option.bind_some,
      if_neg (by omega), assign_eq]
    rw [List.length_drop, List.length_take]
    omega
  · refine .of_nil ?_ (List.length_eq_zero_iff.mp (by omega))
    change substr m s.body pos n = _
    rw [substr, length_body, if_pos (Nat.le_of_not_lt hpos), Nat.sub_self, load, if_pos rfl]
    rfl

variable {idx : Nat}

theorem remove_wrapped {cnt : Nat} (hidx : idx < s.chars.length) (hcnt : cnt < 2 ^ 64) (hwrap : 2 ^ 64 ≤ idx + cnt) :
    ¬EditsAs m s (.remove idx cnt) := by
  have hlen := s.chars_fit
  have hsize : size_t (cnt + idx) = cnt + idx - 2 ^ 64 := by
    unfold size_t
    omega
  have hbody : s.body.length = s.chars.length + 1 := by
    rcases s.body_cases with ⟨-, hchars⟩ | hbody
    · rw [hchars] at hidx
      exact absurd hidx (Nat.not_lt_zero _)
    · rw [hbody, List.length_append, List.length_singleton]
  have hmeaning : (meaning s.chars (.remove idx cnt)).length = idx := by
    rw [meaning, List.length_append, List.length_take, List.length_drop]
    omega
  have hrun : run m s.body (.remove idx cnt) =
      (move s.body idx (cnt + idx - 2 ^ 64) (s.chars.length - (cnt + idx - 2 ^ 64))).bind
        fun body => cut_at m body (size_t (idx + (s.chars.length - (cnt + idx - 2 ^ 64)))) := by
    change remove m s.body idx cnt = _
    rw [remove, length_body, hsize, if_pos ⟨hidx, by omega⟩, if_pos (by omega)]
    rfl
  cases hmove : move s.body idx (cnt + idx - 2 ^ 64) (s.chars.length - (cnt + idx - 2 ^ 64)) with
  | none =>
      rw [hmove] at hrun
      exact not_editsAs_of_none hrun
  | some body =>
      obtain ⟨hinside, hsame⟩ := move_inside (by omega) hmove
      rw [hmove, Option.bind_some, size_t_of_lt (by omega)] at hrun
      cases hcut : cut_at m body (idx + (s.chars.length - (cnt + idx - 2 ^ 64))) with
      | none => exact not_editsAs_of_none (hrun.trans hcut)
      | some body' =>
          have hlen' := cut_at_length hcut
          refine not_editsAs_of_length (hrun.trans hcut) ?_
          rw [hmeaning, hlen']
          unfold size_t
          omega

theorem remove_edits {cnt : Nat} (hcnt : cnt < 2 ^ 64) :
    EditsAs m s (.remove idx cnt) ↔ (idx < s.chars.length → idx + cnt < 2 ^ 64) := by
  constructor
  · intro h hidx
    by_contra hwrap
    exact remove_wrapped hidx hcnt (Nat.le_of_not_lt hwrap) h
  intro hfit
  by_cases hidx : idx < s.chars.length ∧ cnt ≠ 0
  · have hlen := s.chars_fit
    have hend := hfit hidx.1
    have hbody : s.body = s.chars ++ [0] := s.body_cases.resolve_left fun h => by
      rw [h.2] at hidx
      exact absurd hidx.1 (Nat.not_lt_zero _)
    have hrun : run m s.body (.remove idx cnt) = some (s.chars.take idx ++ s.chars.drop (idx + cnt) ++ [0]) := by
      change remove m s.body idx cnt = _
      rw [remove, length_body, if_pos hidx, Nat.add_comm cnt idx, size_t_of_lt hend]
      split
      · case isTrue hlt =>
        have hsplit : s.chars = s.chars.take idx ++ ((s.chars.drop idx).take cnt ++ s.chars.drop (idx + cnt)) := by
          rw [← List.drop_drop, List.take_append_drop, List.take_append_drop]
        have hx : (s.chars.take idx).length = idx := List.length_take_of_le (by omega)
        have hy : ((s.chars.drop idx).take cnt).length = cnt := by
          rw [List.length_take, List.length_drop]
          omega
        have hz : (s.chars.drop (idx + cnt)).length = s.chars.length - (idx + cnt) := List.length_drop
        have hmove := move_down (s.chars.take idx) ((s.chars.drop idx).take cnt) (s.chars.drop (idx + cnt)) [0]
        rw [hx, hy, hz, ← List.append_assoc ((s.chars.drop idx).take cnt), ← List.append_assoc (s.chars.take idx),
          ← hsplit, ← hbody] at hmove
        rw [hmove, Option.bind_eq_bind, Option.bind_some, size_t_of_lt (by omega), cut_at_eq ?_ (by omega),
          ← List.append_assoc, List.take_left']
        · rw [List.length_append, hx, hz]
        · simp only [List.length_append, hx, hz, List.length_singleton]
          omega
      · case isFalse hle =>
        rw [hbody, cut_at_eq (by rw [List.length_append]; omega) (by omega),
          List.take_append_of_le_length (by omega), List.drop_eq_nil_of_le (Nat.le_of_not_lt hle), List.append_nil]
    refine .of_chars _ ?_ hrun rfl
    rw [List.length_append, List.length_take, List.length_drop]
    omega
  · refine .of_same ?_ ?_
    · change remove m s.body idx cnt = _
      rw [remove, length_body, if_neg hidx]
    rw [meaning]
    by_cases hlt : idx < s.chars.length
    · have hzero : cnt = 0 := by
        by_contra hne
        exact hidx ⟨hlt, hne⟩
      rw [hzero, Nat.add_zero, List.take_append_drop]
    · rw [List.take_of_length_le (by omega), List.drop_eq_nil_of_le (by omega), List.append_nil]

/-! ### Adding characters -/

omit [DecidableEq α] in
theorem insert_eq {str : List α} (hfit : s.chars.length + str.length + 1 < 2 ^ 64) :
    insert m s.body idx str = some (s.chars.take idx ++ (str ++ s.chars.drop idx) ++ [0]) := by
  obtain ⟨junk, hput, hjunk⟩ := put_grown (m := m) (s := s) hfit
  rw [insert, length_body, hput, Option.bind_eq_bind, Option.bind_some]
  split
  · case isTrue hidx =>
    have hx : (s.chars.take idx).length = idx := List.length_take_of_le (Nat.le_of_lt hidx)
    have hstep := insert_step (s.chars.take idx) (s.chars.drop idx) junk str [0] hjunk.symm
    rw [← List.append_assoc (s.chars.take idx), List.take_append_drop, hx, List.length_drop] at hstep
    rw [hstep]
    simp only [List.append_assoc]
  · case isFalse hidx =>
    rw [store_mid rfl hjunk.symm, List.take_of_length_le (Nat.le_of_not_lt hidx),
      List.drop_eq_nil_of_le (Nat.le_of_not_lt hidx), List.append_nil, List.append_assoc]

omit [DecidableEq α] in
theorem insert_wrapped {str : List α} (hstr : str.length < 2 ^ 64)
    (hwrap : 2 ^ 64 ≤ s.chars.length + str.length + 1) : insert m s.body idx str = none := by
  have hlen := s.chars_fit
  have hne : str ≠ [] := by
    rintro rfl
    rw [List.length_nil] at hwrap
    omega
  have hsize : size_t (s.chars.length + str.length + 1) = s.chars.length + str.length + 1 - 2 ^ 64 := by
    unfold size_t
    omega
  rw [insert, length_body, hsize]
  cases hput : put (resize_noinit m s.body (s.chars.length + str.length + 1 - 2 ^ 64))
      (size_t (s.chars.length + str.length)) 0 with
  | none => rfl
  | some body =>
      have hbody := store_length hput
      rw [resize_noinit_length] at hbody
      rw [Option.bind_eq_bind, Option.bind_some]
      split
      · rw [move_outside (by omega) (by omega)]
        rfl
      · exact store_outside hne (by omega)

theorem insert_edits (idx : Nat) (str : List α) (hstr : str.length < 2 ^ 64) :
    EditsAs m s (.insert idx str) ↔ s.chars.length + str.length + 1 < 2 ^ 64 := by
  constructor
  · intro h
    by_contra hwrap
    have hnone : run m s.body (.insert idx str) = none := insert_wrapped hstr (Nat.le_of_not_lt hwrap)
    exact not_editsAs_of_none hnone h
  · intro hfit
    refine .of_chars _ ?_ (insert_eq hfit) rfl
    simp only [List.length_append, List.length_take, List.length_drop]
    omega

theorem insert_char_edits :
    EditsAs m s (.insert_char idx c) ↔ s.chars.length + 2 < 2 ^ 64 :=
  insert_edits idx [c] (Nat.one_lt_two_pow (by decide))

omit [DecidableEq α] in
theorem append_eq_insert (str : List α) : append m s.body str = insert m s.body s.chars.length str := by
  rw [append, insert, length_body]
  simp only [Nat.lt_irrefl, if_false]

theorem append_edits (str : List α) (hstr : str.length < 2 ^ 64) :
    EditsAs m s (.append str) ↔ s.chars.length + str.length + 1 < 2 ^ 64 := by
  rw [← insert_edits (m := m) (s := s) s.chars.length str hstr]
  have hrun : run m s.body (.append str) = run m s.body (.insert s.chars.length str) := append_eq_insert str
  have hmeaning : meaning s.chars (.append str) = meaning s.chars (.insert s.chars.length str) := by
    rw [meaning, meaning, List.take_length, List.drop_length, List.append_nil]
  unfold EditsAs
  rw [hrun, hmeaning]

theorem append_char_edits : EditsAs m s (.append_char c) ↔ s.chars.length + 2 < 2 ^ 64 := by
  have hlen := s.chars_fit
  constructor
  · intro h
    by_contra hwrap
    refine not_editsAs_of_none ?_ h
    change append_char m s.body c = none
    have hsize : size_t (s.chars.length + 2) = 0 := by
      unfold size_t
      omega
    rw [append_char, length_body, hsize, put_outside]
    · rfl
    · rw [resize_noinit_length]
      exact Nat.zero_le _
  · intro hfit
    refine .of_chars (s.chars ++ [c]) ?_ ?_ rfl
    · rw [List.length_append]
      exact hfit
    change append_char m s.body c = _
    obtain ⟨junk, hgrow, hjunk⟩ := resize_noinit_grow (m := m) (s := s) (n := s.chars.length + 2) (by omega)
    rw [append_char, length_body, size_t_of_lt hfit, size_t_of_lt (by omega), hgrow]
    match junk, hjunk with
    | [d, e], _ =>
      rw [put_mid rfl, Option.bind_eq_bind, Option.bind_some, ← List.singleton_append, ← List.append_assoc]
      exact put_mid (by rw [List.length_append, List.length_singleton])
    | [], hjunk => simp at hjunk
    | [_], hjunk => simp at hjunk
    | _ :: _ :: _ :: _, hjunk => simp at hjunk

theorem append_qstring_edits {str : _qstring α} :
    EditsAs m s (.append_qstring str) ↔ s.chars.length + str.chars.length + 1 < 2 ^ 64 := by
  have hstr := str.chars_fit
  by_cases hempty : str.chars.length ≠ 0
  · rw [← append_edits (m := m) (s := s) str.chars (by omega)]
    have hrun : run m s.body (.append_qstring str) = run m s.body (.append str.chars) := if_pos hempty
    unfold EditsAs
    rw [hrun]
    rfl
  · have hlen := s.chars_fit
    refine ⟨fun _ => by omega, fun _ => .of_same (if_neg hempty) ?_⟩
    rw [meaning, List.length_eq_zero_iff.mp (Decidable.not_not.mp hempty), List.append_nil]

/-! ### Filling -/

omit [DecidableEq α] in
theorem fill_length {body' : List α} (h : fill m s.body pos c n = some body') :
    body'.length = max s.body.length (size_t (pos + n + 1)) ∧ (n = 0 ∨ pos + n ≤ body'.length) := by
  obtain ⟨body, hgrow, hfill⟩ := Option.bind_eq_some_iff.mp h
  have hsame := fillWith_length hfill
  have hbody : body.length = max s.body.length (size_t (pos + n + 1)) := by
    split at hgrow
    · case isTrue hlt =>
      rw [store_length hgrow, resize_noinit_length, Nat.max_eq_right (Nat.le_of_lt hlt)]
    · case isFalse hle =>
      rw [← Option.some.inj hgrow, Nat.max_eq_left (Nat.le_of_not_lt hle)]
  refine ⟨hsame.trans hbody, ?_⟩
  by_contra hout
  rw [not_or, hsame] at hout
  rw [fillWith_outside hout.1 (Nat.lt_of_not_le hout.2)] at hfill
  cases hfill

omit [DecidableEq α] in
theorem fill_eq (hpos : pos ≤ s.chars.length) (hfit : pos + n + 1 < 2 ^ 64) :
    fill m s.body pos c n = some (s.chars.take pos ++ (List.replicate n c ++ s.chars.drop (pos + n)) ++ [0]) := by
  have hx : pos = (s.chars.take pos).length := (List.length_take_of_le hpos).symm
  rw [fill, size_t_of_lt hfit, Nat.add_sub_cancel]
  split
  · case isTrue hlt =>
    have hle : s.chars.length ≤ pos + n ∧ s.chars.length + 1 ≤ pos + n + 1 := by
      rcases s.body_cases with ⟨-, hchars⟩ | hbody
      · rw [hchars, List.length_nil]
        omega
      · rw [hbody, List.length_append, List.length_singleton] at hlt
        omega
    obtain ⟨junk, hgrow, hjunk⟩ := resize_noinit_grow (m := m) hle.2
    have hlong : (s.chars ++ junk).length = pos + n + 1 := by
      rw [List.length_append]
      omega
    have htake : (s.chars ++ junk).take (pos + n) = s.chars.take pos ++ ((s.chars ++ junk).take (pos + n)).drop pos := by
      have hfirst : ((s.chars ++ junk).take (pos + n)).take pos = s.chars.take pos := by
        rw [List.take_take, Nat.min_eq_left (Nat.le_add_right pos n), List.take_append_of_le_length hpos]
      rw [← hfirst, List.take_append_drop]
    rw [hgrow, put_last hlong, Option.bind_eq_bind, Option.bind_some, htake, List.append_assoc,
      fillWith_mid hx, List.drop_eq_nil_of_le hle.1, List.append_nil, List.append_assoc]
    rw [List.length_drop, List.length_take, hlong]
    omega
  · case isFalse hge =>
    have hbody : s.body = s.chars ++ [0] := s.body_cases.resolve_left fun h => by
      rw [h.1, List.length_nil] at hge
      omega
    rw [hbody, List.length_append, List.length_singleton] at hge
    have hsplit : s.body = s.chars.take pos ++ ((s.chars.drop pos).take n ++ (s.chars.drop (pos + n) ++ [0])) := by
      rw [hbody, ← List.drop_drop, ← List.append_assoc ((s.chars.drop pos).take n), List.take_append_drop,
        ← List.append_assoc, List.take_append_drop]
    rw [Option.bind_eq_bind, Option.bind_some, hsplit, fillWith_mid hx]
    · simp only [List.append_assoc]
    · rw [List.length_take, List.length_drop]
      omega

theorem fill_edits (hp : pos < 2 ^ 64) (hn : n < 2 ^ 64) :
    EditsAs m s (.fill pos c n) ↔
      pos ≤ s.chars.length ∧ pos + n + 1 < 2 ^ 64 ∨ n = 0 ∧ pos = 2 ^ 64 - 1 := by
  have hlen := s.chars_fit
  have hbody : s.body.length = s.chars.length + 1 ∨ s.body.length = 0 ∧ s.chars.length = 0 := by
    rcases s.body_cases with ⟨hnil, hchars⟩ | hbody
    · rw [hnil, hchars]
      exact .inr ⟨rfl, rfl⟩
    · rw [hbody, List.length_append]
      exact .inl rfl
  have hmeaning : (meaning s.chars (.fill pos c n)).length =
      min pos s.chars.length + (n + (s.chars.length - (pos + n))) := by
    rw [meaning, List.length_append, List.length_append, List.length_take, List.length_replicate, List.length_drop]
  constructor
  · intro h
    cases hrun : fill m s.body pos c n with
    | none => exact absurd h (not_editsAs_of_none hrun)
    | some body' =>
        obtain ⟨hlen', hin⟩ := fill_length hrun
        by_contra hcond
        have hrun' : run m s.body (.fill pos c n) = some body' := hrun
        refine not_editsAs_of_length hrun' ?_ h
        rw [hmeaning]
        unfold size_t at hlen'
        omega
  · rintro (⟨hpos, hfit⟩ | ⟨rfl, rfl⟩)
    · refine .of_chars _ ?_ (fill_eq hpos hfit) rfl
      simp only [List.length_append, List.length_take, List.length_replicate, List.length_drop]
      omega
    refine .of_same ?_ ?_
    · have hwrap : size_t (2 ^ 64 - 1 + 0 + 1) = 0 := by
        unfold size_t
        omega
      change fill m s.body (2 ^ 64 - 1) c 0 = _
      rw [fill, hwrap, if_neg (Nat.not_lt_zero _)]
      rfl
    · rw [meaning, List.replicate_zero, List.nil_append, List.take_of_length_le (by omega),
        List.drop_eq_nil_of_le (by omega), List.append_nil]

theorem fill_all_edits (hn : n < 2 ^ 64) : EditsAs m s (.fill_all c n) ↔ n + 1 < 2 ^ 64 := by
  by_cases hzero : n = 0
  · subst hzero
    exact ⟨fun _ => Nat.one_lt_two_pow (by decide), fun _ => .of_nil rfl rfl⟩
  rw [← resize_edits (m := m) (s := empty_body) (c := c) hn]
  have hrun : run m s.body (.fill_all c n) = run m empty_body.body (.resize n c) :=
    if_pos (Nat.pos_of_ne_zero hzero)
  have hmeaning : meaning (empty_body (α := α)).chars (.resize n c) = meaning s.chars (.fill_all c n) := by
    change ([] : List α).take n ++ List.replicate (n - 0) c = List.replicate n c
    rw [List.take_nil, List.nil_append, Nat.sub_zero]
  unfold EditsAs
  rw [hrun, hmeaning]

/-! ### Trimming -/

variable (blank : α)

omit [Zero α] in
theorem skip_blanks_le (chars : List α) : skip_blanks blank chars ≤ chars.length := by
  induction chars with
  | nil => exact Nat.le_refl 0
  | cons c chars ih =>
      rw [skip_blanks, List.length_cons]
      split <;> omega

omit [Zero α] in
theorem drop_skip_blanks (chars : List α) :
    chars.drop (skip_blanks blank chars) = chars.dropWhile (· = blank) := by
  induction chars with
  | nil => rfl
  | cons c chars ih =>
      rw [skip_blanks, List.dropWhile_cons]
      by_cases hc : c = blank
      · rw [if_pos hc, if_pos (decide_eq_true hc), List.drop_succ_cons, ih]
      · rw [if_neg hc, if_neg (by simpa using hc), List.drop_zero]

omit [DecidableEq α] in
theorem body_of_long (h : ¬s.body.length ≤ 1) : s.body = s.chars ++ [0] ∧ s.body.length - 1 = s.chars.length := by
  rcases s.body_cases with ⟨hnil, -⟩ | hbody
  · rw [hnil] at h
    exact absurd (Nat.zero_le 1) h
  · refine ⟨hbody, ?_⟩
    rw [hbody, List.length_append, List.length_singleton, Nat.add_sub_cancel]

omit [DecidableEq α] in
theorem chars_of_short (h : s.body.length ≤ 1) : s.chars = [] := by
  rw [_qstring.chars]
  apply List.length_eq_zero_iff.mp
  rw [List.length_dropLast]
  omega

theorem ltrim_edits : EditsAs m s (.ltrim blank) := by
  have hlen := s.chars_fit
  by_cases hshort : s.body.length ≤ 1
  · refine .of_same (if_pos hshort) ?_
    rw [meaning, chars_of_short hshort, List.dropWhile_nil]
  obtain ⟨hbody, hsize⟩ := body_of_long hshort
  have htake : s.body.take (s.body.length - 1) = s.chars := by
    rw [hsize, hbody, List.take_left]
  have hle := skip_blanks_le blank s.chars
  have hmeaning : meaning s.chars (.ltrim blank) = s.chars.drop (skip_blanks blank s.chars) :=
    (drop_skip_blanks blank s.chars).symm
  have hrun : run m s.body (.ltrim blank) = if 0 < skip_blanks blank s.chars then
      (move s.body 0 (skip_blanks blank s.chars) (s.chars.length - skip_blanks blank s.chars + 1)).bind
        fun body => resize_zero body (s.chars.length - skip_blanks blank s.chars)
      else some s.body := by
    change ltrim s.body blank = _
    rw [ltrim, if_neg hshort]
    dsimp only
    rw [htake, hsize]
    rfl
  by_cases hblank : 0 < skip_blanks blank s.chars
  · rw [if_pos hblank] at hrun
    generalize skip_blanks blank s.chars = k at hle hmeaning hrun hblank
    have hmove := move_down [] (s.chars.take k) (s.chars.drop k ++ [0]) []
    rw [List.nil_append, List.append_nil, ← List.append_assoc, List.take_append_drop, ← hbody, List.length_nil,
      List.length_take_of_le hle, Nat.zero_add, List.length_append, List.length_drop, List.length_singleton] at hmove
    rw [hmove, Option.bind_some, resize_zero_shrink ?_ (by omega)] at hrun
    · by_cases hall : s.chars.length - k = 0
      · rw [if_pos hall] at hrun
        refine .of_nil hrun ?_
        rw [hmeaning, List.drop_eq_nil_of_le (by omega)]
      · rw [if_neg hall, List.nil_append, List.append_assoc, List.take_left' List.length_drop] at hrun
        refine .of_chars _ ?_ hrun hmeaning.symm
        rw [List.length_drop]
        omega
    · simp only [List.length_append, List.length_drop, List.length_singleton]
      omega
  · rw [if_neg hblank] at hrun
    refine .of_same hrun ?_
    rw [hmeaning, Nat.eq_zero_of_not_pos hblank, List.drop_zero]

omit [Zero α] [DecidableEq α] in
theorem trim_end_eq (blank : α → Bool) (rest : List α) {k : Nat} (chars : List α) (h : k ≤ chars.length) :
    trim_end (chars ++ rest) blank k chars.length = some (k + ((chars.drop k).rdropWhile blank).length) := by
  induction chars using List.reverseRecOn generalizing rest with
  | nil =>
      obtain rfl : k = 0 := Nat.le_zero.mp h
      rfl
  | append_singleton chars c ih =>
      rw [List.length_append, List.length_singleton] at h ⊢
      rw [trim_end]
      by_cases hm : k ≤ chars.length
      · have hget : (chars ++ [c] ++ rest)[chars.length]? = some c := by
          rw [List.append_assoc, List.getElem?_append_right (Nat.le_refl _), Nat.sub_self]
          rfl
        rw [if_pos (by omega), hget, List.drop_append_of_le_length hm]
        dsimp only
        split
        · case isTrue hc => rw [List.append_assoc, ih _ hm, List.rdropWhile_concat_pos _ _ _ hc]
        · case isFalse hc =>
          rw [List.rdropWhile_concat_neg _ _ _ hc, List.length_append, List.length_drop, List.length_singleton]
          congr 1
          omega
      · rw [if_neg (by omega), List.drop_eq_nil_of_le (by rw [List.length_append]; exact Nat.lt_of_not_le hm)]
        congr 1
        simp
        omega

omit [Zero α] [DecidableEq α] in
theorem trim_end_le {body : List α} {blank : α → Bool} {b : Int} {e e' : Nat}
    (h : trim_end body blank b e = some e') : e' ≤ e := by
  induction e with
  | zero =>
      rw [trim_end] at h
      split at h
      · cases h
      · exact Nat.le_of_eq (Option.some.inj h).symm
  | succ e ih =>
      rw [trim_end] at h
      split at h
      · split at h
        · split at h
          · exact Nat.le_succ_of_le (ih h)
          · exact Nat.le_of_eq (Option.some.inj h).symm
        · cases h
      · exact Nat.le_of_eq (Option.some.inj h).symm

theorem trimmed {op : Operation α} {blank : α → Bool} {k : Nat} (hbody : s.body = s.chars ++ [0]) (hm : k ≤ s.chars.length)
    (hrun : run m s.body op = (trim_end s.body blank k s.chars.length).bind (resize_zero s.body))
    (hmeaning : meaning s.chars op = s.chars.take k ++ (s.chars.drop k).rdropWhile blank) : EditsAs m s op := by
  have hlen := s.chars_fit
  have hprefix := List.rdropWhile_prefix blank (s.chars.drop k)
  have hle := hprefix.length_le
  rw [List.length_drop] at hle
  have htake : s.body.take (k + ((s.chars.drop k).rdropWhile blank).length) = meaning s.chars op := by
    rw [hmeaning, hbody, List.take_append_of_le_length (by omega), List.take_add]
    rw [← List.prefix_iff_eq_take.mp hprefix]
  have hlong : (meaning s.chars op).length = k + ((s.chars.drop k).rdropWhile blank).length := by
    rw [← htake, List.length_take, hbody, List.length_append]
    omega
  rw [hbody] at hrun
  rw [trim_end_eq blank [0] s.chars hm, Option.bind_some, ← hbody, ← hlong,
    resize_zero_shrink (by rw [hbody, List.length_append, List.length_singleton]; omega) (by omega), hlong, htake] at hrun
  by_cases hzero : k + ((s.chars.drop k).rdropWhile blank).length = 0
  · rw [if_pos hzero] at hrun
    exact .of_nil hrun (List.length_eq_zero_iff.mp (hlong.trans hzero))
  · rw [if_neg hzero] at hrun
    exact .of_chars _ (by omega) hrun rfl

theorem rtrim_wrapped {blank : α} (hbody : s.body = s.chars ++ [0]) :
    EditsAs m s (.rtrim blank (2 ^ 64 - 1)) ↔ ∃ c, s.chars.getLast? = some c ∧ c ≠ blank := by
  have hlen := s.chars_fit
  have hwrap : size_t (2 ^ 64 - 1 + 1) = 0 := Nat.mod_self _
  have hsize : s.body.length = s.chars.length + 1 := by
    rw [hbody, List.length_append, List.length_singleton]
  have hmeaning : meaning s.chars (.rtrim blank (2 ^ 64 - 1)) = s.chars := by
    rw [meaning, List.take_of_length_le (by omega), List.drop_eq_nil_of_le (by omega), List.rdropWhile_nil,
      List.append_nil]
  have hrun : run m s.body (.rtrim blank (2 ^ 64 - 1)) =
      (trim_end s.body (· = blank) (-1) s.chars.length).bind (resize_zero s.body) := by
    change rtrim s.body blank (2 ^ 64 - 1) = _
    rw [rtrim, lower_end, hwrap, hsize, if_pos (Nat.succ_pos _)]
    rfl
  rcases List.eq_nil_or_concat s.chars with hnil | ⟨chars, c, hchars⟩
  · rw [hnil]
    refine ⟨fun h => absurd h (not_editsAs_of_none ?_), fun ⟨c, hc, _⟩ => by cases hc⟩
    rw [hrun, hnil]
    rfl
  · rw [List.concat_eq_append] at hchars
    have hget : s.body[chars.length]? = some c := by
      rw [hbody, hchars, List.append_assoc, List.getElem?_append_right (Nat.le_refl _), Nat.sub_self]
      rfl
    have hlong : s.chars.length = chars.length + 1 := by
      rw [hchars, List.length_append, List.length_singleton]
    rw [hlong, trim_end, if_pos (by omega), hget] at hrun
    dsimp only at hrun
    rw [hchars, List.getLast?_concat]
    by_cases hc : c = blank
    · refine ⟨fun h => ?_, fun ⟨d, hd, hne⟩ => absurd (Option.some.inj hd ▸ hc) hne⟩
      rw [if_pos (decide_eq_true hc)] at hrun
      exfalso
      cases htrim : trim_end s.body (· = blank) (-1) chars.length with
      | none =>
          rw [htrim] at hrun
          exact not_editsAs_of_none hrun h
      | some e =>
          have hle := trim_end_le htrim
          rw [htrim, Option.bind_some, resize_zero_shrink (by omega) (by omega)] at hrun
          refine not_editsAs_of_length hrun ?_ h
          rw [hmeaning, hlong]
          split
          · exact Nat.ne_of_lt (Nat.succ_pos _)
          · rw [List.length_append, List.length_take, List.length_singleton]
            omega
    · refine ⟨fun _ => ⟨c, rfl, hc⟩, fun _ => ?_⟩
      rw [if_neg (by simpa using hc), Option.bind_some, ← hlong, resize_zero_shrink (by omega) hlen,
        if_neg (by omega), hbody, List.take_left] at hrun
      rw [← hbody] at hrun
      exact .of_same hrun hmeaning

theorem rtrim_edits (minlen : Nat) (hmin : minlen < 2 ^ 64) :
    EditsAs m s (.rtrim blank minlen) ↔
      (minlen = 2 ^ 64 - 1 → s.body = [] ∨ ∃ c, s.chars.getLast? = some c ∧ c ≠ blank) := by
  by_cases hwrap : minlen = 2 ^ 64 - 1
  · subst hwrap
    rcases s.body_cases with ⟨hnil, hchars⟩ | hbody
    · refine ⟨fun _ _ => .inl hnil, fun _ => .of_same ?_ ?_⟩
      · change rtrim s.body blank _ = _
        rw [rtrim, hnil, List.length_nil, if_neg (Nat.not_lt_zero _)]
      · rw [meaning, hchars, List.take_nil, List.drop_nil, List.rdropWhile_nil, List.append_nil]
    · rw [rtrim_wrapped hbody]
      have hne : s.body ≠ [] := by
        rw [hbody]
        exact List.concat_ne_nil _ _
      exact ⟨fun h _ => .inr h, fun h => (h rfl).resolve_left hne⟩
  · refine ⟨fun _ h => absurd h hwrap, fun _ => ?_⟩
    have hsize : size_t (minlen + 1) = minlen + 1 := size_t_of_lt (by omega)
    by_cases hlong : minlen + 1 < s.body.length
    · obtain ⟨hbody, hlen⟩ := body_of_long (s := s) (by omega)
      refine trimmed (k := minlen) hbody (by omega) ?_ rfl
      change rtrim s.body blank minlen = _
      rw [rtrim, lower_end, hsize, if_pos hlong, hlen, Int.natCast_succ, Int.add_sub_cancel]
      rfl
    · refine .of_same ?_ ?_
      · change rtrim s.body blank minlen = _
        rw [rtrim, hsize, if_neg hlong]
      · have hle : s.chars.length ≤ minlen := by
          rw [_qstring.chars, List.length_dropLast]
          omega
        rw [meaning, List.take_of_length_le hle, List.drop_eq_nil_of_le hle, List.rdropWhile_nil, List.append_nil]

theorem rtrim_space_edits {qisspace : α → Bool} : EditsAs m s (.rtrim_space qisspace) := by
  by_cases hshort : s.body.length ≤ 1
  · refine .of_same (if_pos hshort) ?_
    rw [meaning, chars_of_short hshort, List.rdropWhile_nil]
  obtain ⟨hbody, hlen⟩ := body_of_long hshort
  have hrun : run m s.body (.rtrim_space qisspace) =
      (trim_end s.body qisspace (0 : Nat) s.chars.length).bind (resize_zero s.body) := by
    change rtrim_space s.body qisspace = _
    rw [rtrim_space, if_neg hshort, hlen]
    rfl
  refine trimmed hbody (Nat.zero_le _) hrun ?_
  rw [meaning, List.take_zero, List.drop_zero, List.nil_append]

theorem trim2_edits {blank : α} : EditsAs m s (.trim2 blank) := by
  obtain ⟨t, ht, htchars⟩ := (rtrim_edits (m := m) (s := s) blank 0 (Nat.two_pow_pos 64)).mpr
    fun h => absurd h (Nat.ne_of_lt (Nat.sub_pos_of_lt (Nat.one_lt_two_pow (by decide))))
  obtain ⟨u, hu, huchars⟩ := ltrim_edits (m := m) (s := t) blank
  refine ⟨u, ?_, ?_⟩
  · change trim2 s.body blank = _
    change rtrim s.body blank 0 = some t.body at ht
    rw [trim2, ht]
    exact hu
  · rw [huchars, htchars]
    rfl

/-- The arguments for which an operation is right. -/
def Agrees (s : _qstring α) : Operation α → Prop
  | .resize n _ => n + 1 < 2 ^ 64
  | .resize_zero n => n + 1 < 2 ^ 64
  | .remove idx cnt => idx < s.chars.length → idx + cnt < 2 ^ 64
  | .insert_char _ _ => s.chars.length + 2 < 2 ^ 64
  | .insert _ str => s.chars.length + str.length + 1 < 2 ^ 64
  | .append_char _ => s.chars.length + 2 < 2 ^ 64
  | .append str => s.chars.length + str.length + 1 < 2 ^ 64
  | .append_qstring str => s.chars.length + str.chars.length + 1 < 2 ^ 64
  | .fill pos _ n => pos ≤ s.chars.length ∧ pos + n + 1 < 2 ^ 64 ∨ n = 0 ∧ pos = 2 ^ 64 - 1
  | .fill_all _ n => n + 1 < 2 ^ 64
  | .rtrim blank minlen => minlen = 2 ^ 64 - 1 → s.body = [] ∨ ∃ c, s.chars.getLast? = some c ∧ c ≠ blank
  | _ => True

end Results

def ab : _qstring Nat := body_of [97, 98] (by decide)

end IdaSdk.Qstring
