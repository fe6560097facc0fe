import IdaSdk.BackwardFlowBlocks

/-!
What one call of `prev_insn` preserves. Blocks are disjoint, and whatever an instruction that has been walked over can
be reached from has been walked over too, is the current instruction, or waits.
-/

namespace IdaSdk.BackwardFlow

section
variable {State : Type} (img : image_t)

/-- The instruction is in a visited block, or in the current one behind the current instruction. -/
def Walked (it : iterator_t State) (x : Nat) : Prop :=
  Covered it.visited x ∨ ∃ e, it.cur_end = some e ∧ it.cur_ea < x ∧ x ≤ e

/-- The state between two calls. -/
structure Iterating (it : iterator_t State) : Prop where
  near : it.only_near = false
  max : it.max_insn_cnt = 0
  blocks : Blocks img it.visited
  cur : it.cur_ea ∈ img.heads
  inside : img.contains it.cur_ea = true
  block : ∀ e, it.cur_end = some e → e ∈ img.heads ∧ it.cur_ea < e ∧
    ∀ x ∈ img.heads, it.cur_ea < x → x ≤ e → img.contains x = true ∧ ¬Covered it.visited x
  waiting : ∀ k, (it.waiting.find k).isSome = true → k ∈ img.heads
  closed : ∀ x ∈ img.heads, img.contains x = true → Walked it x → ∀ y, Edge img y x → img.contains y = true →
    Walked it y ∨ y = it.cur_ea ∨ (it.waiting.find y).isSome = true

/-- The state when a block has ended. -/
structure Ended (it : iterator_t State) : Prop where
  near : it.only_near = false
  max : it.max_insn_cnt = 0
  blocks : Blocks img it.visited
  waiting : ∀ k, (it.waiting.find k).isSome = true → k ∈ img.heads
  closed : ∀ x ∈ img.heads, img.contains x = true → Covered it.visited x → ∀ y, Edge img y x → img.contains y = true →
    Covered it.visited y ∨ (it.waiting.find y).isSome = true

/-- What waits once the jumps to the current instruction have been scanned. -/
def Scanned (it : iterator_t State) (waiting : Table Nat (state_t State)) : Prop :=
  ∀ k, (waiting.find k).isSome = true ↔
    (it.waiting.find k).isSome = true ∨ (Jumps img k it.cur_ea ∧ it.find_visited k = none)

/-- Exactly the current instruction has been walked over in addition. -/
structure Walks (it : iterator_t State) (walked : Nat → Prop) : Prop where
  old : ∀ x, Walked it x ∨ x = it.cur_ea → walked x
  new : ∀ x ∈ img.heads, img.contains x = true → walked x → Walked it x ∨ x = it.cur_ea

end

section
variable {State : Type} {img : image_t} {ctrl : ctrl_t State} {it it' : iterator_t State} {x y p s e c : Nat}
  {waiting : Table Nat (state_t State)}

theorem Iterating.end (h : Iterating img it) :
    it.cur_end.getD it.cur_ea ∈ img.heads ∧ it.cur_ea ≤ it.cur_end.getD it.cur_ea ∧
    ∀ x ∈ img.heads, it.cur_ea < x → x ≤ it.cur_end.getD it.cur_ea →
      img.contains x = true ∧ ¬Covered it.visited x ∧ Walked it x := by
  cases hend : it.cur_end with
  | none => exact ⟨h.cur, Nat.le_refl _, fun x _ hlt hle => absurd hlt (Nat.not_lt.2 hle)⟩
  | some e =>
      obtain ⟨hmem, hlt, hall⟩ := h.block e hend
      refine ⟨hmem, hlt.le, fun x hx hxlt hxle => ?_⟩
      obtain ⟨hin, hnot⟩ := hall x hx hxlt hxle
      exact ⟨hin, hnot, Or.inr ⟨e, hend, hxlt, hxle⟩⟩

theorem Iterating.scanned (h : Iterating img it) (hscan : Scanned img it waiting)
    (hx : x ∈ img.heads) (hin : img.contains x = true) (hw : Walked it x ∨ x = it.cur_ea) (hedge : Edge img y x)
    (hiny : img.contains y = true) : Walked it y ∨ y = it.cur_ea ∨ (waiting.find y).isSome = true ∨
      (x = it.cur_ea ∧ Falls img y it.cur_ea) := by
  obtain hw | rfl := hw
  · obtain hy | rfl | hy := h.closed x hx hin hw y hedge hiny
    · exact Or.inl hy
    · exact Or.inr (Or.inl rfl)
    · exact Or.inr (Or.inr (Or.inl ((hscan y).2 (Or.inl hy))))
  · obtain hfalls | hjump := hedge
    · exact Or.inr (Or.inr (Or.inr ⟨rfl, hfalls⟩))
    · by_cases hcovered : Covered it.visited y
      · exact Or.inl (Or.inl hcovered)
      · exact Or.inr (Or.inr (Or.inl ((hscan y).2 (Or.inr ⟨hjump, (find_visited_none h.blocks).2 hcovered⟩))))

theorem Iterating.scanned_mem (h : Iterating img it) (hscan : Scanned img it waiting) (k : Nat)
    (hk : (waiting.find k).isSome = true) : k ∈ img.heads := by
  obtain hk | ⟨hjump, -⟩ := (hscan k).1 hk
  · exact h.waiting k hk
  · exact hjump.mem

theorem Iterating.falls (h : Iterating img it) (hnone : it.find_visited it.cur_ea = none)
    (hscan : Scanned img it waiting)
    (hfalls : Falls img p it.cur_ea) (hinp : img.contains p = true) (hcur : it'.cur_ea = p)
    (hend : it'.cur_end = some (it.cur_end.getD it.cur_ea)) (hvisited : it'.visited = it.visited)
    (hnear : it'.only_near = it.only_near) (hmax : it'.max_insn_cnt = it.max_insn_cnt)
    (hwaiting : ∀ k, (it'.waiting.find k).isSome = true ↔ (waiting.find k).isSome = true ∧ k ≠ p) :
    Iterating img it' ∧ Walks img it (Walked it') := by
  obtain ⟨hpmem, hplt, hprev⟩ := prev_not_tail_some hfalls.2
  obtain ⟨hemem, hele, hall⟩ := h.end
  have hnot : ¬Covered it.visited it.cur_ea := (find_visited_none h.blocks).1 hnone
  have hbehind (x : Nat) (hx : x ∈ img.heads) (hlt : p < x) (hle : x ≤ it.cur_end.getD it.cur_ea) :
      x = it.cur_ea ∨ (it.cur_ea < x ∧ x ≤ it.cur_end.getD it.cur_ea) := by
    by_cases hxlt : x < it.cur_ea
    · have hxp := hprev x hx hxlt
      omega
    · omega
  have hwalks : Walks img it (Walked it') := by
    refine ⟨fun x hw => ?_, fun x hx _ hw => ?_⟩
    · obtain (hcovered | ⟨e, he, hlt, hle⟩) | rfl := hw
      · exact Or.inl (hvisited.symm ▸ hcovered)
      · refine Or.inr ⟨_, hend, hcur ▸ hplt.trans hlt, ?_⟩
        rw [he]
        exact hle
      · exact Or.inr ⟨_, hend, hcur ▸ hplt, hele⟩
    · obtain hcovered | ⟨e, he, hlt, hle⟩ := hw
      · exact Or.inl (Or.inl (hvisited ▸ hcovered))
      · obtain rfl := Option.some.inj (hend.symm.trans he)
        obtain rfl | ⟨hxlt, hxle⟩ := hbehind x hx (hcur ▸ hlt) hle
        · exact Or.inr rfl
        · exact Or.inl (hall x hx hxlt hxle).2.2
  refine ⟨⟨hnear.trans h.near, hmax.trans h.max, hvisited.symm ▸ h.blocks, hcur.symm ▸ hpmem, hcur.symm ▸ hinp,
    fun e he => ?_, fun k hk => h.scanned_mem hscan k ((hwaiting k).1 hk).1, fun x hx hin hw y hedge hiny => ?_⟩,
    hwalks⟩
  · obtain rfl := Option.some.inj (hend.symm.trans he)
    rw [hcur, hvisited]
    refine ⟨hemem, hplt.trans_le hele, fun x hx hlt hle => ?_⟩
    obtain rfl | ⟨hxlt, hxle⟩ := hbehind x hx hlt hle
    · exact ⟨h.inside, hnot⟩
    · exact ⟨(hall x hx hxlt hxle).1, (hall x hx hxlt hxle).2.1⟩
  · rw [hcur]
    obtain hy | rfl | hy | ⟨rfl, hfalls'⟩ := h.scanned hscan hx hin (hwalks.new x hx hin hw) hedge hiny
    · exact Or.inl (hwalks.old y (Or.inl hy))
    · exact Or.inl (hwalks.old _ (Or.inr rfl))
    · by_cases hyp : y = p
      · exact Or.inr (Or.inl hyp)
      · exact Or.inr (Or.inr ((hwaiting y).2 ⟨hy, hyp⟩))
    · exact Or.inr (Or.inl (Option.some.inj (hfalls'.2.symm.trans hfalls.2)))

/-! ### The end of a block -/

section
variable {visited visited' : Table Nat Nat}

theorem Blocks.put (h : Blocks img visited) (hfind : ∀ k, visited'.find k = if k = c then some e else visited.find k)
    (hce : c ≤ e) (hc : c ∈ img.heads) (he : e ∈ img.heads)
    (hinside : ∀ x ∈ img.heads, c < x → x ≤ e → img.contains x = true) (houtside : img.contains c = false → c < e)
    (hdisjoint : ∀ s' e', s' ≠ c → visited.find s' = some e' → e < s' ∨ e' < c) : Blocks img visited' := by
  have hcases {s' e' : Nat} (hs : visited'.find s' = some e') :
      (s' = c ∧ e' = e) ∨ (s' ≠ c ∧ visited.find s' = some e') := by
    rw [hfind] at hs
    split_ifs at hs with hsc
    · exact Or.inl ⟨hsc, (Option.some.inj hs).symm⟩
    · exact Or.inr ⟨hsc, hs⟩
  refine ⟨fun s' e' hs => ?_, fun s' e' hs => ?_, fun s' e' hs => ?_, fun s' e' hs => ?_,
    fun s' e' s'' e'' hs hs' hne => ?_⟩
  · obtain ⟨rfl, rfl⟩ | ⟨-, hs⟩ := hcases hs
    · exact hce
    · exact h.le s' e' hs
  · obtain ⟨rfl, rfl⟩ | ⟨-, hs⟩ := hcases hs
    · exact ⟨hc, he⟩
    · exact h.heads s' e' hs
  · obtain ⟨rfl, rfl⟩ | ⟨-, hs⟩ := hcases hs
    · exact hinside
    · exact h.inside s' e' hs
  · obtain ⟨rfl, rfl⟩ | ⟨-, hs⟩ := hcases hs
    · exact houtside
    · exact h.outside s' e' hs
  obtain ⟨rfl, rfl⟩ | ⟨hsc, hs⟩ := hcases hs
  · obtain ⟨rfl, rfl⟩ | ⟨hsc', hs'⟩ := hcases hs'
    · exact (hne rfl).elim
    · exact hdisjoint s'' e'' hsc' hs'
  · obtain ⟨rfl, rfl⟩ | ⟨-, hs'⟩ := hcases hs'
    · exact (hdisjoint s' e' hsc hs).symm
    · exact h.disjoint s' e' s'' e'' hs hs' hne

theorem covered_put (hfind : ∀ k, visited'.find k = if k = c then some e else visited.find k)
    (hold : ∀ e', visited.find c = some e' → e' ≤ e) :
    Covered visited' x ↔ Covered visited x ∨ (c ≤ x ∧ x ≤ e) := by
  constructor
  · rintro ⟨s', e', hs, hle, hle'⟩
    rw [hfind] at hs
    split_ifs at hs with hsc
    · obtain rfl := Option.some.inj hs
      exact Or.inr ⟨hsc ▸ hle, hle'⟩
    · exact Or.inl ⟨s', e', hs, hle, hle'⟩
  · rintro (⟨s', e', hs, hle, hle'⟩ | ⟨hle, hle'⟩)
    · by_cases hsc : s' = c
      · subst hsc
        exact ⟨s', e, by rw [hfind, if_pos rfl], hle, hle'.trans (hold e' hs)⟩
      · exact ⟨s', e', by rw [hfind, if_neg hsc]; exact hs, hle, hle'⟩
    · exact ⟨c, e, by rw [hfind, if_pos rfl], hle, hle'⟩

end

/-- The block is saved from the current instruction on, or from one above it that is out of bounds. -/
theorem Iterating.saves (h : Iterating img it) (hnone : it.find_visited it.cur_ea = none)
    (hscan : Scanned img it waiting) (hstop : ∀ p, Falls img p it.cur_ea → img.contains p = false)
    (hc : c = it.cur_ea ∨ Falls img c it.cur_ea) (hnear : it'.only_near = it.only_near)
    (hmax : it'.max_insn_cnt = it.max_insn_cnt)
    (hvisited : it'.visited = it.visited.access c 0 fun _ => it.cur_end.getD it.cur_ea)
    (hwaiting : it'.waiting = waiting) :
    Ended img it' ∧ Walks img it (Covered it'.visited) := by
  obtain ⟨hemem, hele, hall⟩ := h.end
  have hnot : ¬Covered it.visited it.cur_ea := (find_visited_none h.blocks).1 hnone
  have hcmem : c ∈ img.heads ∧ c ≤ it.cur_ea ∧ (∀ x ∈ img.heads, c < x → it.cur_ea ≤ x) ∧
      (c ≠ it.cur_ea → img.contains c = false) := by
    obtain rfl | hfalls := hc
    · exact ⟨h.cur, Nat.le_refl _, fun x _ hlt => hlt.le, fun hne => (hne rfl).elim⟩
    obtain ⟨hmem, hlt, hprev⟩ := prev_not_tail_some hfalls.2
    refine ⟨hmem, hlt.le, fun x hx hcx => ?_, fun _ => hstop c hfalls⟩
    by_contra hxlt
    have hxc := hprev x hx (Nat.lt_of_not_le hxlt)
    omega
  obtain ⟨hcheads, hcle, hnext, hout⟩ := hcmem
  -- no item of the block has been visited
  have hfree (x : Nat) (hx : x ∈ img.heads) (hlt : it.cur_ea ≤ x) (hle : x ≤ it.cur_end.getD it.cur_ea) :
      ¬Covered it.visited x := by
    obtain rfl | hlt := Nat.eq_or_lt_of_le hlt
    · exact hnot
    · exact (hall x hx hlt hle).2.1
  have hdisjoint (s' e' : Nat) (hs : it.visited.find s' = some e') : it.cur_end.getD it.cur_ea < s' ∨ e' < c := by
    obtain ⟨hsmem, hemem'⟩ := h.blocks.heads s' e' hs
    have hle := h.blocks.le s' e' hs
    by_contra hno
    rw [not_or, Nat.not_lt, Nat.not_lt] at hno
    obtain ⟨hs', he'⟩ := hno
    have hslt : s' < it.cur_ea := by
      by_contra hge
      exact hfree s' hsmem (Nat.le_of_not_lt hge) hs' ⟨s', e', hs, Nat.le_refl _, hle⟩
    have helt : e' < it.cur_ea := by
      by_contra hge
      exact hnot ⟨s', e', hs, hslt.le, Nat.le_of_not_lt hge⟩
    have hec : e' = c := by
      by_contra hne
      have hge := hnext e' hemem' (by omega)
      omega
    have hcin := hout (by omega)
    by_cases hsc : s' = c
    · have hlt := h.blocks.outside s' e' hs (hsc ▸ hcin)
      omega
    · have hin := h.blocks.inside s' e' hs c hcheads (by omega) hec.ge
      exact Bool.false_ne_true (hcin.symm.trans hin)
  have hnokey : it.visited.find c = none := by
    cases hkey : it.visited.find c with
    | none => rfl
    | some e' =>
        have hle := h.blocks.le c e' hkey
        obtain hlt | hlt := hdisjoint c e' hkey
        · omega
        · omega
  have hfind (k : Nat) :
      it'.visited.find k = if k = c then some (it.cur_end.getD it.cur_ea) else it.visited.find k := by
    rw [hvisited, Table.find_access]
  have hcovered (x : Nat) : Covered it'.visited x ↔ Covered it.visited x ∨ (c ≤ x ∧ x ≤ it.cur_end.getD it.cur_ea) :=
    covered_put hfind fun e' he' => nomatch hnokey.symm.trans he'
  have hinblock (x : Nat) (hx : x ∈ img.heads) (hcx : c < x) (hle : x ≤ it.cur_end.getD it.cur_ea) :
      img.contains x = true ∧ (Walked it x ∨ x = it.cur_ea) := by
    obtain heq | hlt := Nat.eq_or_lt_of_le (hnext x hx hcx)
    · exact ⟨heq ▸ h.inside, Or.inr heq.symm⟩
    · obtain ⟨hin, -, hw⟩ := hall x hx hlt hle
      exact ⟨hin, Or.inl hw⟩
  have hwalks : Walks img it (Covered it'.visited) := by
    refine ⟨fun x hw => (hcovered x).2 ?_, fun x hx hin hw => ?_⟩
    · obtain (hold | ⟨e, he, hlt, hle⟩) | rfl := hw
      · exact Or.inl hold
      · refine Or.inr ⟨by omega, ?_⟩
        rw [he]
        exact hle
      · exact Or.inr ⟨hcle, hele⟩
    · obtain hold | ⟨hle, hle'⟩ := (hcovered x).1 hw
      · exact Or.inl (Or.inl hold)
      obtain rfl | hlt := Nat.eq_or_lt_of_le hle
      · by_cases hne : c = it.cur_ea
        · exact Or.inr hne
        · exact (Bool.false_ne_true ((hout hne).symm.trans hin)).elim
      · exact (hinblock x hx hlt hle').2
  refine ⟨⟨hnear.trans h.near, hmax.trans h.max, ?_, fun k hk => h.scanned_mem hscan k (hwaiting ▸ hk),
    fun x hx hin hw y hedge hiny => ?_⟩, hwalks⟩
  · refine h.blocks.put hfind (hcle.trans hele) hcheads hemem (fun x hx hlt hle => (hinblock x hx hlt hle).1)
      (fun hin => ?_) fun s' e' _ hs => hdisjoint s' e' hs
    refine Nat.lt_of_lt_of_le (Nat.lt_of_le_of_ne hcle fun heq => ?_) hele
    exact Bool.false_ne_true (hin.symm.trans (heq ▸ h.inside))
  · obtain hy | rfl | hy | ⟨-, hfalls⟩ := h.scanned hscan hx hin (hwalks.new x hx hin hw) hedge hiny
    · exact Or.inl (hwalks.old y (Or.inl hy))
    · exact Or.inl (hwalks.old _ (Or.inr rfl))
    · exact Or.inr (hwaiting.symm ▸ hy)
    · exact (Bool.false_ne_true ((hstop y hfalls).symm.trans hiny)).elim

/-- A visited block that has been reached is extended. -/
theorem Iterating.extends (h : Iterating img it) (hfound : it.find_visited it.cur_ea = some (s, e)) :
    Ended img (extend_block s it) ∧ Walks img it (Covered (extend_block s it).visited) := by
  obtain ⟨hfind, hse, hle⟩ := find_visited_some hfound
  have hself : Covered it.visited it.cur_ea := ⟨s, e, hfind, hse, hle⟩
  cases hend : it.cur_end with
  | none =>
      have heq : extend_block s it = it := by rw [extend_block, hend]
      have hwalked (x : Nat) : Walked it x ↔ Covered it.visited x := by
        constructor
        · rintro (hcovered | ⟨e', he', -⟩)
          · exact hcovered
          · cases hend.symm.trans he'
        · exact Or.inl
      rw [heq]
      refine ⟨⟨h.near, h.max, h.blocks, h.waiting, fun x hx hin hw y hedge hiny => ?_⟩, fun x hw => ?_,
        fun x _ _ hw => Or.inl (Or.inl hw)⟩
      · obtain hy | rfl | hy := h.closed x hx hin (Or.inl hw) y hedge hiny
        · exact Or.inl ((hwalked y).1 hy)
        · exact Or.inl hself
        · exact Or.inr hy
      · obtain hw | rfl := hw
        · exact (hwalked x).1 hw
        · exact hself
  | some e' =>
      have heq : extend_block s it = { it with visited := it.visited.modify s fun _ => e' } := by
        rw [extend_block, hend]
      obtain ⟨hemem', hlt, hall⟩ := h.block e' hend
      obtain ⟨hsmem, hemem⟩ := h.blocks.heads s e hfind
      have hecur : e = it.cur_ea := by
        by_contra hne
        have hcurlt : it.cur_ea < e := by omega
        by_cases hee : e ≤ e'
        · exact (hall e hemem hcurlt hee).2 ⟨s, e, hfind, h.blocks.le s e hfind, Nat.le_refl e⟩
        · exact (hall e' hemem' hlt (Nat.le_refl e')).2 ⟨s, e, hfind, by omega, by omega⟩
      have hfind' (k : Nat) :
          (it.visited.modify s fun _ => e').find k = if k = s then some e' else it.visited.find k := by
        rw [Table.find_modify]
        split_ifs with hks
        · rw [hks, hfind]
          rfl
        · rfl
      have hcovered (x : Nat) :
          Covered (it.visited.modify s fun _ => e') x ↔ Covered it.visited x ∨ (s ≤ x ∧ x ≤ e') := by
        refine covered_put hfind' fun e'' he'' => ?_
        obtain rfl := Option.some.inj (hfind.symm.trans he'')
        omega
      have hwalked (x : Nat) : Walked it x ↔ Covered (it.visited.modify s fun _ => e') x := by
        rw [hcovered]
        constructor
        · rintro (hx | ⟨e'', he'', hxlt, hxle⟩)
          · exact Or.inl hx
          · obtain rfl := Option.some.inj (hend.symm.trans he'')
            exact Or.inr ⟨by omega, hxle⟩
        · rintro (hx | ⟨hsx, hxle⟩)
          · exact Or.inl hx
          · by_cases hxcur : x ≤ it.cur_ea
            · exact Or.inl ⟨s, e, hfind, hsx, by omega⟩
            · exact Or.inr ⟨e', hend, Nat.lt_of_not_le hxcur, hxle⟩
      rw [heq]
      refine ⟨⟨h.near, h.max, ?_, h.waiting, fun x hx hin hw y hedge hiny => ?_⟩, fun x hw => ?_,
        fun x _ _ hw => Or.inl ((hwalked x).2 hw)⟩
      · refine h.blocks.put hfind' (by omega) hsmem hemem' (fun x hx hsx hxle => ?_)
          (fun hout => ?_) fun s' e'' hne hs' => ?_
        · by_cases hxcur : x ≤ it.cur_ea
          · exact h.blocks.inside s e hfind x hx hsx (by omega)
          · exact (hall x hx (Nat.lt_of_not_le hxcur) hxle).1
        · have hlt' := h.blocks.outside s e hfind hout
          omega
        obtain ⟨hsmem', -⟩ := h.blocks.heads s' e'' hs'
        have hle' := h.blocks.le s' e'' hs'
        obtain hdis | hdis := h.blocks.disjoint s e s' e'' hfind hs' hne.symm
        · refine Or.inl ?_
          by_contra hno
          exact (hall s' hsmem' (by omega) (by omega)).2 ⟨s', e'', hs', Nat.le_refl s', hle'⟩
        · exact Or.inr hdis
      · obtain hy | rfl | hy := h.closed x hx hin ((hwalked x).2 hw) y hedge hiny
        · exact Or.inl ((hwalked y).1 hy)
        · exact Or.inl ((hcovered _).2 (Or.inl hself))
        · exact Or.inr hy
      · obtain hw | rfl := hw
        · exact (hwalked x).1 hw
        · exact (hcovered _).2 (Or.inl hself)

end

end IdaSdk.BackwardFlow
