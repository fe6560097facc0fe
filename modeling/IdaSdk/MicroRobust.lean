import IdaSdk.MicroInsn
import IdaSdk.MicroSound
import Mathlib.Data.Fintype.Pigeonhole

/-!
When the verifier terminates and reads only what is there. Each wrong read has its place in the checks of one block;
loops go on for ever only along a list of instructions that comes back to itself.
-/

namespace IdaSdk.Micro
open StepMachine Verdict

/-! ### Wrong reads -/

section
variable {A I B V : Type}

theorem Verdict.forM_eq_fault {α : Type} {f : α → Verdict Unit} {xs : List α} :
    xs.forM f = .error .fault ↔ ∃ pre x post, xs = pre ++ x :: post ∧ (∀ y ∈ pre, f y = .ok ()) ∧ f x = .error .fault := by
  induction xs with
  | nil => simp [pure, Except.pure]
  | cons x xs ih =>
      rw [List.forM, bind_eq_fault, exists_unit, ih]
      constructor
      · rintro (h | ⟨h, pre, y, post, rfl, hpre, hy⟩)
        · exact ⟨[], x, xs, rfl, by simp, h⟩
        · exact ⟨x :: pre, y, post, rfl, by simpa using ⟨h, hpre⟩, hy⟩
      rintro ⟨pre, y, post, heq, hpre, hy⟩
      cases pre with
      | nil =>
          obtain ⟨rfl, rfl⟩ := List.cons.inj heq
          exact Or.inl hy
      | cons z pre =>
          obtain ⟨rfl, rfl⟩ := List.cons.inj heq
          exact Or.inr ⟨hpre _ List.mem_cons_self, pre, y, post, rfl, fun y hy => hpre y (List.mem_cons_of_mem _ hy), hy⟩

def NoBlock (mba : Mba A I B V) (n : Int) : Prop := n < 0 ∨ mba.qty ≤ n ∨ mba.natural[n.toNat]? = some none

variable {mba : Mba A I B V}

theorem verifyPred_eq_fault {serial p : Int} :
    verifyPred mba serial p = .error .fault ↔ NoBlock mba p := by
  simp only [verifyPred, bind_eq_fault, readAt_eq_fault, readAt_eq_ok, deref_eq_fault, deref_eq_ok, interrIf_ne_fault,
    and_false, exists_false, or_false, NoBlock, Mba.qty]
  constructor
  · rintro ((h | h) | ⟨_, ⟨-, h⟩, rfl⟩)
    · exact Or.inl h
    · exact Or.inr (Or.inl h)
    · exact Or.inr (Or.inr h)
  · intro h
    by_cases hneg : p < 0 ∨ mba.natural.length ≤ p
    · exact Or.inl hneg
    refine Or.inr ⟨none, ⟨by omega, ?_⟩, rfl⟩
    rcases h with h | h | h
    · exact absurd (Or.inl h) hneg
    · exact absurd (Or.inr h) hneg
    · exact h

theorem verifySucc_eq_fault {serial n : Int} :
    verifySucc mba serial n = .error .fault ↔ (0 ≤ n ∧ n < mba.qty) ∧ NoBlock mba n := by
  simp only [verifySucc, bind_eq_fault, exists_unit, readAt_eq_fault, readAt_eq_ok, deref_eq_fault, deref_eq_ok,
    interrIf_ne_fault, interrIf_eq_ok, and_false, exists_false, or_false, false_or, Bool.or_eq_false_iff,
    decide_eq_false_iff_not, Int.not_lt, ge_iff_le, Int.not_le, NoBlock, Mba.qty]
  constructor
  · rintro ⟨hn, (h | h) | ⟨_, ⟨-, h⟩, rfl⟩⟩
    · omega
    · omega
    · exact ⟨by omega, Or.inr (Or.inr h)⟩
  · rintro ⟨hn, h | h | h⟩
    · omega
    · omega
    · exact ⟨by omega, Or.inr ⟨none, ⟨hn.1, h⟩, rfl⟩⟩

/-- The tail of the block is a table jump without its list of cases. -/
def MissingCases (mba : Mba A I B V) (b : Mblock I B) : Prop :=
  ∃ tail info, b.tail = some tail ∧ (mba.insn tail).opcode = .jtbl ∧ (mba.insn tail).r = .null info .c

variable {env : Env A I B V}

theorem outs_eq_fault {b : Mblock I B} {ns : Nat} :
    outs env mba ns b = .error .fault ↔ MissingCases mba b := by
  unfold outs MissingCases
  cases htail : b.tail with
  | none => simp
  | some tail =>
      dsimp only
      split
      next hop =>
        cases hr : (mba.insn tail).r with
        | null info t => cases t <;> simp [hop, hr]
        | _ => simp [hr]
      next hop => cases hl : (mba.insn tail).l <;> simp [hop]
      all_goals simp_all

variable {this : B}

theorem expectedSuccs_ne_fault :
    expectedSuccs env mba this ≠ .error .fault := by
  unfold expectedSuccs
  dsimp only
  split
  case h_4 => split_ifs <;> simp [bind_eq_fault]
  all_goals simp [bind_eq_fault]

/-- The checks of the successors come to the loop over them. -/
def SuccsCounted (env : Env A I B V) (mba : Mba A I B V) (this : B) : Prop :=
  (mba.block this).type ≠ .none ∧ expectedSuccs env mba this = .ok (mba.block this).succset.length ∧
    ((mba.block this).type = .nWay ↔ tailOpcode mba (mba.block this) = some .jtbl)

theorem verifySuccset_eq_fault :
    verifySuccset env mba this = .error .fault ↔ SuccsCounted env mba this ∧
      ((∃ (pre : List Int) (n : Int) (post : List Int), (mba.block this).succset = pre ++ n :: post ∧
        (∀ m ∈ pre, verifySucc mba (mba.block this).serial m = .ok ()) ∧ (0 ≤ n ∧ n < mba.qty) ∧ NoBlock mba n) ∨
      (∀ n ∈ (mba.block this).succset, verifySucc mba (mba.block this).serial n = .ok ()) ∧
        MissingCases mba (mba.block this)) := by
  unfold verifySuccset SuccsCounted
  by_cases htype : (mba.block this).type = .none
  · simp [htype, pure, Except.pure]
  simp only [htype, ne_eq, not_false_eq_true, if_true, bind_eq_fault, exists_unit, interrIf_ne_fault, interrIf_eq_ok,
    expectedSuccs_ne_fault, forM_eq_fault, forM_eq_ok, outs_eq_fault, verifySucc_eq_fault, false_or, and_false,
    exists_false, or_false, decide_eq_false_iff_not, not_not, decide_eq_decide, true_and]
  constructor
  · rintro ⟨ns, hns, hjtbl, rfl, h⟩
    exact ⟨⟨hns, hjtbl⟩, h⟩
  · rintro ⟨⟨hns, hjtbl⟩, h⟩
    exact ⟨_, hns, hjtbl, rfl, h⟩

/-- An index of an argument is out of range, and the arguments before it pass. -/
def ArgOutside (env : Env A I B V) (mba : Mba A I B V) : Prop :=
  ∃ (k : Nat) (ai : Int), mba.argidx[k]? = some ai ∧ (ai < 0 ∨ mba.vars.length ≤ ai) ∧
    ∀ j < k, ∃ aj v, mba.argidx[j]? = some aj ∧ readAt mba.vars aj = .ok v ∧ raise (env.arg j v) = .ok ()

theorem verifyArgs_eq_fault {k : Nat} {argidx : List Int} :
    verifyArgs env mba k argidx = .error .fault ↔
      ∃ (l : Nat) (ai : Int), argidx[l]? = some ai ∧ (ai < 0 ∨ mba.vars.length ≤ ai) ∧
        ∀ j < l, ∃ aj v, argidx[j]? = some aj ∧ readAt mba.vars aj = .ok v ∧ raise (env.arg (k + j) v) = .ok () := by
  induction argidx generalizing k with
  | nil => simp [verifyArgs]
  | cons ai argidx ih =>
      simp only [verifyArgs, bind_eq_fault, exists_unit, readAt_eq_fault, raise_ne_fault, false_or, ih]
      constructor
      · rintro (h | ⟨v, hv, hpass, l, al, hl, hout, hbefore⟩)
        · exact ⟨0, ai, rfl, h, by simp⟩
        refine ⟨l + 1, al, by simpa using hl, hout, fun j hj => ?_⟩
        cases j with
        | zero => exact ⟨ai, v, rfl, hv, hpass⟩
        | succ j =>
            obtain ⟨aj, v', haj, hv', hpass'⟩ := hbefore j (by omega)
            exact ⟨aj, v', by simpa using haj, hv', by rwa [Nat.add_right_comm] at hpass'⟩
      · rintro ⟨l, al, hl, hout, hbefore⟩
        cases l with
        | zero =>
            obtain rfl := Option.some.inj hl
            exact Or.inl hout
        | succ l =>
            obtain ⟨a0, v, ha0, hv, hpass⟩ := hbefore 0 (by omega)
            obtain rfl := Option.some.inj ha0
            refine Or.inr ⟨v, hv, hpass, l, al, by simpa using hl, hout, fun j hj => ?_⟩
            obtain ⟨aj, v', haj, hv', hpass'⟩ := hbefore (j + 1) (by omega)
            exact ⟨aj, v', by simpa using haj, hv', by rwa [Nat.add_right_comm, Nat.add_assoc]⟩

/-- The end of the verification comes to an argument whose index is out of range. -/
def EndFault (env : Env A I B V) (mba : Mba A I B V) (cnt : Nat) : Prop :=
  cnt = mba.qty ∧ env.ending .frame = none ∧ (mba.pattern = false → env.ending .lvars = none) ∧ ArgOutside env mba

theorem raise_eq_ok {code : Option Nat} : raise code = .ok () ↔ code = none := by
  cases code <;> simp [raise]

theorem verifyEnd_eq_fault {cnt : Nat} :
    verifyEnd env mba cnt = .error .fault ↔ EndFault env mba cnt := by
  simp only [verifyEnd, bind_eq_fault, exists_unit, interrIf_ne_fault, interrIf_eq_ok, raise_ne_fault, raise_eq_ok,
    verifyArgs_eq_fault, false_or, or_false, and_false, decide_eq_false_iff_not, ne_eq, not_not, EndFault, ArgOutside,
    Nat.zero_add]
  cases mba.pattern <;> simp

variable {env : Env A I B V} {mba : Mba A I B V}

variable {b : B} {foundTail : Bool}

theorem verifyTail_ne_fault (h : foundTail = true → (mba.block b).tail ≠ none) :
    verifyTail env mba b foundTail ≠ .error .fault := by
  unfold verifyTail
  cases hhead : (mba.block b).head with
  | none => simp [hhead, bind_eq_fault]
  | some head =>
      simp only [hhead, Ne, bind_eq_fault, exists_unit, interrIf_ne_fault, interrIf_eq_ok, deref_eq_fault, raise_ne_fault,
        false_or, or_false, and_false, exists_false, Bool.not_eq_false']
      rintro ⟨hfound, -, hnone⟩
      exact h hfound hnone

variable {seen : List UInt64} {i : I}

theorem verifyInsn_eq_fault [DecidableEq I] :
    verifyInsn env mba b i foundTail seen = .error .fault ↔
      (mba.insn i).verify env mba ((mba.block b).flags &&& MBL_CALL ≠ 0) i true seen = .error .fault := by
  simp [verifyInsn, bind_eq_fault]

theorem verifyInsn_foundTail [DecidableEq I] {foundTail' : Bool} {seen' : List UInt64}
    (h : verifyInsn env mba b i foundTail seen = .ok (foundTail', seen')) (foundTail₁ : Bool) :
    verifyInsn env mba b i foundTail₁ seen = .ok (foundTail₁ || decide ((mba.block b).tail = some i), seen') := by
  simp only [verifyInsn, bind_eq_ok, exists_unit, Except.ok.injEq, Prod.mk.injEq] at h ⊢
  obtain ⟨_, hverify, hcloses, hpush, -, rfl⟩ := h
  exact ⟨_, hverify, hcloses, hpush, trivial, rfl⟩

theorem verifyInsn_settles [DecidableEq I] {foundTail' : Bool} {seen' : List UInt64}
    (h : verifyInsn env mba b i foundTail seen = .ok (foundTail', seen')) :
    seen ⊆ seen' ∧ ∀ {t t' : List UInt64} {foundTail₁ foundTail₁' : Bool}, seen' ⊆ t →
      verifyInsn env mba b i foundTail₁ t = .ok (foundTail₁', t') → t' = t := by
  simp only [verifyInsn, bind_eq_ok, exists_unit, Except.ok.injEq, Prod.mk.injEq] at h ⊢
  obtain ⟨_, hverify, -, -, -, rfl⟩ := h
  obtain ⟨hsub, hsettled⟩ := Minsn.verify_settles env mba _ i true (mba.insn i) _ _ hverify
  refine ⟨hsub, ?_⟩
  rintro t t' _ _ ht ⟨_, hverify', -, -, -, rfl⟩
  exact hsettled t _ ht hverify'

/-- The loop over the instructions of `b` goes on from `i` to `j` and records no call. -/
def PassesTo [DecidableEq I] (env : Env A I B V) (mba : Mba A I B V) (b : B) (seen : List UInt64) (i j : I) : Prop :=
  (mba.insn i).next = some j ∧ ∃ foundTail foundTail', verifyInsn env mba b i foundTail seen = .ok (foundTail', seen)

theorem exists_cycle [DecidableEq I] [Fintype I] {i : Nat → I} {seen : Nat → List UInt64}
    {foundTail foundTail' : Nat → Bool}
    (hverify : ∀ k, verifyInsn env mba b (i k) (foundTail k) (seen k) = .ok (foundTail' k, seen (k + 1)))
    (hnext : ∀ k, (mba.insn (i k)).next = some (i (k + 1))) :
    ∃ k, Relation.TransGen (PassesTo env mba b (seen k)) (i k) (i k) := by
  have hsub : ∀ k n, seen k ⊆ seen (k + n) := by
    intro k n
    induction n with
    | zero => exact List.Subset.refl _
    | succ n ih => exact List.Subset.trans ih (verifyInsn_settles (hverify (k + n))).1
  obtain ⟨a, period, hpos, heq⟩ : ∃ a period, 0 < period ∧ i (a + period) = i a := by
    obtain ⟨x, y, hne, heq⟩ := Finite.exists_ne_map_eq_of_infinite i
    rcases Nat.lt_or_gt_of_ne hne with h | h
    · exact ⟨x, y - x, by omega, by rw [Nat.add_sub_cancel' (by omega), heq]⟩
    · exact ⟨y, x - y, by omega, by rw [Nat.add_sub_cancel' (by omega), heq]⟩
  have hperiod : ∀ n, i (a + n + period) = i (a + n) := by
    intro n
    induction n with
    | zero => exact heq
    | succ n ih =>
        have hsame := (hnext (a + n + period)).symm.trans (ih ▸ hnext (a + n))
        rw [show a + (n + 1) + period = a + n + period + 1 by omega]
        exact Option.some.inj hsame
  have hsettled : ∀ n, seen (a + period + n) = seen (a + period) := by
    intro n
    induction n with
    | zero => rfl
    | succ n ih =>
        have hagain := hverify (a + n + period)
        rw [hperiod] at hagain
        have hgrown : seen (a + n + 1) ⊆ seen (a + n + period) := by
          have hle := hsub (a + n + 1) (period - 1)
          rwa [show a + n + 1 + (period - 1) = a + n + period by omega] at hle
        have hsame := (verifyInsn_settles (hverify (a + n))).2 hgrown hagain
        rw [show a + n + period = a + period + n by omega] at hsame
        exact hsame.trans ih
  have hpasses : ∀ n, PassesTo env mba b (seen (a + period)) (i (a + period + n)) (i (a + period + n + 1)) := by
    intro n
    have hpass := hverify (a + period + n)
    rw [hsettled n, show a + period + n + 1 = a + period + (n + 1) by omega, hsettled (n + 1)] at hpass
    exact ⟨hnext _, _, _, hpass⟩
  have hchain : ∀ n, Relation.TransGen (PassesTo env mba b (seen (a + period))) (i (a + period))
      (i (a + period + n + 1)) := by
    intro n
    induction n with
    | zero => exact Relation.TransGen.single (hpasses 0)
    | succ n ih => exact ih.tail (hpasses (n + 1))
  refine ⟨a + period, ?_⟩
  have hround := hchain (period - 1)
  rwa [show a + period + (period - 1) + 1 = a + period + period by omega, hperiod] at hround

variable [DecidableEq B]

theorem verifyPlace_eq_fault {cnt : Nat} {bodies : List B} :
    verifyPlace env mba cnt bodies b = .error .fault ↔ mba.qty ≤ cnt := by
  have hrest : ∀ natural : Option B, (do
      interrIf (natural ≠ some b) 50878
      if !mba.pattern && !mba.loaded && (mba.block b).flags &&& MBL_FAKE = 0 && !mba.preopt then
        interrIf (env.overlaps bodies b) 50879
        .ok (b :: bodies)
      else
        .ok bodies : Verdict (List B)) ≠ .error .fault := by
    intro natural
    split_ifs <;> simp [bind_eq_fault]
  unfold verifyPlace
  rw [bind_eq_fault, readAt_eq_fault]
  constructor
  · rintro (h | ⟨natural, -, h⟩)
    · simp only [Mba.qty]
      omega
    · exact absurd h (hrest natural)
  · intro h
    exact Or.inl (Or.inr (by exact_mod_cast h))

/-- The wrong reads among the checks of a block. -/
inductive BlockFault (env : Env A I B V) (mba : Mba A I B V) (this : B) : Prop where
  /-- The number of the block is negative. -/
  | serial (hlinks : verifyLinks mba this = .ok ()) (hlists : verifyLists env mba this = .ok ())
      (hserial : (mba.block this).serial < 0)
  /-- The array has no block for a successor. -/
  | succ (hlinks : verifyLinks mba this = .ok ()) (hlists : verifyLists env mba this = .ok ())
      (hnumber : verifyNumber env mba this = .ok ()) (hcounted : SuccsCounted env mba this) {pre post : List Int} {n : Int}
      (hsuccset : (mba.block this).succset = pre ++ n :: post)
      (hpre : ∀ m ∈ pre, verifySucc mba (mba.block this).serial m = .ok ()) (hrange : 0 ≤ n ∧ n < mba.qty)
      (hmissing : NoBlock mba n)
  /-- The last instruction has no list of cases. -/
  | cases (hlinks : verifyLinks mba this = .ok ()) (hlists : verifyLists env mba this = .ok ())
      (hnumber : verifyNumber env mba this = .ok ()) (hcounted : SuccsCounted env mba this)
      (hsuccs : ∀ n ∈ (mba.block this).succset, verifySucc mba (mba.block this).serial n = .ok ())
      (hmissing : MissingCases mba (mba.block this))
  /-- A predecessor has a number out of range, or the array has no block for it. -/
  | pred (hlinks : verifyLinks mba this = .ok ()) (hlists : verifyLists env mba this = .ok ())
      (hnumber : verifyNumber env mba this = .ok ()) (hsuccset : verifySuccset env mba this = .ok ()) {pre post : List Int}
      {p : Int} (hpredset : (mba.block this).predset = pre ++ p :: post)
      (hpre : ∀ q ∈ pre, verifyPred mba (mba.block this).serial q = .ok ()) (hmissing : NoBlock mba p)

theorem verifyHead_eq_fault : verifyHead env mba this = .error .fault ↔ BlockFault env mba this := by
  have hlinks : verifyLinks mba this ≠ .error .fault := by simp [verifyLinks, bind_eq_fault]
  have hlists : verifyLists env mba this ≠ .error .fault := by
    unfold verifyLists
    dsimp only
    split_ifs <;> simp [bind_eq_fault, pure, Except.pure]
  have hnumber : verifyNumber env mba this = .error .fault ↔ (mba.block this).serial < 0 := by
    simp only [verifyNumber, bind_eq_fault, exists_unit, interrIf_ne_fault, interrIf_eq_ok, readAt_eq_fault,
      raise_ne_fault, false_or, or_false, and_false, exists_false, decide_eq_false_iff_not, ge_iff_le, Int.not_le,
      Mba.qty]
    omega
  simp only [verifyHead, bind_eq_fault, exists_unit, hlinks, hlists, hnumber, verifySuccset_eq_fault, verifyPredset,
    forM_eq_fault, verifyPred_eq_fault, interrIf_ne_fault, false_or, and_false, or_false]
  constructor
  · rintro ⟨h1, h2, h | ⟨h3, ⟨h4, ⟨pre, n, post, h5, h6, h7, h8⟩ | ⟨h5, h6⟩⟩ | ⟨h4, pre, p, post, h5, h6, h7⟩⟩⟩
    · exact .serial h1 h2 h
    · exact .succ h1 h2 h3 h4 h5 h6 h7 h8
    · exact .cases h1 h2 h3 h4 h5 h6
    · exact .pred h1 h2 h3 h4 h5 h6 h7
  · intro h
    cases h with
    | serial h1 h2 h => exact ⟨h1, h2, Or.inl h⟩
    | succ h1 h2 h3 h4 h5 h6 h7 h8 => exact ⟨h1, h2, Or.inr ⟨h3, Or.inl ⟨h4, Or.inl ⟨_, _, _, h5, h6, h7, h8⟩⟩⟩⟩
    | cases h1 h2 h3 h4 h5 h6 => exact ⟨h1, h2, Or.inr ⟨h3, Or.inl ⟨h4, Or.inr ⟨h5, h6⟩⟩⟩⟩
    | pred h1 h2 h3 h4 h5 h6 h7 => exact ⟨h1, h2, Or.inr ⟨h3, Or.inr ⟨h4, _, _, _, h5, h6, h7⟩⟩⟩

variable [DecidableEq I]

/-- The wrong reads of one round of the loops. -/
inductive Wrong (env : Env A I B V) (mba : Mba A I B V) (s : State I B) : Prop where
  | block {b : B} (hpoint : s.point = .block (some b)) (h : BlockFault env mba b)
  | ending (hpoint : s.point = .block none) (h : EndFault env mba s.cnt)
  /-- An operand lacks something that it should own. -/
  | insn {b : B} {i : I} {foundTail : Bool} (hpoint : s.point = .insn b (some i) foundTail)
      (h : (mba.insn i).verify env mba ((mba.block b).flags &&& MBL_CALL ≠ 0) i true s.seen = .error .fault)
  /-- There are more blocks in the list than in the array. -/
  | tooLong {b : B} {foundTail : Bool} (hpoint : s.point = .insn b none foundTail)
      (htail : verifyTail env mba b foundTail = .ok ()) (h : mba.qty ≤ s.cnt)

variable {s : State I B}

theorem verifyStep_eq_fault
    (hfound : ∀ b i foundTail, s.point = .insn b i foundTail → foundTail = true → (mba.block b).tail ≠ none) :
    verifyStep env mba s = .done (.error .fault) ↔ Wrong env mba s := by
  obtain ⟨cnt, seen, bodies, point⟩ := s
  constructor
  · intro h
    cases point with
    | block b =>
        cases b with
        | none => exact .ending rfl (verifyEnd_eq_fault.mp (Result.done.inj h))
        | some b =>
            simp only [verifyStep] at h
            cases hhead : verifyHead env mba b with
            | error e =>
                simp only [hhead, Result.done.injEq, Except.error.injEq] at h
                exact .block rfl (verifyHead_eq_fault.1 (h ▸ hhead))
            | ok u => simp [hhead] at h
    | insn b i foundTail =>
        cases i with
        | some i =>
            simp only [verifyStep] at h
            cases hinsn : verifyInsn env mba b i foundTail seen with
            | error e =>
                simp only [hinsn, Result.done.injEq, Except.error.injEq] at h
                exact .insn rfl (verifyInsn_eq_fault.mp (h ▸ hinsn))
            | ok r => simp [hinsn] at h
        | none =>
            simp only [verifyStep] at h
            cases htail : verifyTail env mba b foundTail >>= fun _ => verifyPlace env mba cnt bodies b with
            | error e =>
                simp only [htail, Result.done.injEq, Except.error.injEq] at h
                subst h
                rw [bind_eq_fault, exists_unit] at htail
                rcases htail with htail | ⟨htail, hplace⟩
                · exact absurd htail (verifyTail_ne_fault (hfound b none foundTail rfl))
                · exact .tooLong rfl htail (verifyPlace_eq_fault.mp hplace)
            | ok r => simp [htail] at h
  · intro h
    cases h with
    | block hpoint h =>
        obtain rfl := hpoint
        simp [verifyStep, verifyHead_eq_fault.2 h]
    | ending hpoint h =>
        obtain rfl := hpoint
        simp [verifyStep, verifyEnd_eq_fault.mpr h]
    | insn hpoint h =>
        obtain rfl := hpoint
        simp [verifyStep, verifyInsn_eq_fault.mpr h]
    | tooLong hpoint htail h =>
        obtain rfl := hpoint
        have hplace : ∀ b, verifyPlace env mba cnt bodies b = .error .fault := fun b => verifyPlace_eq_fault.mpr h
        simp only [verifyStep, htail, bind, Except.bind]
        rw [hplace]

/-! ### Loops that do not end -/

/-- The loop over the instructions of a block is in a list that comes back to itself. -/
def Circular (env : Env A I B V) (mba : Mba A I B V) (s : State I B) : Prop :=
  ∃ b i foundTail, s.point = .insn b (some i) foundTail ∧ Relation.TransGen (PassesTo env mba b s.seen) i i

theorem not_stops_of_circular (h : Circular env mba s) (o : Verdict Unit) :
    ¬Stops (verifyStep env mba) s o := by
  obtain ⟨b, i, foundTail, hpoint, hcycle⟩ := h
  have hnext : ∀ s' : State I B,
      (s'.seen = s.seen ∧ ∃ j foundTail, s'.point = .insn b (some j) foundTail ∧
        Relation.TransGen (PassesTo env mba b s.seen) j j) →
      ∃ s'', verifyStep env mba s' = .next s'' ∧ (s''.seen = s.seen ∧ ∃ j foundTail,
        s''.point = .insn b (some j) foundTail ∧ Relation.TransGen (PassesTo env mba b s.seen) j j) := by
    rintro ⟨cnt, seen, bodies, point⟩ ⟨hseen, j, foundTail, hpoint, hcycle⟩
    obtain rfl : seen = s.seen := hseen
    obtain rfl : point = .insn b (some j) foundTail := hpoint
    obtain ⟨k, hjk, hkj⟩ := (Relation.TransGen.head'_iff).mp hcycle
    obtain ⟨hjnext, _, _, hinsn⟩ := id hjk
    refine ⟨⟨cnt, s.seen, bodies, .insn b (some k) (foundTail || decide ((mba.block b).tail = some j))⟩, ?_, rfl, k, _,
      rfl, Relation.TransGen.tail' hkj hjk⟩
    simp only [verifyStep, verifyInsn_foundTail hinsn foundTail, hjnext]
  rintro ⟨n, hn⟩
  rw [run_eq_none hnext ⟨rfl, i, foundTail, hpoint, hcycle⟩ n] at hn
  exact absurd hn (by simp)

theorem circular_of_orbit [Fintype I] {f : Nat → State I B} (hf : ∀ n, verifyStep env mba (f n) = .next (f (n + 1)))
    (hbound : ∀ n, (f n).cnt ≤ mba.qty) : ∃ n, Circular env mba (f n) := by
  have hmono : ∀ n, (f n).cnt ≤ (f (n + 1)).cnt := by
    intro n
    rcases verifyStep_cases (hf n) with ⟨_, _, _, h⟩ | ⟨_, _, _, _, _, _, _, h⟩ | ⟨_, _, _, _, _, _, h⟩
    · rw [h]
    · rw [h]
    · rw [h]
      exact Nat.le_succ _
  obtain ⟨m, hm⟩ := eventually_constant hmono hbound
  -- from `m` on, the loop stays in one block
  have hinsn : ∀ n, m ≤ n → ∃ b i foundTail, (f (n + 1)).point = .insn b i foundTail := by
    intro n hn
    rcases verifyStep_cases (hf n) with ⟨_, _, _, h⟩ | ⟨_, _, _, _, _, _, _, h⟩ | ⟨_, _, _, _, _, _, h⟩
    · exact ⟨_, _, _, by rw [h]⟩
    · exact ⟨_, _, _, by rw [h]⟩
    · have hcnt := (hm (n + 1) (by omega)).trans (hm n hn).symm
      rw [h] at hcnt
      simp at hcnt
  obtain ⟨b, i₀, foundTail₀, hfirst⟩ := hinsn m (Nat.le_refl m)
  have hblock : ∀ k, ∃ i foundTail, (f (m + 1 + k)).point = .insn b i foundTail := by
    intro k
    induction k with
    | zero => exact ⟨i₀, foundTail₀, hfirst⟩
    | succ k ih =>
        obtain ⟨i, foundTail, hpoint⟩ := ih
        rcases verifyStep_cases (hf (m + 1 + k)) with ⟨_, h, _, _⟩ | ⟨_, _, _, _, _, h, _, hnext⟩ |
          ⟨_, _, _, _, _, _, hnext⟩
        · simp [hpoint] at h
        · obtain ⟨rfl, -, -⟩ := Point.insn.inj (hpoint.symm.trans h)
          rw [show m + 1 + (k + 1) = m + 1 + k + 1 by omega, hnext]
          exact ⟨_, _, rfl⟩
        · have hcnt := (hm (m + 1 + k + 1) (by omega)).trans (hm (m + 1 + k) (by omega)).symm
          rw [hnext] at hcnt
          simp at hcnt
  have hstay : ∀ k, ∃ i foundTail foundTail', (f (m + 1 + k)).point = .insn b (some i) foundTail ∧
      verifyInsn env mba b i foundTail (f (m + 1 + k)).seen = .ok (foundTail', (f (m + 1 + k + 1)).seen) ∧
      (f (m + 1 + k + 1)).point = .insn b (mba.insn i).next foundTail' := by
    intro k
    obtain ⟨i, foundTail, hpoint⟩ := hblock k
    rcases verifyStep_cases (hf (m + 1 + k)) with ⟨_, h, _, _⟩ | ⟨_, i, _, foundTail', seen, h, hverify, hnext⟩ |
      ⟨_, _, _, _, _, _, hnext⟩
    · simp [hpoint] at h
    · obtain ⟨rfl, -, -⟩ := Point.insn.inj (hpoint.symm.trans h)
      exact ⟨i, _, foundTail', h, by rw [hnext]; exact hverify, by rw [hnext]⟩
    · have hcnt := (hm (m + 1 + k + 1) (by omega)).trans (hm (m + 1 + k) (by omega)).symm
      rw [hnext] at hcnt
      simp at hcnt
  choose i foundTail foundTail' hpoint hverify hpoint' using hstay
  have hnext : ∀ k, (mba.insn (i k)).next = some (i (k + 1)) := by
    intro k
    exact (Point.insn.inj ((hpoint' k).symm.trans (hpoint (k + 1)))).2.1
  have hverify' : ∀ k, verifyInsn env mba b (i k) (foundTail k) ((fun k => (f (m + 1 + k)).seen) k) =
      .ok (foundTail' k, (fun k => (f (m + 1 + k)).seen) (k + 1)) := hverify
  obtain ⟨k, hcycle⟩ := exists_cycle hverify' hnext
  exact ⟨m + 1 + k, b, i k, foundTail k, hpoint k, hcycle⟩

theorem verifiedSoFar_of_reaches (h : Reaches (verifyStep env mba) (startState mba) s) :
    ∃ bs, VerifiedSoFar env mba s bs :=
  Reaches.invariant (P := fun s => ∃ bs, VerifiedSoFar env mba s bs) h
    (fun _ _ hs hstep => verifiedSoFar_step hs.choose_spec hstep) verifiedSoFar_start

/-- The verification terminates, and it ends in an internal error or without, having read only what is there. -/
def Robust (env : Env A I B V) (mba : Mba A I B V) (always : Bool) : Prop :=
  ∃ fuel o, verify env mba always fuel = some o ∧ o ≠ .error .fault

theorem verifyStep_eq_fault_of_reaches (h : Reaches (verifyStep env mba) (startState mba) s) :
    verifyStep env mba s = .done (.error .fault) ↔ Wrong env mba s := by
  obtain ⟨bs, hbs⟩ := verifiedSoFar_of_reaches h
  apply verifyStep_eq_fault
  intro b i foundTail hpoint hfound
  obtain ⟨-, -, is, -, -, htail⟩ := hbs.insns b i foundTail hpoint
  obtain ⟨i, -, htail⟩ := htail hfound
  simp [htail]

theorem not_wrong_of_stops {o : Verdict Unit}
    (hstops : Stops (verifyStep env mba) (startState mba) o) (ho : o ≠ .error .fault)
    (hs : Reaches (verifyStep env mba) (startState mba) s) : ¬Wrong env mba s ∧ ¬Circular env mba s := by
  have hstops' : Stops (verifyStep env mba) s o := hs.steps.stops_iff.mp hstops
  refine ⟨fun hwrong => ho ?_, fun hcircular => not_stops_of_circular hcircular o hstops'⟩
  exact hstops'.unique (Stops.of_done ((verifyStep_eq_fault_of_reaches hs).mpr hwrong))

theorem stops_of_not_wrong [Fintype I]
    (h : ∀ s, Reaches (verifyStep env mba) (startState mba) s → ¬Wrong env mba s ∧ ¬Circular env mba s) :
    ∃ o, Stops (verifyStep env mba) (startState mba) o ∧ o ≠ .error .fault := by
  by_cases hstops : ∃ o, Stops (verifyStep env mba) (startState mba) o
  · obtain ⟨o, ho⟩ := hstops
    obtain ⟨s, hs, hdone⟩ := ho.last
    refine ⟨o, ho, ?_⟩
    rintro rfl
    exact (h s hs).1 ((verifyStep_eq_fault_of_reaches hs).mp hdone)
  · obtain ⟨f, hzero, hf⟩ := exists_orbit fun o ho => hstops ⟨o, ho⟩
    have hreaches : ∀ n, Reaches (verifyStep env mba) (startState mba) (f n) := fun n => hzero ▸ reaches_orbit hf n
    have hbound : ∀ n, (f n).cnt ≤ mba.qty := by
      intro n
      obtain ⟨bs, hbs⟩ := verifiedSoFar_of_reaches (hreaches n)
      exact hbs.cnt_le
    obtain ⟨n, hcircular⟩ := circular_of_orbit hf hbound
    exact absurd hcircular (h (f n) (hreaches n)).2

theorem robust_of_not_wrong [Fintype I]
    (h : ∀ s, Reaches (verifyStep env mba) (startState mba) s → ¬Wrong env mba s ∧ ¬Circular env mba s)
    (always : Bool) : Robust env mba always := by
  unfold Robust verify
  split_ifs
  · exact ⟨0, .ok (), rfl, by simp⟩
  · obtain ⟨o, ⟨fuel, hrun⟩, ho⟩ := stops_of_not_wrong h
    exact ⟨fuel, o, hrun, ho⟩

end

/-- The small object with a predecessor number for which there is no block. -/
def badPredMba : Mba Unit (Fin 2) (Fin 4) Unit := { unverifiedMba with dontVerify := false }

end IdaSdk.Micro
