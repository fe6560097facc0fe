import Mathlib.Algebra.GroupWithZero.Nat
import IdaSdk.LibLinked
import IdaSdk.MicroModel
import Mathlib.Data.Fin.VecNotation

/-!
What the verifier establishes. The checks of one block say something about its neighbours and the blocks that it
names; since every block of the list is checked, they add up to a consistent control flow graph.
-/

namespace IdaSdk.Micro
open StepMachine Linked Verdict

section
variable {A I B V : Type}

/-- Control goes on to the next block: the block neither stops execution nor ends with a call that does not return,
and its last instruction is no jump that is always taken. -/
def FallsThrough (mba : Mba A I B V) (b : Mblock I B) : Prop :=
  (b.type ≠ .stop ∧ b.type ≠ .zeroWay ∧ b.type ≠ .xtrn) ∧
    ∀ tail, b.tail = some tail → (mba.insn tail).opcode ∉ [.goto, .jtbl, .ijmp, .ret]

/-- Control can get from the block to the one with the given number. -/
inductive Leads (mba : Mba A I B V) (b : Mblock I B) : Int → Prop where
  | fallThrough (h : FallsThrough mba b) : Leads mba b (b.serial + 1)
  | goto {tail : I} {info : A} {n : Int} (htail : b.tail = some tail) (hop : (mba.insn tail).opcode = .goto)
      (hl : (mba.insn tail).l = .b info n) : Leads mba b n
  | jcond {tail : I} {info : A} {n : Int} (htail : b.tail = some tail) (hop : (mba.insn tail).opcode.isJcond = true)
      (hd : (mba.insn tail).d = .b info n) : Leads mba b n
  | jtbl {tail : I} {info : A} {cases : Mcases} {n : Int} (htail : b.tail = some tail)
      (hop : (mba.insn tail).opcode = .jtbl) (hr : (mba.insn tail).r = .c info cases) (hn : n ∈ cases.targets) :
      Leads mba b n

/-- The blocks `bs` of a microcode object form a control flow graph, in which the successors of the blocks with the
property `exact` are the blocks that control can get to. -/
structure Consistent (env : Env A I B V) (mba : Mba A I B V) (exact : Mblock I B → Prop) (bs : List B) : Prop where
  natural : mba.natural = bs.map some
  linked : WellLinked (fun b => (mba.block b).nextb) (fun b => (mba.block b).prevb) mba.blocks bs
  serial : ∀ (k : Nat) b, bs[k]? = some b → (mba.block b).serial = k
  numbers : ∀ b ∈ bs, ∀ n ∈ (mba.block b).succset ++ (mba.block b).predset, 0 ≤ n ∧ n < bs.length
  edges : ∀ b ∈ bs, ∀ n ∈ bs, (mba.block n).serial ∈ (mba.block b).succset ↔ (mba.block b).serial ∈ (mba.block n).predset
  preds : ∀ b ∈ bs, (mba.block b).predset.Nodup
  succs : ∀ b ∈ bs, exact (mba.block b) → ∀ n, n ∈ (mba.block b).succset ↔ Leads mba (mba.block b) n
  insns : ∀ b ∈ bs, ∃ is, WellLinked (fun i => (mba.insn i).next) (fun i => (mba.insn i).prev) (mba.block b).head is ∧
    (mba.block b).tail = is.getLast? ∧
    ∀ i ∈ is, (mba.block b).tail ≠ some i →
      env.mustMcodeCloseBlock (mba.insn i).opcode (mba.insn i).d.empty = false

/-- The last instruction says where control goes: it is neither an external instruction nor a conditional jump to a
global address. -/
def ExactTail (mba : Mba A I B V) (b : Mblock I B) : Prop :=
  ∀ tail, b.tail = some tail → (mba.insn tail).opcode ≠ .ext ∧
    ((mba.insn tail).opcode.isJcond = true → (mba.insn tail).d.t = .b)

end

/-! ### The checks of one block -/

section
variable {A I B V : Type} {env : Env A I B V} {mba : Mba A I B V} {this : B}

variable {n : Int}

theorem succ_of_verifySucc {serial : Int} (h : verifySucc mba serial n = .ok ()) :
    (0 ≤ n ∧ n < mba.qty) ∧ ∃ next, mba.natural[n.toNat]? = some (some next) ∧ serial ∈ (mba.block next).predset := by
  simp only [verifySucc, bind_eq_ok, interrIf_eq_ok, exists_unit, readAt_eq_ok, deref_eq_ok, Bool.or_eq_false_iff,
    decide_eq_false_iff_not, Int.not_lt, Bool.not_eq_false', List.contains_iff_mem] at h
  obtain ⟨hn, _, ⟨-, hnext⟩, next, rfl, hmem⟩ := h
  exact ⟨by omega, next, hnext, hmem⟩

theorem pred_of_verifyPred {serial p : Int} (h : verifyPred mba serial p = .ok ()) :
    0 ≤ p ∧ ∃ prev, mba.natural[p.toNat]? = some (some prev) ∧ serial ∈ (mba.block prev).succset := by
  simp only [verifyPred, bind_eq_ok, interrIf_eq_ok, readAt_eq_ok, deref_eq_ok, Bool.not_eq_false',
    List.contains_iff_mem] at h
  obtain ⟨_, ⟨hp, hprev⟩, prev, rfl, hmem⟩ := h
  exact ⟨hp, prev, hprev, hmem⟩

theorem preds_of_verifyPredset (h : verifyPredset mba this = .ok ()) :
    (∀ p ∈ (mba.block this).predset, 0 ≤ p ∧ ∃ prev, mba.natural[p.toNat]? = some (some prev) ∧
      (mba.block this).serial ∈ (mba.block prev).succset) ∧ (mba.block this).predset.Nodup := by
  simp only [verifyPredset, bind_eq_ok, forM_eq_ok, interrIf_eq_ok, exists_unit, Bool.not_eq_false',
    decide_eq_true_eq] at h
  exact ⟨fun p hp => pred_of_verifyPred (h.1 p hp), h.2⟩

variable {ns : Nat}

theorem expectedSuccs_eq_ok (h : expectedSuccs env mba this = .ok ns) :
    ((mba.block this).type ∈ [.stop, .xtrn, .zeroWay] ∧ ns = 0) ∨
      (mba.block this).type ∈ [.oneWay, .twoWay] ∧ ns ≠ 0 ∨ (mba.block this).type = .nWay := by
  unfold expectedSuccs at h
  dsimp only at h
  cases htype : (mba.block this).type with
  | nWay => simp
  | oneWay =>
      rw [htype] at h
      dsimp only at h
      split_ifs at h <;> simp_all [bind_eq_ok] <;> omega
  | twoWay =>
      simp_all
      omega
  | _ => simp_all [bind_eq_ok]

variable {b : Mblock I B}

theorem leads_iff {tail : I} (htail : b.tail = some tail) :
    Leads mba b n ↔ (FallsThrough mba b ∧ n = b.serial + 1) ∨
      ((mba.insn tail).opcode = .goto ∧ ∃ info, (mba.insn tail).l = .b info n) ∨
      ((mba.insn tail).opcode.isJcond = true ∧ ∃ info, (mba.insn tail).d = .b info n) ∨
      (mba.insn tail).opcode = .jtbl ∧ ∃ info cases, (mba.insn tail).r = .c info cases ∧ n ∈ cases.targets := by
  constructor
  · intro h
    cases h with
    | fallThrough h => exact Or.inl ⟨h, rfl⟩
    | goto htail' hop hl =>
        obtain rfl := Option.some.inj (htail.symm.trans htail')
        exact Or.inr (Or.inl ⟨hop, _, hl⟩)
    | jcond htail' hop hd =>
        obtain rfl := Option.some.inj (htail.symm.trans htail')
        exact Or.inr (Or.inr (Or.inl ⟨hop, _, hd⟩))
    | jtbl htail' hop hr hn =>
        obtain rfl := Option.some.inj (htail.symm.trans htail')
        exact Or.inr (Or.inr (Or.inr ⟨hop, _, _, hr, hn⟩))
  · rintro (⟨h, rfl⟩ | ⟨hop, info, hl⟩ | ⟨hop, info, hd⟩ | ⟨hop, info, cases, hr, hn⟩)
    · exact .fallThrough h
    · exact .goto htail hop hl
    · exact .jcond htail hop hd
    · exact .jtbl htail hop hr hn

theorem leads_iff_of_empty (htail : b.tail = none) :
    Leads mba b n ↔ FallsThrough mba b ∧ n = b.serial + 1 := by
  constructor
  · intro h
    cases h with
    | fallThrough h => exact ⟨h, rfl⟩
    | goto htail' hop hl => simp [htail] at htail'
    | jcond htail' hop hd => simp [htail] at htail'
    | jtbl htail' hop hr hn => simp [htail] at htail'
  · rintro ⟨h, rfl⟩
    exact .fallThrough h

/-- The block type with its number of successors: none, one or two, or those of a table jump. -/
def TypeSuccs (mba : Mba A I B V) (b : Mblock I B) (ns : Nat) : Prop :=
  b.type ∈ [.stop, .xtrn, .zeroWay] ∧ ns = 0 ∨ b.type ∈ [.oneWay, .twoWay] ∧ ns ≠ 0 ∨
    b.type = .nWay ∧ tailOpcode mba b = some .jtbl

theorem fallsThrough_iff (htype : TypeSuccs mba b ns)
    (htail : ∀ tail, b.tail = some tail → (mba.insn tail).opcode ∉ [.goto, .jtbl, .ijmp, .ret]) :
    FallsThrough mba b ↔ ns ≠ 0 := by
  rcases htype with ⟨htype, rfl⟩ | ⟨htype, hns⟩ | ⟨-, hjtbl⟩
  · simp only [FallsThrough, List.mem_cons, List.not_mem_nil, or_false] at htype ⊢
    rcases htype with h | h | h <;> simp [h]
  · refine iff_of_true ⟨?_, htail⟩ hns
    simp only [List.mem_cons, List.not_mem_nil, or_false] at htype
    rcases htype with h | h <;> simp [h]
  · obtain ⟨tail, htail', hop⟩ := Option.map_eq_some_iff.mp hjtbl
    exact absurd (by simp [hop]) (htail tail htail')

theorem eq_b_iff {op : Mop A I} (hop : op.t = .b) : ∃ info num, op = .b info num := by
  cases op with
  | b info num => exact ⟨info, num, rfl⟩
  | plain info t => cases t <;> simp [Mop.t, PlainType.toMopType] at hop
  | null info t => cases t <;> simp [Mop.t, PtrType.toMopType] at hop
  | _ => simp [Mop.t] at hop

theorem leads_jcond_iff {tail : I} (htail : b.tail = some tail)
    (hop : (mba.insn tail).opcode.isJcond = true) (hd : (mba.insn tail).d.t = .b) (hfalls : FallsThrough mba b) (n : Int) :
    n ∈ (if (mba.insn tail).d.unionB env = b.serial + 1 then [b.serial + 1]
      else [b.serial + 1, (mba.insn tail).d.unionB env]) ↔ Leads mba b n := by
  obtain ⟨info, num, hd⟩ := eq_b_iff hd
  have hjumps : (mba.insn tail).opcode ≠ .goto ∧ (mba.insn tail).opcode ≠ .jtbl := by
    constructor
    all_goals
      intro h
      simp [h, Mcode.isJcond, Mcode.isJcmp] at hop
  have htarget : (mba.insn tail).d.unionB env = num := by
    rw [hd]
    rfl
  rw [leads_iff htail, htarget, hd]
  simp only [hfalls, hjumps, hop, true_and, false_and, false_or, or_false, Mop.b.injEq, exists_eq_left']
  by_cases hnum : num = b.serial + 1
  · rw [if_pos hnum, List.mem_singleton]
    omega
  · rw [if_neg hnum]
    simp only [List.mem_cons, List.not_mem_nil, or_false]
    omega

/-- The successors that the verifier expects are the blocks that control can get to. -/
theorem mem_outs_iff {os : List Int} (houts : outs env mba ns b = .ok os)
    (htype : TypeSuccs mba b ns) (hlength : os.length = ns) (hexact : ExactTail mba b) (n : Int) :
    n ∈ os ↔ Leads mba b n := by
  unfold outs at houts
  cases htail : b.tail with
  | none =>
      have hfalls := fallsThrough_iff htype (by simp [htail])
      rw [leads_iff_of_empty htail, hfalls]
      simp only [htail, Except.ok.injEq] at houts
      subst houts
      split_ifs with hns <;> simp [hns]
  | some tail =>
      obtain ⟨hext, hjcond⟩ := hexact tail htail
      have hfalls : (mba.insn tail).opcode ∉ [.goto, .jtbl, .ijmp, .ret] → (FallsThrough mba b ↔ ns ≠ 0) := by
        intro hop
        apply fallsThrough_iff htype
        intro tail' htail'
        obtain rfl := Option.some.inj (htail.symm.trans htail')
        exact hop
      have hnofall : (mba.insn tail).opcode ∈ [.goto, .jtbl, .ijmp, .ret] → ¬FallsThrough mba b :=
        fun hop h => h.2 tail htail hop
      simp only [htail] at houts
      split at houts
      next hop =>
        have hnone := hnofall (by rw [hop]; decide)
        rw [leads_iff htail]
        cases hr : (mba.insn tail).r with
        | c info cases =>
            simp only [hr, Except.ok.injEq] at houts
            subst houts
            simp [hnone, hop, Mcode.isJcond, Mcode.isJcmp]
        | null info t => cases t <;> simp [hr] at houts
        | _ => simp [hr] at houts
      next hop =>
        have hnone := hnofall (by rw [hop]; decide)
        rw [leads_iff htail]
        cases hl : (mba.insn tail).l with
        | b info num =>
            simp only [hl, Except.ok.injEq] at houts
            subst houts
            simp [hnone, hop, Mcode.isJcond, Mcode.isJcmp, eq_comm]
        | _ =>
            simp only [hl, Except.ok.injEq] at houts
            subst houts
            simp [hnone, hop, Mcode.isJcond, Mcode.isJcmp]
      iterate 11
        next hop =>
          have hcond : (mba.insn tail).opcode.isJcond = true := by rw [hop]; rfl
          have hns : ns ≠ 0 := by
            rw [← hlength, ← Except.ok.inj houts]
            split_ifs <;> simp
          obtain rfl := Except.ok.inj houts
          exact leads_jcond_iff htail hcond (hjcond hcond) ((hfalls (by rw [hop]; decide)).mpr hns) n
      iterate 2
        next hop =>
          obtain rfl := Except.ok.inj houts
          rw [leads_iff htail]
          simp [hnofall (by rw [hop]; decide), hop, Mcode.isJcond, Mcode.isJcmp]
      next hop => exact absurd hop hext
      next hjtbl hgoto hjcnd hjnz hjz hjae hjb hja hjbe hjg hjge hjl hjle hijmp hret _ =>
        have hcond : (mba.insn tail).opcode.isJcond = false := by
          cases hop : (mba.insn tail).opcode <;> first | rfl | contradiction
        have hfalls := hfalls (by
          simp only [List.mem_cons, List.not_mem_nil, or_false, not_or]
          exact ⟨hgoto, hjtbl, hijmp, hret⟩)
        rw [leads_iff htail, hfalls]
        simp only [Except.ok.injEq] at houts
        subst houts
        split_ifs with hns <;> simp_all

theorem succs_of_verifySuccset (h : verifySuccset env mba this = .ok ()) (htype : (mba.block this).type ≠ .none) :
    (∀ n ∈ (mba.block this).succset, (0 ≤ n ∧ n < mba.qty) ∧
      ∃ next, mba.natural[n.toNat]? = some (some next) ∧ (mba.block this).serial ∈ (mba.block next).predset) ∧
    (ExactTail mba (mba.block this) → ∀ n, n ∈ (mba.block this).succset ↔ Leads mba (mba.block this) n) := by
  simp only [verifySuccset, ne_eq, htype, not_false_eq_true, if_true, bind_eq_ok, interrIf_eq_ok, exists_unit,
    forM_eq_ok, decide_eq_false_iff_not, not_not] at h
  obtain ⟨ns, hns, hjtbl, hlength, hsuccs, os, houts, rfl⟩ := h
  refine ⟨fun n hn => succ_of_verifySucc (hsuccs n hn), fun hexact n => mem_outs_iff houts ?_ hlength hexact n⟩
  rcases expectedSuccs_eq_ok hns with h | h | h
  · exact Or.inl h
  · exact Or.inr (Or.inl h)
  · refine Or.inr (Or.inr ⟨h, ?_⟩)
    rw [h] at hjtbl
    simpa using hjtbl

theorem qty_of_verifyEnd {cnt : Nat} (h : verifyEnd env mba cnt = .ok ()) : cnt = mba.qty := by
  simp only [verifyEnd, bind_eq_ok, exists_unit, interrIf_eq_ok, decide_eq_false_iff_not, ne_eq, not_not] at h
  exact h.1

end

section
variable {A I B V : Type} [DecidableEq B] {env : Env A I B V} {mba : Mba A I B V} {this : B}

/-- What the links of a verified block say. -/
structure LinksOk (mba : Mba A I B V) (this : B) : Prop where
  prevb_nextb : ∀ next, (mba.block this).nextb = some next → (mba.block next).prevb = some this
  nextb_prevb : ∀ prev, (mba.block this).prevb = some prev → (mba.block prev).nextb = some this
  last : (mba.block this).nextb = none ↔ (mba.qty : Int) - 1 = (mba.block this).serial
  first : (mba.block this).prevb = none ↔ (mba.block this).serial = 0

theorem linksOk_of_verifyLinks (h : verifyLinks mba this = .ok ()) : LinksOk mba this := by
  simp only [verifyLinks, bind_eq_ok, interrIf_eq_ok, exists_unit, Option.any_eq_false, decide_eq_false_iff_not,
    ne_eq, not_not] at h
  obtain ⟨hnext, hprev, hlast, hfirst⟩ := h
  constructor
  · exact hnext
  · exact hprev
  · rw [← Option.isNone_iff_eq_none, hlast, decide_eq_true_iff]
  · rw [← Option.isNone_iff_eq_none, hfirst, decide_eq_true_iff]

theorem natural_of_verifyNumber (h : verifyNumber env mba this = .ok ()) :
    0 ≤ (mba.block this).serial ∧ mba.natural[(mba.block this).serial.toNat]? = some (some this) := by
  simp only [verifyNumber, bind_eq_ok, interrIf_eq_ok, exists_unit, readAt_eq_ok, decide_eq_false_iff_not, ne_eq,
    not_not] at h
  obtain ⟨-, natural, ⟨hserial, hnatural⟩, rfl, -⟩ := h
  exact ⟨hserial, hnatural⟩

/-- What is known of a block once the checks before the loop over its instructions have passed. -/
structure HeadOk (mba : Mba A I B V) (this : B) : Prop where
  links : LinksOk mba this
  serial : 0 ≤ (mba.block this).serial ∧ mba.natural[(mba.block this).serial.toNat]? = some (some this)
  succs : (mba.block this).type ≠ .none → ∀ n ∈ (mba.block this).succset, (0 ≤ n ∧ n < mba.qty) ∧
    ∃ next, mba.natural[n.toNat]? = some (some next) ∧ (mba.block this).serial ∈ (mba.block next).predset
  leads : (mba.block this).type ≠ .none → ExactTail mba (mba.block this) →
    ∀ n, n ∈ (mba.block this).succset ↔ Leads mba (mba.block this) n
  preds : ∀ p ∈ (mba.block this).predset, 0 ≤ p ∧ ∃ prev, mba.natural[p.toNat]? = some (some prev) ∧
    (mba.block this).serial ∈ (mba.block prev).succset
  nodup : (mba.block this).predset.Nodup

theorem headOk_of_verifyHead (h : verifyHead env mba this = .ok ()) : HeadOk mba this := by
  simp only [verifyHead, bind_eq_ok, exists_unit] at h
  obtain ⟨hlinks, -, hnumber, hsuccset, hpredset⟩ := h
  obtain ⟨hpreds, hnodup⟩ := preds_of_verifyPredset hpredset
  exact {
    links := linksOk_of_verifyLinks hlinks
    serial := natural_of_verifyNumber hnumber
    succs := fun htype => (succs_of_verifySuccset hsuccset htype).1
    leads := fun htype => (succs_of_verifySuccset hsuccset htype).2
    preds := hpreds
    nodup := hnodup }

end

section
variable {A I B V : Type} {env : Env A I B V} {mba : Mba A I B V} {this : B} {i : I}

/-- What is known of an instruction that is verified. -/
structure InsnOk (env : Env A I B V) (mba : Mba A I B V) (this : B) (i : I) : Prop where
  prev_next : ∀ next, (mba.insn i).next = some next → (mba.insn next).prev = some i
  closes : (mba.block this).tail ≠ some i →
    env.mustMcodeCloseBlock (mba.insn i).opcode (mba.insn i).d.empty = false

/-- What is known of the instructions of a block once it is verified. -/
structure InsnsOk (env : Env A I B V) (mba : Mba A I B V) (this : B) (is : List I) : Prop where
  linked : WellLinked (fun i => (mba.insn i).next) (fun i => (mba.insn i).prev) (mba.block this).head is
  tail : (mba.block this).tail = is.getLast?
  ok : ∀ i ∈ is, InsnOk env mba this i

theorem getLast?_of_next {P : Type} {next : P → Option P} {first : Option P} {p : P} {ps : List P}
    (h : Visits next first ps none) (hmem : p ∈ ps) (hnext : next p = none) : ps.getLast? = some p := by
  obtain ⟨k, hk⟩ := List.mem_iff_getElem?.mp hmem
  have hend := (h.next_eq hk).symm.trans hnext
  have hlt := (List.getElem?_eq_some_iff.mp hk).1
  rw [List.getElem?_eq_none_iff] at hend
  rw [List.getLast?_eq_getElem?, show ps.length - 1 = k by omega, hk]

theorem insnsOk_of_verifyTail {is : List I} {foundTail : Bool}
    (hvisits : Visits (fun i => (mba.insn i).next) (mba.block this).head is none)
    (hok : ∀ i ∈ is, InsnOk env mba this i) (hfound : foundTail = true → ∃ i ∈ is, (mba.block this).tail = some i)
    (h : verifyTail env mba this foundTail = .ok ()) : InsnsOk env mba this is := by
  have hprev : ∀ i ∈ is, ∀ next, (mba.insn i).next = some next → (mba.insn next).prev = some i :=
    fun i hi => (hok i hi).prev_next
  unfold verifyTail at h
  cases hhead : (mba.block this).head with
  | none =>
      have hempty : Visits (fun i => (mba.insn i).next) none is none := by rwa [hhead] at hvisits
      obtain rfl : is = [] := hempty.unique (rfl : Visits _ none [] none)
      simp only [hhead, bind_eq_ok, exists_unit, interrIf_eq_ok, Option.isSome_eq_false_iff,
        Option.isNone_iff_eq_none] at h
      exact ⟨.of_visits hvisits (by simp [hhead]) hprev, h.1, hok⟩
  | some head =>
      simp only [hhead, bind_eq_ok, exists_unit, interrIf_eq_ok, deref_eq_ok, Bool.not_eq_false',
        Option.isSome_eq_false_iff, Option.isNone_iff_eq_none] at h
      obtain ⟨hfoundTail, hfirst, tail, htail, hend, -⟩ := h
      obtain ⟨i, hi, htail'⟩ := hfound hfoundTail
      obtain rfl := Option.some.inj (htail.symm.trans htail')
      refine ⟨.of_visits hvisits ?_ hprev, htail.trans (getLast?_of_next hvisits hi hend).symm, hok⟩
      intro p hp
      obtain rfl := Option.some.inj (hhead.symm.trans hp)
      exact hfirst

variable [DecidableEq I]

theorem Minsn.verifyLinks_of_verify {m : Minsn A I} {callsKnown withTarget : Bool} {seen seen' : List UInt64}
    (h : m.verify env mba callsKnown i withTarget seen = .ok seen') : m.verifyLinks mba i withTarget = .ok () := by
  cases m with
  | mk info opcode ea next prev l r d =>
      simp only [Minsn.verify, Minsn.verifyShape, bind_eq_ok, exists_unit] at h
      obtain ⟨_, ⟨-, hlinks, -⟩, -⟩ := h
      exact hlinks

theorem insnOk_of_verifyInsn {foundTail foundTail' : Bool} {seen seen' : List UInt64}
    (h : verifyInsn env mba this i foundTail seen = .ok (foundTail', seen')) :
    InsnOk env mba this i ∧ foundTail' = (foundTail || decide ((mba.block this).tail = some i)) := by
  simp only [verifyInsn, bind_eq_ok, exists_unit, interrIf_eq_ok, Except.ok.injEq, Prod.mk.injEq] at h
  obtain ⟨_, hverify, hcloses, -, hfound, -⟩ := h
  have hlinks := Minsn.verifyLinks_of_verify hverify
  simp only [Minsn.verifyLinks, bind_eq_ok, exists_unit, interrIf_eq_ok, Option.any_eq_false,
    decide_eq_false_iff_not, ne_eq, not_not] at hlinks
  refine ⟨⟨hlinks.1, fun htail => ?_⟩, hfound.symm⟩
  simpa [htail] using hcloses

end

/-! ### The whole object -/

section
variable {A I B V : Type} {env : Env A I B V} {mba : Mba A I B V}

/-- What is known of a verified block that is number `k` of the list. -/
structure BlockOk (env : Env A I B V) (mba : Mba A I B V) (k : Nat) (b : B) : Prop where
  head : HeadOk mba b
  insns : ∃ is, InsnsOk env mba b is
  natural : mba.natural[k]? = some (some b)

variable {bs : List B}

/-- Verified blocks, one after the other, form a consistent graph. -/
theorem consistent_of_blocksOk (hvisits : Visits (fun b => (mba.block b).nextb) mba.blocks bs none)
    (hlength : bs.length = mba.qty) (hok : ∀ (k : Nat) b, bs[k]? = some b → BlockOk env mba k b)
    (htype : ∀ b ∈ bs, (mba.block b).type ≠ .none) : Consistent env mba (ExactTail mba) bs := by
  have hnatural : mba.natural = bs.map some := by
    apply List.ext_getElem?
    intro k
    rw [List.getElem?_map]
    cases hk : bs[k]? with
    | none =>
        rw [List.getElem?_eq_none_iff] at hk
        rw [Option.map_none, List.getElem?_eq_none_iff]
        exact Nat.le_trans (Nat.le_of_eq hlength.symm) hk
    | some b => exact (hok k b hk).natural
  -- the array names every block once, so its number is its place in the list
  have hplace : ∀ (k : Nat) b, mba.natural[k]? = some (some b) ↔ bs[k]? = some b := by
    intro k b
    rw [hnatural, List.getElem?_map]
    cases bs[k]? <;> simp
  have hserial : ∀ (k : Nat) b, bs[k]? = some b → (mba.block b).serial = k := by
    intro k b hk
    obtain ⟨hpos, hserial⟩ := (hok k b hk).head.serial
    rw [hplace] at hserial
    have hlt := (List.getElem?_eq_some_iff.mp hk).1
    have heq := (List.getElem?_inj hlt hvisits.nodup).mp (hk.trans hserial.symm)
    omega
  have hmem : ∀ b ∈ bs, ∃ k : Nat, bs[k]? = some b ∧ HeadOk mba b ∧ (mba.block b).serial = k := by
    intro b hb
    obtain ⟨k, hk⟩ := List.mem_iff_getElem?.mp hb
    exact ⟨k, hk, (hok k b hk).head, hserial k b hk⟩
  -- a number that an edge set holds is the place of the block that it names
  have hnamed : ∀ (n : Int) b, 0 ≤ n → mba.natural[n.toNat]? = some (some b) →
      b ∈ bs ∧ (mba.block b).serial = n ∧ n < bs.length := by
    intro n b hpos hn
    rw [hplace] at hn
    have hlt := (List.getElem?_eq_some_iff.mp hn).1
    have heq := hserial _ b hn
    exact ⟨List.mem_of_getElem? hn, by omega, by omega⟩
  have hunique : ∀ b ∈ bs, ∀ n ∈ bs, (mba.block b).serial = (mba.block n).serial → b = n := by
    intro b hb n hn heq
    obtain ⟨k, hk, -, hk'⟩ := hmem b hb
    obtain ⟨l, hl, -, hl'⟩ := hmem n hn
    obtain rfl : k = l := by omega
    exact Option.some.inj (hk.symm.trans hl)
  constructor
  · exact hnatural
  · apply WellLinked.of_visits hvisits
    · intro b hb
      have hfirst : bs[0]? = some b := by rw [← List.head?_eq_getElem?, ← hvisits.head?_eq, hb]
      have hhead := (hok 0 b hfirst).head
      exact hhead.links.first.mpr (hserial 0 b hfirst)
    · intro b hb next hnext
      obtain ⟨k, -, hhead, -⟩ := hmem b hb
      exact hhead.links.prevb_nextb next hnext
  · exact hserial
  · intro b hb n hn
    obtain ⟨k, -, hhead, -⟩ := hmem b hb
    rcases List.mem_append.mp hn with hn | hn
    · obtain ⟨hrange, -⟩ := hhead.succs (htype b hb) n hn
      exact ⟨hrange.1, hlength ▸ hrange.2⟩
    · obtain ⟨hpos, prev, hprev, -⟩ := hhead.preds n hn
      exact ⟨hpos, (hnamed n prev hpos hprev).2.2⟩
  · intro b hb n hn
    obtain ⟨k, -, hbhead, -⟩ := hmem b hb
    obtain ⟨l, -, hnhead, -⟩ := hmem n hn
    constructor
    · intro hsucc
      obtain ⟨⟨hpos, -⟩, next, hnext, hpred⟩ := hbhead.succs (htype b hb) _ hsucc
      obtain ⟨hnextMem, heq, -⟩ := hnamed _ next hpos hnext
      rwa [hunique next hnextMem n hn heq] at hpred
    · intro hpred
      obtain ⟨hpos, prev, hprev, hsucc⟩ := hnhead.preds _ hpred
      obtain ⟨hprevMem, heq, -⟩ := hnamed _ prev hpos hprev
      rwa [hunique prev hprevMem b hb heq] at hsucc
  · intro b hb
    obtain ⟨k, -, hhead, -⟩ := hmem b hb
    exact hhead.nodup
  · intro b hb hexact n
    obtain ⟨k, -, hhead, -⟩ := hmem b hb
    exact hhead.leads (htype b hb) hexact n
  · intro b hb
    obtain ⟨k, hk, -, -⟩ := hmem b hb
    obtain ⟨is, his⟩ := (hok k b hk).insns
    exact ⟨is, his.linked, his.tail, fun i hi htail => (his.ok i hi).closes htail⟩

/-- The blocks before the current one are verified, and so are the instructions before the current one. -/
structure VerifiedSoFar (env : Env A I B V) (mba : Mba A I B V) (s : State I B) (bs : List B) : Prop where
  cnt : s.cnt = bs.length
  blocks : ∀ (k : Nat) b, bs[k]? = some b → BlockOk env mba k b
  visits : ∀ b, s.point = .block b → Visits (fun b => (mba.block b).nextb) mba.blocks bs b
  insns : ∀ b i foundTail, s.point = .insn b i foundTail →
    Visits (fun b => (mba.block b).nextb) mba.blocks bs (some b) ∧ HeadOk mba b ∧
      ∃ is, Visits (fun i => (mba.insn i).next) (mba.block b).head is i ∧ (∀ i ∈ is, InsnOk env mba b i) ∧
        (foundTail = true → ∃ i ∈ is, (mba.block b).tail = some i)

theorem verifiedSoFar_start : ∃ bs, VerifiedSoFar env mba (startState mba) bs := by
  refine ⟨[], rfl, by simp, ?_, fun _ _ _ hpoint => by simp [startState] at hpoint⟩
  rintro _ ⟨⟩
  rfl

theorem VerifiedSoFar.cnt_le {s : State I B} (h : VerifiedSoFar env mba s bs) : s.cnt ≤ mba.qty := by
  rw [h.cnt]
  cases hlength : bs.length with
  | zero => exact Nat.zero_le _
  | succ k =>
      have hk := List.getElem?_eq_getElem (show k < bs.length by omega)
      exact (List.getElem?_eq_some_iff.mp (h.blocks k _ hk).natural).1

variable [DecidableEq I] [DecidableEq B]

theorem verifiedSoFar_step {s s' : State I B} (h : VerifiedSoFar env mba s bs)
    (hstep : verifyStep env mba s = .next s') : ∃ bs', VerifiedSoFar env mba s' bs' := by
  rcases verifyStep_cases hstep with ⟨b, hpoint, hhead, rfl⟩ | ⟨b, i, foundTail, _, seen, hpoint, hinsn, rfl⟩ |
    ⟨b, foundTail, bodies, hpoint, htail, hplace, rfl⟩
  · refine ⟨bs, h.cnt, h.blocks, fun _ hpoint => by simp at hpoint, ?_⟩
    rintro _ _ _ ⟨⟩
    exact ⟨h.visits _ hpoint, headOk_of_verifyHead hhead, [], rfl, by simp, by simp⟩
  · obtain ⟨hvisits, hhead, is, his, hok, hfound⟩ := h.insns _ _ _ hpoint
    obtain ⟨hinsnOk, rfl⟩ := insnOk_of_verifyInsn hinsn
    refine ⟨bs, h.cnt, h.blocks, fun _ hpoint => by simp at hpoint, ?_⟩
    rintro _ _ _ ⟨⟩
    refine ⟨hvisits, hhead, is ++ [i], his.snoc, ?_, ?_⟩
    · intro j hj
      rcases List.mem_append.mp hj with hj | hj
      · exact hok j hj
      · exact List.mem_singleton.mp hj ▸ hinsnOk
    · intro hor
      rcases Bool.or_eq_true_iff.mp hor with hor | hor
      · obtain ⟨j, hj, htail⟩ := hfound hor
        exact ⟨j, List.mem_append_left _ hj, htail⟩
      · exact ⟨i, by simp, of_decide_eq_true hor⟩
  · obtain ⟨hvisits, hhead, is, his, hok, hfound⟩ := h.insns _ _ _ hpoint
    have hnatural : mba.natural[s.cnt]? = some (some b) := by
      simp only [verifyPlace, bind_eq_ok, readAt_eq_ok, exists_unit, interrIf_eq_ok, decide_eq_false_iff_not, ne_eq,
        not_not] at hplace
      obtain ⟨natural, ⟨-, hnatural⟩, rfl, -⟩ := hplace
      simpa using hnatural
    have hblock : BlockOk env mba bs.length b :=
      ⟨hhead, ⟨is, insnsOk_of_verifyTail his hok hfound htail⟩, h.cnt ▸ hnatural⟩
    refine ⟨bs ++ [b], by simp [h.cnt], ?_, ?_, fun _ _ _ hpoint => by simp at hpoint⟩
    · intro k b' hk
      rw [List.getElem?_append] at hk
      split_ifs at hk with hlt
      · exact h.blocks k b' hk
      obtain ⟨hlt', rfl⟩ := List.getElem?_eq_some_iff.mp hk
      have hk0 : k = bs.length := by
        simp only [List.length_singleton] at hlt'
        omega
      subst hk0
      simpa using hblock
    · rintro _ ⟨⟩
      exact hvisits.snoc

theorem blocksOk_of_stops (h : Stops (verifyStep env mba) (startState mba) (.ok ())) :
    ∃ bs, Visits (fun b => (mba.block b).nextb) mba.blocks bs none ∧ bs.length = mba.qty ∧
      ∀ (k : Nat) b, bs[k]? = some b → BlockOk env mba k b := by
  apply Stops.of_invariant (P := fun s => ∃ bs, VerifiedSoFar env mba s bs)
    (Q := fun o => o = .ok () → ∃ bs, Visits (fun b => (mba.block b).nextb) mba.blocks bs none ∧
      bs.length = mba.qty ∧ ∀ (k : Nat) b, bs[k]? = some b → BlockOk env mba k b) _ _ verifiedSoFar_start h rfl
  · rintro s s' ⟨bs, hs⟩ hstep
    exact verifiedSoFar_step hs hstep
  rintro ⟨cnt, seen, bodies, point⟩ o ⟨bs, hs⟩ hstep rfl
  cases point with
  | block b =>
      cases b with
      | none =>
          have hqty := qty_of_verifyEnd (Result.done.inj hstep)
          exact ⟨bs, hs.visits none rfl, hs.cnt.symm.trans hqty, hs.blocks⟩
      | some b =>
          simp only [verifyStep] at hstep
          cases hhead : verifyHead env mba b <;> simp [hhead] at hstep
  | insn b i foundTail =>
      cases i with
      | some i =>
          simp only [verifyStep] at hstep
          cases hinsn : verifyInsn env mba b i foundTail seen <;> simp [hinsn] at hstep
      | none =>
          simp only [verifyStep] at hstep
          cases htail : verifyTail env mba b foundTail >>= fun _ => verifyPlace env mba cnt bodies b <;>
            simp [htail] at hstep

/-- When the verifier returns without an internal error on an object that it is to verify and whose block types are
known, the object is a consistent control flow graph. -/
theorem consistent_of_verify (hdontVerify : mba.dontVerify = false)
    (htype : ∀ b, (mba.block b).type ≠ .none) {fuel : Nat} (h : verify env mba true fuel = some (.ok ())) :
    ∃ bs, Consistent env mba (ExactTail mba) bs := by
  rw [verify, hdontVerify, if_neg (by simp)] at h
  obtain ⟨bs, hvisits, hlength, hok⟩ := blocksOk_of_stops ⟨fuel, h⟩
  exact ⟨bs, consistent_of_blocksOk hvisits hlength hok fun b _ => htype b⟩

end

/-- An environment in which the checks of other data pass. -/
def quietEnv : Env Unit (Fin 2) (Fin 4) Unit where
  isMcodePropagatable opcode := !opcode.isJcond
  mustMcodeCloseBlock opcode _ := opcode.isJcond || opcode = .goto || opcode = .jtbl || opcode = .ijmp || opcode = .ret
  unionB _ := 0
  shiftMask _ := true
  validExtOp _ := true
  checksRetregs _ := true
  insn _ _ := none
  mop _ _ _ _ := none
  lvarRef _ _ := none
  block _ _ := none
  overlaps _ _ := false
  arg _ _ := none
  ending _ := none
  shouldVerify := true

local instance four_ne_zero : NeZero 4 := ⟨by decide⟩

/-- An entry block, a block with a move and a conditional jump, an empty block and the exit block. -/
def smallMba : Mba Unit (Fin 2) (Fin 4) Unit where
  block := ![⟨some 1, none, 0, none, none, 0, .oneWay, [], [1]⟩,
    ⟨some 2, some 0, 0, some 0, some 1, 1, .twoWay, [0], [2, 3]⟩,
    ⟨some 3, some 1, 0, none, none, 2, .oneWay, [1], [3]⟩, ⟨none, some 2, 0, none, none, 3, .stop, [1, 2], []⟩]
  insn := ![.mk () .mov 16 (some 1) none (.plain () .n) (.z ()) (.plain () .r),
    .mk () .jcnd 20 none (some 0) (.plain () .r) (.z ()) (.b () 3)]
  blocks := some 0
  natural := [some 0, some 1, some 2, some 3]
  vars := []
  argidx := []
  retvaridx := -1
  pattern := false
  loaded := false
  preopt := false
  dontVerify := false
  noDupCalls := true
  lvarAllocFailed := false

theorem consistent_of_verify_smallMba : ∃ bs, Consistent quietEnv smallMba (ExactTail smallMba) bs :=
  consistent_of_verify rfl (by decide) (show verify quietEnv smallMba true 20 = some (.ok ()) by rfl)

/-- The object with a wrong predecessor set, marked as one that is not to be verified. -/
def unverifiedMba : Mba Unit (Fin 2) (Fin 4) Unit :=
  { smallMba with
    block := ![⟨some 1, none, 0, none, none, 0, .oneWay, [7], [1]⟩,
      ⟨some 2, some 0, 0, some 0, some 1, 1, .twoWay, [0], [2, 3]⟩,
      ⟨some 3, some 1, 0, none, none, 2, .oneWay, [1], [3]⟩, ⟨none, some 2, 0, none, none, 3, .stop, [1, 2], []⟩]
    dontVerify := true }

/-- An object in which a block that ends with an external instruction has a successor other than the next block. -/
def externalMba : Mba Unit (Fin 2) (Fin 4) Unit :=
  { smallMba with
    block := ![⟨some 1, none, 0, none, none, 0, .oneWay, [], [1]⟩,
      ⟨some 2, some 0, 0, some 0, some 0, 1, .oneWay, [0], [3]⟩,
      ⟨some 3, some 1, 0, none, none, 2, .oneWay, [], [3]⟩, ⟨none, some 2, 0, none, none, 3, .stop, [1, 2], []⟩]
    insn := fun _ => .mk () .ext 16 none none (.plain () .r) (.z ()) (.z ()) }

/-- The verifier returns on both objects, although they are not consistent. -/
theorem not_consistent_of_verify :
    (unverifiedMba.pattern = false ∧ (∀ b, (unverifiedMba.block b).type ≠ .none) ∧
      verify quietEnv unverifiedMba true 0 = some (.ok ()) ∧
      ¬ ∃ bs, Consistent quietEnv unverifiedMba (fun _ => True) bs) ∧
    externalMba.pattern = false ∧ (∀ b, (externalMba.block b).type ≠ .none) ∧
      verify quietEnv externalMba true 20 = some (.ok ()) ∧
      ¬ ∃ bs, Consistent quietEnv externalMba (fun _ => True) bs := by
  refine ⟨⟨rfl, by decide, rfl, ?_⟩, rfl, by decide, rfl, ?_⟩
  · rintro ⟨bs, hbs⟩
    have hlength : bs.length = 4 := by
      rw [← List.length_map some, ← hbs.natural]
      rfl
    have hfirst : (0 : Fin 4) ∈ bs := by
      have hhead := hbs.linked.visits.head?_eq
      exact List.mem_of_mem_head? (hhead ▸ rfl)
    have hseven := (hbs.numbers 0 hfirst 7 (by decide)).2
    omega
  · rintro ⟨bs, hbs⟩
    have hone : (1 : Fin 4) ∈ bs := by
      have hmem : (some 1 : Option (Fin 4)) ∈ bs.map some := hbs.natural ▸ (by decide)
      simpa using hmem
    have hleads := (hbs.succs 1 hone trivial 3).mp (by decide)
    rw [leads_iff (show (externalMba.block 1).tail = some 0 from rfl)] at hleads
    rcases hleads with ⟨-, h⟩ | ⟨h, -⟩ | ⟨h, -⟩ | ⟨h, -⟩
    · exact absurd h (by decide)
    · exact absurd h (by decide)
    · exact absurd h (by decide)
    · exact absurd h (by decide)

end IdaSdk.Micro
