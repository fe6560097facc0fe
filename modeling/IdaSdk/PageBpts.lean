import IdaSdk.PageBptsKept
import IdaSdk.PageBptsRights

/-!
Runs of the page breakpoints: additions, deletions, switching all of them, masks, and changes that the program makes.
An addition records its breakpoint before it sets the protection, and a breakpoint keeps one old protection for all its
pages; what holds in spite of that, and under which conditions the rest does.
-/

namespace IdaSdk.PageBpts

variable {orig : Nat → Nat} {sys : Sys} {s s' : State} {type ea : Nat} {size : Int}

/-! ### Additions -/

/-- The addition is not refused before its breakpoint is recorded. -/
structure Reaches (sys : Sys) (s : State) (ea : Nat) (size : Int) : Prop where
  fresh : find_page_bpt s.page_bpts ea size = none
  allocated : ∃ state, sys.query = some state ∧ state &&& MEM_FREE = 0
  accessible : s.at (calc_page_base ea) ≠ 0

/-- The breakpoint is recorded, and then the system refuses to set the protection. -/
def Refused (sys : Sys) (s : State) (ea : Nat) (size : Int) : Prop :=
  Reaches sys s ea size ∧ s.at (calc_page_base ea) &&& PAGE_GUARD = 0 ∧ sys.protects (calc_page_base ea) = false

theorem new_bpt_real_len (type ea : Nat) (size : Int) (prot old : Nat) :
    (new_bpt type ea size true prot old).real_len = (new_bpt type ea size true prot old).aligned_len := by
  simp only [new_bpt, if_true]

/-- What an addition does. -/
inductive Added (sys : Sys) (s : State) (type ea : Nat) (size : Int) : Nat × State → Prop where
  | refused (h : ¬ Reaches sys s ea size) : Added sys s type ea size (0, s)
  | guard (h : Reaches sys s ea size) (hguard : s.at (calc_page_base ea) &&& PAGE_GUARD ≠ 0) :
      Added sys s type ea size
        (2, s.add (new_bpt type ea size false (s.at (calc_page_base ea)) (s.at (calc_page_base ea))))
  | write (h : Reaches sys s ea size) (hguard : s.at (calc_page_base ea) &&& PAGE_GUARD = 0) (prot : Nat) :
      Added sys s type ea size (write_page_bpt sys s (new_bpt type ea size true prot 0))

theorem remove_page_protections_guard {dep : Dep} {input bpttype : Nat} {r : Bool × Nat}
    (h : remove_page_protections dep input bpttype = some r) :
    (r = (false, input) ∧ input &&& PAGE_GUARD ≠ 0) ∨ (r.1 = true ∧ input &&& PAGE_GUARD = 0) := by
  rw [remove_page_protections] at h
  split at h
  · next hguard => exact .inl ⟨(Option.some.inj h).symm, hguard⟩
  rename_i hguard
  cases hu : unix_of input with
  | none =>
      rw [hu] at h
      cases h
  | some unix =>
      rw [hu] at h
      obtain rfl := Option.some.inj h
      exact .inr ⟨rfl, not_not.mp hguard⟩

theorem Fits.real_len_ne (h : Fits s.page_bpts ea size) (type prot : Nat) :
    (new_bpt type ea size true prot 0).real_len ≠ 0 := by
  have hpos := (h.page type true prot 0).len_pos
  rw [new_bpt_real_len]
  exact (Int.ne_of_lt hpos).symm

theorem dbg_add_cases (h : Fits s.page_bpts ea size) {r : Nat × State}
    (hadd : dbg_add_page_bpt sys s type ea size = some r) : Added sys s type ea size r := by
  rw [dbg_add_page_bpt] at hadd
  split at hadd
  · next hsome =>
      obtain rfl := Option.some.inj hadd
      refine .refused fun hr => ?_
      rw [hr.fresh] at hsome
      cases hsome
  · next hnone =>
      cases hq : sys.query with
      | none =>
          rw [hq] at hadd
          obtain rfl := Option.some.inj hadd
          refine .refused fun hr => ?_
          obtain ⟨state, hstate, -⟩ := hr.allocated
          rw [hq] at hstate
          cases hstate
      | some state =>
          rw [hq] at hadd
          dsimp only at hadd
          split at hadd
          · next hfree =>
              obtain rfl := Option.some.inj hadd
              refine .refused fun hr => ?_
              obtain ⟨state', hstate, hzero⟩ := hr.allocated
              rw [hq] at hstate
              exact hfree (Option.some.inj hstate ▸ hzero)
          · next hfree =>
              split at hadd
              · next hzero =>
                  obtain rfl := Option.some.inj hadd
                  exact .refused fun hr => hr.accessible hzero
              rename_i hzero
              have hreach : Reaches sys s ea size :=
                ⟨Option.not_isSome_iff_eq_none.mp hnone, ⟨state, hq, not_not.mp hfree⟩, hzero⟩
              obtain ⟨⟨removed, prot⟩, hremove, rfl⟩ := Option.map_eq_some_iff.mp hadd
              rw [place_page_bpt]
              rcases remove_page_protections_guard hremove with ⟨heq, hguard⟩ | ⟨heq, hguard⟩
              · obtain ⟨rfl, rfl⟩ := Prod.mk.inj heq
                rw [if_pos (show (new_bpt type ea size false _ 0).real_len = 0 from rfl)]
                exact .guard hreach hguard
              · change removed = true at heq
                subst heq
                rw [if_neg (h.real_len_ne type prot)]
                exact .write hreach hguard prot

theorem find_add (s : State) (b : Bpt) : (s.add b).page_bpts.find b.page_ea = some b := by
  rw [State.add, find_record]
  exact if_pos rfl

theorem write_page_bpt_refused {b : Bpt} (hold : b.old_prot = 0) (h : sys.protects b.page_ea = false) :
    write_page_bpt sys s b = (0, s.add b) := by
  have henable : dbg_enable_page_bpt sys (s.add b) b.page_ea true = (false, s.add b) := by
    rw [dbg_enable_page_bpt, find_add]
    dsimp only
    rw [if_neg (by simpa using hold), h]
    rfl
  rw [write_page_bpt, henable]
  rfl

theorem write_page_bpt_done {b : Bpt} (hold : b.old_prot = 0) (h : sys.protects b.page_ea = true) :
    write_page_bpt sys s b = (2, (dbg_enable_page_bpt sys (s.add b) b.page_ea true).2) := by
  have henable : (dbg_enable_page_bpt sys (s.add b) b.page_ea true).1 = true := by
    rw [dbg_enable_page_bpt, find_add]
    dsimp only
    rw [if_neg (by simpa using hold), if_pos h]
  have hwrite : write_page_bpt sys s b = (if (dbg_enable_page_bpt sys (s.add b) b.page_ea true).1 then 2 else 0,
      (dbg_enable_page_bpt sys (s.add b) b.page_ea true).2) := rfl
  rw [hwrite, if_pos henable]

theorem Reaches.find_base (hr : Ranged s.page_bpts) (hf : Fits s.page_bpts ea size) (h : Reaches sys s ea size) :
    s.page_bpts.find (calc_page_base ea) = none := by
  cases hk : s.page_bpts.find (calc_page_base ea) with
  | none => rfl
  | some b =>
      have hpos := (hf.page 0 true 0 0).len_pos
      have hpos' := (hr.page _ b hk).len_pos
      have hx : Covers (calc_page_base ea) (new_bpt 0 ea size true 0 0) (calc_page_base ea) :=
        ⟨Int.le_refl _, by omega⟩
      exact absurd ⟨Int.le_refl _, by omega⟩ (hf.fresh hr h.fresh hk hx)

theorem dbg_add_failure (hr : Ranged s.page_bpts) (hf : Fits s.page_bpts ea size)
    (hadd : dbg_add_page_bpt sys s type ea size = some (0, s')) : s' = s ↔ ¬ Refused sys s ea size := by
  have hcases := dbg_add_cases hf hadd
  generalize hres : (0, s') = r at hcases
  cases hcases with
  | refused hnot =>
      obtain rfl := (Prod.mk.inj hres).2
      exact ⟨fun _ hrefused => hnot hrefused.1, fun _ => rfl⟩
  | guard _ _ => cases (Prod.mk.inj hres).1
  | write hreach hguard prot =>
      cases hp : sys.protects (calc_page_base ea) with
      | true =>
          rw [write_page_bpt_done rfl hp] at hres
          cases (Prod.mk.inj hres).1
      | false =>
          rw [write_page_bpt_refused rfl hp] at hres
          obtain rfl := (Prod.mk.inj hres).2
          constructor
          · intro heq
            have hfind := find_add s (new_bpt type ea size true prot 0)
            rw [heq] at hfind
            exact absurd (hfind.symm.trans (hreach.find_base hr hf)) (by simp)
          · intro hnot
            exact absurd ⟨hreach, hguard, hp⟩ hnot

/-! ### Runs -/

inductive Action where
  | add (type ea : Nat) (size : Int)
  | del (ea type : Nat)
  | enable (enable : Bool)
  | mask (startea endea protect : Nat)
  /-- The program changes protections. -/
  | app (prot : Nat → Nat)

/-- The state after an action; nothing for a failing assertion. -/
def step (sys : Sys) (s : State) : Action → Option State
  | .add type ea size => (dbg_add_page_bpt sys s type ea size).map Prod.snd
  | .del ea type => some (del_page_bpt sys s ea type).2
  | .enable enable => some (enable_page_bpts sys s enable)
  | .mask startea endea protect =>
    (mask_page_bpts sys.dep s.page_bpts startea endea protect).map fun r => { s with page_bpts := r.2.2 }
  | .app prot => some { s with prot := prot }

/-- A run from pages with the given protections and no breakpoints, in which every step meets a condition. -/
inductive Run (C : Sys → State → Action → Prop) (prot : Nat → Nat) : State → Prop where
  | start : Run C prot ⟨prot, Table.empty⟩
  | step {s s' : State} (sys : Sys) (a : Action) (h : Run C prot s) (hc : C sys s a) (hs : step sys s a = some s') :
      Run C prot s'

def Fitting (_ : Sys) (s : State) : Action → Prop
  | .add _ ea size => Fits s.page_bpts ea size
  | _ => True

def OnNew (ea : Nat) (size : Int) (page : Nat) : Prop := On (calc_page_base ea) (new_bpt 0 ea size true 0 0) page

/-- Additions have a range of pages of one protection; written breakpoints are removed without an error; a mask is for a
region of one original protection; the program changes no protection. -/
def Clean (orig : Nat → Nat) (sys : Sys) (s : State) : Action → Prop
  | .add _ ea size =>
    Fits s.page_bpts ea size ∧
      (Reaches sys s ea size → s.at (calc_page_base ea) &&& PAGE_GUARD = 0 →
        ∀ page, OnNew ea size page → s.prot page = s.at (calc_page_base ea))
  | .del ea _ =>
    ∀ k b, s.page_bpts.find k = some b → b.ea = ea → Written b → sys.protects b.page_ea = true
  | .enable enable =>
    enable = false → ∀ k b, s.page_bpts.find k = some b → Written b → sys.protects b.page_ea = true
  | .mask startea endea protect => Region orig s startea endea protect
  | .app _ => False

theorem step_ranged {a : Action} (hr : Ranged s.page_bpts) (hc : Fitting sys s a) (hs : step sys s a = some s') :
    Ranged s'.page_bpts := by
  cases a with
  | add type ea size =>
      obtain ⟨r, hadd, rfl⟩ := Option.map_eq_some_iff.mp hs
      exact dbg_add_ranged hc hr hadd
  | del ea type =>
      obtain rfl := Option.some.inj hs
      exact (del_within sys s ea type).ranged hr
  | enable enable =>
      obtain rfl := Option.some.inj hs
      exact (enable_page_bpts_within sys s enable).ranged hr
  | mask startea endea protect =>
      obtain ⟨r, hmask, rfl⟩ := Option.map_eq_some_iff.mp hs
      obtain ⟨q, hloop, rfl⟩ := Option.map_eq_some_iff.mp hmask
      have hwithin := (mask_loop_within _ _ _ _ _ _ _ hloop).ranged hr
      dsimp only
      split <;> exact hwithin
  | app prot =>
      obtain rfl := Option.some.inj hs
      exact hr

theorem Run.ranged (h : Run Fitting orig s) : Ranged s.page_bpts := by
  induction h with
  | start => exact Ranged.empty
  | step sys a _ hc hs ih => exact step_ranged ih hc hs

theorem Kept.fresh (h : Kept orig s) (hf : Fits s.page_bpts ea size) (hreach : Reaches sys s ea size) {page : Nat}
    (hon : OnNew ea size page) : s.prot page = orig page := by
  apply h.free
  intro k b hk hon' _
  exact hf.fresh h.ranged hreach.fresh hk hon hon'

theorem Kept.fresh_base (h : Kept orig s) (hf : Fits s.page_bpts ea size) (hreach : Reaches sys s ea size) :
    s.at (calc_page_base ea) = orig (calc_page_base ea / MEMORY_PAGE_SIZE) :=
  h.fresh hf hreach (on_first (hf.page 0 true 0 0))

theorem step_kept {a : Action} (h : Kept orig s) (hc : Clean orig sys s a) (hs : step sys s a = some s') :
    Kept orig s' := by
  cases a with
  | add type ea size =>
      obtain ⟨hf, huniform⟩ := hc
      obtain ⟨r, hadd, rfl⟩ := Option.map_eq_some_iff.mp hs
      cases dbg_add_cases hf hadd with
      | refused _ => exact h
      | guard hreach hguard =>
          have hbase := h.fresh_base hf hreach
          have hp := hf.page type false (s.at (calc_page_base ea)) (s.at (calc_page_base ea))
          refine Kept.add h (b := new_bpt type ea size false (s.at (calc_page_base ea)) (s.at (calc_page_base ea))) hp ?_
            fun k' b' hk' x hx => hf.fresh h.ranged hreach.fresh hk' hx
          exact ⟨.inl rfl, fun hne => absurd rfl hne, fun _ => hbase, fun _ => hbase,
            fun hzero => hreach.accessible (hbase.trans hzero), fun hw => absurd rfl hw.1⟩
      | write hreach hguard prot =>
          have hbase := h.fresh_base hf hreach
          have hp := hf.page type true prot 0
          have hadded : Kept orig (s.add (new_bpt type ea size true prot 0)) := by
            refine Kept.add h (b := new_bpt type ea size true prot 0) hp ?_
              fun k' b' hk' x hx => hf.fresh h.ranged hreach.fresh hk' hx
            refine ⟨.inr (new_bpt_real_len type ea size prot 0), ?_, fun hne => absurd rfl hne,
              fun hzero => absurd hzero (hf.real_len_ne type prot),
              fun hzero => hreach.accessible (hbase.trans hzero), fun hw => absurd rfl hw.2⟩
            intro _ page hon
            have hon : OnNew ea size page := hon
            exact (h.fresh hf hreach hon).symm.trans ((huniform hreach hguard page hon).trans hbase)
          cases hp : sys.protects (calc_page_base ea) with
          | true =>
              rw [write_page_bpt_done rfl hp]
              exact hadded.enable_true _
          | false =>
              rw [write_page_bpt_refused rfl hp]
              exact hadded
  | del ea type =>
      obtain rfl := Option.some.inj hs
      rw [del_page_bpt]
      cases hfind : find_page_bpt s.page_bpts ea 1 with
      | none => exact h
      | some p =>
          have hk := find_page_bpt_mem hfind
          dsimp only
          split
          · exact h
          rename_i hmatch
          apply h.del p.1
          intro b hb
          rw [hk] at hb
          obtain rfl := Option.some.inj hb
          exact hc p.1 p.2 hk (by_contra fun hne => hmatch (.inl hne))
  | enable enable =>
      obtain rfl := Option.some.inj hs
      cases enable with
      | true => exact h.enable_all_true
      | false => exact h.enable_all_false (hc rfl)
  | mask startea endea protect =>
      obtain ⟨r, hmask, rfl⟩ := Option.map_eq_some_iff.mp hs
      obtain ⟨changed, heq⟩ := h.mask sys.dep hc
      rw [heq] at hmask
      obtain rfl := Option.some.inj hmask
      exact h
  | app prot => exact hc.elim

theorem Run.kept (h : Run (Clean orig) orig s) : Kept orig s := by
  induction h with
  | start => exact Kept.start orig
  | step sys a _ hc hs ih => exact step_kept ih hc hs

/-- What holds of the page breakpoints in the runs from pages with these protections. -/
structure Holds (orig : Nat → Nat) : Prop where
  /-- No two recorded ranges share an address. -/
  disjoint : ∀ s, Run Fitting orig s → ∀ k b k' b', s.page_bpts.find k = some b → s.page_bpts.find k' = some b' →
    k ≠ k' → ∀ x, ¬ (Covers k b x ∧ Covers k' b' x)
  /-- The search finds a breakpoint exactly when a recorded range meets the interval. -/
  search : ∀ s, Run Fitting orig s → ∀ (ea : Nat) (size : Int), 0 ≤ size → ea + size < 2 ^ 64 →
    ((find_page_bpt s.page_bpts ea size).isSome = true ↔ ∃ k b, s.page_bpts.find k = some b ∧ Shares ea size k b)
  /-- A failing addition changes nothing, unless its breakpoint is recorded before the system refuses it. -/
  failure : ∀ s, Run Fitting orig s → ∀ sys type ea size s', Fits s.page_bpts ea size →
    dbg_add_page_bpt sys s type ea size = some (0, s') → (s' = s ↔ ¬ Refused sys s ea size)
  /-- The pages of an addition have their first protections. -/
  before : ∀ s, Run (Clean orig) orig s → ∀ sys ea size, Fits s.page_bpts ea size → Reaches sys s ea size →
    ∀ page, OnNew ea size page → s.prot page = orig page
  /-- They have them again after the deletion. -/
  restored : ∀ s, Run (Clean orig) orig s → ∀ sys ea type, Clean orig sys s (.del ea type) → ∀ k b,
    find_page_bpt s.page_bpts ea 1 = some (k, b) → b.ea = ea → b.type = type →
      (del_page_bpt sys s ea type).1 = true ∧ ∀ page, On k b page → (del_page_bpt sys s ea type).2.prot page = orig page
  /-- A mask reports them. -/
  masked : ∀ s, Run (Clean orig) orig s → ∀ dep startea endea protect, Region orig s startea endea protect →
    ∃ changed, mask_page_bpts dep s.page_bpts startea endea protect =
      some (changed, orig (startea / MEMORY_PAGE_SIZE), s.page_bpts)
  /-- A breakpoint grants no access and lets none pass that it must trap. -/
  rights : ∀ dep input bpttype, Proper input → ∃ removed out,
    remove_page_protections dep input bpttype = some (removed, out) ∧ Restricts dep input out bpttype

theorem page_bpts_hold (orig : Nat → Nat) : Holds orig where
  disjoint s h k b k' b' hk hk' hne x hx := hne (h.ranged.unique hk hk' hx.1 hx.2)
  search s h ea size h0 htop := find_page_bpt_isSome h.ranged h0 htop
  failure s h sys type ea size s' hf hadd := dbg_add_failure h.ranged hf hadd
  before s h sys ea size hf hreach page hon := h.kept.fresh hf hreach hon
  restored s h sys ea type hc k b hfind hea htype := by
    have hk := find_page_bpt_mem hfind
    have hdel : del_page_bpt sys s ea type = (true, { (dbg_enable_page_bpt sys s k false).2 with
        page_bpts := (dbg_enable_page_bpt sys s k false).2.page_bpts.erase k }) := by
      rw [del_page_bpt, hfind]
      exact if_neg fun h => h.elim (· hea) (· htype)
    rw [hdel]
    refine ⟨rfl, fun page hon => ?_⟩
    exact h.kept.del_range hk (hc k b hk hea) hon
  masked s h dep startea endea protect hr := h.kept.mask dep hr
  rights := remove_page_protections_restricts

/-- The system refuses every change, or allows it. -/
def answering (protects : Bool) : Sys := ⟨some 0x1000, fun _ => protects, ⟨.dp_always_on, true, none⟩⟩

/-- A page to be read and written, followed by one that may only be read. -/
def two_pages (page : Nat) : Nat := if page = 0x11 then PAGE_READONLY else PAGE_READWRITE

/-- A failing addition leaves its breakpoint in the table, and the deletion of a breakpoint on two pages gives the second
page the protection of the first. -/
theorem not_unchanged_not_restored :
    (∃ s', dbg_add_page_bpt (answering false) ⟨two_pages, Table.empty⟩ BPT_WRITE 0x10010 4 = some (0, s') ∧
        s' ≠ ⟨two_pages, Table.empty⟩) ∧
      ∃ s', dbg_add_page_bpt (answering true) ⟨two_pages, Table.empty⟩ BPT_WRITE 0x10010 0x1000 = some (2, s') ∧
        (del_page_bpt (answering true) s' 0x10010 BPT_WRITE).1 = true ∧
        (del_page_bpt (answering true) s' 0x10010 BPT_WRITE).2.prot 0x11 ≠ two_pages 0x11 := by
  have hfail : (dbg_add_page_bpt (answering false) ⟨two_pages, Table.empty⟩ BPT_WRITE 0x10010 4).map
      (fun r => (r.1, (r.2.page_bpts.find 0x10000).isSome)) = some (0, true) := by decide +kernel
  have hadd : (dbg_add_page_bpt (answering true) ⟨two_pages, Table.empty⟩ BPT_WRITE 0x10010 0x1000).map
      (fun r => (r.1, (del_page_bpt (answering true) r.2 0x10010 BPT_WRITE).1,
        (del_page_bpt (answering true) r.2 0x10010 BPT_WRITE).2.prot 0x11)) = some (2, true, PAGE_READWRITE) := by
    decide +kernel
  obtain ⟨⟨code, s⟩, hs, heq⟩ := Option.map_eq_some_iff.mp hfail
  obtain ⟨⟨code', s'⟩, hs', heq'⟩ := Option.map_eq_some_iff.mp hadd
  simp only [Prod.mk.injEq] at heq heq'
  obtain ⟨rfl, hfind⟩ := heq
  obtain ⟨rfl, hdel, hprot⟩ := heq'
  refine ⟨⟨s, hs, ?_⟩, s', hs', hdel, ?_⟩
  · rintro rfl
    cases hfind
  · rw [hprot]
    decide

/-! ### Switching -/

theorem enable_false_written (ks : List Nat) {k : Nat} {b : Bpt}
    (hk : (ks.foldl (fun s k => (dbg_enable_page_bpt sys s k false).2) s).page_bpts.find k = some b) (hw : Written b) :
    s.page_bpts.find k = some b ∧ k ∉ ks := by
  induction ks generalizing s with
  | nil => exact ⟨hk, List.not_mem_nil⟩
  | cons k' ks ih =>
      obtain ⟨hafter, hnot⟩ := ih hk
      obtain ⟨hbefore, hne⟩ := written_of_disable hafter hw
      exact ⟨hbefore, fun hmem => (List.mem_cons.mp hmem).elim hne hnot⟩

/-- A breakpoint that is switched on knows the old protection, and the others stay as they are. -/
theorem Kept.enable_true_find (h : Kept orig s) {k k' : Nat} {b' : Bpt}
    (hsys : ∀ b, s.page_bpts.find k = some b → sys.protects b.page_ea = true)
    (hk' : (dbg_enable_page_bpt sys s k true).2.page_bpts.find k' = some b') :
    (∃ b, s.page_bpts.find k' = some b ∧ b.page_ea = b'.page_ea ∧ (b.old_prot ≠ 0 → b'.old_prot ≠ 0)) ∧
      (k' = k → b'.old_prot ≠ 0) := by
  rw [dbg_enable_page_bpt] at hk'
  cases hk : s.page_bpts.find k with
  | none =>
      rw [hk] at hk'
      refine ⟨⟨b', hk', rfl, id⟩, ?_⟩
      rintro rfl
      exact absurd (hk'.symm.trans hk) (by simp)
  | some b =>
      rw [hk] at hk'
      dsimp only at hk'
      split at hk'
      · next hold =>
          refine ⟨⟨b', hk', rfl, id⟩, ?_⟩
          rintro rfl
          obtain rfl := Option.some.inj (hk.symm.trans hk')
          simpa using hold
      next hold =>
      have hzero : b.old_prot = 0 := by simpa using hold
      have hold : s.at b.page_ea ≠ 0 := by
        rw [State.at, (h.ranged.page k b hk).key,
          h.unwritten hk (fun hw => hw.2 hzero) (on_first (h.ranged.page k b hk))]
        exact (h.entry k b hk).nonzero
      rw [if_pos (hsys b hk)] at hk'
      dsimp only at hk'
      rw [Table.find_modify] at hk'
      split at hk'
      · next heq =>
          subst heq
          rw [hk] at hk'
          obtain rfl := Option.some.inj hk'
          exact ⟨⟨b, hk, rfl, fun _ => hold⟩, fun _ => hold⟩
      · next hne => exact ⟨⟨b', hk', rfl, id⟩, fun heq => absurd heq hne⟩

theorem Kept.enable_all_true_find (h : Kept orig s)
    (hsys : ∀ k b, s.page_bpts.find k = some b → sys.protects b.page_ea = true) {k : Nat} {b : Bpt}
    (hk : (enable_page_bpts sys s true).page_bpts.find k = some b) : b.old_prot ≠ 0 := by
  have hkeys : ∀ k b, s.page_bpts.find k = some b → k ∈ s.page_bpts.keys ∨ b.old_prot ≠ 0 :=
    fun k b hk => .inl (Table.mem_keys.mpr (by rw [hk]; rfl))
  rw [enable_page_bpts] at hk
  generalize s.page_bpts.keys = ks at hk hkeys
  induction ks generalizing s with
  | nil => exact (hkeys k b hk).resolve_left List.not_mem_nil
  | cons k' ks ih =>
      refine ih (h.enable_true k') (fun k b hb => ?_) hk fun k b hb => ?_
      · obtain ⟨⟨c, hc, heq, -⟩, -⟩ := h.enable_true_find (hsys k') hb
        exact heq ▸ hsys k c hc
      · obtain ⟨⟨c, hc, -, hold⟩, hself⟩ := h.enable_true_find (hsys k') hb
        rcases hkeys k c hc with hmem | hne
        · exact (List.mem_cons.mp hmem).imp_left hself |>.symm
        · exact .inr (hold hne)

/-- Behind such a run the breakpoints, switched off, leave no trace in the protections; switched on, they trap on all
their pages. -/
theorem page_bpts_switched (h : Run (Clean orig) orig s)
    (hsys : ∀ k b, s.page_bpts.find k = some b → sys.protects b.page_ea = true) :
    (enable_page_bpts sys s false).prot = orig ∧
      ∀ k b page, (enable_page_bpts sys s true).page_bpts.find k = some b → b.real_len ≠ 0 → On k b page →
        (enable_page_bpts sys s true).prot page = b.new_prot := by
  constructor
  · funext page
    apply (h.kept.enable_all_false fun k b hk _ => hsys k b hk).free
    intro k b hk _ hw
    obtain ⟨hbefore, hnot⟩ := enable_false_written s.page_bpts.keys hk hw
    exact hnot (Table.mem_keys.mpr (by rw [hbefore]; rfl))
  · intro k b page hk hreal hon
    exact (h.kept.enable_all_true.entry k b hk).written ⟨hreal, h.kept.enable_all_true_find hsys hk⟩ page hon

theorem page_bpts_switched_added : ∃ s, (s.page_bpts.find 0x10000).isSome = true ∧
    (enable_page_bpts (answering true) s false).prot = fun _ => PAGE_READWRITE := by
  have hadd : (step (answering true) ⟨fun _ => PAGE_READWRITE, Table.empty⟩ (.add BPT_WRITE 0x10010 4)).map
      (fun s => (s.page_bpts.find 0x10000).isSome) = some true := by decide +kernel
  obtain ⟨s, hs, hfind⟩ := Option.map_eq_some_iff.mp hadd
  have hfits : Fits Table.empty 0x10010 4 :=
    ⟨by decide, by decide, by decide, by decide, fun h => absurd h (by decide)⟩
  have hrun : Run (Clean fun _ => PAGE_READWRITE) (fun _ => PAGE_READWRITE) s :=
    .step (answering true) (.add BPT_WRITE 0x10010 4) .start ⟨hfits, fun _ _ _ _ => rfl⟩ hs
  exact ⟨s, hfind, (page_bpts_switched hrun fun _ _ _ => rfl).1⟩

end IdaSdk.PageBpts
