import IdaSdk.ThreadBptsModel

/-!
The counters of the thread breakpoints and the bytes under them. A step is right as long as writing the
breakpoint code does not fail, no thread exits with a breakpoint, and no breakpoint is set at an address that stands for
none.
-/

namespace IdaSdk.ThreadBpts

variable {mask : Nat} {mem : Nat → UInt8} {s s' : State} {tid ea : Nat}

/-- The counter of an address; there is none for zero. -/
def State.refs (s : State) (a : Nat) : Int := ((s.thread_bpts.find a).map fun ibi => ibi.count).getD 0

/-- The number of live threads with their breakpoint at an address. -/
def State.stopping (s : State) (a : Nat) : Nat := s.threads.count fun ti => ti.bpt_ea = a

def State.under (s : State) (a : Nat) : UInt8 := ((s.thread_bpts.find a).map fun ibi => ibi.orig_bytes).getD (s.memory a)

/-- What holds of one address: the counter is right, and the code is over the original byte. -/
structure Here (mem : Nat → UInt8) (s : State) (a : Nat) : Prop where
  counted : s.refs a = s.stopping a
  positive : ∀ ibi, s.thread_bpts.find a = some ibi → 0 < ibi.count
  code : ∀ ibi, s.thread_bpts.find a = some ibi → s.memory a = bpt_code
  original : s.under a = mem a

structure Inv (mask : Nat) (mem : Nat → UInt8) (s : State) : Prop where
  here : ∀ a, like_badaddr mask a = false → Here mem s a
  bad : ∀ a, like_badaddr mask a = true → s.thread_bpts.find a = none ∧ s.memory a = mem a

theorem Inv.change (h : Inv mask mem s) {a₀ : Nat} (hgood : like_badaddr mask a₀ = false)
    (hfind : ∀ a, a ≠ a₀ → s'.thread_bpts.find a = s.thread_bpts.find a)
    (hmemory : ∀ a, a ≠ a₀ → s'.memory a = s.memory a)
    (hstopping : ∀ a, a ≠ a₀ → like_badaddr mask a = false → s'.stopping a = s.stopping a)
    (hhere : Here mem s' a₀) : Inv mask mem s' := by
  constructor
  · intro a ha
    by_cases heq : a = a₀
    · exact heq ▸ hhere
    obtain ⟨hcounted, hpositive, hcode, horiginal⟩ := h.here a ha
    refine ⟨?_, ?_, ?_, ?_⟩
    · rw [State.refs, hfind a heq, hstopping a heq ha]
      exact hcounted
    · rw [hfind a heq]
      exact hpositive
    · rw [hfind a heq, hmemory a heq]
      exact hcode
    · rw [State.under, hfind a heq, hmemory a heq]
      exact horiginal
  · intro a ha
    have hne : a ≠ a₀ := by
      rintro rfl
      rw [hgood] at ha
      cases ha
    rw [hfind a hne, hmemory a hne]
    exact h.bad a ha

variable {a : Nat} {ibi : internal_bpt_info_t}

theorem refs_of_find (h : s.thread_bpts.find a = some ibi) :
    s.refs a = ibi.count := by
  rw [State.refs, h]
  rfl

theorem under_of_find (h : s.thread_bpts.find a = some ibi) :
    s.under a = ibi.orig_bytes := by
  rw [State.under, h]
  rfl

theorem Here.some (h : s.thread_bpts.find a = some ibi)
    (hcount : ibi.count = s.stopping a) (hpos : 0 < ibi.count) (hcode : s.memory a = bpt_code)
    (horig : ibi.orig_bytes = mem a) : Here mem s a := by
  refine ⟨(refs_of_find h).trans hcount, ?_, fun _ _ => hcode, (under_of_find h).trans horig⟩
  intro ibi' h'
  rw [h] at h'
  exact Option.some.inj h' ▸ hpos

theorem Here.none (h : s.thread_bpts.find a = none) (hcount : s.stopping a = 0) (hmem : s.memory a = mem a) :
    Here mem s a := by
  refine ⟨?_, ?_, ?_, ?_⟩
  · rw [State.refs, h, hcount]
    rfl
  · intro ibi h'
    rw [h] at h'
    cases h'
  · intro ibi h'
    rw [h] at h'
    cases h'
  · rw [State.under, h]
    exact hmem

theorem like_badaddr_badaddr (mask : Nat) : like_badaddr mask BADADDR = true := by
  rw [like_badaddr, ite_self]
  exact decide_eq_true rfl

theorem ne_of_good {b : Nat} (ha : like_badaddr mask a = false) (hb : like_badaddr mask b = true) : a ≠ b := by
  rintro rfl
  rw [ha] at hb
  cases hb

variable {ti : thread_info_t}

theorem stopping_set (h : s.threads.find tid = some ti) (b a : Nat) :
    (s.set_bpt_ea tid b).stopping a + (if ti.bpt_ea = a then 1 else 0) = s.stopping a + if b = a then 1 else 0 := by
  have hcount := Table.count_modify (p := fun ti : thread_info_t => decide (ti.bpt_ea = a))
    (f := fun ti => { ti with bpt_ea := b }) h
  simp only [decide_eq_true_eq] at hcount
  exact hcount

theorem find_set (h : s.threads.find tid = some ti) (b : Nat) :
    (s.set_bpt_ea tid b).threads.find tid = some { ti with bpt_ea := b } := by
  rw [State.set_bpt_ea, Table.find_modify_self, h]
  rfl

theorem set_bpt_ea_set (s : State) (tid a b : Nat) : (s.set_bpt_ea tid a).set_bpt_ea tid b = s.set_bpt_ea tid b := by
  rw [State.set_bpt_ea, State.set_bpt_ea, Table.modify_modify]
  rfl

theorem Inv.find_of_thread (h : Inv mask mem s) (hti : s.threads.find tid = some ti)
    (hgood : like_badaddr mask ti.bpt_ea = false) : ∃ ibi, s.thread_bpts.find ti.bpt_ea = some ibi := by
  have hpos : 0 < s.stopping ti.bpt_ea :=
    Table.count_pos.mpr ⟨tid, ti, hti, decide_eq_true rfl⟩
  have hcounted := (h.here _ hgood).counted
  cases hfind : s.thread_bpts.find ti.bpt_ea with
  | some ibi => exact ⟨ibi, rfl⟩
  | none =>
      rw [State.refs, hfind, Option.map_none, Option.getD_none] at hcounted
      omega

/-! ### What the routines do to a reference -/

theorem Inv.release (h : Inv mask mem s) (out : Access) (hti : s.threads.find tid = some ti)
    (hgood : like_badaddr mask ti.bpt_ea = false) :
    restore_original_bytes out s ti.bpt_ea true = .error .interr1489 ∨
      ∃ s', restore_original_bytes out s ti.bpt_ea true = .ok s' ∧ Inv mask mem (s'.set_bpt_ea tid BADADDR) ∧
        s'.threads = s.threads := by
  obtain ⟨ibi, hfind⟩ := h.find_of_thread hti hgood
  have hbad : ∀ a, like_badaddr mask a = false → BADADDR ≠ a :=
    fun a ha => (ne_of_good ha (like_badaddr_badaddr mask)).symm
  have hhere := h.here _ hgood
  have hcounted := (refs_of_find hfind).symm.trans hhere.counted
  have horig := (under_of_find hfind).symm.trans hhere.original
  have hself := stopping_set hti BADADDR ti.bpt_ea
  rw [if_pos rfl, if_neg (hbad _ hgood)] at hself
  have haway : ∀ a, a ≠ ti.bpt_ea → like_badaddr mask a = false → (s.set_bpt_ea tid BADADDR).stopping a = s.stopping a := by
    intro a hne ha
    have := stopping_set hti BADADDR a
    rwa [if_neg (hbad a ha), if_neg hne.symm] at this
  rw [restore_original_bytes, hfind]
  dsimp only
  by_cases hlast : ibi.count - 1 = 0
  · rw [if_pos hlast, if_pos rfl]
    by_cases hout : out.count ≠ bpt_size
    · rw [if_pos hout]
      exact .inl rfl
    rw [if_neg hout]
    refine .inr ⟨_, rfl, ?_, rfl⟩
    refine h.change hgood (fun a hne => ?_) (fun a hne => if_neg hne) haway (Here.none ?_ ?_ ?_)
    · show (s.thread_bpts.erase ti.bpt_ea).find a = s.thread_bpts.find a
      rw [Table.find_erase, if_neg hne]
    · show (s.thread_bpts.erase ti.bpt_ea).find ti.bpt_ea = none
      rw [Table.find_erase, if_pos rfl]
    · show (s.set_bpt_ea tid BADADDR).stopping ti.bpt_ea = 0
      omega
    · exact (if_pos rfl).trans horig
  · rw [if_neg hlast]
    refine .inr ⟨_, rfl, ?_, rfl⟩
    have hpos := hhere.positive ibi hfind
    have hfind' : (s.thread_bpts.modify ti.bpt_ea fun ibi => { ibi with count := ibi.count - 1 }).find ti.bpt_ea =
        some { ibi with count := ibi.count - 1 } := by
      rw [Table.find_modify_self, hfind]
      rfl
    refine h.change hgood (fun a hne => Table.find_modify_of_ne hne) (fun _ _ => rfl) haway
      (Here.some hfind' ?_ ?_ (hhere.code ibi hfind) horig)
    · show ibi.count - 1 = (s.set_bpt_ea tid BADADDR).stopping ti.bpt_ea
      omega
    · show 0 < ibi.count - 1
      omega

theorem Inv.set_bad (h : Inv mask mem s) (hti : s.threads.find tid = some ti)
    (hbad : like_badaddr mask ti.bpt_ea = true) {b : Nat} (hb : like_badaddr mask b = true) :
    Inv mask mem (s.set_bpt_ea tid b) := by
  refine ⟨fun a ha => ?_, h.bad⟩
  have hset := stopping_set hti b a
  rw [if_neg (ne_of_good ha hb).symm, if_neg (ne_of_good ha hbad).symm] at hset
  obtain ⟨hcounted, hpositive, hcode, horiginal⟩ := h.here a ha
  refine ⟨?_, hpositive, hcode, horiginal⟩
  exact hcounted.trans (congrArg Nat.cast hset.symm)

theorem del_thread_bpt_spec (h : Inv mask mem s) (out : Outcome)
    (hti : s.threads.find tid = some ti) (ea : Nat) :
    del_thread_bpt mask out s tid ea = .error .interr1489 ∨
      ∃ deleted s', del_thread_bpt mask out s tid ea = .ok (deleted, s') ∧ Inv mask mem s' ∧
        s'.threads.keys = s.threads.keys ∧
        (ea = BADADDR → ∃ ti', s'.threads.find tid = some ti' ∧ like_badaddr mask ti'.bpt_ea = true) ∧
        (like_badaddr mask ti.bpt_ea = true → s' = s) ∧
        (ea = BADADDR → like_badaddr mask ti.bpt_ea = false → s'.thread_bpts ≠ s.thread_bpts) := by
  rw [del_thread_bpt, hti]
  dsimp only
  by_cases hbad : like_badaddr mask ti.bpt_ea = true
  · rw [if_pos hbad]
    exact .inr ⟨false, s, rfl, h, rfl, fun _ => ⟨ti, hti, hbad⟩, fun _ => rfl,
      fun _ hgood => absurd hbad (by rw [hgood]; decide)⟩
  rw [if_neg hbad]
  by_cases hctx : ti.bpt_ea = ea ∧ out.context = none
  · rw [if_pos hctx]
    have hne : ea ≠ BADADDR := by
      rintro rfl
      exact absurd (hctx.1 ▸ like_badaddr_badaddr mask) hbad
    exact .inr ⟨false, s, rfl, h, rfl, fun heq => absurd heq hne, fun _ => rfl, fun heq => absurd heq hne⟩
  · rw [if_neg hctx]
    have hgood := Bool.not_eq_true _ ▸ hbad
    rcases h.release out.restore hti hgood with herr | ⟨s', hok, hinv, hthreads⟩
    · rw [herr]
      exact .inl rfl
    rw [hok]
    have hti' : s'.threads.find tid = some ti := hthreads ▸ hti
    refine .inr ⟨true, _, rfl, hinv, ?_, fun _ => ?_, fun hb => absurd hb hbad, fun _ _ heq => ?_⟩
    · rw [State.set_bpt_ea, Table.keys_modify, hthreads]
    · exact ⟨_, find_set hti' BADADDR, like_badaddr_badaddr mask⟩
    -- the counter is one less, so the table is another one
    have hcounted := (h.here _ hgood).counted
    have hcounted' := (hinv.here _ hgood).counted
    have hrefs : (s'.set_bpt_ea tid BADADDR).refs ti.bpt_ea = s.refs ti.bpt_ea := by
      rw [State.refs, State.refs, heq]
    have hset := stopping_set hti BADADDR ti.bpt_ea
    rw [if_pos rfl, if_neg (ne_of_good hgood (like_badaddr_badaddr mask)).symm] at hset
    have hstop : (s'.set_bpt_ea tid BADADDR).stopping ti.bpt_ea = (s.set_bpt_ea tid BADADDR).stopping ti.bpt_ea := by
      rw [State.stopping, State.stopping, State.set_bpt_ea, State.set_bpt_ea, hthreads]
    omega

/-- The new breakpoint of a thread without one: the reference is counted, or nothing happens. -/
theorem place_thread_bpt_spec (h : Inv mask mem s) (out : Outcome)
    (hti : s.threads.find tid = some ti) (hbad : like_badaddr mask ti.bpt_ea = true)
    (hgood : like_badaddr mask ea = false) (hwrite : out.read = .done → out.write = .done) :
    ∃ placed s', place_thread_bpt out s tid ea = .ok (placed, s') ∧ Inv mask mem s' ∧
      s'.threads.keys = s.threads.keys ∧
      (placed = false → s'.thread_bpts = s.thread_bpts ∧ s'.memory = s.memory ∧ s.thread_bpts.find ea = none) := by
  have hself := stopping_set hti ea ea
  rw [if_pos rfl, if_neg (ne_of_good hgood hbad).symm] at hself
  have haway : ∀ a, a ≠ ea → like_badaddr mask a = false → (s.set_bpt_ea tid ea).stopping a = s.stopping a := by
    intro a hne ha
    have := stopping_set hti ea a
    rwa [if_neg hne.symm, if_neg (ne_of_good ha hbad).symm] at this
  have hhere := h.here ea hgood
  rw [place_thread_bpt, save_original_bytes]
  cases hfind : s.thread_bpts.find ea with
  | some ibi =>
      have hfind' : (s.set_bpt_ea tid ea).thread_bpts.find ea = some ibi := hfind
      rw [hfind']
      refine ⟨true, _, rfl, ?_, Table.keys_modify, fun h => absurd h (by decide)⟩
      have hcounted := (refs_of_find hfind).symm.trans hhere.counted
      have hpos := hhere.positive ibi hfind
      have hnew : (s.thread_bpts.modify ea fun ibi => { ibi with count := ibi.count + 1 }).find ea =
          some { ibi with count := ibi.count + 1 } := by
        rw [Table.find_modify_self, hfind]
        rfl
      refine h.change hgood (fun a hne => Table.find_modify_of_ne hne) (fun _ _ => rfl) haway
        (Here.some hnew ?_ ?_ (hhere.code ibi hfind) ((under_of_find hfind).symm.trans hhere.original))
      · show ibi.count + 1 = (s.set_bpt_ea tid ea).stopping ea
        omega
      · show 0 < ibi.count + 1
        omega
  | none =>
      have hfind' : (s.set_bpt_ea tid ea).thread_bpts.find ea = none := hfind
      have hzero : s.stopping ea = 0 := by
        have := hhere.counted
        rw [State.refs, hfind, Option.map_none, Option.getD_none] at this
        omega
      have horig : s.memory ea = mem ea := by
        have := hhere.original
        rwa [State.under, hfind] at this
      rw [hfind']
      by_cases hread : out.read = .done
      · rw [if_neg (show ¬ out.read.count ≠ bpt_size by rw [hread]; decide)]
        refine ⟨true, { s.set_bpt_ea tid ea with thread_bpts := s.thread_bpts.insertNew ea ⟨1, s.memory ea⟩ }.write ea
          bpt_code, ?_, ?_, Table.keys_modify, fun h => absurd h (by decide)⟩
        · show (if out.write.count = bpt_size then Except.ok (true, write_code out.write _ ea) else _) = _
          rw [hwrite hread]
          exact if_pos (show Access.done.count = bpt_size from rfl)
        have hins : ∀ a, (s.thread_bpts.insertNew ea ⟨1, s.memory ea⟩).find a =
            if a = ea then some ⟨1, s.memory ea⟩ else s.thread_bpts.find a := fun a => Table.find_insertNew hfind
        refine h.change hgood (fun a hne => ?_) (fun a hne => if_neg hne) haway
          (Here.some ((hins ea).trans (if_pos rfl)) ?_ Int.one_pos (if_pos rfl) horig)
        · exact (hins a).trans (if_neg hne)
        · show 1 = ((s.set_bpt_ea tid ea).stopping ea : Int)
          omega
      · have hcount : out.read.count ≠ bpt_size := by
          cases hr : out.read with
          | done => exact absurd hr hread
          | nothing => decide
          | denied => decide
        rw [if_pos hcount]
        refine ⟨false, s.set_bpt_ea tid BADADDR, ?_, h.set_bad hti hbad (like_badaddr_badaddr mask), Table.keys_modify,
          fun _ => ⟨rfl, rfl, rfl⟩⟩
        show Except.ok (false, (s.set_bpt_ea tid ea).set_bpt_ea tid BADADDR) = _
        rw [set_bpt_ea_set]

theorem set_thread_bpt_spec (h : Inv mask mem s) (out : Outcome)
    (hti : s.threads.find tid = some ti) (hgood : like_badaddr mask ea = false)
    (hwrite : out.read = .done → out.write = .done) :
    set_thread_bpt mask out s tid ea = .error .interr1489 ∨
      ∃ placed s', set_thread_bpt mask out s tid ea = .ok (placed, s') ∧ Inv mask mem s' ∧
        s'.threads.keys = s.threads.keys ∧
        (placed = false → (s'.thread_bpts = s.thread_bpts ∧ s'.memory = s.memory ↔
          like_badaddr mask ti.bpt_ea = true)) := by
  rw [set_thread_bpt]
  rcases del_thread_bpt_spec h out hti BADADDR with herr | ⟨deleted, s₁, hdel, hinv, hkeys, hbad, hsame, hchanged⟩
  · rw [herr]
    exact .inl rfl
  rw [hdel]
  obtain ⟨ti₁, hti₁, hbad₁⟩ := hbad rfl
  obtain ⟨placed, s', hplace, hinv', hkeys', hfail⟩ := place_thread_bpt_spec hinv out hti₁ hbad₁ hgood hwrite
  refine .inr ⟨placed, s', hplace, hinv', hkeys'.trans hkeys, fun hplaced => ?_⟩
  obtain ⟨htable, hmemory, -⟩ := hfail hplaced
  rw [htable, hmemory]
  cases hb : like_badaddr mask ti.bpt_ea with
  | true =>
      rw [hsame hb]
      exact ⟨fun _ => rfl, fun _ => ⟨rfl, rfl⟩⟩
  | false => exact ⟨fun heq => absurd heq.1 (hchanged rfl hb), fun hb => absurd hb (by decide)⟩

/-- The assertion does not fail, and the result has the property. -/
def Keeps (P : State → Prop) (r : Except Fault (Bool × State)) : Prop :=
  r ≠ .error .assert1488 ∧ ∀ b s', r = .ok (b, s') → P s'

variable {P : State → Prop}

theorem Keeps.error {e : Fault} (h : e ≠ .assert1488) : Keeps P (.error e) := by
  constructor
  · intro heq
    exact h (Except.error.inj heq)
  · intro b s' heq
    cases heq

theorem Keeps.ok {b : Bool} (h : P s) : Keeps P (.ok (b, s)) := by
  constructor
  · intro heq
    cases heq
  · intro b' s' heq
    obtain ⟨-, rfl⟩ := Prod.mk.inj (Except.ok.inj heq)
    exact h

variable {env : Nat → Outcome}

theorem del_loop_keeps {ea : Nat}
    (hdel : ∀ s tid, P s → Keeps P (del_thread_bpt mask (env tid) s tid ea)) (tids : List Nat) (h : P s) (found : Bool) :
    Keeps P (del_loop mask env ea tids s found) := by
  induction tids generalizing s found with
  | nil => exact Keeps.ok h
  | cons tid tids ih =>
      have hstep := hdel s tid h
      rw [del_loop]
      cases hr : del_thread_bpt mask (env tid) s tid ea with
      | error e =>
          rw [hr] at hstep
          exact Keeps.error fun he => hstep.1 (he ▸ rfl)
      | ok r => exact ih (hstep.2 r.1 r.2 hr) _

theorem pause_loop_keeps {bpts : Nat → Bool} {tids : List Nat}
    (hset : ∀ s, ∀ tid ∈ tids, ∀ ip, (env tid).context = some ip → bpts ((ip + 2 ^ 64 - 1) % 2 ^ 64) = false → P s →
      Keeps P (set_thread_bpt mask (env tid) s tid (ip &&& mask))) (h : P s) (ok : Bool) :
    Keeps P (pause_loop mask env bpts tids s ok) := by
  induction tids generalizing s ok with
  | nil => exact Keeps.ok h
  | cons tid tids ih =>
      have ih := fun s => @ih s (fun s t ht => hset s t (List.mem_cons_of_mem _ ht))
      rw [pause_loop]
      cases hctx : (env tid).context with
      | none => exact ih s h _
      | some ip =>
          dsimp only
          cases hb : bpts ((ip + 2 ^ 64 - 1) % 2 ^ 64) with
          | true => exact ih s h _
          | false =>
              have hstep := hset s tid List.mem_cons_self ip hctx hb h
              rw [if_neg (by decide)]
              cases hr : set_thread_bpt mask (env tid) s tid (ip &&& mask) with
              | error e =>
                  rw [hr] at hstep
                  exact Keeps.error fun he => hstep.1 (he ▸ rfl)
              | ok r => exact ih _ (hstep.2 r.1 r.2 hr) _

end IdaSdk.ThreadBpts
