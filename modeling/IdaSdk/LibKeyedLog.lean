import Mathlib.Data.List.Nodup
import Mathlib.Data.List.Perm.Subperm
import Mathlib.Data.Set.Insert
import Mathlib.Tactic.Common

/-!
Logs of puts and clears. A log tells a table of keys with several values each what to add and which
key to forget. What the log says about one key is a list in which a value stands for a put and
`none` for a clear. A key is cancelled by taking its first put back, or by a clear in front where
there is none.
-/

namespace IdaSdk.KeyedLog

variable {K V : Type}

inductive Entry (K V : Type) where
  | put (k : K) (v : V)
  | clear (k : K)

def Entry.apply (T : Set (K × V)) : Entry K V → Set (K × V)
  | put k v => insert (k, v) T
  | clear k => {x ∈ T | x.1 ≠ k}

/-- The table after a log. -/
def replay (T : Set (K × V)) (log : List (Entry K V)) : Set (K × V) :=
  log.foldl Entry.apply T

/-- What the log says about a key. -/
def entriesAt [DecidableEq K] (k : K) (log : List (Entry K V)) : List (Option V) :=
  log.filterMap fun
    | .put k' v => if k' = k then some (some v) else none
    | .clear k' => if k' = k then some none else none

/-- The values of a key after what the log says about it. -/
def replayAt : Set V → List (Option V) → Set V
  | S, [] => S
  | _, none :: es => replayAt ∅ es
  | S, some v :: es => replayAt (insert v S) es

variable {v : V}

theorem replayAt_some {S : Set V} {es : List (Option V)} :
    replayAt S (some v :: es) = replayAt (insert v S) es := rfl

theorem mem_replay_iff [DecidableEq K] {T : Set (K × V)} {log : List (Entry K V)} {k : K} :
    (k, v) ∈ replay T log ↔ v ∈ replayAt {v | (k, v) ∈ T} (entriesAt k log) := by
  induction log generalizing T with
  | nil => rfl
  | cons e log ih =>
      rw [replay, List.foldl_cons]
      change (k, v) ∈ replay (e.apply T) log ↔ _
      rw [ih]
      cases e with
      | put k' v' =>
          by_cases hk : k' = k
          · subst hk
            have hset : {v | (k', v) ∈ (Entry.put k' v').apply T} = insert v' {v | (k', v) ∈ T} := by
              ext w
              simp [Entry.apply]
            simp [entriesAt, replayAt_some, hset]
          · have hset : {v | (k, v) ∈ (Entry.put k' v').apply T} = {v | (k, v) ∈ T} := by
              ext w
              simp [Entry.apply, Ne.symm hk]
            simp [entriesAt, hk, hset]
      | clear k' =>
          by_cases hk : k' = k
          · subst hk
            have hset : {v | (k', v) ∈ (Entry.clear k' : Entry K V).apply T} = ∅ := by
              ext w
              simp [Entry.apply]
            simp [entriesAt, replayAt, hset]
          · have hset : {v | (k, v) ∈ (Entry.clear k' : Entry K V).apply T} = {v | (k, v) ∈ T} := by
              ext w
              simp [Entry.apply, Ne.symm hk]
            simp [entriesAt, hk, hset]

variable {es : List (Option V)}

/-- What stood before a log stays where the log does not clear it. -/
theorem mem_replayAt_iff {S : Set V} :
    v ∈ replayAt S es ↔ v ∈ replayAt ∅ es ∨ (v ∈ S ∧ none ∉ es) := by
  induction es generalizing S with
  | nil => exact (or_iff_right id).trans (and_iff_left List.not_mem_nil) |>.symm
  | cons e es ih =>
      cases e with
      | none => exact (or_iff_left fun h => h.2 List.mem_cons_self).symm
      | some w =>
          rw [replayAt_some, ih, replayAt_some, ih (S := insert w ∅)]
          simp only [Set.mem_insert_iff, Set.mem_empty_iff_false, List.mem_cons, reduceCtorEq,
            false_or, or_false]
          tauto

/-- A log that does not clear the key adds its puts. -/
theorem mem_replayAt_of_not_cleared {S : Set V} (h : none ∉ es) :
    v ∈ replayAt S es ↔ v ∈ S ∨ some v ∈ es := by
  induction es generalizing S with
  | nil => exact (or_iff_left List.not_mem_nil).symm
  | cons e es ih =>
      rw [List.mem_cons, not_or] at h
      cases e with
      | none => exact absurd rfl h.1
      | some w =>
          rw [replayAt_some, ih h.2]
          simp only [Set.mem_insert_iff, List.mem_cons, Option.some.injEq]
          tauto

/-! ### Cancelling -/

section Cancel

/-- Take the first put back. -/
def erasePut : List (Option V) → List (Option V)
  | [] => []
  | none :: es => none :: erasePut es
  | some _ :: es => es

/-- Take the first put back, or clear in front where there is none. -/
def cancel (es : List (Option V)) : List (Option V) :=
  if es.any Option.isSome then erasePut es else none :: es

/-- The number of puts. -/
def puts (es : List (Option V)) : Nat := es.countP Option.isSome

/-- The values put behind the last clear. -/
def lastRun : List (Option V) → List V
  | [] => []
  | none :: es => lastRun es
  | some v :: es => if es.any Option.isNone then lastRun es else v :: lastRun es

variable {es : List (Option V)}

theorem lastRun_some {v : V} : lastRun (some v :: es) = if es.any Option.isNone then lastRun es else v :: lastRun es := rfl

theorem any_isNone : es.any Option.isNone = true ↔ none ∈ es := by
  simp [List.any_eq_true]

theorem any_isSome : es.any Option.isSome = true ↔ 0 < puts es := by
  rw [puts, List.countP_pos_iff, List.any_eq_true]

theorem mem_lastRun {v : V} : v ∈ replayAt ∅ es ↔ v ∈ lastRun es := by
  induction es with
  | nil => exact iff_of_false id List.not_mem_nil
  | cons e es ih =>
      cases e with
      | none => exact ih
      | some w =>
          rw [replayAt_some, mem_replayAt_iff, ih, lastRun_some]
          split
          · next h => simp [any_isNone.1 h]
          rename_i h
          have hno : none ∉ es := mt any_isNone.2 h
          simp only [Set.mem_insert_iff, Set.mem_empty_iff_false, or_false, hno,
            not_false_eq_true, and_true, List.mem_cons]
          exact or_comm

theorem puts_erasePut : puts (erasePut es) = puts es - 1 := by
  induction es with
  | nil => rfl
  | cons e es ih =>
      cases e with
      | none => exact ih
      | some v => simp [puts, erasePut]

theorem none_mem_erasePut : none ∈ erasePut es ↔ none ∈ es := by
  induction es with
  | nil => rfl
  | cons e es ih =>
      cases e with
      | none => exact iff_of_true List.mem_cons_self List.mem_cons_self
      | some v => exact (or_iff_right nofun).symm.trans List.mem_cons.symm

theorem length_lastRun_le (es : List (Option V)) : (lastRun es).length ≤ puts es := by
  induction es with
  | nil => rfl
  | cons e es ih =>
      cases e with
      | none => exact ih
      | some v =>
          rw [lastRun_some]
          split
          · simp only [puts, List.countP_cons] at ih ⊢
            omega
          · simpa [puts, List.countP_cons] using ih

/-- What is never cleared is one run. -/
theorem length_lastRun (h : none ∉ es) : (lastRun es).length = puts es := by
  induction es with
  | nil => rfl
  | cons e es ih =>
      rw [List.mem_cons, not_or] at h
      cases e with
      | none => exact absurd rfl h.1
      | some v =>
          rw [lastRun_some, if_neg (mt any_isNone.mp h.2), List.length_cons, ih h.2]
          simp [puts]

/-- The first put is outside the last run as long as there is one outside it. -/
theorem length_lastRun_erasePut :
    (lastRun (erasePut es)).length = min (lastRun es).length (puts es - 1) := by
  induction es with
  | nil => rfl
  | cons e es ih =>
      cases e with
      | none => exact ih
      | some v =>
          have hle := length_lastRun_le es
          have hputs : puts (some v :: es) - 1 = puts es := by simp [puts]
          rw [erasePut, lastRun_some, hputs]
          split
          · exact (Nat.min_eq_left hle).symm
          · next h =>
              rw [List.length_cons, length_lastRun (mt any_isNone.mpr h)]
              omega

theorem replayAt_eq_empty {S : Set V} :
    replayAt S es = ∅ ↔ lastRun es = [] ∧ (none ∈ es ∨ S = ∅) := by
  simp only [Set.eq_empty_iff_forall_notMem, List.eq_nil_iff_forall_not_mem,
    mem_replayAt_iff (S := S), mem_lastRun, not_or]
  constructor
  · intro h
    refine ⟨fun v => (h v).1, ?_⟩
    by_cases hno : none ∈ es
    · exact .inl hno
    · exact .inr fun v hv => (h v).2 ⟨hv, hno⟩
  · rintro ⟨hrun, hno⟩ v
    refine ⟨hrun v, ?_⟩
    rintro ⟨hv, hv'⟩
    rcases hno with hno | hS
    · exact hv' hno
    · exact hS v hv

theorem puts_cancel : puts (cancel es) = puts es - 1 := by
  rw [cancel]
  split
  · exact puts_erasePut
  rename_i h
  rw [any_isSome] at h
  simp only [puts, List.countP_cons, Option.isSome_none] at h ⊢
  simp only [Bool.false_eq_true, if_false]
  omega

theorem none_mem_cancel : none ∈ cancel es ↔ none ∈ es ∨ puts es = 0 := by
  rw [cancel]
  split
  · next h =>
      rw [any_isSome] at h
      rw [none_mem_erasePut]
      simp [Nat.ne_of_gt h]
  · next h =>
      rw [any_isSome] at h
      simp [Nat.eq_zero_of_not_pos h]

theorem length_lastRun_cancel :
    (lastRun (cancel es)).length = min (lastRun es).length (puts es - 1) := by
  rw [cancel]
  split
  · exact length_lastRun_erasePut
  rename_i h
  rw [any_isSome] at h
  have hle := length_lastRun_le es
  change (lastRun es).length = _
  omega

variable (m : Nat)

theorem puts_cancel_iterate :
    puts (cancel^[m] es) = puts es - m := by
  induction m with
  | zero => rfl
  | succ m ih =>
      rw [Function.iterate_succ_apply', puts_cancel, ih, Nat.sub_sub]

theorem none_mem_cancel_iterate :
    none ∈ cancel^[m] es ↔ none ∈ es ∨ puts es < m := by
  induction m with
  | zero => simp
  | succ m ih =>
      rw [Function.iterate_succ_apply', none_mem_cancel, ih, puts_cancel_iterate, or_assoc]
      refine or_congr_right ?_
      omega

theorem length_lastRun_cancel_iterate :
    (lastRun (cancel^[m] es)).length = min (lastRun es).length (puts es - m) := by
  induction m with
  | zero => exact (Nat.min_eq_left (length_lastRun_le es)).symm
  | succ m ih =>
      rw [Function.iterate_succ_apply', length_lastRun_cancel, ih, puts_cancel_iterate]
      omega

/-- Cancelling a key `m` times empties it in two cases only: more cancels than puts, or as many and
nothing comes from before. -/
theorem replayAt_cancel_iterate {S : Set V}
    (h : replayAt S es ≠ ∅) :
    replayAt S (cancel^[m] es) = ∅ ↔
      puts es < m ∨ (puts es = m ∧ (none ∈ es ∨ S = ∅)) := by
  rw [replayAt_eq_empty, none_mem_cancel_iterate, ← List.length_eq_zero_iff,
    length_lastRun_cancel_iterate]
  rw [Ne, replayAt_eq_empty, ← List.length_eq_zero_iff] at h
  -- a last run is missing only where the values come from before, and then there is no put
  have hzero : (lastRun es).length = 0 → puts es = 0 := by
    intro h0
    have hno : none ∉ es := fun hno => h ⟨h0, .inl hno⟩
    rw [← length_lastRun hno, h0]
  have hle := length_lastRun_le es
  constructor
  · rintro ⟨hmin, hor⟩
    rcases Nat.lt_trichotomy (puts es) m with hlt | heq | hgt
    · exact .inl hlt
    · refine .inr ⟨heq, ?_⟩
      rcases hor with (hno | hlt) | hS
      · exact .inl hno
      · omega
      · exact .inr hS
    · omega
  · rintro (hlt | ⟨heq, hor⟩)
    · exact ⟨by omega, .inl (.inr hlt)⟩
    · refine ⟨by omega, ?_⟩
      rcases hor with hno | hS
      · exact .inl (.inl hno)
      · exact .inr hS

end Cancel

end IdaSdk.KeyedLog
