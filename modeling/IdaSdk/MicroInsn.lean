import IdaSdk.MicroModel

/-!
The verification of one instruction with its operands. It records the addresses of calls, each only once.
-/

namespace IdaSdk.Micro
open Verdict

/-! ### Recording the addresses of calls -/

/-- What is recorded grows, and once it is recorded a second run adds nothing or fails. -/
def Settles (f : List UInt64 → Verdict (List UInt64)) : Prop :=
  ∀ s s', f s = .ok s' → s ⊆ s' ∧ ∀ t t', s' ⊆ t → f t = .ok t' → t' = t

namespace Settles

variable {f g : List UInt64 → Verdict (List UInt64)}

theorem of_keeps (h : ∀ s s', f s = .ok s' → s' = s) : Settles f := by
  intro s s' hs
  obtain rfl := h s s' hs
  exact ⟨List.Subset.refl _, fun t t' _ ht => h t t' ht⟩

theorem bind (hf : Settles f) (hg : Settles g) : Settles fun s => f s >>= g := by
  intro s s'' hs
  obtain ⟨s', hfs, hgs⟩ := bind_eq_ok.mp hs
  obtain ⟨hsub, hsettled⟩ := hf s s' hfs
  obtain ⟨hsub', hsettled'⟩ := hg s' s'' hgs
  refine ⟨List.Subset.trans hsub hsub', fun t t'' ht htt => ?_⟩
  obtain ⟨t', hft, hgt⟩ := bind_eq_ok.mp htt
  obtain rfl := hsettled t t' (List.Subset.trans hsub' ht) hft
  exact hsettled' t' t'' ht hgt

theorem guard {c : Verdict Unit} (hf : Settles f) : Settles fun s => c >>= fun _ => f s := by
  intro s s' hs
  obtain ⟨_, -, hfs⟩ := bind_eq_ok.mp hs
  obtain ⟨hsub, hsettled⟩ := hf s s' hfs
  refine ⟨hsub, fun t t' ht htt => ?_⟩
  obtain ⟨_, -, hft⟩ := bind_eq_ok.mp htt
  exact hsettled t t' ht hft

theorem ok : Settles fun s => .ok s := of_keeps fun _ _ h => (Except.ok.inj h).symm

theorem error {e : Abort} : Settles fun _ => .error e := of_keeps fun _ _ h => by simp at h

end Settles

section
variable {A I B V : Type} (env : Env A I B V) (mba : Mba A I B V)

theorem Minsn.verifyPresence_keeps {callsKnown : Bool} {m : Minsn A I} (hcall : m.opcode.isCall = false)
    {s s' : List UInt64} (hs : m.verifyPresence env mba callsKnown s = .ok s') : s' = s := by
  unfold Minsn.verifyPresence at hs
  split at hs
  all_goals
    rename_i hop
    simp only [bind_eq_ok, exists_unit, Except.ok.injEq] at hs
    first
      | exact hs.2.symm
      | exact hs.symm
      | obtain ⟨_, _, _, _, _, _, _, _, _, rfl⟩ := hs
        rfl
      | simp [hop, Mcode.isCall] at hcall

theorem Minsn.verifyPresence_settles (callsKnown : Bool) (m : Minsn A I) :
    Settles (m.verifyPresence env mba callsKnown) := by
  cases hcall : m.opcode.isCall with
  | false => exact Settles.of_keeps fun s s' => m.verifyPresence_keeps env mba hcall
  | true =>
      have hrecord : Settles fun seen =>
          if mba.noDupCalls && m.l.t ≠ .h && !mba.pattern then
            (interrIf (seen.contains m.ea) 51264 >>= fun _ => .ok (seen ++ [m.ea]) : Verdict _)
          else .ok seen := by
        split_ifs
        · intro s s' hs
          simp only [bind_eq_ok, exists_unit, interrIf_eq_ok, Except.ok.injEq] at hs
          obtain ⟨-, rfl⟩ := hs
          refine ⟨by simp, fun t t' ht htt => ?_⟩
          have hmem : m.ea ∈ t := ht (by simp)
          simp [bind_eq_ok, hmem] at htt
        · exact Settles.ok
      have hcalls : m.opcode = .call ∨ m.opcode = .icall := by simpa [Mcode.isCall] using hcall
      rcases hcalls with hop | hop
      all_goals
        unfold Minsn.verifyPresence
        rw [hop]
        exact Settles.guard (Settles.guard (Settles.guard hrecord))

variable [DecidableEq I]

theorem Minsn.verifyShape_settles (callsKnown : Bool) (this : I) (withTarget : Bool) (m : Minsn A I) :
    Settles (m.verifyShape env mba callsKnown this withTarget) := by
  unfold Minsn.verifyShape
  iterate 5 apply Settles.guard
  apply (m.verifyPresence_settles env mba callsKnown).bind
  iterate 5 apply Settles.guard
  exact Settles.ok

mutual

theorem Mop.verify_settles (callsKnown : Bool) (m : Minsn A I) (pos : Pos) (op : Mop A I) :
    Settles (op.verify env mba callsKnown m pos) := by
  change Settles fun seen => op.verify env mba callsKnown m pos seen
  unfold Mop.verify
  apply Settles.guard
  cases op with
  | z info => exact Settles.ok
  | null info t =>
      cases t
      case c => exact Settles.guard Settles.error
      all_goals exact Settles.error
  | plain info t =>
      dsimp only
      split_ifs
      · exact Settles.error
      · exact Settles.guard (Settles.guard Settles.ok)
  | v info g => exact Settles.guard Settles.ok
  | b info num => exact Settles.guard (Settles.guard Settles.ok)
  | c info cases => exact Settles.guard (Settles.guard Settles.ok)
  | l info idx => exact Settles.guard (Settles.guard (Settles.guard Settles.ok))
  | d info addr insn => exact Settles.guard (insn.verify_settles callsKnown addr false)
  | a info target => exact Settles.guard (Settles.guard (target.verify_settles callsKnown m .addr))
  | p info lop hop =>
      apply Settles.guard
      apply (lop.verify_settles callsKnown m .lop).bind
      apply (hop.verify_settles callsKnown m .hop).bind
      exact Settles.guard Settles.ok
  | f info args retregs =>
      apply Settles.guard
      apply (args.verify_settles callsKnown m .arg).bind
      apply Settles.guard
      dsimp only
      split_ifs
      · exact (retregs.verify_settles callsKnown m .retreg).bind (Settles.guard (Settles.guard (Settles.guard Settles.ok)))
      · exact Settles.ok.bind (Settles.guard (Settles.guard (Settles.guard Settles.ok)))

theorem Mops.verify_settles (callsKnown : Bool) (m : Minsn A I) (pos : Pos) (ops : Mops A I) :
    Settles (ops.verify env mba callsKnown m pos) := by
  change Settles fun seen => ops.verify env mba callsKnown m pos seen
  unfold Mops.verify
  cases ops with
  | nil => exact Settles.ok
  | cons op ops =>
      apply Settles.guard
      apply (op.verify_settles callsKnown m pos).bind
      exact Settles.guard (ops.verify_settles callsKnown m pos)

theorem Minsn.verify_settles (callsKnown : Bool) (this : I) (withTarget : Bool) (m : Minsn A I) :
    Settles (m.verify env mba callsKnown this withTarget) := by
  change Settles fun seen => m.verify env mba callsKnown this withTarget seen
  unfold Minsn.verify
  cases m with
  | mk info opcode ea next prev l r d =>
      apply (Minsn.verifyShape_settles env mba callsKnown this withTarget _).bind
      apply (l.verify_settles callsKnown _ .l).bind
      apply (r.verify_settles callsKnown _ .r).bind
      exact d.verify_settles callsKnown _ .d

end

end

end IdaSdk.Micro
