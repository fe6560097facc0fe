import IdaSdk.PefModel
import Mathlib.Tactic.Linarith

/-!
What relocation instructions mean, and when the interpreter does it. The format knows no positions and no counter:
a repeat instruction runs the words before it again.
-/

namespace IdaSdk.Pef
open StepMachine

/-- The stream runs to its end, or an instruction is rejected, or the stream is malformed: a second word is missing,
a repeated part starts before the stream, contains a repeat instruction, or ends within an instruction. -/
inductive FormatResult where
  | ok (r : Reloc)
  | rejected (r : Reloc)
  | truncated
  | beforeStart
  | nested
  | overrun

namespace FormatResult

def bind : FormatResult → (Reloc → FormatResult) → FormatResult
  | .ok r, f => f r
  | x, _ => x

def ofExcept : Except Reloc Reloc → FormatResult
  | .ok r => .ok r
  | .error r => .rejected r

end FormatResult

section
variable (t : Tables)

/-- The words of a repeated part, once. -/
def execWords : List Nat → Reloc → FormatResult
  | [], r => .ok r
  | insn :: rest, r =>
    match decode insn with
    | .single i => (FormatResult.ofExcept (exec t r i)).bind (execWords rest)
    | .double i =>
      match rest with
      | [] => .overrun
      | next :: rest => (FormatResult.ofExcept (exec t r (i next))).bind (execWords rest)
    | _ => .nested

def execTimes (block : List Nat) : Nat → Reloc → FormatResult
  | 0, r => .ok r
  | n + 1, r => (execWords t block r).bind (execTimes block n)

/-- The last `blocks` words of the stream so far, `count` times more. -/
def repeatPreceding (past : List Nat) (blocks count : Nat) (r : Reloc) : FormatResult :=
  if count = 0 then .ok r
  else if past.length < blocks then .beforeStart
  else execTimes t (past.drop (past.length - blocks)) count r

/-- The words `rest` of a stream that began with `past`. -/
def formatRun : List Nat → List Nat → Reloc → FormatResult
  | _, [], r => .ok r
  | past, insn :: rest, r =>
    match decode insn with
    | .single i => (FormatResult.ofExcept (exec t r i)).bind (formatRun (past ++ [insn]) rest)
    | .double i =>
      match rest with
      | [] => .truncated
      | next :: rest => (FormatResult.ofExcept (exec t r (i next))).bind (formatRun (past ++ [insn, next]) rest)
    | .smRepeat blocks count => (repeatPreceding t past blocks count r).bind (formatRun (past ++ [insn]) rest)
    | .lgRepeat blocks count =>
      match rest with
      | [] => .truncated
      | next :: rest =>
        (repeatPreceding t past blocks (count next) r).bind (formatRun (past ++ [insn, next]) rest)

end

def Stream.words (w : Stream) : List Nat := (List.range w.relocCount).map fun (i : Nat) => w.word i

/-- The words from position `p` on begin with `words`. -/
structure Stream.At (w : Stream) (p : Nat) (words : List Nat) : Prop where
  word : ∀ i, (hi : i < words.length) → w.word ((p + i : Nat) : Int) = words[i]
  le : p + words.length ≤ w.relocCount

namespace Stream.At

variable {w : Stream} {p x : Nat} {words words' : List Nat}

theorem all (w : Stream) : w.At 0 w.words where
  word i hi := by simp [Stream.words]
  le := by simp [Stream.words]

theorem head (h : w.At p (x :: words)) : w.word p = x ∧ p < w.relocCount := by
  have hword := h.word 0 (by simp)
  have hle := h.le
  simp only [List.length_cons] at hle
  exact ⟨by simpa using hword, by omega⟩

theorem tail (h : w.At p (x :: words)) : w.At (p + 1) words where
  word i hi := by
    have hword := h.word (i + 1) (by simpa using hi)
    rw [Nat.add_assoc, Nat.add_comm 1 i]
    simpa using hword
  le := by
    have hle := h.le
    simp only [List.length_cons] at hle
    omega

theorem left (h : w.At p (words ++ words')) : w.At p words where
  word i hi := by
    rw [h.word i (by simp; omega), List.getElem_append_left hi]
  le := by
    have hle := h.le
    rw [List.length_append] at hle
    omega

theorem right (h : w.At p (words ++ words')) : w.At (p + words.length) words' where
  word i hi := by
    rw [Nat.add_assoc, h.word (words.length + i) (by simp; omega)]
    simp
  le := by
    have hle := h.le
    rw [List.length_append] at hle
    omega

theorem drop (h : w.At p words) {n : Nat} (hn : n ≤ words.length) : w.At (p + n) (words.drop n) := by
  have hright := (List.take_append_drop n words ▸ h).right
  rwa [List.length_take, Nat.min_eq_left hn] at hright

end Stream.At

/-- All words were read at positions of the relocation block. -/
def ReadsInside (w : Stream) (reads : List Int) : Prop := ∀ j ∈ reads, 0 ≤ j ∧ j < w.relocCount

theorem ReadsInside.cons {w : Stream} {reads : List Int} (h : ReadsInside w reads) {p : Nat} (hp : p < w.relocCount) :
    ReadsInside w (p :: reads) := by
  intro j hj
  rcases List.mem_cons.mp hj with rfl | hj
  · omega
  · exact h j hj

section
variable {t : Tables} {w : Stream} {s : RelocLoop} {p x y : Nat} {rest : List Nat}

theorem inBounds (hcount : w.relocCount < 2 ^ 31) (hj : s.j = p) (hp : p < w.relocCount) :
    (s.j % 2 ^ 32).toNat < w.relocCount := by omega

theorem relocStep_single (hcount : w.relocCount < 2 ^ 31) (h : w.At p (x :: rest)) (hj : s.j = p) {i : RelocInsn}
    (hx : decode x = .single i) : relocStep t w s = finishStep t s.read i := by
  rw [relocStep, if_pos (inBounds hcount hj h.head.2), hj, h.head.1, hx]

variable {i : Nat → RelocInsn}

theorem relocStep_double (hcount : w.relocCount < 2 ^ 31) (h : w.At p (x :: y :: rest)) (hj : s.j = p) (hx : decode x = .double i) : relocStep t w s = finishStep t s.read.read (i y) := by
  have hnext : w.word s.read.j = y := by
    have hy := h.tail.head.1
    simp only [RelocLoop.read, hj]
    simpa using hy
  rw [relocStep, if_pos (inBounds hcount hj h.head.2), hnext, hj, h.head.1, hx]

/-- The variables after an instruction, rejected or not. -/
def after : Except Reloc Reloc → Reloc
  | .ok r => r
  | .error r => r

variable {o : Bool × RelocLoop}

theorem stops_keeps (P : RelocLoop → Prop) (hread : ∀ s, P s → P s.read)
    (hrepeat : ∀ (s : RelocLoop) count dist, P s → P (s.repeatBack count dist))
    (hexec : ∀ (s : RelocLoop) i, P s → P { s with reloc := after (exec t s.reloc i) }) (hs : P s)
    (h : Stops (relocStep t w) s o) : P o.2 := by
  have hfinish : ∀ (s : RelocLoop) (i : RelocInsn), P s →
      (∀ s', finishStep t s i = .next s' → P s') ∧ ∀ o, finishStep t s i = .done o → P o.2 := by
    intro s i hs
    have hafter := hexec s i hs
    rw [finishStep]
    cases hx : exec t s.reloc i with
    | ok r =>
        rw [hx] at hafter
        exact ⟨fun s' h' => Result.next.inj h' ▸ hafter, fun o h' => by simp at h'⟩
    | error r =>
        rw [hx] at hafter
        exact ⟨fun s' h' => by simp at h', fun o h' => Result.done.inj h' ▸ hafter⟩
  apply Stops.of_invariant _ _ hs h
  · intro s s' hs hstep
    rw [relocStep] at hstep
    split_ifs at hstep
    cases hx : decode (w.word s.j) with
    | single i => exact (hfinish _ i (hread s hs)).1 s' (by simpa only [hx] using hstep)
    | double i => exact (hfinish _ _ (hread _ (hread s hs))).1 s' (by simpa only [hx] using hstep)
    | smRepeat blocks count =>
        rw [hx] at hstep
        exact Result.next.inj hstep ▸ hrepeat _ _ _ (hread s hs)
    | lgRepeat blocks count =>
        rw [hx] at hstep
        exact Result.next.inj hstep ▸ hrepeat _ _ _ (hread _ (hread s hs))
  · intro s o hs hstep
    rw [relocStep] at hstep
    split_ifs at hstep
    · cases hx : decode (w.word s.j) with
      | single i => exact (hfinish _ i (hread s hs)).2 o (by simpa only [hx] using hstep)
      | double i => exact (hfinish _ _ (hread _ (hread s hs))).2 o (by simpa only [hx] using hstep)
      | smRepeat blocks count => simp [hx] at hstep
      | lgRepeat blocks count => simp [hx] at hstep
    · exact Result.done.inj hstep ▸ hs

/-! ### Repeated parts -/

/-- How the loop at `s` carries on with a result of the format: it gets to position `p'` with the same counter, or
it rejects the file. -/
def FormatResult.Follows (t : Tables) (w : Stream) (s : RelocLoop) (p' : Nat) (repeats : Int) : FormatResult → Prop
  | .ok r => ∃ s', Steps (relocStep t w) s s' ∧ s'.j = p' ∧ s'.repeats = repeats ∧ s'.reloc = r ∧
      ReadsInside w s'.reads
  | .rejected r => ∃ s', Stops (relocStep t w) s (false, s') ∧ s'.reloc = r ∧ ReadsInside w s'.reads
  | _ => True

namespace FormatResult.Follows

variable {s' : RelocLoop} {p' q : Nat} {repeats repeats' : Int} {x : FormatResult}

theorem of_steps (hsteps : Steps (relocStep t w) s s') (h : Follows t w s' p' repeats x) :
    Follows t w s p' repeats x := by
  cases x with
  | ok r =>
      obtain ⟨s'', hsteps', hrest⟩ := h
      exact ⟨s'', hsteps.trans hsteps', hrest⟩
  | rejected r =>
      obtain ⟨s'', hstops, hrest⟩ := h
      exact ⟨s'', hsteps.stops_iff.mpr hstops, hrest⟩
  | _ => trivial

theorem bind {f : Reloc → FormatResult} (h : Follows t w s p' repeats x)
    (hf : ∀ s' : RelocLoop, s'.j = p' → s'.repeats = repeats → ReadsInside w s'.reads →
      Follows t w s' q repeats' (f s'.reloc)) : Follows t w s q repeats' (x.bind f) := by
  cases x with
  | ok r =>
      obtain ⟨s', hsteps, hj, hrepeats, rfl, hreads⟩ := h
      exact of_steps hsteps (hf s' hj hrepeats hreads)
  | rejected r => exact h
  | _ => trivial

theorem of_finishStep {i : RelocInsn} (hstep : relocStep t w s = finishStep t s' i) (hj : s'.j = p')
    (hreads : ReadsInside w s'.reads) : Follows t w s p' s'.repeats (FormatResult.ofExcept (exec t s'.reloc i)) := by
  rw [finishStep] at hstep
  cases hexec : exec t s'.reloc i with
  | ok r =>
      rw [hexec] at hstep
      exact ⟨_, Steps.of_next hstep, hj, rfl, rfl, hreads⟩
  | error r =>
      rw [hexec] at hstep
      exact ⟨_, Stops.of_done hstep, rfl, hreads⟩

end FormatResult.Follows

theorem single_follows (hcount : w.relocCount < 2 ^ 31) (h : w.At p (x :: rest)) (hj : s.j = p)
    (hreads : ReadsInside w s.reads) {i : RelocInsn} (hx : decode x = .single i) :
    FormatResult.Follows t w s (p + 1 : Nat) s.repeats (FormatResult.ofExcept (exec t s.reloc i)) := by
  apply FormatResult.Follows.of_finishStep (relocStep_single hcount h hj hx)
  · simp [RelocLoop.read, hj]
  · rw [RelocLoop.read, hj]
    exact hreads.cons h.head.2

theorem double_follows (hcount : w.relocCount < 2 ^ 31) (h : w.At p (x :: y :: rest)) (hj : s.j = p)
    (hreads : ReadsInside w s.reads) (hx : decode x = .double i) :
    FormatResult.Follows t w s (p + 2 : Nat) s.repeats (FormatResult.ofExcept (exec t s.reloc (i y))) := by
  apply FormatResult.Follows.of_finishStep (relocStep_double hcount h hj hx)
  · simp only [RelocLoop.read, hj]
    omega
  · simp only [RelocLoop.read, hj]
    exact (hreads.cons h.head.2).cons h.tail.head.2

theorem execWords_follows (hcount : w.relocCount < 2 ^ 31) : ∀ (words : List Nat) (p : Nat) (s : RelocLoop),
    w.At p words → s.j = p → ReadsInside w s.reads →
      (execWords t words s.reloc).Follows t w s (p + words.length) s.repeats
  | [], p, s, _, hj, hreads => ⟨s, Steps.refl s, hj, rfl, rfl, hreads⟩
  | x :: rest, p, s, h, hj, hreads => by
      rw [execWords]
      cases hx : decode x with
      | single i =>
          apply (single_follows hcount h hj hreads hx).bind
          intro s' hj' hrepeats hreads'
          have hrest := execWords_follows hcount rest (p + 1) s' h.tail hj' hreads'
          rwa [hrepeats, Nat.add_assoc, Nat.add_comm 1] at hrest
      | double i =>
          cases rest with
          | nil => trivial
          | cons y rest =>
              apply (double_follows hcount h hj hreads hx).bind
              intro s' hj' hrepeats hreads'
              have hrest := execWords_follows hcount rest (p + 2) s' h.tail.tail hj' hreads'
              rwa [hrepeats, Nat.add_assoc, Nat.add_comm 2] at hrest
      | smRepeat blocks count => trivial
      | lgRepeat blocks count => trivial

/-- A repeat instruction at `p` that takes up `len` words and goes `blocks` words back: what one round does when the
counter, or the count of the instruction if the counter is unused, is `times`. -/
structure RepeatsAt (t : Tables) (w : Stream) (p len blocks count : Nat) : Prop where
  step : ∀ s : RelocLoop, s.j = p → ReadsInside w s.reads → ∃ s', relocStep t w s = .next s' ∧
    s'.repeats = (if s.repeats = -1 then (count : Int) else s.repeats) - 1 ∧
    s'.j = (if (if s.repeats = -1 then (count : Int) else s.repeats) - 1 ≠ -1 then (p : Int) - blocks else p + len) ∧
    s'.reloc = s.reloc ∧ ReadsInside w s'.reads

variable {count : Nat}

theorem smRepeat_repeatsAt (hcount : w.relocCount < 2 ^ 31) (h : w.At p (x :: rest)) {blocks : Nat}
    (hx : decode x = .smRepeat blocks count) : RepeatsAt t w p 1 blocks count where
  step s hj hreads := by
    have hstep : relocStep t w s = .next (s.read.repeatBack count (blocks + 1)) := by
      rw [relocStep, if_pos (inBounds hcount hj h.head.2), hj, h.head.1, hx]
    refine ⟨_, hstep, rfl, ?_, rfl, ?_⟩
    · simp only [RelocLoop.repeatBack, RelocLoop.read, hj]
      split_ifs <;> omega
    · simp only [RelocLoop.repeatBack, RelocLoop.read, hj]
      exact hreads.cons h.head.2

theorem lgRepeat_repeatsAt (hcount : w.relocCount < 2 ^ 31) (h : w.At p (x :: y :: rest)) {blocks : Nat}
    {count : Nat → Nat} (hx : decode x = .lgRepeat blocks count) : RepeatsAt t w p 2 blocks (count y) where
  step s hj hreads := by
    have hnext : w.word s.read.j = y := by
      have hy := h.tail.head.1
      simp only [RelocLoop.read, hj]
      simpa using hy
    have hstep : relocStep t w s = .next (s.read.read.repeatBack (count y) (blocks + 2)) := by
      rw [relocStep, if_pos (inBounds hcount hj h.head.2), hnext, hj, h.head.1, hx]
    refine ⟨_, hstep, rfl, ?_, rfl, ?_⟩
    · simp only [RelocLoop.repeatBack, RelocLoop.read, hj]
      split_ifs <;> omega
    · simp only [RelocLoop.repeatBack, RelocLoop.read, hj]
      exact (hreads.cons h.head.2).cons h.tail.head.2

theorem execTimes_follows (hcount : w.relocCount < 2 ^ 31) {start len : Nat} {block : List Nat}
    (hblock : w.At start block) (hrep : RepeatsAt t w (start + block.length) len block.length count) (times : Nat)
    (s : RelocLoop) (hj : s.j = (start + block.length : Nat))
    (htimes : (if s.repeats = -1 then (count : Int) else s.repeats) = times) (hreads : ReadsInside w s.reads) :
    (execTimes t block times s.reloc).Follows t w s (start + block.length + len) (-1) := by
  induction times generalizing s with
  | zero =>
      obtain ⟨s', hstep, hrepeats, hj', hreloc, hreads'⟩ := hrep.step s hj hreads
      rw [htimes] at hrepeats hj'
      refine ⟨s', Steps.of_next hstep, ?_, by rw [hrepeats]; rfl, hreloc, hreads'⟩
      rw [hj', if_neg (by simp)]
      omega
  | succ times ih =>
      obtain ⟨s', hstep, hrepeats, hj', hreloc, hreads'⟩ := hrep.step s hj hreads
      rw [htimes] at hrepeats hj'
      have hcounter : s'.repeats = times := by omega
      have hstart : s'.j = start := by
        rw [hj', if_pos (by omega)]
        omega
      apply FormatResult.Follows.of_steps (Steps.of_next hstep)
      rw [execTimes, ← hreloc]
      apply (execWords_follows hcount block start s' hblock hstart hreads').bind
      intro s'' hj'' hrepeats'' hreads''
      apply ih s'' hj'' _ hreads''
      rw [hrepeats'', hcounter, if_neg (by omega)]

/-- How many words a repeat instruction goes back. -/
def Decoded.blocks : Decoded → Nat
  | .smRepeat blocks _ => blocks
  | .lgRepeat blocks _ => blocks
  | _ => 0

theorem blocks_ite {c : Prop} [Decidable c] {a b : Decoded} (ha : a.blocks ≤ 16) (hb : b.blocks ≤ 16) :
    (if c then a else b).blocks ≤ 16 := by
  split
  · exact ha
  · exact hb

theorem blocks_decode (insn : Nat) : (decode insn).blocks ≤ 16 := by
  have hfield : ∀ x, x % 2 ^ 4 + 1 ≤ 16 := fun x => by omega
  unfold decode
  dsimp only
  repeat' apply blocks_ite
  all_goals first
    | exact Nat.zero_le _
    | exact hfield _

/-! ### The whole stream -/

/-- What the loop at `s` does about a result of the format. -/
def FormatResult.Simulated (t : Tables) (w : Stream) (s : RelocLoop) : FormatResult → Prop
  | .ok r => ∃ s', Stops (relocStep t w) s (true, s') ∧ s'.reloc = r ∧ ReadsInside w s'.reads
  | .rejected r => ∃ s', Stops (relocStep t w) s (false, s') ∧ s'.reloc = r ∧ ReadsInside w s'.reads
  | .truncated => ∀ o, Stops (relocStep t w) s o → (w.relocCount : Int) ∈ o.2.reads
  | .beforeStart => ∃ s', Stops (relocStep t w) s (true, s')
  | _ => True

namespace FormatResult.Simulated

variable {s' : RelocLoop} {p' : Nat} {repeats : Int} {x : FormatResult}

theorem of_steps (hsteps : Steps (relocStep t w) s s') (h : Simulated t w s' x) : Simulated t w s x := by
  cases x with
  | ok r =>
      obtain ⟨s'', hstops, hrest⟩ := h
      exact ⟨s'', hsteps.stops_iff.mpr hstops, hrest⟩
  | rejected r =>
      obtain ⟨s'', hstops, hrest⟩ := h
      exact ⟨s'', hsteps.stops_iff.mpr hstops, hrest⟩
  | truncated => exact fun o ho => h o (hsteps.stops_iff.mp ho)
  | beforeStart =>
      obtain ⟨s'', hstops⟩ := h
      exact ⟨s'', hsteps.stops_iff.mpr hstops⟩
  | _ => trivial

theorem bind {f : Reloc → FormatResult} (h : Follows t w s p' repeats x) (htruncated : x ≠ .truncated)
    (hbefore : x = .beforeStart → Simulated t w s .beforeStart)
    (hf : ∀ s' : RelocLoop, s'.j = p' → s'.repeats = repeats → ReadsInside w s'.reads →
      Simulated t w s' (f s'.reloc)) : Simulated t w s (x.bind f) := by
  cases x with
  | ok r =>
      obtain ⟨s', hsteps, hj, hrepeats, rfl, hreads⟩ := h
      exact of_steps hsteps (hf s' hj hrepeats hreads)
  | rejected r => exact h
  | truncated => exact absurd rfl htruncated
  | beforeStart => exact hbefore rfl
  | _ => trivial

end FormatResult.Simulated

theorem ofExcept_ne (x : Except Reloc Reloc) :
    FormatResult.ofExcept x ≠ .truncated ∧ FormatResult.ofExcept x ≠ .beforeStart := by
  cases x <;> simp [FormatResult.ofExcept]

variable {f : Reloc → FormatResult}

theorem ofExcept_bind_ne {x : Except Reloc Reloc}
    (hf : ∀ r, f r ≠ .truncated ∧ f r ≠ .beforeStart) :
    (FormatResult.ofExcept x).bind f ≠ .truncated ∧ (FormatResult.ofExcept x).bind f ≠ .beforeStart := by
  cases x with
  | ok r => exact hf r
  | error r => simp [FormatResult.ofExcept, FormatResult.bind]

theorem execWords_ne (t : Tables) : ∀ (words : List Nat) (r : Reloc),
    execWords t words r ≠ .truncated ∧ execWords t words r ≠ .beforeStart
  | [], r => by simp [execWords]
  | x :: rest, r => by
      rw [execWords]
      cases decode x with
      | single i => exact ofExcept_bind_ne (execWords_ne t rest)
      | double i =>
          cases rest with
          | nil => simp
          | cons y rest => exact ofExcept_bind_ne (execWords_ne t rest)
      | smRepeat blocks count => simp
      | lgRepeat blocks count => simp

theorem execTimes_ne (t : Tables) (block : List Nat) (times : Nat) (r : Reloc) :
    execTimes t block times r ≠ .truncated ∧ execTimes t block times r ≠ .beforeStart := by
  induction times generalizing r with
  | zero => simp [execTimes]
  | succ times ih =>
      rw [execTimes]
      have hblock := execWords_ne t block r
      cases hx : execWords t block r with
      | ok r' => exact ih r'
      | truncated => exact absurd hx hblock.1
      | beforeStart => exact absurd hx hblock.2
      | _ => simp [FormatResult.bind]

theorem repeatPreceding_bind {past : List Nat} {len blocks : Nat}
    (hcount : w.relocCount < 2 ^ 31) (hpast : w.At 0 past) (hrep : RepeatsAt t w past.length len blocks count)
    (hblocks : blocks ≤ 16) (hj : s.j = past.length) (hrepeats : s.repeats = -1) (hreads : ReadsInside w s.reads)
    (hf : ∀ s' : RelocLoop, s'.j = (past.length + len : Nat) → s'.repeats = -1 → ReadsInside w s'.reads →
      (f s'.reloc).Simulated t w s') : ((repeatPreceding t past blocks count s.reloc).bind f).Simulated t w s := by
  obtain ⟨s₁, hstep, hrepeats₁, hj₁, hreloc₁, hreads₁⟩ := hrep.step s hj hreads
  rw [if_pos hrepeats] at hrepeats₁ hj₁
  rw [repeatPreceding]
  by_cases hzero : count = 0
  · rw [if_pos hzero]
    apply FormatResult.Simulated.of_steps (Steps.of_next hstep)
    rw [FormatResult.bind, ← hreloc₁]
    apply hf s₁ _ _ hreads₁
    · rw [hj₁, if_neg (by omega)]
      omega
    · omega
  rw [if_neg hzero]
  by_cases hbefore : past.length < blocks
  · rw [if_pos hbefore]
    rw [if_pos (by omega)] at hj₁
    have hstop : relocStep t w s₁ = .done (true, s₁) := by
      rw [relocStep, if_neg]
      omega
    exact ⟨s₁, (Steps.of_next hstep).stops_iff.mpr (Stops.of_done hstop)⟩
  · rw [if_neg hbefore]
    have hlength : (past.drop (past.length - blocks)).length = blocks := by
      rw [List.length_drop]
      omega
    have hblock := hpast.drop (Nat.sub_le past.length blocks)
    have hstart : 0 + (past.length - blocks) + (past.drop (past.length - blocks)).length = past.length := by omega
    have hrep' : RepeatsAt t w (0 + (past.length - blocks) + (past.drop (past.length - blocks)).length) len
        (past.drop (past.length - blocks)).length count := by rwa [hstart, hlength]
    have hfollows := execTimes_follows hcount hblock hrep' count s (by rw [hj, hstart]) (by rw [if_pos hrepeats]) hreads
    rw [hstart] at hfollows
    have hne := execTimes_ne t (past.drop (past.length - blocks)) count s.reloc
    exact FormatResult.Simulated.bind hfollows hne.1 (fun h => absurd h hne.2) hf

theorem mem_reads_of_mem {j : Int} (hmem : j ∈ s.reads) (h : Stops (relocStep t w) s o) :
    j ∈ o.2.reads :=
  stops_keeps (fun s => j ∈ s.reads) (fun _ h => List.mem_cons_of_mem _ h) (fun _ _ _ h => h) (fun _ _ h => h) hmem h

theorem truncated_simulated (hcount : w.relocCount < 2 ^ 31) (h : w.At p [x]) (hlast : p + 1 = w.relocCount)
    (hj : s.j = p) (hx : (∃ i, decode x = .double i) ∨ ∃ blocks count, decode x = .lgRepeat blocks count) :
    FormatResult.truncated.Simulated t w s := by
  intro o ho
  have hmem : (w.relocCount : Int) ∈ s.read.read.reads := by
    simp only [RelocLoop.read, hj]
    rw [← hlast]
    simp
  have hcond := inBounds hcount hj h.head.2
  rcases hx with ⟨i, hi⟩ | ⟨blocks, count, hx⟩
  · have hstep : relocStep t w s = finishStep t s.read.read (i (w.word s.read.j)) := by
      rw [relocStep, if_pos hcond, hj, h.head.1, hi]
    rw [finishStep] at hstep
    cases hexec : exec t s.read.read.reloc (i (w.word s.read.j)) with
    | ok r =>
        rw [hexec] at hstep
        have hnext : (w.relocCount : Int) ∈ ({ s.read.read with reloc := r } : RelocLoop).reads := hmem
        exact mem_reads_of_mem hnext ((Steps.of_next hstep).stops_iff.mp ho)
    | error r =>
        rw [hexec] at hstep
        rw [ho.unique (Stops.of_done hstep)]
        exact hmem
  · have hstep : relocStep t w s = .next (s.read.read.repeatBack (count (w.word s.read.j)) (blocks + 2)) := by
      rw [relocStep, if_pos hcond, hj, h.head.1, hx]
    have hnext : (w.relocCount : Int) ∈
        (s.read.read.repeatBack (count (w.word s.read.j)) (blocks + 2)).reads := hmem
    exact mem_reads_of_mem hnext ((Steps.of_next hstep).stops_iff.mp ho)

theorem formatRun_simulated (hcount : w.relocCount < 2 ^ 31) : ∀ (rest past : List Nat) (s : RelocLoop),
    w.At 0 (past ++ rest) → past.length + rest.length = w.relocCount → s.j = past.length → s.repeats = -1 →
      ReadsInside w s.reads → (formatRun t past rest s.reloc).Simulated t w s
  | [], past, s, _, hlength, hj, _, hreads => by
      have hstop : relocStep t w s = .done (true, s) := by
        rw [relocStep, if_neg]
        simp only [List.length_nil] at hlength
        omega
      exact ⟨s, Stops.of_done hstop, rfl, hreads⟩
  | x :: rest, past, s, h, hlength, hj, hrepeats, hreads => by
      have hx : w.At past.length (x :: rest) := by simpa using h.right
      simp only [List.length_cons] at hlength
      rw [formatRun]
      cases hdecode : decode x with
      | single i =>
          apply FormatResult.Simulated.bind (single_follows hcount hx hj hreads hdecode) (ofExcept_ne _).1
            (fun h => absurd h (ofExcept_ne _).2)
          intro s' hj' hrepeats' hreads'
          apply formatRun_simulated hcount rest (past ++ [x]) s' (by simpa using h) _ _ (hrepeats'.trans hrepeats) hreads'
          · simp only [List.length_append, List.length_cons, List.length_nil]
            omega
          · simpa using hj'
      | smRepeat blocks count =>
          have hblocks := blocks_decode x
          rw [hdecode] at hblocks
          apply repeatPreceding_bind hcount h.left (smRepeat_repeatsAt hcount hx hdecode) hblocks hj hrepeats hreads
          intro s' hj' hrepeats' hreads'
          apply formatRun_simulated hcount rest (past ++ [x]) s' (by simpa using h) _ _ hrepeats' hreads'
          · simp only [List.length_append, List.length_cons, List.length_nil]
            omega
          · simpa using hj'
      | double i =>
          cases rest with
          | nil => exact truncated_simulated hcount hx hlength hj (Or.inl ⟨i, hdecode⟩)
          | cons y rest =>
              simp only [List.length_cons] at hlength
              apply FormatResult.Simulated.bind (double_follows hcount hx hj hreads hdecode) (ofExcept_ne _).1
                (fun h => absurd h (ofExcept_ne _).2)
              intro s' hj' hrepeats' hreads'
              apply formatRun_simulated hcount rest (past ++ [x, y]) s' (by simpa using h) _ _
                (hrepeats'.trans hrepeats) hreads'
              · simp only [List.length_append, List.length_cons, List.length_nil]
                omega
              · simpa using hj'
      | lgRepeat blocks count =>
          cases rest with
          | nil => exact truncated_simulated hcount hx hlength hj (Or.inr ⟨blocks, count, hdecode⟩)
          | cons y rest =>
              have hblocks := blocks_decode x
              rw [hdecode] at hblocks
              simp only [List.length_cons] at hlength
              apply repeatPreceding_bind hcount h.left (lgRepeat_repeatsAt hcount hx hdecode) hblocks hj hrepeats hreads
              intro s' hj' hrepeats' hreads'
              apply formatRun_simulated hcount rest (past ++ [x, y]) s' (by simpa using h) _ _ hrepeats' hreads'
              · simp only [List.length_append, List.length_cons, List.length_nil]
                omega
              · simpa using hj'

end

def Use.Inside (nsecs total : Nat) : Use → Prop
  | .sec i => i < nsecs
  | .impsym i => i < total

def UsesInside (t : Tables) (r : Reloc) : Prop := ∀ u ∈ r.uses, u.Inside t.sec.length t.total

section
variable {t : Tables} {r : Reloc}

theorem UsesInside.use (h : UsesInside t r) {u : Use} (hu : u.Inside t.sec.length t.total) : UsesInside t (r.use u) := by
  intro u' hu'
  rcases List.mem_cons.mp hu' with rfl | hu'
  · exact hu
  · exact h u' hu'

theorem uses_iterate {f : Reloc → Reloc} (hf : ∀ r, (f r).uses = r.uses) (n : Nat) (r : Reloc) :
    (f^[n] r).uses = r.uses := by
  induction n generalizing r with
  | zero => rfl
  | succ n ih => rw [Function.iterate_succ_apply, ih, hf]

theorem UsesInside.of_uses {r' : Reloc} (h : UsesInside t r) (huses : r'.uses = r.uses) : UsesInside t r' := by
  intro u hu
  rw [huses] at hu
  exact h u hu

theorem UsesInside.byImport_iterate (h : UsesInside t r) {n : Nat} (hn : r.importIndex + n ≤ t.total) :
    UsesInside t ((fun r => r.byImport t r.importIndex)^[n] r) := by
  induction n generalizing r with
  | zero => exact h
  | succ n ih =>
      rw [Function.iterate_succ_apply]
      apply ih
      · have hinside : Use.Inside t.sec.length t.total (.impsym r.importIndex) := show r.importIndex < t.total by omega
        exact (h.use hinside).of_uses rfl
      · simp only [Reloc.byImport]
        omega

theorem exec_usesInside (h : UsesInside t r) (i : RelocInsn) : UsesInside t (after (exec t r i)) := by
  have hcheck : ∀ {c : Prop} [Decidable c] {x : Reloc}, (¬c → UsesInside t x) →
      UsesInside t (after (if c then .error r else .ok x)) := by
    intro c _ x hx
    split_ifs with hc
    · exact h
    · exact hx hc
  have hiterate : ∀ {f : Reloc → Reloc} {n : Nat} {x : Reloc}, (∀ r, (f r).uses = r.uses) → x.uses = r.uses →
      UsesInside t (f^[n] x) := fun hf hx => h.of_uses ((uses_iterate hf _ _).trans hx)
  cases i with
  | bySectDWithSkip skipCount relocCount => exact hiterate (fun _ => rfl) rfl
  | bySectC cnt => exact hiterate (fun _ => rfl) rfl
  | bySectD cnt => exact hiterate (fun _ => rfl) rfl
  | tVector12 cnt => exact hiterate (fun _ => rfl) rfl
  | tVector8 cnt => exact hiterate (fun _ => rfl) rfl
  | vTable8 cnt => exact hiterate (fun _ => rfl) rfl
  | importRun cnt => exact hcheck fun hc => h.byImport_iterate (Nat.not_lt.mp hc)
  | smByImport cnt => exact hcheck fun hc => UsesInside.use h (Nat.not_le.mp hc)
  | smSetSectC cnt => exact hcheck fun hc => UsesInside.use h (Nat.not_le.mp hc)
  | smSetSectD cnt => exact hcheck fun hc => UsesInside.use h (Nat.not_le.mp hc)
  | smBySection cnt => exact hcheck fun hc => UsesInside.use h (Nat.not_le.mp hc)
  | incrPosition offset => exact h
  | setPosition offset => exact h
  | lgByImport index => exact hcheck fun hc => UsesInside.use h (Nat.not_le.mp hc)
  | lgSetOrBySection subcode index =>
      rw [exec]
      split_ifs with hindex hcode hcode' hcode''
      · exact h
      · exact UsesInside.use h (Nat.not_le.mp hindex)
      · exact UsesInside.use h (Nat.not_le.mp hindex)
      · exact UsesInside.use h (Nat.not_le.mp hindex)
      · exact h
  | bad => exact h

theorem usesInside_of_stops {w : Stream} {s : RelocLoop} {o : Bool × RelocLoop} (hs : UsesInside t s.reloc)
    (h : Stops (relocStep t w) s o) : UsesInside t o.2.reloc :=
  stops_keeps (fun s => UsesInside t s.reloc) (fun _ h => h) (fun _ _ _ h => h) (fun _ i h => exec_usesInside h i) hs h

end

/-! ### The file -/

/-- The words of one header: they are read inside their block, indices are used inside their tables, and unless a
repeated part contains a repeat instruction, acceptance means what the format says. -/
def HeaderOutcome.Meets (x : HeaderOutcome) : Prop :=
  ReadsInside x.stream x.final.reads ∧ UsesInside x.tables x.final.reloc ∧
    (x.accepted = true →
      formatRun x.tables [] x.stream.words (startReloc x.tables.sec x.tables.sea) ≠ .nested →
      formatRun x.tables [] x.stream.words (startReloc x.tables.sec x.tables.sea) = .ok x.final.reloc)

/-- The interpreter terminates on the file and meets its purpose for every header that it gets to. -/
def Conforms (db : Database) (ldr : LoaderSection) (sec : List PefSection) : Prop :=
  ∃ fuel out, processLoaderData db fuel ldr sec = some out ∧ (∀ u ∈ out.uses, u.Inside sec.length 0) ∧
    ∀ x ∈ out.headers, x.Meets

/-- The result of the format for the words of a header. -/
def headerResult (db : Database) (ldr : LoaderSection) (sec : List PefSection) (pd : PefLoaderData) (h : RelocHeader) :
    FormatResult :=
  formatRun (tables db sec pd h.sectionIndex) [] (stream ldr pd h).words
    (startReloc sec (tables db sec pd h.sectionIndex).sea)

/-- The headers up to the first one at which the file is rejected have the results `P`. -/
def HeadersHave (P : FormatResult → Prop) (db : Database) (ldr : LoaderSection) (sec : List PefSection)
    (pd : PefLoaderData) : List RelocHeader → Prop
  | [] => True
  | h :: hs =>
    h.sectionIndex < sec.length → inside ldr (pd.relptr + 2 * h.firstRelocOffset) h.relocCount 2 = true →
      P (headerResult db ldr sec pd h) ∧
        ((∃ r, headerResult db ldr sec pd h = .ok r) → HeadersHave P db ldr sec pd hs)

/-- A file with a main or initialization vector has at least two sections, and its relocation headers have the
results `P`, as far as the code gets to them. -/
def FileHas (P : FormatResult → Prop) (db : Database) (ldr : LoaderSection) (sec : List PefSection) : Prop :=
  ∀ pd, extractLoaderData ldr sec = some pd →
    ¬(pd.pl.totalImportedSymbolCount ≠ 0 ∧ (db.addSegm = false ∨ importsOk ldr pd = false)) →
      ((pd.pl.mainSection ≠ -1 ∨ pd.pl.initSection ≠ -1) → 2 ≤ sec.length) ∧
        (db.noReloc = false → HeadersHave P db ldr sec pd (relocHeaders ldr pd))

def FormatResult.WellFormed : FormatResult → Prop
  | .ok _ => True
  | .rejected _ => True
  | _ => False

/-- Not malformed, except for what a repeated part contains. -/
def FormatResult.WellFormedButRepeats (x : FormatResult) : Prop := x.WellFormed ∨ x = .nested ∨ x = .overrun

section
variable {db : Database} {ldr : LoaderSection} {sec : List PefSection} {pd : PefLoaderData} {h : RelocHeader}

theorem relocCount_lt (hinside : inside ldr (pd.relptr + 2 * h.firstRelocOffset) h.relocCount 2 = true) :
    (stream ldr pd h).relocCount < 2 ^ 31 := by
  have hsize := ldr.size_lt
  simp only [inside, decide_eq_true_eq] at hinside
  change h.relocCount < 2 ^ 31
  omega

theorem headerResult_simulated (hinside : inside ldr (pd.relptr + 2 * h.firstRelocOffset) h.relocCount 2 = true) :
    (headerResult db ldr sec pd h).Simulated (tables db sec pd h.sectionIndex) (stream ldr pd h)
      (startLoop (tables db sec pd h.sectionIndex)) := by
  refine formatRun_simulated (relocCount_lt hinside) _ [] _ (Stream.At.all _) ?_ rfl rfl (fun j hj => ?_)
  · simp [Stream.words]
  · exact absurd hj (List.not_mem_nil)

theorem startLoop_usesInside (t : Tables) : UsesInside t (startLoop t).reloc := fun _ hu => absurd hu List.not_mem_nil

theorem relocate_cons (hindex : h.sectionIndex < sec.length)
    (hinside : inside ldr (pd.relptr + 2 * h.firstRelocOffset) h.relocCount 2 = true) (hs : List RelocHeader)
    {fuel : Nat} {s : RelocLoop} {accepted : Bool}
    (hrun : run (relocStep (tables db sec pd h.sectionIndex) (stream ldr pd h)) fuel
      (startLoop (tables db sec pd h.sectionIndex)) = some (accepted, s)) :
    relocate db ldr sec pd fuel (h :: hs) =
      if accepted then (relocate db ldr sec pd fuel hs).map fun r =>
        (r.1, ⟨tables db sec pd h.sectionIndex, stream ldr pd h, true, s⟩ :: r.2)
      else some (false, [⟨tables db sec pd h.sectionIndex, stream ldr pd h, false, s⟩]) := by
  rw [relocate, if_neg (Nat.not_le.mpr hindex), hinside, if_neg (by simp)]
  dsimp only
  rw [hrun]
  cases accepted
  · rfl
  · rfl

theorem relocate_unchecked (hs : List RelocHeader) (fuel : Nat)
    (hcheck : ¬(h.sectionIndex < sec.length ∧ inside ldr (pd.relptr + 2 * h.firstRelocOffset) h.relocCount 2 = true)) :
    relocate db ldr sec pd fuel (h :: hs) = some (false, []) := by
  rw [relocate]
  by_cases hindex : h.sectionIndex ≥ sec.length
  · rw [if_pos hindex]
  · rw [if_neg hindex, if_pos]
    simpa using fun hinside => hcheck ⟨Nat.not_le.mp hindex, hinside⟩

theorem relocate_of_headersHave (hs : List RelocHeader)
    (hhave : HeadersHave FormatResult.WellFormed db ldr sec pd hs) :
    ∃ fuel, ∀ k, ∃ out, relocate db ldr sec pd (fuel + k) hs = some out ∧ ∀ x ∈ out.2, x.Meets := by
  induction hs with
  | nil => exact ⟨0, fun k => ⟨_, rfl, by simp⟩⟩
  | cons h hs ih =>
      by_cases hcheck : h.sectionIndex < sec.length ∧
          inside ldr (pd.relptr + 2 * h.firstRelocOffset) h.relocCount 2 = true
      swap
      · exact ⟨0, fun k => ⟨_, relocate_unchecked hs _ hcheck, fun _ hx => absurd hx List.not_mem_nil⟩⟩
      obtain ⟨hindex, hinside⟩ := hcheck
      obtain ⟨hwell, hrest⟩ := hhave hindex hinside
      have hsimulated := @headerResult_simulated db ldr sec pd h hinside
      have huses := startLoop_usesInside (tables db sec pd h.sectionIndex)
      cases hresult : headerResult db ldr sec pd h with
      | ok r =>
          rw [hresult] at hsimulated
          obtain ⟨s, ⟨n, hn⟩, rfl, hreads⟩ := hsimulated
          obtain ⟨fuel, hfuel⟩ := ih (hrest ⟨_, hresult⟩)
          refine ⟨n + fuel, fun k => ?_⟩
          obtain ⟨out, hout, hmeets⟩ := hfuel (n + k)
          have hrun := run_add hn (fuel + k)
          rw [← Nat.add_assoc] at hrun
          have hrelocate := relocate_cons hindex hinside hs hrun
          rw [if_pos rfl, show n + fuel + k = fuel + (n + k) by omega, hout, Option.map_some] at hrelocate
          rw [show n + fuel + k = fuel + (n + k) by omega]
          refine ⟨_, hrelocate, fun x hx => ?_⟩
          rcases List.mem_cons.mp hx with rfl | hx
          · exact ⟨hreads, usesInside_of_stops huses ⟨n, hn⟩, fun _ _ => hresult⟩
          · exact hmeets x hx
      | rejected r =>
          rw [hresult] at hsimulated
          obtain ⟨s, ⟨n, hn⟩, -, hreads⟩ := hsimulated
          refine ⟨n, fun k => ⟨_, relocate_cons hindex hinside hs (run_add hn k), fun x hx => ?_⟩⟩
          rw [List.mem_singleton.mp hx]
          exact ⟨hreads, usesInside_of_stops huses ⟨n, hn⟩, fun h => by simp at h⟩
      | _ =>
          rw [hresult] at hwell
          exact hwell.elim

theorem headersHave_of_relocate (fuel : Nat) (hs : List RelocHeader) (out : Bool × List HeaderOutcome)
    (hout : relocate db ldr sec pd fuel hs = some out) (hmeets : ∀ x ∈ out.2, x.Meets) :
    HeadersHave FormatResult.WellFormedButRepeats db ldr sec pd hs := by
  induction hs generalizing out with
  | nil => trivial
  | cons h hs ih =>
      intro hindex hinside
      have hsimulated := @headerResult_simulated db ldr sec pd h hinside
      cases hrun : run (relocStep (tables db sec pd h.sectionIndex) (stream ldr pd h)) fuel
          (startLoop (tables db sec pd h.sectionIndex)) with
      | none =>
          rw [relocate, if_neg (Nat.not_le.mpr hindex), hinside, if_neg (by simp)] at hout
          simp [hrun] at hout
      | some o =>
          obtain ⟨accepted, s⟩ := o
          rw [relocate_cons hindex hinside hs hrun] at hout
          have hx : (⟨tables db sec pd h.sectionIndex, stream ldr pd h, accepted, s⟩ : HeaderOutcome).Meets ∧
              (accepted = true → HeadersHave FormatResult.WellFormedButRepeats db ldr sec pd hs) := by
            cases accepted with
            | false =>
                rw [if_neg (by simp)] at hout
                exact ⟨hmeets _ (Option.some.inj hout ▸ List.mem_singleton_self _), fun h => by simp at h⟩
            | true =>
                rw [if_pos rfl] at hout
                obtain ⟨out', hout', rfl⟩ := Option.map_eq_some_iff.mp hout
                exact ⟨hmeets _ List.mem_cons_self,
                  fun _ => ih out' hout' fun x hx => hmeets x (List.mem_cons_of_mem _ hx)⟩
          obtain ⟨⟨hreads, -, haccepted⟩, hrest⟩ := hx
          have hstops : Stops _ _ (accepted, s) := ⟨fuel, hrun⟩
          cases hresult : headerResult db ldr sec pd h with
          | ok r =>
              rw [hresult] at hsimulated
              obtain ⟨s', hstops', -, -⟩ := hsimulated
              have hsame := hstops.unique hstops'
              exact ⟨Or.inl trivial, fun _ => hrest (congrArg Prod.fst hsame)⟩
          | rejected r => exact ⟨Or.inl trivial, fun ⟨r', hr'⟩ => by simp at hr'⟩
          | truncated =>
              rw [hresult] at hsimulated
              exact absurd (hreads _ (hsimulated _ hstops)).2 (by simp)
          | beforeStart =>
              rw [hresult] at hsimulated
              obtain ⟨s', hstops'⟩ := hsimulated
              have hok := haccepted (congrArg Prod.fst (hstops.unique hstops'))
              change headerResult db ldr sec pd h ≠ .nested → headerResult db ldr sec pd h = .ok s.reloc at hok
              simp [hresult] at hok
          | nested => exact ⟨Or.inr (Or.inl rfl), fun ⟨r', hr'⟩ => by simp at hr'⟩
          | overrun => exact ⟨Or.inr (Or.inr rfl), fun ⟨r', hr'⟩ => by simp at hr'⟩

theorem vectors_of_extract (hpd : extractLoaderData ldr sec = some pd) :
    badVector sec.length pd.pl.initSection = false ∧ badVector sec.length pd.pl.mainSection = false ∧
      (∃ x < 2 ^ 32, pd.pl.initSection = sint32 x) ∧ ∃ x < 2 ^ 32, pd.pl.mainSection = sint32 x := by
  have hbyte : ∀ i, byteAt ldr i < 256 := fun i => (ldr.bytes.getD i 0).toNat_lt
  have hlong : ∀ i, mflong ldr i < 2 ^ 32 := by
    intro i
    have h₀ := hbyte i
    have h₁ := hbyte (i + 1)
    have h₂ := hbyte (i + 2)
    have h₃ := hbyte (i + 2 + 1)
    simp only [mflong, mfshort]
    omega
  unfold extractLoaderData at hpd
  dsimp only at hpd
  split_ifs at hpd with _ _ _ _ _ _ _ _ hvectors
  obtain rfl := Option.some.inj hpd
  simp only [Bool.or_eq_true, not_or, Bool.not_eq_true] at hvectors
  exact ⟨hvectors.1.2, hvectors.2, ⟨_, hlong 8, rfl⟩, _, hlong 0, rfl⟩

theorem vector_inside {nsecs x : Nat} (hx : x < 2 ^ 32) (hbad : badVector nsecs (sint32 x) = false)
    (hsecs : 2 ≤ nsecs) : (sint32 x).toNat < nsecs := by
  simp only [badVector, gt_iff_lt, decide_eq_false_iff_not, not_lt] at hbad
  rw [sint32] at hbad ⊢
  split_ifs at hbad ⊢ <;> omega

theorem tocUses_inside (hpd : extractLoaderData ldr sec = some pd)
    (hsecs : (pd.pl.mainSection ≠ -1 ∨ pd.pl.initSection ≠ -1) → 2 ≤ sec.length) :
    ∀ u ∈ tocUses pd.pl, u.Inside sec.length 0 := by
  obtain ⟨hinit, hmain, ⟨xi, hxi, hinitSection⟩, xm, hxm, hmainSection⟩ := vectors_of_extract hpd
  rw [hinitSection] at hinit
  rw [hmainSection] at hmain
  intro u hu
  rw [tocUses] at hu
  split_ifs at hu with hnoMain hnoInit
  · have htwo := hsecs (Or.inl hnoMain)
    simp only [List.mem_cons, List.not_mem_nil, or_false] at hu
    rcases hu with rfl | rfl
    · rw [hmainSection] at hnoMain ⊢
      exact vector_inside hxm hmain htwo
    · exact htwo
  · have htwo := hsecs (Or.inr hnoInit)
    simp only [List.mem_cons, List.not_mem_nil, or_false] at hu
    rcases hu with rfl | rfl
    · rw [hinitSection] at hnoInit ⊢
      exact vector_inside hxi hinit htwo
    · exact htwo
  · simp at hu

theorem conforms_of_fileHas (hhas : FileHas FormatResult.WellFormed db ldr sec) : Conforms db ldr sec := by
  cases hpd : extractLoaderData ldr sec with
  | none => exact ⟨0, ⟨false, [], []⟩, by rw [processLoaderData, hpd], by simp, by simp⟩
  | some pd =>
      by_cases himports : pd.pl.totalImportedSymbolCount ≠ 0 ∧ (db.addSegm = false ∨ importsOk ldr pd = false)
      · refine ⟨0, ⟨false, [], []⟩, ?_, by simp, by simp⟩
        simp only [processLoaderData, hpd, if_pos himports]
      obtain ⟨hsecs, hheaders⟩ := hhas pd hpd himports
      have huses := tocUses_inside hpd hsecs
      cases hreloc : db.noReloc with
      | true =>
          refine ⟨0, ⟨true, tocUses pd.pl, []⟩, ?_, huses, by simp⟩
          simp only [processLoaderData, hpd, if_neg himports, hreloc, if_true]
      | false =>
          obtain ⟨fuel, hfuel⟩ := relocate_of_headersHave _ (hheaders hreloc)
          obtain ⟨out, hout, hmeets⟩ := hfuel 0
          refine ⟨fuel, ⟨out.1, tocUses pd.pl, out.2⟩, ?_, huses, hmeets⟩
          simp only [processLoaderData, hpd, if_neg himports, hreloc, Bool.false_eq_true, if_false]
          rw [show relocate db ldr sec pd fuel (relocHeaders ldr pd) = some out from hout]
          rfl

theorem fileHas_of_conforms (hconforms : Conforms db ldr sec) :
    FileHas FormatResult.WellFormedButRepeats db ldr sec := by
  obtain ⟨fuel, out, hout, huses, hmeets⟩ := hconforms
  intro pd hpd himports
  simp only [processLoaderData, hpd, if_neg himports] at hout
  have hsecs : ∀ us : List Use, us = tocUses pd.pl → (∀ u ∈ us, u.Inside sec.length 0) →
      (pd.pl.mainSection ≠ -1 ∨ pd.pl.initSection ≠ -1) → 2 ≤ sec.length := by
    intro us hus hinside hvector
    have hone : Use.sec 1 ∈ us := by
      rw [hus, tocUses]
      split_ifs with hmain hinit
      · simp
      · simp
      · rcases hvector with h | h
        · exact absurd h hmain
        · exact absurd h hinit
    exact hinside _ hone
  cases hreloc : db.noReloc with
  | true =>
      simp only [hreloc, if_true, Option.some.injEq] at hout
      subst hout
      exact ⟨hsecs _ rfl huses, fun h => by simp at h⟩
  | false =>
      simp only [hreloc, Bool.false_eq_true, if_false] at hout
      obtain ⟨r, hr, rfl⟩ := Option.map_eq_some_iff.mp hout
      exact ⟨hsecs _ rfl huses, fun _ => headersHave_of_relocate fuel _ r hr hmeets⟩

/-- The interpreter meets its purpose on every file with well-formed streams, and on no other file, except that a
stream may be one in which a repeated part contains a repeat instruction or ends within an instruction. -/
theorem conforms_iff (db : Database) (ldr : LoaderSection) (sec : List PefSection) :
    (FileHas FormatResult.WellFormed db ldr sec → Conforms db ldr sec) ∧
      (Conforms db ldr sec → FileHas FormatResult.WellFormedButRepeats db ldr sec) :=
  ⟨conforms_of_fileHas, fileHas_of_conforms⟩

end

/-- A loader section with one relocation header, whose block is the single word 0xA000: the first half of an
instruction of two words. -/
def loneHalf : LoaderSection where
  bytes := [255, 255, 255, 255, 0, 0, 0, 0, 255, 255, 255, 255, 0, 0, 0, 0, 255, 255, 255, 255, 0, 0, 0, 0,
    0, 0, 0, 0, 0, 0, 0, 0, 0, 0, 0, 1, 0, 0, 0, 68, 0, 0, 0, 0, 0, 0, 0, 0, 0, 0, 0, 0, 0, 0, 0, 0,
    0, 0, 0, 0, 0, 0, 0, 1, 0, 0, 0, 0, 0xA0, 0]
  size_lt := by decide

/-- Processing the words of `loneHalf` reads past its relocation block. -/
theorem not_conforms_loneHalf : ¬ Conforms ⟨0, true, false⟩ loneHalf [⟨0⟩] := by
  intro hconforms
  have hdata : extractLoaderData loneHalf [⟨0⟩] = some ⟨readPefLoader loneHalf, 56, 56, 56, 0, 68⟩ := by rfl
  obtain ⟨-, hheaders⟩ := fileHas_of_conforms hconforms _ hdata (fun h => h.1 rfl)
  obtain ⟨hresult, -⟩ := hheaders rfl (by decide) (by decide)
  have htruncated : headerResult ⟨0, true, false⟩ loneHalf [⟨0⟩] ⟨readPefLoader loneHalf, 56, 56, 56, 0, 68⟩
      ⟨0, 1, 0⟩ = .truncated := by rfl
  rcases htruncated ▸ hresult with h | h | h
  · exact h
  · cases h
  · cases h

end IdaSdk.Pef
