import Mathlib.Data.List.Basic
import Mathlib.Data.List.Nodup
import Mathlib.Logic.Function.Basic
import Mathlib.Tactic.Common

/-!
`pool_allocator_t` objects over one heap. A pool is a block of slots; slots are handed out from a free list
that runs through the released slots, or else from the end of the newest pool that was not used yet.
-/

namespace IdaSdk.PoolAllocator

structure Slot where
  block : Nat
  idx : Nat
deriving DecidableEq

/-- `pool_allocator_t`. Null pointers are `none`. -/
structure Allocator where
  pools : List Nat
  freeList : Option Slot
  poolPtr : Option Slot
  poolEnd : Option Slot
  liveObjects : Int

def Allocator.empty : Allocator := ⟨[], none, none, none, 0⟩

/-- `allocate(n)` that was called on the object `owner` and not yet undone. -/
structure Request where
  owner : Nat
  ptr : Slot
  n : Nat
deriving DecidableEq

/-- The objects, the allocated blocks, the pointer that each slot holds when it is read as one, and the live
requests. -/
structure Heap where
  objs : Nat → Option Allocator
  blocks : List Nat
  next : Slot → Option Slot
  live : List Request

def Heap.init : Heap := ⟨fun _ => none, [], fun _ => none, []⟩

/-- The calls. `mem` is what `qalloc_or_throw` returns if it is called, nothing when it throws; `store` is a write
of the caller to memory that it owns. -/
inductive Op where
  | construct (i : Nat)
  | copyConstruct (i j : Nat)
  | moveConstruct (i j : Nat)
  | copyAssign (i j : Nat)
  | moveAssign (i j : Nat)
  | allocate (i n : Nat) (mem : Option Nat)
  | deallocate (i : Nat) (ptr : Slot) (n : Nat)
  | store (ptr : Slot) (val : Option Slot)

namespace Heap

variable (poolNelems : Nat) (s : Heap)

variable (i : Nat)

def setObj (a : Allocator) : Heap := { s with objs := Function.update s.objs i (some a) }

def addLive (ptr : Slot) (n : Nat) : Heap := { s with live := ⟨i, ptr, n⟩ :: s.live }

/-- `allocate(n)` of the object `i`, which is `a`. -/
def allocate (a : Allocator) (n : Nat) (mem : Option Nat) : Heap :=
  if n ≠ 1 then
    match mem with
    | none => s
    | some b => { s with blocks := b :: s.blocks }.addLive i ⟨b, 0⟩ n
  else
    let a := { a with liveObjects := a.liveObjects + 1 }
    match a.freeList with
    | some ptr => (s.setObj i { a with freeList := s.next ptr }).addLive i ptr 1
    | none =>
      if a.poolPtr = a.poolEnd then
        match mem with
        | none => s.setObj i a
        | some b =>
          ({ s with blocks := b :: s.blocks }.setObj i
            { a with pools := a.pools ++ [b], poolPtr := some ⟨b, 1⟩, poolEnd := some ⟨b, poolNelems⟩ }).addLive i
              ⟨b, 0⟩ 1
      else
        match a.poolPtr with
        | none => s
        | some ptr => (s.setObj i { a with poolPtr := some ⟨ptr.block, ptr.idx + 1⟩ }).addLive i ptr 1

/-- `deallocate(ptr, n)` of the object `i`, which is `a`. -/
def deallocate (a : Allocator) (ptr : Slot) (n : Nat) : Heap :=
  if n ≠ 1 then
    { s with blocks := s.blocks.filter (· ≠ ptr.block), live := s.live.erase ⟨i, ptr, n⟩ }
  else
    let s := { s with next := Function.update s.next ptr a.freeList, live := s.live.erase ⟨i, ptr, n⟩ }
    let a := { a with freeList := some ptr, liveObjects := a.liveObjects - 1 }
    if a.liveObjects = 0 then
      { s with blocks := s.blocks.filter (· ∉ a.pools) }.setObj i
        { a with pools := [], freeList := none, poolPtr := none, poolEnd := none }
    else
      s.setObj i a

/-- A defaulted move leaves the pointers and the counter of the source as they are. -/
def step : Op → Heap
  | .construct i => s.setObj i .empty
  | .copyConstruct i _ => s.setObj i .empty
  | .moveConstruct i j =>
    match s.objs j with
    | none => s
    | some a => (s.setObj j { a with pools := [] }).setObj i a
  | .copyAssign _ _ => s
  | .moveAssign i j =>
    if i = j then
      s
    else
      match s.objs j with
      | none => s
      | some a => (s.setObj j { a with pools := [] }).setObj i a
  | .allocate i n mem =>
    match s.objs i with
    | none => s
    | some a => s.allocate poolNelems i a n mem
  | .deallocate i ptr n =>
    match s.objs i with
    | none => s
    | some a => s.deallocate i a ptr n
  | .store ptr val => { s with next := Function.update s.next ptr val }

/-- What the caller and the heap guarantee: objects are constructed once and before they are used, only what was
allocated is released or written to, and a new block is not one that is in use. -/
def Allowed : Op → Prop
  | .construct i => s.objs i = none
  | .copyConstruct i j | .moveConstruct i j => s.objs i = none ∧ (s.objs j).isSome
  | .copyAssign i j | .moveAssign i j => (s.objs i).isSome ∧ (s.objs j).isSome
  | .allocate i _ mem => (s.objs i).isSome ∧ ∀ b ∈ mem, b ∉ s.blocks
  | .deallocate i ptr n => ⟨i, ptr, n⟩ ∈ s.live
  | .store ptr _ => ∃ r ∈ s.live, r.ptr = ptr

def Chain (next : Slot → Option Slot) : Option Slot → List Slot → Prop
  | head, [] => head = none
  | head, p :: ps => head = some p ∧ Chain next (next p) ps

def Live (p : Slot) : Prop := ⟨i, p, 1⟩ ∈ s.live

/-- The slot was never handed out from its pool. -/
def Unbumped (a : Allocator) (p : Slot) : Prop := ∃ k, a.poolPtr = some ⟨p.block, k⟩ ∧ k ≤ p.idx

def ExactlyOne (P Q R : Prop) : Prop := P ∧ ¬ Q ∧ ¬ R ∨ ¬ P ∧ Q ∧ ¬ R ∨ ¬ P ∧ ¬ Q ∧ R

/-- The claim about the objects: no slot serves two requests, each slot of a pool is live, free or unused, the
counter counts the live slots, and live memory is not released. -/
structure Consistent : Prop where
  nodup : (s.live.map Request.ptr).Nodup
  slots : ∀ i a, s.objs i = some a → ∃ free, Chain s.next a.freeList free ∧ free.Nodup ∧
    ∀ p : Slot, p.block ∈ a.pools → p.idx < poolNelems → ExactlyOne (s.Live i p) (p ∈ free) (Unbumped a p)
  count : ∀ i a, s.objs i = some a → a.liveObjects = s.live.countP fun r => r.owner = i ∧ r.n = 1
  allocated : ∀ r ∈ s.live, r.ptr.block ∈ s.blocks

/-- The call neither moves from or into an object that has pools, nor runs out of memory for a new pool. -/
def Benign : Op → Prop
  | .moveConstruct _ j => ∀ a ∈ s.objs j, a.pools = []
  | .moveAssign i j => i ≠ j → (∀ a ∈ s.objs i, a.pools = []) ∧ ∀ a ∈ s.objs j, a.pools = []
  | .allocate i n mem => n = 1 → ∀ a ∈ s.objs i, a.freeList = none → a.poolPtr = a.poolEnd → mem.isSome
  | _ => True

/-- The heaps that allowed calls can reach, all of them of a kind `P`. -/
inductive ReachableBy (P : Heap → Op → Prop) : Heap → Prop
  | init : ReachableBy P .init
  | step {s : Heap} {op : Op} : ReachableBy P s → s.Allowed op → P s op → ReachableBy P (s.step poolNelems op)

/-! ### The invariant -/

section
variable {poolNelems : Nat} {s s' : Heap} {i j : Nat} {a b : Allocator} {free : List Slot} {p q : Slot}

/-- The part of the invariant that is about one object. -/
structure ObjInv (poolNelems : Nat) (s : Heap) (i : Nat) (a : Allocator) (free : List Slot) : Prop where
  chain : Chain s.next a.freeList free
  free_nodup : free.Nodup
  free_mem : ∀ p ∈ free, p.block ∈ a.pools ∧ p.idx < poolNelems
  live_mem : ∀ p, s.Live i p → p.block ∈ a.pools ∧ p.idx < poolNelems
  slots : ∀ p : Slot, p.block ∈ a.pools → p.idx < poolNelems →
    ExactlyOne (s.Live i p) (p ∈ free) (Unbumped a p)
  ptr : a.pools = [] ∧ a.poolPtr = none ∧ a.poolEnd = none ∨
    ∃ b k, b ∈ a.pools ∧ a.poolPtr = some ⟨b, k⟩ ∧ a.poolEnd = some ⟨b, poolNelems⟩ ∧ k ≤ poolNelems
  count : a.liveObjects = s.live.countP fun r => r.owner = i ∧ r.n = 1
  blocks : ∀ b ∈ a.pools, b ∈ s.blocks

structure Inv (poolNelems : Nat) (s : Heap) : Prop where
  nodup : (s.live.map Request.ptr).Nodup
  objs : ∀ i a, s.objs i = some a → ∃ free, ObjInv poolNelems s i a free
  owner : ∀ r ∈ s.live, (s.objs r.owner).isSome
  array : ∀ r ∈ s.live, r.n ≠ 1 →
    r.ptr.idx = 0 ∧ r.ptr.block ∈ s.blocks ∧ ∀ i a, s.objs i = some a → r.ptr.block ∉ a.pools
  disjoint : ∀ i j a b, i ≠ j → s.objs i = some a → s.objs j = some b → ∀ x ∈ a.pools, x ∉ b.pools

theorem Chain.congr {next next' : Slot → Option Slot} {head : Option Slot} (h : Chain next head free)
    (hnext : ∀ p ∈ free, next' p = next p) : Chain next' head free := by
  induction free generalizing head with
  | nil => exact h
  | cons p ps ih =>
      refine ⟨h.1, ?_⟩
      rw [hnext p (by simp)]
      exact ih h.2 fun q hq => hnext q (by simp [hq])

theorem ObjInv.frame (h : ObjInv poolNelems s i a free) (hnext : ∀ p ∈ free, s'.next p = s.next p)
    (hlive : ∀ p, s'.Live i p ↔ s.Live i p)
    (hcount : (s'.live.countP fun r => r.owner = i ∧ r.n = 1) = s.live.countP fun r => r.owner = i ∧ r.n = 1)
    (hblocks : ∀ b ∈ a.pools, b ∈ s'.blocks) : ObjInv poolNelems s' i a free where
  chain := h.chain.congr hnext
  free_nodup := h.free_nodup
  free_mem := h.free_mem
  live_mem p hp := h.live_mem p ((hlive p).mp hp)
  slots p hblock hidx := by
    rw [hlive]
    exact h.slots p hblock hidx
  ptr := h.ptr
  count := by rw [hcount, h.count]
  blocks := hblocks

theorem Inv.allocated (h : Inv poolNelems s) : ∀ r ∈ s.live, r.ptr.block ∈ s.blocks := by
  intro r hr
  by_cases hn : r.n = 1
  · obtain ⟨a, ha⟩ := Option.isSome_iff_exists.mp (h.owner r hr)
    obtain ⟨free, hobj⟩ := h.objs r.owner a ha
    have hlive : s.Live r.owner r.ptr := by
      unfold Live
      rw [← hn]
      exact hr
    exact hobj.blocks _ (hobj.live_mem _ hlive).1
  · exact (h.array r hr hn).2.1

theorem Inv.consistent (h : Inv poolNelems s) : s.Consistent poolNelems where
  nodup := h.nodup
  slots i a ha := by
    obtain ⟨free, hobj⟩ := h.objs i a ha
    exact ⟨free, hobj.chain, hobj.free_nodup, hobj.slots⟩
  count i a ha := by
    obtain ⟨free, hobj⟩ := h.objs i a ha
    exact hobj.count
  allocated := h.allocated

theorem inv_init : Inv poolNelems Heap.init := by
  constructor <;> simp [Heap.init]

theorem Inv.construct (h : Inv poolNelems s) (hi : s.objs i = none) : Inv poolNelems (s.setObj i .empty) := by
  have hnot : ∀ r ∈ s.live, r.owner ≠ i := by
    rintro r hr rfl
    have hsome := h.owner r hr
    rw [hi] at hsome
    simp at hsome
  refine ⟨h.nodup, fun j b hb => ?_, fun r hr => ?_, fun r hr hn => ?_, fun j k b c hjk hb hc => ?_⟩
  · by_cases hj : j = i
    · subst hj
      obtain rfl : Allocator.empty = b := by simpa [setObj] using hb
      refine ⟨[], rfl, List.nodup_nil, by simp, fun p hp => absurd rfl (hnot _ hp), ?_, .inl ⟨rfl, rfl, rfl⟩, ?_, ?_⟩
      · intro p hp
        simp [Allocator.empty] at hp
      · have hzero : (s.live.countP fun r => r.owner = j ∧ r.n = 1) = 0 := by
          rw [List.countP_eq_zero]
          intro r hr
          simp [hnot r hr]
        have hlive : (s.setObj j .empty).live = s.live := rfl
        rw [hlive, hzero]
        rfl
      · intro b hb
        simp [Allocator.empty] at hb
    · obtain ⟨free, hobj⟩ := h.objs j b (by simpa [setObj, hj] using hb)
      exact ⟨free, hobj.frame (fun _ _ => rfl) (fun _ => Iff.rfl) rfl hobj.blocks⟩
  · simpa [setObj, hnot r hr] using h.owner r hr
  · obtain ⟨hidx, hblock, hpools⟩ := h.array r hr hn
    refine ⟨hidx, hblock, fun j b hb => ?_⟩
    by_cases hj : j = i
    · subst hj
      obtain rfl : Allocator.empty = b := by simpa [setObj] using hb
      simp [Allocator.empty]
    · exact hpools j b (by simpa [setObj, hj] using hb)
  · intro x hx
    by_cases hj : j = i
    · subst hj
      obtain rfl : Allocator.empty = b := by simpa [setObj] using hb
      simp [Allocator.empty] at hx
    by_cases hk : k = i
    · subst hk
      obtain rfl : Allocator.empty = c := by simpa [setObj] using hc
      simp [Allocator.empty]
    · exact h.disjoint j k b c hjk (by simpa [setObj, hj] using hb) (by simpa [setObj, hk] using hc) x hx

theorem Inv.update (h : Inv poolNelems s) (hi : s.objs i = some a) (hobjs : s'.objs = Function.update s.objs i (some b))
    (hobj : ∃ free, ObjInv poolNelems s' i b free) (hnodup : (s'.live.map Request.ptr).Nodup)
    (hnext : ∀ p : Slot, p.block ∉ a.pools → s'.next p = s.next p)
    (hlive : ∀ r : Request, r.owner ≠ i ∨ r.n ≠ 1 → (r ∈ s'.live ↔ r ∈ s.live))
    (hcount : ∀ j, j ≠ i →
      (s'.live.countP fun r => r.owner = j ∧ r.n = 1) = s.live.countP fun r => r.owner = j ∧ r.n = 1)
    (hblocks : ∀ x ∈ s.blocks, x ∉ a.pools → x ∈ s'.blocks) (hpools : ∀ x ∈ b.pools, x ∈ a.pools ∨ x ∉ s.blocks) :
    Inv poolNelems s' := by
  have hothers : ∀ j c, j ≠ i → s'.objs j = some c → s.objs j = some c := by
    intro j c hj hc
    rwa [hobjs, Function.update_of_ne hj] at hc
  have hself : ∀ c, s'.objs i = some c → b = c := by
    intro c hc
    rw [hobjs, Function.update_self] at hc
    exact Option.some.inj hc
  -- the blocks of the others are not those of the new state of `i`
  have hapart : ∀ j c, j ≠ i → s.objs j = some c → ∀ x ∈ c.pools, x ∉ a.pools ∧ x ∉ b.pools := by
    intro j c hj hc x hx
    obtain ⟨free, hc'⟩ := h.objs j c hc
    have hold := h.disjoint j i c a hj hc hi x hx
    refine ⟨hold, fun hb => ?_⟩
    rcases hpools x hb with hin | hnew
    · exact hold hin
    · exact hnew (hc'.blocks x hx)
  refine ⟨hnodup, fun j c hc => ?_, fun r hr => ?_, fun r hr hn => ?_, fun j k c d hjk hc hd x hx => ?_⟩
  · by_cases hj : j = i
    · subst hj
      rw [← hself c hc]
      exact hobj
    have hc' := hothers j c hj hc
    obtain ⟨free, hfree⟩ := h.objs j c hc'
    refine ⟨free, hfree.frame (fun p hp => ?_) (fun p => hlive _ (.inl hj)) (hcount j hj) fun x hx => ?_⟩
    · exact hnext p (hapart j c hj hc' _ (hfree.free_mem p hp).1).1
    · exact hblocks x (hfree.blocks x hx) (hapart j c hj hc' x hx).1
  · by_cases hr' : r.owner = i
    · simp [hobjs, hr']
    · rw [hobjs, Function.update_of_ne hr']
      exact h.owner r ((hlive r (.inl hr')).mp hr)
  · obtain ⟨hidx, hblock, harray⟩ := h.array r ((hlive r (.inr hn)).mp hr) hn
    refine ⟨hidx, hblocks _ hblock (harray i a hi), fun j c hc hmem => ?_⟩
    by_cases hj : j = i
    · subst hj
      rw [← hself c hc] at hmem
      rcases hpools _ hmem with hin | hnew
      · exact harray j a hi hin
      · exact hnew hblock
    · exact harray j c (hothers j c hj hc) hmem
  · by_cases hj : j = i
    · subst hj
      rw [← hself c hc] at hx
      exact fun hxd => (hapart k d (Ne.symm hjk) (hothers k d (Ne.symm hjk) hd) x hxd).2 hx
    have hc' := hothers j c hj hc
    by_cases hk : k = i
    · subst hk
      rw [← hself d hd]
      exact (hapart j c hj hc' x hx).2
    · exact h.disjoint j k c d hjk hc' (hothers k d hk hd) x hx

theorem Inv.ptr_notMem (h : Inv poolNelems s) (hi : s.objs i = some a) (hblock : p.block ∈ a.pools)
    (hp : ¬ s.Live i p) : p ∉ s.live.map Request.ptr := by
  intro hmem
  obtain ⟨r, hr, rfl⟩ := List.mem_map.mp hmem
  by_cases hn : r.n = 1
  · by_cases howner : r.owner = i
    · apply hp
      unfold Live
      rw [← howner, ← hn]
      exact hr
    · obtain ⟨c, hc⟩ := Option.isSome_iff_exists.mp (h.owner r hr)
      obtain ⟨free, hobj⟩ := h.objs r.owner c hc
      have hlive : s.Live r.owner r.ptr := by
        unfold Live
        rw [← hn]
        exact hr
      exact h.disjoint r.owner i c a howner hc hi _ (hobj.live_mem _ hlive).1 hblock
  · exact (h.array r hr hn).2.2 i a hi hblock

theorem countP_addLive (i j : Nat) (p : Slot) (live : List Request) :
    ((⟨i, p, 1⟩ :: live).countP fun r => r.owner = j ∧ r.n = 1) =
      (live.countP fun r => r.owner = j ∧ r.n = 1) + if i = j then 1 else 0 := by
  rw [List.countP_cons]
  simp

/-- A slot of the object becomes live: it was free or unused, and is gone from there. -/
theorem Inv.handOut (h : Inv poolNelems s) (hi : s.objs i = some a) {b : Allocator} {free' : List Slot} {blocks : List Nat}
    (hchain : Chain s.next b.freeList free') (hfree : free'.Nodup)
    (hfree_mem : ∀ q ∈ free', q.block ∈ b.pools ∧ q.idx < poolNelems)
    (hpools : ∀ x ∈ b.pools, x ∈ a.pools ∨ x ∉ s.blocks ∧ x = p.block)
    (hkeep : ∀ x ∈ a.pools, x ∈ b.pools)
    (hmem : p.block ∈ b.pools ∧ p.idx < poolNelems)
    (hnot : ¬ s.Live i p) (hptr : b.pools = [] ∧ b.poolPtr = none ∧ b.poolEnd = none ∨
      ∃ x k, x ∈ b.pools ∧ b.poolPtr = some ⟨x, k⟩ ∧ b.poolEnd = some ⟨x, poolNelems⟩ ∧ k ≤ poolNelems)
    (hself : p ∉ free' ∧ ¬ Unbumped b p)
    (hslots : ∀ q : Slot, q ≠ p → q.block ∈ b.pools → q.idx < poolNelems →
      ExactlyOne (s.Live i q) (q ∈ free') (Unbumped b q))
    (hcount : b.liveObjects = a.liveObjects + 1) (hblocks : ∀ x, x ∈ blocks ↔ x ∈ s.blocks ∨ x = p.block ∧ x ∈ b.pools) :
    Inv poolNelems (({ s with blocks := blocks }.setObj i b).addLive i p 1) := by
  have hlive : ∀ q, (({ s with blocks := blocks }.setObj i b).addLive i p 1).Live i q ↔ s.Live i q ∨ q = p := by
    intro q
    unfold Live addLive setObj
    simp only [List.mem_cons, Request.mk.injEq, true_and, and_true]
    exact or_comm
  obtain ⟨free, hobj⟩ := h.objs i a hi
  have hfresh : p ∉ s.live.map Request.ptr := by
    rcases hpools _ hmem.1 with hin | ⟨hnew, -⟩
    · exact h.ptr_notMem hi hin hnot
    · intro hp
      obtain ⟨r, hr, rfl⟩ := List.mem_map.mp hp
      exact hnew (h.allocated r hr)
  refine h.update hi rfl ⟨free', ?_⟩ ?_ (fun _ _ => rfl) (fun r hr => ?_) (fun j hj => ?_) (fun x hx _ => ?_) fun x hx => ?_
  · refine ⟨hchain, hfree, hfree_mem, fun q hq => ?_, fun q hblock hidx => ?_, hptr, ?_, fun x hx => ?_⟩
    · rcases (hlive q).mp hq with hq | rfl
      · obtain ⟨hblock, hidx⟩ := hobj.live_mem q hq
        exact ⟨hkeep _ hblock, hidx⟩
      · exact hmem
    · rw [hlive]
      by_cases hqp : q = p
      · subst hqp
        exact .inl ⟨.inr rfl, hself⟩
      · have hq := hslots q hqp hblock hidx
        unfold ExactlyOne at hq ⊢
        simpa [hqp] using hq
    · have hsum := countP_addLive i i p s.live
      rw [if_pos rfl] at hsum
      have hold := hobj.count
      simp only [addLive, setObj, hsum, hcount, hold]
      push_cast
      rfl
    · refine (hblocks x).mpr ?_
      rcases hpools x hx with hin | ⟨-, rfl⟩
      · exact .inl (hobj.blocks x hin)
      · exact .inr ⟨rfl, hx⟩
  · simp only [addLive, setObj, List.map_cons, List.nodup_cons]
    exact ⟨hfresh, h.nodup⟩
  · simp only [addLive, setObj, List.mem_cons]
    refine or_iff_right ?_
    rintro rfl
    simp at hr
  · have hsum := countP_addLive i j p s.live
    rw [if_neg (Ne.symm hj)] at hsum
    exact hsum
  · exact (hblocks x).mpr (.inl hx)
  · rcases hpools x hx with hin | ⟨hnew, -⟩
    · exact .inl hin
    · exact .inr hnew

theorem ExactlyOne.iff_of_second {P Q R : Prop} (h : ExactlyOne P Q R) (hQ : Q) : ¬ P ∧ ¬ R := by
  rcases h with ⟨-, hnot, -⟩ | ⟨hP, -, hR⟩ | ⟨-, hnot, -⟩
  · exact absurd hQ hnot
  · exact ⟨hP, hR⟩
  · exact absurd hQ hnot

theorem ExactlyOne.iff_of_third {P Q R : Prop} (h : ExactlyOne P Q R) (hR : R) : ¬ P ∧ ¬ Q := by
  rcases h with ⟨-, -, hnot⟩ | ⟨-, -, hnot⟩ | ⟨hP, hQ, -⟩
  · exact absurd hR hnot
  · exact absurd hR hnot
  · exact ⟨hP, hQ⟩

variable {n : Nat}

theorem Inv.allocate_array (h : Inv poolNelems s) {x : Nat} (hi : s.objs i = some a) (hn : n ≠ 1) (hx : x ∉ s.blocks) :
    Inv poolNelems ({ s with blocks := x :: s.blocks }.addLive i ⟨x, 0⟩ n) := by
  have hlive : ∀ r : Request, r.n = 1 → (r ∈ (⟨i, ⟨x, 0⟩, n⟩ :: s.live) ↔ r ∈ s.live) := by
    intro r hr
    rw [List.mem_cons]
    refine or_iff_right ?_
    rintro rfl
    exact hn hr
  refine ⟨?_, fun j c hc => ?_, fun r hr => ?_, fun r hr hrn => ?_, h.disjoint⟩
  · simp only [addLive, List.map_cons, List.nodup_cons]
    refine ⟨fun hmem => ?_, h.nodup⟩
    obtain ⟨r, hr, hptr⟩ := List.mem_map.mp hmem
    have hblock := h.allocated r hr
    rw [hptr] at hblock
    exact hx hblock
  · obtain ⟨free, hobj⟩ := h.objs j c hc
    refine ⟨free, hobj.frame (fun _ _ => rfl) (fun p => hlive _ rfl) ?_ fun y hy => List.mem_cons_of_mem _ (hobj.blocks y hy)⟩
    simp [addLive, hn]
  · rcases List.mem_cons.mp hr with rfl | hr
    · simp [addLive, hi]
    · exact h.owner r hr
  · rcases List.mem_cons.mp hr with rfl | hr
    · refine ⟨rfl, List.mem_cons_self, fun j c hc hmem => ?_⟩
      obtain ⟨free, hobj⟩ := h.objs j c hc
      exact hx (hobj.blocks x hmem)
    · obtain ⟨hidx, hblock, hpools⟩ := h.array r hr hrn
      exact ⟨hidx, List.mem_cons_of_mem _ hblock, hpools⟩

theorem Inv.allocate_free (h : Inv poolNelems s) (hi : s.objs i = some a) (hfree : a.freeList = some p) :
    Inv poolNelems ((s.setObj i { a with liveObjects := a.liveObjects + 1, freeList := s.next p }).addLive i p 1) := by
  obtain ⟨free, hobj⟩ := h.objs i a hi
  obtain ⟨ps, rfl⟩ : ∃ ps, free = p :: ps := by
    have hchain := hobj.chain
    cases free with
    | nil =>
        rw [hfree] at hchain
        exact absurd hchain (by simp [Chain])
    | cons q ps =>
        have hq := hchain.1
        rw [hfree] at hq
        exact ⟨ps, by rw [Option.some.inj hq]⟩
  obtain ⟨hp, hps⟩ := List.nodup_cons.mp hobj.free_nodup
  have hmem := hobj.free_mem p (by simp)
  obtain ⟨hlive, hbump⟩ := (hobj.slots p hmem.1 hmem.2).iff_of_second (by simp)
  refine @Inv.handOut poolNelems s i a p h hi { a with liveObjects := a.liveObjects + 1, freeList := s.next p } ps
    s.blocks hobj.chain.2 hps ?_ ?_ ?_ hmem hlive hobj.ptr ⟨hp, hbump⟩ (fun q hqp hblock hidx => ?_) rfl fun x => ?_
  · exact fun q hq => hobj.free_mem q (by simp [hq])
  · exact fun x hx => .inl hx
  · exact fun x hx => hx
  · have hq := hobj.slots q hblock hidx
    rw [List.mem_cons, or_iff_right hqp] at hq
    exact hq
  · exact ⟨.inl, fun hx => hx.elim id fun hx => hobj.blocks x hx.2⟩

theorem freeList_eq_none (h : ObjInv poolNelems s i a free) (hfree : a.freeList = none) : free = [] := by
  have hchain := h.chain
  cases free with
  | nil => rfl
  | cons p ps =>
      have hp := hchain.1
      rw [hfree] at hp
      simp at hp

theorem Inv.allocate_bump (h : Inv poolNelems s) (hi : s.objs i = some a) (hfree : a.freeList = none)
    (hne : a.poolPtr ≠ a.poolEnd) (hptr : a.poolPtr = some p) :
    Inv poolNelems ((s.setObj i
      { a with liveObjects := a.liveObjects + 1, poolPtr := some ⟨p.block, p.idx + 1⟩ }).addLive i p 1) := by
  obtain ⟨free, hobj⟩ := h.objs i a hi
  obtain rfl := freeList_eq_none hobj hfree
  obtain ⟨x, k, hx, hk, hend, hle⟩ := hobj.ptr.resolve_left fun hnil => by
    rw [hnil.2.1] at hptr
    simp at hptr
  obtain rfl : p = ⟨x, k⟩ := Option.some.inj (hptr.symm.trans hk)
  have hlt : k < poolNelems := by
    refine Nat.lt_of_le_of_ne hle ?_
    rintro rfl
    exact hne (hk.trans hend.symm)
  have hbump : Unbumped a ⟨x, k⟩ := ⟨k, hk, Nat.le_refl k⟩
  obtain ⟨hlive, -⟩ := (hobj.slots ⟨x, k⟩ hx hlt).iff_of_third hbump
  refine @Inv.handOut poolNelems s i a ⟨x, k⟩ h hi
    { a with liveObjects := a.liveObjects + 1, poolPtr := some ⟨x, k + 1⟩ } [] s.blocks (by simpa [Chain] using hfree)
      List.nodup_nil (by simp) (fun y hy => .inl hy) (fun y hy => hy)
    ⟨hx, hlt⟩ hlive ?_ ⟨by simp, ?_⟩ (fun q hqp hblock hidx => ?_) rfl fun y => ?_
  · exact .inr ⟨x, k + 1, hx, rfl, hend, hlt⟩
  · rintro ⟨k', hk', hle'⟩
    simp only [Option.some.injEq, Slot.mk.injEq, true_and] at hk' hle'
    omega
  · have hq := hobj.slots q hblock hidx
    have hiff : Unbumped { a with liveObjects := a.liveObjects + 1, poolPtr := some ⟨x, k + 1⟩ } q ↔ Unbumped a q := by
      unfold Unbumped
      rw [hk]
      simp only [Option.some.injEq, Slot.mk.injEq]
      constructor
      · rintro ⟨k', ⟨rfl, rfl⟩, hle'⟩
        exact ⟨k, ⟨rfl, rfl⟩, by omega⟩
      rintro ⟨k', ⟨rfl, rfl⟩, hle'⟩
      refine ⟨k + 1, ⟨rfl, rfl⟩, ?_⟩
      have hidx_ne : q.idx ≠ k := by
        rintro rfl
        exact hqp rfl
      omega
    rw [hiff]
    exact hq
  · exact ⟨.inl, fun hy => hy.elim id fun hy => hobj.blocks y hy.2⟩

/-- A new pool, whose first slot is handed out. -/
theorem Inv.allocate_pool (h : Inv poolNelems s) (hpos : 0 < poolNelems) {x : Nat} (hi : s.objs i = some a)
    (hfree : a.freeList = none) (heq : a.poolPtr = a.poolEnd) (hx : x ∉ s.blocks) :
    Inv poolNelems (({ s with blocks := x :: s.blocks }.setObj i
      { a with
        liveObjects := a.liveObjects + 1
        pools := a.pools ++ [x]
        poolPtr := some ⟨x, 1⟩
        poolEnd := some ⟨x, poolNelems⟩ }).addLive i ⟨x, 0⟩ 1) := by
  obtain ⟨free, hobj⟩ := h.objs i a hi
  obtain rfl := freeList_eq_none hobj hfree
  have hpools : x ∉ a.pools := fun hmem => hx (hobj.blocks x hmem)
  have hlive : ∀ p : Slot, p.block = x → ¬ s.Live i p := by
    rintro p rfl hp
    exact hx (h.allocated _ hp)
  -- the old pools are used up
  have hused : ∀ q : Slot, q.idx < poolNelems → ¬ Unbumped a q := by
    rintro q hidx ⟨k, hk, hle⟩
    rcases hobj.ptr with ⟨-, hnil, -⟩ | ⟨y, k', -, hk', hend, -⟩
    · rw [hnil] at hk
      simp at hk
    · rw [hk', hend] at heq
      rw [hk'] at hk
      simp only [Option.some.injEq, Slot.mk.injEq, true_and] at heq hk
      omega
  refine @Inv.handOut poolNelems s i a ⟨x, 0⟩ h hi
    { a with liveObjects := a.liveObjects + 1, pools := a.pools ++ [x], poolPtr := some ⟨x, 1⟩,
             poolEnd := some ⟨x, poolNelems⟩ } [] (x :: s.blocks) (by simpa [Chain] using hfree) List.nodup_nil (by simp) (fun y hy => ?_)
    (fun y hy => List.mem_append_left _ hy) ⟨by simp, hpos⟩ (hlive _ rfl) ?_ ⟨by simp, ?_⟩ (fun q hqp hblock hidx => ?_)
    rfl fun y => ?_
  · rcases List.mem_append.mp hy with hy | hy
    · exact .inl hy
    · obtain rfl := List.mem_singleton.mp hy
      exact .inr ⟨hx, rfl⟩
  · exact .inr ⟨x, 1, by simp, rfl, rfl, hpos⟩
  · rintro ⟨k', hk', hle'⟩
    simp only [Option.some.injEq, Slot.mk.injEq, true_and] at hk' hle'
    omega
  · rcases List.mem_append.mp hblock with hold | hnew
    · have hq := hobj.slots q hold hidx
      have hqx : q.block ≠ x := fun he => hpools (he ▸ hold)
      have hnot : ¬ Unbumped { a with liveObjects := a.liveObjects + 1, pools := a.pools ++ [x], poolPtr := some ⟨x, 1⟩,
                                      poolEnd := some ⟨x, poolNelems⟩ } q := by
        rintro ⟨k', hk', -⟩
        simp only [Option.some.injEq, Slot.mk.injEq] at hk'
        exact hqx hk'.1.symm
      unfold ExactlyOne at hq ⊢
      simpa [hnot, hused q hidx] using hq
    · have hqx := List.mem_singleton.mp hnew
      refine .inr (.inr ⟨hlive q hqx, by simp, 1, by rw [hqx], ?_⟩)
      have hidx_ne : q.idx ≠ 0 := by
        intro hzero
        apply hqp
        cases q
        simp_all
      omega
  · simp only [List.mem_cons, List.mem_append]
    constructor
    · rintro (rfl | hy)
      · exact .inr ⟨rfl, .inr (.inl rfl)⟩
      · exact .inl hy
    · rintro (hy | ⟨rfl, -⟩)
      · exact .inr hy
      · exact .inl rfl

theorem Inv.allocate (h : Inv poolNelems s) (hpos : 0 < poolNelems) {mem : Option Nat}
    (hi : s.objs i = some a) (hmem : ∀ x ∈ mem, x ∉ s.blocks)
    (hbenign : n = 1 → a.freeList = none → a.poolPtr = a.poolEnd → mem.isSome) :
    Inv poolNelems (s.allocate poolNelems i a n mem) := by
  unfold Heap.allocate
  by_cases hn : n = 1
  · rw [if_neg (by simpa using hn)]
    cases hfree : a.freeList with
    | some ptr => exact h.allocate_free hi hfree
    | none =>
        simp only
        split
        · rename_i heq
          obtain ⟨x, rfl⟩ := Option.isSome_iff_exists.mp (hbenign hn hfree heq)
          have hpool := h.allocate_pool hpos hi hfree heq (hmem x rfl)
          rw [hfree] at hpool
          exact hpool
        · rename_i hne
          cases hptr : a.poolPtr with
          | none => exact h
          | some ptr =>
              rw [← hfree]
              exact h.allocate_bump hi hfree hne hptr
  · rw [if_pos hn]
    cases mem with
    | none => exact h
    | some x => exact h.allocate_array hi hn (hmem x rfl)

theorem live_nodup (h : Inv poolNelems s) : s.live.Nodup := List.Nodup.of_map _ h.nodup

theorem countP_erase_live (hp : s.Live i p) (j : Nat) :
    (s.live.countP fun r => r.owner = j ∧ r.n = 1) =
      ((s.live.erase ⟨i, p, 1⟩).countP fun r => r.owner = j ∧ r.n = 1) + if i = j then 1 else 0 := by
  have hperm := List.perm_cons_erase hp
  rw [hperm.countP_eq, countP_addLive]

/-- The released slot goes to the front of the free list; the last one releases all pools. -/
theorem Inv.deallocate_slot (h : Inv poolNelems s) (hi : s.objs i = some a) (hp : s.Live i p) :
    Inv poolNelems (s.deallocate i a p 1) := by
  obtain ⟨free, hobj⟩ := h.objs i a hi
  have hmem := hobj.live_mem p hp
  have hnodup := live_nodup h
  have hnot : p ∉ free ∧ ¬ Unbumped a p := by
    rcases hobj.slots p hmem.1 hmem.2 with ⟨-, hfree, hbump⟩ | ⟨hdead, -, -⟩ | ⟨hdead, -, -⟩
    · exact ⟨hfree, hbump⟩
    · exact absurd hp hdead
    · exact absurd hp hdead
  have herase : ∀ r, r ∈ s.live.erase ⟨i, p, 1⟩ ↔ r ≠ ⟨i, p, 1⟩ ∧ r ∈ s.live := fun r => hnodup.mem_erase_iff
  have hlive : ∀ r : Request, r.owner ≠ i ∨ r.n ≠ 1 → (r ∈ s.live.erase ⟨i, p, 1⟩ ↔ r ∈ s.live) := by
    intro r hr
    rw [herase]
    refine and_iff_right ?_
    rintro rfl
    simp at hr
  have hcount := countP_erase_live hp
  have hother : ∀ j, j ≠ i → ((s.live.erase ⟨i, p, 1⟩).countP fun r => r.owner = j ∧ r.n = 1) =
      s.live.countP fun r => r.owner = j ∧ r.n = 1 := by
    intro j hj
    rw [hcount j, if_neg (Ne.symm hj), Nat.add_zero]
  have hself := hcount i
  rw [if_pos rfl] at hself
  have hold := hobj.count
  have hptrs : ((s.live.erase ⟨i, p, 1⟩).map Request.ptr).Nodup :=
    h.nodup.sublist (List.erase_sublist.map _)
  have hnext : ∀ q : Slot, q.block ∉ a.pools → Function.update s.next p a.freeList q = s.next q := by
    intro q hq
    refine Function.update_of_ne ?_ _ _
    rintro rfl
    exact hq hmem.1
  unfold Heap.deallocate
  rw [if_neg (by simp)]
  simp only
  split
  · -- no slot is live any more
    rename_i hzero
    have hnone : ((s.live.erase ⟨i, p, 1⟩).countP fun r => r.owner = i ∧ r.n = 1) = 0 := by omega
    refine h.update hi rfl ⟨[], ?_⟩ hptrs hnext hlive hother (fun x hx hxa => ?_) (fun x hx => by simp at hx)
    · refine ⟨rfl, List.nodup_nil, by simp, fun q hq => ?_, fun q hq => by simp at hq, .inl ⟨rfl, rfl, rfl⟩, ?_, by simp⟩
      · rw [List.countP_eq_zero] at hnone
        exact absurd (hnone _ hq) (by simp)
      · simp only [setObj, hnone]
        exact hzero
    · simpa [setObj] using ⟨hx, hxa⟩
  · refine h.update hi rfl ⟨p :: free, ?_⟩ hptrs hnext hlive hother (fun x hx _ => hx) (fun x hx => .inl hx)
    have hchain : Chain (Function.update s.next p a.freeList) a.freeList free := by
      refine hobj.chain.congr fun q hq => Function.update_of_ne ?_ _ _
      rintro rfl
      exact hnot.1 hq
    refine ⟨⟨rfl, ?_⟩, List.nodup_cons.mpr ⟨hnot.1, hobj.free_nodup⟩, fun q hq => ?_, fun q hq => ?_,
      fun q hblock hidx => ?_, hobj.ptr, ?_, hobj.blocks⟩
    · simpa [setObj] using hchain
    · rcases List.mem_cons.mp hq with rfl | hq
      · exact hmem
      · exact hobj.free_mem q hq
    · exact hobj.live_mem q ((herase _).mp hq).2
    · have hiff : (⟨i, q, 1⟩ : Request) ∈ s.live.erase ⟨i, p, 1⟩ ↔ q ≠ p ∧ s.Live i q := by
        rw [herase]
        simp [Live]
      have hq := hobj.slots q hblock hidx
      by_cases hqp : q = p
      · subst hqp
        refine .inr (.inl ⟨fun hlive => ?_, by simp, hnot.2⟩)
        exact (hiff.mp hlive).1 rfl
      have hsame : (⟨i, q, 1⟩ : Request) ∈ s.live.erase ⟨i, p, 1⟩ ↔ s.Live i q := by simp [hiff, hqp]
      unfold ExactlyOne at hq ⊢
      rw [List.mem_cons, or_iff_right hqp]
      unfold Live at hsame hq ⊢
      simp only [setObj]
      rw [hsame]
      exact hq
    · simp only [setObj]
      omega

theorem Inv.deallocate_array (h : Inv poolNelems s) (hn : n ≠ 1) (hp : ⟨i, p, n⟩ ∈ s.live) :
    Inv poolNelems (s.deallocate i a p n) := by
  have hnodup := live_nodup h
  have hblock := h.array _ hp hn
  have herase : ∀ r, r ∈ s.live.erase ⟨i, p, n⟩ ↔ r ≠ ⟨i, p, n⟩ ∧ r ∈ s.live := fun r => hnodup.mem_erase_iff
  have hlive : ∀ r : Request, r.n = 1 → (r ∈ s.live.erase ⟨i, p, n⟩ ↔ r ∈ s.live) := by
    intro r hr
    rw [herase]
    refine and_iff_right ?_
    rintro rfl
    exact hn hr
  unfold Heap.deallocate
  rw [if_pos hn]
  refine ⟨h.nodup.sublist (List.erase_sublist.map _), fun j c hc => ?_, fun r hr => h.owner r ((herase r).mp hr).2,
    fun r hr hrn => ?_, h.disjoint⟩
  · obtain ⟨free, hobj⟩ := h.objs j c hc
    refine ⟨free, hobj.frame (fun _ _ => rfl) (fun q => hlive _ rfl) ?_ fun x hx => ?_⟩
    · have hperm := List.perm_cons_erase hp
      rw [hperm.countP_eq, List.countP_cons]
      simp [hn]
    · rw [List.mem_filter]
      refine ⟨hobj.blocks x hx, ?_⟩
      have hne : x ≠ p.block := fun he => hblock.2.2 j c hc (he ▸ hx)
      simpa using hne
  · obtain ⟨hne, hr⟩ := (herase r).mp hr
    obtain ⟨hidx, hin, hpools⟩ := h.array r hr hrn
    refine ⟨hidx, ?_, hpools⟩
    rw [List.mem_filter]
    refine ⟨hin, ?_⟩
    have hne_block : r.ptr.block ≠ p.block := by
      intro heq
      have hptr : r.ptr = p := by
        have hpidx := hblock.1
        cases hrp : r.ptr
        cases p
        simp_all
      exact hne (List.inj_on_of_nodup_map h.nodup hr hp hptr)
    simpa using hne_block

theorem Inv.store (h : Inv poolNelems s) {val : Option Slot} (hp : ∃ r ∈ s.live, r.ptr = p) :
    Inv poolNelems { s with next := Function.update s.next p val } := by
  refine ⟨h.nodup, fun j c hc => ?_, h.owner, h.array, h.disjoint⟩
  obtain ⟨free, hobj⟩ := h.objs j c hc
  refine ⟨free, hobj.frame (fun q hq => Function.update_of_ne ?_ _ _) (fun _ => Iff.rfl) rfl hobj.blocks⟩
  rintro rfl
  obtain ⟨hblock, hidx⟩ := hobj.free_mem q hq
  obtain ⟨hlive, -⟩ := (hobj.slots q hblock hidx).iff_of_second hq
  have hnot := h.ptr_notMem hc hblock hlive
  obtain ⟨r, hr, hptr⟩ := hp
  exact hnot (List.mem_map.mpr ⟨r, hr, hptr⟩)

theorem ObjInv.eq_empty (h : ObjInv poolNelems s i a free) (hpools : a.pools = []) : a = .empty := by
  have hfree : free = [] := by
    cases free with
    | nil => rfl
    | cons p ps =>
        have hmem := (h.free_mem p (by simp)).1
        simp [hpools] at hmem
  have hhead : a.freeList = none := by
    have hchain := h.chain
    rwa [hfree] at hchain
  obtain ⟨-, hptr, hend⟩ := h.ptr.resolve_right fun ⟨b, _, hb, _⟩ => by simp [hpools] at hb
  have hcount : a.liveObjects = 0 := by
    rw [h.count]
    have hzero : (s.live.countP fun r => r.owner = i ∧ r.n = 1) = 0 := by
      rw [List.countP_eq_zero]
      intro r hr howner
      simp only [decide_eq_true_eq] at howner
      have hlive : s.Live i r.ptr := by
        unfold Live
        rw [← howner.1, ← howner.2]
        exact hr
      have hmem := (h.live_mem r.ptr hlive).1
      simp [hpools] at hmem
    rw [hzero]
    rfl
  cases a
  simp_all [Allocator.empty]

theorem setObj_self (hi : s.objs i = some a) : s.setObj i a = s := by
  unfold setObj
  rw [← hi, Function.update_eq_self]

theorem Inv.step (h : Inv poolNelems s) (hpos : 0 < poolNelems) {op : Op} (hop : s.Allowed op) (hbenign : s.Benign op) :
    Inv poolNelems (s.step poolNelems op) := by
  have hempty : ∀ j c, s.objs j = some c → c.pools = [] → c = .empty := by
    intro j c hc hpools
    obtain ⟨free, hobj⟩ := h.objs j c hc
    exact hobj.eq_empty hpools
  cases op with
  | construct i => exact h.construct hop
  | copyConstruct i j => exact h.construct hop.1
  | moveConstruct i j =>
      obtain ⟨c, hc⟩ := Option.isSome_iff_exists.mp hop.2
      obtain rfl := hempty j c hc (hbenign c hc)
      have hsame : (s.setObj j { Allocator.empty with pools := [] }) = s := setObj_self hc
      simp only [Heap.step, hc, hsame]
      exact h.construct hop.1
  | copyAssign i j => exact h
  | moveAssign i j =>
      by_cases hij : i = j
      · rw [Heap.step, if_pos hij]
        exact h
      obtain ⟨c, hc⟩ := Option.isSome_iff_exists.mp hop.2
      obtain ⟨b, hb⟩ := Option.isSome_iff_exists.mp hop.1
      obtain ⟨hi', hj'⟩ := hbenign hij
      obtain rfl := hempty j c hc (hj' c hc)
      obtain rfl := hempty i b hb (hi' b hb)
      have hsame : (s.setObj j { Allocator.empty with pools := [] }) = s := setObj_self hc
      simp only [Heap.step, if_neg hij, hc, hsame]
      rw [setObj_self hb]
      exact h
  | allocate i n mem =>
      obtain ⟨a, ha⟩ := Option.isSome_iff_exists.mp hop.1
      simp only [Heap.step, ha]
      exact h.allocate hpos ha hop.2 fun hn => hbenign hn a ha
  | deallocate i p n =>
      have hlive : ⟨i, p, n⟩ ∈ s.live := hop
      obtain ⟨a, ha⟩ := Option.isSome_iff_exists.mp (h.owner _ hlive)
      simp only [Heap.step, ha]
      by_cases hn : n = 1
      · subst hn
        exact h.deallocate_slot ha hlive
      · exact h.deallocate_array hn hlive
  | store p val => exact h.store hop

theorem ReachableBy.inv (hpos : 0 < poolNelems) (h : ReachableBy poolNelems Benign s) : Inv poolNelems s := by
  induction h with
  | init => exact inv_init
  | step _ hop hbenign ih => exact ih.step hpos hop hbenign

end

end Heap

end IdaSdk.PoolAllocator
