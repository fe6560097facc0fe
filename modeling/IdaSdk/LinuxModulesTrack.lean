import Mathlib.Data.List.Pairwise
import Mathlib.Tactic.Common
import IdaSdk.LinuxModules

/-!
What the three loops of `handle_dll_movements` do to the table and to the log, and from that exactly
when the events and the table still say the same afterwards.
-/

namespace IdaSdk.LinuxModules

open KeyedLog

/-! ### Merging -/

section Merge

variable {miv ranges seen : List memory_info_t} {src : memory_info_t} {name : qstring} {base : ea_t}

theorem find_first_mapping_eq_none : find_first_mapping miv name = none ↔ ¬Mapped miv name := by
  rw [find_first_mapping, List.findIdx?_eq_none_iff]
  simp [Mapped]

theorem modify_findIdx {α : Type} {p : α → Bool} {f : α → α} {l : List α} {i : Nat}
    (hp : l.Pairwise fun a b => p a = true → p b = false) (hi : l.findIdx? p = some i) :
    l.modify i f = l.map fun x => if p x then f x else x := by
  induction l generalizing i with
  | nil => simp at hi
  | cons a l ih =>
      rw [List.pairwise_cons] at hp
      rw [List.findIdx?_cons] at hi
      rw [List.map_cons]
      split at hi
      · next ha =>
          obtain rfl := Option.some.inj hi
          have hrest : l.map (fun x => if p x then f x else x) = l := by
            conv_rhs => rw [← List.map_id l]
            apply List.map_congr_left
            intro x hx
            simp [hp.1 x hx ha]
          rw [if_pos ha, hrest]
          rfl
      · next ha =>
          rw [Option.map_eq_some_iff] at hi
          obtain ⟨j, hj, rfl⟩ := hi
          rw [if_neg ha, List.modify_succ_cons, ih hp.2 hj]

/-- What holds of the merged ranges after part of the map. -/
structure Merged (seen miv : List memory_info_t) : Prop where
  names : miv.Pairwise fun a b => a.name ≠ b.name
  mapped : ∀ name, Mapped miv name ↔ Mapped seen name
  base : ∀ mi ∈ miv, IsBase seen mi.name mi.start_ea
  nonempty : ∀ mi ∈ miv, mi.start_ea < mi.end_ea

theorem mapped_append : Mapped (seen ++ [src]) name ↔ Mapped seen name ∨ src.name = name := by
  simp only [Mapped, List.mem_append, List.mem_singleton]
  constructor
  · rintro ⟨mi, hmi | rfl, h⟩
    · exact .inl ⟨mi, hmi, h⟩
    · exact .inr h
  · rintro (⟨mi, hmi, h⟩ | h)
    · exact ⟨mi, .inl hmi, h⟩
    · exact ⟨src, .inr rfl, h⟩

theorem isBase_append_of_ne (hne : src.name ≠ name) (h : IsBase seen name base) :
    IsBase (seen ++ [src]) name base := by
  obtain ⟨⟨mi, hmi, hn, hb⟩, hle⟩ := h
  refine ⟨⟨mi, List.mem_append_left _ hmi, hn, hb⟩, ?_⟩
  intro mj hmj hnj
  rcases List.mem_append.mp hmj with hmj | hmj
  · exact hle mj hmj hnj
  · rw [List.mem_singleton] at hmj
    exact absurd (hmj ▸ hnj) hne

theorem isBase_append_of_not_mapped (h : ¬Mapped seen src.name) :
    IsBase (seen ++ [src]) src.name src.start_ea := by
  refine ⟨⟨src, List.mem_append_right _ (List.mem_singleton_self _), rfl, rfl⟩, ?_⟩
  intro mj hmj hnj
  rcases List.mem_append.mp hmj with hmj | hmj
  · exact absurd ⟨mj, hmj, hnj⟩ h
  · rw [List.mem_singleton] at hmj
    rw [hmj]

theorem isBase_append_min (h : IsBase seen src.name base) :
    IsBase (seen ++ [src]) src.name (min base src.start_ea) := by
  obtain ⟨⟨mi, hmi, hn, hb⟩, hle⟩ := h
  constructor
  · rcases Nat.le_total base src.start_ea with hbs | hsb
    · exact ⟨mi, List.mem_append_left _ hmi, hn, hb.trans (Nat.min_eq_left hbs).symm⟩
    · exact ⟨src, List.mem_append_right _ (List.mem_singleton_self _), rfl, (Nat.min_eq_right hsb).symm⟩
  intro mj hmj hnj
  rcases List.mem_append.mp hmj with hmj | hmj
  · exact Nat.le_trans (Nat.min_le_left _ _) (hle mj hmj hnj)
  · rw [List.mem_singleton] at hmj
    rw [hmj]
    exact Nat.min_le_right _ _

theorem mergeStep_of_mapped (hinv : Merged seen miv) (h : Mapped miv src.name) :
    mergeStep miv src =
      miv.map fun mi => if mi.name = src.name then (mi.extend src.start_ea).extend src.end_ea else mi := by
  rw [mergeStep]
  split
  · next i hi =>
      rw [find_first_mapping] at hi
      rw [modify_findIdx ?_ hi]
      · simp
      refine hinv.names.imp ?_
      intro a b hab ha
      simp only [decide_eq_true_eq] at ha
      simp only [decide_eq_false_iff_not]
      exact fun hb => hab (ha.trans hb.symm)
  · next hi => exact absurd h (find_first_mapping_eq_none.mp hi)

theorem mergeStep_inv (hinv : Merged seen miv) (hsrc : src.start_ea < src.end_ea) :
    Merged (seen ++ [src]) (mergeStep miv src) := by
  by_cases h : Mapped miv src.name
  · rw [mergeStep_of_mapped hinv h]
    have hname : ∀ mi : memory_info_t,
        (if mi.name = src.name then (mi.extend src.start_ea).extend src.end_ea else mi).name = mi.name := by
      intro mi
      split <;> rfl
    constructor
    · rw [List.pairwise_map]
      refine hinv.names.imp ?_
      intro a b hab
      rw [hname, hname]
      exact hab
    · intro name
      rw [mapped_append, ← hinv.mapped]
      have hmap : Mapped (miv.map fun mi =>
          if mi.name = src.name then (mi.extend src.start_ea).extend src.end_ea else mi) name ↔
          Mapped miv name := by
        simp only [Mapped, List.mem_map]
        constructor
        · rintro ⟨_, ⟨mi, hmi, rfl⟩, hn⟩
          exact ⟨mi, hmi, (hname mi).symm.trans hn⟩
        · rintro ⟨mi, hmi, hn⟩
          exact ⟨_, ⟨mi, hmi, rfl⟩, (hname mi).trans hn⟩
      rw [hmap]
      constructor
      · exact .inl
      · rintro (hm | rfl)
        · exact hm
        · exact h
    · intro mi hmi
      obtain ⟨mi, hmem, rfl⟩ := List.mem_map.mp hmi
      have hb := hinv.base mi hmem
      rw [hname]
      split
      · next hn =>
          rw [hn] at hb ⊢
          have hmin : ((mi.extend src.start_ea).extend src.end_ea).start_ea =
              min mi.start_ea src.start_ea := by
            exact Nat.min_eq_left (Nat.le_trans (Nat.min_le_right _ _) (Nat.le_of_lt hsrc))
          rw [hmin]
          exact isBase_append_min hb
      · next hn => exact isBase_append_of_ne (Ne.symm hn) hb
    · intro mi hmi
      obtain ⟨mi, hmem, rfl⟩ := List.mem_map.mp hmi
      have hlt := hinv.nonempty mi hmem
      split
      · exact Nat.lt_of_le_of_lt (Nat.le_trans (Nat.min_le_left _ _) (Nat.min_le_left _ _))
          (Nat.lt_of_lt_of_le hlt (Nat.le_trans (Nat.le_max_left _ _) (Nat.le_max_left _ _)))
      · exact hlt
  · have hseen : ¬Mapped seen src.name := mt (hinv.mapped _).mpr h
    have hstep : mergeStep miv src = miv ++ [src] := by
      rw [mergeStep, find_first_mapping_eq_none.mpr h]
    rw [hstep]
    constructor
    · rw [List.pairwise_append]
      refine ⟨hinv.names, List.pairwise_singleton _ _, ?_⟩
      intro a ha b hb hab
      rw [List.mem_singleton] at hb
      exact h ⟨a, ha, hab.trans (congrArg _ hb)⟩
    · intro name
      rw [mapped_append, mapped_append, hinv.mapped]
    · intro mi hmi
      rcases List.mem_append.mp hmi with hmi | hmi
      · exact isBase_append_of_ne (fun hn => h ⟨mi, hmi, hn.symm⟩) (hinv.base mi hmi)
      · rw [List.mem_singleton] at hmi
        rw [hmi]
        exact isBase_append_of_not_mapped hseen
    · intro mi hmi
      rcases List.mem_append.mp hmi with hmi | hmi
      · exact hinv.nonempty mi hmi
      · rw [List.mem_singleton] at hmi
        rw [hmi]
        exact hsrc

theorem merged_foldl (hinv : Merged seen miv) (h : ∀ mi ∈ ranges, mi.start_ea < mi.end_ea) :
    Merged (seen ++ ranges) (ranges.foldl mergeStep miv) := by
  induction ranges generalizing seen miv with
  | nil => simpa using hinv
  | cons src ranges ih =>
      rw [List.foldl_cons, List.append_cons]
      exact ih (mergeStep_inv hinv (h src List.mem_cons_self))
        fun mi hmi => h mi (List.mem_cons_of_mem _ hmi)

theorem merged (map : MemoryMap) : Merged map.ranges (merge map.ranges) := by
  have hnil : Merged [] [] :=
    ⟨List.Pairwise.nil, fun _ => Iff.rfl, fun _ h => absurd h List.not_mem_nil,
      fun _ h => absurd h List.not_mem_nil⟩
  exact merged_foldl hnil map.nonempty

theorem IsBase.unique {base' : ea_t} (h : IsBase ranges name base) (h' : IsBase ranges name base') :
    base = base' := by
  obtain ⟨⟨mi, hmi, hn, rfl⟩, hle⟩ := h
  obtain ⟨⟨mj, hmj, hn', rfl⟩, hle'⟩ := h'
  exact Nat.le_antisymm (hle mj hmj hn') (hle' mi hmi hn)

theorem MemoryMap.name_of_base {map : MemoryMap} {name' : qstring} (h : IsBase map.ranges name base)
    (h' : IsBase map.ranges name' base) : name = name' := by
  obtain ⟨⟨mi, hmi, hn, hb⟩, -⟩ := h
  obtain ⟨⟨mj, hmj, hn', hb'⟩, -⟩ := h'
  have heq : mi = mj := by
    by_contra hne
    have : Std.Symm fun a b : memory_info_t => a.start_ea ≠ b.start_ea := ⟨fun _ _ h => h.symm⟩
    exact map.distinct.forall hmi hmj hne (hb.trans hb'.symm)
  rw [← hn, ← hn', heq]

theorem exists_merged {map : MemoryMap} (h : IsBase map.ranges name base) :
    ∃ mi ∈ merge map.ranges, mi.name = name ∧ mi.start_ea = base := by
  obtain ⟨⟨mi, hmi, hn, -⟩, -⟩ := id h
  obtain ⟨mj, hmj, hnj⟩ := ((merged map).mapped name).mpr ⟨mi, hmi, hn⟩
  refine ⟨mj, hmj, hnj, ?_⟩
  have hb := (merged map).base mj hmj
  rw [hnj] at hb
  exact hb.unique h

end Merge

section Images

variable {dlls : images_t} {ii jj : image_info_t} {base : ea_t}

theorem images_t.mem_erase : jj ∈ (dlls.erase base).list ↔ jj ∈ dlls.list ∧ jj.base ≠ base := by
  simp [images_t.erase]

theorem images_t.eq_of_base (hi : ii ∈ dlls.list) (hj : jj ∈ dlls.list) (h : ii.base = jj.base) : ii = jj := by
  by_contra hne
  have hsym : dlls.list.Pairwise fun a b => a.base ≠ b.base := dlls.sorted.imp Nat.ne_of_lt
  have : Std.Symm fun a b : image_info_t => a.base ≠ b.base := ⟨fun _ _ h => h.symm⟩
  exact hsym.forall hi hj hne h

theorem images_t.find_eq_none : dlls.find base = none ↔ ∀ ii ∈ dlls.list, ii.base ≠ base := by
  simp [images_t.find, List.find?_eq_none]

theorem images_t.mem_insert (h : dlls.find ii.base = none) :
    jj ∈ (dlls.insert ii).list ↔ jj = ii ∨ jj ∈ dlls.list := by
  rw [images_t.insert, h]
  rw [images_t.find_eq_none] at h
  simp only [Option.isSome_none, Bool.false_eq_true, if_false, images_t.below, images_t.above,
    List.mem_append, List.mem_cons, List.mem_filter, decide_eq_true_eq]
  constructor
  · rintro (⟨hj, -⟩ | rfl | ⟨hj, -⟩)
    · exact .inr hj
    · exact .inl rfl
    · exact .inr hj
  · rintro (rfl | hj)
    · exact .inr (.inl rfl)
    · rcases Nat.lt_or_gt_of_ne (h jj hj) with hlt | hgt
      · exact .inl ⟨hj, hlt⟩
      · exact .inr (.inr ⟨hj, hgt⟩)

end Images

/-! ### The queue -/

section Queue

variable {name n : qstring} {ev : debug_event_t} {events events' : List debug_event_t}

theorem queued_loaded {modinfo : modinfo_t} (h : ev.info = .LIB_LOADED modinfo) :
    queued name (ev :: events) =
      if modinfo.name = name then some (modinfo.base, modinfo.size) :: queued name events
      else queued name events := by
  have he : logEntry ev = some (.put modinfo.name (modinfo.base, modinfo.size)) := by
    rw [logEntry, h]
  rw [queued, log, List.filterMap_cons_some he, entriesAt, List.filterMap_cons]
  split <;> simp_all [queued, log, entriesAt]

theorem queued_unloaded (h : ev.info = .LIB_UNLOADED n) :
    queued name (ev :: events) = if n = name then none :: queued name events else queued name events := by
  have he : logEntry ev = some (.clear n) := by
    rw [logEntry, h]
  rw [queued, log, List.filterMap_cons_some he, entriesAt, List.filterMap_cons]
  split <;> simp_all [queued, log, entriesAt]

theorem queued_of_logEntry (h : logEntry ev = none) : queued name (ev :: events) = queued name events := by
  rw [queued, log, List.filterMap_cons_none h]
  rfl

theorem queued_del_pending (name : qstring) (h : del_pending_event n events = some events') :
    0 < puts (queued n events) ∧
      queued name events' = if n = name then erasePut (queued name events) else queued name events := by
  induction events generalizing events' with
  | nil => cases h
  | cons ev events ih =>
      change ite _ _ _ = _ at h
      split at h
      · next hl =>
          obtain rfl := Option.some.inj h
          rw [debug_event_t.loads] at hl
          split at hl
          · next modinfo hinfo =>
              obtain rfl := of_decide_eq_true hl
              rw [queued_loaded hinfo, queued_loaded hinfo, if_pos rfl]
              refine ⟨by simp [puts], ?_⟩
              split
              · rfl
              · rfl
          · exact absurd hl (by decide)
      · next hl =>
          rw [Option.map_eq_some_iff] at h
          obtain ⟨events'', h, rfl⟩ := h
          obtain ⟨hpos, hq⟩ := ih h
          cases hinfo : ev.info with
          | LIB_LOADED modinfo =>
              have hne : modinfo.name ≠ n := by
                rw [debug_event_t.loads, hinfo] at hl
                simpa using hl
              rw [queued_loaded hinfo, queued_loaded hinfo, queued_loaded hinfo, if_neg hne, hq]
              refine ⟨hpos, ?_⟩
              by_cases hn : n = name
              · rw [if_pos hn, if_pos hn, if_neg (hn ▸ hne), if_neg (hn ▸ hne)]
              · rw [if_neg hn, if_neg hn]
          | LIB_UNLOADED n' =>
              rw [queued_unloaded hinfo, queued_unloaded hinfo, queued_unloaded hinfo, hq]
              constructor
              · split
                · simpa [puts] using hpos
                · exact hpos
              by_cases hn : n = name
              · rw [if_pos hn, if_pos hn]
                split
                · rfl
                · rfl
              · rw [if_neg hn, if_neg hn]
          | NO_EVENT =>
              have he : logEntry ev = none := by rw [logEntry, hinfo]
              rw [queued_of_logEntry he, queued_of_logEntry he, queued_of_logEntry he]
              exact ⟨hpos, hq⟩
          | other eid =>
              have he : logEntry ev = none := by rw [logEntry, hinfo]
              rw [queued_of_logEntry he, queued_of_logEntry he, queued_of_logEntry he]
              exact ⟨hpos, hq⟩

theorem puts_of_del_pending (h : del_pending_event n events = none) : puts (queued n events) = 0 := by
  induction events with
  | nil => rfl
  | cons ev events ih =>
      change ite _ _ _ = _ at h
      split at h
      · cases h
      rename_i hl
      rw [Option.map_eq_none_iff] at h
      cases hinfo : ev.info with
      | LIB_LOADED modinfo =>
          have hne : modinfo.name ≠ n := by
            rw [debug_event_t.loads, hinfo] at hl
            simpa using hl
          rw [queued_loaded hinfo, if_neg hne]
          exact ih h
      | LIB_UNLOADED n' =>
          rw [queued_unloaded hinfo]
          split
          · simpa [puts] using ih h
          · exact ih h
      | NO_EVENT => rw [queued_of_logEntry (by rw [logEntry, hinfo]), ih h]
      | other eid => rw [queued_of_logEntry (by rw [logEntry, hinfo]), ih h]

end Queue

/-! ### Unloading -/

section Unload

variable {d : Process} {miv : List memory_info_t} {s : State} {ii jj : image_info_t} {name : qstring}
  {L : List image_info_t}

theorem unloadStep_of_mapped (h : Mapped miv ii.fname) : d.unloadStep miv s ii = s := by
  rw [Process.unloadStep]
  split
  · rfl
  · next hn => exact absurd h (find_first_mapping_eq_none.mp hn)

theorem unloadStep_deleted {events : eventlist_t} (h : ¬Mapped miv ii.fname)
    (hdel : del_pending_event ii.fname s.events = some events) :
    d.unloadStep miv s ii = { s with events := events, dlls := s.dlls.erase ii.base } := by
  rw [Process.unloadStep, find_first_mapping_eq_none.mpr h]
  simp only [hdel]

theorem unloadStep_enqueued (h : ¬Mapped miv ii.fname) (hdel : del_pending_event ii.fname s.events = none) :
    d.unloadStep miv s ii =
      { s with
        events := ⟨d.process_handle, d.process_handle, BADADDR, true, .LIB_UNLOADED ii.fname⟩ :: s.events
        may_run := false
        dlls := s.dlls.erase ii.base } := by
  rw [Process.unloadStep, find_first_mapping_eq_none.mpr h]
  simp only [hdel, enqueue_event]

theorem dlls_unloadStep (h : ¬Mapped miv ii.fname) :
    (d.unloadStep miv s ii).dlls = s.dlls.erase ii.base := by
  cases hdel : del_pending_event ii.fname s.events with
  | some events => rw [unloadStep_deleted h hdel]
  | none => rw [unloadStep_enqueued h hdel]

theorem queued_unloadStep (h : ¬Mapped miv ii.fname) :
    queued name (d.unloadStep miv s ii).events =
      if ii.fname = name then cancel (queued name s.events) else queued name s.events := by
  cases hdel : del_pending_event ii.fname s.events with
  | some events =>
      obtain ⟨hpos, hq⟩ := queued_del_pending name hdel
      rw [unloadStep_deleted h hdel, hq, cancel]
      split
      · next hn => rw [← hn, if_pos (any_isSome.mpr hpos)]
      · rfl
  | none =>
      have hno := puts_of_del_pending hdel
      rw [unloadStep_enqueued h hdel, queued_unloaded rfl, cancel]
      split
      · next hn => rw [← hn, if_neg (fun hpos => Nat.ne_of_gt (any_isSome.mp hpos) hno)]
      · rfl

theorem mem_foldl_unloadStep :
    jj ∈ (L.foldl (d.unloadStep miv) s).dlls.list ↔
      jj ∈ s.dlls.list ∧ ∀ ii ∈ L, ii.base = jj.base → Mapped miv ii.fname := by
  induction L generalizing s with
  | nil => simp
  | cons ii L ih =>
      rw [List.foldl_cons, ih, List.forall_mem_cons]
      by_cases h : Mapped miv ii.fname
      · simp [unloadStep_of_mapped h, h]
      · rw [dlls_unloadStep h, images_t.mem_erase]
        simp only [h, imp_false]
        tauto

theorem queued_foldl_of_mapped (h : Mapped miv name) :
    queued name (L.foldl (d.unloadStep miv) s).events = queued name s.events := by
  induction L generalizing s with
  | nil => rfl
  | cons ii L ih =>
      rw [List.foldl_cons, ih]
      by_cases hi : Mapped miv ii.fname
      · rw [unloadStep_of_mapped hi]
      · rw [queued_unloadStep hi, if_neg (fun hn : ii.fname = name => hi (hn ▸ h))]

theorem queued_foldl_of_not_mapped (h : ¬Mapped miv name) :
    queued name (L.foldl (d.unloadStep miv) s).events =
      cancel^[L.countP fun ii => ii.fname = name] (queued name s.events) := by
  induction L generalizing s with
  | nil => rfl
  | cons ii L ih =>
      rw [List.foldl_cons, ih, List.countP_cons]
      by_cases hn : ii.fname = name
      · have hi : ¬Mapped miv ii.fname := hn ▸ h
        rw [queued_unloadStep hi, if_pos hn, if_pos (decide_eq_true hn), Function.iterate_succ_apply]
      · rw [if_neg (by simpa using hn), Nat.add_zero]
        by_cases hi : Mapped miv ii.fname
        · rw [unloadStep_of_mapped hi]
        · rw [queued_unloadStep hi, if_neg hn]

theorem mem_unload :
    jj ∈ (d.unload miv s).dlls.list ↔ jj ∈ s.dlls.list ∧ Mapped miv jj.fname := by
  rw [Process.unload, mem_foldl_unloadStep]
  refine and_congr_right fun hj => ?_
  constructor
  · intro h
    exact h jj hj rfl
  · intro h ii hi hb
    rw [images_t.eq_of_base hi hj hb]
    exact h

end Unload

/-! ### Loading -/

section Load

variable {d : Process} {s s' : State} {mi : memory_info_t} {rest L : List memory_info_t} {jj : image_info_t}

/-- The module is taken up. -/
structure Process.Takes (d : Process) (dlls : images_t) (mi : memory_info_t) : Prop where
  named : mi.name ≠ []
  notInput : d.is_dll = true ∨ mi.name ≠ d.input_file_path
  free : dlls.find mi.start_ea = none
  elf : d.read_memory mi.start_ea 4 = some ELFMAG

def Process.image (d : Process) (mi : memory_info_t) : image_info_t :=
  ⟨mi.start_ea, mi.end_ea - mi.start_ea, mi.name, d.get_soname mi.name⟩

theorem calc_module_size_eq (hlt : mi.start_ea < mi.end_ea) (hnames : ∀ mj ∈ rest, mi.name ≠ mj.name) :
    calc_module_size (mi :: rest) = .ok (mi.end_ea - mi.start_ea) := by
  have hloop : calc_module_size.loop mi.name mi.end_ea rest = mi.end_ea := by
    cases rest with
    | nil => rfl
    | cons mj rest => rw [calc_module_size.loop, if_pos (hnames mj List.mem_cons_self)]
  have hend : mi.end_ea ≠ 0 := Nat.ne_of_gt (Nat.lt_of_le_of_lt (Nat.zero_le _) hlt)
  rw [calc_module_size, if_neg hend, hloop]
  exact if_pos hlt

theorem load_of_not_takes (h : ¬d.Takes s.dlls mi) : d.load (mi :: rest) s = d.load rest s := by
  rw [Process.load]
  split
  · rfl
  rename_i hname
  split
  · rfl
  rename_i hinput
  split
  · rfl
  rename_i hfree
  split
  · rfl
  rename_i helf
  refine absurd ⟨hname, ?_, Option.not_isSome_iff_eq_none.mp hfree, not_not.mp helf⟩ h
  cases hd : d.is_dll with
  | true => exact .inl rfl
  | false => exact .inr fun hn => hinput ⟨by rw [hd]; rfl, hn⟩

theorem load_of_takes (h : d.Takes s.dlls mi) (hlt : mi.start_ea < mi.end_ea)
    (hnames : ∀ mj ∈ rest, mi.name ≠ mj.name) :
    d.load (mi :: rest) s =
      d.load rest (d.add_dll mi.start_ea (mi.end_ea - mi.start_ea) mi.name (d.get_soname mi.name) s) := by
  have hinput : ¬(!d.is_dll ∧ mi.name = d.input_file_path) := by
    rintro ⟨hd, hn⟩
    rcases h.notInput with hd' | hn'
    · rw [hd'] at hd
      exact absurd hd (by decide)
    · exact hn' hn
  rw [Process.load, if_neg h.named, if_neg hinput, h.free, if_neg (by decide), if_neg (not_not.mpr h.elf),
    calc_module_size_eq hlt hnames]
  rfl

theorem dlls_add_dll (base : ea_t) (size : asize_t) (modname soname : qstring) :
    (d.add_dll base size modname soname s).dlls = s.dlls.insert ⟨base, size, modname, soname⟩ := rfl

theorem queued_add_dll (base : ea_t) (size : asize_t) (modname soname name : qstring) :
    queued name (d.add_dll base size modname soname s).events =
      if modname = name then some (base, size) :: queued name s.events else queued name s.events := by
  have hev : (d.add_dll base size modname soname s).events =
      ⟨d.process_handle, d.process_handle, base, true, .LIB_LOADED ⟨modname, base, size,
        if d.is_dll ∧ d.input_file_path = modname then base else BADADDR⟩⟩ :: s.events := rfl
  rw [hev, queued_loaded rfl]

/-- What taking up the modules of a list does. -/
structure Process.Loaded (d : Process) (L : List memory_info_t) (s s' : State) : Prop where
  images : ∀ jj, jj ∈ s'.dlls.list ↔ jj ∈ s.dlls.list ∨ ∃ mi ∈ L, d.Takes s.dlls mi ∧ jj = d.image mi
  taken : ∀ mi ∈ L, d.Takes s.dlls mi →
    queued mi.name s'.events = some (mi.start_ea, mi.end_ea - mi.start_ea) :: queued mi.name s.events
  others : ∀ name, (∀ mi ∈ L, mi.name = name → ¬d.Takes s.dlls mi) → queued name s'.events = queued name s.events

theorem takes_insert (h : d.Takes s.dlls mi) {mj : memory_info_t} (hne : mi.start_ea ≠ mj.start_ea) :
    d.Takes (s.dlls.insert (d.image mi)) mj ↔ d.Takes s.dlls mj := by
  have hfree : (s.dlls.insert (d.image mi)).find mj.start_ea = none ↔ s.dlls.find mj.start_ea = none := by
    have hmem : ∀ jj, jj ∈ (s.dlls.insert (d.image mi)).list ↔ jj = d.image mi ∨ jj ∈ s.dlls.list :=
      fun _ => images_t.mem_insert h.free
    simp only [images_t.find_eq_none, hmem]
    constructor
    · intro hall jj hj
      exact hall jj (.inr hj)
    · rintro hall jj (rfl | hj)
      · exact hne
      · exact hall jj hj
  constructor
  · intro ht
    exact ⟨ht.named, ht.notInput, hfree.mp ht.free, ht.elf⟩
  · intro ht
    exact ⟨ht.named, ht.notInput, hfree.mpr ht.free, ht.elf⟩

theorem load_spec (hlt : ∀ mi ∈ L, mi.start_ea < mi.end_ea) (hnames : L.Pairwise fun a b => a.name ≠ b.name)
    (hstarts : L.Pairwise fun a b => a.start_ea ≠ b.start_ea) :
    ∃ s', d.load L s = .ok s' ∧ d.Loaded L s s' := by
  induction L generalizing s with
  | nil =>
      refine ⟨s, rfl, ?_, ?_, ?_⟩
      · simp
      · simp
      · simp
  | cons mi rest ih =>
      rw [List.pairwise_cons] at hnames hstarts
      rw [List.forall_mem_cons] at hlt
      by_cases h : d.Takes s.dlls mi
      · rw [load_of_takes h hlt.1 hnames.1]
        obtain ⟨s', hs', hl⟩ := ih (s := d.add_dll mi.start_ea (mi.end_ea - mi.start_ea) mi.name
          (d.get_soname mi.name) s) hlt.2 hnames.2 hstarts.2
        refine ⟨s', hs', ?_⟩
        have htakes : ∀ mj ∈ rest, d.Takes (d.add_dll mi.start_ea (mi.end_ea - mi.start_ea) mi.name
            (d.get_soname mi.name) s).dlls mj ↔ d.Takes s.dlls mj :=
          fun mj hmj => takes_insert h (hstarts.1 mj hmj)
        constructor
        · intro jj
          rw [hl.images, dlls_add_dll, images_t.mem_insert h.free, List.exists_mem_cons_iff]
          constructor
          · rintro ((rfl | hj) | ⟨mj, hmj, ht, rfl⟩)
            · exact .inr (.inl ⟨h, rfl⟩)
            · exact .inl hj
            · exact .inr (.inr ⟨mj, hmj, (htakes mj hmj).mp ht, rfl⟩)
          · rintro (hj | ⟨-, rfl⟩ | ⟨mj, hmj, ht, rfl⟩)
            · exact .inl (.inr hj)
            · exact .inl (.inl rfl)
            · exact .inr ⟨mj, hmj, (htakes mj hmj).mpr ht, rfl⟩
        · intro mj hmj ht
          rcases List.mem_cons.mp hmj with rfl | hmj
          · rw [hl.others _ fun mk hmk hn => absurd hn.symm (hnames.1 mk hmk), queued_add_dll, if_pos rfl]
          · rw [hl.taken mj hmj ((htakes mj hmj).mpr ht), queued_add_dll, if_neg (hnames.1 mj hmj)]
        · intro name hno
          rw [List.forall_mem_cons] at hno
          have hne : mi.name ≠ name := fun hn => hno.1 hn h
          rw [hl.others name fun mk hmk hn ht => hno.2 mk hmk hn ((htakes mk hmk).mp ht), queued_add_dll,
            if_neg hne]
      · rw [load_of_not_takes h]
        obtain ⟨s', hs', hl⟩ := ih (s := s) hlt.2 hnames.2 hstarts.2
        refine ⟨s', hs', ?_, ?_, ?_⟩
        · intro jj
          rw [hl.images, List.exists_mem_cons_iff]
          simp [h]
        · intro mj hmj ht
          rcases List.mem_cons.mp hmj with rfl | hmj
          · exact absurd ht h
          · exact hl.taken mj hmj ht
        · intro name hno
          exact hl.others name fun mk hmk => hno mk (List.mem_cons_of_mem _ hmk)

end Load

/-! ### The whole -/

section Whole

variable {d : Process} {map : MemoryMap} {delivered : List debug_event_t} {s s' : State} {name : qstring}
  {base : ea_t} {v : ea_t × asize_t}

/-- What `handle_dll_movements` did. -/
structure Process.Moved (d : Process) (map : MemoryMap) (s s' : State) : Prop where
  images : ∀ jj, jj ∈ s'.dlls.list ↔ (jj ∈ s.dlls.list ∧ Mapped map.ranges jj.fname) ∨
    ∃ mi ∈ merge map.ranges, d.Appears map s.dlls mi.name mi.start_ea ∧ jj = d.image mi
  appeared : ∀ mi ∈ merge map.ranges, d.Appears map s.dlls mi.name mi.start_ea →
    queued mi.name s'.events = some (mi.start_ea, mi.end_ea - mi.start_ea) :: queued mi.name s.events
  stayed : ∀ name, Mapped map.ranges name → (∀ base, ¬d.Appears map s.dlls name base) →
    queued name s'.events = queued name s.events
  vanished : ∀ name, ¬Mapped map.ranges name →
    queued name s'.events = cancel^[s.dlls.count name] (queued name s.events)

variable {mi : memory_info_t}

theorem takes_unload_iff (hmi : mi ∈ merge map.ranges) :
    d.Takes (d.unload (merge map.ranges) s).dlls mi ↔ d.Appears map s.dlls mi.name mi.start_ea := by
  have hfree : (d.unload (merge map.ranges) s).dlls.find mi.start_ea = none ↔
      ∀ ii ∈ s.dlls.list, Mapped map.ranges ii.fname → ii.base ≠ mi.start_ea := by
    simp only [images_t.find_eq_none, mem_unload, (merged map).mapped, and_imp]
  constructor
  · intro h
    exact ⟨h.named, (merged map).base mi hmi, h.elf, h.notInput, hfree.mp h.free⟩
  · intro h
    exact ⟨h.named, h.notInput, hfree.mpr h.free, h.elf⟩

theorem handle_dll_movements_spec (d : Process) (map : MemoryMap) (s : State) :
    ∃ s', d.handle_dll_movements map.ranges s = .ok s' ∧ d.Moved map s s' := by
  have hm := merged map
  have hstarts : (merge map.ranges).Pairwise fun a b => a.start_ea ≠ b.start_ea := by
    refine List.Pairwise.imp_of_mem ?_ hm.names
    intro a b ha hb hab heq
    have hb' := hm.base b hb
    rw [← heq] at hb'
    exact hab (MemoryMap.name_of_base (hm.base a ha) hb')
  obtain ⟨s', hs', hl⟩ := load_spec (d := d) (s := d.unload (merge map.ranges) s) hm.nonempty hm.names hstarts
  refine ⟨s', hs', ?_⟩
  constructor
  · intro jj
    rw [hl.images, mem_unload, hm.mapped]
    refine or_congr_right (exists_congr fun mi => and_congr_right fun hmi => ?_)
    rw [takes_unload_iff hmi]
  · intro mi hmi h
    have hmapped : Mapped (merge map.ranges) mi.name := ⟨mi, hmi, rfl⟩
    rw [hl.taken mi hmi ((takes_unload_iff hmi).mpr h), Process.unload, queued_foldl_of_mapped hmapped]
  · intro name hmapped hno
    rw [hl.others name, Process.unload, queued_foldl_of_mapped ((hm.mapped name).mpr hmapped)]
    intro mi hmi hn ht
    exact hno mi.start_ea (hn ▸ (takes_unload_iff hmi).mp ht)
  · intro name hmapped
    have hmapped' : ¬Mapped (merge map.ranges) name := mt (hm.mapped name).mp hmapped
    rw [hl.others name, Process.unload, queued_foldl_of_not_mapped hmapped']
    · rfl
    · intro mi hmi hn
      exact absurd ⟨mi, hmi, hn⟩ hmapped'

theorem mem_told_iff {events : List debug_event_t} :
    (name, v) ∈ told (delivered ++ events) ↔
      v ∈ replayAt {v | (name, v) ∈ told delivered} (queued name events) := by
  rw [told, log, List.filterMap_append, replay, List.foldl_append]
  exact mem_replay_iff

theorem mem_known_iff {dlls : images_t} :
    (name, v) ∈ dlls.known ↔ ∃ ii ∈ dlls.list, ii.fname = name ∧ (ii.base, ii.size) = v := by
  simp [images_t.known]

theorem Process.Moved.known_of_mapped (hm : d.Moved map s s') (h : Mapped map.ranges name) :
    (name, v) ∈ s'.dlls.known ↔ (name, v) ∈ s.dlls.known ∨
      ∃ mi ∈ merge map.ranges, d.Appears map s.dlls mi.name mi.start_ea ∧ mi.name = name ∧
        (mi.start_ea, mi.end_ea - mi.start_ea) = v := by
  simp only [mem_known_iff, hm.images]
  constructor
  · rintro ⟨ii, ⟨hi, -⟩ | ⟨mi, hmi, ha, rfl⟩, hn, hv⟩
    · exact .inl ⟨ii, hi, hn, hv⟩
    · exact .inr ⟨mi, hmi, ha, hn, hv⟩
  · rintro (⟨ii, hi, hn, hv⟩ | ⟨mi, hmi, ha, hn, hv⟩)
    · exact ⟨ii, .inl ⟨hi, hn ▸ h⟩, hn, hv⟩
    · exact ⟨d.image mi, .inr ⟨mi, hmi, ha, rfl⟩, hn, hv⟩

theorem Process.Moved.mapped (hm : d.Moved map s s') : ∀ ii ∈ s'.dlls.list, Mapped map.ranges ii.fname := by
  intro ii hi
  rcases (hm.images ii).mp hi with ⟨-, h⟩ | ⟨mi, hmi, -, rfl⟩
  · exact h
  · exact ((merged map).mapped _).mp ⟨mi, hmi, rfl⟩

variable (hpre : told (delivered ++ s.events) = s.dlls.known)
include hpre

theorem told_of_appears (hm : d.Moved map s s') (hmi : mi ∈ merge map.ranges)
    (ha : d.Appears map s.dlls mi.name mi.start_ea) :
    (∀ v, (mi.name, v) ∈ told (delivered ++ s'.events) ↔ (mi.name, v) ∈ s'.dlls.known) ↔
      none ∉ queued mi.name s.events := by
  have hmapped : Mapped map.ranges mi.name := ((merged map).mapped _).mp ⟨mi, hmi, rfl⟩
  have hold : ∀ v, (mi.name, v) ∈ s.dlls.known ↔
      v ∈ replayAt {v | (mi.name, v) ∈ told delivered} (queued mi.name s.events) := by
    intro v
    rw [← hpre, mem_told_iff]
  have hnew : ∀ v, (mi.name, v) ∈ s'.dlls.known ↔
      (mi.name, v) ∈ s.dlls.known ∨ v = (mi.start_ea, mi.end_ea - mi.start_ea) := by
    intro v
    rw [hm.known_of_mapped hmapped]
    refine or_congr_right ?_
    constructor
    · rintro ⟨mj, hmj, -, hn, hv⟩
      have heq : mj = mi := by
        by_contra hne
        have : Std.Symm fun a b : memory_info_t => a.name ≠ b.name := ⟨fun _ _ h => h.symm⟩
        exact (merged map).names.forall hmj hmi hne hn
      rw [← hv, heq]
    · intro hv
      exact ⟨mi, hmi, ha, rfl, hv.symm⟩
  simp only [mem_told_iff, hnew, hold, hm.appeared mi hmi ha, replayAt]
  constructor
  · intro h hno
    have hin := (h (mi.start_ea, mi.end_ea - mi.start_ea)).mpr (.inr rfl)
    -- behind an unload only the queue counts, and what it loads was known before
    rw [mem_replayAt_iff] at hin
    have hknown := (hold _).mpr (mem_replayAt_iff.mpr (.inl (hin.resolve_right fun hS => hS.2 hno)))
    obtain ⟨ii, hi, hn, hv⟩ := mem_known_iff.1 hknown
    exact ha.free ii hi (hn ▸ hmapped) (congrArg Prod.fst hv)
  · intro hno v
    rw [mem_replayAt_of_not_cleared hno, mem_replayAt_of_not_cleared hno, Set.mem_insert_iff]
    tauto

theorem told_of_vanished (hm : d.Moved map s s') {ii : image_info_t} (hi : ii ∈ s.dlls.list)
    (h : ¬Mapped map.ranges ii.fname) :
    (∀ v, (ii.fname, v) ∉ told (delivered ++ s'.events)) ↔
      puts (queued ii.fname s.events) < s.dlls.count ii.fname ∨
        (puts (queued ii.fname s.events) = s.dlls.count ii.fname ∧
          (none ∈ queued ii.fname s.events ∨ ∀ v, (ii.fname, v) ∉ told delivered)) := by
  have hne : replayAt {v | (ii.fname, v) ∈ told delivered} (queued ii.fname s.events) ≠ ∅ := by
    have hin : (ii.fname, (ii.base, ii.size)) ∈ s.dlls.known := ⟨ii, hi, rfl⟩
    rw [← hpre, mem_told_iff] at hin
    exact Set.nonempty_iff_ne_empty.mp ⟨_, hin⟩
  have hcancel := replayAt_cancel_iterate (s.dlls.count ii.fname) hne
  rw [Set.eq_empty_iff_forall_notMem, Set.eq_empty_iff_forall_notMem] at hcancel
  simp only [mem_told_iff, hm.vanished _ h]
  exact hcancel

theorem told_of_stayed (hm : d.Moved map s s') (h : Mapped map.ranges name)
    (hno : ∀ base, ¬d.Appears map s.dlls name base) :
    (name, v) ∈ told (delivered ++ s'.events) ↔ (name, v) ∈ s'.dlls.known := by
  rw [mem_told_iff, hm.stayed name h hno, ← mem_told_iff, hpre, hm.known_of_mapped h]
  constructor
  · exact .inl
  · rintro (hk | ⟨mi, -, ha, rfl, -⟩)
    · exact hk
    · exact absurd ha (hno _)

theorem not_told (hm : d.Moved map s s') (h : ¬Mapped map.ranges name)
    (hno : ∀ ii ∈ s.dlls.list, ii.fname ≠ name) : (name, v) ∉ told (delivered ++ s'.events) := by
  have hcount : s.dlls.count name = 0 := by
    rw [images_t.count, List.countP_eq_zero]
    intro ii hi
    simpa using hno ii hi
  rw [mem_told_iff, hm.vanished name h, hcount, Function.iterate_zero, id, ← mem_told_iff, hpre,
    mem_known_iff]
  rintro ⟨ii, hi, hn, -⟩
  exact hno ii hi hn

omit hpre in
theorem once_iff (hm : d.Moved map s s') (h : d.IsModule map name base) :
    (∃ ii ∈ s'.dlls.list, ii.base = base ∧ ∀ jj ∈ s'.dlls.list, jj.fname = name ↔ jj = ii) ↔
      ∀ ii ∈ s.dlls.list, Mapped map.ranges ii.fname → (ii.fname = name ↔ ii.base = base) := by
  constructor
  · rintro ⟨kk, hk, hkb, hall⟩ ii hi hmapped
    have hi' := (hm.images ii).mpr (.inl ⟨hi, hmapped⟩)
    rw [hall ii hi']
    constructor
    · rintro rfl
      exact hkb
    · intro hb
      exact images_t.eq_of_base hi' hk (hb.trans hkb.symm)
  · intro hall
    have hnew : ∀ mi ∈ merge map.ranges, d.Appears map s.dlls mi.name mi.start_ea →
        (mi.name = name ↔ mi.start_ea = base) := by
      intro mi _ ha
      constructor
      · intro hn
        exact (hn ▸ ha.isBase).unique h.isBase
      · intro hb
        exact MemoryMap.name_of_base (hb ▸ ha.isBase) h.isBase
    have hiff : ∀ jj ∈ s'.dlls.list, jj.fname = name ↔ jj.base = base := by
      intro jj hj
      rcases (hm.images jj).mp hj with ⟨hj, hmapped⟩ | ⟨mi, hmi, ha, rfl⟩
      · exact hall jj hj hmapped
      · exact hnew mi hmi ha
    have hex : ∃ ii ∈ s'.dlls.list, ii.base = base := by
      by_cases hk : ∃ ii ∈ s.dlls.list, Mapped map.ranges ii.fname ∧ ii.base = base
      · obtain ⟨ii, hi, hmapped, hb⟩ := hk
        exact ⟨ii, (hm.images ii).mpr (.inl ⟨hi, hmapped⟩), hb⟩
      obtain ⟨mi, hmi, hn, hb⟩ := exists_merged h.isBase
      have ha : d.Appears map s.dlls mi.name mi.start_ea := by
        rw [hn, hb]
        exact ⟨h.named, h.isBase, h.elf, .inr h.notInput,
          fun ii hi hmapped hib => hk ⟨ii, hi, hmapped, hib⟩⟩
      exact ⟨d.image mi, (hm.images _).mpr (.inr ⟨mi, hmi, ha, rfl⟩), hb⟩
    obtain ⟨ii, hi, hb⟩ := hex
    refine ⟨ii, hi, hb, fun jj hj => ?_⟩
    rw [hiff jj hj]
    constructor
    · intro hjb
      exact images_t.eq_of_base hj hi (hjb.trans hb.symm)
    · rintro rfl
      exact hb

theorem tracks_iff (hm : d.Moved map s s') :
    d.Tracks map delivered s' ↔ d.Orderly map delivered s := by
  constructor
  · intro ht
    constructor
    · intro name base ha
      obtain ⟨mi, hmi, rfl, rfl⟩ := exists_merged ha.isBase
      rw [← told_of_appears hpre hm hmi ha, ht.told]
      exact fun _ => Iff.rfl
    · intro name base h
      exact (once_iff hm h).mp (ht.once name base h)
    · intro ii hi h
      rw [← told_of_vanished hpre hm hi h, ht.told]
      intro v hv
      obtain ⟨jj, hj, hn, -⟩ := mem_known_iff.mp hv
      exact h (hn ▸ hm.mapped jj hj)
  · intro ho
    constructor
    · ext ⟨name, v⟩
      by_cases h : Mapped map.ranges name
      · by_cases ha : ∃ base, d.Appears map s.dlls name base
        · obtain ⟨base, ha⟩ := ha
          obtain ⟨mi, hmi, rfl, rfl⟩ := exists_merged ha.isBase
          exact (told_of_appears hpre hm hmi ha).mpr (ho.appears _ _ ha) v
        · exact told_of_stayed hpre hm h (not_exists.mp ha)
      · refine iff_of_false ?_ ?_
        · by_cases hk : ∃ ii ∈ s.dlls.list, ii.fname = name
          · obtain ⟨ii, hi, rfl⟩ := hk
            exact (told_of_vanished hpre hm hi h).mpr (ho.vanishes ii hi h) v
          · exact not_told hpre hm h fun ii hi hn => hk ⟨ii, hi, hn⟩
        · intro hv
          obtain ⟨jj, hj, hn, -⟩ := mem_known_iff.mp hv
          exact h (hn ▸ hm.mapped jj hj)
    · intro name base h
      exact (once_iff hm h).mpr (ho.stays name base h)
    · exact hm.mapped

/-- After `handle_dll_movements` the events tell the table and the table the map if and only if
what was queued and known before was orderly. The assertions always hold. -/
theorem tracks_of_orderly :
    ∃ s', d.handle_dll_movements map.ranges s = .ok s' ∧
      (d.Tracks map delivered s' ↔ d.Orderly map delivered s) := by
  obtain ⟨s', hs', hm⟩ := handle_dll_movements_spec d map s
  exact ⟨s', hs', tracks_iff hpre hm⟩

end Whole

section Example

def exampleName : qstring := [0x78]

def exampleProcess : Process where
  is_dll := false
  input_file_path := [0x61]
  process_handle := 1
  read_memory _ _ := some ELFMAG
  get_soname _ := []

def exampleMap : MemoryMap where
  ranges := [⟨0x1000, 0x2000, exampleName⟩]
  nonempty := by simp
  distinct := by simp

def exampleLoaded : debug_event_t := ⟨1, 1, 0x1000, true, .LIB_LOADED ⟨exampleName, 0x1000, 0x1000, BADADDR⟩⟩

def exampleUnloaded : debug_event_t := ⟨1, 1, BADADDR, true, .LIB_UNLOADED exampleName⟩

def emptyState : State := ⟨⟨[], List.Pairwise.nil⟩, [], true, []⟩

theorem tracks_of_orderly_first :
    ∃ s', exampleProcess.handle_dll_movements exampleMap.ranges emptyState = .ok s' ∧
      (exampleProcess.Tracks exampleMap [] s' ↔ exampleProcess.Orderly exampleMap [] emptyState) :=
  tracks_of_orderly (s := emptyState) (by simp [told, log, replay, images_t.known, emptyState])

/-- The library was loaded and is to be unloaded; before that is delivered it is mapped again. The
new event is put in front of the old one. -/
theorem not_tracks : ¬∀ (d : Process) (map : MemoryMap) (delivered : List debug_event_t) (s : State),
    told (delivered ++ s.events) = s.dlls.known →
      ∃ s', d.handle_dll_movements map.ranges s = .ok s' ∧ d.Tracks map delivered s' := by
  intro h
  obtain ⟨s', hs', ht⟩ := h exampleProcess exampleMap [exampleLoaded]
    { emptyState with events := [exampleUnloaded] }
    (by
      ext x
      simp only [told, log, logEntry, replay, Entry.apply, images_t.known, emptyState, exampleLoaded,
        exampleUnloaded, List.singleton_append, List.filterMap_cons, List.filterMap_nil, List.foldl_cons,
        List.foldl_nil, List.not_mem_nil, false_and, exists_false]
      refine iff_of_false (fun hx => ?_) (fun hx => hx)
      rcases hx.1 with rfl | hx'
      · exact hx.2 rfl
      · exact hx')
  have hrun : exampleProcess.handle_dll_movements exampleMap.ranges
      { emptyState with events := [exampleUnloaded] } =
      .ok ⟨⟨[⟨0x1000, 0x1000, exampleName, []⟩], List.pairwise_singleton _ _⟩,
        [exampleLoaded, exampleUnloaded], false, [0x1000]⟩ := rfl
  obtain rfl := Except.ok.inj (hrun.symm.trans hs')
  have hknown : (exampleName, ((0x1000 : ea_t), (0x1000 : asize_t))) ∈
      told ([exampleLoaded] ++ [exampleLoaded, exampleUnloaded]) := by
    rw [ht.told]
    exact ⟨_, List.mem_singleton_self _, rfl⟩
  simp [told, log, logEntry, replay, Entry.apply, exampleLoaded, exampleUnloaded] at hknown

end Example

end IdaSdk.LinuxModules
