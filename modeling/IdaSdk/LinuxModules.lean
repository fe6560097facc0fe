import Mathlib.Algebra.Group.Nat.Defs
import Mathlib.Tactic.Common
import IdaSdk.LibKeyedLog

/-!
Which modules the Linux server knows. `handle_dll_movements` compares the table of libraries with a
map of the process and puts what changed in front of the event queue. The events that were delivered
and those in the queue are a log; what the log says is compared with the table.
-/

namespace IdaSdk.LinuxModules

open KeyedLog

abbrev ea_t := Nat
abbrev asize_t := Nat
abbrev qstring := List UInt8

def BADADDR : ea_t := 2 ^ 64 - 1

/-! ### The model -/

structure memory_info_t where
  start_ea : ea_t
  end_ea : ea_t
  name : qstring
  deriving DecidableEq

def memory_info_t.extend (mi : memory_info_t) (ea : ea_t) : memory_info_t :=
  { mi with start_ea := min mi.start_ea ea, end_ea := max mi.end_ea ea }

structure image_info_t where
  base : ea_t
  size : asize_t
  fname : qstring
  soname : qstring
  deriving DecidableEq

/-- `std::map<ea_t, image_info_t>`: the images by increasing base, which is the key. -/
structure images_t where
  list : List image_info_t
  sorted : list.Pairwise fun a b => a.base < b.base

structure modinfo_t where
  name : qstring
  base : ea_t
  size : asize_t
  rebase_to : ea_t
  deriving DecidableEq

/-- The event id with what belongs to it. -/
inductive event_info_t where
  | NO_EVENT
  | LIB_LOADED (modinfo : modinfo_t)
  | LIB_UNLOADED (info : qstring)
  | other (eid : Nat)
  deriving DecidableEq

structure debug_event_t where
  pid : Int
  tid : Int
  ea : ea_t
  handled : Bool
  info : event_info_t
  deriving DecidableEq

abbrev eventlist_t := List debug_event_t

/-- What the server knows about its process. `read_memory ea n` is `none` where fewer than `n` bytes
are read. -/
structure Process where
  is_dll : Bool
  input_file_path : qstring
  process_handle : Int
  read_memory : ea_t → Nat → Option (List UInt8)
  get_soname : qstring → qstring

structure State where
  dlls : images_t
  events : eventlist_t
  may_run : Bool
  dlls_to_import : List ea_t

variable (dlls : images_t)

def images_t.find (base : ea_t) : Option image_info_t :=
  dlls.list.find? fun ii => ii.base = base

def images_t.erase (base : ea_t) : images_t :=
  ⟨dlls.list.filter fun ii => ii.base ≠ base, dlls.sorted.filter _⟩

/-- Where an image with this base is or would be. -/
def images_t.below (base : ea_t) : List image_info_t :=
  dlls.list.filter fun ii => ii.base < base

def images_t.above (base : ea_t) : List image_info_t :=
  dlls.list.filter fun ii => base < ii.base

theorem images_t.sorted_insert (ii : image_info_t) :
    (dlls.below ii.base ++ ii :: dlls.above ii.base).Pairwise fun a b => a.base < b.base := by
  rw [List.pairwise_append, List.pairwise_cons]
  refine ⟨dlls.sorted.filter _, ⟨?_, dlls.sorted.filter _⟩, ?_⟩
  · intro b hb
    exact of_decide_eq_true (List.mem_filter.mp hb).2
  intro a ha b hb
  have ha : a.base < ii.base := of_decide_eq_true (List.mem_filter.mp ha).2
  rcases List.mem_cons.mp hb with rfl | hb
  · exact ha
  · exact Nat.lt_trans ha (of_decide_eq_true (List.mem_filter.mp hb).2)

/-- An image whose base is taken is not inserted. -/
def images_t.insert (ii : image_info_t) : images_t :=
  if (dlls.find ii.base).isSome then dlls
  else ⟨dlls.below ii.base ++ ii :: dlls.above ii.base, dlls.sorted_insert ii⟩

inductive queue_pos_t where
  | IN_FRONT
  | IN_BACK

variable (ev : debug_event_t)

def enqueue_event (pos : queue_pos_t) (s : State) : State :=
  match ev.info, pos with
  | .NO_EVENT, _ => s
  | _, .IN_FRONT => { s with events := ev :: s.events, may_run := false }
  | _, .IN_BACK => { s with events := s.events ++ [ev], may_run := false }

/-- Whether the event is a `LIB_LOADED` of the module. -/
def debug_event_t.loads (module_name : qstring) : Bool :=
  match ev.info with
  | .LIB_LOADED modinfo => modinfo.name = module_name
  | _ => false

/-- `del_pending_event (LIB_LOADED, ·)`; `none` where nothing was deleted. -/
def del_pending_event (module_name : qstring) : eventlist_t → Option eventlist_t
  | [] => none
  | p :: events =>
      if p.loads module_name then some events
      else (del_pending_event module_name events).map (p :: ·)

variable (miv : List memory_info_t)

def find_first_mapping (name : qstring) : Option Nat :=
  miv.findIdx? fun mi => mi.name = name

def mergeStep (src : memory_info_t) : List memory_info_t :=
  match find_first_mapping miv src.name with
  | some i => miv.modify i fun target => (target.extend src.start_ea).extend src.end_ea
  | none => miv ++ [src]

def merge : List memory_info_t := miv.foldl mergeStep []

/-- The second loop. -/
def Process.unloadStep (d : Process) (miv : List memory_info_t) (s : State) (ii : image_info_t) : State :=
  match find_first_mapping miv ii.fname with
  | some _ => s
  | none =>
      let s := match del_pending_event ii.fname s.events with
        | some events => { s with events := events }
        | none => enqueue_event ⟨d.process_handle, d.process_handle, BADADDR, true,
            .LIB_UNLOADED ii.fname⟩ .IN_FRONT s
      { s with dlls := s.dlls.erase ii.base }

def Process.unload (d : Process) (miv : List memory_info_t) (s : State) : State :=
  s.dlls.list.foldl (d.unloadStep miv) s

def calc_module_size.loop (name : qstring) (last : ea_t) : List memory_info_t → ea_t
  | [] => last
  | mi :: rest => if name ≠ mi.name then last else calc_module_size.loop name mi.end_ea rest

/-- A pointer into the vector is the part of it that starts there. An assertion that does not hold
is its number. -/
def calc_module_size : List memory_info_t → Except Nat asize_t
  | [] => .error 30067
  | mi :: rest =>
      if mi.end_ea = 0 then .ok 0
      else
        let last := calc_module_size.loop mi.name mi.end_ea rest
        if last > mi.start_ea then .ok (last - mi.start_ea) else .error 30068

def Process.add_dll (d : Process) (base : ea_t) (size : asize_t) (modname soname : qstring) (s : State) : State :=
  let rebase_to := if d.is_dll ∧ d.input_file_path = modname then base else BADADDR
  let s := enqueue_event ⟨d.process_handle, d.process_handle, base, true,
    .LIB_LOADED ⟨modname, base, size, rebase_to⟩⟩ .IN_FRONT s
  { s with
    dlls := s.dlls.insert ⟨base, size, modname, soname⟩
    dlls_to_import := if base ∈ s.dlls_to_import then s.dlls_to_import else base :: s.dlls_to_import }

def ELFMAG : List UInt8 := [0x7F, 0x45, 0x4C, 0x46]

/-- The third loop. -/
def Process.load (d : Process) : List memory_info_t → State → Except Nat State
  | [], s => .ok s
  | mi :: rest, s =>
      if mi.name = [] then d.load rest s
      else if !d.is_dll ∧ mi.name = d.input_file_path then d.load rest s
      else if (s.dlls.find mi.start_ea).isSome then d.load rest s
      else if d.read_memory mi.start_ea 4 ≠ some ELFMAG then d.load rest s
      else do
        let size ← calc_module_size (mi :: rest)
        d.load rest (d.add_dll mi.start_ea size mi.name (d.get_soname mi.name) s)

def Process.handle_dll_movements (d : Process) (miv : List memory_info_t) (s : State) : Except Nat State :=
  d.load (merge miv) (d.unload (merge miv) s)

/-- A map as `get_memory_info` makes it: without empty ranges and without two of one start. -/
structure MemoryMap where
  ranges : List memory_info_t
  nonempty : ∀ mi ∈ ranges, mi.start_ea < mi.end_ea
  distinct : ranges.Pairwise fun a b => a.start_ea ≠ b.start_ea

def Mapped (ranges : List memory_info_t) (name : qstring) : Prop :=
  ∃ mi ∈ ranges, mi.name = name

/-- The lowest address at which something of the module is mapped. -/
def IsBase (ranges : List memory_info_t) (name : qstring) (base : ea_t) : Prop :=
  (∃ mi ∈ ranges, mi.name = name ∧ mi.start_ea = base) ∧
    ∀ mi ∈ ranges, mi.name = name → base ≤ mi.start_ea

/-- What an event tells about modules. -/
def logEntry : Option (Entry qstring (ea_t × asize_t)) :=
  match ev.info with
  | .LIB_LOADED modinfo => some (.put modinfo.name (modinfo.base, modinfo.size))
  | .LIB_UNLOADED name => some (.clear name)
  | _ => none

def log (events : List debug_event_t) : List (Entry qstring (ea_t × asize_t)) :=
  events.filterMap logEntry

/-- The modules, with base and size, that somebody knows who saw the events. -/
def told (events : List debug_event_t) : Set (qstring × ea_t × asize_t) :=
  replay ∅ (log events)

def images_t.known : Set (qstring × ea_t × asize_t) :=
  {x | ∃ ii ∈ dlls.list, (ii.fname, ii.base, ii.size) = x}

/-- A named ELF module of the map other than the input file. -/
structure Process.IsModule (d : Process) (map : MemoryMap) (name : qstring) (base : ea_t) : Prop where
  named : name ≠ []
  isBase : IsBase map.ranges name base
  elf : d.read_memory base 4 = some ELFMAG
  notInput : name ≠ d.input_file_path

/-- The events tell the table, and the table the modules of the map. -/
structure Process.Tracks (d : Process) (map : MemoryMap) (delivered : List debug_event_t) (s : State) : Prop where
  told : told (delivered ++ s.events) = s.dlls.known
  once : ∀ name base, d.IsModule map name base →
    ∃ ii ∈ s.dlls.list, ii.base = base ∧ ∀ jj ∈ s.dlls.list, jj.fname = name ↔ jj = ii
  mapped : ∀ ii ∈ s.dlls.list, Mapped map.ranges ii.fname

/-- A module that the third loop takes up: nothing the map still has is known at its base. -/
structure Process.Appears (d : Process) (map : MemoryMap) (dlls : images_t) (name : qstring) (base : ea_t) : Prop where
  named : name ≠ []
  isBase : IsBase map.ranges name base
  elf : d.read_memory base 4 = some ELFMAG
  notInput : d.is_dll = true ∨ name ≠ d.input_file_path
  free : ∀ ii ∈ dlls.list, Mapped map.ranges ii.fname → ii.base ≠ base

def queued (name : qstring) (events : List debug_event_t) : List (Option (ea_t × asize_t)) :=
  entriesAt name (log events)

def images_t.count (name : qstring) : Nat :=
  dlls.list.countP fun ii => ii.fname = name

/-- Nothing about a module that appears is to be unloaded; a known module of the map stands where it
is mapped and nothing else does; the queue loads a module that vanished less often than it is known,
or as often with nothing before that. -/
structure Process.Orderly (d : Process) (map : MemoryMap) (delivered : List debug_event_t) (s : State) : Prop where
  appears : ∀ name base, d.Appears map s.dlls name base → none ∉ queued name s.events
  stays : ∀ name base, d.IsModule map name base →
    ∀ ii ∈ s.dlls.list, Mapped map.ranges ii.fname → (ii.fname = name ↔ ii.base = base)
  vanishes : ∀ ii ∈ s.dlls.list, ¬Mapped map.ranges ii.fname →
    puts (queued ii.fname s.events) < s.dlls.count ii.fname ∨
      (puts (queued ii.fname s.events) = s.dlls.count ii.fname ∧
        (none ∈ queued ii.fname s.events ∨ ∀ v, (ii.fname, v) ∉ told delivered))

end IdaSdk.LinuxModules
