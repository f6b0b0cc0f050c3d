import SleepyPenguin.Inotify.Record

-- The masks of watches and of events, by name.
namespace SleepyPenguin.Inotify

open Foundation

-- The numeric constants of the Inotify class.
inductive Name
  | ACCESS | MODIFY | ATTRIB | CLOSE_WRITE | CLOSE_NOWRITE | OPEN | MOVED_FROM | MOVED_TO
  | CREATE | DELETE | DELETE_SELF | MOVE_SELF | UNMOUNT | Q_OVERFLOW | IGNORED | ISDIR
  | ALL_EVENTS | CLOSE | MOVE | ONLYDIR | DONT_FOLLOW | EXCL_UNLINK | MASK_ADD | ONESHOT
  | NONBLOCK | CLOEXEC
  deriving DecidableEq, Repr

def Name.value : Name → Nat
  | .ACCESS => 0x00000001
  | .MODIFY => 0x00000002
  | .ATTRIB => 0x00000004
  | .CLOSE_WRITE => 0x00000008
  | .CLOSE_NOWRITE => 0x00000010
  | .OPEN => 0x00000020
  | .MOVED_FROM => 0x00000040
  | .MOVED_TO => 0x00000080
  | .CREATE => 0x00000100
  | .DELETE => 0x00000200
  | .DELETE_SELF => 0x00000400
  | .MOVE_SELF => 0x00000800
  | .UNMOUNT => 0x00002000
  | .Q_OVERFLOW => 0x00004000
  | .IGNORED => 0x00008000
  | .ISDIR => 0x40000000
  | .ALL_EVENTS => 0x00000fff
  | .CLOSE => 0x00000018
  | .MOVE => 0x000000c0
  | .ONLYDIR => 0x01000000
  | .DONT_FOLLOW => 0x02000000
  | .EXCL_UNLINK => 0x04000000
  | .MASK_ADD => 0x20000000
  | .ONESHOT => 0x80000000
  | .NONBLOCK => 0x00000800
  | .CLOEXEC => 0x00080000

-- What each IN2 pushes, in its order.
def checks : List Name :=
  [.ACCESS, .MODIFY, .ATTRIB, .CLOSE_WRITE, .CLOSE_NOWRITE, .OPEN, .MOVED_FROM, .MOVED_TO, .CREATE, .DELETE,
   .DELETE_SELF, .MOVE_SELF, .UNMOUNT, .Q_OVERFLOW, .IGNORED, .ISDIR]

def Name.sym (name : Name) : Sym := .integer name.value

-- Inotify::Event#events
def Event.events (e : Event) : List Name := checks.filter fun name => e.mask &&& name.value = name.value

-- rb_sys_fail where a system call fails.
def sysFail : Except Errno Nat → Except Err Nat
  | .ok rc => .ok rc
  | .error errno => .error (.sys errno)

-- What inotify_add_watch(2) answers to a descriptor, a path and a mask, and
-- inotify_rm_watch(2) to a descriptor and a watch, is `kernel`.
def addWatch (fileno : Except Err Fd) (path : Except Err (List Nat)) (vmask : Flags)
    (kernel : Fd → List Nat → Nat → Except Errno Nat) : Except Err Nat := do
  let fd ← fileno
  let pathname ← path
  let mask ← rbSpGetUflags vmask
  sysFail (kernel fd pathname mask)

def rmWatch (vwd : Int) (fileno : Except Err Fd) (kernel : Fd → Int → Except Errno Nat) :
    Except Err Nat := do
  let wd ← num2uint vwd
  let fd ← fileno
  sysFail (kernel fd (toInt32 wd))

-- The bits that have a name in `checks`.
def known : Nat := (checks.map Name.value).foldr (· ||| ·) 0

-- The one bit of a name in `checks`.
def Name.bit (name : Name) : Nat := name.value.log2

section Bits

variable {name other : Name} {mask : Nat}

theorem value_check (h : name ∈ checks) : name.value = 2 ^ name.bit := by
  revert name
  decide

theorem bit_check (h : name ∈ checks) (ho : other ∈ checks) : name.bit = other.bit ↔ name = other := by
  have hall : ∀ name ∈ checks, ∀ other ∈ checks, name.bit = other.bit ↔ name = other := by decide
  exact hall name h other ho

theorem testBit_check (h : name ∈ checks) (i : Nat) : name.value.testBit i = decide (name.bit = i) := by
  rw [value_check h, Nat.testBit_two_pow]

-- One check is one bit of the mask.
theorem check_iff (h : name ∈ checks) : mask &&& name.value = name.value ↔
    mask.testBit name.bit = true := by
  rw [value_check h]
  constructor
  · intro heq
    have hbit := congrArg (Nat.testBit · name.bit) heq
    simpa only [Nat.testBit_and, Nat.testBit_two_pow_self, Bool.and_true] using hbit
  · intro hbit
    apply Nat.eq_of_testBit_eq
    intro i
    rw [Nat.testBit_and, Nat.testBit_two_pow]
    by_cases hi : name.bit = i
    · simp [← hi, hbit]
    · simp [hi]

theorem events_eq (e : Event) : e.events = checks.filter fun name => e.mask.testBit name.bit := by
  refine List.filter_congr fun name hname => ?_
  rw [Bool.eq_iff_iff, decide_eq_true_eq]
  exact check_iff hname

theorem testBit_foldr (l : List Nat) (i : Nat) : (l.foldr (· ||| ·) 0).testBit i = l.any (·.testBit i) := by
  induction l with
  | nil => simp
  | cons n rest ih => rw [List.foldr_cons, Nat.testBit_or, ih, List.any_cons]

theorem testBit_known (i : Nat) : known.testBit i = checks.any fun name => name.bit = i := by
  rw [known, testBit_foldr, List.any_map]
  rw [Bool.eq_iff_iff, List.any_eq_true, List.any_eq_true]
  refine exists_congr fun name => and_congr_right fun hname => ?_
  rw [Function.comp_apply, testBit_check hname]

theorem value_lt (name : Name) : name.value < 0x100000000 := by
  cases name <;> decide

theorem element_sym (name : Name) : element num2uint (some name.sym) = .ok name.value := by
  rw [element, Name.sym, Sym.constGet, num2uint_mask name.value (value_lt name)]

end Bits

-- Names are always accepted.
theorem getAry_names (names : List Name) :
    ∃ mask, getAry num2uint 0 (names.map fun name => some name.sym) = .ok mask := by
  refine getAry_exists 0 fun e he => ?_
  obtain ⟨name, _, rfl⟩ := List.mem_map.mp he
  exact ⟨_, element_sym name⟩

theorem any_names {names : List Name} (h : ∀ name ∈ names, name ∈ checks) (i : Nat) :
    (names.map fun name => some name.sym).any (hasBit i) = names.any fun name => name.bit = i := by
  rw [List.any_map, Bool.eq_iff_iff, List.any_eq_true, List.any_eq_true]
  refine exists_congr fun name => and_congr_right fun hname => ?_
  rw [Function.comp_apply, hasBit_of_ok (element_sym name), testBit_check (h name hname)]

-- The names that stand for a mask are read back from an event that has it.
theorem events_of_names {names : List Name} {mask : Nat} (hnames : ∀ name ∈ names, name ∈ checks)
    (h : rbSpGetUflags (.ary (names.map fun name => some name.sym)) = .ok mask) {e : Event}
    (he : e.mask = mask) :
    e.events = checks.filter (· ∈ names) := by
  rw [events_eq, he]
  refine List.filter_congr fun name hname => ?_
  rw [(getAry_ok h).2, Nat.zero_testBit, Bool.false_or, any_names hnames, Bool.eq_iff_iff, List.any_eq_true,
    decide_eq_true_eq]
  constructor
  · rintro ⟨other, hother, hbit⟩
    rw [← (bit_check (hnames other hother) hname).mp (of_decide_eq_true hbit)]
    exact hother
  · intro hmem
    exact ⟨name, hmem, decide_eq_true rfl⟩

-- The names of an event stand for the bits of its mask that have one.
theorem uflags_of_events (e : Event) :
    rbSpGetUflags (.ary (e.events.map fun name => some name.sym)) = .ok (e.mask &&& known) := by
  obtain ⟨mask, hmask⟩ := getAry_names e.events
  have hnames : ∀ name ∈ e.events, name ∈ checks := fun name hname => List.mem_of_mem_filter hname
  refine hmask.trans (congrArg Except.ok (Nat.eq_of_testBit_eq fun i => ?_))
  rw [(getAry_ok hmask).2, Nat.zero_testBit, Bool.false_or, any_names hnames, Nat.testBit_and,
    testBit_known,
    events_eq, List.any_filter, Bool.eq_iff_iff, Bool.and_eq_true, List.any_eq_true, List.any_eq_true]
  constructor
  · rintro ⟨name, hname, hboth⟩
    obtain ⟨hmask, hi⟩ := Bool.and_eq_true_iff.mp hboth
    rw [← of_decide_eq_true hi]
    exact ⟨hmask, name, hname, decide_eq_true rfl⟩
  · rintro ⟨hbit, name, hname, hi⟩
    refine ⟨name, hname, Bool.and_eq_true_iff.mpr ⟨?_, hi⟩⟩
    rw [of_decide_eq_true hi]
    exact hbit

-- The watch of an event is the one that the kernel has written.
theorem rmWatch_wd (r : Record) (fd : Fd) (kernel : Fd → Int → Except Errno Nat) :
    rmWatch r.wd (.ok fd) kernel = sysFail (kernel fd r.wd) := by
  have hnum : num2uint r.wd = .ok (ofInt32 r.wd) := by
    have hint := r.int
    exact if_pos ⟨hint.1, by omega⟩
  simp only [rmWatch, hnum]
  show sysFail (kernel fd (toInt32 (ofInt32 r.wd))) = _
  rw [toInt32_ofInt32 r.int]

-- Watches are added by name, in any order and any number of times, and events
-- are named: either way round the bits are the same. An event also names the
-- watch that it came from.
theorem names_round_trip :
    (∀ fd path (names : List Name), (∀ name ∈ names, name ∈ checks) →
      ∃ mask, (∀ kernel, addWatch (.ok fd) (.ok path) (.ary (names.map fun name => some name.sym)) kernel =
          sysFail (kernel fd path mask)) ∧
        ∀ e : Event, e.mask = mask → e.events = checks.filter (· ∈ names)) ∧
    (∀ (elements : List (Option Sym)) mask, rbSpGetUflags (.ary elements) = .ok mask → ∀ e : Event,
      e.mask = mask →
      e.events = checks.filter fun name => elements.any (hasBit name.bit)) ∧
    ∀ (r : Record) rest fd,
      (∀ path kernel, addWatch (.ok fd) (.ok path)
          (.ary ((eventNew (r.encode ++ rest)).events.map fun name => some name.sym)) kernel =
        sysFail (kernel fd path (r.mask &&& known))) ∧
      ∀ kernel, rmWatch (eventNew (r.encode ++ rest)).wd (.ok fd) kernel = sysFail (kernel fd r.wd) := by
  refine ⟨fun fd path names hnames => ?_, fun elements mask hmask e he => ?_,
    fun r rest fd => ⟨fun path kernel => ?_, ?_⟩⟩
  · obtain ⟨mask, hmask⟩ := getAry_names names
    refine ⟨mask, fun kernel => ?_, fun e he => events_of_names hnames hmask he⟩
    simp only [addWatch, rbSpGetUflags, getFlags, hmask]
    rfl
  · rw [events_eq, he]
    refine List.filter_congr fun name _ => ?_
    rw [(getAry_ok hmask).2, Nat.zero_testBit, Bool.false_or]
  · rw [eventNew_encode]
    simp only [addWatch, uflags_of_events]
    rfl
  · rw [eventNew_encode]
    exact rmWatch_wd r fd

-- A name twice, a shortcut for two names, and an event with a bit that has none.
theorem names_round_trip_close :
    (∃ mask, (∀ kernel, addWatch (.ok 3) (.ok [47])
          (.ary ([.OPEN, .ACCESS, .OPEN].map fun name : Name => some name.sym)) kernel =
        sysFail (kernel 3 [47] mask)) ∧
        ∀ e : Event, e.mask = mask → e.events = [.ACCESS, .OPEN]) ∧
      (∀ e : Event, e.mask = 0x18 → e.events = [.CLOSE_WRITE, .CLOSE_NOWRITE]) ∧
      ∀ path kernel, addWatch (.ok 3) (.ok path)
          (.ary ((eventNew (Record.encode ⟨1, 0x1020, 0, [], by decide, by decide, by decide, by decide⟩ ++
            [])).events.map fun name => some name.sym)) kernel =
              sysFail (kernel 3 path (0x1020 &&& known)) := by
  obtain ⟨hnames, helements, hrecord⟩ := names_round_trip
  refine ⟨?_, fun e he => ?_, (hrecord _ [] 3).1⟩
  · exact hnames 3 [47] [.OPEN, .ACCESS, .OPEN] (by decide)
  · exact helements [some Name.CLOSE.sym] 0x18 (by decide) e he

end SleepyPenguin.Inotify
