import SleepyPenguin.Foundation.Run
import SleepyPenguin.TimerFD
import Mathlib.Logic.Function.Basic

-- The constructors that make a descriptor: Epoll::IO, Kqueue::IO, EventFD,
-- TimerFD and Inotify, in a process that opens, closes and forgets others.
namespace SleepyPenguin.Creation

open Foundation TimerFD

-- What the headers and the C library had when the extension was built.
structure Build where
  fixCloexec : Bool
  epollCreate1 : Bool
  inotifyInit1 : Bool
  deriving DecidableEq, Repr

-- O_CLOEXEC and O_NONBLOCK, which the flags of all classes are.
def cloexecFlag : BitVec 32 := 0x80000

def nonblockFlag : BitVec 32 := 0x800

def efdSemaphore : BitVec 32 := 1

def Build.rbSpCloexec (b : Build) (flag : BitVec 32) : BitVec 32 := if b.fixCloexec then flag else 0

def has (flags flag : BitVec 32) : Bool := flags &&& flag != 0

def within (flags allowed : BitVec 32) : Bool := flags &&& ~~~allowed == 0

inductive File
  | epoll
  | kqueue
  | eventfd (count : Nat) (semaphore : Bool)
  | timerfd (clockid : BitVec 32)
  | inotify
  | other
  deriving DecidableEq, Repr

structure Descriptor where
  file : File
  cloexec : Bool
  nonblock : Bool
  deriving DecidableEq, Repr

-- An IO that holds a descriptor. One that the program can no longer reach waits
-- for the garbage collector.
structure Object where
  fd : Fd
  reachable : Bool
  deriving DecidableEq, Repr

-- A process with RLIMIT_NOFILE. No IO holds the descriptors in `stray`.
structure Process where
  limit : Nat
  table : Fd → Option Descriptor
  objects : List Object
  stray : List Fd

def Process.held (p : Process) : List Fd := p.objects.map Object.fd ++ p.stray

def Process.live (p : Process) : List Fd := (p.objects.filter Object.reachable).map Object.fd ++ p.stray

def Process.garbage (p : Process) : List Fd := (p.objects.filter fun o => !o.reachable).map Object.fd

-- Every open descriptor is the one of one IO or a stray one.
structure Owned (p : Process) : Prop where
  nodup : p.held.Nodup
  isSome : ∀ fd, (p.table fd).isSome ↔ fd ∈ p.held

-- The lowest number that is free.
def Process.lowest (p : Process) : Option Fd := (List.range p.limit).find? fun fd => (p.table fd).isNone

def Process.put (p : Process) (fd : Fd) (d : Option Descriptor) : Process :=
  { p with table := Function.update p.table fd d }

-- What a creation comes to: a descriptor, -1, or rb_sys_fail at once.
inductive Result
  | fd (fd : Fd)
  | failed (errno : Errno)
  | raised (errno : Errno)
  deriving DecidableEq, Repr

-- A new descriptor, where the kernel has no reason of its own to refuse it.
def Process.install (p : Process) (d : Descriptor) : Option Errno → Result × Process
  | some errno => (.failed errno, p)
  | none =>
      match p.lowest with
      | none => (.failed .EMFILE, p)
      | some fd => (.fd fd, p.put fd (some d))

-- A creation with flags: those it does not know are EINVAL.
def Process.create (p : Process) (valid : Bool) (d : Descriptor) (fails : Option Errno) :
    Result × Process :=
  if valid then p.install d fails else (.failed .EINVAL, p)

def Process.fcntl (p : Process) (fd : Fd) (change : Descriptor → Descriptor) : Option Errno →
    Except Errno Process
  | some errno => .error errno
  | none => .ok (p.put fd ((p.table fd).map change))

def setCloexec (d : Descriptor) : Descriptor := { d with cloexec := true }

def setNonblock (d : Descriptor) : Descriptor := { d with nonblock := true }

-- The outcomes of the system calls of one attempt; `none` where one does what
-- it is asked for.
structure Answers where
  create : Option Errno
  setfd : Option Errno
  getfl : Option Errno
  setfl : Option Errno
  deriving DecidableEq, Repr

def myEpollCreate1 (flags : BitVec 32) (a : Answers) (p : Process) : Result × Process :=
  match p.install ⟨.epoll, false, false⟩ a.create with
  | (.fd fd, p) =>
      if flags = 0 then (.fd fd, p)
      else if has flags cloexecFlag then
        match p.fcntl fd setCloexec a.setfd with
        | .ok p => (.fd fd, p)
        | .error errno => (.failed errno, p.put fd none)
      else (.fd fd, p)
  | (result, p) => (result, p)

def epollCreate1 (b : Build) (flags : BitVec 32) (a : Answers) (p : Process) : Result × Process :=
  if b.epollCreate1 then
    p.create (within flags cloexecFlag) ⟨.epoll, has flags cloexecFlag, false⟩ a.create
  else myEpollCreate1 flags a p

-- The fcntls of my_inotify_init1.
def inotifyCloexec (flags : BitVec 32) (a : Answers) (fd : Fd) (p : Process) : Except Errno Process :=
  if has flags cloexecFlag then p.fcntl fd setCloexec a.setfd else .ok p

def inotifyNonblock (flags : BitVec 32) (a : Answers) (fd : Fd) (p : Process) : Except Errno Process :=
  if has flags nonblockFlag then
    match a.getfl with
    | some errno => .error errno
    | none => p.fcntl fd setNonblock a.setfl
  else .ok p

def inotifyFcntls (flags : BitVec 32) (a : Answers) (fd : Fd) (p : Process) : Except Errno Process := do
  let p ← inotifyCloexec flags a fd p
  inotifyNonblock flags a fd p

def myInotifyInit1 (flags : BitVec 32) (a : Answers) (p : Process) : Result × Process :=
  match p.install ⟨.inotify, false, false⟩ a.create with
  | (.fd fd, p) =>
      match inotifyFcntls flags a fd p with
      | .ok p => (.fd fd, p)
      | .error errno => (.raised errno, p.put fd none)
  | (result, p) => (result, p)

def inotifyInit1 (b : Build) (flags : BitVec 32) (a : Answers) (p : Process) : Result × Process :=
  if b.inotifyInit1 then
    p.create (within flags (cloexecFlag ||| nonblockFlag))
      ⟨.inotify, has flags cloexecFlag, has flags nonblockFlag⟩ a.create
  else myInotifyInit1 flags a p

def eventfd (initval : Nat) (flags : BitVec 32) (a : Answers) (p : Process) : Result × Process :=
  p.create (within flags (cloexecFlag ||| nonblockFlag ||| efdSemaphore))
    ⟨.eventfd initval (has flags efdSemaphore), has flags cloexecFlag, has flags nonblockFlag⟩ a.create

def clocks : List (BitVec 32) := [0, 1, 7, 8, 9]

def clockMonotonic : BitVec 32 := 1

def timerfdCreate (clockid flags : BitVec 32) (a : Answers) (p : Process) : Result × Process :=
  p.create (clocks.contains clockid && within flags (cloexecFlag ||| nonblockFlag))
    ⟨.timerfd clockid, has flags cloexecFlag, has flags nonblockFlag⟩ a.create

def kqueue (a : Answers) (p : Process) : Result × Process := p.install ⟨.kqueue, false, false⟩ a.create

-- rb_gc closes what no IO that can be reached holds.
def Process.rbGc (p : Process) : Process :=
  { p with
    table := fun fd => if fd ∈ p.garbage then none else p.table fd
    objects := p.objects.filter Object.reachable }

-- rb_call_super either makes the IO or raises, before or after the new IO has
-- taken the descriptor.
inductive Super
  | made
  | raised (e : Err) (taken : Bool)
  deriving DecidableEq, Repr

def Process.callSuper (p : Process) (fd : Fd) : Super → Except Err Fd × Process
  | .made => (.ok fd, { p with objects := p.objects ++ [⟨fd, true⟩] })
  | .raised e true => (.error e, { p with objects := p.objects ++ [⟨fd, false⟩] })
  | .raised e false => (.error e, { p with stray := p.stray ++ [fd] })

-- What the world answers to one constructor.
structure World where
  first : Answers
  second : Answers
  getfd : Option Errno
  setfd : Option Errno
  super : Super
  deriving DecidableEq, Repr

-- The part all constructors have: an attempt, another one after a garbage
-- collection, and rb_call_super.
def sNew (retries : Errno → Bool) (attempt : Answers → Process → Result × Process)
    (finish : Fd → Process → Process) (w : World) (p : Process) : Except Err Fd × Process :=
  match attempt w.first p with
  | (.fd fd, p) => (finish fd p).callSuper fd w.super
  | (.raised errno, p) => (.error (.sys errno), p)
  | (.failed errno, p) =>
      if retries errno then
        match attempt w.second p.rbGc with
        | (.fd fd, p) => (finish fd p).callSuper fd w.super
        | (.raised errno, p) | (.failed errno, p) => (.error (.sys errno), p)
      else (.error (.sys errno), p)

def Epoll.sNew (b : Build) (flags : Flags) (w : World) (p : Process) : Except Err Fd × Process :=
  match rbSpGetFlags flags (b.rbSpCloexec cloexecFlag) with
  | .error e => (.error e, p)
  | .ok flags => Creation.sNew rbSpGcForFd (epollCreate1 b flags) (fun _ p => p) w p

def EventFD.sNew (b : Build) (initval : EventArg) (flags : Flags) (w : World) (p : Process) :
    Except Err Fd × Process :=
  match initval.toUint with
  | .error e => (.error e, p)
  | .ok initval =>
      match rbSpGetFlags flags (b.rbSpCloexec cloexecFlag) with
      | .error e => (.error e, p)
      | .ok flags => Creation.sNew rbSpGcForFd (eventfd initval flags) (fun _ p => p) w p

def clockid : Flags → Except Err (BitVec 32)
  | .nil => .ok clockMonotonic
  | cid => rbSpGetFlags cid 0

def TimerFD.sNew (b : Build) (cid fl : Flags) (w : World) (p : Process) : Except Err Fd × Process :=
  match clockid cid with
  | .error e => (.error e, p)
  | .ok clockid =>
      match rbSpGetFlags fl (b.rbSpCloexec cloexecFlag) with
      | .error e => (.error e, p)
      | .ok flags => Creation.sNew rbSpGcForFd (timerfdCreate clockid flags) (fun _ p => p) w p

def Inotify.sNew (b : Build) (flags : Flags) (w : World) (p : Process) : Except Err Fd × Process :=
  match rbSpGetFlags flags (b.rbSpCloexec cloexecFlag) with
  | .error e => (.error e, p)
  | .ok flags => Creation.sNew rbSpGcForFd (inotifyInit1 b flags) (fun _ p => p) w p

-- F_GETFD and F_SETFD may fail unnoticed.
def kqueueCloexec (w : World) (fd : Fd) (p : Process) : Process :=
  if w.getfd = none ∧ w.setfd = none then p.put fd ((p.table fd).map setCloexec) else p

def Kqueue.sNew (w : World) (p : Process) : Except Err Fd × Process :=
  Creation.sNew (fun _ => true) kqueue (kqueueCloexec w) w p

-- A constructor with its arguments.
inductive Call
  | epoll (flags : Flags)
  | eventfd (initval : EventArg) (flags : Flags)
  | timerfd (cid fl : Flags)
  | inotify (flags : Flags)
  | kqueue
  deriving DecidableEq, Repr

def construct (b : Build) : Call → World → Process → Except Err Fd × Process
  | .epoll flags => Epoll.sNew b flags
  | .eventfd initval flags => EventFD.sNew b initval flags
  | .timerfd cid fl => TimerFD.sNew b cid fl
  | .inotify flags => Inotify.sNew b flags
  | .kqueue => Kqueue.sNew

-- What may happen next: a constructor is called, the program opens something
-- else, an IO is closed (by the program or the collector), the program loses its
-- last reference to one, or changes the flags of a descriptor.
inductive Event
  | new (call : Call) (w : World)
  | open (d : Descriptor) (fails : Option Errno)
  | close (i : Nat)
  | drop (i : Nat)
  | fcntl (i : Nat) (cloexec nonblock : Bool)

def step (b : Build) (p : Process) : Event → Option Process
  | .new call w => some (construct b call w p).2
  | .open d fails =>
      match p.install d fails with
      | (.fd fd, p) => some { p with objects := p.objects ++ [⟨fd, true⟩] }
      | (_, p) => some p
  | .close i => p.objects[i]?.map fun o => { p.put o.fd none with objects := p.objects.eraseIdx i }
  | .drop i => p.objects[i]?.map fun o =>
    { p with objects := p.objects.set i { o with reachable := false } }
  | .fcntl i cloexec nonblock =>
      p.objects[i]?.map fun o => p.put o.fd ((p.table o.fd).map fun d => ⟨d.file, cloexec, nonblock⟩)

-- What a call asks for, and whether the system call takes its flags.
def Call.wanted (b : Build) : Call → Except Err (Descriptor × Bool)
  | .epoll flags => do
      let flags ← rbSpGetFlags flags (b.rbSpCloexec cloexecFlag)
      .ok (⟨.epoll, has flags cloexecFlag, false⟩, within flags cloexecFlag)
  | .eventfd initval flags => do
      let initval ← initval.toUint
      let flags ← rbSpGetFlags flags (b.rbSpCloexec cloexecFlag)
      .ok (⟨.eventfd initval (has flags efdSemaphore), has flags cloexecFlag, has flags nonblockFlag⟩,
        within flags (cloexecFlag ||| nonblockFlag ||| efdSemaphore))
  | .timerfd cid fl => do
      let clockid ← clockid cid
      let flags ← rbSpGetFlags fl (b.rbSpCloexec cloexecFlag)
      .ok (⟨.timerfd clockid, has flags cloexecFlag, has flags nonblockFlag⟩,
        clocks.contains clockid && within flags (cloexecFlag ||| nonblockFlag))
  | .inotify flags => do
      let flags ← rbSpGetFlags flags (b.rbSpCloexec cloexecFlag)
      .ok (⟨.inotify, has flags cloexecFlag, has flags nonblockFlag⟩,
        within flags (cloexecFlag ||| nonblockFlag))
  | .kqueue => .ok (⟨.kqueue, true, false⟩, true)

-- Which errors of the first attempt are worth a garbage collection.
def Call.retries : Call → Errno → Bool
  | .kqueue => fun _ => true
  | _ => rbSpGcForFd

def Answers.clear (a : Answers) : Prop := a.setfd = none ∧ a.getfl = none ∧ a.setfl = none

-- No fcntl of an attempt fails.
def World.clear (w : World) : Prop := w.first.clear ∧ w.second.clear

-- Nor does one that the call would not notice.
def World.finished (w : World) (call : Call) : Prop := call = .kqueue → w.getfd = none ∧ w.setfd = none

-- What a constructor does in a process, whatever the world answers: the IO it
-- returns owns a new descriptor, of the kind and with the flags that were asked
-- for; no descriptor that is in use is touched; one is lost only where
-- rb_call_super raises before there is an IO for it. Where the kernel has no
-- reason of its own to refuse, garbage never is one: the call fails only if all
-- numbers are in use. And it makes no difference which system calls there are.
structure Constructs (b : Build) (p : Process) (call : Call) (w : World) : Prop where
  made : ∀ fd p', construct b call w p = (.ok fd, p') →
    fd ∉ p.live ∧ ⟨fd, true⟩ ∈ p'.objects ∧ ∃ wanted d, call.wanted b = .ok wanted ∧ p'.table fd = some d ∧
      (w.finished call → d = wanted.1)
  kept : ∀ fd ∈ p.live, fd ∈ (construct b call w p).2.live ∧ (construct b call w p).2.table fd = p.table fd
  lost : (construct b call w p).2.stray = p.stray ∨
    ∃ fd e, w.super = .raised e false ∧ (construct b call w p).1 = .error e ∧
      (construct b call w p).2.stray = p.stray ++ [fd]
  room : ∀ d, call.wanted b = .ok (d, true) → w.clear →
    (∀ errno, w.first.create = some errno → call.retries errno) →
    w.second.create = none → w.super = .made →
      ((construct b call w p).1.isOk ↔ ∃ fd < p.limit, fd ∉ p.live) ∧
        ∀ e, (construct b call w p).1 = .error e → e = .sys .EMFILE
  agrees : ∀ c d, c.fixCloexec = b.fixCloexec → call.wanted b = .ok (d, true) → w.clear →
    construct c call w p = construct b call w p

section Table

variable {p p' : Process} {fd : Fd} {d : Descriptor}

@[simp] theorem put_table (p : Process) (fd : Fd) (d : Option Descriptor) :
    (p.put fd d).table = Function.update p.table fd d := rfl

@[simp] theorem put_put (p : Process) (fd : Fd) (d d' : Option Descriptor) :
    (p.put fd d).put fd d' = p.put fd d' := by
  simp [Process.put]

theorem put_same {d : Option Descriptor} (h : p.table fd = d) : p.put fd d = p := by
  simp [Process.put, ← h]

theorem lowest_some (h : p.lowest = some fd) : fd < p.limit ∧ p.table fd = none := by
  have hfree := List.find?_some h
  have hmem := List.mem_of_find?_eq_some h
  exact ⟨List.mem_range.mp hmem, Option.isNone_iff_eq_none.mp hfree⟩

theorem lowest_isSome_iff : p.lowest.isSome ↔ ∃ fd < p.limit, p.table fd = none := by
  simp [Process.lowest, List.find?_isSome]

theorem Owned.free_iff (h : Owned p) : p.table fd = none ↔ fd ∉ p.held := by
  rw [← h.isSome, Option.not_isSome_iff_eq_none]

theorem Owned.add (h : Owned p) (hfree : p.table fd = none) (hheld : p'.held.Perm (fd :: p.held))
    (htable : p'.table = Function.update p.table fd (some d)) : Owned p' := by
  have hnew := h.free_iff.mp hfree
  refine ⟨hheld.nodup_iff.mpr (List.nodup_cons.mpr ⟨hnew, h.nodup⟩), fun other => ?_⟩
  rw [hheld.mem_iff, List.mem_cons, htable]
  by_cases hother : other = fd
  · simp [hother]
  · rw [Function.update_of_ne hother, h.isSome]
    simp [hother]

theorem Owned.remove (h : Owned p) (hheld : p.held.Perm (fd :: p'.held))
    (htable : p'.table = Function.update p.table fd none) : Owned p' := by
  obtain ⟨hgone, hnodup⟩ := List.nodup_cons.mp (hheld.nodup_iff.mp h.nodup)
  refine ⟨hnodup, fun other => ?_⟩
  rw [htable]
  by_cases hother : other = fd
  · simp [hother, hgone]
  · rw [Function.update_of_ne hother, h.isSome, hheld.mem_iff]
    simp [hother]

theorem Owned.change (h : Owned p) (hheld : p'.held = p.held)
    (htable : ∀ fd, (p'.table fd).isSome = (p.table fd).isSome) : Owned p' :=
  ⟨hheld ▸ h.nodup, fun fd => by rw [htable, h.isSome, hheld]⟩

-- What the collector closes, and what it leaves.
theorem held_perm (p : Process) : p.held.Perm (p.garbage ++ p.live) := by
  have hsplit := List.filter_append_perm Object.reachable p.objects
  have hfds := (hsplit.symm.trans List.perm_append_comm).map Object.fd
  rw [List.map_append] at hfds
  unfold Process.held Process.garbage Process.live
  rw [← List.append_assoc]
  exact hfds.append_right p.stray

@[simp] theorem rbGc_live (p : Process) : p.rbGc.live = p.live := by
  simp [Process.rbGc, Process.live, List.filter_filter]

theorem rbGc_held (p : Process) : p.rbGc.held = p.live := rfl

theorem live_subset (p : Process) : p.live ⊆ p.held := fun _ h =>
  (held_perm p).mem_iff.mpr (List.mem_append_right _ h)

theorem Owned.live_disjoint (h : Owned p) (hfd : fd ∈ p.live) : fd ∉ p.garbage := fun hgarbage =>
  (List.nodup_append.mp ((held_perm p).nodup_iff.mp h.nodup)).2.2 fd hgarbage fd hfd rfl

theorem Owned.rbGc_table (h : Owned p) (hfd : fd ∈ p.live) : p.rbGc.table fd = p.table fd :=
  if_neg (h.live_disjoint hfd)

theorem Owned.rbGc (h : Owned p) : Owned p.rbGc := by
  refine ⟨(List.nodup_append.mp ((held_perm p).nodup_iff.mp h.nodup)).2.1, fun fd => ?_⟩
  rw [rbGc_held]
  by_cases hlive : fd ∈ p.live
  · rw [h.rbGc_table hlive, h.isSome]
    exact ⟨fun _ => hlive, fun _ => live_subset p hlive⟩
  · have hnone : p.rbGc.table fd = none := by
      show (if fd ∈ p.garbage then none else p.table fd) = none
      split
      · rfl
      · rename_i hgarbage
        refine h.free_iff.mpr fun hheld => ?_
        rcases List.mem_append.mp ((held_perm p).mem_iff.mp hheld) with hfd | hfd
        · exact hgarbage hfd
        · exact hlive hfd
    simp [hnone, hlive]

end Table

-- What an attempt at a descriptor may do: find one or leave everything as it
-- was. Where its flags are taken and no fcntl fails it is the system call alone.
structure Attempts (attempt : Answers → Process → Result × Process) (d : Descriptor)
    (valid : Bool) : Prop where
  cases : ∀ a p, (∃ fd, p.lowest = some fd ∧ attempt a p = (.fd fd, p.put fd (some d))) ∨
    ∃ result, (∀ fd, result ≠ .fd fd) ∧ attempt a p = (result, p)
  clear : valid = true → ∀ a p, a.clear → attempt a p = p.install d a.create

section Attempt

variable (p : Process) (d : Descriptor) (fails : Option Errno)

theorem install_cases : (∃ fd, p.lowest = some fd ∧ p.install d fails = (.fd fd, p.put fd (some d))) ∨
    ∃ errno, p.install d fails = (.failed errno, p) ∧
      (fails = some errno ∨ fails = none ∧ errno = .EMFILE ∧ p.lowest = none) := by
  cases fails with
  | some errno => exact Or.inr ⟨errno, rfl, Or.inl rfl⟩
  | none =>
      cases hlowest : p.lowest with
      | none => exact Or.inr ⟨.EMFILE, by simp [Process.install, hlowest], Or.inr ⟨rfl, rfl, rfl⟩⟩
      | some fd => exact Or.inl ⟨fd, rfl, by simp [Process.install, hlowest]⟩

-- The outcome does not depend on what the descriptor is for.
theorem install_eq : (∃ fd, ∀ d, p.install d fails = (.fd fd, p.put fd (some d))) ∨
    ∃ errno, ∀ d, p.install d fails = (.failed errno, p) := by
  cases fails with
  | some errno => exact Or.inr ⟨errno, fun _ => rfl⟩
  | none =>
      cases hlowest : p.lowest with
      | none => exact Or.inr ⟨.EMFILE, fun d => by simp [Process.install, hlowest]⟩
      | some fd => exact Or.inl ⟨fd, fun d => by simp [Process.install, hlowest]⟩

theorem create_attempts (valid : Bool) : Attempts (fun a p => p.create valid d a.create) d valid := by
  refine ⟨fun a p => ?_, fun hvalid a p _ => by rw [hvalid]; rfl⟩
  cases valid with
  | false => exact Or.inr ⟨.failed .EINVAL, by rintro fd ⟨⟩, rfl⟩
  | true =>
      rcases install_cases p d a.create with hfd | ⟨errno, hfailed, _⟩
      · exact Or.inl hfd
      · exact Or.inr ⟨.failed errno, by rintro fd ⟨⟩, hfailed⟩

theorem kqueue_attempts : Attempts kqueue ⟨.kqueue, false, false⟩ true := create_attempts _ true

-- A descriptor that is closed again leaves the table as it was.
theorem put_back {p : Process} {fd : Fd} {d : Option Descriptor} (h : p.lowest = some fd) :
    (p.put fd d).put fd none = p := by
  rw [put_put, put_same (lowest_some h).2]

theorem fcntl_put {p : Process} {fd : Fd} (change : Descriptor → Descriptor) :
    (p.put fd (some d)).fcntl fd change fails =
      match fails with
      | some errno => .error errno
      | none => .ok (p.put fd (some (change d))) := by
  cases fails with
  | some errno => rfl
  | none => simp [Process.fcntl]

theorem myEpollCreate1_attempts (flags : BitVec 32) (valid : Bool) :
    Attempts (myEpollCreate1 flags) ⟨.epoll, has flags cloexecFlag, false⟩ valid := by
  have hzero : flags = 0#32 → has flags cloexecFlag = false := by
    rintro rfl
    rfl
  constructor
  · intro a p
    unfold myEpollCreate1
    rcases install_cases p ⟨.epoll, false, false⟩ a.create with ⟨fd, hlowest, hfd⟩ | ⟨errno, hfailed, _⟩
    · simp only [hfd, fcntl_put]
      by_cases hflag : has flags cloexecFlag = true
      · have hne : flags ≠ 0#32 := fun h => by simp [hzero h] at hflag
        cases a.setfd with
        | none => exact Or.inl ⟨fd, hlowest, by simp [hne, hflag, setCloexec]⟩
        | some errno =>
            refine Or.inr ⟨.failed errno, by rintro fd ⟨⟩, ?_⟩
            simp [hne, hflag, put_back hlowest]
      · exact Or.inl ⟨fd, hlowest, by simp [hflag]⟩
    · exact Or.inr ⟨.failed errno, by rintro fd ⟨⟩, by simp [hfailed]⟩
  · intro _ a p hclear
    unfold myEpollCreate1
    rcases install_eq p a.create with ⟨fd, hinstall⟩ | ⟨errno, hinstall⟩
    · simp only [hinstall, fcntl_put, hclear.1]
      by_cases hflag : has flags cloexecFlag = true
      · have hne : flags ≠ 0#32 := fun h => by simp [hzero h] at hflag
        simp [hne, hflag, setCloexec]
      · simp [hflag]
    · simp only [hinstall]

theorem fcntl_ok {p q : Process} {fd : Fd} {change : Descriptor → Descriptor} {d : Descriptor}
    {fails : Option Errno}
    (h : (p.put fd (some d)).fcntl fd change fails = .ok q) : q = p.put fd (some (change d)) := by
  rw [fcntl_put] at h
  cases fails with
  | some errno => cases h
  | none =>
      cases h
      rfl

theorem inotifyFcntls_ok {flags : BitVec 32} {a : Answers} {p q : Process} {fd : Fd}
    (h : inotifyFcntls flags a fd (p.put fd (some ⟨.inotify, false, false⟩)) = .ok q) :
    q = p.put fd (some ⟨.inotify, has flags cloexecFlag, has flags nonblockFlag⟩) := by
  obtain ⟨r, hcloexec, hnonblock⟩ := Except.bind_ok_iff.mp h
  have hr : r = p.put fd (some ⟨.inotify, has flags cloexecFlag, false⟩) := by
    unfold inotifyCloexec at hcloexec
    by_cases hflag : has flags cloexecFlag = true
    · rw [if_pos hflag] at hcloexec
      rw [fcntl_ok hcloexec, hflag]
      rfl
    · rw [if_neg hflag] at hcloexec
      cases hcloexec
      rw [Bool.eq_false_iff.mpr hflag]
  subst hr
  unfold inotifyNonblock at hnonblock
  by_cases hflag : has flags nonblockFlag = true
  · rw [if_pos hflag] at hnonblock
    split at hnonblock
    · cases hnonblock
    · rw [fcntl_ok hnonblock, hflag]
      rfl
  · rw [if_neg hflag] at hnonblock
    cases hnonblock
    rw [Bool.eq_false_iff.mpr hflag]

theorem inotifyFcntls_clear (flags : BitVec 32) {a : Answers} (h : a.clear) (p : Process) (fd : Fd) :
    (inotifyFcntls flags a fd (p.put fd (some ⟨.inotify, false, false⟩))).isOk := by
  obtain ⟨hsetfd, hgetfl, hsetfl⟩ := h
  unfold inotifyFcntls inotifyCloexec inotifyNonblock
  rw [hsetfd, hgetfl, hsetfl]
  cases has flags cloexecFlag with
  | false => cases has flags nonblockFlag with
      | false => rfl
      | true => rfl
  | true => cases has flags nonblockFlag with
      | false => rfl
      | true => rfl

theorem myInotifyInit1_attempts (flags : BitVec 32) (valid : Bool) :
    Attempts (myInotifyInit1 flags) ⟨.inotify, has flags cloexecFlag, has flags nonblockFlag⟩ valid := by
  constructor
  · intro a p
    unfold myInotifyInit1
    rcases install_cases p ⟨.inotify, false, false⟩ a.create with ⟨fd, hlowest, hfd⟩ | ⟨errno, hfailed, _⟩
    · simp only [hfd]
      cases hfcntls : inotifyFcntls flags a fd (p.put fd (some ⟨.inotify, false, false⟩)) with
      | ok q => exact Or.inl ⟨fd, hlowest, by rw [inotifyFcntls_ok hfcntls]⟩
      | error errno => exact Or.inr ⟨.raised errno, by rintro fd ⟨⟩, by simp [put_back hlowest]⟩
    · exact Or.inr ⟨.failed errno, by rintro fd ⟨⟩, by simp [hfailed]⟩
  · intro _ a p hclear
    unfold myInotifyInit1
    rcases install_eq p a.create with ⟨fd, hinstall⟩ | ⟨errno, hinstall⟩
    · obtain ⟨q, hq⟩ := Except.isOk_iff.mp (inotifyFcntls_clear flags hclear p fd)
      simp only [hinstall, hq, inotifyFcntls_ok hq]
    · simp only [hinstall]

theorem epollCreate1_attempts (b : Build) (flags : BitVec 32) :
    Attempts (epollCreate1 b flags) ⟨.epoll, has flags cloexecFlag, false⟩ (within flags cloexecFlag) := by
  unfold epollCreate1
  cases b.epollCreate1 with
  | true => exact create_attempts _ _
  | false => exact myEpollCreate1_attempts flags _

theorem inotifyInit1_attempts (b : Build) (flags : BitVec 32) :
    Attempts (inotifyInit1 b flags) ⟨.inotify, has flags cloexecFlag, has flags nonblockFlag⟩
      (within flags (cloexecFlag ||| nonblockFlag)) := by
  unfold inotifyInit1
  cases b.inotifyInit1 with
  | true => exact create_attempts _ _
  | false => exact myInotifyInit1_attempts flags _

end Attempt

-- What follows the attempts changes nothing but the flags of the new descriptor.
def Finishes (call : Call) (finish : World → Fd → Process → Process) (first d : Descriptor) : Prop :=
  ∀ w fd (p : Process), ∃ d', finish w fd (p.put fd (some first)) = p.put fd (some d') ∧
    (w.finished call → d' = d)

theorem finishes_id (call : Call) (d : Descriptor) : Finishes call (fun _ _ p => p) d d :=
  fun _ _ _ => ⟨d, rfl, fun _ => rfl⟩

theorem finishes_kqueueCloexec : Finishes .kqueue kqueueCloexec ⟨.kqueue, false, false⟩
    ⟨.kqueue, true, false⟩ := by
  intro w fd p
  unfold kqueueCloexec
  by_cases hclear : w.getfd = none ∧ w.setfd = none
  · exact ⟨⟨.kqueue, true, false⟩, by simp [hclear, setCloexec], fun _ => rfl⟩
  · exact ⟨⟨.kqueue, false, false⟩, by rw [if_neg hclear], fun h => absurd (h rfl) hclear⟩

-- Every constructor is sNew with an attempt of its own, once its arguments are
-- converted.
theorem construct_cases (b : Build) (call : Call) :
    (∃ e, call.wanted b = .error e ∧ ∀ w p, construct b call w p = (.error e, p)) ∨
    ∃ first d valid finish, call.wanted b = .ok (d, valid) ∧ Finishes call finish first d ∧
      ∀ c : Build, c.fixCloexec = b.fixCloexec → ∃ attempt, Attempts attempt first valid ∧
        ∀ w p, construct c call w p = sNew call.retries attempt (finish w) w p := by
  have hdefault : ∀ c : Build, c.fixCloexec = b.fixCloexec →
    c.rbSpCloexec cloexecFlag = b.rbSpCloexec cloexecFlag := by
    intro c hc
    unfold Build.rbSpCloexec
    rw [hc]
  cases call with
  | epoll flags =>
      simp only [construct, Epoll.sNew, Call.wanted]
      cases hflags : rbSpGetFlags flags (b.rbSpCloexec cloexecFlag) with
      | error e => exact Or.inl ⟨e, rfl, fun _ _ => rfl⟩
      | ok n =>
          refine Or.inr ⟨_, _, _, _, rfl, finishes_id _ _,
            fun c hc => ⟨_, epollCreate1_attempts c n, fun w p => ?_⟩⟩
          rw [hdefault c hc, hflags]
          rfl
  | eventfd initval flags =>
      simp only [construct, EventFD.sNew, Call.wanted]
      cases initval.toUint with
      | error e => exact Or.inl ⟨e, rfl, fun _ _ => rfl⟩
      | ok count =>
          cases hflags : rbSpGetFlags flags (b.rbSpCloexec cloexecFlag) with
          | error e => exact Or.inl ⟨e, rfl, fun _ _ => rfl⟩
          | ok n =>
              refine Or.inr ⟨_, _, _, _, rfl, finishes_id _ _,
                fun c hc => ⟨_, create_attempts _ _, fun w p => ?_⟩⟩
              rw [hdefault c hc, hflags]
              rfl
  | timerfd cid fl =>
      simp only [construct, TimerFD.sNew, Call.wanted]
      cases clockid cid with
      | error e => exact Or.inl ⟨e, rfl, fun _ _ => rfl⟩
      | ok clockid =>
          cases hflags : rbSpGetFlags fl (b.rbSpCloexec cloexecFlag) with
          | error e => exact Or.inl ⟨e, rfl, fun _ _ => rfl⟩
          | ok n =>
              refine Or.inr ⟨_, _, _, _, rfl, finishes_id _ _,
                fun c hc => ⟨_, create_attempts _ _, fun w p => ?_⟩⟩
              rw [hdefault c hc, hflags]
              rfl
  | inotify flags =>
      simp only [construct, Inotify.sNew, Call.wanted]
      cases hflags : rbSpGetFlags flags (b.rbSpCloexec cloexecFlag) with
      | error e => exact Or.inl ⟨e, rfl, fun _ _ => rfl⟩
      | ok n =>
          refine Or.inr ⟨_, _, _, _, rfl, finishes_id _ _,
            fun c hc => ⟨_, inotifyInit1_attempts c n, fun w p => ?_⟩⟩
          rw [hdefault c hc, hflags]
          rfl
  | kqueue =>
      exact Or.inr ⟨_, _, _, _, rfl, finishes_kqueueCloexec,
        fun c _ => ⟨_, kqueue_attempts, fun w p => rfl⟩⟩

section New

variable {call : Call} {attempt : Answers → Process → Result × Process} {first d : Descriptor}
  {valid : Bool} {finish : World → Fd → Process → Process}

-- What the kernel has refused it has refused for a reason of its own or for
-- lack of numbers.
theorem Attempts.refused (hattempt : Attempts attempt first valid)
    (hvalid : valid = true) {a : Answers} {p : Process}
    (hclear : a.clear) {result : Result} (hresult : ∀ fd, result ≠ .fd fd) (h : attempt a p = (result, p)) :
    ∃ errno, result = .failed errno ∧
      (a.create = some errno ∨ a.create = none ∧ errno = .EMFILE ∧ p.lowest = none) := by
  rw [hattempt.clear hvalid a p hclear] at h
  rcases install_cases p first a.create with ⟨fd, _, hfd⟩ | ⟨errno, hfailed, hwhy⟩
  · rw [hfd] at h
    exact absurd (congrArg Prod.fst h).symm (hresult fd)
  · rw [hfailed] at h
    cases h
    exact ⟨errno, rfl, hwhy⟩

-- The world lets the call try again and then refuses for lack of numbers only.
def World.Willing (w : World) (call : Call) : Prop :=
  w.clear ∧ (∀ errno, w.first.create = some errno → call.retries errno) ∧ w.second.create = none

theorem World.Willing.again {w : World} (hwilling : w.Willing call) {errno : Errno} {p : Process}
    (hwhy : w.first.create = some errno ∨ w.first.create = none ∧ errno = .EMFILE ∧ p.lowest = none) :
    call.retries errno = true := by
  rcases hwhy with hcreate | ⟨_, rfl, _⟩
  · exact hwilling.2.1 errno hcreate
  · cases call with
    | kqueue => rfl
    | _ => rfl

-- A constructor gets as far as rb_call_super, at once or after a garbage
-- collection, or it leaves things as they were then.
theorem sNew_cases (hattempt : Attempts attempt first valid)
    (hfinish : Finishes call finish first d) (w : World)
    (p : Process) :
    (∃ q fd d', (q = p ∨ q = p.rbGc) ∧ q.lowest = some fd ∧ (w.finished call → d' = d) ∧
      sNew call.retries attempt (finish w) w p = (q.put fd (some d')).callSuper fd w.super) ∨
    ∃ q errno, (q = p ∨ q = p.rbGc) ∧ sNew call.retries attempt (finish w) w p = (.error (.sys errno), q) ∧
      (valid = true → w.Willing call → q = p.rbGc ∧ errno = .EMFILE ∧ q.lowest = none) := by
  unfold sNew
  rcases hattempt.cases w.first p with ⟨fd, hlowest, hfd⟩ | ⟨result, hresult, hleft⟩
  · obtain ⟨d', hd', hasked⟩ := hfinish w fd p
    refine Or.inl ⟨p, fd, d', Or.inl rfl, hlowest, hasked, ?_⟩
    rw [hfd, ← hd']
  rw [hleft]
  cases result with
  | fd fd => exact absurd rfl (hresult fd)
  | raised errno =>
      refine Or.inr ⟨p, errno, Or.inl rfl, rfl, fun hvalid hwilling => ?_⟩
      obtain ⟨_, hraised, _⟩ := hattempt.refused hvalid hwilling.1.1 hresult hleft
      cases hraised
  | failed errno =>
      by_cases hretries : call.retries errno = true
      · simp only [hretries, if_true]
        rcases hattempt.cases w.second p.rbGc with ⟨fd, hlowest, hfd⟩ | ⟨result, hresult, hleft⟩
        · obtain ⟨d', hd', hasked⟩ := hfinish w fd p.rbGc
          refine Or.inl ⟨p.rbGc, fd, d', Or.inr rfl, hlowest, hasked, ?_⟩
          rw [hfd, ← hd']
        · rw [hleft]
          have hlast : ∀ errno, result = .failed errno ∨ result = .raised errno → valid = true →
              w.Willing call → errno = .EMFILE ∧ p.rbGc.lowest = none := by
            intro errno hcases hvalid hwilling
            obtain ⟨other, rfl, hwhy⟩ := hattempt.refused hvalid hwilling.1.2 hresult hleft
            obtain ⟨_, hemfile, hlowest⟩ := hwhy.resolve_left (by rw [hwilling.2.2]; rintro ⟨⟩)
            rcases hcases with hfailed | hraised
            · cases hfailed
              exact ⟨hemfile, hlowest⟩
            · cases hraised
          cases result with
          | fd fd => exact absurd rfl (hresult fd)
          | raised errno =>
              exact Or.inr ⟨p.rbGc, errno, Or.inr rfl, rfl, fun hvalid hwilling =>
                ⟨rfl, hlast errno (Or.inr rfl) hvalid hwilling⟩⟩
          | failed errno =>
              exact Or.inr ⟨p.rbGc, errno, Or.inr rfl, rfl, fun hvalid hwilling =>
                ⟨rfl, hlast errno (Or.inl rfl) hvalid hwilling⟩⟩
      · refine Or.inr ⟨p, errno, Or.inl rfl, by simp only [hretries]; rfl, fun hvalid hwilling => ?_⟩
        obtain ⟨other, hfailed, hwhy⟩ := hattempt.refused hvalid hwilling.1.1 hresult hleft
        cases hfailed
        exact absurd (hwilling.again hwhy) hretries

-- The system calls that there are make no difference.
theorem sNew_congr {other : Answers → Process → Result × Process} (hattempt : Attempts attempt first true)
    (hother : Attempts other first true) {w : World} (hclear : w.clear) (p : Process) :
    sNew call.retries other (finish w) w p = sNew call.retries attempt (finish w) w p := by
  unfold sNew
  simp only [hother.clear rfl w.first _ hclear.1, hattempt.clear rfl w.first _ hclear.1,
    hother.clear rfl w.second _ hclear.2, hattempt.clear rfl w.second _ hclear.2]

end New

section Super

variable {q : Process} {fd : Fd}

-- What rb_call_super makes of a new descriptor.
theorem callSuper_cases (q : Process) (fd : Fd) (d : Descriptor) (super : Super) :
    ((q.put fd (some d)).callSuper fd super).2.table = Function.update q.table fd (some d) ∧
    ((q.put fd (some d)).callSuper fd super).2.held.Perm (fd :: q.held) ∧
    q.live ⊆ ((q.put fd (some d)).callSuper fd super).2.live := by
  have hobject : ∀ reachable : Bool,
      (({ q with objects := q.objects ++ [⟨fd, reachable⟩] } : Process).held).Perm (fd :: q.held) := by
    intro reachable
    simp only [Process.held, List.map_append, List.map_cons, List.map_nil, List.append_assoc]
    exact List.perm_middle
  cases super with
  | made =>
      refine ⟨rfl, hobject true, fun other h => ?_⟩
      simp only [Process.callSuper, Process.live, Process.put, List.filter_append, List.map_append,
        List.mem_append] at h ⊢
      tauto
  | raised e taken =>
      cases taken with
      | true =>
          refine ⟨rfl, hobject false, fun other h => ?_⟩
          simp only [Process.callSuper, Process.live, Process.put, List.filter_append, List.map_append,
            List.mem_append] at h ⊢
          tauto
      | false =>
          refine ⟨rfl, ?_, fun other h => ?_⟩
          · simp only [Process.callSuper, Process.held, Process.put]
            rw [← List.append_assoc]
            exact List.perm_append_comm
          · simp only [Process.callSuper, Process.live, Process.put, List.mem_append] at h ⊢
            tauto

theorem callSuper_ok {super : Super} {other : Fd} (h : (q.callSuper fd super).1 = .ok other) :
    other = fd ∧ ⟨fd, true⟩ ∈ (q.callSuper fd super).2.objects := by
  cases super with
  | made =>
      cases h
      exact ⟨rfl, List.mem_append_right _ List.mem_cons_self⟩
  | raised e taken =>
      cases taken with
      | true => cases h
      | false => cases h

theorem callSuper_stray (q : Process) (fd : Fd) (super : Super) : (q.callSuper fd super).2.stray = q.stray ∨
    ∃ e, super = .raised e false ∧ (q.callSuper fd super).1 = .error e ∧
      (q.callSuper fd super).2.stray = q.stray ++ [fd] := by
  cases super with
  | made => exact Or.inl rfl
  | raised e taken =>
      cases taken with
      | true => exact Or.inl rfl
      | false => exact Or.inr ⟨e, rfl, rfl, rfl⟩

end Super

section Constructors

variable {b : Build} {p q : Process} {fd : Fd}

-- A collection keeps what is in use as it is.
theorem Owned.same (h : Owned p) (hq : q = p ∨ q = p.rbGc) : Owned q ∧ q.live = p.live ∧ q.stray = p.stray ∧
    q.limit = p.limit ∧ ∀ fd ∈ p.live, q.table fd = p.table fd := by
  rcases hq with rfl | rfl
  · exact ⟨h, rfl, rfl, rfl, fun _ _ => rfl⟩
  · exact ⟨h.rbGc, rbGc_live p, rfl, rfl, fun _ hfd => h.rbGc_table hfd⟩

theorem Owned.lowest_fresh (h : Owned q) (hlowest : q.lowest = some fd) : fd < q.limit ∧ fd ∉ q.held :=
  ⟨(lowest_some hlowest).1, h.free_iff.mp (lowest_some hlowest).2⟩

-- What becomes of a call: arguments that do not convert, a descriptor that is
-- handed to rb_call_super, or none.
inductive Outcome (b : Build) (call : Call) (w : World) (p : Process) : Except Err Fd × Process → Prop
  | unasked {e : Err} (hwanted : call.wanted b = .error e) : Outcome b call w p (.error e, p)
  | made {q : Process} {fd : Fd} {d : Descriptor} {wanted : Descriptor × Bool}
      (hwanted : call.wanted b = .ok wanted)
      (hq : q = p ∨ q = p.rbGc) (hlowest : q.lowest = some fd) (hasked : w.finished call → d = wanted.1) :
      Outcome b call w p ((q.put fd (some d)).callSuper fd w.super)
  | refused {q : Process} {errno : Errno} {wanted : Descriptor × Bool}
      (hwanted : call.wanted b = .ok wanted)
      (hq : q = p ∨ q = p.rbGc)
      (hfull : wanted.2 = true → w.Willing call → q = p.rbGc ∧ errno = .EMFILE ∧ q.lowest = none) :
      Outcome b call w p (.error (.sys errno), q)

theorem construct_outcome (b : Build) (call : Call) (w : World) (p : Process) :
    Outcome b call w p (construct b call w p) := by
  rcases construct_cases b call with
    ⟨e, hwanted, herror⟩ | ⟨first, d, valid, finish, hwanted, hfinish, hattempts⟩
  · rw [herror]
    exact .unasked hwanted
  obtain ⟨attempt, hattempt, hnew⟩ := hattempts b rfl
  rw [hnew]
  rcases sNew_cases hattempt hfinish w p with
    ⟨q, fd, d', hq, hlowest, hasked, hr⟩ | ⟨q, errno, hq, hr, hfull⟩
  · rw [hr]
    exact .made hwanted hq hlowest hasked
  · rw [hr]
    exact .refused hwanted hq hfull

section Outcome

variable {call : Call} {w : World} {r : Except Err Fd × Process}

theorem Outcome.owned (h : Outcome b call w p r) (hp : Owned p) : Owned r.2 := by
  cases h with
  | unasked _ => exact hp
  | made _ hq hlowest _ =>
      obtain ⟨htable, hheld, _⟩ := callSuper_cases _ _ _ _
      exact (hp.same hq).1.add (lowest_some hlowest).2 hheld htable
  | refused _ hq _ => exact (hp.same hq).1

theorem Outcome.made_of_ok (h : Outcome b call w p r) (hp : Owned p) (hok : r.1 = .ok fd) :
    fd ∉ p.live ∧ ⟨fd, true⟩ ∈ r.2.objects ∧ ∃ wanted d, call.wanted b = .ok wanted ∧
      r.2.table fd = some d ∧
      (w.finished call → d = wanted.1) := by
  cases h with
  | unasked _ => cases hok
  | @made q new d wanted hwanted hq hlowest hasked =>
      obtain ⟨hq, hlive, _⟩ := hp.same hq
      obtain ⟨htable, _⟩ := callSuper_cases q new d w.super
      obtain ⟨rfl, hobject⟩ := callSuper_ok hok
      have hfresh : fd ∉ p.live := fun hfd => (hq.lowest_fresh hlowest).2 (live_subset q (hlive ▸ hfd))
      refine ⟨hfresh, hobject, wanted, d, hwanted, ?_, hasked⟩
      rw [htable, Function.update_self]
  | refused _ _ _ => cases hok

theorem Outcome.kept (h : Outcome b call w p r) (hp : Owned p) (hfd : fd ∈ p.live) :
    fd ∈ r.2.live ∧ r.2.table fd = p.table fd := by
  cases h with
  | unasked _ => exact ⟨hfd, rfl⟩
  | @made q new d wanted _ hq hlowest _ =>
      obtain ⟨hq, hlive, _, _, hsame⟩ := hp.same hq
      obtain ⟨htable, _, hsubset⟩ := callSuper_cases q new d w.super
      have hne : fd ≠ new := by
        rintro rfl
        exact (hq.lowest_fresh hlowest).2 (live_subset q (hlive ▸ hfd))
      rw [htable, Function.update_of_ne hne]
      exact ⟨hsubset (hlive ▸ hfd), hsame fd hfd⟩
  | refused _ hq _ =>
      obtain ⟨_, hlive, _, _, hsame⟩ := hp.same hq
      exact ⟨hlive ▸ hfd, hsame fd hfd⟩

theorem Outcome.lost (h : Outcome b call w p r) (hp : Owned p) : r.2.stray = p.stray ∨
    ∃ fd e, w.super = .raised e false ∧ r.1 = .error e ∧ r.2.stray = p.stray ++ [fd] := by
  cases h with
  | unasked _ => exact Or.inl rfl
  | @made q fd d wanted _ hq _ _ =>
      obtain ⟨_, _, hstray, _⟩ := hp.same hq
      rw [← hstray]
      rcases callSuper_stray (q.put fd (some d)) fd w.super with hsame | ⟨e, hsuper, herror, hlost⟩
      · exact Or.inl hsame
      · exact Or.inr ⟨fd, e, hsuper, herror, hlost⟩
  | refused _ hq _ => exact Or.inl (hp.same hq).2.2.1

-- It is numbers that it needs, and garbage takes none.
theorem Outcome.room (h : Outcome b call w p r) (hp : Owned p) {d : Descriptor}
    (hwanted : call.wanted b = .ok (d, true))
    (hwilling : w.Willing call) (hsuper : w.super = .made) :
    (r.1.isOk ↔ ∃ fd < p.limit, fd ∉ p.live) ∧ ∀ e, r.1 = .error e → e = .sys .EMFILE := by
  cases h with
  | unasked herror =>
      rw [hwanted] at herror
      cases herror
  | @made q fd d wanted _ hq hlowest _ =>
      obtain ⟨hq, hlive, _, hlimit, _⟩ := hp.same hq
      obtain ⟨hlt, hfresh⟩ := hq.lowest_fresh hlowest
      rw [hsuper]
      refine ⟨⟨fun _ => ⟨fd, hlimit ▸ hlt, fun hfd => hfresh (live_subset q (hlive ▸ hfd))⟩,
        fun _ => rfl⟩, ?_⟩
      rintro e ⟨⟩
  | refused hvalid hq hfull =>
      rw [hwanted] at hvalid
      cases hvalid
      obtain ⟨rfl, rfl, hlowest⟩ := hfull rfl hwilling
      refine ⟨⟨by rintro ⟨⟩, fun ⟨fd, hlt, hfree⟩ => ?_⟩, ?_⟩
      · have hnone : p.rbGc.table fd = none := hp.rbGc.free_iff.mpr hfree
        have hsome := (lowest_isSome_iff (p := p.rbGc)).mpr ⟨fd, hlt, hnone⟩
        rw [hlowest] at hsome
        cases hsome
      · rintro e ⟨⟩
        rfl

end Outcome

theorem construct_agrees {c : Build} {call : Call} {w : World} {d : Descriptor}
    (hbuild : c.fixCloexec = b.fixCloexec)
    (hwanted : call.wanted b = .ok (d, true)) (hclear : w.clear) (p : Process) :
    construct c call w p = construct b call w p := by
  rcases construct_cases b call with ⟨e, herror, _⟩ | ⟨first, d, valid, finish, hvalid, _, hattempts⟩
  · rw [hwanted] at herror
    cases herror
  · rw [hwanted] at hvalid
    cases hvalid
    obtain ⟨attempt, hattempt, hnew⟩ := hattempts b rfl
    obtain ⟨other, hother, hnewOther⟩ := hattempts c hbuild
    rw [hnew, hnewOther]
    exact sNew_congr hattempt hother hclear p

theorem construct_sound (h : Owned p) (call : Call) (w : World) : Constructs b p call w := by
  have houtcome := construct_outcome b call w p
  refine ⟨fun fd p' hmade => ?_, fun _ hfd => houtcome.kept h hfd, houtcome.lost h,
    fun _ hwanted hclear hfirst hsecond hsuper => houtcome.room h hwanted ⟨hclear, hfirst, hsecond⟩ hsuper,
    fun _ _ hbuild hwanted hclear => construct_agrees hbuild hwanted hclear p⟩
  rw [hmade] at houtcome
  exact houtcome.made_of_ok h rfl

theorem held_eraseIdx {o : Object} {i : Nat} (hi : p.objects[i]? = some o) :
    p.held.Perm (o.fd :: ({ p with objects := p.objects.eraseIdx i } : Process).held) := by
  obtain ⟨hlt, ho⟩ := List.getElem?_eq_some_iff.mp hi
  have hperm := List.getElem_cons_eraseIdx_perm hlt
  rw [ho] at hperm
  exact (hperm.symm.map Object.fd).append_right p.stray

theorem step_owned (h : Owned p) {event : Event} (hs : step b p event = some q) : Owned q := by
  cases event with
  | new call w =>
      cases hs
      exact (construct_outcome b call w p).owned h
  | «open» d fails =>
      simp only [step] at hs
      rcases install_cases p d fails with ⟨fd, hlowest, hfd⟩ | ⟨errno, hfailed, _⟩
      · rw [hfd] at hs
        cases hs
        obtain ⟨htable, hheld, _⟩ := callSuper_cases p fd d .made
        exact h.add (lowest_some hlowest).2 hheld htable
      · rw [hfailed] at hs
        cases hs
        exact h
  | close i =>
      obtain ⟨o, hi, rfl⟩ := Option.map_eq_some_iff.mp hs
      exact h.remove (held_eraseIdx hi) rfl
  | drop i =>
      obtain ⟨o, hi, rfl⟩ := Option.map_eq_some_iff.mp hs
      have hfd : (p.objects.map Object.fd)[i]? = some o.fd := by
        rw [List.getElem?_map, hi]
        rfl
      have hfds := List.set_of_getElem? hfd
      exact h.change (by simp only [Process.held, List.map_set, hfds]) fun _ => rfl
  | fcntl i cloexec nonblock =>
      obtain ⟨o, hi, rfl⟩ := Option.map_eq_some_iff.mp hs
      refine h.change rfl fun fd => ?_
      by_cases hfd : fd = o.fd
      · subst hfd
        simp
      · rw [put_table, Function.update_of_ne hfd]

end Constructors

-- Any constructors, in any order, in a process that does what it likes with its
-- other descriptors.
theorem constructors_sound (b : Build) (start : Process) (h : Owned start) (events : List Event) :
    Visits (step b) (fun p => Owned p ∧ ∀ call w, Constructs b p call w) start events :=
  visits_of_guarded Owned _ (fun _ h => ⟨h, fun call w => construct_sound h call w⟩)
    (fun _ _ _ h _ hs => step_owned h hs) h (guarded_true _ events)

theorem constructors_sound_eventfd :
    Visits (step ⟨true, true, true⟩) (fun p => Owned p ∧ ∀ call w, Constructs ⟨true, true, true⟩ p call w)
      ⟨2, fun fd => if fd = 0 then some ⟨.other, false, false⟩ else none, [⟨0, true⟩], []⟩
      [.new (.eventfd (.int 5) .nil) ⟨⟨none, none, none, none⟩, ⟨none, none, none, none⟩, none,
        none, .made⟩,
        .drop 1] := by
  refine constructors_sound _ _ ⟨by decide, fun fd => ?_⟩ _
  by_cases hfd : fd = 0
  · simp [hfd, Process.held]
  · simp [hfd, Process.held]

-- With room for two descriptors, a kqueue takes the place of an eventfd that is
-- garbage.
example :
    let w : World := ⟨⟨none, none, none, none⟩, ⟨none, none, none, none⟩, none, none, .made⟩
    (runEvents (step ⟨true, true, true⟩) ⟨2, fun _ => none, [], []⟩
      [.open ⟨.other, false, false⟩ none, .new (.eventfd (.int 5) .nil) w, .drop 1, .new .kqueue w]).map
        (fun p => (p.objects, p.table 1)) = some ([⟨0, true⟩, ⟨1, true⟩], some ⟨.kqueue, true, false⟩) := by
  decide

end SleepyPenguin.Creation
