import SleepyPenguin.Foundation.Lists
import SleepyPenguin.Foundation.Slots
import SleepyPenguin.Runtime.Kernel

namespace SleepyPenguin

open Foundation

-- A Ruby IO on a kernel instance. `owner` is the process whose own call
-- obtained the descriptor; a forked child inherits the IO with it.
structure Handle where
  inst : Nat
  closed : Bool
  autoclose : Bool
  owner : Pid
  deriving DecidableEq, Repr

-- The instance variables that each Epoll or Kqueue object has for itself:
-- `@io`, as an index into the handles, and `@pid`.
structure Member where
  io : Nat
  pid : Pid
  deriving DecidableEq, Repr

-- The objects linked by dup and clone in one process, with the instance
-- variables they share. `@copies` keeps its keys in insertion order.
structure Family where
  members : List Member
  handles : List Handle
  copies : List (Nat × Nat)
  events : Slots EventArg
  marks : Slots Obj
  mutex : Option Nat

-- How the objects given to the methods behave: the descriptor number that
-- `to_io.fileno` answers (none when closed), and `==`. Objects from `born`
-- on have not been opened yet.
structure Objects where
  fileno : Obj → Option Fd
  same : Obj → Obj → Bool
  born : Nat

-- Nothing has been opened yet.
def noObjects : Objects := ⟨fun _ => none, fun a b => decide (a = b), 0⟩

namespace Objects

def close (objects : Objects) (io : Obj) : Objects :=
  { objects with fileno := Function.update objects.fileno io none }

-- A new object with a descriptor of its own.
def openNew (objects : Objects) (fd : Fd) : Objects :=
  { objects with
    fileno := Function.update objects.fileno objects.born (some fd)
    born := objects.born + 1 }

theorem close_fileno (objects : Objects) (io o : Obj) :
    (objects.close io).fileno o = if o = io then none else objects.fileno o :=
  Function.update_apply ..

theorem openNew_fileno (objects : Objects) (fd : Fd) (o : Obj) :
    (objects.openNew fd).fileno o = if o = objects.born then some fd else objects.fileno o :=
  Function.update_apply ..

end Objects

-- What the outside decides for the next calls, in order. A missing outcome
-- is a success; a missing answer is the object's own.
structure Oracle where
  creates : List (Option Errno) := []
  dups : List (Option Errno) := []
  closes : List (Option Errno) := []
  ctls : List (Option Errno) := []
  waits : List (Option Errno) := []
  answers : List (Option Fd) := []
  ready : List (Fd × Nat) := []
  blocks : List (Option Nat) := []
  deriving DecidableEq, Repr

-- One wait call: its snapshot of `@marks` and the reported events it has
-- yet to yield, in a buffer the garbage collector does not see.
structure Frame where
  snapshot : Slots Obj
  buf : List (Nat × Obj)

def Frame.empty : Frame := ⟨Slots.empty, []⟩

structure Sys where
  self : Pid
  family : Family
  kernel : Kernel
  objects : Objects
  oracle : Oracle
  frames : Nat → Frame

namespace Sys

def setMember (s : Sys) (m : Nat) (member : Member) : Sys :=
  { s with family.members := s.family.members.set m member }

def setHandle (s : Sys) (h : Nat) (handle : Handle) : Sys :=
  { s with family.handles := s.family.handles.set h handle }

def newHandle (s : Sys) (inst : Nat) : Nat × Sys :=
  let handle : Handle := ⟨inst, false, true, s.self⟩
  (s.family.handles.length, { s with family.handles := s.family.handles ++ [handle] })

def setInterest (s : Sys) (inst : Nat) (interest : Interest) : Sys :=
  { s with kernel.insts := s.kernel.insts.modify inst fun i => { i with interest := interest } }

def withMutex (s : Sys) (mutex : Option Nat) : Sys := { s with family.mutex := mutex }

-- `@marks[fd] = mark` and `@events[fd] = events`
def store (s : Sys) (fd : Fd) (mark : Option Obj) (events : Option EventArg) : Sys :=
  { s with
    family.marks := s.family.marks.set fd mark
    family.events := s.family.events.set fd events }

def issue (s : Sys) (call : Call) (handle : Handle) : Sys :=
  { s with kernel.log := s.kernel.log ++ [⟨s.self, call, handle.inst, handle.owner⟩] }

-- The descriptor that `to_io.fileno` answers now; `none` raises IOError.
def answer (s : Sys) (obj : Obj) : Option Fd × Sys :=
  match s.oracle.answers with
  | [] => (s.objects.fileno obj, s)
  | first :: rest => (first, { s with oracle.answers := rest })

-- epoll_create1(2) or kqueue(2), wrapped in a new IO.
def create (s : Sys) : Except Errno Nat × Sys :=
  let s' := { s with oracle.creates := s.oracle.creates.tail }
  match s.oracle.creates.headD none with
  | some errno => (.error errno, s')
  | none =>
      let inst : Inst := ⟨s.self, Interest.empty, []⟩
      let made := { s' with kernel.insts := s.kernel.insts ++ [inst] }
      let (io, next) := made.newHandle s.kernel.insts.length
      (.ok io, next)

-- IO#dup. A closed IO raises IOError.
def dup (s : Sys) (handle : Handle) : Except Err Nat × Sys :=
  if handle.closed then (.error .ioError, s)
  else
    let s' := { s with oracle.dups := s.oracle.dups.tail }
    match s.oracle.dups.headD none with
    | some errno => (.error (.sys errno), s')
    | none =>
        let (io, next) := s'.newHandle handle.inst
        (.ok io, next)

-- IO#close. Closing a closed IO does nothing; where close(2) fails, the IO
-- has let go of the descriptor before the error is raised.
def close (s : Sys) (h : Nat) (handle : Handle) : Except Err Unit × Sys :=
  if handle.closed then (.ok (), s)
  else
    let s' := { s.issue .close handle with oracle.closes := s.oracle.closes.tail }
    let closed := s'.setHandle h { handle with closed := true }
    match s.oracle.closes.headD none with
    | some errno => (.error (.sys errno), closed)
    | none => (.ok (), closed)

-- Epoll::IO#epoll_ctl: both descriptors and the mask are converted before
-- the system call, which the oracle may make fail with any errno.
def epctl (s : Sys) (handle : Handle) (inst : Inst) (op : CtlOp) (io : Obj) (events : EventArg) :
    Except Err Unit × Sys :=
  if handle.closed then (.error .ioError, s)
  else
    match s.answer io with
    | (none, s) => (.error .ioError, s)
    | (some fd, s) =>
        match events.toUint with
        | .error e => (.error e, s)
        | .ok mask =>
            let called := { s.issue .epollCtl handle with oracle.ctls := s.oracle.ctls.tail }
            match s.oracle.ctls.headD none with
            | some errno => (.error (.sys errno), called)
            | none =>
                match inst.interest.ctl op fd io mask with
                | .error errno => (.error (.sys errno), called)
                | .ok interest => (.ok (), called.setInterest handle.inst interest)

-- The events the kernel copies out: entries that are armed, each with the
-- object given to epoll_ctl.
def deliver (interest : Interest) : List (Fd × Nat) → List (Nat × Obj) × Interest
  | [] => ([], interest)
  | (fd, revents) :: rest =>
      match interest fd with
      | some entry =>
          if entry.armed then
            let (events, final) := deliver (interest.fire fd) rest
            ((revents, entry.obj) :: events, final)
          else deliver interest rest
      | none => deliver interest rest

-- The retry loop of an interrupted wait: how many calls were interrupted,
-- how the last one ended, and what is left of the oracle.
def interrupted : List (Option Errno) → Nat × Option Errno × List (Option Errno)
  | some .EINTR :: rest =>
      let (count, last, left) := interrupted rest
      (count + 1, last, left)
  | last :: rest => (0, last, rest)
  | [] => (0, none, [])

-- Epoll::IO#epoll_wait up to the first yield: `ept_get` refuses maxevents,
-- then the descriptor is looked up, then epoll_wait(2) is called until it is
-- not interrupted.
def epwait (s : Sys) (t : Nat) (handle : Handle) (inst : Inst) (maxevents : Int) :
    Except Err Nat × Sys :=
  if maxevents ≤ 0 then (.error (.sys .EINVAL), s)
  else if handle.closed then (.error .ioError, s)
  else
    let (count, last, left) := interrupted s.oracle.waits
    let calls := List.replicate (count + 1) ⟨s.self, .epollWait, handle.inst, handle.owner⟩
    let called := { s with kernel.log := s.kernel.log ++ calls, oracle.waits := left }
    match last with
    | some errno => (.error (.sys errno), called)
    | none =>
        let (events, interest) := deliver inst.interest (s.oracle.ready.take maxevents.toNat)
        let filled := { called with
          frames := Function.update s.frames t { s.frames t with buf := events } }
        (.ok events.length, filled.setInterest handle.inst interest)

-- Kqueue::IO#kevent up to the first yield: the descriptor is looked up, the
-- changelist is converted, then kevent(2) is called until it is not
-- interrupted. An interrupted call has sent the changes. Which events are
-- reported, each with its data and udata, is the kernel's affair.
def kevent (s : Sys) (t : Nat) (handle : Handle) (changelist : List KeventItem) (nevents : Nat) :
    Except Err Nat × Sys :=
  if handle.closed then (.error .ioError, s)
  else
    match changelist.mapM unpackEvent with
    | .error e => (.error e, s)
    | .ok changes =>
        let (count, last, left) := interrupted s.oracle.waits
        let calls := List.replicate (count + 1) ⟨s.self, .kevent, handle.inst, handle.owner⟩
        let called := { s with kernel.log := s.kernel.log ++ calls, oracle.waits := left }
        let sent := { called with
          kernel.insts := s.kernel.insts.modify handle.inst fun i =>
            { i with changes := i.changes ++ changes } }
        match last, count with
        | some errno, 0 => (.error (.sys errno), called)
        | some errno, _ + 1 => (.error (.sys errno), sent)
        | none, _ =>
            let events := s.oracle.ready.take nevents
            (.ok events.length, { sent with
              frames := Function.update s.frames t { s.frames t with buf := events } })

-- IO#autoclose= false. A closed IO raises IOError.
def autocloseOff (s : Sys) (h : Nat) (handle : Handle) : Except Err Unit × Sys :=
  if handle.closed then (.error .ioError, s)
  else (.ok (), s.setHandle h { handle with autoclose := false })

-- Yield the next buffered event; the block may raise or break.
def yieldNext (s : Sys) (t : Nat) : Option (Except Err Unit × Sys) :=
  match (s.frames t).buf with
  | [] => none
  | _ :: rest =>
      let popped := { s with
        frames := Function.update s.frames t { s.frames t with buf := rest }
        oracle.blocks := s.oracle.blocks.tail }
      match s.oracle.blocks.headD none with
      | some tag => some (.error (.block tag), popped)
      | none => some (.ok (), popped)

-- The interest list of an epoll instance.
def interestAt (s : Sys) (inst : Nat) : Interest :=
  (s.kernel.insts[inst]?).elim Interest.empty (·.interest)

-- Closing the last descriptor of a file takes its entry out of every
-- interest list.
def forget (s : Sys) (fd : Fd) : Sys :=
  { s with kernel.insts := s.kernel.insts.map fun i => { i with interest := i.interest.remove fd } }

-- `close` on a watched IO.
def closeIo (s : Sys) (io : Obj) : Option Sys :=
  (s.objects.fileno io).map fun fd =>
    { s.forget fd with objects := s.objects.close io }

-- A new IO on a descriptor number that no open IO has.
def openIo (s : Sys) (fd : Fd) : Option Sys :=
  if ∀ io < s.objects.born, s.objects.fileno io ≠ some fd then
    some { s with objects := s.objects.openNew fd }
  else none

-- An event on a watched descriptor is reported to some waiter.
def report (s : Sys) (inst : Nat) (fd : Fd) : Sys :=
  s.setInterest inst ((s.interestAt inst).fire fd)

-- What the calls that make and close descriptors come to.
theorem create_cases (s : Sys) :
    (∃ errno, s.oracle.creates.headD none = some errno ∧
      s.create = (.error errno, { s with oracle.creates := s.oracle.creates.tail })) ∨
    s.oracle.creates.headD none = none ∧ s.create = (.ok s.family.handles.length, { s with
      family.handles := s.family.handles ++ [⟨s.kernel.insts.length, false, true, s.self⟩]
      kernel.insts := s.kernel.insts ++ [⟨s.self, Interest.empty, []⟩]
      oracle.creates := s.oracle.creates.tail }) := by
  unfold create
  cases s.oracle.creates.headD none with
  | some errno => exact Or.inl ⟨errno, rfl, rfl⟩
  | none => exact Or.inr ⟨rfl, rfl⟩

theorem dup_closed (s : Sys) {x : Handle} (hc : x.closed = true) : s.dup x = (.error .ioError, s) := by
  rw [dup, if_pos hc]

theorem dup_open (s : Sys) {x : Handle} (hc : x.closed = false) :
    (∃ errno, s.oracle.dups.headD none = some errno ∧
      s.dup x = (.error (.sys errno), { s with oracle.dups := s.oracle.dups.tail })) ∨
    s.oracle.dups.headD none = none ∧ s.dup x = (.ok s.family.handles.length, { s with
      family.handles := s.family.handles ++ [⟨x.inst, false, true, s.self⟩]
      oracle.dups := s.oracle.dups.tail }) := by
  rw [dup, hc]
  cases s.oracle.dups.headD none with
  | some errno => exact Or.inl ⟨errno, rfl, rfl⟩
  | none => exact Or.inr ⟨rfl, rfl⟩

-- close(2) is called on the descriptor of an open IO.
theorem close_logged {s : Sys} {h : Nat} {x : Handle} (hc : x.closed = false) :
    ⟨s.self, .close, x.inst, x.owner⟩ ∈ (s.close h x).2.kernel.log := by
  unfold close
  rw [hc]
  cases s.oracle.closes.headD none with
  | some errno => exact List.mem_append_right _ List.mem_cons_self
  | none => exact List.mem_append_right _ List.mem_cons_self

-- The IO is closed in any case, and without an error where close(2) has none.
theorem close_cases {s : Sys} {h : Nat} {x : Handle} (hx : s.family.handles[h]? = some x) :
    ∃ outcome calls closes, s.close h x = (outcome, { s with
        family.handles := s.family.handles.set h { x with closed := true }
        kernel.log := s.kernel.log ++ calls
        oracle.closes := closes }) ∧
      (∀ issued ∈ calls, x.closed = false ∧ issued = ⟨s.self, .close, x.inst, x.owner⟩) ∧
      ((∀ o ∈ s.oracle.closes, o = none) → outcome = .ok () ∧ ∀ o ∈ closes, o = none) := by
  unfold close
  cases hc : x.closed with
  | true =>
      refine ⟨.ok (), [], s.oracle.closes, ?_, by simp, fun hall => ⟨rfl, hall⟩⟩
      have hset : s.family.handles.set h { x with closed := true } = s.family.handles :=
        List.set_of_getElem? (hc ▸ hx)
      simp only [ite_true, hset, List.append_nil]
  | false =>
      have hcalls : ∀ issued ∈ [(⟨s.self, .close, x.inst, x.owner⟩ : Issued)],
          false = false ∧ issued = ⟨s.self, .close, x.inst, x.owner⟩ := by simp
      cases hfirst : s.oracle.closes.headD none with
      | some errno =>
          refine ⟨.error (.sys errno), _, _, rfl, hcalls, fun hall => ?_⟩
          rw [List.headD_of_forall hall] at hfirst
          cases hfirst
      | none =>
          exact ⟨.ok (), _, _, rfl, hcalls, fun hall => ⟨rfl, fun o ho => hall o (List.mem_of_mem_tail ho)⟩⟩

theorem interestAt_of_getElem {s : Sys} {i : Nat} {inst : Inst} (h : s.kernel.insts[i]? = some inst) :
    s.interestAt i = inst.interest := by
  simp [interestAt, h]

theorem interestAt_congr {s s' : Sys} (h : s'.kernel.insts = s.kernel.insts) (i : Nat) :
    s'.interestAt i = s.interestAt i := by
  simp only [interestAt, h]

theorem interestAt_setInterest {s : Sys} {i : Nat} (h : i < s.kernel.insts.length)
    (interest : Interest) : (s.setInterest i interest).interestAt i = interest := by
  simp [interestAt, setInterest, h]

theorem interestAt_forget (s : Sys) (i : Nat) (fd : Fd) :
    (s.forget fd).interestAt i = (s.interestAt i).remove fd := by
  simp only [interestAt, forget, List.getElem?_map]
  cases s.kernel.insts[i]? with
  | none =>
      funext other
      simp [Interest.remove_apply, Interest.empty]
  | some inst => rfl

-- Delivery keeps which descriptors are watched, by which object and mask.
@[simp] theorem deliver_watched (interest : Interest) (ready : List (Fd × Nat)) :
    (deliver interest ready).2.watched = interest.watched := by
  induction ready generalizing interest with
  | nil => rfl
  | cons event rest ih =>
      unfold deliver
      split
      · split
        · exact (ih _).trans (Interest.fire_watched ..)
        · exact ih _
      · exact ih _

-- Each delivered event carries the object of an entry.
theorem deliver_obj {interest : Interest} {ready : List (Fd × Nat)} :
    ∀ event ∈ (deliver interest ready).1, ∃ fd entry, interest fd = some entry ∧ entry.obj = event.2 := by
  induction ready generalizing interest with
  | nil => exact fun _ h => absurd h List.not_mem_nil
  | cons first rest ih =>
      unfold deliver
      split
      · rename_i entry hentry
        split
        · intro event hmem
          rcases List.mem_cons.mp hmem with rfl | hmem
          · exact ⟨first.1, entry, hentry, rfl⟩
          · obtain ⟨fd, later, hl, hobj⟩ := ih event hmem
            obtain ⟨before, hb, heq, _⟩ := Interest.entry_of_watched (Interest.fire_watched ..) hl
            exact ⟨fd, before, hb, heq.trans hobj⟩
        · exact ih
      · exact ih

theorem deliver_spent {interest : Interest} {ready : List (Fd × Nat)}
    (hall : ∀ fd entry, interest fd = some entry → Interest.Spent entry) :
    ∀ fd entry, (deliver interest ready).2 fd = some entry → Interest.Spent entry := by
  induction ready generalizing interest with
  | nil => exact hall
  | cons event rest ih =>
      unfold deliver
      split
      · split
        · exact ih fun fd entry => Interest.fire_spent (hall fd)
        · exact ih hall
      · exact ih hall

end Sys

end SleepyPenguin
