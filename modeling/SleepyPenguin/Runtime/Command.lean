import SleepyPenguin.Foundation.Program
import SleepyPenguin.Runtime.State

namespace SleepyPenguin

open Foundation

-- The atomic steps of the Ruby methods. A thread switch or a fork falls
-- between two of them.
inductive Cmd : Type → Type
  -- `$$`, `@pid` and `@io`
  | self : Cmd Pid
  | getPid (m : Nat) : Cmd Pid
  | setPid (m : Nat) (pid : Pid) : Cmd Unit
  | getIo (m : Nat) : Cmd Nat
  | setIo (m : Nat) (io : Nat) : Cmd Unit
  -- the copy that dup or clone allocates, and its loss when they raise
  | allocate (m : Nat) : Cmd Nat
  | discard : Cmd Unit
  -- IO objects on epoll or kqueue descriptors
  | create : Cmd (Except Errno Nat)
  | dup (io : Nat) : Cmd (Except Err Nat)
  | close (io : Nat) : Cmd (Except Err Unit)
  | closed (io : Nat) : Cmd Bool
  | autocloseOff (io : Nat) : Cmd (Except Err Unit)
  -- `@copies`
  | getCopies : Cmd (List (Nat × Nat))
  | setCopies (copies : List (Nat × Nat)) : Cmd Unit
  -- `@mtx`
  | lock : Cmd Unit
  | unlock : Cmd Unit
  -- `@events` and `@marks`
  | clearEvents : Cmd Unit
  | clearMarks : Cmd Unit
  | getMarks : Cmd (Slots Obj)
  | getMark (fd : Fd) : Cmd (Option Obj)
  | setMark (fd : Fd) (mark : Option Obj) : Cmd Unit
  | getEvents (fd : Fd) : Cmd (Option EventArg)
  | setEvents (fd : Fd) (events : Option EventArg) : Cmd Unit
  -- the objects handed to the methods
  | fileno (obj : Obj) : Cmd (Except Err Fd)
  | isClosed (obj : Obj) : Cmd Bool
  | same (obj other : Obj) : Cmd Bool
  -- system calls of Epoll::IO and Kqueue::IO
  | epollCtl (io : Nat) (op : CtlOp) (obj : Obj) (events : EventArg) : Cmd (Except Err Unit)
  | epollWait (io : Nat) (maxevents : Int) : Cmd (Except Err Nat)
  | kevent (io : Nat) (changelist : List KeventItem) (nevents : Nat) : Cmd (Except Err Nat)
  -- the frame of a wait call
  | setSnapshot (snapshot : Slots Obj) : Cmd Unit
  | yieldNext : Cmd (Except Err Unit)
  | putBuf : Cmd Unit

-- What the command does in call `t`; `none` when it has to wait or when it
-- names an object that does not exist.
def exec (t : Nat) : (β : Type) → Sys → Cmd β → Option (β × Sys)
  | _, s, .self => some (s.self, s)
  | _, s, .getPid m => (s.family.members[m]?).map fun x => (x.pid, s)
  | _, s, .setPid m pid => (s.family.members[m]?).map fun x => ((), s.setMember m { x with pid := pid })
  | _, s, .getIo m => (s.family.members[m]?).map fun x => (x.io, s)
  | _, s, .setIo m io => (s.family.members[m]?).map fun x => ((), s.setMember m { x with io := io })
  | _, s, .allocate m => (s.family.members[m]?).map fun x =>
      (s.family.members.length, { s with family.members := s.family.members ++ [x] })
  | _, s, .discard => some ((), { s with family.members := s.family.members.dropLast })
  | _, s, .create => some s.create
  | _, s, .dup io => (s.family.handles[io]?).map fun handle => s.dup handle
  | _, s, .close io => (s.family.handles[io]?).map fun handle => s.close io handle
  | _, s, .closed io => (s.family.handles[io]?).map fun handle => (handle.closed, s)
  | _, s, .autocloseOff io => (s.family.handles[io]?).map fun handle => s.autocloseOff io handle
  | _, s, .getCopies => some (s.family.copies, s)
  | _, s, .setCopies copies => some ((), { s with family.copies := copies })
  | _, s, .lock =>
      match s.family.mutex with
      | none => some ((), s.withMutex (some t))
      | some _ => none
  | _, s, .unlock => some ((), s.withMutex none)
  | _, s, .clearEvents => some ((), { s with family.events := Slots.empty })
  | _, s, .clearMarks => some ((), { s with family.marks := Slots.empty })
  | _, s, .getMarks => some (s.family.marks, s)
  | _, s, .getMark fd => some (s.family.marks.get fd, s)
  | _, s, .setMark fd mark => some ((), { s with family.marks := s.family.marks.set fd mark })
  | _, s, .getEvents fd => some (s.family.events.get fd, s)
  | _, s, .setEvents fd events => some ((), { s with family.events := s.family.events.set fd events })
  | _, s, .fileno obj =>
      match s.answer obj with
      | (some fd, next) => some (.ok fd, next)
      | (none, next) => some (.error .ioError, next)
  | _, s, .isClosed obj => some ((s.answer obj).1.isNone, (s.answer obj).2)
  | _, s, .same obj other => some (s.objects.same obj other, s)
  | _, s, .epollCtl io op obj events => (s.family.handles[io]?).bind fun handle =>
      (s.kernel.insts[handle.inst]?).map fun inst => s.epctl handle inst op obj events
  | _, s, .epollWait io maxevents => (s.family.handles[io]?).bind fun handle =>
      (s.kernel.insts[handle.inst]?).map fun inst => s.epwait t handle inst maxevents
  | _, s, .kevent io changelist nevents => (s.family.handles[io]?).map fun handle =>
      s.kevent t handle changelist nevents
  | _, s, .setSnapshot snapshot => some ((), { s with
      frames := Function.update s.frames t { s.frames t with snapshot := snapshot } })
  | _, s, .yieldNext => s.yieldNext t
  | _, s, .putBuf => some ((), { s with
      frames := Function.update s.frames t { s.frames t with buf := [] } })

-- The methods, as programs.
abbrev Method (α : Type) := Prog Cmd Err α

namespace Method

def synchronize {α : Type} (body : Method α) : Method α := do
  .perform .lock
  body.ensure (.perform .unlock)

-- A call with nothing else running, its outcomes decided by the oracle.
def call {α : Type} (method : Method α) (oracle : Oracle) (s : Sys) : Option (Except Err α × Sys) :=
  method.run (exec 0) { s with oracle := oracle }

end Method

end SleepyPenguin
