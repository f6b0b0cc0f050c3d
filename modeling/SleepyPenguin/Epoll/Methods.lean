import SleepyPenguin.Runtime.Shared

namespace SleepyPenguin.Epoll

open Foundation

-- What a method returns, whichever it is.
inductive Ret
  | nil
  | zero
  | obj (o : Obj)
  | events (e : EventArg)
  | count (n : Nat)
  | bool (b : Bool)
  | io (h : Nat)
  | epoll (m : Nat)
  deriving DecidableEq, Repr

-- SleepyPenguin::Epoll::IO.new
def sNew : Method Nat := do
  match ← .perform .create with
  | .ok io => pure io
  | .error errno =>
      if rbSpGcForFd errno then
        match ← .perform .create with
        | .ok io => pure io
        | .error errno => .raise (.sys errno)
      else .raise (.sys errno)

def initializeNew (m : Nat) : Method Unit := Shared.initializeNew sNew m

def epReinit (m : Nat) : Method Unit := do
  .perform .clearEvents
  .perform .clearMarks
  let io ← sNew
  .perform (.setIo m io)

def epCheck (m : Nat) : Method Unit :=
  Shared.check (fun io => .attempt (.close io)) epReinit m

def toIo (m : Nat) : Method Ret :=
  Method.synchronize do
    epCheck m
    let io ← .perform (.getIo m)
    pure (.io io)

-- `@io.epoll_ctl(op, io, events)`
def epollCtl (m : Nat) (op : CtlOp) (io : Obj) (events : EventArg) : Method Unit := do
  let ep ← .perform (.getIo m)
  .attempt (.epollCtl ep op io events)

-- `@io.epoll_wait`: the buffer is given back however the block ends.
def epollWait (m : Nat) (maxevents : Int) : Method Nat := do
  let ep ← .perform (.getIo m)
  Prog.ensure
    (do
      let n ← .attempt (.epollWait ep maxevents)
      .replicate n (.attempt .yieldNext)
      pure n)
    (.perform .putBuf)

-- An error before the snapshot is taken meets `snapshot.clear` on nil in the
-- ensure clause.
def wait (m : Nat) (maxevents : Option Int) : Method Ret := do
  let snapshot ← Prog.rescue
    (Method.synchronize do
      epCheck m
      .perform .getMarks)
    fun _ => .raise .noMethodError
  .perform (.setSnapshot snapshot)
  let n ← Prog.ensure (epollWait m (maxevents.getD 64)) (.perform (.setSnapshot Slots.empty))
  pure (.count n)

def add (m : Nat) (io : Obj) (events : EventArg) : Method Ret := do
  let fd ← .attempt (.fileno io)
  let events ← .ofExcept (eventFlags events)
  Method.synchronize do
    epCheck m
    epollCtl m .add io events
    .perform (.setEvents fd (some events))
    .perform (.setMark fd (some io))
  pure .zero

def del (m : Nat) (io : Obj) : Method Ret := do
  let fd ← .attempt (.fileno io)
  Method.synchronize do
    epCheck m
    epollCtl m .del io (.int 0)
    .perform (.setMark fd none)
    .perform (.setEvents fd none)
  pure .zero

-- `rescue Errno::ENOENT, Errno::EBADF` with an empty body
def rescueGone (e : Err) : Method Ret :=
  if e = .sys .ENOENT ∨ e = .sys .EBADF then pure .nil else .raise e

def delete (m : Nat) (io : Obj) : Method Ret :=
  Prog.rescue
    (do
      let fd ← .attempt (.fileno io)
      Method.synchronize do
        epCheck m
        match ← .perform (.getMark fd) with
        | none => pure .nil
        | some curIo =>
            if ← .perform (.isClosed curIo) then pure .nil
            else
              epollCtl m .del io (.int 0)
              .perform (.setMark fd none)
              .perform (.setEvents fd none)
              pure (.obj io))
    rescueGone

def mod (m : Nat) (io : Obj) (events : EventArg) : Method Ret := do
  let events ← .ofExcept (eventFlags events)
  let fd ← .attempt (.fileno io)
  Method.synchronize do
    epCheck m
    epollCtl m .mod io events
    .perform (.setMark fd (some io))
    .perform (.setEvents fd (some events))
  pure (.events events)

-- `cur_io == io`, where an empty slot holds nil.
def curIoSame (curIo : Option Obj) (io : Obj) : Method Bool :=
  match curIo with
  | some cur => .perform (.same cur io)
  | none => pure false

-- The two branches of `set` that reach the kernel, up to the last write.
def setCached (m : Nat) (fd : Fd) (io : Obj) (events : EventArg) : Method Unit :=
  Prog.rescue (epollCtl m .mod io events) fun e =>
    if e = .sys .ENOENT then do
      epollCtl m .add io events
      .perform (.setMark fd (some io))
    else .raise e

def setUncached (m : Nat) (fd : Fd) (io : Obj) (events : EventArg) : Method Unit := do
  Prog.rescue (epollCtl m .add io events) fun e =>
    if e = .sys .EEXIST then epollCtl m .mod io events else .raise e
  .perform (.setMark fd (some io))

-- The events reach the kernel as they were given, without `__event_flags`.
def set (m : Nat) (io : Obj) (events : EventArg) : Method Ret := do
  let fd ← .attempt (.fileno io)
  Method.synchronize do
    epCheck m
    let curIo ← .perform (.getMark fd)
    if ← curIoSame curIo io then
      let curEvents ← .perform (.getEvents fd)
      let clear ← .ofExcept (noOneshot curEvents)
      if clear ∧ curEvents = some events then pure .zero
      else
        setCached m fd io events
        .perform (.setEvents fd (some events))
        pure .zero
    else
      setUncached m fd io events
      .perform (.setEvents fd (some events))
      pure .zero

inductive IoArg
  | fd (n : Fd)
  | io (o : Obj)
  deriving DecidableEq, Repr

-- `__fileno`
def filenoOf : IoArg → Method Fd
  | .fd n => pure n
  | .io o => .attempt (.fileno o)

-- io_for, events_for and include? read one slot under the mutex.
def lookup {β : Type} (m : Nat) (io : IoArg) (read : Fd → Cmd β) (ret : β → Ret) : Method Ret := do
  let fd ← filenoOf io
  Method.synchronize do
    epCheck m
    let value ← .perform (read fd)
    pure (ret value)

def ioFor (m : Nat) (io : IoArg) : Method Ret :=
  lookup m io .getMark fun mark => mark.elim .nil .obj

def eventsFor (m : Nat) (io : IoArg) : Method Ret :=
  lookup m io .getEvents fun events => events.elim .nil .events

def includeP (m : Nat) (io : IoArg) : Method Ret :=
  lookup m io .getMark fun mark => .bool mark.isSome

def dup (m : Nat) : Method Ret := do
  let copy ← Shared.dup epCheck m
  pure (.epoll copy)

def close (m : Nat) : Method Ret := do
  Shared.close m
  pure .nil

def closedP (m : Nat) : Method Ret := do
  let closed ← Shared.closedP m
  pure (.bool closed)

inductive Op
  | toIo
  | wait (maxevents : Option Int)
  | add (io : Obj) (events : EventArg)
  | del (io : Obj)
  | delete (io : Obj)
  | mod (io : Obj) (events : EventArg)
  | set (io : Obj) (events : EventArg)
  | close
  | closedP
  | ioFor (io : IoArg)
  | eventsFor (io : IoArg)
  | includeP (io : IoArg)
  | dup
  | clone
  deriving DecidableEq, Repr

def method (m : Nat) : Op → Method Ret
  | .toIo => toIo m
  | .wait maxevents => wait m maxevents
  | .add io events => add m io events
  | .del io => del m io
  | .delete io => delete m io
  | .mod io events => mod m io events
  | .set io events => set m io events
  | .close => close m
  | .closedP => closedP m
  | .ioFor io => ioFor m io
  | .eventsFor io => eventsFor m io
  | .includeP io => includeP m io
  | .dup => dup m
  | .clone => dup m

end SleepyPenguin.Epoll
