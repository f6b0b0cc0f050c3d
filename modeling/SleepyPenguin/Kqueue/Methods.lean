import SleepyPenguin.Runtime.Shared

namespace SleepyPenguin.Kqueue

open Foundation

-- What a method returns, whichever it is.
inductive Ret
  | nil
  | bool (b : Bool)
  | count (n : Nat)
  | io (h : Nat)
  | kqueue (m : Nat)
  deriving DecidableEq, Repr

-- SleepyPenguin::Kqueue::IO.new, whose second try does not look at the errno.
def sNew : Method Nat := do
  match ← .perform .create with
  | .ok io => pure io
  | .error _ =>
      match ← .perform .create with
      | .ok io => pure io
      | .error errno => .raise (.sys errno)

def initializeNew (m : Nat) : Method Unit := Shared.initializeNew sNew m

def kqReinit (m : Nat) : Method Unit := do
  let io ← sNew
  .perform (.setIo m io)

-- The old descriptors are gone in a child: they are not closed, only kept
-- from being closed by the garbage collector.
def kqCheck (m : Nat) : Method Unit :=
  Shared.check (fun io => .attempt (.autocloseOff io)) kqReinit m

def toIo (m : Nat) : Method Ret :=
  Method.synchronize do
    kqCheck m
    let io ← .perform (.getIo m)
    pure (.io io)

inductive Changelist
  | nil
  | struct (k : Kevent)
  | ary (items : List KeventItem)
  deriving DecidableEq, Repr

def Changelist.items : Changelist → List KeventItem
  | .nil => []
  | .struct k => [.struct k]
  | .ary items => items

-- `item[5] = item[5].object_id`, where an object is its identity already.
def withObjectId : KeventItem → Except Err KeventItem
  | .struct k => .ok (.struct k)
  | .ary k => .ok (.ary k)
  | .other => .error .noMethodError

-- How many events are asked for: with a block, an int that is not negative,
-- and nothing without one.
def neventsOf (nevents : Option Int) (block : Bool) : Except Err Nat :=
  match block, nevents with
  | true, none => .error .argumentError
  | true, some n => do
      let n ← ranged (-0x80000000) 0x80000000 n
      if n < 0 then .error .argumentError else .ok n.toNat
  | false, none => .ok 0
  | false, some _ => .error .argumentError

-- `@io.kevent`: the buffer is given back however the block ends.
def ioKevent (m : Nat) (items : List KeventItem) (nevents : Option Int) (block : Bool) : Method Nat := do
  let kq ← .perform (.getIo m)
  let nevents ← .ofExcept (neventsOf nevents block)
  Prog.ensure
    (do
      let n ← .attempt (.kevent kq items nevents)
      .replicate n (.attempt .yieldNext)
      pure n)
    (.perform .putBuf)

def kevent (m : Nat) (changelist : Changelist) (nevents : Option Int) (block : Bool) : Method Ret := do
  Method.synchronize (kqCheck m)
  let items ← .ofExcept (changelist.items.mapM withObjectId)
  let n ← ioKevent m items nevents block
  pure (.count n)

def dup (m : Nat) : Method Ret := do
  let copy ← Shared.dup kqCheck m
  pure (.kqueue copy)

def close (m : Nat) : Method Ret := do
  Shared.close m
  pure .nil

def closedP (m : Nat) : Method Ret := do
  let closed ← Shared.closedP m
  pure (.bool closed)

inductive Op
  | toIo
  | kevent (changelist : Changelist) (nevents : Option Int) (block : Bool)
  | dup
  | clone
  | close
  | closedP
  deriving DecidableEq, Repr

def method (m : Nat) : Op → Method Ret
  | .toIo => toIo m
  | .kevent changelist nevents block => kevent m changelist nevents block
  | .dup => dup m
  | .clone => dup m
  | .close => close m
  | .closedP => closedP m

def closes : Op → Bool
  | .close => true
  | _ => false

def duplicates : Op → Bool
  | .dup | .clone => true
  | _ => false

-- close and closed? do not look at the pid.
def reaches : Op → Bool
  | .close | .closedP => false
  | _ => true

-- What a changelist has the kernel do, where all of it converts.
def Changelist.changes (changelist : Changelist) : Except Err (List Kevent) := do
  let items ← changelist.items.mapM withObjectId
  items.mapM unpackEvent

end SleepyPenguin.Kqueue
