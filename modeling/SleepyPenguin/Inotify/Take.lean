import SleepyPenguin.Inotify.Record
import SleepyPenguin.Tls.Command

-- Inotify#take between the points where the interpreter lock is released.
namespace SleepyPenguin.Inotify

open Foundation Tls

-- `struct inread_args`
structure Args where
  nonblockP : Bool
  size : Nat
  buf : Nat
  deriving DecidableEq, Repr

-- What a call meets before its first read: its arguments, whether the IO is
-- closed, what fcntl(2) and the allocator answer.
structure Begin where
  nonblock : Except Err Bool := .ok false
  closed : Bool := false
  fcntl : Option Errno := none
  env : Env := {}

-- What one turn of the loop meets: the outcome of read(2), or what the region
-- around it raises, FIONREAD and the allocator, and whether the IO is closed
-- before and after the wait.
structure Turn where
  read : Except Errno (List Nat)
  interrupt : Option Err := none
  ioctl : Except Errno Int := .ok 0
  env : Env := {}
  closed : Bool := false
  closedAfter : Bool := false

-- `take` from rb_scan_args to rb_ensure.
def prepare (b : Begin) : Waiter Bool := do
  let nonblockP ← .ofExcept b.nonblock
  if b.closed then .raise .ioError
  else
    match (if nonblockP then b.fcntl else none) with
    | some errno => .raise (.sys errno)
    | none => pure nonblockP

-- The first request of do_take.
def firstBuf (nonblockP : Bool) (env : Env) : Waiter Args := do
  let (buf, size) ← Waiter.get 128 env
  pure ⟨nonblockP, size, buf⟩

def regrow (args : Args) (newlen : Int) (env : Env) : Waiter Args :=
  if newlen > 0 then do
    Waiter.put (some args.buf)
    let (buf, size) ← Waiter.get newlen.toNat env
    pure { args with size := size, buf := buf }
  else pure args

def negativeLength (newlen : Int) : Err :=
  .runtimeError s!"ioctl(inotify,FIONREAD) returned negative length: {newlen}"

-- Only a length of zero gets past the last raise.
def resizeInternalBuffer (args : Args) (ioctl : Except Errno Int) (env : Env) : Waiter Args :=
  if args.size > 0x10000 then .raise (.runtimeError "path too long")
  else
    match ioctl with
    | .error errno => .raise (.sys errno)
    | .ok newlen => do
        let args ← regrow args newlen env
        if newlen = 0 then pure args else .raise (negativeLength newlen)

-- The loop goes on, waits for the descriptor first, or is over: the event to
-- return and the ones to push.
inductive Turned
  | again (args : Args)
  | waits (args : Args) (errno : Errno)
  | ended (rv : Option Event) (extra : List Event)
  deriving DecidableEq, Repr

def afterRead (args : Args) (t : Turn) : Waiter Turned :=
  match t.interrupt with
  | some e => .raise e
  | none =>
      match t.read with
      | .ok [] | .error .EINVAL => do
          let args ← resizeInternalBuffer args t.ioctl t.env
          pure (.again args)
      | .error errno =>
          if errno = .EAGAIN ∧ args.nonblockP = true then pure (.ended none [])
          else if t.closed then .raise .ioError
          else pure (.waits args errno)
      | .ok bytes =>
          match events bytes with
          | [] => pure (.again args)
          | rv :: extra => pure (.ended (some rv) extra)

-- The end of rb_sp_wait. rb_io_wait_readable is true for these two only.
def afterWait (args : Args) (errno : Errno) (closed : Bool) : Waiter Args :=
  if closed then .raise .ioError
  else if errno = .EINTR ∨ errno = .EAGAIN then pure args
  else .raise (.sys errno)

-- `do { .. } while (NIL_P(rv))`
def readLoop (args : Args) : List Turn → Waiter (Option Event)
  | [] => Waiter.blocked
  | t :: rest => do
      match ← afterRead args t with
      | .again args => readLoop args rest
      | .waits args errno =>
          let args ← afterWait args errno t.closedAfter
          readLoop args rest
      | .ended rv _ => pure rv

def doTake (nonblockP : Bool) (env : Env) (turns : List Turn) : Waiter (Option Event) := do
  let args ← firstBuf nonblockP env
  readLoop args turns

-- `args.buf` is passed on while it is still 0.
def take (served : Option Event) (b : Begin) (turns : List Turn) : Waiter (Option Event) :=
  match served with
  | some event => pure (some event)
  | none => do
      let nonblockP ← prepare b
      Prog.ensure (doTake nonblockP b.env turns) (Waiter.put none)

end SleepyPenguin.Inotify
