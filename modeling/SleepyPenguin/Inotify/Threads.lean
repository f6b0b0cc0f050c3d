import SleepyPenguin.Foundation.Lists
import SleepyPenguin.Inotify.Take

-- One Inotify object, the threads that take from it and the kernel.
namespace SleepyPenguin.Inotify

open Foundation Tls

-- Where a thread is: outside take, in read(2), back from it with what is in
-- its buffer, or in the wait for the descriptor.
inductive Pc
  | idle
  | reading (args : Args)
  | fetched (args : Args) (result : Except Errno (List Record))
  | waiting (args : Args) (errno : Errno)
  deriving DecidableEq

structure Taker where
  tls : Tls.Thread
  pc : Pc
  deriving DecidableEq

-- The kernel's queue and O_NONBLOCK flag, `@inotify_tmp` and the threads, with
-- the records that have arrived and the events that were returned so far.
structure Sys where
  queue : List Record
  nonblock : Bool
  tmp : List Event
  takers : List Taker
  arrived : List Record
  returned : List Event
  deriving DecidableEq

def Sys.start (nonblock : Bool) (threads : List Tls.Thread) : Sys :=
  ⟨[], nonblock, [], threads.map fun tls => ⟨tls, .idle⟩, [], []⟩

-- read(2) with the queue that is left; `none` while it blocks.
def inread (queue : List Record) (nonblock : Bool) (size : Nat) (fails : Option Errno) :
    Option (Except Errno (List Record) × List Record) :=
  match fails, queue with
  | some errno, _ => some (.error errno, queue)
  | none, [] => if nonblock then some (.error .EAGAIN, []) else none
  | none, r :: rest =>
      if r.size ≤ size then
        let batch := fitting size (r :: rest)
        some (.ok batch, (r :: rest).drop batch.length)
      else some (.error .EINVAL, r :: rest)

-- ioctl(FIONREAD)
def fionread (queue : List Record) (fails : Option Errno) : Except Errno Int :=
  match fails with
  | some errno => .error errno
  | none => .ok (queue.map Record.size).sum

-- A record arrives, or a thread goes on, from where it has the interpreter
-- lock to where it does without.
inductive Act
  | arrive (r : Record)
  | enter (i : Nat) (b : Begin)
  | read (i : Nat) (fails : Option Errno)
  | resume (i : Nat) (ioctl : Option Errno) (env : Env) (closed : Bool)
  | wake (i : Nat) (closed : Bool)

namespace Sys

def put (s : Sys) (i : Nat) (tls : Tls.Thread) (pc : Pc) : Sys :=
  { s with takers := s.takers.set i ⟨tls, pc⟩ }

-- The bytes that a read left in the buffer.
def bytes (result : Except Errno (List Record)) : Except Errno (List Nat) :=
  result.map fun batch => batch.flatMap Record.encode

-- After a read: the loop goes on, or the call is over.
def turned (s : Sys) (i : Nat) (tls : Tls.Thread) : Except Err Turned → Sys
  | .error _ => s.put i tls .idle
  | .ok (.again args) => s.put i tls (.reading args)
  | .ok (.waits args errno) => s.put i tls (.waiting args errno)
  | .ok (.ended rv extra) =>
      { s.put i tls .idle with tmp := s.tmp ++ extra, returned := s.returned ++ rv.toList }

-- The cleanup of rb_ensure gives back no buffer.
def enter (w : Nat) (s : Sys) (i : Nat) (tls : Tls.Thread) (b : Begin) : Option Sys :=
  match s.tmp with
  | event :: rest => some { s with tmp := rest, returned := s.returned ++ [event] }
  | [] =>
      match (prepare b).run (Tls.exec w) tls with
      | none => none
      | some (.error _, tls) => some (s.put i tls .idle)
      | some (.ok nonblockP, tls) =>
          let s := { s with nonblock := s.nonblock || nonblockP }
          match (firstBuf nonblockP b.env).run (Tls.exec w) tls with
          | none => none
          | some (.error _, tls) => some (s.put i tls .idle)
          | some (.ok args, tls) => some (s.put i tls (.reading args))

def step (w : Nat) (s : Sys) : Act → Option Sys
  | .arrive r => some { s with queue := s.queue ++ [r], arrived := s.arrived ++ [r] }
  | .enter i b =>
      match s.takers[i]? with
      | some ⟨tls, .idle⟩ => s.enter w i tls b
      | _ => none
  | .read i fails =>
      match s.takers[i]? with
      | some ⟨tls, .reading args⟩ =>
          (inread s.queue s.nonblock args.size fails).map fun (result, queue) =>
            { s.put i tls (.fetched args result) with queue := queue }
      | _ => none
  | .resume i ioctl env closed =>
      match s.takers[i]? with
      | some ⟨tls, .fetched args result⟩ =>
          let turn : Turn :=
            { read := bytes result, ioctl := fionread s.queue ioctl, env := env, closed := closed }
          ((afterRead args turn).run (Tls.exec w) tls).map fun (outcome, tls) => s.turned i tls outcome
      | _ => none
  | .wake i closed =>
      match s.takers[i]? with
      | some ⟨tls, .waiting args errno⟩ =>
          ((afterWait args errno closed).run (Tls.exec w) tls).map fun (outcome, tls) =>
            match outcome with
            | .ok args => s.put i tls (.reading args)
            | .error _ => s.put i tls .idle
      | _ => none

end Sys

end SleepyPenguin.Inotify
