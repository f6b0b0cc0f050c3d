import SleepyPenguin.Foundation.Dialogue
import SleepyPenguin.Sendfile
import SleepyPenguin.Splice.Calls

-- SleepyPenguin.linux_sendfile, called by any number of threads, whatever its
-- system calls answer, over each of the three implementations that the
-- extension may be compiled with.
namespace SleepyPenguin.Sendfile.Calls

open Foundation
open SleepyPenguin.Splice (Io rbSpFileno optOfft num2sizet)

inductive Platform
  | linux | bsd | emulated
  deriving DecidableEq, Repr

-- A system call; lseek(2) is with SEEK_CUR.
inductive Request
  | linuxSendfile (dst src : Option Fd) (off : Option Int) (count : Nat)
  | bsdSendfile (src dst : Option Fd) (off : Int) (count : Nat)
  | lseek (src : Option Fd) (off : Nat)
  | pread (src : Option Fd) (count : Nat) (off : Int)
  | read (src : Option Fd) (count : Nat)
  | write (dst : Option Fd) (bytes : List UInt8)
  deriving DecidableEq, Repr

-- The BSDs count what they have sent on an error too.
inductive Answer
  | fails (errno : Errno)
  | counts (n : Nat)
  | gets (bytes : List UInt8)
  | sends (rc : Except Errno Unit) (sbytes : Nat)
  deriving DecidableEq, Repr

-- What a caller passes besides the two IOs.
structure Op where
  len : Int
  offset : Option Int
  deriving DecidableEq, Repr

structure Args where
  off : Option Int
  count : Nat
  deriving DecidableEq, Repr

def Op.args (op : Op) : Except Err Args := do
  let off ← optOfft op.offset
  let count ← num2sizet op.len
  .ok ⟨off, count⟩

inductive Returned
  | bytes (n : Nat)
  | waitWritable
  deriving DecidableEq, Repr

-- Where a call is: at its first system call, between two of them, back from its
-- region, or over.
inductive Pc
  | calling (src dst : Option Fd)
  | located (src dst : Option Fd) (offset : Int)
  | seeking (src : Option Fd) (n : Nat)
  | holding (dst : Option Fd) (buf : List UInt8)
  | answered (result : Except Errno Nat)
  | ended (outcome : Except Err Returned)
  deriving DecidableEq, Repr

structure Call where
  op : Op
  args : Args
  retried : Bool
  pc : Pc
  deriving DecidableEq, Repr

-- `again:`
def again (ioSrc ioDst : Io) : Pc :=
  match rbSpFileno ioSrc with
  | .error e => .ended (.error e)
  | .ok src =>
      match rbSpFileno ioDst with
      | .error e => .ended (.error e)
      | .ok dst => .calling src dst

def Op.enter (op : Op) (ioSrc ioDst : Io) : Call :=
  match op.args with
  | .error e => ⟨op, ⟨none, 0⟩, false, .ended (.error e)⟩
  | .ok args => ⟨op, args, false, again ioSrc ioDst⟩

-- `off ? pread(filefd, buf, max_read, *off) : read(filefd, buf, max_read)`
def readOrPread (a : Args) (src : Option Fd) : Request :=
  match a.off with
  | some off => .pread src (maxRead a.count) off
  | none => .read src (maxRead a.count)

-- The first system call of linux_sendfile.
def first (platform : Platform) (a : Args) (src dst : Option Fd) : Request :=
  match platform, a.off with
  | .linux, _ => .linuxSendfile dst src a.off a.count
  | .bsd, some off => .bsdSendfile src dst off a.count
  | .bsd, none => .lseek src 0
  | .emulated, _ => readOrPread a src

def Call.request (platform : Platform) (c : Call) : Option Request :=
  match c.pc with
  | .calling src dst => some (first platform c.args src dst)
  | .located src dst off => some (.bsdSendfile src dst off c.args.count)
  | .seeking src n => some (.lseek src n)
  | .holding dst buf => some (.write dst buf)
  | _ => none

-- `off ? *off : lseek(filefd, 0, SEEK_CUR)`, where a failure is -1.
def position : Answer → Option Int
  | .fails _ => some (-1)
  | .counts n => some n
  | _ => none

-- The wrapper after sendfile(2) of the BSDs. `*off` moves with a count only, and
-- then the call is over.
def bsdSent (a : Args) (src : Option Fd) (rc : Except Errno Unit) (sbytes : Nat) : Pc :=
  if sbytes > 0 then if a.off.isSome then .answered (.ok sbytes) else .seeking src sbytes
  else .answered (rc.map fun _ => 0)

-- The loop of pread_sendfile, which an interruption does not leave.
def emulatedRead (src dst : Option Fd) : Answer → Option Pc
  | .fails .EINTR => some (.calling src dst)
  | .fails errno => some (.answered (.error errno))
  | .gets bytes => some (if bytes = [] then .answered (.ok 0) else .holding dst bytes)
  | _ => none

-- A system call that fails or counts.
def counted : Answer → Option (Except Errno Nat)
  | .fails errno => some (.error errno)
  | .counts n => some (.ok n)
  | _ => none

def bsdSendfile (a : Args) (src : Option Fd) : Answer → Option Pc
  | .sends rc sbytes => some (bsdSent a src rc sbytes)
  | _ => none

def Pc.hear (platform : Platform) (a : Args) (answer : Answer) : Pc → Option Pc
  | .calling src dst =>
      match platform, a.off with
      | .linux, _ => (counted answer).map .answered
      | .bsd, some _ => bsdSendfile a src answer
      | .bsd, none => (position answer).map (.located src dst)
      | .emulated, _ => emulatedRead src dst answer
  | .located src _ _ => bsdSendfile a src answer
  | .seeking _ n => (counted answer).map fun _ => .answered (.ok n)
  | .holding _ _ => (counted answer).map .answered
  | _ => none

def Call.hear (platform : Platform) (c : Call) (answer : Answer) : Option Call :=
  (c.pc.hear platform c.args answer).map fun pc => { c with pc }

def noMemory (errno : Errno) : Bool := errno == .ENOMEM || errno == .ENOBUFS

-- What `__lsf` comes to after its region; `none` is one more try, with the
-- garbage collected.
def verdict (retried : Bool) : Except Errno Nat → Option (Except Err Returned)
  | .ok n => some (.ok (.bytes n))
  | .error .EAGAIN => some (.ok .waitWritable)
  | .error errno => if noMemory errno && !retried then none else some (.error (.sys errno))

def Call.go (c : Call) (ios : Io × Io) : Option Call :=
  match c.pc with
  | .answered result =>
      match verdict c.retried result with
      | some outcome => some { c with pc := .ended outcome }
      | none => some { c with
          retried := true
          pc := again ios.1 ios.2 }
  | _ => none

def threads (platform : Platform) : Dialogue (Op × Io × Io) Call Request Answer (Io × Io) :=
  ⟨fun (op, ioSrc, ioDst) => op.enter ioSrc ioDst, Call.request platform, Call.hear platform, Call.go⟩

end SleepyPenguin.Sendfile.Calls
