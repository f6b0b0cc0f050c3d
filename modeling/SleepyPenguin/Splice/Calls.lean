import SleepyPenguin.Foundation.Dialogue
import SleepyPenguin.Runtime.Kernel

-- SleepyPenguin.splice, tee and copy_file_range, called by any number of
-- threads, whatever their system calls answer.
namespace SleepyPenguin.Splice

open Foundation

inductive Kind
  | splice | tee | copyFileRange
  deriving DecidableEq, Repr

-- struct copy_args, without its descriptors.
structure Args where
  offIn : Option Int
  offOut : Option Int
  len : Nat
  flags : Nat
  deriving DecidableEq, Repr

-- A system call. Where it fails it leaves the offsets as they were.
structure Request where
  kind : Kind
  args : Args
  fdIn : Option Fd
  fdOut : Option Fd
  deriving DecidableEq, Repr

-- What a caller may pass as flags: the keys of `@__splice_f_map` and others.
-- Whatever responds to `inject` is `ary`; an element that is not a Symbol is
-- `none`.
inductive FlagSym
  | nonblock | more | move
  | unknown (name : String)
  deriving DecidableEq, Repr

inductive Flags
  | int (n : Int)
  | sym (s : FlagSym)
  | ary (elements : List (Option FlagSym))
  | other
  deriving DecidableEq, Repr

def spliceFMap : FlagSym → Option Nat
  | .move => some 1
  | .nonblock => some 2
  | .more => some 4
  | .unknown _ => none

-- The block of the `inject`, where `|` does not take nil.
def injectFlags (fl : Nat) : List (Option FlagSym) → Except Err Nat
  | [] => .ok fl
  | sym :: rest =>
      match sym.bind spliceFMap with
      | some onef => injectFlags (fl ||| onef) rest
      | none => .error .typeError

def mapSpliceFlags : Flags → Except Err Flags
  | .sym s =>
      match spliceFMap s with
      | some onef => .ok (.int onef)
      | none => .ok (.sym s)
  | .ary elements => (injectFlags 0 elements).map fun (fl : Nat) => .int fl
  | flags => .ok flags

def Flags.toUint : Flags → Except Err Nat
  | .int n => num2uint n
  | _ => .error .typeError

-- NUM2OFFT and NUM2SIZET.
def num2offt : Int → Except Err Int := ranged (-0x8000000000000000) 0x8000000000000000

def num2sizet (n : Int) : Except Err Nat :=
  (wrapping (-0x8000000000000000) 0x10000000000000000 n).map Int.toNat

def optOfft : Option Int → Except Err (Option Int)
  | none => .ok none
  | some off => (num2offt off).map some

-- What rb_sp_fileno finds: an Integer, an IO that may be closed, an object whose
-- to_io raises, or none of these.
inductive Io
  | fixnum (n : Int)
  | file (fd : Option Fd)
  | raises (tag : Nat)
  | other
  deriving DecidableEq, Repr

-- A negative number is the descriptor of nothing, as -1 is.
def rbSpFileno : Io → Except Err (Option Fd)
  | .fixnum n => (ranged (-0x80000000) 0x80000000 n).map fun n => if n < 0 then none else some n.toNat
  | .file none => .error .ioError
  | .file (some fd) => .ok (some fd)
  | .raises tag => .error (.block tag)
  | .other => .error .typeError

inductive Op
  | splice (offIn offOut : Option Int) (len : Int) (flags : Flags) (exception : Bool)
  | tee (len : Int) (flags : Flags) (exception : Bool)
  | copyFileRange (offIn offOut : Option Int) (len : Int) (flags : Flags)
  deriving DecidableEq, Repr

def Op.kind : Op → Kind
  | .splice .. => .splice
  | .tee .. => .tee
  | .copyFileRange .. => .copyFileRange

def Op.flags : Op → Flags
  | .splice _ _ _ flags _ => flags
  | .tee _ flags _ => flags
  | .copyFileRange _ _ _ flags => flags

-- The arguments of `__splice` and of `__cfr`, in the order of their conversion.
def copyArgs (offIn offOut : Option Int) (len : Int) (flags : Flags) : Except Err Args := do
  let offIn ← optOfft offIn
  let offOut ← optOfft offOut
  let len ← num2sizet len
  let flags ← flags.toUint
  .ok ⟨offIn, offOut, len, flags⟩

-- copy_file_range does not map its flags.
def Op.args : Op → Except Err Args
  | .splice offIn offOut len flags _ => do
      let flags ← mapSpliceFlags flags
      copyArgs offIn offOut len flags
  | .tee len flags _ => do
      let flags ← mapSpliceFlags flags
      copyArgs none none len flags
  | .copyFileRange offIn offOut len flags => copyArgs offIn offOut len flags

inductive Answer
  | nil | eagain
  | int (n : Nat)
  deriving DecidableEq, Repr

-- EOFError is raised here only.
inductive Raised
  | eof
  | err (e : Err)
  deriving DecidableEq, Repr

def mapExc : Answer → Except Raised Answer
  | .eagain => .error (.err (.sys .EAGAIN))
  | .nil => .error .eof
  | .int n => .ok (.int n)

def keyword (exception : Bool) (ret : Answer) : Except Raised Answer :=
  if exception then mapExc ret else .ok ret

-- my_splice and my_tee after their region; `none` is one more round.
def mySplice : Except Errno Nat → Option (Except Raised Answer)
  | .ok bytes => some (.ok (if bytes = 0 then .nil else .int bytes))
  | .error .EINTR => none
  | .error .EAGAIN => some (.ok .eagain)
  | .error errno => some (.error (.err (.sys errno)))

def rbSpCfr : Except Errno Nat → Option (Except Raised Answer)
  | .ok bytes => some (.ok (.int bytes))
  | .error .EINTR => none
  | .error errno => some (.error (.err (.sys errno)))

def Op.back : Op → Except Errno Nat → Option (Except Raised Answer)
  | .splice _ _ _ _ exception, result => (mySplice result).map fun ret => ret.bind (keyword exception)
  | .tee _ _ exception, result => (mySplice result).map fun ret => ret.bind (keyword exception)
  | .copyFileRange _ _ _ _, result => rbSpCfr result

-- Where a call is: in its region, back from it, or over.
inductive Pc
  | calling (fdIn fdOut : Option Fd)
  | answered (result : Except Errno Nat)
  | ended (outcome : Except Raised Answer)
  deriving DecidableEq, Repr

structure Call where
  op : Op
  args : Args
  pc : Pc
  deriving DecidableEq, Repr

-- The top of the loop.
def loop (ioIn ioOut : Io) : Pc :=
  match rbSpFileno ioIn with
  | .error e => .ended (.error (.err e))
  | .ok fdIn =>
      match rbSpFileno ioOut with
      | .error e => .ended (.error (.err e))
      | .ok fdOut => .calling fdIn fdOut

def Op.enter (op : Op) (ioIn ioOut : Io) : Call :=
  match op.args with
  | .error e => ⟨op, ⟨none, none, 0, 0⟩, .ended (.error (.err e))⟩
  | .ok args => ⟨op, args, loop ioIn ioOut⟩

def Op.resume (op : Op) (ioIn ioOut : Io) (result : Except Errno Nat) : Pc :=
  match op.back result with
  | none => loop ioIn ioOut
  | some outcome => .ended outcome

def Call.request (c : Call) : Option Request :=
  match c.pc with
  | .calling fdIn fdOut => some ⟨c.op.kind, c.args, fdIn, fdOut⟩
  | _ => none

def Call.hear (c : Call) (result : Except Errno Nat) : Option Call := some { c with pc := .answered result }

-- Back from the region. The IOs may be others by now than they were before it.
def Call.go (c : Call) (ios : Io × Io) : Option Call :=
  match c.pc with
  | .answered result => some { c with pc := c.op.resume ios.1 ios.2 result }
  | _ => none

def threads : Dialogue (Op × Io × Io) Call Request (Except Errno Nat) (Io × Io) :=
  ⟨fun (op, ioIn, ioOut) => op.enter ioIn ioOut, Call.request, Call.hear, Call.go⟩

end SleepyPenguin.Splice
