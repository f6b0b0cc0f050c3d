import Mathlib.Algebra.GroupWithZero.Nat
import Mathlib.Algebra.Group.Int.Defs
import Mathlib.Data.List.Basic

namespace SleepyPenguin

abbrev Pid := Nat

abbrev Fd := Nat

-- The identity of a Ruby object handed to a method; `==` between two of them
-- is theirs to define.
abbrev Obj := Nat

inductive Errno
  | ENOENT | EINTR | EBADF | EAGAIN | ENOMEM | EEXIST | EINVAL | ENFILE | EMFILE | ENOBUFS
  | other (code : Nat)
  deriving DecidableEq, Repr

-- The Ruby exceptions the methods raise. `block` is whatever the caller's
-- block raises or breaks with.
inductive Err
  | sys (errno : Errno)
  | ioError
  | typeError
  | rangeError
  | nameError
  | noMethodError
  | argumentError
  | localJumpError
  | noMemoryError
  | runtimeError (message : String)
  | block (tag : Nat)
  deriving DecidableEq, Repr

def rbSpGcForFd (err : Errno) : Bool :=
  err == .EMFILE || err == .ENFILE || err == .ENOMEM

-- The numeric constants of the Epoll class.
inductive Const
  | IN | OUT | RDHUP | WAKEUP | EXCLUSIVE | PRI | ERR | HUP | ET | ONESHOT
  | CLOEXEC | CTL_ADD | CTL_DEL | CTL_MOD
  deriving DecidableEq, Repr

def Const.value : Const → Int
  | .IN => 0x001
  | .PRI => 0x002
  | .OUT => 0x004
  | .ERR => 0x008
  | .HUP => 0x010
  | .RDHUP => 0x2000
  | .EXCLUSIVE => 0x10000000
  | .WAKEUP => 0x20000000
  | .ONESHOT => 0x40000000
  | .ET => 0x80000000
  | .CLOEXEC => 0x80000
  | .CTL_ADD => 1
  | .CTL_DEL => 2
  | .CTL_MOD => 3

-- What rb_const_get finds for a Symbol in the class that is given: an Integer,
-- another object, or nothing.
inductive Sym
  | integer (n : Int)
  | nonNumeric
  | undefined
  deriving DecidableEq, Repr

def Const.sym (c : Const) : Sym := .integer c.value

-- What a caller may pass as flags. An array element that is not a Symbol is
-- `none`.
inductive Flags
  | nil
  | int (n : Int)
  | sym (s : Sym)
  | ary (elements : List (Option Sym))
  | other
  deriving DecidableEq, Repr

-- The events of an Epoll object are flags.
abbrev EventArg := Flags

-- NUM2UINT and FIX2UINT: negative numbers down to INT_MIN wrap.
def num2uint (n : Int) : Except Err Nat :=
  if -0x80000000 ≤ n ∧ n < 0x100000000 then .ok (n % 0x100000000).toNat else .error .rangeError

def Flags.toUint : Flags → Except Err Nat
  | .int n => num2uint n
  | _ => .error .typeError

-- rb_sp_get_flags and rb_sp_get_uflags differ in the macro that takes a number
-- and in what nil stands for.
section GetFlags

variable {β : Type} [OrOp β] (num2 : Int → Except Err β)

def Sym.constGet : Sym → Except Err β
  | .integer n => num2 n
  | .nonNumeric => .error .typeError
  | .undefined => .error .nameError

-- What one element of an array stands for.
def element : Option Sym → Except Err β
  | none => .error .typeError
  | some s => s.constGet num2

def getAry (rv : β) : List (Option Sym) → Except Err β
  | [] => .ok rv
  | tmp :: rest =>
      match element num2 tmp with
      | .ok n => getAry (rv ||| n) rest
      | .error e => .error e

def getFlags (zero defaultFlags : β) : Flags → Except Err β
  | .nil => .ok defaultFlags
  | .int n => num2 n
  | .sym s => s.constGet num2
  | .ary elements => getAry num2 zero elements
  | .other => .error .typeError

end GetFlags

def rbSpGetUflags (flags : Flags) : Except Err Nat := getFlags num2uint 0 0 flags

def eventFlags (flags : EventArg) : Except Err EventArg :=
  (rbSpGetUflags flags).map fun n => .int n

-- Bit 30, the ONESHOT bit, of an Integer in two's complement.
def oneshotBit (n : Int) : Bool := n / 0x40000000 % 2 == 1

-- `(events & ONESHOT) == 0` on a slot of `@events`. NilClass has a `&` of its
-- own, whose false is not zero.
def noOneshot : Option EventArg → Except Err Bool
  | some (.int n) => .ok (!oneshotBit n)
  | none | some .nil => .ok false
  | some (.ary _) => .error .typeError
  | some _ => .error .noMethodError

theorem num2uint_mask (n : Nat) (h : n < 0x100000000) : num2uint n = .ok n := by
  have hr : -0x80000000 ≤ (n : Int) ∧ (n : Int) < 0x100000000 := by omega
  have hm : ((n : Int) % 0x100000000).toNat = n := by omega
  simp only [num2uint, if_pos hr, hm]

theorem num2uint_lt {n : Int} {mask : Nat} (h : num2uint n = .ok mask) : mask < 0x100000000 := by
  unfold num2uint at h
  split at h
  · cases h
    omega
  · cases h

theorem Sym.constGet_lt {s : Sym} {mask : Nat} (h : s.constGet num2uint = .ok mask) :
    mask < 0x100000000 := by
  cases s with
  | integer n => exact num2uint_lt h
  | nonNumeric => cases h
  | undefined => cases h

theorem element_lt {tmp : Option Sym} {mask : Nat} (h : element num2uint tmp = .ok mask) :
    mask < 0x100000000 := by
  cases tmp with
  | none => cases h
  | some s => exact Sym.constGet_lt h

def hasBit (i : Nat) (e : Option Sym) : Bool := (element num2uint e).toOption.any (·.testBit i)

theorem hasBit_of_ok {e : Option Sym} {n : Nat} (h : element num2uint e = .ok n) (i : Nat) :
    hasBit i e = n.testBit i := by
  simp [hasBit, h, Except.toOption]

-- An accepted array has the bits of its elements, in whatever order and however
-- often they are named.
theorem getAry_ok {rv mask : Nat} {elements : List (Option Sym)}
    (h : getAry num2uint rv elements = .ok mask) :
    (∀ e ∈ elements, ∃ n, element num2uint e = .ok n) ∧
      ∀ i, mask.testBit i = (rv.testBit i || elements.any (hasBit i)) := by
  induction elements generalizing rv with
  | nil =>
      cases h
      exact ⟨fun e he => (by cases he), fun i => (by simp)⟩
  | cons first rest ih =>
      rw [getAry] at h
      cases hs : element num2uint first with
      | error e =>
          rw [hs] at h
          cases h
      | ok n =>
          rw [hs] at h
          obtain ⟨hall, hbits⟩ := ih h
          constructor
          · intro e he
            rcases List.mem_cons.mp he with rfl | he
            · exact ⟨n, hs⟩
            · exact hall e he
          · intro i
            rw [hbits i, Nat.testBit_or, List.any_cons, hasBit_of_ok hs, Bool.or_assoc]

theorem getAry_exists (rv : Nat) {elements : List (Option Sym)}
    (h : ∀ e ∈ elements, ∃ n, element num2uint e = .ok n) :
    ∃ mask, getAry num2uint rv elements = .ok mask := by
  induction elements generalizing rv with
  | nil => exact ⟨rv, rfl⟩
  | cons first rest ih =>
      obtain ⟨n, hn⟩ := h first List.mem_cons_self
      rw [getAry, hn]
      exact ih (rv ||| n) fun e he => h e (List.mem_cons_of_mem _ he)

theorem getAry_congr {mask : Nat} {elements others : List (Option Sym)}
    (hsame : ∀ e, e ∈ others ↔ e ∈ elements) (h : getAry num2uint 0 elements = .ok mask) :
    getAry num2uint 0 others = .ok mask := by
  obtain ⟨hall, hbits⟩ := getAry_ok h
  obtain ⟨other, ho⟩ := getAry_exists 0 fun e he => hall e ((hsame e).mp he)
  have heq : other = mask := by
    apply Nat.eq_of_testBit_eq
    intro i
    rw [hbits i, (getAry_ok ho).2 i, Bool.eq_iff_iff]
    simp only [Nat.zero_testBit, Bool.false_or, List.any_eq_true, hsame]
  rw [ho, heq]

end SleepyPenguin
