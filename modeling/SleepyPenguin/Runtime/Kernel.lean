import Mathlib.Logic.Function.Basic
import SleepyPenguin.Runtime.Value

namespace SleepyPenguin

-- One registration: the object packed into `data.ptr`, the requested mask,
-- whether it may still report, and whether it reported since it was armed.
structure Entry where
  obj : Obj
  mask : Nat
  armed : Bool
  fired : Bool
  deriving DecidableEq, Repr

abbrev Interest := Fd → Option Entry

inductive CtlOp
  | add | mod | del
  deriving DecidableEq, Repr

namespace Interest

def empty : Interest := fun _ => none

def register (interest : Interest) (fd : Fd) (obj : Obj) (mask : Nat) : Interest :=
  Function.update interest fd (some ⟨obj, mask, true, false⟩)

def remove (interest : Interest) (fd : Fd) : Interest :=
  Function.update interest fd none

-- epoll_ctl(2) where the kernel has no reason of its own to refuse.
def ctl (interest : Interest) (op : CtlOp) (fd : Fd) (obj : Obj) (mask : Nat) :
    Except Errno Interest :=
  match op, interest fd with
  | .add, none => .ok (interest.register fd obj mask)
  | .add, some _ => .error .EEXIST
  | .mod, none => .error .ENOENT
  | .mod, some _ => .ok (interest.register fd obj mask)
  | .del, none => .error .ENOENT
  | .del, some _ => .ok (interest.remove fd)

-- An armed entry reports; EPOLLONESHOT then disarms it.
def fire (interest : Interest) (fd : Fd) : Interest :=
  match interest fd with
  | some entry =>
      if entry.armed then
        Function.update interest fd
          (some { entry with armed := !oneshotBit entry.mask, fired := true })
      else interest
  | none => interest

theorem register_apply (interest : Interest) (fd other : Fd) (obj : Obj) (mask : Nat) :
    interest.register fd obj mask other =
      if other = fd then some ⟨obj, mask, true, false⟩ else interest other := by
  simp only [register, Function.update_apply]

theorem remove_apply (interest : Interest) (fd other : Fd) :
    interest.remove fd other = if other = fd then none else interest other := by
  simp only [remove, Function.update_apply]

theorem ctl_ok_iff (interest next : Interest) (op : CtlOp) (fd : Fd) (obj : Obj) (mask : Nat) :
    interest.ctl op fd obj mask = .ok next ↔
      (op = .add ∧ interest fd = none ∧ next = interest.register fd obj mask) ∨
      (op = .mod ∧ (interest fd).isSome ∧ next = interest.register fd obj mask) ∨
      (op = .del ∧ (interest fd).isSome ∧ next = interest.remove fd) := by
  cases op <;> cases h : interest fd <;> simp [ctl, h, eq_comm]

theorem ctl_register {interest next : Interest} {op : CtlOp} {fd : Fd} {obj : Obj} {mask : Nat}
    (h : interest.ctl op fd obj mask = .ok next) (hop : op ≠ .del) :
    next = interest.register fd obj mask := by
  rcases (ctl_ok_iff ..).mp h with ⟨_, _, h⟩ | ⟨_, _, h⟩ | ⟨h, _⟩
  · exact h
  · exact h
  · exact absurd h hop

theorem ctl_remove {interest next : Interest} {fd : Fd} {obj : Obj} {mask : Nat}
    (h : interest.ctl .del fd obj mask = .ok next) : next = interest.remove fd := by
  rcases (ctl_ok_iff ..).mp h with ⟨h, _⟩ | ⟨h, _⟩ | ⟨_, _, h⟩
  · cases h
  · cases h
  · exact h

theorem ctl_isSome {interest next : Interest} {op : CtlOp} {fd : Fd} {obj : Obj} {mask : Nat}
    (h : interest.ctl op fd obj mask = .ok next) (hop : op ≠ .add) : (interest fd).isSome := by
  rcases (ctl_ok_iff ..).mp h with ⟨h, _⟩ | ⟨_, h, _⟩ | ⟨_, h, _⟩
  · exact absurd h hop
  · exact h
  · exact h

-- Which object and mask a descriptor is watched with.
def watched (interest : Interest) (fd : Fd) : Option (Obj × Nat) :=
  (interest fd).map fun entry => (entry.obj, entry.mask)

theorem entry_of_watched {interest interest' : Interest} {fd : Fd} {entry : Entry}
    (hw : interest'.watched = interest.watched) (h : interest' fd = some entry) :
    ∃ before, interest fd = some before ∧ before.obj = entry.obj ∧ before.mask = entry.mask := by
  have hat := congrFun hw fd
  simp only [watched, h, Option.map_some] at hat
  obtain ⟨before, hb, heq⟩ := Option.map_eq_some_iff.mp hat.symm
  simp only [Prod.mk.injEq] at heq
  exact ⟨before, hb, heq⟩

-- An entry that cannot report any more is a one-shot that reported.
def Spent (entry : Entry) : Prop := entry.armed = false → oneshotBit entry.mask = true ∧ entry.fired = true

theorem fire_apply (interest : Interest) (fd other : Fd) :
    interest.fire fd other = interest other ∨
      ∃ entry, interest other = some entry ∧
        interest.fire fd other =
          some { entry with armed := !oneshotBit entry.mask, fired := true } := by
  unfold fire
  cases h : interest fd with
  | none => exact Or.inl rfl
  | some entry =>
      cases ha : entry.armed with
      | false => exact Or.inl (by simp [ha])
      | true =>
          by_cases ho : other = fd
          · subst ho
            exact Or.inr ⟨entry, h, by simp [ha]⟩
          · exact Or.inl (by simp [ha, Function.update_of_ne ho])

@[simp] theorem fire_watched (interest : Interest) (fd : Fd) :
    (interest.fire fd).watched = interest.watched := by
  funext other
  rcases fire_apply interest fd other with h | ⟨entry, hb, h⟩
  · simp only [watched, h]
  · simp only [watched, h, hb, Option.map_some]

theorem fire_spent {interest : Interest} {fd other : Fd} {entry : Entry}
    (hall : ∀ before, interest other = some before → Spent before)
    (h : interest.fire fd other = some entry) : Spent entry := by
  rcases fire_apply interest fd other with he | ⟨before, hb, he⟩
  · exact hall entry (he ▸ h)
  · rw [he] at h
    cases h
    intro ha
    exact ⟨by simpa using ha, rfl⟩

end Interest

-- A change handed to kevent(2), field by field.
structure Kevent where
  ident : Int
  filter : Int
  flags : Int
  fflags : Int
  data : Int
  udata : Int
  deriving DecidableEq, Repr

-- NUM2ULONG, NUM2USHORT and NUM2UINT wrap negative numbers down to the
-- minimum of the signed type; NUM2SHORT and NUM2LONG do not wrap.
def wrapping (low high : Int) (n : Int) : Except Err Int :=
  if low ≤ n ∧ n < high then .ok (n % high) else .error .rangeError

def ranged (low high : Int) (n : Int) : Except Err Int :=
  if low ≤ n ∧ n < high then .ok n else .error .rangeError

def evSet (k : Kevent) : Except Err Kevent := do
  let ident ← wrapping (-0x8000000000000000) 0x10000000000000000 k.ident
  let filter ← ranged (-0x8000) 0x8000 k.filter
  let flags ← wrapping (-0x8000) 0x10000 k.flags
  let fflags ← wrapping (-0x80000000) 0x100000000 k.fflags
  let data ← ranged (-0x8000000000000000) 0x8000000000000000 k.data
  pure ⟨ident, filter, flags, fflags, data, k.udata⟩

-- An element of a changelist: a struct or an array with six numbers in it,
-- or something else.
inductive KeventItem
  | struct (k : Kevent)
  | ary (k : Kevent)
  | other
  deriving DecidableEq, Repr

-- The array case has no break and runs on into the default.
def unpackEvent : KeventItem → Except Err Kevent
  | .struct k => evSet k
  | .ary k => (evSet k).bind fun _ => .error .typeError
  | .other => .error .typeError

-- An open epoll or kqueue description: the process that created it, the
-- interest list of an epoll and the changes submitted to a kqueue.
structure Inst where
  creator : Pid
  interest : Interest
  changes : List Kevent

inductive Call
  | epollCtl | epollWait | kevent | close
  deriving DecidableEq, Repr

-- A system call on a descriptor of the family: who made it, on which
-- instance, and which process had obtained the descriptor.
structure Issued where
  caller : Pid
  call : Call
  inst : Nat
  owner : Pid
  deriving DecidableEq, Repr

structure Kernel where
  insts : List Inst
  log : List Issued

end SleepyPenguin
