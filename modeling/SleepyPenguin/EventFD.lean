import Mathlib.Algebra.GroupWithZero.Nat
import Mathlib.Algebra.BigOperators.Group.List.Basic
import SleepyPenguin.Foundation.Lists
import SleepyPenguin.Foundation.Run
import SleepyPenguin.Runtime.Value

-- EventFD#incr and EventFD#value, called by any number of threads.
namespace SleepyPenguin.EventFD

open Foundation

-- EventFD::MAX
def max : Nat := 0xfffffffffffffffe

-- The counter in the kernel and the flags of its descriptor.
structure Counter where
  count : Nat
  semaphore : Bool
  nonblock : Bool
  bound : count ≤ max

-- NUM2ULL: negative numbers down to LLONG_MIN wrap.
def num2ull (n : Int) : Except Err Nat :=
  if -0x8000000000000000 ≤ n ∧ n < 0x10000000000000000 then .ok (n % 0x10000000000000000).toNat
  else .error .rangeError

-- write(2) and read(2) with what `args.val` is after them; `none` while they
-- block.
def efdWrite (k : Counter) (val : Nat) : Option (Except Errno Nat × Counter) :=
  if h : k.count + val ≤ max then some (.ok val, { k with count := k.count + val, bound := h })
  else if k.nonblock then some (.error .EAGAIN, k)
  else none

def efdRead (k : Counter) : Option (Except Errno Nat × Counter) :=
  if k.count = 0 then if k.nonblock then some (.error .EAGAIN, k) else none
  else if k.semaphore then
    some (.ok 1, { k with count := k.count - 1, bound := Nat.le_trans (Nat.sub_le _ _) k.bound })
  else some (.ok k.count, { k with count := 0, bound := Nat.zero_le _ })

inductive Answer
  | true | false | nil
  | int (n : Nat)
  deriving DecidableEq, Repr

-- Where a call is: in its region, back from it, in its wait, or over.
inductive Pc
  | calling
  | answered (result : Except Errno Nat)
  | waiting (errno : Errno)
  | ended (outcome : Except Err Answer)
  deriving DecidableEq, Repr

inductive Op
  | incr (n : Int) (nonblock : Bool)
  | value (nonblock : Bool)
  deriving DecidableEq, Repr

-- A call with `x.val` and the amounts by which its system calls have changed
-- the counter.
structure Call where
  op : Op
  val : Nat
  pc : Pc
  moved : List Nat
  deriving DecidableEq, Repr

-- rb_sp_set_nonblock
def rbSpSetNonblock (k : Counter) (fcntl : Option Errno) : Except Err Counter :=
  match fcntl with
  | some errno => .error (.sys errno)
  | none => .ok { k with nonblock := true }

-- A call up to its region.
def nonblocking (nonblock : Bool) (k : Counter) (closed : Bool) (fcntl : Option Errno) :
    Except Err Counter :=
  if closed then .error .ioError
  else if nonblock then rbSpSetNonblock k fcntl
  else .ok k

def incr (k : Counter) (n : Int) (nonblock closed : Bool) (fcntl : Option Errno) : Counter × Call :=
  let op := .incr n nonblock
  match nonblocking nonblock k closed fcntl with
  | .error e => (k, ⟨op, 0, .ended (.error e), []⟩)
  | .ok k =>
      match num2ull n with
      | .error e => (k, ⟨op, 0, .ended (.error e), []⟩)
      | .ok val => (k, ⟨op, val, .calling, []⟩)

def getvalue (k : Counter) (nonblock closed : Bool) (fcntl : Option Errno) : Counter × Call :=
  let op := .value nonblock
  match nonblocking nonblock k closed fcntl with
  | .error e => (k, ⟨op, 0, .ended (.error e), []⟩)
  | .ok k => (k, ⟨op, 0, .calling, []⟩)

-- From the region to the return or the wait, where `rb_sp_fileno` may raise.
def resume (done : Nat → Answer) (refused : Answer) (nonblock closed : Bool) : Except Errno Nat → Pc
  | .ok val => .ended (.ok (done val))
  | .error errno =>
      if errno = .EAGAIN ∧ nonblock = true then .ended (.ok refused)
      else if closed then .ended (.error .ioError)
      else .waiting errno

def Op.resume : Op → Bool → Except Errno Nat → Pc
  | .incr _ nonblock => EventFD.resume (fun _ => .true) .false nonblock
  | .value nonblock => EventFD.resume .int .nil nonblock

-- The end of rb_sp_wait. rb_io_wait_* are true for these two only.
def afterWait (closed : Bool) (errno : Errno) : Pc :=
  if closed then .ended (.error .ioError)
  else if errno = .EINTR ∨ errno = .EAGAIN then .calling
  else .ended (.error (.sys errno))

-- The system call fails with any errno at any time.
def Op.region (op : Op) (k : Counter) (val : Nat) (fails : Option Errno) :
    Option (Except Errno Nat × Counter) :=
  match fails, op with
  | some errno, _ => some (.error errno, k)
  | none, .incr _ _ => efdWrite k val
  | none, .value _ => efdRead k

-- By how much a counter changed.
def change (before after : Counter) : Nat := (after.count - before.count) + (before.count - after.count)

-- The counter and every call so far, by any thread.
structure Sys where
  counter : Counter
  calls : List Call

def Sys.start (counter : Counter) : Sys := ⟨counter, []⟩

-- What may happen next: a call begins, or one that is not over goes on, from
-- where it gave up the interpreter lock to where it does next.
inductive Event
  | enter (op : Op) (closed : Bool) (fcntl : Option Errno)
  | region (i : Nat) (fails : Option Errno)
  | resume (i : Nat) (closed : Bool)
  | wake (i : Nat) (closed : Bool)
  deriving DecidableEq, Repr

def Op.enter (op : Op) (k : Counter) (closed : Bool) (fcntl : Option Errno) : Counter × Call :=
  match op with
  | .incr n nonblock => EventFD.incr k n nonblock closed fcntl
  | .value nonblock => getvalue k nonblock closed fcntl

-- Only a system call that succeeds counts as a move.
def Call.region (c : Call) (k : Counter) (fails : Option Errno) : Option (Call × Counter) :=
  match c.op.region k c.val fails with
  | none => none
  | some (.ok val, k') => some (⟨c.op, val, .answered (.ok val), c.moved ++ [change k k']⟩, k')
  | some (.error errno, k') => some ({ c with pc := .answered (.error errno) }, k')

def step (s : Sys) : Event → Option Sys
  | .enter op closed fcntl =>
      let (counter, call) := op.enter s.counter closed fcntl
      some ⟨counter, s.calls ++ [call]⟩
  | .region i fails =>
      match s.calls[i]? with
      | some ⟨op, val, .calling, moved⟩ =>
          (Call.region ⟨op, val, .calling, moved⟩ s.counter fails).map fun (call, counter) =>
            ⟨counter, s.calls.set i call⟩
      | _ => none
  | .resume i closed =>
      match s.calls[i]? with
      | some ⟨op, val, .answered result, moved⟩ =>
          some { s with calls := s.calls.set i ⟨op, val, op.resume closed result, moved⟩ }
      | _ => none
  | .wake i closed =>
      match s.calls[i]? with
      | some ⟨op, val, .waiting errno, moved⟩ =>
          some { s with calls := s.calls.set i ⟨op, val, afterWait closed errno, moved⟩ }
      | _ => none

-- What a call that is over has told its caller that it moved.
def Call.told (c : Call) : List Nat :=
  match c.op, c.pc with
  | .incr n _, .ended (.ok .true) => [n.toNat]
  | .value _, .ended (.ok (.int n)) => [n]
  | _, _ => []

-- What one whose system call has succeeded is going to tell.
def Call.untold (c : Call) : List Nat :=
  match c.pc with
  | .answered (.ok val) => [val]
  | _ => []

def Op.isIncr : Op → Bool
  | .incr _ _ => true
  | .value _ => false

def Sys.sum (s : Sys) (incr : Bool) (amounts : Call → List Nat) : Nat :=
  (s.calls.map fun c => if c.op.isIncr = incr then (amounts c).sum else 0).sum

-- Every call has moved what it says, in one system call, or nothing, and the
-- counter is what these amounts come to.
structure Conserved (initial : Nat) (s : Sys) : Prop where
  exact : ∀ c ∈ s.calls, c.moved = c.told ++ c.untold
  sum : initial + s.sum true Call.told + s.sum true Call.untold =
    s.sum false Call.told + s.sum false Call.untold + s.counter.count
  settled : (∀ c ∈ s.calls, ∃ outcome, c.pc = .ended outcome) →
    initial + s.sum true Call.told = s.sum false Call.told + s.counter.count

-- An increment is by a number from 0 to 2^64 - 1.
def Event.InRange : Event → Prop
  | .enter (.incr n _) _ _ => 0 ≤ n ∧ n < 0x10000000000000000
  | _ => True

-- The number that an increment adds.
def Op.Asks : Op → Nat → Prop
  | .incr n _, val => val = n.toNat
  | .value _, _ => True

def Call.Good (c : Call) : Prop :=
  c.moved = c.told ++ c.untold ∧
    match c.pc with
    | .ended _ => True
    | .answered (.ok val) => c.op.Asks val
    | _ => c.op.Asks c.val

structure Inv (initial : Nat) (s : Sys) : Prop where
  good : ∀ c ∈ s.calls, c.Good
  books : initial + s.sum true Call.moved = s.sum false Call.moved + s.counter.count

theorem Inv.conserves {initial : Nat} {s : Sys} (h : Inv initial s) : Conserved initial s := by
  have hsplit : ∀ incr, s.sum incr Call.moved = s.sum incr Call.told + s.sum incr Call.untold := by
    intro incr
    rw [Sys.sum, Sys.sum, Sys.sum, ← List.sum_map_add]
    refine congrArg List.sum (List.map_congr_left fun c hc => ?_)
    split
    · rw [(h.good c hc).1, List.sum_append]
    · rfl
  have hbooks := h.books
  rw [hsplit true, hsplit false] at hbooks
  refine ⟨fun c hc => (h.good c hc).1, by omega, fun hover => ?_⟩
  have hnone : ∀ incr, s.sum incr Call.untold = 0 := by
    intro incr
    refine List.sum_eq_zero fun n hn => ?_
    obtain ⟨c, hc, rfl⟩ := List.mem_map.mp hn
    obtain ⟨outcome, ho⟩ := hover c hc
    simp [Call.untold, ho]
  rw [hnone true, hnone false] at hbooks
  omega

section Steps

variable {initial : Nat} {s : Sys} {c c' : Call} {i : Nat}

-- A call that goes on and moves an amount, or none.
theorem Inv.set (h : Inv initial s) (hc : s.calls[i]? = some c) (hgood : c'.Good) (hop : c'.op = c.op)
    {counter : Counter} (hmoved : if c.op.isIncr then c'.moved.sum + s.counter.count =
      c.moved.sum + counter.count
      else c'.moved.sum + counter.count = c.moved.sum + s.counter.count) :
    Inv initial ⟨counter, s.calls.set i c'⟩ := by
  have hsum : ∀ incr, Sys.sum ⟨counter, s.calls.set i c'⟩ incr Call.moved +
      (if c.op.isIncr = incr then c.moved.sum else 0) =
      s.sum incr Call.moved + (if c.op.isIncr = incr then c'.moved.sum else 0) := by
    intro incr
    have hset := List.sum_map_set (fun c : Call => if c.op.isIncr = incr then c.moved.sum else 0) hc c'
    simp only [hop] at hset
    exact hset
  have hbooks := h.books
  have htrue := hsum true
  have hfalse := hsum false
  refine ⟨List.forall_mem_set h.good hgood, ?_⟩
  change initial + Sys.sum _ true Call.moved = Sys.sum _ false Call.moved + counter.count
  cases hincr : c.op.isIncr with
  | true =>
      simp only [hincr, ite_true, reduceCtorEq, ite_false] at hmoved htrue hfalse
      omega
  | false =>
      simp only [hincr, ite_true, reduceCtorEq, ite_false] at hmoved htrue hfalse
      omega

theorem Inv.concat (h : Inv initial s) (hgood : c.Good) (hmoved : c.moved = []) {counter : Counter}
    (hcount : counter.count = s.counter.count) : Inv initial ⟨counter, s.calls ++ [c]⟩ := by
  have hsum : ∀ incr, Sys.sum ⟨counter, s.calls ++ [c]⟩ incr Call.moved = s.sum incr Call.moved := by
    intro incr
    simp [Sys.sum, hmoved]
  refine ⟨List.forall_mem_concat h.good hgood, ?_⟩
  rw [hsum true, hsum false, hcount]
  exact h.books

theorem num2ull_inRange {n : Int} {val : Nat} (hn : 0 ≤ n ∧ n < 0x10000000000000000)
    (h : num2ull n = .ok val) : val = n.toNat := by
  unfold num2ull at h
  split at h
  · cases h
    omega
  · cases h

theorem nonblocking_ok {nonblock closed : Bool} {fcntl : Option Errno} {k k' : Counter}
    (h : nonblocking nonblock k closed fcntl = .ok k') : k'.count = k.count := by
  unfold nonblocking at h
  split at h
  · cases h
  · split at h
    · unfold rbSpSetNonblock at h
      split at h
      · cases h
      · cases h
        rfl
    · cases h
      rfl

-- A call before its first system call has moved nothing.
theorem enter_good (op : Op) (k : Counter) (closed : Bool) (fcntl : Option Errno)
    (hop : Event.InRange (.enter op closed fcntl)) :
    (op.enter k closed fcntl).2.Good ∧ (op.enter k closed fcntl).2.moved = [] ∧
      (op.enter k closed fcntl).1.count = k.count := by
  cases op with
  | incr n nonblock =>
      simp only [Op.enter, incr]
      split
      · exact ⟨⟨rfl, trivial⟩, rfl, rfl⟩
      · rename_i k' hk
        have hcount := nonblocking_ok hk
        split
        · exact ⟨⟨rfl, trivial⟩, rfl, hcount⟩
        · rename_i val hval
          exact ⟨⟨rfl, num2ull_inRange hop hval⟩, rfl, hcount⟩
  | value nonblock =>
      simp only [Op.enter, getvalue]
      split
      · exact ⟨⟨rfl, trivial⟩, rfl, rfl⟩
      · rename_i k' hk
        exact ⟨⟨rfl, trivial⟩, rfl, nonblocking_ok hk⟩

theorem efdWrite_cases {k k' : Counter} {val : Nat} {result : Except Errno Nat}
    (h : efdWrite k val = some (result, k')) :
    (result = .ok val ∧ k'.count = k.count + val) ∨ (result = .error .EAGAIN ∧ k' = k) := by
  unfold efdWrite at h
  split at h
  · cases h
    exact Or.inl ⟨rfl, rfl⟩
  · split at h
    · cases h
      exact Or.inr ⟨rfl, rfl⟩
    · cases h

theorem efdRead_cases {k k' : Counter} {result : Except Errno Nat} (h : efdRead k = some (result, k')) :
    (∃ val, result = .ok val ∧ k'.count + val = k.count) ∨ (result = .error .EAGAIN ∧ k' = k) := by
  unfold efdRead at h
  split at h
  · split at h
    · cases h
      exact Or.inr ⟨rfl, rfl⟩
    · cases h
  · split at h
    · cases h
      exact Or.inl ⟨1, rfl, by simp only; omega⟩
    · cases h
      exact Or.inl ⟨k.count, rfl, Nat.zero_add _⟩

-- What one system call does: it fails and changes nothing, adds its value,
-- or removes what it answers.
theorem region_cases {k k' : Counter} {fails : Option Errno} (h : c.region k fails = some (c', k')) :
    (∃ errno, c' = { c with pc := .answered (.error errno) } ∧ k' = k) ∨
    (∃ val, c' = ⟨c.op, val, .answered (.ok val), c.moved ++ [val]⟩ ∧
      ((c.op.isIncr = true ∧ val = c.val ∧ k'.count = k.count + val) ∨
        (c.op.isIncr = false ∧ k'.count + val = k.count))) := by
  have hregion : ∀ {result k''}, c.op.region k c.val fails = some (result, k'') →
      (∃ errno, result = .error errno ∧ k'' = k) ∨
      (∃ val, result = .ok val ∧ ((c.op.isIncr = true ∧ val = c.val ∧ k''.count = k.count + val) ∨
        (c.op.isIncr = false ∧ k''.count + val = k.count))) := by
    intro result k'' hr
    cases fails with
    | some errno =>
        cases hr
        exact Or.inl ⟨errno, rfl, rfl⟩
    | none =>
        cases hop : c.op with
        | incr n nonblock =>
            rw [hop] at hr
            rcases efdWrite_cases hr with ⟨rfl, hcount⟩ | ⟨rfl, rfl⟩
            · exact Or.inr ⟨c.val, rfl, Or.inl ⟨rfl, rfl, hcount⟩⟩
            · exact Or.inl ⟨.EAGAIN, rfl, rfl⟩
        | value nonblock =>
            rw [hop] at hr
            rcases efdRead_cases hr with ⟨val, rfl, hcount⟩ | ⟨rfl, rfl⟩
            · exact Or.inr ⟨val, rfl, Or.inr ⟨rfl, hcount⟩⟩
            · exact Or.inl ⟨.EAGAIN, rfl, rfl⟩
  unfold Call.region at h
  split at h
  · cases h
  · rename_i val k'' hr
    cases h
    rcases hregion hr with ⟨errno, hres, _⟩ | ⟨val', hres, hcount⟩
    · cases hres
    · cases hres
      refine Or.inr ⟨val, ?_, hcount⟩
      have hchange : change k k' = val := by
        unfold change
        rcases hcount with ⟨_, _, hadd⟩ | ⟨_, hsub⟩
        · omega
        · omega
      rw [hchange]
  · rename_i errno k'' hr
    cases h
    rcases hregion hr with ⟨errno', _, hk⟩ | ⟨val', hres, _⟩
    · exact Or.inl ⟨errno, rfl, hk⟩
    · cases hres

theorem Call.Good.resume {op : Op} {val : Nat} {result : Except Errno Nat} {moved : List Nat}
    (h : Call.Good ⟨op, val, .answered result, moved⟩) (closed : Bool) :
    Call.Good ⟨op, val, op.resume closed result, moved⟩ := by
  obtain ⟨hexact, hasks⟩ := h
  cases result with
  | ok amount =>
      have hmoved : moved = [amount] := by
        cases op <;> exact hexact
      subst hmoved
      cases op with
      | incr n nonblock =>
          have hamount : amount = n.toNat := hasks
          subst hamount
          exact ⟨rfl, trivial⟩
      | value nonblock => exact ⟨rfl, trivial⟩
  | error errno =>
      have hmoved : moved = [] := by
        cases op <;> exact hexact
      subst hmoved
      have hnothing : ∀ pc : Pc, (∃ e, pc = .ended (.error e)) ∨ pc = .ended (.ok .false) ∨
          pc = .ended (.ok .nil) ∨ pc = .waiting errno → Call.Good ⟨op, val, pc, []⟩ := by
        rintro pc (⟨e, rfl⟩ | rfl | rfl | rfl)
        · cases op <;> exact ⟨rfl, trivial⟩
        · cases op <;> exact ⟨rfl, trivial⟩
        · cases op <;> exact ⟨rfl, trivial⟩
        · cases op <;> exact ⟨rfl, hasks⟩
      apply hnothing
      cases op with
      | incr n nonblock =>
          simp only [Op.resume, EventFD.resume]
          split
          · exact Or.inr (Or.inl rfl)
          · split
            · exact Or.inl ⟨.ioError, rfl⟩
            · exact Or.inr (Or.inr (Or.inr rfl))
      | value nonblock =>
          simp only [Op.resume, EventFD.resume]
          split
          · exact Or.inr (Or.inr (Or.inl rfl))
          · split
            · exact Or.inl ⟨.ioError, rfl⟩
            · exact Or.inr (Or.inr (Or.inr rfl))

theorem Call.Good.wake {op : Op} {val : Nat} {errno : Errno} {moved : List Nat}
    (h : Call.Good ⟨op, val, .waiting errno, moved⟩) (closed : Bool) :
    Call.Good ⟨op, val, afterWait closed errno, moved⟩ := by
  have hmoved : moved = [] := by
    have hexact := h.1
    cases op <;> exact hexact
  subst hmoved
  unfold afterWait
  split
  · cases op <;> exact ⟨rfl, trivial⟩
  · split
    · cases op <;> exact ⟨rfl, h.2⟩
    · cases op <;> exact ⟨rfl, trivial⟩

theorem Inv.region {k : Counter} {fails : Option Errno} {op : Op} {val : Nat} {moved : List Nat}
    (h : Inv initial s) (hc : s.calls[i]? = some ⟨op, val, .calling, moved⟩)
    (hr : Call.region ⟨op, val, .calling, moved⟩ s.counter fails = some (c', k)) :
    Inv initial ⟨k, s.calls.set i c'⟩ := by
  obtain ⟨hexact, hasks⟩ := h.good _ (List.mem_of_getElem? hc)
  have hmoved : moved = [] := by
    cases op <;> exact hexact
  subst hmoved
  rcases region_cases hr with ⟨errno, rfl, rfl⟩ | ⟨amount, rfl, hcount⟩
  · have hgood : Call.Good ⟨op, val, .answered (.error errno), []⟩ := by
      cases op <;> exact ⟨rfl, hasks⟩
    refine h.set hc hgood rfl ?_
    split <;> rfl
  · rcases hcount with ⟨hincr, hval, hadd⟩ | ⟨hincr, hsub⟩
    · simp only at hincr hval hadd
      have hgood : Call.Good ⟨op, amount, .answered (.ok amount), [amount]⟩ := by
        rw [hval]
        cases op <;> exact ⟨rfl, hasks⟩
      refine h.set hc hgood rfl ?_
      simp only [hincr, ite_true, List.sum_singleton, List.sum_nil]
      omega
    · simp only at hincr hsub
      have hgood : Call.Good ⟨op, amount, .answered (.ok amount), [amount]⟩ := by
        cases op with
        | incr n nonblock => cases hincr
        | value nonblock => exact ⟨rfl, trivial⟩
      refine h.set hc hgood rfl ?_
      simp only [hincr, reduceCtorEq, ite_false, List.sum_singleton, List.sum_nil]
      omega

theorem step_inv {s' : Sys} {event : Event} (h : Inv initial s) (hrange : event.InRange)
    (hs : step s event = some s') : Inv initial s' := by
  cases event with
  | enter op closed fcntl =>
      obtain ⟨hgood, hmoved, hcount⟩ := enter_good op s.counter closed fcntl hrange
      cases hs
      exact h.concat hgood hmoved hcount
  | region i fails =>
      simp only [step] at hs
      split at hs
      · rename_i op val moved hc
        obtain ⟨⟨c', k⟩, hr, rfl⟩ := Option.map_eq_some_iff.mp hs
        exact h.region hc hr
      · cases hs
  | resume i closed =>
      simp only [step] at hs
      split at hs
      · rename_i op val result moved hc
        cases hs
        refine h.set hc ((h.good _ (List.mem_of_getElem? hc)).resume closed) rfl ?_
        split <;> rfl
      · cases hs
  | wake i closed =>
      simp only [step] at hs
      split at hs
      · rename_i op val errno moved hc
        cases hs
        refine h.set hc ((h.good _ (List.mem_of_getElem? hc)).wake closed) rfl ?_
        split <;> rfl
      · cases hs

end Steps

-- Any number of threads, in any order, with any failures: the counter is
-- conserved in every state.
theorem conserved (counter : Counter) (events : List Event) (hrange : ∀ event ∈ events, event.InRange) :
    Visits step (Conserved counter.count) (Sys.start counter) events := by
  have hstart : Inv counter.count (Sys.start counter) := by
    refine ⟨fun c hc => ?_, by simp [Sys.start, Sys.sum]⟩
    cases hc
  exact visits_of_guarded (Inv counter.count) (Conserved counter.count) (fun s h => h.conserves)
    (fun s event s' h hr hs => step_inv h hr hs) hstart (guarded_of_forall hrange _)

-- A semaphore that two threads wait for while a third adds: one of them is
-- interrupted, and both get a unit.
theorem conserved_semaphore :
    (runEvents step (Sys.start ⟨0, true, false, by decide⟩)
        [.enter (.value false) false none, .enter (.value false) false none, .region 0 (some .EINTR),
         .enter (.incr 2 true) false none, .region 2 none, .region 1 none, .resume 0 false, .wake 0 false,
         .region 0 none, .resume 2 false, .resume 1 false, .resume 0 false]).map
           (fun s => (s.calls, s.counter.count)) =
      some ([⟨.value false, 1, .ended (.ok (.int 1)), [1]⟩, ⟨.value false, 1, .ended (.ok (.int 1)), [1]⟩,
        ⟨.incr 2 true, 2, .ended (.ok .true), [2]⟩], 0) ∧
    Visits step (Conserved 0) (Sys.start ⟨0, true, false, by decide⟩)
      [.enter (.value false) false none, .enter (.value false) false none, .region 0 (some .EINTR),
       .enter (.incr 2 true) false none, .region 2 none, .region 1 none, .resume 0 false, .wake 0 false,
       .region 0 none, .resume 2 false, .resume 1 false, .resume 0 false] := by
  refine ⟨by decide, conserved ⟨0, true, false, by decide⟩ _ ?_⟩
  simp [Event.InRange]

end SleepyPenguin.EventFD
