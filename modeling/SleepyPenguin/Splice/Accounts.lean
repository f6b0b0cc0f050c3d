import SleepyPenguin.Splice.Calls

-- What the calls ask the kernel for is what their callers asked for, and what
-- they tell is what the kernel has answered.
namespace SleepyPenguin.Splice

open Foundation

-- What a call has said to the kernel and heard.
abbrev Rounds := List (Request × Except Errno Nat)

-- A count that is not zero.
def amount (n : Nat) : List Nat := if n = 0 then [] else [n]

def tells : Except Raised Answer → List Nat
  | .ok (.int n) => amount n
  | _ => []

def carries : Except Errno Nat → List Nat
  | .ok n => amount n
  | .error _ => []

-- The `exception` of a call that has one.
def Op.exception : Op → Option Bool
  | .splice _ _ _ _ exception => some exception
  | .tee _ _ exception => some exception
  | .copyFileRange .. => none

-- How a call may end. Only copy_file_range returns zero, and an interruption
-- is never raised.
def Op.Allows (op : Op) : Except Raised Answer → Prop
  | .ok .nil | .ok .eagain => op.exception = some false
  | .ok (.int n) => n = 0 → op.exception = none
  | .error .eof => op.exception = some true
  | .error (.err (.sys .EAGAIN)) => op.exception ≠ some false
  | .error (.err e) => e ≠ .sys .EINTR

-- The system call that the arguments of a call are for.
structure Op.Asks (op : Op) (r : Request) : Prop where
  kind : r.kind = op.kind
  args : op.args = .ok r.args

-- A list of names has exactly the bits of its names, in whatever order.
def Op.Named (op : Op) (r : Request) : Prop :=
  ∀ elements, op.flags = .ary elements →
    ∀ b, r.args.flags.testBit b = true ↔ ∃ sym ∈ elements, ∃ onef, sym.bind spliceFMap = some onef ∧
      onef.testBit b = true

def Interrupted (op : Op) (l : Rounds) : Prop := ∀ round ∈ l, op.Asks round.1 ∧ round.2 = .error .EINTR

-- What is raised before there is an answer does not come from one.
def Err.Own (e : Err) : Prop := ∀ errno, e ≠ .sys errno

-- How a call ends: by an error of its own, or by the first answer that is not an
-- interruption.
inductive Op.Ends (op : Op) : Rounds → Except Raised Answer → Prop
  | own {l : Rounds} {e : Err} (before : Interrupted op l) (own : Err.Own e) : op.Ends l (.error (.err e))
  | answered {l : Rounds} {r : Request} {result : Except Errno Nat} {outcome : Except Raised Answer}
      (before : Interrupted op l) (asks : op.Asks r) (back : op.back result = some outcome) :
      op.Ends (l ++ [(r, result)]) outcome

-- A call makes the system call that its arguments are for, again only where it
-- was interrupted, and tells what the last one has answered: the sizes that it
-- tells are those that the kernel has moved for it.
structure Accounted (c : Call) (l : Rounds) : Prop where
  asks : ∀ round ∈ l, c.op.Asks round.1 ∧ c.op.Named round.1
  again : ∀ round ∈ l.dropLast, round.2 = .error .EINTR
  waits : ∀ fdIn fdOut, c.pc = .calling fdIn fdOut → Interrupted c.op l
  ends : ∀ outcome, c.pc = .ended outcome → c.op.Ends l outcome
  told : ∀ outcome, c.pc = .ended outcome → tells outcome = l.flatMap fun round => carries round.2
  outcomes : ∀ outcome, c.pc = .ended outcome → c.op.Allows outcome

-- What holds of a call, by where it is.
def Call.Good (c : Call) (l : Rounds) : Prop :=
  match c.pc with
  | .calling _ _ => c.op.args = .ok c.args ∧ Interrupted c.op l
  | .answered result => c.op.args = .ok c.args ∧
      ∃ before r, l = before ++ [(r, result)] ∧ Interrupted c.op before ∧ c.op.Asks r
  | .ended outcome => c.op.Ends l outcome

section Errors

variable {op : Op}

theorem ranged_error {low high n : Int} {e : Err} (h : ranged low high n = .error e) : Err.Own e := by
  unfold ranged at h
  split at h <;> cases h
  rintro errno ⟨⟩

theorem wrapping_error {low high n : Int} {e : Err} (h : wrapping low high n = .error e) : Err.Own e := by
  unfold wrapping at h
  split at h <;> cases h
  rintro errno ⟨⟩

theorem map_error {α β : Type} {x : Except Err α} {f : α → β} {e : Err} (h : x.map f = .error e) :
    x = .error e := by
  cases x with
  | error e' =>
      cases h
      rfl
  | ok a => cases h

theorem toUint_error {flags : Flags} {e : Err} (h : flags.toUint = .error e) : Err.Own e := by
  cases flags with
  | int n =>
      simp only [Flags.toUint, num2uint] at h
      split at h <;> cases h
      rintro errno ⟨⟩
  | _ =>
      cases h
      rintro errno ⟨⟩

theorem optOfft_error {off : Option Int} {e : Err} (h : optOfft off = .error e) : Err.Own e := by
  cases off with
  | none => cases h
  | some off => exact ranged_error (map_error h)

theorem copyArgs_error {offIn offOut : Option Int} {len : Int} {flags : Flags} {e : Err}
    (h : copyArgs offIn offOut len flags = .error e) : Err.Own e := by
  rcases Except.bind_error_iff.mp h with h | ⟨_, _, h⟩
  · exact optOfft_error h
  rcases Except.bind_error_iff.mp h with h | ⟨_, _, h⟩
  · exact optOfft_error h
  rcases Except.bind_error_iff.mp h with h | ⟨_, _, h⟩
  · exact wrapping_error (map_error h)
  rcases Except.bind_error_iff.mp h with h | ⟨_, _, h⟩
  · exact toUint_error h
  · cases h

theorem mapSpliceFlags_error {flags : Flags} {e : Err} (h : mapSpliceFlags flags = .error e) :
    Err.Own e := by
  have hinject : ∀ fl elements, injectFlags fl elements = .error e → Err.Own e := by
    intro fl elements
    fun_induction injectFlags fl elements with
    | case1 => intro h; cases h
    | case2 fl sym rest onef hsym ih => exact ih
    | case3 =>
        intro h
        cases h
        rintro errno ⟨⟩
  cases flags with
  | sym s =>
      simp only [mapSpliceFlags] at h
      split at h <;> cases h
  | ary elements =>
      simp only [mapSpliceFlags] at h
      exact hinject 0 elements (map_error h)
  | int n => cases h
  | other => cases h

theorem args_error {e : Err} (h : op.args = .error e) : Err.Own e := by
  cases op with
  | splice offIn offOut len flags exception =>
      rcases Except.bind_error_iff.mp h with h | ⟨_, _, h⟩
      · exact mapSpliceFlags_error h
      · exact copyArgs_error h
  | tee len flags exception =>
      rcases Except.bind_error_iff.mp h with h | ⟨_, _, h⟩
      · exact mapSpliceFlags_error h
      · exact copyArgs_error h
  | copyFileRange offIn offOut len flags => exact copyArgs_error h

theorem rbSpFileno_error {io : Io} {e : Err} (h : rbSpFileno io = .error e) : Err.Own e := by
  cases io with
  | fixnum n => exact ranged_error (map_error h)
  | file fd =>
      cases fd <;> cases h
      rintro errno ⟨⟩
  | raises tag =>
      cases h
      rintro errno ⟨⟩
  | other =>
      cases h
      rintro errno ⟨⟩

theorem Err.Own.allowed {e : Err} (h : Err.Own e) : op.Allows (.error (.err e)) := by
  cases e with
  | sys errno => exact absurd rfl (h errno)
  | _ => rintro ⟨⟩

end Errors

section Flags

variable {op : Op} {r : Request}

-- The block adds the bits of one name to what there is.
theorem injectFlags_testBit {elements : List (Option FlagSym)} {fl n : Nat}
    (h : injectFlags fl elements = .ok n)
    (b : Nat) : n.testBit b = true ↔ fl.testBit b = true ∨
      ∃ sym ∈ elements, ∃ onef, sym.bind spliceFMap = some onef ∧ onef.testBit b = true := by
  fun_induction injectFlags fl elements with
  | case1 fl =>
      cases h
      simp
  | case2 fl sym rest onef hsym ih =>
      rw [ih h, Nat.testBit_or, Bool.or_eq_true, or_assoc]
      simp [hsym]
  | case3 => cases h

theorem spliceFMap_lt {sym : FlagSym} {onef : Nat} (h : spliceFMap sym = some onef) : onef < 2 ^ 32 := by
  cases sym <;> cases h <;> decide

theorem injectFlags_lt {elements : List (Option FlagSym)} {fl n : Nat} (hfl : fl < 2 ^ 32)
    (h : injectFlags fl elements = .ok n) : n < 2 ^ 32 := by
  fun_induction injectFlags fl elements with
  | case1 fl =>
      cases h
      exact hfl
  | case2 fl sym rest onef hsym ih =>
      obtain ⟨name, _, hname⟩ := Option.bind_eq_some_iff.mp hsym
      exact ih (Nat.or_lt_two_pow hfl (spliceFMap_lt hname)) h
  | case3 => cases h

theorem copyArgs_flags {offIn offOut : Option Int} {len : Int} {flags : Flags} {args : Args}
    (h : copyArgs offIn offOut len flags = .ok args) : flags.toUint = .ok args.flags := by
  obtain ⟨_, _, h⟩ := Except.bind_ok_iff.mp h
  obtain ⟨_, _, h⟩ := Except.bind_ok_iff.mp h
  obtain ⟨_, _, h⟩ := Except.bind_ok_iff.mp h
  obtain ⟨fl, hfl, h⟩ := Except.bind_ok_iff.mp h
  cases h
  exact hfl

-- The names go through the map and NUM2UINT as they are.
theorem mapped_testBit {elements : List (Option FlagSym)} {flags : Flags} {n : Nat}
    (hmap : mapSpliceFlags (.ary elements) = .ok flags) (hn : flags.toUint = .ok n) (b : Nat) :
    n.testBit b = true ↔ ∃ sym ∈ elements, ∃ onef, sym.bind spliceFMap = some onef ∧
      onef.testBit b = true := by
  cases hinject : injectFlags 0 elements with
  | error e =>
      rw [mapSpliceFlags, hinject] at hmap
      cases hmap
  | ok fl =>
      rw [mapSpliceFlags, hinject] at hmap
      cases hmap
      have hlt := injectFlags_lt (by decide) hinject
      have hsame : ((fl : Int) % 0x100000000).toNat = fl := by omega
      have hint : num2uint fl = .ok fl := by rw [num2uint, if_pos (by omega), hsame]
      rw [Flags.toUint, hint] at hn
      cases hn
      simp [injectFlags_testBit hinject b]

theorem Op.Asks.named (h : op.Asks r) : op.Named r := by
  intro elements hflags b
  have hargs := h.args
  cases op with
  | splice offIn offOut len flags exception =>
      obtain rfl : flags = .ary elements := hflags
      obtain ⟨mapped, hmap, hargs⟩ := Except.bind_ok_iff.mp hargs
      exact mapped_testBit hmap (copyArgs_flags hargs) b
  | tee len flags exception =>
      obtain rfl : flags = .ary elements := hflags
      obtain ⟨mapped, hmap, hargs⟩ := Except.bind_ok_iff.mp hargs
      exact mapped_testBit hmap (copyArgs_flags hargs) b
  | copyFileRange offIn offOut len flags =>
      obtain rfl : flags = .ary elements := hflags
      cases copyArgs_flags hargs

end Flags

section Ends

variable {op : Op} {l : Rounds}

-- What `__splice` and `__tee` come to, by the keyword.
theorem mySplice_allowed {exception : Bool} (hexc : op.exception = some exception)
    {result : Except Errno Nat}
    {ret : Except Raised Answer} (h : mySplice result = some ret) :
    op.Allows (ret.bind (keyword exception)) ∧ tells (ret.bind (keyword exception)) = carries result := by
  cases result with
  | ok n =>
      obtain rfl := Option.some.inj h
      by_cases hn : n = 0
      · subst hn
        cases exception with
        | true => exact ⟨hexc, rfl⟩
        | false => exact ⟨hexc, rfl⟩
      · rw [if_neg hn]
        cases exception with
        | true => exact ⟨fun hzero => absurd hzero hn, rfl⟩
        | false => exact ⟨fun hzero => absurd hzero hn, rfl⟩
  | error errno =>
      cases errno with
      | EINTR => cases h
      | EAGAIN =>
          obtain rfl := Option.some.inj h
          cases exception with
          | true =>
              refine ⟨?_, rfl⟩
              show op.exception ≠ some false
              rw [hexc]
              rintro ⟨⟩
          | false => exact ⟨hexc, rfl⟩
      | _ =>
          obtain rfl := Option.some.inj h
          refine ⟨?_, rfl⟩
          rintro ⟨⟩

theorem rbSpCfr_allowed (hexc : op.exception = none) {result : Except Errno Nat}
    {ret : Except Raised Answer}
    (h : rbSpCfr result = some ret) : op.Allows ret ∧ tells ret = carries result := by
  cases result with
  | ok n =>
      obtain rfl := Option.some.inj h
      exact ⟨fun _ => hexc, rfl⟩
  | error errno =>
      cases errno with
      | EINTR => cases h
      | EAGAIN =>
          obtain rfl := Option.some.inj h
          refine ⟨?_, rfl⟩
          show op.exception ≠ some false
          rw [hexc]
          rintro ⟨⟩
      | _ =>
          obtain rfl := Option.some.inj h
          refine ⟨?_, rfl⟩
          rintro ⟨⟩

theorem back_allowed {result : Except Errno Nat} {outcome : Except Raised Answer}
    (h : op.back result = some outcome) : op.Allows outcome ∧ tells outcome = carries result := by
  cases op with
  | splice offIn offOut len flags exception =>
      obtain ⟨ret, hret, rfl⟩ := Option.map_eq_some_iff.mp h
      exact mySplice_allowed rfl hret
  | tee len flags exception =>
      obtain ⟨ret, hret, rfl⟩ := Option.map_eq_some_iff.mp h
      exact mySplice_allowed rfl hret
  | copyFileRange offIn offOut len flags => exact rbSpCfr_allowed rfl h

-- Only an interrupted call goes round again.
theorem back_none {result : Except Errno Nat} (h : op.back result = none) : result = .error .EINTR := by
  have hsplice : mySplice result = none → result = .error .EINTR := by
    unfold mySplice
    split <;> simp
  cases op with
  | splice offIn offOut len flags exception => exact hsplice (Option.map_eq_none_iff.mp h)
  | tee len flags exception => exact hsplice (Option.map_eq_none_iff.mp h)
  | copyFileRange offIn offOut len flags =>
      simp only [Op.back, rbSpCfr] at h
      split at h
      · cases h
      · rfl
      · cases h

theorem Interrupted.silent (h : Interrupted op l) : l.flatMap (fun round => carries round.2) = [] := by
  refine List.flatMap_eq_nil_iff.mpr fun round hround => ?_
  rw [(h round hround).2]
  rfl

theorem Interrupted.concat (h : Interrupted op l) {r : Request} (hr : op.Asks r) :
    Interrupted op (l ++ [(r, .error .EINTR)]) :=
  List.forall_mem_concat h ⟨hr, rfl⟩

theorem Op.Ends.told {outcome : Except Raised Answer} (h : op.Ends l outcome) :
    tells outcome = l.flatMap fun round => carries round.2 := by
  cases h with
  | own before own => exact before.silent.symm
  | answered before asks back =>
      rw [List.flatMap_append, before.silent, List.nil_append, List.flatMap_singleton]
      exact (back_allowed back).2

theorem Op.Ends.allowed {outcome : Except Raised Answer} (h : op.Ends l outcome) : op.Allows outcome := by
  cases h with
  | own before own => exact own.allowed
  | answered before asks back => exact (back_allowed back).1

-- All the rounds of a call: those that were interrupted and perhaps one more.
theorem Call.Good.rounds {c : Call} (h : c.Good l) : Interrupted c.op l ∨
    ∃ before r result, l = before ++ [(r, result)] ∧ Interrupted c.op before ∧ c.op.Asks r := by
  unfold Call.Good at h
  split at h
  · exact Or.inl h.2
  · rename_i result _
    obtain ⟨_, before, r, hl, hbefore, hr⟩ := h
    exact Or.inr ⟨before, r, result, hl, hbefore, hr⟩
  · cases h with
    | own before own => exact Or.inl before
    | answered before asks back => exact Or.inr ⟨_, _, _, rfl, before, asks⟩

theorem Call.Good.accounted {c : Call} (h : c.Good l) : Accounted c l := by
  have hends : ∀ outcome, c.pc = .ended outcome → c.op.Ends l outcome := by
    intro outcome hpc
    simp only [Call.Good, hpc] at h
    exact h
  refine ⟨?_, ?_, ?_, hends, fun outcome hpc => (hends outcome hpc).told,
    fun outcome hpc => (hends outcome hpc).allowed⟩
  · have hasks : ∀ round ∈ l, c.op.Asks round.1 := by
      rcases h.rounds with hl | ⟨before, r, result, rfl, hbefore, hr⟩
      · exact fun round hround => (hl round hround).1
      · exact List.forall_mem_concat (fun round hround => (hbefore round hround).1) hr
    exact fun round hround => ⟨hasks round hround, (hasks round hround).named⟩
  · intro round hround
    rcases h.rounds with hl | ⟨before, r, result, rfl, hbefore, hr⟩
    · exact (hl round (List.dropLast_subset l hround)).2
    · rw [List.dropLast_concat] at hround
      exact (hbefore round hround).2
  · intro fdIn fdOut hpc
    simp only [Call.Good, hpc] at h
    exact h.2

end Ends

section Steps

variable {op : Op} {args : Args} {l : Rounds}

theorem loop_good (ioIn ioOut : Io) (hargs : op.args = .ok args) (hl : Interrupted op l) :
    (⟨op, args, loop ioIn ioOut⟩ : Call).Good l := by
  unfold loop
  split
  · rename_i e he
    exact .own hl (rbSpFileno_error he)
  split
  · rename_i e he
    exact .own hl (rbSpFileno_error he)
  · exact ⟨hargs, hl⟩

theorem enter_good (op : Op) (ioIn ioOut : Io) : (op.enter ioIn ioOut).Good [] := by
  have hnone : Interrupted op [] := by
    intro round hround
    cases hround
  unfold Op.enter
  split
  · rename_i e he
    exact .own hnone (args_error he)
  · rename_i args hargs
    exact loop_good ioIn ioOut hargs hnone

theorem hear_good {c c' : Call} {r : Request} {result : Except Errno Nat} (h : c.Good l)
    (hr : c.request = some r)
    (hc : c.hear result = some c') : c'.Good (l ++ [(r, result)]) := by
  obtain ⟨op, args, pc⟩ := c
  cases pc with
  | calling fdIn fdOut =>
      cases hc
      cases hr
      obtain ⟨hargs, hl⟩ := h
      exact ⟨hargs, l, _, rfl, hl, rfl, hargs⟩
  | answered result' => cases hr
  | ended outcome => cases hr

theorem go_good {c c' : Call} {ios : Io × Io} (h : c.Good l) (hc : c.go ios = some c') : c'.Good l := by
  obtain ⟨op, args, pc⟩ := c
  cases pc with
  | calling fdIn fdOut => cases hc
  | answered result =>
      cases hc
      obtain ⟨hargs, before, r, rfl, hbefore, hr⟩ := h
      show (⟨op, args, op.resume ios.1 ios.2 result⟩ : Call).Good _
      unfold Op.resume
      split
      · rename_i hback
        rw [back_none hback]
        exact loop_good ios.1 ios.2 hargs (hbefore.concat hr)
      · rename_i outcome hback
        exact .answered hbefore hr hback
  | ended outcome => cases hc

theorem threads_keep : threads.Keeps Call.Good :=
  ⟨fun (op, ioIn, ioOut) => enter_good op ioIn ioOut, fun _ _ _ _ _ => hear_good, fun _ _ _ _ => go_good⟩

end Steps

-- Any number of threads, with any of the three calls and any answers.
theorem calls_accounted (turns : List (Turn (Op × Io × Io) (Except Errno Nat) (Io × Io))) :
    Visits threads.step (Told Accounted) Talks.start turns :=
  threads_keep.visits (fun _ _ h => h.accounted) turns

end SleepyPenguin.Splice
