import SleepyPenguin.Sendfile.Calls
import SleepyPenguin.Splice.Accounts

-- What the calls of linux_sendfile ask the kernel for, and what they tell, on
-- each of the three implementations.
namespace SleepyPenguin.Sendfile.Calls

open Foundation
open SleepyPenguin.Splice (Io rbSpFileno rbSpFileno_error optOfft optOfft_error wrapping_error map_error)

-- What a call has said to the kernel and heard.
abbrev Rounds := List (Request × Answer)

-- Whether a system call uses the position of the source.
def Request.uses : Request → Bool
  | .linuxSendfile _ _ off _ => off.isNone
  | .lseek _ _ | .read _ _ => true
  | _ => false

-- The bytes that a system call has sent.
def sent : Request × Answer → Nat
  | (.linuxSendfile _ _ _ _, .counts n) | (.write _ _, .counts n) | (.bsdSendfile _ _ _ _, .sends _ n) => n
  | _ => 0

def tells : Except Err Returned → Nat
  | .ok (.bytes n) => n
  | _ => 0

def toldBy : Except Errno Nat → Nat
  | .ok n => n
  | .error _ => 0

-- One try, from its first system call to what the region returns.
inductive Try (a : Args) (src dst : Option Fd) : Platform → Rounds → Except Errno Nat → Prop
  | linux {answer : Answer} {result : Except Errno Nat} (h : counted answer = some result) :
      Try a src dst .linux [(.linuxSendfile dst src a.off a.count, answer)] result
  | bsdAt {off : Int} {rc : Except Errno Unit} {n : Nat} (offset : a.off = some off) :
      Try a src dst .bsd [(.bsdSendfile src dst off a.count, .sends rc n)]
        (if n > 0 then .ok n else rc.map fun _ => 0)
  | bsdNothing {answer : Answer} {off : Int} {rc : Except Errno Unit} (offset : a.off = none)
      (located : position answer = some off) :
      Try a src dst .bsd [(.lseek src 0, answer), (.bsdSendfile src dst off a.count, .sends rc 0)]
        (rc.map fun _ => 0)
  | bsdSeeks {answer after : Answer} {off : Int} {rc : Except Errno Unit} {n : Nat} (offset : a.off = none)
      (located : position answer = some off) (sending : 0 < n) :
      Try a src dst .bsd
        [(.lseek src 0, answer), (.bsdSendfile src dst off a.count, .sends rc n),
          (.lseek src n, after)] (.ok n)
  | readFails {errno : Errno} (h : errno ≠ .EINTR) :
      Try a src dst .emulated [(readOrPread a src, .fails errno)] (.error errno)
  | readEnds : Try a src dst .emulated [(readOrPread a src, .gets [])] (.ok 0)
  | writes {bytes : List UInt8} {answer : Answer} {result : Except Errno Nat} (sending : bytes ≠ [])
      (h : counted answer = some result) :
      Try a src dst .emulated [(readOrPread a src, .gets bytes), (.write dst bytes, answer)] result
  | interrupted {l : Rounds} {result : Except Errno Nat} (rest : Try a src dst .emulated l result) :
      Try a src dst .emulated ((readOrPread a src, .fails .EINTR) :: l) result

-- The tries before the present one: none, or one for which there was no memory.
inductive Before (platform : Platform) (op : Op) : Bool → Rounds → Prop
  | first : Before platform op false []
  | again {args : Args} {src dst : Option Fd} {l : Rounds} {errno : Errno} (hargs : op.args = .ok args)
      (once : Try args src dst platform l (.error errno)) (short : noMemory errno = true) :
        Before platform op true l

-- How a call ends: by an error of its own, or by what a try has come to.
inductive Ends (platform : Platform) (op : Op) : Rounds → Except Err Returned → Prop
  | own {retried : Bool} {l : Rounds} {e : Err} (before : Before platform op retried l)
      (own : Splice.Err.Own e) :
      Ends platform op l (.error e)
  | tried {retried : Bool} {earlier l : Rounds} {args : Args} {src dst : Option Fd}
      {result : Except Errno Nat}
      {outcome : Except Err Returned} (before : Before platform op retried earlier)
      (hargs : op.args = .ok args)
      (now : Try args src dst platform l result) (h : verdict retried result = some outcome) :
      Ends platform op (earlier ++ l) outcome

-- The system calls that the arguments of a call are for.
def Request.For (platform : Platform) (a : Args) : Request → Prop
  | .linuxSendfile _ _ off count => platform = .linux ∧ off = a.off ∧ count = a.count
  | .bsdSendfile _ _ off count => platform = .bsd ∧ count = a.count ∧
    ∀ given, a.off = some given → off = given
  | .lseek _ _ => platform = .bsd ∧ a.off = none
  | .pread _ count off => platform = .emulated ∧ count = maxRead a.count ∧ a.off = some off
  | .read _ count => platform = .emulated ∧ count = maxRead a.count ∧ a.off = none
  | .write _ _ => platform = .emulated

def Interrupted (a : Args) (src : Option Fd) (l : Rounds) : Prop :=
  ∀ round ∈ l, round = (readOrPread a src, .fails .EINTR)

-- What has been said in a try that is not over, by where it is.
inductive Partway (platform : Platform) (a : Args) : Rounds → Pc → Prop
  | calling {src dst : Option Fd} {l : Rounds} (before : Interrupted a src l)
      (direct : platform ≠ .emulated → l = []) : Partway platform a l (.calling src dst)
  | located {src dst : Option Fd} {off : Int} {answer : Answer} (bsd : platform = .bsd)
      (offset : a.off = none)
      (h : position answer = some off) : Partway platform a [(.lseek src 0, answer)] (.located src dst off)
  | seeking {src dst : Option Fd} {off : Int} {answer : Answer} {rc : Except Errno Unit} {n : Nat}
      (bsd : platform = .bsd) (offset : a.off = none) (h : position answer = some off) (sending : 0 < n) :
      Partway platform a [(.lseek src 0, answer), (.bsdSendfile src dst off a.count, .sends rc n)]
        (.seeking src n)
  | holding {src dst : Option Fd} {l : Rounds} {bytes : List UInt8} (emulated : platform = .emulated)
      (before : Interrupted a src l) (sending : bytes ≠ []) :
      Partway platform a (l ++ [(readOrPread a src, .gets bytes)]) (.holding dst bytes)
  | answered {src dst : Option Fd} {l : Rounds} {result : Except Errno Nat}
      (now : Try a src dst platform l result) :
      Partway platform a l (.answered result)

-- A call makes the system calls that its arguments are for, in two tries at most.
-- It tells how much they have sent and fails only where they have sent nothing;
-- with an offset none of them uses the position of the source.
structure Served (platform : Platform) (c : Call) (l : Rounds) : Prop where
  partway : (∀ outcome, c.pc ≠ .ended outcome) →
    ∃ earlier now, l = earlier ++ now ∧ Before platform c.op c.retried earlier ∧
      Partway platform c.args now c.pc
  asked : ∀ round ∈ l, ∃ args, c.op.args = .ok args ∧ round.1.For platform args
  still : c.op.offset.isSome → ∀ round ∈ l, round.1.uses = false
  ends : ∀ outcome, c.pc = .ended outcome → Ends platform c.op l outcome
  told : ∀ outcome, c.pc = .ended outcome → (l.map sent).sum = tells outcome
  failures : ∀ errno, c.pc = .ended (.error (.sys errno)) → errno ≠ .EAGAIN ∧
    (noMemory errno = true → ∃ earlier now, l = earlier ++ now ∧ Before platform c.op true earlier)

-- What holds of a call, by where it is.
def Call.Good (platform : Platform) (c : Call) (l : Rounds) : Prop :=
  match c.pc with
  | .ended outcome => Ends platform c.op l outcome
  | pc => c.op.args = .ok c.args ∧
      ∃ earlier now, l = earlier ++ now ∧ Before platform c.op c.retried earlier ∧
        Partway platform c.args now pc

section Tries

variable {platform : Platform} {a : Args} {src dst : Option Fd} {l : Rounds}
  {result : Except Errno Nat} {pc : Pc}

theorem readOrPread_for (a : Args) (src : Option Fd) : (readOrPread a src).For .emulated a := by
  unfold readOrPread
  split
  · rename_i off hoff
    exact ⟨rfl, rfl, hoff⟩
  · rename_i hoff
    exact ⟨rfl, rfl, hoff⟩

theorem Request.For.still {r : Request} (h : r.For platform a) (hoff : a.off.isSome) : r.uses = false := by
  cases r with
  | linuxSendfile dst src off count =>
      obtain ⟨_, rfl, _⟩ := h
      simpa [Request.uses] using hoff
  | lseek src n => simp [h.2] at hoff
  | read src count => simp [h.2.2] at hoff
  | bsdSendfile src dst off count => rfl
  | pread src count off => rfl
  | write dst bytes => rfl

theorem Try.interrupted_front (hl : Interrupted a src l) {rest : Rounds}
    (h : Try a src dst .emulated rest result) :
    Try a src dst .emulated (l ++ rest) result := by
  induction l with
  | nil => exact h
  | cons round before ih =>
      rw [hl round List.mem_cons_self]
      exact .interrupted (ih fun other hother => hl other (List.mem_cons_of_mem _ hother))

theorem Try.asked (h : Try a src dst platform l result) : ∀ round ∈ l, round.1.For platform a := by
  induction h with
  | linux h => exact List.forall_mem_singleton.mpr ⟨rfl, rfl, rfl⟩
  | bsdAt offset =>
      exact List.forall_mem_singleton.mpr ⟨rfl, rfl,
        fun given hgiven => Option.some.inj (offset.symm.trans hgiven)⟩
  | bsdNothing offset located =>
      have hsend : ∀ off, (Request.bsdSendfile src dst off a.count).For .bsd a :=
        fun off => ⟨rfl, rfl, fun given hgiven => nomatch offset.symm.trans hgiven⟩
      exact List.forall_mem_cons.mpr ⟨⟨rfl, offset⟩, List.forall_mem_singleton.mpr (hsend _)⟩
  | bsdSeeks offset located sending =>
      have hsend : ∀ off, (Request.bsdSendfile src dst off a.count).For .bsd a :=
        fun off => ⟨rfl, rfl, fun given hgiven => nomatch offset.symm.trans hgiven⟩
      exact List.forall_mem_cons.mpr ⟨⟨rfl, offset⟩,
        List.forall_mem_cons.mpr ⟨hsend _, List.forall_mem_singleton.mpr ⟨rfl, offset⟩⟩⟩
  | readFails h => exact List.forall_mem_singleton.mpr (readOrPread_for a src)
  | readEnds => exact List.forall_mem_singleton.mpr (readOrPread_for a src)
  | writes sending h =>
      exact List.forall_mem_cons.mpr ⟨readOrPread_for a src, List.forall_mem_singleton.mpr rfl⟩
  | interrupted rest ih => exact List.forall_mem_cons.mpr ⟨readOrPread_for a src, ih⟩

theorem sent_readOrPread (a : Args) (src : Option Fd) (answer : Answer) :
    sent (readOrPread a src, answer) = 0 := by
  unfold readOrPread
  split <;> rfl

theorem counted_cases {answer : Answer} (h : counted answer = some result) :
    (∃ errno, answer = .fails errno ∧ result = .error errno) ∨ ∃ n, answer = .counts n ∧
      result = .ok n := by
  cases answer with
  | fails errno =>
      cases h
      exact Or.inl ⟨errno, rfl, rfl⟩
  | counts n =>
      cases h
      exact Or.inr ⟨n, rfl, rfl⟩
  | gets bytes => cases h
  | sends rc n => cases h

theorem toldBy_map (rc : Except Errno Unit) : toldBy (rc.map fun _ => 0) = 0 := by
  cases rc <;> rfl

-- What a try returns is what it has sent.
theorem Try.sends (h : Try a src dst platform l result) : (l.map sent).sum = toldBy result := by
  induction h with
  | linux h =>
      rcases counted_cases h with ⟨errno, rfl, rfl⟩ | ⟨n, rfl, rfl⟩
      · rfl
      · rfl
  | @bsdAt off rc n offset =>
      simp only [List.map_cons, List.map_nil, List.sum_singleton, sent]
      split
      · rfl
      · rw [toldBy_map]
        omega
  | bsdNothing offset located => exact (toldBy_map _).symm
  | @bsdSeeks answer after off rc n offset located sending => simp [sent, toldBy]
  | readFails h => simp [sent_readOrPread, toldBy]
  | readEnds => simp [sent_readOrPread, toldBy]
  | writes sending h =>
      rcases counted_cases h with ⟨errno, rfl, rfl⟩ | ⟨n, rfl, rfl⟩
      · simp [sent, toldBy]
      · simp [sent, toldBy]
  | interrupted rest ih => rw [List.map_cons, List.sum_cons, sent_readOrPread, Nat.zero_add, ih]

theorem Interrupted.asked (h : Interrupted a src l) (round : Request × Answer) (hround : round ∈ l) :
    round.1.For .emulated a := by
  rw [h round hround]
  exact readOrPread_for a src

theorem Partway.asked (h : Partway platform a l pc) : ∀ round ∈ l, round.1.For platform a := by
  cases h with
  | calling before direct =>
      by_cases hplatform : platform = .emulated
      · subst hplatform
        exact before.asked
      · rw [direct hplatform]
        exact List.forall_mem_nil _
  | located bsd offset h => exact List.forall_mem_singleton.mpr ⟨bsd, offset⟩
  | seeking bsd offset h sending =>
      refine List.forall_mem_cons.mpr ⟨⟨bsd, offset⟩, List.forall_mem_singleton.mpr ⟨bsd, rfl, ?_⟩⟩
      intro given hgiven
      cases offset.symm.trans hgiven
  | holding emulated before sending =>
      subst emulated
      exact List.forall_mem_concat before.asked (readOrPread_for a _)
  | answered now => exact now.asked

theorem bsdAt_partway {off : Int} {count n : Nat} {rc : Except Errno Unit} (h : a = ⟨some off, count⟩) :
    Partway .bsd a [(.bsdSendfile src dst off count, .sends rc n)] (bsdSent a src rc n) := by
  subst h
  have hnow : Try ⟨some off, count⟩ src dst .bsd [(.bsdSendfile src dst off count, .sends rc n)]
      (if n > 0 then .ok n else rc.map fun _ => 0) := .bsdAt rfl
  unfold bsdSent
  split
  · rename_i hn
    rw [if_pos hn] at hnow
    exact .answered hnow
  · rename_i hn
    rw [if_neg hn] at hnow
    exact .answered hnow

theorem bsdSent_partway {answer : Answer} {off : Int} {n : Nat} {rc : Except Errno Unit}
    (hbsd : platform = .bsd)
    (hoffset : a.off = none) (h : position answer = some off) :
    Partway platform a ([(.lseek src 0, answer)] ++ [(.bsdSendfile src dst off a.count, .sends rc n)])
      (bsdSent a src rc n) := by
  subst hbsd
  unfold bsdSent
  split
  · rename_i hn
    rw [hoffset]
    exact .seeking rfl hoffset h hn
  · rename_i hn
    obtain rfl : n = 0 := by omega
    exact .answered (.bsdNothing hoffset h)

theorem emulatedRead_partway {answer : Answer} (hl : Interrupted a src l)
    (h : emulatedRead src dst answer = some pc) : Partway .emulated a
    (l ++ [(readOrPread a src, answer)]) pc := by
  unfold emulatedRead at h
  split at h
  · cases h
    exact .calling (List.forall_mem_concat hl rfl) fun hplatform => absurd rfl hplatform
  · rename_i errno hinterrupted
    cases h
    have hnow : Try a src dst .emulated [(readOrPread a src, .fails errno)] (.error errno) :=
      .readFails fun heq => hinterrupted (heq ▸ rfl)
    exact .answered (Try.interrupted_front hl hnow)
  · rename_i bytes
    cases h
    split
    · rename_i hbytes
      subst hbytes
      have hnow : Try a src dst .emulated [(readOrPread a src, .gets [])] (.ok 0) := .readEnds
      exact .answered (Try.interrupted_front hl hnow)
    · rename_i hbytes
      exact .holding rfl hl hbytes
  · cases h

-- One answer takes a try on.
theorem Partway.hear {r : Request} {answer : Answer} {pc' : Pc} {c : Call}
    (h : Partway platform c.args l c.pc)
    (hr : c.request platform = some r) (hpc : c.pc.hear platform c.args answer = some pc') :
    Partway platform c.args (l ++ [(r, answer)]) pc' := by
  obtain ⟨op, a, retried, pc⟩ := c
  cases h with
  | @calling src dst l before direct =>
      cases hr
      cases platform with
      | linux =>
          rw [direct (by decide)]
          obtain ⟨result, hresult, rfl⟩ := Option.map_eq_some_iff.mp hpc
          exact .answered (.linux hresult)
      | bsd =>
          rw [direct (by decide)]
          obtain ⟨off, count⟩ := a
          cases off with
          | some off =>
              cases answer with
              | sends rc n =>
                  cases hpc
                  exact bsdAt_partway rfl
              | _ => cases hpc
          | none =>
              obtain ⟨off, hoff, rfl⟩ := Option.map_eq_some_iff.mp hpc
              exact .located rfl rfl hoff
      | emulated => exact emulatedRead_partway before hpc
  | located bsd offset h =>
      cases hr
      cases answer with
      | sends rc n =>
          cases hpc
          exact bsdSent_partway bsd offset h
      | _ => cases hpc
  | seeking bsd offset h sending =>
      cases hr
      obtain ⟨result, _, rfl⟩ := Option.map_eq_some_iff.mp hpc
      subst bsd
      exact .answered (.bsdSeeks offset h sending)
  | @holding src dst l bytes emulated before sending =>
      cases hr
      subst emulated
      obtain ⟨result, hresult, rfl⟩ := Option.map_eq_some_iff.mp hpc
      rw [List.append_assoc]
      exact .answered (Try.interrupted_front before (.writes sending hresult))
  | answered now => cases hr

end Tries

section Before

variable {platform : Platform} {op : Op} {retried : Bool} {l : Rounds}

theorem Before.asked (h : Before platform op retried l) :
    ∀ round ∈ l, ∃ args, op.args = .ok args ∧ round.1.For platform args := by
  cases h with
  | first => exact List.forall_mem_nil _
  | again hargs once short => exact fun round hround => ⟨_, hargs, once.asked round hround⟩

theorem Before.sends (h : Before platform op retried l) : (l.map sent).sum = 0 := by
  cases h with
  | first => rfl
  | again hargs once short => exact once.sends

theorem verdict_tells {result : Except Errno Nat} {outcome : Except Err Returned}
    (h : verdict retried result = some outcome) : tells outcome = toldBy result := by
  unfold verdict at h
  split at h
  · cases h
    rfl
  · cases h
    rfl
  · split at h <;> cases h
    rfl

-- EAGAIN is not raised, and a lack of memory only by a second try.
theorem verdict_raises {result : Except Errno Nat} {errno : Errno}
    (h : verdict retried result = some (.error (.sys errno))) :
    errno ≠ .EAGAIN ∧ (noMemory errno = true → retried = true) := by
  unfold verdict at h
  split at h
  · cases h
  · cases h
  · rename_i hagain
    split at h
    · cases h
    · rename_i hretry
      cases h
      refine ⟨fun heq => hagain (heq ▸ rfl), fun hmemory => ?_⟩
      simpa [hmemory] using hretry

theorem Ends.asked {outcome : Except Err Returned} (h : Ends platform op l outcome) :
    ∀ round ∈ l, ∃ args, op.args = .ok args ∧ round.1.For platform args := by
  cases h with
  | own before own => exact before.asked
  | tried before hargs now h =>
      intro round hround
      rcases List.mem_append.mp hround with hround | hround
      · exact before.asked round hround
      · exact ⟨_, hargs, now.asked round hround⟩

theorem Ends.told {outcome : Except Err Returned} (h : Ends platform op l outcome) :
    (l.map sent).sum = tells outcome := by
  cases h with
  | own before own => exact before.sends
  | tried before hargs now h =>
      rw [List.map_append, List.sum_append, before.sends, now.sends, verdict_tells h, Nat.zero_add]

theorem Ends.failures {errno : Errno} (h : Ends platform op l (.error (.sys errno))) : errno ≠ .EAGAIN ∧
    (noMemory errno = true → ∃ earlier now, l = earlier ++ now ∧ Before platform op true earlier) := by
  cases h with
  | own before own => exact absurd rfl (own errno)
  | tried before hargs now h =>
      obtain ⟨hagain, hmemory⟩ := verdict_raises h
      exact ⟨hagain, fun hshort => ⟨_, _, rfl, hmemory hshort ▸ before⟩⟩

end Before

section Calls

variable {platform : Platform} {c c' : Call} {l : Rounds}

theorem Call.Good.asked (h : c.Good platform l) :
    ∀ round ∈ l, ∃ args, c.op.args = .ok args ∧ round.1.For platform args := by
  unfold Call.Good at h
  split at h
  · exact h.asked
  · obtain ⟨hargs, earlier, now, rfl, hbefore, hnow⟩ := h
    intro round hround
    rcases List.mem_append.mp hround with hround | hround
    · exact hbefore.asked round hround
    · exact ⟨_, hargs, hnow.asked round hround⟩

theorem args_off {op : Op} {args : Args} (h : op.args = .ok args) : args.off.isSome = op.offset.isSome := by
  obtain ⟨off, hoff, h⟩ := Except.bind_ok_iff.mp h
  obtain ⟨count, _, h⟩ := Except.bind_ok_iff.mp h
  cases h
  cases hgiven : op.offset with
  | none =>
      rw [hgiven] at hoff
      cases hoff
      rfl
  | some given =>
      rw [hgiven, optOfft] at hoff
      cases hnum : SleepyPenguin.Splice.num2offt given with
      | error e =>
          rw [hnum] at hoff
          cases hoff
      | ok n =>
          rw [hnum] at hoff
          cases hoff
          rfl

theorem Call.Good.partway (h : c.Good platform l) (hpc : ∀ outcome, c.pc ≠ .ended outcome) :
    c.op.args = .ok c.args ∧
      ∃ earlier now, l = earlier ++ now ∧ Before platform c.op c.retried earlier ∧
        Partway platform c.args now c.pc := by
  obtain ⟨op, args, retried, pc⟩ := c
  cases pc with
  | ended outcome => exact absurd rfl (hpc outcome)
  | _ => exact h

theorem Call.Good.served (h : c.Good platform l) : Served platform c l := by
  have hends : ∀ outcome, c.pc = .ended outcome → Ends platform c.op l outcome := by
    intro outcome hpc
    simp only [Call.Good, hpc] at h
    exact h
  refine ⟨fun hpc => (h.partway hpc).2, h.asked, ?_, hends,
    fun outcome hpc => (hends outcome hpc).told, fun errno hpc => (hends _ hpc).failures⟩
  intro hoffset round hround
  obtain ⟨args, hargs, hfor⟩ := h.asked round hround
  exact hfor.still ((args_off hargs).trans hoffset)

theorem args_error {op : Op} {e : Err} (h : op.args = .error e) : Splice.Err.Own e := by
  rcases Except.bind_error_iff.mp h with h | ⟨_, _, h⟩
  · exact optOfft_error h
  rcases Except.bind_error_iff.mp h with h | ⟨_, _, h⟩
  · exact wrapping_error (map_error h)
  · cases h

theorem again_good {op : Op} {args : Args} {retried : Bool} (ioSrc ioDst : Io) (hargs : op.args = .ok args)
    (hl : Before platform op retried l) : (⟨op, args, retried, again ioSrc ioDst⟩ : Call).Good
      platform l := by
  unfold again
  split
  · rename_i e he
    exact .own hl (rbSpFileno_error he)
  split
  · rename_i e he
    exact .own hl (rbSpFileno_error he)
  · exact ⟨hargs, l, [], (List.append_nil l).symm, hl, .calling (List.forall_mem_nil _) fun _ => rfl⟩

theorem enter_good (op : Op) (ioSrc ioDst : Io) : (op.enter ioSrc ioDst).Good platform [] := by
  unfold Op.enter
  split
  · rename_i e he
    exact .own .first (args_error he)
  · rename_i args hargs
    exact again_good ioSrc ioDst hargs .first

theorem Partway.good {earlier now : Rounds} (h : Partway platform c.args now c.pc)
    (hargs : c.op.args = .ok c.args)
    (hearlier : Before platform c.op c.retried earlier) : c.Good platform (earlier ++ now) := by
  obtain ⟨op, args, retried, pc⟩ := c
  cases pc with
  | ended outcome => cases h
  | _ => exact ⟨hargs, earlier, now, rfl, hearlier, h⟩

theorem hear_good {r : Request} {answer : Answer} (h : c.Good platform l) (hr : c.request platform = some r)
    (hc : c.hear platform answer = some c') : c'.Good platform (l ++ [(r, answer)]) := by
  have hpc : ∀ outcome, c.pc ≠ .ended outcome := by
    intro outcome hpc
    rw [Call.request, hpc] at hr
    cases hr
  obtain ⟨hargs, earlier, now, rfl, hearlier, hnow⟩ := h.partway hpc
  obtain ⟨pc, hpc, rfl⟩ := Option.map_eq_some_iff.mp hc
  rw [List.append_assoc]
  exact (hnow.hear hr hpc : Partway platform _ _ ({ c with pc } : Call).pc).good hargs hearlier

-- The one try that is made again had no memory.
theorem verdict_none {retried : Bool} {result : Except Errno Nat} (h : verdict retried result = none) :
    ∃ errno, result = .error errno ∧ noMemory errno = true ∧ retried = false := by
  unfold verdict at h
  split at h
  · cases h
  · cases h
  · rename_i errno _
    split at h
    · rename_i hretry
      simp only [Bool.and_eq_true, Bool.not_eq_true'] at hretry
      exact ⟨errno, rfl, hretry⟩
    · cases h

theorem go_good {ios : Io × Io} (h : c.Good platform l) (hc : c.go ios = some c') : c'.Good platform l := by
  obtain ⟨op, args, retried, pc⟩ := c
  cases pc with
  | answered result =>
      obtain ⟨hargs, earlier, now, rfl, hbefore, hnow⟩ := h
      cases hnow with
      | answered hnow =>
          simp only [Call.go] at hc
          split at hc
          · rename_i outcome hverdict
            cases hc
            exact .tried hbefore hargs hnow hverdict
          · rename_i hverdict
            cases hc
            obtain ⟨errno, rfl, hmemory, rfl⟩ := verdict_none hverdict
            cases hbefore
            exact again_good ios.1 ios.2 hargs (.again hargs hnow hmemory)
  | _ => cases hc

theorem threads_keep (platform : Platform) : (threads platform).Keeps (Call.Good platform) :=
  ⟨fun (op, ioSrc, ioDst) => enter_good op ioSrc ioDst, fun _ _ _ _ _ => hear_good, fun _ _ _ _ => go_good⟩

end Calls

end SleepyPenguin.Sendfile.Calls
