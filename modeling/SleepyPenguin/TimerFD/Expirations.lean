import SleepyPenguin.EventFD
import SleepyPenguin.Foundation.Ledger
import SleepyPenguin.TimerFD

-- TimerFD#settime, gettime and expirations, called by any number of threads
-- while time passes.
namespace SleepyPenguin.TimerFD

open Foundation Timespec EventFD

-- A timer in the kernel, in nanoseconds: when it expires first, how often then,
-- and how many of its expirations have been read since it was set.
structure Timer where
  first : Option Nat
  interval : Nat
  seen : Nat
  nonblock : Bool
  deriving DecidableEq, Repr

-- How often it has expired since it was set.
def Timer.expired (timer : Timer) (now : Nat) : Nat :=
  match timer.first with
  | none => 0
  | some first =>
      if now < first then 0
      else if timer.interval = 0 then 1
      else (now - first) / timer.interval + 1

-- How long until it expires next; zero for a timer that does not.
def Timer.remaining (timer : Timer) (now : Nat) : Nat :=
  match timer.first with
  | none => 0
  | some first =>
      if now < first then first - now
      else if timer.interval = 0 then 0
      else timer.interval - (now - first) % timer.interval

def ofNanos (n : Nat) : Timespec := ⟨n / 1000000000, n % 1000000000⟩

def Timer.current (timer : Timer) (now : Nat) : Itimerspec :=
  ⟨ofNanos timer.interval, ofNanos (timer.remaining now)⟩

-- What timerfd_settime(2) takes.
def Valid (ts : Timespec) : Prop := ts.Normal ∧ 0 ≤ ts.sec

instance (ts : Timespec) : Decidable (Valid ts) := inferInstanceAs (Decidable (_ ∧ _))

-- TFD_TIMER_ABSTIME
def abstime : BitVec 32 := 1

-- TFD_TIMER_CANCEL_ON_SET, for a clock that somebody sets.
def cancelOnSet : BitVec 32 := 2

-- The kernel's time, which does not go beyond a signed number of 64 bits.
def ktimeMax : Nat := 0x7FFFFFFFFFFFFFFF

def ktime (nanos : Int) : Nat := min nanos.toNat ktimeMax

def Timer.set (timer : Timer) (now : Nat) (call : Call) : Timer :=
  let value := ktime call.new.value.nanos
  let first := if value = 0 then none
    else some (if call.flags &&& abstime = 0 then min (now + value) ktimeMax else value)
  ⟨first, ktime call.new.interval.nanos, 0, timer.nonblock⟩

def timerfdSettime (timer : Timer) (now : Nat) (call : Call) : Option Errno →
    Except Errno Itimerspec × Timer
  | some errno => (.error errno, timer)
  | none =>
      if Valid call.new.interval ∧ Valid call.new.value ∧
        call.flags &&& ~~~(abstime ||| cancelOnSet) = 0 then
        (.ok (timer.current now), timer.set now call)
      else (.error .EINVAL, timer)

-- timerfd_gettime(2) and what becomes of it.
def gettime (fileno : Except Err Fd) (timer : Timer) (now : Nat) (fails : Option Errno) :
    Except Err (Num × Num) := do
  let _ ← fileno
  match fails with
  | some errno => .error (.sys errno)
  | none => .ok (itimerspec2ary (timer.current now))

-- read(2) with what `*buf` is after it; `none` while it blocks.
def tfdRead (timer : Timer) (now : Nat) : Option Errno → Option (Except Errno Nat × Timer)
  | some errno => some (.error errno, timer)
  | none =>
      let due := timer.expired now - timer.seen
      if due = 0 then if timer.nonblock then some (.error .EAGAIN, timer) else none
      else some (.ok due, { timer with seen := timer.seen + due })

-- A call of expirations.
structure Reader where
  nonblock : Bool
  pc : Pc
  deriving DecidableEq, Repr

-- A call up to its region.
def expirations (timer : Timer) (nonblock closed : Bool) (fcntl : Option Errno) : Timer × Reader :=
  if closed then (timer, ⟨nonblock, .ended (.error .ioError)⟩)
  else if nonblock then
    match fcntl with
    | some errno => (timer, ⟨nonblock, .ended (.error (.sys errno))⟩)
    | none => ({ timer with nonblock := true }, ⟨nonblock, .calling⟩)
  else (timer, ⟨nonblock, .calling⟩)

-- A read of so many expirations, and how often the timer had been set.
structure Entry where
  call : Nat
  due : Nat
  settings : Nat
  deriving DecidableEq, Repr

structure Sys where
  now : Nat
  timer : Timer
  settings : Nat
  calls : List Reader
  log : List Entry

def Sys.start (now : Nat) (nonblock : Bool) : Sys := ⟨now, ⟨none, 0, 0, nonblock⟩, 0, [], []⟩

-- What may happen next: time passes, the timer is set, or a call begins or goes
-- on.
inductive Event
  | pass (n : Nat)
  | settime (w : Nat) (fileno : Except Err Fd) (fl : Flags) (interval value : Num) (fails : Option Errno)
  | enter (nonblock closed : Bool) (fcntl : Option Errno)
  | region (i : Nat) (fails : Option Errno)
  | resume (i : Nat) (closed : Bool)
  | wake (i : Nat) (closed : Bool)

def Sys.settime (s : Sys) (w : Nat) (fileno : Except Err Fd) (fl : Flags) (interval value : Num)
    (fails : Option Errno) : Except Err (Num × Num) × Sys :=
  match settimeCall w fileno fl interval value with
  | .error e => (.error e, s)
  | .ok call =>
      match timerfdSettime s.timer s.now call fails with
      | (.error errno, _) => (.error (.sys errno), s)
      | (.ok old, timer) => (.ok (itimerspec2ary old), { s with
          timer := timer
          settings := s.settings + 1 })

def step (s : Sys) : Event → Option Sys
  | .pass n => some { s with now := s.now + n }
  | .settime w fileno fl interval value fails => some (s.settime w fileno fl interval value fails).2
  | .enter nonblock closed fcntl =>
      let (timer, reader) := expirations s.timer nonblock closed fcntl
      some { s with
        timer := timer
        calls := s.calls ++ [reader] }
  | .region i fails =>
      match s.calls[i]? with
      | some ⟨nonblock, .calling⟩ =>
          (tfdRead s.timer s.now fails).map fun (result, timer) => { s with
            timer := timer
            calls := s.calls.set i ⟨nonblock, .answered result⟩
            log := s.log ++ (result.toOption.map fun due => ⟨i, due, s.settings⟩).toList }
      | _ => none
  | .resume i closed =>
      match s.calls[i]? with
      | some ⟨nonblock, .answered result⟩ => some { s with
          calls := s.calls.set i ⟨nonblock, EventFD.resume .int .nil nonblock closed result⟩ }
      | _ => none
  | .wake i closed =>
      match s.calls[i]? with
      | some ⟨nonblock, .waiting errno⟩ => some { s with
          calls := s.calls.set i ⟨nonblock, afterWait closed errno⟩ }
      | _ => none

-- What a call has told its caller or is going to.
def Reader.share (c : Reader) : List Nat :=
  match c.pc with
  | .ended (.ok (.int n)) => [n]
  | .answered (.ok n) => [n]
  | _ => []

-- The reads since the timer was last set.
def Sys.sum (s : Sys) : Nat :=
  (s.log.map fun entry => if entry.settings = s.settings then entry.due else 0).sum

-- The number that Ruby gets for so many nanoseconds: it is as near as doubles
-- are, and the very nanoseconds can be told from it for less than 2 ^ 20 seconds.
structure Tells (x : Num) (nanos : Nat) : Prop where
  near : |x.value - nanos / 1000000000| ≤ nanos / 1000000000 / 2 ^ 51
  short : nanos < 2 ^ 20 * 1000000000 → x.nanos = nanos

-- The kernel can hold what a relative settime has handed it.
def Call.Held (call : Call) (now : Nat) : Prop :=
  call.flags &&& abstime = 0 ∧ call.new.interval.nanos ≤ ktimeMax ∧ now + call.new.value.nanos ≤ ktimeMax

-- Every expiration is told to one caller, unless it is due or the timer is set
-- again before it is read. gettime tells when the next one is, by numbers that set
-- the timer so again; settime what gettime would have told, and then gettime what
-- a relative settime has set.
structure Reported (s : Sys) : Prop where
  told : Booked (fun entry => some entry.call) (fun entry => [entry.due])
    (fun _ entry => 0 < entry.due) Reader.share
    s.calls s.log
  due : s.sum + (s.timer.expired s.now - s.timer.seen) = s.timer.expired s.now
  nils : ∀ c ∈ s.calls, c.pc = .ended (.ok .nil) → c.nonblock = true
  gettime : ∃ interval value, (∀ fd, TimerFD.gettime (.ok fd) s.timer s.now none = .ok (interval, value)) ∧
    Tells interval s.timer.interval ∧ Tells value (s.timer.remaining s.now) ∧
    ((s.timer.current s.now).interval.Short → (s.timer.current s.now).value.Short →
      ∀ w fd fl flags, 32 ≤ w → rbSpGetFlags fl 0 = .ok flags →
        settimeCall w (.ok fd) fl interval value = .ok ⟨fd, flags, s.timer.current s.now⟩)
  next : ∀ d, s.timer.expired (s.now + d) = s.timer.expired s.now ↔
    (d < s.timer.remaining s.now ∨ s.timer.remaining s.now = 0)
  settime : ∀ w fileno fl interval value fails old,
    (s.settime w fileno fl interval value fails).1 = .ok old →
    ∀ fd, TimerFD.gettime (.ok fd) s.timer s.now none = .ok old ∧
      ∃ call, settimeCall w fileno fl interval value = .ok call ∧ (call.Held s.now →
        TimerFD.gettime (.ok fd) (s.settime w fileno fl interval value fails).2.timer s.now none =
          .ok (itimerspec2ary call.new))

section Time

variable (timer : Timer) (now : Nat)

theorem expired_le (n : Nat) : timer.expired now ≤ timer.expired (now + n) := by
  unfold Timer.expired
  cases timer.first with
  | none => exact Nat.le_refl _
  | some first =>
      simp only
      by_cases hnow : now < first
      · rw [if_pos hnow]
        exact Nat.zero_le _
      rw [if_neg hnow, if_neg (by omega : ¬now + n < first)]
      by_cases hinterval : timer.interval = 0
      · rw [if_pos hinterval, if_pos hinterval]
      · rw [if_neg hinterval, if_neg hinterval]
        exact Nat.succ_le_succ (Nat.div_le_div_right (by omega))

-- A quotient stays what it is up to the next multiple.
theorem div_eq_iff_remainder {a b : Nat} (hb : 0 < b) (d : Nat) : (a + d) / b = a / b ↔ d < b - a % b := by
  have hmod := Nat.mod_lt a hb
  have hsplit : a + d = (a % b + d) + b * (a / b) := by
    have := Nat.mod_add_div a b
    omega
  rw [hsplit, Nat.add_mul_div_left _ _ hb, Nat.add_eq_right, Nat.div_eq_zero_iff]
  omega

-- The next expiration is as far as the timer says.
theorem expired_eq_iff (d : Nat) : timer.expired (now + d) = timer.expired now ↔
    (d < timer.remaining now ∨ timer.remaining now = 0) := by
  unfold Timer.expired Timer.remaining
  cases timer.first with
  | none => simp
  | some first =>
      simp only
      by_cases hnow : now < first
      · rw [if_pos hnow, if_pos hnow]
        by_cases hlater : now + d < first
        · rw [if_pos hlater]
          omega
        · have hpos : (if timer.interval = 0 then 1 else (now + d - first) / timer.interval + 1) ≠ 0 := by
            split
            · exact Nat.one_ne_zero
            · exact Nat.succ_ne_zero _
          rw [if_neg hlater]
          omega
      rw [if_neg hnow, if_neg hnow, if_neg (by omega : ¬now + d < first)]
      by_cases hinterval : timer.interval = 0
      · simp [hinterval]
      have hpos := Nat.pos_of_ne_zero hinterval
      have hmod := Nat.mod_lt (now - first) hpos
      have hsub : now + d - first = (now - first) + d := by omega
      rw [if_neg hinterval, if_neg hinterval, if_neg hinterval, Nat.add_right_cancel_iff, hsub,
        div_eq_iff_remainder hpos]
      omega

theorem nanos_ofNanos (n : Nat) : (ofNanos n).nanos = n := by
  simp only [ofNanos, Timespec.nanos, nanoPerSec]
  omega

theorem ofNanos_ktime {ts : Timespec} (h : Valid ts) (hheld : ts.nanos ≤ ktimeMax) :
    ofNanos (ktime ts.nanos) = ts := by
  obtain ⟨⟨h0, h1⟩, hsec⟩ := h
  have hktime : ktime ts.nanos = ts.nanos.toNat := Nat.min_eq_left (by omega)
  rw [hktime]
  cases ts with
  | mk sec nsec =>
      simp only [ofNanos, Timespec.nanos, nanoPerSec, Timespec.mk.injEq] at *
      omega

theorem current_set {call : Call} (hinterval : Valid call.new.interval) (hvalue : Valid call.new.value)
    (hheld : call.Held now) : (timer.set now call).current now = call.new := by
  obtain ⟨hrelative, hlongest, hlast⟩ := hheld
  have hfits : call.new.value.nanos ≤ ktimeMax := by omega
  have hremaining : (timer.set now call).remaining now = ktime call.new.value.nanos := by
    simp only [Timer.remaining, Timer.set, hrelative, ite_true]
    by_cases hzero : ktime call.new.value.nanos = 0
    · simp [hzero]
    · have hsum : min (now + ktime call.new.value.nanos) ktimeMax = now + ktime call.new.value.nanos := by
        unfold ktime at *
        omega
      simp only [if_neg hzero, hsum]
      rw [if_pos (by omega)]
      omega
  unfold Timer.current
  rw [hremaining, ofNanos_ktime hvalue hfits]
  show (⟨ofNanos (ktime call.new.interval.nanos), call.new.value⟩ : Itimerspec) = call.new
  rw [ofNanos_ktime hinterval hlongest]

theorem tells_ofNanos (n : Nat) : Tells (timespec2num (ofNanos n)) n := by
  have hseconds : (ofNanos n).seconds = n / 1000000000 := by
    rw [seconds_eq, nanos_ofNanos]
    simp
  have hsec : 0 ≤ (ofNanos n).sec := by
    simp only [ofNanos]
    omega
  have hnormal : (ofNanos n).Normal := by
    simp only [ofNanos, Timespec.Normal, nanoPerSec]
    omega
  refine ⟨?_, fun hshort => ?_⟩
  · rw [← hseconds]
    exact timespec2num_near hsec hnormal.1
  · rw [(nanos_timespec2num ⟨hnormal, hsec, ?_⟩).1, nanos_ofNanos]
    simp only [ofNanos]
    omega

end Time

def Reader.Good (c : Reader) : Prop := c.pc = .ended (.ok .nil) → c.nonblock = true

structure Inv (s : Sys) : Prop where
  told : Booked (fun entry => some entry.call) (fun entry => [entry.due])
    (fun _ entry => 0 < entry.due) Reader.share
    s.calls s.log
  read : s.sum = s.timer.seen ∧ s.timer.seen ≤ s.timer.expired s.now
  past : ∀ entry ∈ s.log, entry.settings ≤ s.settings
  good : ∀ c ∈ s.calls, c.Good

theorem timerfdSettime_ok {timer timer' : Timer} {now : Nat} {call : Call} {fails : Option Errno}
    {old : Itimerspec}
    (h : timerfdSettime timer now call fails = (.ok old, timer')) :
    Valid call.new.interval ∧ Valid call.new.value ∧ old = timer.current now ∧
      timer' = timer.set now call := by
  cases fails with
  | some errno => cases h
  | none =>
      simp only [timerfdSettime] at h
      split at h
      · rename_i hvalid
        cases h
        exact ⟨hvalid.1, hvalid.2.1, rfl, rfl⟩
      · cases h

theorem settime_told {s : Sys} {w : Nat} {fileno : Except Err Fd} {fl : Flags} {interval value : Num}
    {fails : Option Errno} {old : Num × Num} (h : (s.settime w fileno fl interval value fails).1 =
      .ok old) (fd : Fd) :
    gettime (.ok fd) s.timer s.now none = .ok old ∧
      ∃ call, settimeCall w fileno fl interval value = .ok call ∧ (call.Held s.now →
        gettime (.ok fd) (s.settime w fileno fl interval value fails).2.timer s.now none =
          .ok (itimerspec2ary call.new)) := by
  unfold Sys.settime at *
  split at h
  · cases h
  rename_i call hcall
  split at h
  · cases h
  rename_i spec timer hset
  obtain ⟨hinterval, hvalue, rfl, rfl⟩ := timerfdSettime_ok hset
  refine ⟨h, call, hcall, fun hheld => ?_⟩
  show Except.ok (itimerspec2ary ((s.timer.set s.now call).current s.now)) = _
  rw [current_set _ _ hinterval hvalue hheld]

theorem Inv.reported {s : Sys} (h : Inv s) : Reported s := by
  obtain ⟨hsum, hle⟩ := h.read
  refine ⟨h.told, by omega, h.good,
    ⟨_, _, fun _ => rfl, tells_ofNanos s.timer.interval, tells_ofNanos (s.timer.remaining s.now), ?_⟩,
    expired_eq_iff s.timer s.now, fun w fileno fl interval value fails old hok fd => settime_told hok fd⟩
  exact fun hinterval hvalue w fd fl flags hw hfl => settimeCall_itimerspec2ary hw rfl hfl hinterval hvalue

section Steps

variable {s s' : Sys} {c c' : Reader} {i : Nat}

theorem expirations_cases (timer : Timer) (nonblock closed : Bool) (fcntl : Option Errno) :
    (expirations timer nonblock closed fcntl).2.Good ∧
    (expirations timer nonblock closed fcntl).2.share = [] ∧
      (expirations timer nonblock closed fcntl).1.seen = timer.seen ∧
      ∀ now, (expirations timer nonblock closed fcntl).1.expired now = timer.expired now := by
  unfold expirations
  split
  · exact ⟨by rintro ⟨⟩, rfl, rfl, fun _ => rfl⟩
  split
  · split
    · exact ⟨by rintro ⟨⟩, rfl, rfl, fun _ => rfl⟩
    · exact ⟨by rintro ⟨⟩, rfl, rfl, fun _ => rfl⟩
  · exact ⟨by rintro ⟨⟩, rfl, rfl, fun _ => rfl⟩

-- A read that succeeds takes all that is due.
theorem tfdRead_cases {timer timer' : Timer} {now : Nat} {fails : Option Errno} {result : Except Errno Nat}
    (h : tfdRead timer now fails = some (result, timer')) :
    (∃ errno, result = .error errno ∧ timer' = timer) ∨
    ∃ due, result = .ok due ∧ 0 < due ∧ timer' = { timer with seen := timer.seen + due } ∧
      due = timer.expired now - timer.seen := by
  cases fails with
  | some errno =>
      cases h
      exact Or.inl ⟨errno, rfl, rfl⟩
  | none =>
      simp only [tfdRead] at h
      split at h
      · split at h
        · cases h
          exact Or.inl ⟨.EAGAIN, rfl, rfl⟩
        · cases h
      · rename_i hdue
        cases h
        exact Or.inr ⟨_, rfl, Nat.pos_of_ne_zero hdue, rfl, rfl⟩

theorem resume_good (nonblock closed : Bool) (result : Except Errno Nat) :
    (⟨nonblock, EventFD.resume .int .nil nonblock closed result⟩ : Reader).Good ∧
      (⟨nonblock, EventFD.resume .int .nil nonblock closed result⟩ : Reader).share =
        (⟨nonblock, .answered result⟩ : Reader).share := by
  cases result with
  | ok n => exact ⟨by rintro ⟨⟩, rfl⟩
  | error errno =>
      unfold EventFD.resume
      simp only
      split
      · rename_i hrefused
        exact ⟨fun _ => hrefused.2, rfl⟩
      split
      · exact ⟨by rintro ⟨⟩, rfl⟩
      · exact ⟨by rintro ⟨⟩, rfl⟩

theorem wake_good (nonblock closed : Bool) (errno : Errno) :
    (⟨nonblock, afterWait closed errno⟩ : Reader).Good ∧
      (⟨nonblock, afterWait closed errno⟩ : Reader).share = [] := by
  unfold afterWait
  split
  · exact ⟨by rintro ⟨⟩, rfl⟩
  split
  · exact ⟨by rintro ⟨⟩, rfl⟩
  · exact ⟨by rintro ⟨⟩, rfl⟩

theorem Inv.goOn (h : Inv s) (hc : s.calls[i]? = some c) (hgood : c'.Good) (hshare : c'.share = c.share) :
    Inv { s with calls := s.calls.set i c' } :=
  ⟨h.told.keep hc (fun _ hpos => hpos) hshare, h.read, h.past, List.forall_mem_set h.good hgood⟩

theorem Inv.enter (h : Inv s) (nonblock closed : Bool) (fcntl : Option Errno) : Inv { s with
    timer := (expirations s.timer nonblock closed fcntl).1
    calls := s.calls ++ [(expirations s.timer nonblock closed fcntl).2] } := by
  obtain ⟨hgood, hshare, hseen, hexpired⟩ := expirations_cases s.timer nonblock closed fcntl
  obtain ⟨hsum, hle⟩ := h.read
  exact ⟨h.told.begin hshare, ⟨hsum.trans hseen.symm,
    (hseen.trans_le hle).trans_eq (hexpired s.now).symm⟩, h.past,
    List.forall_mem_concat h.good hgood⟩

-- Setting the timer begins a new account.
theorem Inv.settime (h : Inv s) (w : Nat) (fileno : Except Err Fd) (fl : Flags) (interval value : Num)
    (fails : Option Errno) : Inv (s.settime w fileno fl interval value fails).2 := by
  unfold Sys.settime
  split
  · exact h
  split
  · exact h
  · rename_i call _ old timer hset
    have hseen : timer.seen = 0 := by
      rw [(timerfdSettime_ok hset).2.2.2]
      rfl
    refine ⟨h.told, ⟨?_, by rw [hseen]; exact Nat.zero_le _⟩,
      fun entry he => Nat.le_succ_of_le (h.past entry he),
      h.good⟩
    show (s.log.map fun entry => if entry.settings = s.settings + 1 then entry.due else 0).sum = timer.seen
    rw [hseen]
    refine List.sum_eq_zero fun n hn => ?_
    obtain ⟨entry, he, rfl⟩ := List.mem_map.mp hn
    have hpast := h.past entry he
    exact if_neg (by omega)

theorem Inv.region (h : Inv s) {nonblock : Bool} {fails : Option Errno} {result : Except Errno Nat}
    {timer : Timer}
    (hc : s.calls[i]? = some ⟨nonblock, .calling⟩)
    (hread : tfdRead s.timer s.now fails = some (result, timer)) :
    Inv { s with
      timer := timer
      calls := s.calls.set i ⟨nonblock, .answered result⟩
      log := s.log ++ (result.toOption.map fun due => ⟨i, due, s.settings⟩).toList } := by
  obtain ⟨hsum, hle⟩ := h.read
  rcases tfdRead_cases hread with ⟨errno, rfl, rfl⟩ | ⟨due, rfl, hpos, rfl, hdue⟩
  · simp only [Except.toOption, Option.map_none, Option.toList_none, List.append_nil]
    exact h.goOn hc (by rintro ⟨⟩) rfl
  · simp only [Except.toOption, Option.map_some, Option.toList_some]
    refine ⟨h.told.enter hc (fun _ hpos => hpos) rfl hpos rfl, ⟨?_, ?_⟩, ?_,
      List.forall_mem_set h.good (by rintro ⟨⟩)⟩
    · simp only [Sys.sum, List.map_append, List.map_cons, List.map_nil, ite_true, List.sum_append,
        List.sum_cons,
        List.sum_nil, Nat.add_zero] at hsum ⊢
      rw [hsum]
    · show s.timer.seen + due ≤ s.timer.expired s.now
      omega
    · exact List.forall_mem_concat h.past (Nat.le_refl _)

theorem step_inv (h : Inv s) {event : Event} (hs : step s event = some s') : Inv s' := by
  cases event with
  | pass n =>
      cases hs
      exact ⟨h.told, ⟨h.read.1, Nat.le_trans h.read.2 (expired_le s.timer s.now n)⟩, h.past, h.good⟩
  | settime w fileno fl interval value fails =>
      cases hs
      exact h.settime w fileno fl interval value fails
  | enter nonblock closed fcntl =>
      cases hs
      exact h.enter nonblock closed fcntl
  | region i fails =>
      simp only [step] at hs
      split at hs
      · rename_i nonblock hc
        obtain ⟨⟨result, timer⟩, hread, rfl⟩ := Option.map_eq_some_iff.mp hs
        exact h.region hc hread
      · cases hs
  | resume i closed =>
      simp only [step] at hs
      split at hs
      · rename_i nonblock result hc
        cases hs
        obtain ⟨hgood, hshare⟩ := resume_good nonblock closed result
        exact h.goOn hc hgood hshare
      · cases hs
  | wake i closed =>
      simp only [step] at hs
      split at hs
      · rename_i nonblock errno hc
        cases hs
        obtain ⟨hgood, hshare⟩ := wake_good nonblock closed errno
        exact h.goOn hc hgood hshare
      · cases hs

end Steps

end SleepyPenguin.TimerFD
