import SleepyPenguin.Foundation.Lists
import SleepyPenguin.Kqueue.Timeout

-- What TimerFD#settime has timerfd_settime(2) do.
namespace SleepyPenguin.TimerFD

open Timespec Kqueue.Deadline Kqueue.Timeout

def num2int (n : Int) : Except Err (BitVec 32) :=
  (ranged (-0x80000000) 0x80000000 n).map (BitVec.ofInt 32)

def rbSpGetFlags (flags : Flags) (defaultFlags : BitVec 32) : Except Err (BitVec 32) :=
  getFlags num2int 0 defaultFlags flags

structure Itimerspec where
  interval : Timespec
  value : Timespec
  deriving DecidableEq, Repr

def Itimerspec.Normal (its : Itimerspec) : Prop := its.interval.Normal ∧ its.value.Normal

def itimerspec2ary (its : Itimerspec) : Num × Num :=
  (timespec2num its.interval, timespec2num its.value)

-- A timerfd_settime(2).
structure Call where
  fd : Fd
  flags : BitVec 32
  new : Itimerspec
  deriving DecidableEq, Repr

-- The call that a settime makes. `fileno` is what rb_sp_fileno comes to.
def settimeCall (w : Nat) (fileno : Except Err Fd) (fl : Flags) (interval value : Num) :
    Except Err Call := do
  let fd ← fileno
  let flags ← rbSpGetFlags fl 0
  let interval ← value2timespec w interval
  let value ← value2timespec w value
  .ok ⟨fd, flags, ⟨interval, value⟩⟩

section Settime

variable {w : Nat} {fileno : Except Err Fd} {fl : Flags} {interval value : Num}

theorem settimeCall_ok_iff {call : Call} :
    settimeCall w fileno fl interval value = .ok call ↔
      fileno = .ok call.fd ∧ rbSpGetFlags fl 0 = .ok call.flags ∧
        value2timespec w interval = .ok call.new.interval ∧
        value2timespec w value = .ok call.new.value := by
  simp only [settimeCall, Except.bind_ok_iff]
  constructor
  · intro ⟨fd, hfd, flags, hflags, first, hfirst, second, hsecond, hcall⟩
    cases hcall
    exact ⟨hfd, hflags, hfirst, hsecond⟩
  · intro ⟨hfd, hflags, hfirst, hsecond⟩
    exact ⟨_, hfd, _, hflags, _, hfirst, _, hsecond, rfl⟩

-- The kernel is handed normal timespecs, but for the numbers that do not
-- carry.
theorem settimeCall_normal_iff (hinterval : interval.Fits w) (hvalue : value.Fits w) :
    (∀ call, settimeCall w fileno fl interval value = .ok call → call.new.Normal) ↔
      (fileno.isOk → (rbSpGetFlags fl 0).isOk → ¬interval.NearWhole ∧ ¬value.NearWhole) := by
  obtain ⟨first, hfirst, _, hfirstNormal⟩ := value2timespec_ok hinterval
  obtain ⟨second, hsecond, _, hsecondNormal⟩ := value2timespec_ok hvalue
  rw [← hfirstNormal, ← hsecondNormal]
  constructor
  · intro h hfileno hflags
    obtain ⟨fd, hfd⟩ := Except.isOk_iff.mp hfileno
    obtain ⟨flags, hfl⟩ := Except.isOk_iff.mp hflags
    exact h ⟨fd, flags, ⟨first, second⟩⟩ (settimeCall_ok_iff.mpr ⟨hfd, hfl, hfirst, hsecond⟩)
  · intro h call hcall
    obtain ⟨hfd, hfl, hnew1, hnew2⟩ := settimeCall_ok_iff.mp hcall
    have hnormal := h (Except.isOk_iff.mpr ⟨_, hfd⟩) (Except.isOk_iff.mpr ⟨_, hfl⟩)
    rw [hfirst] at hnew1
    rw [hsecond] at hnew2
    cases hnew1
    cases hnew2
    exact hnormal

-- The numbers for two short times set the timer to them.
theorem settimeCall_itimerspec2ary {its : Itimerspec} {fd : Fd} {flags : BitVec 32} (hw : 32 ≤ w)
    (hfd : fileno = .ok fd) (hfl : rbSpGetFlags fl 0 = .ok flags) (hinterval : its.interval.Short)
    (hvalue : its.value.Short) :
    settimeCall w fileno fl (itimerspec2ary its).1 (itimerspec2ary its).2 = .ok ⟨fd, flags, its⟩ :=
  settimeCall_ok_iff.mpr ⟨hfd, hfl, value2timespec_timespec2num hinterval (hinterval.inTimeT hw),
    value2timespec_timespec2num hvalue (hvalue.inTimeT hw)⟩

end Settime

-- The conversion, and the timespecs that settime and kevent hand to the
-- kernel: all are as they should be but where a positive fraction rounds up to
-- a whole second, and where a resumed wait slips.
theorem timespecs_normal_iff (w : Nat) :
    (∀ x : Num, x.Fits w →
      ((∃ ts, value2timespec w x = .ok ts ∧ ts.Normal ∧ |ts.seconds - x.value| ≤ 1 / 2000000000) ↔
        ¬x.NearWhole)) ∧
    (∀ fileno fl interval value, interval.Fits w → value.Fits w →
      ((∀ call, settimeCall w fileno fl interval value = .ok call → call.new.Normal) ↔
        (fileno.isOk → (rbSpGetFlags fl 0).isOk → ¬interval.NearWhole ∧ ¬value.NearWhole))) ∧
    (∀ args start readings, (∀ x ∈ args.timeout, x.Fits w) → start.Normal →
      (∀ now ∈ readings, now.Normal) → Forward readings →
      ((∀ calls, spKevent w args start readings = .ok calls → ∀ kpt ∈ calls, WaitsNormal kpt) ↔
        (args.Accepted → ∀ x ∈ args.timeout,
          ¬x.NearWhole ∧ ∀ now ∈ readings, ¬Slips start x.timespec now))) := by
  refine ⟨fun x hfits => ?_, fun _ _ _ _ => settimeCall_normal_iff, fun _ _ _ => spKevent_normal_iff⟩
  obtain ⟨ts, hok, hnanos, hnormal⟩ := value2timespec_ok hfits
  have hnear : |ts.seconds - x.value| ≤ 1 / 2000000000 := by
    rw [seconds_eq, hnanos]
    exact x.abs_nanos_sub
  rw [← hnormal]
  constructor
  · intro ⟨other, hother, hn, _⟩
    rw [hok] at hother
    cases hother
    exact hn
  · intro hn
    exact ⟨ts, hok, hn, hnear⟩

-- A second and a half below zero, a timer that is set to a hundredth of a
-- second and a kevent that waits for half a second and is interrupted once.
theorem timespecs_normal_thrice :
    (∃ ts, value2timespec 64 (.float (-3 / 2)) = .ok ts ∧ ts.Normal ∧
      |ts.seconds - Num.value (.float (-3 / 2))| ≤ 1 / 2000000000) ∧
    (∀ call, settimeCall 64 (.ok 5) (.sym (.integer 1)) (.integer 0) (.float (1 / 100)) = .ok call →
      call.new.Normal) ∧
    (∀ calls, spKevent 64 ⟨⟨40, 32⟩, .nil, none, false, some (.float (1 / 2)), true, some 7⟩ ⟨4, 250000000⟩
      [⟨4, 500000000⟩] =
      .ok calls → ∀ kpt ∈ calls, WaitsNormal kpt) := by
  obtain ⟨hconvert, hsettime, hkevent⟩ := timespecs_normal_iff 64
  refine ⟨(hconvert _ (by decide +kernel)).mpr (by decide +kernel),
    (hsettime _ _ _ _ (by decide +kernel) (by decide +kernel)).mpr fun _ _ => by decide +kernel,
    (hkevent _ _ _ ?_ (by decide) (by decide) (by decide)).mpr ?_⟩
  · intro x hx
    cases hx
    decide +kernel
  · intro _ x hx
    cases hx
    decide +kernel

-- One less 2 ^ (-32) is a Float and a whole second's nanoseconds.
theorem value2timespec_denormal :
    (Num.float (1 - 1 / 2 ^ 32)).Fits 64 ∧
      value2timespec 64 (.float (1 - 1 / 2 ^ 32)) = .ok ⟨0, 1000000000⟩ ∧
      ¬∃ ts, value2timespec 64 (.float (1 - 1 / 2 ^ 32)) = .ok ts ∧ ts.Normal := by
  have hok : value2timespec 64 (.float (1 - 1 / 2 ^ 32)) = .ok ⟨0, 1000000000⟩ := by decide +kernel
  refine ⟨by decide +kernel, hok, ?_⟩
  intro ⟨ts, hts, hnormal⟩
  rw [hok] at hts
  cases hts
  exact absurd hnormal (by decide)

end SleepyPenguin.TimerFD
