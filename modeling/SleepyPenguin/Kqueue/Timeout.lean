import SleepyPenguin.Kqueue.Conversion
import SleepyPenguin.Kqueue.Deadline
import SleepyPenguin.Runtime.Timespec

-- Every timeout that a Kqueue::IO#kevent hands to kevent(2).
namespace SleepyPenguin.Kqueue.Timeout

open Timespec Deadline Conversion

-- What a call depends on before kevent(2): its arguments, whether there is memory
-- for the buffer, and the descriptor of the IO, `none` once it is closed.
structure Args where
  sizes : Sizes
  changelist : Argument
  nevents : Option Int
  block : Bool
  timeout : Option Num
  memory : Bool
  fd : Option Fd

def timespecOf (w : Nat) : Option Num → Except Err (Option Timespec)
  | none => .ok none
  | some timeout => (value2timespec w timeout).map some

def Args.call (args : Args) (timeout : Except Err Unit) : Conversion.Call :=
  ⟨args.nevents, args.block, timeout, args.memory, args.fd.isNone⟩

-- sp_kevent up to kevent(2): the changes, and how long to wait.
def Args.prepare (w : Nat) (args : Args) : Except Failure (List Record × Option Timespec) := do
  let t := timespecOf w args.timeout
  let changes ← Conversion.spKevent args.sizes args.changelist (args.call (t.map fun _ => ()))
  let t ← lift t
  .ok (changes, t)

-- The calls of kevent(2) that one kevent makes: `start` is the clock as it
-- begins, `readings` what it shows at each interruption.
def spKevent (w : Nat) (args : Args) (start : Timespec) (readings : List Timespec) :
    Except Failure (List Kpt) := do
  let (changes, t) ← args.prepare w
  .ok (doKevent start ⟨changes.length, t⟩ (interruptedAt readings))

-- All but the timeout is accepted.
def Args.Accepted (args : Args) : Prop :=
  (Conversion.spKevent args.sizes args.changelist (args.call (.ok ()))).isOk

instance (args : Args) : Decidable args.Accepted := inferInstanceAs (Decidable (_ = true))

def WaitsNormal (kpt : Kpt) : Prop := ∀ ts, kpt.ts = some ts → ts.Normal

section Resumed

variable {start ts before : Timespec} {kpt : Kpt} {readings : List Timespec}

theorem resumed_forever {deadline : Timespec} (hkpt : kpt.ts = none) :
    ∀ next ∈ resumed deadline kpt (interruptedAt readings), next.ts = none := by
  induction readings generalizing kpt with
  | nil =>
      intro next hn
      cases hn
  | cons now rest ih =>
      have hstep : keventResumeP deadline kpt ⟨.EINTR, now⟩ = some { kpt with nchanges := 0 } := by
        simp only [keventResumeP, ne_eq, not_true_eq_false, ite_false, hkpt]
      have hrest : ({ kpt with nchanges := 0 } : Kpt).ts = none := hkpt
      simp only [interruptedAt, List.map_cons, resumed, hstep]
      intro next hn
      rcases List.mem_cons.mp hn with rfl | hn
      · exact hkpt
      · exact ih hrest next hn

theorem resumed_normal_iff (hts : ts.Normal) (hstart : start.Normal)
    (hnormal : ∀ now ∈ readings, now.Normal) (hforward : Forward readings) (hkpt : kpt.ts = some before) :
    (∀ next ∈ resumed (expireAt start ts) kpt (interruptedAt readings), WaitsNormal next) ↔
      ∀ now ∈ readings, ¬Slips start ts now := by
  induction readings generalizing kpt before with
  | nil => simp [interruptedAt, resumed]
  | cons now rest ih =>
      have hnow := hnormal now List.mem_cons_self
      have hdeadline := nanos_expireAt start ts
      obtain ⟨hd0, hd1, _⟩ := expireAt_bounds hts hstart
      simp only [interruptedAt, List.map_cons, resumed]
      rcases keventResumeP_cases hd0 hd1 hnow hkpt with ⟨hr, hle⟩ | ⟨hr, hsec, _⟩
      · rw [hr]
        have hpast := not_slips_of_forward hforward (hdeadline ▸ hle)
        exact ⟨fun _ => hpast, fun _ next hn => (by cases hn)⟩
      · rw [hr]
        have hrest := ih (fun other ho => hnormal other (List.mem_cons_of_mem _ ho))
          (List.pairwise_cons.mp hforward).2
          (show Kpt.ts ⟨0, some (tssub (expireAt start ts) now)⟩ = some _ from rfl)
        have hfirst : WaitsNormal ⟨0, some (tssub (expireAt start ts) now)⟩ ↔ ¬Slips start ts now := by
          rw [← tssub_expireAt_normal_iff hts hstart hnow hsec]
          constructor
          · intro h
            exact h _ rfl
          · intro h t ht
            cases ht
            exact h
        rw [interruptedAt] at hrest
        rw [List.forall_mem_cons, List.forall_mem_cons, hfirst, hrest]

-- The first call waits for the timeout itself.
theorem doKevent_normal_iff (nchanges : Nat) (ts : Timespec) (hstart : start.Normal)
    (hnormal : ∀ now ∈ readings, now.Normal) (hforward : Forward readings) :
    (∀ kpt ∈ doKevent start ⟨nchanges, some ts⟩ (interruptedAt readings), WaitsNormal kpt) ↔
      ts.Normal ∧ ∀ now ∈ readings, ¬Slips start ts now := by
  simp only [doKevent]
  rw [List.forall_mem_cons]
  constructor
  · intro ⟨hfirst, hrest⟩
    have hts := hfirst ts rfl
    exact ⟨hts, (resumed_normal_iff hts hstart hnormal hforward rfl).mp hrest⟩
  · intro ⟨hts, hno⟩
    refine ⟨fun t ht => ?_, (resumed_normal_iff hts hstart hnormal hforward rfl).mpr hno⟩
    cases ht
    exact hts

end Resumed

section Kevent

variable {w : Nat} {args : Args} {start : Timespec} {readings : List Timespec}

theorem prepare_ok_iff {changes : List Record} {t : Option Timespec} :
    args.prepare w = .ok (changes, t) ↔ timespecOf w args.timeout = .ok t ∧
      Conversion.spKevent args.sizes args.changelist (args.call (.ok ())) = .ok changes := by
  unfold Args.prepare
  cases timespecOf w args.timeout with
  | error e =>
      simp only [Except.bind_ok_iff, reduceCtorEq, false_and, iff_false, not_exists, not_and]
      intro _ hchanges
      obtain ⟨_, _, hchanges⟩ := Except.bind_ok_iff.mp hchanges
      obtain ⟨_, _, hchanges⟩ := Except.bind_ok_iff.mp hchanges
      obtain ⟨_, htimeout, _⟩ := Except.bind_ok_iff.mp hchanges
      cases htimeout
  | ok t' =>
      simp only [Except.bind_ok_iff]
      constructor
      · intro ⟨other, hchanges, waits, hwaits, hpair⟩
        cases hwaits
        cases hpair
        exact ⟨rfl, hchanges⟩
      · intro ⟨ht, hchanges⟩
        cases ht
        exact ⟨changes, hchanges, t, rfl, rfl⟩

theorem spKevent_ok_iff {calls : List Kpt} :
    spKevent w args start readings = .ok calls ↔
      ∃ changes t, timespecOf w args.timeout = .ok t ∧
        Conversion.spKevent args.sizes args.changelist (args.call (.ok ())) = .ok changes ∧
        doKevent start ⟨changes.length, t⟩ (interruptedAt readings) = calls := by
  simp only [spKevent, Except.bind_ok_iff]
  constructor
  · intro ⟨(changes, t), hprepare, hcalls⟩
    obtain ⟨ht, hchanges⟩ := prepare_ok_iff.mp hprepare
    exact ⟨changes, t, ht, hchanges, Except.ok.inj hcalls⟩
  · intro ⟨changes, t, ht, hchanges, hcalls⟩
    exact ⟨(changes, t), prepare_ok_iff.mpr ⟨ht, hchanges⟩, congrArg _ hcalls⟩

theorem doKevent_forever {nchanges : Nat} :
    ∀ kpt ∈ doKevent start ⟨nchanges, none⟩ (interruptedAt readings), WaitsNormal kpt := by
  intro kpt hkpt ts hts
  rcases List.mem_cons.mp hkpt with rfl | hkpt
  · cases hts
  · rw [resumed_forever rfl kpt hkpt] at hts
    cases hts

-- A kevent waits for normal timespecs, but for the timeouts that do not carry
-- and the deadlines that do not.
theorem spKevent_normal_iff (hfits : ∀ x ∈ args.timeout, x.Fits w) (hstart : start.Normal)
    (hnormal : ∀ now ∈ readings, now.Normal) (hforward : Forward readings) :
    (∀ calls, spKevent w args start readings = .ok calls → ∀ kpt ∈ calls, WaitsNormal kpt) ↔
      (args.Accepted → ∀ x ∈ args.timeout,
        ¬x.NearWhole ∧ ∀ now ∈ readings, ¬Slips start x.timespec now) := by
  cases htimeout : args.timeout with
  | none =>
      constructor
      · intro _ _ x hx
        cases hx
      · intro _ calls hcalls
        obtain ⟨changes, t, ht, _, rfl⟩ := spKevent_ok_iff.mp hcalls
        rw [htimeout] at ht
        cases ht
        exact doKevent_forever
  | some x =>
      obtain ⟨ts, hts, hnanos, hcarries⟩ := value2timespec_ok (hfits x (by rw [htimeout]; rfl))
      have hof : timespecOf w args.timeout = .ok (some ts) := by
        rw [htimeout, timespecOf, hts]
        rfl
      have hwaits := fun nchanges => doKevent_normal_iff nchanges ts hstart hnormal hforward
      have hcondition : (ts.Normal ∧ ∀ now ∈ readings, ¬Slips start ts now) ↔
          ¬x.NearWhole ∧ ∀ now ∈ readings, ¬Slips start x.timespec now := by
        rw [← hcarries]
        constructor
        · intro ⟨hn, hno⟩
          exact ⟨hn, (eq_timespec_iff hnanos).mpr hn ▸ hno⟩
        · intro ⟨hn, hno⟩
          refine ⟨hn, ?_⟩
          rwa [(eq_timespec_iff hnanos).mpr hn]
      constructor
      · intro h haccepted y hy
        cases hy
        obtain ⟨changes, hchanges⟩ := Except.isOk_iff.mp haccepted
        apply hcondition.mp
        apply (hwaits changes.length).mp
        exact h _ (spKevent_ok_iff.mpr ⟨changes, _, hof, hchanges, rfl⟩)
      · intro h calls hcalls
        obtain ⟨changes, t, ht, hchanges, rfl⟩ := spKevent_ok_iff.mp hcalls
        rw [hof] at ht
        cases ht
        exact (hwaits changes.length).mpr
          (hcondition.mpr (h (Except.isOk_iff.mpr ⟨changes, hchanges⟩) x rfl))

end Kevent

end SleepyPenguin.Kqueue.Timeout
