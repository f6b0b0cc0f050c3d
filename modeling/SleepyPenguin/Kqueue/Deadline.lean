import SleepyPenguin.Runtime.Clock
import SleepyPenguin.Runtime.Value

-- How long a kevent(2) that was interrupted waits when it is resumed.
namespace SleepyPenguin.Kqueue.Deadline

open Timespec

def tssub (a b : Timespec) : Timespec :=
  let res : Timespec := ⟨a.sec - b.sec, a.nsec - b.nsec⟩
  if res.nsec < 0 then ⟨res.sec - 1, res.nsec + nanoPerSec⟩ else res

-- The fields of `struct kq_per_thread` that change from one call to the next.
structure Kpt where
  nchanges : Nat
  ts : Option Timespec
  deriving DecidableEq, Repr

-- A kevent(2) that fails: its errno and what the clock says after it.
structure Failed where
  errno : Errno
  now : Timespec
  deriving DecidableEq, Repr

-- `none` where the call is not resumed.
def keventResumeP (expireAt : Timespec) (kpt : Kpt) (failed : Failed) : Option Kpt :=
  if failed.errno ≠ .EINTR then none
  else
    match kpt.ts with
    | none => some { kpt with nchanges := 0 }
    | some _ =>
        if failed.now.sec > expireAt.sec then none
        else if failed.now.sec = expireAt.sec ∧ failed.now.nsec > expireAt.nsec then none
        else some ⟨0, some (tssub expireAt failed.now)⟩

-- `expire_at` of do_kevent, with its carry.
def expireAt (start ts : Timespec) : Timespec :=
  let sum : Timespec := ⟨start.sec + ts.sec, start.nsec + ts.nsec⟩
  if sum.nsec > nanoPerSec then ⟨sum.sec + 1, sum.nsec - nanoPerSec⟩ else sum

-- The resumed calls, as long as they fail.
def resumed (deadline : Timespec) (kpt : Kpt) : List Failed → List Kpt
  | [] => []
  | failed :: rest =>
      match keventResumeP deadline kpt failed with
      | none => []
      | some next => next :: resumed deadline next rest

-- Every kevent(2) that do_kevent makes.
def doKevent (start : Timespec) (kpt : Kpt) (failures : List Failed) : List Kpt :=
  match kpt.ts with
  | some ts => kpt :: resumed (expireAt start ts) kpt failures
  | none => kpt :: resumed start kpt failures

def interruptedAt (readings : List Timespec) : List Failed := readings.map fun now => ⟨.EINTR, now⟩

theorem tssub_eq (a b : Timespec) : tssub a b =
    if a.nsec - b.nsec < 0 then ⟨a.sec - b.sec - 1, a.nsec - b.nsec + nanoPerSec⟩
    else ⟨a.sec - b.sec, a.nsec - b.nsec⟩ := rfl

theorem expireAt_eq (start ts : Timespec) : expireAt start ts =
    if start.nsec + ts.nsec > nanoPerSec then
      ⟨start.sec + ts.sec + 1, start.nsec + ts.nsec - nanoPerSec⟩
    else ⟨start.sec + ts.sec, start.nsec + ts.nsec⟩ := rfl

theorem nanos_expireAt (start ts : Timespec) : (expireAt start ts).nanos = start.nanos + ts.nanos := by
  rw [expireAt_eq]
  split <;> simp only [nanos, nanoPerSec] <;> omega

theorem nanos_tssub (a b : Timespec) : (tssub a b).nanos = a.nanos - b.nanos := by
  rw [tssub_eq]
  split <;> simp only [nanos, nanoPerSec] <;> omega

-- The deadline that is a whole second late with its carry.
def Uncarried (start ts : Timespec) : Prop := start.nsec + ts.nsec = nanoPerSec

section Resume

variable {start ts now before : Timespec} {kpt : Kpt}

-- The carry is right but for one sum of nanoseconds.
theorem expireAt_bounds (hts : ts.Normal) (hstart : start.Normal) :
    0 ≤ (expireAt start ts).nsec ∧ (expireAt start ts).nsec ≤ nanoPerSec ∧
      ((expireAt start ts).nsec = nanoPerSec ↔ Uncarried start ts) := by
  obtain ⟨hts0, hts1⟩ := hts
  obtain ⟨hs0, hs1⟩ := hstart
  rw [expireAt_eq, Uncarried]
  split
  · simp only [nanoPerSec] at *
    omega
  · simp only [nanoPerSec] at *
    exact ⟨by omega, by omega, trivial⟩

-- The borrow is right but from such a deadline to a whole second.
theorem tssub_normal_iff {deadline : Timespec} (hd0 : 0 ≤ deadline.nsec)
    (hd1 : deadline.nsec ≤ nanoPerSec) (hnow : now.Normal) :
    (tssub deadline now).Normal ↔ ¬(deadline.nsec = nanoPerSec ∧ now.nsec = 0) := by
  obtain ⟨hn0, hn1⟩ := hnow
  rw [tssub_eq]
  split <;> simp only [Timespec.Normal, nanoPerSec] at * <;> omega

theorem tssub_sec_nonneg {deadline : Timespec} (hnow : now.Normal)
    (hsec : now.sec ≤ deadline.sec) (hle : now.nanos ≤ deadline.nanos) :
    0 ≤ (tssub deadline now).sec := by
  obtain ⟨hn0, hn1⟩ := hnow
  rw [tssub_eq]
  split <;> simp only [nanos, nanoPerSec] at * <;> omega

-- One interruption, at `now`.
theorem keventResumeP_cases {deadline : Timespec} (hd0 : 0 ≤ deadline.nsec)
    (hd1 : deadline.nsec ≤ nanoPerSec)
    (hnow : now.Normal) (hkpt : kpt.ts = some before) :
    (keventResumeP deadline kpt ⟨.EINTR, now⟩ = none ∧ deadline.nanos ≤ now.nanos) ∨
    (keventResumeP deadline kpt ⟨.EINTR, now⟩ = some ⟨0, some (tssub deadline now)⟩ ∧
      now.sec ≤ deadline.sec ∧ now.nanos ≤ deadline.nanos) := by
  obtain ⟨hn0, hn1⟩ := hnow
  simp only [keventResumeP, ne_eq, not_true_eq_false, ite_false, hkpt]
  simp only [nanos, nanoPerSec] at *
  split
  · exact Or.inl ⟨rfl, by omega⟩
  · split
    · exact Or.inl ⟨rfl, by omega⟩
    · exact Or.inr ⟨rfl, by omega, by omega⟩

end Resume

-- A resumed call waits for what is left at the reading before it.
structure Waits (deadline : Int) (now : Timespec) (kpt : Kpt) : Prop where
  le : now.nanos ≤ deadline
  ts : ∃ t, kpt.ts = some t ∧ t.Normal ∧ 0 ≤ t.sec ∧ t.nanos = deadline - now.nanos

-- The calls after the interruptions at `readings`: one for each, until the
-- deadline is reached.
structure Exact (deadline : Int) (readings : List Timespec) (calls : List Kpt) : Prop where
  waits : ∀ (i : Nat) (now : Timespec) (kpt : Kpt), readings[i]? = some now → calls[i]? = some kpt →
    Waits deadline now kpt
  length : calls.length ≤ readings.length
  stopped : ∀ now, readings[calls.length]? = some now → deadline ≤ now.nanos

theorem exact_cons {deadline : Int} {now : Timespec} {kpt : Kpt} {readings : List Timespec}
    {calls : List Kpt} :
    Exact deadline (now :: readings) (kpt :: calls) ↔
      Waits deadline now kpt ∧ Exact deadline readings calls := by
  constructor
  · intro h
    refine ⟨h.waits 0 now kpt rfl rfl, ⟨fun i other next ho hn => ?_, ?_, fun other ho => ?_⟩⟩
    · exact h.waits (i + 1) other next ho hn
    · exact Nat.le_of_succ_le_succ h.length
    · exact h.stopped other ho
  · intro ⟨hw, h⟩
    refine ⟨fun i other next ho hn => ?_, Nat.succ_le_succ h.length, fun other ho => h.stopped other ho⟩
    cases i with
    | zero =>
        cases ho
        cases hn
        exact hw
    | succ i => exact h.waits i other next ho hn

section Run

variable {start ts before : Timespec} {kpt : Kpt}

-- A reading that stands on a whole second before a deadline that was not
-- carried.
def Slips (start ts now : Timespec) : Prop :=
  Uncarried start ts ∧ now.nsec = 0 ∧ now.nanos < start.nanos + ts.nanos

instance (start ts now : Timespec) : Decidable (Slips start ts now) :=
  inferInstanceAs (Decidable (_ = _ ∧ _ = _ ∧ _ < _))

-- The one wait that is left denormal.
theorem tssub_expireAt_normal_iff {now : Timespec} (hts : ts.Normal) (hstart : start.Normal)
    (hnow : now.Normal) (hsec : now.sec ≤ (expireAt start ts).sec) :
    (tssub (expireAt start ts) now).Normal ↔ ¬Slips start ts now := by
  obtain ⟨hd0, hd1, hcarry⟩ := expireAt_bounds hts hstart
  have hdeadline := nanos_expireAt start ts
  rw [tssub_normal_iff hd0 hd1 hnow, hcarry]
  constructor
  · intro hno ⟨hslip, hzero, _⟩
    exact hno ⟨hslip, hzero⟩
  · intro hno ⟨hslip, hzero⟩
    apply hno
    refine ⟨hslip, hzero, ?_⟩
    have hn := hcarry.mpr hslip
    rw [← hdeadline]
    simp only [nanos, nanoPerSec] at *
    omega

theorem waits_iff {now : Timespec} (hts : ts.Normal) (hstart : start.Normal) (hnow : now.Normal)
    (hsec : now.sec ≤ (expireAt start ts).sec) (hle : now.nanos ≤ start.nanos + ts.nanos) :
    Waits (start.nanos + ts.nanos) now ⟨0, some (tssub (expireAt start ts) now)⟩ ↔
      ¬Slips start ts now := by
  have hnanos := nanos_tssub (expireAt start ts) now
  have hdeadline := nanos_expireAt start ts
  have hnonneg := tssub_sec_nonneg hnow hsec (hdeadline ▸ hle)
  rw [← tssub_expireAt_normal_iff hts hstart hnow hsec]
  constructor
  · intro ⟨_, t, ht, htn, _⟩
    cases ht
    exact htn
  · intro hnormal
    exact ⟨hle, _, rfl, hnormal, hnonneg, hdeadline ▸ hnanos⟩

-- No reading from the deadline on slips.
theorem not_slips_of_forward {now : Timespec} {rest : List Timespec}
    (hforward : Forward (now :: rest)) (hle : start.nanos + ts.nanos ≤ now.nanos) :
    ∀ other ∈ now :: rest, ¬Slips start ts other := by
  intro other ho ⟨_, _, hbefore⟩
  obtain ⟨hlater, _⟩ := List.pairwise_cons.mp hforward
  rcases List.mem_cons.mp ho with rfl | ho
  · omega
  · have := hlater other ho
    omega

theorem exact_resumed {readings : List Timespec} (hts : ts.Normal) (hstart : start.Normal)
    (hnormal : ∀ now ∈ readings, now.Normal) (hforward : Forward readings) (hkpt : kpt.ts = some before) :
    Exact (start.nanos + ts.nanos) readings
        (resumed (expireAt start ts) kpt (interruptedAt readings)) ↔
      ∀ now ∈ readings, ¬Slips start ts now := by
  induction readings generalizing kpt before with
  | nil =>
      have hexact : Exact (start.nanos + ts.nanos) [] [] :=
        ⟨fun _ _ _ h _ => (by cases h), Nat.le_refl _, fun _ h => (by cases h)⟩
      simpa [interruptedAt, resumed] using hexact
  | cons now rest ih =>
      have hnow := hnormal now List.mem_cons_self
      obtain ⟨hlater, hforward'⟩ := List.pairwise_cons.mp hforward
      have hdeadline := nanos_expireAt start ts
      simp only [interruptedAt, List.map_cons, resumed]
      obtain ⟨hd0, hd1, _⟩ := expireAt_bounds hts hstart
      rcases keventResumeP_cases hd0 hd1 hnow hkpt with
        ⟨hr, hle⟩ | ⟨hr, hsec, hle⟩
      · rw [hr]
        have hpast := not_slips_of_forward hforward (hdeadline ▸ hle)
        refine ⟨fun _ => hpast, fun _ => ⟨fun _ _ _ _ h => (by cases h), Nat.zero_le _, ?_⟩⟩
        intro other ho
        cases ho
        exact hdeadline ▸ hle
      · rw [hr]
        have hrest := ih (fun other ho => hnormal other (List.mem_cons_of_mem _ ho)) hforward'
          (show Kpt.ts ⟨0, some (tssub (expireAt start ts) now)⟩ = some _ from rfl)
        rw [exact_cons, waits_iff hts hstart hnow hsec (hdeadline ▸ hle)]
        rw [interruptedAt] at hrest
        rw [hrest, List.forall_mem_cons]

-- For every timeout and every interruption the resumed calls are exact,
-- unless the nanoseconds add up to a whole second and a reading before the
-- deadline has none.
theorem doKevent_exact_iff (ts start : Timespec) (readings : List Timespec) (nchanges : Nat)
    (hts : ts.Normal) (hstart : start.Normal) (hnormal : ∀ now ∈ readings, now.Normal)
    (hforward : Forward readings) :
    Exact (start.nanos + ts.nanos) readings
        (doKevent start ⟨nchanges, some ts⟩ (interruptedAt readings)).tail ↔
      ∀ now ∈ readings, ¬Slips start ts now :=
  exact_resumed hts hstart hnormal hforward rfl

-- Two interruptions of a wait of a second and a half.
theorem doKevent_exact_twice :
    Exact 3700000000 [⟨2, 300000000⟩, ⟨3, 0⟩]
      (doKevent ⟨2, 200000000⟩ ⟨1, some ⟨1, 500000000⟩⟩ (interruptedAt [⟨2, 300000000⟩, ⟨3, 0⟩])).tail := by
  refine (doKevent_exact_iff ⟨1, 500000000⟩ ⟨2, 200000000⟩ [⟨2, 300000000⟩, ⟨3, 0⟩] 1 (by decide)
    (by decide) (by decide) (by decide)).mpr ?_
  decide

-- Half a second from half a second past: interrupted on the whole second, it
-- is resumed with a thousand million nanoseconds.
theorem doKevent_denormal :
    (doKevent ⟨4, 500000000⟩ ⟨0, some ⟨2, 500000000⟩⟩ (interruptedAt [⟨5, 0⟩])).tail =
        [⟨0, some ⟨1, 1000000000⟩⟩] ∧
      ¬Exact 7000000000 [⟨5, 0⟩]
        (doKevent ⟨4, 500000000⟩ ⟨0, some ⟨2, 500000000⟩⟩ (interruptedAt [⟨5, 0⟩])).tail := by
  refine ⟨by decide, fun h => ?_⟩
  obtain ⟨_, t, ht, hnormal, _⟩ := h.waits 0 ⟨5, 0⟩ ⟨0, some ⟨1, 1000000000⟩⟩ rfl (by decide)
  cases ht
  exact absurd hnormal (by decide)

end Run

end SleepyPenguin.Kqueue.Deadline
