import SleepyPenguin.Runtime.Clock

-- How long an epoll_wait(2) that was interrupted waits when it is resumed,
-- with a long of 64 bits.
namespace SleepyPenguin.Epoll.Deadline

open Timespec

-- A uint64_t and an int.
def toUint64 (n : Int) : Int := n % 0x10000000000000000

def toInt (n : Int) : Int :=
  let low := n % 0x100000000
  if low < 0x80000000 then low else low - 0x100000000

def nowMs (now : Timespec) : Int := toUint64 (now.sec * 1000 + (now.nsec + 500000) / 1000000)

-- The `timeout` field of `struct ep_per_thread` for the next call.
def epollResumeP (expireAt timeout : Int) (now : Timespec) : Int :=
  if timeout < 0 then timeout
  else if nowMs now > expireAt then 0
  else toInt (toUint64 (expireAt - nowMs now))

def expireAt (start : Timespec) (timeout : Int) : Int :=
  if timeout > 0 then toUint64 (nowMs start + timeout) else 0

def resumed (deadline timeout : Int) : List Timespec → List Int
  | [] => []
  | now :: rest =>
      let next := epollResumeP deadline timeout now
      next :: resumed deadline next rest

-- The timeouts of every epoll_wait(2) that real_epwait makes, one more than
-- it is interrupted.
def realEpwait (start : Timespec) (timeout : Int) (readings : List Timespec) : List Int :=
  timeout :: resumed (expireAt start timeout) timeout readings

-- A reading of a clock that runs for less than 2^50 seconds.
structure Reading (now : Timespec) : Prop where
  normal : now.Normal
  nonneg : 0 ≤ now.sec
  lt : now.sec < 2 ^ 50

-- To the nearest millisecond.
theorem nowMs_eq {now : Timespec} (h : Reading now) : nowMs now = (now.nanos + 500000) / 1000000 := by
  obtain ⟨⟨hn0, hn1⟩, hs0, hs1⟩ := h
  have hexact : nowMs now = now.sec * 1000 + (now.nsec + 500000) / 1000000 := by
    simp only [nanoPerSec] at hn1
    exact Int.emod_eq_of_lt (by omega) (by omega)
  rw [hexact]
  simp only [nanos, nanoPerSec] at *
  omega

theorem nowMs_near {now : Timespec} (h : Reading now) :
    0 ≤ nowMs now ∧ nowMs now < 2 ^ 60 ∧ now.nanos - 500000 < nowMs now * 1000000 ∧
      nowMs now * 1000000 ≤ now.nanos + 500000 := by
  rw [nowMs_eq h]
  obtain ⟨⟨hn0, hn1⟩, hs0, hs1⟩ := h
  simp only [nanos, nanoPerSec] at *
  omega

section Resume

variable {start now : Timespec} {timeout before deadline : Int}

-- The end of the wait, in milliseconds, without wrapping.
theorem expireAt_pos (hs : Reading start) (h0 : 0 < timeout) (ht : timeout < 2 ^ 31) :
    expireAt start timeout = nowMs start + timeout := by
  obtain ⟨hlow, hhigh, _⟩ := nowMs_near hs
  rw [expireAt, if_pos h0]
  exact Int.emod_eq_of_lt (by omega) (by omega)

-- One resumption: what is left until the deadline, or nothing.
theorem epollResumeP_eq (h0 : 0 ≤ before) (hd : deadline < nowMs now + 2 ^ 31) :
    epollResumeP deadline before now = if nowMs now > deadline then 0 else deadline - nowMs now := by
  rw [epollResumeP, if_neg (show ¬before < 0 by omega)]
  split
  · rfl
  · have hwide : toUint64 (deadline - nowMs now) = deadline - nowMs now :=
      Int.emod_eq_of_lt (by omega) (by omega)
    have hlow : (deadline - nowMs now) % 0x100000000 = deadline - nowMs now :=
      Int.emod_eq_of_lt (by omega) (by omega)
    rw [hwide, toInt, hlow]
    exact if_pos (by omega)

end Resume

-- What a wait of `timeout` from `start` has left at the reading `now`, in
-- whole milliseconds.
def left (start : Timespec) (timeout : Int) (now : Timespec) : Int :=
  max 0 (nowMs start + timeout - nowMs now)

section Run

variable {start now : Timespec} {timeout before : Int} {readings : List Timespec}

theorem nowMs_mono (hs : Reading start) (hn : Reading now) (hle : start.nanos ≤ now.nanos) :
    nowMs start ≤ nowMs now := by
  rw [nowMs_eq hs, nowMs_eq hn]
  exact Int.ediv_le_ediv (by decide) (by omega)

theorem epollResumeP_left (hs : Reading start) (hn : Reading now) (hle : start.nanos ≤ now.nanos)
    (ht0 : 0 ≤ timeout) (ht1 : timeout < 2 ^ 31) (h0 : 0 ≤ before) :
    epollResumeP (expireAt start timeout) before now = left start timeout now := by
  obtain ⟨hs0, _⟩ := nowMs_near hs
  obtain ⟨hn0, _⟩ := nowMs_near hn
  have hmono := nowMs_mono hs hn hle
  unfold left
  rcases Int.lt_or_eq_of_le ht0 with hpos | rfl
  · rw [epollResumeP_eq h0, expireAt_pos hs hpos ht1]
    · split <;> omega
    · rw [expireAt_pos hs hpos ht1]
      omega
  · have hdeadline : expireAt start 0 = 0 := rfl
    rw [hdeadline, epollResumeP_eq h0 (by omega)]
    split <;> omega

theorem resumed_eq (hs : Reading start) (ht0 : 0 ≤ timeout) (ht1 : timeout < 2 ^ 31) (h0 : 0 ≤ before)
    (hread : ∀ now ∈ readings, Reading now ∧ start.nanos ≤ now.nanos) :
    resumed (expireAt start timeout) before readings = readings.map (left start timeout) := by
  induction readings generalizing before with
  | nil => rfl
  | cons now rest ih =>
      obtain ⟨hn, hle⟩ := hread now List.mem_cons_self
      have hnext := epollResumeP_left hs hn hle ht0 ht1 h0
      have hleft : 0 ≤ left start timeout now := Int.le_max_left 0 _
      rw [resumed, hnext, List.map_cons,
        ih hleft fun other ho => hread other (List.mem_cons_of_mem _ ho)]

theorem resumed_forever (deadline : Int) (readings : List Timespec) (h : timeout < 0) :
    resumed deadline timeout readings = readings.map fun _ => timeout := by
  induction readings with
  | nil => rfl
  | cons now rest ih => rw [resumed, epollResumeP, if_pos h, ih, List.map_cons]

end Run

-- The wait that starts at the reading `now`, out of a wait of `timeout` from
-- `start`: no number in it has wrapped, and it ends when the whole wait was
-- to end, to the millisecond.
structure Resumes (start : Timespec) (timeout : Int) (now : Timespec) (next : Int) : Prop where
  exact : next = left start timeout now
  range : 0 ≤ next ∧ next ≤ timeout
  ends : 0 < next → now.nanos + next * 1000000 - (start.nanos + timeout * 1000000) ≤ 1000000 ∧
    start.nanos + timeout * 1000000 - (now.nanos + next * 1000000) ≤ 1000000
  due : next = 0 → start.nanos + timeout * 1000000 - 1000000 ≤ now.nanos

theorem resumes_left {start now : Timespec} {timeout : Int} (hs : Reading start) (hn : Reading now)
    (hle : start.nanos ≤ now.nanos) (ht0 : 0 ≤ timeout) :
    Resumes start timeout now (left start timeout now) := by
  obtain ⟨_, _, hslow, hshigh⟩ := nowMs_near hs
  obtain ⟨_, _, hnlow, hnhigh⟩ := nowMs_near hn
  have hmono := nowMs_mono hs hn hle
  refine ⟨rfl, ?_, ?_, ?_⟩ <;> simp only [left] <;> omega

-- The timeouts of all the calls.
structure Faithful (start : Timespec) (timeout : Int) (readings : List Timespec) (calls : List Int) :
    Prop where
  first : calls[0]? = some timeout
  length : calls.length = readings.length + 1
  forever : timeout < 0 → ∀ next ∈ calls, next = timeout
  resumes : 0 ≤ timeout → ∀ (i : Nat) (now : Timespec) (next : Int), readings[i]? = some now →
    calls[i + 1]? = some next → Resumes start timeout now next
  falling : calls.Pairwise fun earlier later => later ≤ earlier

-- For every timeout that fits an int, every start and every interruption.
theorem realEpwait_faithful (start : Timespec) (timeout : Int) (readings : List Timespec)
    (hlow : -2 ^ 31 ≤ timeout) (hhigh : timeout < 2 ^ 31) (hs : Reading start)
    (hread : ∀ now ∈ readings, Reading now) (hforward : Forward (start :: readings)) :
    Faithful start timeout readings (realEpwait start timeout readings) := by
  obtain ⟨hafter, hforward⟩ := List.pairwise_cons.mp hforward
  rcases Int.lt_or_le timeout 0 with hneg | h0
  · have heq := resumed_forever (expireAt start timeout) readings hneg
    have hall : ∀ next ∈ realEpwait start timeout readings, next = timeout := by
      rw [realEpwait, heq]
      simp
    refine ⟨rfl, by simp [realEpwait, heq], fun _ => hall, fun h => absurd h (by omega), ?_⟩
    rw [realEpwait, heq, List.pairwise_cons, List.pairwise_map]
    refine ⟨fun next hnext => ?_, List.Pairwise.imp (fun _ => Int.le_refl _) hforward⟩
    obtain ⟨_, _, rfl⟩ := List.mem_map.mp hnext
    exact Int.le_refl _
  · have heq := resumed_eq hs h0 hhigh h0 fun now hn => ⟨hread now hn, hafter now hn⟩
    refine ⟨rfl, by simp [realEpwait, heq], fun h => absurd h (by omega), fun _ i now next hi hc => ?_, ?_⟩
    · rw [realEpwait, heq, List.getElem?_cons_succ, List.getElem?_map, hi] at hc
      cases hc
      have hmem := List.mem_of_getElem? hi
      exact resumes_left hs (hread now hmem) (hafter now hmem) h0
    · rw [realEpwait, heq, List.pairwise_cons, List.pairwise_map]
      refine ⟨fun next hnext => ?_, ?_⟩
      · obtain ⟨now, hn, rfl⟩ := List.mem_map.mp hnext
        exact (resumes_left hs (hread now hn) (hafter now hn) h0).range.2
      · refine List.Pairwise.imp_of_mem (fun {a b} ha hb hab => ?_) hforward
        have hmono := nowMs_mono (hread a ha) (hread b hb) hab
        simp only [left]
        omega

-- A wait of ten milliseconds that is interrupted twice.
theorem realEpwait_faithful_twice :
    Faithful ⟨1, 400000⟩ 10 [⟨1, 6500000⟩, ⟨1, 11000000⟩]
      (realEpwait ⟨1, 400000⟩ 10 [⟨1, 6500000⟩, ⟨1, 11000000⟩]) := by
  have hreading : ∀ now : Timespec, now.Normal → 0 ≤ now.sec → now.sec < 2 ^ 50 → Reading now :=
    fun _ hn h0 hlt => ⟨hn, h0, hlt⟩
  refine realEpwait_faithful _ _ _ (by decide) (by decide)
    (hreading _ (by decide) (by decide) (by decide)) (fun now hn => ?_) (by decide)
  rcases List.mem_cons.mp hn with rfl | hn
  · exact hreading _ (by decide) (by decide) (by decide)
  · rw [List.mem_singleton.mp hn]
    exact hreading _ (by decide) (by decide) (by decide)

end SleepyPenguin.Epoll.Deadline
