import SleepyPenguin.Foundation.Dialogue
import SleepyPenguin.Kqueue.Timeout

-- What Kqueue::IO#kevent submits and what it yields, called by any number of
-- threads, whatever kevent(2) answers.
namespace SleepyPenguin.Kqueue.Delivery

open Foundation Conversion Deadline Timeout

-- A kevent(2), with the changes that are in the buffer by then.
structure Request where
  fd : Fd
  changes : List Record
  nevents : Nat
  ts : Option Timespec
  deriving DecidableEq, Repr

abbrev Answer := Except Errno (List Record)

-- Where a call is: in its region, back from it, in the loop that yields, or
-- over.
inductive Pc
  | calling (fd : Fd) (kpt : Kpt)
  | answered (kpt : Kpt) (result : Answer)
  | yielding (rest : List Record) (nevents : Nat)
  | ended (outcome : Except Failure Nat)
  deriving DecidableEq, Repr

-- A call with what changelist_prepare has written, what the block has been given
-- and what it was not given.
structure Call where
  args : Args
  changes : List Record
  nevents : Nat
  expireAt : Timespec
  pc : Pc
  yielded : List Record
  dropped : List Record

def Call.over (args : Args) (failure : Failure) : Call :=
  ⟨args, [], 0, ⟨0, 0⟩, .ended (.error failure), [], []⟩

-- sp_kevent and do_kevent up to the region. Without a timeout `expire_at` is
-- not used.
def begin (w : Nat) (args : Args) (start : Timespec) : Except Failure Call := do
  let (changes, t) ← args.prepare w
  let nevents ← lift (neventsOf args.nevents args.block)
  match args.fd with
  | none => .error (.raised .ioError)
  | some fd => .ok ⟨args, changes, nevents, (t.map (expireAt start)).getD start,
    .calling fd ⟨changes.length, t⟩, [], []⟩

def enter (w : Nat) (args : Args) (start : Timespec) : Call :=
  match begin w args start with
  | .ok call => call
  | .error failure => .over args failure

-- The changes are in the buffer as long as they are not sent.
def Call.request (c : Call) : Option Request :=
  match c.pc with
  | .calling fd kpt => some ⟨fd, c.changes.take kpt.nchanges, c.nevents, kpt.ts⟩
  | _ => none

def Call.hear (c : Call) (result : Answer) : Option Call :=
  match c.pc with
  | .calling _ kpt => some { c with pc := .answered kpt result }
  | _ => none

-- The end of the loop, with kevent_result up to its first yield. The descriptor
-- of the IO is looked at again, `none` where it has been closed.
def resume (expireAt : Timespec) (fd : Option Fd) (now : Timespec) (kpt : Kpt) : Answer → Pc
  | .ok events => .yielding events events.length
  | .error errno =>
      match fd with
      | none => .ended (.error (.raised .ioError))
      | some fd =>
          match keventResumeP expireAt kpt ⟨errno, now⟩ with
          | some kpt => .calling fd kpt
          | none => if errno = .EINTR then .yielding [] 0 else .ended (.error (.raised (.sys errno)))

-- One turn of the loop that yields, to a block that may raise or break.
def Call.yield (c : Call) (rest : List Record) (nevents : Nat) (raises : Option Nat) : Call :=
  match rest, raises with
  | [], _ => { c with pc := .ended (.ok nevents) }
  | event :: rest, none => { c with
      pc := .yielding rest nevents
      yielded := c.yielded ++ [event] }
  | event :: rest, some tag => { c with
      pc := .ended (.error (.raised (.block tag)))
      yielded := c.yielded ++ [event]
      dropped := rest }

inductive Move
  | resume (fd : Option Fd) (now : Timespec)
  | yield (raises : Option Nat)

def Call.go (c : Call) : Move → Option Call
  | .resume fd now =>
      match c.pc with
      | .answered kpt result => some { c with pc := Delivery.resume c.expireAt fd now kpt result }
      | _ => none
  | .yield raises =>
      match c.pc with
      | .yielding rest nevents => some (c.yield rest nevents raises)
      | _ => none

def threads (w : Nat) : Dialogue (Args × Timespec) Call Request Answer Move :=
  ⟨fun (args, start) => enter w args start, Call.request, Call.hear, Call.go⟩

-- What a call has said to the kernel and heard.
abbrev Rounds := List (Request × Answer)

-- What a call has still to yield.
def Call.pending (c : Call) : List Record :=
  match c.pc with
  | .answered _ (.ok events) => events
  | .yielding rest _ => rest
  | _ => []

def given (round : Request × Answer) : List Record :=
  match round.2 with
  | .ok events => events
  | .error _ => []

-- What a call asks for is what its arguments say.
def Call.Asks (c : Call) : Prop :=
  Documented c.args.changelist c.changes ∧ neventsOf c.args.nevents c.args.block = .ok c.nevents

-- The changes are in the first kevent(2) and in no other.
def Submits (changes : List Record) (nevents : Nat) : Rounds → Prop
  | [] => True
  | round :: rest => round.1.changes = changes ∧ round.1.nevents = nevents ∧
      ∀ again ∈ rest, again.1.changes = [] ∧ again.1.nevents = nevents

def Interrupted (l : Rounds) : Prop := ∀ round ∈ l, round.2 = .error .EINTR

-- What the last kevent(2) has given, after those that were interrupted.
inductive Gives : Rounds → List Record → Prop
  | events {before : Rounds} {r : Request} {events : List Record} (h : Interrupted before) :
      Gives (before ++ [(r, .ok events)]) events
  | nothing {l : Rounds} (h : Interrupted l) : Gives l []

-- How a call fails: before its first kevent(2), since its IO was closed during
-- one, by the error of one, or in its block.
inductive Fails : Rounds → List Record → List Record → Failure → Prop
  | before (failure : Failure) : Fails [] [] [] failure
  | closed {before : Rounds} {r : Request} {errno : Errno} (h : Interrupted before) :
      Fails (before ++ [(r, .error errno)]) [] [] (.raised .ioError)
  | system {before : Rounds} {r : Request} {errno : Errno} (h : Interrupted before) (hne : errno ≠ .EINTR) :
      Fails (before ++ [(r, .error errno)]) [] [] (.raised (.sys errno))
  | block {l : Rounds} {yielded dropped : List Record} (tag : Nat) (h : Gives l (yielded ++ dropped)) :
      Fails l yielded dropped (.raised (.block tag))

-- The first kevent(2) of a call has all its changes, and those that follow where
-- it was interrupted have none. What the last of them has given is yielded once
-- and in order, unless the block raises before, and counted.
structure Delivered (c : Call) (l : Rounds) : Prop where
  asks : l ≠ [] → c.Asks
  submits : Submits c.changes c.nevents l
  again : ∀ round ∈ l.dropLast, round.2 = .error .EINTR
  events : l.flatMap given = c.yielded ++ c.pending ++ c.dropped
  returned : ∀ n, c.pc = .ended (.ok n) → n = c.yielded.length ∧ c.dropped = []
  dropped : c.dropped ≠ [] → ∃ tag, c.pc = .ended (.error (.raised (.block tag)))
  failures : ∀ failure, c.pc = .ended (.error failure) → Fails l c.yielded c.dropped failure

-- What holds of one call, by where it is.
def Call.Stands (c : Call) (l : Rounds) : Prop :=
  match c.pc with
  | .calling _ kpt => Interrupted l ∧ c.yielded = [] ∧ c.dropped = [] ∧
      kpt.nchanges = if l = [] then c.changes.length else 0
  | .answered _ result => c.yielded = [] ∧ c.dropped = [] ∧ ∃ before r, l = before ++ [(r, result)] ∧
    Interrupted before
  | .yielding rest n => c.dropped = [] ∧ Gives l (c.yielded ++ rest) ∧ n = c.yielded.length + rest.length
  | .ended (.ok n) => c.dropped = [] ∧ Gives l c.yielded ∧ n = c.yielded.length
  | .ended (.error failure) => Fails l c.yielded c.dropped failure

-- Where there is nothing to ask for, the call is over before its first kevent(2).
structure Call.Good (c : Call) (l : Rounds) : Prop where
  asks : c.Asks ∨ l = [] ∧ ∃ failure, c.pc = .ended (.error failure)
  submits : Submits c.changes c.nevents l
  stands : c.Stands l

section Rounds

variable {l : Rounds} {events : List Record}

theorem Interrupted.silent (h : Interrupted l) : l.flatMap given = [] := by
  refine List.flatMap_eq_nil_iff.mpr fun round hround => ?_
  rw [given, h round hround]

theorem flatMap_given_concat {before : Rounds} (h : Interrupted before) (r : Request) (result : Answer) :
    (before ++ [(r, result)]).flatMap given = given (r, result) := by
  rw [List.flatMap_append, h.silent, List.nil_append, List.flatMap_singleton]

theorem Gives.given (h : Gives l events) : l.flatMap given = events := by
  cases h with
  | events h => exact flatMap_given_concat h _ _
  | nothing h => exact h.silent

theorem Fails.given {yielded dropped : List Record} {failure : Failure}
    (h : Fails l yielded dropped failure) :
    l.flatMap Delivery.given = yielded ++ dropped := by
  cases h with
  | before => rfl
  | closed h => exact flatMap_given_concat h _ _
  | system h hne => exact flatMap_given_concat h _ _
  | block tag h => exact h.given

-- All rounds but the last were interrupted.
def Insists (l : Rounds) : Prop := ∀ round ∈ l.dropLast, round.2 = .error .EINTR

theorem Interrupted.insists (h : Interrupted l) : Insists l := fun round hround =>
    h round (List.dropLast_subset l hround)

theorem insists_concat {before : Rounds} (h : Interrupted before) (round : Request × Answer) :
    Insists (before ++ [round]) := by
  intro other hother
  rw [List.dropLast_concat] at hother
  exact h other hother

theorem Gives.insists (h : Gives l events) : Insists l := by
  cases h with
  | events h => exact insists_concat h _
  | nothing h => exact h.insists

theorem Fails.insists {yielded dropped : List Record} {failure : Failure}
    (h : Fails l yielded dropped failure) :
    Insists l := by
  cases h with
  | before =>
      intro round hround
      cases hround
  | closed h => exact insists_concat h _
  | system h hne => exact insists_concat h _
  | block tag h => exact h.insists

theorem Submits.concat {changes : List Record} {nevents : Nat} (h : Submits changes nevents l) {r : Request}
    (hchanges : r.changes = if l = [] then changes else []) (hnevents : r.nevents = nevents)
    (result : Answer) :
    Submits changes nevents (l ++ [(r, result)]) := by
  cases l with
  | nil => exact ⟨hchanges, hnevents, List.forall_mem_nil _⟩
  | cons round rest => exact ⟨h.1, h.2.1, List.forall_mem_concat h.2.2 ⟨hchanges, hnevents⟩⟩

end Rounds

section Goods

variable {c : Call} {l : Rounds}

theorem Call.Stands.events (h : c.Stands l) :
    Insists l ∧ l.flatMap given = c.yielded ++ c.pending ++ c.dropped := by
  obtain ⟨args, changes, nevents, expireAt, pc, yielded, dropped⟩ := c
  cases pc with
  | calling fd kpt =>
      obtain ⟨hl, rfl, rfl, _⟩ := h
      exact ⟨hl.insists, hl.silent⟩
  | answered kpt result =>
      obtain ⟨rfl, rfl, before, r, rfl, hbefore⟩ := h
      refine ⟨insists_concat hbefore _, ?_⟩
      rw [flatMap_given_concat hbefore]
      cases result with
      | ok events => exact (List.append_nil events).symm
      | error errno => rfl
  | yielding rest n =>
      obtain ⟨rfl, hgives, _⟩ := h
      refine ⟨hgives.insists, hgives.given.trans ?_⟩
      exact (List.append_nil _).symm
  | ended outcome =>
      cases outcome with
      | ok n =>
          obtain ⟨rfl, hgives, _⟩ := h
          exact ⟨hgives.insists, hgives.given.trans (by simp [Call.pending])⟩
      | error failure => exact ⟨Fails.insists h, (Fails.given h).trans (by simp [Call.pending])⟩

theorem Call.Stands.dropped (h : c.Stands l) (hdropped : c.dropped ≠ []) :
    ∃ tag, c.pc = .ended (.error (.raised (.block tag))) := by
  unfold Call.Stands at h
  split at h
  · exact absurd h.2.2.1 hdropped
  · exact absurd h.2.1 hdropped
  · exact absurd h.1 hdropped
  · exact absurd h.1 hdropped
  · rename_i failure hpc
    generalize c.yielded = yielded at h
    generalize hc : c.dropped = dropped at h hdropped
    cases h with
    | before => exact absurd rfl hdropped
    | closed h => exact absurd rfl hdropped
    | system h hne => exact absurd rfl hdropped
    | block tag h => exact ⟨tag, hpc⟩

theorem delivered_of_good (h : c.Good l) : Delivered c l := by
  obtain ⟨hagain, hevents⟩ := h.stands.events
  refine ⟨?_, h.submits, hagain, hevents, ?_, h.stands.dropped, ?_⟩
  · intro hl
    exact h.asks.resolve_right fun ⟨hnone, _⟩ => hl hnone
  · intro n hpc
    have hstands := h.stands
    simp only [Call.Stands, hpc] at hstands
    exact ⟨hstands.2.2, hstands.1⟩
  · intro failure hpc
    have hstands := h.stands
    simp only [Call.Stands, hpc] at hstands
    exact hstands

-- Only a call that is over may have nothing to ask for.
theorem Call.Good.asks_of_pc (h : c.Good l) (hpc : ∀ failure, c.pc ≠ .ended (.error failure)) :
    c.Asks :=
  h.asks.resolve_right fun ⟨_, failure, hover⟩ => hpc failure hover

end Goods

theorem keventResumeP_some {expireAt : Timespec} {kpt kpt' : Kpt} {failed : Failed}
    (h : keventResumeP expireAt kpt failed = some kpt') : failed.errno = .EINTR ∧ kpt'.nchanges = 0 := by
  unfold keventResumeP at h
  split at h
  · cases h
  rename_i herrno
  refine ⟨Decidable.not_not.mp herrno, ?_⟩
  split at h
  · cases h
    rfl
  split at h
  · cases h
  split at h
  · cases h
  · cases h
    rfl

section Steps

variable {w : Nat} {c c' : Call} {l : Rounds}

theorem enter_good (w : Nat) (args : Args) (start : Timespec) : (enter w args start).Good [] := by
  unfold enter
  split
  · rename_i call hbegin
    obtain ⟨⟨changes, t⟩, hprepare, hbegin⟩ := Except.bind_ok_iff.mp hbegin
    obtain ⟨nevents, hnevents, hbegin⟩ := Except.bind_ok_iff.mp hbegin
    have hchanges := spKevent_documented (prepare_ok_iff.mp hprepare).2
    cases hfd : args.fd with
    | none =>
        rw [hfd] at hbegin
        cases hbegin
    | some fd =>
        rw [hfd] at hbegin
        cases hbegin
        exact ⟨.inl ⟨hchanges, lift_ok hnevents⟩, trivial, List.forall_mem_nil _, rfl, rfl, rfl⟩
  · rename_i failure _
    exact ⟨.inr ⟨rfl, failure, rfl⟩, trivial, .before failure⟩

theorem hear_good {r : Request} {result : Answer} (h : c.Good l) (hr : c.request = some r)
    (hc : c.hear result = some c') : c'.Good (l ++ [(r, result)]) := by
  obtain ⟨args, changes, nevents, expireAt, pc, yielded, dropped⟩ := c
  cases pc with
  | calling fd kpt =>
      cases hr
      cases hc
      obtain ⟨hl, hyielded, hdropped, hnchanges⟩ := h.stands
      have hasks := h.asks_of_pc fun _ hpc => nomatch hpc
      refine ⟨.inl hasks, h.submits.concat ?_ rfl result, hyielded, hdropped, l, _, rfl, hl⟩
      show changes.take kpt.nchanges = _
      rw [hnchanges]
      split
      · exact List.take_length
      · rfl
  | _ => cases hr

-- Back from its region, a call yields, goes round again with nothing left to
-- submit, or ends.
theorem resume_good {fd : Option Fd} {now : Timespec} {kpt : Kpt} {result : Answer} (h : c.Good l)
    (hpc : c.pc = .answered kpt result) :
    ({ c with pc := resume c.expireAt fd now kpt result } : Call).Good l := by
  have hasks := h.asks_of_pc fun failure hover => nomatch hpc.symm.trans hover
  refine ⟨.inl hasks, h.submits, ?_⟩
  have hstands := h.stands
  simp only [Call.Stands, hpc] at hstands
  obtain ⟨hyielded, hdropped, before, r, rfl, hbefore⟩ := hstands
  have hagain : Interrupted (before ++ [(r, .error .EINTR)]) := List.forall_mem_concat hbefore rfl
  cases result with
  | ok events =>
      refine ⟨hdropped, ?_, ?_⟩
      · rw [hyielded]
        exact .events hbefore
      · simp [hyielded]
  | error errno =>
      unfold resume
      cases fd with
      | none =>
          show Fails _ c.yielded c.dropped _
          rw [hyielded, hdropped]
          exact .closed hbefore
      | some fd =>
          simp only
          split
          · rename_i kpt' hresume
            obtain ⟨rfl, hzero⟩ := keventResumeP_some hresume
            exact ⟨hagain, hyielded, hdropped, by simp [hzero]⟩
          split
          · rename_i heintr
            subst heintr
            refine ⟨hdropped, ?_, by simp [hyielded]⟩
            simp only [hyielded, List.append_nil]
            exact .nothing hagain
          · rename_i hne
            show Fails _ c.yielded c.dropped _
            rw [hyielded, hdropped]
            exact .system hbefore hne

theorem yield_good {rest : List Record} {n : Nat} (h : c.Good l) (hpc : c.pc = .yielding rest n)
    (raises : Option Nat) : (c.yield rest n raises).Good l := by
  have hasks := h.asks_of_pc fun failure hover => nomatch hpc.symm.trans hover
  have hstands := h.stands
  simp only [Call.Stands, hpc] at hstands
  obtain ⟨hdropped, hgives, hn⟩ := hstands
  cases rest with
  | nil =>
      rw [List.append_nil] at hgives
      exact ⟨.inl hasks, h.submits, hdropped, hgives, hn⟩
  | cons event rest =>
      rw [List.append_cons] at hgives
      cases raises with
      | none =>
          have hlen : n = (c.yielded ++ [event]).length + rest.length := by
            rw [hn, List.length_append, List.length_cons, List.length_singleton]
            omega
          exact ⟨.inl hasks, h.submits, hdropped, hgives, hlen⟩
      | some tag => exact ⟨.inl hasks, h.submits, .block tag hgives⟩

theorem go_good {move : Move} (h : c.Good l) (hc : c.go move = some c') : c'.Good l := by
  cases move with
  | resume fd now =>
      simp only [Call.go] at hc
      split at hc
      · rename_i kpt result hpc
        cases hc
        exact resume_good h hpc
      · cases hc
  | yield raises =>
      simp only [Call.go] at hc
      split at hc
      · rename_i rest n hpc
        cases hc
        exact yield_good h hpc raises
      · cases hc

theorem threads_keep (w : Nat) : (threads w).Keeps Call.Good :=
  ⟨fun (args, start) => enter_good w args start, fun _ _ _ _ _ => hear_good, fun _ _ _ _ => go_good⟩

end Steps

end SleepyPenguin.Kqueue.Delivery
