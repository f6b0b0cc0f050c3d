import SleepyPenguin.Inotify.Take
import SleepyPenguin.Kqueue.Conversion
import SleepyPenguin.Tls.Theorems

-- What Epoll::IO#epoll_wait, Kqueue::IO#kevent and Inotify#take do with their
-- buffers.
namespace SleepyPenguin.Tls.Callers

open Foundation

-- One wait that ended: its outcome, or what the region around it raises,
-- whether the IO is closed by then, and whether time is left to wait again.
structure Wait where
  outcome : Except Errno Nat
  interrupt : Option Err := none
  closed : Bool := false
  left : Bool := true

-- The retry loop of an interrupted wait and the result of the last one.
def retry : List Wait → Waiter Nat
  | [] => Waiter.blocked
  | wait :: rest =>
      match wait.interrupt, wait.outcome with
      | some e, _ => .raise e
      | none, .ok n => pure n
      | none, .error errno =>
          if wait.closed then .raise .ioError
          else if errno ≠ .EINTR then .raise (.sys errno)
          else if wait.left then retry rest
          else pure 0

-- The block is given each event; it may raise or break.
def yields (n : Nat) (blocks : List (Option Nat)) : Waiter Unit :=
  .each (blocks.take n) fun
    | none => pure ()
    | some tag => .raise (.block tag)

-- The sizes of the structs that a buffer holds.
structure Layout where
  head : Nat
  event : Nat

-- `size = sizeof(struct ...) + sizeof(event) * count`, in a size_t of `w` bits.
def flexSize (w : Nat) (layout : Layout) (count : Int) : Nat :=
  (layout.head + layout.event * count.toNat % 2 ^ w) % 2 ^ w

-- What ept_get and kpt_get ask for, once they have looked at their counts.
def eptSize (w : Nat) (layout : Layout) (maxevents : Int) : Except Err Nat :=
  if maxevents ≤ 0 then .error (.sys .EINVAL) else .ok (flexSize w layout maxevents)

def kptSize (w : Nat) (layout : Layout) (nchanges nevents : Int) : Except Err Nat :=
  let max := if nchanges > nevents then nchanges else nevents
  if max < 0 then .error (.sys .EINVAL) else .ok (flexSize w layout max)

theorem kptSize_eq (w : Nat) (layout : Layout) (nchanges nevents : Int) :
    kptSize w layout nchanges nevents =
      if max nchanges nevents < 0 then .error (.sys .EINVAL)
      else .ok (flexSize w layout (max nchanges nevents)) := by
  have hmax : (if nchanges > nevents then nchanges else nevents) = max nchanges nevents := by
    split <;> omega
  simp only [kptSize, hmax]

structure EpollCall where
  block : Bool
  timeout : Except Err Int
  maxevents : Except Err Int
  env : Env := {}
  closed : Bool := false
  waits : List Wait
  blocks : List (Option Nat) := []

def eptGet (w : Nat) (layout : Layout) (maxevents : Int) (env : Env) : Waiter Nat := do
  let size ← .ofExcept (eptSize w layout maxevents)
  let (ept, _) ← Waiter.get size env
  pure ept

def realEpwait (c : EpollCall) : Waiter Unit :=
  if c.closed then .raise .ioError
  else do
    let n ← retry c.waits
    yields n c.blocks

-- rb_need_block comes first.
def epwait (w : Nat) (layout : Layout) (c : EpollCall) : Waiter Unit :=
  if c.block = false then .raise .localJumpError
  else do
    let _ ← .ofExcept c.timeout
    let maxevents ← .ofExcept c.maxevents
    let ept ← eptGet w layout maxevents c.env
    Prog.ensure (realEpwait c) (Waiter.put (some ept))

open Kqueue.Conversion in
-- The exception that a failed conversion ends in.
def err : Failure → Err
  | .type _ => .typeError
  | .field e => e
  | .length => .rangeError
  | .memory => .noMemoryError
  | .raised e => e

structure KeventCall where
  changelist : Kqueue.Conversion.Argument
  events : Option Int
  block : Bool
  timeout : Except Err Unit := .ok ()
  env : Env := {}
  closed : Bool := false
  waits : List Wait
  blocks : List (Option Nat) := []

def converted {α : Type} : Except Kqueue.Conversion.Failure α → Waiter α
  | .ok value => pure value
  | .error f => .raise (err f)

def kptGet (w : Nat) (layout : Layout) (nchanges nevents : Int) (env : Env) : Waiter Nat := do
  let size ← .ofExcept (kptSize w layout nchanges nevents)
  let (kpt, _) ← Waiter.get size env
  pure kpt

def doKevent (c : KeventCall) (nchanges : Nat) : Waiter Unit := do
  if nchanges ≠ 0 then
    let _ ← converted (Kqueue.Conversion.changelistPrepare c.changelist)
    let n ← retry c.waits
    yields n c.blocks
  else
    let n ← retry c.waits
    yields n c.blocks

-- rb_sp_fileno comes between kpt_get and rb_ensure.
def spKevent (w : Nat) (layout : Layout) (c : KeventCall) : Waiter Unit := do
  let nchanges ← converted (Kqueue.Conversion.nchangesOf c.changelist)
  let nevents ← .ofExcept (Kqueue.neventsOf c.events c.block)
  let _ ← .ofExcept c.timeout
  let kpt ← kptGet w layout nchanges nevents c.env
  if c.closed then .raise .ioError
  else Prog.ensure (doKevent c nchanges) (Waiter.put (some kpt))

structure TakeCall where
  served : Option Inotify.Event := none
  start : Inotify.Begin := {}
  turns : List Inotify.Turn

def take (c : TakeCall) : Waiter Unit := do
  let _ ← Inotify.take c.served c.start c.turns
  pure ()

inductive Call
  | epollWait (layout : Layout) (c : EpollCall)
  | kevent (layout : Layout) (c : KeventCall)
  | take (c : TakeCall)

def Call.program (w : Nat) : Call → Waiter Unit
  | .epollWait layout c => epwait w layout c
  | .kevent layout c => spKevent w layout c
  | .take c => Callers.take c

-- What one call got and gave, with the answers to its requests still to come.
structure Ledger where
  answers : List (Except Err (Nat × Nat))
  got : List Nat
  gave : List Nat
  deriving DecidableEq, Repr

def account : (β : Type) → Ledger → Cmd β → Option (β × Ledger)
  | _, l, .get _ _ =>
      match l.answers with
      | [] => none
      | .ok (p, left) :: rest => some (.ok (p, left), ⟨rest, l.got ++ [p], l.gave⟩)
      | .error e :: rest => some (.error e, ⟨rest, l.got, l.gave⟩)
  | _, l, .put none => some ((), l)
  | _, l, .put (some p) => some ((), { l with gave := l.gave ++ [p] })
  | _, _, .blocked => none

-- How a call is left, where it is.
def Call.leave (w : Nat) (call : Call) (answers : List (Except Err (Nat × Nat))) :
    Option (Except Err Unit × Ledger) :=
  (call.program w).run account ⟨answers, [], []⟩

-- Every buffer that was obtained was given back by exactly one release.
def Balanced (l : Ledger) : Prop := l.gave.Perm l.got

instance (l : Ledger) : Decidable (Balanced l) := inferInstanceAs (Decidable (l.gave.Perm l.got))

-- do_take comes to the request for a larger buffer.
def Regrows (nonblockP : Bool) (size : Nat) : List Inotify.Turn → Prop
  | [] => False
  | t :: rest =>
      t.interrupt = none ∧
        match t.read with
        | .ok [] | .error .EINVAL =>
            match t.ioctl with
            | .error _ => False
            | .ok newlen => size ≤ 0x10000 ∧ (newlen > 0 ∨ newlen = 0 ∧ Regrows nonblockP size rest)
        | .error errno =>
            ¬(errno = .EAGAIN ∧ nonblockP = true) ∧ t.closed = false ∧ t.closedAfter = false ∧
              (errno = .EINTR ∨ errno = .EAGAIN) ∧ Regrows nonblockP size rest
        | .ok bytes => Inotify.events bytes = [] ∧ Regrows nonblockP size rest

-- The IO is closed although a buffer for the call was obtained.
def KeventCall.Leaks (c : KeventCall) (answers : List (Except Err (Nat × Nat))) : Prop :=
  (∃ nchanges, Kqueue.Conversion.nchangesOf c.changelist = .ok nchanges) ∧
    (∃ nevents, Kqueue.neventsOf c.events c.block = .ok nevents) ∧ c.timeout = .ok () ∧
    c.closed = true ∧ ∃ p left rest, answers = .ok (p, left) :: rest

-- The call never has a buffer that it keeps: it was served, it failed before
-- its first request, that was refused, or the one for a larger buffer was.
def TakeCall.Keeps (c : TakeCall) (answers : List (Except Err (Nat × Nat))) : Prop :=
  c.served = none ∧ ∃ nonblockP, c.start.nonblock = .ok nonblockP ∧ c.start.closed = false ∧
    ¬(nonblockP = true ∧ c.start.fcntl ≠ none) ∧
    ∃ p left rest, answers = .ok (p, left) :: rest ∧
      ¬∃ e rest', rest = .error e :: rest' ∧ Regrows nonblockP left c.turns

-- The condition on a call, its surroundings and the answers to its requests.
def Call.Gives : Call → List (Except Err (Nat × Nat)) → Prop
  | .epollWait _ _, _ => True
  | .kevent _ c, answers => ¬c.Leaks answers
  | .take c, answers => ¬c.Keeps answers

-- A program without requests and releases leaves the ledger alone.
def Neutral {α : Type} (program : Waiter α) : Prop :=
  ∀ l result, program.run account l = some result → result.2 = l

namespace Neutral

variable {α β : Type}

theorem pure (value : α) : Neutral (.pure value : Waiter α) := by
  intro l result h
  cases h
  rfl

theorem raise (e : Err) : Neutral (.raise e : Waiter α) := by
  intro l result h
  cases h
  rfl

theorem blocked : Neutral (Waiter.blocked : Waiter α) := by
  intro l result h
  cases h

theorem bind {program : Waiter α} {next : α → Waiter β} (h : Neutral program)
    (hnext : ∀ value, Neutral (next value)) : Neutral (program >>= next) := by
  intro l result hr
  have hrun := (Prog.run_handle program _ l).symm.trans hr
  obtain ⟨⟨outcome, l'⟩, hp, hn⟩ := Option.bind_eq_some_iff.mp hrun
  have hl := h l _ hp
  cases outcome with
  | ok value => exact (hnext value l' result hn).trans hl
  | error e =>
      cases hn
      exact hl

theorem each {items : List β} {body : β → Waiter Unit} (h : ∀ item, Neutral (body item)) :
    Neutral (.each items body) := by
  induction items with
  | nil => exact pure ()
  | cons item rest ih => exact bind (h item) fun _ => ih

end Neutral

theorem retry_neutral (waits : List Wait) : Neutral (retry waits) := by
  induction waits with
  | nil => exact .blocked
  | cons wait rest ih =>
      unfold retry
      split
      · exact .raise _
      · exact .pure _
      · split
        · exact .raise _
        · split
          · exact .raise _
          · split
            · exact ih
            · exact .pure 0

theorem yields_neutral (n : Nat) (blocks : List (Option Nat)) : Neutral (yields n blocks) := by
  refine .each fun block => ?_
  cases block with
  | none => exact .pure ()
  | some tag => exact .raise _

theorem converted_neutral {α : Type} (outcome : Except Kqueue.Conversion.Failure α) :
    Neutral (converted outcome) := by
  cases outcome with
  | error f => exact .raise _
  | ok value => exact .pure value

theorem realEpwait_neutral (c : EpollCall) : Neutral (realEpwait c) := by
  unfold realEpwait
  split
  · exact .raise _
  · exact .bind (retry_neutral _) fun n => yields_neutral n _

theorem doKevent_neutral (c : KeventCall) (nchanges : Nat) : Neutral (doKevent c nchanges) := by
  have hwait : Neutral (retry c.waits >>= fun n => yields n c.blocks) :=
    .bind (retry_neutral _) fun n => yields_neutral n _
  unfold doKevent
  split
  · exact .bind (converted_neutral _) fun _ => hwait
  · exact hwait

-- rb_ensure with a release of the buffer that was obtained before it.
theorem run_ensure {program : Waiter Unit} (h : Neutral program) {p : Nat} {l : Ledger}
    {result : Except Err Unit × Ledger}
    (hr : (Prog.ensure program (Waiter.put (some p))).run account l = some result) :
    result.2 = { l with gave := l.gave ++ [p] } := by
  have hrun := (Prog.run_handle program _ l).symm.trans hr
  obtain ⟨⟨outcome, l'⟩, hp, hn⟩ := Option.bind_eq_some_iff.mp hrun
  have hl : l' = l := h l _ hp
  subst hl
  cases outcome <;> (cases hn; rfl)

section Left

variable {w : Nat} {layout : Layout} {answers : List (Except Err (Nat × Nat))}
  {outcome : Except Err Unit} {l : Ledger}

theorem balanced_start (answers : List (Except Err (Nat × Nat))) : Balanced ⟨answers, [], []⟩ :=
  List.Perm.refl _

theorem epwait_balanced {c : EpollCall}
    (h : (epwait w layout c).run account ⟨answers, [], []⟩ = some (outcome, l)) : Balanced l := by
  unfold epwait at h
  split at h
  · cases h
    exact balanced_start answers
  · cases ht : c.timeout with
    | error e =>
        rw [ht] at h
        cases h
        exact balanced_start answers
    | ok t =>
        cases hm : c.maxevents with
        | error e =>
            rw [ht, hm] at h
            cases h
            exact balanced_start answers
        | ok maxevents =>
            rw [ht, hm] at h
            change ((eptGet w layout maxevents c.env) >>= fun ept =>
              Prog.ensure (realEpwait c) (Waiter.put (some ept))).run account _ = _ at h
            unfold eptGet at h
            cases hsize : eptSize w layout maxevents with
            | error e =>
                rw [hsize] at h
                cases h
                exact balanced_start answers
            | ok size =>
                rw [hsize] at h
                rcases answers with _ | ⟨_ | ⟨p, left⟩, rest⟩
                · cases h
                · cases h
                  exact balanced_start rest
                · have hend : l = ⟨rest, [p], [p]⟩ := run_ensure (realEpwait_neutral c) h
                  rw [hend]
                  exact List.Perm.refl _

theorem kevent_balanced {c : KeventCall}
    (h : (spKevent w layout c).run account ⟨answers, [], []⟩ = some (outcome, l)) :
    Balanced l ↔ ¬c.Leaks answers := by
  unfold spKevent at h
  cases hn : Kqueue.Conversion.nchangesOf c.changelist with
  | error f =>
      rw [hn] at h
      cases h
      refine ⟨fun _ hleak => ?_, fun _ => balanced_start answers⟩
      obtain ⟨⟨nchanges, hok⟩, _⟩ := hleak
      rw [hn] at hok
      cases hok
  | ok nchanges =>
      cases he : Kqueue.neventsOf c.events c.block with
      | error e =>
          rw [hn, he] at h
          cases h
          refine ⟨fun _ hleak => ?_, fun _ => balanced_start answers⟩
          obtain ⟨_, ⟨nevents, hok⟩, _⟩ := hleak
          rw [he] at hok
          cases hok
      | ok nevents =>
          cases ht : c.timeout with
          | error e =>
              rw [hn, he, ht] at h
              cases h
              refine ⟨fun _ hleak => ?_, fun _ => balanced_start answers⟩
              have hok := hleak.2.2.1
              rw [ht] at hok
              cases hok
          | ok done =>
              rw [hn, he, ht] at h
              change (kptGet w layout nchanges nevents c.env >>= fun kpt =>
                if c.closed then (.raise .ioError : Waiter Unit)
                else Prog.ensure (doKevent c nchanges) (Waiter.put (some kpt))).run account _ = _ at h
              rw [kptGet, kptSize_eq, if_neg (by omega)] at h
              rcases answers with _ | ⟨e | ⟨p, left⟩, rest⟩
              · cases h
              · cases h
                refine ⟨fun _ hleak => ?_, fun _ => balanced_start rest⟩
                obtain ⟨_, _, _, _, p, left, rest', hok⟩ := hleak
                cases hok
              · have hafter : (if c.closed then (.raise .ioError : Waiter Unit)
                    else Prog.ensure (doKevent c nchanges) (Waiter.put (some p))).run account
                      ⟨rest, [p], []⟩ = some (outcome, l) := h
                cases hc : c.closed with
                | true =>
                    rw [hc, if_pos rfl] at hafter
                    cases hafter
                    have hleak : c.Leaks (.ok (p, left) :: rest) :=
                      ⟨⟨nchanges, hn⟩, ⟨nevents, he⟩, ht, hc, p, left, rest, rfl⟩
                    refine ⟨fun hb => ?_, fun hno => absurd hleak hno⟩
                    have hlen := hb.length_eq
                    cases hlen
                | false =>
                    rw [hc] at hafter
                    have hend : l = ⟨rest, [p], [p]⟩ := run_ensure (doKevent_neutral c nchanges) hafter
                    refine ⟨fun _ hleak => ?_, fun _ => ?_⟩
                    · have hclosed := hleak.2.2.2.1
                      rw [hc] at hclosed
                      cases hclosed
                    · rw [hend]
                      exact List.Perm.refl _

end Left

section Take

open Inotify

variable {args : Args} {answers : List (Except Err (Nat × Nat))} {l : Ledger}

-- One buffer out, and no release yet.
theorem not_balanced_one (answers : List (Except Err (Nat × Nat))) (buf : Nat) :
    ¬Balanced ⟨answers, [buf], []⟩ := by
  intro hb
  cases hb.length_eq

-- The resize of a buffer `args.buf` that is the only one so far.
theorem run_resize (args : Args) (ioctl : Except Errno Int) (env : Env)
    (answers : List (Except Err (Nat × Nat))) :
    (resizeInternalBuffer args ioctl env).run account ⟨answers, [args.buf], []⟩ =
      if args.size > 0x10000 then some (.error (.runtimeError "path too long"), ⟨answers, [args.buf], []⟩)
      else
        match ioctl with
        | .error errno => some (.error (.sys errno), ⟨answers, [args.buf], []⟩)
        | .ok newlen =>
            if newlen > 0 then
              match answers with
              | [] => none
              | .error e :: rest => some (.error e, ⟨rest, [args.buf], [args.buf]⟩)
              | .ok (p, _) :: rest =>
                  some (.error (negativeLength newlen), ⟨rest, [args.buf, p], [args.buf]⟩)
            else if newlen = 0 then some (.ok args, ⟨answers, [args.buf], []⟩)
            else some (.error (negativeLength newlen), ⟨answers, [args.buf], []⟩) := by
  unfold resizeInternalBuffer
  split
  · rfl
  · cases ioctl with
    | error errno => rfl
    | ok newlen =>
        simp only [regrow]
        by_cases hpos : newlen > 0
        · have hne : newlen ≠ 0 := by omega
          simp only [if_pos hpos, if_neg hne]
          rcases answers with _ | ⟨e | ⟨p, left⟩, rest⟩
          · rfl
          · rfl
          · rfl
        · simp only [if_neg hpos]
          by_cases hzero : newlen = 0
          · simp only [if_pos hzero]
            rfl
          · simp only [if_neg hzero]
            rfl

-- The rest of the loop after one turn.
def onwards (t : Turn) (rest : List Turn) : Turned → Waiter (Option Inotify.Event)
  | .again args => readLoop args rest
  | .waits args errno => do
      let args ← afterWait args errno t.closedAfter
      readLoop args rest
  | .ended rv _ => pure rv

theorem readLoop_cons (args : Args) (t : Turn) (rest : List Turn) :
    readLoop args (t :: rest) = afterRead args t >>= onwards t rest := rfl

-- The turn is over without a request: the loop goes on, waits, or is left.
inductive Quiet (args : Args) (answers : List (Except Err (Nat × Nat))) (t : Turn) (rest : List Turn) :
    Except Err Turned → Prop
  | again (hr : Regrows args.nonblockP args.size (t :: rest) ↔ Regrows args.nonblockP args.size rest) :
      Quiet args answers t rest (.ok (.again args))
  | waits {errno : Errno} (hr : Regrows args.nonblockP args.size (t :: rest) ↔ t.closedAfter = false ∧
        (errno = .EINTR ∨ errno = .EAGAIN) ∧ Regrows args.nonblockP args.size rest) :
      Quiet args answers t rest (.ok (.waits args errno))
  | ended {rv : Option Inotify.Event} {extra : List Inotify.Event}
      (hr : ¬Regrows args.nonblockP args.size (t :: rest)) :
      Quiet args answers t rest (.ok (.ended rv extra))
  | raised {e : Err} (hr : ¬Regrows args.nonblockP args.size (t :: rest)) :
      Quiet args answers t rest (.error e)

-- What the request for a larger buffer makes of the ledger.
def regrown (args : Args) (newlen : Int) :
    List (Except Err (Nat × Nat)) → Option (Except Err Turned × Ledger)
  | [] => none
  | .error e :: rest => some (.error e, ⟨rest, [args.buf], [args.buf]⟩)
  | .ok (p, _) :: rest => some (.error (negativeLength newlen), ⟨rest, [args.buf, p], [args.buf]⟩)

theorem resize_cases (args : Args) (answers : List (Except Err (Nat × Nat))) (t : Turn) (rest : List Turn)
    (hr : Regrows args.nonblockP args.size (t :: rest) ↔ match t.ioctl with
      | .error _ => False
      | .ok newlen => args.size ≤ 0x10000 ∧
          (newlen > 0 ∨ newlen = 0 ∧ Regrows args.nonblockP args.size rest)) :
    let run := (resizeInternalBuffer args t.ioctl t.env >>= fun args =>
      (pure (.again args) : Waiter Turned)).run account ⟨answers, [args.buf], []⟩
    (∃ ended, run = some (ended, ⟨answers, [args.buf], []⟩) ∧ Quiet args answers t rest ended) ∨
    (Regrows args.nonblockP args.size (t :: rest) ∧ ∃ newlen, run = regrown args newlen answers) := by
  have hsize := run_resize args t.ioctl t.env answers
  by_cases hlarge : args.size > 0x10000
  · rw [if_pos hlarge] at hsize
    refine Or.inl ⟨_, Prog.run_bind_error hsize, .raised fun hregrows => ?_⟩
    rw [hr] at hregrows
    cases hioctl : t.ioctl with
    | error errno => simp [hioctl] at hregrows
    | ok newlen =>
        simp only [hioctl] at hregrows
        omega
  · rw [if_neg hlarge] at hsize
    cases hioctl : t.ioctl with
    | error errno =>
        simp only [hioctl] at hsize hr ⊢
        exact Or.inl ⟨_, Prog.run_bind_error hsize, .raised hr.mp⟩
    | ok newlen =>
        simp only [hioctl] at hsize hr ⊢
        by_cases hpos : newlen > 0
        · rw [if_pos hpos] at hsize
          refine Or.inr ⟨hr.mpr ⟨by omega, Or.inl hpos⟩, newlen, ?_⟩
          rcases answers with _ | ⟨e | ⟨p, left⟩, answers⟩
          · exact Prog.run_bind_none hsize
          · exact Prog.run_bind_error hsize
          · exact Prog.run_bind_error hsize
        · rw [if_neg hpos] at hsize
          by_cases hzero : newlen = 0
          · rw [if_pos hzero] at hsize
            refine Or.inl ⟨.ok (.again args), Prog.run_bind_ok hsize, .again (hr.trans ?_)⟩
            constructor
            · rintro ⟨_, hpos' | ⟨_, hrest⟩⟩
              · exact absurd hpos' hpos
              · exact hrest
            · exact fun hrest => ⟨by omega, Or.inr ⟨hzero, hrest⟩⟩
          · rw [if_neg hzero] at hsize
            refine Or.inl ⟨_, Prog.run_bind_error hsize, .raised fun hregrows => ?_⟩
            obtain ⟨_, hpos' | ⟨hzero', _⟩⟩ := hr.mp hregrows
            · exact hpos hpos'
            · exact hzero hzero'

theorem afterRead_cases (args : Args) (answers : List (Except Err (Nat × Nat))) (t : Turn)
    (rest : List Turn) :
    let run := (afterRead args t).run account ⟨answers, [args.buf], []⟩
    (∃ ended, run = some (ended, ⟨answers, [args.buf], []⟩) ∧ Quiet args answers t rest ended) ∨
    (Regrows args.nonblockP args.size (t :: rest) ∧ ∃ newlen, run = regrown args newlen answers) := by
  unfold afterRead
  split
  · rename_i hinterrupt
    refine Or.inl ⟨_, rfl, .raised fun hregrows => ?_⟩
    rw [hregrows.1] at hinterrupt
    cases hinterrupt
  rename_i hinterrupt
  split
  · rename_i hread
    exact resize_cases args answers t rest (by simp only [Regrows, hread, hinterrupt, true_and])
  · rename_i hread
    exact resize_cases args answers t rest (by simp only [Regrows, hread, hinterrupt, true_and])
  · rename_i errno hinval hread
    have hr : Regrows args.nonblockP args.size (t :: rest) ↔
        ¬(errno = .EAGAIN ∧ args.nonblockP = true) ∧ t.closed = false ∧ t.closedAfter = false ∧
          (errno = .EINTR ∨ errno = .EAGAIN) ∧ Regrows args.nonblockP args.size rest := by
      simp only [Regrows, hread, hinterrupt, true_and]
    by_cases hagain : errno = .EAGAIN ∧ args.nonblockP = true
    · simp only [if_pos hagain]
      exact Or.inl ⟨_, rfl, .ended fun hregrows => (hr.mp hregrows).1 hagain⟩
    · simp only [if_neg hagain]
      cases hclosed : t.closed with
      | true =>
          refine Or.inl ⟨.error .ioError, rfl, .raised fun hregrows => ?_⟩
          have hopen := (hr.mp hregrows).2.1
          rw [hclosed] at hopen
          cases hopen
      | false =>
          refine Or.inl ⟨.ok (.waits args errno), rfl, .waits (hr.trans ?_)⟩
          exact ⟨fun h => h.2.2, fun h => ⟨hagain, hclosed, h⟩⟩
  · rename_i bytes hempty hread
    have hr : Regrows args.nonblockP args.size (t :: rest) ↔
        events bytes = [] ∧ Regrows args.nonblockP args.size rest := by
      simp only [Regrows, hread, hinterrupt, true_and]
    split
    · rename_i hnone
      exact Or.inl ⟨_, rfl, .again (hr.trans ⟨fun h => h.2, fun h => ⟨hnone, h⟩⟩)⟩
    · rename_i rv extra hsome
      refine Or.inl ⟨_, rfl, .ended fun hregrows => ?_⟩
      have hnone := (hr.mp hregrows).1
      rw [hsome] at hnone
      cases hnone

-- The loop has one buffer from its start, and gives it back only for a
-- larger one.
theorem readLoop_balanced {turns : List Turn} {outcome : Except Err (Option Inotify.Event)}
    (h : (readLoop args turns).run account ⟨answers, [args.buf], []⟩ = some (outcome, l)) :
    Balanced l ↔ ∃ e rest, answers = .error e :: rest ∧ Regrows args.nonblockP args.size turns := by
  have hkept : l = ⟨answers, [args.buf], []⟩ → ∀ {turns}, ¬Regrows args.nonblockP args.size turns →
      (Balanced l ↔ ∃ e rest, answers = .error e :: rest ∧ Regrows args.nonblockP args.size turns) := by
    rintro rfl turns hno
    refine ⟨fun hb => absurd hb (not_balanced_one answers args.buf), ?_⟩
    rintro ⟨_, _, _, hregrows⟩
    exact absurd hregrows hno
  induction turns with
  | nil => cases h
  | cons t rest ih =>
      rw [readLoop_cons] at h
      rcases afterRead_cases args answers t rest with ⟨ended, hturn, hquiet⟩ | ⟨hregrows, newlen, hturn⟩
      · cases hquiet with
        | again hr =>
            rw [Prog.run_bind_ok hturn] at h
            simp only [hr]
            exact ih h
        | @waits errno hr =>
            rw [Prog.run_bind_ok hturn] at h
            by_cases hgoes : t.closedAfter = false ∧ (errno = .EINTR ∨ errno = .EAGAIN)
            · have hwait : afterWait args errno t.closedAfter = pure args := by
                simp [afterWait, hgoes.1, hgoes.2]
              simp only [onwards, hwait] at h
              have hrest : Regrows args.nonblockP args.size (t :: rest) ↔
                  Regrows args.nonblockP args.size rest :=
                hr.trans ⟨fun h => h.2.2, fun h => ⟨hgoes.1, hgoes.2, h⟩⟩
              simp only [hrest]
              exact ih h
            · have hwait : ∃ e, afterWait args errno t.closedAfter = .raise e := by
                unfold afterWait
                cases hclosed : t.closedAfter with
                | true => exact ⟨_, if_pos rfl⟩
                | false =>
                    have hneither : ¬(errno = .EINTR ∨ errno = .EAGAIN) := fun hor => hgoes ⟨hclosed, hor⟩
                    exact ⟨.sys errno, by simp [hneither]⟩
              obtain ⟨e, he⟩ := hwait
              simp only [onwards, he] at h
              cases h
              exact hkept rfl fun hregrows => hgoes ⟨(hr.mp hregrows).1, (hr.mp hregrows).2.1⟩
        | ended hr =>
            rw [Prog.run_bind_ok hturn] at h
            cases h
            exact hkept rfl hr
        | raised hr =>
            rw [Prog.run_bind_error hturn] at h
            cases h
            exact hkept rfl hr
      · rcases answers with _ | ⟨e | ⟨p, left⟩, answers⟩
        · rw [Prog.run_bind_none hturn] at h
          cases h
        · rw [Prog.run_bind_error hturn] at h
          cases h
          exact ⟨fun _ => ⟨e, answers, rfl, hregrows⟩, fun _ => List.Perm.refl _⟩
        · rw [Prog.run_bind_error hturn] at h
          cases h
          refine ⟨fun hb => ?_, ?_⟩
          · cases hb.length_eq
          · rintro ⟨_, _, hnone, _⟩
            cases hnone

-- What the arguments of a call come to before any request.
theorem run_prepare (b : Begin) (l : Ledger) :
    (∃ nonblockP, (prepare b).run account l = some (.ok nonblockP, l) ∧ b.nonblock = .ok nonblockP ∧
      b.closed = false ∧ ¬(nonblockP = true ∧ b.fcntl ≠ none)) ∨
    (∃ e, (prepare b).run account l = some (.error e, l) ∧
      ∀ nonblockP, b.nonblock = .ok nonblockP → b.closed = false → nonblockP = true ∧ b.fcntl ≠ none) := by
  unfold prepare
  cases hn : b.nonblock with
  | error e => exact Or.inr ⟨e, rfl, fun _ hok _ => nomatch hok⟩
  | ok nonblockP =>
      have hbind : ∀ next : Bool → Waiter Bool,
          ((Prog.ofExcept (.ok nonblockP) : Waiter Bool) >>= next).run account l =
            (next nonblockP).run account l := fun _ => rfl
      rw [hbind]
      cases hc : b.closed with
      | true => exact Or.inr ⟨.ioError, rfl, fun _ _ hopen => nomatch hopen⟩
      | false =>
          cases nonblockP with
          | false => exact Or.inl ⟨false, rfl, rfl, rfl, fun h => nomatch h.1⟩
          | true =>
              cases hf : b.fcntl with
              | none => exact Or.inl ⟨true, rfl, rfl, rfl, fun h => h.2 rfl⟩
              | some errno =>
                  refine Or.inr ⟨.sys errno, rfl, fun n hok _ => ?_⟩
                  cases hok
                  exact ⟨rfl, Option.some_ne_none errno⟩

theorem run_ensure_none {α : Type} (program : Waiter α) (l : Ledger) :
    (Prog.ensure program (Waiter.put none)).run account l = program.run account l := by
  rw [Prog.ensure, Prog.run_handle]
  cases hp : program.run account l with
  | none => rfl
  | some result =>
      obtain ⟨outcome, l'⟩ := result
      cases outcome <;> rfl

theorem take_balanced {c : TakeCall} {outcome : Except Err Unit}
    (h : (take c).run account ⟨answers, [], []⟩ = some (outcome, l)) : Balanced l ↔ ¬c.Keeps answers := by
  obtain ⟨⟨taken, l'⟩, htake, hend⟩ :=
    Option.bind_eq_some_iff.mp ((Prog.run_handle (Inotify.take c.served c.start c.turns) _ _).symm.trans h)
  have hl : l = l' := by
    cases taken <;> (cases hend; rfl)
  subst hl
  unfold Inotify.take at htake
  cases hs : c.served with
  | some event =>
      rw [hs] at htake
      cases htake
      refine ⟨fun _ hkeeps => ?_, fun _ => balanced_start answers⟩
      have hnone := hkeeps.1
      rw [hs] at hnone
      cases hnone
  | none =>
      rw [hs] at htake
      rcases run_prepare c.start ⟨answers, [], []⟩ with
        ⟨nonblockP, hrun, hn, hopen, hfcntl⟩ | ⟨e, hrun, hbars⟩
      · have hbody := (Prog.run_bind_ok hrun).symm.trans htake
        rw [run_ensure_none] at hbody
        rcases answers with _ | ⟨e | ⟨p, left⟩, answers⟩
        · cases hbody
        · cases hbody
          refine ⟨fun _ hkeeps => ?_, fun _ => balanced_start answers⟩
          obtain ⟨_, _, _, _, _, p, left, rest, hok, _⟩ := hkeeps
          cases hok
        · have hloop : (readLoop ⟨nonblockP, left, p⟩ c.turns).run account ⟨answers, [p], []⟩ =
              some (taken, l) := hbody
          rw [readLoop_balanced hloop]
          constructor
          · rintro ⟨e, rest, rfl, hregrows⟩ ⟨_, nonblockP', hn', _, _, p', left', rest', hok, hno⟩
            obtain rfl := Except.ok.inj (hn.symm.trans hn')
            cases hok
            exact hno ⟨e, rest, rfl, hregrows⟩
          · intro hno
            by_contra hnot
            exact hno ⟨hs, nonblockP, hn, hopen, hfcntl, p, left, answers, rfl, hnot⟩
      · have hbody := (Prog.run_bind_error hrun).symm.trans htake
        cases hbody
        refine ⟨fun _ hkeeps => ?_, fun _ => balanced_start answers⟩
        obtain ⟨_, nonblockP, hn, hopen, hno, _⟩ := hkeeps
        exact hno (hbars nonblockP hn hopen)

end Take

end SleepyPenguin.Tls.Callers
