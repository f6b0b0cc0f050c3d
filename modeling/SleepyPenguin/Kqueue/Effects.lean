import SleepyPenguin.Runtime.Family
import SleepyPenguin.Kqueue.Methods

namespace SleepyPenguin.Kqueue

open Foundation Foundation.Prog

-- A kevent call that has sent `changes` to the instance of `x`, which is none
-- at all when it did not get that far.
structure Polled (x : Handle) (changes : List Kevent) (s s' : Sys) : Prop where
  self : s'.self = s.self
  family : s'.family = s.family
  objects : s'.objects = s.objects
  insts : s'.kernel.insts = s.kernel.insts.modify x.inst fun i =>
    { i with changes := i.changes ++ changes }

namespace Polled

variable {x : Handle} {changes : List Kevent} {s s' : Sys}

theorem refl (x : Handle) (s : Sys) : Polled x [] s s := by
  refine ⟨rfl, rfl, rfl, ?_⟩
  simp only [List.append_nil]
  exact (List.modify_id _ _).symm

theorem of_frames (h : Polled x changes s s') (frames : Nat → Frame) (blocks : List (Option Nat)) :
    Polled x changes s { s' with frames := frames, oracle.blocks := blocks } :=
  ⟨h.self, h.family, h.objects, h.insts⟩

theorem sameMembers (h : Polled x changes s s') : SameMembers s s' :=
  ⟨h.self, by rw [h.family], by rw [h.family], by rw [h.family], by rw [h.family],
    by rw [h.insts, List.length_modify]⟩

theorem creators (h : Polled x changes s s') : creators s' = creators s := by
  rw [SleepyPenguin.creators, h.insts]
  exact creators_modify s.kernel.insts x.inst fun _ => rfl

theorem moved {closing : Prop} {m : Nat} (h : Polled x changes s s') (hs : Wired s) :
    Moved closing m s s' :=
  .of_same h.sameMembers hs

end Polled

section Methods

variable {t m : Nat} {member : Member} {x : Handle} {s s' : Sys} {closing : Prop}

theorem sysKevent_cases (s : Sys) (t : Nat) (x : Handle) (items : List KeventItem) (nevents : Nat) :
    (∃ e s' changes, s.kevent t x items nevents = (.error e, s') ∧ Polled x changes s s') ∨
    (∃ n s' changes, s.kevent t x items nevents = (.ok n, s') ∧ items.mapM unpackEvent = .ok changes ∧
      Polled x changes s s' ∧ (s'.frames t).buf.length = n) := by
  unfold Sys.kevent
  cases x.closed with
  | true => exact Or.inl ⟨_, _, [], rfl, .refl x s⟩
  | false =>
      have hnone : ∀ log waits, Polled x [] s { s with kernel.log := log, oracle.waits := waits } :=
        fun _ _ => ⟨rfl, rfl, rfl, (Polled.refl x s).insts⟩
      simp only [Bool.false_eq_true, ite_false]
      rcases hch : items.mapM unpackEvent with e | changes
      · exact Or.inl ⟨_, _, [], rfl, .refl x s⟩
      · rcases hw : Sys.interrupted s.oracle.waits with ⟨count, last, left⟩
        simp only
        cases last with
        | some errno =>
            cases count with
            | zero => exact Or.inl ⟨_, _, [], rfl, hnone _ _⟩
            | succ count => exact Or.inl ⟨_, _, changes, rfl, rfl, rfl, rfl, rfl⟩
        | none =>
            refine Or.inr ⟨_, _, changes, rfl, rfl, ⟨rfl, rfl, rfl, rfl⟩, ?_⟩
            simp

theorem wp_ioKevent (hm : s.family.members[m]? = some member)
    (hx : s.family.handles[member.io]? = some x) (items : List KeventItem) (nevents : Option Int)
    (block : Bool) :
    wp (exec t) (fun _ s' => ∃ changes, items.mapM unpackEvent = .ok changes ∧ Polled x changes s s')
      (fun _ s' => ∃ changes, Polled x changes s s') (ioKevent m items nevents block) s := by
  simp only [ioKevent, wp_monad_bind, wp_getIo, wp_ofExcept]
  refine ⟨member, hm, ?_⟩
  rcases neventsOf nevents block with e | nevents
  · exact ⟨[], .refl x s⟩
  · simp only [ends_ok, wp_ensure, wp_monad_bind, wp_kevent, wp_putBuf, wp_monad_pure]
    refine ⟨x, hx, ?_⟩
    rcases sysKevent_cases s t x items nevents with
      ⟨e, s', changes, he, hp⟩ | ⟨n, s', changes, he, hch, hp, hn⟩
    · rw [he]
      exact ⟨changes, hp.of_frames _ _⟩
    · rw [he]
      have hyields := wp_yields (t := t) (P := Polled x changes s) (fun _ _ _ hq => hq.of_frames _ _) hp hn
      exact wp_mono hyields (fun _ _ hq => ⟨changes, hch, hq.of_frames _ _⟩)
        fun _ _ hq => ⟨changes, hq.of_frames _ _⟩

theorem wp_kevent_rest (hm : s.family.members[m]? = some member)
    (hx : s.family.handles[member.io]? = some x) (changelist : Changelist) (nevents : Option Int)
    (block : Bool) :
    wp (exec t) (fun _ s' => ∃ changes, changelist.changes = .ok changes ∧ Polled x changes s s')
      (fun _ s' => ∃ changes, Polled x changes s s')
      (do
        let items ← .ofExcept (changelist.items.mapM withObjectId)
        let n ← ioKevent m items nevents block
        Pure.pure (Ret.count n) : Method Ret) s := by
  simp only [wp_monad_bind, wp_ofExcept, Changelist.changes]
  rcases changelist.items.mapM withObjectId with e | items
  · exact ⟨[], .refl x s⟩
  · exact wp_ioKevent hm hx items nevents block

-- A call on a member that passes the fork check.
theorem wp_kevent_passes (hp : Passes s m member x) (hs : s.family.mutex = none)
    (changelist : Changelist) (nevents : Option Int) (block : Bool) :
    wp (exec t) (fun _ s' => ∃ changes, changelist.changes = .ok changes ∧ Polled x changes s s')
      (fun _ s' => ∃ changes, Polled x changes s s') (kevent m changelist nevents block) s := by
  have hback : (s.withMutex (some t)).withMutex none = s := by simp only [Sys.withMutex, ← hs]
  rw [kevent, wp_monad_bind, wp_synchronize, kqCheck, (hp.of_lock (some t)).wp_check, hback]
  exact ⟨hs, wp_kevent_rest hp.listed hp.handle changelist nevents block⟩

-- What every method does to the members once the check is passed.
structure Passed (closing : Prop) (m : Nat) (s s' : Sys) : Prop where
  moved : Moved closing m s s'
  creators : creators s' = creators s
  objects : s'.objects = s.objects

theorem Passed.of_polled {changes : List Kevent} (h : Polled x changes s s') (hs : Wired s) :
    Passed closing m s s' :=
  ⟨h.moved hs, h.creators, h.objects⟩

theorem Passed.of_kept (hk : Kept s s') (hm : Moved closing m s s') : Passed closing m s s' :=
  ⟨hm, creators_congr hk.insts, hk.objects⟩

theorem Passed.settled {i : Nat} (h : Passed closing m s s') (hs : Settled s i) : Settled s' i :=
  hs.of_moved h.moved h.creators

theorem close_passed (hs : Wired s) (hc : closing) (hm : s.family.members[m]? = some member)
    (hx : s.family.handles[member.io]? = some x) :
    wp (exec t) (fun _ s' => Passed closing m s s') (fun _ s' => Passed closing m s s')
      (Kqueue.close m) s := by
  simp only [Kqueue.close, wp_monad_bind, wp_monad_pure]
  refine wp_mono (wp_sharedClose hm hx hs.idle) ?_ ?_
  · exact fun _ _ h => .of_kept h.1 (.of_closed hs hc hm hx h.1 h.2)
  · exact fun _ _ h => .of_kept h.1 (.of_closed hs hc hm hx h.1 h.2)

theorem closedP_passed (hs : Wired s) (hm : s.family.members[m]? = some member)
    (hx : s.family.handles[member.io]? = some x) :
    wp (exec t) (fun _ s' => Passed closing m s s') (fun _ s' => Passed closing m s s')
      (Kqueue.closedP m) s := by
  simp only [Kqueue.closedP, wp_monad_bind, wp_monad_pure]
  refine wp_mono (wp_closedP hm hx hs.idle) ?_ (fun _ _ hf => hf)
  rintro _ s' ⟨_, rfl⟩
  exact .of_polled (.refl x s') hs

theorem method_passed (hp : Passes s m member x) (hs : Wired s) (op : Op) :
    wp (exec t) (fun _ s' => Passed (closes op = true) m s s')
      (fun _ s' => Passed (closes op = true) m s s') (method m op) s := by
  have hdup : ∀ {closing : Prop}, wp (exec t) (fun _ s' => Passed closing m s s')
      (fun _ s' => Passed closing m s s') (Kqueue.dup m) s := by
    intro closing
    simp only [Kqueue.dup, wp_monad_bind, wp_monad_pure]
    refine wp_mono (hp.wp_dup hs.idle _ _) ?_ ?_
    · intro _ _ hs'
      obtain ⟨_, hk, hd, _⟩ := hs'
      exact .of_kept hk (.of_duplicated hs hp hk hd)
    · intro _ _ hs'
      obtain ⟨hk, hf, _⟩ := hs'
      exact .of_kept hk (.of_sameFamily hs hk hf)
  cases op with
  | toIo =>
      have hback : (s.withMutex (some t)).withMutex none = s := by simp only [Sys.withMutex, ← hs.idle]
      simp only [method, toIo, wp_synchronize, wp_monad_bind, kqCheck, (hp.of_lock (some t)).wp_check,
        wp_getIo, wp_monad_pure, hback]
      exact ⟨hs.idle, member, hp.listed, .of_polled (.refl x s) hs⟩
  | kevent changelist nevents block =>
      refine wp_mono (wp_kevent_passes hp hs.idle changelist nevents block) ?_ ?_
      · intro _ _ hs'
        obtain ⟨_, _, h⟩ := hs'
        exact .of_polled h hs
      · intro _ _ hs'
        obtain ⟨_, h⟩ := hs'
        exact .of_polled h hs
  | dup => exact hdup
  | clone => exact hdup
  | close => exact close_passed hs rfl hp.listed hp.handle
  | closedP => exact closedP_passed hs hp.listed hp.handle

end Methods

-- Kqueue.new
theorem call_initializeNew (pid : Pid) (objects : Objects) :
    (initializeNew 0).call {} (allocated pid objects) = some (.ok (), opened pid objects) := rfl

end SleepyPenguin.Kqueue
