import SleepyPenguin.Runtime.Completion
import SleepyPenguin.Kqueue.Fork

-- Every call on a family of Kqueue objects comes to its end.
namespace SleepyPenguin.Kqueue.Completion

open Foundation Foundation.Prog Schedule

instance : Inhabited Ret := ⟨.nil⟩

section Methods

variable {t m : Nat} {P : Sys → Prop}

theorem sNew_ready {held : Bool} : Triple t m held (fun _ => True) sNew Made := by
  refine triple_bind (create_made stable_true) fun made => ?_
  cases made with
  | ok io => exact triple_pure fun _ h => h.2 io rfl
  | error errno =>
      refine triple_bind (triple_mono (create_made stable_true) (fun _ _ => trivial) fun _ _ h => h)
        fun made => ?_
      cases made with
      | ok io => exact triple_pure fun _ h => h.2 io rfl
      | error errno => exact triple_raise

theorem kqCheck_ready : Triple t m true (fun _ => True) (kqCheck m) fun _ _ => True := by
  refine check_ready ⟨fun P io hP hmade => ?_, ?_⟩
  · exact attempt_keeps hP rfl fun s _ _ hs => hmade s hs
  · refine triple_bind sNew_ready fun io => ?_
    exact triple_mono (perform_keeps (stable_made io) rfl fun _ _ hm hs => ⟨hm, hs⟩) (fun _ h => h)
      fun _ _ _ => trivial

theorem kevent_ready (changelist : Changelist) (nevents : Option Int) (block : Bool) :
    Triple t m false (fun _ => True) (kevent m changelist nevents block) fun _ _ => True := by
  refine triple_bind (triple_synchronize stable_true (fun _ => stable_true) kqCheck_ready) fun _ => ?_
  refine triple_bind triple_ofExcept fun items => ?_
  refine triple_bind (M := fun _ _ => True) ?_ fun n => triple_pure fun _ _ => trivial
  refine triple_bind (getIo_made stable_true) fun kq => ?_
  refine triple_bind triple_ofExcept fun nevents => ?_
  refine poll_ready (stable_true.and (stable_made kq)) rfl (fun _ _ _ hs => hs.2) fun s n s' hstep => ?_
  obtain ⟨x, _, hstep⟩ := Option.map_eq_some_iff.mp hstep
  rcases sysKevent_cases s t x items nevents with ⟨e, q, _, hrun, _⟩ | ⟨count, q, _, hrun, _, _, hfill⟩
  · cases hrun.symm.trans hstep
  · cases hrun.symm.trans hstep
    exact hfill

theorem method_ready (t m : Nat) (op : Op) :
    Triple t m false (fun _ => True) (method m op) fun _ _ => True := by
  have hdup : Triple t m false (fun _ => True) (dup m) fun _ _ => True :=
    triple_bind (dup_ready fun _ => kqCheck_ready) fun _ => triple_pure fun _ _ => trivial
  cases op with
  | toIo =>
      refine triple_synchronize stable_true (fun _ => stable_true) ?_
      refine triple_bind kqCheck_ready fun _ => ?_
      exact triple_bind (getIo_made stable_true) fun io => triple_pure fun _ _ => trivial
  | kevent changelist nevents block => exact kevent_ready changelist nevents block
  | dup => exact hdup
  | clone => exact hdup
  | close => exact triple_bind close_ready fun _ => triple_pure fun _ _ => trivial
  | closedP => exact triple_bind closedP_ready fun _ => triple_pure fun _ _ => trivial

end Methods

-- As for Epoll: `@mtx` is held where the members' shared variables are written
-- and never while a call waits, and every call comes to its end.
theorem kqueue_calls_complete (pid : Pid) (objects : Objects) (labels : List (Schedule.Label Op)) :
    Visits (Schedule.step Fork.api)
      (fun w => Orderly w ∧ Completes (Performs Fork.api) (Outside Fork.api) Over w)
      (Schedule.start pid objects) labels :=
  visits_completes method_ready pid objects labels

end SleepyPenguin.Kqueue.Completion
