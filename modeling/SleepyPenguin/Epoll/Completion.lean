import SleepyPenguin.Runtime.Completion
import SleepyPenguin.Epoll.Fork

-- Every call on a family of Epoll objects comes to its end.
namespace SleepyPenguin.Epoll.Completion

open Foundation Foundation.Prog Schedule

instance : Inhabited Ret := ⟨.nil⟩

section Methods

variable {t m : Nat} {α : Type} {P : Sys → Prop}

theorem sNew_ready {held : Bool} : Triple t m held (fun _ => True) sNew Made := by
  refine triple_bind (create_made stable_true) fun made => ?_
  cases made with
  | ok io => exact triple_pure fun _ h => h.2 io rfl
  | error errno =>
      change Triple t m held _ (if rbSpGcForFd errno then _ else _) _
      split
      · refine triple_bind (triple_mono (create_made stable_true) (fun _ _ => trivial) fun _ _ h => h)
          fun made => ?_
        cases made with
        | ok io => exact triple_pure fun _ h => h.2 io rfl
        | error errno => exact triple_raise
      · exact triple_raise

theorem epReinit_ready : Triple t m true (fun _ => True) (epReinit m) fun _ _ => True := by
  refine triple_bind (perform_keeps stable_true rfl fun _ _ _ _ => trivial) fun _ => ?_
  refine triple_bind (perform_keeps stable_true rfl fun _ _ _ _ => trivial) fun _ => ?_
  refine triple_bind sNew_ready fun io => ?_
  exact triple_mono (perform_keeps (stable_made io) rfl fun _ _ hm hs => ⟨hm, hs⟩)
    (fun _ h => h) fun _ _ _ => trivial

theorem epCheck_ready : Triple t m true (fun _ => True) (epCheck m) fun _ _ => True := by
  refine check_ready ⟨fun P io hP hmade => ?_, epReinit_ready⟩
  exact attempt_keeps hP rfl fun s _ _ hs => hmade s hs

-- A body under `@mtx` once the check is passed.
theorem sync_ready {body : Method α} (h : Triple t m true (fun _ => True) body fun _ _ => True) :
    Triple t m false (fun _ => True) (Method.synchronize do epCheck m; body) fun _ _ => True :=
  triple_synchronize stable_true (fun _ => stable_true) (triple_bind epCheck_ready fun _ => h)

theorem epollCtl_ready (op : CtlOp) (io : Obj) (events : EventArg) :
    Triple t m true (fun _ => True) (epollCtl m op io events) fun _ _ => True := by
  refine triple_bind (getIo_made stable_true) fun ep => ?_
  exact triple_mono (attempt_keeps (stable_true.and (stable_made ep)) rfl fun _ _ _ hs => hs.2)
    (fun _ h => h)
    fun _ _ _ => trivial

theorem setMark_ready (fd : Fd) (mark : Option Obj) :
    Triple t m true (fun _ => True) (.perform (.setMark fd mark)) fun _ _ => True :=
  perform_keeps stable_true rfl fun _ _ _ _ => trivial

theorem setEvents_ready (fd : Fd) (events : Option EventArg) :
    Triple t m true (fun _ => True) (.perform (.setEvents fd events)) fun _ _ => True :=
  perform_keeps stable_true rfl fun _ _ _ _ => trivial

theorem fileno_ready (io : Obj) :
    Triple t m false (fun _ => True) (.attempt (.fileno io)) fun _ _ => True :=
  attempt_keeps stable_true rfl fun _ _ _ _ => trivial

theorem wait_ready (maxevents : Option Int) :
    Triple t m false (fun _ => True) (wait m maxevents) fun _ _ => True := by
  have hsnapshot : ∀ snapshot, Triple t m false (fun _ => True)
    (.perform (.setSnapshot snapshot)) fun _ _ => True :=
    fun _ => perform_keeps stable_true rfl fun _ _ _ _ => trivial
  have hpoll : Triple t m false (fun _ => True) (epollWait m (maxevents.getD 64)) fun _ _ => True := by
    refine triple_bind (getIo_made stable_true) fun ep => ?_
    refine poll_ready (stable_true.and (stable_made ep)) rfl (fun _ _ _ hs => hs.2) fun s n s' hstep => ?_
    obtain ⟨x, _, hstep⟩ := Option.bind_eq_some_iff.mp hstep
    obtain ⟨inst, _, hstep⟩ := Option.map_eq_some_iff.mp hstep
    rcases epwait_cases s t x inst (maxevents.getD 64) with ⟨e, q, hrun, _⟩ | ⟨count, q, hrun, _, hfill⟩
    · cases hrun.symm.trans hstep
    · cases hrun.symm.trans hstep
      exact hfill
  refine triple_bind (M := fun _ _ => True) ?_ fun snapshot => ?_
  · refine triple_rescue (sync_ready ?_) fun _ => triple_raise
    exact perform_keeps stable_true rfl fun _ _ _ _ => trivial
  refine triple_bind (hsnapshot snapshot) fun _ => ?_
  refine triple_bind (M := fun _ _ => True) ?_ fun n => triple_pure fun _ _ => trivial
  refine spec_ensure hpoll (fun _ => hsnapshot _) fun _ => ?_
  exact spec_mono (hsnapshot _) (fun _ h => ⟨h, trivial⟩) (fun _ _ h => h.1) fun _ _ h => h

theorem add_ready (io : Obj) (events : EventArg) :
    Triple t m false (fun _ => True) (add m io events) fun _ _ => True := by
  refine triple_bind (fileno_ready io) fun fd => ?_
  refine triple_bind triple_ofExcept fun events => ?_
  refine triple_bind (sync_ready ?_) fun _ => triple_pure fun _ _ => trivial
  refine triple_bind (epollCtl_ready .add io events) fun _ => ?_
  exact triple_bind (setEvents_ready fd _) fun _ => setMark_ready fd _

theorem mod_ready (io : Obj) (events : EventArg) :
    Triple t m false (fun _ => True) (mod m io events) fun _ _ => True := by
  refine triple_bind triple_ofExcept fun events => ?_
  refine triple_bind (fileno_ready io) fun fd => ?_
  refine triple_bind (sync_ready ?_) fun _ => triple_pure fun _ _ => trivial
  refine triple_bind (epollCtl_ready .mod io events) fun _ => ?_
  exact triple_bind (setMark_ready fd _) fun _ => setEvents_ready fd _

theorem del_ready (io : Obj) : Triple t m false (fun _ => True) (del m io) fun _ _ => True := by
  refine triple_bind (fileno_ready io) fun fd => ?_
  refine triple_bind (sync_ready ?_) fun _ => triple_pure fun _ _ => trivial
  refine triple_bind (epollCtl_ready .del io (.int 0)) fun _ => ?_
  exact triple_bind (setMark_ready fd none) fun _ => setEvents_ready fd none

theorem delete_ready (io : Obj) : Triple t m false (fun _ => True) (delete m io) fun _ _ => True := by
  refine triple_rescue (triple_bind (fileno_ready io) fun fd => sync_ready ?_) fun e => ?_
  · refine triple_bind (perform_keeps stable_true rfl fun _ _ _ _ => trivial) fun curIo => ?_
    cases curIo with
    | none => exact triple_pure fun _ _ => trivial
    | some curIo =>
        refine triple_bind (perform_keeps stable_true rfl fun _ _ _ _ => trivial) fun gone => ?_
        cases gone with
        | true => exact triple_pure fun _ _ => trivial
        | false =>
            refine triple_bind (epollCtl_ready .del io (.int 0)) fun _ => ?_
            refine triple_bind (setMark_ready fd none) fun _ => ?_
            exact triple_bind (setEvents_ready fd none) fun _ => triple_pure fun _ _ => trivial
  · unfold rescueGone
    split
    · exact triple_pure fun _ _ => trivial
    · exact triple_raise

theorem set_ready (io : Obj) (events : EventArg) :
    Triple t m false (fun _ => True) (set m io events) fun _ _ => True := by
  have hctl : ∀ op, Triple t m true (fun _ => True) (epollCtl m op io events) fun _ _ => True :=
    fun op => epollCtl_ready op io events
  have hend : ∀ fd, Triple t m true (fun _ => True)
      (.perform (.setEvents fd (some events)) >>= fun _ => Pure.pure Ret.zero) fun _ _ => True :=
    fun fd => triple_bind (setEvents_ready fd _) fun _ => triple_pure fun _ _ => trivial
  refine triple_bind (fileno_ready io) fun fd => sync_ready ?_
  refine triple_bind (perform_keeps stable_true rfl fun _ _ _ _ => trivial) fun curIo => ?_
  refine triple_bind (M := fun _ _ => True) ?_ fun same => ?_
  · cases curIo with
    | none => exact triple_pure fun _ _ => trivial
    | some cur => exact perform_keeps stable_true rfl fun _ _ _ _ => trivial
  cases same with
  | true =>
      refine triple_bind (perform_keeps stable_true rfl fun _ _ _ _ => trivial) fun curEvents => ?_
      refine triple_bind triple_ofExcept fun clear => ?_
      split
      · exact triple_pure fun _ _ => trivial
      · refine triple_bind (triple_rescue (hctl .mod) fun e => ?_) fun _ => hend fd
        split
        · exact triple_bind (hctl .add) fun _ => setMark_ready fd _
        · exact triple_raise
  | false =>
      refine triple_bind (triple_bind (triple_rescue (hctl .add) fun e => ?_) fun _ => setMark_ready fd _)
        fun _ => hend fd
      split
      · exact hctl .mod
      · exact triple_raise

theorem lookup_ready {β : Type} (io : IoArg) {read : Fd → Cmd β} (ret : β → Ret)
    (hread : ∀ fd, (turns (read fd) || writes (read fd) || waits (read fd)) = false)
    (hrefers : ∀ s fd, Refers t β s (read fd)) :
    Triple t m false (fun _ => True) (lookup m io read ret) fun _ _ => True := by
  refine triple_bind (M := fun _ _ => True) ?_ fun fd => sync_ready ?_
  · cases io with
    | fd n => exact triple_pure fun _ _ => trivial
    | io o => exact fileno_ready o
  · refine triple_bind (perform_keeps stable_true (allowed_anywhere (hread fd)) fun s _ _ _ =>
      hrefers s fd) fun value => ?_
    exact triple_pure fun _ _ => trivial

theorem method_ready (t m : Nat) (op : Op) :
    Triple t m false (fun _ => True) (method m op) fun _ _ => True := by
  have hdup : Triple t m false (fun _ => True) (dup m) fun _ _ => True :=
    triple_bind (dup_ready fun _ => epCheck_ready) fun _ => triple_pure fun _ _ => trivial
  cases op with
  | toIo =>
      refine sync_ready (triple_bind (getIo_made stable_true) fun io => ?_)
      exact triple_pure fun _ _ => trivial
  | wait maxevents => exact wait_ready maxevents
  | add io events => exact add_ready io events
  | del io => exact del_ready io
  | delete io => exact delete_ready io
  | mod io events => exact mod_ready io events
  | set io events => exact set_ready io events
  | close => exact triple_bind close_ready fun _ => triple_pure fun _ _ => trivial
  | closedP => exact triple_bind closedP_ready fun _ => triple_pure fun _ _ => trivial
  | ioFor io => exact lookup_ready io _ (fun _ => rfl) fun _ _ => trivial
  | eventsFor io => exact lookup_ready io _ (fun _ => rfl) fun _ _ => trivial
  | includeP io => exact lookup_ready io _ (fun _ => rfl) fun _ _ => trivial
  | dup => exact hdup
  | clone => exact hdup

end Methods

-- Any number of threads, in one process and in its children, call any methods:
-- in every state on the way what the members share is written with `@mtx` held,
-- nobody waits with it held, and no order of the commands keeps the calls that
-- have begun from coming to their end.
theorem calls_complete (pid : Pid) (objects : Objects) (labels : List (Schedule.Label Op)) :
    Visits (Schedule.step Fork.api)
      (fun w => Orderly w ∧ Completes (Performs Fork.api) (Outside Fork.api) Over w)
      (Schedule.start pid objects) labels :=
  visits_completes method_ready pid objects labels

end SleepyPenguin.Epoll.Completion
