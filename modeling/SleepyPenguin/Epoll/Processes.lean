import SleepyPenguin.Foundation.Run
import SleepyPenguin.Runtime.Reinit
import SleepyPenguin.Runtime.Triples
import SleepyPenguin.Epoll.Effects

-- A tree of processes that share the kernel's epoll instances.
namespace SleepyPenguin.Epoll.Processes

open Foundation Foundation.Prog Isolation

-- What a process has of one family, the calls that it has begun on it and how
-- they stand. Call 0 is the `new` that makes the first object.
structure Copy where
  pid : Pid
  family : Family
  objects : Objects
  frames : Nat → Frame
  standing : Nat → Standing
  calls : List (Method Ret)

-- All the processes there have been, and what they have of each family.
structure World where
  pids : List Pid
  copies : List Copy
  kernel : Kernel

def start (pid : Pid) : World := ⟨[pid], [], ⟨[], []⟩⟩

def Copy.marked (copy : Copy) (kernel : Kernel) (oracle : Oracle) : Marked :=
  ⟨⟨copy.pid, copy.family, kernel, copy.objects, oracle, copy.frames⟩, copy.standing⟩

def Copy.after (copy : Copy) (s : Marked) (calls : List (Method Ret)) : Copy :=
  ⟨copy.pid, s.sys.family, s.sys.objects, s.sys.frames, s.standing, calls⟩

-- A copy that dup or clone gives up stays in its place while other calls are
-- in progress: nothing refers to it.
def perform (t : Nat) : (β : Type) → Sys → Cmd β → Option (β × Sys)
  | _, s, .discard => some ((), s)
  | β, s, command => exec t β s command

def creation : Method Ret := do
  initializeNew 0
  Pure.pure (.epoll 0)

def begun (pid : Pid) (objects : Objects) : Copy :=
  ⟨pid, (allocated pid objects).family, objects, fun _ => Frame.empty, fun _ => .fresh, [creation]⟩

-- `new` has returned the object.
def Copy.made (copy : Copy) : Bool :=
  match copy.calls[0]? with
  | some (Prog.pure _) => true
  | _ => false

-- The thread that forks goes on in the child too, with the calls `kept` that it
-- is in and the mutex if it holds it. The other threads are gone, and so are
-- their calls and their mutexes.
def Copy.child (copy : Copy) (pid : Pid) (kept : Nat → Bool) : Copy :=
  { copy with
    pid := pid
    family.mutex := copy.family.mutex.filter kept
    calls := copy.calls.mapIdx fun i call => if kept i then call else Prog.pure .nil }

-- A call in epoll_wait whose system call has been interrupted. It is about to
-- make it again.
def interruptedWait (s : Sys) : Method Ret → Option Sys
  | .cmd (.epollWait io maxevents) _ => (s.family.handles[io]?).bind fun x =>
      if maxevents ≤ 0 ∨ x.closed then none else some (s.issue .epollWait x)
  | _ => none

inductive Label
  | new (pid : Pid) (objects : Objects)
  | begin (c m : Nat) (op : Op)
  | perform (c i : Nat) (oracle : Oracle)
  | interrupted (c i : Nat)
  | outside (c : Nat) (objects : Objects) (interest : Nat → Interest)
  | fork (parent pid : Pid) (kept : Nat → Nat → Bool)

-- `new` and `begin` make calls, and `perform` is the next command of a call. A
-- signal handler may run where a call is `interrupted`, before it goes on.
-- `outside` is what anything else does to the watched objects and to the
-- interest lists. A family that another thread is still making is lost to the
-- child.
def step (w : World) : Label → Option World
  | .new pid objects =>
      if pid ∈ w.pids then some { w with copies := w.copies ++ [begun pid objects] } else none
  | .begin c m op => (w.copies[c]?).bind fun copy =>
      if copy.made ∧ m < copy.family.members.length then
        some { w with copies := w.copies.set c { copy with calls := copy.calls ++ [method m op] } }
      else none
  | .perform c i oracle => (w.copies[c]?).bind fun copy =>
      (advance (fun t => marked t (perform t)) copy.calls i (copy.marked w.kernel oracle)).map
        fun (calls, s) =>
          { w with copies := w.copies.set c (copy.after s calls), kernel := s.sys.kernel }
  | .interrupted c i => (w.copies[c]?).bind fun copy => (copy.calls[i]?).bind fun call =>
      (interruptedWait (copy.marked w.kernel {}).sys call).map fun s => { w with kernel := s.kernel }
  | .outside c objects interest => (w.copies[c]?).map fun copy =>
      { w with
        copies := w.copies.set c { copy with objects := objects }
        kernel.insts := w.kernel.insts.mapIdx fun i inst => { inst with interest := interest i } }
  | .fork parent pid kept =>
      if parent ∈ w.pids ∧ pid ∉ w.pids then
        let children := w.copies.zipIdx.filterMap fun (copy, c) =>
          if copy.pid = parent ∧ (copy.made ∨ kept c 0) then some (copy.child pid (kept c)) else none
        some { w with pids := pid :: w.pids, copies := w.copies ++ children }
      else none

-- Every epoll_ctl and epoll_wait so far was issued on an instance that the
-- process that issued it had created.
def Private (w : World) : Prop :=
  ∀ issued ∈ w.kernel.log, issued.call = .epollCtl ∨ issued.call = .epollWait →
    (w.kernel.insts[issued.inst]?).map (·.creator) = some issued.caller

instance (w : World) : Decidable (Private w) :=
  inferInstanceAs (Decidable (∀ issued ∈ w.kernel.log, _))

-- The commands that use an IO or say whose it is.
def uses : {β : Type} → Cmd β → Bool
  | _, .setPid _ _ => true
  | _, .setIo _ _ => true
  | _, .dup _ => true
  | _, .epollCtl _ _ _ _ => true
  | _, .epollWait _ _ => true
  | _, .kevent _ _ _ => true
  | _, _ => false

-- The call comes to its end without them.
def Quiet : Method Ret → Prop
  | .pure _ => True
  | .raise _ => True
  | .cmd command rest => uses command = false ∧ ∀ answer, Quiet (rest answer)

-- No fork falls into a call of the thread that forks while the call takes `@io`
-- for an IO of the process and has still to use it.
def Careful (w : World) : Label → Prop
  | .fork parent pid kept => ∀ (c i : Nat) (copy : Copy) (call : Method Ret), w.copies[c]? = some copy →
      copy.pid = parent → copy.calls[i]? = some call → kept c i = true →
        (copy.standing i).travels pid ∨ Quiet call
  | _ => True

section Methods

variable {run : (β : Type) → Sys → Cmd β → Option (β × Sys)} {t m : Nat} {α : Type} {P : Marked → Prop}

theorem sNew_own (hrun : Runs t run) :
    Triple False t run (fun _ => True) sNew (fun io => Entitled t fun s => Own s io) fun _ => True := by
  refine triple_bind (create_own hrun) fun made => ?_
  cases made with
  | ok io => exact triple_pure fun _ h => h io rfl
  | error errno =>
      by_cases hgc : rbSpGcForFd errno = true
      · simp only [hgc, ite_true]
        refine triple_mono (M := fun _ => True) ?_ (fun _ _ => trivial) (fun _ _ h => h) fun _ h => h
        refine triple_bind (create_own hrun) fun made => ?_
        cases made with
        | ok io => exact triple_pure fun _ h => h io rfl
        | error errno => exact triple_raise fun _ _ => trivial
      · simp only [hgc, Bool.false_eq_true, ite_false]
        exact triple_raise fun _ _ => trivial

theorem creation_safe (hrun : Runs t run) :
    Triple False t run (fun _ => True) creation (fun _ _ => True) fun _ => True :=
  triple_bind (initializeNew_safe hrun (sNew_own hrun)) fun _ => triple_pure fun _ _ => trivial

-- A method of Epoll may close whatever it finds in `@copies`.
theorem epCheck_held (hrun : Runs t run) :
    Triple False t run (fun _ => True) (epCheck m)
      (fun _ => Entitled t fun s => Held s m) fun _ => True := by
  refine check_held hrun ⟨fun io => attempt_safe fun _ h => h.elim, ?_⟩
  refine triple_bind (perform_safe fun _ => trivial) fun _ => ?_
  refine triple_bind (perform_safe fun _ => trivial) fun _ => triple_bind (sNew_own hrun) fun io => ?_
  exact triple_mono (setIo_held hrun (stable_own io) fun _ h => h) (fun _ h => h)
    (fun _ _ h => ⟨h.1, h.2.2⟩) fun _ h => h

theorem epollCtl_keeps (hrun : Runs t run) (op : CtlOp) (io : Obj) (events : EventArg) :
    Triple False t run (Entitled t fun s => Held s m) (epollCtl m op io events)
      (fun _ => Entitled t fun s => Held s m) (Entitled t fun s => Held s m) := by
  have hheld := stable_held m
  refine triple_bind (getIo_held hrun hheld fun _ h => h) fun ep => ?_
  exact triple_mono (attempt_keeps hrun (hheld.and (stable_own ep)) rfl fun _ h => h.2) (fun _ h => h)
    (fun _ _ h => ⟨h.1, h.2.1⟩) fun _ h => ⟨h.1, h.2.1⟩

-- A method that runs `body` under the mutex once the check is passed.
theorem sync_safe (hrun : Runs t run) {body : Method α}
    (hbody : Triple False t run (Entitled t fun s => Held s m) body (fun _ _ => True) fun _ => True) :
    Triple False t run P (Method.synchronize do epCheck m; body) (fun _ _ => True) fun _ => True :=
  synchronize_safe (triple_bind (epCheck_held hrun) fun _ => hbody)

-- The end of a method, once its epoll_ctl has been made.
theorem ctl_safe (hrun : Runs t run) {op : CtlOp} {io : Obj} {events : EventArg} {rest : Method α}
    (hrest : Triple False t run (fun _ => True) rest (fun _ _ => True) fun _ => True) :
    Triple False t run (Entitled t fun s => Held s m) (epollCtl m op io events >>= fun _ => rest)
      (fun _ _ => True) fun _ => True := by
  refine triple_bind (M := fun _ _ => True) ?_ fun _ => hrest
  exact triple_mono (epollCtl_keeps hrun op io events) (fun _ h => h)
    (fun _ _ _ => trivial) fun _ _ => trivial

-- The two writes after it.
theorem store_safe {fd : Fd} {mark : Option Obj} {events : Option EventArg} :
    Triple False t run P (.perform (.setMark fd mark) >>= fun _ => .perform (.setEvents fd events))
      (fun _ _ => True) fun _ => True :=
  triple_bind (perform_safe fun _ => trivial) fun _ => perform_safe fun _ => trivial

theorem fileno_safe {io : Obj} {next : Fd → Method α}
    (hnext : ∀ fd, Triple False t run (fun _ => True) (next fd) (fun _ _ => True) fun _ => True) :
    Triple False t run P (.attempt (.fileno io) >>= next) (fun _ _ => True) fun _ => True :=
  triple_bind (attempt_safe fun _ => trivial) hnext

theorem wait_safe (hrun : Runs t run) (maxevents : Option Int) :
    Triple False t run (fun _ => True) (wait m maxevents) (fun _ _ => True) fun _ => True := by
  have hheld := stable_held m
  refine triple_bind (M := fun _ => Entitled t fun s => Held s m) ?_ fun snapshot => ?_
  · refine triple_rescue (synchronize_held hrun ?_) fun _ => triple_raise fun _ _ => trivial
    exact triple_bind (epCheck_held hrun) fun _ => perform_keeps hrun hheld rfl fun _ _ => trivial
  refine triple_bind (perform_keeps hrun hheld rfl fun _ _ => trivial) fun _ => ?_
  refine triple_bind (M := fun _ _ => True) ?_ fun n => triple_pure fun _ _ => trivial
  refine triple_ensure ?_ (fun _ => perform_safe fun _ => trivial) (perform_safe fun _ => trivial)
  refine triple_bind (getIo_held hrun hheld fun _ h => h) fun ep => ?_
  refine triple_ensure ?_ (fun _ => perform_safe fun _ => trivial) (perform_safe fun _ => trivial)
  refine triple_bind (M := fun _ _ => True) ?_ fun n => ?_
  · exact triple_mono (attempt_keeps hrun (hheld.and (stable_own ep)) rfl fun _ h => h.2) (fun _ h => h)
      (fun _ _ _ => trivial) fun _ _ => trivial
  · exact triple_bind (yields_safe n) fun _ => triple_pure fun _ _ => trivial

theorem delete_safe (hrun : Runs t run) (io : Obj) :
    Triple False t run (fun _ => True) (delete m io) (fun _ _ => True) fun _ => True := by
  have hheld := stable_held m
  refine triple_rescue (M := fun _ => True) (fileno_safe fun fd => sync_safe hrun ?_) fun e => ?_
  · refine triple_bind (perform_keeps hrun hheld rfl fun _ _ => trivial) fun curIo => ?_
    cases curIo with
    | none => exact triple_pure fun _ _ => trivial
    | some curIo =>
        refine triple_bind (perform_keeps hrun hheld rfl fun _ _ => trivial) fun gone => ?_
        cases gone with
        | true => exact triple_pure fun _ _ => trivial
        | false =>
            refine ctl_safe hrun (triple_bind (perform_safe fun _ => trivial) fun _ => ?_)
            exact triple_bind (perform_safe fun _ => trivial) fun _ => triple_pure fun _ _ => trivial
  · unfold rescueGone
    split
    · exact triple_pure fun _ _ => trivial
    · exact triple_raise fun _ _ => trivial

theorem setCached_safe (hrun : Runs t run) (fd : Fd) (io : Obj) (events : EventArg) :
    Triple False t run (Entitled t fun s => Held s m) (setCached m fd io events) (fun _ _ => True)
      fun _ => True := by
  refine triple_rescue (M := Entitled t fun s => Held s m) ?_ fun e => ?_
  · exact triple_mono (epollCtl_keeps hrun .mod io events) (fun _ h => h)
      (fun _ _ _ => trivial) fun _ h => h
  · split
    · exact ctl_safe hrun (perform_safe fun _ => trivial)
    · exact triple_raise fun _ _ => trivial

theorem setUncached_safe (hrun : Runs t run) (fd : Fd) (io : Obj) (events : EventArg) :
    Triple False t run (Entitled t fun s => Held s m) (setUncached m fd io events) (fun _ _ => True)
      fun _ => True := by
  refine triple_bind (M := fun _ _ => True) ?_ fun _ => perform_safe fun _ => trivial
  refine triple_rescue (M := Entitled t fun s => Held s m) ?_ fun e => ?_
  · exact triple_mono (epollCtl_keeps hrun .add io events) (fun _ h => h)
      (fun _ _ _ => trivial) fun _ h => h
  · split
    · exact triple_mono (epollCtl_keeps hrun .mod io events) (fun _ h => h) (fun _ _ _ => trivial)
        fun _ _ => trivial
    · exact triple_raise fun _ _ => trivial

theorem set_safe (hrun : Runs t run) (io : Obj) (events : EventArg) :
    Triple False t run (fun _ => True) (set m io events) (fun _ _ => True) fun _ => True := by
  have hheld := stable_held m
  have hend : ∀ {fd : Fd}, Triple False t run (fun _ => True)
      (.perform (.setEvents fd (some events)) >>= fun _ => Pure.pure Ret.zero)
      (fun _ _ => True) fun _ => True :=
    triple_bind (perform_safe fun _ => trivial) fun _ => triple_pure fun _ _ => trivial
  refine fileno_safe fun fd => sync_safe hrun ?_
  refine triple_bind (perform_keeps hrun hheld rfl fun _ _ => trivial) fun curIo => ?_
  refine triple_bind (M := fun _ => Entitled t fun s => Held s m) ?_ fun same => ?_
  · cases curIo with
    | none => exact triple_pure fun _ h => h
    | some cur => exact perform_keeps hrun hheld rfl fun _ _ => trivial
  cases same with
  | false => exact triple_bind (setUncached_safe hrun fd io events) fun _ => hend
  | true =>
      refine triple_bind (perform_keeps hrun hheld rfl fun _ _ => trivial) fun curEvents => ?_
      refine triple_bind (triple_ofExcept (fun _ _ _ h => h) fun _ _ => trivial) fun clear => ?_
      split
      · exact triple_pure fun _ _ => trivial
      · exact triple_bind (setCached_safe hrun fd io events) fun _ => hend

theorem lookup_safe (hrun : Runs t run) {β : Type} {arg : IoArg} {read : Fd → Cmd β} {ret : β → Ret}
    (hread : ∀ fd s, Safe False β s (read fd)) :
    Triple False t run (fun _ => True) (lookup m arg read ret) (fun _ _ => True) fun _ => True := by
  refine triple_bind (M := fun _ _ => True) ?_ fun fd => sync_safe hrun ?_
  · cases arg with
    | fd n => exact triple_pure fun _ _ => trivial
    | io o => exact attempt_safe fun _ => trivial
  · exact triple_bind (perform_safe (hread fd)) fun _ => triple_pure fun _ _ => trivial

theorem method_safe (hrun : Runs t run) (op : Op) :
    Triple False t run (fun _ => True) (method m op) (fun _ _ => True) fun _ => True := by
  have hzero : ∀ {program : Method Unit} {ret : Ret},
      Triple False t run (fun _ => True) program (fun _ _ => True) (fun _ => True) →
      Triple False t run (fun _ => True) (program >>= fun _ => Pure.pure ret)
        (fun _ _ => True) fun _ => True :=
    fun h => triple_bind h fun _ => triple_pure fun _ _ => trivial
  have hdup : Triple False t run (fun _ => True) (Epoll.dup m) (fun _ _ => True) fun _ => True :=
    triple_bind (dup_safe hrun fun _ => epCheck_held hrun) fun _ => triple_pure fun _ _ => trivial
  cases op with
  | toIo =>
      refine sync_safe hrun (triple_bind (perform_safe fun _ => trivial) fun io => ?_)
      exact triple_pure fun _ _ => trivial
  | wait maxevents => exact wait_safe hrun maxevents
  | add io events =>
      refine fileno_safe fun fd => triple_bind (triple_ofExcept (fun _ _ _ h => h) fun _ h => h)
        fun flags => ?_
      refine hzero (sync_safe hrun (ctl_safe hrun ?_))
      exact triple_bind (perform_safe fun _ => trivial) fun _ => perform_safe fun _ => trivial
  | del io => exact fileno_safe fun fd => hzero (sync_safe hrun (ctl_safe hrun store_safe))
  | delete io => exact delete_safe hrun io
  | mod io events =>
      refine triple_bind (triple_ofExcept (fun _ _ _ h => h) fun _ h => h) fun flags => ?_
      exact fileno_safe fun fd => hzero (sync_safe hrun (ctl_safe hrun store_safe))
  | set io events => exact set_safe hrun io events
  | close => exact hzero (close_safe hrun fun _ _ h => h.elim)
  | closedP => exact triple_bind closedP_safe fun _ => triple_pure fun _ _ => trivial
  | ioFor arg => exact lookup_safe hrun fun _ _ => trivial
  | eventsFor arg => exact lookup_safe hrun fun _ _ => trivial
  | includeP arg => exact lookup_safe hrun fun _ _ => trivial
  | dup => exact hdup
  | clone => exact hdup

end Methods

-- The processes that have an instance of the kernel's as their own.
def makers (kernel : Kernel) : List Pid := kernel.insts.map (·.creator)

-- A copy whose members are isolated, and whose calls will find what they must.
structure Calm (kernel : Kernel) (copy : Copy) : Prop where
  isolated : Isolated False (copy.marked kernel {}).sys
  steady : Steady (fun t => Isolation.marked t (perform t)) (Rely False) (fun _ β s => Safe False β s.sys)
    copy.calls (copy.marked kernel {})

structure Sound (w : World) : Prop where
  calm : ∀ copy ∈ w.copies, Calm w.kernel copy
  pid : ∀ copy ∈ w.copies, copy.pid ∈ w.pids
  recorded : ∀ copy ∈ w.copies, ∀ pid, Recorded (copy.marked w.kernel {}).sys pid → pid ∈ w.pids
  log : ∀ issued ∈ w.kernel.log, Rightful False (makers w.kernel) issued

theorem Sound.private {w : World} (h : Sound w) : Private w := by
  intro issued hmem hcall
  have hne : issued.call ≠ .close := by
    rcases hcall with hc | hc
    · rw [hc]
      nofun
    · rw [hc]
      nofun
  have hmaker := ((h.log issued hmem).2 hne).2
  rw [makers, List.getElem?_map] at hmaker
  exact hmaker

section Commands

variable {t : Nat} {s s' : Sys} {kernel kernel' : Kernel} {copy : Copy}

theorem perform_runs (t : Nat) : Runs t (perform t) := by
  intro β s command hkeep
  cases command with
  | discard => cases hkeep
  | _ => rfl

theorem perform_moves {β : Type} {command : Cmd β} {step : β × Sys} (hi : Isolated False s)
    (hsafe : Safe False β s command) (h : perform t β s command = some step) :
    Isolated False step.2 ∧ Later s step.2 := by
  cases hkeep : discards command with
  | false =>
      rw [perform_runs t β s command hkeep] at h
      exact exec_moves hi hsafe hkeep h
  | true =>
      cases command with
      | discard =>
          cases h
          exact ⟨hi, Later.refl s⟩
      | _ => cases hkeep

theorem rely_trans : ∀ (t : Nat) (β : Type) (command : Cmd β) (a b c : Marked),
    Rely False t β command a b → Rely False t β command b c → Rely False t β command a c :=
  fun _ _ _ _ _ _ h h' => h.trans h'

-- The outcomes of the next command are no part of what a copy relies on.
theorem alike_oracle (s : Sys) (oracle : Oracle) : Alike s { s with oracle := oracle } :=
  ⟨rfl, rfl, rfl, rfl⟩

theorem Calm.later {copy' : Copy} (h : Calm kernel copy)
    (hl : Later (copy.marked kernel {}).sys (copy'.marked kernel' {}).sys)
    (hcalls : copy'.calls = copy.calls)
    (hstanding : copy'.standing = copy.standing) (hi : Isolated False (copy'.marked kernel' {}).sys) :
    Calm kernel' copy' :=
  ⟨hi, hcalls ▸ h.steady.later rely_trans fun i _ _ => ⟨⟨congrFun hstanding i, Or.inl hl⟩, hi⟩⟩

-- What the other copies see of a step.
structure Grown (kernel kernel' : Kernel) : Prop where
  maker : ∀ (i : Nat) (pid : Pid), (makers kernel)[i]? = some pid → (makers kernel')[i]? = some pid
  log : ∀ issued ∈ kernel'.log, Rightful False (makers kernel') issued

theorem Calm.grown (h : Calm kernel copy) (hg : Grown kernel kernel') : Calm kernel' copy := by
  refine h.later ⟨rfl, fun io x hx => Or.inr ⟨x, hx, rfl, id⟩, fun m member hm => ⟨member, hm, Or.inl rfl⟩,
    hg.maker, fun _ hr => Or.inl hr⟩ rfl rfl ?_
  exact ⟨h.isolated.member, fun x hx ho => hg.maker _ _ (h.isolated.made x hx ho), hg.log⟩

-- One command of a call: the copy stays calm, and no other copy minds.
theorem Calm.advance {oracle : Oracle} {i : Nat} {calls : List (Method Ret)} {s : Marked}
    (h : Calm kernel copy)
    (ha : Prog.advance (fun t => Isolation.marked t (perform t)) copy.calls i (copy.marked kernel oracle) =
      some (calls, s)) :
    Calm s.sys.kernel (copy.after s calls) ∧ Grown kernel s.sys.kernel ∧
      ∀ pid, Recorded s.sys pid → Recorded (copy.marked kernel {}).sys pid ∨ pid = copy.pid := by
  obtain ⟨β, command, rest, answer, hget, hstep, rfl⟩ := advance_cases ha
  have hi : Isolated False (copy.marked kernel oracle).sys :=
    h.isolated.of_alike (alike_oracle _ oracle) fun _ hmem => Or.inl hmem
  have hsteady := h.steady.later rely_trans fun t _ _ =>
    (⟨⟨rfl, Or.inl (alike_oracle _ oracle).later⟩, hi⟩ :
      Rely False t _ _ (copy.marked kernel {}) (copy.marked kernel oracle))
  obtain ⟨step, hperform, heq⟩ := Option.map_eq_some_iff.mp hstep
  have hs : s = (copy.marked kernel oracle).after i command step := (Prod.mk.inj heq).2.symm
  obtain ⟨hi', hl⟩ : Isolated False s.sys ∧ Later (copy.marked kernel oracle).sys s.sys :=
    hs ▸ perform_moves hi (hsteady.guarded hget hi.rely) hperform
  have hstanding : ∀ j, j ≠ i → s.standing j = copy.standing j :=
    fun j hne => hs ▸ Function.update_of_ne hne _ _
  have hsteady' := hsteady.advance rely_trans hget hi.rely hstep
    fun j _ _ hne => ⟨⟨hstanding j hne, Or.inl hl⟩, hi'⟩
  have hself : s.sys.self = copy.pid := hl.self
  have hmarked : (copy.after s (copy.calls.set i (rest answer))).marked s.sys.kernel {} =
      ⟨{ s.sys with oracle := {} }, s.standing⟩ := by
    simp only [Copy.marked, Copy.after, hself]
  have hi'' : Isolated False { s.sys with oracle := {} } :=
    hi'.of_alike (alike_oracle s.sys {}) fun _ hmem => Or.inl hmem
  refine ⟨⟨hmarked ▸ hi'', ?_⟩, ⟨hl.creator, hi'.log⟩, hl.recorded⟩
  rw [hmarked]
  exact hsteady'.later rely_trans fun _ _ _ => ⟨⟨rfl, Or.inl (alike_oracle s.sys {}).later⟩, hi''⟩

theorem Calm.begin (h : Calm kernel copy) (m : Nat) (op : Op) :
    Calm kernel { copy with calls := copy.calls ++ [method m op] } :=
  ⟨h.isolated, h.steady.concat (method_safe (perform_runs _) op _ trivial)⟩

-- An interrupted epoll_wait is logged like any other.
theorem Calm.interrupted {i : Nat} {call : Method Ret} (h : Calm kernel copy)
    (hcall : copy.calls[i]? = some call)
    (hs : interruptedWait (copy.marked kernel {}).sys call = some s) :
    s.kernel.insts = kernel.insts ∧ ∀ issued ∈ s.kernel.log, issued ∈ kernel.log ∨
      Rightful False (makers kernel) issued := by
  unfold interruptedWait at hs
  split at hs
  · rename_i io maxevents rest
    have hown := h.steady.guarded hcall h.isolated.rely
    obtain ⟨x, hx, hs⟩ := Option.bind_eq_some_iff.mp hs
    obtain ⟨hopen, hs⟩ := Option.ite_none_left_eq_some.mp hs
    obtain rfl := Option.some.inj hs
    refine ⟨rfl, fun issued hmem => (List.mem_append.mp hmem).imp_right fun hnew => ?_⟩
    obtain rfl := List.mem_singleton.mp hnew
    exact rightful_of_own h.isolated hx hown (by simpa using (not_or.mp hopen).2) .epollWait
  · cases hs

-- A call that uses no IO finds whatever it needs.
theorem quiet_safe {β : Type} {command : Cmd β} (h : uses command = false) (s : Sys) :
    Safe False β s command := by
  cases command with
  | setPid | setIo | dup | epollCtl | epollWait | kevent => cases h
  | close => exact fun hf => hf.elim
  | _ => trivial

theorem Quiet.along {call : Method Ret} (h : Quiet call) (s : Marked) :
    Along (Isolation.marked t (perform t)) (Rely False t) (fun β s => Safe False β s.sys) (fun _ _ => True)
      (fun _ _ => True) call s := by
  induction call generalizing s with
  | pure value => trivial
  | raise e => trivial
  | cmd command rest ih =>
      exact fun s' _ => ⟨quiet_safe h.1 s'.sys, fun step _ => ih step.1 (h.2 step.1) step.2⟩

-- A process that the family does not know has no rights and breaks none.
theorem Calm.child {pid : Pid} {kept : Nat → Bool} (h : Calm kernel copy)
    (hnew : ¬Recorded (copy.marked kernel {}).sys pid)
    (hkept : ∀ i call, copy.calls[i]? = some call → kept i = true →
      (copy.standing i).travels pid ∨ Quiet call) : Calm kernel (copy.child pid kept) := by
  have hi : Isolated False ((copy.child pid kept).marked kernel {}).sys := by
    refine ⟨fun m member hm hp => ?_, fun x hx ho => ?_, h.isolated.log⟩
    · exact absurd (Or.inl ⟨member, List.mem_of_getElem? hm, hp⟩) hnew
    · exact absurd (Or.inr ⟨x, hx, ho⟩) hnew
  refine ⟨hi, fun i call hcall => ?_⟩
  rw [Copy.child, List.getElem?_mapIdx, Option.map_eq_some_iff] at hcall
  obtain ⟨before, hbefore, rfl⟩ := hcall
  split
  · rename_i hk
    rcases hkept i before hbefore hk with ht | hq
    · exact (h.steady i before hbefore).later (rely_trans i) fun _ _ _ _ => ⟨⟨rfl, Or.inr ht⟩, hi⟩
    · exact hq.along _
  · trivial

end Commands

section Steps

variable {w w' : World}

theorem Sound.set {c : Nat} {copy : Copy} {kernel : Kernel} (h : Sound w) (hcalm : Calm kernel copy)
    (hg : Grown w.kernel kernel) (hpid : copy.pid ∈ w.pids)
    (hrecorded : ∀ pid, Recorded (copy.marked kernel {}).sys pid → pid ∈ w.pids) :
    Sound { w with copies := w.copies.set c copy, kernel := kernel } := by
  refine ⟨?_, ?_, ?_, hg.log⟩
  · exact List.forall_mem_set (fun other ho => (h.calm other ho).grown hg) hcalm
  · exact List.forall_mem_set h.pid hpid
  · exact List.forall_mem_set h.recorded hrecorded

theorem grown_refl (h : Sound w) : Grown w.kernel w.kernel := ⟨fun _ _ hm => hm, h.log⟩

theorem perform_sound {c i : Nat} {oracle : Oracle} (h : Sound w)
    (hs : step w (.perform c i oracle) = some w') : Sound w' := by
  obtain ⟨copy, hcopy, hs⟩ := Option.bind_eq_some_iff.mp hs
  obtain ⟨⟨calls, s⟩, ha, rfl⟩ := Option.map_eq_some_iff.mp hs
  have hmem := List.mem_of_getElem? hcopy
  obtain ⟨hcalm, hg, hrecorded⟩ := (h.calm copy hmem).advance ha
  refine h.set hcalm hg (h.pid copy hmem) fun pid hr => ?_
  rcases hrecorded pid hr with hr | rfl
  · exact h.recorded copy hmem pid hr
  · exact h.pid copy hmem

theorem begin_sound {c m : Nat} {op : Op} (h : Sound w) (hs : step w (.begin c m op) = some w') :
    Sound w' := by
  obtain ⟨copy, hcopy, hs⟩ := Option.bind_eq_some_iff.mp hs
  obtain ⟨_, hs⟩ := Option.ite_none_right_eq_some.mp hs
  obtain rfl := Option.some.inj hs
  have hmem := List.mem_of_getElem? hcopy
  exact h.set ((h.calm copy hmem).begin m op) (grown_refl h) (h.pid copy hmem) (h.recorded copy hmem)

theorem interrupted_sound {c i : Nat} (h : Sound w) (hs : step w (.interrupted c i) = some w') :
    Sound w' := by
  obtain ⟨copy, hcopy, hs⟩ := Option.bind_eq_some_iff.mp hs
  obtain ⟨call, hcall, hs⟩ := Option.bind_eq_some_iff.mp hs
  obtain ⟨s, hwait, rfl⟩ := Option.map_eq_some_iff.mp hs
  obtain ⟨hinsts, hlog⟩ := (h.calm copy (List.mem_of_getElem? hcopy)).interrupted hcall hwait
  have hmakers : makers s.kernel = makers w.kernel := congrArg (List.map _) hinsts
  have hg : Grown w.kernel s.kernel := by
    refine ⟨fun i pid hm => hmakers ▸ hm, fun issued hmem => ?_⟩
    rw [hmakers]
    exact (hlog issued hmem).elim (h.log issued) id
  exact ⟨fun other ho => (h.calm other ho).grown hg, h.pid, h.recorded, hg.log⟩

theorem outside_sound {c : Nat} {objects : Objects} {interest : Nat → Interest} (h : Sound w)
    (hs : step w (.outside c objects interest) = some w') : Sound w' := by
  obtain ⟨copy, hcopy, rfl⟩ := Option.map_eq_some_iff.mp hs
  have hmem := List.mem_of_getElem? hcopy
  have hmakers : makers { w.kernel with
      insts := w.kernel.insts.mapIdx fun i inst => { inst with interest := interest i } } =
      makers w.kernel := by
    apply List.ext_getElem?
    intro n
    simp only [makers, List.getElem?_map, List.getElem?_mapIdx, Option.map_map]
    rfl
  have hg : Grown w.kernel { w.kernel with
      insts := w.kernel.insts.mapIdx fun i inst => { inst with interest := interest i } } := by
    refine ⟨fun i pid hm => ?_, ?_⟩
    · rw [hmakers]
      exact hm
    · rw [hmakers]
      exact h.log
  have hcalm := (h.calm copy hmem).grown hg
  refine h.set (hcalm.later (Alike.later ⟨rfl, rfl, rfl, rfl⟩) rfl rfl ?_) hg (h.pid copy hmem)
    (h.recorded copy hmem)
  exact hcalm.isolated.of_alike ⟨rfl, rfl, rfl, rfl⟩ fun _ hlog => Or.inl hlog

theorem fork_sound {parent pid : Pid} {kept : Nat → Nat → Bool} (h : Sound w)
    (hg : Careful w (.fork parent pid kept)) (hs : step w (.fork parent pid kept) = some w') :
    Sound w' := by
  obtain ⟨⟨_, hnew⟩, hs⟩ := Option.ite_none_right_eq_some.mp hs
  obtain rfl := Option.some.inj hs
  have hchild : ∀ {P : Copy → Prop}, (∀ copy ∈ w.copies, P copy) →
      (∀ (c : Nat) (copy : Copy), w.copies[c]? = some copy → copy.pid = parent →
        P (copy.child pid (kept c))) →
      ∀ copy ∈ w.copies ++ w.copies.zipIdx.filterMap fun (copy, c) =>
        if copy.pid = parent ∧ (copy.made ∨ kept c 0) then some (copy.child pid (kept c)) else none,
        P copy := by
    intro P hold hforked copy hmem
    rcases List.mem_append.mp hmem with hmem | hmem
    · exact hold copy hmem
    · obtain ⟨⟨before, c⟩, hbefore, hsome⟩ := List.mem_filterMap.mp hmem
      obtain ⟨⟨hparent, _⟩, hsome⟩ := Option.ite_none_right_eq_some.mp hsome
      obtain rfl := Option.some.inj hsome
      exact hforked c before (List.mk_mem_zipIdx_iff_getElem?.mp hbefore) hparent
  refine ⟨hchild h.calm fun c copy hc hp => ?_, hchild ?_ fun _ _ _ _ => List.mem_cons_self,
    hchild ?_ ?_, h.log⟩
  · have hmem := List.mem_of_getElem? hc
    exact (h.calm copy hmem).child (fun hr => hnew (h.recorded copy hmem pid hr))
      fun i call hcall hk => hg c i copy call hc hp hcall hk
  · exact fun copy hmem => List.mem_cons_of_mem _ (h.pid copy hmem)
  · exact fun copy hmem q hr => List.mem_cons_of_mem _ (h.recorded copy hmem q hr)
  · exact fun c copy hc _ q hr => List.mem_cons_of_mem _ (h.recorded copy (List.mem_of_getElem? hc) q hr)

-- Before `new` has run there is no IO yet.
theorem begun_calm (h : Sound w) (pid : Pid) (objects : Objects) : Calm w.kernel (begun pid objects) := by
  refine ⟨⟨fun m member hm _ x hx => ?_, fun x hx _ => ?_, h.log⟩, fun i call hcall => ?_⟩
  · cases hx
  · cases hx
  · cases i with
    | zero =>
        obtain rfl := Option.some.inj hcall
        exact creation_safe (perform_runs 0) _ trivial
    | succ i => cases hcall

theorem new_sound {pid : Pid} {objects : Objects} (h : Sound w)
    (hs : step w (.new pid objects) = some w') : Sound w' := by
  obtain ⟨hpid, hs⟩ := Option.ite_none_right_eq_some.mp hs
  obtain rfl := Option.some.inj hs
  refine ⟨List.forall_mem_concat h.calm (begun_calm h pid objects), List.forall_mem_concat h.pid hpid,
    List.forall_mem_concat h.recorded fun q hr => ?_, h.log⟩
  rcases hr with ⟨member, hm, rfl⟩ | ⟨x, hx, _⟩
  · obtain rfl := List.mem_singleton.mp hm
    exact hpid
  · cases hx

theorem step_sound {label : Label} (h : Sound w) (hg : Careful w label) (hs : step w label = some w') :
    Sound w' := by
  cases label with
  | new pid objects => exact new_sound h hs
  | begin c m op => exact begin_sound h hs
  | perform c i oracle => exact perform_sound h hs
  | interrupted c i => exact interrupted_sound h hs
  | outside c objects interest => exact outside_sound h hs
  | fork parent pid kept => exact fork_sound h hg hs

theorem start_sound (pid : Pid) : Sound (start pid) :=
  ⟨List.forall_mem_nil _, List.forall_mem_nil _, List.forall_mem_nil _, List.forall_mem_nil _⟩

end Steps

-- No process reaches an epoll instance that another one has made, however the
-- processes fork and whatever calls their threads have in progress, where every
-- fork of the run meets the condition.
theorem instances_private (pid : Pid) (labels : List Label)
    (hg : Guarded step Careful (start pid) labels) : Visits step Private (start pid) labels :=
  visits_of_guarded Sound Private (fun _ h => h.private) (fun _ _ _ h hg hs => step_sound h hg hs)
    (start_sound pid) hg

-- The part of the condition that can be computed.
def Travels (w : World) : Label → Prop
  | .fork _ pid kept => ∀ pair ∈ w.copies.zipIdx, ∀ i ∈ List.range pair.1.calls.length,
      kept pair.2 i = true → (pair.1.standing i).travels pid
  | _ => True

instance (w : World) : (label : Label) → Decidable (Travels w label)
  | .new _ _ => isTrue trivial
  | .begin _ _ _ => isTrue trivial
  | .perform _ _ _ => isTrue trivial
  | .interrupted _ _ => isTrue trivial
  | .outside _ _ _ => isTrue trivial
  | .fork _ pid kept => inferInstanceAs (Decidable (∀ pair ∈ w.copies.zipIdx,
      ∀ i ∈ List.range pair.1.calls.length, kept pair.2 i = true → (pair.1.standing i).travels pid))

theorem careful_of_travels {w : World} {label : Label} (h : Travels w label) : Careful w label := by
  cases label with
  | fork parent pid kept =>
      intro c i copy call hc _ hcall hk
      have hlt := (List.getElem?_eq_some_iff.mp hcall).1
      exact Or.inl (h (copy, c) (List.mk_mem_zipIdx_iff_getElem?.mpr hc) i (List.mem_range.mpr hlt) hk)
  | _ => trivial

-- The `to_io` of an object that is added forks, and the child, which goes on with
-- the call, is forked again while it re-initialises. The grandchild registers the
-- object with an epoll instance of its own.
theorem instances_private_kept :
    Visits step Private (start 1)
      ([.new 1 (noObjects.openNew 5)] ++ List.replicate 5 (.perform 0 0 {}) ++
        [.begin 0 0 (.add 0 (.int 1)), .perform 0 1 {}, .fork 1 2 fun _ i => i == 1] ++
        List.replicate 5 (.perform 1 1 {}) ++ [.fork 2 3 fun _ i => i == 1] ++
        List.replicate 18 (.perform 2 1 {})) :=
  instances_private 1 _ (guarded_of_invariant (fun _ => True) (fun _ _ _ => careful_of_travels)
    (fun _ _ _ _ _ _ => trivial) trivial (by decide +kernel))

-- A signal handler forks while wait is in epoll_wait, the `to_io` of the object
-- forks while epoll_ctl asks for its descriptor, and a process forks in the middle
-- of new.
theorem resumed_in_child :
    (∃ w, runEvents step (start 1)
      ([.new 1 noObjects] ++ List.replicate 5 (.perform 0 0 {}) ++ [.begin 0 0 (.wait none)] ++
        List.replicate 7 (.perform 0 1 {}) ++
        [.interrupted 0 1, .fork 1 2 fun _ i => i == 1, .perform 1 1 {}]) = some w ∧ ¬Private w) ∧
    (∃ w, runEvents step (start 1)
      ([.new 1 (noObjects.openNew 5)] ++ List.replicate 5 (.perform 0 0 {}) ++
        [.begin 0 0 (.add 0 (.int 1))] ++ List.replicate 5 (.perform 0 1 {}) ++
        [.fork 1 2 fun _ i => i == 1, .perform 1 1 {}]) = some w ∧ ¬Private w) ∧
    ∃ w, runEvents step (start 1)
      ([.new 1 (noObjects.openNew 5), .perform 0 0 {}, .fork 1 2 fun _ i => i == 0] ++
        List.replicate 4 (.perform 1 0 {}) ++ [.begin 1 0 (.add 0 (.int 1))] ++
        List.replicate 6 (.perform 1 1 {})) = some w ∧ ¬Private w := by
  have hrun : ∀ {labels : List Label},
      (runEvents step (start 1) labels).map (fun w => decide (Private w)) = some false →
      ∃ w, runEvents step (start 1) labels = some w ∧ ¬Private w := by
    intro labels h
    obtain ⟨w, hw, hp⟩ := Option.map_eq_some_iff.mp h
    exact ⟨w, hw, of_decide_eq_false hp⟩
  refine ⟨hrun ?_, hrun ?_, hrun ?_⟩
  · decide +kernel
  · decide +kernel
  · decide +kernel

-- A wait whose thread is in its block uses no IO any more.
example : ((runEvents step (start 1)
    ([.new 1 noObjects] ++ List.replicate 5 (.perform 0 0 {}) ++ [.begin 0 0 (.wait none)] ++
      List.replicate 8 (.perform 0 1 {}))).bind fun w =>
        (w.copies[0]?).bind fun copy => copy.calls[1]?).elim False Quiet :=
  ⟨rfl, fun _ => ⟨rfl, fun _ => trivial⟩⟩

end SleepyPenguin.Epoll.Processes
