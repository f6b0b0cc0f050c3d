import SleepyPenguin.Foundation.Completion
import SleepyPenguin.Foundation.Run
import SleepyPenguin.Runtime.Lineage

-- Threads of one process, and of one child after another, that call the methods
-- of a family in any order: none of them keeps another from coming to its end.
namespace SleepyPenguin.Schedule

open Foundation Foundation.Prog

structure World (Ret : Type) where
  sys : Sys
  calls : List (Method Ret)

inductive Label (Op : Type)
  | begin (m : Nat) (op : Op)
  | perform (i : Nat) (oracle : Oracle)
  | openIo (fd : Fd)
  | closeIo (io : Obj)
  | fork (pid : Pid) (kept : Nat → Bool)

-- A copy that dup or clone gives up stays in its place: nothing refers to it.
def perform (t : Nat) : (β : Type) → Sys → Cmd β → Option (β × Sys)
  | _, s, .discard => some ((), s)
  | β, s, command => exec t β s command

-- A call whose thread is in a block that the call has yielded to: the block has
-- run when the next event or the end of the block comes.
def yielding {Ret : Type} : Method Ret → Bool
  | .cmd .yieldNext _ => true
  | .cmd .putBuf _ => true
  | _ => false

def start {Ret : Type} (pid : Pid) (objects : Objects) : World Ret := ⟨opened pid objects, []⟩

section Step

variable {Op Ret : Type} [Inhabited Ret] (api : Lineage.Interface Op Ret)

-- A child has one thread, with the calls that it is in the block of. The
-- mutexes of the other threads are released.
def child (w : World Ret) (pid : Pid) (kept : Nat → Bool) : World Ret :=
  ⟨{ w.sys with
      self := pid
      family.mutex := none },
    w.calls.mapIdx fun i call => if kept i && yielding call then call else .pure default⟩

def step (w : World Ret) : Label Op → Option (World Ret)
  | .begin m op =>
      if m < w.sys.family.members.length then some { w with calls := w.calls ++ [api.method m op] }
      else none
  | .perform i oracle =>
      (advance perform w.calls i { w.sys with oracle := oracle }).map fun (calls, sys) => ⟨sys, calls⟩
  | .openIo fd => (w.sys.openIo fd).map fun sys => { w with sys := sys }
  | .closeIo io => (w.sys.closeIo io).map fun sys => { w with sys := sys }
  | .fork pid kept => some (child w pid kept)

-- Some call performs its next command.
def Performs (w w' : World Ret) : Prop := ∃ i oracle, step api w (.perform i oracle) = some w'

def Outside (w w' : World Ret) : Prop :=
  (∃ fd, step api w (.openIo fd) = some w') ∨ ∃ io, step api w (.closeIo io) = some w'

def Over (w : World Ret) : Prop := ∀ call ∈ w.calls, call.ended = true

end Step

-- The commands that write what the members share, and those at which a call
-- waits: for `@mtx`, for events, or for the block it has yielded to.
def writes : {β : Type} → Cmd β → Bool
  | _, .setPid _ _ | _, .setIo _ _ | _, .setCopies _ => true
  | _, .clearEvents | _, .clearMarks | _, .setMark _ _ | _, .setEvents _ _ => true
  | _, .epollCtl _ _ _ _ => true
  | _, .unlock => true
  | _, _ => false

def waits : {β : Type} → Cmd β → Bool
  | _, .lock => true
  | _, .epollWait _ _ | _, .kevent _ _ _ => true
  | _, .yieldNext | _, .putBuf => true
  | _, _ => false

-- Who writes holds `@mtx`, and who waits does not.
def Orderly {Ret : Type} (w : World Ret) : Prop :=
  ∀ (i : Nat) (β : Type) (command : Cmd β) (rest : β → Method Ret), w.calls[i]? = some (.cmd command rest) →
    (writes command = true → w.sys.family.mutex = some i) ∧
      (waits command = true → w.sys.family.mutex ≠ some i)

-- The references of a family lead somewhere.
structure Base (s : Sys) : Prop where
  handle : ∀ x ∈ s.family.handles, x.inst < s.kernel.insts.length
  member : ∀ member ∈ s.family.members, member.io < s.family.handles.length
  key : ∀ pair ∈ s.family.copies, pair.1 < s.family.handles.length

-- Members and IOs are only added.
structure Grows (s s' : Sys) : Prop where
  base : Base s'
  members : s.family.members.length ≤ s'.family.members.length
  handles : s.family.handles.length ≤ s'.family.handles.length

-- What call `t` may rely on between two of its commands.
structure Rely (t : Nat) (s s' : Sys) : Prop extends Grows s s' where
  mutex : s'.family.mutex = some t ↔ s.family.mutex = some t
  frame : s'.frames t = s.frames t

-- What each command refers to is there.
def Refers (t : Nat) : (β : Type) → Sys → Cmd β → Prop
  | _, s, .getPid m | _, s, .setPid m _ | _, s, .getIo m | _, s, .allocate m => m < s.family.members.length
  | _, s, .setIo m io => m < s.family.members.length ∧ io < s.family.handles.length
  | _, s, .dup io | _, s, .close io | _, s, .closed io | _, s, .autocloseOff io =>
      io < s.family.handles.length
  | _, s, .setCopies copies => ∀ pair ∈ copies, pair.1 < s.family.handles.length
  | _, s, .epollCtl io _ _ _ | _, s, .epollWait io _ | _, s, .kevent io _ _ => io < s.family.handles.length
  | _, s, .yieldNext => (s.frames t).buf ≠ []
  | _, _, _ => True

def Guard (t : Nat) (β : Type) (s : Sys) (command : Cmd β) : Prop :=
  Refers t β s command ∧ (writes command = true → s.family.mutex = some t) ∧
    (waits command = true → s.family.mutex ≠ some t)

section Effects

variable {t : Nat} {s s' s'' : Sys}

theorem Grows.refl (h : Base s) : Grows s s := ⟨h, Nat.le_refl _, Nat.le_refl _⟩

theorem Grows.trans (h : Grows s s') (h' : Grows s' s'') : Grows s s'' :=
  ⟨h'.base, Nat.le_trans h.members h'.members, Nat.le_trans h.handles h'.handles⟩

theorem Rely.refl (t : Nat) (h : Base s) : Rely t s s := ⟨.refl h, Iff.rfl, rfl⟩

theorem Rely.trans (h : Rely t s s') (h' : Rely t s' s'') : Rely t s s'' :=
  ⟨h.toGrows.trans h'.toGrows, h'.mutex.trans h.mutex, h'.frame.trans h.frame⟩

-- What a command of call `t` does that neither locks nor unlocks.
structure Effect (t : Nat) (s s' : Sys) : Prop extends Grows s s' where
  mutex : s'.family.mutex = s.family.mutex
  frame : ∀ j, j ≠ t → s'.frames j = s.frames j

theorem Effect.rely {j : Nat} (h : Effect t s s') (hj : j ≠ t) : Rely j s s' :=
  ⟨h.toGrows, by rw [h.mutex], h.frame j hj⟩

-- A command that leaves the family alone.
structure Aside (t : Nat) (s s' : Sys) : Prop where
  family : s'.family = s.family
  insts : s'.kernel.insts.length = s.kernel.insts.length
  frame : ∀ j, j ≠ t → s'.frames j = s.frames j

theorem Aside.refl (t : Nat) (s : Sys) : Aside t s s := ⟨rfl, rfl, fun _ _ => rfl⟩

theorem Base.of_same (hb : Base s) (hmembers : s'.family.members = s.family.members)
    (hhandles : s'.family.handles = s.family.handles) (hcopies : s'.family.copies = s.family.copies)
    (hinsts : s'.kernel.insts.length = s.kernel.insts.length) : Base s' := by
  refine ⟨?_, ?_, ?_⟩
  · rw [hhandles, hinsts]
    exact hb.handle
  · rw [hmembers, hhandles]
    exact hb.member
  · rw [hcopies, hhandles]
    exact hb.key

theorem Effect.of_same (hb : Base s) (hmembers : s'.family.members = s.family.members)
    (hhandles : s'.family.handles = s.family.handles) (hcopies : s'.family.copies = s.family.copies)
    (hmutex : s'.family.mutex = s.family.mutex) (hinsts : s'.kernel.insts.length = s.kernel.insts.length)
    (hframe : ∀ j, j ≠ t → s'.frames j = s.frames j) : Effect t s s' := by
  refine ⟨⟨hb.of_same hmembers hhandles hcopies hinsts, ?_, ?_⟩, hmutex, hframe⟩
  · rw [hmembers]
  · rw [hhandles]

theorem Aside.effect (h : Aside t s s') (hb : Base s) : Effect t s s' := by
  obtain ⟨hfamily, hinsts, hframe⟩ := h
  refine .of_same hb ?_ ?_ ?_ ?_ hinsts hframe
  all_goals rw [hfamily]

theorem frame_other (s : Sys) (frame : Frame) (j : Nat) (hj : j ≠ t) :
    Function.update s.frames t frame j = s.frames j :=
  Function.update_of_ne hj ..

theorem answer_aside (s : Sys) (obj : Obj) : Aside t s (s.answer obj).2 := by
  unfold Sys.answer
  split
  · exact .refl t s
  · exact ⟨rfl, rfl, fun _ _ => rfl⟩

theorem epctl_aside (s : Sys) (x : Handle) (inst : Inst) (op : CtlOp) (obj : Obj) (events : EventArg) :
    Aside t s (s.epctl x inst op obj events).2 := by
  unfold Sys.epctl
  have ha := answer_aside (t := t) s obj
  split
  · exact .refl t s
  · rcases hanswer : s.answer obj with ⟨_ | fd, q⟩ <;> rw [hanswer] at ha
    · exact ha
    · rcases events.toUint with e | mask
      · exact ha
      · have hcalled : ∀ ctls, Aside t s { q.issue .epollCtl x with oracle.ctls := ctls } :=
          fun _ => ⟨ha.family, ha.insts, ha.frame⟩
        simp only
        split
        · exact hcalled _
        · split
          · exact hcalled _
          · exact ⟨ha.family, (List.length_modify ..).trans ha.insts, ha.frame⟩

theorem epwait_aside (s : Sys) (x : Handle) (inst : Inst) (maxevents : Int) :
    Aside t s (s.epwait t x inst maxevents).2 := by
  unfold Sys.epwait
  split
  · exact .refl t s
  · split
    · exact .refl t s
    · rcases Sys.interrupted s.oracle.waits with ⟨count, last, left⟩
      cases last with
      | some errno => exact ⟨rfl, rfl, fun _ _ => rfl⟩
      | none => exact ⟨rfl, List.length_modify .., fun j hj => frame_other s _ j hj⟩

theorem kevent_aside (s : Sys) (x : Handle) (changelist : List KeventItem) (nevents : Nat) :
    Aside t s (s.kevent t x changelist nevents).2 := by
  unfold Sys.kevent
  split
  · exact .refl t s
  · rcases changelist.mapM unpackEvent with e | changes
    · exact .refl t s
    · rcases Sys.interrupted s.oracle.waits with ⟨count, last, left⟩
      cases last with
      | some errno =>
          cases count with
          | zero => exact ⟨rfl, rfl, fun _ _ => rfl⟩
          | succ count => exact ⟨rfl, List.length_modify .., fun _ _ => rfl⟩
      | none => exact ⟨rfl, List.length_modify .., fun j hj => frame_other s _ j hj⟩

-- A member whose `@pid` or `@io` is assigned.
theorem setMember_effect {m : Nat} {member : Member} (hb : Base s)
    (hio : member.io < s.family.handles.length) : Effect t s (s.setMember m member) := by
  refine ⟨⟨⟨hb.handle, List.forall_mem_set hb.member hio, hb.key⟩, ?_, Nat.le_refl _⟩, rfl, fun _ _ => rfl⟩
  exact Nat.le_of_eq (List.length_set ..).symm

-- An IO whose flags change.
theorem setHandle_effect {io : Nat} {x y : Handle} (hb : Base s) (hx : s.family.handles[io]? = some x)
    (hinst : y.inst = x.inst) (hmembers : s'.family.members = s.family.members)
    (hhandles : s'.family.handles = s.family.handles.set io y)
    (hcopies : s'.family.copies = s.family.copies)
    (hmutex : s'.family.mutex = s.family.mutex) (hinsts : s'.kernel.insts = s.kernel.insts)
    (hframe : s'.frames = s.frames) : Effect t s s' := by
  have hlength : s'.family.handles.length = s.family.handles.length := by rw [hhandles, List.length_set]
  refine ⟨⟨⟨?_, ?_, ?_⟩, ?_, ?_⟩, hmutex, fun j _ => ?_⟩
  · rw [hhandles, hinsts]
    exact List.forall_mem_set hb.handle (hinst ▸ hb.handle x (List.mem_of_getElem? hx))
  · rw [hmembers, hlength]
    exact hb.member
  · rw [hcopies, hlength]
    exact hb.key
  · rw [hmembers]
  · rw [hlength]
  · rw [hframe]

-- A new IO, on an instance that is there or on a new one.
theorem newHandle_effect {y : Handle} {insts : List Inst} (hb : Base s)
    (hmembers : s'.family.members = s.family.members)
    (hhandles : s'.family.handles = s.family.handles ++ [y]) (hcopies : s'.family.copies = s.family.copies)
    (hmutex : s'.family.mutex = s.family.mutex) (hinsts : s'.kernel.insts = s.kernel.insts ++ insts)
    (hy : y.inst < s'.kernel.insts.length) (hframe : s'.frames = s.frames) : Effect t s s' := by
  have hhandle : s.family.handles.length ≤ s'.family.handles.length := by
    rw [hhandles, List.length_append]
    exact Nat.le_add_right ..
  have hinst : s.kernel.insts.length ≤ s'.kernel.insts.length := by
    rw [hinsts, List.length_append]
    exact Nat.le_add_right ..
  refine ⟨⟨⟨?_, fun member hm => ?_, fun pair hp => ?_⟩, ?_, hhandle⟩, hmutex, fun j _ => ?_⟩
  · rw [hhandles]
    exact List.forall_mem_concat (fun x hx => Nat.lt_of_lt_of_le (hb.handle x hx) hinst) hy
  · rw [hmembers] at hm
    exact Nat.lt_of_lt_of_le (hb.member member hm) hhandle
  · rw [hcopies] at hp
    exact Nat.lt_of_lt_of_le (hb.key pair hp) hhandle
  · rw [hmembers]
  · rw [hframe]

theorem create_effect (hb : Base s) : Effect t s s.create.2 := by
  rcases s.create_cases with ⟨errno, _, hcreate⟩ | ⟨_, hcreate⟩
  · rw [hcreate]
    exact .of_same hb rfl rfl rfl rfl rfl fun _ _ => rfl
  · rw [hcreate]
    exact newHandle_effect hb rfl rfl rfl rfl rfl (by simp) rfl

theorem dup_effect {io : Nat} {x : Handle} (hb : Base s) (hx : s.family.handles[io]? = some x) :
    Effect t s (s.dup x).2 := by
  cases hc : x.closed with
  | true =>
      rw [s.dup_closed hc]
      exact .of_same hb rfl rfl rfl rfl rfl fun _ _ => rfl
  | false =>
      rcases s.dup_open hc with ⟨errno, _, hdup⟩ | ⟨_, hdup⟩
      · rw [hdup]
        exact .of_same hb rfl rfl rfl rfl rfl fun _ _ => rfl
      · rw [hdup]
        refine newHandle_effect hb rfl rfl rfl rfl (List.append_nil _).symm ?_ rfl
        exact hb.handle x (List.mem_of_getElem? hx)

theorem close_effect {io : Nat} {x : Handle} (hb : Base s) (hx : s.family.handles[io]? = some x) :
    Effect t s (s.close io x).2 := by
  obtain ⟨outcome, calls, closes, hclose, _, _⟩ := Sys.close_cases hx
  rw [hclose]
  exact setHandle_effect (y := { x with closed := true }) hb hx rfl rfl rfl rfl rfl rfl rfl

theorem autocloseOff_effect {io : Nat} {x : Handle} (hb : Base s) (hx : s.family.handles[io]? = some x) :
    Effect t s (s.autocloseOff io x).2 := by
  unfold Sys.autocloseOff
  split
  · exact .of_same hb rfl rfl rfl rfl rfl fun _ _ => rfl
  · exact setHandle_effect (y := { x with autoclose := false }) hb hx rfl rfl rfl rfl rfl rfl rfl

theorem yieldNext_effect {step : Except Err Unit × Sys} (hb : Base s) (h : s.yieldNext t = some step) :
    Effect t s step.2 := by
  unfold Sys.yieldNext at h
  split at h
  · cases h
  · simp only at h
    split at h
    all_goals
      cases h
      exact .of_same hb rfl rfl rfl rfl rfl fun j hj => frame_other s _ j hj

-- The commands that take `@mtx` or give it back.
def turns : {β : Type} → Cmd β → Bool
  | _, .lock | _, .unlock => true
  | _, _ => false

theorem withMutex_base (hb : Base s) (mutex : Option Nat) : Grows s (s.withMutex mutex) :=
  ⟨⟨hb.handle, hb.member, hb.key⟩, Nat.le_refl _, Nat.le_refl _⟩

-- What any other command does that finds what it refers to.
theorem perform_effect {β : Type} {command : Cmd β} {step : β × Sys} (hb : Base s)
    (hrefers : Refers t β s command) (hplain : turns command = false)
    (h : perform t β s command = some step) : Effect t s step.2 := by
  have hsame : Effect t s s := .of_same hb rfl rfl rfl rfl rfl fun _ _ => rfl
  cases command with
  | self | getCopies | getMarks | getMark _ | getEvents _ | same _ _ =>
      cases h
      exact hsame
  | discard =>
      cases h
      exact hsame
  | getPid m | getIo m =>
      obtain ⟨member, _, rfl⟩ := Option.map_eq_some_iff.mp h
      exact hsame
  | closed io =>
      obtain ⟨x, _, rfl⟩ := Option.map_eq_some_iff.mp h
      exact hsame
  | setPid m pid =>
      obtain ⟨member, hm, rfl⟩ := Option.map_eq_some_iff.mp h
      exact setMember_effect hb (hb.member member (List.mem_of_getElem? hm))
  | setIo m io =>
      obtain ⟨member, _, rfl⟩ := Option.map_eq_some_iff.mp h
      exact setMember_effect hb hrefers.2
  | allocate m =>
      obtain ⟨member, hm, rfl⟩ := Option.map_eq_some_iff.mp h
      refine ⟨⟨⟨hb.handle, ?_, hb.key⟩, ?_, Nat.le_refl _⟩, rfl, fun _ _ => rfl⟩
      · exact List.forall_mem_concat hb.member (hb.member member (List.mem_of_getElem? hm))
      · exact (List.length_append ..).symm ▸ Nat.le_add_right ..
  | create =>
      cases h
      exact create_effect hb
  | dup io =>
      obtain ⟨x, hx, rfl⟩ := Option.map_eq_some_iff.mp h
      exact dup_effect hb hx
  | close io =>
      obtain ⟨x, hx, rfl⟩ := Option.map_eq_some_iff.mp h
      exact close_effect hb hx
  | autocloseOff io =>
      obtain ⟨x, hx, rfl⟩ := Option.map_eq_some_iff.mp h
      exact autocloseOff_effect hb hx
  | setCopies copies =>
      cases h
      exact ⟨⟨⟨hb.handle, hb.member, hrefers⟩, Nat.le_refl _, Nat.le_refl _⟩, rfl, fun _ _ => rfl⟩
  | lock | unlock => cases hplain
  | clearEvents | clearMarks | setMark _ _ | setEvents _ _ =>
      cases h
      exact .of_same hb rfl rfl rfl rfl rfl fun _ _ => rfl
  | fileno obj =>
      have ha := (answer_aside (t := t) s obj).effect hb
      simp only [perform, exec] at h
      split at h
      all_goals
        rename_i hanswer
        rw [hanswer] at ha
        cases h
        exact ha
  | isClosed obj =>
      cases h
      exact (answer_aside s obj).effect hb
  | epollCtl io op obj events =>
      obtain ⟨x, _, hstep⟩ := Option.bind_eq_some_iff.mp h
      obtain ⟨inst, _, rfl⟩ := Option.map_eq_some_iff.mp hstep
      exact (epctl_aside s x inst op obj events).effect hb
  | epollWait io maxevents =>
      obtain ⟨x, _, hstep⟩ := Option.bind_eq_some_iff.mp h
      obtain ⟨inst, _, rfl⟩ := Option.map_eq_some_iff.mp hstep
      exact (epwait_aside s x inst maxevents).effect hb
  | kevent io changelist nevents =>
      obtain ⟨x, _, rfl⟩ := Option.map_eq_some_iff.mp h
      exact (kevent_aside s x changelist nevents).effect hb
  | setSnapshot snapshot =>
      cases h
      exact .of_same hb rfl rfl rfl rfl rfl fun j hj => frame_other s _ j hj
  | yieldNext => exact yieldNext_effect hb h
  | putBuf =>
      cases h
      exact .of_same hb rfl rfl rfl rfl rfl fun j hj => frame_other s _ j hj

theorem lock_step {step : Unit × Sys} (h : perform t Unit s .lock = some step) :
    s.family.mutex = none ∧ step = ((), s.withMutex (some t)) := by
  cases hmutex : s.family.mutex with
  | some j =>
      simp only [perform, exec, hmutex] at h
      cases h
  | none =>
      simp only [perform, exec, hmutex] at h
      cases h
      exact ⟨rfl, rfl⟩

-- What the other calls see of a command that meets its guard.
theorem perform_rely {β : Type} {command : Cmd β} {step : β × Sys} {j : Nat} (hb : Base s)
    (hg : Guard t β s command) (hj : j ≠ t) (h : perform t β s command = some step) : Rely j s step.2 := by
  have hne : t ≠ j := Ne.symm hj
  by_cases hplain : turns command = false
  · exact (perform_effect hb hg.1 hplain h).rely hj
  · cases command with
    | lock =>
        obtain ⟨hmutex, rfl⟩ := lock_step h
        refine ⟨withMutex_base hb _, ?_, rfl⟩
        simp [hmutex, Sys.withMutex, hne]
    | unlock =>
        cases h
        have hmutex := hg.2.1 rfl
        refine ⟨withMutex_base hb _, ?_, rfl⟩
        simp [hmutex, Sys.withMutex, hne]
    | _ => exact absurd rfl hplain

theorem member_some {m : Nat} (h : m < s.family.members.length) :
    ∃ member, s.family.members[m]? = some member := ⟨_, List.getElem?_eq_getElem h⟩

theorem handle_some {io : Nat} (h : io < s.family.handles.length) :
    ∃ x, s.family.handles[io]? = some x := ⟨_, List.getElem?_eq_getElem h⟩

-- Such a command is enabled, unless it waits for `@mtx`.
theorem perform_enabled {β : Type} {command : Cmd β} (hb : Base s) (hg : Guard t β s command)
    (hfree : waits command = true → s.family.mutex = none) : ∃ step, perform t β s command = some step := by
  have hinst : ∀ {io : Nat} {x : Handle}, s.family.handles[io]? = some x →
      ∃ inst, s.kernel.insts[x.inst]? = some inst := fun hx =>
    ⟨_, List.getElem?_eq_getElem (hb.handle _ (List.mem_of_getElem? hx))⟩
  obtain ⟨hrefers, _, _⟩ := hg
  cases command with
  | getPid m | setPid m _ | getIo m | allocate m =>
      obtain ⟨member, hm⟩ := member_some hrefers
      exact ⟨_, Option.map_eq_some_iff.mpr ⟨member, hm, rfl⟩⟩
  | setIo m io =>
      obtain ⟨member, hm⟩ := member_some hrefers.1
      exact ⟨_, Option.map_eq_some_iff.mpr ⟨member, hm, rfl⟩⟩
  | dup io | close io | closed io | autocloseOff io | kevent io _ _ =>
      obtain ⟨x, hx⟩ := handle_some hrefers
      exact ⟨_, Option.map_eq_some_iff.mpr ⟨x, hx, rfl⟩⟩
  | epollCtl io _ _ _ | epollWait io _ =>
      obtain ⟨x, hx⟩ := handle_some hrefers
      obtain ⟨inst, hi⟩ := hinst hx
      exact ⟨_, Option.bind_eq_some_iff.mpr ⟨x, hx, Option.map_eq_some_iff.mpr ⟨inst, hi, rfl⟩⟩⟩
  | lock => exact ⟨_, by simp only [perform, exec, hfree rfl]; rfl⟩
  | fileno obj =>
      rcases hanswer : s.answer obj with ⟨_ | fd, q⟩
      · exact ⟨_, by simp only [perform, exec, hanswer]; rfl⟩
      · exact ⟨_, by simp only [perform, exec, hanswer]; rfl⟩
  | yieldNext =>
      rcases hbuf : (s.frames t).buf with _ | ⟨event, rest⟩
      · exact absurd hbuf hrefers
      · simp only [perform, exec, Sys.yieldNext, hbuf]
        cases s.oracle.blocks.headD none <;> exact ⟨_, rfl⟩
  | _ => exact ⟨_, rfl⟩

end Effects

-- What growing does not undo.
def Stable (P : Sys → Prop) : Prop := ∀ s s', P s → Grows s s' → P s'

def Made (io : Nat) (s : Sys) : Prop := io < s.family.handles.length

def Keyed (copies : List (Nat × Nat)) (s : Sys) : Prop := ∀ pair ∈ copies, Made pair.1 s

-- Call `t` on the member `m` holds `@mtx`, or does not.
structure Ready (t m : Nat) (held : Bool) (s : Sys) : Prop where
  listed : m < s.family.members.length
  mutex : held = true ↔ s.family.mutex = some t

-- Whatever the other calls do, each command of the program finds what it refers
-- to, and on either outcome call `t` holds `@mtx` as it did before.
def Triple {α : Type} (t m : Nat) (held : Bool) (P : Sys → Prop) (program : Method α) (Q : α → Sys → Prop) :
    Prop :=
  Spec (perform t) (fun _ _ => Rely t) (Guard t) (fun s => Ready t m held s ∧ P s) program
    (fun value s => Ready t m held s ∧ Q value s) fun _ s => Ready t m held s

theorem stable_true : Stable fun _ => True := fun _ _ _ _ => trivial

theorem stable_made (io : Nat) : Stable (Made io) := fun _ _ h hg => Nat.lt_of_lt_of_le h hg.handles

theorem stable_keyed (copies : List (Nat × Nat)) : Stable (Keyed copies) :=
  fun s s' h hg pair hp => stable_made pair.1 s s' (h pair hp) hg

theorem Stable.and {P P' : Sys → Prop} (h : Stable P) (h' : Stable P') : Stable fun s => P s ∧ P' s :=
  fun s s' hs hg => ⟨h s s' hs.1 hg, h' s s' hs.2 hg⟩

section Triple

variable {t m : Nat} {held : Bool} {α γ : Type} {P : Sys → Prop} {Q : α → Sys → Prop}

theorem Ready.rely {s s' : Sys} (h : Ready t m held s) (hr : Rely t s s') : Ready t m held s' :=
  ⟨Nat.lt_of_lt_of_le h.listed hr.members, h.mutex.trans hr.mutex.symm⟩

theorem Ready.grows {s s' : Sys} (h : Ready t m held s) (hg : Grows s s')
    (hmutex : s'.family.mutex = s.family.mutex) : Ready t m held s' :=
  ⟨Nat.lt_of_lt_of_le h.listed hg.members, by rw [hmutex]; exact h.mutex⟩

-- What a command may do in such a place.
theorem Ready.guard {β : Type} {command : Cmd β} {s : Sys} (h : Ready t m held s)
    (hrefers : Refers t β s command) (hwrites : writes command = true → held = true)
    (hwaits : waits command = true → held = false) : Guard t β s command := by
  refine ⟨hrefers, fun hw => h.mutex.mp (hwrites hw), fun hw hmutex => ?_⟩
  rw [h.mutex.mpr hmutex] at hwaits
  cases hwaits hw

-- Whether call `t` may perform the command in such a place.
def allowed (held : Bool) {β : Type} (command : Cmd β) : Bool :=
  !turns command && (held || !writes command) && !(held && waits command)

theorem allowed_iff {β : Type} {command : Cmd β} (h : allowed held command = true) :
    turns command = false ∧ (writes command = true → held = true) ∧
      (waits command = true → held = false) := by
  simp only [allowed, Bool.and_eq_true, Bool.not_eq_true', Bool.or_eq_true, Bool.and_eq_false_iff] at h
  obtain ⟨⟨hplain, hwrites⟩, hwaits⟩ := h
  refine ⟨hplain, fun hw => hwrites.resolve_right ?_, fun hw => hwaits.resolve_right ?_⟩
  · simp [hw]
  · simp [hw]

-- A command that only reads, or that only call `t` notices, is allowed anywhere.
theorem allowed_anywhere {β : Type} {command : Cmd β}
    (h : (turns command || writes command || waits command) = false) : allowed held command = true := by
  simp only [Bool.or_eq_false_iff] at h
  simp [allowed, h.1.1, h.1.2, h.2]

theorem triple_perform {command : Cmd α} (hP : Stable P) (hallowed : allowed held command = true)
    (hrefers : ∀ s, Base s → m < s.family.members.length → P s → Refers t α s command)
    (hQ : ∀ s step, Base s → P s → P step.2 → Grows s step.2 → perform t α s command = some step →
      Q step.1 step.2) :
    Triple t m held P (.perform command) Q := by
  intro s ⟨hready, hp⟩
  obtain ⟨hplain, hwrites, hwaits⟩ := allowed_iff hallowed
  rw [along_perform]
  intro s' hr
  have hready' := hready.rely hr
  have hp' := hP s s' hp hr.toGrows
  have hr' := hrefers s' hr.base hready'.listed hp'
  refine ⟨hready'.guard hr' hwrites hwaits, fun step hstep => ?_⟩
  have he := perform_effect hr.base hr' hplain hstep
  exact ⟨hready'.grows he.toGrows he.mutex,
    hQ s' step hr.base hp' (hP s' _ hp' he.toGrows) he.toGrows hstep⟩

theorem perform_keeps {command : Cmd α} (hP : Stable P) (hallowed : allowed held command = true)
    (hrefers : ∀ s, Base s → m < s.family.members.length → P s → Refers t α s command) :
    Triple t m held P (.perform command) fun _ => P :=
  triple_perform hP hallowed hrefers fun _ _ _ _ hp _ _ => hp

theorem triple_attempt {command : Cmd (Except Err α)} (hP : Stable P)
    (hallowed : allowed held command = true)
    (hrefers : ∀ s, Base s → m < s.family.members.length → P s → Refers t _ s command)
    (hQ : ∀ s value s', Base s → P s → P s' → Grows s s' → perform t _ s command = some (.ok value, s') →
      Q value s') :
    Triple t m held P (.attempt command) Q := by
  intro s ⟨hready, hp⟩
  obtain ⟨hplain, hwrites, hwaits⟩ := allowed_iff hallowed
  rw [along_attempt]
  intro s' hr
  have hready' := hready.rely hr
  have hp' := hP s s' hp hr.toGrows
  have hr' := hrefers s' hr.base hready'.listed hp'
  refine ⟨hready'.guard hr' hwrites hwaits, fun step hstep => ?_⟩
  have he := perform_effect hr.base hr' hplain hstep
  have hafter := hready'.grows he.toGrows he.mutex
  obtain ⟨outcome, s''⟩ := step
  cases outcome with
  | error e => exact hafter
  | ok value => exact ⟨hafter, hQ s' value s'' hr.base hp' (hP s' _ hp' he.toGrows) he.toGrows hstep⟩

theorem attempt_keeps {command : Cmd (Except Err α)} (hP : Stable P)
    (hallowed : allowed held command = true)
    (hrefers : ∀ s, Base s → m < s.family.members.length → P s → Refers t _ s command) :
    Triple t m held P (.attempt command) fun _ => P :=
  triple_attempt hP hallowed hrefers fun _ _ _ _ _ hp _ _ => hp

theorem triple_pure {value : α} (h : ∀ s, P s → Q value s) :
    Triple t m held P (Pure.pure value : Method α) Q :=
  spec_pure fun s hs => ⟨hs.1, h s hs.2⟩

theorem triple_raise {e : Err} : Triple t m held P (.raise e : Method α) Q := spec_raise fun _ hs => hs.1

theorem triple_ofExcept {outcome : Except Err α} : Triple t m held P (.ofExcept outcome) fun _ => P :=
  spec_ofExcept (fun _ _ _ hs => hs) fun _ _ _ hs => hs.1

theorem triple_bind {program : Method γ} {next : γ → Method α} {M : γ → Sys → Prop}
    (h : Triple t m held P program M) (hnext : ∀ value, Triple t m held (M value) (next value) Q) :
    Triple t m held P (program >>= next) Q :=
  spec_bind h hnext

theorem triple_rescue {program : Method α} {handler : Err → Method α} (h : Triple t m held P program Q)
    (hhandler : ∀ e, Triple t m held (fun _ => True) (handler e) Q) :
    Triple t m held P (program.rescue handler) Q :=
  spec_rescue h fun e s hs => hhandler e s ⟨hs, trivial⟩

theorem triple_mono {program : Method α} {P' : Sys → Prop} {Q' : α → Sys → Prop}
    (h : Triple t m held P' program Q') (hP : ∀ s, P s → P' s) (hQ : ∀ value s, Q' value s → Q value s) :
    Triple t m held P program Q :=
  spec_mono h (fun s hs => ⟨hs.1, hP s hs.2⟩) (fun value s hs => ⟨hs.1, hQ value s hs.2⟩) fun _ _ hs => hs

theorem triple_each {items : List γ} {body : γ → Method Unit}
    (hbody : ∀ item ∈ items, Triple t m held P (body item) fun _ => P) :
    Triple t m held P (.each items body) fun _ => P :=
  fun _ hs => along_each (fun s => Ready t m held s ∧ P s) hs fun item hi s hs => hbody item hi s hs

-- `@mtx` is taken and given back.
theorem triple_synchronize {body : Method α} (hP : Stable P) (hQ : ∀ value, Stable (Q value))
    (h : Triple t m true P body Q) : Triple t m false P (Method.synchronize body) Q := by
  have hunlock : ∀ {K : Sys → Prop}, Stable K → Spec (perform t) (fun _ _ => Rely t) (Guard t)
      (fun s => Ready t m true s ∧ K s) (.perform .unlock : Method Unit)
      (fun _ s => Ready t m false s ∧ K s)
      fun _ s => Ready t m false s := by
    rintro K hK s ⟨hready, hk⟩
    rw [along_perform]
    intro s' hr
    have hready' := hready.rely hr
    refine ⟨hready'.guard trivial (fun _ => rfl) (by rintro ⟨⟩), fun step hstep => ?_⟩
    cases hstep
    refine ⟨⟨hready'.listed, by simp [Sys.withMutex]⟩, hK s _ hk ?_⟩
    exact hr.toGrows.trans (withMutex_base hr.base none)
  refine spec_bind (M := fun _ s => Ready t m true s ∧ P s) ?_ fun _ => ?_
  · rintro s ⟨hready, hp⟩
    rw [along_perform]
    intro s' hr
    have hready' := hready.rely hr
    refine ⟨hready'.guard trivial (by rintro ⟨⟩) (fun _ => rfl), fun step hstep => ?_⟩
    obtain ⟨_, rfl⟩ := lock_step hstep
    exact ⟨⟨hready'.listed, by simp [Sys.withMutex]⟩,
      hP s _ hp (hr.toGrows.trans (withMutex_base hr.base _))⟩
  · refine spec_ensure h (fun value => ?_) fun e => ?_
    · exact hunlock (hQ value)
    · exact spec_mono (hunlock stable_true) (fun _ hs => ⟨hs, trivial⟩)
        (fun _ _ hs => hs.1) fun _ _ hs => hs

end Triple

end SleepyPenguin.Schedule
