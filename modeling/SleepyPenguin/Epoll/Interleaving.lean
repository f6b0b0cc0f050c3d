import SleepyPenguin.Foundation.Rely
import SleepyPenguin.Epoll.Coherence

-- Threads of one process on one Epoll, and what keeps the objects that `wait`
-- yields from being collected.
namespace SleepyPenguin.Epoll.Threads

open Foundation Foundation.Prog

-- `storing` is what the call that holds `@mtx` has registered with epoll_ctl
-- and not yet stored in `@marks`.
structure State where
  sys : Sys
  storing : Option (Fd × Obj)

def State.stores (s : State) : {β : Type} → Cmd β → β → Option (Fd × Obj)
  | _, .epollCtl _ op io _, .ok () =>
      if op = .del then none else (s.sys.objects.fileno io).map fun fd => (fd, io)
  | _, .setMark _ _, _ => none
  | _, .unlock, _ => none
  | _, _, _ => s.storing

def perform (t : Nat) (β : Type) (s : State) (command : Cmd β) : Option (β × State) :=
  (exec t β s.sys command).map fun (answer, sys) => (answer, ⟨sys, s.stores command answer⟩)

structure World where
  state : State
  calls : List (Method Ret)

def start (pid : Pid) (objects : Objects) : World := ⟨⟨opened pid objects, none⟩, []⟩

-- The methods that wait for events and those that register and remove.
def Op.watches : Op → Bool
  | .wait _ | .add _ _ | .mod _ _ | .set _ _ | .del _ | .delete _ => true
  | _ => false

inductive Label
  | begin (op : Op)
  | perform (i : Nat) (oracle : Oracle)
  | openIo (fd : Fd)
  | closeIo (io : Obj)

-- The outcomes of the next command. An ordinary IO answers its own descriptor.
def State.given (s : State) (oracle : Oracle) : State :=
  { s with sys.oracle := { oracle with answers := [] } }

-- A thread, or a block that `wait` yields to, begins a call; a call performs
-- its next command.
def step (w : World) : Label → Option World
  | .begin op => if Op.watches op then some { w with calls := w.calls ++ [method 0 op] } else none
  | .perform i oracle =>
      (advance perform w.calls i (w.state.given oracle)).map fun (calls, state) => ⟨state, calls⟩
  | .openIo fd => (w.state.sys.openIo fd).map fun sys => { w with state.sys := sys }
  | .closeIo io => (w.state.sys.closeIo io).map fun sys => { w with state.sys := sys }

-- The object that call `i` is about to yield.
def World.yields (w : World) (i : Nat) : Option Obj :=
  match w.calls[i]? with
  | some (.cmd .yieldNext _) => (w.state.sys.frames i).buf.head?.map Prod.snd
  | _ => none

def markOf : {β : Type} → Cmd β → Option (Fd × Option Obj)
  | _, .setMark fd mark => some (fd, mark)
  | _, _ => none

-- The slot of `@marks` that call `i` is about to write.
def World.writes (w : World) (i : Nat) : Option (Fd × Option Obj) :=
  match w.calls[i]? with
  | some (.cmd command _) => markOf command
  | _ => none

-- The garbage collector finds the object through `@marks` or through the
-- snapshot of the call.
def Held (s : Sys) (i : Nat) (o : Obj) : Prop := o ∈ s.family.marks ∨ o ∈ (s.frames i).snapshot

instance (s : Sys) (i : Nat) (o : Obj) : Decidable (Held s i o) := inferInstanceAs (Decidable (_ ∨ _))

def Kept (w : World) : Label → Prop
  | .perform i _ => ∀ o ∈ w.yields i, Held w.state.sys i o
  | _ => True

-- What is yielded is not just being registered, and a write to `@marks` lets
-- go of nothing that a wait call has yet to yield, unless its snapshot has it.
def Careful (w : World) : Label → Prop
  | .perform i _ =>
      (∀ o ∈ w.yields i, o ∈ w.state.storing.map Prod.snd → Held w.state.sys i o) ∧
        ∀ write ∈ w.writes i, ∀ j < w.calls.length, ∀ event ∈ (w.state.sys.frames j).buf,
          event.2 ∈ w.state.sys.family.marks → event.2 ∈ w.state.sys.family.marks.set write.1 write.2 ∨
            event.2 ∈ (w.state.sys.frames j).snapshot
  | _ => True

instance (w : World) (label : Label) : Decidable (Kept w label) :=
  match label with
  | .perform i _ => inferInstanceAs (Decidable (∀ o ∈ w.yields i, Held w.state.sys i o))
  | .begin _ | .openIo _ | .closeIo _ => isTrue trivial

instance (w : World) (label : Label) : Decidable (Careful w label) :=
  match label with
  | .perform i _ => inferInstanceAs (Decidable (
      (∀ o ∈ w.yields i, o ∈ w.state.storing.map Prod.snd → Held w.state.sys i o) ∧
        ∀ write ∈ w.writes i, ∀ j < w.calls.length, ∀ event ∈ (w.state.sys.frames j).buf,
          event.2 ∈ w.state.sys.family.marks → event.2 ∈ w.state.sys.family.marks.set write.1 write.2 ∨
            event.2 ∈ (w.state.sys.frames j).snapshot))
  | .begin _ | .openIo _ | .closeIo _ => isTrue trivial

-- The process has one open Epoll. `@marks` pins what the kernel can hand back,
-- but for the registration that is being stored.
structure Base (s : State) : Prop where
  member : s.sys.family.members = [⟨0, s.sys.self⟩]
  handle : s.sys.family.handles = [⟨0, false, true, s.sys.self⟩]
  made : 0 < s.sys.kernel.insts.length
  ordinary : Ordinary s.sys.objects
  plain : s.sys.oracle.answers = []
  free : s.sys.family.mutex = none → s.storing = none
  pinned : ∀ fd entry, s.sys.interestAt 0 fd = some entry →
    s.sys.family.marks.get fd = some entry.obj ∨ s.storing = some (fd, entry.obj)

-- What call `i` may rely on between two of its commands. While it holds `@mtx`
-- nobody else writes `@marks` or registers anything.
structure Rely (i : Nat) (s s' : State) : Prop where
  base : Base s'
  self : s'.sys.self = s.sys.self
  frame : s'.sys.frames i = s.sys.frames i
  born : s.sys.objects.born ≤ s'.sys.objects.born
  fileno : ∀ o fd, o < s.sys.objects.born → s'.sys.objects.fileno o = some fd →
    s.sys.objects.fileno o = some fd
  mutex : s.sys.family.mutex = some i → s'.sys.family.mutex = some i
  marks : s.sys.family.mutex = some i → s'.sys.family.marks = s.sys.family.marks
  storing : s.sys.family.mutex = some i → s'.storing = s.storing
  interest : s.sys.family.mutex = some i → ∀ fd entry, s'.sys.interestAt 0 fd = some entry →
    ∃ before, s.sys.interestAt 0 fd = some before ∧ before.obj = entry.obj

theorem Rely.trans {i : Nat} {a b c : State} (h : Rely i a b) (h' : Rely i b c) : Rely i a c := by
  refine ⟨h'.base, h'.self.trans h.self, h'.frame.trans h.frame, Nat.le_trans h.born h'.born,
    fun o fd ho hc => ?_, fun hm => h'.mutex (h.mutex hm), fun hm => ?_, fun hm => ?_,
      fun hm fd entry he => ?_⟩
  · exact h.fileno o fd ho (h'.fileno o fd (Nat.lt_of_lt_of_le ho h.born) hc)
  · exact (h'.marks (h.mutex hm)).trans (h.marks hm)
  · exact (h'.storing (h.mutex hm)).trans (h.storing hm)
  · obtain ⟨later, hl, heq⟩ := h'.interest (h.mutex hm) fd entry he
    obtain ⟨before, hb, heq'⟩ := h.interest hm fd later hl
    exact ⟨before, hb, heq'.trans heq⟩

-- Commands that change nothing but `@events`.
def reads : {β : Type} → Cmd β → Bool
  | _, .self | _, .getPid _ | _, .getIo _ | _, .closed _ | _, .getCopies | _, .getMarks
  | _, .getMark _ | _, .getEvents _ | _, .setEvents _ _ | _, .fileno _ | _, .isClosed _
  | _, .same _ _ => true
  | _, _ => false

-- What each command of call `i` must find. `@mtx` is given back with every
-- registration stored.
def Guard (i : Nat) : (β : Type) → State → Cmd β → Prop
  | _, s, .unlock => s.sys.family.mutex = some i ∧
      ∀ fd o, s.storing = some (fd, o) → s.sys.family.marks.get fd = some o
  | _, s, .setMark fd mark => s.sys.family.mutex = some i ∧
      (∀ entry, s.sys.interestAt 0 fd = some entry → mark = some entry.obj) ∧
      ∀ fd' o, s.storing = some (fd', o) → fd' = fd ∧ mark = some o
  | _, s, .epollCtl _ _ _ _ => s.sys.family.mutex = some i ∧ s.storing = none
  | _, s, .setSnapshot _ => (s.sys.frames i).buf = []
  | _, _, .lock | _, _, .epollWait _ _ | _, _, .yieldNext | _, _, .putBuf => True
  | _, _, command => reads command = true

-- Nothing changed but `@events`, the log and the outcomes that are left.
structure Near (s s' : Sys) : Prop where
  self : s'.self = s.self
  members : s'.family.members = s.family.members
  handles : s'.family.handles = s.family.handles
  marks : s'.family.marks = s.family.marks
  mutex : s'.family.mutex = s.family.mutex
  insts : s'.kernel.insts = s.kernel.insts
  objects : s'.objects = s.objects
  answers : s.oracle.answers = [] → s'.oracle.answers = []
  frames : s'.frames = s.frames

def withFrame (s : Sys) (i : Nat) (frame : Frame) : Sys :=
  { s with frames := Function.update s.frames i frame }

theorem withFrame_self (s : Sys) (i : Nat) (frame : Frame) : (withFrame s i frame).frames i = frame :=
  Function.update_self ..

theorem withFrame_of_ne (s : Sys) {i j : Nat} (frame : Frame) (h : j ≠ i) :
    (withFrame s i frame).frames j = s.frames j :=
  Function.update_of_ne h ..

-- What a command of call `i` does where it finds what it must.
inductive Effect (i : Nat) (s : State) : {β : Type} → Cmd β → State → Prop
  | quiet {β : Type} {command : Cmd β} {q : Sys} (hq : Near s.sys q) : Effect i s command ⟨q, s.storing⟩
  | locked (hfree : s.sys.family.mutex = none) :
      Effect i s .lock ⟨s.sys.withMutex (some i), s.storing⟩
  | unlocked (hmine : s.sys.family.mutex = some i)
      (hstored : ∀ fd o, s.storing = some (fd, o) → s.sys.family.marks.get fd = some o) :
      Effect i s .unlock ⟨s.sys.withMutex none, none⟩
  | stored {fd : Fd} {mark : Option Obj} (hmine : s.sys.family.mutex = some i)
      (hentry : ∀ entry, s.sys.interestAt 0 fd = some entry → mark = some entry.obj)
      (hstoring : ∀ fd' o, s.storing = some (fd', o) → fd' = fd ∧ mark = some o) :
      Effect i s (.setMark fd mark) ⟨{ s.sys with family.marks := s.sys.family.marks.set fd mark }, none⟩
  | registered {ep mask : Nat} {op : CtlOp} {io : Obj} {ev : EventArg} {q : Sys} {fd : Fd}
      (hq : Near s.sys q)
      (hmine : s.sys.family.mutex = some i) (hnone : s.storing = none)
      (hfd : s.sys.objects.fileno io = some fd) :
      Effect i s (.epollCtl ep op io ev)
        ⟨q.setInterest 0 ((s.sys.interestAt 0).register fd io mask), some (fd, io)⟩
  | removed {ep : Nat} {op : CtlOp} {io : Obj} {ev : EventArg} {q : Sys} {fd : Fd} (hq : Near s.sys q)
      (hmine : s.sys.family.mutex = some i) (hnone : s.storing = none) :
      Effect i s (.epollCtl ep op io ev) ⟨q.setInterest 0 ((s.sys.interestAt 0).remove fd), none⟩
  | waited {ep : Nat} {maxevents : Int} {q : Sys} {ready : List (Fd × Nat)} (hq : Near s.sys q) :
      Effect i s (.epollWait ep maxevents)
        ⟨withFrame (q.setInterest 0 (Sys.deliver (s.sys.interestAt 0) ready).2) i
          ⟨(s.sys.frames i).snapshot, (Sys.deliver (s.sys.interestAt 0) ready).1⟩, s.storing⟩
  | framed {β : Type} {command : Cmd β} {q : Sys} {frame : Frame} (hq : Near s.sys q)
      (hbuf : ∀ event ∈ frame.buf, event ∈ (s.sys.frames i).buf)
      (hsnapshot : frame.buf = [] ∨ frame.snapshot = (s.sys.frames i).snapshot) :
      Effect i s command ⟨withFrame q i frame, s.storing⟩

section Commands

variable {i : Nat} {s s' : State}

theorem Near.refl (s : Sys) : Near s s := ⟨rfl, rfl, rfl, rfl, rfl, rfl, rfl, id, rfl⟩

theorem near_of_quiet {x : Handle} {s q : Sys} (h : Quiet x s q) : Near s q := by
  have hf := h.family
  refine ⟨h.self, ?_, ?_, ?_, ?_, h.insts, h.objects, h.plain, h.frames⟩ <;> rw [hf]

-- There is one IO, on the first instance.
theorem Base.handle_eq (hb : Base s) {ep : Nat} {x : Handle} (hx : s.sys.family.handles[ep]? = some x) :
    x = ⟨0, false, true, s.sys.self⟩ := by
  rw [hb.handle] at hx
  exact List.mem_singleton.mp (List.mem_of_getElem? hx)

theorem epollCtl_cases (hb : Base s) {ep : Nat} {op : CtlOp} {io : Obj} {ev : EventArg}
    {answer : Except Err Unit} (h : perform i _ s (.epollCtl ep op io ev) = some (answer, s')) :
    (∃ e q, answer = .error e ∧ Near s.sys q ∧ s' = ⟨q, s.storing⟩) ∨
    (∃ q fd mask, answer = .ok () ∧ op ≠ .del ∧ Near s.sys q ∧ s.sys.objects.fileno io = some fd ∧
      s' = ⟨q.setInterest 0 ((s.sys.interestAt 0).register fd io mask), some (fd, io)⟩) ∨
    ∃ q fd, answer = .ok () ∧ op = .del ∧ Near s.sys q ∧ s.sys.objects.fileno io = some fd ∧
      s' = ⟨q.setInterest 0 ((s.sys.interestAt 0).remove fd), none⟩ := by
  obtain ⟨⟨answer', q⟩, he, heq⟩ := Option.map_eq_some_iff.mp h
  cases heq
  obtain ⟨x, hx, he⟩ := Option.bind_eq_some_iff.mp he
  obtain ⟨inst, hinst, he⟩ := Option.map_eq_some_iff.mp he
  obtain rfl := hb.handle_eq hx
  have hint := Sys.interestAt_of_getElem hinst
  rcases epctl_cases s.sys ⟨0, false, true, s.sys.self⟩ inst op io ev with
    ⟨e, q', hrun, hq⟩ | ⟨fd, mask, l, q', hrun, hq, _, ha, _, _, hl⟩
  · rw [hrun] at he
    cases he
    exact Or.inl ⟨e, q, rfl, near_of_quiet hq, rfl⟩
  · rw [hrun] at he
    cases he
    have hfd := ha hb.plain
    by_cases hop : op = .del
    · subst hop
      obtain rfl := Interest.ctl_remove hl
      exact Or.inr (Or.inr ⟨q', fd, rfl, rfl, near_of_quiet hq, hfd, by rw [hint]; rfl⟩)
    · obtain rfl := Interest.ctl_register hl hop
      refine Or.inr (Or.inl ⟨q', fd, mask, rfl, hop, near_of_quiet hq, hfd, ?_⟩)
      rw [hint]
      simp only [State.stores, if_neg hop, hfd, Option.map_some]

theorem epwait_cases (s : Sys) (t : Nat) (x : Handle) (inst : Inst) (maxevents : Int) :
    (∃ answer q, s.epwait t x inst maxevents = (answer, q) ∧ Near s q) ∨
    ∃ answer q ready, s.epwait t x inst maxevents = (answer,
        withFrame (q.setInterest x.inst (Sys.deliver inst.interest ready).2) t
          ⟨(s.frames t).snapshot, (Sys.deliver inst.interest ready).1⟩) ∧ Near s q := by
  unfold Sys.epwait
  split
  · exact Or.inl ⟨_, s, rfl, Near.refl s⟩
  split
  · exact Or.inl ⟨_, s, rfl, Near.refl s⟩
  let called : Sys := { s with
    kernel.log := s.kernel.log ++ List.replicate ((Sys.interrupted s.oracle.waits).1 + 1)
      ⟨s.self, .epollWait, x.inst, x.owner⟩
    oracle.waits := (Sys.interrupted s.oracle.waits).2.2 }
  have hcalled : Near s called := ⟨rfl, rfl, rfl, rfl, rfl, rfl, rfl, id, rfl⟩
  cases hlast : (Sys.interrupted s.oracle.waits).2.1 with
  | some errno =>
      simp only [hlast]
      exact Or.inl ⟨_, called, rfl, hcalled⟩
  | none =>
      simp only [hlast]
      exact Or.inr ⟨_, called, s.oracle.ready.take maxevents.toNat, rfl, hcalled⟩

theorem epollWait_effect (hb : Base s) {ep : Nat} {maxevents : Int} {answer : Except Err Nat}
    (h : perform i _ s (.epollWait ep maxevents) = some (answer, s')) :
    Effect i s (.epollWait ep maxevents) s' := by
  obtain ⟨⟨answer', q⟩, he, heq⟩ := Option.map_eq_some_iff.mp h
  cases heq
  obtain ⟨x, hx, he⟩ := Option.bind_eq_some_iff.mp he
  obtain ⟨inst, hinst, he⟩ := Option.map_eq_some_iff.mp he
  obtain rfl := hb.handle_eq hx
  have hint := Sys.interestAt_of_getElem hinst
  rcases epwait_cases s.sys i ⟨0, false, true, s.sys.self⟩ inst maxevents with
    ⟨answer', q', hrun, hq⟩ | ⟨answer', q', ready, hrun, hq⟩
  · rw [hrun] at he
    cases he
    exact .quiet hq
  · rw [hrun] at he
    cases he
    rw [← hint]
    exact .waited hq

theorem reads_storing {β : Type} {command : Cmd β} {answer : β} (hread : reads command = true) :
    s.stores command answer = s.storing := by
  cases command <;> first | rfl | cases hread

theorem reads_guard {β : Type} {command : Cmd β} (hread : reads command = true) : Guard i β s command := by
  cases command <;> first | exact hread | cases hread

-- A read leaves everything as it was.
theorem reads_near {β : Type} {command : Cmd β} {answer : β} {s q : Sys} (hread : reads command = true)
    (hp : s.oracle.answers = []) (h : exec i β s command = some (answer, q)) : Near s q := by
  have hmap : ∀ {γ : Type} {o : Option γ} {f : γ → β}, o.map (fun x => (f x, s)) = some (answer, q) →
      Near s q := by
    intro γ o f hmap
    obtain ⟨x, _, heq⟩ := Option.map_eq_some_iff.mp hmap
    cases heq
    exact Near.refl s
  cases command with
  | getPid m => exact hmap h
  | getIo m => exact hmap h
  | closed io => exact hmap h
  | fileno o =>
      cases hfd : s.objects.fileno o with
      | none =>
          simp only [exec, answer_plain hp, hfd] at h
          cases h
          exact Near.refl s
      | some fd =>
          simp only [exec, answer_plain hp, hfd] at h
          cases h
          exact Near.refl s
  | isClosed o =>
      simp only [exec, answer_plain hp] at h
      cases h
      exact Near.refl s
  | setEvents fd events =>
      cases h
      exact ⟨rfl, rfl, rfl, rfl, rfl, rfl, rfl, id, rfl⟩
  | self | getCopies | getMarks | getMark | getEvents | same =>
      cases h
      exact Near.refl s
  | _ => cases hread

-- `yieldNext` drops the first event.
theorem yieldNext_effect {answer : Except Err Unit} (h : perform i _ s .yieldNext = some (answer, s')) :
    Effect i s .yieldNext s' := by
  obtain ⟨⟨answer', q⟩, he, heq⟩ := Option.map_eq_some_iff.mp h
  cases heq
  replace he : s.sys.yieldNext i = some (answer, q) := he
  unfold Sys.yieldNext at he
  cases hbuf : (s.sys.frames i).buf with
  | nil =>
      rw [hbuf] at he
      cases he
  | cons event rest =>
      let popped : Sys := { s.sys with oracle.blocks := s.sys.oracle.blocks.tail }
      have hpopped : Near s.sys popped := ⟨rfl, rfl, rfl, rfl, rfl, rfl, rfl, id, rfl⟩
      have hq : q = withFrame popped i ⟨(s.sys.frames i).snapshot, rest⟩ := by
        simp only [hbuf] at he
        split at he
        · cases he
          rfl
        · cases he
          rfl
      rw [hq]
      refine .framed hpopped (fun e he => ?_) (Or.inr rfl)
      rw [hbuf]
      exact List.mem_cons_of_mem _ he

theorem perform_effect {β : Type} {command : Cmd β} {answer : β} (hb : Base s) (hg : Guard i β s command)
    (h : perform i β s command = some (answer, s')) : Effect i s command s' := by
  cases hread : reads command with
  | true =>
      obtain ⟨⟨answer', q⟩, he, heq⟩ := Option.map_eq_some_iff.mp h
      have hq := reads_near hread hb.plain he
      cases heq
      rw [reads_storing hread]
      exact .quiet hq
  | false =>
      cases command with
      | lock =>
          obtain ⟨⟨answer', q⟩, he, heq⟩ := Option.map_eq_some_iff.mp h
          cases heq
          cases hm : s.sys.family.mutex with
          | none =>
              simp only [exec, hm] at he
              cases he
              exact .locked hm
          | some j =>
              simp only [exec, hm] at he
              cases he
      | unlock =>
          cases h
          exact .unlocked hg.1 hg.2
      | setMark fd mark =>
          cases h
          exact .stored hg.1 hg.2.1 hg.2.2
      | epollCtl ep op io ev =>
          rcases epollCtl_cases hb h with ⟨_, q, _, hq, rfl⟩ | ⟨q, fd, mask, _, _, hq, hfd, rfl⟩ |
            ⟨q, fd, _, _, hq, _, rfl⟩
          · exact .quiet hq
          · exact .registered hq hg.1 hg.2 hfd
          · exact .removed hq hg.1 hg.2
      | epollWait ep maxevents => exact epollWait_effect hb h
      | setSnapshot snapshot =>
          cases h
          have hbuf : (s.sys.frames i).buf = [] := hg
          have hframed : Effect i s (.setSnapshot snapshot)
              ⟨withFrame s.sys i ⟨snapshot, (s.sys.frames i).buf⟩, s.storing⟩ :=
            .framed (Near.refl s.sys) (fun _ he => he) (Or.inl hbuf)
          exact hframed
      | yieldNext => exact yieldNext_effect h
      | putBuf =>
          cases h
          have hframed : Effect i s .putBuf
              ⟨withFrame s.sys i ⟨(s.sys.frames i).snapshot, []⟩, s.storing⟩ :=
            .framed (Near.refl s.sys) (fun _ he => absurd he List.not_mem_nil) (Or.inl rfl)
          exact hframed
      | _ => exact absurd hg (by simp [Guard, hread])

theorem Base.near (hb : Base s) {q : Sys} (hq : Near s.sys q) : Base ⟨q, s.storing⟩ := by
  refine ⟨?_, ?_, ?_, ?_, hq.answers hb.plain, ?_, ?_⟩
  · rw [hq.members, hq.self]
    exact hb.member
  · rw [hq.handles, hq.self]
    exact hb.handle
  · rw [hq.insts]
    exact hb.made
  · rw [hq.objects]
    exact hb.ordinary
  · rw [hq.mutex]
    exact hb.free
  · rw [Sys.interestAt_congr hq.insts, hq.marks]
    exact hb.pinned

-- Only the interest list and what is being stored have changed.
theorem Base.relist (hb : Base s) {q : Sys} (hq : Near s.sys q) {interest : Interest}
    {storing : Option (Fd × Obj)} (hfree : s.sys.family.mutex = none → storing = none)
    (hpinned : ∀ fd entry, interest fd = some entry →
      s.sys.family.marks.get fd = some entry.obj ∨ storing = some (fd, entry.obj)) :
    Base ⟨q.setInterest 0 interest, storing⟩ := by
  have hnear := hb.near hq
  refine ⟨hnear.member, hnear.handle, ?_, hnear.ordinary, hnear.plain, ?_, ?_⟩
  · rw [Sys.setInterest, List.length_modify]
    exact hnear.made
  · intro hm
    exact hfree (hq.mutex.symm.trans hm)
  · rw [Sys.interestAt_setInterest hnear.made]
    intro fd entry he
    have hpin := hpinned fd entry he
    rw [← hq.marks] at hpin
    exact hpin

theorem Base.withFrame {q : Sys} {storing : Option (Fd × Obj)} (hb : Base ⟨q, storing⟩) (frame : Frame) :
    Base ⟨withFrame q i frame, storing⟩ :=
  ⟨hb.member, hb.handle, hb.made, hb.ordinary, hb.plain, hb.free, hb.pinned⟩

theorem Effect.base {β : Type} {command : Cmd β} (hb : Base s) (he : Effect i s command s') : Base s' := by
  cases he with
  | quiet hq => exact hb.near hq
  | locked hfree =>
      exact ⟨hb.member, hb.handle, hb.made, hb.ordinary, hb.plain, fun _ => hb.free hfree, hb.pinned⟩
  | unlocked hmine hstored =>
      refine ⟨hb.member, hb.handle, hb.made, hb.ordinary, hb.plain, fun _ => rfl, fun fd entry he => ?_⟩
      rcases hb.pinned fd entry he with hp | hp
      · exact Or.inl hp
      · exact Or.inl (hstored fd entry.obj hp)
  | @stored fd mark hmine hentry hstoring =>
      refine ⟨hb.member, hb.handle, hb.made, hb.ordinary, hb.plain, fun _ => rfl, fun other entry he => ?_⟩
      left
      rw [Slots.get_set]
      by_cases heq : other = fd
      · rw [if_pos heq]
        subst heq
        exact hentry entry he
      · rw [if_neg heq]
        rcases hb.pinned other entry he with hp | hp
        · exact hp
        · exact absurd (hstoring other entry.obj hp).1 heq
  | @registered ep mask op io ev q fd hq hmine hnone hfd =>
      refine hb.relist hq (fun hm => ?_) fun other entry he => ?_
      · rw [hmine] at hm
        cases hm
      · rw [Interest.register_apply] at he
        by_cases heq : other = fd
        · rw [if_pos heq] at he
          cases he
          exact Or.inr (by rw [heq])
        · rw [if_neg heq] at he
          refine (hb.pinned other entry he).imp id fun hs => ?_
          rw [hnone] at hs
          cases hs
  | @removed ep op io ev q fd hq hmine hnone =>
      refine hb.relist hq (fun _ => rfl) fun other entry he => ?_
      rw [Interest.remove_apply] at he
      by_cases heq : other = fd
      · rw [if_pos heq] at he
        cases he
      · rw [if_neg heq] at he
        exact (hb.pinned other entry he).imp id fun hs => hnone.symm.trans hs
  | waited hq =>
      refine (hb.relist hq hb.free fun other entry he => ?_).withFrame _
      obtain ⟨before, hbefore, hobj, _⟩ := Interest.entry_of_watched (Sys.deliver_watched ..) he
      rw [← hobj]
      exact hb.pinned other before hbefore
  | framed hq hbuf hsnapshot => exact (hb.near hq).withFrame _

theorem Rely.of_other {j : Nat} (hb : Base s') (hself : s'.sys.self = s.sys.self)
    (hframe : s'.sys.frames j = s.sys.frames j) (hobjects : s'.sys.objects = s.sys.objects)
    (hnot : s.sys.family.mutex ≠ some j) : Rely j s s' := by
  refine ⟨hb, hself, hframe, ?_, ?_, fun hm => absurd hm hnot, fun hm => absurd hm hnot,
    fun hm => absurd hm hnot, fun hm => absurd hm hnot⟩
  · exact Nat.le_of_eq (congrArg Objects.born hobjects).symm
  · rw [hobjects]
    exact fun _ _ _ h => h

theorem Rely.of_same {j : Nat} (hb : Base s') (hself : s'.sys.self = s.sys.self)
    (hframe : s'.sys.frames j = s.sys.frames j) (hobjects : s'.sys.objects = s.sys.objects)
    (hmutex : s'.sys.family.mutex = s.sys.family.mutex) (hmarks : s'.sys.family.marks = s.sys.family.marks)
    (hstoring : s'.storing = s.storing)
    (hw : (s'.sys.interestAt 0).watched = (s.sys.interestAt 0).watched) : Rely j s s' := by
  refine ⟨hb, hself, hframe, ?_, ?_, fun hm => hmutex.trans hm, fun _ => hmarks, fun _ => hstoring,
    fun _ fd entry he => ?_⟩
  · exact Nat.le_of_eq (congrArg Objects.born hobjects).symm
  · rw [hobjects]
    exact fun _ _ _ h => h
  · obtain ⟨before, hbefore, hobj, _⟩ := Interest.entry_of_watched hw he
    exact ⟨before, hbefore, hobj⟩

theorem Near.rely {q : Sys} {j : Nat} (hq : Near s.sys q) (hb : Base s) : Rely j s ⟨q, s.storing⟩ :=
  .of_same (hb.near hq) hq.self (congrFun hq.frames j) hq.objects hq.mutex hq.marks rfl
    (by rw [Sys.interestAt_congr hq.insts])

-- What another call sees of a command.
theorem Effect.rely {β : Type} {command : Cmd β} {j : Nat} (hb : Base s) (he : Effect i s command s')
    (hj : j ≠ i) : Rely j s s' := by
  have hother : s.sys.family.mutex = some i → s.sys.family.mutex ≠ some j := by
    intro hmine hm
    exact hj (Option.some.inj (hm.symm.trans hmine))
  have hframe : ∀ {q : Sys} {frame : Frame}, q.frames = s.sys.frames →
      (withFrame q i frame).frames j = s.sys.frames j := by
    intro q frame hframes
    rw [withFrame_of_ne _ _ hj, hframes]
  have hbase := he.base hb
  cases he with
  | quiet hq => exact hq.rely hb
  | locked hfree => exact .of_other hbase rfl rfl rfl (by simp [hfree])
  | unlocked hmine hstored => exact .of_other hbase rfl rfl rfl (hother hmine)
  | stored hmine hentry hstoring => exact .of_other hbase rfl rfl rfl (hother hmine)
  | registered hq hmine hnone hfd =>
      exact .of_other hbase hq.self (congrFun hq.frames j) hq.objects (hother hmine)
  | removed hq hmine hnone =>
      exact .of_other hbase hq.self (congrFun hq.frames j) hq.objects (hother hmine)
  | waited hq =>
      refine .of_same hbase hq.self (hframe hq.frames) hq.objects hq.mutex hq.marks rfl ?_
      refine (congrArg Interest.watched (Sys.interestAt_setInterest (hb.near hq).made _)).trans ?_
      exact Sys.deliver_watched ..
  | framed hq hbuf hsnapshot =>
      refine .of_same hbase hq.self (hframe hq.frames) hq.objects hq.mutex hq.marks rfl ?_
      exact congrArg Interest.watched (Sys.interestAt_congr hq.insts 0)

-- What a wait call has yet to yield is held, or is just being stored.
def Buffered (s : State) : Prop :=
  ∀ j, ∀ event ∈ (s.sys.frames j).buf, Held s.sys j event.2 ∨ ∃ fd, s.storing = some (fd, event.2)

theorem Effect.buffered {β : Type} {command : Cmd β} (hb : Base s) (h : Buffered s)
    (he : Effect i s command s')
    (hcare : ∀ write ∈ markOf command, ∀ j, ∀ event ∈ (s.sys.frames j).buf,
      event.2 ∈ s.sys.family.marks → event.2 ∈ s.sys.family.marks.set write.1 write.2 ∨
        event.2 ∈ (s.sys.frames j).snapshot) : Buffered s' := by
  have hnear : ∀ {q : Sys}, q.frames = s.sys.frames → q.family.marks = s.sys.family.marks →
      Buffered ⟨q, s.storing⟩ := by
    intro q hframes hmarks j event hmem
    rw [hframes] at hmem
    rw [Held, hmarks, hframes]
    exact h j event hmem
  have hnone : ∀ {q : Sys} {storing : Option (Fd × Obj)}, s.storing = none → q.frames = s.sys.frames →
      q.family.marks = s.sys.family.marks → Buffered ⟨q, storing⟩ := by
    intro q storing hs hframes hmarks j event hmem
    left
    rcases hnear hframes hmarks j event hmem with hheld | ⟨fd, hfd⟩
    · exact hheld
    · rw [hs] at hfd
      cases hfd
  cases he with
  | quiet hq => exact hnear hq.frames hq.marks
  | locked hfree => exact h
  | unlocked hmine hstored =>
      intro j event hmem
      left
      rcases h j event hmem with hheld | ⟨fd, hfd⟩
      · exact hheld
      · exact Or.inl (Slots.mem_of_get (hstored fd event.2 hfd))
  | @stored fd mark hmine hentry hstoring =>
      intro j event hmem
      left
      rcases h j event hmem with (hmarks | hsnapshot) | ⟨fd', hfd⟩
      · exact hcare (fd, mark) rfl j event hmem hmarks
      · exact Or.inr hsnapshot
      · obtain ⟨_, rfl⟩ := hstoring fd' event.2 hfd
        exact Or.inl (Slots.mem_of_get (Slots.get_set_self ..))
  | registered hq hmine hs hfd => exact hnone hs hq.frames hq.marks
  | removed hq hmine hs => exact hnone hs hq.frames hq.marks
  | @waited ep maxevents q ready hq =>
      intro j event hmem
      by_cases hj : j = i
      · subst hj
        rw [withFrame_self] at hmem
        obtain ⟨fd, entry, hentry, hobj⟩ := Sys.deliver_obj event hmem
        rcases hb.pinned fd entry hentry with hp | hp
        · exact Or.inl (Or.inl (Slots.mem_of_get (hobj ▸ hq.marks ▸ hp)))
        · exact Or.inr ⟨fd, hobj ▸ hp⟩
      · rw [withFrame_of_ne _ _ hj] at hmem
        rw [Held, withFrame_of_ne _ _ hj]
        exact hnear hq.frames hq.marks j event hmem
  | @framed β command q frame hq hbuf hsnapshot =>
      intro j event hmem
      by_cases hj : j = i
      · subst hj
        rw [withFrame_self] at hmem
        rw [Held, withFrame_self]
        have hold := hnear hq.frames hq.marks j event
        rw [Held, hq.frames] at hold
        rcases hsnapshot with hempty | hsame
        · rw [hempty] at hmem
          cases hmem
        · rw [hsame]
          exact hold (hbuf event hmem)
      · rw [withFrame_of_ne _ _ hj] at hmem
        rw [Held, withFrame_of_ne _ _ hj]
        exact hnear hq.frames hq.marks j event hmem

end Commands

end SleepyPenguin.Epoll.Threads
