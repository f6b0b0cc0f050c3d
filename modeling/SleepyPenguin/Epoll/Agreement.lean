import SleepyPenguin.Epoll.Completion

-- Threads that call the methods of a family of Epoll objects in one process: the
-- tables agree with the kernel whenever `@mtx` is free.
namespace SleepyPenguin.Epoll.Agreement

open Foundation Foundation.Prog Schedule

-- The two tables say what the epoll instance is watching.
def Fits (marks : Slots Obj) (events : Slots EventArg) (s : Sys) : Prop :=
  Describes marks events s.objects (s.interestAt 0) ∧ ∀ fd ev, events.get fd = some ev → Masked ev

-- The family has not been through a fork; who holds `@mtx` may be in between two
-- writes.
structure Home (s : Sys) : Prop where
  member : ∀ member ∈ s.family.members, member.pid = s.self
  handle : ∀ x ∈ s.family.handles, x.inst = 0
  made : 0 < s.kernel.insts.length
  ordinary : Ordinary s.objects
  plain : s.oracle.answers = []
  free : s.family.mutex = none → Fits s.family.marks s.family.events s

-- What call `t` may rely on: while it holds `@mtx` the tables stay, and watched
-- IOs that come and go leave what fitted fitting.
structure Rely (t : Nat) (s s' : Sys) : Prop where
  home : Home s'
  self : s'.self = s.self
  born : s.objects.born ≤ s'.objects.born
  fileno : ∀ o fd, o < s.objects.born → s'.objects.fileno o = some fd → s.objects.fileno o = some fd
  mutex : s.family.mutex = some t → s'.family.mutex = some t
  marks : s.family.mutex = some t → s'.family.marks = s.family.marks
  events : s.family.mutex = some t → s'.family.events = s.family.events
  fits : s.family.mutex = some t → ∀ marks events, Fits marks events s → Fits marks events s'

-- Commands that touch neither the tables nor what is watched nor `@mtx`.
def calm : {β : Type} → Cmd β → Bool
  | _, .self | _, .getPid _ | _, .getIo _ | _, .setIo _ _ | _, .allocate _ | _, .discard => true
  | _, .dup _ | _, .close _ | _, .closed _ | _, .autocloseOff _ | _, .getCopies | _, .setCopies _ => true
  | _, .getMarks | _, .getMark _ | _, .getEvents _ | _, .fileno _ | _, .isClosed _ | _, .same _ _ => true
  | _, .epollWait _ _ | _, .setSnapshot _ | _, .yieldNext | _, .putBuf => true
  | _, _ => false

-- What each command of call `t` must find. `@mtx` is given back with tables that
-- fit.
def Guard (t : Nat) : (β : Type) → Sys → Cmd β → Prop
  | _, _, .lock => True
  | _, s, .unlock => s.family.mutex = some t ∧ Fits s.family.marks s.family.events s
  | _, s, .setMark _ _ | _, s, .setEvents _ _ | _, s, .epollCtl _ _ _ _ => s.family.mutex = some t
  | _, _, command => calm command = true

-- What a calm command leaves as it was.
structure Calm (s s' : Sys) : Prop where
  self : s'.self = s.self
  member : ∀ member ∈ s'.family.members, member.pid = s.self
  handle : ∀ x ∈ s'.family.handles, x.inst = 0
  made : 0 < s'.kernel.insts.length
  marks : s'.family.marks = s.family.marks
  events : s'.family.events = s.family.events
  mutex : s'.family.mutex = s.family.mutex
  objects : s'.objects = s.objects
  plain : s'.oracle.answers = []
  fits : ∀ marks events, Fits marks events s → Fits marks events s'

section Commands

variable {t : Nat} {s s' s'' : Sys}

theorem Fits.congr {marks : Slots Obj} {events : Slots EventArg} (h : Fits marks events s)
    (hobjects : s'.objects = s.objects) (hinsts : s'.kernel.insts = s.kernel.insts) :
      Fits marks events s' := by
  refine ⟨?_, h.2⟩
  rw [hobjects, Sys.interestAt_congr hinsts]
  exact h.1

theorem Rely.trans (h : Rely t s s') (h' : Rely t s' s'') : Rely t s s'' := by
  refine ⟨h'.home, h'.self.trans h.self, Nat.le_trans h.born h'.born, fun o fd ho hf => ?_,
    fun hm => h'.mutex (h.mutex hm), fun hm => ?_, fun hm => ?_, fun hm marks events hf => ?_⟩
  · exact h.fileno o fd ho (h'.fileno o fd (Nat.lt_of_lt_of_le ho h.born) hf)
  · exact (h'.marks (h.mutex hm)).trans (h.marks hm)
  · exact (h'.events (h.mutex hm)).trans (h.events hm)
  · exact h'.fits (h.mutex hm) marks events (h.fits hm marks events hf)

theorem Calm.home (h : Calm s s') (hh : Home s) : Home s' := by
  refine ⟨fun member hm => (h.member member hm).trans h.self.symm, h.handle, h.made, ?_, h.plain,
    fun hm => ?_⟩
  · rw [h.objects]
    exact hh.ordinary
  · rw [h.marks, h.events]
    exact h.fits _ _ (hh.free (h.mutex.symm.trans hm))

theorem Calm.rely (h : Calm s s') (hh : Home s) : Rely t s s' := by
  refine ⟨h.home hh, h.self, ?_, fun o fd _ hf => ?_, h.mutex.trans, fun _ => h.marks, fun _ => h.events,
    fun _ => h.fits⟩
  · rw [h.objects]
  · rw [h.objects] at hf
    exact hf

theorem Rely.refl (hh : Home s) : Rely t s s :=
  ⟨hh, rfl, Nat.le_refl _, fun _ _ _ hf => hf, id, fun _ => rfl, fun _ => rfl, fun _ _ _ hf => hf⟩

-- A write under `@mtx`, for whoever does not hold it.
theorem rely_of_held {j : Nat} (hmine : s.family.mutex = some t) (hj : j ≠ t) (hh : Home s')
    (hself : s'.self = s.self) (hobjects : s'.objects = s.objects) : Rely j s s' := by
  have hnot : s.family.mutex ≠ some j := by
    rw [hmine]
    intro heq
    exact hj (Option.some.inj heq).symm
  refine ⟨hh, hself, ?_, fun o fd _ hf => ?_, fun hm => absurd hm hnot, fun hm => absurd hm hnot,
    fun hm => absurd hm hnot, fun hm => absurd hm hnot⟩
  · rw [hobjects]
  · rw [hobjects] at hf
    exact hf

-- Members and IOs may have changed, the rest has not.
theorem calm_of_family (hh : Home s) (hself : s'.self = s.self)
    (hmember : ∀ member ∈ s'.family.members, member.pid = s.self)
    (hhandle : ∀ x ∈ s'.family.handles, x.inst = 0) (hmarks : s'.family.marks = s.family.marks)
    (hevents : s'.family.events = s.family.events) (hmutex : s'.family.mutex = s.family.mutex)
    (hinsts : s'.kernel.insts = s.kernel.insts) (hobjects : s'.objects = s.objects)
    (hanswers : s'.oracle.answers = s.oracle.answers) : Calm s s' := by
  refine ⟨hself, hmember, hhandle, ?_, hmarks, hevents, hmutex, hobjects, hanswers.trans hh.plain,
    fun _ _ hf => hf.congr hobjects hinsts⟩
  rw [hinsts]
  exact hh.made

theorem calm_refl (hh : Home s) : Calm s s :=
  calm_of_family hh rfl hh.member hh.handle rfl rfl rfl rfl rfl rfl

-- A system call that changed nothing but the log and the outcomes left.
theorem calm_of_quiet {x : Handle} (hh : Home s) (h : Quiet x s s') : Calm s s' := by
  refine ⟨h.self, ?_, ?_, ?_, ?_, ?_, ?_, h.objects, h.plain hh.plain,
    fun _ _ hf => hf.congr h.objects h.insts⟩
  · rw [h.family]
    exact hh.member
  · rw [h.family]
    exact hh.handle
  · rw [h.insts]
    exact hh.made
  all_goals rw [h.family]

theorem calm_dup {io : Nat} {x : Handle} (hh : Home s) (hx : s.family.handles[io]? = some x) :
    Calm s (s.dup x).2 := by
  cases hc : x.closed with
  | true =>
      rw [s.dup_closed hc]
      exact calm_refl hh
  | false =>
      rcases s.dup_open hc with ⟨errno, _, hdup⟩ | ⟨_, hdup⟩
      · rw [hdup]
        exact calm_of_family hh rfl hh.member hh.handle rfl rfl rfl rfl rfl rfl
      · rw [hdup]
        refine calm_of_family hh rfl hh.member ?_ rfl rfl rfl rfl rfl rfl
        exact List.forall_mem_concat hh.handle (hh.handle x (List.mem_of_getElem? hx))

theorem calm_close {io : Nat} {x : Handle} (hh : Home s) (hx : s.family.handles[io]? = some x) :
    Calm s (s.close io x).2 := by
  obtain ⟨outcome, calls, closes, hclose, _, _⟩ := Sys.close_cases hx
  rw [hclose]
  refine calm_of_family hh rfl hh.member ?_ rfl rfl rfl rfl rfl rfl
  exact List.forall_mem_set hh.handle (hh.handle x (List.mem_of_getElem? hx))

theorem calm_autocloseOff {io : Nat} {x : Handle} (hh : Home s) (hx : s.family.handles[io]? = some x) :
    Calm s (s.autocloseOff io x).2 := by
  unfold Sys.autocloseOff
  split
  · exact calm_refl hh
  · refine calm_of_family hh rfl hh.member ?_ rfl rfl rfl rfl rfl rfl
    exact List.forall_mem_set hh.handle (hh.handle x (List.mem_of_getElem? hx))

theorem fits_refired {q : Sys} {interest : Interest} (hh : Home s) (hobjects : q.objects = s.objects)
    (hinsts : q.kernel.insts = s.kernel.insts) (hw : interest.watched = (s.interestAt 0).watched)
    (hspent : (∀ fd entry, s.interestAt 0 fd = some entry → Interest.Spent entry) →
      ∀ fd entry, interest fd = some entry → Interest.Spent entry)
    {marks : Slots Obj} {events : Slots EventArg} (hf : Fits marks events s) :
    Fits marks events (q.setInterest 0 interest) := by
  refine ⟨?_, hf.2⟩
  rw [Sys.interestAt_setInterest (by rw [hinsts]; exact hh.made)]
  show Describes marks events q.objects interest
  rw [hobjects]
  exact hf.1.refire hw (hspent hf.1.spent)

theorem calm_wait {x : Handle} {inst : Inst} (hh : Home s) (hx : x.inst = 0)
    (hinst : s.kernel.insts[x.inst]? = some inst) (maxevents : Int) :
    Calm s (s.epwait t x inst maxevents).2 := by
  have hint := Sys.interestAt_of_getElem (hx ▸ hinst)
  unfold Sys.epwait
  split
  · exact calm_refl hh
  split
  · exact calm_refl hh
  rcases Sys.interrupted s.oracle.waits with ⟨count, last, left⟩
  cases last with
  | some errno => exact calm_of_family hh rfl hh.member hh.handle rfl rfl rfl rfl rfl rfl
  | none =>
      refine ⟨rfl, hh.member, hh.handle, ?_, rfl, rfl, rfl, rfl, hh.plain, fun marks events hf => ?_⟩
      · exact (List.length_modify ..).symm ▸ hh.made
      · let delivered := Sys.deliver inst.interest (s.oracle.ready.take maxevents.toNat)
        have hfits : Fits marks events (s.setInterest 0 delivered.2) := by
          apply fits_refired hh rfl rfl
          · rw [hint]
            exact Sys.deliver_watched ..
          · rw [hint]
            exact Sys.deliver_spent
          · exact hf
        refine hfits.congr rfl ?_
        simp only [Sys.setInterest, hx, delivered]

theorem calm_yield {step : Except Err Unit × Sys} (hh : Home s) (h : s.yieldNext t = some step) :
    Calm s step.2 := by
  unfold Sys.yieldNext at h
  split at h
  · cases h
  · simp only at h
    split at h
    all_goals
      cases h
      exact calm_of_family hh rfl hh.member hh.handle rfl rfl rfl rfl rfl rfl

-- What a calm command does.
theorem calm_effect {β : Type} {command : Cmd β} {step : β × Sys} (hh : Home s)
    (hcalm : calm command = true)
    (h : Schedule.perform t β s command = some step) : Calm s step.2 := by
  have hsame := calm_refl hh
  cases command with
  | self | getCopies | getMarks | getMark _ | getEvents _ | same _ _ | discard =>
      cases h
      exact hsame
  | getPid _ | getIo _ | closed _ =>
      obtain ⟨x, _, rfl⟩ := Option.map_eq_some_iff.mp h
      exact hsame
  | setIo m io =>
      obtain ⟨member, hm, rfl⟩ := Option.map_eq_some_iff.mp h
      refine calm_of_family hh rfl ?_ hh.handle rfl rfl rfl rfl rfl rfl
      exact List.forall_mem_set hh.member (hh.member member (List.mem_of_getElem? hm))
  | allocate m =>
      obtain ⟨member, hm, rfl⟩ := Option.map_eq_some_iff.mp h
      refine calm_of_family hh rfl ?_ hh.handle rfl rfl rfl rfl rfl rfl
      exact List.forall_mem_concat hh.member (hh.member member (List.mem_of_getElem? hm))
  | dup io =>
      obtain ⟨x, hx, rfl⟩ := Option.map_eq_some_iff.mp h
      exact calm_dup hh hx
  | close io =>
      obtain ⟨x, hx, rfl⟩ := Option.map_eq_some_iff.mp h
      exact calm_close hh hx
  | autocloseOff io =>
      obtain ⟨x, hx, rfl⟩ := Option.map_eq_some_iff.mp h
      exact calm_autocloseOff hh hx
  | fileno obj =>
      simp only [Schedule.perform, exec, answer_plain hh.plain] at h
      cases hf : s.objects.fileno obj with
      | none =>
          rw [hf] at h
          cases h
          exact hsame
      | some fd =>
          rw [hf] at h
          cases h
          exact hsame
  | isClosed obj =>
      simp only [Schedule.perform, exec, answer_plain hh.plain] at h
      cases h
      exact hsame
  | epollWait io maxevents =>
      obtain ⟨x, hx, hstep⟩ := Option.bind_eq_some_iff.mp h
      obtain ⟨inst, hinst, rfl⟩ := Option.map_eq_some_iff.mp hstep
      exact calm_wait hh (hh.handle x (List.mem_of_getElem? hx)) hinst maxevents
  | setCopies _ | setSnapshot _ | putBuf =>
      cases h
      exact calm_of_family hh rfl hh.member hh.handle rfl rfl rfl rfl rfl rfl
  | yieldNext => exact calm_yield hh h
  | _ => cases hcalm

-- An epoll_ctl that is refused, and one that is not.
theorem epollCtl_cases {ep : Nat} {op : CtlOp} {io : Obj} {ev : EventArg} {answer : Except Err Unit}
    (hh : Home s) (h : Schedule.perform t _ s (.epollCtl ep op io ev) = some (answer, s')) :
    (∃ e, answer = .error e ∧ Calm s s') ∨
    ∃ q fd mask interest, answer = .ok () ∧ Calm s q ∧ s.objects.fileno io = some fd ∧
      ev.toUint = .ok mask ∧ (s.interestAt 0).ctl op fd io mask = .ok interest ∧
      s' = q.setInterest 0 interest := by
  obtain ⟨x, hx, h⟩ := Option.bind_eq_some_iff.mp h
  obtain ⟨inst, hinst, h⟩ := Option.map_eq_some_iff.mp h
  have hzero := hh.handle x (List.mem_of_getElem? hx)
  have hint := Sys.interestAt_of_getElem (hzero ▸ hinst)
  rcases epctl_cases s x inst op io ev with ⟨e, q, hrun, hq⟩ |
    ⟨fd, mask, interest, q, hrun, hq, _, ha, hmask, _, hctl⟩
  · rw [hrun] at h
    cases h
    exact Or.inl ⟨e, rfl, calm_of_quiet hh hq⟩
  · rw [hrun] at h
    cases h
    refine Or.inr ⟨q, fd, mask, interest, rfl, calm_of_quiet hh hq, ha hh.plain, hmask, ?_, by rw [hzero]⟩
    rw [hint]
    exact hctl

-- Whoever holds `@mtx` may change what is watched.
theorem home_relisted {q : Sys} (hh : Home s) (hq : Calm s q) (hmine : s.family.mutex = some t)
    (interest : Interest) : Home (q.setInterest 0 interest) := by
  have hhome := hq.home hh
  refine ⟨hhome.member, hhome.handle, ?_, hhome.ordinary, hhome.plain, fun hfree => ?_⟩
  · exact (List.length_modify ..).symm ▸ hhome.made
  · rw [← hq.mutex] at hmine
    cases hmine.symm.trans hfree

theorem fits_registered {q : Sys} {io : Obj} {fd : Fd} {ev : EventArg} {mask : Nat} {marks : Slots Obj}
    {events : Slots EventArg} (hh : Home s) (hq : Calm s q) (hf : Fits marks events s)
    (hfd : s.objects.fileno io = some fd) (hmask : ev.toUint = .ok mask) (hmasked : Masked ev) :
    Fits (marks.set fd (some io)) (events.set fd (some ev))
      (q.setInterest 0 ((s.interestAt 0).register fd io mask)) := by
  refine ⟨?_, fun other ev' hev => ?_⟩
  · rw [Sys.interestAt_setInterest hq.made]
    show Describes _ _ q.objects _
    rw [hq.objects]
    exact hf.1.register hh.ordinary hfd hmask
  · rw [Slots.get_set] at hev
    split at hev
    · cases hev
      exact hmasked
    · exact hf.2 other ev' hev

theorem fits_removed {q : Sys} {fd : Fd} {marks : Slots Obj} {events : Slots EventArg} (hq : Calm s q)
    (hf : Fits marks events s) :
    Fits (marks.set fd none) (events.set fd none) (q.setInterest 0 ((s.interestAt 0).remove fd)) := by
  refine ⟨?_, fun other ev' hev => ?_⟩
  · rw [Sys.interestAt_setInterest hq.made]
    show Describes _ _ q.objects _
    rw [hq.objects]
    exact hf.1.remove
  · rw [Slots.get_set] at hev
    split at hev
    · cases hev
    · exact hf.2 other ev' hev

-- A write to a table under `@mtx`.
theorem home_written (hh : Home s) (hmine : s.family.mutex = some t) (marks : Slots Obj)
    (events : Slots EventArg) :
    Home { s with
      family.marks := marks
      family.events := events } :=
  ⟨hh.member, hh.handle, hh.made, hh.ordinary, hh.plain, fun hfree => by cases hmine.symm.trans hfree⟩

-- A command that meets its guard, and what the others see of it.
theorem perform_home {β : Type} {command : Cmd β} {step : β × Sys} (hh : Home s) (hg : Guard t β s command)
    (h : Schedule.perform t β s command = some step) : Home step.2 ∧ ∀ j, j ≠ t → Rely j s step.2 := by
  by_cases hcalm : calm command = true
  · have hc := calm_effect hh hcalm h
    exact ⟨hc.home hh, fun _ _ => hc.rely hh⟩
  · cases command with
    | lock =>
        obtain ⟨hfree, rfl⟩ := lock_step h
        have hhome : Home (s.withMutex (some t)) :=
          ⟨hh.member, hh.handle, hh.made, hh.ordinary, hh.plain, nofun⟩
        refine ⟨hhome, fun j _ => ⟨hhome, rfl, Nat.le_refl _, fun _ _ _ hf => hf, fun hm => ?_,
          fun _ => rfl,
          fun _ => rfl, fun _ _ _ hf => hf.congr rfl rfl⟩⟩
        cases hfree.symm.trans hm
    | unlock =>
        cases h
        have hhome : Home (s.withMutex none) :=
          ⟨hh.member, hh.handle, hh.made, hh.ordinary, hh.plain, fun _ => hg.2.congr rfl rfl⟩
        exact ⟨hhome, fun j hj => rely_of_held hg.1 hj hhome rfl rfl⟩
    | setMark fd mark =>
        cases h
        have hhome := home_written hh hg (s.family.marks.set fd mark) s.family.events
        exact ⟨hhome, fun j hj => rely_of_held hg hj hhome rfl rfl⟩
    | setEvents fd events =>
        cases h
        have hhome := home_written hh hg s.family.marks (s.family.events.set fd events)
        exact ⟨hhome, fun j hj => rely_of_held hg hj hhome rfl rfl⟩
    | epollCtl ep op io ev =>
        obtain ⟨answer, s'⟩ := step
        rcases epollCtl_cases hh h with ⟨e, _, hc⟩ | ⟨q, fd, mask, interest, _, hq, _, _, _, rfl⟩
        · exact ⟨hc.home hh, fun _ _ => hc.rely hh⟩
        · have hhome := home_relisted hh hq hg interest
          exact ⟨hhome, fun j hj => rely_of_held hg hj hhome hq.self hq.objects⟩
    | _ => first | exact absurd rfl hcalm | cases hg

end Commands

def Stable (t : Nat) (P : Sys → Prop) : Prop := ∀ s s', P s → Rely t s s' → P s'

abbrev Triple {α : Type} (t : Nat) (P : Sys → Prop) (program : Method α) (Q : α → Sys → Prop)
    (R : Sys → Prop) :
    Prop :=
  Spec (Schedule.perform t) (fun _ _ => Rely t) (Guard t) P program Q fun _ => R

-- Call `t` holds `@mtx`, and the tables fit once it has written `marks` and
-- `events` to them.
def Due (t : Nat) (marks : Slots Obj → Slots Obj) (events : Slots EventArg → Slots EventArg)
    (s : Sys) : Prop :=
  s.family.mutex = some t ∧ Fits (marks s.family.marks) (events s.family.events) s

-- Nothing is left to write.
abbrev Tidy (t : Nat) (s : Sys) : Prop := Due t id id s

-- The descriptor of an IO that has been opened, if it is still open.
def Answers (io : Obj) (fd : Fd) (s : Sys) : Prop :=
  io < s.objects.born ∧ ∀ fd', s.objects.fileno io = some fd' → fd' = fd

section Triples

variable {t m : Nat} {α γ : Type} {P K R : Sys → Prop} {Q : α → Sys → Prop}

theorem stable_true : Stable t fun _ => True := fun _ _ _ _ => trivial

theorem Stable.and {P' : Sys → Prop} (h : Stable t P) (h' : Stable t P') : Stable t fun s => P s ∧ P' s :=
  fun s s' hs hr => ⟨h s s' hs.1 hr, h' s s' hs.2 hr⟩

theorem stable_due (marks : Slots Obj → Slots Obj) (events : Slots EventArg → Slots EventArg) :
    Stable t (Due t marks events) := by
  intro s s' h hr
  refine ⟨hr.mutex h.1, ?_⟩
  rw [hr.marks h.1, hr.events h.1]
  exact hr.fits h.1 _ _ h.2

theorem stable_answers (io : Obj) (fd : Fd) : Stable t (Answers io fd) :=
  fun _ _ h hr => ⟨Nat.lt_of_lt_of_le h.1 hr.born, fun fd' hf => h.2 fd' (hr.fileno io fd' h.1 hf)⟩

-- While `@mtx` is held no slot of `@marks` changes.
theorem stable_marked (p : Prop) (fd : Fd) (mark : Option Obj) :
    Stable t fun s => Tidy t s ∧ (p → s.family.marks.get fd = mark) := by
  intro s s' h hr
  refine ⟨stable_due id id s s' h.1 hr, fun hp => ?_⟩
  rw [hr.marks h.1.1]
  exact h.2 hp

theorem calm_guard {β : Type} {command : Cmd β} {s : Sys} (h : calm command = true) :
    Guard t β s command := by
  cases command <;> first | exact h | cases h

-- A calm command: what it answers is still so afterwards.
theorem calm_triple {command : Cmd α} (hcalm : calm command = true) (hP : Stable t P)
    (hQ : ∀ value, Stable t (Q value))
    (h : ∀ s step, P s → Home s → Schedule.perform t α s command = some step → Q step.1 s) :
    Triple t P (.perform command) Q R := by
  intro s hs
  rw [along_perform]
  intro s' hr
  refine ⟨calm_guard hcalm, fun step hstep => ?_⟩
  have hc := calm_effect hr.home hcalm hstep
  exact hQ step.1 s' _ (h s' step (hP s s' hs hr) hr.home hstep) (hc.rely hr.home)

theorem calm_keeps {command : Cmd α} (hcalm : calm command = true) (hP : Stable t P) :
    Triple t P (.perform command) (fun _ => P) R :=
  calm_triple hcalm hP (fun _ => hP) fun _ _ hs _ _ => hs

theorem attempt_keeps {command : Cmd (Except Err α)} (hcalm : calm command = true) (hP : Stable t P) :
    Triple t P (.attempt command) (fun _ => P) P := by
  intro s hs
  rw [along_attempt]
  intro s' hr
  refine ⟨calm_guard hcalm, fun step hstep => ?_⟩
  have hc := calm_effect hr.home hcalm hstep
  have hafter := hP s' _ (hP s s' hs hr) (hc.rely hr.home)
  obtain ⟨outcome, s''⟩ := step
  cases outcome with
  | error e => exact hafter
  | ok value => exact hafter

-- `@mtx` is free only with tables that fit, and is given back with such.
theorem triple_synchronize {body : Method α} (hP : Stable t P)
    (h : Triple t (fun s => P s ∧ Tidy t s) body (fun _ => Tidy t) (Tidy t)) :
    Triple t P (Method.synchronize body) (fun _ _ => True) fun _ => True := by
  have hunlock : Triple t (Tidy t) (.perform .unlock) (fun _ _ => True) fun _ => True := by
    intro s hs
    rw [along_perform]
    exact fun s' hr => ⟨stable_due id id s s' hs hr, fun _ _ => trivial⟩
  refine spec_bind (M := fun _ s => P s ∧ Tidy t s) ?_ fun _ =>
    spec_ensure h (fun _ => hunlock) fun _ => hunlock
  intro s hs
  rw [along_perform]
  intro s' hr
  refine ⟨trivial, fun step hstep => ?_⟩
  obtain ⟨hfree, rfl⟩ := lock_step hstep
  have hlocked : Rely t s' (s'.withMutex (some t)) := by
    refine ⟨⟨hr.home.member, hr.home.handle, hr.home.made, hr.home.ordinary, hr.home.plain, nofun⟩, rfl,
      Nat.le_refl _, fun _ _ _ hf => hf, fun _ => rfl, fun _ => rfl, fun _ => rfl, fun _ _ _ hf =>
        hf.congr rfl rfl⟩
  exact ⟨hP s _ hs (hr.trans hlocked), rfl, (hr.home.free hfree).congr rfl rfl⟩

-- The fork check finds that the process is the same.
theorem epCheck_keeps (hP : Stable t P) : Triple t P (epCheck m) (fun _ => P) R := by
  have hself : ∀ pid, Stable t fun s => P s ∧ pid = s.self :=
    fun pid => hP.and fun _ _ h hr => h.trans hr.self.symm
  refine spec_bind (M := fun pid s => P s ∧ pid = s.self) ?_ fun pid => ?_
  · refine calm_triple rfl hP hself fun s step hs hh hstep => ⟨hs, ?_⟩
    obtain ⟨member, hm, rfl⟩ := Option.map_eq_some_iff.mp hstep
    exact hh.member member (List.mem_of_getElem? hm)
  refine spec_bind (M := fun self s => P s ∧ pid = self) ?_ fun self => ?_
  · refine calm_triple rfl (hself pid) (fun self => hP.and fun _ _ h _ => h) fun s step hs hh hstep => ?_
    cases hstep
    exact hs
  by_cases heq : pid = self
  · rw [if_pos heq]
    exact spec_pure fun _ hs => hs.1
  · exact fun _ hs => absurd hs.2 heq

theorem fileno_answers (io : Obj) :
    Triple t (fun _ => True) (.attempt (.fileno io)) (fun fd => Answers io fd) fun _ => True := by
  intro s _
  rw [along_attempt]
  intro s' hr
  refine ⟨rfl, fun step hstep => ?_⟩
  have hh := hr.home
  have hc := calm_effect hh rfl hstep
  simp only [Schedule.perform, exec, answer_plain hh.plain] at hstep
  cases hfd : s'.objects.fileno io with
  | none =>
      rw [hfd] at hstep
      cases hstep
      trivial
  | some fd =>
      rw [hfd] at hstep
      cases hstep
      refine ⟨hh.ordinary.born io fd hfd, fun fd' hf => ?_⟩
      exact (Option.some.inj (hfd.symm.trans hf)).symm

-- What `add`, `mod` and `set` register is due in both tables.
theorem epollCtl_due {op : CtlOp} (hop : op ≠ .del) (cached : Prop) (io : Obj) (fd : Fd) {ev : EventArg}
    (hmasked : Masked ev) :
    Triple t (fun s => Answers io fd s ∧ Tidy t s ∧ (cached → s.family.marks.get fd = some io))
      (epollCtl m op io ev)
      (fun _ s => Due t (·.set fd (some io)) (·.set fd (some ev)) s ∧
        (cached → s.family.marks.get fd = some io))
      (fun s => Answers io fd s ∧ Tidy t s ∧ (cached → s.family.marks.get fd = some io)) := by
  have hpre := (stable_answers (t := t) io fd).and (stable_marked cached fd (some io))
  refine spec_bind (calm_keeps rfl hpre) fun ep => ?_
  intro s hs
  rw [along_attempt]
  intro s' hr
  have hs' := hpre s s' hs hr
  refine ⟨hs'.2.1.1, fun step hstep => ?_⟩
  obtain ⟨answer, s''⟩ := step
  rcases epollCtl_cases hr.home hstep with ⟨e, rfl, hc⟩ |
    ⟨q, fd', mask, interest, rfl, hq, hfd, hmask, hctl, rfl⟩
  · exact hpre s' _ hs' (hc.rely hr.home)
  · obtain rfl := hs'.1.2 fd' hfd
    obtain rfl := Interest.ctl_register hctl hop
    refine ⟨⟨hq.mutex.trans hs'.2.1.1, ?_⟩, fun hcached => ?_⟩
    · show Fits (q.family.marks.set fd' (some io)) (q.family.events.set fd' (some ev)) _
      rw [hq.marks, hq.events]
      exact fits_registered hr.home hq hs'.2.1.2 hfd hmask hmasked
    · show q.family.marks.get fd' = some io
      rw [hq.marks]
      exact hs'.2.2 hcached

theorem epollCtl_undue (io : Obj) (fd : Fd) (ev : EventArg) :
    Triple t (fun s => Answers io fd s ∧ Tidy t s) (epollCtl m .del io ev)
      (fun _ => Due t (·.set fd none) (·.set fd none)) (Tidy t) := by
  have hpre := (stable_answers (t := t) io fd).and (stable_due id id)
  refine spec_bind (calm_keeps rfl hpre) fun ep => ?_
  intro s hs
  rw [along_attempt]
  intro s' hr
  have hs' := hpre s s' hs hr
  refine ⟨hs'.2.1, fun step hstep => ?_⟩
  obtain ⟨answer, s''⟩ := step
  rcases epollCtl_cases hr.home hstep with
    ⟨e, rfl, hc⟩ | ⟨q, fd', mask, interest, rfl, hq, hfd, _, hctl, rfl⟩
  · exact stable_due id id s' _ hs'.2 (hc.rely hr.home)
  · obtain rfl := hs'.1.2 fd' hfd
    obtain rfl := Interest.ctl_remove hctl
    refine ⟨hq.mutex.trans hs'.2.1, ?_⟩
    show Fits (q.family.marks.set fd' none) (q.family.events.set fd' none) _
    rw [hq.marks, hq.events]
    exact fits_removed hq hs'.2.2

-- The writes that are due.
theorem setMark_due (fd : Fd) (mark : Option Obj) (events : Slots EventArg → Slots EventArg) :
    Triple t (Due t (·.set fd mark) events) (.perform (.setMark fd mark)) (fun _ => Due t id events) R := by
  intro s hs
  rw [along_perform]
  intro s' hr
  have hs' := stable_due _ events s s' hs hr
  refine ⟨hs'.1, fun step hstep => ?_⟩
  cases hstep
  exact ⟨hs'.1, hs'.2.congr rfl rfl⟩

theorem setEvents_due (fd : Fd) (ev : Option EventArg) (marks : Slots Obj → Slots Obj) :
    Triple t (Due t marks (·.set fd ev)) (.perform (.setEvents fd ev)) (fun _ => Due t marks id) R := by
  intro s hs
  rw [along_perform]
  intro s' hr
  have hs' := stable_due marks _ s s' hs hr
  refine ⟨hs'.1, fun step hstep => ?_⟩
  cases hstep
  exact ⟨hs'.1, hs'.2.congr rfl rfl⟩

end Triples

section Methods

variable {t m : Nat} {α : Type} {P R : Sys → Prop}

-- A body on one descriptor, once the check is passed.
theorem sync_fits {body : Method α} (hP : Stable t P)
    (h : Triple t (fun s => P s ∧ Tidy t s) body (fun _ => Tidy t) (Tidy t)) :
    Triple t P (Method.synchronize do epCheck m; body) (fun _ _ => True) fun _ => True :=
  triple_synchronize hP (spec_bind (epCheck_keeps (hP.and (stable_due id id))) fun _ => h)

-- A body that leaves the tables alone.
theorem sync_calm {body : Method α} (h : Triple t (Tidy t) body (fun _ => Tidy t) (Tidy t)) :
    Triple t (fun _ => True) (Method.synchronize body) (fun _ _ => True) fun _ => True :=
  triple_synchronize stable_true (spec_mono h (fun _ hs => hs.2) (fun _ _ hs => hs) fun _ _ hs => hs)

theorem tidy_keeps {command : Cmd α} (hcalm : calm command = true) :
    Triple t (Tidy t) (.perform command) (fun _ => Tidy t) R :=
  calm_keeps hcalm (stable_due id id)

-- The register, and then the two writes in either order.
theorem store_fits {op : CtlOp} (hop : op ≠ .del) (io : Obj) (fd : Fd) {ev : EventArg} (hmasked : Masked ev)
    {rest : Method α}
    (h : Triple t (Due t (·.set fd (some io)) (·.set fd (some ev))) rest (fun _ => Tidy t) (Tidy t)) :
    Triple t (fun s => Answers io fd s ∧ Tidy t s) (epollCtl m op io ev >>= fun _ => rest) (fun _ => Tidy t)
      (Tidy t) := by
  refine spec_bind (M := fun _ => Due t (·.set fd (some io)) (·.set fd (some ev))) ?_ fun _ => h
  refine spec_mono (epollCtl_due hop False io fd hmasked) ?_ (fun _ _ h => h.1) fun _ _ h => h.2.1
  exact fun s h => ⟨h.1, h.2, False.elim⟩

theorem remove_fits (io : Obj) (fd : Fd) (events : EventArg) :
    Triple t (fun s => Answers io fd s ∧ Tidy t s)
      (epollCtl m .del io events >>= fun _ => .perform (.setMark fd none) >>= fun _ =>
        .perform (.setEvents fd none)) (fun _ => Tidy t) (Tidy t) :=
  spec_bind (epollCtl_undue io fd events) fun _ => spec_bind (setMark_due fd none _) fun _ =>
    setEvents_due fd none id

-- What the conversion of the events has found out.
theorem triple_given {p : Prop} {program : Method α} {Q : α → Sys → Prop} (h : p → Triple t P program Q R) :
    Triple t (fun s => p ∧ P s) program Q R :=
  fun s hs => h hs.1 s hs.2

theorem add_fits (io : Obj) {events : EventArg} (h : Op.Masked (.add io events)) :
    Triple t (fun _ => True) (add m io events) (fun _ _ => True) fun _ => True := by
  refine spec_bind (fileno_answers io) fun fd => ?_
  refine spec_bind (M := fun ev s => Masked ev ∧ Answers io fd s) ?_ fun ev =>
    triple_given fun hmasked => ?_
  · exact spec_ofExcept (fun ev s he hs => ⟨h.registers ⟨rfl, he⟩, hs⟩) fun _ _ _ _ => trivial
  refine spec_bind (sync_fits (stable_answers io fd) ?_) fun _ => spec_pure fun _ _ => trivial
  refine store_fits (by decide) io fd hmasked ?_
  exact spec_bind (setEvents_due fd (some ev) (·.set fd (some io))) fun _ => setMark_due fd (some io) id

theorem mod_fits (io : Obj) {events : EventArg} (h : Op.Masked (.mod io events)) :
    Triple t (fun _ => True) (mod m io events) (fun _ _ => True) fun _ => True := by
  refine spec_bind (M := fun ev _ => Masked ev ∧ True) ?_ fun ev => triple_given fun hmasked => ?_
  · exact spec_ofExcept (fun ev s he hs => ⟨h.registers ⟨rfl, he⟩, hs⟩) fun _ _ _ _ => trivial
  refine spec_bind (fileno_answers io) fun fd => ?_
  refine spec_bind (sync_fits (stable_answers io fd) ?_) fun _ => spec_pure fun _ _ => trivial
  refine store_fits (by decide) io fd hmasked ?_
  exact spec_bind (setMark_due fd (some io) _) fun _ => setEvents_due fd (some ev) id

theorem del_fits (io : Obj) : Triple t (fun _ => True) (del m io) (fun _ _ => True) fun _ => True := by
  refine spec_bind (fileno_answers io) fun fd => ?_
  exact spec_bind (sync_fits (stable_answers io fd) (remove_fits io fd (.int 0))) fun _ =>
    spec_pure fun _ _ => trivial

theorem delete_fits (io : Obj) : Triple t (fun _ => True) (delete m io)
    (fun _ _ => True) fun _ => True := by
  refine spec_rescue (M := fun _ _ => True) ?_ fun e => ?_
  · refine spec_bind (fileno_answers io) fun fd => sync_fits (stable_answers io fd) ?_
    have hpre := (stable_answers (t := t) io fd).and (stable_due id id)
    refine spec_bind (calm_keeps rfl hpre) fun curIo => ?_
    cases curIo with
    | none => exact spec_pure fun _ h => h.2
    | some curIo =>
        refine spec_bind (calm_keeps rfl hpre) fun gone => ?_
        cases gone with
        | true => exact spec_pure fun _ h => h.2
        | false =>
            refine spec_bind (epollCtl_undue io fd (.int 0)) fun _ => ?_
            refine spec_bind (setMark_due fd none _) fun _ => ?_
            exact spec_bind (setEvents_due fd none id) fun _ => spec_pure fun _ h => h
  · unfold rescueGone
    split
    · exact spec_pure fun _ _ => trivial
    · exact spec_raise fun _ _ => trivial

-- `cur_io == io` finds the same object, since an ordinary IO is only equal to
-- itself.
theorem curIoSame_marked (io : Obj) (fd : Fd) (curIo : Option Obj) :
    Triple t (fun s => Answers io fd s ∧ Tidy t s ∧ (True → s.family.marks.get fd = curIo))
      (curIoSame curIo io)
      (fun same s => Answers io fd s ∧ Tidy t s ∧ (same = true → s.family.marks.get fd = some io))
      (Tidy t) := by
  cases curIo with
  | none => exact spec_pure fun _ h => ⟨h.1, h.2.1, nofun⟩
  | some cur =>
      refine calm_triple rfl ((stable_answers io fd).and (stable_marked True fd (some cur)))
        (fun same => (stable_answers io fd).and (stable_marked (same = true) fd (some io))) ?_
      intro s step hs hh hstep
      cases hstep
      refine ⟨hs.1, hs.2.1, fun hsame => ?_⟩
      rw [hh.ordinary.same, decide_eq_true_eq] at hsame
      exact hsame ▸ hs.2.2 trivial

-- Where the object is in its slot already, `@events` alone has to be written.
theorem due_marked {fd : Fd} {io : Obj} {events : Slots EventArg → Slots EventArg} {s : Sys}
    (h : Due t (·.set fd (some io)) events s) (hmarked : s.family.marks.get fd = some io) :
    Due t id events s := by
  refine ⟨h.1, h.2.1.congr fun other => ?_, h.2.2⟩
  rw [Slots.get_set]
  split
  · rename_i heq
    rw [heq]
    exact hmarked
  · rfl

theorem setCached_fits (io : Obj) (fd : Fd) {events : EventArg} (hmasked : Masked events) :
    Triple t (fun s => Answers io fd s ∧ Tidy t s ∧ (True → s.family.marks.get fd = some io))
      (setCached m fd io events) (fun _ => Due t id (·.set fd (some events))) (Tidy t) := by
  refine spec_rescue (spec_mono (epollCtl_due (by decide) True io fd hmasked) (fun _ h => h)
    (fun _ s h => due_marked h.1 (h.2 trivial)) fun _ _ h => h) fun e => ?_
  split
  · refine spec_bind (M := fun _ => Due t (·.set fd (some io)) (·.set fd (some events))) ?_
      fun _ => setMark_due fd (some io) _
    exact spec_mono (epollCtl_due (by decide) True io fd hmasked) (fun _ h => h) (fun _ _ h => h.1)
      fun _ _ h => h.2.1
  · exact spec_raise fun _ h => h.2.1

theorem setUncached_fits (io : Obj) (fd : Fd) {events : EventArg} (hmasked : Masked events) :
    Triple t (fun s => Answers io fd s ∧ Tidy t s) (setUncached m fd io events)
      (fun _ => Due t id (·.set fd (some events))) (Tidy t) := by
  have hctl : ∀ op, op ≠ .del →
      Triple t (fun s => Answers io fd s ∧ Tidy t s) (epollCtl m op io events)
        (fun _ => Due t (·.set fd (some io)) (·.set fd (some events))) fun s => Answers io fd s ∧
          Tidy t s := by
    intro op hop
    refine spec_mono (epollCtl_due hop False io fd hmasked) ?_ (fun _ _ h => h.1) fun _ _ h => ⟨h.1, h.2.1⟩
    exact fun s h => ⟨h.1, h.2, False.elim⟩
  refine spec_bind (spec_rescue (hctl .add (by decide)) fun e => ?_) fun _ => setMark_due fd (some io) _
  split
  · exact spec_mono (hctl .mod (by decide)) (fun _ h => h) (fun _ _ h => h) fun _ _ h => h.2
  · exact spec_raise fun _ h => h.2

theorem set_fits (io : Obj) {events : EventArg} (h : Op.Masked (.set io events)) :
    Triple t (fun _ => True) (set m io events) (fun _ _ => True) fun _ => True := by
  have hmasked : Masked events := h
  refine spec_bind (fileno_answers io) fun fd => sync_fits (stable_answers io fd) ?_
  have hend : Triple t (Due t id (·.set fd (some events)))
      (.perform (.setEvents fd (some events)) >>= fun _ => Pure.pure Ret.zero) (fun _ => Tidy t) (Tidy t) :=
    spec_bind (setEvents_due fd (some events) id) fun _ => spec_pure fun _ h => h
  refine spec_bind (M := fun curIo s =>
    Answers io fd s ∧ Tidy t s ∧ (True → s.family.marks.get fd = curIo)) ?_ fun curIo => ?_
  · refine calm_triple rfl ((stable_answers io fd).and (stable_due id id))
      (fun curIo => (stable_answers io fd).and (stable_marked True fd curIo)) fun s step hs _ hstep => ?_
    cases hstep
    exact ⟨hs.1, hs.2, fun _ => rfl⟩
  refine spec_bind (curIoSame_marked io fd curIo) fun same => ?_
  cases same with
  | false =>
      refine spec_bind (spec_mono (setUncached_fits io fd hmasked) ?_ (fun _ _ h => h) fun _ _ h => h)
        fun _ => hend
      exact fun _ h => ⟨h.1, h.2.1⟩
  | true =>
      have hpre := (stable_answers (t := t) io fd).and (stable_marked (true = true) fd (some io))
      refine spec_bind (calm_keeps rfl hpre) fun curEvents => ?_
      refine spec_bind (spec_ofExcept (fun _ _ _ h => h) fun _ _ _ h => h.2.1) fun clear => ?_
      split
      · exact spec_pure fun _ h => h.2.1
      · refine spec_bind (spec_mono (setCached_fits io fd hmasked) ?_ (fun _ _ h => h) fun _ _ h => h)
          fun _ => hend
        exact fun _ h => ⟨h.1, h.2.1, fun _ => h.2.2 rfl⟩

theorem wait_fits (maxevents : Option Int) :
    Triple t (fun _ => True) (wait m maxevents) (fun _ _ => True) fun _ => True := by
  have hany : ∀ {β : Type} {command : Cmd β}, calm command = true →
      Triple t (fun _ => True) (.perform command) (fun _ _ => True) fun _ => True :=
    fun hcalm => calm_keeps hcalm stable_true
  have hpoll : Triple t (fun _ => True) (epollWait m (maxevents.getD 64))
    (fun _ _ => True) fun _ => True := by
    refine spec_bind (hany rfl) fun ep => spec_ensure ?_ (fun _ => hany rfl) fun _ => hany rfl
    refine spec_bind (attempt_keeps rfl stable_true) fun n => ?_
    refine spec_bind (M := fun _ _ => True) ?_ fun _ => spec_pure fun _ _ => trivial
    have hyield : Triple t (fun _ => True) (.attempt .yieldNext) (fun _ _ => True) fun _ => True :=
      attempt_keeps rfl stable_true
    exact fun s _ => along_replicate (fun _ _ => True) trivial fun _ s' _ => hyield s' trivial
  refine spec_bind (M := fun _ _ => True) ?_ fun snapshot => ?_
  · refine spec_rescue (sync_calm ?_) fun _ => spec_raise fun _ _ => trivial
    exact spec_bind (epCheck_keeps (stable_due id id)) fun _ => tidy_keeps rfl
  refine spec_bind (hany rfl) fun _ => ?_
  exact spec_bind (spec_ensure hpoll (fun _ => hany rfl) fun _ => hany rfl) fun _ =>
    spec_pure fun _ _ => trivial

theorem lookup_fits {β : Type} (io : IoArg) {read : Fd → Cmd β} (hcalm : ∀ fd, calm (read fd) = true)
    (ret : β → Ret) : Triple t (fun _ => True) (lookup m io read ret) (fun _ _ => True) fun _ => True := by
  refine spec_bind (M := fun _ _ => True) ?_ fun fd => sync_calm ?_
  · cases io with
    | fd n => exact spec_pure fun _ _ => trivial
    | io o => exact attempt_keeps rfl stable_true
  · refine spec_bind (epCheck_keeps (stable_due id id)) fun _ => ?_
    exact spec_bind (tidy_keeps (hcalm fd)) fun _ => spec_pure fun _ h => h

theorem initializeCopy_fits (copy : Nat) :
    Triple t (fun _ => True) (Shared.initializeCopy epCheck copy) (fun _ _ => True) fun _ => True := by
  refine sync_calm (spec_bind (epCheck_keeps (stable_due id id)) fun _ => ?_)
  refine spec_bind (tidy_keeps rfl) fun io => ?_
  refine spec_bind (tidy_keeps rfl) fun closed => ?_
  split
  · exact spec_pure fun _ h => h
  · refine spec_bind (attempt_keeps rfl (stable_due id id)) fun ioDup => ?_
    refine spec_bind (tidy_keeps rfl) fun _ => ?_
    exact spec_bind (tidy_keeps rfl) fun copies => tidy_keeps rfl

theorem dup_fits : Triple t (fun _ => True) (dup m) (fun _ _ => True) fun _ => True := by
  refine spec_bind (M := fun _ _ => True) ?_ fun copy => spec_pure fun _ _ => trivial
  refine spec_bind (calm_keeps rfl stable_true) fun copy => ?_
  refine spec_bind (spec_rescue (initializeCopy_fits copy) fun e => ?_) fun _ =>
    spec_pure fun _ _ => trivial
  exact spec_bind (calm_keeps rfl stable_true) fun _ => spec_raise fun _ _ => trivial

theorem close_fits : Triple t (fun _ => True) (close m) (fun _ _ => True) fun _ => True := by
  refine spec_bind (M := fun _ _ => True) (sync_calm ?_) fun _ => spec_pure fun _ _ => trivial
  refine spec_bind (tidy_keeps rfl) fun io => ?_
  refine spec_bind (tidy_keeps rfl) fun copies => ?_
  exact spec_bind (tidy_keeps rfl) fun _ => attempt_keeps rfl (stable_due id id)

theorem closedP_fits : Triple t (fun _ => True) (closedP m) (fun _ _ => True) fun _ => True := by
  refine spec_bind (M := fun _ _ => True) (sync_calm ?_) fun _ => spec_pure fun _ _ => trivial
  exact spec_bind (tidy_keeps rfl) fun io => tidy_keeps rfl

theorem method_fits {op : Op} (h : op.Masked) :
    Triple t (fun _ => True) (method m op) (fun _ _ => True) fun _ => True := by
  cases op with
  | toIo =>
      refine sync_calm (spec_bind (epCheck_keeps (stable_due id id)) fun _ => ?_)
      exact spec_bind (tidy_keeps rfl) fun io => spec_pure fun _ h => h
  | wait maxevents => exact wait_fits maxevents
  | add io events => exact add_fits io h
  | del io => exact del_fits io
  | delete io => exact delete_fits io
  | mod io events => exact mod_fits io h
  | set io events => exact set_fits io h
  | close => exact close_fits
  | closedP => exact closedP_fits
  | ioFor io => exact lookup_fits io (fun _ => rfl) _
  | eventsFor io => exact lookup_fits io (fun _ => rfl) _
  | includeP io => exact lookup_fits io (fun _ => rfl) _
  | dup => exact dup_fits
  | clone => exact dup_fits

end Methods

structure Sound (w : World Ret) : Prop where
  home : Home w.sys
  calls : Steady Schedule.perform (fun i _ _ => Rely i) Guard w.calls w.sys

-- Integer masks, IOs that answer for themselves, and no fork.
def Permitted : Schedule.Label Op → Prop
  | .begin _ op => op.Masked
  | .perform _ oracle => oracle.answers = []
  | .openIo _ | .closeIo _ => True
  | .fork _ _ => False

section Run

variable {w w' : World Ret}

theorem rely_trans : ∀ (j : Nat) (β : Type) (_ : Cmd β) (a b c : Sys), Rely j a b → Rely j b c →
    Rely j a c :=
  fun _ _ _ _ _ _ h h' => h.trans h'

-- A watched IO that is closed, and one that is opened.
theorem closeIo_rely {s s' : Sys} {io : Obj} (hh : Home s) (h : s.closeIo io = some s') (t : Nat) :
    Rely t s s' := by
  obtain ⟨fd, hfd, rfl⟩ := Option.map_eq_some_iff.mp h
  have hfits : ∀ marks events, Fits marks events s →
      Fits marks events { s.forget fd with objects := s.objects.close io } := by
    intro marks events hf
    refine ⟨?_, hf.2⟩
    show Describes marks events (s.objects.close io) ((s.forget fd).interestAt 0)
    rw [Sys.interestAt_forget]
    exact hf.1.closeIo hh.ordinary hfd
  refine ⟨⟨hh.member, hh.handle, ?_, hh.ordinary.closeIo io, hh.plain,
    fun hfree => hfits _ _ (hh.free hfree)⟩, rfl,
    Nat.le_refl _, fun o fd' _ hf => ?_, id, fun _ => rfl, fun _ => rfl, fun _ => hfits⟩
  · exact (List.length_map _).symm ▸ hh.made
  · replace hf : (s.objects.close io).fileno o = some fd' := hf
    rw [Objects.close_fileno] at hf
    split at hf
    · cases hf
    · exact hf

theorem openIo_rely {s s' : Sys} {fd : Fd} (hh : Home s) (h : s.openIo fd = some s') (t : Nat) :
    Rely t s s' := by
  obtain ⟨hfree, h⟩ := Option.ite_none_right_eq_some.mp h
  obtain rfl := Option.some.inj h
  have hfits : ∀ marks events, Fits marks events s →
      Fits marks events { s with objects := s.objects.openNew fd } := fun _ _ hf => ⟨hf.1.openIo, hf.2⟩
  refine ⟨⟨hh.member, hh.handle, hh.made, hh.ordinary.openIo hfree, hh.plain,
    fun hfree => hfits _ _ (hh.free hfree)⟩, rfl, Nat.le_succ _, fun o fd' ho hf => ?_, id, fun _ => rfl,
    fun _ => rfl, fun _ => hfits⟩
  replace hf : (s.objects.openNew fd).fileno o = some fd' := hf
  rw [Objects.openNew_fileno, if_neg (Nat.ne_of_lt ho)] at hf
  exact hf

theorem Sound.rely {sys : Sys} (h : Sound w) (hr : ∀ j, Rely j w.sys sys) : Sound { w with sys := sys } :=
  ⟨(hr 0).home, h.calls.later rely_trans fun j _ _ => hr j⟩

theorem perform_sound {i : Nat} {oracle : Oracle} (h : Sound w) (hp : oracle.answers = [])
    (hs : Schedule.step Fork.api w (.perform i oracle) = some w') : Sound w' := by
  obtain ⟨⟨calls, s⟩, ha, rfl⟩ := Option.map_eq_some_iff.mp hs
  obtain ⟨β, command, rest, answer, hget, hstep, rfl⟩ := advance_cases ha
  have hh := h.home
  have hgiven : Home { w.sys with oracle := oracle } :=
    ⟨hh.member, hh.handle, hh.made, hh.ordinary, hp, fun hfree => (hh.free hfree).congr rfl rfl⟩
  have hsound : Sound { w with sys.oracle := oracle } :=
    h.rely fun j => ⟨hgiven, rfl, Nat.le_refl _, fun _ _ _ hf => hf, id, fun _ => rfl, fun _ => rfl,
      fun _ _ _ hf => hf.congr rfl rfl⟩
  have hself := Rely.refl (t := i) hgiven
  have hguard := hsound.calls.guarded hget hself
  obtain ⟨hhome, hothers⟩ := perform_home hgiven hguard hstep
  exact ⟨hhome, hsound.calls.advance rely_trans hget hself hstep fun j _ _ hj => hothers j hj⟩

theorem step_sound {label : Schedule.Label Op} (h : Sound w) (hp : Permitted label)
    (hs : Schedule.step Fork.api w label = some w') : Sound w' := by
  cases label with
  | begin m op =>
      obtain ⟨_, hs⟩ := Option.ite_none_right_eq_some.mp hs
      obtain rfl := Option.some.inj hs
      exact ⟨h.home, h.calls.concat (method_fits hp w.sys trivial)⟩
  | perform i oracle => exact perform_sound h hp hs
  | openIo fd =>
      obtain ⟨sys, ho, rfl⟩ := Option.map_eq_some_iff.mp hs
      exact h.rely (openIo_rely h.home ho)
  | closeIo io =>
      obtain ⟨sys, ho, rfl⟩ := Option.map_eq_some_iff.mp hs
      exact h.rely (closeIo_rely h.home ho)
  | fork pid kept => cases hp

theorem start_sound (pid : Pid) {objects : Objects} (ho : Ordinary objects) :
    Sound (Schedule.start pid objects) := by
  refine ⟨⟨?_, ?_, Nat.zero_lt_one, ho, rfl, fun _ => ⟨Describes.empty objects, ?_⟩⟩, fun _ _ hcall => ?_⟩
  · simp [Schedule.start, opened]
  · simp [Schedule.start, opened]
  · simp [Schedule.start, opened]
  · cases hcall

theorem Sound.agrees (h : Sound w) (hfree : w.sys.family.mutex = none) :
    CacheAgrees w.sys (w.sys.interestAt 0) := by
  obtain ⟨hd, hmasked⟩ := h.home.free hfree
  refine ⟨hd.watched, fun fd entry he => ?_, hd.spent, hd.nils⟩
  obtain ⟨hmark, ev, hev, hmask⟩ := hd.entry fd entry he
  have hm := hmasked fd ev hev
  cases ev with
  | int n =>
      obtain ⟨k, rfl⟩ := Int.eq_ofNat_of_zero_le hm.1
      have hk : num2uint k = .ok k := num2uint_mask k (by have := hm.2; omega)
      rw [hev, Except.ok.inj (hmask.symm.trans hk)]
      exact ⟨hmark, rfl⟩
  | _ => exact hm.elim

end Run

-- One thread adds an IO while another is about to set it; the IO is closed after
-- epoll_ctl has registered it and before it is stored.
def contended : List (Schedule.Label Op) :=
  [.openIo 3, .begin 0 (.add 0 (.int 1)), .begin 0 (.set 0 (.int 2)), .perform 1 {}] ++
    List.replicate 6 (.perform 0 {}) ++ [.closeIo 0] ++ List.replicate 3 (.perform 0 {}) ++
    List.replicate 9 (.perform 1 {})

end SleepyPenguin.Epoll.Agreement
