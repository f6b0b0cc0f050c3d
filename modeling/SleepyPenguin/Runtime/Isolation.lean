import SleepyPenguin.Foundation.Rely
import SleepyPenguin.Runtime.Family

-- What keeps the members of a process off the descriptors of another one, with
-- any number of calls in progress.
namespace SleepyPenguin.Isolation

open Foundation Foundation.Prog

-- The IO is closed, or this process obtained its descriptor.
def Own (s : Sys) (io : Nat) : Prop :=
  ∀ x, s.family.handles[io]? = some x → x.closed = true ∨ x.owner = s.self

def Held (s : Sys) (m : Nat) : Prop :=
  ∃ member, s.family.members[m]? = some member ∧ Own s member.io

-- A system call on a descriptor that the caller obtained and on an instance
-- that it created. Closing an inherited descriptor is allowed unless `strict`.
def Rightful (strict : Prop) (creators : List Pid) (issued : Issued) : Prop :=
  (issued.call = .close → strict → issued.owner = issued.caller) ∧
    (issued.call ≠ .close → issued.owner = issued.caller ∧ creators[issued.inst]? = some issued.caller)

-- A member whose `@pid` is current has an IO of this process, or a closed one.
structure Isolated (strict : Prop) (s : Sys) : Prop where
  member : ∀ (m : Nat) (member : Member), s.family.members[m]? = some member → member.pid = s.self →
    Own s member.io
  made : ∀ x ∈ s.family.handles, x.owner = s.self → (creators s)[x.inst]? = some s.self
  log : ∀ issued ∈ s.kernel.log, Rightful strict (creators s) issued

-- The process is named in some `@pid`, or as the one that made an IO.
def Recorded (s : Sys) (pid : Pid) : Prop :=
  (∃ member ∈ s.family.members, member.pid = pid) ∨ ∃ x ∈ s.family.handles, x.owner = pid

-- What a process may rely on while its other calls, and other processes, go
-- on: an IO stays whose it is, and a member gets no IO but one of this process.
structure Later (s s' : Sys) : Prop where
  self : s'.self = s.self
  handle : ∀ (io : Nat) (x' : Handle), s'.family.handles[io]? = some x' → x'.owner = s.self ∨
    ∃ x, s.family.handles[io]? = some x ∧ x'.owner = x.owner ∧ (x.closed = true → x'.closed = true)
  member : ∀ (m : Nat) (member : Member), s.family.members[m]? = some member →
    ∃ member', s'.family.members[m]? = some member' ∧ (member'.io = member.io ∨ Own s' member'.io)
  creator : ∀ (i : Nat) (pid : Pid), (creators s)[i]? = some pid → (creators s')[i]? = some pid
  recorded : ∀ pid, Recorded s' pid → Recorded s pid ∨ pid = s.self

-- What each command must find.
def Safe (strict : Prop) : (β : Type) → Sys → Cmd β → Prop
  | _, s, .setPid m pid => pid = s.self ∧ Held s m
  | _, s, .setIo _ io => Own s io
  | _, s, .dup io => Own s io
  | _, s, .close io => strict → Own s io
  | _, s, .epollCtl io _ _ _ => Own s io
  | _, s, .epollWait io _ => Own s io
  | _, s, .kevent io _ _ => Own s io
  | _, _, _ => True

section Later

variable {strict : Prop} {s s' s'' : Sys} {io m : Nat}

theorem Own.later (h : Own s io) (hl : Later s s') : Own s' io := by
  intro x' hx'
  rcases hl.handle io x' hx' with ho | ⟨x, hx, howner, hclosed⟩
  · exact Or.inr (ho.trans hl.self.symm)
  · exact (h x hx).imp hclosed fun ho => (howner.trans ho).trans hl.self.symm

theorem Held.later (h : Held s m) (hl : Later s s') : Held s' m := by
  obtain ⟨member, hm, hown⟩ := h
  obtain ⟨member', hm', hio | hio⟩ := hl.member m member hm
  · exact ⟨member', hm', hio ▸ hown.later hl⟩
  · exact ⟨member', hm', hio⟩

theorem Later.refl (s : Sys) : Later s s :=
  ⟨rfl, fun _ x hx => Or.inr ⟨x, hx, rfl, id⟩, fun _ member hm => ⟨member, hm, Or.inl rfl⟩,
    fun _ _ h => h, fun _ h => Or.inl h⟩

theorem Later.trans (h : Later s s') (h' : Later s' s'') : Later s s'' := by
  refine ⟨h'.self.trans h.self, fun io x'' hx'' => ?_, fun m member hm => ?_,
    fun i pid hi => h'.creator i pid (h.creator i pid hi), fun pid hr => ?_⟩
  · rcases h'.handle io x'' hx'' with ho | ⟨x', hx', howner', hclosed'⟩
    · exact Or.inl (ho.trans h.self)
    · rcases h.handle io x' hx' with ho | ⟨x, hx, howner, hclosed⟩
      · exact Or.inl (howner'.trans ho)
      · exact Or.inr ⟨x, hx, howner'.trans howner, fun hc => hclosed' (hclosed hc)⟩
  · obtain ⟨member', hm', hio⟩ := h.member m member hm
    obtain ⟨member'', hm'', hio' | hio'⟩ := h'.member m member' hm'
    · refine ⟨member'', hm'', ?_⟩
      rcases hio with hio | hio
      · exact Or.inl (hio'.trans hio)
      · exact Or.inr (hio' ▸ hio.later h')
    · exact ⟨member'', hm'', Or.inr hio'⟩
  · rcases h'.recorded pid hr with hr | hself
    · exact h.recorded pid hr
    · exact Or.inr (hself.trans h.self)

theorem Rightful.later {issued : Issued} (h : Rightful strict (creators s) issued) (hl : Later s s') :
    Rightful strict (creators s') issued :=
  ⟨h.1, fun hc => ⟨(h.2 hc).1, hl.creator _ _ (h.2 hc).2⟩⟩

end Later

section Exec

variable {strict : Prop} {t : Nat} {s s' : Sys} {x : Handle} {io m : Nat}

-- Members and handles are as before; the log may have grown.
structure Alike (s s' : Sys) : Prop where
  self : s'.self = s.self
  members : s'.family.members = s.family.members
  handles : s'.family.handles = s.family.handles
  creators : creators s' = creators s

theorem Alike.later (h : Alike s s') : Later s s' := by
  refine ⟨h.self, fun io x hx => ?_, fun m member hm => ?_, fun i pid hi => ?_, fun pid hr => ?_⟩
  · exact Or.inr ⟨x, h.handles ▸ hx, rfl, id⟩
  · exact ⟨member, h.members ▸ hm, Or.inl rfl⟩
  · rw [h.creators]
    exact hi
  · unfold Recorded at hr
    rw [h.members, h.handles] at hr
    exact Or.inl hr

theorem Alike.own (h : Alike s s') : Own s' io ↔ Own s io := by
  simp only [Own, h.handles, h.self]

theorem Isolated.of_alike (hi : Isolated strict s) (h : Alike s s')
    (hlog : ∀ issued ∈ s'.kernel.log, issued ∈ s.kernel.log ∨ Rightful strict (creators s) issued) :
    Isolated strict s' := by
  refine ⟨fun m member hm hp => ?_, fun x hx ho => ?_, fun issued hmem => ?_⟩
  · exact h.own.mpr (hi.member m member (h.members ▸ hm) (h.self ▸ hp))
  · rw [h.creators, h.self]
    exact hi.made x (h.handles ▸ hx) (h.self ▸ ho)
  · rw [h.creators]
    rcases hlog issued hmem with hold | hnew
    · exact hi.log issued hold
    · exact hnew

-- The calls that a command issues on an IO of this process.
theorem rightful_of_own (hi : Isolated strict s) (hx : s.family.handles[io]? = some x) (hown : Own s io)
    (hopen : x.closed = false) (call : Call) :
    Rightful strict (creators s) ⟨s.self, call, x.inst, x.owner⟩ := by
  have howner : x.owner = s.self := by
    rcases hown x hx with hc | ho
    · rw [hopen] at hc
      cases hc
    · exact ho
  exact ⟨fun _ _ => howner, fun _ => ⟨howner, hi.made x (List.mem_of_getElem? hx) howner⟩⟩

-- What a system call on the handle `x` may add to the log.
def Logged (x : Handle) (call : Call) (s s' : Sys) : Prop :=
  ∀ issued ∈ s'.kernel.log, issued ∈ s.kernel.log ∨
    x.closed = false ∧ issued = ⟨s.self, call, x.inst, x.owner⟩

theorem Logged.same {call : Call} (h : s'.kernel.log = s.kernel.log) : Logged x call s s' :=
  fun _ hmem => Or.inl (h ▸ hmem)

theorem Isolated.of_logged {call : Call} (hi : Isolated strict s) (hx : s.family.handles[io]? = some x)
    (hown : Own s io) (h : Alike s s') (hlog : Logged x call s s') : Isolated strict s' := by
  refine hi.of_alike h fun issued hmem => ?_
  rcases hlog issued hmem with hold | ⟨hopen, rfl⟩
  · exact Or.inl hold
  · exact Or.inr (rightful_of_own hi hx hown hopen call)

theorem answer_alike (s : Sys) (obj : Obj) :
    Alike s (s.answer obj).2 ∧ (s.answer obj).2.kernel = s.kernel := by
  unfold Sys.answer
  split
  · exact ⟨⟨rfl, rfl, rfl, rfl⟩, rfl⟩
  · exact ⟨⟨rfl, rfl, rfl, rfl⟩, rfl⟩

theorem epctl_alike (s : Sys) (x : Handle) (inst : Inst) (op : CtlOp) (obj : Obj) (events : EventArg) :
    Alike s (s.epctl x inst op obj events).2 ∧ Logged x .epollCtl s (s.epctl x inst op obj events).2 := by
  unfold Sys.epctl
  obtain ⟨ha, hk⟩ := answer_alike s obj
  cases hc : x.closed with
  | true => exact ⟨⟨rfl, rfl, rfl, rfl⟩, .same rfl⟩
  | false =>
      rcases hanswer : s.answer obj with ⟨_ | fd, q⟩ <;> rw [hanswer] at ha hk
      · exact ⟨ha, .same (congrArg Kernel.log hk)⟩
      · rcases events.toUint with e | mask
        · exact ⟨ha, .same (congrArg Kernel.log hk)⟩
        · have hcalled : ∀ ctls, Alike s { q.issue .epollCtl x with oracle.ctls := ctls } :=
            fun _ => ⟨ha.self, ha.members, ha.handles, ha.creators⟩
          have hlog : Logged x .epollCtl s (q.issue .epollCtl x) := by
            intro issued hmem
            rw [Sys.issue, hk, ha.self] at hmem
            rcases List.mem_append.mp hmem with hold | hnew
            · exact Or.inl hold
            · exact Or.inr ⟨hc, List.mem_singleton.mp hnew⟩
          simp only [Bool.false_eq_true, ite_false]
          cases q.oracle.ctls.headD none with
          | some errno => exact ⟨hcalled _, hlog⟩
          | none =>
              simp only
              rcases inst.interest.ctl op fd obj mask with errno | interest
              · exact ⟨hcalled _, hlog⟩
              · have hset := hcalled q.oracle.ctls.tail
                exact ⟨⟨hset.self, hset.members, hset.handles,
                  (creators_setInterest ..).trans hset.creators⟩, hlog⟩

theorem interrupted_log (hopen : x.closed = false) (call : Call) (count : Nat)
    (h : s'.kernel.log = s.kernel.log ++ List.replicate count ⟨s.self, call, x.inst, x.owner⟩) :
    Logged x call s s' := by
  intro issued hmem
  rw [h] at hmem
  rcases List.mem_append.mp hmem with hold | hnew
  · exact Or.inl hold
  · exact Or.inr ⟨hopen, List.eq_of_mem_replicate hnew⟩

theorem epwait_alike (s : Sys) (t : Nat) (x : Handle) (inst : Inst) (maxevents : Int) :
    Alike s (s.epwait t x inst maxevents).2 ∧ Logged x .epollWait s (s.epwait t x inst maxevents).2 := by
  unfold Sys.epwait
  split
  · exact ⟨⟨rfl, rfl, rfl, rfl⟩, .same rfl⟩
  · cases hc : x.closed with
    | true => exact ⟨⟨rfl, rfl, rfl, rfl⟩, .same rfl⟩
    | false =>
        rcases Sys.interrupted s.oracle.waits with ⟨count, last, left⟩
        cases last with
        | some errno => exact ⟨⟨rfl, rfl, rfl, rfl⟩, interrupted_log hc _ (count + 1) rfl⟩
        | none => exact ⟨⟨rfl, rfl, rfl, creators_setInterest ..⟩, interrupted_log hc _ (count + 1) rfl⟩

theorem kevent_alike (s : Sys) (t : Nat) (x : Handle) (changelist : List KeventItem) (nevents : Nat) :
    Alike s (s.kevent t x changelist nevents).2 ∧
      Logged x .kevent s (s.kevent t x changelist nevents).2 := by
  unfold Sys.kevent
  cases hc : x.closed with
  | true => exact ⟨⟨rfl, rfl, rfl, rfl⟩, .same rfl⟩
  | false =>
      rcases changelist.mapM unpackEvent with e | changes
      · exact ⟨⟨rfl, rfl, rfl, rfl⟩, .same rfl⟩
      · rcases Sys.interrupted s.oracle.waits with ⟨count, last, left⟩
        have hchanges := creators_modify s.kernel.insts x.inst
          (f := fun i => { i with changes := i.changes ++ changes }) fun _ => rfl
        cases last with
        | some errno =>
            cases count with
            | zero => exact ⟨⟨rfl, rfl, rfl, rfl⟩, interrupted_log hc _ 1 rfl⟩
            | succ count => exact ⟨⟨rfl, rfl, rfl, hchanges⟩, interrupted_log hc _ (count + 2) rfl⟩
        | none => exact ⟨⟨rfl, rfl, rfl, hchanges⟩, interrupted_log hc _ (count + 1) rfl⟩

-- A new IO of this process.
theorem moves_concat {y : Handle} (hi : Isolated strict s) (hself : s'.self = s.self)
    (hmembers : s'.family.members = s.family.members)
    (hhandles : s'.family.handles = s.family.handles ++ [y])
    (hcreator : ∀ (i : Nat) (pid : Pid), (creators s)[i]? = some pid → (creators s')[i]? = some pid)
    (howner : y.owner = s.self) (hmade : (creators s')[y.inst]? = some s.self)
    (hlog : s'.kernel.log = s.kernel.log) : Isolated strict s' ∧ Later s s' := by
  have hlater : Later s s' := by
    refine ⟨hself, fun io x hx => ?_, fun m member hm => ⟨member, hmembers ▸ hm, Or.inl rfl⟩, hcreator,
      fun pid hr => ?_⟩
    · rw [hhandles] at hx
      rcases List.getElem?_concat_cases hx with hx | ⟨_, rfl⟩
      · exact Or.inr ⟨x, hx, rfl, id⟩
      · exact Or.inl howner
    · rcases hr with hr | ⟨x, hx, rfl⟩
      · exact Or.inl (Or.inl (hmembers ▸ hr))
      · rw [hhandles] at hx
        rcases List.mem_append.mp hx with hx | hx
        · exact Or.inl (Or.inr ⟨x, hx, rfl⟩)
        · exact Or.inr (List.mem_singleton.mp hx ▸ howner)
  refine ⟨⟨fun m member hm hp => ?_, fun x hx ho => ?_, fun issued hmem => ?_⟩, hlater⟩
  · exact (hi.member m member (hmembers ▸ hm) (hself ▸ hp)).later hlater
  · rw [hself] at ho ⊢
    rw [hhandles] at hx
    rcases List.mem_append.mp hx with hx | hx
    · exact hcreator _ _ (hi.made x hx ho)
    · rw [List.mem_singleton.mp hx]
      exact hmade
  · exact (hi.log issued (hlog ▸ hmem)).later hlater

-- An IO that is closed, or whose autoclose is switched off.
theorem moves_setHandle {y : Handle} (hi : Isolated strict s) (hx : s.family.handles[io]? = some x)
    (hself : s'.self = s.self) (hmembers : s'.family.members = s.family.members)
    (hhandles : s'.family.handles = s.family.handles.set io y) (hcreators : creators s' = creators s)
    (hinst : y.inst = x.inst) (howner : y.owner = x.owner) (hclosed : x.closed = true → y.closed = true)
    (hlog : ∀ issued ∈ s'.kernel.log, issued ∈ s.kernel.log ∨ Rightful strict (creators s) issued) :
    Isolated strict s' ∧ Later s s' := by
  have hlater : Later s s' := by
    refine ⟨hself, fun other z hz => ?_, fun m member hm => ⟨member, hmembers ▸ hm, Or.inl rfl⟩,
      fun i pid hpid => hcreators ▸ hpid, fun pid hr => Or.inl ?_⟩
    · rw [hhandles, List.getElem?_set] at hz
      refine Or.inr ?_
      split at hz
      · rename_i heq
        subst heq
        split at hz
        · cases hz
          exact ⟨x, hx, howner, hclosed⟩
        · cases hz
      · exact ⟨z, hz, rfl, id⟩
    · rcases hr with hr | ⟨z, hz, rfl⟩
      · exact Or.inl (hmembers ▸ hr)
      · rw [hhandles] at hz
        rcases List.mem_or_eq_of_mem_set hz with hz | rfl
        · exact Or.inr ⟨z, hz, rfl⟩
        · exact Or.inr ⟨x, List.mem_of_getElem? hx, howner.symm⟩
  refine ⟨⟨fun m member hm hp => ?_, fun z hz ho => ?_, fun issued hmem => ?_⟩, hlater⟩
  · exact (hi.member m member (hmembers ▸ hm) (hself ▸ hp)).later hlater
  · rw [hcreators, hself]
    rw [hself] at ho
    rw [hhandles] at hz
    rcases List.mem_or_eq_of_mem_set hz with hz | rfl
    · exact hi.made z hz ho
    · rw [hinst]
      exact hi.made x (List.mem_of_getElem? hx) (howner ▸ ho)
  · rw [hcreators]
    rcases hlog issued hmem with hold | hnew
    · exact hi.log issued hold
    · exact hnew

-- A member whose `@pid` or `@io` is assigned.
theorem moves_setMember {old new : Member} (hi : Isolated strict s) (hm : s.family.members[m]? = some old)
    (hio : new.io = old.io ∨ Own s new.io) (hold : new.pid = old.pid ∨ new.pid = s.self)
    (hpid : new.pid = s.self → Own s new.io) :
    Isolated strict (s.setMember m new) ∧ Later s (s.setMember m new) := by
  have hlt := (List.getElem?_eq_some_iff.mp hm).1
  have hget : ∀ k, (s.family.members.set m new)[k]? = if m = k then some new else s.family.members[k]? := by
    intro k
    rw [List.getElem?_set]
    simp only [hlt, ite_true]
  have hlater : Later s (s.setMember m new) := by
    refine ⟨rfl, fun io x hx => Or.inr ⟨x, hx, rfl, id⟩, fun k member hk => ?_, fun _ _ h => h,
      fun pid hr => ?_⟩
    · simp only [Sys.setMember, hget]
      by_cases heq : m = k
      · subst heq
        obtain rfl := Option.some.inj (hm.symm.trans hk)
        exact ⟨new, if_pos rfl, hio⟩
      · exact ⟨member, by rw [if_neg heq]; exact hk, Or.inl rfl⟩
    · rcases hr with ⟨member, hmem, rfl⟩ | hr
      · rcases List.mem_or_eq_of_mem_set hmem with hmem | rfl
        · exact Or.inl (Or.inl ⟨member, hmem, rfl⟩)
        · exact hold.imp_left fun h => Or.inl ⟨old, List.mem_of_getElem? hm, h.symm⟩
      · exact Or.inl (Or.inr hr)
  refine ⟨⟨fun k member hk hp => ?_, hi.made, hi.log⟩, hlater⟩
  simp only [Sys.setMember, hget] at hk
  split at hk
  · cases hk
    exact hpid hp
  · exact hi.member k member hk hp

theorem moves_allocate {member : Member} (hi : Isolated strict s)
    (hm : s.family.members[m]? = some member) :
    Isolated strict { s with family.members := s.family.members ++ [member] } ∧
      Later s { s with family.members := s.family.members ++ [member] } := by
  refine ⟨⟨fun k other hk hp => ?_, hi.made, hi.log⟩, rfl, fun io x hx => Or.inr ⟨x, hx, rfl, id⟩,
    fun k other hk => ⟨other, List.getElem?_concat_of_some hk, Or.inl rfl⟩, fun _ _ h => h,
    fun pid hr => Or.inl ?_⟩
  · rcases List.getElem?_concat_cases hk with hk | ⟨_, rfl⟩
    · exact hi.member k other hk hp
    · exact hi.member m other hm hp
  · rcases hr with ⟨other, hmem, rfl⟩ | hr
    · rcases List.mem_append.mp hmem with hmem | hmem
      · exact Or.inl ⟨other, hmem, rfl⟩
      · obtain rfl := List.mem_singleton.mp hmem
        exact Or.inl ⟨other, List.mem_of_getElem? hm, rfl⟩
    · exact Or.inr hr

theorem moves_create (hi : Isolated strict s) : Isolated strict s.create.2 ∧ Later s s.create.2 := by
  rcases s.create_cases with ⟨errno, _, hcreate⟩ | ⟨_, hcreate⟩
  · rw [hcreate]
    have ha : Alike s { s with oracle.creates := s.oracle.creates.tail } := ⟨rfl, rfl, rfl, rfl⟩
    exact ⟨hi.of_alike ha fun _ h => Or.inl h, ha.later⟩
  · rw [hcreate]
    refine moves_concat hi rfl rfl rfl (fun i pid hpid => ?_) rfl ?_ rfl
    · simp only [creators, List.map_append] at hpid ⊢
      rw [List.getElem?_append_left (List.getElem?_eq_some_iff.mp hpid).1]
      exact hpid
    · simp [creators]

theorem moves_dup (hi : Isolated strict s) (hx : s.family.handles[io]? = some x) (hown : Own s io) :
    Isolated strict (s.dup x).2 ∧ Later s (s.dup x).2 := by
  cases hc : x.closed with
  | true =>
      rw [s.dup_closed hc]
      exact ⟨hi, Later.refl s⟩
  | false =>
      rcases s.dup_open hc with ⟨errno, _, hdup⟩ | ⟨_, hdup⟩
      · rw [hdup]
        have ha : Alike s { s with oracle.dups := s.oracle.dups.tail } := ⟨rfl, rfl, rfl, rfl⟩
        exact ⟨hi.of_alike ha fun _ h => Or.inl h, ha.later⟩
      · rw [hdup]
        have hmade := (rightful_of_own hi hx hown hc .kevent).2 nofun
        exact moves_concat hi rfl rfl rfl (fun _ _ h => h) rfl hmade.2 rfl

theorem moves_close (hi : Isolated strict s) (hx : s.family.handles[io]? = some x)
    (hown : strict → Own s io) : Isolated strict (s.close io x).2 ∧ Later s (s.close io x).2 := by
  obtain ⟨outcome, calls, closes, hclose, hcalls, _⟩ := Sys.close_cases hx
  rw [hclose]
  refine moves_setHandle hi hx rfl rfl rfl rfl rfl rfl (fun _ => rfl) ?_
  intro issued hmem
  rcases List.mem_append.mp hmem with hold | hnew
  · exact Or.inl hold
  · obtain ⟨hc, rfl⟩ := hcalls issued hnew
    refine Or.inr ⟨fun _ hs => ?_, fun hne => absurd rfl hne⟩
    exact (rightful_of_own hi hx (hown hs) hc .close).1 rfl hs

theorem moves_autocloseOff (hi : Isolated strict s) (hx : s.family.handles[io]? = some x) :
    Isolated strict (s.autocloseOff io x).2 ∧ Later s (s.autocloseOff io x).2 := by
  unfold Sys.autocloseOff
  split
  · exact ⟨hi, Later.refl s⟩
  · exact moves_setHandle hi hx rfl rfl rfl rfl rfl rfl id fun _ h => Or.inl h

theorem moves_alike (hi : Isolated strict s) (h : Alike s s') (hlog : s'.kernel.log = s.kernel.log) :
    Isolated strict s' ∧ Later s s' :=
  ⟨hi.of_alike h fun _ hmem => Or.inl (hlog ▸ hmem), h.later⟩

-- Whether the command takes a member away.
def discards : {β : Type} → Cmd β → Bool
  | _, .discard => true
  | _, _ => false

-- What any command does that finds what it must.
theorem exec_moves {β : Type} {command : Cmd β} {step : β × Sys} (hi : Isolated strict s)
    (hsafe : Safe strict β s command) (hkeep : discards command = false)
    (h : exec t β s command = some step) : Isolated strict step.2 ∧ Later s step.2 := by
  have hsame : Isolated strict s ∧ Later s s := ⟨hi, Later.refl s⟩
  cases command with
  | discard => cases hkeep
  | self | getCopies | getMarks | getMark _ | getEvents _ | same _ _ =>
      cases h
      exact hsame
  | getPid m | getIo m =>
      obtain ⟨member, _, rfl⟩ := Option.map_eq_some_iff.mp h
      exact hsame
  | closed io =>
      obtain ⟨x, _, rfl⟩ := Option.map_eq_some_iff.mp h
      exact hsame
  | setPid m pid =>
      obtain ⟨member, hm, rfl⟩ := Option.map_eq_some_iff.mp h
      refine moves_setMember hi hm (Or.inl rfl) (Or.inr hsafe.1) fun hp => ?_
      obtain ⟨member', hm', hown⟩ := hsafe.2
      obtain rfl := Option.some.inj (hm.symm.trans hm')
      exact hown
  | setIo m io =>
      obtain ⟨member, hm, rfl⟩ := Option.map_eq_some_iff.mp h
      exact moves_setMember hi hm (Or.inr hsafe) (Or.inl rfl) fun _ => hsafe
  | allocate m =>
      obtain ⟨member, hm, rfl⟩ := Option.map_eq_some_iff.mp h
      exact moves_allocate hi hm
  | create =>
      cases h
      exact moves_create hi
  | dup io =>
      obtain ⟨x, hx, rfl⟩ := Option.map_eq_some_iff.mp h
      exact moves_dup hi hx hsafe
  | close io =>
      obtain ⟨x, hx, rfl⟩ := Option.map_eq_some_iff.mp h
      exact moves_close hi hx hsafe
  | autocloseOff io =>
      obtain ⟨x, hx, rfl⟩ := Option.map_eq_some_iff.mp h
      exact moves_autocloseOff hi hx
  | setCopies _ | unlock | clearEvents | clearMarks | setMark _ _ | setEvents _ _ | setSnapshot _
  | putBuf =>
      cases h
      exact moves_alike hi ⟨rfl, rfl, rfl, rfl⟩ rfl
  | lock =>
      simp only [exec] at h
      split at h
      · cases h
        exact moves_alike hi ⟨rfl, rfl, rfl, rfl⟩ rfl
      · cases h
  | fileno obj =>
      obtain ⟨ha, hk⟩ := answer_alike s obj
      simp only [exec] at h
      rcases hanswer : s.answer obj with ⟨_ | fd, q⟩ <;> rw [hanswer] at ha hk h
      · cases h
        exact moves_alike hi ha (congrArg Kernel.log hk)
      · cases h
        exact moves_alike hi ha (congrArg Kernel.log hk)
  | isClosed obj =>
      cases h
      obtain ⟨ha, hk⟩ := answer_alike s obj
      exact moves_alike hi ha (congrArg Kernel.log hk)
  | epollCtl io op obj events =>
      obtain ⟨x, hx, hinst⟩ := Option.bind_eq_some_iff.mp h
      obtain ⟨inst, _, rfl⟩ := Option.map_eq_some_iff.mp hinst
      obtain ⟨ha, hlog⟩ := epctl_alike s x inst op obj events
      exact ⟨hi.of_logged hx hsafe ha hlog, ha.later⟩
  | epollWait io maxevents =>
      obtain ⟨x, hx, hinst⟩ := Option.bind_eq_some_iff.mp h
      obtain ⟨inst, _, rfl⟩ := Option.map_eq_some_iff.mp hinst
      obtain ⟨ha, hlog⟩ := epwait_alike s t x inst maxevents
      exact ⟨hi.of_logged hx hsafe ha hlog, ha.later⟩
  | kevent io changelist nevents =>
      obtain ⟨x, hx, rfl⟩ := Option.map_eq_some_iff.mp h
      obtain ⟨ha, hlog⟩ := kevent_alike s t x changelist nevents
      exact ⟨hi.of_logged hx hsafe ha hlog, ha.later⟩
  | yieldNext =>
      simp only [exec, Sys.yieldNext] at h
      split at h
      · cases h
      · split at h
        · cases h
          exact moves_alike hi ⟨rfl, rfl, rfl, rfl⟩ rfl
        · cases h
          exact moves_alike hi ⟨rfl, rfl, rfl, rfl⟩ rfl

theorem discard_isolated (hi : Isolated strict s) :
    Isolated strict { s with family.members := s.family.members.dropLast } := by
  refine ⟨fun m member hm hp => ?_, hi.made, hi.log⟩
  rw [List.getElem?_dropLast] at hm
  split at hm
  · exact hi.member m member hm hp
  · cases hm

theorem exec_isolated {β : Type} {command : Cmd β} {step : β × Sys} (hi : Isolated strict s)
    (hsafe : Safe strict β s command) (h : exec t β s command = some step) : Isolated strict step.2 := by
  cases hkeep : discards command with
  | false => exact (exec_moves hi hsafe hkeep h).1
  | true =>
      cases command with
      | discard =>
          cases h
          exact discard_isolated hi
      | _ => cases hkeep

end Exec

end SleepyPenguin.Isolation
