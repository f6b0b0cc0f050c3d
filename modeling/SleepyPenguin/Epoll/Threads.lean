import SleepyPenguin.Epoll.Interleaving

-- Each method, with the calls of other threads around every one of its
-- commands, gives `@mtx` back with all that it registered stored in `@marks`.
namespace SleepyPenguin.Epoll.Threads

open Foundation Foundation.Prog

-- What the other calls cannot undo.
def Stable (i : Nat) (P : State → Prop) : Prop := ∀ s s', P s → Rely i s s' → P s'

abbrev Triple {α : Type} (i : Nat) (P : State → Prop) (program : Method α) (Q : α → State → Prop)
    (R : State → Prop) : Prop :=
  Spec (perform i) (fun _ _ => Rely i) (Guard i) P program Q fun _ => R

-- Call `i` holds `@mtx` and has nothing to store.
def Mine (i : Nat) (s : State) : Prop := s.sys.family.mutex = some i ∧ s.storing = none

-- It may give `@mtx` back.
def Stored (i : Nat) (s : State) : Prop :=
  s.sys.family.mutex = some i ∧ ∀ fd o, s.storing = some (fd, o) → s.sys.family.marks.get fd = some o

-- It has registered `io` and has to store it.
def Storing (i : Nat) (fd : Fd) (io : Obj) (s : State) : Prop :=
  s.sys.family.mutex = some i ∧ s.storing = some (fd, io) ∧
    ∀ entry, s.sys.interestAt 0 fd = some entry → entry.obj = io

def Unlisted (i : Nat) (fd : Fd) (s : State) : Prop := Mine i s ∧ s.sys.interestAt 0 fd = none

-- The descriptor of an IO that has been opened, if it is still open.
def Answers (io : Obj) (fd : Fd) (s : State) : Prop :=
  io < s.sys.objects.born ∧ ∀ fd', s.sys.objects.fileno io = some fd' → fd' = fd

def Drained (i : Nat) (s : State) : Prop := (s.sys.frames i).buf = []

section Triples

variable {i : Nat} {α γ : Type} {P K R : State → Prop} {Q : α → State → Prop}

theorem stable_true : Stable i fun _ => True := fun _ _ _ _ => trivial

theorem Stable.and {P' : State → Prop} (h : Stable i P) (h' : Stable i P') : Stable i fun s => P s ∧ P' s :=
  fun s s' hs hr => ⟨h s s' hs.1 hr, h' s s' hs.2 hr⟩

theorem stable_mine : Stable i (Mine i) :=
  fun _ _ h hr => ⟨hr.mutex h.1, (hr.storing h.1).trans h.2⟩

theorem stable_stored : Stable i (Stored i) := by
  intro s s' h hr
  refine ⟨hr.mutex h.1, fun fd o hs => ?_⟩
  rw [hr.marks h.1]
  exact h.2 fd o ((hr.storing h.1).symm.trans hs)

theorem stable_storing (fd : Fd) (io : Obj) : Stable i (Storing i fd io) := by
  intro s s' h hr
  refine ⟨hr.mutex h.1, (hr.storing h.1).trans h.2.1, fun entry he => ?_⟩
  obtain ⟨before, hbefore, hobj⟩ := hr.interest h.1 fd entry he
  exact hobj ▸ h.2.2 before hbefore

theorem stable_unlisted (fd : Fd) : Stable i (Unlisted i fd) := by
  intro s s' h hr
  refine ⟨stable_mine s s' h.1 hr, ?_⟩
  cases he : s'.sys.interestAt 0 fd with
  | none => rfl
  | some entry =>
      obtain ⟨before, hbefore, _⟩ := hr.interest h.1.1 fd entry he
      rw [h.2] at hbefore
      cases hbefore

theorem stable_answers (io : Obj) (fd : Fd) : Stable i (Answers io fd) :=
  fun _ _ h hr => ⟨Nat.lt_of_lt_of_le h.1 hr.born, fun fd' hf => h.2 fd' (hr.fileno io fd' h.1 hf)⟩

theorem stable_drained : Stable i (Drained i) := fun _ _ h hr => (congrArg Frame.buf hr.frame).trans h

-- While `@mtx` is held no slot of `@marks` changes.
theorem stable_marked (p : Prop) (fd : Fd) (mark : Option Obj) :
    Stable i fun s => Mine i s ∧ (p → s.sys.family.marks.get fd = mark) := by
  intro s s' h hr
  refine ⟨stable_mine s s' h.1 hr, fun hp => ?_⟩
  rw [hr.marks h.1.1]
  exact h.2 hp

theorem Mine.stored {s : State} (h : Mine i s) : Stored i s :=
  ⟨h.1, fun fd o hs => by rw [h.2] at hs; cases hs⟩

-- A command that reads: what it answers is still so afterwards.
theorem triple_read {command : Cmd α} (hread : reads command = true) (hP : Stable i P)
    (hQ : ∀ value, Stable i (Q value))
    (h : ∀ s value q, P s → Base s → exec i α s.sys command = some (value, q) → Q value s) :
    Triple i P (.perform command) Q R := by
  intro s hs
  rw [along_perform]
  intro s' hr
  refine ⟨reads_guard hread, fun step hstep => ?_⟩
  obtain ⟨⟨value, q⟩, he, heq⟩ := Option.map_eq_some_iff.mp hstep
  have hq := reads_near hread hr.base.plain he
  rw [← heq]
  show Q value ⟨q, s'.stores command value⟩
  rw [reads_storing hread]
  exact hQ value s' _ (h s' value q (hP s s' hs hr) hr.base he) (hq.rely hr.base)

theorem read_keeps {command : Cmd α} (hread : reads command = true) (hP : Stable i P) :
    Triple i P (.perform command) (fun _ => P) R :=
  triple_read hread hP (fun _ => hP) fun _ _ _ hs _ _ => hs

-- The mutex is free only when there is nothing to store.
theorem triple_lock (hP : Stable i P) : Triple i P (.perform .lock) (fun _ s => P s ∧ Mine i s) R := by
  intro s hs
  rw [along_perform]
  intro s' hr
  refine ⟨trivial, fun step hstep => ?_⟩
  obtain ⟨⟨_, q⟩, he, heq⟩ := Option.map_eq_some_iff.mp hstep
  cases hm : s'.sys.family.mutex with
  | some j =>
      simp only [exec, hm] at he
      cases he
  | none =>
      simp only [exec, hm] at he
      cases he
      rw [← heq]
      have hlocked := (Effect.locked (i := i) hm).base hr.base
      refine ⟨hP s' _ (hP s s' hs hr) (.of_other hlocked rfl rfl rfl ?_), rfl, hr.base.free hm⟩
      rw [hm]
      intro hheld
      cases hheld

theorem triple_unlock (hP : Stable i P) (hkeep : ∀ s : State, P s → P ⟨s.sys.withMutex none, none⟩) :
    Triple i (fun s => P s ∧ Stored i s) (.perform .unlock) (fun _ => P) R := by
  intro s hs
  rw [along_perform]
  intro s' hr
  obtain ⟨hs', hstored⟩ := hP.and stable_stored s s' hs hr
  refine ⟨hstored, fun step hstep => ?_⟩
  cases hstep
  exact hkeep s' hs'

theorem triple_synchronize {body : Method α} (hP : Stable i P) (hK : Stable i K)
    (hkeep : ∀ s : State, K s → K ⟨s.sys.withMutex none, none⟩)
    (h : Triple i (fun s => P s ∧ Mine i s) body (fun _ s => K s ∧ Stored i s) fun s => K s ∧ Stored i s) :
    Triple i P (Method.synchronize body) (fun _ => K) K :=
  spec_bind (triple_lock hP) fun _ =>
    spec_ensure h (fun _ => triple_unlock hK hkeep) fun _ => triple_unlock hK hkeep

-- The fork check finds that the process is the same.
theorem epCheck_keeps (hP : Stable i P) : Triple i P (epCheck 0) (fun _ => P) R := by
  have hself : ∀ pid, Stable i fun s => P s ∧ pid = s.sys.self :=
    fun pid => hP.and fun _ _ h hr => h.trans hr.self.symm
  refine spec_bind (M := fun pid s => P s ∧ pid = s.sys.self) ?_ fun pid => ?_
  · refine triple_read rfl hP hself fun s pid q hs hb he => ⟨hs, ?_⟩
    obtain ⟨member, hm, heq⟩ := Option.map_eq_some_iff.mp he
    cases heq
    rw [hb.member] at hm
    obtain rfl := List.mem_singleton.mp (List.mem_of_getElem? hm)
    rfl
  refine spec_bind (M := fun self s => P s ∧ pid = self) ?_ fun self => ?_
  · refine triple_read rfl (hself pid) (fun self => hP.and fun _ _ h _ => h) fun s self q hs hb he => ?_
    cases he
    exact hs
  by_cases heq : pid = self
  · rw [if_pos heq]
    exact spec_pure fun _ hs => hs.1
  · exact fun _ hs => absurd hs.2 heq

theorem fileno_answers (io : Obj) :
    Triple i (fun _ => True) (.attempt (.fileno io)) (fun fd => Answers io fd) fun _ => True := by
  intro s hs
  rw [along_attempt]
  intro s' hr
  refine ⟨rfl, fun step hstep => ?_⟩
  obtain ⟨⟨value, q⟩, he, heq⟩ := Option.map_eq_some_iff.mp hstep
  have hq := reads_near rfl hr.base.plain he
  rw [← heq]
  cases hfd : s'.sys.objects.fileno io with
  | none =>
      simp only [exec, answer_plain hr.base.plain, hfd] at he
      cases he
      trivial
  | some fd =>
      simp only [exec, answer_plain hr.base.plain, hfd] at he
      cases he
      refine ⟨hr.base.ordinary.born io fd hfd, fun fd' hf => ?_⟩
      exact (Option.some.inj (hfd.symm.trans hf)).symm

-- What `add`, `mod` and `set` register is in the list, and to be stored.
theorem epollCtl_stores {op : CtlOp} (hop : op ≠ .del) (cached : Prop) (io : Obj) (fd : Fd)
    (ev : EventArg) :
    Triple i (fun s => Answers io fd s ∧ Mine i s ∧ (cached → s.sys.family.marks.get fd = some io))
      (epollCtl 0 op io ev)
      (fun _ s => Storing i fd io s ∧ (cached → s.sys.family.marks.get fd = some io))
      (fun s => Answers io fd s ∧ Mine i s ∧ (cached → s.sys.family.marks.get fd = some io)) := by
  have hpre := (stable_answers (i := i) io fd).and (stable_marked cached fd (some io))
  refine spec_bind (read_keeps rfl hpre) fun ep => ?_
  intro s hs
  rw [along_attempt]
  intro s' hr
  have hs' := hpre s s' hs hr
  refine ⟨hs'.2.1, fun step hstep => ?_⟩
  obtain ⟨answer, s''⟩ := step
  rcases epollCtl_cases hr.base hstep with ⟨e, q, rfl, hq, rfl⟩ | ⟨q, fd', mask, rfl, _, hq, hfd, rfl⟩ |
    ⟨_, _, _, hdel, _⟩
  · exact hpre s' _ hs' (hq.rely hr.base)
  · obtain rfl := hs'.1.2 fd' hfd
    refine ⟨⟨hq.mutex.trans hs'.2.1.1, rfl, fun entry he => ?_⟩, fun hc => ?_⟩
    · rw [Sys.interestAt_setInterest (hr.base.near hq).made, Interest.register_apply, if_pos rfl] at he
      cases he
      rfl
    · show q.family.marks.get fd' = some io
      rw [hq.marks]
      exact hs'.2.2 hc
  · exact absurd hdel hop

theorem epollCtl_unlists (io : Obj) (fd : Fd) (ev : EventArg) :
    Triple i (fun s => Answers io fd s ∧ Mine i s) (epollCtl 0 .del io ev) (fun _ => Unlisted i fd)
      (Mine i) := by
  have hpre := (stable_answers (i := i) io fd).and stable_mine
  refine spec_bind (spec_mono (read_keeps rfl hpre) (fun _ h => h) (fun _ _ h => h)
    fun _ _ h => h) fun ep => ?_
  intro s hs
  rw [along_attempt]
  intro s' hr
  have hs' := hpre s s' hs hr
  refine ⟨hs'.2, fun step hstep => ?_⟩
  obtain ⟨answer, s''⟩ := step
  rcases epollCtl_cases hr.base hstep with ⟨e, q, rfl, hq, rfl⟩ | ⟨_, _, _, _, hdel, _⟩ |
    ⟨q, fd', rfl, _, hq, hfd, rfl⟩
  · exact stable_mine s' _ hs'.2 (hq.rely hr.base)
  · exact absurd rfl hdel
  · obtain rfl := hs'.1.2 fd' hfd
    refine ⟨⟨hq.mutex.trans hs'.2.1, rfl⟩, ?_⟩
    rw [Sys.interestAt_setInterest (hr.base.near hq).made, Interest.remove_apply, if_pos rfl]

-- A write to `@marks` that stores what is registered, or removes what is not.
theorem setMark_stores {fd : Fd} {mark : Option Obj} (hP : Stable i P)
    (hguard : ∀ s, P s → Guard i Unit s (.setMark fd mark)) :
    Triple i P (.perform (.setMark fd mark)) (fun _ => Stored i) R := by
  intro s hs
  rw [along_perform]
  intro s' hr
  have hg := hguard s' (hP s s' hs hr)
  refine ⟨hg, fun step hstep => ?_⟩
  cases hstep
  exact ⟨hg.1, nofun⟩

theorem setMark_some (fd : Fd) (io : Obj) :
    Triple i (Storing i fd io) (.perform (.setMark fd (some io))) (fun _ => Stored i) R := by
  refine setMark_stores (stable_storing fd io) fun s h => ⟨h.1, fun entry he => ?_, fun fd' o hs => ?_⟩
  · rw [h.2.2 entry he]
  · rw [h.2.1] at hs
    cases hs
    exact ⟨rfl, rfl⟩

theorem setMark_none (fd : Fd) :
    Triple i (Unlisted i fd) (.perform (.setMark fd none)) (fun _ => Stored i) R := by
  refine setMark_stores (stable_unlisted fd) fun s h => ⟨h.1.1, fun entry he => ?_, fun fd' o hs => ?_⟩
  · rw [h.2] at he
    cases he
  · rw [h.1.2] at hs
    cases hs

end Triples

section Methods

variable {i : Nat} {α : Type} {P : State → Prop}

-- A method that runs `body` on one descriptor once the check is passed.
theorem sync_sound {body : Method α} {io : Obj} {fd : Fd}
    (h : Triple i (fun s => Answers io fd s ∧ Mine i s) body (fun _ => Stored i) (Stored i)) :
    Triple i (Answers io fd) (Method.synchronize do epCheck 0; body) (fun _ _ => True) fun _ => True := by
  have hpre := (stable_answers (i := i) io fd).and stable_mine
  refine triple_synchronize (stable_answers io fd) stable_true (fun _ h => h) ?_
  refine spec_bind (epCheck_keeps hpre) fun _ => ?_
  exact spec_mono h (fun _ h => h) (fun _ _ h => ⟨trivial, h⟩) fun _ _ h => ⟨trivial, h⟩

-- The register, and then the two writes in either order.
theorem store_sound {op : CtlOp} (hop : op ≠ .del) (io : Obj) (fd : Fd) (events : EventArg)
    {rest : Method α} (h : Triple i (Storing i fd io) rest (fun _ => Stored i) (Stored i)) :
    Triple i (fun s => Answers io fd s ∧ Mine i s) (epollCtl 0 op io events >>= fun _ => rest)
      (fun _ => Stored i) (Stored i) := by
  refine spec_bind (M := fun _ => Storing i fd io) ?_ fun _ => h
  refine spec_mono (epollCtl_stores hop False io fd events) ?_ (fun _ _ h => h.1) fun _ _ h => h.2.1.stored
  exact fun s h => ⟨h.1, h.2, False.elim⟩

theorem remove_sound (io : Obj) (fd : Fd) (events : EventArg) {rest : Method α}
    (h : Triple i (Stored i) rest (fun _ => Stored i) (Stored i)) :
    Triple i (fun s => Answers io fd s ∧ Mine i s)
      (epollCtl 0 .del io events >>= fun _ => .perform (.setMark fd none) >>= fun _ => rest)
      (fun _ => Stored i) (Stored i) := by
  refine spec_bind (spec_mono (epollCtl_unlists io fd events) (fun _ h => h) (fun _ _ h => h)
    fun _ _ h => h.stored) fun _ => ?_
  exact spec_bind (setMark_none fd) fun _ => h

theorem events_stored (fd : Fd) (events : Option EventArg) :
    Triple i (Stored i) (.perform (.setEvents fd events)) (fun _ => Stored i) (Stored i) :=
  read_keeps rfl stable_stored

theorem add_sound (io : Obj) (events : EventArg) :
    Triple i (fun _ => True) (add 0 io events) (fun _ _ => True) fun _ => True := by
  refine spec_bind (fileno_answers io) fun fd => ?_
  refine spec_bind (M := fun _ => Answers io fd) ?_ fun flags => ?_
  · exact spec_ofExcept (fun _ _ _ h => h) fun _ _ _ _ => trivial
  refine spec_bind (M := fun _ _ => True) (sync_sound (store_sound (by decide) io fd flags ?_))
    fun _ => spec_pure fun _ _ => trivial
  exact spec_bind (read_keeps rfl (stable_storing fd io)) fun _ => setMark_some fd io

theorem mod_sound (io : Obj) (events : EventArg) :
    Triple i (fun _ => True) (mod 0 io events) (fun _ _ => True) fun _ => True := by
  refine spec_bind (M := fun _ _ => True) ?_ fun flags => ?_
  · exact spec_ofExcept (fun _ _ _ h => h) fun _ _ _ _ => trivial
  refine spec_bind (fileno_answers io) fun fd => ?_
  refine spec_bind (M := fun _ _ => True) (sync_sound (store_sound (by decide) io fd flags ?_))
    fun _ => spec_pure fun _ _ => trivial
  exact spec_bind (setMark_some fd io) fun _ => events_stored fd (some flags)

theorem del_sound (io : Obj) :
    Triple i (fun _ => True) (del 0 io) (fun _ _ => True) fun _ => True := by
  refine spec_bind (fileno_answers io) fun fd => ?_
  refine spec_bind (M := fun _ _ => True) ?_ fun _ => spec_pure fun _ _ => trivial
  exact sync_sound (remove_sound io fd (.int 0) (events_stored fd none))

theorem delete_sound (io : Obj) :
    Triple i (fun _ => True) (delete 0 io) (fun _ _ => True) fun _ => True := by
  refine spec_rescue (M := fun _ _ => True) ?_ fun e => ?_
  · refine spec_bind (fileno_answers io) fun fd => sync_sound ?_
    have hpre := (stable_answers (i := i) io fd).and stable_mine
    refine spec_bind (read_keeps rfl hpre) fun curIo => ?_
    cases curIo with
    | none => exact spec_pure fun _ h => h.2.stored
    | some curIo =>
        refine spec_bind (read_keeps rfl hpre) fun gone => ?_
        cases gone with
        | true => exact spec_pure fun _ h => h.2.stored
        | false =>
            refine remove_sound io fd (.int 0) ?_
            exact spec_bind (events_stored fd none) fun _ => spec_pure fun _ h => h
  · unfold rescueGone
    split
    · exact spec_pure fun _ _ => trivial
    · exact spec_raise fun _ _ => trivial

-- `cur_io == io` finds the same object, since an ordinary IO is only equal to
-- itself.
theorem curIoSame_marked (io : Obj) (fd : Fd) (curIo : Option Obj) :
    Triple i (fun s => Answers io fd s ∧ Mine i s ∧ (True → s.sys.family.marks.get fd = curIo))
      (curIoSame curIo io)
      (fun same s => Answers io fd s ∧ Mine i s ∧ (same = true → s.sys.family.marks.get fd = some io))
      (Stored i) := by
  cases curIo with
  | none => exact spec_pure fun _ h => ⟨h.1, h.2.1, nofun⟩
  | some cur =>
      refine triple_read rfl ((stable_answers io fd).and (stable_marked True fd (some cur)))
        (fun same => (stable_answers io fd).and (stable_marked (same = true) fd (some io))) ?_
      intro s same q hs hb he
      cases he
      refine ⟨hs.1, hs.2.1, fun hsame => ?_⟩
      rw [hb.ordinary.same, decide_eq_true_eq] at hsame
      exact hsame ▸ hs.2.2 trivial

theorem setCached_sound (io : Obj) (fd : Fd) (events : EventArg) :
    Triple i (fun s => Answers io fd s ∧ Mine i s ∧ (True → s.sys.family.marks.get fd = some io))
      (setCached 0 fd io events) (fun _ => Stored i) (Stored i) := by
  refine spec_rescue (spec_mono (epollCtl_stores (by decide) True io fd events) (fun _ h => h)
    (fun _ s h => ?_)
    fun _ _ h => h) fun e => ?_
  · refine ⟨h.1.1, fun fd' o hs => ?_⟩
    rw [h.1.2.1] at hs
    cases hs
    exact h.2 trivial
  · split
    · refine spec_mono (store_sound (by decide) io fd events (setMark_some fd io)) ?_
        (fun _ _ h => h) fun _ _ h => h
      exact fun _ h => ⟨h.1, h.2.1⟩
    · exact spec_raise fun _ h => h.2.1.stored

theorem setUncached_sound (io : Obj) (fd : Fd) (events : EventArg) :
    Triple i (fun s => Answers io fd s ∧ Mine i s) (setUncached 0 fd io events) (fun _ => Stored i)
      (Stored i) := by
  refine spec_bind (M := fun _ => Storing i fd io) ?_ fun _ => setMark_some fd io
  refine spec_rescue (spec_mono (epollCtl_stores (by decide) False io fd events) ?_ (fun _ _ h => h.1)
    fun _ _ h => h) fun e => ?_
  · exact fun s h => ⟨h.1, h.2, False.elim⟩
  · split
    · exact spec_mono (epollCtl_stores (by decide) False io fd events) (fun _ h => h) (fun _ _ h => h.1)
        fun _ _ h => h.2.1.stored
    · exact spec_raise fun _ h => h.2.1.stored

theorem set_sound (io : Obj) (events : EventArg) :
    Triple i (fun _ => True) (set 0 io events) (fun _ _ => True) fun _ => True := by
  refine spec_bind (fileno_answers io) fun fd => sync_sound ?_
  have hend : Triple i (Stored i) (.perform (.setEvents fd (some events)) >>= fun _ => Pure.pure Ret.zero)
      (fun _ => Stored i) (Stored i) := spec_bind (events_stored fd (some events)) fun _ =>
        spec_pure fun _ h => h
  refine spec_bind (M := fun curIo s =>
    Answers io fd s ∧ Mine i s ∧ (True → s.sys.family.marks.get fd = curIo)) ?_ fun curIo => ?_
  · refine triple_read rfl ((stable_answers io fd).and stable_mine)
      (fun curIo => (stable_answers io fd).and (stable_marked True fd curIo)) fun s curIo q hs _ he => ?_
    cases he
    exact ⟨hs.1, hs.2, fun _ => rfl⟩
  refine spec_bind (curIoSame_marked io fd curIo) fun same => ?_
  cases same with
  | false =>
      refine spec_bind (spec_mono (setUncached_sound io fd events) ?_ (fun _ _ h => h) fun _ _ h => h)
        fun _ => hend
      exact fun _ h => ⟨h.1, h.2.1⟩
  | true =>
      have hpre := (stable_answers (i := i) io fd).and (stable_marked (true = true) fd (some io))
      refine spec_bind (read_keeps rfl hpre) fun curEvents => ?_
      refine spec_bind (spec_ofExcept (fun _ _ _ h => h) fun _ _ _ h => h.2.1.stored) fun clear => ?_
      split
      · exact spec_pure fun _ h => h.2.1.stored
      · refine spec_bind (spec_mono (setCached_sound io fd events) ?_ (fun _ _ h => h) fun _ _ h => h)
          fun _ => hend
        exact fun _ h => ⟨h.1, h.2.1, fun _ => h.2.2 rfl⟩

theorem setSnapshot_drained (snapshot : Slots Obj) :
    Triple i (Drained i) (.perform (.setSnapshot snapshot)) (fun _ => Drained i) P := by
  intro s hs
  rw [along_perform]
  intro s' hr
  have hs' := stable_drained s s' hs hr
  refine ⟨hs', fun step hstep => ?_⟩
  cases hstep
  exact (congrArg Frame.buf (withFrame_self s'.sys i _)).trans hs'

theorem putBuf_drains : Triple i (fun _ => True) (.perform .putBuf) (fun _ => Drained i) P := by
  intro s _
  rw [along_perform]
  intro s' _
  refine ⟨trivial, fun step hstep => ?_⟩
  cases hstep
  exact congrArg Frame.buf (withFrame_self s'.sys i _)

theorem attempt_free {command : Cmd (Except Err α)} (hguard : ∀ s, Guard i (Except Err α) s command) :
    Triple i (fun _ => True) (.attempt command) (fun _ _ => True) fun _ => True := by
  intro s _
  rw [along_attempt]
  refine fun s' _ => ⟨hguard s', fun step _ => ?_⟩
  rcases step with ⟨_ | _, s''⟩
  · trivial
  · trivial

-- The buffer is given back however the block ends.
theorem epollWait_drained (maxevents : Int) :
    Triple i (Drained i) (epollWait 0 maxevents) (fun _ => Drained i) (Drained i) := by
  refine spec_bind (read_keeps rfl stable_drained) fun ep => ?_
  refine spec_ensure (Q := fun _ _ => True) (R := fun _ _ => True) ?_ (fun _ => putBuf_drains)
    fun _ => putBuf_drains
  refine spec_mono (P := fun _ => True) ?_ (fun _ _ => trivial) (fun _ _ h => h) fun _ _ h => h
  refine spec_bind (attempt_free fun _ => trivial) fun n => ?_
  refine spec_bind (M := fun _ _ => True) ?_ fun _ => spec_pure fun _ _ => trivial
  have hyield : Triple i (fun _ => True) (.attempt .yieldNext) (fun _ _ => True) fun _ => True :=
    attempt_free fun _ => trivial
  exact fun s _ => along_replicate (fun _ _ => True) trivial fun _ s' _ => hyield s' trivial

theorem wait_sound (maxevents : Option Int) :
    Triple i (Drained i) (wait 0 maxevents) (fun _ _ => True) fun _ => True := by
  have hpre := (stable_drained (i := i)).and stable_mine
  refine spec_bind (M := fun _ => Drained i) ?_ fun snapshot => ?_
  · refine spec_rescue (triple_synchronize stable_drained stable_drained (fun _ h => h) ?_)
      fun _ => spec_raise fun _ _ => trivial
    refine spec_bind (epCheck_keeps hpre) fun _ => ?_
    exact spec_mono (read_keeps (R := fun s => Drained i s ∧ Stored i s) rfl hpre) (fun _ h => h)
      (fun _ _ h => ⟨h.1, h.2.stored⟩) fun _ _ h => h
  refine spec_bind (setSnapshot_drained snapshot) fun _ => ?_
  refine spec_bind (M := fun _ _ => True) ?_ fun n => spec_pure fun _ _ => trivial
  refine spec_ensure (epollWait_drained _) (fun _ => ?_) fun _ => ?_
  · exact spec_mono (setSnapshot_drained (P := fun _ => True) _) (fun _ h => h) (fun _ _ _ => trivial)
      fun _ _ h => h
  · exact spec_mono (setSnapshot_drained (P := fun _ => True) _) (fun _ h => h) (fun _ _ _ => trivial)
      fun _ _ h => h

theorem method_sound {op : Op} (h : Op.watches op = true) :
    Triple i (Drained i) (method 0 op) (fun _ _ => True) fun _ => True := by
  have hany : ∀ {program : Method Ret}, Triple i (fun _ => True) program (fun _ _ => True) (fun _ => True) →
      Triple i (Drained i) program (fun _ _ => True) fun _ => True :=
    fun h => spec_mono h (fun _ _ => trivial) (fun _ _ h => h) fun _ _ h => h
  cases op with
  | wait maxevents => exact wait_sound maxevents
  | add io events => exact hany (add_sound io events)
  | del io => exact hany (del_sound io)
  | delete io => exact hany (delete_sound io)
  | mod io events => exact hany (mod_sound io events)
  | set io events => exact hany (set_sound io events)
  | _ => cases h

end Methods

structure Sound (w : World) : Prop where
  base : Base w.state
  buffered : Buffered w.state
  fresh : ∀ i, w.calls.length ≤ i → w.state.sys.frames i = Frame.empty
  steady : Steady perform (fun i _ _ => Rely i) Guard w.calls w.state

section Steps

variable {w w' : World}

theorem rely_trans : ∀ (j : Nat) (β : Type) (_ : Cmd β) (a b c : State), Rely j a b → Rely j b c →
    Rely j a c :=
  fun _ _ _ _ _ _ h h' => h.trans h'

theorem Sound.kept (h : Sound w) {label : Label} (hc : Careful w label) : Kept w label := by
  cases label with
  | perform i oracle =>
      intro o ho
      obtain ⟨event, hmem, rfl⟩ : ∃ event ∈ (w.state.sys.frames i).buf, event.2 = o := by
        unfold World.yields at ho
        split at ho
        · obtain ⟨event, hhead, heq⟩ := Option.map_eq_some_iff.mp ho
          exact ⟨event, List.mem_of_mem_head? hhead, heq⟩
        · cases ho
      rcases h.buffered i event hmem with hheld | ⟨fd, hfd⟩
      · exact hheld
      · exact hc.1 event.2 ho (by rw [hfd]; rfl)
  | _ => trivial

theorem begin_sound {op : Op} (h : Sound w) (hs : step w (.begin op) = some w') : Sound w' := by
  obtain ⟨hop, hs⟩ := Option.ite_none_right_eq_some.mp hs
  obtain rfl := Option.some.inj hs
  have hdrained : Drained w.calls.length w.state := congrArg Frame.buf (h.fresh _ (Nat.le_refl _))
  refine ⟨h.base, h.buffered, fun i hi => h.fresh i ?_, h.steady.concat (method_sound hop w.state hdrained)⟩
  rw [List.length_append] at hi
  exact Nat.le_trans (Nat.le_add_right ..) hi

theorem perform_sound {i : Nat} {oracle : Oracle} (h : Sound w) (hc : Careful w (.perform i oracle))
    (hs : step w (.perform i oracle) = some w') : Sound w' := by
  obtain ⟨⟨calls, s⟩, ha, rfl⟩ := Option.map_eq_some_iff.mp hs
  obtain ⟨β, command, rest, answer, hget, hstep, rfl⟩ := advance_cases ha
  have hb := h.base
  have hbase : Base (w.state.given oracle) :=
    ⟨hb.member, hb.handle, hb.made, hb.ordinary, rfl, hb.free, hb.pinned⟩
  have hsteady : Steady perform (fun i _ _ => Rely i) Guard w.calls (w.state.given oracle) :=
    h.steady.later rely_trans fun _ _ _ => .of_same hbase rfl rfl rfl rfl rfl rfl rfl
  have hself : Rely i (w.state.given oracle) (w.state.given oracle) :=
    .of_same hbase rfl rfl rfl rfl rfl rfl rfl
  have heffect := perform_effect hbase (hsteady.guarded hget hself) hstep
  have hothers : ∀ j, j ≠ i → Rely j (w.state.given oracle) s := fun j hj => heffect.rely hbase hj
  refine ⟨heffect.base hbase, heffect.buffered hbase h.buffered ?_, fun j hj => ?_,
    hsteady.advance rely_trans hget hself hstep fun j _ _ hj => hothers j hj⟩
  · intro write hwrite j event hmem hmarks
    have hwrites : write ∈ w.writes i := by
      unfold World.writes
      rw [hget]
      exact hwrite
    by_cases hj : j < w.calls.length
    · exact hc.2 write hwrites j hj event hmem hmarks
    · have hempty : (w.state.given oracle).sys.frames j = Frame.empty := h.fresh j (Nat.le_of_not_lt hj)
      rw [hempty] at hmem
      cases hmem
  · rw [List.length_set] at hj
    have hlt := (List.getElem?_eq_some_iff.mp hget).1
    exact (hothers j (by omega)).frame.trans (h.fresh j hj)

theorem openIo_sound {fd : Fd} (h : Sound w) (hs : step w (.openIo fd) = some w') : Sound w' := by
  obtain ⟨sys, ho, rfl⟩ := Option.map_eq_some_iff.mp hs
  obtain ⟨hfree, ho⟩ := Option.ite_none_right_eq_some.mp ho
  obtain rfl := Option.some.inj ho
  have hb := h.base
  have hbase : Base { w.state with sys :=
    { w.state.sys with objects := w.state.sys.objects.openNew fd } } :=
    ⟨hb.member, hb.handle, hb.made, hb.ordinary.openIo hfree, hb.plain, hb.free, hb.pinned⟩
  refine ⟨hbase, h.buffered, h.fresh, h.steady.later rely_trans fun j _ _ => ?_⟩
  refine ⟨hbase, rfl, rfl, Nat.le_succ _, fun o fd' ho hf => ?_, id, fun _ => rfl, fun _ => rfl,
    fun _ fd entry he => ⟨entry, he, rfl⟩⟩
  replace hf : (w.state.sys.objects.openNew fd).fileno o = some fd' := hf
  rw [Objects.openNew_fileno, if_neg (Nat.ne_of_lt ho)] at hf
  exact hf

theorem closeIo_sound {io : Obj} (h : Sound w) (hs : step w (.closeIo io) = some w') : Sound w' := by
  obtain ⟨sys, ho, rfl⟩ := Option.map_eq_some_iff.mp hs
  obtain ⟨fd, hfd, rfl⟩ := Option.map_eq_some_iff.mp ho
  have hb := h.base
  have hremoved : ∀ {other : Fd} {entry : Entry}, (w.state.sys.forget fd).interestAt 0 other = some entry →
      w.state.sys.interestAt 0 other = some entry := by
    intro other entry he
    rw [Sys.interestAt_forget, Interest.remove_apply] at he
    split at he
    · cases he
    · exact he
  have hbase : Base { w.state with sys := { w.state.sys.forget fd with
      objects := w.state.sys.objects.close io } } := by
    refine ⟨hb.member, hb.handle, ?_, hb.ordinary.closeIo io, hb.plain, hb.free,
      fun other entry he => hb.pinned other entry (hremoved he)⟩
    rw [Sys.forget, List.length_map]
    exact hb.made
  refine ⟨hbase, h.buffered, h.fresh, h.steady.later rely_trans fun j _ _ => ?_⟩
  refine ⟨hbase, rfl, rfl, Nat.le_refl _, fun o fd' _ hf => ?_, id, fun _ => rfl, fun _ => rfl,
    fun _ other entry he => ⟨entry, hremoved he, rfl⟩⟩
  replace hf : (w.state.sys.objects.close io).fileno o = some fd' := hf
  rw [Objects.close_fileno] at hf
  split at hf
  · cases hf
  · exact hf

theorem step_sound {label : Label} (h : Sound w) (hc : Careful w label) (hs : step w label = some w') :
    Sound w' := by
  cases label with
  | begin op => exact begin_sound h hs
  | perform i oracle => exact perform_sound h hc hs
  | openIo fd => exact openIo_sound h hs
  | closeIo io => exact closeIo_sound h hs

theorem start_sound (pid : Pid) {objects : Objects} (ho : Ordinary objects) :
    Sound (start pid objects) := by
  refine ⟨⟨rfl, rfl, Nat.zero_lt_one, ho, rfl, fun _ => rfl, fun _ _ he => ?_⟩, fun _ _ hmem => ?_,
    fun _ _ => rfl, fun i call hcall => ?_⟩
  · cases he
  · cases hmem
  · cases hcall

end Steps

-- Whatever `wait` yields is held by `@marks` or by the snapshot of the call, as
-- long as every step is careful.
theorem yields_held (pid : Pid) (objects : Objects) (ho : Ordinary objects) (labels : List Label)
    (hg : Guarded step Careful (start pid objects) labels) : Guarded step Kept (start pid objects) labels :=
  guarded_of_invariant Sound (fun _ _ h hc => h.kept hc) (fun _ _ _ h hc hs => step_sound h hc hs)
    (start_sound pid ho) hg

-- A thread waits; another one registers an IO, and an event on it is delivered
-- to the first.
def delivered : List Label :=
  [.openIo 5, .begin (.wait none)] ++ List.replicate 6 (.perform 0 {}) ++
    [.begin (.add 0 (.int 1))] ++ List.replicate 9 (.perform 1 {}) ++
    List.replicate 2 (.perform 0 { ready := [(5, 1)] })

-- The IO is removed once it has been yielded.
def yieldedFirst : List Label :=
  delivered ++ [.perform 0 {}, .begin (.del 0)] ++ List.replicate 9 (.perform 2 {})

theorem yields_held_first :
    (runEvents step (start 1 noObjects) yieldedFirst).isSome = true ∧
      Guarded step Kept (start 1 noObjects) yieldedFirst :=
  ⟨by decide +kernel, yields_held 1 noObjects noObjects_ordinary yieldedFirst (by decide +kernel)⟩

-- It is removed before: the first thread yields an object that neither
-- `@marks` nor its snapshot has.
def removedFirst : List Label := delivered ++ [.begin (.del 0)] ++ List.replicate 9 (.perform 2 {})

theorem removed_yielded :
    (runEvents step (start 1 noObjects) removedFirst).map
        (fun w => (w.yields 0, decide (Held w.state.sys 0 0))) = some (some 0, false) ∧
      ¬Guarded step Kept (start 1 noObjects) (removedFirst ++ [.perform 0 {}]) := by
  decide +kernel

end SleepyPenguin.Epoll.Threads
