import SleepyPenguin.Runtime.Command

namespace SleepyPenguin

open Foundation Foundation.Prog

section Rules

variable {t : Nat} {s : Sys} {fail : Err → Sys → Prop}

@[simp] theorem wp_self (post : Pid → Sys → Prop) :
    wp (exec t) post fail (perform .self) s ↔ post s.self s :=
  (wp_perform rfl).trans Iff.rfl

@[simp] theorem wp_getPid (post : Pid → Sys → Prop) (m : Nat) :
    wp (exec t) post fail (perform (.getPid m)) s ↔
      ∃ x, s.family.members[m]? = some x ∧ post x.pid s :=
  (wp_perform_map rfl).trans Iff.rfl

@[simp] theorem wp_setPid (post : Unit → Sys → Prop) (m : Nat) (pid : Pid) :
    wp (exec t) post fail (perform (.setPid m pid)) s ↔
      ∃ x, s.family.members[m]? = some x ∧ post () (s.setMember m { x with pid := pid }) :=
  (wp_perform_map rfl).trans Iff.rfl

@[simp] theorem wp_getIo (post : Nat → Sys → Prop) (m : Nat) :
    wp (exec t) post fail (perform (.getIo m)) s ↔
      ∃ x, s.family.members[m]? = some x ∧ post x.io s :=
  (wp_perform_map rfl).trans Iff.rfl

@[simp] theorem wp_setIo (post : Unit → Sys → Prop) (m io : Nat) :
    wp (exec t) post fail (perform (.setIo m io)) s ↔
      ∃ x, s.family.members[m]? = some x ∧ post () (s.setMember m { x with io := io }) :=
  (wp_perform_map rfl).trans Iff.rfl

@[simp] theorem wp_allocate (post : Nat → Sys → Prop) (m : Nat) :
    wp (exec t) post fail (perform (.allocate m)) s ↔
      ∃ x, s.family.members[m]? = some x ∧
        post s.family.members.length { s with family.members := s.family.members ++ [x] } :=
  (wp_perform_map rfl).trans Iff.rfl

@[simp] theorem wp_discard (post : Unit → Sys → Prop) :
    wp (exec t) post fail (perform .discard) s ↔
      post () { s with family.members := s.family.members.dropLast } :=
  (wp_perform rfl).trans Iff.rfl

@[simp] theorem wp_create (post : Except Errno Nat → Sys → Prop) :
    wp (exec t) post fail (perform .create) s ↔ post s.create.1 s.create.2 :=
  (wp_perform rfl).trans Iff.rfl

@[simp] theorem wp_closed (post : Bool → Sys → Prop) (io : Nat) :
    wp (exec t) post fail (perform (.closed io)) s ↔
      ∃ x, s.family.handles[io]? = some x ∧ post x.closed s :=
  (wp_perform_map rfl).trans Iff.rfl

@[simp] theorem wp_getCopies (post : List (Nat × Nat) → Sys → Prop) :
    wp (exec t) post fail (perform .getCopies) s ↔ post s.family.copies s :=
  (wp_perform rfl).trans Iff.rfl

@[simp] theorem wp_setCopies (post : Unit → Sys → Prop) (copies : List (Nat × Nat)) :
    wp (exec t) post fail (perform (.setCopies copies)) s ↔
      post () { s with family.copies := copies } :=
  (wp_perform rfl).trans Iff.rfl

@[simp] theorem wp_lock (post : Unit → Sys → Prop) :
    wp (exec t) post fail (perform .lock) s ↔
      s.family.mutex = none ∧ post () (s.withMutex (some t)) := by
  cases h : s.family.mutex with
  | none =>
      have hlock : exec t _ s .lock = some ((), s.withMutex (some t)) := by simp only [exec, h]
      rw [wp_perform hlock]
      exact ⟨fun hp => ⟨rfl, hp⟩, fun hp => hp.2⟩
  | some holder =>
      have hlock : exec t _ s .lock = none := by simp only [exec, h]
      constructor
      · rintro ⟨step, hstep, _⟩
        rw [hlock] at hstep
        cases hstep
      · rintro ⟨hnone, _⟩
        cases hnone

@[simp] theorem wp_unlock (post : Unit → Sys → Prop) :
    wp (exec t) post fail (perform .unlock) s ↔ post () (s.withMutex none) :=
  (wp_perform rfl).trans Iff.rfl

@[simp] theorem wp_clearEvents (post : Unit → Sys → Prop) :
    wp (exec t) post fail (perform .clearEvents) s ↔
      post () { s with family.events := Slots.empty } :=
  (wp_perform rfl).trans Iff.rfl

@[simp] theorem wp_clearMarks (post : Unit → Sys → Prop) :
    wp (exec t) post fail (perform .clearMarks) s ↔
      post () { s with family.marks := Slots.empty } :=
  (wp_perform rfl).trans Iff.rfl

@[simp] theorem wp_getMarks (post : Slots Obj → Sys → Prop) :
    wp (exec t) post fail (perform .getMarks) s ↔ post s.family.marks s :=
  (wp_perform rfl).trans Iff.rfl

@[simp] theorem wp_getMark (post : Option Obj → Sys → Prop) (fd : Fd) :
    wp (exec t) post fail (perform (.getMark fd)) s ↔ post (s.family.marks.get fd) s :=
  (wp_perform rfl).trans Iff.rfl

@[simp] theorem wp_setMark (post : Unit → Sys → Prop) (fd : Fd) (mark : Option Obj) :
    wp (exec t) post fail (perform (.setMark fd mark)) s ↔
      post () { s with family.marks := s.family.marks.set fd mark } :=
  (wp_perform rfl).trans Iff.rfl

@[simp] theorem wp_getEvents (post : Option EventArg → Sys → Prop) (fd : Fd) :
    wp (exec t) post fail (perform (.getEvents fd)) s ↔ post (s.family.events.get fd) s :=
  (wp_perform rfl).trans Iff.rfl

@[simp] theorem wp_setEvents (post : Unit → Sys → Prop) (fd : Fd) (events : Option EventArg) :
    wp (exec t) post fail (perform (.setEvents fd events)) s ↔
      post () { s with family.events := s.family.events.set fd events } :=
  (wp_perform rfl).trans Iff.rfl

@[simp] theorem wp_same (post : Bool → Sys → Prop) (obj other : Obj) :
    wp (exec t) post fail (perform (.same obj other)) s ↔ post (s.objects.same obj other) s :=
  (wp_perform rfl).trans Iff.rfl

@[simp] theorem wp_isClosed (post : Bool → Sys → Prop) (obj : Obj) :
    wp (exec t) post fail (perform (.isClosed obj)) s ↔
      post (s.answer obj).1.isNone (s.answer obj).2 :=
  (wp_perform rfl).trans Iff.rfl

@[simp] theorem wp_setSnapshot (post : Unit → Sys → Prop) (snapshot : Slots Obj) :
    wp (exec t) post fail (perform (.setSnapshot snapshot)) s ↔
      post () { s with
        frames := Function.update s.frames t { s.frames t with snapshot := snapshot } } :=
  (wp_perform rfl).trans Iff.rfl

@[simp] theorem wp_putBuf (post : Unit → Sys → Prop) :
    wp (exec t) post fail (perform .putBuf) s ↔
      post () { s with frames := Function.update s.frames t { s.frames t with buf := [] } } :=
  (wp_perform rfl).trans Iff.rfl

@[simp] theorem wp_fileno (post : Fd → Sys → Prop) (obj : Obj) :
    wp (exec t) post fail (attempt (.fileno obj)) s ↔
      (∀ fd, (s.answer obj).1 = some fd → post fd (s.answer obj).2) ∧
      ((s.answer obj).1 = none → fail .ioError (s.answer obj).2) := by
  rw [wp_attempt]
  cases h : s.answer obj with
  | mk answer next =>
      cases answer with
      | none => simp [exec, h]
      | some fd => simp [exec, h]

@[simp] theorem wp_dup (post : Nat → Sys → Prop) (io : Nat) :
    wp (exec t) post fail (attempt (.dup io)) s ↔
      ∃ x, s.family.handles[io]? = some x ∧ Ends post fail (s.dup x) :=
  (wp_attempt_map rfl).trans Iff.rfl

@[simp] theorem wp_close (post : Unit → Sys → Prop) (io : Nat) :
    wp (exec t) post fail (attempt (.close io)) s ↔
      ∃ x, s.family.handles[io]? = some x ∧ Ends post fail (s.close io x) :=
  (wp_attempt_map rfl).trans Iff.rfl

@[simp] theorem wp_autocloseOff (post : Unit → Sys → Prop) (io : Nat) :
    wp (exec t) post fail (attempt (.autocloseOff io)) s ↔
      ∃ x, s.family.handles[io]? = some x ∧ Ends post fail (s.autocloseOff io x) :=
  (wp_attempt_map rfl).trans Iff.rfl

@[simp] theorem wp_epollCtl (post : Unit → Sys → Prop) (io : Nat) (op : CtlOp) (obj : Obj)
    (events : EventArg) :
    wp (exec t) post fail (attempt (.epollCtl io op obj events)) s ↔
      ∃ x, s.family.handles[io]? = some x ∧ ∃ inst, s.kernel.insts[x.inst]? = some inst ∧
        Ends post fail (s.epctl x inst op obj events) :=
  (wp_attempt_bind rfl).trans Iff.rfl

@[simp] theorem wp_epollWait (post : Nat → Sys → Prop) (io : Nat) (maxevents : Int) :
    wp (exec t) post fail (attempt (.epollWait io maxevents)) s ↔
      ∃ x, s.family.handles[io]? = some x ∧ ∃ inst, s.kernel.insts[x.inst]? = some inst ∧
        Ends post fail (s.epwait t x inst maxevents) :=
  (wp_attempt_bind rfl).trans Iff.rfl

@[simp] theorem wp_kevent (post : Nat → Sys → Prop) (io : Nat) (changelist : List KeventItem)
    (nevents : Nat) :
    wp (exec t) post fail (attempt (.kevent io changelist nevents)) s ↔
      ∃ x, s.family.handles[io]? = some x ∧ Ends post fail (s.kevent t x changelist nevents) :=
  (wp_attempt_map rfl).trans Iff.rfl

theorem wp_yieldNext (post : Unit → Sys → Prop) :
    wp (exec t) post fail (attempt .yieldNext) s ↔
      ∃ step, s.yieldNext t = some step ∧ Ends post fail step :=
  wp_attempt

@[simp] theorem wp_synchronize {α : Type} (post : α → Sys → Prop) (body : Method α) :
    wp (exec t) post fail (Method.synchronize body) s ↔
      s.family.mutex = none ∧
        wp (exec t) (fun value s => post value (s.withMutex none))
          (fun e s => fail e (s.withMutex none)) body (s.withMutex (some t)) := by
  simp only [Method.synchronize, wp_monad_bind, wp_lock, wp_ensure, wp_unlock]

-- A buffer with `n` events left yields `n` times; a block that raises or
-- breaks leaves the rest.
theorem wp_yields {P : Sys → Prop} {n : Nat}
    (hP : ∀ q frames blocks, P q → P { q with frames := frames, oracle.blocks := blocks })
    (h : P s) (hn : (s.frames t).buf.length = n) :
    wp (exec t) (fun _ q => P q) (fun _ q => P q) (replicate n (attempt .yieldNext)) s := by
  refine wp_mono (wp_replicate (fun k q => P q ∧ (q.frames t).buf.length = k) ⟨h, hn⟩ ?_)
    (fun _ _ h => h.1) (fun _ _ h => h)
  intro k q ⟨hq, hk⟩
  rw [wp_yieldNext]
  rcases hb : (q.frames t).buf with _ | ⟨event, rest⟩
  · simp [hb] at hk
  · have hrest : rest.length = k := by simpa [hb] using hk
    simp only [Sys.yieldNext, hb]
    cases q.oracle.blocks.headD none with
    | some tag => exact ⟨_, rfl, hP _ _ _ hq⟩
    | none => exact ⟨_, rfl, hP _ _ _ hq, by simpa using hrest⟩

end Rules

-- The process and the objects that are handed to the methods.
structure SameWorld (s s' : Sys) : Prop where
  self : s'.self = s.self
  objects : s'.objects = s.objects

namespace SameWorld

theorem refl (s : Sys) : SameWorld s s := ⟨rfl, rfl⟩

theorem answer (s : Sys) (obj : Obj) : SameWorld s (s.answer obj).2 := by
  unfold Sys.answer
  split
  · exact refl s
  · exact ⟨rfl, rfl⟩

theorem create (s : Sys) : SameWorld s s.create.2 := by
  rcases s.create_cases with ⟨errno, _, hcreate⟩ | ⟨_, hcreate⟩
  · rw [hcreate]
    exact ⟨rfl, rfl⟩
  · rw [hcreate]
    exact ⟨rfl, rfl⟩

theorem dup (s : Sys) (x : Handle) : SameWorld s (s.dup x).2 := by
  cases hc : x.closed with
  | true =>
      rw [s.dup_closed hc]
      exact refl s
  | false =>
      rcases s.dup_open hc with ⟨errno, _, hdup⟩ | ⟨_, hdup⟩
      · rw [hdup]
        exact ⟨rfl, rfl⟩
      · rw [hdup]
        exact ⟨rfl, rfl⟩

theorem close (s : Sys) (io : Nat) (x : Handle) : SameWorld s (s.close io x).2 := by
  unfold Sys.close
  split
  · exact refl s
  · simp only
    split
    · exact ⟨rfl, rfl⟩
    · exact ⟨rfl, rfl⟩

theorem autocloseOff (s : Sys) (io : Nat) (x : Handle) : SameWorld s (s.autocloseOff io x).2 := by
  unfold Sys.autocloseOff
  split
  · exact refl s
  · exact ⟨rfl, rfl⟩

theorem epctl (s : Sys) (x : Handle) (inst : Inst) (op : CtlOp) (io : Obj) (events : EventArg) :
    SameWorld s (s.epctl x inst op io events).2 := by
  unfold Sys.epctl
  split
  · exact refl s
  · have ha := answer s io
    rcases hanswer : s.answer io with ⟨_ | fd, q⟩
    · rw [hanswer] at ha
      exact ha
    · rw [hanswer] at ha
      simp only
      split
      · exact ha
      · split
        · exact ⟨ha.self, ha.objects⟩
        · split
          · exact ⟨ha.self, ha.objects⟩
          · exact ⟨ha.self, ha.objects⟩

theorem epwait (s : Sys) (t : Nat) (x : Handle) (inst : Inst) (maxevents : Int) :
    SameWorld s (s.epwait t x inst maxevents).2 := by
  unfold Sys.epwait
  split
  · exact refl s
  · split
    · exact refl s
    · simp only
      split
      · exact ⟨rfl, rfl⟩
      · exact ⟨rfl, rfl⟩

theorem kevent (s : Sys) (t : Nat) (x : Handle) (changelist : List KeventItem) (nevents : Nat) :
    SameWorld s (s.kevent t x changelist nevents).2 := by
  unfold Sys.kevent
  split
  · exact refl s
  · split
    · exact refl s
    · simp only
      split
      · exact ⟨rfl, rfl⟩
      · exact ⟨rfl, rfl⟩
      · exact ⟨rfl, rfl⟩

theorem yieldNext {s : Sys} {t : Nat} {step : Except Err Unit × Sys} (h : s.yieldNext t = some step) :
    SameWorld s step.2 := by
  unfold Sys.yieldNext at h
  split at h
  · cases h
  · simp only at h
    split at h
    · cases h
      exact ⟨rfl, rfl⟩
    · cases h
      exact ⟨rfl, rfl⟩

end SameWorld

-- No command makes another process of this one, or other objects.
theorem exec_sameWorld {t : Nat} {β : Type} {s : Sys} {command : Cmd β} {step : β × Sys}
    (h : exec t β s command = some step) : SameWorld s step.2 := by
  cases command with
  | self | discard | getCopies | setCopies | unlock | clearEvents | clearMarks | getMarks | getMark
  | setMark | getEvents | setEvents | same | setSnapshot | putBuf =>
      cases h
      exact ⟨rfl, rfl⟩
  | getPid m | setPid m pid | getIo m | setIo m io | allocate m | closed io =>
      obtain ⟨x, _, rfl⟩ := Option.map_eq_some_iff.mp h
      exact ⟨rfl, rfl⟩
  | create =>
      cases h
      exact .create s
  | dup io =>
      obtain ⟨x, _, rfl⟩ := Option.map_eq_some_iff.mp h
      exact .dup s x
  | close io =>
      obtain ⟨x, _, rfl⟩ := Option.map_eq_some_iff.mp h
      exact .close s io x
  | autocloseOff io =>
      obtain ⟨x, _, rfl⟩ := Option.map_eq_some_iff.mp h
      exact .autocloseOff s io x
  | lock =>
      simp only [exec] at h
      split at h
      · cases h
        exact ⟨rfl, rfl⟩
      · cases h
  | fileno obj =>
      have ha := SameWorld.answer s obj
      simp only [exec] at h
      split at h
      · rename_i fd next hanswer
        cases h
        rw [hanswer] at ha
        exact ha
      · rename_i next hanswer
        cases h
        rw [hanswer] at ha
        exact ha
  | isClosed obj =>
      cases h
      exact .answer s obj
  | epollCtl io op obj events =>
      obtain ⟨x, _, hx⟩ := Option.bind_eq_some_iff.mp h
      obtain ⟨inst, _, rfl⟩ := Option.map_eq_some_iff.mp hx
      exact .epctl ..
  | epollWait io maxevents =>
      obtain ⟨x, _, hx⟩ := Option.bind_eq_some_iff.mp h
      obtain ⟨inst, _, rfl⟩ := Option.map_eq_some_iff.mp hx
      exact .epwait ..
  | kevent io changelist nevents =>
      obtain ⟨x, _, rfl⟩ := Option.map_eq_some_iff.mp h
      exact .kevent ..
  | yieldNext => exact .yieldNext h

theorem run_sameWorld {t : Nat} {α : Type} {program : Method α} {s : Sys} {result : Except Err α × Sys}
    (h : program.run (exec t) s = some result) : SameWorld s result.2 := by
  induction program generalizing s with
  | pure value =>
      cases h
      exact .refl s
  | raise error =>
      cases h
      exact .refl s
  | cmd command rest ih =>
      obtain ⟨step, hstep, hrest⟩ := Option.bind_eq_some_iff.mp h
      have hfirst := exec_sameWorld hstep
      have hlater := ih step.1 hrest
      exact ⟨hlater.self.trans hfirst.self, hlater.objects.trans hfirst.objects⟩

end SleepyPenguin
