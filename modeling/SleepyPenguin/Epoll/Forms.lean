import SleepyPenguin.Epoll.Effects
import SleepyPenguin.Foundation.Rely

-- The forms in which events may be given to add, mod and set.
namespace SleepyPenguin.Epoll.Forms

open Foundation

-- An event specification and the Integer that `__event_flags` computes for it.
-- An Integer is given as an unsigned one.
structure Accepts (spec : EventArg) (mask : Nat) : Prop where
  flags : rbSpGetUflags spec = .ok mask
  unsigned : ∀ n, spec = .int n → 0 ≤ n

-- The object `m` is one that the fork check leaves alone.
def Passed (s : Sys) (m : Nat) : Prop :=
  ∃ member, s.family.members[m]? = some member ∧
    (member.pid = s.self ∨ ∃ x, s.family.handles[member.io]? = some x ∧ x.closed = true)

-- What `set` does once the fork check is through.
def setBody (m : Nat) (fd : Fd) (io : Obj) (events : EventArg) : Method Ret := do
  let curIo ← .perform (.getMark fd)
  if ← curIoSame curIo io then
    let curEvents ← .perform (.getEvents fd)
    let clear ← .ofExcept (noOneshot curEvents)
    if clear ∧ curEvents = some events then pure .zero
    else
      setCached m fd io events
      .perform (.setEvents fd (some events))
      pure .zero
  else
    setUncached m fd io events
    .perform (.setEvents fd (some events))
    pure .zero

theorem set_eq (m : Nat) (io : Obj) (events : EventArg) :
    set m io events = (do
      let fd ← .attempt (.fileno io)
      Method.synchronize do
        epCheck m
        setBody m fd io events) := rfl

open Foundation.Prog

-- The object's IO is on an instance of the kernel.
structure Located (s : Sys) (m : Nat) (member : Member) (x : Handle) (inst : Inst) : Prop where
  listed : s.family.members[m]? = some member
  handle : s.family.handles[member.io]? = some x
  inst : s.kernel.insts[x.inst]? = some inst

-- epoll_ctl gets as far as the events: the epoll is open, and so is the IO when
-- it is asked for its number once more.
def Calls (s : Sys) (m : Nat) (io : Obj) : Prop :=
  ∃ member x inst, Located s m member x inst ∧ x.closed = false ∧ (s.answer io).1 ≠ none

-- The Integer is what the cache holds for the IO, and not a one-shot.
def Skips (s : Sys) (fd : Fd) (io : Obj) (mask : Nat) : Prop :=
  ∃ cur, s.family.marks.get fd = some cur ∧ s.objects.same cur io = true ∧
    s.family.events.get fd = some (.int mask) ∧ oneshotBit mask = false

-- The cache is looked at without an exception.
def Looks (s : Sys) (fd : Fd) (io : Obj) : Prop :=
  ∀ cur, s.family.marks.get fd = some cur → s.objects.same cur io = true →
    ∃ clear, noOneshot (s.family.events.get fd) = .ok clear

-- A `set` in this state comes to where the events matter: the IO has a number,
-- the fork check is through, and the cache or epoll_ctl looks at them.
def Consults (s : Sys) (m : Nat) (io : Obj) (mask : Nat) : Prop :=
  ∃ fd s₁ q, s.answer io = (some fd, s₁) ∧ s₁.family.mutex = none ∧
    (epCheck m).run (exec 0) (s₁.withMutex (some 0)) = some (.ok (), q) ∧
    (Skips q fd io mask ∨ Looks q fd io ∧ Calls q m io)

section Specs

variable {spec : EventArg} {mask : Nat}

theorem getAry_lt {rv mask : Nat} {elements : List (Option Sym)} (hrv : rv < 0x100000000)
    (h : getAry num2uint rv elements = .ok mask) : mask < 0x100000000 := by
  induction elements generalizing rv with
  | nil =>
      cases h
      exact hrv
  | cons first rest ih =>
      rw [getAry] at h
      cases hs : element num2uint first with
      | error e =>
          rw [hs] at h
          cases h
      | ok n =>
          rw [hs] at h
          exact ih (Nat.or_lt_two_pow (n := 32) hrv (element_lt hs)) h

theorem Accepts.lt (h : Accepts spec mask) : mask < 0x100000000 := by
  have hflags := h.flags
  cases spec with
  | nil =>
      cases hflags
      decide
  | int n => exact num2uint_lt hflags
  | sym s => exact Sym.constGet_lt hflags
  | ary elements => exact getAry_lt (by decide) hflags
  | other => cases hflags

theorem Accepts.eventFlags (h : Accepts spec mask) : eventFlags spec = .ok (.int mask) := by
  simp only [SleepyPenguin.eventFlags, h.flags]
  rfl

end Specs

section Reached

variable {t m : Nat} {s : Sys} {io : Obj} {op : CtlOp} {ev : EventArg} {mask : Nat}
  {post : Unit → Sys → Prop} {fail : Err → Sys → Prop}

theorem wp_epollCtl_iff :
    wp (exec t) post fail (epollCtl m op io ev) s ↔
      ∃ member x inst, Located s m member x inst ∧ Ends post fail (s.epctl x inst op io ev) := by
  simp only [epollCtl, wp_monad_bind, wp_getIo, SleepyPenguin.wp_epollCtl]
  constructor
  · rintro ⟨member, hm, x, hx, inst, hi, h⟩
    exact ⟨member, x, inst, ⟨hm, hx, hi⟩, h⟩
  · rintro ⟨member, x, inst, ⟨hm, hx, hi⟩, h⟩
    exact ⟨member, hm, x, hx, inst, hi, h⟩

-- How an epoll_ctl ends that takes no events: the epoll or the IO is closed, or
-- they are no Integer.
def refusal (s : Sys) (x : Handle) (io : Obj) : Err × Sys :=
  if x.closed then (.ioError, s)
  else
    match s.answer io with
    | (none, q) => (.ioError, q)
    | (some _, q) => (.typeError, q)

def RefusedCtl (m : Nat) (io : Obj) (fail : Err → Sys → Prop) (s : Sys) : Prop :=
  ∃ member x inst, Located s m member x inst ∧ fail (refusal s x io).1 (refusal s x io).2

theorem refusal_cases (s : Sys) (x : Handle) (io : Obj) :
    (refusal s x io).1 = .ioError ∨ (refusal s x io).1 = .typeError := by
  unfold refusal
  split
  · exact Or.inl rfl
  · split
    · exact Or.inl rfl
    · exact Or.inr rfl

theorem wp_epollCtl_refused (h : ev.toUint = .error .typeError ∨ ¬Calls s m io) :
    wp (exec t) post fail (epollCtl m op io ev) s ↔ RefusedCtl m io fail s := by
  rw [wp_epollCtl_iff]
  have hends : ∀ member x inst, Located s m member x inst →
      (Ends post fail (s.epctl x inst op io ev) ↔ fail (refusal s x io).1 (refusal s x io).2) := by
    intro member x inst hl
    unfold Sys.epctl refusal
    cases hc : x.closed with
    | true => exact Iff.rfl
    | false =>
        simp only [Bool.false_eq_true, ite_false]
        rcases hanswer : s.answer io with ⟨_ | fd, q⟩
        · exact Iff.rfl
        · have hev : ev.toUint = .error .typeError := by
            refine h.resolve_right fun hno => hno ⟨member, x, inst, hl, hc, ?_⟩
            rw [hanswer]
            simp
          simp only [hev]
          exact Iff.rfl
  constructor
  · rintro ⟨member, x, inst, hl, he⟩
    exact ⟨member, x, inst, hl, (hends member x inst hl).mp he⟩
  · rintro ⟨member, x, inst, hl, he⟩
    exact ⟨member, x, inst, hl, (hends member x inst hl).mpr he⟩

-- An Integer never raises TypeError, and leaves the epoll as it is.
theorem wp_epollCtl_int {member : Member} {x : Handle} {inst : Inst} (hl : Located s m member x inst)
    (hev : ev.toUint = .ok mask) :
    wp (exec t) (fun _ _ => True) (fun e q => e ≠ .typeError ∧ Located q m member x inst)
      (epollCtl m op io ev) s := by
  rw [wp_epollCtl_iff]
  refine ⟨member, x, inst, hl, ?_⟩
  cases hc : x.closed with
  | true =>
      simp only [Sys.epctl, hc, ite_true, ends_error]
      exact ⟨by simp, hl⟩
  | false =>
      simp only [Sys.epctl, hc, Bool.false_eq_true, ite_false]
      have hq := Quiet.answer x s io
      have hlater : Located (s.answer io).2 m member x inst :=
        ⟨hq.family ▸ hl.listed, hq.family ▸ hl.handle, hq.insts ▸ hl.inst⟩
      rcases ha : s.answer io with ⟨_ | fd, q⟩ <;> rw [ha] at hlater
      · exact ⟨by simp, hlater⟩
      · simp only [hev]
        cases q.oracle.ctls.headD none with
        | some errno => exact ⟨by simp, hlater.listed, hlater.handle, hlater.inst⟩
        | none =>
            simp only
            cases inst.interest.ctl op fd io mask with
            | error errno => exact ⟨by simp, hlater.listed, hlater.handle, hlater.inst⟩
            | ok interest => trivial

-- Neither of the two errors is one that `set` rescues.
theorem refused_raises (errno : Errno) {handler : Err → Method Unit} {R : Err → Sys → Prop}
    (h : ∀ e q, e ≠ .sys errno → (wp (exec t) post R (handler e) q ↔ R e q)) :
    RefusedCtl m io (fun e q => wp (exec t) post R (handler e) q) s ↔ RefusedCtl m io R s := by
  have hne : ∀ x, (refusal s x io).1 ≠ .sys errno := by
    intro x
    rcases refusal_cases s x io with he | he
    · rw [he]
      simp
    · rw [he]
      simp
  constructor
  · rintro ⟨member, x, inst, hl, he⟩
    exact ⟨member, x, inst, hl, (h _ _ (hne x)).mp he⟩
  · rintro ⟨member, x, inst, hl, he⟩
    exact ⟨member, x, inst, hl, (h _ _ (hne x)).mpr he⟩

theorem setCached_refused {fd : Fd} (h : ev.toUint = .error .typeError ∨ ¬Calls s m io) :
    wp (exec t) post fail (setCached m fd io ev) s ↔ RefusedCtl m io fail s := by
  rw [setCached, wp_rescue, wp_epollCtl_refused h]
  apply refused_raises .ENOENT
  intro e q hne
  rw [if_neg hne, wp_raise]

theorem setUncached_refused {fd : Fd} (h : ev.toUint = .error .typeError ∨ ¬Calls s m io) :
    wp (exec t) post fail (setUncached m fd io ev) s ↔ RefusedCtl m io fail s := by
  rw [setUncached, wp_monad_bind, wp_rescue, wp_epollCtl_refused h]
  apply refused_raises .EEXIST
  intro e q hne
  rw [if_neg hne, wp_raise]

end Reached

section Body

variable {t m : Nat} {q : Sys} {fd : Fd} {io : Obj} {ev : EventArg} {mask : Nat}
  {post : Ret → Sys → Prop} {fail : Err → Sys → Prop}

-- `return 0` before epoll_ctl.
def UpToDate (q : Sys) (fd : Fd) (io : Obj) (ev : EventArg) : Prop :=
  ∃ cur, q.family.marks.get fd = some cur ∧ q.objects.same cur io = true ∧
    noOneshot (q.family.events.get fd) = .ok true ∧ q.family.events.get fd = some ev

theorem upToDate_int : UpToDate q fd io (.int mask) ↔ Skips q fd io mask := by
  constructor
  · rintro ⟨cur, hcur, hsame, hclear, hcached⟩
    rw [hcached] at hclear
    exact ⟨cur, hcur, hsame, hcached, by simpa [noOneshot] using hclear⟩
  · rintro ⟨cur, hcur, hsame, hcached, hbit⟩
    exact ⟨cur, hcur, hsame, by simp [hcached, noOneshot, hbit], hcached⟩

theorem not_upToDate (h : ev.toUint = .error .typeError) : ¬UpToDate q fd io ev := by
  rintro ⟨cur, _, _, hclear, hcached⟩
  rw [hcached] at hclear
  cases ev with
  | int n =>
      simp only [Flags.toUint, num2uint] at h
      split at h <;> cases h
  | _ => cases hclear

-- How the rest of `set` ends when epoll_ctl takes no events.
def RefusedBody (m : Nat) (fd : Fd) (io : Obj) (fail : Err → Sys → Prop) (q : Sys) : Prop :=
  match q.family.marks.get fd with
  | none => RefusedCtl m io fail q
  | some cur =>
      if q.objects.same cur io then
        match noOneshot (q.family.events.get fd) with
        | .error e => fail e q
        | .ok _ => RefusedCtl m io fail q
      else RefusedCtl m io fail q

theorem setBody_refused (hchanged : ¬UpToDate q fd io ev)
    (h : Looks q fd io → ev.toUint = .error .typeError ∨ ¬Calls q m io) :
    wp (exec t) post fail (setBody m fd io ev) q ↔ RefusedBody m fd io fail q := by
  simp only [setBody, wp_monad_bind, wp_getMark, RefusedBody]
  cases hmark : q.family.marks.get fd with
  | none =>
      have hlooks : Looks q fd io := by
        intro cur hcur
        rw [hmark] at hcur
        cases hcur
      simp only [curIoSame, wp_monad_pure, Bool.false_eq_true, ite_false, wp_monad_bind]
      exact setUncached_refused (h hlooks)
  | some cur =>
      simp only [curIoSame, wp_same]
      cases hsame : q.objects.same cur io with
      | false =>
          have hlooks : Looks q fd io := by
            intro other ho hother
            rw [hmark] at ho
            cases ho
            rw [hsame] at hother
            cases hother
          simp only [Bool.false_eq_true, ite_false, wp_monad_bind]
          exact setUncached_refused (h hlooks)
      | true =>
          simp only [ite_true, wp_monad_bind, wp_getEvents, wp_ofExcept]
          cases hclear : noOneshot (q.family.events.get fd) with
          | error e => rfl
          | ok clear =>
              have hlooks : Looks q fd io := fun _ _ _ => ⟨clear, hclear⟩
              have hgo : ¬(clear = true ∧ q.family.events.get fd = some ev) := by
                rintro ⟨rfl, hcached⟩
                exact hchanged ⟨cur, hmark, hsame, hclear, hcached⟩
              simp only [ends_ok, if_neg hgo, wp_monad_bind]
              exact setCached_refused (h hlooks)

theorem refusedCtl_calls (hcalls : Calls q m io) (h : RefusedCtl m io fail q) : ∃ s, fail .typeError s := by
  obtain ⟨member, x, inst, hl, hc, hanswer⟩ := hcalls
  obtain ⟨member', x', inst', hl', hfail⟩ := h
  obtain rfl := Option.some.inj (hl.listed.symm.trans hl'.listed)
  obtain rfl := Option.some.inj (hl.handle.symm.trans hl'.handle)
  unfold refusal at hfail
  rw [hc] at hfail
  simp only [Bool.false_eq_true, ite_false] at hfail
  rcases ha : q.answer io with ⟨_ | n, later⟩
  · rw [ha] at hanswer
    exact absurd rfl hanswer
  · rw [ha] at hfail
    exact ⟨later, hfail⟩

theorem refusedCtl_never : ¬RefusedCtl m io (fun _ _ => False) q := by
  rintro ⟨_, _, _, _, hfail⟩
  exact hfail

theorem refusedBody_never : ¬RefusedBody m fd io (fun _ _ => False) q := by
  unfold RefusedBody
  split
  · exact refusedCtl_never
  · split
    · split
      · exact id
      · exact refusedCtl_never
    · exact refusedCtl_never

-- Events that are no Integer are refused with TypeError where epoll_ctl gets to
-- look at them.
theorem refusedBody_calls (hlooks : Looks q fd io) (hcalls : Calls q m io)
    (h : RefusedBody m fd io (fun e _ => e ≠ .typeError) q) : False := by
  have hctl : ¬RefusedCtl m io (fun e _ => e ≠ .typeError) q := by
    intro hctl
    obtain ⟨_, hne⟩ := refusedCtl_calls hcalls hctl
    exact hne rfl
  unfold RefusedBody at h
  split at h
  · exact hctl h
  · rename_i cur hcur
    split at h
    · rename_i hsame
      obtain ⟨clear, hclear⟩ := hlooks cur hcur hsame
      rw [hclear] at h
      exact hctl h
    · exact hctl h

theorem setBody_upToDate (h : UpToDate q fd io ev) :
    wp (exec t) post fail (setBody m fd io ev) q ↔ post .zero q := by
  obtain ⟨cur, hmark, hsame, hclear, hcached⟩ := h
  rw [hcached] at hclear
  simp only [setBody, wp_monad_bind, wp_getMark, hmark, curIoSame, wp_same, hsame, ite_true, wp_getEvents,
    wp_ofExcept, hcached, hclear, ends_ok, and_self, wp_monad_pure]

-- An Integer never is.
theorem setBody_int (hev : ev.toUint = .ok mask) (hlooks : Looks q fd io) (hcalls : Calls q m io) :
    wp (exec t) (fun _ _ => True) (fun e _ => e ≠ .typeError) (setBody m fd io ev) q := by
  obtain ⟨member, x, inst, hl, _⟩ := hcalls
  have hctl : ∀ op s, Located s m member x inst →
      wp (exec t) (fun _ _ => True) (fun e _ => e ≠ .typeError) (epollCtl m op io ev) s := fun op s hs =>
    wp_mono (wp_epollCtl_int hs hev) (fun _ _ h => h) fun _ _ h => h.1
  have hcached : wp (exec t) (fun _ _ => True) (fun e _ => e ≠ .typeError) (setCached m fd io ev) q := by
    rw [setCached, wp_rescue]
    refine wp_mono (wp_epollCtl_int hl hev) (fun _ _ _ => trivial) ?_
    rintro e s ⟨hne, hs⟩
    split
    · rw [wp_monad_bind]
      refine wp_mono (hctl .add s hs) (fun _ s' _ => ?_) fun _ _ h => h
      rw [wp_setMark]
      trivial
    · exact hne
  have huncached : wp (exec t) (fun _ _ => True) (fun e _ => e ≠ .typeError)
    (setUncached m fd io ev) q := by
    rw [setUncached, wp_monad_bind, wp_rescue]
    refine wp_mono (wp_epollCtl_int hl hev) (fun _ s' _ => ?_) ?_
    · rw [wp_setMark]
      trivial
    · rintro e s ⟨hne, hs⟩
      split
      · refine wp_mono (hctl .mod s hs) (fun _ s' _ => ?_) fun _ _ h => h
        rw [wp_setMark]
        trivial
      · exact hne
  simp only [setBody, wp_monad_bind, wp_getMark]
  cases hmark : q.family.marks.get fd with
  | none =>
      simp only [curIoSame, wp_monad_pure, Bool.false_eq_true, ite_false, wp_monad_bind, wp_setEvents]
      exact huncached
  | some cur =>
      simp only [curIoSame, wp_same]
      cases hsame : q.objects.same cur io with
      | false =>
          simp only [Bool.false_eq_true, ite_false, wp_monad_bind, wp_setEvents, wp_monad_pure]
          exact huncached
      | true =>
          obtain ⟨clear, hclear⟩ := hlooks cur hmark hsame
          simp only [ite_true, wp_monad_bind, wp_getEvents, wp_ofExcept, hclear, ends_ok]
          split
          · trivial
          · simp only [wp_monad_bind, wp_setEvents, wp_monad_pure]
            exact hcached

end Body

theorem Passed.wp_check {t m : Nat} {s : Sys} (h : Passed s m) (post : Unit → Sys → Prop)
    (fail : Err → Sys → Prop) :
    wp (exec t) post fail (epCheck m) s ↔ post () s := by
  obtain ⟨member, hm, hpass⟩ := h
  simp only [epCheck, Shared.check, wp_monad_bind, wp_getPid, wp_self, hm, Option.some.injEq,
    exists_eq_left']
  by_cases hpid : member.pid = s.self
  · rw [if_pos hpid]
    rfl
  · obtain ⟨x, hx, hc⟩ := hpass.resolve_left hpid
    rw [if_neg hpid]
    simp only [wp_monad_bind, wp_getIo, wp_closed, hm, hx, Option.some.injEq, exists_eq_left', hc, ite_true]
    rfl

section Set

variable {t m : Nat} {s : Sys} {io : Obj} {spec : EventArg} {mask : Nat}

theorem toUint_mask (h : Accepts spec mask) : (Flags.int mask).toUint = .ok mask :=
  num2uint_mask mask h.lt

-- A form of the Integer that is not the Integer itself is refused by epoll_ctl.
theorem Accepts.toUint (h : Accepts spec mask) (hne : spec ≠ .int mask) :
    spec.toUint = .error .typeError := by
  cases spec with
  | int n =>
      exfalso
      apply hne
      have hn := h.unsigned n rfl
      have hflags : num2uint n = .ok mask := h.flags
      unfold num2uint at hflags
      split at hflags
      · cases hflags
        congr
        omega
      · cases hflags
  | _ => rfl

-- Where there is nothing to re-initialise, this is about the state that `set`
-- is called in.
theorem consults_iff_of_passed {s₁ : Sys} {fd : Fd} (hanswer : s.answer io = (some fd, s₁))
    (hp : Passed s₁ m) :
    Consults s m io mask ↔
      s₁.family.mutex = none ∧ (Skips s₁ fd io mask ∨ Looks s₁ fd io ∧ Calls s₁ m io) := by
  have hlocked : Passed (s₁.withMutex (some 0)) m := hp
  have hcheck : (epCheck m).run (exec 0) (s₁.withMutex (some 0)) =
    some (.ok (), s₁.withMutex (some 0)) := by
    rw [run_ok_iff_wp, hlocked.wp_check]
    exact ⟨rfl, rfl⟩
  have hcalls : Calls (s₁.withMutex (some 0)) m io ↔ Calls s₁ m io := by
    have hsecond : ((s₁.withMutex (some 0)).answer io).1 = (s₁.answer io).1 := by
      simp only [Sys.answer, Sys.withMutex]
      split
      · rfl
      · rfl
    unfold Calls
    rw [hsecond]
    constructor
    · rintro ⟨member, x, inst, hl, h⟩
      exact ⟨member, x, inst, ⟨hl.listed, hl.handle, hl.inst⟩, h⟩
    · rintro ⟨member, x, inst, hl, h⟩
      exact ⟨member, x, inst, ⟨hl.listed, hl.handle, hl.inst⟩, h⟩
  constructor
  · rintro ⟨fd', s', q, ha, hmutex, hrun, hlook⟩
    rw [hanswer] at ha
    cases ha
    rw [hcheck] at hrun
    cases hrun
    rw [hcalls] at hlook
    exact ⟨hmutex, hlook⟩
  · rintro ⟨hmutex, hlook⟩
    rw [← hcalls] at hlook
    exact ⟨fd, s₁, _, hanswer, hmutex, hcheck, hlook⟩

-- The part of `set` behind the fork check is what it is about.
theorem wp_set {post : Ret → Sys → Prop} {fail : Err → Sys → Prop} {s₁ q : Sys} {fd : Fd} {ev : EventArg}
    (hanswer : s.answer io = (some fd, s₁)) (hmutex : s₁.family.mutex = none)
    (hcheck : (epCheck m).run (exec t) (s₁.withMutex (some t)) = some (.ok (), q)) :
    wp (exec t) post fail (set m io ev) s ↔
      wp (exec t) (fun v q' => post v (q'.withMutex none)) (fun e q' => fail e (q'.withMutex none))
        (setBody m fd io ev) q := by
  simp only [set_eq, wp_monad_bind, wp_fileno, hanswer, Option.some.injEq, forall_eq', reduceCtorEq,
    false_implies, and_true, wp_synchronize, hmutex, true_and, wp_iff_ends hcheck, ends_ok]

-- Where the events are looked at, `set` returns or meets an error of the kernel
-- with the Integer, and raises TypeError with any other form.
theorem set_differs (h : Accepts spec mask) (hne : spec ≠ .int mask) (hc : Consults s m io mask) :
    (set m io spec).run (exec 0) s ≠ (set m io (.int mask)).run (exec 0) s := by
  obtain ⟨fd, s₁, q, hanswer, hmutex, hcheck, hlook⟩ := hc
  have hrefused := h.toUint hne
  have hbody : ∀ (post : Ret → Sys → Prop) (fail : Err → Sys → Prop),
      wp (exec 0) post fail (set m io spec) s ↔
        RefusedBody m fd io (fun e q' => fail e (q'.withMutex none)) q := by
    intro post fail
    rw [wp_set hanswer hmutex hcheck]
    exact setBody_refused (not_upToDate hrefused) fun _ => Or.inl hrefused
  intro heq
  have hsame : ∀ (post : Ret → Sys → Prop) (fail : Err → Sys → Prop),
      wp (exec 0) post fail (set m io (.int mask)) s →
        RefusedBody m fd io (fun e q' => fail e (q'.withMutex none)) q := by
    intro post fail hw
    rw [← hbody post, wp_iff_run, heq, ← wp_iff_run]
    exact hw
  rcases hlook with hskip | ⟨hlooks, hcalls⟩
  · refine refusedBody_never (hsame (fun _ _ => True) (fun _ _ => False) ?_)
    rw [wp_set hanswer hmutex hcheck, setBody_upToDate (upToDate_int.mpr hskip)]
    trivial
  · refine refusedBody_calls hlooks hcalls (hsame (fun _ _ => True) (fun e _ => e ≠ .typeError) ?_)
    rw [wp_set hanswer hmutex hcheck]
    exact setBody_int (toUint_mask h) hlooks hcalls

-- Two arguments that the rest of `set` treats alike are alike to `set`.
theorem set_congr {ev ev' : EventArg}
    (h : ∀ fd s₁ q, s.answer io = (some fd, s₁) → s₁.family.mutex = none →
      (epCheck m).run (exec t) (s₁.withMutex (some t)) = some (.ok (), q) →
      ∀ (post : Ret → Sys → Prop) (fail : Err → Sys → Prop),
        wp (exec t) post fail (setBody m fd io ev) q ↔ wp (exec t) post fail (setBody m fd io ev') q) :
    (set m io ev).run (exec t) s = (set m io ev').run (exec t) s := by
  apply run_congr
  intro post fail
  rcases ha : s.answer io with ⟨_ | fd, s₁⟩
  · simp only [set_eq, wp_monad_bind, wp_fileno, ha]
    simp
  · simp only [set_eq, wp_monad_bind, wp_fileno, ha, Option.some.injEq, forall_eq', wp_synchronize]
    apply and_congr_left'
    apply and_congr_right
    intro hmutex
    cases hcheck : (epCheck m).run (exec t) (s₁.withMutex (some t)) with
    | none => simp only [wp_iff_run _ _ (epCheck m), hcheck, reduceCtorEq, false_and, exists_false]
    | some result =>
        rcases result with ⟨e | _, q⟩
        · simp only [wp_iff_ends hcheck, ends_error]
        · simp only [wp_iff_ends hcheck, ends_ok]
          exact h fd s₁ q ha hmutex hcheck _ _

theorem set_same (h : Accepts spec mask) (hc : ¬Consults s m io mask) :
    (set m io spec).run (exec 0) s = (set m io (.int mask)).run (exec 0) s := by
  by_cases hne : spec = .int mask
  · rw [hne]
  · apply set_congr
    intro fd s₁ q hanswer hmutex hcheck post fail
    have hskip : ¬Skips q fd io mask := fun hskip =>
      hc ⟨fd, s₁, q, hanswer, hmutex, hcheck, Or.inl hskip⟩
    have hcalls : Looks q fd io → ¬Calls q m io := fun hlooks hcalls =>
      hc ⟨fd, s₁, q, hanswer, hmutex, hcheck, Or.inr ⟨hlooks, hcalls⟩⟩
    have hrefused := h.toUint hne
    rw [setBody_refused (not_upToDate hrefused) fun _ => Or.inl hrefused]
    rw [setBody_refused (fun hup => hskip (upToDate_int.mp hup)) fun hlooks => Or.inr (hcalls hlooks)]

-- Two forms that epoll_ctl refuses are refused alike.
theorem set_refused {ev ev' : EventArg} (h : ev.toUint = .error .typeError)
    (h' : ev'.toUint = .error .typeError) :
    (set m io ev).run (exec t) s = (set m io ev').run (exec t) s := by
  apply set_congr
  intro fd s₁ q _ _ _ post fail
  rw [setBody_refused (not_upToDate h) fun _ => Or.inl h]
  rw [setBody_refused (not_upToDate h') fun _ => Or.inl h']

end Set

section Stored

variable {t m : Nat} {s s' q q' : Sys} {fd : Fd} {io : Obj} {ev : EventArg}

-- The tables may differ, and `@events[fd]` holds the events.
def Recorded (fd : Fd) (ev : EventArg) (q q' : Sys) : Prop :=
  ∃ marks events, q'.family = { q.family with marks := marks, events := events } ∧ events.get fd = some ev

-- What a method that has returned leaves for the next one.
structure Left (m : Nat) (fd : Fd) (ev : EventArg) (s : Sys) : Prop where
  passed : Passed s m
  idle : s.family.mutex = none
  events : s.family.events.get fd = some ev

theorem epCheck_passed (h : (epCheck m).run (exec t) s = some (.ok (), q)) : Passed q m := by
  obtain ⟨pid, s₁, hpid, h⟩ := run_bind_cases h
  obtain ⟨self, s₂, hown, h⟩ := run_bind_cases h
  rw [run_ok_iff_wp, wp_getPid] at hpid
  obtain ⟨member, hm, rfl, rfl⟩ := hpid
  rw [run_ok_iff_wp, wp_self] at hown
  obtain ⟨rfl, rfl⟩ := hown
  split at h
  · rename_i hcurrent
    cases h
    exact ⟨member, hm, Or.inl hcurrent⟩
  · obtain ⟨io, s₁, hio, h⟩ := run_bind_cases h
    rw [run_ok_iff_wp, wp_getIo] at hio
    obtain ⟨member, hm, rfl, rfl⟩ := hio
    obtain ⟨closed, s₂, hclosed, h⟩ := run_bind_cases h
    rw [run_ok_iff_wp, wp_closed] at hclosed
    obtain ⟨x, hx, rfl, rfl⟩ := hclosed
    split at h
    · rename_i hc
      cases h
      exact ⟨member, hm, Or.inr ⟨x, hx, hc⟩⟩
    · obtain ⟨_, _, _, h⟩ := run_bind_cases h
      obtain ⟨_, _, _, h⟩ := run_bind_cases h
      obtain ⟨_, _, _, h⟩ := run_bind_cases h
      obtain ⟨_, _, _, h⟩ := run_bind_cases h
      obtain ⟨_, last, _, h⟩ := run_bind_cases h
      obtain ⟨now, s₃, hnow, h⟩ := run_bind_cases h
      rw [run_ok_iff_wp, wp_self] at hnow
      obtain ⟨rfl, rfl⟩ := hnow
      rw [run_ok_iff_wp, wp_setPid] at h
      obtain ⟨old, hold, _, rfl⟩ := h
      have hlt := (List.getElem?_eq_some_iff.mp hold).1
      exact ⟨_, List.getElem?_set_self hlt, Or.inl rfl⟩

-- epoll_ctl is no concern of the tables, nor of the other instance variables.
theorem epollCtl_family {op : CtlOp} {result : Except Err Unit × Sys}
    (h : (epollCtl m op io ev).run (exec t) q = some result) : result.2.family = q.family := by
  rw [run_iff_wp, wp_epollCtl_iff] at h
  obtain ⟨member, x, inst, _, hend⟩ := h
  rcases epctl_cases q x inst op io ev with ⟨e, s', he, hq⟩ | ⟨_, _, l, s', he, hq, _⟩
  · rw [he] at hend
    cases hend
    exact hq.family
  · rw [he] at hend
    cases hend
    exact hq.family

-- What follows the fork check in the three methods, where it returns.
theorem setMark_family {mark : Option Obj}
    (h : (perform (.setMark fd mark) : Method Unit).run (exec t) q = some (.ok (), q')) :
    ∃ marks, q'.family = { q.family with marks := marks } := by
  rw [run_ok_iff_wp, wp_setMark] at h
  obtain ⟨_, rfl⟩ := h
  exact ⟨_, rfl⟩

theorem setCached_family (h : (setCached m fd io ev).run (exec t) q = some (.ok (), q')) :
    ∃ marks, q'.family = { q.family with marks := marks } := by
  rcases run_rescue_cases h with hctl | ⟨e, s, hctl, hhandler⟩
  · exact ⟨q.family.marks, epollCtl_family hctl⟩
  · split at hhandler
    · obtain ⟨_, s', hadd, hmark⟩ := run_bind_cases hhandler
      obtain ⟨marks, hmarks⟩ := setMark_family hmark
      rw [hmarks, epollCtl_family hadd, epollCtl_family hctl]
      exact ⟨marks, rfl⟩
    · cases hhandler

theorem setUncached_family (h : (setUncached m fd io ev).run (exec t) q = some (.ok (), q')) :
    ∃ marks, q'.family = { q.family with marks := marks } := by
  obtain ⟨_, s, hctl, hmark⟩ := run_bind_cases h
  have hfamily : s.family = q.family := by
    rcases run_rescue_cases hctl with hadd | ⟨e, s', hadd, hhandler⟩
    · exact epollCtl_family hadd
    · split at hhandler
      · exact (epollCtl_family hhandler).trans (epollCtl_family hadd)
      · cases hhandler
  obtain ⟨marks, hmarks⟩ := setMark_family hmark
  rw [hmarks, hfamily]
  exact ⟨marks, rfl⟩

theorem setEvents_recorded {body : Method Unit} {v : Ret} {ret : Ret}
    (hbody : ∀ s, body.run (exec t) q = some (.ok (), s) → ∃ marks,
      s.family = { q.family with marks := marks })
    (h : Prog.run (exec t)
      (do
        body
        .perform (.setEvents fd (some ev))
        Pure.pure ret) q = some (.ok v, q')) : Recorded fd ev q q' := by
  obtain ⟨_, s, hfirst, h⟩ := run_bind_cases h
  obtain ⟨_, s', hset, h⟩ := run_bind_cases h
  cases h
  rw [run_ok_iff_wp, wp_setEvents] at hset
  obtain ⟨_, rfl⟩ := hset
  obtain ⟨marks, hmarks⟩ := hbody s hfirst
  exact ⟨marks, s.family.events.set fd (some ev), by simp only [hmarks], Slots.get_set_self ..⟩

theorem curIoSame_state {curIo : Option Obj} {same : Bool}
    (h : (curIoSame curIo io).run (exec t) q = some (.ok same, q')) : q' = q := by
  cases curIo with
  | none =>
      cases h
      rfl
  | some cur =>
      rw [curIoSame, run_ok_iff_wp, wp_same] at h
      exact h.2.symm

theorem ofExcept_ok {α : Type} {outcome : Except Err α} {value : α}
    (h : (ofExcept outcome : Method α).run (exec t) q = some (.ok value, q')) :
    outcome = .ok value ∧ q' = q := by
  cases outcome with
  | error e => cases h
  | ok v =>
      cases h
      exact ⟨rfl, rfl⟩

theorem setBody_recorded {v : Ret} (h : (setBody m fd io ev).run (exec t) q = some (.ok v, q')) :
    Recorded fd ev q q' := by
  obtain ⟨curIo, s, hmark, hlooked⟩ := run_bind_cases h
  rw [run_ok_iff_wp, wp_getMark] at hmark
  obtain ⟨rfl, rfl⟩ := hmark
  obtain ⟨same, s, hsame, hbranch⟩ := run_bind_cases hlooked
  obtain rfl := curIoSame_state hsame
  split at hbranch
  · obtain ⟨curEvents, s, hevents, hcached⟩ := run_bind_cases hbranch
    rw [run_ok_iff_wp, wp_getEvents] at hevents
    obtain ⟨rfl, rfl⟩ := hevents
    obtain ⟨clear, s, hclear, hlast⟩ := run_bind_cases hcached
    obtain ⟨_, rfl⟩ := ofExcept_ok hclear
    split at hlast
    · rename_i hup
      cases hlast
      exact ⟨_, _, rfl, hup.2⟩
    · exact setEvents_recorded (fun _ => setCached_family) hlast
  · exact setEvents_recorded (fun _ => setUncached_family) hbranch

theorem Recorded.left (hp : Passed q m) (hself : q'.self = q.self) (h : Recorded fd ev q q') :
    Left m fd ev (q'.withMutex none) := by
  obtain ⟨marks, events, hfamily, hget⟩ := h
  obtain ⟨member, hm, hpass⟩ := hp
  refine ⟨⟨member, ?_, ?_⟩, rfl, ?_⟩
  · simp only [Sys.withMutex, hfamily]
    exact hm
  · simp only [Sys.withMutex, hfamily, hself]
    exact hpass
  · simp only [Sys.withMutex, hfamily]
    exact hget

theorem sync_left {α : Type} {body : Method α} {value : α}
    (hbody : ∀ q v q', body.run (exec t) q = some (.ok v, q') → Recorded fd ev q q')
    (h : Prog.run (exec t) (Method.synchronize do
        epCheck m
        body) s = some (.ok value, s')) : Left m fd ev s' := by
  rw [run_ok_iff_wp, wp_synchronize, wp_iff_run] at h
  obtain ⟨_, ⟨⟨e | v, q'⟩, hrun, hend⟩⟩ := h
  · cases hend
  · obtain ⟨_, rfl⟩ := hend
    obtain ⟨_, q, hcheck, hrest⟩ := run_bind_cases hrun
    exact (hbody q v q' hrest).left (epCheck_passed hcheck) (run_sameWorld hrest).self

-- The number that `to_io.fileno` answered.
theorem fileno_answer (h : (attempt (.fileno io) : Method Fd).run (exec t) s = some (.ok fd, q)) :
    (s.answer io).1 = some fd := by
  rw [run_ok_iff_wp, wp_fileno] at h
  obtain ⟨hsome, hnone⟩ := h
  cases ha : (s.answer io).1 with
  | none => exact (hnone ha).elim
  | some n => rw [(hsome n ha).1]

theorem set_left {v : Ret} (h : (set m io ev).run (exec t) s = some (.ok v, s')) :
    ∃ fd, (s.answer io).1 = some fd ∧ Left m fd ev s' := by
  obtain ⟨fd, s₁, hfd, h⟩ := run_bind_cases h
  exact ⟨fd, fileno_answer hfd, sync_left (fun _ _ _ => setBody_recorded) h⟩

theorem ctl_recorded {op : CtlOp} {rest : Method Unit}
    (hrest : ∀ q q', rest.run (exec t) q = some (.ok (), q') → Recorded fd ev q q')
    (h : Prog.run (exec t)
      (do
        epollCtl m op io ev
        rest) q = some (.ok (), q')) : Recorded fd ev q q' := by
  obtain ⟨_, s, hctl, h⟩ := run_bind_cases h
  obtain ⟨marks, events, hfamily, hget⟩ := hrest s q' h
  rw [epollCtl_family hctl] at hfamily
  exact ⟨marks, events, hfamily, hget⟩

theorem add_left {spec : EventArg} {v : Ret} (hev : eventFlags spec = .ok ev)
    (h : (add m io spec).run (exec t) s = some (.ok v, s')) :
    ∃ fd, (s.answer io).1 = some fd ∧ Left m fd ev s' := by
  obtain ⟨fd, s₁, hfd, h⟩ := run_bind_cases h
  obtain ⟨flags, s₂, hflags, h⟩ := run_bind_cases h
  obtain ⟨hok, rfl⟩ := ofExcept_ok hflags
  obtain rfl := Except.ok.inj (hev.symm.trans hok)
  obtain ⟨_, s₃, hsync, h⟩ := run_bind_cases h
  cases h
  refine ⟨fd, fileno_answer hfd, sync_left
    (fun q v q' hbody => ctl_recorded (fun q q' hrest => ?_) hbody) hsync⟩
  rw [run_ok_iff_wp, wp_monad_bind, wp_setEvents, wp_setMark] at hrest
  obtain ⟨_, rfl⟩ := hrest
  exact ⟨_, _, rfl, Slots.get_set_self ..⟩

theorem mod_left {spec : EventArg} {v : Ret} (hev : eventFlags spec = .ok ev)
    (h : (mod m io spec).run (exec t) s = some (.ok v, s')) :
    ∃ fd, (s.answer io).1 = some fd ∧ Left m fd ev s' := by
  obtain ⟨flags, s₁, hflags, h⟩ := run_bind_cases h
  obtain ⟨hok, rfl⟩ := ofExcept_ok hflags
  obtain rfl := Except.ok.inj (hev.symm.trans hok)
  obtain ⟨fd, s₂, hfd, h⟩ := run_bind_cases h
  obtain ⟨_, s₃, hsync, h⟩ := run_bind_cases h
  cases h
  refine ⟨fd, fileno_answer hfd, sync_left
    (fun q v q' hbody => ctl_recorded (fun q q' hrest => ?_) hbody) hsync⟩
  rw [run_ok_iff_wp, wp_monad_bind, wp_setMark, wp_setEvents] at hrest
  obtain ⟨_, rfl⟩ := hrest
  exact ⟨_, _, rfl, Slots.get_set_self ..⟩

theorem Left.eventsFor {arg : IoArg} (h : Left m fd ev s)
    (harg : arg = .fd fd ∨ arg = .io io ∧ s.objects.fileno io = some fd) :
    (eventsFor m arg).call {} s = some (.ok (.events ev), { s with oracle := {} }) := by
  have hpassed : Passed (({ s with oracle := {} } : Sys).withMutex (some 0)) m := h.passed
  have hread : wp (exec 0) (fun v s' => v = .events ev ∧ s' = { s with oracle := {} }) (fun _ _ => False)
      (Method.synchronize do
        epCheck m
        let value ← .perform (.getEvents fd)
        Pure.pure (value.elim Ret.nil .events)) { s with oracle := {} } := by
    simp only [wp_synchronize, wp_monad_bind, hpassed.wp_check, wp_getEvents, wp_monad_pure]
    refine ⟨h.idle, ?_, ?_⟩
    · simp only [Sys.withMutex, h.events, Option.elim]
    · simp only [Sys.withMutex, ← h.idle]
  rw [Method.call, run_ok_iff_wp, Epoll.eventsFor, lookup, wp_monad_bind]
  rcases harg with rfl | ⟨rfl, hfd⟩
  · exact hread
  · rw [filenoOf, wp_fileno, answer_plain rfl]
    refine ⟨fun n hn => ?_, fun hnone => ?_⟩
    · obtain rfl := Option.some.inj (hfd.symm.trans hn)
      exact hread
    · rw [hfd] at hnone
      cases hnone

end Stored

-- The methods that watch an IO with given events.
inductive Registration
  | add | mod | set
  deriving DecidableEq, Repr

def Registration.method (m : Nat) (io : Obj) (events : EventArg) : Registration → Method Ret
  | .add => Epoll.add m io events
  | .mod => Epoll.mod m io events
  | .set => Epoll.set m io events

-- The method takes the specification for the Integer that it stands for.
structure Interchangeable (registration : Registration) (m : Nat) (io : Obj) (spec : EventArg) (mask : Nat)
    (oracle : Oracle) (s : Sys) : Prop where
  same : (registration.method m io spec).call oracle s =
    (registration.method m io (.int mask)).call oracle s
  recorded : ∀ v s', (registration.method m io spec).call oracle s = some (.ok v, s') →
    ∃ fd, (({ s with oracle := oracle } : Sys).answer io).1 = some fd ∧
      ∀ arg, arg = .fd fd ∨ arg = .io io ∧ s.objects.fileno io = some fd →
        (eventsFor m arg).call {} s' = some (.ok (.events (.int mask)), { s' with oracle := {} })
  permuted : ∀ elements others, spec = .ary elements → (∀ e, e ∈ others ↔ e ∈ elements) →
    (registration.method m io (.ary others)).call oracle s = (registration.method m io spec).call oracle s

section Interchange

variable {m : Nat} {io : Obj} {spec : EventArg} {mask : Nat} {oracle : Oracle} {s s' : Sys}

theorem Accepts.permuted (h : Accepts spec mask) {elements others : List (Option Sym)}
    (hspec : spec = .ary elements) (hsame : ∀ e, e ∈ others ↔ e ∈ elements) :
      Accepts (.ary others) mask := by
  subst hspec
  refine ⟨getAry_congr hsame h.flags, fun n hn => ?_⟩
  cases hn

theorem Accepts.int (h : Accepts spec mask) : Accepts (.int mask) mask := by
  refine ⟨num2uint_mask mask h.lt, fun n hn => ?_⟩
  cases hn
  exact Int.natCast_nonneg mask

-- add and mod ask `__event_flags` before anything else that depends on the
-- events.
theorem method_congr {spec' : EventArg} (h : Accepts spec mask) (h' : Accepts spec' mask)
    {registration : Registration} (hr : registration ≠ .set) :
    registration.method m io spec = registration.method m io spec' := by
  cases registration with
  | add => simp only [Registration.method, add, h.eventFlags, h'.eventFlags]
  | mod => simp only [Registration.method, mod, h.eventFlags, h'.eventFlags]
  | set => exact absurd rfl hr

theorem set_never {v : Ret} (h : spec.toUint = .error .typeError)
    (hrun : (set m io spec).run (exec 0) s = some (.ok v, s')) : False := by
  rw [set_eq] at hrun
  obtain ⟨fd, s₁, hfd, hsync⟩ := run_bind_cases hrun
  rw [run_ok_iff_wp, wp_synchronize, wp_iff_run] at hsync
  obtain ⟨_, ⟨⟨e | v', q'⟩, hlocked, hend⟩⟩ := hsync
  · cases hend
  · obtain ⟨_, q, _, hbody⟩ := run_bind_cases hlocked
    rw [run_ok_iff_wp, setBody_refused (not_upToDate h) fun _ => Or.inl h] at hbody
    exact refusedBody_never hbody

theorem registration_left (h : Accepts spec mask) {registration : Registration} {v : Ret}
    (hcall : (registration.method m io spec).call oracle s = some (.ok v, s')) :
    ∃ fd, (({ s with oracle := oracle } : Sys).answer io).1 = some fd ∧ Left m fd (.int mask) s' := by
  cases registration with
  | add => exact add_left h.eventFlags hcall
  | mod => exact mod_left h.eventFlags hcall
  | set =>
      by_cases hint : spec = .int mask
      · rw [hint] at hcall
        exact set_left hcall
      · exact (set_never (h.toUint hint) hcall).elim

theorem interchangeable_of_same (h : Accepts spec mask) {registration : Registration}
    (hsame : (registration.method m io spec).call oracle s =
    (registration.method m io (.int mask)).call oracle s) :
    Interchangeable registration m io spec mask oracle s := by
  refine ⟨hsame, fun v s' hcall => ?_, fun elements others hspec hperm => ?_⟩
  · obtain ⟨fd, hfd, hleft⟩ := registration_left h hcall
    refine ⟨fd, hfd, fun arg harg => ?_⟩
    apply hleft.eventsFor
    rw [(run_sameWorld hcall).objects]
    exact harg
  · have hothers := h.permuted hspec hperm
    by_cases hr : registration = .set
    · subst hr
      apply set_refused
      · rfl
      · rw [hspec]
        rfl
    · rw [method_congr hothers h hr]

-- add and mod always do. `set` does where it is given the Integer itself, or
-- does not come to where the events matter.
theorem interchangeable_iff (h : Accepts spec mask) (registration : Registration) (m : Nat) (io : Obj)
    (oracle : Oracle) (s : Sys) :
    Interchangeable registration m io spec mask oracle s ↔
      (registration = .set → spec = .int mask ∨ ¬Consults { s with oracle := oracle } m io mask) := by
  constructor
  · rintro hi rfl
    by_cases hint : spec = .int mask
    · exact Or.inl hint
    · refine Or.inr fun hc => ?_
      exact set_differs h hint hc hi.same
  · intro hwhen
    apply interchangeable_of_same h
    by_cases hr : registration = .set
    · subst hr
      rcases hwhen rfl with hint | hc
      · rw [hint]
      · exact set_same h hc
    · rw [method_congr h h.int hr]

end Interchange

-- Two symbols, one of them named twice, given to `add`.
theorem interchangeable_repeated :
    Interchangeable .add 0 0 (.ary [some Const.IN.sym, some Const.OUT.sym, some Const.IN.sym]) 5 {}
      (opened 1 (noObjects.openNew 3)) := by
  have h : Accepts (.ary [some Const.IN.sym, some Const.OUT.sym, some Const.IN.sym]) 5 := by
    refine ⟨rfl, fun n hn => ?_⟩
    cases hn
  refine (interchangeable_iff h .add 0 0 {} _).mpr fun hset => ?_
  cases hset

-- `set` on a new Epoll object takes 1 for an IO, and raises TypeError for the
-- array of the one symbol that stands for it.
theorem set_raises_for_symbol :
    Accepts (.ary [some Const.IN.sym]) 1 ∧
      ((set 0 0 (.ary [some Const.IN.sym])).call {} (opened 1 (noObjects.openNew 3))).map (·.1) =
        some (.error .typeError) ∧
      ((set 0 0 (.int 1)).call {} (opened 1 (noObjects.openNew 3))).map (·.1) = some (.ok .zero) ∧
      ¬Interchangeable .set 0 0 (.ary [some Const.IN.sym]) 1 {} (opened 1 (noObjects.openNew 3)) := by
  have hraises : ((set 0 0 (.ary [some Const.IN.sym])).call {} (opened 1 (noObjects.openNew 3))).map (·.1) =
      some (.error .typeError) := rfl
  have hreturns : ((set 0 0 (.int 1)).call {} (opened 1 (noObjects.openNew 3))).map (·.1) =
      some (.ok .zero) := rfl
  refine ⟨⟨rfl, fun n hn => (by cases hn)⟩, hraises, hreturns, fun h => ?_⟩
  have hsame : (set 0 0 (.ary [some Const.IN.sym])).call {} (opened 1 (noObjects.openNew 3)) =
      (set 0 0 (.int 1)).call {} (opened 1 (noObjects.openNew 3)) := h.same
  rw [hsame, hreturns] at hraises
  cases hraises

end SleepyPenguin.Epoll.Forms
