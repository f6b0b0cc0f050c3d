import SleepyPenguin.Runtime.Family
import SleepyPenguin.Epoll.Methods

namespace SleepyPenguin.Epoll

open Foundation Foundation.Prog

-- s_new makes a second attempt after some errors.
def createFailure (creates : List (Option Errno)) : Option Errno :=
  match creates.headD none with
  | none => none
  | some errno => if rbSpGcForFd errno then creates.tail.headD none else some errno

theorem sNew_ends {t : Nat} {s : Sys} :
    wp (exec t)
      (fun io s' => createFailure s.oracle.creates = none ∧ io = s.family.handles.length ∧
        ∃ creates, s' = { s with
          family.handles := s.family.handles ++ [⟨s.kernel.insts.length, false, true, s.self⟩]
          kernel.insts := s.kernel.insts ++ [⟨s.self, Interest.empty, []⟩]
          oracle.creates := creates })
      (fun e s' => ∃ errno, createFailure s.oracle.creates = some errno ∧ e = .sys errno ∧
        ∃ creates, s' = { s with oracle.creates := creates })
      sNew s := by
  simp only [sNew, wp_monad_bind, wp_create]
  rcases s.create_cases with ⟨errno, hfirst, hcreate⟩ | ⟨hfirst, hcreate⟩
  · rw [hcreate]
    simp only [createFailure, hfirst]
    cases hgc : rbSpGcForFd errno with
    | false =>
        simp only [Bool.false_eq_true, ite_false, wp_raise]
        exact ⟨errno, rfl, rfl, _, rfl⟩
    | true =>
        simp only [ite_true, wp_monad_bind, wp_create]
        rcases Sys.create_cases { s with oracle.creates := s.oracle.creates.tail } with
          ⟨second, hsecond, hagain⟩ | ⟨hsecond, hagain⟩
        · rw [hagain]
          exact ⟨second, hsecond, rfl, _, rfl⟩
        · rw [hagain]
          exact ⟨hsecond, rfl, _, rfl⟩
  · rw [hcreate]
    simp only [createFailure, hfirst]
    exact ⟨trivial, rfl, _, rfl⟩

-- Nothing changed but the oracle and the log of system calls, which gained
-- only epoll_ctl calls on the open handle `x`.
structure Quiet (x : Handle) (s s' : Sys) : Prop where
  self : s'.self = s.self
  family : s'.family = s.family
  objects : s'.objects = s.objects
  frames : s'.frames = s.frames
  insts : s'.kernel.insts = s.kernel.insts
  plain : s.oracle.answers = [] → s'.oracle.answers = []
  logged : ∃ n, s'.kernel.log =
    s.kernel.log ++ List.replicate n ⟨s.self, .epollCtl, x.inst, x.owner⟩ ∧ (x.closed = true → n = 0)

namespace Quiet

variable {x : Handle} {s s' s'' : Sys}

theorem refl (x : Handle) (s : Sys) : Quiet x s s :=
  ⟨rfl, rfl, rfl, rfl, rfl, id, 0, by simp⟩

theorem trans (h : Quiet x s s') (h' : Quiet x s' s'') : Quiet x s s'' := by
  obtain ⟨n, hn, hc⟩ := h.logged
  obtain ⟨k, hk, hc'⟩ := h'.logged
  refine ⟨h'.self.trans h.self, h'.family.trans h.family, h'.objects.trans h.objects,
    h'.frames.trans h.frames, h'.insts.trans h.insts, fun hp => h'.plain (h.plain hp), n + k, ?_, ?_⟩
  · rw [hk, hn, h.self, List.append_assoc, List.replicate_append_replicate]
  · intro h
    simp [hc h, hc' h]

theorem answer (x : Handle) (s : Sys) (io : Obj) : Quiet x s (s.answer io).2 := by
  unfold Sys.answer
  split
  · exact refl x s
  · rename_i first rest h
    exact ⟨rfl, rfl, rfl, rfl, rfl, fun hp => by simp [hp] at h, 0, by simp⟩

end Quiet

@[simp] theorem answer_ctls (s : Sys) (io : Obj) : (s.answer io).2.oracle.ctls = s.oracle.ctls := by
  unfold Sys.answer
  split <;> rfl

theorem answer_plain {s : Sys} (h : s.oracle.answers = []) (io : Obj) :
    s.answer io = (s.objects.fileno io, s) := by
  simp [Sys.answer, h]

-- A refused epoll_ctl changes nothing; a successful one applies to the
-- descriptor that the object answered.
theorem epctl_cases (s : Sys) (x : Handle) (inst : Inst) (op : CtlOp) (io : Obj) (ev : EventArg) :
    (∃ e s', s.epctl x inst op io ev = (.error e, s') ∧ Quiet x s s') ∨
    (∃ fd mask l s', s.epctl x inst op io ev = (.ok (), s'.setInterest x.inst l) ∧ Quiet x s s' ∧
      x.closed = false ∧ (s.oracle.answers = [] → s.objects.fileno io = some fd) ∧
      ev.toUint = .ok mask ∧ s.oracle.ctls.headD none = none ∧
      inst.interest.ctl op fd io mask = .ok l) := by
  unfold Sys.epctl
  cases hc : x.closed with
  | true => exact Or.inl ⟨_, _, rfl, Quiet.refl x s⟩
  | false =>
      have hq := Quiet.answer x s io
      have hp : s.oracle.answers = [] → (s.answer io).1 = s.objects.fileno io := fun h => by
        rw [answer_plain h]
      have hctls := answer_ctls s io
      rcases ha : s.answer io with ⟨_ | fd, s'⟩ <;> rw [ha] at hq hp hctls
      · exact Or.inl ⟨_, _, rfl, hq⟩
      · cases he : ev.toUint with
        | error e => exact Or.inl ⟨e, s', rfl, hq⟩
        | ok mask =>
            let called := { s'.issue .epollCtl x with oracle.ctls := s'.oracle.ctls.tail }
            have hcalled : Quiet x s' called :=
              ⟨rfl, rfl, rfl, rfl, rfl, id, 1, rfl, by simp [hc]⟩
            have hall := hq.trans hcalled
            cases hf : s'.oracle.ctls.headD none with
            | some errno =>
                exact Or.inl ⟨.sys errno,
                  called, by simp only [called, hf, Bool.false_eq_true, ite_false], hall⟩
            | none =>
                cases hl : inst.interest.ctl op fd io mask with
                | error errno => exact Or.inl ⟨.sys errno, called,
                      by simp only [called, hf, hl, Bool.false_eq_true, ite_false], hall⟩
                | ok l =>
                    refine Or.inr ⟨fd, mask, l, called,
                      by simp only [called, hf, hl, Bool.false_eq_true, ite_false], hall, rfl,
                      fun h => (hp h).symm, rfl, ?_, hl⟩
                    rw [← hctls]
                    exact hf

-- The method's object `m` has an IO `x` on `inst` that the fork check leaves
-- alone.
structure Current (s : Sys) (m : Nat) (x : Handle) (inst : Inst) : Prop where
  passes : ∃ member, Passes s m member x
  inst : s.kernel.insts[x.inst]? = some inst

namespace Current

variable {t m : Nat} {x : Handle} {inst : Inst} {s s' : Sys} {fail : Err → Sys → Prop}

theorem of_quiet (h : Current s m x inst) (hq : Quiet x s s') : Current s' m x inst := by
  obtain ⟨member, hm, hh, hp⟩ := h.passes
  exact ⟨⟨member, by rw [hq.family]; exact hm, by rw [hq.family]; exact hh, by rw [hq.self]; exact hp⟩,
    by rw [hq.insts]; exact h.inst⟩

theorem of_lock (h : Current s m x inst) (mutex : Option Nat) :
    Current (s.withMutex mutex) m x inst :=
  ⟨h.passes.imp fun _ hm => hm.of_lock mutex, h.inst⟩

theorem wp_check (h : Current s m x inst) (post : Unit → Sys → Prop) :
    wp (exec t) post fail (epCheck m) s ↔ post () s := by
  obtain ⟨member, hm⟩ := h.passes
  exact hm.wp_check _ _ post

theorem wp_epollCtl (h : Current s m x inst) (op : CtlOp) (io : Obj) (ev : EventArg)
    (post : Unit → Sys → Prop)
    (hfail : ∀ e s', Quiet x s s' → fail e s')
    (hpost : ∀ fd mask l s', Quiet x s s' → x.closed = false →
      (s.oracle.answers = [] → s.objects.fileno io = some fd) → ev.toUint = .ok mask →
      s.oracle.ctls.headD none = none → inst.interest.ctl op fd io mask = .ok l →
      post () (s'.setInterest x.inst l)) :
    wp (exec t) post fail (epollCtl m op io ev) s := by
  obtain ⟨member, hm, hh, _⟩ := h.passes
  simp only [epollCtl, wp_monad_bind, wp_getIo, SleepyPenguin.wp_epollCtl]
  refine ⟨member, hm, x, hh, inst, h.inst, ?_⟩
  rcases epctl_cases s x inst op io ev with
    ⟨e, s', he, hq⟩ | ⟨fd, mask, l, s', he, hq, hc, ha, hm, hfirst, hl⟩
  · rw [he]
    exact hfail e s' hq
  · rw [he]
    exact hpost fd mask l s' hq hc ha hm hfirst hl

end Current

theorem Quiet.of_lock {x : Handle} {s s' : Sys} {t : Nat} (hs : s.family.mutex = none)
    (h : Quiet x (s.withMutex (some t)) s') : Quiet x s (s'.withMutex none) := by
  refine ⟨h.self, ?_, h.objects, h.frames, h.insts, h.plain, h.logged⟩
  simp only [Sys.withMutex, h.family, ← hs]

-- The events that a successful call of `op` stores for `io`: `add` and `mod`
-- convert them first, `set` does not.
def Op.Registers (io : Obj) (ev : EventArg) : Op → Prop
  | .add o a => o = io ∧ eventFlags a = .ok ev
  | .mod o a => o = io ∧ eventFlags a = .ok ev
  | .set o a => o = io ∧ a = ev
  | _ => False

-- `set` does not return early on what `@events` holds for an equal mark.
def Refreshes (cached : Option EventArg) (ev : EventArg) : Prop :=
  ∃ clear, noOneshot cached = .ok clear ∧ ¬(clear = true ∧ cached = some ev)

-- All that a method on the tables can do once the fork check lets it pass.
-- `fd` is the number the method computed and `fdk` the one epoll_ctl used;
-- where the objects answer for themselves (`plain`) they are the same.
-- The modification of an entry found in `@marks` is the one registration
-- that leaves `@marks` as it is; `first` is what the kernel answers to the
-- first epoll_ctl of the call.
inductive Effect (plain : Prop) (first : Option Errno) (op : Op) (x : Handle) (inst : Inst) (s : Sys) :
    Sys → Prop
  | quiet {s' : Sys} (hq : Quiet x s s') : Effect plain first op x inst s s'
  | register {q : Sys} {fd fdk : Fd} {mask : Nat} {io : Obj} {ev : EventArg} (hq : Quiet x s q)
      (hx : x.closed = false) (ha : plain → s.objects.fileno io = some fd ∧ fdk = fd)
      (hop : op.Registers io ev) (hm : ev.toUint = .ok mask) :
      Effect plain first op x inst s
        ((q.setInterest x.inst (inst.interest.register fdk io mask)).store fd (some io) (some ev))
  | remodify {q : Sys} {fd fdk : Fd} {mask : Nat} {io cur : Obj} {ev : EventArg} (hq : Quiet x s q)
      (hx : x.closed = false) (ha : plain → s.objects.fileno io = some fd ∧ fdk = fd)
      (hop : op = .set io ev) (hm : ev.toUint = .ok mask) (hcur : s.family.marks.get fd = some cur)
      (hsame : s.objects.same cur io = true)
      (hskip : Refreshes (s.family.events.get fd) ev)
      (hfirst : first = none) (hl : (inst.interest fdk).isSome) :
      Effect plain first op x inst s
        { q.setInterest x.inst (inst.interest.register fdk io mask) with
          family.events := q.family.events.set fd (some ev) }
  | remove {q : Sys} {fd fdk : Fd} {io : Obj} (hq : Quiet x s q) (hx : x.closed = false)
      (ha : plain → s.objects.fileno io = some fd ∧ fdk = fd)
      (hop : op = .del io ∨ op = .delete io) :
      Effect plain first op x inst s
        ((q.setInterest x.inst (inst.interest.remove fdk)).store fd none none)

namespace Effect

variable {plain : Prop} {first : Option Errno} {op : Op} {t : Nat} {x : Handle} {inst : Inst}
  {s s' q : Sys}

-- Giving the mutex back turns an effect on the locked state into one on the
-- state before.
theorem of_lock (hs : s.family.mutex = none)
    (h : Effect plain first op x inst (s.withMutex (some t)) s') :
    Effect plain first op x inst s (s'.withMutex none) := by
  cases h with
  | quiet hq => exact .quiet (hq.of_lock hs)
  | register hq hx ha hop hm => exact .register (hq.of_lock hs) hx ha hop hm
  | remodify hq hx ha hop hm hcur hsame hskip hfirst hl =>
      exact .remodify (hq.of_lock hs) hx ha hop hm hcur hsame hskip hfirst hl
  | remove hq hx ha hop => exact .remove (hq.of_lock hs) hx ha hop

theorem of_quiet (hq : Quiet x s q) (h : Effect plain first op x inst q s') :
    Effect plain first op x inst s s' := by
  cases h with
  | quiet hq' => exact .quiet (hq.trans hq')
  | register hq' hx ha hop hm => exact .register (hq.trans hq') hx (hq.objects ▸ ha) hop hm
  | remodify hq' hx ha hop hm hcur hsame hskip hfirst hl =>
      exact .remodify (hq.trans hq') hx (hq.objects ▸ ha) hop hm (hq.family ▸ hcur)
        (hq.objects ▸ hsame) (hq.family ▸ hskip) hfirst hl
  | remove hq' hx ha hop => exact .remove (hq.trans hq') hx (hq.objects ▸ ha) hop

end Effect

section Methods

variable {t m : Nat} {x : Handle} {inst : Inst} {s : Sys} {io : Obj} {ev : EventArg}

-- The second evaluation of `to_io.fileno` agrees with the first when the
-- objects answer for themselves.
theorem answer_again {q : Sys} {fd fdk : Fd} (hq : Quiet x s q) (hfd : (s.answer io).1 = some fd)
    (hk : q.oracle.answers = [] → q.objects.fileno io = some fdk) (hp : s.oracle.answers = []) :
    s.objects.fileno io = some fd ∧ fdk = fd := by
  have hk' := hk (hq.plain hp)
  rw [answer_plain hp] at hfd
  rw [hq.objects] at hk'
  exact ⟨hfd, Option.some.inj (hk'.symm.trans hfd)⟩

theorem add_effect (h : Current s m x inst) (hs : s.family.mutex = none) :
    wp (exec t) (fun _ s' => Effect (s.oracle.answers = []) (s.oracle.ctls.headD none)
      (.add io ev) x inst s s') (fun _ s' => Quiet x s s') (add m io ev) s := by
  have hq := Quiet.answer x s io
  have hs' : (s.answer io).2.family.mutex = none := by rw [hq.family]; exact hs
  have hc := (h.of_quiet hq).of_lock (some t)
  simp only [add, wp_monad_bind, wp_fileno]
  refine ⟨fun fd hfd => ?_, fun _ => hq⟩
  rcases hflags : eventFlags ev with e | flags
  · exact hq
  · simp only [wp_ofExcept, ends_ok, wp_synchronize, hs', true_and, wp_monad_bind,
      hc.wp_check]
    apply hc.wp_epollCtl
    · intro e s' hq'
      exact hq.trans (hq'.of_lock hs')
    · intro fdk mask l s' hq' hx ha hm _ hl
      obtain rfl := Interest.ctl_register hl (by decide)
      simp only [wp_setEvents, wp_setMark, wp_monad_pure]
      exact .register (hq.trans (hq'.of_lock hs')) hx (answer_again hq hfd ha) ⟨rfl, hflags⟩ hm

theorem mod_effect (h : Current s m x inst) (hs : s.family.mutex = none) :
    wp (exec t) (fun _ s' => Effect (s.oracle.answers = []) (s.oracle.ctls.headD none)
      (.mod io ev) x inst s s') (fun _ s' => Quiet x s s') (mod m io ev) s := by
  have hq := Quiet.answer x s io
  have hs' : (s.answer io).2.family.mutex = none := by rw [hq.family]; exact hs
  have hc := (h.of_quiet hq).of_lock (some t)
  simp only [mod, wp_monad_bind]
  rcases hflags : eventFlags ev with e | flags
  · exact .refl x s
  · simp only [wp_ofExcept, ends_ok, wp_fileno]
    refine ⟨fun fd hfd => ?_, fun _ => hq⟩
    simp only [wp_synchronize, hs', true_and, wp_monad_bind, hc.wp_check]
    apply hc.wp_epollCtl
    · intro e s' hq'
      exact hq.trans (hq'.of_lock hs')
    · intro fdk mask l s' hq' hx ha hm _ hl
      obtain rfl := Interest.ctl_register hl (by decide)
      simp only [wp_setEvents, wp_setMark, wp_monad_pure]
      exact .register (hq.trans (hq'.of_lock hs')) hx (answer_again hq hfd ha) ⟨rfl, hflags⟩ hm

theorem del_effect (h : Current s m x inst) (hs : s.family.mutex = none) :
    wp (exec t) (fun _ s' => Effect (s.oracle.answers = []) (s.oracle.ctls.headD none)
      (.del io) x inst s s') (fun _ s' => Quiet x s s') (del m io) s := by
  have hq := Quiet.answer x s io
  have hs' : (s.answer io).2.family.mutex = none := by rw [hq.family]; exact hs
  have hc := (h.of_quiet hq).of_lock (some t)
  simp only [del, wp_monad_bind, wp_fileno]
  refine ⟨fun fd hfd => ?_, fun _ => hq⟩
  simp only [wp_synchronize, hs', true_and, wp_monad_bind, hc.wp_check]
  apply hc.wp_epollCtl
  · intro e s' hq'
    exact hq.trans (hq'.of_lock hs')
  · intro fdk mask l s' hq' hx ha _ _ hl
    obtain rfl := Interest.ctl_remove hl
    simp only [wp_setEvents, wp_setMark, wp_monad_pure]
    exact .remove (hq.trans (hq'.of_lock hs')) hx (answer_again hq hfd ha) (.inl rfl)

-- `delete` swallows two errors and turns them into nil.
theorem delete_effect (h : Current s m x inst) (hs : s.family.mutex = none) :
    wp (exec t) (fun _ s' => Effect (s.oracle.answers = []) (s.oracle.ctls.headD none)
      (.delete io) x inst s s') (fun _ s' => Quiet x s s') (delete m io) s := by
  have hq := Quiet.answer x s io
  have hs' : (s.answer io).2.family.mutex = none := by rw [hq.family]; exact hs
  have hc := (h.of_quiet hq).of_lock (some t)
  have hrescue : ∀ e s', Quiet x s s' →
      wp (exec t) (fun _ s' => Effect (s.oracle.answers = []) (s.oracle.ctls.headD none)
        (.delete io) x inst s s') (fun _ s' => Quiet x s s') (rescueGone e) s' := by
    intro e s' hq'
    unfold rescueGone
    split
    · exact .quiet hq'
    · exact hq'
  simp only [delete, wp_rescue, wp_monad_bind, wp_fileno]
  refine ⟨fun fd hfd => ?_, fun _ => hrescue _ _ hq⟩
  simp only [wp_synchronize, hs', true_and, wp_monad_bind, hc.wp_check, wp_getMark]
  rcases ((s.answer io).2.withMutex (some t)).family.marks.get fd with _ | curIo
  · exact .quiet (hq.trans ((Quiet.refl x _).of_lock hs'))
  · have hq₂ := Quiet.answer x ((s.answer io).2.withMutex (some t)) curIo
    simp only [wp_monad_bind, wp_isClosed]
    split
    · exact .quiet (hq.trans (hq₂.of_lock hs'))
    · simp only [wp_monad_bind]
      apply (hc.of_quiet hq₂).wp_epollCtl
      · intro e s' hq'
        exact hrescue _ _ (hq.trans ((hq₂.trans hq').of_lock hs'))
      · intro fdk mask l s' hq' hx ha _ _ hl
        obtain rfl := Interest.ctl_remove hl
        simp only [wp_setEvents, wp_setMark, wp_monad_pure]
        exact .remove (hq.trans ((hq₂.trans hq').of_lock hs')) hx
          (answer_again (hq.trans (hq₂.of_lock hs')) hfd ha) (.inr rfl)

-- The two branches of `set` that reach the kernel, each followed by the
-- write to `@events`.
theorem setCached_effect {plain : Prop} {q : Sys} {fd : Fd} {cur : Obj} (hc : Current q m x inst)
    (hcur : q.family.marks.get fd = some cur) (hsame : q.objects.same cur io = true)
    (hskip : Refreshes (q.family.events.get fd) ev)
    (hp : plain → q.oracle.answers = []) (hfd : plain → q.objects.fileno io = some fd) :
    wp (exec t)
      (fun _ s' => Effect plain (q.oracle.ctls.headD none) (.set io ev) x inst q
        { s' with family.events := s'.family.events.set fd (some ev) })
      (fun _ s' => Quiet x q s') (setCached m fd io ev) q := by
  have hagree : ∀ q' fdk, Quiet x q q' → (q'.oracle.answers = [] → q'.objects.fileno io = some fdk) →
      plain → q.objects.fileno io = some fd ∧ fdk = fd := fun q' fdk hq' ha h =>
    answer_again hq' (by rw [answer_plain (hp h)]; exact hfd h) ha (hp h)
  simp only [setCached, wp_rescue]
  apply hc.wp_epollCtl
  · intro e s' hq'
    split
    · simp only [wp_monad_bind]
      apply (hc.of_quiet hq').wp_epollCtl
      · exact fun e s'' hq'' => hq'.trans hq''
      · intro fdk mask l s'' hq'' hx ha hm _ hl
        obtain rfl := Interest.ctl_register hl (by decide)
        simp only [wp_setMark]
        exact .register (hq'.trans hq'') hx (hagree _ _ hq' ha) ⟨rfl, rfl⟩ hm
    · exact hq'
  · intro fdk mask l s' hq' hx ha hm hfirst hl
    obtain rfl := Interest.ctl_register hl (by decide)
    exact .remodify hq' hx (hagree _ _ (.refl x q) ha) rfl hm hcur hsame hskip hfirst
      (Interest.ctl_isSome hl (by decide))

theorem setUncached_effect {plain : Prop} {q : Sys} {fd : Fd} (hc : Current q m x inst)
    (hp : plain → q.oracle.answers = []) (hfd : plain → q.objects.fileno io = some fd) :
    wp (exec t)
      (fun _ s' => Effect plain (q.oracle.ctls.headD none) (.set io ev) x inst q
        { s' with family.events := s'.family.events.set fd (some ev) })
      (fun _ s' => Quiet x q s') (setUncached m fd io ev) q := by
  have hagree : ∀ q' fdk, Quiet x q q' → (q'.oracle.answers = [] → q'.objects.fileno io = some fdk) →
      plain → q.objects.fileno io = some fd ∧ fdk = fd := fun q' fdk hq' ha h =>
    answer_again hq' (by rw [answer_plain (hp h)]; exact hfd h) ha (hp h)
  simp only [setUncached, wp_monad_bind, wp_rescue, wp_setMark]
  apply hc.wp_epollCtl
  · intro e s' hq'
    split
    · apply (hc.of_quiet hq').wp_epollCtl
      · exact fun e s'' hq'' => hq'.trans hq''
      · intro fdk mask l s'' hq'' hx ha hm _ hl
        obtain rfl := Interest.ctl_register hl (by decide)
        exact .register (hq'.trans hq'') hx (hagree _ _ hq' ha) ⟨rfl, rfl⟩ hm
    · exact hq'
  · intro fdk mask l s' hq' hx ha hm _ hl
    obtain rfl := Interest.ctl_register hl (by decide)
    exact .register hq' hx (hagree _ _ (.refl x q) ha) ⟨rfl, rfl⟩ hm

theorem set_effect (h : Current s m x inst) (hs : s.family.mutex = none) :
    wp (exec t) (fun _ s' => Effect (s.oracle.answers = []) (s.oracle.ctls.headD none)
      (.set io ev) x inst s s')
      (fun _ s' => Quiet x s s') (set m io ev) s := by
  have hq := Quiet.answer x s io
  have hs' : (s.answer io).2.family.mutex = none := by rw [hq.family]; exact hs
  have hc := (h.of_quiet hq).of_lock (some t)
  simp only [set, wp_monad_bind, wp_fileno]
  refine ⟨fun fd hfd => ?_, fun _ => hq⟩
  simp only [wp_synchronize, hs', true_and, wp_monad_bind, hc.wp_check, wp_getMark]
  have hp : s.oracle.answers = [] → ((s.answer io).2.withMutex (some t)).oracle.answers = [] :=
    hq.plain
  have hfd' : s.oracle.answers = [] →
      ((s.answer io).2.withMutex (some t)).objects.fileno io = some fd := fun h => by
    rw [answer_plain h] at hfd
    exact hq.objects ▸ hfd
  have hquiet : ∀ s', Quiet x ((s.answer io).2.withMutex (some t)) s' →
      Quiet x s (s'.withMutex none) := fun s' hq' => hq.trans (hq'.of_lock hs')
  have hctls : ((s.answer io).2.withMutex (some t)).oracle.ctls.headD none =
      s.oracle.ctls.headD none := congrArg (·.headD none) (answer_ctls s io)
  have heffect : ∀ s', Effect (s.oracle.answers = [])
      (((s.answer io).2.withMutex (some t)).oracle.ctls.headD none) (.set io ev) x inst
      ((s.answer io).2.withMutex (some t)) s' →
      Effect (s.oracle.answers = []) (s.oracle.ctls.headD none) (.set io ev) x inst s (s'.withMutex none) :=
    fun s' he => ((hctls ▸ he).of_lock hs').of_quiet hq
  have huncached : wp (exec t)
      (fun _ s' => wp (exec t) (fun _ s' => Effect (s.oracle.answers = []) (s.oracle.ctls.headD none)
      (.set io ev) x inst s s')
        (fun _ s' => Quiet x s s') (Pure.pure Ret.zero : Method Ret)
        ({ s' with family.events := s'.family.events.set fd (some ev) }.withMutex none))
      (fun _ s' => Quiet x s (s'.withMutex none)) (setUncached m fd io ev)
      ((s.answer io).2.withMutex (some t)) :=
    wp_mono (setUncached_effect hc hp hfd') (fun _ s' he => heffect _ he) (fun _ s' => hquiet s')
  rcases hmark : ((s.answer io).2.withMutex (some t)).family.marks.get fd with _ | cur
  · simp only [curIoSame, wp_monad_pure, Bool.false_eq_true, ite_false, wp_monad_bind, wp_setEvents]
    exact huncached
  · simp only [curIoSame, wp_same]
    cases hsame : ((s.answer io).2.withMutex (some t)).objects.same cur io with
    | false =>
        simp only [Bool.false_eq_true, ite_false, wp_monad_bind, wp_setEvents]
        exact huncached
    | true =>
        simp only [ite_true, wp_monad_bind, wp_getEvents, wp_ofExcept]
        cases hbit : noOneshot (((s.answer io).2.withMutex (some t)).family.events.get fd) with
        | error e => exact hquiet _ (.refl x _)
        | ok clear =>
            simp only [ends_ok]
            split
            · exact .quiet (hquiet _ (.refl x _))
            · rename_i hskip
              simp only [wp_monad_bind, wp_setEvents]
              exact wp_mono (setCached_effect hc hmark hsame ⟨clear, hbit, hskip⟩ hp hfd')
                (fun _ s' he => heffect _ he)
                (fun _ s' => hquiet s')

theorem toIo_quiet (h : Current s m x inst) (hs : s.family.mutex = none) :
    wp (exec t) (fun _ s' => Quiet x s s') (fun _ s' => Quiet x s s') (toIo m) s := by
  obtain ⟨member, hm, hh, _⟩ := h.passes
  simp only [toIo, wp_synchronize, wp_monad_bind, (h.of_lock (some t)).wp_check, wp_getIo,
    wp_monad_pure]
  exact ⟨hs, member, hm, (Quiet.refl x _).of_lock hs⟩

theorem filenoOf_quiet {arg : IoArg} :
    wp (exec t) (fun _ s' => Quiet x s s') (fun _ s' => Quiet x s s') (filenoOf arg) s := by
  cases arg with
  | fd n => exact .refl x s
  | io o =>
      simp only [filenoOf, wp_fileno]
      exact ⟨fun _ _ => .answer x s o, fun _ => .answer x s o⟩

theorem lookup_quiet {β : Type} {arg : IoArg} {read : Fd → Cmd β} {ret : β → Ret}
    (hread : ∀ fd q, ∃ value, exec t _ q (read fd) = some (value, q))
    (h : Current s m x inst) (hs : s.family.mutex = none) :
    wp (exec t) (fun _ s' => Quiet x s s') (fun _ s' => Quiet x s s') (lookup m arg read ret) s := by
  simp only [lookup, wp_monad_bind]
  apply wp_mono (filenoOf_quiet (x := x))
  · intro fd q hq
    have hs' : q.family.mutex = none := by rw [hq.family]; exact hs
    obtain ⟨value, hv⟩ := hread fd (q.withMutex (some t))
    simp only [wp_synchronize, wp_monad_bind, ((h.of_quiet hq).of_lock (some t)).wp_check,
      perform, wp_cmd _ _ _ _ _ _ hv, wp_pure, wp_monad_pure]
    exact ⟨hs', hq.trans ((Quiet.refl x _).of_lock hs')⟩
  · exact fun _ _ hq => hq

theorem ioFor_quiet {arg : IoArg} (h : Current s m x inst) (hs : s.family.mutex = none) :
    wp (exec t) (fun _ s' => Quiet x s s') (fun _ s' => Quiet x s s') (ioFor m arg) s :=
  lookup_quiet (fun _ _ => ⟨_, rfl⟩) h hs

theorem eventsFor_quiet {arg : IoArg} (h : Current s m x inst) (hs : s.family.mutex = none) :
    wp (exec t) (fun _ s' => Quiet x s s') (fun _ s' => Quiet x s s') (eventsFor m arg) s :=
  lookup_quiet (fun _ _ => ⟨_, rfl⟩) h hs

theorem includeP_quiet {arg : IoArg} (h : Current s m x inst) (hs : s.family.mutex = none) :
    wp (exec t) (fun _ s' => Quiet x s s') (fun _ s' => Quiet x s s') (includeP m arg) s :=
  lookup_quiet (fun _ _ => ⟨_, rfl⟩) h hs

end Methods

-- What a wait call can do: the kernel reports some of the entries.
structure Waited (x : Handle) (inst : Inst) (s s' : Sys) : Prop where
  self : s'.self = s.self
  family : s'.family = s.family
  objects : s'.objects = s.objects
  insts : s'.kernel.insts = s.kernel.insts ∨ x.closed = false ∧ ∃ ready,
    s'.kernel.insts = (s.setInterest x.inst (Sys.deliver inst.interest ready).2).kernel.insts
  logged : ∃ n, s'.kernel.log =
    s.kernel.log ++ List.replicate n ⟨s.self, .epollWait, x.inst, x.owner⟩ ∧ (x.closed = true → n = 0)

section Wait

variable {t m : Nat} {x : Handle} {inst : Inst} {s s' : Sys}

theorem epwait_cases (s : Sys) (t : Nat) (x : Handle) (inst : Inst) (maxevents : Int) :
    (∃ e s', s.epwait t x inst maxevents = (.error e, s') ∧ Waited x inst s s') ∨
    (∃ n s', s.epwait t x inst maxevents = (.ok n, s') ∧ Waited x inst s s' ∧
      (s'.frames t).buf.length = n) := by
  unfold Sys.epwait
  split
  · exact Or.inl ⟨_, _, rfl, rfl, rfl, rfl, Or.inl rfl, 0, by simp⟩
  · cases hc : x.closed with
    | true => exact Or.inl ⟨_, _, rfl, rfl, rfl, rfl, Or.inl rfl, 0, by simp⟩
    | false =>
        rcases hi : Sys.interrupted s.oracle.waits with ⟨count, last, left⟩
        cases last with
        | some errno =>
            exact Or.inl ⟨_, _, rfl, rfl, rfl, rfl, Or.inl rfl, count + 1, rfl, by simp [hc]⟩
        | none =>
            refine Or.inr ⟨_, _, rfl, ⟨rfl, rfl, rfl, Or.inr ⟨hc, _, rfl⟩, count + 1,
              rfl, by simp [hc]⟩, ?_⟩
            simp [Sys.setInterest]

theorem wait_effect {maxevents : Option Int} (h : Current s m x inst) (hs : s.family.mutex = none) :
    wp (exec t) (fun _ s' => Waited x inst s s') (fun _ s' => Waited x inst s s')
      (wait m maxevents) s := by
  obtain ⟨member, hm, hh, _⟩ := h.passes
  simp only [wait, wp_monad_bind, wp_rescue, wp_synchronize, (h.of_lock (some t)).wp_check,
    wp_getMarks, wp_setSnapshot, wp_ensure, epollWait, wp_getIo, SleepyPenguin.wp_epollWait,
    wp_putBuf, wp_monad_pure]
  refine ⟨hs, member, hm, x, hh, inst, h.inst, ?_⟩
  let looked : Sys := { s.withMutex none with
    frames := Function.update s.frames t { s.frames t with snapshot := s.family.marks } }
  have hframes : ∀ {q} frames, Waited x inst looked q →
      Waited x inst s { q with frames := frames } := by
    intro q frames hq
    have hfamily : (s.withMutex none).family = s.family := by simp only [Sys.withMutex, ← hs]
    exact ⟨hq.self, hq.family.trans hfamily, hq.objects, hq.insts, hq.logged⟩
  change Ends _ _ (looked.epwait t x inst (maxevents.getD 64))
  rcases epwait_cases looked t x inst (maxevents.getD 64) with
    ⟨e, s', he, hw⟩ | ⟨n, s', he, hw, hn⟩
  · rw [he]
    exact hframes _ hw
  · rw [he]
    have hpopped : ∀ q frames blocks, Waited x inst looked q →
        Waited x inst looked { q with frames := frames, oracle.blocks := blocks } :=
      fun _ _ _ hq => ⟨hq.self, hq.family, hq.objects, hq.insts, hq.logged⟩
    exact wp_mono (wp_yields hpopped hw hn) (fun _ _ hq => hframes _ hq) (fun _ _ hq => hframes _ hq)

end Wait

end SleepyPenguin.Epoll
