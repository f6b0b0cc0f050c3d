import SleepyPenguin.Epoll.Coherence

-- set and delete against the plain add, mod and del.
namespace SleepyPenguin.Epoll.Cached

open Foundation Foundation.Prog

-- The open member `m` of a coherent family, called with an open IO that
-- answers for itself.
structure Ready (s : Sys) (i m : Nat) (x : Handle) (inst : Inst) (io : Obj) (fd : Fd) : Prop where
  current : Current s m x inst
  alive : x.closed = false
  on : x.inst = i
  inst : s.kernel.insts[i]? = some inst
  plain : s.oracle.answers = []
  fileno : s.objects.fileno io = some fd

-- epoll_ctl that was refused, whoever refused it, or done.
def refusal (s : Sys) (inst : Inst) (op : CtlOp) (fd : Fd) : Option Errno :=
  match s.oracle.ctls.headD none with
  | some errno => some errno
  | none =>
      match op, inst.interest fd with
      | .add, some _ => some .EEXIST
      | .mod, none => some .ENOENT
      | .del, none => some .ENOENT
      | _, _ => none

-- What epoll_ctl leaves in the interest list when it is done.
def applied (interest : Interest) (op : CtlOp) (fd : Fd) (io : Obj) (mask : Nat) : Interest :=
  match op with
  | .del => interest.remove fd
  | _ => interest.register fd io mask

-- The state after a refused epoll_ctl.
def tried (s : Sys) (x : Handle) : Sys :=
  { s.issue .epollCtl x with oracle.ctls := s.oracle.ctls.tail }

theorem ctl_eq (interest : Interest) (op : CtlOp) (fd : Fd) (io : Obj) (mask : Nat) :
    interest.ctl op fd io mask =
      match op, interest fd with
      | .add, some _ => .error .EEXIST
      | .mod, none => .error .ENOENT
      | .del, none => .error .ENOENT
      | op, _ => .ok (applied interest op fd io mask) := by
  cases op <;> cases h : interest fd <;> simp [Interest.ctl, applied, h]

namespace Ready

variable {s : Sys} {t i m : Nat} {x : Handle} {inst : Inst} {io : Obj} {fd : Fd}

theorem of_coherent (h : Coherent s i) (ho : OpenAt s m) (hp : s.oracle.answers = [])
    (hfd : s.objects.fileno io = some fd) : ∃ x inst, Ready s i m x inst io fd := by
  obtain ⟨member, y, hm, hy, hc⟩ := ho
  have hlt := (List.getElem?_eq_some_iff.mp hm).1
  obtain ⟨member', x, inst, hpass, hinst, hi⟩ := h.settled.current hlt
  have hmember := Option.some.inj (hpass.listed.symm.trans hm)
  subst hmember
  have hx := Option.some.inj (hpass.handle.symm.trans hy)
  subst hx
  exact ⟨x, inst, ⟨⟨member', hpass⟩, hinst⟩, hc, hi hc, hi hc ▸ hinst, hp, hfd⟩

theorem of_lock (h : Ready s i m x inst io fd) (mutex : Option Nat) :
    Ready (s.withMutex mutex) i m x inst io fd :=
  ⟨h.current.of_lock mutex, h.alive, h.on, h.inst, h.plain, h.fileno⟩

theorem of_tried (h : Ready s i m x inst io fd) : Ready (tried s x) i m x inst io fd := by
  obtain ⟨member, hm, hh, hp⟩ := h.current.passes
  exact ⟨⟨⟨member, hm, hh, hp⟩, h.current.inst⟩, h.alive, h.on, h.inst, h.plain, h.fileno⟩

theorem interest (h : Ready s i m x inst io fd) : s.interestAt i = inst.interest :=
  Sys.interestAt_of_getElem h.inst

theorem answer (h : Ready s i m x inst io fd) (o : Obj) : s.answer o = (s.objects.fileno o, s) :=
  answer_plain h.plain o

-- One epoll_ctl for the IO, either outcome.
theorem wp_epollCtl (h : Ready s i m x inst io fd) (op : CtlOp) {n : Int} {mask : Nat}
    (hn : num2uint n = .ok mask) {post : Unit → Sys → Prop} {fail : Err → Sys → Prop}
    (hfail : ∀ errno, refusal s inst op fd = some errno → fail (.sys errno) (tried s x))
    (hpost : refusal s inst op fd = none →
      post () ((tried s x).setInterest i (applied inst.interest op fd io mask))) :
    wp (exec t) post fail (epollCtl m op io (.int n)) s := by
  obtain ⟨member, hm, hh, _⟩ := h.current.passes
  simp only [epollCtl, wp_monad_bind, wp_getIo, SleepyPenguin.wp_epollCtl]
  refine ⟨member, hm, x, hh, inst, h.current.inst, ?_⟩
  simp only [Sys.epctl, h.alive, Bool.false_eq_true, ite_false, h.answer, h.fileno, Flags.toUint, hn]
  unfold refusal at hfail hpost
  cases hfirst : s.oracle.ctls.headD none with
  | some errno =>
      rw [hfirst] at hfail
      exact hfail errno rfl
  | none =>
      rw [hfirst] at hfail hpost
      rw [h.on]
      cases op <;> cases he : inst.interest fd <;>
        simp only [he, ctl_eq, ends_ok, ends_error] at hfail hpost ⊢
      · exact hpost trivial
      · exact hfail .EEXIST rfl
      · exact hfail .ENOENT rfl
      · exact hpost trivial
      · exact hfail .ENOENT rfl
      · exact hpost trivial

end Ready

theorem refusal_none_iff (s : Sys) (inst : Inst) (op : CtlOp) (fd : Fd) :
    refusal s inst op fd = none ↔
      s.oracle.ctls.headD none = none ∧ (op = .add ↔ inst.interest fd = none) := by
  unfold refusal
  cases s.oracle.ctls.headD none with
  | some errno => simp
  | none => cases op <;> cases inst.interest fd <;> simp

-- Where the entry is as the operation wants it, only the outside refuses.
theorem refused_first {s : Sys} {inst : Inst} {op : CtlOp} {fd : Fd} {errno : Errno}
    (hop : op = .add ↔ inst.interest fd = none) (h : refusal s inst op fd = some errno) :
    s.oracle.ctls.headD none ≠ none := by
  intro hfirst
  have hnone := (refusal_none_iff s inst op fd).mpr ⟨hfirst, hop⟩
  rw [h] at hnone
  cases hnone

section Outcomes

variable {s : Sys} {t i m : Nat} {x : Handle} {inst : Inst} {io : Obj} {fd : Fd} {mask : Nat}

theorem Ready.marked {entry : Entry} (hr : Ready s i m x inst io fd) (h : Coherent s i)
    (hmasked : MaskedEvents s) (he : inst.interest fd = some entry) :
    s.family.marks.get fd = some io ∧ entry.obj = io ∧
      s.family.events.get fd = some (.int entry.mask) := by
  have hagrees := h.cacheAgrees hmasked
  rw [hr.interest] at hagrees
  obtain ⟨hmark, hevents⟩ := hagrees.entry fd entry he
  obtain ⟨o, ho, hopen⟩ := (hagrees.watched fd).mp (by rw [he]; rfl)
  obtain ⟨fd', hfd'⟩ := Option.isSome_iff_exists.mp hopen
  have hslot := (h.describes.slot fd o ho).2 fd' hfd'
  subst hslot
  have hown : o = io := h.ordinary.own o io fd' hfd' hr.fileno
  rw [hown] at ho
  rw [ho] at hmark
  exact ⟨ho, (Option.some.inj hmark).symm, hevents⟩

theorem Ready.unmarked (hr : Ready s i m x inst io fd) (h : Coherent s i)
    (he : inst.interest fd = none) {cur : Obj} (hcur : s.family.marks.get fd = some cur) :
    s.objects.same cur io = false := by
  rw [h.ordinary.same, decide_eq_false_iff_not]
  intro heq
  subst heq
  have hwatched := (h.describes.watched fd).mpr ⟨cur, hcur, by rw [hr.fileno]; rfl⟩
  rw [hr.interest, he] at hwatched
  cases hwatched

-- `set` returned: nothing was left to do, or the entry is new.
inductive Done (s : Sys) (i : Nat) (io : Obj) (fd : Fd) (mask : Nat) (s' : Sys) : Prop
  | skipped {entry : Entry} (he : s.interestAt i fd = some entry) (hobj : entry.obj = io)
      (hmask : entry.mask = mask) (harmed : entry.armed = true) (hbit : oneshotBit mask = false)
      (hkept : s'.interestAt i = s.interestAt i) : Done s i io fd mask s'
  | registered (hnew : s'.interestAt i = (s.interestAt i).register fd io mask)
      (hlog : s.kernel.log.length < s'.kernel.log.length) : Done s i io fd mask s'

-- The first epoll_ctl was refused, and the interest list is as it was.
structure Refused (s : Sys) (i : Nat) (s' : Sys) : Prop where
  first : s.oracle.ctls.headD none ≠ none
  kept : s'.interestAt i = s.interestAt i

-- The entry is new after an epoll_ctl in a state that was only tried on.
theorem Ready.registered (hr : Ready s i m x inst io fd) {q q' : Sys}
    (hinsts : q.kernel.insts = s.kernel.insts) (hlog : s.kernel.log.length ≤ q.kernel.log.length)
    (hq : q'.kernel =
      ((tried q x).setInterest i (inst.interest.register fd io mask)).kernel) :
    Done s i io fd mask q' := by
  have hlt : i < s.kernel.insts.length := (List.getElem?_eq_some_iff.mp hr.inst).1
  refine .registered ?_ ?_
  · rw [Sys.interestAt_congr (congrArg Kernel.insts hq),
      Sys.interestAt_setInterest (by change i < q.kernel.insts.length; rw [hinsts]; exact hlt),
      hr.interest]
  · have hlen : q'.kernel.log.length = q.kernel.log.length + 1 := by
      rw [hq]
      simp [Sys.setInterest, tried, Sys.issue]
    omega

theorem setUncached_spec (hr : Ready s i m x inst io fd) (he : inst.interest fd = none)
    (hn : num2uint mask = .ok mask) :
    wp (exec t)
      (fun _ s' => ∀ q, q.kernel = s'.kernel → Done s i io fd mask q)
      (fun _ s' => ∀ q, q.kernel = s'.kernel → Refused s i q) (setUncached m fd io (.int mask)) s := by
  simp only [setUncached, wp_monad_bind, wp_rescue, wp_setMark]
  refine hr.wp_epollCtl .add hn (fun errno herrno => ?_) fun _ q hq => ?_
  · have hfirst := refused_first (by simp [he]) herrno
    have hrefused : ∀ {s'}, s'.kernel.insts = s.kernel.insts → Refused s i s' := fun hs' =>
      ⟨hfirst, Sys.interestAt_congr hs' i⟩
    split
    · refine hr.of_tried.wp_epollCtl .mod hn (fun _ _ q hq => ?_) fun hnone => ?_
      · exact hrefused ((congrArg Kernel.insts hq).trans rfl)
      · have hgone := ((refusal_none_iff ..).mp hnone).2
        simp [he] at hgone
    · exact fun q hq => hrefused ((congrArg Kernel.insts hq).trans rfl)
  · exact hr.registered rfl (Nat.le_refl _) hq

theorem setCached_spec (hr : Ready s i m x inst io fd) (he : (inst.interest fd).isSome)
    (hn : num2uint mask = .ok mask) :
    wp (exec t)
      (fun _ s' => ∀ q, q.kernel = s'.kernel → Done s i io fd mask q)
      (fun _ s' => ∀ q, q.kernel = s'.kernel → Refused s i q) (setCached m fd io (.int mask)) s := by
  have hsome : inst.interest fd ≠ none := Option.isSome_iff_ne_none.mp he
  simp only [setCached, wp_rescue]
  refine hr.wp_epollCtl .mod hn (fun errno herrno => ?_) fun _ q hq => ?_
  · have hfirst := refused_first (by simp [hsome]) herrno
    have hrefused : ∀ {s'}, s'.kernel.insts = s.kernel.insts → Refused s i s' := fun hs' =>
      ⟨hfirst, Sys.interestAt_congr hs' i⟩
    split
    · simp only [wp_monad_bind, wp_setMark]
      refine hr.of_tried.wp_epollCtl .add hn (fun _ _ q hq => ?_) fun hnone => ?_
      · exact hrefused ((congrArg Kernel.insts hq).trans rfl)
      · have hthere := ((refusal_none_iff ..).mp hnone).2
        simp [hsome] at hthere
    · exact fun q hq => hrefused ((congrArg Kernel.insts hq).trans rfl)
  · exact hr.registered rfl (Nat.le_refl _) hq

theorem set_spec (hr : Ready s i m x inst io fd) (h : Coherent s i) (hmasked : MaskedEvents s)
    (hmask : mask < 0x100000000) :
    wp (exec t) (fun ret s' => ret = .zero ∧ Done s i io fd mask s') (fun _ s' => Refused s i s')
      (set m io (.int mask)) s := by
  have hn := num2uint_mask mask hmask
  have hl := hr.of_lock (some t)
  simp only [set, wp_monad_bind, wp_fileno, hr.answer, hr.fileno]
  refine ⟨fun fd' hfd' => ?_, fun hnone => (by cases hnone)⟩
  obtain rfl := Option.some.inj hfd'
  simp only [wp_synchronize, h.settled.idle, true_and, wp_monad_bind, hl.current.wp_check, wp_getMark]
  have hdone : ∀ q, Done (s.withMutex (some t)) i io fd mask q →
      Done s i io fd mask (q.withMutex none) := by
    intro q hq
    cases hq with
    | skipped he hobj hm harmed hbit hkept => exact .skipped he hobj hm harmed hbit hkept
    | registered hnew hlog => exact .registered hnew hlog
  have hrefused : ∀ q, Refused (s.withMutex (some t)) i q → Refused s i (q.withMutex none) :=
    fun q hq => ⟨hq.first, hq.kept⟩
  change wp _ _ _ (curIoSame (s.family.marks.get fd) io) _
  cases he : inst.interest fd with
  | none =>
      have huncached := setUncached_spec (t := t) hl he hn
      cases hcur : s.family.marks.get fd with
      | none =>
          simp only [curIoSame, wp_monad_pure, Bool.false_eq_true, ite_false, wp_monad_bind, wp_setEvents]
          exact wp_mono huncached
            (fun _ s' hs' => ⟨trivial, hdone _ (hs' _ rfl)⟩)
            (fun _ s' hs' => hrefused s' (hs' s' rfl))
      | some cur =>
          have hsame : (s.withMutex (some t)).objects.same cur io = false := hr.unmarked h he hcur
          simp only [curIoSame, wp_same, hsame, Bool.false_eq_true, ite_false, wp_monad_bind,
            wp_setEvents, wp_monad_pure]
          exact wp_mono huncached
            (fun _ s' hs' => ⟨trivial, hdone _ (hs' _ rfl)⟩)
            (fun _ s' hs' => hrefused s' (hs' s' rfl))
  | some entry =>
      obtain ⟨hmark, hobj, hevents⟩ := hr.marked h hmasked he
      have hsame : (s.withMutex (some t)).objects.same io io = true := by
        change s.objects.same io io = true
        rw [h.ordinary.same]
        simp
      have hcached := setCached_spec (t := t) hl (by rw [he]; rfl) hn
      have hget : (s.withMutex (some t)).family.events.get fd = some (.int entry.mask) := hevents
      rw [hmark]
      simp only [curIoSame, wp_same, hsame, ite_true, wp_monad_bind, wp_getEvents, hget, noOneshot,
        wp_ofExcept, ends_ok]
      split
      · rename_i hskip
        obtain ⟨hclear, heq⟩ := hskip
        have hints : (entry.mask : Int) = mask := by simpa using heq
        have heq' : entry.mask = mask := by omega
        have hbit : oneshotBit entry.mask = false := by simpa using hclear
        have hentry : s.interestAt i fd = some entry := by rw [hr.interest, he]
        have harmed : entry.armed = true := by
          by_contra hne
          have hspent := h.describes.spent fd entry hentry (by simpa using hne)
          rw [hbit] at hspent
          cases hspent.1
        exact ⟨rfl, .skipped hentry hobj heq' harmed (heq' ▸ hbit) rfl⟩
      · simp only [wp_monad_bind, wp_setEvents, wp_monad_pure]
        exact wp_mono hcached
          (fun _ s' hs' => ⟨trivial, hdone _ (hs' _ rfl)⟩)
          (fun _ s' hs' => hrefused s' (hs' s' rfl))

-- `delete` returned, with what it found and what epoll_ctl answered.
inductive Deleted (s : Sys) (i : Nat) (io : Obj) (fd : Fd) : Ret → Sys → Prop
  | absent {s' : Sys} (he : s.interestAt i fd = none) (hkept : s'.interestAt i = s.interestAt i) :
      Deleted s i io fd .nil s'
  | removed {s' : Sys} (he : (s.interestAt i fd).isSome) (hfirst : s.oracle.ctls.headD none = none)
      (hgone : s'.interestAt i = (s.interestAt i).remove fd) : Deleted s i io fd (.obj io) s'
  | swallowed {s' : Sys} (he : (s.interestAt i fd).isSome) (hrefused : Refused s i s') :
      Deleted s i io fd .nil s'

theorem delete_spec (hr : Ready s i m x inst io fd) (h : Coherent s i) (hmasked : MaskedEvents s) :
    wp (exec t) (Deleted s i io fd) (fun _ s' => (s.interestAt i fd).isSome ∧ Refused s i s')
      (delete m io) s := by
  have hl := hr.of_lock (some t)
  simp only [delete, wp_rescue, wp_monad_bind, wp_fileno, hr.answer, hr.fileno]
  refine ⟨fun fd' hfd' => ?_, fun hnone => (by cases hnone)⟩
  obtain rfl := Option.some.inj hfd'
  simp only [wp_synchronize, h.settled.idle, true_and, wp_monad_bind, hl.current.wp_check, wp_getMark]
  cases he : inst.interest fd with
  | none =>
      have habsent : s.interestAt i fd = none := by rw [hr.interest, he]
      cases hcur : (s.withMutex (some t)).family.marks.get fd with
      | none => exact .absent habsent rfl
      | some cur =>
          have hclosed : s.objects.fileno cur = none := by
            by_contra hne
            have hopen := Option.isSome_iff_ne_none.mpr hne
            have hwatched := (h.describes.watched fd).mpr ⟨cur, hcur, hopen⟩
            rw [habsent] at hwatched
            cases hwatched
          have hnone : ((s.withMutex (some t)).objects.fileno cur).isNone = true := by
            change (s.objects.fileno cur).isNone = true
            rw [hclosed]
            rfl
          simp only [wp_monad_bind, wp_isClosed, hl.answer, hnone, ite_true]
          exact .absent habsent rfl
  | some entry =>
      have hpresent : (s.interestAt i fd).isSome := by
        rw [hr.interest, he]
        rfl
      obtain ⟨hmark, _, _⟩ := hr.marked h hmasked he
      have hget : (s.withMutex (some t)).family.marks.get fd = some io := hmark
      simp only [hget, wp_monad_bind, wp_isClosed, hl.answer, hl.fileno, Option.isNone_some,
        Bool.false_eq_true, ite_false]
      refine hl.wp_epollCtl .del (num2uint_mask 0 (by decide)) (fun errno herrno => ?_) fun hnone => ?_
      · have hfirst := refused_first (by simp [he]) herrno
        have hrefused : Refused s i ((tried (s.withMutex (some t)) x).withMutex none) := ⟨hfirst, rfl⟩
        unfold rescueGone
        split
        · exact .swallowed hpresent hrefused
        · exact ⟨hpresent, hrefused⟩
      · have hfirst := ((refusal_none_iff ..).mp hnone).1
        have hlt : i < s.kernel.insts.length := (List.getElem?_eq_some_iff.mp hr.inst).1
        simp only [wp_setMark, wp_setEvents, wp_monad_pure]
        refine .removed hpresent hfirst ?_
        rw [hr.interest]
        exact Sys.interestAt_setInterest hlt _

theorem eventFlags_int {n : Int} (hn : num2uint n = .ok mask) : eventFlags (.int n) = .ok (.int mask) := by
  simp only [eventFlags, rbSpGetUflags, getFlags, hn, Except.map]
  rfl

-- The plain calls fail just when the outside refuses their epoll_ctl.
theorem add_spec {n : Int} (hr : Ready s i m x inst io fd) (h : Coherent s i)
    (he : inst.interest fd = none) (hn : num2uint n = .ok mask) :
    wp (exec t) (fun _ _ => s.oracle.ctls.headD none = none) (fun _ _ => s.oracle.ctls.headD none ≠ none)
      (add m io (.int n)) s := by
  have hl := hr.of_lock (some t)
  simp only [add, wp_monad_bind, wp_fileno, hr.answer, hr.fileno]
  refine ⟨fun fd' hfd' => ?_, fun hnone => (by cases hnone)⟩
  simp only [eventFlags_int hn, wp_ofExcept, ends_ok, wp_synchronize, h.settled.idle, true_and,
    wp_monad_bind, hl.current.wp_check]
  have hagain := num2uint_mask mask (num2uint_lt hn)
  refine hl.wp_epollCtl .add hagain (fun _ herrno => refused_first (by simp [he]) herrno) fun hnone => ?_
  simp only [wp_setEvents, wp_setMark, wp_monad_pure]
  exact ((refusal_none_iff ..).mp hnone).1

theorem mod_spec {n : Int} (hr : Ready s i m x inst io fd) (h : Coherent s i)
    (he : inst.interest fd ≠ none) (hn : num2uint n = .ok mask) :
    wp (exec t) (fun _ _ => s.oracle.ctls.headD none = none) (fun _ _ => s.oracle.ctls.headD none ≠ none)
      (mod m io (.int n)) s := by
  have hl := hr.of_lock (some t)
  simp only [mod, wp_monad_bind, eventFlags_int hn, wp_ofExcept, ends_ok, wp_fileno, hr.answer, hr.fileno]
  refine ⟨fun fd' hfd' => ?_, fun hnone => (by cases hnone)⟩
  simp only [wp_synchronize, h.settled.idle, true_and, wp_monad_bind, hl.current.wp_check]
  have hagain := num2uint_mask mask (num2uint_lt hn)
  refine hl.wp_epollCtl .mod hagain (fun _ herrno => refused_first (by simp [he]) herrno) fun hnone => ?_
  simp only [wp_setEvents, wp_setMark, wp_monad_pure]
  exact ((refusal_none_iff ..).mp hnone).1

theorem del_spec (hr : Ready s i m x inst io fd) (h : Coherent s i) (he : inst.interest fd ≠ none) :
    wp (exec t) (fun _ _ => s.oracle.ctls.headD none = none) (fun _ _ => s.oracle.ctls.headD none ≠ none)
      (del m io) s := by
  have hl := hr.of_lock (some t)
  simp only [del, wp_monad_bind, wp_fileno, hr.answer, hr.fileno]
  refine ⟨fun fd' hfd' => ?_, fun hnone => (by cases hnone)⟩
  simp only [wp_synchronize, h.settled.idle, true_and, wp_monad_bind, hl.current.wp_check]
  refine hl.wp_epollCtl .del (num2uint_mask 0 (by decide))
    (fun _ herrno => refused_first (by simp [he]) herrno)
    fun hnone => ?_
  simp only [wp_setEvents, wp_setMark, wp_monad_pure]
  exact ((refusal_none_iff ..).mp hnone).1

end Outcomes

-- The call of `op` returns, or raises.
def Returns (s : Sys) (m : Nat) (op : Op) (oracle : Oracle) : Prop :=
  ∃ ret s', (method m op).call oracle s = some (.ok ret, s')

def Raises (s : Sys) (m : Nat) (op : Op) (oracle : Oracle) : Prop :=
  ∃ e s', (method m op).call oracle s = some (.error e, s')

-- The plain call that registers `io`: mod where there is an entry, add where
-- there is none.
def plainSet (interest : Interest) (fd : Fd) (io : Obj) (n : Int) : Op :=
  if (interest fd).isSome then .mod io (.int n) else .add io (.int n)

-- What `set` may do to the interest list `before`.
structure SetAgrees (s : Sys) (i m : Nat) (oracle : Oracle) (io : Obj) (fd : Fd) (mask : Nat)
    (outcome : Except Err Ret) (s' : Sys) : Prop where
  entry : ∀ ret, outcome = .ok ret → ret = .zero ∧ ∃ entry, s'.interestAt i fd = some entry ∧
    entry.obj = io ∧ entry.mask = mask ∧ entry.armed = true
  skipped : ∀ ret, outcome = .ok ret → s'.kernel.log = s.kernel.log →
    ∃ entry, s.interestAt i fd = some entry ∧ entry.obj = io ∧ entry.mask = mask ∧
      entry.armed = true ∧ oneshotBit mask = false
  raised : ∀ e, outcome = .error e → Raises s m (plainSet (s.interestAt i) fd io mask) oracle
  others : ∀ other, other ≠ fd → s'.interestAt i other = s.interestAt i other

structure DeleteAgrees (s : Sys) (i m : Nat) (oracle : Oracle) (io : Obj) (fd : Fd)
    (outcome : Except Err Ret) (s' : Sys) : Prop where
  removed : (s.interestAt i fd).isSome → Returns s m (.del io) oracle →
    outcome = .ok (.obj io) ∧ s'.interestAt i fd = none
  absent : s.interestAt i fd = none → outcome = .ok .nil
  nil : outcome = .ok .nil → s'.interestAt i fd = none ∨ Raises s m (.del io) oracle
  others : ∀ other, other ≠ fd → s'.interestAt i other = s.interestAt i other

section Agreement

variable {s : Sys} {i m : Nat} {x : Handle} {inst : Inst} {io : Obj} {fd : Fd} {mask : Nat}
  {oracle : Oracle}

-- A call whose specification rules one of the two outcomes out has the other.
theorem raises_of_wp {op : Op} {post : Ret → Sys → Prop} {fail : Err → Sys → Prop}
    (h : wp (exec 0) post fail (method m op) { s with oracle := oracle }) (hno : ∀ ret q, ¬post ret q) :
    Raises s m op oracle := by
  obtain ⟨⟨outcome, q⟩, hrun, hend⟩ := (wp_iff_run ..).mp h
  cases outcome with
  | ok ret => exact absurd hend (hno ret q)
  | error e => exact ⟨e, q, hrun⟩

theorem post_of_returns {op : Op} {p : Prop} {fail : Err → Sys → Prop}
    (h : wp (exec 0) (fun _ _ => p) fail (method m op) { s with oracle := oracle })
    (hr : Returns s m op oracle) : p := by
  obtain ⟨ret, q, hrun⟩ := hr
  exact wp_of_run h hrun

theorem plainSet_raises {n : Int} (h : Coherent { s with oracle := oracle } i)
    (hr : Ready { s with oracle := oracle } i m x inst io fd) (hn : num2uint n = .ok mask)
    (hfirst : oracle.ctls.headD none ≠ none) :
    Raises s m (plainSet inst.interest fd io n) oracle := by
  unfold plainSet
  cases he : inst.interest fd with
  | none => exact raises_of_wp (add_spec hr h he hn) fun _ _ => hfirst
  | some entry => exact raises_of_wp (mod_spec hr h (by simp [he]) hn) fun _ _ => hfirst

theorem set_agrees (h : Coherent s i) (hmasked : MaskedEvents s)
    (hr : Ready { s with oracle := oracle } i m x inst io fd) (hmask : mask < 0x100000000) :
    ∃ outcome s', (method m (.set io (.int mask))).call oracle s = some (outcome, s') ∧
      SetAgrees s i m oracle io fd mask outcome s' := by
  have hn := num2uint_mask mask hmask
  have hc := h.of_oracle oracle
  obtain ⟨⟨outcome, s'⟩, hrun, hend⟩ := (wp_iff_run ..).mp (set_spec (t := 0) hr hc hmasked hmask)
  refine ⟨outcome, s', hrun, ?_⟩
  cases outcome with
  | ok ret =>
      obtain ⟨rfl, hdone⟩ := hend
      cases hdone with
      | @skipped entry he hobj hem harmed hbit hkept =>
          have hinterest : s'.interestAt i = s.interestAt i := hkept
          refine ⟨fun _ hret => ⟨(Except.ok.inj hret).symm, entry, ?_, hobj, hem, harmed⟩,
            fun _ _ _ => ⟨entry, he, hobj, hem, harmed, hbit⟩, fun _ he => (by cases he), fun other _ => ?_⟩
          · rw [hinterest]
            exact he
          · rw [hinterest]
      | registered hnew hlog =>
          have hinterest : s'.interestAt i = (s.interestAt i).register fd io mask := hnew
          refine ⟨fun _ hret => ⟨(Except.ok.inj hret).symm, ⟨io, mask, true, false⟩, ?_, rfl, rfl, rfl⟩,
            fun _ _ hsame => ?_, fun _ he => (by cases he), fun other hother => ?_⟩
          · rw [hinterest, Interest.register_apply, if_pos rfl]
          · have hlen : s.kernel.log.length < s'.kernel.log.length := hlog
            rw [hsame] at hlen
            exact absurd hlen (Nat.lt_irrefl _)
          · rw [hinterest, Interest.register_apply, if_neg hother]
  | error e =>
      obtain ⟨hfirst, hkept⟩ := hend
      have hinterest : s'.interestAt i = s.interestAt i := hkept
      have hint : s.interestAt i = inst.interest := hr.interest
      refine ⟨fun _ he => (by cases he), fun _ he => (by cases he), fun _ _ => ?_,
        fun _ _ => by rw [hinterest]⟩
      rw [hint]
      exact plainSet_raises hc hr hn hfirst

theorem delete_agrees (h : Coherent s i) (hmasked : MaskedEvents s)
    (hr : Ready { s with oracle := oracle } i m x inst io fd) :
    ∃ outcome s', (method m (.delete io)).call oracle s = some (outcome, s') ∧
      DeleteAgrees s i m oracle io fd outcome s' := by
  have hc := h.of_oracle oracle
  have hint : s.interestAt i = inst.interest := hr.interest
  have hplain : (s.interestAt i fd).isSome →
      wp (exec 0) (fun _ _ => oracle.ctls.headD none = none) (fun _ _ => oracle.ctls.headD none ≠ none)
        (del m io) { s with oracle := oracle } := fun he =>
    del_spec hr hc (Option.isSome_iff_ne_none.mp (hint ▸ he))
  obtain ⟨⟨outcome, s'⟩, hrun, hend⟩ := (wp_iff_run ..).mp (delete_spec (t := 0) hr hc hmasked)
  refine ⟨outcome, s', hrun, ?_⟩
  have hkeep : Refused { s with oracle := oracle } i s' →
    s'.interestAt i = s.interestAt i := fun hr => hr.kept
  cases outcome with
  | ok ret =>
      cases hend with
      | absent he hkept =>
          have habsent : s.interestAt i fd = none := he
          have hinterest : s'.interestAt i = s.interestAt i := hkept
          refine ⟨fun hsome _ => ?_, fun _ => rfl, fun _ => Or.inl (by rw [hinterest, habsent]),
            fun _ _ => by rw [hinterest]⟩
          rw [habsent] at hsome
          cases hsome
      | removed he hfirst hgone =>
          have hinterest : s'.interestAt i = (s.interestAt i).remove fd := hgone
          have hremoved : s'.interestAt i fd = none := by
            rw [hinterest, Interest.remove_apply, if_pos rfl]
          refine ⟨fun _ _ => ⟨rfl, hremoved⟩, fun hnone => ?_, fun hret => (by cases hret),
            fun other hother => ?_⟩
          · have hsome : (s.interestAt i fd).isSome := he
            rw [hnone] at hsome
            cases hsome
          · rw [hinterest, Interest.remove_apply, if_neg hother]
      | swallowed he hrefused =>
          have hinterest := hkeep hrefused
          refine ⟨fun hsome hret => ?_, fun _ => rfl, fun _ => Or.inr ?_, fun _ _ => by rw [hinterest]⟩
          · exact absurd (post_of_returns (hplain hsome) hret) hrefused.first
          · exact raises_of_wp (hplain he) fun _ _ => hrefused.first
  | error e =>
      obtain ⟨he, hrefused⟩ := hend
      have hinterest := hkeep hrefused
      refine ⟨fun hsome hret => ?_, fun hnone => ?_, fun hret => (by cases hret),
        fun _ _ => by rw [hinterest]⟩
      · exact absurd (post_of_returns (hplain hsome) hret) hrefused.first
      · have hsome : (s.interestAt i fd).isSome := he
        rw [hnone] at hsome
        cases hsome

end Agreement

-- In every state that calls, opened and closed IOs and reported events lead
-- to, `set` and `delete` on any open member and any open IO agree with the
-- plain calls.
theorem cached_agree (pid : Pid) (objects : Objects) (ho : Ordinary objects) (labels : List Label)
    (hl : ∀ label ∈ labels, label.Permitted) (s : Sys)
    (hr : runEvents (step 0) (opened pid objects) labels = some s) (m : Nat) (hm : OpenAt s m)
    (io : Obj) (fd : Fd) (hfd : s.objects.fileno io = some fd) (oracle : Oracle)
    (hp : oracle.answers = []) :
    (∀ mask : Nat, mask < 0x100000000 → ∃ outcome s',
      (method m (.set io (.int mask))).call oracle s = some (outcome, s') ∧
        SetAgrees s 0 m oracle io fd mask outcome s') ∧
    ∃ outcome s', (method m (.delete io)).call oracle s = some (outcome, s') ∧
      DeleteAgrees s 0 m oracle io fd outcome s' := by
  obtain ⟨h, hmasked⟩ := reached ho hl hr
  obtain ⟨x, inst, hready⟩ := Ready.of_coherent (h.of_oracle oracle) hm hp hfd
  exact ⟨fun mask hmask => set_agrees h hmasked hready hmask, delete_agrees h hmasked hready⟩

-- A one-shot watch that reported, then set again with the same mask, deleted
-- and deleted again.
theorem cached_agree_oneshot :
    ∃ s, runEvents (step 0) (opened 1 noObjects)
        [.openIo 3, .call 0 (.add 0 (.int 0x40000001)) {}, .report 3] = some s ∧
      ∃ outcome s', (method 0 (.set 0 (.int 0x40000001))).call {} s = some (outcome, s') ∧
        SetAgrees s 0 0 {} 0 3 0x40000001 outcome s' := by
  have hagree : ∀ s, runEvents (step 0) (opened 1 noObjects)
        [.openIo 3, .call 0 (.add 0 (.int 0x40000001)) {}, .report 3] = some s →
      OpenAt s 0 → s.objects.fileno 0 = some 3 →
      ∃ outcome s', (method 0 (.set 0 (.int 0x40000001))).call {} s = some (outcome, s') ∧
        SetAgrees s 0 0 {} 0 3 0x40000001 outcome s' := fun s hr hm hfd =>
    (cached_agree 1 noObjects noObjects_ordinary _ (by simp [Label.Permitted, Op.Masked, Masked]) s hr 0 hm
      0 3 hfd {} rfl).1 0x40000001 (by decide)
  exact ⟨_, rfl, hagree _ rfl ⟨_, _, rfl, rfl, rfl⟩ rfl⟩

end SleepyPenguin.Epoll.Cached
