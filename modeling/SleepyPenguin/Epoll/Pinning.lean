import SleepyPenguin.Foundation.Run
import SleepyPenguin.Epoll.Members

-- Which object the kernel hands back, when the objects given to the methods
-- may be proxies with an `==` of their own.
namespace SleepyPenguin.Epoll.Pinning

open Foundation Foundation.Prog

-- A method call, the last descriptor of a watched file being closed, or the
-- objects answering differently from now on.
inductive Label
  | call (m : Nat) (op : Op) (oracle : Oracle)
  | forget (fd : Fd)
  | answer (objects : Objects)

def step (s : Sys) : Label → Option Sys
  | .call m op oracle =>
      if m < s.family.members.length then ((method m op).call oracle s).map Prod.snd else none
  | .forget fd => some (s.forget fd)
  | .answer objects => some { s with objects := objects }

-- Every object the kernel can hand back is the one in `@marks`.
def Pins (marks : Slots Obj) (interest : Interest) : Prop :=
  ∀ fd entry, interest fd = some entry → marks.get fd = some entry.obj

def Pinned (i : Nat) (s : Sys) : Prop := Pins s.family.marks (s.interestAt i)

namespace Pins

variable {marks : Slots Obj} {interest interest' : Interest} {fd : Fd} {io : Obj} {mask : Nat}

theorem register (h : Pins marks interest) :
    Pins (marks.set fd (some io)) (interest.register fd io mask) := by
  intro other entry he
  rw [Interest.register_apply] at he
  rw [Slots.get_set]
  split at he
  · rename_i heq
    cases he
    rw [if_pos heq]
  · rename_i hne
    rw [if_neg hne]
    exact h other entry he

-- Without a write to `@marks` the object has to be the marked one.
theorem reregister (h : Pins marks interest) (hmark : marks.get fd = some io) :
    Pins marks (interest.register fd io mask) := by
  intro other entry he
  rw [Interest.register_apply] at he
  split at he
  · rename_i heq
    cases he
    rw [heq, hmark]
  · exact h other entry he

theorem remove (h : Pins marks interest) : Pins (marks.set fd none) (interest.remove fd) := by
  intro other entry he
  rw [Interest.remove_apply] at he
  rw [Slots.get_set]
  split at he
  · cases he
  · rename_i hne
    rw [if_neg hne]
    exact h other entry he

theorem forget (h : Pins marks interest) : Pins marks (interest.remove fd) := by
  intro other entry he
  rw [Interest.remove_apply] at he
  split at he
  · cases he
  · exact h other entry he

theorem refire (h : Pins marks interest) (hw : interest'.watched = interest.watched) :
    Pins marks interest' := by
  intro other entry he
  obtain ⟨before, hb, heq, _⟩ := Interest.entry_of_watched hw he
  rw [← heq]
  exact h other before hb

end Pins

-- `to_io` answers the same descriptor however often a call asks.
def Label.Plain : Label → Prop
  | .call _ _ oracle => oracle.answers = []
  | _ => True

-- `set` modifies an entry whose mark is equal to the new object but is
-- another object.
def Replaces (s : Sys) (i m : Nat) (oracle : Oracle) : Op → Prop
  | .set io ev => ∃ fd cur mask, s.objects.fileno io = some fd ∧
      s.family.marks.get fd = some cur ∧ s.objects.same cur io = true ∧ cur ≠ io ∧
      Refreshes (s.family.events.get fd) ev ∧
      OpenAt s m ∧ (s.interestAt i fd).isSome ∧ ev.toUint = .ok mask ∧
      oracle.ctls.headD none = none
  | _ => False

def Label.Replaces (i : Nat) (s : Sys) : Label → Prop
  | .call m op oracle => Pinning.Replaces s i m oracle op
  | _ => False

section Steps

variable {s s' : Sys} {i m : Nat} {op : Op}

theorem Pinned.of_effect {first : Option Errno} {x : Handle} {inst : Inst} (h : Pinned i s)
    (hs : Settled s i) (hi : x.inst = i) (hinst : s.kernel.insts[i]? = some inst)
    (hsafe : ∀ {fd : Fd} {io cur : Obj} {ev : EventArg} {mask : Nat}, op = .set io ev →
      first = none → s.objects.fileno io = some fd → s.family.marks.get fd = some cur →
      s.objects.same cur io = true →
      Refreshes (s.family.events.get fd) ev →
      (s.interestAt i fd).isSome → ev.toUint = .ok mask → cur = io)
    (he : Effect True first op x inst s s') : Pinned i s' := by
  have hint := Sys.interestAt_of_getElem hinst
  have hset : ∀ {q : Sys}, Quiet x s q → ∀ l, (q.setInterest x.inst l).interestAt i = l := by
    intro q hq l
    rw [hi]
    exact Sys.interestAt_setInterest (by rw [hq.insts]; exact hs.made) l
  have hp : Pins s.family.marks inst.interest := hint ▸ h
  cases he with
  | quiet hq =>
      unfold Pinned
      rw [hq.family, Sys.interestAt_congr hq.insts]
      exact h
  | @register q fd fdk mask io ev hq hx ha hop hm =>
      obtain ⟨_, rfl⟩ := ha trivial
      change Pins (q.family.marks.set fdk (some io)) ((q.setInterest x.inst _).interestAt i)
      rw [hset hq, hq.family]
      exact hp.register
  | @remodify q fd fdk mask io cur ev hq hx ha hop hm hcur hsame hskip hfirst hl =>
      obtain ⟨hfd, rfl⟩ := ha trivial
      obtain rfl := hsafe hop hfirst hfd hcur hsame hskip (hint ▸ hl) hm
      change Pins q.family.marks ((q.setInterest x.inst _).interestAt i)
      rw [hset hq, hq.family]
      exact hp.reregister hcur
  | @remove q fd fdk io hq hx ha hop =>
      obtain ⟨_, rfl⟩ := ha trivial
      change Pins (q.family.marks.set fdk none) ((q.setInterest x.inst _).interestAt i)
      rw [hset hq, hq.family]
      exact hp.remove

theorem Pinned.of_after (h : Pinned i s) (hs : Settled s i) (hp : s.oracle.answers = [])
    (hsafe : ¬Replaces s i m s.oracle op) (ha : After s i m op s') : Pinned i s' := by
  cases ha.change with
  | unchanged hu =>
      unfold Pinned
      rw [hu.marks, Sys.interestAt_congr hu.insts]
      exact h
  | waited hi hinst hw =>
      unfold Pinned
      rw [hw.family]
      rcases hw.insts with heq | ⟨_, ready, heq⟩
      · rw [Sys.interestAt_congr heq]
        exact h
      · rw [Sys.interestAt_congr heq, hi, Sys.interestAt_setInterest hs.made,
          ← Sys.interestAt_of_getElem hinst]
        exact Pins.refire h (Sys.deliver_watched ..)
  | effect hi hinst hopen he =>
      refine h.of_effect hs hi hinst ?_ (by simpa only [hp] using he)
      intro fd io cur ev mask hop hfirst hfd hcur hsame hskip hl hm
      by_contra hne
      subst hop
      exact hsafe ⟨fd, cur, mask, hfd, hcur, hsame, hne, hskip, hopen, hl, hm, hfirst⟩

theorem pinned_step {label : Label} (h : Settled s i ∧ Pinned i s) (hp : label.Plain)
    (hsafe : ¬label.Replaces i s) (hs : step s label = some s') : Settled s' i ∧ Pinned i s' := by
  cases label with
  | call m op oracle =>
      simp only [step, Option.ite_none_right_eq_some, Option.map_eq_some_iff] at hs
      obtain ⟨hm, ⟨outcome, s'⟩, hc, rfl⟩ := hs
      have hsettled : Settled { s with oracle := oracle } i :=
        h.1.of_same ⟨rfl, rfl, rfl, rfl, rfl, rfl⟩
      have hpinned : Pinned i { s with oracle := oracle } := h.2
      have hw := wp_of_run (method_after hsettled hm op) hc
      have hafter : After { s with oracle := oracle } i m op s' := by
        cases outcome with
        | ok ret => exact hw
        | error e => exact hw.1
      exact ⟨hafter.settled, hpinned.of_after hsettled hp hsafe hafter⟩
  | forget fd =>
      cases hs
      have hm : SameMembers s (s.forget fd) := ⟨rfl, rfl, rfl, rfl, rfl, List.length_map _⟩
      refine ⟨h.1.of_same hm, ?_⟩
      unfold Pinned
      rw [Sys.interestAt_forget]
      exact Pins.forget h.2
  | answer objects =>
      cases hs
      exact ⟨h.1.of_same ⟨rfl, rfl, rfl, rfl, rfl, rfl⟩, h.2⟩

-- epoll_ctl on an open handle that neither the conversion of its arguments
-- nor the kernel refuses.
theorem epctl_ok {x : Handle} {inst : Inst} {ctlOp : CtlOp} {io : Obj} {ev : EventArg} {fd : Fd}
    {mask : Nat} {l : Interest} (hc : x.closed = false) (hp : s.oracle.answers = [])
    (hfd : s.objects.fileno io = some fd) (hm : ev.toUint = .ok mask)
    (hfirst : s.oracle.ctls.headD none = none) (hl : inst.interest.ctl ctlOp fd io mask = .ok l) :
    s.epctl x inst ctlOp io ev =
      (.ok (), ({ s.issue .epollCtl x with oracle.ctls := s.oracle.ctls.tail } : Sys).setInterest
        x.inst l) := by
  simp only [Sys.epctl, hc, answer_plain hp, hfd, hm, hfirst, hl, Bool.false_eq_true, ite_false]

-- The modification succeeds, so that the kernel holds the new object and
-- `@marks` still the old one.
theorem set_breaks {io cur : Obj} {ev : EventArg} {fd : Fd} {mask : Nat} (h : Settled s i)
    (hopen : OpenAt s m) (hp : s.oracle.answers = []) (hfd : s.objects.fileno io = some fd)
    (hcur : s.family.marks.get fd = some cur) (hsame : s.objects.same cur io = true)
    (hne : cur ≠ io)
    (hskip : Refreshes (s.family.events.get fd) ev)
    (hl : (s.interestAt i fd).isSome) (hm : ev.toUint = .ok mask)
    (hfirst : s.oracle.ctls.headD none = none) :
    wp (exec 0) (fun _ s' => ¬Pinned i s') (fun _ _ => False) (set m io ev) s := by
  obtain ⟨member, x, hmem, hx, hc⟩ := hopen
  obtain ⟨member', x', inst, hpass, hinst, hi⟩ := h.current (List.getElem?_eq_some_iff.mp hmem).1
  obtain rfl := Option.some.inj (hpass.listed.symm.trans hmem)
  obtain rfl := Option.some.inj (hpass.handle.symm.trans hx)
  have hcurrent : Current s m x' inst := ⟨⟨_, hpass⟩, hinst⟩
  obtain ⟨clear, hclear, hskip⟩ := hskip
  have hint := Sys.interestAt_of_getElem hcurrent.inst
  rw [hi hc] at hint
  have hctl : inst.interest.ctl .mod fd io mask = .ok (inst.interest.register fd io mask) :=
    (Interest.ctl_ok_iff ..).mpr (Or.inr (Or.inl ⟨rfl, hint ▸ hl, rfl⟩))
  have hrun : (s.withMutex (some 0)).epctl x' inst .mod io ev = _ :=
    epctl_ok hc hp hfd hm hfirst hctl
  have hbroken : ∀ q : Sys, q.family.marks = s.family.marks →
      q.interestAt i = inst.interest.register fd io mask → ¬Pinned i q := by
    intro q hmarks hq hpin
    have hmark := hpin fd ⟨io, mask, true, false⟩ (by rw [hq, Interest.register_apply, if_pos rfl])
    rw [hmarks, hcur] at hmark
    exact hne (Option.some.inj hmark)
  simp only [set, wp_monad_bind, wp_fileno, answer_plain hp, hfd, Option.some.injEq, wp_synchronize,
    h.idle, (hcurrent.of_lock (some 0)).wp_check, wp_getMark, reduceCtorEq, false_implies, and_true]
  rintro _ rfl
  refine ⟨trivial, ?_⟩
  have hmark : (s.withMutex (some 0)).family.marks.get fd = some cur := hcur
  have hsame' : (s.withMutex (some 0)).objects.same cur io = true := hsame
  have hclear' : noOneshot ((s.withMutex (some 0)).family.events.get fd) = .ok clear := hclear
  have hskip' : ¬(clear = true ∧ (s.withMutex (some 0)).family.events.get fd = some ev) := hskip
  simp only [hmark, curIoSame, wp_same, hsame', ite_true, wp_monad_bind, wp_getEvents, wp_ofExcept,
    hclear', ends_ok, if_neg hskip', setCached, wp_rescue, epollCtl, wp_getIo,
    SleepyPenguin.wp_epollCtl, wp_setEvents, wp_monad_pure]
  refine ⟨_, hmem, x', hx, inst, hcurrent.inst, ?_⟩
  rw [hrun]
  refine hbroken _ rfl ?_
  exact hi hc ▸ Sys.interestAt_setInterest (List.getElem?_eq_some_iff.mp hcurrent.inst).1 _

end Steps

theorem step_breaks {s : Sys} {i : Nat} {label : Label} (h : Settled s i) (hp : label.Plain)
    (hr : label.Replaces i s) : ∃ s', step s label = some s' ∧ ¬Pinned i s' := by
  cases label with
  | call m op oracle =>
      cases op with
      | set io ev =>
          obtain ⟨fd, cur, mask, hfd, hcur, hsame, hne, hskip, hopen, hl, hm, hfirst⟩ := hr
          have hsettled : Settled { s with oracle := oracle } i :=
            h.of_same ⟨rfl, rfl, rfl, rfl, rfl, rfl⟩
          have hw := set_breaks hsettled hopen hp hfd hcur hsame hne hskip hl hm hfirst
          obtain ⟨⟨outcome, s'⟩, hrun, hends⟩ := (wp_iff_run ..).mp hw
          obtain ⟨_, _, hmem, _, _⟩ := hopen
          have hlt : m < s.family.members.length := (List.getElem?_eq_some_iff.mp hmem).1
          refine ⟨s', ?_, ?_⟩
          · simp only [step, if_pos hlt]
            exact Option.map_eq_some_iff.mpr ⟨_, hrun, rfl⟩
          · cases outcome with
            | ok ret => exact hends
            | error e => exact hends.elim
      | _ => exact hr.elim
  | _ => exact hr.elim

-- Where `to_io` answers steadily, what the kernel hands back stays pinned as
-- long as no `set` puts an equal but different object over a mark, and that
-- is the only way to lose it.
theorem pinned_iff (pid : Pid) (objects : Objects) (labels : List Label) :
    (Guarded step (fun s label => label.Plain ∧ ¬label.Replaces 0 s) (opened pid objects) labels →
      Visits step (Pinned 0) (opened pid objects) labels) ∧
    ((∀ label ∈ labels, label.Plain) →
      (Visits step (Pinned 0) (opened pid objects) labels ↔
        Guarded step (fun s label => ¬label.Replaces 0 s) (opened pid objects) labels)) := by
  have hfirst : Settled (opened pid objects) 0 ∧ Pinned 0 (opened pid objects) :=
    ⟨opened_settled pid objects, fun _ _ h => by cases h⟩
  have henough : Guarded step (fun s label => label.Plain ∧ ¬label.Replaces 0 s)
      (opened pid objects) labels → Visits step (Pinned 0) (opened pid objects) labels :=
    visits_of_guarded (fun s => Settled s 0 ∧ Pinned 0 s) (Pinned 0) (fun _ h => h.2)
      (fun _ _ _ h hg hs => pinned_step h hg.1 hg.2 hs) hfirst
  refine ⟨henough, fun hall => ⟨fun hv => ?_, fun hg => henough ?_⟩⟩
  · refine guarded_of_visits (fun s => Settled s 0 ∧ Pinned 0 s) (Pinned 0)
      (fun _ _ _ h hp hg hs => pinned_step h hp hg hs) ?_ hall hfirst hv
    exact fun s label h hp hn => step_breaks h.1 hp (not_not.mp hn)
  · exact guarded_and (guarded_of_forall hall _) hg

-- Two proxies that are `==`, both for descriptor 3.
def proxies : Objects := ⟨fun o => if o < 2 then some 3 else none, fun _ _ => true, 2⟩

theorem pinned_iff_mod :
    Visits step (Pinned 0) (opened 1 proxies)
      [.call 0 (.add 0 (.int 1)) {}, .call 0 (.mod 1 (.int 4)) {}] :=
  (pinned_iff 1 proxies _).1
    ⟨⟨rfl, id⟩, fun _ _ => ⟨⟨rfl, id⟩, fun _ _ => trivial⟩⟩

-- `set` with the second proxy: the kernel holds it, `@marks` the first.
theorem set_unpins :
    ∃ s, runEvents step (opened 1 proxies)
        [.call 0 (.add 0 (.int 1)) {}, .call 0 (.set 1 (.int 4)) {}] = some s ∧
      s.interestAt 0 3 = some ⟨1, 4, true, false⟩ ∧ s.family.marks.get 3 = some 0 ∧ ¬Pinned 0 s := by
  refine ⟨_, rfl, rfl, rfl, fun h => ?_⟩
  have hmark := h 3 ⟨1, 4, true, false⟩ rfl
  exact absurd hmark (by decide)

end SleepyPenguin.Epoll.Pinning
