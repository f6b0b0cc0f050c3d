import SleepyPenguin.Foundation.Run
import SleepyPenguin.Epoll.Members

namespace SleepyPenguin.Epoll

open Foundation Foundation.Prog

-- IO objects that are compared by identity, each open one with a descriptor
-- number of its own.
structure Ordinary (objects : Objects) : Prop where
  same : ∀ a b, objects.same a b = decide (a = b)
  own : ∀ a b fd, objects.fileno a = some fd → objects.fileno b = some fd → a = b
  born : ∀ o fd, objects.fileno o = some fd → o < objects.born

-- What `@marks` and `@events` say about an interest list. A mark may be left
-- over from an IO that was closed; an open one is in its own slot.
structure Describes (marks : Slots Obj) (events : Slots EventArg) (objects : Objects)
    (interest : Interest) : Prop where
  watched : ∀ fd, (interest fd).isSome ↔
    ∃ o, marks.get fd = some o ∧ (objects.fileno o).isSome
  entry : ∀ fd entry, interest fd = some entry → marks.get fd = some entry.obj ∧
    ∃ ev, events.get fd = some ev ∧ ev.toUint = .ok entry.mask
  spent : ∀ fd entry, interest fd = some entry → Interest.Spent entry
  nils : ∀ fd, marks.get fd = none ↔ events.get fd = none
  slot : ∀ fd o, marks.get fd = some o →
    o < objects.born ∧ ∀ fd', objects.fileno o = some fd' → fd' = fd

theorem noObjects_ordinary : Ordinary noObjects :=
  ⟨fun _ _ => rfl, fun _ _ _ h => (Option.some_ne_none _ h.symm).elim,
    fun _ _ h => (Option.some_ne_none _ h.symm).elim⟩

namespace Describes

variable {marks marks' : Slots Obj} {events : Slots EventArg} {objects : Objects}
  {interest interest' : Interest} {fd : Fd} {io : Obj} {ev : EventArg} {mask : Nat}

theorem empty (objects : Objects) : Describes Slots.empty Slots.empty objects Interest.empty := by
  refine ⟨?_, ?_, ?_, ?_, ?_⟩ <;> simp [Interest.empty]

theorem congr (h : Describes marks events objects interest)
    (hm : ∀ fd, marks'.get fd = marks.get fd) : Describes marks' events objects interest := by
  refine ⟨?_, ?_, h.spent, ?_, ?_⟩ <;> simp only [hm]
  · exact h.watched
  · exact h.entry
  · exact h.nils
  · exact h.slot

-- Reporting an event leaves what is watched as it is.
theorem refire (h : Describes marks events objects interest)
    (hw : interest'.watched = interest.watched)
    (hs : ∀ fd entry, interest' fd = some entry → Interest.Spent entry) :
    Describes marks events objects interest' := by
  refine ⟨fun fd => ?_, fun fd entry he => ?_, hs, h.nils, h.slot⟩
  · have hsome := congrArg Option.isSome (congrFun hw fd)
    simp only [Interest.watched, Option.isSome_map] at hsome
    rw [hsome]
    exact h.watched fd
  · obtain ⟨before, hb, hobj, hmask⟩ := Interest.entry_of_watched hw he
    rw [← hobj, ← hmask]
    exact h.entry fd before hb

theorem register (h : Describes marks events objects interest) (ho : Ordinary objects)
    (hfd : objects.fileno io = some fd) (hm : ev.toUint = .ok mask) :
    Describes (marks.set fd (some io)) (events.set fd (some ev)) objects
      (interest.register fd io mask) := by
  refine ⟨fun other => ?_, fun other entry he => ?_, fun other entry he => ?_, fun other => ?_,
    fun other o hmark => ?_⟩
  · by_cases heq : other = fd
    · simp [Interest.register_apply, heq, hfd]
    · simp only [Interest.register_apply, Slots.get_set, if_neg heq]
      exact h.watched other
  · by_cases heq : other = fd
    · rw [Interest.register_apply, if_pos heq] at he
      cases he
      simp [heq, hm]
    · rw [Interest.register_apply, if_neg heq] at he
      simp only [Slots.get_set, if_neg heq]
      exact h.entry other entry he
  · by_cases heq : other = fd
    · rw [Interest.register_apply, if_pos heq] at he
      cases he
      simp [Interest.Spent]
    · rw [Interest.register_apply, if_neg heq] at he
      exact h.spent other entry he
  · by_cases heq : other = fd
    · simp [heq]
    · simp only [Slots.get_set, if_neg heq]
      exact h.nils other
  · by_cases heq : other = fd
    · rw [Slots.get_set, if_pos heq] at hmark
      cases hmark
      refine ⟨ho.born _ _ hfd, fun fd' hfd' => ?_⟩
      rw [heq]
      exact Option.some.inj (hfd'.symm.trans hfd)
    · rw [Slots.get_set, if_neg heq] at hmark
      exact h.slot other o hmark

theorem remove (h : Describes marks events objects interest) :
    Describes (marks.set fd none) (events.set fd none) objects (interest.remove fd) := by
  refine ⟨fun other => ?_, fun other entry he => ?_, fun other entry he => ?_, fun other => ?_,
    fun other o hmark => ?_⟩
  all_goals by_cases heq : other = fd
  · simp [Interest.remove_apply, heq]
  · simp only [Interest.remove_apply, Slots.get_set, if_neg heq]
    exact h.watched other
  · simp [Interest.remove_apply, heq] at he
  · rw [Interest.remove_apply, if_neg heq] at he
    simp only [Slots.get_set, if_neg heq]
    exact h.entry other entry he
  · simp [Interest.remove_apply, heq] at he
  · rw [Interest.remove_apply, if_neg heq] at he
    exact h.spent other entry he
  · simp [heq]
  · simp only [Slots.get_set, if_neg heq]
    exact h.nils other
  · simp [heq] at hmark
  · rw [Slots.get_set, if_neg heq] at hmark
    exact h.slot other o hmark

-- A closed IO stays in `@marks`; the kernel forgets it.
theorem closeIo (h : Describes marks events objects interest) (ho : Ordinary objects)
    (hfd : objects.fileno io = some fd) :
    Describes marks events (objects.close io) (interest.remove fd) := by
  have hother : ∀ other o, other ≠ fd → marks.get other = some o →
      (objects.close io).fileno o = objects.fileno o := by
    intro other o hne hmark
    rw [Objects.close_fileno, if_neg]
    intro heq
    subst heq
    exact hne ((h.slot other o hmark).2 fd hfd).symm
  have hgone : ∀ o, marks.get fd = some o → (objects.close io).fileno o = none := by
    intro o hmark
    rw [Objects.close_fileno]
    split
    · rfl
    · rename_i hne
      cases hf : objects.fileno o with
      | none => rfl
      | some fd' =>
          obtain rfl := (h.slot fd o hmark).2 fd' hf
          exact absurd (ho.own o io _ hf hfd) hne
  refine ⟨fun other => ?_, fun other entry he => ?_, fun other entry he => ?_, h.nils,
    fun other o hmark => ⟨(h.slot other o hmark).1, fun fd' hf => ?_⟩⟩
  · by_cases heq : other = fd
    · subst heq
      simp only [Interest.remove_apply, ite_true, Option.isSome_none, Bool.false_eq_true, false_iff]
      rintro ⟨o, hmark, hsome⟩
      simp [hgone o hmark] at hsome
    · rw [Interest.remove_apply, if_neg heq, h.watched other]
      refine exists_congr fun o => and_congr_right fun hmark => ?_
      rw [hother other o heq hmark]
  · by_cases heq : other = fd
    · simp [Interest.remove_apply, heq] at he
    · rw [Interest.remove_apply, if_neg heq] at he
      exact h.entry other entry he
  · by_cases heq : other = fd
    · simp [Interest.remove_apply, heq] at he
    · rw [Interest.remove_apply, if_neg heq] at he
      exact h.spent other entry he
  · rw [Objects.close_fileno] at hf
    split at hf
    · cases hf
    · exact (h.slot other o hmark).2 fd' hf

-- An IO that takes over a freed number is in no slot yet.
theorem openIo (h : Describes marks events objects interest) :
    Describes marks events (objects.openNew fd) interest := by
  have hold : ∀ other o, marks.get other = some o →
      (objects.openNew fd).fileno o = objects.fileno o := by
    intro other o hmark
    rw [Objects.openNew_fileno, if_neg (Nat.ne_of_lt (h.slot other o hmark).1)]
  refine ⟨fun other => ?_, h.entry, h.spent, h.nils, fun other o hmark => ?_⟩
  · rw [h.watched other]
    refine exists_congr fun o => and_congr_right fun hmark => ?_
    rw [hold other o hmark]
  · obtain ⟨hlt, hslot⟩ := h.slot other o hmark
    refine ⟨Nat.lt_succ_of_lt hlt, ?_⟩
    rw [hold other o hmark]
    exact hslot

end Describes

namespace Ordinary

variable {objects : Objects} {fd : Fd}

theorem closeIo (h : Ordinary objects) (io : Obj) : Ordinary (objects.close io) := by
  have hsome : ∀ {o fd'}, (objects.close io).fileno o = some fd' → objects.fileno o = some fd' := by
    intro o fd' ho
    rw [Objects.close_fileno] at ho
    split at ho
    · cases ho
    · exact ho
  exact ⟨h.same, fun a b fd' ha hb => h.own a b fd' (hsome ha) (hsome hb),
    fun o fd' ho => h.born o fd' (hsome ho)⟩

theorem openIo (h : Ordinary objects) (hfree : ∀ o < objects.born, objects.fileno o ≠ some fd) :
    Ordinary (objects.openNew fd) := by
  have hcase : ∀ {o fd'}, (objects.openNew fd).fileno o = some fd' →
      (o = objects.born ∧ fd' = fd) ∨ (o < objects.born ∧ objects.fileno o = some fd') := by
    intro o fd' ho
    rw [Objects.openNew_fileno] at ho
    split at ho
    · rename_i heq
      exact Or.inl ⟨heq, (Option.some.inj ho).symm⟩
    · exact Or.inr ⟨h.born o fd' ho, ho⟩
  refine ⟨h.same, fun a b fd' ha hb => ?_, fun o fd' ho => ?_⟩
  · rcases hcase ha with ⟨rfl, rfl⟩ | ⟨hlt, hold⟩
    · rcases hcase hb with ⟨rfl, _⟩ | ⟨hlt', hold'⟩
      · rfl
      · exact absurd hold' (hfree b hlt')
    · rcases hcase hb with ⟨rfl, rfl⟩ | ⟨_, hold'⟩
      · exact absurd hold (hfree a hlt)
      · exact h.own a b fd' hold hold'
  · rcases hcase ho with ⟨rfl, _⟩ | ⟨hlt, _⟩
    · exact Nat.lt_succ_self _
    · exact Nat.lt_succ_of_lt hlt

end Ordinary

-- What can happen in the process: a method call, its outcomes decided by
-- the oracle, and what becomes of the watched IOs.
inductive Label
  | call (m : Nat) (op : Op) (oracle : Oracle)
  | openIo (fd : Fd)
  | closeIo (io : Obj)
  | report (fd : Fd)

-- The objects answer for themselves in every call.
def Label.Plain : Label → Prop
  | .call _ _ oracle => oracle.answers = []
  | _ => True

def step (i : Nat) (s : Sys) : Label → Option Sys
  | .call m op oracle =>
      if m < s.family.members.length then ((method m op).call oracle s).map Prod.snd else none
  | .openIo fd => s.openIo fd
  | .closeIo io => s.closeIo io
  | .report fd => some (s.report i fd)

-- A settled family whose tables describe its instance.
structure Coherent (s : Sys) (i : Nat) : Prop where
  settled : Settled s i
  ordinary : Ordinary s.objects
  describes : Describes s.family.marks s.family.events s.objects (s.interestAt i)

namespace Coherent

variable {s s' : Sys} {i m : Nat} {op : Op}

theorem of_unchanged (h : Coherent s i) (hs : Settled s' i) (hu : Unchanged s s') :
    Coherent s' i := by
  refine ⟨hs, hu.objects ▸ h.ordinary, ?_⟩
  rw [hu.marks, hu.events, hu.objects, Sys.interestAt_congr hu.insts]
  exact h.describes

theorem of_effect {first : Option Errno} {x : Handle} {inst : Inst} (h : Coherent s i)
    (hs : Settled s' i) (hi : x.inst = i) (hinst : s.kernel.insts[i]? = some inst)
    (he : Effect True first op x inst s s') : Coherent s' i := by
  have hint := Sys.interestAt_of_getElem hinst
  have hset : ∀ {q : Sys}, Quiet x s q → ∀ l, (q.setInterest x.inst l).interestAt i = l := by
    intro q hq l
    rw [hi]
    exact Sys.interestAt_setInterest (by rw [hq.insts]; exact h.settled.made) l
  have hd := hint ▸ h.describes
  cases he with
  | quiet hq => exact h.of_unchanged hs hq.unchanged
  | @register q fd fdk mask io ev hq hx ha hop hm =>
      obtain ⟨hfd, rfl⟩ := ha trivial
      refine ⟨hs, hq.objects ▸ h.ordinary, ?_⟩
      change Describes (q.family.marks.set fdk (some io)) (q.family.events.set fdk (some ev)) q.objects
        ((q.setInterest x.inst _).interestAt i)
      rw [hset hq, hq.family, hq.objects]
      exact hd.register h.ordinary hfd hm
  | @remodify q fd fdk mask io cur ev hq hx ha hop hm hcur hsame hskip hfirst hl =>
      obtain ⟨hfd, rfl⟩ := ha trivial
      rw [h.ordinary.same, decide_eq_true_eq] at hsame
      subst hsame
      refine ⟨hs, hq.objects ▸ h.ordinary, ?_⟩
      change Describes q.family.marks (q.family.events.set fdk (some ev)) q.objects
        ((q.setInterest x.inst _).interestAt i)
      rw [hset hq, hq.family, hq.objects]
      refine (hd.register h.ordinary hfd hm).congr fun other => ?_
      rw [Slots.get_set]
      split
      · rename_i heq
        rw [heq, hcur]
      · rfl
  | @remove q fd fdk io hq hx ha hop =>
      obtain ⟨hfd, rfl⟩ := ha trivial
      refine ⟨hs, hq.objects ▸ h.ordinary, ?_⟩
      change Describes (q.family.marks.set fdk none) (q.family.events.set fdk none) q.objects
        ((q.setInterest x.inst _).interestAt i)
      rw [hset hq, hq.family, hq.objects]
      exact hd.remove

theorem of_waited {x : Handle} {inst : Inst} (h : Coherent s i) (hs : Settled s' i)
    (hi : x.inst = i) (hinst : s.kernel.insts[i]? = some inst) (hw : Waited x inst s s') :
    Coherent s' i := by
  refine ⟨hs, hw.objects ▸ h.ordinary, ?_⟩
  rw [hw.family, hw.objects]
  rcases hw.insts with heq | ⟨_, ready, heq⟩
  · rw [Sys.interestAt_congr heq]
    exact h.describes
  · rw [Sys.interestAt_congr heq, hi, Sys.interestAt_setInterest h.settled.made,
      ← Sys.interestAt_of_getElem hinst]
    exact h.describes.refire (Sys.deliver_watched ..) (Sys.deliver_spent h.describes.spent)

theorem of_after (h : Coherent s i) (hp : s.oracle.answers = []) (ha : After s i m op s') :
    Coherent s' i := by
  cases ha.change with
  | unchanged hu => exact h.of_unchanged ha.settled hu
  | effect hi hinst _ he => exact h.of_effect ha.settled hi hinst (by simpa only [hp] using he)
  | waited hi hinst hw => exact h.of_waited ha.settled hi hinst hw

-- One call keeps the tables coherent and does not get stuck.
theorem method (h : Coherent s i) (hm : m < s.family.members.length) (hp : s.oracle.answers = [])
    (t : Nat) (op : Op) :
    wp (exec t) (fun _ s' => Coherent s' i) (fun _ s' => Coherent s' i) (Epoll.method m op) s :=
  wp_mono (method_after h.settled hm op) (fun _ _ ha => h.of_after hp ha) fun _ _ ha => h.of_after hp ha.1

theorem of_oracle (h : Coherent s i) (oracle : Oracle) : Coherent { s with oracle := oracle } i :=
  ⟨h.settled.of_same ⟨rfl, rfl, rfl, rfl, rfl, rfl⟩, h.ordinary, h.describes⟩

theorem closeIo (h : Coherent s i) {io : Obj} (hs : s.closeIo io = some s') : Coherent s' i := by
  obtain ⟨fd, hfd, rfl⟩ := Option.map_eq_some_iff.mp hs
  have hm : SameMembers s { s.forget fd with objects := s.objects.close io } :=
    ⟨rfl, rfl, rfl, rfl, rfl, List.length_map _⟩
  refine ⟨h.settled.of_same hm, h.ordinary.closeIo io, ?_⟩
  have hint : Sys.interestAt { s.forget fd with objects := s.objects.close io } i =
      (s.interestAt i).remove fd := Sys.interestAt_forget s i fd
  rw [hint]
  exact h.describes.closeIo h.ordinary hfd

theorem openIo (h : Coherent s i) {fd : Fd} (hs : s.openIo fd = some s') : Coherent s' i := by
  unfold Sys.openIo at hs
  split at hs
  · rename_i hfree
    cases hs
    exact ⟨h.settled.of_same ⟨rfl, rfl, rfl, rfl, rfl, rfl⟩,
      h.ordinary.openIo hfree, h.describes.openIo⟩
  · cases hs

theorem report (h : Coherent s i) (fd : Fd) : Coherent (s.report i fd) i := by
  have hm : SameMembers s (s.report i fd) := ⟨rfl, rfl, rfl, rfl, rfl, List.length_modify _ _ _⟩
  refine ⟨h.settled.of_same hm, h.ordinary, ?_⟩
  rw [Sys.report, Sys.interestAt_setInterest h.settled.made]
  exact h.describes.refire (Interest.fire_watched ..) fun other entry =>
    Interest.fire_spent (h.describes.spent other)

theorem call (h : Coherent s i) (hm : m < s.family.members.length) {oracle : Oracle}
    (hp : oracle.answers = []) {result : Except Err Ret × Sys}
    (hc : (Epoll.method m op).call oracle s = some result) : Coherent result.2 i := by
  have hw := wp_of_run ((h.of_oracle oracle).method hm hp 0 op) hc
  rcases result with ⟨_ | _, s'⟩
  · exact hw
  · exact hw

theorem step (h : Coherent s i) {label : Label} (hp : Label.Plain label)
    (hs : Epoll.step i s label = some s') : Coherent s' i := by
  cases label with
  | call m op oracle =>
      simp only [Epoll.step, Option.ite_none_right_eq_some, Option.map_eq_some_iff] at hs
      obtain ⟨hm, result, hc, rfl⟩ := hs
      exact h.call hm hp hc
  | openIo fd => exact h.openIo hs
  | closeIo io => exact h.closeIo hs
  | report fd =>
      cases hs
      exact h.report fd

end Coherent

-- Integer masks as the kernel takes them.
def Masked : EventArg → Prop
  | .int n => 0 ≤ n ∧ n < 0x100000000
  | _ => False

def Op.Masked : Op → Prop
  | .add _ ev | .mod _ ev | .set _ ev => Epoll.Masked ev
  | _ => True

theorem Op.Masked.registers {op : Op} {io : Obj} {ev : EventArg} (h : op.Masked)
    (hop : op.Registers io ev) : Epoll.Masked ev := by
  have hflags : ∀ arg, Epoll.Masked arg → eventFlags arg = .ok ev → Epoll.Masked ev := by
    intro arg ha he
    cases arg with
    | int n =>
        simp only [eventFlags, rbSpGetUflags, getFlags, Except.map] at he
        cases hn : num2uint n with
        | error e => simp [hn] at he
        | ok mask =>
            rw [hn] at he
            cases he
            have hlt := num2uint_lt hn
            exact ⟨Int.natCast_nonneg mask, by omega⟩
    | _ => exact ha.elim
  cases op with
  | add o arg => exact hflags arg h hop.2
  | mod o arg => exact hflags arg h hop.2
  | set o arg => exact hop.2 ▸ h
  | _ => exact hop.elim

theorem opened_coherent (pid : Pid) (objects : Objects) (ho : Ordinary objects) :
    Coherent (opened pid objects) 0 :=
  ⟨opened_settled pid objects, ho, Describes.empty objects⟩

def MaskedEvents (s : Sys) : Prop := ∀ fd ev, s.family.events.get fd = some ev → Masked ev

theorem MaskedEvents.of_after {s s' : Sys} {i m : Nat} {op : Op} (h : MaskedEvents s)
    (hop : op.Masked) (ha : After s i m op s') : MaskedEvents s' := by
  have hset : ∀ (q : Sys) {x : Handle} {io : Obj} {ev : EventArg} {fd : Fd}, Quiet x s q →
      op.Registers io ev → ∀ other ev', (q.family.events.set fd (some ev)).get other = some ev' →
        Masked ev' := by
    intro q x io ev fd hq hreg other ev' hev
    rw [Slots.get_set, hq.family] at hev
    split at hev
    · cases hev
      exact hop.registers hreg
    · exact h other ev' hev
  cases ha.change with
  | unchanged hu => exact fun fd ev hev => h fd ev (hu.events ▸ hev)
  | waited hi hinst hw => exact fun fd ev hev => h fd ev (hw.family ▸ hev)
  | effect hi hinst _ he =>
      cases he with
      | quiet hq => exact fun fd ev hev => h fd ev (hq.family ▸ hev)
      | @register q _ _ _ _ _ hq hx ha hreg hm => exact hset q hq hreg
      | @remodify q _ _ _ _ _ _ hq hx ha hreg hm =>
          subst hreg
          exact hset q hq ⟨rfl, rfl⟩
      | @remove q fd fdk io hq hx ha hreg =>
          intro other ev hev
          change (q.family.events.set fd none).get other = some ev at hev
          rw [Slots.get_set, hq.family] at hev
          split at hev
          · cases hev
          · exact h other ev hev

-- What the labels may ask for: integer masks, and IOs that answer for
-- themselves.
def Label.Permitted : Label → Prop
  | .call _ op oracle => op.Masked ∧ oracle.answers = []
  | _ => True

-- The cache agrees with the kernel on every descriptor number.
structure CacheAgrees (s : Sys) (interest : Interest) : Prop where
  watched : ∀ fd, (interest fd).isSome ↔
    ∃ io, s.family.marks.get fd = some io ∧ (s.objects.fileno io).isSome
  entry : ∀ fd entry, interest fd = some entry →
    s.family.marks.get fd = some entry.obj ∧ s.family.events.get fd = some (.int entry.mask)
  disarmed : ∀ fd entry, interest fd = some entry → entry.armed = false →
    oneshotBit entry.mask = true ∧ entry.fired = true
  nils : ∀ fd, s.family.marks.get fd = none ↔ s.family.events.get fd = none

theorem Coherent.cacheAgrees {s : Sys} {i : Nat} (h : Coherent s i) (hm : MaskedEvents s) :
    CacheAgrees s (s.interestAt i) := by
  refine ⟨h.describes.watched, fun fd entry he => ?_, h.describes.spent, h.describes.nils⟩
  obtain ⟨hmark, ev, hev, hmask⟩ := h.describes.entry fd entry he
  refine ⟨hmark, ?_⟩
  have hmasked := hm fd ev hev
  cases ev with
  | int n =>
      obtain ⟨k, rfl⟩ := Int.eq_ofNat_of_zero_le hmasked.1
      have hk : num2uint k = .ok k := num2uint_mask k (by have := hmasked.2; omega)
      rw [hev, Except.ok.inj (hmask.symm.trans hk)]
  | _ => exact hmasked.elim

theorem step_masked {s s' : Sys} {i : Nat} {label : Label} (h : Coherent s i ∧ MaskedEvents s)
    (hp : label.Permitted) (hs : step i s label = some s') : Coherent s' i ∧ MaskedEvents s' := by
  cases label with
  | call m op oracle =>
      have hplain : Label.Plain (.call m op oracle) := hp.2
      refine ⟨h.1.step hplain hs, ?_⟩
      simp only [Epoll.step, Option.ite_none_right_eq_some, Option.map_eq_some_iff] at hs
      obtain ⟨hm, ⟨outcome, s'⟩, hc, rfl⟩ := hs
      have hw := wp_of_run (method_after (h.1.of_oracle oracle).settled hm op) hc
      have hmasked : MaskedEvents { s with oracle := oracle } := h.2
      cases outcome with
      | ok ret => exact hmasked.of_after hp.1 hw
      | error e => exact hmasked.of_after hp.1 hw.1
  | openIo fd =>
      refine ⟨h.1.openIo hs, ?_⟩
      simp only [Epoll.step, Sys.openIo, Option.ite_none_right_eq_some, Option.some.injEq] at hs
      exact hs.2 ▸ h.2
  | closeIo io =>
      refine ⟨h.1.closeIo hs, ?_⟩
      simp only [Epoll.step, Sys.closeIo, Option.map_eq_some_iff] at hs
      obtain ⟨fd, _, rfl⟩ := hs
      exact h.2
  | report fd =>
      cases hs
      exact ⟨h.1.report fd, h.2⟩

-- The invariants of a run, from Epoll.new.
theorem reached {pid : Pid} {objects : Objects} (ho : Ordinary objects) {labels : List Label}
    (hl : ∀ label ∈ labels, label.Permitted) {s : Sys}
    (hr : runEvents (step 0) (opened pid objects) labels = some s) : Coherent s 0 ∧ MaskedEvents s := by
  refine run_invariant (fun q => Coherent q 0 ∧ MaskedEvents q) (fun _ _ _ h hp hs => step_masked h hp hs)
    hl ⟨opened_coherent pid objects ho, fun _ _ h => ?_⟩ hr
  simp [opened] at h

-- In every state that calls, opened and closed IOs and reported events lead
-- to, the cache agrees with the kernel while a member is open, and a call
-- that raises leaves both as they were.
theorem cache_agrees (pid : Pid) (objects : Objects) (ho : Ordinary objects) (labels : List Label)
    (hl : ∀ label ∈ labels, label.Permitted) (s : Sys)
    (hr : runEvents (step 0) (opened pid objects) labels = some s) :
    ((∃ m, OpenAt s m) → CacheAgrees s (s.interestAt 0)) ∧
    ∀ m op oracle e s', m < s.family.members.length → Label.Permitted (.call m op oracle) →
      (∀ n, op ≠ .wait n) → (method m op).call oracle s = some (.error e, s') →
      s'.family.marks = s.family.marks ∧ s'.family.events = s.family.events ∧
        s'.interestAt 0 = s.interestAt 0 := by
  have hinv := reached ho hl hr
  refine ⟨fun _ => hinv.1.cacheAgrees hinv.2, ?_⟩
  intro m op oracle e s' hm _ hne hc
  have hw := wp_of_run (method_after (hinv.1.of_oracle oracle).settled hm op) hc
  have hu := hw.2 hne
  exact ⟨hu.marks, hu.events, Sys.interestAt_congr hu.insts 0⟩

-- A watched IO is closed and its number reused by another, which a copy
-- registers for one event; that event is reported.
theorem cache_agrees_reused_number :
    ∃ s, runEvents (step 0) (opened 1 noObjects)
        [.openIo 3, .call 0 (.add 0 (.int 1)) {}, .call 0 .dup {}, .closeIo 0, .openIo 3,
          .call 1 (.set 1 (.int 0x40000001)) {}, .report 3] = some s ∧
      (s.interestAt 0 3).isSome = true ∧ CacheAgrees s (s.interestAt 0) := by
  have hopen : ∀ s, runEvents (step 0) (opened 1 noObjects)
        [.openIo 3, .call 0 (.add 0 (.int 1)) {}, .call 0 .dup {}, .closeIo 0, .openIo 3,
          .call 1 (.set 1 (.int 0x40000001)) {}, .report 3] = some s →
      (∃ m, OpenAt s m) → CacheAgrees s (s.interestAt 0) := fun s hr =>
    (cache_agrees 1 noObjects noObjects_ordinary _ (by simp [Label.Permitted, Op.Masked, Masked]) s hr).1
  exact ⟨_, rfl, rfl, hopen _ rfl ⟨0, _, _, rfl, rfl, rfl⟩⟩

end SleepyPenguin.Epoll
