import SleepyPenguin.Runtime.Lineage
import SleepyPenguin.Epoll.Coherence

-- A family of Epoll objects in a child process.
namespace SleepyPenguin.Epoll.Fork

open Foundation Foundation.Prog

section Reinit

variable {t m : Nat} {member : Member} {x : Handle} {s : Sys} {fail : Err → Sys → Prop}

theorem closes_retired (hkey : KeysOpen s.family.copies s.family.handles)
    (hall : ∀ o ∈ s.oracle.closes, o = none) :
    wp (exec t) (fun _ s' => Retired s s') fail
      (each (s.family.copies.map Prod.fst) fun io => attempt (.close io)) s := by
  refine wp_each (Retired s) (Retired.refl s) fun io hio q hq => ?_
  obtain ⟨pair, hpair, rfl⟩ := List.mem_map.mp hio
  obtain ⟨y, hy, _⟩ := hkey pair hpair
  have hlt : pair.1 < q.family.handles.length := by
    have := (List.getElem?_eq_some_iff.mp hy).1
    have := hq.length
    omega
  have hx := List.getElem?_eq_getElem hlt
  obtain ⟨s', hs', hr⟩ := Retired.close (hq.closes hall) hx
  rw [wp_close]
  refine ⟨_, hx, ?_⟩
  rw [hs']
  exact hq.trans hr

-- The tables are emptied before the new instance is asked for.
theorem epReinit_ends (hm : s.family.members[m]? = some member) :
    wp (exec t)
      (fun _ s' => createFailure s.oracle.creates = none ∧ Renewed m member s s' ∧
        s'.family.marks = Slots.empty ∧ s'.family.events = Slots.empty ∧ s'.oracle.dups = s.oracle.dups)
      (fun e s' => ∃ errno, createFailure s.oracle.creates = some errno ∧ e = .sys errno ∧
        ∃ creates, s' = { s with
          family.events := Slots.empty
          family.marks := Slots.empty
          oracle.creates := creates })
      (epReinit m) s := by
  simp only [epReinit, wp_monad_bind, wp_clearEvents, wp_clearMarks, wp_setIo]
  refine wp_mono sNew_ends ?_ ?_
  · intro io s' hs'
    obtain ⟨hnone, rfl, creates, rfl⟩ := hs'
    exact ⟨member, hm, hnone, ⟨rfl, rfl, rfl, rfl, rfl, rfl, rfl, rfl⟩, rfl, rfl, rfl⟩
  · intro e s' hs'
    obtain ⟨errno, hsome, rfl, creates, rfl⟩ := hs'
    exact ⟨errno, hsome, rfl, creates, rfl⟩

theorem epReinit_renewed (hm : s.family.members[m]? = some member) (h : Creates rbSpGcForFd s.oracle) :
    wp (exec t) (fun _ s' => Renewed m member s s' ∧ s'.family.marks = Slots.empty ∧
      s'.family.events = Slots.empty) fail (epReinit m) s := by
  have hcreated : createFailure s.oracle.creates = none := by
    cases hfirst : s.oracle.creates.headD none with
    | none => rw [createFailure, hfirst]
    | some errno =>
        obtain ⟨hgc, hsecond⟩ := h errno hfirst
        rw [createFailure, hfirst]
        exact (if_pos hgc).trans hsecond
  refine wp_mono (epReinit_ends hm) ?_ ?_
  · intro _ s' hs'
    obtain ⟨_, hrenewed, hmarks, hevents, _⟩ := hs'
    exact ⟨hrenewed, hmarks, hevents⟩
  · intro e s' hs'
    obtain ⟨errno, hsome, _⟩ := hs'
    rw [hcreated] at hsome
    cases hsome

-- What the check leaves behind where it has got a new instance, with `@pid`
-- one or the other.
def Renewal (s : Sys) (m : Nat) (pid : Pid) (s' : Sys) : Prop :=
  Reinited s m pid s' ∧ s'.family.marks = Slots.empty ∧ s'.family.events = Slots.empty

-- The first use of a family by its only open member.
theorem epCheck_reinit (hopen : OpenAs s m member x) (hpid : member.pid ≠ s.self)
    (hkey : KeysOpen s.family.copies s.family.handles) (hcloses : ∀ o ∈ s.oracle.closes, o = none)
    (hcreates : Creates rbSpGcForFd s.oracle) :
    wp (exec t) (fun _ s' => Renewal s m s.self s') (fun _ s' => Renewal s m member.pid s')
      (epCheck m) s := by
  refine wp_check_reinit (fun marks events => marks = Slots.empty ∧ events = Slots.empty)
    hopen hpid (closes_retired hkey hcloses) fun q hq hc => ?_
  apply epReinit_renewed hq
  unfold Creates
  rw [hc]
  exact hcreates

end Reinit

-- Whether a call gets as far as `__ep_check`, with objects that answer for
-- themselves.
def answers (objects : Objects) : IoArg → Bool
  | .fd _ => true
  | .io o => (objects.fileno o).isSome

def converts (events : EventArg) : Bool := (eventFlags events).isOk

def reaches (objects : Objects) : Op → Bool
  | .toIo | .wait _ | .dup | .clone => true
  | .add io events | .mod io events => (objects.fileno io).isSome && converts events
  | .del io | .delete io | .set io _ => (objects.fileno io).isSome
  | .ioFor io | .eventsFor io | .includeP io => answers objects io
  | .close | .closedP => false

def duplicates : Op → Bool
  | .dup | .clone => true
  | _ => false

theorem closes_of_reaches {objects : Objects} {op : Op} (h : reaches objects op = true) :
    closes op = false := by
  cases op with
  | close => cases h
  | _ => rfl

section Reaches

variable {t m : Nat} {s : Sys} {post : Ret → Sys → Prop} {fail : Err → Sys → Prop}

theorem filenoOf_fails {arg : IoArg} {post : Fd → Sys → Prop} (hp : s.oracle.answers = [])
    (h : answers s.objects arg = false) (hfail : ∀ e, fail e s) :
    wp (exec t) post fail (filenoOf arg) s := by
  cases arg with
  | fd n => simp [answers] at h
  | io o =>
      have hnone : s.objects.fileno o = none := by simpa [answers] using h
      simp [filenoOf, answer_plain hp, hnone, hfail]

-- A call that does not get there raises and has changed nothing.
theorem method_short (hp : s.oracle.answers = []) {op : Op} (hclose : op ≠ .close)
    (hclosed : op ≠ .closedP) (h : reaches s.objects op = false) (hfail : ∀ e, fail e s) :
    wp (exec t) post fail (method m op) s := by
  have hio : ∀ {io : Obj} {next : Fd → Method Ret}, s.objects.fileno io = none →
      wp (exec t) post fail (do let fd ← .attempt (.fileno io); next fd) s := by
    intro io next hnone
    simp [answer_plain hp, hnone, hfail]
  cases op with
  | toIo | wait | dup | clone => cases h
  | close => exact absurd rfl hclose
  | closedP => exact absurd rfl hclosed
  | del io => exact hio (by simpa [reaches] using h)
  | set io events => exact hio (by simpa [reaches] using h)
  | delete io =>
      have hnone : s.objects.fileno io = none := by simpa [reaches] using h
      simp [method, delete, answer_plain hp, hnone, rescueGone, hfail]
  | add io events =>
      simp only [method, add, wp_monad_bind, wp_fileno, answer_plain hp]
      refine ⟨fun fd hfd => ?_, fun _ => hfail _⟩
      rcases hev : eventFlags events with e | flags
      · exact hfail e
      · simp [reaches, converts, hfd, hev, Except.isOk, Except.toBool] at h
  | mod io events =>
      simp only [method, mod, wp_monad_bind]
      rcases hev : eventFlags events with e | flags
      · exact hfail e
      · have hnone : s.objects.fileno io = none := by
          simpa [reaches, converts, hev, Except.isOk, Except.toBool] using h
        simp [answer_plain hp, hnone, hfail]
  | ioFor arg | eventsFor arg | includeP arg =>
      simp only [method, ioFor, eventsFor, includeP, lookup, wp_monad_bind]
      exact filenoOf_fails hp h hfail

end Reaches

section After

theorem wp_fileno_some {t : Nat} {s : Sys} {io : Obj} {fd : Fd} {fail : Err → Sys → Prop}
    (hp : s.oracle.answers = []) (hfd : s.objects.fileno io = some fd) (post : Fd → Sys → Prop) :
    wp (exec t) post fail (attempt (.fileno io)) s ↔ post fd s := by
  simp [answer_plain hp, hfd]

variable {t m : Nat} {s : Sys} {P : Sys → Prop} {F : Err → Sys → Prop}

-- What a re-initialising check must leave for the rest of the method, which
-- then runs as it would from there: the check of an up-to-date member does
-- nothing.
structure Continues (s s₁ : Sys) (t m : Nat) : Prop where
  locked : s₁.family.mutex = some t
  objects : s₁.objects = s.objects
  answers : s₁.oracle.answers = []
  passes : ∃ member x, Passes s₁ m member x

theorem Continues.unlocked {s₁ : Sys} (h : Continues s s₁ t m) (post : Unit → Sys → Prop)
    (fail : Err → Sys → Prop) :
    wp (exec t) post fail (epCheck m) ((s₁.withMutex none).withMutex (some t)) ↔ post () s₁ := by
  have hsame : (s₁.withMutex none).withMutex (some t) = s₁ := by
    simp only [Sys.withMutex, ← h.locked]
  obtain ⟨member, x, hp⟩ := h.passes
  rw [hsame]
  exact hp.wp_check _ _ post

theorem sync_reinit {α : Type} {body : Method α} {post : α → Sys → Prop} {fail : Err → Sys → Prop}
    (hs : s.family.mutex = none)
    (hcheck : wp (exec t) (fun _ s₁ => P s₁) F (epCheck m) (s.withMutex (some t)))
    (hcont : ∀ s₁, P s₁ → Continues s s₁ t m)
    (hrest : ∀ s₁, P s₁ → wp (exec t) post fail
      (Method.synchronize do epCheck m; body) (s₁.withMutex none))
    (hfail : ∀ e s₁, F e s₁ → fail e (s₁.withMutex none)) :
    wp (exec t) post fail (Method.synchronize do epCheck m; body) s := by
  simp only [wp_synchronize, wp_monad_bind]
  refine ⟨hs, wp_mono hcheck (fun _ s₁ h₁ => ?_) fun e s₁ hf => hfail e s₁ hf⟩
  have hw := hrest s₁ h₁
  simp only [wp_synchronize, wp_monad_bind, (hcont s₁ h₁).unlocked] at hw
  exact hw.2

theorem lookup_reinit {β : Type} {arg : IoArg} {read : Fd → Cmd β} {ret : β → Ret}
    {post : Ret → Sys → Prop} {fail : Err → Sys → Prop} (hs : s.family.mutex = none)
    (hp : s.oracle.answers = []) (hreach : answers s.objects arg = true)
    (hcheck : wp (exec t) (fun _ s₁ => P s₁) F (epCheck m) (s.withMutex (some t)))
    (hcont : ∀ s₁, P s₁ → Continues s s₁ t m)
    (hrest : ∀ s₁, P s₁ → wp (exec t) post fail (lookup m arg read ret) (s₁.withMutex none))
    (hfail : ∀ e s₁, F e s₁ → fail e (s₁.withMutex none)) :
    wp (exec t) post fail (lookup m arg read ret) s := by
  simp only [lookup, wp_monad_bind] at hrest ⊢
  cases arg with
  | fd n => exact sync_reinit hs hcheck hcont hrest hfail
  | io o =>
      obtain ⟨fd, hfd⟩ := Option.isSome_iff_exists.mp hreach
      simp only [filenoOf, wp_fileno_some hp hfd] at hrest ⊢
      refine sync_reinit hs hcheck hcont (fun s₁ h₁ => ?_) hfail
      have hfd₁ : (s₁.withMutex none).objects.fileno o = some fd := (hcont s₁ h₁).objects.symm ▸ hfd
      exact (wp_fileno_some (s := s₁.withMutex none) (hcont s₁ h₁).answers hfd₁ _).mp (hrest s₁ h₁)

-- What a method makes of an error of the fork check.
def raised : Op → Err → Except Err Ret
  | .wait _, _ => .error .noMethodError
  | .delete _, e => if e = .sys .ENOENT ∨ e = .sys .EBADF then .ok .nil else .error e
  | _, e => .error e

theorem method_reinit {op : Op} {post : Ret → Sys → Prop} {fail : Err → Sys → Prop}
    (hs : s.family.mutex = none) (hp : s.oracle.answers = [])
    (hreach : reaches s.objects op = true) (hdup : duplicates op = false)
    (hcheck : wp (exec t) (fun _ s₁ => P s₁) F (epCheck m) (s.withMutex (some t)))
    (hcont : ∀ s₁, P s₁ → Continues s s₁ t m)
    (hrest : ∀ s₁, P s₁ → wp (exec t) post fail (method m op) (s₁.withMutex none))
    (hfail : ∀ e s₁, F e s₁ → Ends post fail (raised op e, s₁.withMutex none)) :
    wp (exec t) post fail (method m op) s := by
  have hfd₁ : ∀ {io fd s₁}, P s₁ → s.objects.fileno io = some fd →
      (s₁.withMutex none).oracle.answers = [] ∧ (s₁.withMutex none).objects.fileno io = some fd :=
    fun h₁ hfd => ⟨(hcont _ h₁).answers, (hcont _ h₁).objects.symm ▸ hfd⟩
  cases op with
  | close | closedP => cases hreach
  | dup | clone => cases hdup
  | toIo => exact sync_reinit hs hcheck hcont hrest hfail
  | wait maxevents =>
      simp only [method, wait, wp_monad_bind, wp_rescue] at hrest ⊢
      exact sync_reinit hs hcheck hcont hrest hfail
  | del io =>
      obtain ⟨fd, hfd⟩ := Option.isSome_iff_exists.mp hreach
      simp only [method, del, wp_monad_bind, wp_fileno_some hp hfd] at hrest ⊢
      refine sync_reinit hs hcheck hcont (fun s₁ h₁ => ?_) hfail
      obtain ⟨hp₁, hfd₁⟩ := hfd₁ h₁ hfd
      exact (wp_fileno_some hp₁ hfd₁ _).mp (hrest s₁ h₁)
  | set io events =>
      obtain ⟨fd, hfd⟩ := Option.isSome_iff_exists.mp hreach
      simp only [method, set, wp_monad_bind, wp_fileno_some hp hfd] at hrest ⊢
      refine sync_reinit hs hcheck hcont (fun s₁ h₁ => ?_) hfail
      obtain ⟨hp₁, hfd₁⟩ := hfd₁ h₁ hfd
      exact (wp_fileno_some hp₁ hfd₁ _).mp (hrest s₁ h₁)
  | delete io =>
      obtain ⟨fd, hfd⟩ := Option.isSome_iff_exists.mp hreach
      have hgone : ∀ e s₁, F e s₁ → wp (exec t) post fail (rescueGone e) (s₁.withMutex none) := by
        intro e s₁ h₁
        have hends := hfail e s₁ h₁
        simp only [raised] at hends
        unfold rescueGone
        split
        · rw [if_pos ‹_›] at hends
          exact hends
        · rw [if_neg ‹_›] at hends
          exact hends
      simp only [method, delete, wp_rescue, wp_monad_bind, wp_fileno_some hp hfd] at hrest ⊢
      refine sync_reinit hs hcheck hcont (fun s₁ h₁ => ?_) hgone
      obtain ⟨hp₁, hfd₁⟩ := hfd₁ h₁ hfd
      exact (wp_fileno_some hp₁ hfd₁ _).mp (hrest s₁ h₁)
  | add io events =>
      simp only [reaches, Bool.and_eq_true] at hreach
      obtain ⟨fd, hfd⟩ := Option.isSome_iff_exists.mp hreach.1
      simp only [method, add, wp_monad_bind, wp_fileno_some hp hfd] at hrest ⊢
      rcases hev : eventFlags events with e | flags
      · simp [converts, hev, Except.isOk, Except.toBool] at hreach
      · simp only [hev, wp_ofExcept, ends_ok] at hrest ⊢
        refine sync_reinit hs hcheck hcont (fun s₁ h₁ => ?_) hfail
        obtain ⟨hp₁, hfd₁⟩ := hfd₁ h₁ hfd
        exact (wp_fileno_some hp₁ hfd₁ _).mp (hrest s₁ h₁)
  | mod io events =>
      simp only [reaches, Bool.and_eq_true] at hreach
      obtain ⟨fd, hfd⟩ := Option.isSome_iff_exists.mp hreach.1
      simp only [method, mod, wp_monad_bind] at hrest ⊢
      rcases hev : eventFlags events with e | flags
      · simp [converts, hev, Except.isOk, Except.toBool] at hreach
      · simp only [hev, wp_ofExcept, ends_ok, wp_fileno_some hp hfd] at hrest ⊢
        refine sync_reinit hs hcheck hcont (fun s₁ h₁ => ?_) hfail
        obtain ⟨hp₁, hfd₁⟩ := hfd₁ h₁ hfd
        exact (wp_fileno_some hp₁ hfd₁ _).mp (hrest s₁ h₁)
  | ioFor arg => exact lookup_reinit hs hp hreach hcheck hcont hrest hfail
  | eventsFor arg => exact lookup_reinit hs hp hreach hcheck hcont hrest hfail
  | includeP arg => exact lookup_reinit hs hp hreach hcheck hcont hrest hfail

end After

-- The family works on the instance `e`, and the tables describe it.
structure Fair (s : Sys) (e : Nat) : Prop where
  shared : ∀ m member x, OpenAs s m member x → x.inst = e
  describes : Describes s.family.marks s.family.events s.objects (s.interestAt e)

theorem Fair.of_unchanged {closing : Prop} {s s' : Sys} {m e : Nat} (h : Fair s e)
    (hm : Moved closing m s s') (hu : Unchanged s s') : Fair s' e := by
  refine ⟨fun k new y ho => ?_, ?_⟩
  · obtain ⟨k', old, y', hold, _, hinst⟩ := hm.origin k new y ho
    exact hinst.trans (h.shared k' old y' hold)
  · rw [hu.marks, hu.events, hu.objects, Sys.interestAt_congr hu.insts]
    exact h.describes

theorem spared_of_unchanged {closing : Prop} {s s' : Sys} {m : Nat} (hm : Moved closing m s s')
    (hu : Unchanged s s') : Lineage.Spared Ordinary Fair closing m s s' :=
  ⟨hm, creators_congr hu.insts, fun h => hu.objects ▸ h, fun _ h => h.of_unchanged hm hu⟩

section FirstUse

variable {t m : Nat} {member : Member} {x : Handle} {s s₁ : Sys}

theorem Renewal.fair {pid : Pid} (h : Renewal s m pid s₁) (hs : Wired s)
    (hsole : ∀ k, OpenAt s k → k = m) : Fair s₁ s.kernel.insts.length := by
  obtain ⟨hr, hmarks, hevents⟩ := h
  refine ⟨fun k old y hopen => ?_, ?_⟩
  · obtain ⟨_, _, rfl⟩ := hr.only hs hsole hopen
    rfl
  · rw [hmarks, hevents, Sys.interestAt_of_getElem hr.last]
    exact Describes.empty _

theorem Renewal.coherent (h : Renewal s m s.self s₁) (hs : Wired s) (ho : Ordinary s.objects)
    (hsole : ∀ k, OpenAt s k → k = m) : Coherent s₁ s.kernel.insts.length :=
  ⟨h.1.settled hs hsole, h.1.objects ▸ ho, (h.fair hs hsole).describes⟩

theorem Renewal.of_lock {pid : Pid} (hs : s.family.mutex = none)
    (h : Renewal (s.withMutex (some t)) m pid s₁) : Renewal s m pid (s₁.withMutex none) :=
  ⟨h.1.of_lock hs, h.2.1, h.2.2⟩

-- A check that could not list the duplicates leaves its member outdated.
theorem used_of_outdated (h : Renewal s m member.pid s₁) (hs : Wired s) (ho : Ordinary s.objects)
    (hm : m < s.family.members.length) (hpid : member.pid ≠ s.self)
    (hsole : ∀ k, OpenAt s k → k = m) : Lineage.Used Ordinary Coherent Fair m s s₁ := by
  refine ⟨h.1.self, ⟨_, _, h.1.openAs hm⟩, _, h.1.creator, Or.inr ⟨h.1.wired hs hsole,
    h.1.objects ▸ ho, fun k old y hk => ?_, h.fair hs hsole⟩⟩
  obtain ⟨_, rfl, _⟩ := h.1.only hs hsole hk
  rw [h.1.self]
  exact hpid

theorem first_use {op : Op} (hs : Wired s) (ho : Ordinary s.objects) (hp : s.oracle.answers = [])
    (hopen : OpenAs s m member x) (hpid : member.pid ≠ s.self) (hsole : ∀ k, OpenAt s k → k = m)
    (hreach : reaches s.objects op = true) (hdup : duplicates op = false)
    (hcloses : ∀ o ∈ s.oracle.closes, o = none) (hcreates : Creates rbSpGcForFd s.oracle) :
    wp (exec t) (fun _ s' => Lineage.Used Ordinary Coherent Fair m s s')
      (fun _ s' => Lineage.Used Ordinary Coherent Fair m s s') (method m op) s := by
  have hm : m < s.family.members.length := (List.getElem?_eq_some_iff.mp hopen.1).1
  have hcheck : wp (exec t) (fun _ s₁ => Renewal (s.withMutex (some t)) m s.self s₁)
      (fun _ s₁ => Renewal (s.withMutex (some t)) m member.pid s₁) (epCheck m)
      (s.withMutex (some t)) := epCheck_reinit hopen hpid hs.key hcloses hcreates
  refine method_reinit hs.idle hp hreach hdup hcheck ?_ ?_ ?_
  · intro s₁ ⟨hr, _, _⟩
    have hlisted := hr.openAs hm
    exact ⟨hr.mutex, hr.objects, hr.answers.trans hp, _, _, hlisted.1, hlisted.2.1, Or.inl hr.self.symm⟩
  · intro s₁ h₁
    have hr := h₁.of_lock hs.idle
    have hc := hr.coherent hs ho hsole
    have hlisted := hr.1.openAs hm
    have hlt := (List.getElem?_eq_some_iff.mp hlisted.1).1
    have hused : ∀ s', After (s₁.withMutex none) s.kernel.insts.length m op s' →
        Lineage.Used Ordinary Coherent Fair m s s' := by
      intro s' ha
      have hclose : closes op = true → m ≠ m := fun h => by
        rw [closes_of_reaches hreach] at h
        cases h
      exact ⟨ha.moved.self.trans hr.1.self, ⟨_, _, ha.moved.kept m _ _ hlisted hclose⟩,
        _, ha.creators.symm ▸ hr.1.creator, Or.inl (hc.of_after (h₁.1.answers.trans hp) ha)⟩
    exact wp_mono (method_after hc.settled hlt op) (fun _ s' ha => hused s' ha) fun _ s' ha => hused s' ha.1
  · intro e s₁ h₁
    have hused := used_of_outdated (h₁.of_lock hs.idle) hs ho hm hpid hsole
    exact ends_of_same hused

end FirstUse

-- Epoll as a class of objects with a fork check.
def api : Lineage.Interface Op Ret where
  method := method
  reaches := reaches
  closes := closes
  duplicates := duplicates
  steady oracle := oracle.answers = []
  renews oracle := (∀ o ∈ oracle.closes, o = none) ∧ Creates rbSpGcForFd oracle

section Laws

variable {s : Sys} {m : Nat} {op : Op} {oracle : Oracle} {result : Except Err Ret × Sys}

-- The outcomes that a call is given are no part of what it leaves behind.
theorem spared_of_call {closing : Prop} {s' : Sys} (hm : Moved closing m { s with oracle := oracle } s')
    (hu : Unchanged { s with oracle := oracle } s') : Lineage.Spared Ordinary Fair closing m s s' :=
  spared_of_unchanged ⟨hm.self, hm.wired, hm.kept, hm.origin⟩
    ⟨hu.self, hu.marks, hu.events, hu.objects, hu.insts⟩

-- A call on a member that is closed already.
theorem call_closed (hs : Wired s) (hm : m < s.family.members.length) (hclosed : ¬OpenAt s m)
    (hc : (method m op).call oracle s = some result) :
    Lineage.Spared Ordinary Fair (closes op = true) m s result.2 := by
  obtain ⟨member, x, hget, hx, hlt⟩ := hs.handle_of_member hm
  have hxc : x.closed = true := by
    cases hxc : x.closed with
    | true => rfl
    | false => exact absurd ⟨member, x, hget, hx, hxc⟩ hclosed
  have hp : Passes { s with oracle := oracle } m member x := ⟨hget, hx, Or.inr hxc⟩
  have hw := wp_of_run (method_outcome hp (List.getElem?_eq_getElem hlt) hs.idle op) hc
  have ho : Outcome op m member x s.kernel.insts[x.inst] { s with oracle := oracle } result.2 :=
    ends_same (ends_mono hw (fun _ _ h => h) fun _ _ h => h.1)
  exact spared_of_call (ho.moved (hs.of_oracle oracle) hp) (ho.unchanged_of_closed hxc)

-- close, closed? and what raises before the fork check.
theorem call_short (hs : Wired s) (hp : oracle.answers = []) (hm : m < s.family.members.length)
    (hreach : reaches s.objects op = false) (hc : (method m op).call oracle s = some result) :
    Lineage.Spared Ordinary Fair (closes op = true) m s result.2 := by
  obtain ⟨member, x, hget, hx, _⟩ := hs.handle_of_member hm
  by_cases hclose : op = .close
  · subst hclose
    obtain ⟨hmoved, hu⟩ := ends_same (wp_of_run (close_moved (hs.of_oracle oracle) hget hx) hc)
    exact spared_of_call ⟨hmoved.self, hmoved.wired,
      fun k old y ho hne => hmoved.kept k old y ho fun _ => hne rfl, hmoved.origin⟩ hu
  · by_cases hclosed : op = .closedP
    · subst hclosed
      obtain ⟨hmoved, hu⟩ := ends_same (wp_of_run (closedP_moved (hs.of_oracle oracle) hget hx) hc)
      exact spared_of_call ⟨hmoved.self, hmoved.wired,
        fun k old y ho _ => hmoved.kept k old y ho False.elim, hmoved.origin⟩ hu
    · have hshort : wp (exec 0) (fun _ s' => s' = { s with oracle := oracle })
          (fun _ s' => s' = { s with oracle := oracle }) (method m op) { s with oracle := oracle } :=
        method_short hp hclose hclosed hreach fun _ => rfl
      have hsame : result.2 = { s with oracle := oracle } := ends_same (wp_of_run hshort hc)
      rw [hsame]
      refine spared_of_call (.of_same ⟨rfl, rfl, rfl, rfl, rfl, rfl⟩ (hs.of_oracle oracle)) ?_
      exact ⟨rfl, rfl, rfl, rfl, rfl⟩

theorem laws : Lineage.Laws api Ordinary Coherent Fair where
  settled s e h := ⟨h.settled, h.ordinary, fun m member x hk => (h.settled.shared m member x hk).2,
    h.describes⟩
  onGood s e m op oracle result h hp hm hr := by
    have hcoherent := h.of_oracle oracle
    have hw := wp_of_run (method_after hcoherent.settled hm op) hr
    have ha : After { s with oracle := oracle } e m op result.2 :=
      ends_same (ends_mono hw (fun _ _ h => h) fun _ _ h => h.1)
    exact ⟨hcoherent.of_after hp ha, ha.creators, ha.moved.self, ha.moved.wired, ha.moved.kept,
      ha.moved.origin⟩
  onClosed s m op oracle result hw hm hclosed hr := call_closed hw hm hclosed hr
  short s m op oracle result hw hp hm hreach hr := call_short hw hp hm hreach hr
  first s m op oracle member x result hw hb hp hopen hpid hsole hreach hdup hok hr := by
    have hused := first_use (t := 0) (s := { s with oracle := oracle }) (hw.of_oracle oracle) hb hp hopen
      hpid hsole hreach hdup hok.1 hok.2
    have hlast : Lineage.Used Ordinary Coherent Fair m { s with oracle := oracle } result.2 :=
      ends_same (wp_of_run hused hr)
    exact ⟨closes_of_reaches hreach, hlast.self, hlast.openAt, hlast.shared⟩

end Laws

-- Whoever was open at the fork and has not been closed since is open, and
-- the open members share one instance of this process, which the tables
-- describe; it is the one that was there after the first use.
structure Survived (l : Lineage.State) : Prop where
  openAt : ∀ m, OpenAt l.forked m → m ∉ l.closed → OpenAt l.sys m
  shared : (∃ m, OpenAt l.sys m) → ∃ e, (creators l.sys)[e]? = some l.sys.self ∧
    (∀ m member x, OpenAs l.sys m member x → x.inst = e) ∧
    Describes l.sys.family.marks l.sys.family.events l.sys.objects (l.sys.interestAt e) ∧
    Lineage.Lasting l.used e

-- From the first call that reaches the fork check on, the members of the
-- family survive a fork, as long as every such call meets the guard.
theorem epolls_survive (pid : Pid) (objects : Objects) (ho : Ordinary objects)
    (labels : List (Lineage.Label Op))
    (hg : Guarded (Lineage.step api) (Lineage.Guard api) (Lineage.start pid objects) labels) :
    Visits (Lineage.step api) (fun l => l.used.isSome → Survived l) (Lineage.start pid objects) labels := by
  have hstart : Lineage.Invariant Ordinary Coherent Fair (Lineage.start pid objects) :=
    Lineage.start_invariant pid objects (opened_coherent pid objects ho)
  refine visits_mono ?_ (Lineage.visits_survived laws hstart labels hg)
  intro l hl hu
  obtain ⟨hopen, hshared, _⟩ := hl hu
  refine ⟨hopen, fun h => ?_⟩
  obtain ⟨e, hfair, hown, hused⟩ := hshared h
  exact ⟨e, hown, hfair.shared, hfair.describes, hused⟩

-- Two members, of which one is closed before the fork; the child uses the other
-- and makes a copy of it, which survives the next fork on its own.
theorem epolls_survive_only_member :
    Visits (Lineage.step api) (fun l => l.used.isSome → Survived l) (Lineage.start 1 noObjects)
      [.call 0 .dup {}, .call 1 .close {}, .fork 2, .call 0 .toIo {}, .call 0 .dup {},
        .call 0 .close {}, .fork 3,
        .call 2 .toIo {}] := by
  refine epolls_survive 1 noObjects noObjects_ordinary _ (Lineage.guarded_of_meets ?_ (by decide +kernel))
  intro label hlabel
  simp only [List.mem_cons, List.not_mem_nil, or_false] at hlabel
  rcases hlabel with rfl | rfl | rfl | rfl | rfl | rfl | rfl | rfl
  all_goals first | trivial | exact ⟨rfl, by simp, by simp [Creates]⟩

-- Two members: the child uses one, and the other is closed under its owner.
theorem first_use_closes_copy :
    ∃ l, runEvents (Lineage.step api) (Lineage.start 1 noObjects)
        [.call 0 .dup {}, .fork 2, .call 0 .toIo {}] = some l ∧
      l.used.isSome ∧ OpenAt l.forked 1 ∧ 1 ∉ l.closed ∧ ¬OpenAt l.sys 1 ∧ ¬Survived l := by
  have hrun : ((runEvents (Lineage.step api) (Lineage.start 1 noObjects)
        [.call 0 .dup {}, .fork 2, .call 0 .toIo {}]).map fun l =>
      (l.used.isSome, decide (OpenAt l.forked 1), decide (1 ∈ l.closed), decide (OpenAt l.sys 1))) =
      some (true, true, false, false) := by decide +kernel
  obtain ⟨l, hl, hobserved⟩ := Option.map_eq_some_iff.mp hrun
  simp only [Prod.mk.injEq, decide_eq_true_eq, decide_eq_false_iff_not] at hobserved
  obtain ⟨hused, hforked, hnot, hclosed⟩ := hobserved
  exact ⟨l, hl, hused, hforked, hnot, hclosed, fun h => hclosed (h.openAt 1 hforked hnot)⟩

end SleepyPenguin.Epoll.Fork
