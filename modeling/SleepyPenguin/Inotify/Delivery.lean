import SleepyPenguin.Foundation.Run
import SleepyPenguin.Inotify.Threads

-- Where the records are, at every moment.
namespace SleepyPenguin.Inotify

open Foundation Tls

-- What a read left in the thread's buffer.
def unreadOf : Except Errno (List Record) → List Record
  | .ok batch => batch
  | .error _ => []

def Taker.unread (t : Taker) : List Record :=
  match t.pc with
  | .fetched _ result => unreadOf result
  | _ => []

def Sys.unread (s : Sys) : List Record := s.takers.flatMap Taker.unread

-- The events of the records that have arrived, by where these are.
def Sys.account (s : Sys) : List Event :=
  s.returned ++ s.tmp ++ s.unread.map Record.event ++ s.queue.map Record.event

section Segments

variable {w : Nat} {args : Args} {tls tls' : Tls.Thread} {outcome : Except Err Turned} {turn : Turn}

-- A resize ends in an exception, or the loop goes on.
theorem resize_run {ioctl : Except Errno Int} {env : Env}
    (h : (resizeInternalBuffer args ioctl env >>= fun args =>
      (pure (.again args) : Waiter Turned)).run (Tls.exec w) tls = some (outcome, tls')) :
    (∃ e, outcome = .error e) ∨ ∃ args, outcome = .ok (.again args) := by
  obtain ⟨⟨middle, tls''⟩, _, hend⟩ :=
    Option.bind_eq_some_iff.mp ((Prog.run_handle (resizeInternalBuffer args ioctl env) _ tls).symm.trans h)
  cases middle with
  | error e =>
      cases hend
      exact Or.inl ⟨e, rfl⟩
  | ok args =>
      cases hend
      exact Or.inr ⟨args, rfl⟩

theorem flatMap_encode_ne_nil (r : Record) (rest : List Record) :
    (r :: rest).flatMap Record.encode ≠ [] := by
  intro hnil
  have hlen := length_flatMap_encode (r :: rest)
  rw [hnil] at hlen
  cases hlen

-- The loop returns the first event of a read and pushes the others.
theorem afterRead_batch {r : Record} {rest : List Record} (hread : turn.read = Sys.bytes (.ok (r :: rest)))
    (hinterrupt : turn.interrupt = none) :
    afterRead args turn = pure (.ended (some r.event) (rest.map Record.event)) := by
  have hread' : turn.read = .ok ((r :: rest).flatMap Record.encode) := hread
  unfold afterRead
  simp only [hinterrupt, hread']
  split
  · rename_i heq
    exact absurd (Except.ok.inj heq) (flatMap_encode_ne_nil r rest)
  · rename_i heq
    cases heq
  · rename_i heq
    cases heq
  · rename_i bytes _ heq
    rw [← Except.ok.inj heq, events_encode]
    rfl

-- What the loop makes of a read: it returns the first event and pushes the
-- others, or there was none in the buffer.
theorem afterRead_run {result : Except Errno (List Record)} (hread : turn.read = Sys.bytes result)
    (hinterrupt : turn.interrupt = none)
    (h : (afterRead args turn).run (Tls.exec w) tls = some (outcome, tls')) :
    (∃ rv extra, outcome = .ok (.ended (some rv) extra) ∧ (unreadOf result).map Record.event =
      rv :: extra) ∨
    (unreadOf result = [] ∧ ((∃ e, outcome = .error e) ∨ outcome = .ok (.ended none []) ∨
      (∃ args, outcome = .ok (.again args)) ∨ ∃ args errno, outcome = .ok (.waits args errno))) := by
  cases result with
  | error errno =>
      refine Or.inr ⟨rfl, ?_⟩
      have hread' : turn.read = .error errno := hread
      unfold afterRead at h
      simp only [hinterrupt, hread'] at h
      split at h
      · rename_i heq
        cases heq
      · rcases resize_run h with herror | hagain
        · exact Or.inl herror
        · exact Or.inr (Or.inr (Or.inl hagain))
      · split at h
        · cases h
          exact Or.inr (Or.inl rfl)
        · split at h
          · cases h
            exact Or.inl ⟨_, rfl⟩
          · cases h
            exact Or.inr (Or.inr (Or.inr ⟨_, _, rfl⟩))
      · rename_i heq
        cases heq
  | ok batch =>
      cases batch with
      | nil =>
          refine Or.inr ⟨rfl, ?_⟩
          have hread' : turn.read = .ok [] := hread
          unfold afterRead at h
          simp only [hinterrupt, hread'] at h
          rcases resize_run h with herror | hagain
          · exact Or.inl herror
          · exact Or.inr (Or.inr (Or.inl hagain))
      | cons r rest =>
          rw [afterRead_batch hread hinterrupt] at h
          cases h
          exact Or.inl ⟨r.event, rest.map Record.event, rfl, rfl⟩

end Segments

-- All that a thread does to the records in a step: an event is served from
-- `@inotify_tmp`, the call comes to its first read, a read ends, the loop goes
-- on, or the call is over.
inductive Effect (s : Sys) (i : Nat) : Sys → Prop
  | served {tls : Tls.Thread} {event : Event} {rest : List Event} (hi : s.takers[i]? = some ⟨tls, .idle⟩)
      (htmp : s.tmp = event :: rest) : Effect s i { s with tmp := rest, returned := s.returned ++ [event] }
  | entered {tls tls' : Tls.Thread} {args : Args} (hi : s.takers[i]? = some ⟨tls, .idle⟩)
      (htmp : s.tmp = [])
      (nonblock : Bool) : Effect s i { s.put i tls' (.reading args) with nonblock := nonblock }
  | left {t : Taker} {tls' : Tls.Thread} (hi : s.takers[i]? = some t) (hunread : t.unread = [])
      (nonblock : Bool) : Effect s i { s.put i tls' .idle with nonblock := nonblock }
  | fetched {tls : Tls.Thread} {args : Args} {batch queue : List Record}
      (hi : s.takers[i]? = some ⟨tls, .reading args⟩) (hqueue : s.queue = batch ++ queue)
      (hne : batch ≠ []) :
      Effect s i { s.put i tls (.fetched args (.ok batch)) with queue := queue }
  | failed {tls : Tls.Thread} {args : Args} {errno : Errno}
      (hi : s.takers[i]? = some ⟨tls, .reading args⟩) :
      Effect s i (s.put i tls (.fetched args (.error errno)))
  | goes {t : Taker} {tls' : Tls.Thread} {pc : Pc} (hi : s.takers[i]? = some t) (hinside : t.pc ≠ .idle)
      (hunread : t.unread = [])
      (hpc : (∃ args, pc = .reading args) ∨ ∃ args errno, pc = .waiting args errno) :
      Effect s i (s.put i tls' pc)
  | ended {tls tls' : Tls.Thread} {args : Args} {result : Except Errno (List Record)} {rv : Event}
      {extra : List Event} (hi : s.takers[i]? = some ⟨tls, .fetched args result⟩)
      (hevents : (unreadOf result).map Record.event = rv :: extra) :
      Effect s i { s.put i tls' .idle with tmp := s.tmp ++ extra, returned := s.returned ++ [rv] }

-- The thread of a step.
def Act.thread : Act → Option Nat
  | .arrive _ => none
  | .enter i _ | .read i _ | .resume i _ _ _ | .wake i _ => some i

section Steps

variable {w i : Nat} {s s' : Sys}

theorem enter_effect {tls : Tls.Thread} {b : Begin} (hi : s.takers[i]? = some ⟨tls, .idle⟩)
    (h : s.enter w i tls b = some s') : Effect s i s' := by
  unfold Sys.enter at h
  split at h
  · rename_i event rest htmp
    cases h
    exact .served hi htmp
  · rename_i htmp
    split at h
    · cases h
    · cases h
      exact .left hi rfl s.nonblock
    · simp only at h
      split at h
      · cases h
      · cases h
        exact .left hi rfl _
      · cases h
        exact .entered hi htmp _

theorem read_effect {tls : Tls.Thread} {args : Args} {fails : Option Errno}
    {result : Except Errno (List Record)} {queue : List Record}
    (hi : s.takers[i]? = some ⟨tls, .reading args⟩)
    (h : inread s.queue s.nonblock args.size fails = some (result, queue)) :
    Effect s i { s.put i tls (.fetched args result) with queue := queue } := by
  unfold inread at h
  split at h
  · cases h
    exact .failed hi
  · rename_i hqueue
    split at h
    · cases h
      rw [← hqueue]
      exact .failed hi
    · cases h
  · rename_i r rest hqueue
    split at h
    · rename_i hfits
      cases h
      refine .fetched hi ?_ ?_
      · rw [hqueue]
        exact (fitting_append_drop args.size (r :: rest)).symm
      · rw [fitting, if_pos hfits]
        exact List.cons_ne_nil _ _
    · cases h
      rw [← hqueue]
      exact .failed hi

theorem turned_effect {tls tls' : Tls.Thread} {args : Args} {result : Except Errno (List Record)}
    {turn : Turn} {outcome : Except Err Turned} (hi : s.takers[i]? = some ⟨tls, .fetched args result⟩)
    (hread : turn.read = Sys.bytes result) (hinterrupt : turn.interrupt = none)
    (h : (afterRead args turn).run (Tls.exec w) tls = some (outcome, tls')) :
    Effect s i (s.turned i tls' outcome) := by
  rcases afterRead_run hread hinterrupt h with ⟨rv, extra, rfl, hevents⟩ | ⟨hunread, hother⟩
  · exact .ended hi hevents
  · rcases hother with ⟨e, rfl⟩ | rfl | ⟨args, rfl⟩ | ⟨args, errno, rfl⟩
    · exact .left hi hunread s.nonblock
    · have hleft : Effect s i { s.put i tls' .idle with nonblock := s.nonblock } :=
        .left hi hunread s.nonblock
      simpa only [Sys.turned, Sys.put, List.append_nil, Option.toList_none] using hleft
    · exact .goes hi (fun hidle => nomatch hidle) hunread (Or.inl ⟨args, rfl⟩)
    · exact .goes hi (fun hidle => nomatch hidle) hunread (Or.inr ⟨args, errno, rfl⟩)

theorem step_effect {act : Act} (h : s.step w act = some s') :
    (∃ r, act = .arrive r ∧ s' = { s with queue := s.queue ++ [r], arrived := s.arrived ++ [r] }) ∨
    ∃ i, act.thread = some i ∧ Effect s i s' := by
  cases act with
  | arrive r =>
      cases h
      exact Or.inl ⟨r, rfl, rfl⟩
  | enter i b =>
      simp only [Sys.step] at h
      split at h
      · rename_i tls hi
        exact Or.inr ⟨i, rfl, enter_effect hi h⟩
      · cases h
  | read i fails =>
      simp only [Sys.step] at h
      split at h
      · rename_i tls args hi
        obtain ⟨⟨result, queue⟩, hr, rfl⟩ := Option.map_eq_some_iff.mp h
        exact Or.inr ⟨i, rfl, read_effect hi hr⟩
      · cases h
  | resume i ioctl env closed =>
      simp only [Sys.step] at h
      split at h
      · rename_i tls args result hi
        obtain ⟨⟨outcome, tls'⟩, hr, rfl⟩ := Option.map_eq_some_iff.mp h
        exact Or.inr ⟨i, rfl, turned_effect hi rfl rfl hr⟩
      · cases h
  | wake i closed =>
      simp only [Sys.step] at h
      split at h
      · rename_i tls args errno hi
        obtain ⟨⟨outcome, tls'⟩, hr, rfl⟩ := Option.map_eq_some_iff.mp h
        refine Or.inr ⟨i, rfl, ?_⟩
        cases outcome with
        | ok args => exact .goes hi (fun hidle => nomatch hidle) rfl (Or.inl ⟨args, rfl⟩)
        | error e => exact .left hi rfl s.nonblock
      · cases h

end Steps

-- Every event of a record that has arrived was returned, or is in
-- `@inotify_tmp`, in one thread's buffer or in the kernel's queue, once.
def Delivered (s : Sys) : Prop := (s.arrived.map Record.event).Perm s.account

-- The same in the order of the kernel.
def Ordered (s : Sys) : Prop := s.arrived.map Record.event = s.account

section Once

variable {i : Nat} {s s' : Sys} {t : Taker}

theorem count_account (s : Sys) (e : Event) : List.count e s.account = List.count e s.returned +
    List.count e s.tmp + List.count e ((s.takers.flatMap Taker.unread).map Record.event) +
      List.count e (s.queue.map Record.event) := by
  simp only [Sys.account, Sys.unread, List.count_append]

theorem count_unread (hi : s.takers[i]? = some t) (tls : Tls.Thread) (pc : Pc) (e : Event) :
    List.count e (((s.takers.set i ⟨tls, pc⟩).flatMap Taker.unread).map Record.event) +
        List.count e (t.unread.map Record.event) =
      List.count e ((s.takers.flatMap Taker.unread).map Record.event) +
        List.count e ((Taker.unread ⟨tls, pc⟩).map Record.event) := by
  have hperm := (List.perm_flatMap_set Taker.unread hi ⟨tls, pc⟩).map Record.event
  have hcount := hperm.count_eq e
  rw [List.map_append, List.map_append, List.count_append, List.count_append] at hcount
  exact hcount

-- A thread that had no record in its buffer and has none.
theorem account_put (hi : s.takers[i]? = some t) (hunread : t.unread = []) {tls : Tls.Thread} {pc : Pc}
    (hpc : Taker.unread ⟨tls, pc⟩ = []) (nonblock : Bool) :
    Sys.account { s.put i tls pc with nonblock := nonblock } = s.account := by
  have hflat : (s.takers.set i ⟨tls, pc⟩).flatMap Taker.unread = s.takers.flatMap Taker.unread :=
    List.flatMap_set_of_eq hi (hpc.trans hunread.symm)
  simp only [Sys.account, Sys.unread, Sys.put, hflat]

theorem Effect.account_perm (h : Effect s i s') : s'.account.Perm s.account ∧ s'.arrived = s.arrived := by
  cases h with
  | served hi htmp =>
      refine ⟨List.Perm.of_eq ?_, rfl⟩
      simp [Sys.account, Sys.unread, htmp]
  | entered hi htmp nonblock => exact ⟨List.Perm.of_eq (account_put hi rfl rfl nonblock), rfl⟩
  | left hi hunread nonblock => exact ⟨List.Perm.of_eq (account_put hi hunread rfl nonblock), rfl⟩
  | @fetched tls args batch queue hi hqueue hne =>
      refine ⟨List.perm_iff_count.mpr fun e => ?_, rfl⟩
      have hput := count_unread hi tls (.fetched args (.ok batch)) e
      rw [count_account, count_account, hqueue, List.map_append, List.count_append]
      simp only [Sys.put, Taker.unread, unreadOf, List.map_nil, List.count_nil] at hput ⊢
      omega
  | failed hi => exact ⟨List.Perm.of_eq (account_put hi rfl rfl s.nonblock), rfl⟩
  | goes hi hinside hunread hpc =>
      refine ⟨List.Perm.of_eq (account_put hi hunread ?_ s.nonblock), rfl⟩
      rcases hpc with ⟨args, rfl⟩ | ⟨args, errno, rfl⟩
      · rfl
      · rfl
  | @ended tls tls' args result rv extra hi hevents =>
      refine ⟨List.perm_iff_count.mpr fun e => ?_, rfl⟩
      have hput := count_unread hi tls' .idle e
      rw [count_account, count_account]
      simp only [Sys.put, Taker.unread, List.map_nil, List.count_nil, hevents, List.count_append,
        List.count_cons, Nat.zero_add] at hput ⊢
      omega

theorem Delivered.step {w : Nat} {act : Act} (h : Delivered s) (hs : s.step w act = some s') :
    Delivered s' := by
  rcases step_effect hs with ⟨r, _, rfl⟩ | ⟨i, _, heffect⟩
  · have hlast : (s.arrived ++ [r]).map Record.event = s.arrived.map Record.event ++ [r.event] := by
      simp
    have haccount : Sys.account { s with queue := s.queue ++ [r], arrived := s.arrived ++ [r] } =
        s.account ++ [r.event] := by
      simp [Sys.account, Sys.unread]
    rw [Delivered, haccount]
    exact hlast ▸ h.append_right [r.event]
  · obtain ⟨hperm, harrived⟩ := heffect.account_perm
    rw [Delivered, harrived]
    exact h.trans hperm.symm

end Once

-- Only thread `i` takes, and it reads only where no event is waiting.
structure Alone (i : Nat) (s : Sys) : Prop where
  others : ∀ j t, j ≠ i → s.takers[j]? = some t → t.pc = .idle
  first : ∀ t, s.takers[i]? = some t → t.pc ≠ .idle → s.tmp = []

section Order

variable {i : Nat} {s s' : Sys} {t : Taker}

theorem Alone.unread_eq (h : Alone i s) (hi : s.takers[i]? = some t) :
    s.takers.flatMap Taker.unread = t.unread := by
  refine List.flatMap_eq_of_single hi fun j b hj hb => ?_
  have hidle := h.others j b hj hb
  unfold Taker.unread
  rw [hidle]

theorem Alone.put (h : Alone i s) {tls : Tls.Thread} {pc : Pc} {s' : Sys}
    (htakers : s'.takers = s.takers.set i ⟨tls, pc⟩) (htmp : pc ≠ .idle → s'.tmp = []) : Alone i s' := by
  refine ⟨fun j t hj ht => ?_, fun t ht hpc => ?_⟩
  · rw [htakers, List.getElem?_set_ne (Ne.symm hj)] at ht
    exact h.others j t hj ht
  · rw [htakers] at ht
    have hlt : i < s.takers.length := by
      have hlt' := (List.getElem?_eq_some_iff.mp ht).1
      rwa [List.length_set] at hlt'
    rw [List.getElem?_set_self hlt] at ht
    obtain rfl := Option.some.inj ht
    exact htmp hpc

theorem Effect.alone (h : Effect s i s') (ha : Alone i s) : Alone i s' ∧ s'.account = s.account := by
  cases h with
  | @served tls event rest hi htmp =>
      refine ⟨⟨ha.others, fun t ht hpc => ?_⟩, ?_⟩
      · obtain rfl := Option.some.inj (hi.symm.trans ht)
        exact absurd rfl hpc
      · simp [Sys.account, Sys.unread, htmp]
  | entered hi htmp nonblock => exact ⟨ha.put rfl fun _ => htmp, account_put hi rfl rfl nonblock⟩
  | left hi hunread nonblock =>
      exact ⟨ha.put rfl fun hpc => absurd rfl hpc, account_put hi hunread rfl nonblock⟩
  | @fetched tls args batch queue hi hqueue hne =>
      have htmp : s.tmp = [] := ha.first _ hi fun hpc => nomatch hpc
      have halone : Alone i { s.put i tls (.fetched args (.ok batch)) with queue := queue } :=
        ha.put rfl fun _ => htmp
      refine ⟨halone, ?_⟩
      have hlt : i < s.takers.length := (List.getElem?_eq_some_iff.mp hi).1
      have hbefore := ha.unread_eq hi
      have hafter := halone.unread_eq (t := ⟨tls, .fetched args (.ok batch)⟩) (List.getElem?_set_self hlt)
      simp only [Sys.put, Taker.unread, unreadOf] at hbefore hafter
      simp [Sys.account, Sys.unread, Sys.put, hbefore, hafter, hqueue]
  | failed hi =>
      have htmp : s.tmp = [] := ha.first _ hi fun hpc => nomatch hpc
      exact ⟨ha.put rfl fun _ => htmp, account_put hi rfl rfl s.nonblock⟩
  | goes hi hinside hunread hpc =>
      refine ⟨ha.put rfl fun _ => ha.first _ hi hinside, account_put hi hunread ?_ s.nonblock⟩
      rcases hpc with ⟨args, rfl⟩ | ⟨args, errno, rfl⟩
      · rfl
      · rfl
  | @ended tls tls' args result rv extra hi hevents =>
      have htmp : s.tmp = [] := ha.first _ hi fun hpc => nomatch hpc
      have halone : Alone i
          { s.put i tls' .idle with tmp := s.tmp ++ extra, returned := s.returned ++ [rv] } :=
        ha.put rfl fun hpc => absurd rfl hpc
      refine ⟨halone, ?_⟩
      have hlt : i < s.takers.length := (List.getElem?_eq_some_iff.mp hi).1
      have hbefore := ha.unread_eq hi
      have hafter := halone.unread_eq (t := ⟨tls', .idle⟩) (List.getElem?_set_self hlt)
      simp only [Sys.put, Taker.unread] at hbefore hafter
      simp [Sys.account, Sys.unread, Sys.put, hbefore, hafter, htmp, hevents]

theorem Ordered.step {w : Nat} {act : Act} (h : Ordered s ∧ Alone i s)
    (hact : ∀ j, act.thread = some j → j = i)
    (hs : s.step w act = some s') : Ordered s' ∧ Alone i s' := by
  obtain ⟨horder, halone⟩ := h
  rcases step_effect hs with ⟨r, _, rfl⟩ | ⟨j, hj, heffect⟩
  · refine ⟨?_, halone.others, halone.first⟩
    have hgoal : (s.arrived ++ [r]).map Record.event = s.account ++ [r.event] := by
      rw [List.map_append, horder]
      rfl
    rw [Ordered, hgoal]
    simp [Sys.account, Sys.unread]
  · obtain rfl := hact j hj
    obtain ⟨halone', haccount⟩ := heffect.alone halone
    refine ⟨?_, halone'⟩
    rw [Ordered, heffect.account_perm.2, haccount]
    exact horder

end Order

theorem start_account (nonblock : Bool) (threads : List Tls.Thread) :
    (Sys.start nonblock threads).account = [] := by
  have hunread : (Sys.start nonblock threads).unread = [] := by
    refine List.flatMap_eq_nil_iff.mpr fun t ht => ?_
    obtain ⟨tls, _, rfl⟩ := List.mem_map.mp ht
    rfl
  rw [Sys.account, hunread]
  rfl

theorem start_alone (nonblock : Bool) (threads : List Tls.Thread) (i : Nat) :
    Alone i (Sys.start nonblock threads) := by
  have hidle : ∀ (j : Nat) (t : Taker), (Sys.start nonblock threads).takers[j]? = some t →
    t.pc = .idle := by
    intro j t ht
    obtain ⟨tls, _, rfl⟩ := List.mem_map.mp (List.mem_of_getElem? ht)
    rfl
  exact ⟨fun j t _ ht => hidle j t ht, fun t ht hpc => absurd (hidle i t ht) hpc⟩

-- Any records at any time, and any calls of any number of threads: each
-- record is in one place in every state, and the calls of a thread that is
-- the only one to take return the events in the order of the kernel.
theorem delivered (w : Nat) (nonblock : Bool) (threads : List Tls.Thread) (acts : List Act) :
    Visits (Sys.step w) Delivered (Sys.start nonblock threads) acts ∧
    ∀ i, (∀ act ∈ acts, ∀ j, act.thread = some j → j = i) →
      Visits (Sys.step w) Ordered (Sys.start nonblock threads) acts := by
  have haccount := start_account nonblock threads
  constructor
  · have hstart : Delivered (Sys.start nonblock threads) := by
      rw [Delivered, haccount]
      exact List.Perm.refl _
    exact visits_of_guarded Delivered Delivered (fun _ h => h) (fun s act s' h _ hs => h.step hs) hstart
      (guarded_true _ _)
  · intro i hacts
    have hstart : Ordered (Sys.start nonblock threads) ∧ Alone i (Sys.start nonblock threads) := by
      refine ⟨?_, start_alone nonblock threads i⟩
      rw [Ordered, haccount]
      rfl
    exact visits_of_guarded (fun s => Ordered s ∧ Alone i s) Ordered (fun _ h => h.1)
      (fun s act s' h hact hs => Ordered.step h hact hs) hstart (guarded_of_forall hacts _)

-- A file that was created and opened before the one read of a thread.
def created : Record := ⟨1, 256, 0, [97, 0, 0, 0], by decide, by decide, by decide, by decide⟩

def opened : Record := ⟨1, 32, 0, [], by decide, by decide, by decide, by decide⟩

def bothTaken : List Act :=
  [.enter 0 {}, .arrive created, .arrive opened, .read 0 none, .resume 0 none {} false, .enter 0 {}]

theorem delivered_both :
    (runEvents (Sys.step 64) (Sys.start false [Tls.Thread.start]) bothTaken).map
    (fun s => (s.returned, s.tmp)) =
      some ([⟨1, 256, 0, some [97]⟩, ⟨1, 32, 0, none⟩], []) ∧
    Visits (Sys.step 64) Ordered (Sys.start false [Tls.Thread.start]) bothTaken := by
  refine ⟨by decide, (delivered 64 false [Tls.Thread.start] bothTaken).2 0 ?_⟩
  intro act hact j hj
  have hall : bothTaken.all fun act => act.thread = none ∨ act.thread = some 0 := by decide
  rcases of_decide_eq_true (List.all_eq_true.mp hall act hact) with hnone | hzero
  · rw [hnone] at hj
    cases hj
  · rw [hzero] at hj
    cases hj
    rfl

end SleepyPenguin.Inotify
