import SleepyPenguin.Inotify.Delivery

-- Threads that sleep while `@inotify_tmp` has events.
namespace SleepyPenguin.Inotify

open Foundation Tls

-- In a read(2) that blocks on an empty queue, or in the wait for the descriptor.
def Taker.Blocked (nonblock : Bool) (t : Taker) : Prop :=
  match t.pc with
  | .reading _ => nonblock = false
  | .waiting _ errno => errno = .EAGAIN
  | _ => False

-- Threads are inside take, they are all blocked, and none of them is going to
-- see the events in `@inotify_tmp`.
structure Asleep (s : Sys) : Prop where
  inside : ∃ t ∈ s.takers, t.pc ≠ .idle
  blocked : ∀ t ∈ s.takers, t.pc ≠ .idle → t.Blocked s.nonblock
  queue : s.queue = []
  tmp : s.tmp ≠ []

instance (nonblock : Bool) (t : Taker) : Decidable (t.Blocked nonblock) := by
  unfold Taker.Blocked
  split <;> infer_instance

instance (s : Sys) : Decidable (Asleep s) :=
  decidable_of_iff ((∃ t ∈ s.takers, t.pc ≠ .idle) ∧ (∀ t ∈ s.takers, t.pc ≠ .idle → t.Blocked s.nonblock) ∧
      s.queue = [] ∧ s.tmp ≠ [])
    ⟨fun ⟨inside, blocked, queue, tmp⟩ => ⟨inside, blocked, queue, tmp⟩,
      fun h => ⟨h.inside, h.blocked, h.queue, h.tmp⟩⟩

-- A thread that pushes events is the only one in take, but for threads that
-- have events of their own to return.
def Shares (s : Sys) : Act → Prop
  | .resume i _ _ _ =>
      match s.takers[i]? with
      | some ⟨_, .fetched _ (.ok (_ :: _ :: _))⟩ => ∀ t ∈ s.takers.eraseIdx i, t.pc = .idle ∨ t.unread ≠ []
      | _ => True
  | _ => True

instance (s : Sys) (act : Act) : Decidable (Shares s act) := by
  unfold Shares
  split
  · split <;> infer_instance
  · infer_instance

-- No thread that may block is in take while events wait in `@inotify_tmp`.
def Awake (s : Sys) : Prop := s.tmp ≠ [] → ∀ t ∈ s.takers, t.pc = .idle ∨ t.unread ≠ []

theorem Awake.not_asleep {s : Sys} (h : Awake s) : ¬Asleep s := by
  intro ha
  obtain ⟨t, ht, hinside⟩ := ha.inside
  have hblocked := ha.blocked t ht hinside
  have hunread := (h ha.tmp t ht).resolve_left hinside
  unfold Taker.Blocked at hblocked
  split at hblocked
  · rename_i hpc
    simp [Taker.unread, hpc] at hunread
  · rename_i hpc
    simp [Taker.unread, hpc] at hunread
  · exact hblocked

section Steps

variable {w i : Nat} {s s' : Sys} {act : Act}

-- A thread that leaves take, or that may block while nothing is waiting.
theorem Awake.put (h : Awake s) {s' : Sys} {t : Taker} (htakers : s'.takers = s.takers.set i t)
    (htmp : s'.tmp = s.tmp) (ht : t.pc = .idle ∨ s.tmp = []) : Awake s' := by
  intro hne
  rw [htmp] at hne
  have hidle := ht.resolve_right hne
  rw [htakers]
  exact List.forall_mem_set (h hne) (Or.inl hidle)

theorem Awake.tmp_eq (h : Awake s) {t : Taker} (hi : s.takers[i]? = some t) (hinside : t.pc ≠ .idle)
    (hunread : t.unread = []) : s.tmp = [] := by
  by_contra hne
  rcases h hne t (List.mem_of_getElem? hi) with hidle | hsome
  · exact hinside hidle
  · exact hsome hunread

-- Only the resumption after a read pushes events.
theorem others_of_shares {tls : Tls.Thread} {args : Args} {batch : List Record}
    (hi : s.takers[i]? = some ⟨tls, .fetched args (.ok batch)⟩) (hlen : 2 ≤ batch.length)
    (hact : act.thread = some i) (hg : Shares s act) (hs : s.step w act = some s') :
    ∀ t ∈ s.takers.eraseIdx i, t.pc = .idle ∨ t.unread ≠ [] := by
  cases act with
  | arrive r => cases hact
  | enter j b =>
      cases hact
      simp [Sys.step, hi] at hs
  | read j fails =>
      cases hact
      simp [Sys.step, hi] at hs
  | wake j closed =>
      cases hact
      simp [Sys.step, hi] at hs
  | resume j ioctl env closed =>
      cases hact
      rcases batch with _ | ⟨r, _ | ⟨r', rest⟩⟩
      · cases hlen
      · simp at hlen
      · simpa only [Shares, hi] using hg

theorem Awake.step (h : Awake s) (hg : Shares s act) (hs : s.step w act = some s') : Awake s' := by
  rcases step_effect hs with ⟨r, _, rfl⟩ | ⟨i, hi, heffect⟩
  · exact h
  · cases heffect with
    | @served tls event rest hidle htmp =>
        intro hne
        exact h (by rw [htmp]; exact List.cons_ne_nil _ _)
    | entered hidle htmp nonblock => exact h.put rfl rfl (Or.inr htmp)
    | left hfrom hunread nonblock => exact h.put rfl rfl (Or.inl rfl)
    | fetched hfrom hqueue hne => exact h.put rfl rfl (Or.inr (h.tmp_eq hfrom (fun hpc => nomatch hpc) rfl))
    | failed hfrom => exact h.put rfl rfl (Or.inr (h.tmp_eq hfrom (fun hpc => nomatch hpc) rfl))
    | goes hfrom hinside hunread hpc => exact h.put rfl rfl (Or.inr (h.tmp_eq hfrom hinside hunread))
    | @ended tls tls' args result rv extra hfrom hevents =>
        intro hne
        by_cases hextra : extra = []
        · have htmp : s.tmp ≠ [] := by simpa [hextra] using hne
          exact List.forall_mem_set (h htmp) (Or.inl rfl)
        · have hlen : 2 ≤ (unreadOf result).length := by
            have hcount := congrArg List.length hevents
            have hpos := List.length_pos_iff.mpr hextra
            rw [List.length_map, List.length_cons] at hcount
            omega
          have hothers : ∀ t ∈ s.takers.eraseIdx i, t.pc = .idle ∨ t.unread ≠ [] := by
            cases result with
            | error errno => cases hlen
            | ok batch => exact others_of_shares hfrom hlen hi hg hs
          intro t ht
          obtain ⟨j, hj⟩ := List.getElem?_of_mem ht
          have hset : (s.takers.set i ⟨tls', .idle⟩)[j]? = some t := hj
          by_cases hji : j = i
          · subst hji
            rw [List.getElem?_set_self (List.getElem?_eq_some_iff.mp hfrom).1] at hset
            obtain rfl := Option.some.inj hset
            exact Or.inl rfl
          · rw [List.getElem?_set_ne (Ne.symm hji)] at hset
            exact hothers t (List.mem_eraseIdx_iff_getElem?.mpr ⟨j, hji, hset⟩)

-- Outside of it, a thread that pushes events leaves the others asleep where
-- these are blocked and the kernel has no more events.
theorem asleep_of_resume {tls : Tls.Thread} {args : Args} {r r' : Record} {rest : List Record}
    {ioctl : Option Errno} {env : Env} {closed : Bool}
    (hi : s.takers[i]? = some ⟨tls, .fetched args (.ok (r :: r' :: rest))⟩) (hqueue : s.queue = [])
    (hinside : ∃ t ∈ s.takers.eraseIdx i, t.pc ≠ .idle)
    (hblocked : ∀ t ∈ s.takers.eraseIdx i, t.pc ≠ .idle → t.Blocked s.nonblock)
    (hs : s.step w (.resume i ioctl env closed) = some s') : Asleep s' := by
  simp only [Sys.step, hi] at hs
  obtain ⟨⟨outcome, tls'⟩, hr, rfl⟩ := Option.map_eq_some_iff.mp hs
  rcases afterRead_run (show _ = Sys.bytes (.ok (r :: r' :: rest)) from rfl) rfl hr with
    ⟨rv, extra, rfl, hevents⟩ | ⟨hunread, _⟩
  · have hextra : extra ≠ [] := by
      rintro rfl
      have hlen := congrArg List.length hevents
      simp [unreadOf] at hlen
    have hmem : ∀ {t}, t ∈ s.takers.set i ⟨tls', .idle⟩ → t.pc ≠ .idle → t ∈ s.takers.eraseIdx i := by
      intro t ht hpc
      obtain ⟨j, hj⟩ := List.getElem?_of_mem ht
      by_cases hji : j = i
      · subst hji
        rw [List.getElem?_set_self (List.getElem?_eq_some_iff.mp hi).1] at hj
        obtain rfl := Option.some.inj hj
        exact absurd rfl hpc
      · rw [List.getElem?_set_ne (Ne.symm hji)] at hj
        exact List.mem_eraseIdx_iff_getElem?.mpr ⟨j, hji, hj⟩
    refine ⟨?_, fun t ht hpc => hblocked t (hmem ht hpc) hpc, hqueue, ?_⟩
    · obtain ⟨t, ht, hpc⟩ := hinside
      obtain ⟨j, hji, hj⟩ := List.mem_eraseIdx_iff_getElem?.mp ht
      refine ⟨t, List.mem_of_getElem? (i := j) ?_, hpc⟩
      exact (List.getElem?_set_ne (Ne.symm hji)).trans hj
    · exact fun hnil => hextra (List.append_eq_nil_iff.mp hnil).2
  · cases hunread

end Steps

-- In every run whose steps meet the condition, no thread sleeps while there
-- are events for it.
theorem awake (w : Nat) (nonblock : Bool) (threads : List Tls.Thread) (acts : List Act)
    (hg : Guarded (Sys.step w) Shares (Sys.start nonblock threads) acts) :
    Visits (Sys.step w) (fun s => ¬Asleep s) (Sys.start nonblock threads) acts := by
  have hstart : Awake (Sys.start nonblock threads) := fun hne => absurd rfl hne
  exact visits_of_guarded Awake (fun s => ¬Asleep s) (fun s h => h.not_asleep)
    (fun s act s' h hshares hs => h.step hshares hs) hstart hg

-- One thread reads the events of two files while the other one reads a third, and
-- pushes the second, which the other takes when it comes again.
def bothRead : List Act :=
  [.enter 0 {}, .enter 1 {}, .arrive created, .arrive opened, .read 0 none, .arrive created, .read 1 none,
   .resume 0 none {} false, .resume 1 none {} false, .enter 1 {}]

theorem awake_both :
    (runEvents (Sys.step 64) (Sys.start false [Tls.Thread.start, Tls.Thread.start]) bothRead).map
    (·.returned) =
      some [created.event, created.event, opened.event] ∧
    Visits (Sys.step 64) (fun s => ¬Asleep s)
      (Sys.start false [Tls.Thread.start, Tls.Thread.start]) bothRead :=
  ⟨by decide, awake 64 false _ bothRead (by decide)⟩

-- Two threads wait in read(2), and one of them gets the two events there are.
theorem sleeps :
    ∃ s, runEvents (Sys.step 64) (Sys.start false [Tls.Thread.start, Tls.Thread.start])
        [.enter 0 {}, .enter 1 {}, .arrive created, .arrive opened, .read 0 none,
          .resume 0 none {} false] = some s ∧
      s.returned = [created.event] ∧ s.tmp = [opened.event] ∧ Asleep s :=
  ⟨_, rfl, by decide, by decide, by decide⟩

end SleepyPenguin.Inotify
