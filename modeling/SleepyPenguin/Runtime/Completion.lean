import SleepyPenguin.Runtime.Schedule

-- What Epoll and Kqueue write alike finds its IOs and gives `@mtx` back, and so
-- every call comes to its end.
namespace SleepyPenguin.Schedule

open Foundation Foundation.Prog

section Shared

variable {t m : Nat} {held : Bool} {α : Type} {P : Sys → Prop} {retire reinit : Nat → Method Unit}

theorem getIo_made (hP : Stable P) : Triple t m held P (.perform (.getIo m)) fun io s => P s ∧
    Made io s := by
  refine triple_perform hP (allowed_anywhere rfl) (fun _ _ hm _ => hm) fun s step hb _ hp _ hstep => ?_
  obtain ⟨member, hm, rfl⟩ := Option.map_eq_some_iff.mp hstep
  exact ⟨hp, hb.member member (List.mem_of_getElem? hm)⟩

theorem dup_made {io : Nat} (hP : Stable P) (hmade : ∀ s, P s → Made io s) :
    Triple t m held P (.attempt (.dup io)) fun ioDup s => P s ∧ Made ioDup s := by
  refine triple_attempt hP (allowed_anywhere rfl) (fun s _ _ hp => hmade s hp) ?_
  intro s value s' _ _ hp _ hstep
  obtain ⟨x, _, hdup⟩ := Option.map_eq_some_iff.mp hstep
  refine ⟨hp, ?_⟩
  cases hc : x.closed with
  | true =>
      rw [s.dup_closed hc] at hdup
      cases hdup
  | false =>
      rcases s.dup_open hc with ⟨errno, _, hfail⟩ | ⟨_, hok⟩
      · rw [hfail] at hdup
        cases hdup
      · rw [hok] at hdup
        cases hdup
        simp [Made]

theorem create_made (hP : Stable P) :
    Triple t m held P (.perform .create) fun made s => P s ∧ ∀ io, made = .ok io → Made io s := by
  refine triple_perform hP (allowed_anywhere rfl) (fun _ _ _ _ => trivial) fun s step _ _ hp _ hstep => ?_
  refine ⟨hp, fun io hio => ?_⟩
  cases hstep
  rcases s.create_cases with ⟨errno, _, hcreate⟩ | ⟨_, hcreate⟩
  · rw [hcreate] at hio
    cases hio
  · rw [hcreate] at hio ⊢
    cases hio
    simp [Made]

theorem getCopies_keyed (hP : Stable P) :
    Triple t m held P (.perform .getCopies) fun copies s => P s ∧ Keyed copies s := by
  refine triple_perform hP (allowed_anywhere rfl) (fun _ _ _ _ => trivial) fun s step hb _ hp _ hstep => ?_
  cases hstep
  exact ⟨hp, hb.key⟩

-- `@copies[io] = obj` under `@mtx`.
theorem insert_ready {io obj : Nat} (hP : Stable P) (hmade : ∀ s, P s → Made io s) :
    Triple t m true P (.perform .getCopies >>= fun copies =>
      .perform (.setCopies (Shared.copiesInsert copies io obj))) fun _ => P := by
  refine triple_bind (getCopies_keyed hP) fun copies => ?_
  refine triple_mono (perform_keeps (hP.and (stable_keyed copies)) rfl fun s _ _ hs pair hpair => ?_)
    (fun _ h => h) fun _ _ h => h.1
  rcases Shared.key_of_mem_copiesInsert hpair with hold | hnew
  · exact hs.2 pair hold
  · exact hnew ▸ hmade s hs.1

theorem listDuplicates_ready (objects : List Nat) :
    Triple t m true (fun _ => True) (Shared.listDuplicates m objects) fun _ _ => True := by
  refine triple_each fun obj _ => ?_
  refine triple_bind (getIo_made stable_true) fun io => ?_
  refine triple_bind (dup_made (stable_true.and (stable_made io)) fun _ h => h.2) fun ioDup => ?_
  exact triple_mono (insert_ready (stable_made ioDup) fun _ h => h) (fun _ h => h.2) fun _ _ _ => trivial

-- What the check does with the old keys and how it gets a new instance.
structure Parts (t m : Nat) (retire reinit : Nat → Method Unit) : Prop where
  retire : ∀ (P : Sys → Prop) (io : Nat), Stable P → (∀ s, P s → Made io s) →
    Triple t m true P (retire io) fun _ => P
  reinit : Triple t m true (fun _ => True) (reinit m) fun _ _ => True

theorem check_ready (h : Parts t m retire reinit) :
    Triple t m true (fun _ => True) (Shared.check retire reinit m) fun _ _ => True := by
  have hany : ∀ {β : Type} {P : Sys → Prop} {program : Method β},
      Triple t m true (fun _ => True) program (fun _ _ => True) →
      Triple t m true P program fun _ _ => True :=
    fun h => triple_mono h (fun _ _ => trivial) fun _ _ h => h
  refine triple_bind (perform_keeps stable_true rfl fun _ _ hm _ => hm) fun pid => ?_
  refine triple_bind (perform_keeps stable_true rfl fun _ _ _ _ => trivial) fun self => ?_
  split
  · exact triple_pure fun _ _ => trivial
  · refine triple_bind (getIo_made stable_true) fun io => ?_
    refine triple_bind (perform_keeps (stable_true.and (stable_made io)) rfl fun _ _ _ hs => hs.2)
      fun closed => ?_
    split
    · exact triple_pure fun _ _ => trivial
    · refine triple_bind (M := fun copies => Keyed copies) ?_ fun copies => ?_
      · exact triple_mono (getCopies_keyed stable_true) (fun _ _ => trivial) fun _ _ h => h.2
      refine triple_bind (M := fun _ => Keyed copies) (triple_each fun io hio => ?_) fun _ => ?_
      · obtain ⟨pair, hpair, rfl⟩ := List.mem_map.mp hio
        exact h.retire _ _ (stable_keyed copies) fun s hs => hs pair hpair
      refine triple_bind (hany (perform_keeps stable_true rfl fun _ _ _ _ => ?_)) fun _ => ?_
      · exact fun _ hpair => absurd hpair List.not_mem_nil
      refine triple_bind h.reinit fun _ => ?_
      refine triple_bind (listDuplicates_ready _) fun _ => ?_
      refine triple_bind (perform_keeps stable_true rfl fun _ _ _ _ => trivial) fun now => ?_
      exact perform_keeps stable_true rfl fun _ _ hm _ => hm

theorem initializeCopy_ready {check : Nat → Method Unit}
    (hcheck : Triple t m true (fun _ => True) (check m) fun _ _ => True) :
    Triple t m false (fun _ => True) (Shared.initializeCopy check m) fun _ _ => True := by
  refine triple_synchronize stable_true (fun _ => stable_true) ?_
  refine triple_bind hcheck fun _ => ?_
  refine triple_bind (getIo_made stable_true) fun io => ?_
  have hio := stable_true.and (stable_made io)
  refine triple_bind (perform_keeps hio rfl fun _ _ _ hs => hs.2) fun closed => ?_
  split
  · exact triple_pure fun _ _ => trivial
  · refine triple_bind (dup_made hio fun _ h => h.2) fun ioDup => ?_
    have hdup := hio.and (stable_made ioDup)
    refine triple_bind (perform_keeps hdup rfl fun _ _ hm hs => ⟨hm, hs.2⟩) fun _ => ?_
    exact triple_mono (insert_ready hdup fun _ h => h.2) (fun _ h => h) fun _ _ _ => trivial

-- The copy is a member of its own from the start.
theorem dup_ready {check : Nat → Method Unit}
    (hcheck : ∀ copy, Triple t copy true (fun _ => True) (check copy) fun _ _ => True) :
    Triple t m false (fun _ => True) (Shared.dup check m) fun _ _ => True := by
  refine spec_bind (M := fun copy s => Ready t copy false s ∧ m < copy) ?_ fun copy => ?_
  · intro s ⟨hready, _⟩
    rw [along_perform]
    intro s' hr
    have hready' := hready.rely hr
    refine ⟨hready'.guard hready'.listed nofun nofun, fun step hstep => ?_⟩
    obtain ⟨member, _, rfl⟩ := Option.map_eq_some_iff.mp hstep
    exact ⟨⟨by simp, hready'.mutex⟩, hready'.listed⟩
  · intro s ⟨hready, hlt⟩
    have hback : ∀ s', Ready t copy false s' → Ready t m false s' :=
      fun s' h => ⟨Nat.lt_trans hlt h.listed, h.mutex⟩
    have hinit := initializeCopy_ready (hcheck copy)
    have hprogram : Triple t copy false (fun _ => True)
        (Prog.rescue (Shared.initializeCopy check copy) (fun e => do
          .perform .discard
          .raise e) >>= fun _ => Pure.pure copy) fun _ _ => True := by
      refine triple_bind (triple_rescue hinit fun e => ?_) fun _ => triple_pure fun _ _ => trivial
      exact triple_bind (perform_keeps stable_true rfl fun _ _ _ _ => trivial) fun _ => triple_raise
    exact along_mono (hprogram s ⟨hready, trivial⟩) (fun _ s' h => ⟨hback s' h.1, trivial⟩)
      fun _ s' h => hback s' h

theorem close_ready : Triple t m false (fun _ => True) (Shared.close m) fun _ _ => True := by
  refine triple_synchronize stable_true (fun _ => stable_true) ?_
  refine triple_bind (getIo_made stable_true) fun io => ?_
  have hio := stable_true.and (stable_made io)
  refine triple_bind (getCopies_keyed hio) fun copies => ?_
  have hcopies := hio.and (stable_keyed copies)
  refine triple_bind (perform_keeps hcopies rfl fun s _ _ hs pair hpair => ?_) fun _ => ?_
  · exact hs.2 pair (List.mem_of_mem_filter hpair)
  · exact triple_mono (attempt_keeps hcopies rfl fun _ _ _ hs => hs.1.2) (fun _ h => h) fun _ _ _ => trivial

theorem closedP_ready : Triple t m false (fun _ => True) (Shared.closedP m) fun _ _ => True := by
  refine triple_synchronize stable_true (fun _ => stable_true) ?_
  refine triple_bind (getIo_made stable_true) fun io => ?_
  exact triple_mono (perform_keeps (stable_true.and (stable_made io)) rfl fun _ _ _ hs => hs.2)
    (fun _ h => h) fun _ _ _ => trivial

-- A wait yields as many events as it has buffered.
theorem yields_ready (n : Nat) :
    Spec (perform t) (fun _ _ => Rely t) (Guard t)
      (fun s => Ready t m false s ∧ (s.frames t).buf.length = n)
      (.replicate n (.attempt .yieldNext) : Method Unit) (fun _ s => Ready t m false s)
      fun _ s => Ready t m false s := by
  intro s hs
  refine along_mono (along_replicate (fun n s => Ready t m false s ∧ (s.frames t).buf.length = n) hs ?_)
    (fun _ _ h => h.1) fun _ _ h => h
  intro n s ⟨hready, hlength⟩
  rw [along_attempt]
  intro s' hr
  have hready' := hready.rely hr
  have hbuf : (s'.frames t).buf.length = n + 1 := by rw [hr.frame, hlength]
  have hrefers : Refers t _ s' .yieldNext := fun hnil => by rw [hnil] at hbuf; cases hbuf
  refine ⟨hready'.guard hrefers nofun (fun _ => rfl), fun step hstep => ?_⟩
  have he := perform_effect hr.base hrefers rfl hstep
  have hafter := hready'.grows he.toGrows he.mutex
  obtain ⟨outcome, s''⟩ := step
  cases outcome with
  | error e => exact hafter
  | ok _ =>
      refine ⟨hafter, ?_⟩
      simp only [perform, exec, Sys.yieldNext] at hstep
      split at hstep
      · cases hstep
      · rename_i event rest hcons
        split at hstep
        · cases hstep
        · cases hstep
          simp only [hcons, List.length_cons] at hbuf
          simp only [Function.update_self]
          omega

theorem poll_ready {command : Cmd (Except Err Nat)} (hP : Stable P)
    (hallowed : allowed false command = true)
    (hrefers : ∀ s, Base s → m < s.family.members.length → P s → Refers t _ s command)
    (hfills : ∀ s n s', perform t _ s command = some (.ok n, s') → (s'.frames t).buf.length = n) :
    Triple t m false P
      (Prog.ensure
        (do
          let n ← .attempt command
          .replicate n (.attempt .yieldNext)
          Pure.pure n)
        (.perform .putBuf)) fun _ _ => True := by
  have hput : ∀ (post : Sys → Prop), (∀ s, Ready t m false s → post s) →
      Spec (perform t) (fun _ _ => Rely t) (Guard t) (Ready t m false) (.perform .putBuf : Method Unit)
        (fun _ => post) fun _ => Ready t m false := by
    intro post hpost s hready
    have hkeep : Triple t m false (fun _ => True) (.perform .putBuf) fun _ _ => True :=
      perform_keeps stable_true rfl fun _ _ _ _ => trivial
    exact along_mono (hkeep s ⟨hready, trivial⟩) (fun _ s' h => hpost s' h.1) fun _ _ h => h
  refine spec_ensure (Q := fun _ => Ready t m false) (R := fun _ => Ready t m false) ?_
    (fun _ => hput _ fun _ h => ⟨h, trivial⟩) fun _ => hput _ fun _ h => h
  refine spec_bind (M := fun n s => Ready t m false s ∧ (s.frames t).buf.length = n) ?_ fun n => ?_
  · have hfilled : Triple t m false P (.attempt command) fun n s => (s.frames t).buf.length = n :=
      triple_attempt hP hallowed hrefers fun s n s' _ _ _ _ hstep => hfills s n s' hstep
    exact hfilled
  · exact spec_bind (yields_ready n) fun _ => spec_pure fun _ h => h

end Shared

section Run

variable {Op Ret : Type} {w w' : World Ret}

-- A call that has ended does not hold `@mtx`.
structure Sound (w : World Ret) : Prop where
  base : Base w.sys
  calls : Ensured perform (fun i _ _ => Rely i) Guard (fun i s => s.family.mutex ≠ some i) w.calls w.sys
  owner : ∀ i, w.sys.family.mutex = some i → i < w.calls.length

theorem rely_trans : ∀ (j : Nat) (β : Type) (_ : Cmd β) (a b c : Sys), Rely j a b → Rely j b c →
    Rely j a c :=
  fun _ _ _ _ _ _ h h' => h.trans h'

-- A step of the outside, or the outcomes that a command is given.
theorem Sound.rely {sys : Sys} (h : Sound w) (hr : ∀ j, Rely j w.sys sys) :
    Sound { w with sys := sys } := by
  refine ⟨(hr 0).base, h.calls.later rely_trans (fun j hj => ?_) fun j _ _ => hr j, fun i hi => ?_⟩
  · exact fun hmutex => hj ((hr j).mutex.mp hmutex)
  · exact h.owner i ((hr i).mutex.mp hi)

theorem Sound.given (h : Sound w) (oracle : Oracle) : Sound { w with sys.oracle := oracle } :=
  h.rely fun _ => ⟨⟨⟨h.base.handle, h.base.member, h.base.key⟩, Nat.le_refl _, Nat.le_refl _⟩, Iff.rfl, rfl⟩

theorem Sound.orderly (h : Sound w) : Orderly w :=
  fun i _ _ _ hi => (h.calls.guarded hi (.refl i h.base)).2

theorem start_sound (pid : Pid) (objects : Objects) : Sound (start pid objects : World Ret) := by
  refine ⟨⟨?_, ?_, ?_⟩, fun i call hi => ?_, fun i hi => ?_⟩
  · simp [start, opened]
  · simp [start, opened]
  · simp [start, opened]
  · cases hi
  · cases hi

variable [Inhabited Ret] {api : Lineage.Interface Op Ret}

theorem begin_sound {m : Nat} {op : Op}
    (hmethod : ∀ t m op, Triple t m false (fun _ => True) (api.method m op) fun _ _ => True)
    (h : Sound w) (hs : step api w (.begin m op) = some w') : Sound w' := by
  obtain ⟨hm, hs⟩ := Option.ite_none_right_eq_some.mp hs
  obtain rfl := Option.some.inj hs
  have hfree : w.sys.family.mutex ≠ some w.calls.length :=
    fun hmutex => Nat.lt_irrefl _ (h.owner _ hmutex)
  have hready : Ready w.calls.length m false w.sys := ⟨hm, by simp [hfree]⟩
  refine ⟨h.base, h.calls.concat ?_, fun i hi => ?_⟩
  · refine along_mono (hmethod w.calls.length m op w.sys ⟨hready, trivial⟩) ?_ ?_
    · exact fun _ s hs hmutex => by cases hs.1.mutex.mpr hmutex
    · exact fun _ s hs hmutex => by cases hs.mutex.mpr hmutex
  · rw [List.length_append]
    exact Nat.lt_add_right _ (h.owner i hi)

theorem perform_sound {i : Nat} {oracle : Oracle} (h : Sound w)
    (hs : step api w (.perform i oracle) = some w') : Sound w' := by
  obtain ⟨⟨calls, s⟩, ha, rfl⟩ := Option.map_eq_some_iff.mp hs
  obtain ⟨β, command, rest, answer, hget, hstep, rfl⟩ := advance_cases ha
  obtain ⟨hbase, hcalls, howner⟩ := h.given oracle
  have hself := Rely.refl i hbase
  have hguard := hcalls.guarded hget hself
  have hothers : ∀ j, j ≠ i → Rely j { w.sys with oracle := oracle } s :=
    fun j hj => perform_rely hbase hguard hj hstep
  have hgrown : Base s := (hothers (i + 1) (Nat.succ_ne_self i)).base
  refine ⟨hgrown, hcalls.advance rely_trans hget hself hstep fun j hj => ⟨fun hne hmutex => ?_, ?_⟩,
    fun j hj => ?_⟩
  · exact hne ((hothers j hj).mutex.mp hmutex)
  · exact fun _ _ => hothers j hj
  · rw [List.length_set]
    by_cases heq : j = i
    · exact heq ▸ (List.getElem?_eq_some_iff.mp hget).1
    · exact howner j ((hothers j heq).mutex.mp hj)

theorem outside_sound (h : Sound w) (hs : Outside api w w') : Sound w' ∧ w'.calls = w.calls := by
  rcases hs with ⟨fd, hs⟩ | ⟨io, hs⟩
  · obtain ⟨sys, ho, rfl⟩ := Option.map_eq_some_iff.mp hs
    obtain ⟨_, ho⟩ := Option.ite_none_right_eq_some.mp ho
    obtain rfl := Option.some.inj ho
    exact ⟨h.rely fun j => ⟨⟨h.base.of_same rfl rfl rfl rfl, Nat.le_refl _, Nat.le_refl _⟩,
      Iff.rfl, rfl⟩, rfl⟩
  · obtain ⟨sys, ho, rfl⟩ := Option.map_eq_some_iff.mp hs
    obtain ⟨fd, _, rfl⟩ := Option.map_eq_some_iff.mp ho
    refine ⟨h.rely fun j => ⟨⟨h.base.of_same rfl rfl rfl ?_, Nat.le_refl _, Nat.le_refl _⟩,
      Iff.rfl, rfl⟩, rfl⟩
    exact List.length_map _

-- A block does not run with `@mtx` held, so that in a child the calls that go
-- on do not hold it either.
theorem fork_sound {pid : Pid} {kept : Nat → Bool} (h : Sound w) : Sound (child w pid kept) := by
  refine ⟨⟨h.base.handle, h.base.member, h.base.key⟩, fun i call hi => ?_, fun i hi => by cases hi⟩
  obtain ⟨old, hold, rfl⟩ := Option.map_eq_some_iff.mp (List.getElem?_mapIdx.symm.trans hi)
  by_cases hkept : (kept i && yielding old) = true
  · rw [if_pos hkept]
    obtain ⟨_, hyielding⟩ := Bool.and_eq_true_iff.mp hkept
    cases old with
    | pure value => cases hyielding
    | raise error => cases hyielding
    | cmd command rest =>
        have hguard := h.calls.guarded hold (.refl i h.base)
        have hfree : w.sys.family.mutex ≠ some i := by
          apply hguard.2.2
          cases command with
          | yieldNext | putBuf => rfl
          | _ => cases hyielding
        refine along_later (rely_trans i) (h.calls i _ hold) (fun _ => nofun) fun β other => ?_
        refine ⟨⟨⟨h.base.handle, h.base.member, h.base.key⟩, Nat.le_refl _, Nat.le_refl _⟩, ?_, rfl⟩
        simp [child, hfree]
  · rw [if_neg hkept]
    exact fun hmutex => by cases hmutex

theorem step_sound {label : Label Op}
    (hmethod : ∀ t m op, Triple t m false (fun _ => True) (api.method m op) fun _ _ => True)
    (h : Sound w) (hs : step api w label = some w') : Sound w' := by
  cases label with
  | begin m op => exact begin_sound hmethod h hs
  | perform i oracle => exact perform_sound h hs
  | openIo fd => exact (outside_sound h (Or.inl ⟨fd, hs⟩)).1
  | closeIo io => exact (outside_sound h (Or.inr ⟨io, hs⟩)).1
  | fork pid kept =>
      obtain rfl := Option.some.inj hs
      exact fork_sound h

-- Whoever holds `@mtx` has a next command, and it is enabled.
theorem Sound.progress (h : Sound w) : Over w ∨ ∃ w', Performs api w w' := by
  have hnext : ∀ {i : Nat} {β : Type} {command : Cmd β} {rest : β → Method Ret},
      w.calls[i]? = some (.cmd command rest) → (waits command = true → w.sys.family.mutex = none) →
      ∃ w', Performs api w w' := by
    intro i β command rest hi hfree
    have hguard := h.calls.guarded hi (.refl i h.base)
    obtain ⟨step, hstep⟩ := perform_enabled h.base hguard hfree
    refine ⟨⟨step.2, w.calls.set i (rest step.1)⟩, i, w.sys.oracle, ?_⟩
    refine Option.map_eq_some_iff.mpr ⟨(w.calls.set i (rest step.1), step.2), ?_, rfl⟩
    unfold advance
    rw [hi]
    exact Option.map_eq_some_iff.mpr ⟨step, hstep, rfl⟩
  cases hmutex : w.sys.family.mutex with
  | some i =>
      have howner := h.owner i hmutex
      have hi := List.getElem?_eq_getElem howner
      cases hcall : w.calls[i] with
      | cmd command rest =>
          refine Or.inr (hnext (hcall ▸ hi) fun hwaits => ?_)
          exact absurd hmutex ((h.calls.guarded (hcall ▸ hi) (.refl i h.base)).2.2 hwaits)
      | pure value => exact absurd hmutex (h.calls.ended (hcall ▸ hi) rfl)
      | raise error => exact absurd hmutex (h.calls.ended (hcall ▸ hi) rfl)
  | none =>
      by_cases hover : Over w
      · exact Or.inl hover
      · simp only [Over, not_forall] at hover
        obtain ⟨call, hmem, hcall⟩ := hover
        obtain ⟨i, hi⟩ := List.getElem?_of_mem hmem
        cases call with
        | cmd command rest => exact Or.inr (hnext hi fun _ => hmutex)
        | pure value => exact absurd rfl hcall
        | raise error => exact absurd rfl hcall

theorem Sound.completes (h : Sound w) : Completes (Performs api) (Outside api) Over w := by
  refine completes_of_lowers remains_wellFounded.cutExpand
    (fun w => (w.calls : Multiset (Method Ret))) Sound
    (fun _ h => h.progress) ?_ ?_ h
  · rintro w w' h ⟨i, oracle, hs⟩
    refine ⟨perform_sound h hs, ?_⟩
    obtain ⟨⟨calls, s⟩, ha, rfl⟩ := Option.map_eq_some_iff.mp hs
    exact advance_lowers ha
  · intro w w' h hs
    obtain ⟨hsound, hcalls⟩ := outside_sound h hs
    exact ⟨hsound, by rw [hcalls]⟩

theorem visits_completes
    (hmethod : ∀ t m op, Triple t m false (fun _ => True) (api.method m op) fun _ _ => True) (pid : Pid)
    (objects : Objects) (labels : List (Label Op)) :
    Visits (step api) (fun w => Orderly w ∧ Completes (Performs api) (Outside api) Over w)
      (start pid objects) labels := by
  have hg : Guarded (step api) (fun _ _ => True) (start pid objects) labels :=
    guarded_of_forall (fun _ _ => trivial) _
  exact visits_of_guarded Sound _ (fun _ h => ⟨h.orderly, h.completes⟩)
    (fun _ _ _ h _ hs => step_sound hmethod h hs) (start_sound pid objects) hg

end Run

end SleepyPenguin.Schedule
