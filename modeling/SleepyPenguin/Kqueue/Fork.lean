import SleepyPenguin.Runtime.Lineage
import SleepyPenguin.Kqueue.Effects

-- A family of Kqueue objects in a child process.
namespace SleepyPenguin.Kqueue.Fork

open Foundation Foundation.Prog

section Reinit

variable {t m : Nat} {member : Member} {x : Handle} {s : Sys} {fail : Err → Sys → Prop}

theorem kqReinit_renewed (hm : s.family.members[m]? = some member)
    (h : Creates (fun _ => true) s.oracle) :
    wp (exec t) (fun _ s' => Renewed m member s s') fail (kqReinit m) s := by
  simp only [kqReinit, sNew, wp_monad_bind, wp_create]
  rcases s.create_cases with ⟨errno, hfirst, hcreate⟩ | ⟨_, hcreate⟩
  · rw [hcreate]
    simp only [wp_monad_bind, wp_create]
    rcases Sys.create_cases { s with oracle.creates := s.oracle.creates.tail } with
      ⟨second, hsecond, _⟩ | ⟨_, hagain⟩
    · cases hsecond.symm.trans (h errno hfirst).2
    · rw [hagain]
      simp only [wp_monad_pure, wp_setIo]
      exact ⟨member, hm, rfl, rfl, rfl, rfl, rfl, rfl, rfl, rfl⟩
  · rw [hcreate]
    simp only [wp_monad_pure, wp_setIo]
    exact ⟨member, hm, rfl, rfl, rfl, rfl, rfl, rfl, rfl, rfl⟩

-- The old keys are left open, so that each of them can be told.
theorem autocloseOff_retired (hkey : KeysOpen s.family.copies s.family.handles) :
    wp (exec t) (fun _ s' => Retired s s') fail
      (each (s.family.copies.map Prod.fst) fun io => attempt (.autocloseOff io)) s := by
  refine wp_mono (wp_each (fun q => Retired s q ∧ KeysOpen s.family.copies q.family.handles)
    ⟨Retired.refl s, hkey⟩ ?_) (fun _ _ h => h.1) (fun _ _ hf => hf)
  intro io hio q ⟨hq, hopen⟩
  obtain ⟨pair, hpair, rfl⟩ := List.mem_map.mp hio
  obtain ⟨y, hy, hc⟩ := hopen pair hpair
  obtain ⟨q', hoff, hr, hhandles⟩ := Retired.autocloseOff hy hc
  rw [wp_autocloseOff]
  refine ⟨y, hy, ?_⟩
  rw [hoff]
  refine ⟨hq.trans hr, fun other ho => ?_⟩
  obtain ⟨z, hz, hzc⟩ := hopen other ho
  rw [hhandles, List.getElem?_set]
  split
  · rename_i heq
    have hlt := (List.getElem?_eq_some_iff.mp hy).1
    exact ⟨{ y with autoclose := false }, by simp [hlt], hc⟩
  · exact ⟨z, hz, hzc⟩

-- The first use of a family by its only open member.
theorem kqCheck_reinit (hopen : OpenAs s m member x) (hpid : member.pid ≠ s.self)
    (hkey : KeysOpen s.family.copies s.family.handles) (hcreates : Creates (fun _ => true) s.oracle) :
    wp (exec t) (fun _ s' => Reinited s m s.self s') (fun _ s' => Reinited s m member.pid s')
      (kqCheck m) s := by
  refine wp_mono (wp_check_reinit (fun _ _ => True) hopen hpid (autocloseOff_retired hkey) ?_)
    (fun _ _ h => h.1) (fun _ _ h => h.1)
  intro q hq hc
  have hcreates' : Creates (fun _ => true) q.oracle := by
    unfold Creates
    rw [hc]
    exact hcreates
  exact wp_mono (kqReinit_renewed hq hcreates') (fun _ _ h => ⟨h, trivial⟩) (fun _ _ hf => hf)

end Reinit

-- The family works on the kqueue `e`.
def Fair (s : Sys) (e : Nat) : Prop := ∀ m member x, OpenAs s m member x → x.inst = e

abbrev Used (m : Nat) (s s' : Sys) : Prop := Lineage.Used (fun _ => True) Settled Fair m s s'

theorem Used.of_passed {closing : Prop} {m e : Nat} {s s' s'' : Sys} (hself : s'.self = s.self)
    (hs : Settled s' e) (hcreator : (creators s')[e]? = some s.self) (hopen : OpenAt s' m)
    (hp : Passed closing m s' s'') (hc : ¬closing) : Used m s s'' := by
  obtain ⟨member, x, hopen⟩ := hopen
  refine ⟨hp.moved.self.trans hself, ?_, e, hp.creators.symm ▸ hcreator, Or.inl (hp.settled hs)⟩
  exact ⟨member, x, hp.moved.kept m member x hopen fun h => absurd h hc⟩

theorem spared_of_passed {closing : Prop} {m : Nat} {s s' : Sys} (h : Passed closing m s s') :
    Lineage.Spared (fun _ => True) Fair closing m s s' := by
  refine ⟨h.moved, h.creators, fun _ => trivial, fun e hf k new y ho => ?_⟩
  obtain ⟨k', old, y', hold, _, hinst⟩ := h.moved.origin k new y ho
  exact hinst.trans (hf k' old y' hold)

section FirstUse

variable {t m : Nat} {member : Member} {x : Handle} {s s₁ : Sys} {op : Op}

theorem used_of_renewed (h : Reinited s m s.self s₁) (hs : Wired s)
    (hm : m < s.family.members.length) (hsole : ∀ k, OpenAt s k → k = m) : Used m s s₁ :=
  ⟨h.self, ⟨_, _, h.openAs hm⟩, _, h.creator, Or.inl (h.settled hs hsole)⟩

-- A check that could not list the duplicates leaves its member outdated.
theorem used_of_outdated (h : Reinited s m member.pid s₁) (hs : Wired s)
    (hm : m < s.family.members.length) (hpid : member.pid ≠ s.self)
    (hsole : ∀ k, OpenAt s k → k = m) : Used m s s₁ := by
  refine ⟨h.self, ⟨_, _, h.openAs hm⟩, _, h.creator,
    Or.inr ⟨h.wired hs hsole, trivial, fun k old y hk => ?_, fun k old y hk => ?_⟩⟩
  · obtain ⟨_, rfl, _⟩ := h.only hs hsole hk
    rw [h.self]
    exact hpid
  · obtain ⟨_, _, rfl⟩ := h.only hs hsole hk
    rfl

theorem first_use (hs : Wired s) (hopen : OpenAs s m member x) (hpid : member.pid ≠ s.self)
    (hsole : ∀ k, OpenAt s k → k = m) (hreach : reaches op = true) (hdup : duplicates op = false)
    (hcreates : Creates (fun _ => true) s.oracle) :
    wp (exec t) (fun _ s' => Used m s s') (fun _ s' => Used m s s') (method m op) s := by
  have hm : m < s.family.members.length := (List.getElem?_eq_some_iff.mp hopen.1).1
  have hcheck : wp (exec t) (fun _ s₁ => Reinited (s.withMutex (some t)) m s.self s₁)
      (fun _ s' => Used m s (s'.withMutex none)) (kqCheck m) (s.withMutex (some t)) := by
    refine wp_mono (kqCheck_reinit hopen hpid hs.key hcreates) (fun _ _ h => h) fun _ s₁ h₁ => ?_
    exact used_of_outdated (h₁.of_lock hs.idle) hs hm hpid hsole
  cases op with
  | close | closedP => cases hreach
  | dup | clone => cases hdup
  | toIo =>
      simp only [method, toIo, wp_synchronize, wp_monad_bind, wp_getIo, wp_monad_pure]
      refine ⟨hs.idle, wp_mono hcheck (fun _ s₁ h₁ => ?_) fun _ _ hf => hf⟩
      exact ⟨_, (h₁.openAs hm).1, used_of_renewed (h₁.of_lock hs.idle) hs hm hsole⟩
  | kevent changelist nevents block =>
      rw [method, kevent, wp_monad_bind, wp_synchronize]
      refine ⟨hs.idle, wp_mono hcheck (fun _ s₁ h₁ => ?_) fun _ _ hf => hf⟩
      have hr := h₁.of_lock hs.idle
      have hw := hr.wired hs hsole
      obtain ⟨hlisted, hhandle, hc⟩ := hr.openAs hm
      have hused : ∀ s' x changes, Polled x changes (s₁.withMutex none) s' → Used m s s' :=
        fun s' x changes h => Used.of_passed hr.self (hr.settled hs hsole) hr.creator
          ⟨_, _, hlisted, hhandle, hc⟩ (show Passed False m _ _ from .of_polled h hw) id
      refine wp_mono (wp_kevent_rest hlisted hhandle changelist nevents block) ?_ ?_
      · intro _ s' hs'
        obtain ⟨_, _, hpolled⟩ := hs'
        exact hused s' _ _ hpolled
      · intro _ s' hs'
        obtain ⟨_, hpolled⟩ := hs'
        exact hused s' _ _ hpolled

end FirstUse

-- Kqueue as a class of objects with a fork check.
def api : Lineage.Interface Op Ret where
  method := method
  reaches _ op := reaches op
  closes := closes
  duplicates := duplicates
  steady _ := True
  renews := Creates fun _ => true

section Laws

variable {s : Sys} {m : Nat} {op : Op} {oracle : Oracle} {result : Except Err Ret × Sys}

-- The outcomes that a call is given are no part of what it leaves behind.
theorem passed_of_call {closing : Prop} {s' : Sys} (h : Passed closing m { s with oracle := oracle } s') :
    Passed closing m s s' :=
  ⟨⟨h.moved.self, h.moved.wired, h.moved.kept, h.moved.origin⟩, h.creators, h.objects⟩

theorem call_passes {member : Member} {x : Handle} (hs : Wired s) (hp : Passes s m member x)
    (hr : (method m op).call oracle s = some result) : Passed (closes op = true) m s result.2 := by
  have hpasses : Passes { s with oracle := oracle } m member x := ⟨hp.listed, hp.handle, hp.pass⟩
  exact passed_of_call (ends_same (wp_of_run (method_passed hpasses (hs.of_oracle oracle) op) hr))

theorem call_closed (hs : Wired s) (hm : m < s.family.members.length) (hclosed : ¬OpenAt s m)
    (hr : (method m op).call oracle s = some result) : Passed (closes op = true) m s result.2 := by
  obtain ⟨member, x, hget, hx, _⟩ := hs.handle_of_member hm
  have hxc : x.closed = true := by
    cases hxc : x.closed with
    | true => rfl
    | false => exact absurd ⟨member, x, hget, hx, hxc⟩ hclosed
  exact call_passes hs ⟨hget, hx, Or.inr hxc⟩ hr

theorem call_short (hs : Wired s) (hm : m < s.family.members.length) (hreach : reaches op = false)
    (hr : (method m op).call oracle s = some result) : Passed (closes op = true) m s result.2 := by
  obtain ⟨member, x, hget, hx, _⟩ := hs.handle_of_member hm
  have hw := hs.of_oracle oracle
  cases op with
  | close => exact passed_of_call (ends_same (wp_of_run (close_passed hw rfl hget hx) hr))
  | closedP => exact passed_of_call (ends_same (wp_of_run (closedP_passed hw hget hx) hr))
  | toIo | kevent | dup | clone => cases hreach

theorem laws : Lineage.Laws api (fun _ => True) Settled Fair where
  settled s e h := ⟨h, trivial, fun m member x hk => (h.shared m member x hk).2⟩
  onGood s e m op oracle result h _ hm hr := by
    obtain ⟨member, x, _, hp, _⟩ := h.current hm
    have hpassed := call_passes h.toWired hp hr
    exact ⟨hpassed.settled h, hpassed.creators, hpassed.moved⟩
  onClosed s m op oracle result hw hm hclosed hr := spared_of_passed (call_closed hw hm hclosed hr)
  short s m op oracle result hw _ hm hreach hr := spared_of_passed (call_short hw hm hreach hr)
  first s m op oracle member x result hw _ _ hopen hpid hsole hreach hdup hok hr := by
    have hused := first_use (t := 0) (s := { s with oracle := oracle }) (hw.of_oracle oracle) hopen hpid
      hsole hreach hdup hok
    have hlast : Used m { s with oracle := oracle } result.2 := ends_same (wp_of_run hused hr)
    refine ⟨?_, hlast.self, hlast.openAt, hlast.shared⟩
    cases op with
    | close => cases hreach
    | _ => rfl

end Laws

-- The changes sent so far to the kqueue of member `m`.
def submitted (s : Sys) (m : Nat) : List Kevent :=
  (do
    let member ← s.family.members[m]?
    let x ← s.family.handles[member.io]?
    let inst ← s.kernel.insts[x.inst]?
    pure inst.changes).getD []

theorem submitted_of_openAs {s : Sys} {m : Nat} {member : Member} {x : Handle}
    (h : OpenAs s m member x) : submitted s m = ((s.kernel.insts[x.inst]?).map (·.changes)).getD [] := by
  unfold submitted
  rw [h.1, Option.bind_eq_bind, Option.bind_some, h.2.1, Option.bind_eq_bind, Option.bind_some]
  cases s.kernel.insts[x.inst]? <;> rfl

-- Whoever was open at the fork and has not been closed since is open, and
-- the open members refer to one kqueue of this process, the one that was
-- there after the first use; what is registered through one of them is
-- registered with the others.
structure Survived (l : Lineage.State) : Prop where
  openAt : ∀ m, OpenAt l.forked m → m ∉ l.closed → OpenAt l.sys m
  shared : (∃ m, OpenAt l.sys m) → ∃ e, (creators l.sys)[e]? = some l.sys.self ∧
    (∀ m member x, OpenAs l.sys m member x → x.inst = e) ∧ Lineage.Lasting l.used e
  seen : ∀ m m' member x changelist nevents block oracle ret s', OpenAs l.sys m member x →
    member.pid = l.sys.self → OpenAt l.sys m' →
    (kevent m changelist nevents block).call oracle l.sys = some (.ok ret, s') →
    ∃ changes, changelist.changes = .ok changes ∧
      submitted s' m' = submitted l.sys m' ++ changes

-- A call on one member reaches the kqueue of every other.
theorem kevent_seen {s s' : Sys} {e m m' : Nat} {member : Member} {x : Handle} {changelist : Changelist}
    {nevents : Option Int} {block : Bool} {oracle : Oracle} {ret : Ret} (hs : Settled s e)
    (hm : OpenAs s m member x) (hm' : OpenAt s m')
    (hr : (kevent m changelist nevents block).call oracle s = some (.ok ret, s')) :
    ∃ changes, changelist.changes = .ok changes ∧ submitted s' m' = submitted s m' ++ changes := by
  obtain ⟨hpid, hx⟩ := hs.shared m member x hm
  obtain ⟨member', x', hm'⟩ := hm'
  have hx' := (hs.shared m' member' x' hm').2
  have hp : Passes { s with oracle := oracle } m member x := ⟨hm.1, hm.2.1, Or.inl hpid⟩
  obtain ⟨changes, hch, hpolled⟩ := wp_of_run (wp_kevent_passes hp hs.idle changelist nevents block) hr
  have hopen : OpenAs s' m' member' x' := (hpolled.sameMembers.openAs m' member' x').mpr hm'
  refine ⟨changes, hch, ?_⟩
  rw [submitted_of_openAs hopen, submitted_of_openAs hm', hpolled.insts, hx, hx']
  have hget := List.getElem?_eq_getElem hs.made
  simp only [List.getElem?_modify_eq, hget, Option.map_eq_map, Option.map_some, Option.getD_some]

-- From the first call that reaches the fork check on, the members of the
-- family survive a fork, as long as every such call meets the guard.
theorem kqueues_survive (pid : Pid) (objects : Objects) (labels : List (Lineage.Label Op))
    (hg : Guarded (Lineage.step api) (Lineage.Guard api) (Lineage.start pid objects) labels) :
    Visits (Lineage.step api) (fun l => l.used.isSome → Survived l) (Lineage.start pid objects) labels := by
  have hstart : Lineage.Invariant (fun _ => True) Settled Fair (Lineage.start pid objects) :=
    Lineage.start_invariant pid objects (opened_settled pid objects)
  refine visits_mono ?_ (Lineage.visits_survived laws hstart labels hg)
  intro l hl hu
  obtain ⟨hopen, hshared, hgood⟩ := hl hu
  refine ⟨hopen, fun h => ?_, fun m m' member x _ _ _ _ _ _ hm hpid hm' hr => ?_⟩
  · obtain ⟨e, hfair, hown, hused⟩ := hshared h
    exact ⟨e, hown, hfair, hused⟩
  · obtain ⟨e, hs⟩ := hgood m member x hm hpid
    exact kevent_seen hs hm hm' hr

-- Two members, of which one is closed before the fork; the child registers a
-- change through the other and makes a copy of it, which survives the next fork on
-- its own.
theorem kqueues_survive_only_member :
    Visits (Lineage.step api) (fun l => l.used.isSome → Survived l) (Lineage.start 1 noObjects)
      [.call 0 .dup {}, .call 1 .close {}, .fork 2,
        .call 0 (.kevent (.struct ⟨5, -1, 1, 0, 0, 0⟩) none false) {},
        .call 0 .dup {}, .call 0 .close {}, .fork 3, .call 2 .toIo {}] := by
  refine kqueues_survive 1 noObjects _ (Lineage.guarded_of_meets ?_ (by decide +kernel))
  intro label hlabel
  simp only [List.mem_cons, List.not_mem_nil, or_false] at hlabel
  rcases hlabel with rfl | rfl | rfl | rfl | rfl | rfl | rfl | rfl
  all_goals first | trivial | exact ⟨trivial, by simp [api, Creates]⟩

def instOf (s : Sys) (m : Nat) : Option Nat := do
  let member ← s.family.members[m]?
  let x ← s.family.handles[member.io]?
  pure x.inst

-- Two members: the child uses one, and the other still refers to the kqueue
-- of the parent.
theorem first_use_leaves_copy :
    ∃ l, runEvents (Lineage.step api) (Lineage.start 1 noObjects)
        [.call 0 .dup {}, .fork 2, .call 0 .toIo {}] = some l ∧
      l.used.isSome ∧ OpenAt l.forked 1 ∧ 1 ∉ l.closed ∧ OpenAt l.sys 1 ∧
      instOf l.sys 0 = some 1 ∧ instOf l.sys 1 = some 0 ∧ creators l.sys = [1, 2] ∧ ¬Survived l := by
  have hrun : ((runEvents (Lineage.step api) (Lineage.start 1 noObjects)
        [.call 0 .dup {}, .fork 2, .call 0 .toIo {}]).map fun l =>
      ([l.used.isSome, decide (OpenAt l.forked 1), decide (1 ∈ l.closed), decide (OpenAt l.sys 1)],
        [instOf l.sys 0, instOf l.sys 1], l.sys.self :: creators l.sys)) =
      some ([true, true, false, true], [some 1, some 0], [2, 1, 2]) := by decide +kernel
  obtain ⟨l, hl, hobserved⟩ := Option.map_eq_some_iff.mp hrun
  simp only [Prod.mk.injEq, List.cons.injEq, and_true, decide_eq_true_eq,
    decide_eq_false_iff_not] at hobserved
  obtain ⟨⟨hused, hforked, hnot, hopen⟩, ⟨h0, h1⟩, hself, hcreators⟩ := hobserved
  refine ⟨l, hl, hused, hforked, hnot, hopen, h0, h1, hcreators, fun h => ?_⟩
  obtain ⟨e, hown, hshared, _⟩ := h.shared ⟨1, hopen⟩
  obtain ⟨member, x, hm, hx, hc⟩ := hopen
  have hinst := hshared 1 member x ⟨hm, hx, hc⟩
  simp only [instOf, hm, hx, Option.bind_eq_bind, Option.bind_some, Option.pure_def,
    Option.some.injEq] at h1
  rw [hcreators, ← hinst, h1, hself] at hown
  cases hown

end SleepyPenguin.Kqueue.Fork
