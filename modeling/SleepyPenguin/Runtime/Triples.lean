import SleepyPenguin.Runtime.Isolation

-- Rules for methods that run next to other calls and that a fork may take into
-- another process, and what the methods of both classes keep.
namespace SleepyPenguin.Isolation

open Foundation Foundation.Prog

-- What a call has found out about the `@io` of its member.
inductive Standing
  -- nothing: it has not read `@pid`
  | fresh
  | read (pid : Pid)
  -- `@pid` is not `$$`
  | foreign
  -- it has `@io` and is about to ask it whether it is closed
  | asking
  -- the old IO is open, a new one is to be made
  | renewing
  -- it takes `@io` for an IO of the process
  | entitled
  deriving DecidableEq

-- What the answer of a command adds.
def Standing.next : {β : Type} → Cmd β → β → Standing → Standing
  | _, .getPid _, pid, _ => .read pid
  | _, .self, self, .read pid => if pid = self then .entitled else .foreign
  | _, .getIo _, _, .foreign => .asking
  | _, .closed _, closed, .asking => if closed then .entitled else .renewing
  | _, .create, made, standing => if made.isOk then .entitled else standing
  | _, _, _, standing => standing

-- Nothing that the call has found out is wrong in the process `pid`, which the
-- family has not seen before.
def Standing.travels : Standing → Pid → Prop
  | .read current, pid => current ≠ pid
  | .asking, _ => False
  | .entitled, _ => False
  | _, _ => True

instance : (standing : Standing) → (pid : Pid) → Decidable (standing.travels pid)
  | .read current, pid => inferInstanceAs (Decidable (current ≠ pid))
  | .asking, _ => isFalse id
  | .entitled, _ => isFalse id
  | .fresh, _ => isTrue trivial
  | .foreign, _ => isTrue trivial
  | .renewing, _ => isTrue trivial

-- A process and the standing of its calls.
structure Marked where
  sys : Sys
  standing : Nat → Standing

def Marked.after {β : Type} (s : Marked) (t : Nat) (command : Cmd β) (step : β × Sys) : Marked :=
  ⟨step.2, Function.update s.standing t ((s.standing t).next command step.1)⟩

theorem standing_after {β : Type} (s : Marked) (t : Nat) (command : Cmd β) (step : β × Sys) :
    (s.after t command step).standing t = (s.standing t).next command step.1 := Function.update_self ..

def marked (t : Nat) (run : (β : Type) → Sys → Cmd β → Option (β × Sys)) (β : Type) (s : Marked)
    (command : Cmd β) : Option (β × Marked) :=
  (run β s.sys command).map fun step => (step.1, s.after t command step)

theorem marked_sys (t : Nat) (run : (β : Type) → Sys → Cmd β → Option (β × Sys)) (β : Type) (s : Marked)
    (command : Cmd β) :
    (marked t run β s command).map (fun step => (step.1, step.2.sys)) = run β s.sys command := by
  simp only [marked, Option.map_map, Function.comp_def, Marked.after]
  exact Option.map_id'

-- Between two commands of call `t` the process goes on, or the call finds
-- itself in another one.
def Moves (t : Nat) (s s' : Marked) : Prop :=
  s'.standing t = s.standing t ∧ (Later s.sys s'.sys ∨ (s.standing t).travels s'.sys.self)

def Rely (strict : Prop) (t : Nat) (β : Type) (_ : Cmd β) (s s' : Marked) : Prop :=
  Moves t s s' ∧ Isolated strict s'.sys

section Moves

variable {strict : Prop} {t : Nat} {s s' s'' : Marked}

theorem Moves.refl (s : Marked) : Moves t s s := ⟨rfl, Or.inl (Later.refl s.sys)⟩

theorem Moves.trans (h : Moves t s s') (h' : Moves t s' s'') : Moves t s s'' := by
  refine ⟨h'.1.trans h.1, ?_⟩
  rcases h'.2 with hl' | ht'
  · rcases h.2 with hl | ht
    · exact Or.inl (hl.trans hl')
    · exact Or.inr (hl'.self ▸ ht)
  · exact Or.inr (h.1 ▸ ht')

theorem Rely.trans {β : Type} {command : Cmd β} (h : Rely strict t β command s s')
    (h' : Rely strict t β command s' s'') : Rely strict t β command s s'' :=
  ⟨h.1.trans h'.1, h'.2⟩

theorem Isolated.rely {β : Type} {command : Cmd β} (h : Isolated strict s.sys) :
    Rely strict t β command s s :=
  ⟨Moves.refl s, h⟩

end Moves

-- How a process performs commands: as in `exec`, but it may deal in its own way
-- with those that take a member away.
def Runs (t : Nat) (run : (β : Type) → Sys → Cmd β → Option (β × Sys)) : Prop :=
  ∀ (β : Type) (s : Sys) (command : Cmd β), discards command = false →
    run β s command = exec t β s command

-- `P` holds before the program, `Q` after it has returned and `R` after it has
-- raised, whatever the other calls and processes do.
def Triple {α : Type} (strict : Prop) (t : Nat) (run : (β : Type) → Sys → Cmd β → Option (β × Sys))
    (P : Marked → Prop) (program : Method α) (Q : α → Marked → Prop) (R : Marked → Prop) : Prop :=
  ∀ s, P s → Along (marked t run) (Rely strict t) (fun β s => Safe strict β s.sys) Q (fun _ s' => R s')
    program s

-- What the others cannot undo.
def Stable (P : Sys → Prop) : Prop := ∀ s s', P s → Later s s' → P s'

theorem stable_held (m : Nat) : Stable fun s => Held s m := fun _ _ h hl => h.later hl

theorem stable_own (io : Nat) : Stable fun s => Own s io := fun _ _ h hl => h.later hl

theorem stable_self (pid : Pid) : Stable fun s => pid = s.self := fun _ _ h hl => h.trans hl.self.symm

theorem Stable.and {P P' : Sys → Prop} (h : Stable P) (h' : Stable P') : Stable fun s => P s ∧ P' s :=
  fun s s' hs hl => ⟨h s s' hs.1 hl, h' s s' hs.2 hl⟩

-- The call takes `@io` for its own, and `P` holds.
def Entitled (t : Nat) (P : Sys → Prop) (s : Marked) : Prop := s.standing t = .entitled ∧ P s.sys

theorem Entitled.moves {t : Nat} {P : Sys → Prop} {s s' : Marked} (h : Entitled t P s) (hP : Stable P)
    (hm : Moves t s s') : Entitled t P s' := by
  refine ⟨hm.1.trans h.1, ?_⟩
  rcases hm.2 with hl | ht
  · exact hP s.sys s'.sys h.2 hl
  · rw [h.1] at ht
    exact ht.elim

-- The commands that leave an entitled call entitled, and every member in its
-- place.
def plain : {β : Type} → Cmd β → Bool
  | _, .getPid _ => false
  | _, .discard => false
  | _, _ => true

theorem plain_keeps {β : Type} {command : Cmd β} (h : plain command = true) :
    discards command = false ∧ ∀ answer, Standing.entitled.next command answer = .entitled := by
  cases command with
  | getPid | discard => cases h
  | create => exact ⟨rfl, fun made => by cases made <;> rfl⟩
  | _ => exact ⟨rfl, fun _ => rfl⟩

section Triple

variable {strict : Prop} {run : (β : Type) → Sys → Cmd β → Option (β × Sys)} {t m : Nat} {α γ : Type}
  {P R : Marked → Prop} {Q : α → Marked → Prop}

theorem triple_pure {value : α} (h : ∀ s, P s → Q value s) :
    Triple strict t run P (Pure.pure value : Method α) Q R := spec_pure h

theorem triple_raise {e : Err} (h : ∀ s, P s → R s) :
    Triple strict t run P (.raise e : Method α) Q R := spec_raise h

theorem triple_bind {program : Method γ} {next : γ → Method α} {M : γ → Marked → Prop}
    (h : Triple strict t run P program M R)
    (hnext : ∀ value, Triple strict t run (M value) (next value) Q R) :
    Triple strict t run P (program >>= next) Q R :=
  spec_bind h hnext

theorem triple_rescue {program : Method α} {handler : Err → Method α} {M : Marked → Prop}
    (h : Triple strict t run P program Q M) (hhandler : ∀ e, Triple strict t run M (handler e) Q R) :
    Triple strict t run P (program.rescue handler) Q R :=
  spec_rescue h hhandler

theorem triple_mono {program : Method α} {M R' : Marked → Prop} {Q' : α → Marked → Prop}
    (h : Triple strict t run M program Q' R') (hP : ∀ s, P s → M s) (hQ : ∀ value s, Q' value s → Q value s)
    (hR : ∀ s, R' s → R s) : Triple strict t run P program Q R :=
  spec_mono h hP hQ fun _ => hR

theorem triple_ofExcept {outcome : Except Err α} (hQ : ∀ value s, outcome = .ok value → P s → Q value s)
    (hR : ∀ s, P s → R s) : Triple strict t run P (.ofExcept outcome) Q R :=
  spec_ofExcept hQ fun _ s _ => hR s

theorem triple_each {items : List γ} {body : γ → Method Unit}
    (hbody : ∀ item ∈ items, Triple strict t run P (body item) (fun _ s => P s) R) :
    Triple strict t run P (.each items body) (fun _ s => P s) R :=
  fun _ hs => along_each P hs fun item hi s' hs' => hbody item hi s' hs'

theorem triple_ensure {program : Method α} {cleanup : Method Unit} (h : Triple strict t run P program Q R)
    (hQ : ∀ value, Triple strict t run (Q value) cleanup (fun _ s => Q value s) R)
    (hR : Triple strict t run R cleanup (fun _ s => R s) R) :
    Triple strict t run P (program.ensure cleanup) Q R :=
  spec_ensure h hQ fun _ => hR

-- With nothing else running, every command of the call finds what it must.
theorem Triple.guarded {program : Method α} (h : Triple strict t (exec t) P program Q R) {s : Marked}
    (hs : P s) (hi : Isolated strict s.sys) : program.Guarded (exec t) (Safe strict) s.sys := by
  refine Guarded.project Marked.sys (marked_sys t (exec t)) ?_
  refine (h s hs).guarded (fun s => Isolated strict s.sys) (fun _ _ _ hi => hi.rely) ?_ hi
  intro β s command step hi hsafe hstep
  obtain ⟨before, hexec, rfl⟩ := Option.map_eq_some_iff.mp hstep
  exact exec_isolated hi hsafe hexec

-- A command that finds what it must, and what it finds of it.
theorem triple_perform {command : Cmd α} (hrun : Runs t run) (hP : ∀ s s', P s → Moves t s s' → P s')
    (hkeep : discards command = false) (hsafe : ∀ s, P s → Safe strict α s.sys command)
    (hQ : ∀ s step, P s → Isolated strict s.sys → exec t α s.sys command = some step →
      Later s.sys step.2 → Q step.1 (s.after t command step)) :
    Triple strict t run P (.perform command) Q R := by
  intro s hs
  rw [along_perform]
  intro s' ⟨hm, hi⟩
  have hs' := hP s s' hs hm
  refine ⟨hsafe s' hs', fun _ hstep => ?_⟩
  obtain ⟨step, hexec, rfl⟩ := Option.map_eq_some_iff.mp hstep
  rw [hrun α s'.sys command hkeep] at hexec
  exact hQ s' step hs' hi hexec (exec_moves hi (hsafe s' hs') hkeep hexec).2

-- A command that needs nothing, where nothing has to be kept.
theorem perform_safe {command : Cmd α} (hsafe : ∀ s, Safe strict α s command) :
    Triple strict t run P (.perform command) (fun _ _ => True) R := by
  intro s _
  rw [along_perform]
  exact fun s' _ => ⟨hsafe s'.sys, fun _ _ => trivial⟩

theorem attempt_safe {command : Cmd (Except Err α)} (hsafe : ∀ s, Safe strict (Except Err α) s command) :
    Triple strict t run P (.attempt command) (fun _ _ => True) fun _ => True := by
  intro s _
  rw [along_attempt]
  refine fun s' _ => ⟨hsafe s'.sys, fun step _ => ?_⟩
  rcases step with ⟨_ | _, s''⟩
  · trivial
  · trivial

-- The buffered events are yielded.
theorem yields_safe (n : Nat) :
    Triple strict t run P (.replicate n (.attempt .yieldNext)) (fun _ _ => True) fun _ => True := by
  have hyield : Triple strict t run (fun _ => True) (.attempt .yieldNext) (fun _ _ => True) fun _ => True :=
    attempt_safe fun _ => trivial
  exact fun s _ => along_replicate (fun _ _ => True) trivial fun _ s' _ => hyield s' trivial

theorem synchronize_safe {body : Method α}
    (h : Triple strict t run (fun _ => True) body (fun _ _ => True) fun _ => True) :
    Triple strict t run P (Method.synchronize body) (fun _ _ => True) fun _ => True := by
  refine triple_bind (perform_safe fun _ => trivial) fun _ => triple_ensure h (fun _ => ?_) ?_
  · exact perform_safe fun _ => trivial
  · exact perform_safe fun _ => trivial

end Triple

section Entitled

variable {strict : Prop} {run : (β : Type) → Sys → Cmd β → Option (β × Sys)} {t m : Nat} {α : Type}
  {P : Sys → Prop} {Q : α → Sys → Prop} {R : Marked → Prop}

-- The commands of a call that is entitled. No fork takes it elsewhere.
theorem perform_entitled {command : Cmd α} (hrun : Runs t run) (hP : Stable P)
    (hplain : plain command = true) (hsafe : ∀ s, P s → Safe strict α s command)
    (hQ : ∀ s step, P s → Isolated strict s → exec t α s command = some step → Later s step.2 →
      Q step.1 step.2) :
    Triple strict t run (Entitled t P) (.perform command) (fun value => Entitled t (Q value)) R := by
  obtain ⟨hkeep, hnext⟩ := plain_keeps hplain
  refine triple_perform hrun (fun _ _ h => h.moves hP) hkeep (fun s h => hsafe s.sys h.2) ?_
  intro s step h hi hstep hl
  refine ⟨?_, hQ s.sys step h.2 hi hstep hl⟩
  rw [standing_after, h.1, hnext]

theorem attempt_entitled {command : Cmd (Except Err α)} {E : Sys → Prop} (hrun : Runs t run)
    (hP : Stable P) (hplain : plain command = true)
    (hsafe : ∀ s, P s → Safe strict (Except Err α) s command)
    (hQ : ∀ s step, P s → Isolated strict s → exec t (Except Err α) s command = some step →
      Later s step.2 → Ends Q (fun _ s' => E s') step) :
    Triple strict t run (Entitled t P) (.attempt command) (fun value => Entitled t (Q value))
      (Entitled t E) := by
  intro s h
  rw [along_attempt]
  intro s' ⟨hm, hi⟩
  obtain ⟨hkeep, hnext⟩ := plain_keeps hplain
  have h' := h.moves hP hm
  refine ⟨hsafe s'.sys h'.2, fun _ hstep => ?_⟩
  obtain ⟨step, hexec, rfl⟩ := Option.map_eq_some_iff.mp hstep
  rw [hrun _ s'.sys command hkeep] at hexec
  have hends := hQ s'.sys step h'.2 hi hexec (exec_moves hi (hsafe s'.sys h'.2) hkeep hexec).2
  have hstanding : (s'.after t command step).standing t = .entitled := by
    rw [standing_after, h'.1, hnext]
  rcases step with ⟨_ | _, s''⟩
  · exact ⟨hstanding, hends⟩
  · exact ⟨hstanding, hends⟩

-- A command that keeps what cannot be undone.
theorem perform_keeps {command : Cmd α} (hrun : Runs t run) (hP : Stable P)
    (hplain : plain command = true) (hsafe : ∀ s, P s → Safe strict α s command) :
    Triple strict t run (Entitled t P) (.perform command) (fun _ => Entitled t P) R :=
  perform_entitled hrun hP hplain hsafe fun s step hs _ _ hl => hP s step.2 hs hl

theorem attempt_keeps {command : Cmd (Except Err α)} (hrun : Runs t run) (hP : Stable P)
    (hplain : plain command = true) (hsafe : ∀ s, P s → Safe strict (Except Err α) s command) :
    Triple strict t run (Entitled t P) (.attempt command) (fun _ => Entitled t P) (Entitled t P) := by
  refine attempt_entitled hrun hP hplain hsafe fun s step hs _ _ hl => ?_
  rcases step with ⟨_ | _, s'⟩
  · exact hP s s' hs hl
  · exact hP s s' hs hl

theorem synchronize_held {body : Method α} (hrun : Runs t run)
    (h : Triple strict t run (fun _ => True) body (fun _ => Entitled t fun s => Held s m) fun _ => True) :
    Triple strict t run (fun _ => True) (Method.synchronize body) (fun _ => Entitled t fun s => Held s m)
      fun _ => True := by
  refine triple_bind (perform_safe fun _ => trivial) fun _ => triple_ensure h (fun _ => ?_) ?_
  · exact perform_keeps hrun (stable_held m) rfl fun _ _ => trivial
  · exact perform_safe fun _ => trivial

-- The IO of a member that is held is the process's own.
theorem getIo_held (hrun : Runs t run) (hP : Stable P) (hheld : ∀ s, P s → Held s m) :
    Triple strict t run (Entitled t P) (.perform (.getIo m)) (fun io => Entitled t fun s => P s ∧ Own s io)
      R := by
  refine perform_entitled hrun hP rfl (fun _ _ => trivial) fun s step hs _ hstep hl => ?_
  obtain ⟨member, hm, rfl⟩ := Option.map_eq_some_iff.mp hstep
  obtain ⟨member', hm', hown⟩ := hheld s hs
  obtain rfl := Option.some.inj (hm.symm.trans hm')
  exact ⟨hs, hown⟩

-- A handle that has just been appended.
theorem own_concat {s : Sys} {x : Handle} (howner : x.owner = s.self) {handles : List Handle}
    (h : s.family.handles = handles ++ [x]) : Own s handles.length := by
  intro y hy
  rw [h, List.getElem?_concat_length] at hy
  exact Or.inr (Option.some.inj hy ▸ howner)

theorem dup_own (hrun : Runs t run) {io : Nat} (hP : Stable P) (hown : ∀ s, P s → Own s io) :
    Triple strict t run (Entitled t P) (.attempt (.dup io))
      (fun ioDup => Entitled t fun s => P s ∧ Own s ioDup) (fun _ => True) := by
  refine triple_mono (attempt_entitled (E := fun _ => True) hrun hP rfl hown ?_) (fun _ h => h)
    (fun _ _ h => h) fun _ _ => trivial
  intro s step hs _ hstep hl
  have hkept := hP s step.2 hs hl
  obtain ⟨x, hx, rfl⟩ := Option.map_eq_some_iff.mp hstep
  cases hc : x.closed with
  | true =>
      rw [s.dup_closed hc]
      trivial
  | false =>
      rcases s.dup_open hc with ⟨errno, _, hdup⟩ | ⟨_, hdup⟩
      · rw [hdup]
        trivial
      · rw [hdup] at hkept ⊢
        exact ⟨hkept, own_concat rfl rfl⟩

theorem setIo_held (hrun : Runs t run) {io : Nat} (hP : Stable P) (hown : ∀ s, P s → Own s io) :
    Triple strict t run (Entitled t P) (.perform (.setIo m io))
      (fun _ => Entitled t fun s => P s ∧ Held s m)
      R := by
  refine perform_entitled hrun hP rfl hown fun s step hs _ hstep hl => ?_
  have hkept := hP s step.2 hs hl
  have hio := (hown s hs).later hl
  obtain ⟨member, hm, rfl⟩ := Option.map_eq_some_iff.mp hstep
  exact ⟨hkept, _, List.getElem?_set_self (List.getElem?_eq_some_iff.mp hm).1, hio⟩

-- `@pid = $$`, and what follows it.
theorem setPid_held (hrun : Runs t run) {next : Unit → Method α} {Q : α → Marked → Prop}
    (hnext : Triple strict t run (Entitled t fun s => Held s m) (next ()) Q R) :
    Triple strict t run (Entitled t fun s => Held s m)
      (.perform .self >>= fun self => .perform (.setPid m self) >>= next) Q R := by
  have hheld := stable_held m
  refine triple_bind (M := fun self => Entitled t fun s => self = s.self ∧ Held s m) ?_ fun self => ?_
  · refine perform_entitled hrun hheld rfl (fun _ _ => trivial) fun s step hs _ hstep _ => ?_
    cases hstep
    exact ⟨rfl, hs⟩
  · refine triple_bind (perform_keeps hrun ((stable_self self).and hheld) rfl fun _ h => h) fun _ => ?_
    exact triple_mono hnext (fun _ h => ⟨h.1, h.2.2⟩) (fun _ _ h => h) fun _ h => h

-- What create(2) gives is the caller's, in whatever process it is by then.
theorem create_own (hrun : Runs t run) :
    Triple strict t run (fun _ => True) (.perform .create)
      (fun made s => ∀ io, made = .ok io → Entitled t (fun s => Own s io) s) R := by
  refine triple_perform hrun (fun _ _ _ _ => trivial) rfl (fun _ _ => trivial) fun s step _ _ hstep _ => ?_
  cases hstep
  intro io hio
  rcases s.sys.create_cases with ⟨errno, _, hcreate⟩ | ⟨_, hcreate⟩
  · rw [hcreate] at hio
    cases hio
  · rw [hcreate] at hio ⊢
    cases hio
    refine ⟨?_, own_concat rfl rfl⟩
    rw [standing_after]
    rfl

end Entitled

-- The member's IO is `io`, or one of this process by now.
def Has (s : Sys) (m io : Nat) : Prop :=
  ∃ member, s.family.members[m]? = some member ∧ (member.io = io ∨ Own s member.io)

theorem stable_has (m io : Nat) : Stable fun s => Has s m io := by
  intro s s' ⟨member, hm, hio⟩ hl
  obtain ⟨member', hm', hsame | hown⟩ := hl.member m member hm
  · exact ⟨member', hm', hio.imp hsame.trans fun ho => hsame ▸ ho.later hl⟩
  · exact ⟨member', hm', Or.inr hown⟩

theorem Has.held {s : Sys} {m io : Nat} (h : Has s m io) (hown : Own s io) : Held s m := by
  obtain ⟨member, hm, hio | hio⟩ := h
  · exact ⟨member, hm, hio ▸ hown⟩
  · exact ⟨member, hm, hio⟩

section Shared

variable {strict : Prop} {run : (β : Type) → Sys → Cmd β → Option (β × Sys)} {t m : Nat}
  {retire reinit : Nat → Method Unit} {P : Marked → Prop} {R : Marked → Prop}

-- `@pid == $$`: a fork between the two finds that they differ.
theorem compare_held (hrun : Runs t run) {next : Pid → Pid → Method Unit} {Q : Unit → Marked → Prop}
    (hnext : ∀ pid self, Triple strict t run
      (fun s => if pid = self then Entitled t (fun s => Held s m) s else s.standing t = .foreign)
      (next pid self) Q R) :
    Triple strict t run (fun _ => True)
      (.perform (.getPid m) >>= fun pid => .perform .self >>= fun self => next pid self) Q R := by
  let Read (pid : Pid) (s : Marked) : Prop :=
    s.standing t = .read pid ∧ (pid = s.sys.self → Held s.sys m)
  refine triple_bind (M := Read) ?_ fun pid => triple_bind ?_ fun self => hnext pid self
  · refine triple_perform hrun (fun _ _ _ _ => trivial) rfl
      (fun _ _ => trivial) fun s step _ hi hstep _ => ?_
    obtain ⟨member, hm, rfl⟩ := Option.map_eq_some_iff.mp hstep
    exact ⟨standing_after s t _ _, fun hp => ⟨member, hm, hi.member m member hm hp⟩⟩
  · refine triple_perform hrun (fun s s' h hm => ?_) rfl (fun _ _ => trivial) fun s step h _ hstep _ => ?_
    · refine ⟨hm.1.trans h.1, fun hp => ?_⟩
      rcases hm.2 with hl | ht
      · exact (h.2 (hp.trans hl.self)).later hl
      · rw [h.1] at ht
        exact absurd hp ht
    · cases hstep
      have hstanding : (s.after t .self (s.sys.self, s.sys)).standing t =
          if pid = s.sys.self then .entitled else .foreign := by
        rw [standing_after, h.1]
        rfl
      split
      · rename_i hp
        exact ⟨hstanding.trans (if_pos hp), h.2 hp⟩
      · rename_i hp
        exact hstanding.trans (if_neg hp)

-- `@io.closed?`: a closed IO harms no process.
theorem closed_held (hrun : Runs t run) {next : Bool → Method Unit} {Q : Unit → Marked → Prop}
    (hclosed : Triple strict t run (Entitled t fun s => Held s m) (next true) Q R)
    (hopen : Triple strict t run (fun _ => True) (next false) Q R) :
    Triple strict t run (fun s => s.standing t = .foreign)
      (.perform (.getIo m) >>= fun io => .perform (.closed io) >>= next) Q R := by
  let Asks (io : Nat) (s : Marked) : Prop := s.standing t = .asking ∧ Has s.sys m io
  refine triple_bind (M := Asks) ?_ fun io => ?_
  · refine triple_perform hrun (fun s s' h hm => hm.1.trans h) rfl (fun _ _ => trivial)
      fun s step h _ hstep _ => ?_
    obtain ⟨member, hm, rfl⟩ := Option.map_eq_some_iff.mp hstep
    refine ⟨?_, member, hm, Or.inl rfl⟩
    rw [standing_after, h]
    rfl
  refine triple_bind (M := fun closed s => closed = true → Entitled t (fun s => Held s m) s) ?_
    fun closed => ?_
  · refine triple_perform hrun (fun s s' h hm => ?_) rfl (fun _ _ => trivial) fun s step h _ hstep _ => ?_
    · refine ⟨hm.1.trans h.1, ?_⟩
      rcases hm.2 with hl | ht
      · exact stable_has m io s.sys s'.sys h.2 hl
      · rw [h.1] at ht
        exact ht.elim
    · obtain ⟨x, hx, rfl⟩ := Option.map_eq_some_iff.mp hstep
      intro hc
      have hown : Own s.sys io := fun y hy => Or.inl (Option.some.inj (hx.symm.trans hy) ▸ hc)
      refine ⟨?_, h.2.held hown⟩
      rw [standing_after, h.1]
      exact if_pos hc
  · cases closed with
    | true => exact triple_mono hclosed (fun _ h => h rfl) (fun _ _ h => h) fun _ h => h
    | false => exact triple_mono hopen (fun _ _ => trivial) (fun _ _ h => h) fun _ h => h

theorem listDuplicates_held (hrun : Runs t run) (objects : List Nat) :
    Triple strict t run (Entitled t fun s => Held s m) (Shared.listDuplicates m objects)
      (fun _ => Entitled t fun s => Held s m) (fun _ => True) := by
  have hheld := stable_held m
  refine triple_each fun obj _ => ?_
  refine triple_bind (getIo_held hrun hheld fun _ h => h) fun io => ?_
  refine triple_bind (dup_own hrun (hheld.and (stable_own io)) fun _ h => h.2) fun ioDup => ?_
  refine triple_mono (M := Entitled t fun s => Held s m) ?_ (fun _ h => ⟨h.1, h.2.1.1⟩) (fun _ _ h => h)
    fun _ h => h
  refine triple_bind (perform_keeps hrun hheld rfl fun _ _ => trivial) fun copies => ?_
  exact perform_keeps hrun hheld rfl fun _ _ => trivial

-- What the check needs from its two parts.
structure Checks (strict : Prop) (t : Nat) (run : (β : Type) → Sys → Cmd β → Option (β × Sys))
    (retire reinit : Nat → Method Unit) (m : Nat) : Prop where
  retire : ∀ io, Triple strict t run (fun _ => True) (retire io) (fun _ _ => True) fun _ => True
  reinit : Triple strict t run (fun _ => True) (reinit m) (fun _ => Entitled t fun s => Held s m)
    fun _ => True

-- A member that has passed the fork check is held.
theorem check_held (hrun : Runs t run) (h : Checks strict t run retire reinit m) :
    Triple strict t run (fun _ => True) (Shared.check retire reinit m)
      (fun _ => Entitled t fun s => Held s m) fun _ => True := by
  refine compare_held hrun fun pid self => ?_
  by_cases hp : pid = self
  · simp only [if_pos hp]
    exact triple_pure fun _ hs => hs
  simp only [if_neg hp]
  refine closed_held hrun (triple_pure fun _ hs => hs) ?_
  refine triple_bind (perform_safe fun _ => trivial) fun copies => ?_
  refine triple_bind (triple_each fun io _ => h.retire io) fun _ => ?_
  refine triple_bind (perform_safe fun _ => trivial) fun _ => triple_bind h.reinit fun _ => ?_
  refine triple_bind (listDuplicates_held hrun _) fun _ => ?_
  exact setPid_held hrun (triple_pure fun _ h => h)

-- new, before any other call knows of the member.
theorem initializeNew_safe (hrun : Runs t run) {sNew : Method Nat}
    (hnew : Triple strict t run (fun _ => True) sNew
      (fun io => Entitled t fun s => Own s io) fun _ => True) :
    Triple strict t run (fun _ => True) (Shared.initializeNew sNew m) (fun _ _ => True) fun _ => True := by
  refine triple_bind hnew fun io => triple_bind (setIo_held hrun (stable_own io) fun _ h => h) fun _ => ?_
  refine triple_mono (M := Entitled t fun s => Held s m) ?_ (fun _ h => ⟨h.1, h.2.2⟩) (fun _ _ h => h)
    fun _ h => h
  exact setPid_held hrun (perform_safe fun _ => trivial)

theorem initializeCopy_safe (hrun : Runs t run) {check : Nat → Method Unit}
    (hcheck : Triple strict t run (fun _ => True) (check m) (fun _ => Entitled t fun s => Held s m)
      fun _ => True) :
    Triple strict t run P (Shared.initializeCopy check m) (fun _ _ => True) fun _ => True := by
  refine synchronize_safe (triple_bind hcheck fun _ => ?_)
  refine triple_bind (getIo_held hrun (stable_held m) fun _ h => h) fun io => ?_
  have hown := (stable_held m).and (stable_own io)
  refine triple_bind (perform_keeps hrun hown rfl fun _ _ => trivial) fun closed => ?_
  cases closed with
  | true => exact triple_pure fun _ _ => trivial
  | false =>
      refine triple_bind (dup_own hrun hown fun _ h => h.2) fun ioDup => ?_
      refine triple_bind (setIo_held hrun (hown.and (stable_own ioDup)) fun _ h => h.2) fun _ => ?_
      exact triple_bind (perform_safe fun _ => trivial) fun copies => perform_safe fun _ => trivial

theorem dup_safe (hrun : Runs t run) {check : Nat → Method Unit}
    (hcheck : ∀ copy, Triple strict t run (fun _ => True) (check copy)
      (fun _ => Entitled t fun s => Held s copy) fun _ => True) :
    Triple strict t run P (Shared.dup check m) (fun _ _ => True) fun _ => True := by
  refine triple_bind (perform_safe fun _ => trivial) fun copy => ?_
  refine triple_bind (M := fun _ _ => True) ?_ fun _ => triple_pure fun _ _ => trivial
  refine triple_rescue (initializeCopy_safe hrun (hcheck copy)) fun e => ?_
  exact triple_bind (perform_safe fun _ => trivial) fun _ => triple_raise fun _ _ => trivial

-- close does not check: where inherited descriptors must not be closed, its
-- caller answers for the IO.
theorem close_safe (hrun : Runs t run) (hP : ∀ s, P s → strict → Entitled t (fun s => Held s m) s) :
    Triple strict t run P (Shared.close m) (fun _ _ => True) fun _ => True := by
  by_cases hstrict : strict
  · have hheld := stable_held m
    refine triple_mono (M := Entitled t fun s => Held s m) ?_ (fun s h => hP s h hstrict) (fun _ _ h => h)
      fun _ h => h
    refine triple_bind (perform_keeps hrun hheld rfl fun _ _ => trivial) fun _ => ?_
    refine triple_ensure ?_ (fun _ => perform_safe fun _ => trivial) (perform_safe fun _ => trivial)
    refine triple_bind (getIo_held hrun hheld fun _ h => h) fun io => ?_
    have hown := hheld.and (stable_own io)
    refine triple_bind (perform_keeps hrun hown rfl fun _ _ => trivial) fun copies => ?_
    refine triple_bind (perform_keeps hrun hown rfl fun _ _ => trivial) fun _ => ?_
    exact triple_mono (attempt_keeps hrun hown rfl fun _ h _ => h.2) (fun _ h => h) (fun _ _ _ => trivial)
      fun _ _ => trivial
  · refine synchronize_safe (triple_bind (perform_safe fun _ => trivial) fun io => ?_)
    refine triple_bind (perform_safe fun _ => trivial) fun copies => ?_
    refine triple_bind (perform_safe fun _ => trivial) fun _ => ?_
    exact attempt_safe fun _ => fun hs => absurd hs hstrict

theorem closedP_safe :
    Triple strict t run P (Shared.closedP m) (fun _ _ => True) fun _ => True := by
  refine synchronize_safe (triple_bind (perform_safe fun _ => trivial) fun io => ?_)
  exact perform_safe fun _ => trivial

end Shared

end SleepyPenguin.Isolation
