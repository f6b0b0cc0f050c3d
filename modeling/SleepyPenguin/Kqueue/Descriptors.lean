import SleepyPenguin.Foundation.Run
import SleepyPenguin.Runtime.Triples
import SleepyPenguin.Kqueue.Methods

-- Which descriptor numbers a family of Kqueue objects closes or hands to
-- kevent. The numbers that a child inherits may be those of other files.
namespace SleepyPenguin.Kqueue.Descriptors

open Foundation Foundation.Prog Isolation

-- The family in one process after another, each the child of the one before,
-- and the members that the application has dropped.
structure State where
  sys : Sys
  dropped : List Nat

-- A family of one, just made.
def start (pid : Pid) (objects : Objects) : State := ⟨opened pid objects, []⟩

inductive Label
  | call (m : Nat) (op : Op) (oracle : Oracle)
  | drop (m : Nat)
  | collect (io : Nat)
  | fork (pid : Pid)

-- A member that the application still has keeps its own `@io` and, through the
-- shared `@copies`, every key and the `@io` of every listed object.
def referenced (l : State) (io : Nat) : Bool :=
  let family := l.sys.family
  let alive := (List.range family.members.length).filter (· ∉ l.dropped)
  let holds (m : Nat) : Bool := (family.members[m]?).any (·.io == io)
  alive.any holds ||
    !alive.isEmpty && family.copies.any fun pair => pair.1 == io || holds pair.2

-- The garbage collector closes what it finds, unless autoclose is switched off.
def finalize (s : Sys) (io : Nat) : Sys :=
  match s.family.handles[io]? with
  | some x => if x.autoclose then (s.close io x).2 else s
  | none => s

def step (l : State) : Label → Option State
  | .call m op oracle =>
      if m < l.sys.family.members.length ∧ m ∉ l.dropped then
        ((method m op).call oracle l.sys).map fun result => { l with sys := result.2 }
      else none
  | .drop m => some { l with dropped := m :: l.dropped }
  | .collect io => if referenced l io then none else some { l with sys := finalize l.sys io }
  | .fork pid => some { l with sys := { l.sys with self := pid } }

-- Every close and kevent so far was made by the process that had obtained the
-- descriptor.
def Untouched (l : State) : Prop := ∀ issued ∈ l.sys.kernel.log, issued.owner = issued.caller

instance (l : State) : Decidable (Untouched l) :=
  inferInstanceAs (Decidable (∀ issued ∈ l.sys.kernel.log, _))

-- close is not called on an IO that another process made, the collector finds
-- none of those with autoclose on, and no child has a pid that the family has
-- seen before.
def Guard (l : State) : Label → Prop
  | .call m op _ => op = .close → ∀ member x, OpenAs l.sys m member x → x.owner = l.sys.self
  | .drop _ => True
  | .collect io => ∀ x ∈ l.sys.family.handles[io]?, x.closed = false → x.autoclose = true →
      x.owner = l.sys.self
  | .fork pid => (∀ x ∈ l.sys.family.handles, x.owner ≠ pid) ∧
      ∀ member ∈ l.sys.family.members, member.pid ≠ pid

theorem owner_iff (s : Sys) (m : Nat) :
    (∀ member x, OpenAs s m member x → x.owner = s.self) ↔
      ∀ member ∈ s.family.members[m]?, ∀ x ∈ s.family.handles[member.io]?, x.closed = false →
        x.owner = s.self :=
  ⟨fun h member hm x hx hc => h member x ⟨hm, hx, hc⟩, fun h member x ho => h member ho.1 x ho.2.1 ho.2.2⟩

instance (l : State) : (label : Label) → Decidable (Guard l label)
  | .call m op _ => decidable_of_iff (op = .close →
      ∀ member ∈ l.sys.family.members[m]?, ∀ x ∈ l.sys.family.handles[member.io]?, x.closed = false →
        x.owner = l.sys.self) (imp_congr_right fun _ => (owner_iff l.sys m).symm)
  | .drop _ => isTrue trivial
  | .collect io => inferInstanceAs (Decidable (∀ x ∈ l.sys.family.handles[io]?, _))
  | .fork pid => inferInstanceAs (Decidable ((∀ x ∈ l.sys.family.handles, x.owner ≠ pid) ∧ _))

section Methods

variable {strict : Prop} {run : (β : Type) → Sys → Cmd β → Option (β × Sys)} {t m : Nat} {P : Marked → Prop}

theorem sNew_own (hrun : Runs t run) :
    Triple strict t run (fun _ => True) sNew (fun io => Entitled t fun s => Own s io) fun _ => True := by
  refine triple_bind (create_own hrun) fun made => ?_
  cases made with
  | ok io => exact triple_pure fun _ h => h io rfl
  | error errno =>
      refine triple_mono (M := fun _ => True) ?_ (fun _ _ => trivial) (fun _ _ h => h) fun _ h => h
      refine triple_bind (create_own hrun) fun made => ?_
      cases made with
      | ok io => exact triple_pure fun _ h => h io rfl
      | error errno => exact triple_raise fun _ _ => trivial

theorem kqCheck_held (hrun : Runs t run) :
    Triple strict t run (fun _ => True) (kqCheck m) (fun _ => Entitled t fun s => Held s m)
      fun _ => True := by
  refine check_held hrun ⟨fun io => attempt_safe fun _ => trivial, ?_⟩
  refine triple_bind (sNew_own hrun) fun io => ?_
  exact triple_mono (setIo_held hrun (stable_own io) fun _ h => h) (fun _ h => h)
    (fun _ _ h => ⟨h.1, h.2.2⟩) fun _ h => h

theorem toIo_safe (hrun : Runs t run) :
    Triple strict t run (fun _ => True) (toIo m) (fun _ _ => True) fun _ => True := by
  refine synchronize_safe (triple_bind (kqCheck_held hrun) fun _ => ?_)
  exact triple_bind (perform_safe fun _ => trivial) fun io => triple_pure fun _ _ => trivial

theorem ioKevent_safe (hrun : Runs t run) (items : List KeventItem) (nevents : Option Int) (block : Bool) :
    Triple strict t run (Entitled t fun s => Held s m) (ioKevent m items nevents block) (fun _ _ => True)
      fun _ => True := by
  refine triple_bind (getIo_held hrun (stable_held m) fun _ h => h) fun kq => ?_
  refine triple_bind (triple_ofExcept (fun _ _ _ h => h) fun _ _ => trivial) fun nevents => ?_
  refine triple_ensure ?_ (fun _ => perform_safe fun _ => trivial) (perform_safe fun _ => trivial)
  have hown := (stable_held m).and (stable_own kq)
  refine triple_bind (M := fun _ _ => True) ?_ fun n => ?_
  · exact triple_mono (attempt_keeps hrun hown rfl fun _ h => h.2) (fun _ h => h) (fun _ _ _ => trivial)
      fun _ _ => trivial
  · exact triple_bind (yields_safe n) fun _ => triple_pure fun _ _ => trivial

theorem kevent_safe (hrun : Runs t run) (changelist : Changelist) (nevents : Option Int) (block : Bool) :
    Triple strict t run (fun _ => True) (kevent m changelist nevents block) (fun _ _ => True)
      fun _ => True := by
  refine triple_bind (M := fun _ => Entitled t fun s => Held s m) ?_ fun _ => ?_
  · exact synchronize_held hrun (kqCheck_held hrun)
  refine triple_bind (triple_ofExcept (fun _ _ _ h => h) fun _ _ => trivial) fun items => ?_
  exact triple_bind (ioKevent_safe hrun items nevents block) fun n => triple_pure fun _ _ => trivial

theorem method_safe (hrun : Runs t run) (op : Op)
    (hclose : ∀ s, P s → strict → op = .close → Entitled t (fun s => Held s m) s) :
    Triple strict t run P (method m op) (fun _ _ => True) fun _ => True := by
  have hfree : ∀ {program : Method Ret},
      Triple strict t run (fun _ => True) program (fun _ _ => True) (fun _ => True) →
      Triple strict t run P program (fun _ _ => True) fun _ => True :=
    fun h => triple_mono h (fun _ _ => trivial) (fun _ _ h => h) fun _ h => h
  have hdup : Triple strict t run P (Kqueue.dup m) (fun _ _ => True) fun _ => True :=
    triple_bind (dup_safe hrun fun _ => kqCheck_held hrun) fun _ => triple_pure fun _ _ => trivial
  cases op with
  | toIo => exact hfree (toIo_safe hrun)
  | kevent changelist nevents block => exact hfree (kevent_safe hrun changelist nevents block)
  | dup => exact hdup
  | clone => exact hdup
  | closedP => exact triple_bind closedP_safe fun _ => triple_pure fun _ _ => trivial
  | close =>
      refine triple_bind (close_safe hrun fun s h hs => hclose s h hs rfl) fun _ => ?_
      exact triple_pure fun _ _ => trivial

end Methods

section Steps

variable {l l' : State}

theorem start_isolated (pid : Pid) (objects : Objects) : Isolated True (start pid objects).sys := by
  refine ⟨?_, ?_, ?_⟩
  · intro m member _ _ x hx
    exact Or.inr (List.mem_singleton.mp (List.mem_of_getElem? hx) ▸ rfl)
  · simp [start, opened, creators]
  · simp [start, opened]

theorem call_isolated {m : Nat} {op : Op} {oracle : Oracle} {result : Except Err Ret × Sys}
    (h : Isolated True l.sys) (hm : m < l.sys.family.members.length) (hg : Guard l (.call m op oracle))
    (hr : (method m op).call oracle l.sys = some result) : Isolated True result.2 := by
  have hs : Isolated True { l.sys with oracle := oracle } :=
    h.of_alike ⟨rfl, rfl, rfl, rfl⟩ fun _ hmem => Or.inl hmem
  have hheld : True → op = .close → Held { l.sys with oracle := oracle } m := by
    intro _ hclose
    obtain ⟨member, hget⟩ : ∃ member, l.sys.family.members[m]? = some member :=
      ⟨_, List.getElem?_eq_getElem hm⟩
    refine ⟨member, hget, fun x hio => ?_⟩
    cases hc : x.closed with
    | true => exact Or.inl rfl
    | false => exact Or.inr (hg hclose member x ⟨hget, hio, hc⟩)
  -- nothing forks within the call, so that it may count as entitled from the start
  let before : Marked := ⟨{ l.sys with oracle := oracle }, fun _ => .entitled⟩
  have hruns : Runs 0 (exec 0) := fun _ _ _ _ => rfl
  have hready : ∀ s, s = before → True → op = .close → Entitled 0 (fun s => Held s m) s := by
    rintro s rfl _ hclose
    exact ⟨rfl, hheld trivial hclose⟩
  have hguarded := (method_safe hruns op hready).guarded (s := before) rfl hs
  exact run_invariant_guarded (Isolated True) (fun _ _ _ _ hi hsafe he => exec_isolated hi hsafe he)
    hguarded hs hr

theorem finalize_isolated {io : Nat} (h : Isolated True l.sys) (hg : Guard l (.collect io)) :
    Isolated True (finalize l.sys io) := by
  unfold finalize
  split
  · rename_i x hx
    split
    · rename_i hauto
      refine (moves_close h hx fun _ y hy => ?_).1
      obtain rfl := Option.some.inj (hx.symm.trans hy)
      cases hc : x.closed with
      | true => exact Or.inl rfl
      | false => exact Or.inr (hg x hx hc hauto)
    · exact h
  · exact h

theorem fork_isolated {pid : Pid} (h : Isolated True l.sys) (hg : Guard l (.fork pid)) :
    Isolated True { l.sys with self := pid } := by
  refine ⟨fun m member hm hp => ?_, fun x hx ho => ?_, h.log⟩
  · exact absurd hp (hg.2 member (List.mem_of_getElem? hm))
  · exact absurd ho (hg.1 x hx)

theorem step_isolated {label : Label} (h : Isolated True l.sys) (hg : Guard l label)
    (hs : step l label = some l') : Isolated True l'.sys := by
  cases label with
  | call m op oracle =>
      simp only [step, Option.ite_none_right_eq_some, Option.map_eq_some_iff] at hs
      obtain ⟨⟨hm, _⟩, result, hr, rfl⟩ := hs
      exact call_isolated h hm hg hr
  | drop m =>
      cases hs
      exact h
  | collect io =>
      simp only [step, Option.ite_none_left_eq_some, Option.some.injEq] at hs
      obtain ⟨_, rfl⟩ := hs
      exact finalize_isolated h hg
  | fork pid =>
      cases hs
      exact fork_isolated h hg

-- close calls close(2) on whatever the member has as its `@io`.
theorem close_issues {m : Nat} {member : Member} {x : Handle} {oracle : Oracle}
    {result : Except Err Ret × Sys} (ho : OpenAs l.sys m member x)
    (hr : (method m .close).call oracle l.sys = some result) :
    ⟨l.sys.self, .close, x.inst, x.owner⟩ ∈ result.2.kernel.log := by
  obtain ⟨hm, hx, hc⟩ := ho
  have hfree : l.sys.family.mutex = none := by
    cases hmutex : l.sys.family.mutex with
    | none => rfl
    | some t =>
        have hlock : exec 0 Unit { l.sys with oracle := oracle } .lock = none := by simp [exec, hmutex]
        have hstuck : (method m .close).call oracle l.sys = none := by
          change Option.bind (exec 0 Unit { l.sys with oracle := oracle } .lock) _ = none
          rw [hlock]
          rfl
        cases hstuck.symm.trans hr
  have hwp : wp (exec 0) (fun _ s => ⟨l.sys.self, .close, x.inst, x.owner⟩ ∈ s.kernel.log)
      (fun _ s => ⟨l.sys.self, .close, x.inst, x.owner⟩ ∈ s.kernel.log) (method m .close)
      { l.sys with oracle := oracle } := by
    simp only [method, Kqueue.close, Shared.close, wp_monad_bind, wp_synchronize, wp_getIo, wp_getCopies,
      wp_setCopies, wp_close, wp_monad_pure]
    exact ⟨hfree, member, hm, x, hx, ends_of_same (Sys.close_logged hc)⟩
  exact ends_same (wp_of_run hwp hr)

-- Outside the condition a close or a collection touches the number of another
-- process at once.
theorem unguarded_touches {label : Label} (hg : ¬Guard l label) (hfork : ∀ pid, label ≠ .fork pid)
    (hs : step l label = some l') : ¬Untouched l' := by
  cases label with
  | call m op oracle =>
      simp only [Guard, Classical.not_imp, not_forall] at hg
      obtain ⟨rfl, member, x, ho, hforeign⟩ := hg
      simp only [step, Option.ite_none_right_eq_some, Option.map_eq_some_iff] at hs
      obtain ⟨_, result, hr, rfl⟩ := hs
      exact fun hu => hforeign (hu _ (close_issues ho hr))
  | drop m => exact absurd trivial hg
  | collect io =>
      simp only [Guard, Option.mem_def, Classical.not_imp, not_forall] at hg
      obtain ⟨x, hx, hc, hauto, hforeign⟩ := hg
      simp only [step, Option.ite_none_left_eq_some, Option.some.injEq] at hs
      obtain ⟨_, rfl⟩ := hs
      have hfinal : finalize l.sys io = (l.sys.close io x).2 := by simp [finalize, hx, hauto]
      exact fun hu => hforeign (hu _ (hfinal ▸ Sys.close_logged hc))
  | fork pid => exact absurd rfl (hfork pid)

end Steps

-- No process of the family closes or polls a descriptor number that it did not
-- obtain, in every run whose steps all meet the condition.
theorem numbers_untouched (pid : Pid) (objects : Objects) (labels : List Label)
    (hg : Guarded step Guard (start pid objects) labels) :
    Visits step Untouched (start pid objects) labels := by
  refine visits_of_guarded (fun l => Isolated True l.sys) _ (fun l h issued hmem => ?_)
    (fun _ _ _ h hg hs => step_isolated h hg hs) (start_isolated pid objects) hg
  obtain ⟨hclose, hother⟩ := h.log issued hmem
  by_cases hc : issued.call = .close
  · exact hclose hc trivial
  · exact (hother hc).1

-- A child uses a copy and closes it; the inherited IOs are collected.
theorem numbers_untouched_used :
    Visits step Untouched (start 1 noObjects)
      [.call 0 .dup {}, .fork 2, .call 0 .toIo {}, .collect 0, .call 0 .close {}] :=
  numbers_untouched 1 noObjects _ (by decide +kernel)

-- A child closes a member that it has not used, drops the family unused, or is
-- itself the parent of one that makes a new `@io` in place of its own.
theorem inherited_closed :
    (∃ l, runEvents step (start 1 noObjects) [.fork 2, .call 0 .close {}] = some l ∧ ¬Untouched l) ∧
    (∃ l, runEvents step (start 1 noObjects) [.fork 2, .drop 0, .collect 0] = some l ∧ ¬Untouched l) ∧
    ∃ l, runEvents step (start 1 noObjects)
      [.fork 2, .call 0 .toIo {}, .fork 3, .call 0 .toIo {}, .collect 1] = some l ∧ ¬Untouched l := by
  have hrun : ∀ {labels : List Label},
      (runEvents step (start 1 noObjects) labels).map (fun l => decide (Untouched l)) = some false →
      ∃ l, runEvents step (start 1 noObjects) labels = some l ∧ ¬Untouched l := by
    intro labels h
    obtain ⟨l, hl, hu⟩ := Option.map_eq_some_iff.mp h
    exact ⟨l, hl, of_decide_eq_false hu⟩
  refine ⟨hrun ?_, hrun ?_, hrun ?_⟩
  · decide +kernel
  · decide +kernel
  · decide +kernel

end SleepyPenguin.Kqueue.Descriptors
