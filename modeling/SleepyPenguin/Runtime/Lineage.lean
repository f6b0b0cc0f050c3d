import SleepyPenguin.Foundation.Run
import SleepyPenguin.Runtime.Reinit

-- A family of objects in one process after another, each the child of the
-- one before. Epoll and Kqueue differ in their methods and in how they make
-- an instance; what becomes of the members is the same.
namespace SleepyPenguin.Lineage

open Foundation

structure Interface (Op Ret : Type) where
  method : Nat → Op → Method Ret
  -- whether a call gets as far as the fork check
  reaches : Objects → Op → Bool
  closes : Op → Bool
  duplicates : Op → Bool
  -- whether the objects of a call answer for themselves, and whether a
  -- re-initialisation gets its new instance
  steady : Oracle → Prop
  renews : Oracle → Prop

inductive Label (Op : Type)
  | call (m : Nat) (op : Op) (oracle : Oracle)
  | fork (pid : Pid)

-- The family now and as it was at the last fork, the members closed since,
-- and the state after the first call since that reached the fork check.
structure State where
  sys : Sys
  forked : Sys
  closed : List Nat
  used : Option Sys

-- A family of one, just made.
def start (pid : Pid) (objects : Objects) : State :=
  ⟨opened pid objects, opened pid objects, [], some (opened pid objects)⟩

variable {Op Ret : Type} (api : Interface Op Ret)

-- After a fork the run goes on in the child, whose pid is a new one.
def step (l : State) : Label Op → Option State
  | .call m op oracle =>
      if m < l.sys.family.members.length then
        ((api.method m op).call oracle l.sys).map fun result =>
          { l with
            sys := result.2
            closed := if api.closes op then m :: l.closed else l.closed
            used := l.used.or (if api.reaches l.sys.objects op then some result.2 else none) }
      else none
  | .fork pid =>
      if pid ≠ l.sys.self ∧ pid ∉ creators l.sys ∧ ∀ member ∈ l.sys.family.members, member.pid ≠ pid then
        let child : Sys := { l.sys with self := pid }
        some ⟨child, child, [], none⟩
      else none

-- A call that reaches the fork check either finds no open member of another
-- process, or it re-initialises the only open member, not through a copy of
-- it, and gets its new instance.
def Guard (l : State) : Label Op → Prop
  | .call m op oracle => api.steady oracle ∧ (api.reaches l.sys.objects op = true →
      (∀ k member x, OpenAs l.sys k member x → member.pid = l.sys.self) ∨
      ((∀ k, OpenAt l.sys k → k = m) ∧ api.duplicates op = false ∧ api.renews oracle))
  | .fork _ => True

-- No open member is up to date.
def Outdated (s : Sys) : Prop := ∀ k member x, OpenAs s k member x → member.pid ≠ s.self

-- What a call leaves behind that does not re-initialise.
structure Spared (Base : Objects → Prop) (Fair : Sys → Nat → Prop) (closing : Prop) (m : Nat)
    (s s' : Sys) : Prop where
  moved : Moved closing m s s'
  creators : creators s' = creators s
  base : Base s.objects → Base s'.objects
  fair : ∀ e, Fair s e → Fair s' e

-- What the first use leaves behind: `Good`, or, where the duplicates could
-- not be listed, a member that will re-initialise again.
structure Used (Base : Objects → Prop) (Good Fair : Sys → Nat → Prop) (m : Nat) (s s' : Sys) : Prop where
  self : s'.self = s.self
  openAt : OpenAt s' m
  shared : ∃ e, (creators s')[e]? = some s.self ∧
    (Good s' e ∨ Wired s' ∧ Base s'.objects ∧ Outdated s' ∧ Fair s' e)

-- What the methods have to satisfy. `Fair s e` says that the family works on
-- the instance `e`, with objects of the kind `Base`; `Good` adds that every
-- open member belongs to this process.
structure Laws (Base : Objects → Prop) (Good Fair : Sys → Nat → Prop) : Prop where
  settled : ∀ s e, Good s e → Settled s e ∧ Base s.objects ∧ Fair s e
  onGood : ∀ s e m op oracle result, Good s e → api.steady oracle → m < s.family.members.length →
    (api.method m op).call oracle s = some result →
    Good result.2 e ∧ creators result.2 = creators s ∧ Moved (api.closes op = true) m s result.2
  onClosed : ∀ s m op oracle result, Wired s → m < s.family.members.length → ¬OpenAt s m →
    (api.method m op).call oracle s = some result →
    Spared Base Fair (api.closes op = true) m s result.2
  short : ∀ s m op oracle result, Wired s → api.steady oracle → m < s.family.members.length →
    api.reaches s.objects op = false → (api.method m op).call oracle s = some result →
    Spared Base Fair (api.closes op = true) m s result.2
  first : ∀ s m op oracle member x result, Wired s → Base s.objects → api.steady oracle →
    OpenAs s m member x → member.pid ≠ s.self → (∀ k, OpenAt s k → k = m) →
    api.reaches s.objects op = true → api.duplicates op = false → api.renews oracle →
    (api.method m op).call oracle s = some result →
    api.closes op = false ∧ Used Base Good Fair m s result.2

-- Whoever was up to date after the first use was so on instance `e`.
def Lasting (used : Option Sys) (e : Nat) : Prop :=
  ∀ s, used = some s → ∀ m member x, OpenAs s m member x → member.pid = s.self → x.inst = e

-- Whoever was open at the fork and has not been closed since is open; the
-- open members share one instance of this process, the one that was there
-- after the first use.
structure Survived (Good Fair : Sys → Nat → Prop) (l : State) : Prop where
  openAt : ∀ m, OpenAt l.forked m → m ∉ l.closed → OpenAt l.sys m
  shared : (∃ m, OpenAt l.sys m) → ∃ e, Fair l.sys e ∧ (creators l.sys)[e]? = some l.sys.self ∧
    Lasting l.used e
  good : ∀ m member x, OpenAs l.sys m member x → member.pid = l.sys.self → ∃ e, Good l.sys e

variable {api} {Base : Objects → Prop} {Good Fair : Sys → Nat → Prop}

inductive Phase (Base : Objects → Prop) (Good Fair : Sys → Nat → Prop) (l : State) : Prop
  | stale (hw : Wired l.sys) (hb : Base l.sys.objects) (hp : Outdated l.sys)
      (hu : ∀ s, l.used = some s → Outdated s ∧ ∃ e, Fair l.sys e ∧ (creators l.sys)[e]? = some l.sys.self)
  | gone (hw : Wired l.sys) (hb : Base l.sys.objects) (hn : ∀ k, ¬OpenAt l.sys k)
  | shared (e : Nat) (hg : Good l.sys e) (hown : (creators l.sys)[e]? = some l.sys.self)
      (hu : Lasting l.used e)

structure Invariant (Base : Objects → Prop) (Good Fair : Sys → Nat → Prop) (l : State) : Prop where
  phase : Phase Base Good Fair l
  kept : ∀ m, OpenAt l.forked m → m ∉ l.closed → OpenAt l.sys m

theorem start_invariant (pid : Pid) (objects : Objects) (hg : Good (opened pid objects) 0) :
    Invariant Base Good Fair (start pid objects) := by
  refine ⟨.shared 0 hg rfl ?_, fun _ hm _ => hm⟩
  intro s hs m member x hk _
  cases hs
  exact ((opened_settled pid objects).shared m member x hk).2

section Moved

variable {closing : Prop} {l : State} {m : Nat} {s : Sys}

theorem gone_of_moved (hn : ∀ k, ¬OpenAt l.sys k) (hm : Moved closing m l.sys s) (k : Nat) :
    ¬OpenAt s k := by
  rintro ⟨new, y, ho⟩
  obtain ⟨k', old, y', hold, _⟩ := hm.origin k new y ho
  exact hn k' ⟨old, y', hold⟩

theorem outdated_of_moved (hp : Outdated l.sys) (hm : Moved closing m l.sys s) : Outdated s := by
  intro k new y ho
  obtain ⟨k', old, y', hold, hpid, _⟩ := hm.origin k new y ho
  rw [hpid, hm.self]
  exact hp k' old y' hold

theorem kept_of_moved {closes : Bool} (h : Invariant Base Good Fair l)
    (hm : Moved (closes = true) m l.sys s) :
    ∀ k, OpenAt l.forked k → k ∉ (if closes then m :: l.closed else l.closed) → OpenAt s k := by
  intro k hk hnot
  have hnot' : k ∉ l.closed ∧ (closes = true → k ≠ m) := by
    split at hnot
    · exact ⟨fun h => hnot (List.mem_cons_of_mem _ h), fun _ h => hnot (h ▸ List.mem_cons_self)⟩
    · rename_i hne
      exact ⟨hnot, fun h => absurd h hne⟩
  obtain ⟨member, x, ho⟩ := h.kept k hk hnot'.1
  exact ⟨member, x, hm.kept k member x ho hnot'.2⟩

end Moved

section Steps

variable {l l' : State} {m : Nat} {op : Op} {oracle : Oracle}

theorem Phase.wired (laws : Laws api Base Good Fair) (h : Phase Base Good Fair l) :
    Wired l.sys ∧ Base l.sys.objects := by
  cases h with
  | stale hw hb | gone hw hb => exact ⟨hw, hb⟩
  | shared e hg _ _ => exact ⟨(laws.settled _ _ hg).1.toWired, (laws.settled _ _ hg).2.1⟩

-- The first call that reaches the check is the one that is remembered.
theorem used_cases {used : Option Sys} {s q : Sys} {reached : Bool}
    (hq : used.or (if reached then some s else none) = some q) :
    used = some q ∨ used = none ∧ reached = true ∧ q = s := by
  cases used with
  | some first => exact Or.inl hq
  | none =>
      rw [Option.none_or] at hq
      split at hq
      · rename_i hr
        exact Or.inr ⟨rfl, hr, (Option.some.inj hq).symm⟩
      · cases hq

theorem Lasting.or {used : Option Sys} {s : Sys} {e : Nat} {reached : Bool} (hu : Lasting used e)
    (hs : ∀ m member x, OpenAs s m member x → x.inst = e) :
    Lasting (used.or (if reached then some s else none)) e := by
  intro q hq m member x hm hp
  rcases used_cases hq with hq | ⟨_, _, rfl⟩
  · exact hu q hq m member x hm hp
  · exact hs m member x hm

section Stale

variable {s : Sys}

theorem stale_of_spared (h : Invariant Base Good Fair l) (hb : Base l.sys.objects) (hp : Outdated l.sys)
    (hu : ∀ s, l.used = some s → Outdated s ∧ ∃ e, Fair l.sys e ∧ (creators l.sys)[e]? = some l.sys.self)
    (hs : Spared Base Fair (api.closes op = true) m l.sys s) :
    Invariant Base Good Fair { l with
      sys := s
      closed := if api.closes op then m :: l.closed else l.closed } := by
  refine ⟨.stale hs.moved.wired (hs.base hb) (outdated_of_moved hp hs.moved) fun q hq => ?_,
    kept_of_moved h hs.moved⟩
  obtain ⟨hout, e, hfair, hown⟩ := hu q hq
  refine ⟨hout, e, hs.fair e hfair, ?_⟩
  rw [hs.creators, hs.moved.self]
  exact hown

-- The only open member re-initialises, for the first time or again.
theorem invariant_of_first (laws : Laws api Base Good Fair) (h : Invariant Base Good Fair l)
    (hsole : ∀ k, OpenAt l.sys k → k = m) (hclose : api.closes op = false) {reached : Bool}
    (hu : ∀ s, l.used = some s → Outdated s) (hs : Used Base Good Fair m l.sys s) :
    Invariant Base Good Fair { l with
      sys := s
      closed := if api.closes op then m :: l.closed else l.closed
      used := l.used.or (if reached then some s else none) } := by
  obtain ⟨e, hown, hstate⟩ := hs.shared
  have hown' : (creators s)[e]? = some s.self := hs.self.symm ▸ hown
  have hkept : ∀ k, OpenAt l.forked k →
      k ∉ (if api.closes op then m :: l.closed else l.closed) → OpenAt s k := by
    intro k hk hnot
    rw [hclose] at hnot
    obtain rfl := hsole k (h.kept k hk hnot)
    exact hs.openAt
  have hlasting : Lasting l.used e := fun q hq k member x hk hp => absurd hp (hu q hq k member x hk)
  refine ⟨?_, hkept⟩
  rcases hstate with hgood | ⟨hw, hb, hp, hfair⟩
  · refine .shared e hgood hown' (hlasting.or fun k member x hk => ?_)
    exact ((laws.settled _ _ hgood).1.shared k member x hk).2
  · refine .stale hw hb hp fun q hq => ⟨?_, e, hfair, hown'⟩
    rcases used_cases hq with hq | ⟨_, _, rfl⟩
    · exact hu q hq
    · exact hp

end Stale

theorem call_invariant (laws : Laws api Base Good Fair) (h : Invariant Base Good Fair l)
    (hg : Guard api l (.call m op oracle)) (hs : step api l (.call m op oracle) = some l') :
    Invariant Base Good Fair l' := by
  simp only [step, Option.ite_none_right_eq_some, Option.map_eq_some_iff] at hs
  obtain ⟨hm, result, hr, rfl⟩ := hs
  cases h.phase with
  | shared e hgood hown hu =>
      obtain ⟨hgood', hcreators, hmoved⟩ := laws.onGood _ _ _ _ _ _ hgood hg.1 hm hr
      refine ⟨.shared e hgood' ?_ (hu.or fun k member x hk => ?_), kept_of_moved h hmoved⟩
      · rw [hcreators, hmoved.self]
        exact hown
      · exact ((laws.settled _ _ hgood').1.shared k member x hk).2
  | gone hw hb hn =>
      have hspared := laws.onClosed _ _ _ _ _ hw hm (hn m) hr
      exact ⟨.gone hspared.moved.wired (hspared.base hb) (gone_of_moved hn hspared.moved),
        kept_of_moved h hspared.moved⟩
  | stale hw hb hp hu =>
      cases hreach : api.reaches l.sys.objects op with
      | false =>
          have hspared := laws.short _ _ _ _ _ hw hg.1 hm hreach hr
          have hinv := stale_of_spared h hb hp hu hspared
          simp only [Bool.false_eq_true, ite_false, Option.or_none]
          exact hinv
      | true =>
          by_cases hopen : OpenAt l.sys m
          · obtain ⟨member, x, hopen⟩ := hopen
            rcases hg.2 hreach with hown | ⟨hsole, hdup, hok⟩
            · exact absurd (hown m member x hopen) (hp m member x hopen)
            · obtain ⟨hclose, hused⟩ := laws.first _ _ _ _ _ _ _ hw hb hg.1 hopen (hp m member x hopen)
                hsole hreach hdup hok hr
              exact invariant_of_first laws h hsole hclose (fun s hs => (hu s hs).1) hused
          · have hspared := laws.onClosed _ _ _ _ _ hw hm hopen hr
            have hn : ∀ k, ¬OpenAt l.sys k := by
              rintro k ⟨member, x, hk⟩
              rcases hg.2 hreach with hown | ⟨hsole, _⟩
              · exact hp k member x hk (hown k member x hk)
              · exact hopen (hsole k ⟨member, x, hk⟩ ▸ ⟨member, x, hk⟩)
            exact ⟨.gone hspared.moved.wired (hspared.base hb) (gone_of_moved hn hspared.moved),
              kept_of_moved h hspared.moved⟩

theorem fork_invariant {pid : Pid} (laws : Laws api Base Good Fair) (h : Invariant Base Good Fair l)
    (hs : step api l (.fork pid) = some l') : Invariant Base Good Fair l' := by
  simp only [step, Option.ite_none_right_eq_some, Option.some.injEq] at hs
  obtain ⟨⟨_, _, hfresh⟩, rfl⟩ := hs
  obtain ⟨hw, hb⟩ := h.phase.wired laws
  refine ⟨.stale ⟨hw.idle, hw.handle, hw.member, hw.key, hw.apart⟩ hb ?_ ?_, fun m hm _ => hm⟩
  · intro k member x hk
    exact hfresh member (List.mem_of_getElem? hk.1)
  · intro s hs
    cases hs

theorem Invariant.survived (laws : Laws api Base Good Fair) (h : Invariant Base Good Fair l)
    (hu : l.used.isSome) : Survived Good Fair l := by
  obtain ⟨s, hs⟩ := Option.isSome_iff_exists.mp hu
  cases h.phase with
  | stale _ _ hp hstale =>
      obtain ⟨_, e, hfair, hown⟩ := hstale s hs
      refine ⟨h.kept, fun _ => ⟨e, hfair, hown, fun q hq k member x hk hpid => ?_⟩,
        fun m member x hm hpid => absurd hpid (hp m member x hm)⟩
      exact absurd hpid ((hstale q hq).1 k member x hk)
  | gone _ _ hn =>
      exact ⟨h.kept, fun ⟨m, hm⟩ => absurd hm (hn m), fun m member x hm _ => absurd ⟨member, x, hm⟩ (hn m)⟩
  | shared e hgood hown hused =>
      exact ⟨h.kept, fun _ => ⟨e, (laws.settled _ _ hgood).2.2, hown, hused⟩, fun _ _ _ _ _ => ⟨e, hgood⟩⟩

end Steps

-- From the first call that reaches the fork check on, the members survive a
-- fork, as long as every such call meets the guard.
theorem visits_survived (laws : Laws api Base Good Fair) {first : State}
    (h : Invariant Base Good Fair first) (labels : List (Label Op))
    (hg : Guarded (step api) (Guard api) first labels) :
    Visits (step api) (fun l => l.used.isSome → Survived Good Fair l) first labels := by
  refine visits_of_guarded (Invariant Base Good Fair) _ (fun _ h hu => h.survived laws hu) ?_ h hg
  intro l label l' h hg hs
  cases label with
  | call m op oracle => exact call_invariant laws h hg hs
  | fork pid => exact fork_invariant laws h hs

section Checks

-- The condition on a call, by a look at the members that there are.
def ownMembers (s : Sys) : Bool := (List.range s.family.members.length).all fun k =>
  !isOpen s k || (s.family.members[k]?.map Member.pid) == some s.self

def soleMember (s : Sys) (m : Nat) : Bool := (List.range s.family.members.length).all fun k =>
    !isOpen s k || k == m

def meets (api : Interface Op Ret) (l : State) : Label Op → Bool
  | .call m op _ =>
      !api.reaches l.sys.objects op || ownMembers l.sys || (soleMember l.sys m && !api.duplicates op)
  | .fork _ => true

def Label.Plain (api : Interface Op Ret) : Label Op → Prop
  | .call _ _ oracle => api.steady oracle ∧ api.renews oracle
  | .fork _ => True

theorem mem_range_of_openAs {s : Sys} {k : Nat} {member : Member} {x : Handle} (h : OpenAs s k member x) :
    k ∈ List.range s.family.members.length ∧ isOpen s k = true :=
  ⟨List.mem_range.mpr (List.getElem?_eq_some_iff.mp h.1).1, (isOpen_iff s k).mpr ⟨member, x, h⟩⟩

theorem of_ownMembers {s : Sys} (h : ownMembers s = true) :
    ∀ k member x, OpenAs s k member x → member.pid = s.self := by
  intro k member x hk
  obtain ⟨hrange, hopen⟩ := mem_range_of_openAs hk
  have hself := List.all_eq_true.mp h k hrange
  simpa [hopen, hk.1] using hself

theorem of_soleMember {s : Sys} {m : Nat} (h : soleMember s m = true) : ∀ k, OpenAt s k → k = m := by
  rintro k ⟨member, x, hk⟩
  obtain ⟨hrange, hopen⟩ := mem_range_of_openAs hk
  have hsame := List.all_eq_true.mp h k hrange
  simpa [hopen] using hsame

theorem guard_of_meets {label : Label Op} (hplain : label.Plain api) (h : meets api l label = true) :
    Guard api l label := by
  cases label with
  | fork pid => trivial
  | call m op oracle =>
      refine ⟨hplain.1, fun hreach => ?_⟩
      simp only [meets, hreach, Bool.not_true, Bool.false_or, Bool.or_eq_true, Bool.and_eq_true,
        Bool.not_eq_true'] at h
      rcases h with hown | ⟨hsole, hdup⟩
      · exact Or.inl (of_ownMembers hown)
      · exact Or.inr ⟨of_soleMember hsole, hdup, hplain.2⟩

theorem guarded_of_meets {labels : List (Label Op)} (hplain : ∀ label ∈ labels, label.Plain api)
    (h : Guarded (step api) (fun l label => meets api l label = true) l labels) :
    Guarded (step api) (Guard api) l labels := by
  induction labels generalizing l with
  | nil => trivial
  | cons label rest ih =>
      exact ⟨guard_of_meets (hplain label List.mem_cons_self) h.1,
        fun l' hl => ih (fun other ho => hplain other (List.mem_cons_of_mem _ ho)) (h.2 l' hl)⟩

end Checks

end SleepyPenguin.Lineage
