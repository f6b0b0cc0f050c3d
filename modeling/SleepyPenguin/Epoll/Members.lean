import SleepyPenguin.Epoll.Effects

namespace SleepyPenguin.Epoll

open Foundation Foundation.Prog

-- The tables and the instances are as before.
structure Unchanged (s s' : Sys) : Prop where
  self : s'.self = s.self
  marks : s'.family.marks = s.family.marks
  events : s'.family.events = s.family.events
  objects : s'.objects = s.objects
  insts : s'.kernel.insts = s.kernel.insts

theorem Unchanged.of_kept {s s' : Sys} (h : Kept s s') : Unchanged s s' :=
  ⟨h.self, h.marks, h.events, h.objects, h.insts⟩

theorem Quiet.unchanged {x : Handle} {s s' : Sys} (h : Quiet x s s') : Unchanged s s' :=
  ⟨h.self, by rw [h.family], by rw [h.family], h.objects, h.insts⟩

theorem Quiet.sameMembers {x : Handle} {s s' : Sys} (h : Quiet x s s') : SameMembers s s' :=
  ⟨h.self, by rw [h.family], by rw [h.family], by rw [h.family], by rw [h.family], by rw [h.insts]⟩

theorem Effect.sameMembers {plain : Prop} {first : Option Errno} {op : Op} {x : Handle} {inst : Inst}
    {s s' : Sys} (h : Effect plain first op x inst s s') : SameMembers s s' := by
  cases h with
  | quiet hq => exact hq.sameMembers
  | register hq | remodify hq | remove hq =>
      have hm := hq.sameMembers
      exact ⟨hm.self, hm.members, hm.handles, hm.copies, hm.mutex,
        by simp [Sys.setInterest, Sys.store, hm.insts]⟩

theorem Waited.sameMembers {x : Handle} {inst : Inst} {s s' : Sys} (h : Waited x inst s s') :
    SameMembers s s' := by
  refine ⟨h.self, by rw [h.family], by rw [h.family], by rw [h.family], by rw [h.family], ?_⟩
  rcases h.insts with hi | ⟨_, _, hi⟩ <;> simp [hi, Sys.setInterest]

theorem Effect.creators {plain : Prop} {first : Option Errno} {op : Op} {x : Handle} {inst : Inst}
    {s s' : Sys} (h : Effect plain first op x inst s s') : creators s' = creators s := by
  cases h with
  | quiet hq => exact creators_congr hq.insts
  | register hq | remodify hq | remove hq =>
      exact (creators_setInterest ..).trans (creators_congr hq.insts)

theorem Waited.creators {x : Handle} {inst : Inst} {s s' : Sys} (h : Waited x inst s s') :
    creators s' = creators s := by
  rcases h.insts with hi | ⟨_, _, hi⟩
  · exact creators_congr hi
  · exact (creators_congr hi).trans (creators_setInterest ..)

def closes : Op → Bool
  | .close => true
  | _ => false

-- How a call of `op` on a member that passes the fork check ends.
inductive Outcome (op : Op) (m : Nat) (member : Member) (x : Handle) (inst : Inst) (s : Sys) :
    Sys → Prop
  | effect {s' : Sys}
      (h : Effect (s.oracle.answers = []) (s.oracle.ctls.headD none) op x inst s s') :
      Outcome op m member x inst s s'
  | waited {s' : Sys} (h : Waited x inst s s') : Outcome op m member x inst s s'
  | duplicated {s' : Sys} (hk : Kept s s') (hd : Duplicated s member x s') :
      Outcome op m member x inst s s'
  | failed {s' : Sys} (hk : Kept s s') (hf : SameFamily s s') : Outcome op m member x inst s s'
  | closed {s' : Sys} (hop : op = .close) (hk : Kept s s') (hc : Closed s member x s') :
      Outcome op m member x inst s s'

section Calls

variable {t m : Nat} {member : Member} {x : Handle} {inst : Inst} {s s' : Sys} {op : Op}

theorem Outcome.moved (hs : Wired s) (hp : Passes s m member x)
    (h : Outcome op m member x inst s s') : Moved (closes op = true) m s s' := by
  cases h with
  | effect he => exact Moved.of_same he.sameMembers hs
  | waited hw => exact Moved.of_same hw.sameMembers hs
  | duplicated hk hd => exact .of_duplicated hs hp hk hd
  | failed hk hf => exact .of_sameFamily hs hk hf
  | closed hop hk hc => exact .of_closed hs (hop ▸ rfl) hp.listed hp.handle hk hc

theorem Outcome.creators (h : Outcome op m member x inst s s') : creators s' = creators s := by
  cases h with
  | effect he => exact he.creators
  | waited hw => exact hw.creators
  | duplicated hk _ | failed hk _ | closed _ hk _ => exact creators_congr hk.insts

theorem dup_outcome (hp : Passes s m member x) (hs : s.family.mutex = none) :
    wp (exec t) (fun _ s' => Outcome op m member x inst s s')
      (fun _ s' => Outcome op m member x inst s s' ∧ Unchanged s s') (Epoll.dup m) s := by
  simp only [Epoll.dup, wp_monad_bind, wp_monad_pure]
  refine wp_mono (hp.wp_dup hs _ _) ?_ ?_
  · intro _ _ hs'
    obtain ⟨_, hk, hd, _⟩ := hs'
    exact .duplicated hk hd
  · intro _ _ hs'
    obtain ⟨hk, hf, _⟩ := hs'
    exact ⟨.failed hk hf, .of_kept hk⟩

theorem close_outcome (hm : s.family.members[m]? = some member)
    (hx : s.family.handles[member.io]? = some x) (hs : s.family.mutex = none) :
    wp (exec t) (fun _ s' => Outcome .close m member x inst s s')
      (fun _ s' => Outcome .close m member x inst s s' ∧ Unchanged s s') (Epoll.close m) s := by
  simp only [Epoll.close, wp_monad_bind, wp_monad_pure]
  exact wp_mono (wp_sharedClose hm hx hs) (fun _ _ hs' => .closed rfl hs'.1 hs'.2)
    fun _ _ hs' => ⟨.closed rfl hs'.1 hs'.2, .of_kept hs'.1⟩

-- Neither needs the fork check.
theorem close_moved (hw : Wired s) (hm : s.family.members[m]? = some member)
    (hx : s.family.handles[member.io]? = some x) :
    wp (exec t) (fun _ s' => Moved True m s s' ∧ Unchanged s s')
      (fun _ s' => Moved True m s s' ∧ Unchanged s s') (Epoll.close m) s := by
  have hmoved : ∀ s', Kept s s' ∧ Closed s member x s' → Moved True m s s' ∧ Unchanged s s' :=
    fun s' ⟨hk, hc⟩ => ⟨.of_closed hw trivial hm hx hk hc, .of_kept hk⟩
  simp only [Epoll.close, wp_monad_bind, wp_monad_pure]
  exact wp_mono (wp_sharedClose hm hx hw.idle) (fun _ s' hs' => hmoved s' hs')
    fun _ s' hs' => hmoved s' hs'

theorem closedP_moved (hw : Wired s) (hm : s.family.members[m]? = some member)
    (hx : s.family.handles[member.io]? = some x) :
    wp (exec t) (fun _ s' => Moved False m s s' ∧ Unchanged s s')
      (fun _ s' => Moved False m s s' ∧ Unchanged s s') (Epoll.closedP m) s := by
  simp only [Epoll.closedP, wp_monad_bind, wp_monad_pure]
  refine wp_mono (SleepyPenguin.wp_closedP hm hx hw.idle) ?_ (fun _ _ hf => hf)
  rintro _ s' ⟨_, rfl⟩
  exact ⟨Moved.of_same ⟨rfl, rfl, rfl, rfl, rfl, rfl⟩ hw, rfl, rfl, rfl, rfl, rfl⟩

-- The methods that neither close the member nor duplicate it. Only `wait` can
-- have changed something when it raises.
theorem method_changes (hp : Passes s m member x) (hinst : s.kernel.insts[x.inst]? = some inst)
    (hs : s.family.mutex = none) (hdup : op ≠ .dup) (hclone : op ≠ .clone) (hclose : op ≠ .close) :
    wp (exec t)
      (fun _ s' => Effect (s.oracle.answers = []) (s.oracle.ctls.headD none) op x inst s s' ∨
        Waited x inst s s')
      (fun _ s' => Quiet x s s' ∨ (∃ n, op = .wait n) ∧ Waited x inst s s')
      (Epoll.method m op) s := by
  have hc : Current s m x inst := ⟨⟨member, hp⟩, hinst⟩
  cases op with
  | toIo => exact wp_mono (toIo_quiet hc hs) (fun _ _ hq => .inl (.quiet hq)) fun _ _ hq => .inl hq
  | wait n => exact wp_mono (wait_effect hc hs) (fun _ _ hw => .inr hw) fun _ _ hw => .inr ⟨⟨n, rfl⟩, hw⟩
  | add io ev => exact wp_mono (add_effect hc hs) (fun _ _ he => .inl he) fun _ _ hq => .inl hq
  | del io => exact wp_mono (del_effect hc hs) (fun _ _ he => .inl he) fun _ _ hq => .inl hq
  | delete io => exact wp_mono (delete_effect hc hs) (fun _ _ he => .inl he) fun _ _ hq => .inl hq
  | mod io ev => exact wp_mono (mod_effect hc hs) (fun _ _ he => .inl he) fun _ _ hq => .inl hq
  | set io ev => exact wp_mono (set_effect hc hs) (fun _ _ he => .inl he) fun _ _ hq => .inl hq
  | ioFor arg => exact wp_mono (ioFor_quiet hc hs) (fun _ _ hq => .inl (.quiet hq)) fun _ _ hq => .inl hq
  | eventsFor arg =>
      exact wp_mono (eventsFor_quiet hc hs) (fun _ _ hq => .inl (.quiet hq)) fun _ _ hq => .inl hq
  | includeP arg =>
      exact wp_mono (includeP_quiet hc hs) (fun _ _ hq => .inl (.quiet hq)) fun _ _ hq => .inl hq
  | closedP =>
      simp only [method, Epoll.closedP, wp_monad_bind, wp_monad_pure]
      refine wp_mono (wp_closedP hp.listed hp.handle hs) ?_ fun _ _ hf => hf
      rintro _ s' ⟨_, rfl⟩
      exact .inl (.quiet (.refl x s'))
  | dup => exact absurd rfl hdup
  | clone => exact absurd rfl hclone
  | close => exact absurd rfl hclose

-- One call, whichever method it is and however it ends.
theorem method_outcome (hp : Passes s m member x) (hinst : s.kernel.insts[x.inst]? = some inst)
    (hs : s.family.mutex = none) (op : Op) :
    wp (exec t) (fun _ s' => Outcome op m member x inst s s')
      (fun _ s' => Outcome op m member x inst s s' ∧ ((∀ n, op ≠ .wait n) → Unchanged s s'))
      (Epoll.method m op) s := by
  by_cases hdup : op = .dup
  · subst hdup
    exact wp_mono (dup_outcome hp hs) (fun _ _ ho => ho) fun _ _ ho => ⟨ho.1, fun _ => ho.2⟩
  by_cases hclone : op = .clone
  · subst hclone
    exact wp_mono (dup_outcome hp hs) (fun _ _ ho => ho) fun _ _ ho => ⟨ho.1, fun _ => ho.2⟩
  by_cases hclose : op = .close
  · subst hclose
    exact wp_mono (close_outcome hp.listed hp.handle hs) (fun _ _ ho => ho)
      fun _ _ ho => ⟨ho.1, fun _ => ho.2⟩
  refine wp_mono (method_changes hp hinst hs hdup hclone hclose) ?_ ?_
  · intro _ s' h
    rcases h with he | hw
    · exact .effect he
    · exact .waited hw
  · intro _ s' h
    rcases h with hq | ⟨⟨n, rfl⟩, hw⟩
    · exact ⟨.effect (.quiet hq), fun _ => hq.unchanged⟩
    · exact ⟨.waited hw, fun hne => absurd rfl (hne n)⟩

end Calls

-- What a call of `op` on `m` does to the tables and to instance `i`.
inductive Change (plain : Prop) (first : Option Errno) (op : Op) (i m : Nat) (s : Sys) : Sys → Prop
  | unchanged {s' : Sys} (h : Unchanged s s') : Change plain first op i m s s'
  | effect {x : Handle} {inst : Inst} {s' : Sys} (hi : x.inst = i)
      (hinst : s.kernel.insts[i]? = some inst) (hopen : OpenAt s m)
      (h : Effect plain first op x inst s s') : Change plain first op i m s s'
  | waited {x : Handle} {inst : Inst} {s' : Sys} (hi : x.inst = i)
      (hinst : s.kernel.insts[i]? = some inst) (h : Waited x inst s s') :
      Change plain first op i m s s'

-- The members, and what happened to the tables, after a call on `m`.
structure After (s : Sys) (i m : Nat) (op : Op) (s' : Sys) : Prop where
  settled : Settled s' i
  moved : Moved (closes op = true) m s s'
  creators : creators s' = creators s
  change : Change (s.oracle.answers = []) (s.oracle.ctls.headD none) op i m s s'

section Settled

variable {t i m : Nat} {member : Member} {x : Handle} {inst : Inst} {s s' : Sys} {op : Op}

-- On a closed IO nothing reaches the kernel.
theorem Outcome.unchanged_of_closed (hc : x.closed = true) (ho : Outcome op m member x inst s s') :
    Unchanged s s' := by
  cases ho with
  | effect he =>
      cases he with
      | quiet hq => exact hq.unchanged
      | register _ hx | remodify _ hx | remove _ hx => simp [hc] at hx
  | waited hw =>
      refine ⟨hw.self, by rw [hw.family], by rw [hw.family], hw.objects, ?_⟩
      rcases hw.insts with hk | ⟨hx, _⟩
      · exact hk
      · simp [hc] at hx
  | duplicated hk _ | failed hk _ | closed _ hk _ => exact .of_kept hk

theorem Change.of_outcome (hp : Passes s m member x) (hinst : s.kernel.insts[x.inst]? = some inst)
    (hi : x.closed = false → x.inst = i) (ho : Outcome op m member x inst s s') :
    Change (s.oracle.answers = []) (s.oracle.ctls.headD none) op i m s s' := by
  cases hc : x.closed with
  | true => exact .unchanged (ho.unchanged_of_closed hc)
  | false =>
      cases ho with
      | effect he => exact .effect (hi hc) (hi hc ▸ hinst) ⟨member, x, hp.listed, hp.handle, hc⟩ he
      | waited hw => exact .waited (hi hc) (hi hc ▸ hinst) hw
      | duplicated hk _ | failed hk _ | closed _ hk _ => exact .unchanged (.of_kept hk)

theorem method_after (h : Settled s i) (hm : m < s.family.members.length) (op : Op) :
    wp (exec t) (fun _ s' => After s i m op s')
      (fun _ s' => After s i m op s' ∧ ((∀ n, op ≠ .wait n) → Unchanged s s'))
      (Epoll.method m op) s := by
  obtain ⟨member, x, inst, hp, hinst, hi⟩ := h.current hm
  have hafter : ∀ s', Outcome op m member x inst s s' → After s i m op s' := fun s' ho =>
    ⟨h.of_moved (ho.moved h.toWired hp) ho.creators, ho.moved h.toWired hp, ho.creators,
      .of_outcome hp hinst hi ho⟩
  exact wp_mono (method_outcome hp hinst h.idle op) (fun _ s' ho => hafter s' ho)
    fun _ s' ho => ⟨hafter s' ho.1, ho.2⟩

end Settled

-- Epoll.new
theorem call_initializeNew (pid : Pid) (objects : Objects) :
    (initializeNew 0).call {} (allocated pid objects) = some (.ok (), opened pid objects) := rfl

end SleepyPenguin.Epoll
