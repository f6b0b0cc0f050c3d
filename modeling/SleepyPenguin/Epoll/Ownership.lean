import SleepyPenguin.Foundation.Run
import SleepyPenguin.Epoll.Recovery

-- Which epoll descriptors a family of Epoll objects keeps open.
namespace SleepyPenguin.Epoll.Ownership

open Foundation Foundation.Prog

def answers (s : Sys) : IoArg → Bool
  | .fd _ => true
  | .io o => (s.answer o).1.isSome

-- Whether a call gets as far as `__ep_check`: what it is given answers with a
-- descriptor, and the events convert.
def checks (s : Sys) : Op → Bool
  | .toIo | .wait _ | .dup | .clone => true
  | .add io events | .mod io events => (s.answer io).1.isSome && (eventFlags events).isOk
  | .del io | .delete io | .set io _ => (s.answer io).1.isSome
  | .ioFor io | .eventsFor io | .includeP io => answers s io
  | .close | .closedP => false

-- The family in one process after another, each the child of the one before:
-- how many members it had at the last fork, and which of them have been used
-- since.
structure State where
  sys : Sys
  inherited : Nat
  used : List Nat

-- A family of one, just made.
def start (pid : Pid) (objects : Objects) : State := ⟨opened pid objects, 0, []⟩

inductive Label
  | call (m : Nat) (op : Op) (oracle : Oracle)
  | outside (objects : Objects) (interest : Nat → Interest)
  | fork (pid : Pid)

-- `outside` is what anything but a call does to the watched objects and, through
-- a shared instance, to its interest list.
def step (l : State) : Label → Option State
  | .call m op oracle =>
      if m < l.sys.family.members.length then
        ((method m op).call oracle l.sys).map fun result =>
          { l with
            sys := result.2
            used := if checks { l.sys with oracle := oracle } op then m :: l.used else l.used }
      else none
  | .outside objects interest =>
      let insts := l.sys.kernel.insts.mapIdx fun i inst => { inst with interest := interest i }
      some { l with sys := { l.sys with objects := objects, kernel.insts := insts } }
  | .fork pid =>
      if pid ≠ l.sys.self then
        some ⟨{ l.sys with self := pid }, l.sys.family.members.length, []⟩
      else none

-- Each open member has been used since the last fork, or made since then.
def AllUsed (l : State) : Prop := ∀ m, OpenAt l.sys m → m ∈ l.used ∨ l.inherited ≤ m

-- The keys of `@copies` are the `@io` of the open members, each mapped to its
-- member. The process has no other descriptor open that it opened for the
-- family, and none at all once every member is closed.
structure Owned (s : Sys) : Prop where
  key : ∀ m member x, OpenAs s m member x → (member.io, m) ∈ s.family.copies
  member : ∀ pair ∈ s.family.copies, ∃ member x, OpenAs s pair.2 member x ∧ member.io = pair.1
  once : (s.family.copies.map Prod.fst).Nodup
  only : ∀ (io : Nat) (x : Handle), s.family.handles[io]? = some x → x.closed = false →
    x.owner = s.self → io ∈ s.family.copies.map Prod.fst
  rest : (∀ m, ¬OpenAt s m) → ∀ x ∈ s.family.handles, x.closed = true

-- No call re-initialises: those that get as far as the fork check find a
-- member of this process, or a closed one.
def Guard (l : State) : Label → Prop
  | .call m op oracle => checks { l.sys with oracle := oracle } op = true →
      ∀ member x, OpenAs l.sys m member x → member.pid = l.sys.self
  | .outside .. => True
  | .fork _ => True

theorem current_iff (s : Sys) (m : Nat) :
    (∀ member x, OpenAs s m member x → member.pid = s.self) ↔
      (isOpen s m = true → ∀ member ∈ s.family.members[m]?, member.pid = s.self) := by
  simp only [isOpen_iff, OpenAt, Option.mem_def]
  constructor
  · rintro h ⟨_, x, ho⟩ member hm
    obtain rfl := Option.some.inj (ho.1.symm.trans hm)
    exact h _ x ho
  · intro h member x ho
    exact h ⟨member, x, ho⟩ member ho.1

instance (l : State) : (label : Label) → Decidable (Guard l label)
  | .call m op oracle =>
      decidable_of_iff (checks { l.sys with oracle := oracle } op = true →
        isOpen l.sys m = true → ∀ member ∈ l.sys.family.members[m]?, member.pid = l.sys.self)
        (imp_congr_right fun _ => (current_iff l.sys m).symm)
  | .outside .. => isTrue trivial
  | .fork _ => isTrue trivial

-- What holds then: no descriptor is open but the keys, whichever process
-- opened them.
structure Tight (s : Sys) : Prop extends Wired s where
  listed : ∀ m member x, OpenAs s m member x → (member.io, m) ∈ s.family.copies
  kept : ∀ pair ∈ s.family.copies, ∃ member x, OpenAs s pair.2 member x ∧ member.io = pair.1
  once : (s.family.copies.map Prod.fst).Nodup
  sole : ∀ (io : Nat) (x : Handle), s.family.handles[io]? = some x → x.closed = false →
    io ∈ s.family.copies.map Prod.fst

theorem Tight.owned {s : Sys} (h : Tight s) : Owned s := by
  refine ⟨h.listed, h.kept, h.once, fun io x hx hc _ => h.sole io x hx hc, fun hall x hx => ?_⟩
  by_contra hopen
  obtain ⟨io, hio⟩ := List.getElem?_of_mem hx
  have hkey := h.sole io x hio (by simpa using hopen)
  obtain ⟨pair, hpair, _⟩ := List.mem_map.mp hkey
  obtain ⟨member, y, ho, _⟩ := h.kept pair hpair
  exact hall pair.2 ⟨member, y, ho⟩

section Preserved

variable {t m : Nat} {member : Member} {x : Handle} {inst : Inst} {s s' : Sys} {op : Op}

theorem Tight.of_same (h : Tight s) (hm : SameMembers s s') : Tight s' := by
  refine ⟨hm.wired h.toWired, ?_, ?_, ?_, ?_⟩
  · simp only [hm.openAs, hm.copies]
    exact h.listed
  · simp only [hm.openAs, hm.copies]
    exact h.kept
  · rw [hm.copies]
    exact h.once
  · rw [hm.copies, hm.handles]
    exact h.sole

-- A key that is new goes to the end.
theorem copiesInsert_new {copies : List (Nat × Nat)} {io obj : Nat} (h : io ∉ copies.map Prod.fst) :
    Shared.copiesInsert copies io obj = copies ++ [(io, obj)] := by
  unfold Shared.copiesInsert
  rw [if_neg]
  intro hany
  obtain ⟨pair, hpair, heq⟩ := List.any_eq_true.mp hany
  exact h (List.mem_map.mpr ⟨pair, hpair, by simpa using heq⟩)

theorem Tight.of_duplicated (h : Tight s) (hp : Passes s m member x) (hk : Kept s s')
    (hd : Duplicated s member x s') : Tight s' := by
  obtain ⟨hw, hkept, _⟩ := h.toWired.of_duplicated hp hk hd
  cases hc : x.closed with
  | true =>
      have hback : ∀ {k old y}, OpenAs s' k old y → OpenAs s k old y := Wired.copied_back hp.handle hc hd
      rw [Duplicated, if_pos hc] at hd
      obtain ⟨_, hh, hcopies⟩ := hd
      refine ⟨hw, ?_, ?_, hcopies ▸ h.once, ?_⟩
      · rw [hcopies]
        exact fun k old y ho => h.listed k old y (hback ho)
      · rw [hcopies]
        intro pair hpair
        obtain ⟨old, y, ho, hio⟩ := h.kept pair hpair
        exact ⟨old, y, hkept _ _ _ ho, hio⟩
      · rw [hcopies, hh]
        exact h.sole
  | false =>
      have hback : ∀ {k new y}, OpenAs s' k new y → OpenAs s k new y ∨ k = s.family.members.length ∧
          new = ⟨s.family.handles.length, member.pid⟩ ∧ y = ⟨x.inst, false, true, s.self⟩ :=
        h.toWired.duplicated_back hc hd
      rw [Duplicated, hc] at hd
      obtain ⟨hm, hh, hcopies⟩ := hd
      have hfresh : s.family.handles.length ∉ s.family.copies.map Prod.fst := by
        intro hmem
        obtain ⟨pair, hpair, heq⟩ := List.mem_map.mp hmem
        obtain ⟨y, hy, _⟩ := h.key pair hpair
        have := (List.getElem?_eq_some_iff.mp hy).1
        omega
      rw [copiesInsert_new hfresh] at hcopies
      have hcopy : OpenAs s' s.family.members.length ⟨s.family.handles.length, member.pid⟩
          ⟨x.inst, false, true, s.self⟩ := by
        refine ⟨?_, ?_, rfl⟩
        · rw [hm]
          exact List.getElem?_concat_length
        · rw [hh]
          exact List.getElem?_concat_length
      refine ⟨hw, ?_, ?_, ?_, ?_⟩
      · intro k new y ho
        rw [hcopies, List.mem_append, List.mem_singleton]
        rcases hback ho with ho | ⟨rfl, rfl, _⟩
        · exact Or.inl (h.listed k new y ho)
        · exact Or.inr rfl
      · rw [hcopies]
        apply List.forall_mem_concat
        · intro pair hpair
          obtain ⟨old, y, ho, hio⟩ := h.kept pair hpair
          exact ⟨old, y, hkept _ _ _ ho, hio⟩
        · exact ⟨_, _, hcopy, rfl⟩
      · rw [hcopies, List.map_append, List.map_singleton]
        refine List.nodup_append.mpr ⟨h.once, by simp, ?_⟩
        rintro a ha b hb rfl
        have hio : a = s.family.handles.length := List.mem_singleton.mp hb
        exact hfresh (hio ▸ ha)
      · intro io y hy hyc
        rw [hcopies, List.map_append, List.mem_append]
        rw [hh] at hy
        rcases List.getElem?_concat_cases hy with hy | ⟨rfl, _⟩
        · exact Or.inl (h.sole io y hy hyc)
        · exact Or.inr (List.mem_singleton.mpr rfl)

theorem Tight.of_closed (h : Tight s) (hm : s.family.members[m]? = some member)
    (hx : s.family.handles[member.io]? = some x) (hk : Kept s s') (hc : Closed s member x s') :
    Tight s' := by
  obtain ⟨hw, hgone, hback, hkept⟩ := h.toWired.of_closed hm hx hk hc
  have hcopies : s'.family.copies = s.family.copies.filter (·.1 != member.io) := hc.copies
  have hopen : ∀ k old y, OpenAs s' k old y → old.io ≠ member.io := by
    intro k old y ho heq
    have hy := ho.2.1
    rw [hc.handles, heq, List.getElem?_set_self (List.getElem?_eq_some_iff.mp hx).1] at hy
    cases hy
    cases ho.2.2
  refine ⟨hw, ?_, ?_, ?_, ?_⟩
  · intro k old y ho
    rw [hcopies]
    exact List.mem_filter.mpr ⟨h.listed k old y (hback k old y ho), by simpa using hopen k old y ho⟩
  · rw [hcopies]
    intro pair hpair
    obtain ⟨hold, hne⟩ := List.mem_filter.mp hpair
    obtain ⟨old, y, ho, hio⟩ := h.kept pair hold
    refine ⟨old, y, hkept _ _ _ ho fun heq => ?_, hio⟩
    have hsame := Option.some.inj (ho.1.symm.trans (heq ▸ hm))
    simp [← hio, hsame] at hne
  · rw [hcopies]
    exact h.once.sublist (List.filter_sublist.map _)
  · intro io y hy hyc
    rw [hc.handles, List.getElem?_set] at hy
    split at hy
    · split at hy
      · cases hy
        cases hyc
      · cases hy
    · rename_i hne
      obtain ⟨pair, hpair, rfl⟩ := List.mem_map.mp (h.sole io y hy hyc)
      rw [hcopies]
      refine List.mem_map.mpr ⟨pair, List.mem_filter.mpr ⟨hpair, ?_⟩, rfl⟩
      simpa using Ne.symm hne

theorem Tight.of_outcome (h : Tight s) (hp : Passes s m member x)
    (ho : Outcome op m member x inst s s') : Tight s' := by
  cases ho with
  | effect he => exact h.of_same he.sameMembers
  | waited hw => exact h.of_same hw.sameMembers
  | duplicated hk hd => exact h.of_duplicated hp hk hd
  | failed hk hf =>
      exact h.of_same ⟨hk.self, hf.members, hf.handles, hf.copies, hk.mutex, by rw [hk.insts]⟩
  | closed _ hk hc => exact h.of_closed hp.listed hp.handle hk hc

end Preserved

section Unchecked

variable {t m : Nat} {s : Sys} {α : Type}

theorem answer_same (s : Sys) (io : Obj) : SameMembers s (s.answer io).2 :=
  (Quiet.answer ⟨0, true, true, 0⟩ s io).sameMembers

-- An object that does not answer ends the call there.
theorem fileno_unanswered {io : Obj} {next : Fd → Method α} (h : (s.answer io).1.isSome = false)
    {post : α → Sys → Prop} {fail : Err → Sys → Prop} (hfail : ∀ e, fail e (s.answer io).2) :
    wp (exec t) post fail (do let fd ← .attempt (.fileno io); next fd) s := by
  simp only [wp_monad_bind, wp_fileno]
  refine ⟨fun fd hfd => ?_, fun _ => hfail _⟩
  rw [hfd] at h
  cases h

theorem lookup_unanswered {arg : IoArg} {β : Type} {read : Fd → Cmd β} {ret : β → Ret}
    (h : answers s arg = false) :
    wp (exec t) (fun _ s' => SameMembers s s') (fun _ s' => SameMembers s s')
      (lookup m arg read ret) s := by
  cases arg with
  | fd n => cases h
  | io o => exact fileno_unanswered h fun _ => answer_same s o

-- A call that does not get as far as the check leaves the family alone.
theorem method_unchecked {op : Op} (h : checks s op = false) (hclose : op ≠ .close)
    (hclosed : op ≠ .closedP) :
    wp (exec t) (fun _ s' => SameMembers s s') (fun _ s' => SameMembers s s') (method m op) s := by
  have hsame : SameMembers s s := ⟨rfl, rfl, rfl, rfl, rfl, rfl⟩
  cases op with
  | toIo | wait _ | dup | clone => cases h
  | close => exact absurd rfl hclose
  | closedP => exact absurd rfl hclosed
  | del io => exact fileno_unanswered h fun _ => answer_same s io
  | set io events => exact fileno_unanswered h fun _ => answer_same s io
  | delete io =>
      simp only [method, delete, wp_rescue]
      refine fileno_unanswered h fun e => ?_
      unfold rescueGone
      split
      · exact answer_same s io
      · exact answer_same s io
  | ioFor arg | eventsFor arg | includeP arg => exact lookup_unanswered h
  | add io events =>
      simp only [method, add, wp_monad_bind, wp_fileno]
      refine ⟨fun fd hfd => ?_, fun _ => answer_same s io⟩
      rcases hev : eventFlags events with e | flags
      · exact answer_same s io
      · simp [checks, hfd, hev, Except.isOk, Except.toBool] at h
  | mod io events =>
      simp only [method, mod, wp_monad_bind]
      rcases hev : eventFlags events with e | flags
      · exact hsame
      · have hnone : (s.answer io).1.isSome = false := by
          simpa [checks, hev, Except.isOk, Except.toBool] using h
        simp only [wp_ofExcept, ends_ok]
        rw [← wp_monad_bind]
        exact fileno_unanswered hnone fun _ => answer_same s io

end Unchecked

section Steps

variable {t m : Nat} {s : Sys} {l l' : State} {op : Op} {oracle : Oracle}

-- close and closed? need no check.
theorem close_tight (h : Tight s) (hm : m < s.family.members.length) :
    wp (exec t) (fun _ s' => Tight s') (fun _ s' => Tight s') (Epoll.close m) s := by
  obtain ⟨member, x, hget, hx, _⟩ := h.toWired.handle_of_member hm
  simp only [Epoll.close, wp_monad_bind, wp_monad_pure]
  exact wp_mono (wp_sharedClose hget hx h.idle) (fun _ _ hs' => h.of_closed hget hx hs'.1 hs'.2)
    fun _ _ hs' => h.of_closed hget hx hs'.1 hs'.2

theorem closedP_tight (h : Tight s) (hm : m < s.family.members.length) :
    wp (exec t) (fun _ s' => Tight s') (fun _ s' => Tight s') (Epoll.closedP m) s := by
  obtain ⟨member, x, hget, hx, _⟩ := h.toWired.handle_of_member hm
  simp only [Epoll.closedP, wp_monad_bind, wp_monad_pure]
  refine wp_mono (SleepyPenguin.wp_closedP hget hx h.idle) ?_ (fun _ _ hf => hf)
  rintro _ s' ⟨_, rfl⟩
  exact h

theorem method_tight (h : Tight s) (hm : m < s.family.members.length)
    (hg : checks s op = true → ∀ member x, OpenAs s m member x → member.pid = s.self) :
    wp (exec t) (fun _ s' => Tight s') (fun _ s' => Tight s') (method m op) s := by
  by_cases hclose : op = .close
  · subst hclose
    exact close_tight h hm
  by_cases hclosed : op = .closedP
  · subst hclosed
    exact closedP_tight h hm
  cases hc : checks s op with
  | false =>
      exact wp_mono (method_unchecked hc hclose hclosed) (fun _ _ hs => h.of_same hs)
        fun _ _ hs => h.of_same hs
  | true =>
      obtain ⟨member, x, hget, hx, hlt⟩ := h.toWired.handle_of_member hm
      have hp : Passes s m member x := by
        refine ⟨hget, hx, ?_⟩
        cases hxc : x.closed with
        | true => exact Or.inr rfl
        | false => exact Or.inl (hg hc member x ⟨hget, hx, hxc⟩)
      exact wp_mono (method_outcome hp (List.getElem?_eq_getElem hlt) h.idle op)
        (fun _ _ ho => h.of_outcome hp ho) fun _ _ ho => h.of_outcome hp ho.1

theorem step_tight {label : Label} (h : Tight l.sys) (hg : Guard l label)
    (hs : step l label = some l') : Tight l'.sys := by
  cases label with
  | call m op oracle =>
      simp only [step, Option.ite_none_right_eq_some, Option.map_eq_some_iff] at hs
      obtain ⟨hm, result, hr, rfl⟩ := hs
      have ht : Tight { l.sys with oracle := oracle } := h.of_same ⟨rfl, rfl, rfl, rfl, rfl, rfl⟩
      exact ends_same (wp_of_run (method_tight ht hm hg) hr)
  | outside objects interest =>
      obtain rfl := Option.some.inj hs
      exact h.of_same ⟨rfl, rfl, rfl, rfl, rfl, List.length_mapIdx⟩
  | fork pid =>
      simp only [step, Option.ite_none_right_eq_some, Option.some.injEq] at hs
      obtain ⟨_, rfl⟩ := hs
      exact ⟨⟨h.idle, h.handle, h.member, h.key, h.apart⟩, h.listed, h.kept, h.once, h.sole⟩

theorem start_tight (pid : Pid) (objects : Objects) : Tight (start pid objects).sys := by
  have hopen : OpenAs (opened pid objects) 0 ⟨0, pid⟩ ⟨0, false, true, pid⟩ := ⟨rfl, rfl, rfl⟩
  refine ⟨(opened_settled pid objects).toWired, ?_, ?_, by simp [start, opened], ?_⟩
  · intro m member x ho
    cases m with
    | zero =>
        obtain ⟨rfl, _⟩ := ho.unique hopen
        exact List.mem_singleton.mpr rfl
    | succ m => cases ho.1
  · intro pair hpair
    obtain rfl := List.mem_singleton.mp hpair
    exact ⟨_, _, hopen, rfl⟩
  · intro io x hx _
    cases io with
    | zero => exact List.mem_singleton.mpr rfl
    | succ io => cases hx

end Steps

-- A call outside the condition breaks this at once: in a child that has used no
-- member yet, the new `@io` of the member that a call re-initialises is no key.
theorem first_use_unowned {t m : Nat} {s : Sys} {member : Member} {x : Handle} {op : Op}
    (hf : Recovery.Forked s) (hopen : OpenAs s m member x) (hp : s.oracle.answers = [])
    (hall : ∀ o ∈ s.oracle.closes, o = none) (hreach : Fork.reaches s.objects op = true)
    (hdup : Fork.duplicates op = false)
    (hnone : Recovery.failure (Recovery.values s).length s.oracle = none) :
    wp (exec t) (fun _ s' => ¬Owned s') (fun _ s' => ¬Owned s') (method m op) s := by
  have hlt : m < s.family.members.length := (List.getElem?_eq_some_iff.mp hopen.1).1
  have hbreaks : ∀ s', Recovery.Retried s m s' → ¬Owned s' := by
    rintro s' ⟨q, hq, hsame, _⟩ howned
    have hnew : OpenAs q m ⟨s.family.handles.length, s.self⟩ ⟨s.kernel.insts.length, false, true, s.self⟩ :=
      ⟨hq.listed_member hlt, hq.new_handle, rfl⟩
    have hkey := howned.key m _ _ ((hsame.openAs m _ _).mpr hnew)
    rw [hsame.copies, hq.copies] at hkey
    exact absurd (Recovery.listed_key hkey).1 (Nat.not_succ_le_self _)
  have hretried := Recovery.method_retried (t := t) hf hopen hp hall hreach hdup hnone
  exact wp_mono hretried (fun _ => hbreaks) fun _ => hbreaks

-- A family owns exactly the descriptors of its open members in every run in
-- which no call re-initialises a member.
theorem descriptors_owned (pid : Pid) (objects : Objects) (labels : List Label)
    (hg : Guarded step Guard (start pid objects) labels) :
    Visits step (fun l => AllUsed l → Owned l.sys) (start pid objects) labels :=
  visits_of_guarded (fun l => Tight l.sys) _ (fun _ h _ => h.owned)
    (fun _ _ _ h hg hs => step_tight h hg hs) (start_tight pid objects) hg

-- Two members, one of them closed before a fork and the other one after it.
theorem descriptors_owned_closed :
    Visits step (fun l => AllUsed l → Owned l.sys) (start 1 noObjects)
      [.call 0 .dup {}, .call 1 .close {}, .fork 2, .call 0 .close {}, .call 0 .toIo {}] :=
  descriptors_owned 1 noObjects _ (by decide +kernel)

-- The only member, used in a child: its new `@io` is no key, and the duplicate
-- that is listed for it stays open when it is closed.
theorem reinit_leaks_duplicate :
    (∃ l, runEvents step (start 1 noObjects) [.fork 2, .call 0 .toIo {}] = some l ∧
      AllUsed l ∧ ¬Owned l.sys) ∧
    ∃ l, runEvents step (start 1 noObjects) [.fork 2, .call 0 .toIo {}, .call 0 .close {}] = some l ∧
      (∀ m, ¬OpenAt l.sys m) ∧ ∃ x ∈ l.sys.family.handles, x.closed = false ∧ x.owner = l.sys.self := by
  have hsole : ∀ {s : Sys} {member : Member}, s.family.members = [member] → ∀ m, OpenAt s m → m = 0 := by
    intro s member hs m ⟨old, x, hm, _⟩
    have := (List.getElem?_eq_some_iff.mp hm).1
    rw [hs, List.length_singleton] at this
    omega
  have hused : (runEvents step (start 1 noObjects) [.fork 2, .call 0 .toIo {}]).map
      (fun l => (l.used, l.sys.family.members, l.sys.family.handles, l.sys.family.copies)) =
      some ([0], [⟨1, 2⟩], [⟨0, true, true, 1⟩, ⟨1, false, true, 2⟩, ⟨1, false, true, 2⟩], [(2, 0)]) := by
    decide +kernel
  have hclosed : (runEvents step (start 1 noObjects) [.fork 2, .call 0 .toIo {}, .call 0 .close {}]).map
      (fun l => (l.sys.self, l.sys.family.members, l.sys.family.handles)) =
      some (2, [⟨1, 2⟩], [⟨0, true, true, 1⟩, ⟨1, true, true, 2⟩, ⟨1, false, true, 2⟩]) := by
    decide +kernel
  constructor
  · obtain ⟨l, hl, hobserved⟩ := Option.map_eq_some_iff.mp hused
    simp only [Prod.mk.injEq] at hobserved
    obtain ⟨hu, hm, hh, hc⟩ := hobserved
    refine ⟨l, hl, fun m ho => Or.inl ?_, fun h => ?_⟩
    · rw [hu, hsole hm m ho]
      exact List.mem_cons_self
    · have hkey := h.key 0 ⟨1, 2⟩ ⟨1, false, true, 2⟩ (by simp [OpenAs, hm, hh])
      simp [hc] at hkey
  · obtain ⟨l, hl, hobserved⟩ := Option.map_eq_some_iff.mp hclosed
    simp only [Prod.mk.injEq] at hobserved
    obtain ⟨hself, hm, hh⟩ := hobserved
    refine ⟨l, hl, fun m ho => ?_, ⟨1, false, true, 2⟩, by simp [hh], rfl, hself.symm⟩
    obtain rfl := hsole hm m ho
    simp [OpenAt, OpenAs, hm, hh] at ho

end SleepyPenguin.Epoll.Ownership
