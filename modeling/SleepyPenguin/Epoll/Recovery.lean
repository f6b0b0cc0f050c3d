import SleepyPenguin.Epoll.Fork

-- A re-initialisation that fails half way, and the next one.
namespace SleepyPenguin.Epoll.Recovery

open Foundation Foundation.Prog

-- Where it fails: at the new instance, or at one of the duplicates.
inductive Point
  | create
  | dup (n : Nat)
  deriving DecidableEq, Repr

-- The first failure among as many duplicates.
def dupFailure (dups : List (Option Errno)) : Nat → Option (Nat × Errno)
  | 0 => none
  | count + 1 =>
      match dups.headD none with
      | some errno => some (0, errno)
      | none => (dupFailure dups.tail count).map fun (n, errno) => (n + 1, errno)

-- Where a re-initialisation fails that has as many members to list.
def failure (count : Nat) (oracle : Oracle) : Option (Point × Errno) :=
  match createFailure oracle.creates with
  | some errno => some (.create, errno)
  | none => (dupFailure oracle.dups count).map fun (n, errno) => (.dup n, errno)

theorem dupFailure_some {dups : List (Option Errno)} {errno : Errno} (h : dups.headD none = some errno)
    (count : Nat) : dupFailure dups (count + 1) = some (0, errno) := by
  rw [dupFailure, h]

theorem dupFailure_none {dups : List (Option Errno)} (h : dups.headD none = none) (count : Nat) :
    dupFailure dups (count + 1) = (dupFailure dups.tail count).map fun (n, errno) => (n + 1, errno) := by
  rw [dupFailure, h]

-- One duplicate more.
theorem dupFailure_succ (dups : List (Option Errno)) (count : Nat) :
    dupFailure dups (count + 1) =
      (dupFailure dups count).or (((dups.drop count).headD none).map fun errno => (count, errno)) := by
  induction count generalizing dups with
  | zero =>
      cases hfirst : dups.headD none with
      | some errno => rw [dupFailure_some hfirst, List.drop_zero, hfirst]; rfl
      | none => rw [dupFailure_none hfirst, List.drop_zero, hfirst]; rfl
  | succ count ih =>
      cases hfirst : dups.headD none with
      | some errno =>
          rw [dupFailure_some hfirst, dupFailure_some hfirst]
          rfl
      | none =>
          rw [dupFailure_none hfirst, dupFailure_none hfirst, ih, Option.map_or, Option.map_map,
            List.drop_tail]
          rfl

theorem dupFailure_never {dups : List (Option Errno)} (h : ∀ o ∈ dups, o = none) (count : Nat) :
    dupFailure dups count = none := by
  induction count generalizing dups with
  | zero => rfl
  | succ count ih =>
      rw [dupFailure_none (List.headD_of_forall h), ih fun o ho => h o (List.mem_of_mem_tail ho)]
      rfl

-- Descriptors are available for as many members as there may be.
theorem failure_never {oracle : Oracle} (hcreates : ∀ o ∈ oracle.creates, o = none)
    (hdups : ∀ o ∈ oracle.dups, o = none) (count : Nat) : failure count oracle = none := by
  rw [failure, createFailure, List.headD_of_forall hcreates, dupFailure_never hdups]
  rfl

def keys (s : Sys) : List Nat := s.family.copies.map Prod.fst

-- The members that `@copies` lists.
def values (s : Sys) : List Nat := s.family.copies.map Prod.snd

def shutAll (keys : List Nat) (handles : List Handle) : List Handle :=
  handles.mapIdx fun n x => if n ∈ keys then { x with closed := true } else x

-- The entries of `@copies` for the members, with IOs numbered from `start` on.
def listed (start : Nat) (members : List Nat) : List (Nat × Nat) :=
  members.mapIdx fun n m => (start + n, m)

-- Only the old descriptors are gone, and with them what the tables held.
structure Dropped (s s' : Sys) : Prop where
  self : s'.self = s.self
  members : s'.family.members = s.family.members
  handles : s'.family.handles = shutAll (keys s) s.family.handles
  copies : s'.family.copies = []
  mutex : s'.family.mutex = s.family.mutex
  objects : s'.objects = s.objects
  insts : s'.kernel.insts = s.kernel.insts
  answers : s'.oracle.answers = s.oracle.answers

-- `m` has its new IO, and the members of `done` have been listed again.
structure Begun (s : Sys) (m : Nat) (pid : Pid) (done : List Nat) (s' : Sys) : Prop where
  self : s'.self = s.self
  members : s'.family.members = s.family.members.set m ⟨s.family.handles.length, pid⟩
  handles : s'.family.handles = shutAll (keys s) s.family.handles ++
    List.replicate (done.length + 1) ⟨s.kernel.insts.length, false, true, s.self⟩
  copies : s'.family.copies = listed (s.family.handles.length + 1) done
  mutex : s'.family.mutex = s.family.mutex
  objects : s'.objects = s.objects
  insts : s'.kernel.insts = s.kernel.insts ++ [⟨s.self, Interest.empty, []⟩]
  answers : s'.oracle.answers = s.oracle.answers

-- What a failure leaves behind.
def Struck (s : Sys) (m : Nat) (pid : Pid) : Point → Sys → Prop
  | .create, s' => Dropped s s'
  | .dup n, s' => Begun s m pid ((values s).take n) s'

section Lists

variable {ks : List Nat} {handles : List Handle} {x : Handle} {k n : Nat}

theorem shutAll_getElem? : (shutAll ks handles)[n]? =
    (handles[n]?).map fun x => if n ∈ ks then { x with closed := true } else x :=
  List.getElem?_mapIdx

theorem length_shutAll : (shutAll ks handles).length = handles.length := List.length_mapIdx

theorem shutAll_nil : shutAll [] handles = handles := by
  apply List.ext_getElem?
  intro n
  rw [shutAll_getElem?]
  simp

theorem shutAll_cons (hx : handles[k]? = some x) :
    shutAll (k :: ks) handles = shutAll ks (handles.set k { x with closed := true }) := by
  have hlt := (List.getElem?_eq_some_iff.mp hx).1
  apply List.ext_getElem?
  intro n
  rw [shutAll_getElem?, shutAll_getElem?]
  by_cases hn : n = k
  · subst hn
    rw [List.getElem?_set_self hlt, hx]
    simp
  · rw [List.getElem?_set_ne (Ne.symm hn)]
    simp [hn]

theorem listed_cons (start m : Nat) (members : List Nat) :
    listed start (m :: members) = (start, m) :: listed (start + 1) members := by
  simp only [listed, List.mapIdx_cons, Nat.add_zero]
  congr
  funext i other
  simp only [Prod.mk.injEq, and_true]
  omega

theorem listed_values (start : Nat) (members : List Nat) :
    (listed start members).map Prod.snd = members := by
  induction members generalizing start with
  | nil => rfl
  | cons m rest ih => rw [listed_cons, List.map_cons, ih]

theorem listed_key {start : Nat} {members : List Nat} {pair : Nat × Nat} (h : pair ∈ listed start members) :
    start ≤ pair.1 ∧ pair.1 < start + members.length := by
  induction members generalizing start with
  | nil => cases h
  | cons m rest ih =>
      rw [listed_cons] at h
      rcases List.mem_cons.mp h with rfl | h
      · simp
      · have := ih h
        simp only [List.length_cons]
        omega

end Lists

section Steps

variable {t m : Nat} {member : Member} {x : Handle} {s : Sys} {fail : Err → Sys → Prop}

theorem closes_shut {ks : List Nat} (hks : ∀ k ∈ ks, k < s.family.handles.length)
    (hall : ∀ o ∈ s.oracle.closes, o = none) :
    wp (exec t) (fun _ s' => ∃ log closes, s' = { s with
        family.handles := shutAll ks s.family.handles
        kernel.log := log
        oracle.closes := closes })
      fail (each ks fun io => attempt (.close io)) s := by
  induction ks generalizing s with
  | nil =>
      rw [shutAll_nil]
      exact ⟨_, _, rfl⟩
  | cons k rest ih =>
      have hx := List.getElem?_eq_getElem (hks k List.mem_cons_self)
      obtain ⟨outcome, calls, closes, hclose, _, hok⟩ := Sys.close_cases hx
      obtain ⟨rfl, hrest⟩ := hok hall
      rw [each, wp_bind, wp_close]
      refine ⟨_, hx, ?_⟩
      rw [hclose, shutAll_cons hx]
      refine wp_mono (ih ?_ hrest) ?_ fun _ _ hf => hf
      · intro other ho
        rw [List.length_set]
        exact hks other (List.mem_cons_of_mem _ ho)
      · rintro _ s' ⟨log', closes', rfl⟩
        exact ⟨log', closes', rfl⟩

theorem dup_ends (hc : x.closed = false) :
    Ends (fun io s' => s.oracle.dups.headD none = none ∧ io = s.family.handles.length ∧ s' = { s with
        family.handles := s.family.handles ++ [⟨x.inst, false, true, s.self⟩]
        oracle.dups := s.oracle.dups.tail })
      (fun e s' => ∃ errno, s.oracle.dups.headD none = some errno ∧ e = .sys errno ∧
        s' = { s with oracle.dups := s.oracle.dups.tail })
      (s.dup x) := by
  rcases s.dup_open hc with ⟨errno, hfirst, hdup⟩ | ⟨hfirst, hdup⟩
  · rw [hdup]
    exact ⟨errno, hfirst, rfl, rfl⟩
  · rw [hdup]
    exact ⟨hfirst, rfl, rfl⟩

theorem copiesInsert_fresh {copies : List (Nat × Nat)} {io : Nat} (h : ∀ pair ∈ copies, pair.1 < io)
    (obj : Nat) : Shared.copiesInsert copies io obj = copies ++ [(io, obj)] := by
  have hnone : copies.any (·.1 == io) = false := by
    rw [List.any_eq_false]
    intro pair hpair
    have := h pair hpair
    simp only [beq_iff_eq]
    omega
  rw [Shared.copiesInsert, hnone]
  rfl

-- The members of `done` have been given a duplicate each.
def Listed (inst : Nat) (done : List Nat) (s s' : Sys) : Prop :=
  ∃ dups, s' = { s with
    family.handles := s.family.handles ++ List.replicate done.length ⟨inst, false, true, s.self⟩
    family.copies := s.family.copies ++ listed s.family.handles.length done
    oracle.dups := dups }

theorem listed_nil (inst : Nat) (s : Sys) : Listed inst [] s s := by
  refine ⟨s.oracle.dups, ?_⟩
  simp [listed]

theorem Listed.cons {inst obj : Nat} {done : List Nat} {dups : List (Option Errno)} {s' : Sys}
    (h : Listed inst done { s with
      family.handles := s.family.handles ++ [⟨inst, false, true, s.self⟩]
      family.copies := s.family.copies ++ [(s.family.handles.length, obj)]
      oracle.dups := dups } s') : Listed inst (obj :: done) s s' := by
  obtain ⟨dups', rfl⟩ := h
  refine ⟨dups', ?_⟩
  simp only [List.append_assoc, List.singleton_append, ← List.replicate_succ, List.length_append,
    List.length_cons]
  rw [listed_cons]
  rfl

theorem listDuplicates_ends (hm : s.family.members[m]? = some member)
    (hx : s.family.handles[member.io]? = some x) (hc : x.closed = false)
    (hfresh : ∀ pair ∈ s.family.copies, pair.1 < s.family.handles.length) (objects : List Nat) :
    wp (exec t)
      (fun _ s' => dupFailure s.oracle.dups objects.length = none ∧ Listed x.inst objects s s' ∧
        s'.oracle.dups = s.oracle.dups.drop objects.length)
      (fun e s' => ∃ n errno, dupFailure s.oracle.dups objects.length = some (n, errno) ∧
        e = .sys errno ∧ Listed x.inst (objects.take n) s s')
      (Shared.listDuplicates m objects) s := by
  unfold Shared.listDuplicates
  induction objects generalizing s with
  | nil => exact ⟨rfl, listed_nil x.inst s, rfl⟩
  | cons obj rest ih =>
      simp only [each, wp_bind, wp_monad_bind, wp_getIo, SleepyPenguin.wp_dup, wp_getCopies, wp_setCopies]
      refine ⟨member, hm, x, hx, ends_mono (dup_ends hc) ?_ ?_⟩
      · rintro _ _ ⟨hfirst, rfl, rfl⟩
        rw [copiesInsert_fresh hfresh]
        have hnext : ∀ pair ∈ s.family.copies ++ [(s.family.handles.length, obj)],
            pair.1 < (s.family.handles ++ [(⟨x.inst, false, true, s.self⟩ : Handle)]).length := by
          intro pair hpair
          rw [List.length_append, List.length_singleton]
          rcases List.mem_append.mp hpair with hold | hnew
          · have := hfresh pair hold
            omega
          · rw [List.mem_singleton.mp hnew]
            omega
        refine wp_mono (ih hm (List.getElem?_concat_of_some hx) hnext) ?_ ?_
        · rintro _ s' ⟨hnone, hlisted, hdups⟩
          refine ⟨?_, hlisted.cons, ?_⟩
          · rw [List.length_cons, dupFailure_none hfirst, hnone]
            rfl
          · rw [hdups, List.drop_tail]
            rfl
        · rintro e s' ⟨n, errno, hsome, rfl, hlisted⟩
          refine ⟨n + 1, errno, ?_, rfl, hlisted.cons⟩
          rw [List.length_cons, dupFailure_none hfirst, hsome]
          rfl
      · rintro e s' ⟨errno, hfirst, rfl, rfl⟩
        refine ⟨0, errno, dupFailure_some hfirst _, rfl, s.oracle.dups.tail, ?_⟩
        simp [listed]

end Steps

section Check

variable {t m : Nat} {member : Member} {x : Handle} {s : Sys}

theorem Begun.list {pid : Pid} {done : List Nat} {q s' : Sys} (h : Begun s m pid [] q)
    (hl : Listed s.kernel.insts.length done q s') : Begun s m pid done s' := by
  obtain ⟨dups, rfl⟩ := hl
  have hsize : q.family.handles.length = s.family.handles.length + 1 := by
    rw [h.handles, List.length_append, length_shutAll]
    rfl
  refine ⟨h.self, h.members, ?_, ?_, h.mutex, h.objects, h.insts, h.answers⟩
  · simp only [h.handles, h.self, List.length_nil, Nat.zero_add, List.append_assoc]
    rw [List.replicate_one, List.singleton_append, ← List.replicate_succ]
  · simp only [h.copies, hsize]
    rfl

theorem Begun.listed_member {pid : Pid} {done : List Nat} {s' : Sys} (h : Begun s m pid done s')
    (hm : m < s.family.members.length) : s'.family.members[m]? = some ⟨s.family.handles.length, pid⟩ := by
  rw [h.members]
  exact List.getElem?_set_self hm

theorem Begun.setPid {pid pid' : Pid} {done : List Nat} {s' : Sys} (h : Begun s m pid done s') :
    Begun s m pid' done (s'.setMember m ⟨s.family.handles.length, pid'⟩) := by
  refine ⟨h.self, ?_, h.handles, h.copies, h.mutex, h.objects, h.insts, h.answers⟩
  simp only [Sys.setMember, h.members, List.set_set]

-- The new IO is open.
theorem Begun.new_handle {pid : Pid} {done : List Nat} {s' : Sys} (h : Begun s m pid done s') :
    s'.family.handles[s.family.handles.length]? = some ⟨s.kernel.insts.length, false, true, s.self⟩ := by
  rw [h.handles, List.getElem?_append_right (Nat.le_of_eq length_shutAll), length_shutAll, Nat.sub_self]
  rfl

-- The state that the new instance is asked for in.
def emptied (s : Sys) (log : List Issued) (closes : List (Option Errno)) : Sys :=
  { s with
    family.handles := shutAll (keys s) s.family.handles
    family.copies := []
    kernel.log := log
    oracle.closes := closes }

theorem begun_of_renewed {log : List Issued} {closes : List (Option Errno)} {s' : Sys}
    (h : Renewed m member (emptied s log closes) s') : Begun s m member.pid [] s' := by
  refine ⟨h.self, ?_, h.handles, h.copies, h.mutex, h.objects, h.insts, h.answers⟩
  have hsize : (emptied s log closes).family.handles.length = s.family.handles.length := length_shutAll
  rw [h.members, hsize]
  rfl

-- The whole check of an open member that this process has not used yet.
theorem epCheck_ends (hopen : OpenAs s m member x) (hpid : member.pid ≠ s.self)
    (hkeys : ∀ k ∈ keys s, k < s.family.handles.length) (hall : ∀ o ∈ s.oracle.closes, o = none) :
    wp (exec t)
      (fun _ s' => failure (values s).length s.oracle = none ∧ Begun s m s.self (values s) s' ∧
        s'.oracle.dups = s.oracle.dups.drop (values s).length)
      (fun e s' => ∃ point errno, failure (values s).length s.oracle = some (point, errno) ∧
        e = .sys errno ∧ Struck s m member.pid point s') (epCheck m) s := by
  have hlt : m < s.family.members.length := (List.getElem?_eq_some_iff.mp hopen.1).1
  simp only [epCheck, Shared.check, wp_monad_bind, wp_getPid, wp_self]
  refine ⟨member, hopen.1, ?_⟩
  simp only [if_neg hpid, wp_monad_bind, wp_getIo, wp_closed]
  refine ⟨member, hopen.1, x, hopen.2.1, ?_⟩
  simp only [hopen.2.2, Bool.false_eq_true, ite_false, wp_monad_bind, wp_getCopies, wp_setCopies, wp_self,
    wp_setPid]
  refine wp_mono (closes_shut hkeys hall) ?_ fun _ _ hf => hf
  rintro _ _ ⟨log, closes, rfl⟩
  have hlisted : (emptied s log closes).family.members[m]? = some member := hopen.1
  refine wp_mono (Fork.epReinit_ends (s := emptied s log closes) hlisted) ?_ ?_
  · intro _ s₂ hs₂
    obtain ⟨hcreate, hrenewed, _, _, hdups⟩ := hs₂
    have hbegun := begun_of_renewed hrenewed
    have hfailure : failure (values s).length s.oracle =
        (dupFailure s₂.oracle.dups (values s).length).map fun (n, errno) => (.dup n, errno) := by
      rw [failure, hdups]
      change (match createFailure (emptied s log closes).oracle.creates with
        | some errno => some (Point.create, errno)
        | none => _) = _
      rw [hcreate]
      rfl
    refine wp_mono (listDuplicates_ends (hbegun.listed_member hlt) hbegun.new_handle rfl ?_ _) ?_ ?_
    · intro pair hpair
      rw [hbegun.copies] at hpair
      cases hpair
    · rintro _ s₃ ⟨hnone, hlist, hleft⟩
      have hdone := hbegun.list hlist
      refine ⟨_, hdone.listed_member hlt, ?_, hdone.self ▸ hdone.setPid, ?_⟩
      · rw [hfailure]
        change Option.map _ (dupFailure s₂.oracle.dups (s.family.copies.map Prod.snd).length) = none
        rw [hnone]
        rfl
      · rw [hdups] at hleft
        exact hleft
    · rintro e s₃ ⟨n, errno, hsome, rfl, hlist⟩
      refine ⟨.dup n, errno, ?_, rfl, hbegun.list hlist⟩
      rw [hfailure]
      change Option.map _ (dupFailure s₂.oracle.dups (s.family.copies.map Prod.snd).length) = _
      rw [hsome]
      rfl
  · rintro e _ ⟨errno, hcreate, rfl, creates, rfl⟩
    refine ⟨.create, errno, ?_, rfl, rfl, rfl, rfl, rfl, rfl, rfl, rfl, rfl⟩
    have hsome : createFailure s.oracle.creates = some errno := hcreate
    rw [failure, hsome]

-- The same where it is known whether it fails.
theorem epCheck_begun (hopen : OpenAs s m member x) (hpid : member.pid ≠ s.self)
    (hkeys : ∀ k ∈ keys s, k < s.family.handles.length) (hall : ∀ o ∈ s.oracle.closes, o = none)
    (hnone : failure (values s).length s.oracle = none) :
    wp (exec t) (fun _ s' => Begun s m s.self (values s) s') (fun _ _ => False) (epCheck m) s := by
  refine wp_mono (epCheck_ends hopen hpid hkeys hall) (fun _ _ h => h.2.1) ?_
  rintro e s' ⟨point, errno, hsome, _⟩
  cases hnone.symm.trans hsome

theorem epCheck_struck {point : Point} {errno : Errno} (hopen : OpenAs s m member x)
    (hpid : member.pid ≠ s.self) (hkeys : ∀ k ∈ keys s, k < s.family.handles.length)
    (hall : ∀ o ∈ s.oracle.closes, o = none)
    (hfail : failure (values s).length s.oracle = some (point, errno)) :
    wp (exec t) (fun _ _ => False) (fun e s' => e = .sys errno ∧ Struck s m member.pid point s')
      (epCheck m) s := by
  refine wp_mono (epCheck_ends hopen hpid hkeys hall) ?_ ?_
  · intro _ s' ⟨hnone, _⟩
    cases hnone.symm.trans hfail
  · rintro e s' ⟨point', errno', hsome, rfl, hstruck⟩
    cases hsome.symm.trans hfail
    exact ⟨rfl, hstruck⟩

end Check

-- How many duplicates a call asks for: dup and clone need one for the copy.
def duplicates (s : Sys) (op : Op) : Nat :=
  if Fork.duplicates op then (values s).length + 1 else (values s).length

-- The last of them fails after all others have been made.
theorem failure_succ {count : Nat} {oracle : Oracle} {point : Point} {errno : Errno}
    (h : failure (count + 1) oracle = some (point, errno)) :
    failure count oracle = some (point, errno) ∨
      failure count oracle = none ∧ point = .dup count ∧
        (oracle.dups.drop count).headD none = some errno := by
  unfold failure at h ⊢
  cases hcreate : createFailure oracle.creates with
  | some first =>
      rw [hcreate] at h
      exact Or.inl h
  | none =>
      rw [hcreate] at h
      simp only [dupFailure_succ] at h ⊢
      cases hcount : dupFailure oracle.dups count with
      | some pair =>
          rw [hcount] at h
          exact Or.inl h
      | none =>
          rw [hcount, Option.none_or, Option.map_map, Option.map_eq_some_iff] at h
          obtain ⟨last, hlast, heq⟩ := h
          cases heq
          exact Or.inr ⟨rfl, rfl, hlast⟩

-- No member has been used by this process, and all references lead somewhere.
structure Unused (s : Sys) : Prop where
  member : ∀ member ∈ s.family.members, member.pid ≠ s.self ∧ member.io < s.family.handles.length
  key : ∀ k ∈ keys s, k < s.family.handles.length
  handle : ∀ x ∈ s.family.handles, x.inst < s.kernel.insts.length

-- A forked child before its first use of the family.
structure Forked (s : Sys) : Prop extends Unused s where
  idle : s.family.mutex = none

-- What a fork makes of a family whose references lead somewhere.
theorem forked_of_wired {s : Sys} {pid : Pid} (h : Wired s)
    (hpid : ∀ member ∈ s.family.members, member.pid ≠ pid) :
    Forked { s with self := pid } := by
  refine ⟨⟨fun member hm => ⟨hpid member hm, h.member member hm⟩, ?_, h.handle⟩, h.idle⟩
  intro k hk
  obtain ⟨pair, hpair, rfl⟩ := List.mem_map.mp hk
  obtain ⟨x, hx, _⟩ := h.key pair hpair
  exact (List.getElem?_eq_some_iff.mp hx).1

-- The members that a failure leaves listed.
def relisted (values : List Nat) : Point → List Nat
  | .create => []
  | .dup n => values.take n

-- What a call leaves to the next one in which the re-initialisation failed.
structure Interrupted (s : Sys) (m : Nat) (member : Member) (op : Op) (point : Point)
    (s₁ : Sys) : Prop where
  forked : Forked s₁
  self : s₁.self = s.self
  objects : s₁.objects = s.objects
  values : values s₁ = relisted (values s) point
  listed : m < s₁.family.members.length
  openAt : OpenAt s₁ m ↔ (point ≠ .create ∧ Fork.duplicates op = false) ∨ member.io ∉ keys s

theorem Forked.of_oracle {s : Sys} (h : Forked s) (oracle : Oracle) : Forked { s with oracle := oracle } :=
  ⟨⟨h.member, h.key, h.handle⟩, h.idle⟩

theorem Interrupted.of_oracle {s s₁ : Sys} {m : Nat} {member : Member} {op : Op} {point : Point}
    (h : Interrupted s m member op point s₁) (oracle : Oracle) :
    Interrupted s m member op point { s₁ with oracle := oracle } :=
  ⟨h.forked.of_oracle oracle, h.self, h.objects, h.values, h.listed, h.openAt⟩

section Struck

variable {t m : Nat} {member : Member} {x : Handle} {s s' : Sys} {pid : Pid} {point : Point}

theorem keys_listed (start : Nat) (members : List Nat) :
    ∀ k ∈ (listed start members).map Prod.fst, start ≤ k ∧ k < start + members.length := by
  intro k hk
  obtain ⟨pair, hpair, rfl⟩ := List.mem_map.mp hk
  exact listed_key hpair

theorem inst_of_shut {ks : List Nat} {handles : List Handle} {bound : Nat}
    (h : ∀ x ∈ handles, x.inst < bound) : ∀ x ∈ shutAll ks handles, x.inst < bound := by
  intro x hx
  obtain ⟨n, hn⟩ := List.getElem?_of_mem hx
  rw [shutAll_getElem?] at hn
  obtain ⟨y, hy, rfl⟩ := Option.map_eq_some_iff.mp hn
  have := h y (List.mem_of_getElem? hy)
  split
  · exact this
  · exact this

-- The keys and the IOs of the state after lead somewhere, and no IO is lost.
structure Leads (s s' : Sys) : Prop where
  length : s.family.handles.length ≤ s'.family.handles.length
  key : ∀ k ∈ keys s', k < s'.family.handles.length
  handle : ∀ x ∈ s'.family.handles, x.inst < s'.kernel.insts.length

theorem Dropped.leads (hs : ∀ x ∈ s.family.handles, x.inst < s.kernel.insts.length) (h : Dropped s s') :
    Leads s s' := by
  refine ⟨?_, ?_, ?_⟩
  · exact Nat.le_of_eq (by rw [h.handles, length_shutAll])
  · rw [keys, h.copies]
    exact fun _ hk => absurd hk List.not_mem_nil
  · rw [h.handles, h.insts]
    exact inst_of_shut hs

theorem Begun.leads {done : List Nat} (hs : ∀ x ∈ s.family.handles, x.inst < s.kernel.insts.length)
    (h : Begun s m pid done s') : Leads s s' := by
  have hsize : s'.family.handles.length = s.family.handles.length + (done.length + 1) := by
    rw [h.handles, List.length_append, length_shutAll, List.length_replicate]
  refine ⟨by omega, ?_, ?_⟩
  · intro k hk
    rw [keys, h.copies] at hk
    have := keys_listed _ _ k hk
    omega
  · intro y hy
    rw [h.handles] at hy
    rw [h.insts, List.length_append, List.length_singleton]
    rcases List.mem_append.mp hy with hy | hy
    · have := inst_of_shut hs y hy
      omega
    · rw [List.eq_of_mem_replicate hy]
      simp only
      omega

theorem Struck.leads (hs : ∀ x ∈ s.family.handles, x.inst < s.kernel.insts.length)
    (h : Struck s m pid point s') : Leads s s' := by
  cases point with
  | create => exact Dropped.leads hs h
  | dup n => exact Begun.leads hs h

theorem Begun.new_lt {done : List Nat} (h : Begun s m pid done s') :
    s.family.handles.length < s'.family.handles.length :=
  (List.getElem?_eq_some_iff.mp h.new_handle).1

theorem Unused.of_struck (h : Unused s) (hpid : pid ≠ s.self) (hs : Struck s m pid point s') :
    Unused s' := by
  have hleads := hs.leads h.handle
  refine ⟨fun old hold => ?_, hleads.key, hleads.handle⟩
  have hkept : ∀ old ∈ s.family.members, old.pid ≠ s.self ∧ old.io < s'.family.handles.length :=
    fun old hold => ⟨(h.member old hold).1, Nat.lt_of_lt_of_le (h.member old hold).2 hleads.length⟩
  cases point with
  | create =>
      have hd : Dropped s s' := hs
      rw [hd.members] at hold
      rw [hd.self]
      exact hkept old hold
  | dup n =>
      have hb : Begun s m pid ((values s).take n) s' := hs
      rw [hb.members] at hold
      rw [hb.self]
      rcases List.mem_or_eq_of_mem_set hold with hold | rfl
      · exact hkept old hold
      · exact ⟨hpid, hb.new_lt⟩

theorem Struck.self (h : Struck s m pid point s') : s'.self = s.self := by
  cases point with
  | create => exact Dropped.self h
  | dup n => exact Begun.self h

theorem Struck.length (h : Struck s m pid point s') :
    s'.family.members.length = s.family.members.length := by
  cases point with
  | create => rw [Dropped.members h]
  | dup n => rw [Begun.members h, List.length_set]

theorem Struck.objects (h : Struck s m pid point s') : s'.objects = s.objects := by
  cases point with
  | create => exact Dropped.objects h
  | dup n => exact Begun.objects h

theorem Struck.values (h : Struck s m pid point s') : values s' = relisted (values s) point := by
  cases point with
  | create => rw [Recovery.values, Dropped.copies h]; rfl
  | dup n => rw [Recovery.values, Begun.copies h, listed_values]; rfl

-- An old IO is open if and only if it was and is not a key.
theorem Struck.handle (h : Struck s m pid point s') {n : Nat} (hn : n < s.family.handles.length) :
    s'.family.handles[n]? = (shutAll (keys s) s.family.handles)[n]? := by
  cases point with
  | create => rw [Dropped.handles h]
  | dup k =>
      rw [Begun.handles h]
      exact List.getElem?_append_left (by rw [length_shutAll]; exact hn)

theorem shut_open_iff (hx : s.family.handles[member.io]? = some x) (hc : x.closed = false) :
    (∃ y, (shutAll (keys s) s.family.handles)[member.io]? = some y ∧ y.closed = false) ↔
      member.io ∉ keys s := by
  rw [shutAll_getElem?, hx]
  by_cases hk : member.io ∈ keys s
  · simp [hk]
  · simp [hk, hc]

-- An IO that nothing has been done to but what the keys had done to them.
theorem Struck.openAt_iff {q : Sys} (h : Struck s m pid point s')
    (hx : s.family.handles[member.io]? = some x)
    (hc : x.closed = false) {k : Nat} (hk : q.family.members[k]? = some member)
    (hq : q.family.handles = s'.family.handles) : OpenAt q k ↔ member.io ∉ keys s := by
  rw [← shut_open_iff hx hc, ← h.handle (List.getElem?_eq_some_iff.mp hx).1, ← hq]
  constructor
  · rintro ⟨other, y, hother, hy, hyc⟩
    obtain rfl := Option.some.inj (hk.symm.trans hother)
    exact ⟨y, hy, hyc⟩
  · rintro ⟨y, hy, hyc⟩
    exact ⟨member, y, hk, hy, hyc⟩

theorem Struck.interrupted {op : Op} (h : Struck (s.withMutex (some t)) m member.pid point s')
    (hf : Forked s)
    (hopen : OpenAs s m member x) (hdup : Fork.duplicates op = false) :
    Interrupted s m member op point (s'.withMutex none) := by
  have hpid : member.pid ≠ s.self := (hf.member member (List.mem_of_getElem? hopen.1)).1
  have hunused : Unused (s.withMutex (some t)) := ⟨hf.member, hf.key, hf.handle⟩
  have hnow := hunused.of_struck hpid h
  have hlt : m < s.family.members.length := (List.getElem?_eq_some_iff.mp hopen.1).1
  refine ⟨⟨⟨hnow.member, hnow.key, hnow.handle⟩, rfl⟩, h.self, h.objects, h.values, ?_, ?_⟩
  · exact Nat.lt_of_lt_of_eq hlt h.length.symm
  cases point with
  | create =>
      have hmember : (s'.withMutex none).family.members[m]? = some member := by
        have hd : Dropped (s.withMutex (some t)) s' := h
        have hsame : s'.family.members = s.family.members := hd.members
        simp only [Sys.withMutex, hsame]
        exact hopen.1
      rw [h.openAt_iff hopen.2.1 hopen.2.2 hmember rfl]
      constructor
      · exact Or.inr
      · rintro (⟨hne, _⟩ | hkey)
        · exact absurd rfl hne
        · exact hkey
  | dup n =>
      constructor
      · intro _
        exact Or.inl ⟨by simp, hdup⟩
      · intro _
        have hb : Begun (s.withMutex (some t)) m member.pid ((Recovery.values s).take n) s' := h
        exact ⟨_, _, hb.listed_member hlt, hb.new_handle, rfl⟩

-- The copy that dup allocates.
def grown (s : Sys) (member : Member) : Sys :=
  { s with family.members := s.family.members ++ [member] }

def discarded (s : Sys) : Sys := { s with family.members := s.family.members.dropLast }

theorem Begun.discarded_members {done : List Nat}
    (h : Begun ((grown s member).withMutex (some t)) s.family.members.length pid done s') :
    s'.family.members.dropLast = s.family.members := by
  have hset : s'.family.members = (s.family.members ++ [member]).set s.family.members.length
      ⟨s.family.handles.length, pid⟩ := h.members
  rw [hset]
  simp

theorem Struck.discarded_members (h : Struck ((grown s member).withMutex (some t))
    s.family.members.length pid point s') :
    s'.family.members.dropLast = s.family.members := by
  cases point with
  | create =>
      have hsame : s'.family.members = s.family.members ++ [member] := Dropped.members h
      rw [hsame, List.dropLast_concat]
  | dup n => exact Begun.discarded_members h

theorem Struck.interrupted_copy {op : Op}
    (h : Struck ((grown s member).withMutex (some t)) s.family.members.length pid point s')
    (hf : Forked s) (hopen : OpenAs s m member x) (hdup : Fork.duplicates op = true) :
    Interrupted s m member op point (discarded (s'.withMutex none)) := by
  have hleads : Leads ((grown s member).withMutex (some t)) s' := h.leads hf.handle
  have hself : s'.self = s.self := h.self
  have hmembers : (discarded (s'.withMutex none)).family.members = s.family.members := h.discarded_members
  refine ⟨⟨⟨fun old hold => ?_, hleads.key, hleads.handle⟩, rfl⟩, hself, h.objects, h.values, ?_, ?_⟩
  · rw [hmembers] at hold
    obtain ⟨hpid, hlt⟩ := hf.member old hold
    exact ⟨fun heq => hpid (heq.trans hself), Nat.lt_of_lt_of_le hlt hleads.length⟩
  · rw [hmembers]
    exact (List.getElem?_eq_some_iff.mp hopen.1).1
  · have hmember : (discarded (s'.withMutex none)).family.members[m]? = some member := by
      rw [hmembers]
      exact hopen.1
    have hiff : OpenAt (discarded (s'.withMutex none)) m ↔
        member.io ∉ keys ((grown s member).withMutex (some t)) :=
      h.openAt_iff hopen.2.1 hopen.2.2 hmember rfl
    rw [hiff, hdup]
    simp [keys, grown, Sys.withMutex]

end Struck

section First

variable {t m : Nat} {member : Member} {x : Handle} {s : Sys} {op : Op} {point : Point} {errno : Errno}

-- dup and clone run the check on the copy, which the caller never sees.
theorem dup_checked {P : Sys → Prop} {F : Err → Sys → Prop} {post : Ret → Sys → Prop}
    {fail : Err → Sys → Prop} (hs : s.family.mutex = none) (hm : s.family.members[m]? = some member)
    (hcheck : wp (exec t) (fun _ s₁ => P s₁) F (epCheck s.family.members.length)
      ((grown s member).withMutex (some t)))
    (hrest : ∀ s₁, P s₁ → wp (exec t) (fun _ s₂ =>
      post (.epoll s.family.members.length) (s₂.withMutex none))
      (fun e s₂ => fail e (discarded (s₂.withMutex none)))
      (do
        let io ← .perform (.getIo s.family.members.length)
        let closed ← .perform (.closed io)
        if closed then Pure.pure ()
        else
          let ioDup ← .attempt (.dup io)
          .perform (.setIo s.family.members.length ioDup)
          let copies ← .perform .getCopies
          .perform (.setCopies (Shared.copiesInsert copies ioDup s.family.members.length))) s₁)
    (hfail : ∀ e s₁, F e s₁ → fail e (discarded (s₁.withMutex none))) :
    wp (exec t) post fail (Epoll.dup m) s := by
  simp only [Epoll.dup, Shared.dup, wp_monad_bind, wp_allocate, wp_rescue, Shared.initializeCopy,
    wp_synchronize,
    wp_discard, wp_raise, wp_monad_pure]
  refine ⟨member, hm, hs, ?_⟩
  refine wp_mono hcheck (fun _ s₁ h₁ => ?_) fun e s₁ h₁ => hfail e s₁ h₁
  exact hrest s₁ h₁

theorem dup_struck (hf : Forked s) (hopen : OpenAs s m member x) (hall : ∀ o ∈ s.oracle.closes, o = none)
    (hdup : Fork.duplicates op = true)
    (hfail : failure ((values s).length + 1) s.oracle = some (point, errno)) :
    wp (exec t)
      (fun v s₁ => .ok v = (.error (.sys errno) : Except Err Ret) ∧ Interrupted s m member op point s₁)
      (fun e s₁ => .error e = (.error (.sys errno) : Except Err Ret) ∧ Interrupted s m member op point s₁)
      (Epoll.dup m) s := by
  have hpid : member.pid ≠ s.self := (hf.member member (List.mem_of_getElem? hopen.1)).1
  have hlast : (grown s member).family.members[s.family.members.length]? = some member :=
    List.getElem?_concat_length
  have hlt : s.family.members.length < (grown s member).family.members.length :=
    (List.getElem?_eq_some_iff.mp hlast).1
  have hcheck := epCheck_ends (t := t) (s := (grown s member).withMutex (some t))
    ⟨hlast, hopen.2.1, hopen.2.2⟩ hpid hf.key hall
  refine dup_checked hf.idle hopen.1 hcheck ?_ ?_
  · rintro s₁ ⟨hnone, hbegun, hdups⟩
    have hcount : failure (values s).length s.oracle = none := hnone
    rcases failure_succ hfail with hsome | ⟨_, rfl, hfirst⟩
    · cases hcount.symm.trans hsome
    · have hstruck : Struck ((grown s member).withMutex (some t)) s.family.members.length s.self
          (.dup (values s).length) s₁ := by
        have htake : (values s).take (values s).length = values s := List.take_length
        change Begun _ _ _ ((values s).take (values s).length) s₁
        rw [htake]
        exact hbegun
      have hleft : s₁.oracle.dups.headD none = some errno := by
        rw [hdups]
        exact hfirst
      simp only [wp_monad_bind, wp_getIo, wp_closed]
      refine ⟨_, hbegun.listed_member hlt, _, hbegun.new_handle, ?_⟩
      simp only [Bool.false_eq_true, ite_false, wp_monad_bind, SleepyPenguin.wp_dup]
      refine ⟨_, hbegun.new_handle, ends_mono (dup_ends rfl) ?_ ?_⟩
      · rintro _ _ ⟨hok, _⟩
        cases hok.symm.trans hleft
      · rintro _ _ ⟨errno', hsome, rfl, rfl⟩
        cases hsome.symm.trans hleft
        have hi : Interrupted s m member op _ _ := hstruck.interrupted_copy hf hopen hdup
        exact ⟨rfl, hi.of_oracle { s₁.oracle with dups := s₁.oracle.dups.tail }⟩
  · rintro e s₁ ⟨point', errno', hsome, rfl, hstruck⟩
    have hcount : failure (values s).length s.oracle = some (point', errno') := hsome
    rcases failure_succ hfail with hsame | ⟨hnone, _⟩
    · cases hcount.symm.trans hsame
      exact ⟨rfl, hstruck.interrupted_copy hf hopen hdup⟩
    · cases hcount.symm.trans hnone

theorem method_interrupted (hf : Forked s) (hopen : OpenAs s m member x)
    (hp : s.oracle.answers = []) (hall : ∀ o ∈ s.oracle.closes, o = none)
    (hreach : Fork.reaches s.objects op = true)
    (hfail : failure (duplicates s op) s.oracle = some (point, errno)) :
    ∃ s₁, (method m op).run (exec t) s = some (Fork.raised op (.sys errno), s₁) ∧
      Interrupted s m member op point s₁ := by
  have hpid : member.pid ≠ s.self := (hf.member member (List.mem_of_getElem? hopen.1)).1
  rw [exists_run_eq_iff_wp]
  cases hdup : Fork.duplicates op with
  | false =>
      have hcount : failure (values s).length s.oracle = some (point, errno) := by
        simpa only [duplicates, hdup, Bool.false_eq_true, ite_false] using hfail
      have hcheck := epCheck_struck (t := t) (s := s.withMutex (some t)) hopen hpid hf.key hall hcount
      refine Fork.method_reinit hf.idle hp hreach hdup hcheck (fun _ h => h.elim) (fun _ h => h.elim) ?_
      rintro e s₁ ⟨rfl, hstruck⟩
      have hleft := hstruck.interrupted hf hopen hdup
      cases Fork.raised op (.sys errno) with
      | ok v => exact ⟨rfl, hleft⟩
      | error e => exact ⟨rfl, hleft⟩
  | true =>
      have hcount : failure ((values s).length + 1) s.oracle = some (point, errno) := by
        simpa only [duplicates, hdup, ite_true] using hfail
      have hcopy := dup_struck (t := t) hf hopen hall hdup hcount
      cases op with
      | dup | clone => exact hcopy
      | _ => cases hdup

end First

-- A call that changes no member.
structure Framed (s s' : Sys) : Prop where
  self : s'.self = s.self
  members : ∀ k < s.family.members.length, s'.family.members[k]? = s.family.members[k]?

-- A call that has re-initialised `m`, whatever else it did.
def Retried (s : Sys) (m : Nat) (s' : Sys) : Prop :=
  ∃ q, Begun s m s.self (values s) q ∧ SameMembers q s' ∧ creators s' = creators q

section Second

variable {t m : Nat} {member : Member} {x : Handle} {inst : Inst} {s s' : Sys} {op : Op}

theorem Framed.of_same (h : SameMembers s s') : Framed s s' := ⟨h.self, fun _ _ => by rw [h.members]⟩

theorem Framed.of_outcome (hclose : closes op = false) (h : Outcome op m member x inst s s') :
    Framed s s' := by
  cases h with
  | effect he => exact .of_same he.sameMembers
  | waited hw => exact .of_same hw.sameMembers
  | duplicated hk hd =>
      refine ⟨hk.self, fun k hlt => ?_⟩
      have happend : ∃ new, s'.family.members = s.family.members ++ [new] := by
        unfold Duplicated at hd
        split at hd
        · exact ⟨_, hd.1⟩
        · exact ⟨_, hd.1⟩
      obtain ⟨new, hnew⟩ := happend
      rw [hnew]
      exact List.getElem?_append_left hlt
  | failed hk hf => exact ⟨hk.self, fun _ _ => by rw [hf.members]⟩
  | closed hop _ _ =>
      subst hop
      cases hclose

-- The methods on an up-to-date member that neither close it nor duplicate it.
theorem method_sameMembers (hp : Passes s m member x) (hinst : s.kernel.insts[x.inst]? = some inst)
    (hs : s.family.mutex = none) (hdup : Fork.duplicates op = false) (hclose : closes op = false) :
    wp (exec t) (fun _ s' => SameMembers s s' ∧ creators s' = creators s)
      (fun _ s' => SameMembers s s' ∧ creators s' = creators s) (method m op) s := by
  have hwaited : ∀ s', Waited x inst s s' → SameMembers s s' ∧ creators s' = creators s := fun s' hw =>
    ⟨hw.sameMembers, hw.creators⟩
  refine wp_mono (method_changes hp hinst hs ?_ ?_ ?_) ?_ ?_
  · rintro rfl
    cases hdup
  · rintro rfl
    cases hdup
  · rintro rfl
    cases hclose
  · intro _ s' h
    rcases h with he | hw
    · exact ⟨he.sameMembers, he.creators⟩
    · exact hwaited s' hw
  · intro _ s' h
    rcases h with hq | ⟨_, hw⟩
    · exact ⟨hq.sameMembers, creators_congr hq.insts⟩
    · exact hwaited s' hw

theorem Begun.of_lock {done : List Nat} {pid : Pid} (hs : s.family.mutex = none)
    (h : Begun (s.withMutex (some t)) m pid done s') : Begun s m pid done (s'.withMutex none) :=
  ⟨h.self, h.members, h.handles, h.copies, hs.symm, h.objects, h.insts, h.answers⟩

theorem method_retried (hf : Forked s) (hopen : OpenAs s m member x) (hp : s.oracle.answers = [])
    (hall : ∀ o ∈ s.oracle.closes, o = none) (hreach : Fork.reaches s.objects op = true)
    (hdup : Fork.duplicates op = false) (hnone : failure (values s).length s.oracle = none) :
    wp (exec t) (fun _ s' => Retried s m s') (fun _ s' => Retried s m s') (method m op) s := by
  have hpid : member.pid ≠ s.self := (hf.member member (List.mem_of_getElem? hopen.1)).1
  have hlt : m < s.family.members.length := (List.getElem?_eq_some_iff.mp hopen.1).1
  have hcheck := epCheck_begun (t := t) (s := s.withMutex (some t)) hopen hpid hf.key hall hnone
  have hpasses : ∀ s₁, Begun (s.withMutex (some t)) m s.self (values s) s₁ →
      Passes s₁ m ⟨s.family.handles.length, s.self⟩ ⟨s.kernel.insts.length, false, true, s.self⟩ :=
    fun s₁ h₁ => ⟨h₁.listed_member hlt, h₁.new_handle, Or.inl h₁.self.symm⟩
  refine Fork.method_reinit hf.idle hp hreach hdup hcheck (fun s₁ h₁ => ?_)
    (fun s₁ h₁ => ?_) fun _ _ h => h.elim
  · exact ⟨h₁.mutex, h₁.objects, h₁.answers.trans hp, _, _, hpasses s₁ h₁⟩
  · have hinst : (s₁.withMutex none).kernel.insts[s.kernel.insts.length]? =
        some ⟨s.self, Interest.empty, []⟩ := by
      have hinsts : (s₁.withMutex none).kernel.insts =
        s.kernel.insts ++ [⟨s.self, Interest.empty, []⟩] := h₁.insts
      rw [hinsts]
      exact List.getElem?_concat_length
    have hsame := method_sameMembers (t := t) ((hpasses s₁ h₁).of_lock none) hinst rfl hdup
      (Fork.closes_of_reaches hreach)
    have hretried : ∀ s₂, SameMembers (s₁.withMutex none) s₂ ∧ creators s₂ = creators (s₁.withMutex none) →
        Retried s m s₂ := fun s₂ h₂ => ⟨s₁.withMutex none, h₁.of_lock hf.idle, h₂.1, h₂.2⟩
    exact wp_mono hsame (fun _ s₂ h₂ => hretried s₂ h₂) fun _ s₂ h₂ => hretried s₂ h₂

-- The copy is re-initialised and the original is not.
theorem dup_framed (hf : Forked s) (hopen : OpenAs s m member x) (hall : ∀ o ∈ s.oracle.closes, o = none)
    (hnone : failure (values s).length s.oracle = none) :
    wp (exec t) (fun _ s' => Framed s s') (fun _ s' => Framed s s') (Epoll.dup m) s := by
  have hpid : member.pid ≠ s.self := (hf.member member (List.mem_of_getElem? hopen.1)).1
  have hlast : (grown s member).family.members[s.family.members.length]? = some member :=
    List.getElem?_concat_length
  have hlt : s.family.members.length < (grown s member).family.members.length :=
    (List.getElem?_eq_some_iff.mp hlast).1
  have hcheck := epCheck_begun (t := t) (s := (grown s member).withMutex (some t))
    ⟨hlast, hopen.2.1, hopen.2.2⟩ hpid hf.key hall hnone
  refine dup_checked hf.idle hopen.1 hcheck (fun s₁ h₁ => ?_) fun _ _ h => h.elim
  simp only [wp_monad_bind, wp_getIo, wp_closed]
  refine ⟨_, h₁.listed_member hlt, _, h₁.new_handle, ?_⟩
  simp only [Bool.false_eq_true, ite_false, wp_monad_bind, SleepyPenguin.wp_dup, wp_setIo, wp_getCopies,
    wp_setCopies]
  refine ⟨_, h₁.new_handle, ends_mono (dup_ends rfl) ?_ ?_⟩
  · rintro _ _ ⟨_, rfl, rfl⟩
    refine ⟨_, h₁.listed_member hlt, h₁.self, fun k hk => ?_⟩
    have hmembers : s₁.family.members = (s.family.members ++ [member]).set s.family.members.length
      ⟨s.family.handles.length, s.self⟩ := h₁.members
    simp only [Sys.withMutex, Sys.setMember, hmembers]
    rw [List.getElem?_set_ne (by omega), List.getElem?_set_ne (by omega)]
    exact List.getElem?_append_left hk
  · rintro _ _ ⟨_, _, _, rfl⟩
    refine ⟨h₁.self, fun k hk => ?_⟩
    have hmembers : s₁.family.members.dropLast = s.family.members := h₁.discarded_members
    simp only [discarded, Sys.withMutex, hmembers]

-- A call that finds the member closed, or that works on a copy.
theorem method_framed (hf : Forked s) (hlt : m < s.family.members.length)
    (hall : ∀ o ∈ s.oracle.closes, o = none) (hclose : closes op = false)
    (hnone : failure (values s).length s.oracle = none) (h : ¬OpenAt s m ∨ Fork.duplicates op = true) :
    wp (exec t) (fun _ s' => Framed s s') (fun _ s' => Framed s s') (method m op) s := by
  have hget := List.getElem?_eq_getElem hlt
  obtain ⟨hpid, hio⟩ := hf.member _ (List.getElem_mem hlt)
  have hx := List.getElem?_eq_getElem hio
  cases hc : (s.family.handles[(s.family.members[m]).io]).closed with
  | true =>
      have hinst := List.getElem?_eq_getElem (hf.handle _ (List.getElem_mem hio))
      refine wp_mono (method_outcome ⟨hget, hx, Or.inr hc⟩ hinst hf.idle op) ?_ ?_
      · exact fun _ s' ho => .of_outcome hclose ho
      · exact fun _ s' ho => .of_outcome hclose ho.1
  | false =>
      have hopen : OpenAs s m _ _ := ⟨hget, hx, hc⟩
      have hdup : Fork.duplicates op = true := by
        refine h.resolve_left fun hno => ?_
        exact hno ⟨_, _, hopen⟩
      cases op with
      | dup | clone => exact dup_framed hf hopen hall hnone
      | _ => cases hdup

end Second

-- Every member that was open is open again, on one instance that this process
-- has made, and is listed.
def Recovered (s s' : Sys) : Prop :=
  ∃ e, (creators s')[e]? = some s'.self ∧ ∀ k, OpenAt s k →
    (∃ member x, OpenAs s' k member x ∧ member.pid = s'.self ∧ x.inst = e) ∧
    ∃ key x, (key, k) ∈ s'.family.copies ∧ s'.family.handles[key]? = some x ∧ x.closed = false ∧ x.inst = e

-- The call raises the error, and the next one that gets as far as the fork
-- check finds the family as it was before the fork, but re-initialised.
def Recoverable (s : Sys) (m : Nat) (op : Op) (oracle : Oracle) (errno : Errno) (next : Op)
    (later : Oracle) :
    Prop :=
  ∃ s₁, (method m op).call oracle s = some (.error (.sys errno), s₁) ∧
    ∃ outcome s₂, (method m next).call later s₁ = some (outcome, s₂) ∧ Recovered s s₂

-- The oracle of a call whose IOs answer for themselves and that closes what it
-- has to close.
structure Plain (oracle : Oracle) : Prop where
  answers : oracle.answers = []
  closes : ∀ o ∈ oracle.closes, o = none

section Recover

variable {m : Nat} {member : Member} {x : Handle} {s s₁ s₂ : Sys} {op next : Op} {oracle later : Oracle}
  {point : Point} {errno : Errno}

theorem mem_listed (start : Nat) {k : Nat} {members : List Nat} (h : k ∈ members) :
    ∃ key, (key, k) ∈ listed start members := by
  rw [← listed_values start members] at h
  obtain ⟨⟨key, _⟩, hpair, rfl⟩ := List.mem_map.mp h
  exact ⟨key, hpair⟩

-- An IO that the re-initialisation has made.
theorem Begun.handle_new {pid : Pid} {done : List Nat} {s' : Sys} (h : Begun s m pid done s') {n : Nat}
    (hlow : s.family.handles.length ≤ n) (hhigh : n < s.family.handles.length + (done.length + 1)) :
    s'.family.handles[n]? = some ⟨s.kernel.insts.length, false, true, s.self⟩ := by
  have hsize : (shutAll (keys s) s.family.handles).length = s.family.handles.length := length_shutAll
  rw [h.handles, List.getElem?_append_right (by omega), List.getElem?_replicate, if_pos (by omega)]

-- The member itself is still outdated.
theorem not_recovered (hf : Forked s₁) (hlt : m < s₁.family.members.length)
    (hopen : OpenAt s m) (h : Framed s₁ s₂) : ¬Recovered s s₂ := by
  rintro ⟨e, _, hall⟩
  obtain ⟨⟨other, y, ho, hpid, _⟩, _⟩ := hall m hopen
  have hold := ho.1
  rw [h.members m hlt] at hold
  exact (hf.member other (List.mem_of_getElem? hold)).1 (hpid.trans h.self)

theorem recovered_iff (hf : Forked s₁) (hlt : m < s₁.family.members.length) (hopen : OpenAt s m)
    (h : Retried s₁ m s₂) :
    Recovered s s₂ ↔ (∀ k, OpenAt s k → k = m) ∧ m ∈ values s₁ := by
  obtain ⟨q, hb, hsame, hcreators⟩ := h
  have hself : s₂.self = s₁.self := hsame.self.trans hb.self
  constructor
  · rintro ⟨e, _, hall⟩
    refine ⟨fun k hk => ?_, ?_⟩
    · by_contra hne
      obtain ⟨⟨other, y, ho, hpid, _⟩, _⟩ := hall k hk
      have hold := ho.1
      rw [hsame.members, hb.members, List.getElem?_set_ne (Ne.symm hne)] at hold
      exact (hf.member other (List.mem_of_getElem? hold)).1 (hpid.trans hself)
    · obtain ⟨_, key, y, hpair, _⟩ := hall m hopen
      rw [hsame.copies, hb.copies] at hpair
      rw [← listed_values (s₁.family.handles.length + 1) (values s₁)]
      exact List.mem_map.mpr ⟨_, hpair, rfl⟩
  · rintro ⟨hsole, hmem⟩
    refine ⟨s₁.kernel.insts.length, ?_, fun k hk => ?_⟩
    · rw [hcreators, creators, List.getElem?_map, hb.insts, List.getElem?_concat_length, hself]
      rfl
    · obtain rfl := hsole k hk
      have hnew := hb.new_handle
      refine ⟨⟨⟨s₁.family.handles.length, s₁.self⟩, _, ⟨?_, hsame.handles ▸ hnew, rfl⟩,
        hself.symm, rfl⟩, ?_⟩
      · rw [hsame.members]
        exact hb.listed_member hlt
      · obtain ⟨key, hkey⟩ := mem_listed (s₁.family.handles.length + 1) hmem
        have hbounds := listed_key hkey
        have hmade := hb.handle_new (n := key) (by omega) (by omega)
        refine ⟨key, _, ?_, hsame.handles ▸ hmade, rfl, rfl⟩
        rw [hsame.copies, hb.copies]
        exact hkey

end Recover

-- The methods that pass the error on: `wait` meets nil in its ensure clause, and
-- `delete` swallows two errors.
def Raises (errno : Errno) : Op → Prop
  | .wait _ => False
  | .delete _ => errno ≠ .ENOENT ∧ errno ≠ .EBADF
  | _ => True

-- What it takes for the next call to find everything as it should be.
structure Mendable (s : Sys) (m : Nat) (member : Member) (op : Op) (point : Point) (errno : Errno)
    (next : Op) : Prop where
  raises : Raises errno op
  -- no other member was open
  sole : ∀ k, OpenAt s k → k = m
  -- the member was listed again before the failure
  listed : ∃ n, point = .dup n ∧ m ∈ (values s).take n
  -- a copy that is lost has not closed the IO of the original
  spared : Fork.duplicates op = true → member.io ∉ keys s
  next : Fork.duplicates next = false

section Recoverable

variable {m : Nat} {member : Member} {x : Handle} {s s₁ : Sys} {op next : Op} {oracle later : Oracle}
  {point : Point} {errno : Errno}

theorem raised_iff : Fork.raised op (.sys errno) = .error (.sys errno) ↔ Raises errno op := by
  cases op with
  | wait n => simp [Fork.raised, Raises]
  | delete io =>
      simp only [Fork.raised, Raises, Err.sys.injEq]
      split
      · rename_i hgone
        simp only [reduceCtorEq, false_iff, not_and_or, not_not]
        exact hgone
      · rename_i hother
        simpa only [true_iff, not_or] using hother
  | _ => simp [Fork.raised, Raises]

-- The next call on a member that may or may not be open still.
theorem next_recovers_iff (hi : Interrupted s m member op point s₁) (hopen : OpenAt s m)
    (hlater : Plain later)
    (hnext : Fork.reaches s.objects next = true) (havail : ∀ count, failure count later = none) :
    (∃ outcome s₂, (method m next).call later s₁ = some (outcome, s₂) ∧ Recovered s s₂) ↔
      (OpenAt s₁ m ∧ Fork.duplicates next = false) ∧ (∀ k, OpenAt s k → k = m) ∧
        m ∈ relisted (values s) point := by
  have hf := hi.forked.of_oracle later
  have hreach : Fork.reaches s₁.objects next = true := hi.objects.symm ▸ hnext
  by_cases hgood : OpenAt s₁ m ∧ Fork.duplicates next = false
  · obtain ⟨⟨other, y, hother⟩, hdup⟩ := hgood
    have hrun : wp (exec 0) (fun _ s₂ => Retried { s₁ with oracle := later } m s₂)
        (fun _ s₂ => Retried { s₁ with oracle := later } m s₂)
        (method m next) { s₁ with oracle := later } :=
      method_retried hf hother hlater.answers hlater.closes hreach hdup (havail _)
    obtain ⟨outcome, s₂, hcall, hretried⟩ := exists_run_iff_wp.mpr hrun
    have hiff := recovered_iff hf hi.listed hopen hretried
    rw [← hi.values]
    constructor
    · rintro ⟨outcome', s₂', hcall', hrecovered⟩
      cases hcall.symm.trans hcall'
      exact ⟨⟨⟨other, y, hother⟩, hdup⟩, hiff.mp hrecovered⟩
    · rintro ⟨_, hcondition⟩
      exact ⟨outcome, s₂, hcall, hiff.mpr hcondition⟩
  · have hbad : ¬OpenAt s₁ m ∨ Fork.duplicates next = true := by
      rcases not_and_or.mp hgood with hclosed | hdup
      · exact Or.inl hclosed
      · exact Or.inr (by simpa using hdup)
    have hrun : wp (exec 0) (fun _ s₂ => Framed { s₁ with oracle := later } s₂)
        (fun _ s₂ => Framed { s₁ with oracle := later } s₂) (method m next) { s₁ with oracle := later } :=
      method_framed hf hi.listed hlater.closes (Fork.closes_of_reaches hreach) (havail _) hbad
    constructor
    · rintro ⟨outcome, s₂, hcall, hrecovered⟩
      have hframed : Framed { s₁ with oracle := later } s₂ := ends_same (wp_of_run hrun hcall)
      exact absurd hrecovered (not_recovered hf hi.listed hopen hframed)
    · rintro ⟨hopen₁, _⟩
      exact absurd hopen₁ hgood

theorem call_interrupted (hf : Forked s) (hopen : OpenAs s m member x) (horacle : Plain oracle)
    (hreach : Fork.reaches s.objects op = true)
    (hfail : failure (duplicates s op) oracle = some (point, errno)) :
    ∃ s₁, (method m op).call oracle s = some (Fork.raised op (.sys errno), s₁) ∧
      Interrupted s m member op point s₁ := by
  obtain ⟨s₁, hrun, h⟩ :=
    method_interrupted (t := 0) (hf.of_oracle oracle) hopen horacle.answers horacle.closes hreach hfail
  exact ⟨s₁, hrun, h.forked, h.self, h.objects, h.values, h.listed, h.openAt⟩

-- A member that the failure leaves unlisted is not listed by the next call.
theorem relisted_of_recoverable (hf : Forked s) (hopen : OpenAs s m member x) (horacle : Plain oracle)
    (hreach : Fork.reaches s.objects op = true)
    (hfail : failure (duplicates s op) oracle = some (point, errno)) (hlater : Plain later)
    (hnext : Fork.reaches s.objects next = true) (havail : ∀ count, failure count later = none)
    (h : Recoverable s m op oracle errno next later) : m ∈ relisted (values s) point := by
  obtain ⟨s₁, hraise, hrecovers⟩ := h
  obtain ⟨s₁', hcall, hi⟩ := call_interrupted hf hopen horacle hreach hfail
  rw [hcall, Option.some.injEq, Prod.mk.injEq] at hraise
  obtain ⟨_, rfl⟩ := hraise
  exact ((next_recovers_iff hi ⟨member, x, hopen⟩ hlater hnext havail).mp hrecovers).2.2

-- Wherever the re-initialisation of a forked child fails, the next call mends it
-- if and only if what it needs has been kept.
theorem recoverable_iff (hf : Forked s) (hopen : OpenAs s m member x) (horacle : Plain oracle)
    (hreach : Fork.reaches s.objects op = true)
    (hfail : failure (duplicates s op) oracle = some (point, errno)) (hlater : Plain later)
    (hnext : Fork.reaches s.objects next = true) (havail : ∀ count, failure count later = none) :
    Recoverable s m op oracle errno next later ↔ Mendable s m member op point errno next := by
  obtain ⟨s₁, hcall, hi⟩ := call_interrupted hf hopen horacle hreach hfail
  have hmends := next_recovers_iff hi ⟨member, x, hopen⟩ hlater hnext havail
  constructor
  · rintro ⟨s₁', hraise, hrecovers⟩
    rw [hcall, Option.some.injEq, Prod.mk.injEq] at hraise
    obtain ⟨hraised, rfl⟩ := hraise
    obtain ⟨⟨hopen₁, hdup⟩, hsole, hmem⟩ := hmends.mp hrecovers
    refine ⟨raised_iff.mp hraised, hsole, ?_, ?_, hdup⟩
    · cases point with
      | create => exact absurd hmem List.not_mem_nil
      | dup n => exact ⟨n, rfl, hmem⟩
    · intro hcopy
      rcases hi.openAt.mp hopen₁ with ⟨_, hno⟩ | hkey
      · rw [hcopy] at hno
        cases hno
      · exact hkey
  · intro hm
    obtain ⟨n, rfl, hmem⟩ := hm.listed
    have hopen₁ : OpenAt s₁ m := by
      apply hi.openAt.mpr
      cases hdup : Fork.duplicates op with
      | false => exact Or.inl ⟨by simp, rfl⟩
      | true => exact Or.inr (hm.spared hdup)
    refine ⟨s₁, ?_, hmends.mpr ⟨⟨hopen₁, hm.next⟩, hm.sole, hmem⟩⟩
    rw [hcall, raised_iff.mpr hm.raises]

end Recoverable

-- Two members and two forks: the grandchild fails to list a member that was
-- closed already, after it has listed the one that is open.
theorem recoverable_grandchild :
    ∃ l, Foundation.runEvents (Lineage.step Fork.api) (Lineage.start 1 noObjects)
        [.call 0 .dup {}, .fork 2, .call 0 .toIo {}, .fork 3] = some l ∧
      Recoverable l.sys 0 .toIo { dups := [none, some .EMFILE] } .EMFILE .toIo {} := by
  refine ⟨_, rfl, ?_⟩
  refine (recoverable_iff ⟨⟨?_, ?_, ?_⟩, rfl⟩ ⟨rfl, rfl, rfl⟩ ⟨rfl, ?_⟩ rfl rfl ⟨rfl, ?_⟩ rfl ?_).mpr ?_
  · decide
  · decide
  · decide
  · simp
  · simp
  · exact failure_never (by simp) (by simp)
  · refine ⟨trivial, ?_, ⟨1, rfl, by decide⟩, fun h => (by cases h), rfl⟩
    intro k hk
    have hlt : k < 2 := by
      obtain ⟨member, x, hm, _⟩ := hk
      exact (List.getElem?_eq_some_iff.mp hm).1
    by_contra hne
    have hone : k = 1 := by omega
    rw [hone, ← isOpen_iff] at hk
    exact absurd hk (by decide)

-- A family of one that has just been forked.
def child : Sys := { opened 1 noObjects with self := 2 }

theorem child_forked : Forked child :=
  forked_of_wired (opened_settled 1 noObjects).toWired (by decide)

theorem child_open : OpenAs child 0 ⟨0, 1⟩ ⟨0, false, true, 1⟩ := ⟨rfl, rfl, rfl⟩

-- Its first use finds no descriptor, and the next finds it closed; had it been
-- `wait`, there would be no telling why. Where the duplicate fails, the member
-- is not listed any more.
theorem failed_use_not_recovered :
    (∃ s₁, (method 0 .toIo).call { creates := [some .EMFILE, some .EMFILE] } child =
        some (.error (.sys .EMFILE), s₁) ∧ ((method 0 .closedP).call {} s₁).map (·.1) =
          some (.ok (.bool true))) ∧
      ((method 0 (.wait none)).call { creates := [some .EMFILE, some .EMFILE] } child).map (·.1) =
        some (.error .noMethodError) ∧
      ¬Recoverable child 0 .toIo { creates := [some .EMFILE, some .EMFILE] } .EMFILE .toIo {} ∧
      ¬Recoverable child 0 .toIo { dups := [some .EMFILE] } .EMFILE .toIo {} := by
  refine ⟨⟨_, rfl, ?_⟩, ?_, ?_, ?_⟩
  · rfl
  · rfl
  · intro h
    have hmem : 0 ∈ relisted (values child) .create :=
      relisted_of_recoverable child_forked child_open ⟨rfl, by simp⟩ rfl rfl ⟨rfl, by simp⟩ rfl
        (failure_never (by simp) (by simp)) h
    cases hmem
  · intro h
    have hmem : 0 ∈ relisted (values child) (.dup 0) :=
      relisted_of_recoverable child_forked child_open ⟨rfl, by simp⟩ rfl rfl ⟨rfl, by simp⟩ rfl
        (failure_never (by simp) (by simp)) h
    cases hmem

end SleepyPenguin.Epoll.Recovery
