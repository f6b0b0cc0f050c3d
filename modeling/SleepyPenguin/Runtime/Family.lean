import SleepyPenguin.Foundation.Lists
import SleepyPenguin.Runtime.Rules
import SleepyPenguin.Runtime.Shared

namespace SleepyPenguin

open Foundation Foundation.Prog

-- The object `m` has the IO `x`, which the fork check leaves alone: it
-- belongs to this process, or it is closed.
structure Passes (s : Sys) (m : Nat) (member : Member) (x : Handle) : Prop where
  listed : s.family.members[m]? = some member
  handle : s.family.handles[member.io]? = some x
  pass : member.pid = s.self ∨ x.closed = true

-- What the descriptors and the instances lead to is as before. The members
-- may differ.
structure Kept (s s' : Sys) : Prop where
  self : s'.self = s.self
  marks : s'.family.marks = s.family.marks
  events : s'.family.events = s.family.events
  mutex : s'.family.mutex = s.family.mutex
  objects : s'.objects = s.objects
  frames : s'.frames = s.frames
  insts : s'.kernel.insts = s.kernel.insts

-- The outcome of dup and clone: the copy of a closed object shares its IO,
-- the copy of an open one gets an IO of its own on the same instance.
def Duplicated (s : Sys) (member : Member) (x : Handle) (s' : Sys) : Prop :=
  if x.closed then
    s'.family.members = s.family.members ++ [member] ∧ s'.family.handles = s.family.handles ∧
      s'.family.copies = s.family.copies
  else
    s'.family.members = s.family.members ++ [⟨s.family.handles.length, member.pid⟩] ∧
      s'.family.handles = s.family.handles ++ [⟨x.inst, false, true, s.self⟩] ∧
      s'.family.copies =
        Shared.copiesInsert s.family.copies s.family.handles.length s.family.members.length

-- The outcome of close, which needs no fork check: the IO is closed and out
-- of `@copies` whether or not close(2) reports an error.
structure Closed (s : Sys) (member : Member) (x : Handle) (s' : Sys) : Prop where
  members : s'.family.members = s.family.members
  handles : s'.family.handles = s.family.handles.set member.io { x with closed := true }
  copies : s'.family.copies = Shared.copiesDelete s.family.copies member.io
  logged : ∃ calls, s'.kernel.log = s.kernel.log ++ calls ∧ ∀ issued ∈ calls, issued.call = .close

-- Members, handles and `@copies` are untouched.
structure SameFamily (s s' : Sys) : Prop where
  members : s'.family.members = s.family.members
  handles : s'.family.handles = s.family.handles
  copies : s'.family.copies = s.family.copies

namespace Passes

variable {t m : Nat} {member : Member} {x : Handle} {s : Sys} {fail : Err → Sys → Prop}

theorem of_lock (h : Passes s m member x) (mutex : Option Nat) :
    Passes (s.withMutex mutex) m member x :=
  ⟨h.listed, h.handle, h.pass⟩

theorem wp_check (h : Passes s m member x) (retire : Nat → Method Unit) (reinit : Nat → Method Unit)
    (post : Unit → Sys → Prop) :
    wp (exec t) post fail (Shared.check retire reinit m) s ↔ post () s := by
  by_cases hp : member.pid = s.self
  · simp [Shared.check, h.listed, hp]
  · have hc : x.closed = true := h.pass.resolve_left hp
    simp [Shared.check, h.listed, hp, h.handle, hc]

theorem wp_dup (h : Passes s m member x) (hs : s.family.mutex = none)
    (retire : Nat → Method Unit) (reinit : Nat → Method Unit) :
    wp (exec t)
      (fun copy s' => copy = s.family.members.length ∧ Kept s s' ∧ Duplicated s member x s' ∧
        s'.kernel.log = s.kernel.log)
      (fun _ s' => Kept s s' ∧ SameFamily s s' ∧ s'.kernel.log = s.kernel.log)
      (Shared.dup (Shared.check retire reinit) m) s := by
  let s₁ : Sys := { s with family.members := s.family.members ++ [member] }
  have hcopy : Passes (s₁.withMutex (some t)) s.family.members.length member x :=
    ⟨List.getElem?_concat_length, h.handle, h.pass⟩
  have hdrop : s₁.family.members.dropLast = s.family.members := List.dropLast_concat
  simp only [Shared.dup, wp_monad_bind, wp_allocate, wp_rescue, Shared.initializeCopy, wp_synchronize,
    wp_discard, wp_raise, wp_monad_pure]
  refine ⟨member, h.listed, hs, ?_⟩
  rw [hcopy.wp_check]
  simp only [wp_getIo, wp_closed]
  refine ⟨member, hcopy.listed, x, hcopy.handle, ?_⟩
  cases hc : x.closed with
  | true =>
      simp only [ite_true, wp_monad_pure, true_and]
      exact ⟨⟨rfl, rfl, rfl, hs.symm, rfl, rfl, rfl⟩, by simp [Duplicated, hc, Sys.withMutex, s₁], rfl⟩
  | false =>
      simp only [Bool.false_eq_true, ite_false, wp_monad_bind, SleepyPenguin.wp_dup, wp_setIo,
        wp_getCopies, wp_setCopies, true_and]
      refine ⟨x, h.handle, ?_⟩
      rcases (s₁.withMutex (some t)).dup_open hc with ⟨errno, _, hdup⟩ | ⟨_, hdup⟩
      · rw [hdup]
        exact ⟨⟨rfl, rfl, rfl, hs.symm, rfl, rfl, rfl⟩, ⟨hdrop, rfl, rfl⟩, rfl⟩
      · rw [hdup]
        refine ⟨member, List.getElem?_concat_length, ⟨rfl, rfl, rfl, hs.symm, rfl, rfl, rfl⟩, ?_, rfl⟩
        simp only [Duplicated, hc, Bool.false_eq_true, ite_false, Sys.withMutex, Sys.setMember]
        refine ⟨?_, rfl, rfl⟩
        simp [s₁]

end Passes

section Close

variable {t m : Nat} {member : Member} {x : Handle} {s : Sys}

theorem wp_sharedClose (hm : s.family.members[m]? = some member)
    (hx : s.family.handles[member.io]? = some x) (hs : s.family.mutex = none) :
    wp (exec t) (fun _ s' => Kept s s' ∧ Closed s member x s')
      (fun _ s' => Kept s s' ∧ Closed s member x s') (Shared.close m) s := by
  let s₁ : Sys := { s.withMutex (some t) with
    family.copies := Shared.copiesDelete s.family.copies member.io }
  obtain ⟨outcome, calls, closes, hclose, hcalls, _⟩ := Sys.close_cases (s := s₁) (h := member.io) hx
  have hlog : ∀ issued ∈ calls, issued.call = .close := by
    intro issued hissued
    rw [(hcalls issued hissued).2]
  simp only [Shared.close, wp_synchronize, wp_monad_bind, wp_getIo, wp_getCopies, wp_setCopies,
    wp_close]
  refine ⟨hs, member, hm, x, hx, ?_⟩
  change Ends _ _ (s₁.close member.io x)
  rw [hclose]
  cases outcome with
  | error e => exact ⟨⟨rfl, rfl, rfl, hs.symm, rfl, rfl, rfl⟩, rfl, rfl, rfl, calls, rfl, hlog⟩
  | ok _ => exact ⟨⟨rfl, rfl, rfl, hs.symm, rfl, rfl, rfl⟩, rfl, rfl, rfl, calls, rfl, hlog⟩

theorem wp_closedP (hm : s.family.members[m]? = some member)
    (hx : s.family.handles[member.io]? = some x) (hs : s.family.mutex = none)
    {fail : Err → Sys → Prop} :
    wp (exec t) (fun closed s' => closed = x.closed ∧ s' = s) fail (Shared.closedP m) s := by
  simp only [Shared.closedP, wp_synchronize, wp_monad_bind, wp_getIo, wp_closed]
  refine ⟨hs, member, hm, x, hx, rfl, ?_⟩
  simp [Sys.withMutex, ← hs]

end Close

-- Member `m` has the IO `x`, which is still open.
def OpenAs (s : Sys) (m : Nat) (member : Member) (x : Handle) : Prop :=
  s.family.members[m]? = some member ∧ s.family.handles[member.io]? = some x ∧ x.closed = false

def OpenAt (s : Sys) (m : Nat) : Prop := ∃ member x, OpenAs s m member x

def isOpen (s : Sys) (m : Nat) : Bool :=
  match s.family.members[m]? with
  | some member =>
      match s.family.handles[member.io]? with
      | some x => !x.closed
      | none => false
  | none => false

theorem isOpen_iff (s : Sys) (m : Nat) : isOpen s m = true ↔ OpenAt s m := by
  unfold isOpen OpenAt OpenAs
  cases hm : s.family.members[m]? with
  | none => simp
  | some member => cases hx : s.family.handles[member.io]? <;> simp [hx]

instance (s : Sys) (m : Nat) : Decidable (OpenAt s m) :=
  decidable_of_iff _ (isOpen_iff s m)

theorem OpenAs.unique {s : Sys} {m : Nat} {member member' : Member} {x x' : Handle}
    (h : OpenAs s m member x) (h' : OpenAs s m member' x') : member = member' ∧ x = x' := by
  obtain rfl := Option.some.inj (h.1.symm.trans h'.1)
  exact ⟨rfl, Option.some.inj (h.2.1.symm.trans h'.2.1)⟩

-- The keys of `@copies` are open IOs.
def KeysOpen (copies : List (Nat × Nat)) (handles : List Handle) : Prop :=
  ∀ pair ∈ copies, ∃ x, handles[pair.1]? = some x ∧ x.closed = false

theorem KeysOpen.insert_new {copies : List (Nat × Nat)} {handles : List Handle} {x : Handle}
    (h : KeysOpen copies handles) (hc : x.closed = false) (obj : Nat) :
    KeysOpen (Shared.copiesInsert copies handles.length obj) (handles ++ [x]) := by
  intro pair hpair
  rcases Shared.key_of_mem_copiesInsert hpair with hold | hnew
  · obtain ⟨y, hy, hyc⟩ := h pair hold
    exact ⟨y, List.getElem?_concat_of_some hy, hyc⟩
  · rw [hnew]
    exact ⟨x, List.getElem?_concat_length, hc⟩

-- The references of a family lead somewhere, and no two members share an
-- open IO.
structure Wired (s : Sys) : Prop where
  idle : s.family.mutex = none
  handle : ∀ x ∈ s.family.handles, x.inst < s.kernel.insts.length
  member : ∀ member ∈ s.family.members, member.io < s.family.handles.length
  key : KeysOpen s.family.copies s.family.handles
  apart : ∀ (m m' : Nat) (member member' : Member) (x : Handle), OpenAs s m member x →
    s.family.members[m']? = some member' → member.io = member'.io → m = m'

-- `s'` has the members and the IOs of `s`.
structure SameMembers (s s' : Sys) : Prop where
  self : s'.self = s.self
  members : s'.family.members = s.family.members
  handles : s'.family.handles = s.family.handles
  copies : s'.family.copies = s.family.copies
  mutex : s'.family.mutex = s.family.mutex
  insts : s'.kernel.insts.length = s.kernel.insts.length

theorem SameMembers.openAs {s s' : Sys} (h : SameMembers s s') (m : Nat) (member : Member) (x : Handle) :
    OpenAs s' m member x ↔ OpenAs s m member x := by
  unfold OpenAs
  rw [h.members, h.handles]

theorem SameMembers.wired {s s' : Sys} (h : SameMembers s s') (hs : Wired s) : Wired s' := by
  refine ⟨h.mutex.trans hs.idle, ?_, ?_, ?_, ?_⟩
  · rw [h.handles, h.insts]
    exact hs.handle
  · rw [h.members, h.handles]
    exact hs.member
  · rw [h.copies, h.handles]
    exact hs.key
  · simp only [h.openAs, h.members]
    exact hs.apart

namespace Wired

variable {m : Nat} {member : Member} {x : Handle} {s s' : Sys}

theorem of_oracle (h : Wired s) (oracle : Oracle) : Wired { s with oracle := oracle } :=
  ⟨h.idle, h.handle, h.member, h.key, h.apart⟩

theorem handle_of_member (h : Wired s) (hm : m < s.family.members.length) :
    ∃ member x, s.family.members[m]? = some member ∧ s.family.handles[member.io]? = some x ∧
      x.inst < s.kernel.insts.length := by
  have hget := List.getElem?_eq_getElem hm
  have hio := h.member _ (List.getElem_mem hm)
  exact ⟨_, _, hget, List.getElem?_eq_getElem hio, h.handle _ (List.getElem_mem hio)⟩

-- The copy of a closed object opens nothing.
theorem copied_back (hx : s.family.handles[member.io]? = some x) (hc : x.closed = true)
    (hd : Duplicated s member x s') {k : Nat} {new : Member} {y : Handle} (ho : OpenAs s' k new y) :
    OpenAs s k new y := by
  rw [Duplicated, if_pos hc] at hd
  obtain ⟨hm, hh, _⟩ := hd
  obtain ⟨hn, hy, hyc⟩ := ho
  rw [hm] at hn
  rw [hh] at hy
  rcases List.getElem?_concat_cases hn with hn | ⟨_, rfl⟩
  · exact ⟨hn, hy, hyc⟩
  · rw [hx] at hy
    cases hy
    rw [hc] at hyc
    cases hyc

-- The copy of an open one is the only newcomer.
theorem duplicated_back (h : Wired s) (hc : x.closed = false) (hd : Duplicated s member x s') {k : Nat}
    {new : Member} {y : Handle} (ho : OpenAs s' k new y) :
    OpenAs s k new y ∨ k = s.family.members.length ∧ new = ⟨s.family.handles.length, member.pid⟩ ∧
      y = ⟨x.inst, false, true, s.self⟩ := by
  rw [Duplicated, hc] at hd
  obtain ⟨hm, hh, _⟩ := hd
  obtain ⟨hn, hy, hyc⟩ := ho
  rw [hm] at hn
  rw [hh] at hy
  rcases List.getElem?_concat_cases hn with hn | ⟨rfl, rfl⟩
  · have hio := h.member new (List.mem_of_getElem? hn)
    rw [List.getElem?_append_left hio] at hy
    exact Or.inl ⟨hn, hy, hyc⟩
  · rw [List.getElem?_concat_length] at hy
    exact Or.inr ⟨rfl, rfl, (Option.some.inj hy).symm⟩

theorem duplicated_keeps (hd : Duplicated s member x s') {k : Nat} {old : Member} {y : Handle}
    (ho : OpenAs s k old y) : OpenAs s' k old y := by
  obtain ⟨hn, hy, hyc⟩ := ho
  unfold Duplicated at hd
  split at hd
  · obtain ⟨hm, hh, _⟩ := hd
    exact ⟨hm ▸ List.getElem?_concat_of_some hn, hh ▸ hy, hyc⟩
  · obtain ⟨hm, hh, _⟩ := hd
    exact ⟨hm ▸ List.getElem?_concat_of_some hn, hh ▸ List.getElem?_concat_of_some hy, hyc⟩

theorem wired_of_copied (h : Wired s) (hx : s.family.handles[member.io]? = some x) (hc : x.closed = true)
    (hk : Kept s s') (hd : Duplicated s member x s') : Wired s' := by
  have hback : ∀ {k new y}, OpenAs s' k new y → OpenAs s k new y := copied_back hx hc hd
  rw [Duplicated, if_pos hc] at hd
  obtain ⟨hm, hh, hcopies⟩ := hd
  refine ⟨hk.mutex.trans h.idle, hh ▸ hk.insts ▸ h.handle, ?_, hcopies ▸ hh ▸ h.key, ?_⟩
  · rw [hm, hh]
    exact List.forall_mem_concat h.member (List.getElem?_eq_some_iff.mp hx).1
  · intro k k' old old' y ho hold' heq
    have hopen := hback ho
    rw [hm] at hold'
    rcases List.getElem?_concat_cases hold' with hold' | ⟨_, rfl⟩
    · exact h.apart k k' old old' y hopen hold' heq
    · have hy := hopen.2.1
      rw [heq, hx] at hy
      cases hy
      have hyc := hopen.2.2
      rw [hc] at hyc
      cases hyc

theorem wired_of_duplicated (h : Wired s) (hx : s.family.handles[member.io]? = some x)
    (hc : x.closed = false) (hk : Kept s s') (hd : Duplicated s member x s') : Wired s' := by
  have hback : ∀ {k new y}, OpenAs s' k new y → OpenAs s k new y ∨ k = s.family.members.length ∧
      new = ⟨s.family.handles.length, member.pid⟩ ∧ y = ⟨x.inst, false, true, s.self⟩ :=
    h.duplicated_back hc hd
  rw [Duplicated, hc] at hd
  obtain ⟨hm, hh, hcopies⟩ := hd
  have hsize : s'.family.handles.length = s.family.handles.length + 1 := by
    rw [hh, List.length_append, List.length_singleton]
  have hold : ∀ (k : Nat) (old : Member), s.family.members[k]? = some old →
      old.io < s.family.handles.length := fun k old hk =>
    h.member old (List.mem_of_getElem? hk)
  refine ⟨hk.mutex.trans h.idle, ?_, ?_, ?_, ?_⟩
  · rw [hh, hk.insts]
    exact List.forall_mem_concat h.handle (h.handle x (List.mem_of_getElem? hx))
  · rw [hm, hsize]
    apply List.forall_mem_concat
    · intro old ho
      exact Nat.lt_succ_of_lt (h.member old ho)
    · exact Nat.lt_succ_self _
  · rw [hcopies, hh]
    exact h.key.insert_new rfl _
  · intro k k' old old' y ho hold' heq
    rw [hm] at hold'
    rcases hback ho with ho | ⟨rfl, rfl, rfl⟩
    · rcases List.getElem?_concat_cases hold' with hold' | ⟨_, rfl⟩
      · exact h.apart k k' old old' y ho hold' heq
      · have := hold k old ho.1
        simp only at heq
        omega
    · rcases List.getElem?_concat_cases hold' with hold' | ⟨rfl, rfl⟩
      · have := hold k' old' hold'
        simp only at heq
        omega
      · rfl

-- What dup and clone leave open: what was open, and the copy of an open
-- object on the same instance.
theorem of_duplicated (h : Wired s) (hp : Passes s m member x) (hk : Kept s s')
    (hd : Duplicated s member x s') :
    Wired s' ∧ (∀ k old y, OpenAs s k old y → OpenAs s' k old y) ∧
      ∀ k new y, OpenAs s' k new y → OpenAs s k new y ∨
        OpenAs s m member x ∧ new.pid = member.pid ∧ y.inst = x.inst := by
  cases hc : x.closed with
  | true =>
      refine ⟨h.wired_of_copied hp.handle hc hk hd, fun _ _ _ => duplicated_keeps hd, ?_⟩
      exact fun k new y ho => Or.inl (copied_back hp.handle hc hd ho)
  | false =>
      refine ⟨h.wired_of_duplicated hp.handle hc hk hd, fun _ _ _ => duplicated_keeps hd, ?_⟩
      intro k new y ho
      rcases h.duplicated_back hc hd ho with ho | ⟨_, rfl, rfl⟩
      · exact Or.inl ho
      · exact Or.inr ⟨⟨hp.listed, hp.handle, hc⟩, rfl, rfl⟩

-- close takes away its own member and no other.
theorem of_closed (h : Wired s) (hm : s.family.members[m]? = some member)
    (hx : s.family.handles[member.io]? = some x) (hk : Kept s s') (hc : Closed s member x s') :
    Wired s' ∧ ¬OpenAt s' m ∧ (∀ k old y, OpenAs s' k old y → OpenAs s k old y) ∧
      ∀ k old y, OpenAs s k old y → k ≠ m → OpenAs s' k old y := by
  have hlen : s'.kernel.insts.length = s.kernel.insts.length := by rw [hk.insts]
  have hsize : s'.family.handles.length = s.family.handles.length := by
    rw [hc.handles, List.length_set]
  have hget : ∀ n, s'.family.handles[n]? =
      if n = member.io then some { x with closed := true } else s.family.handles[n]? := by
    intro n
    have hlt := (List.getElem?_eq_some_iff.mp hx).1
    rw [hc.handles, List.getElem?_set]
    simp only [hlt, ite_true, eq_comm]
  have hback : ∀ k old y, OpenAs s' k old y → OpenAs s k old y ∧ old.io ≠ member.io := by
    intro k old y ⟨hn, hy, hyc⟩
    rw [hc.members] at hn
    rw [hget] at hy
    split at hy
    · cases hy
      cases hyc
    · rename_i hne
      exact ⟨⟨hn, hy, hyc⟩, hne⟩
  refine ⟨⟨hk.mutex.trans h.idle, ?_, ?_, ?_, ?_⟩, ?_, fun k old y ho => (hback k old y ho).1, ?_⟩
  · intro y hy
    rw [hlen]
    rcases List.mem_or_eq_of_mem_set (hc.handles ▸ hy) with hy | rfl
    · exact h.handle y hy
    · exact h.handle x (List.mem_of_getElem? hx)
  · rw [hc.members, hsize]
    exact h.member
  · intro pair hpair
    rw [hc.copies] at hpair
    obtain ⟨hold, hne⟩ := List.mem_filter.mp hpair
    obtain ⟨y, hy, hyc⟩ := h.key pair hold
    refine ⟨y, ?_, hyc⟩
    rw [hget, if_neg (by simpa using hne)]
    exact hy
  · intro k k' old old' y ho hold' heq
    rw [hc.members] at hold'
    exact h.apart k k' old old' y (hback k old y ho).1 hold' heq
  · rintro ⟨old, y, ho⟩
    obtain ⟨hopen, hne⟩ := hback m old y ho
    have hold := Option.some.inj (hopen.1.symm.trans hm)
    exact hne (congrArg Member.io hold)
  · intro k old y ho hne
    refine ⟨hc.members ▸ ho.1, ?_, ho.2.2⟩
    rw [hget, if_neg]
    · exact ho.2.1
    · intro heq
      exact hne (h.apart k m old member y ho hm heq)

end Wired

-- What a call on `m` does to the members. Those that were open still are, but
-- for `m` when it is closed, and every open one comes from one that was.
structure Moved (closing : Prop) (m : Nat) (s s' : Sys) : Prop where
  self : s'.self = s.self
  wired : Wired s'
  kept : ∀ k old y, OpenAs s k old y → (closing → k ≠ m) → OpenAs s' k old y
  origin : ∀ k new y, OpenAs s' k new y →
    ∃ k' old y', OpenAs s k' old y' ∧ new.pid = old.pid ∧ y.inst = y'.inst

theorem Moved.of_same {closing : Prop} {m : Nat} {s s' : Sys} (h : SameMembers s s') (hs : Wired s) :
    Moved closing m s s' :=
  ⟨h.self, h.wired hs, fun k old y ho _ => (h.openAs k old y).mpr ho,
    fun k new y ho => ⟨k, new, y, (h.openAs k new y).mp ho, rfl, rfl⟩⟩

theorem Moved.of_duplicated {closing : Prop} {m : Nat} {member : Member} {x : Handle} {s s' : Sys}
    (hs : Wired s) (hp : Passes s m member x) (hk : Kept s s') (hd : Duplicated s member x s') :
    Moved closing m s s' := by
  obtain ⟨hw, hkept, horigin⟩ := hs.of_duplicated hp hk hd
  refine ⟨hk.self, hw, fun k old y ho _ => hkept k old y ho, fun k new y ho => ?_⟩
  rcases horigin k new y ho with ho | ⟨ho, hpid, hinst⟩
  · exact ⟨k, new, y, ho, rfl, rfl⟩
  · exact ⟨m, member, x, ho, hpid, hinst⟩

theorem Moved.of_sameFamily {closing : Prop} {m : Nat} {s s' : Sys} (hs : Wired s) (hk : Kept s s')
    (hf : SameFamily s s') : Moved closing m s s' := by
  have hm : SameMembers s s' :=
    ⟨hk.self, hf.members, hf.handles, hf.copies, hk.mutex, by rw [hk.insts]⟩
  exact Moved.of_same hm hs

theorem Moved.of_closed {closing : Prop} {m : Nat} {member : Member} {x : Handle} {s s' : Sys}
    (hs : Wired s) (hc : closing) (hm : s.family.members[m]? = some member)
    (hx : s.family.handles[member.io]? = some x) (hk : Kept s s') (h : Closed s member x s') :
    Moved closing m s s' := by
  obtain ⟨hw, _, hback, hkept⟩ := hs.of_closed hm hx hk h
  exact ⟨hk.self, hw, fun k old y ho hne => hkept k old y ho (hne hc),
    fun k new y ho => ⟨k, new, y, hback k new y ho, rfl, rfl⟩⟩

-- Which process created each instance.
def creators (s : Sys) : List Pid := s.kernel.insts.map (·.creator)

theorem creators_modify (insts : List Inst) (i : Nat) {f : Inst → Inst}
    (hf : ∀ inst, (f inst).creator = inst.creator) :
    (insts.modify i f).map (·.creator) = insts.map (·.creator) := by
  apply List.ext_getElem?
  intro n
  simp only [List.getElem?_map, List.getElem?_modify]
  cases insts[n]? with
  | none => rfl
  | some inst =>
      simp only [Option.map_eq_map, Option.map_some]
      split
      · rw [hf]
      · rfl

theorem creators_setInterest (s : Sys) (i : Nat) (interest : Interest) :
    creators (s.setInterest i interest) = creators s :=
  creators_modify s.kernel.insts i fun _ => rfl

theorem creators_congr {s s' : Sys} (h : s'.kernel.insts = s.kernel.insts) :
    creators s' = creators s := by
  simp only [creators, h]

-- Every open member belongs to this process and works on the instance `i`.
structure Settled (s : Sys) (i : Nat) : Prop extends Wired s where
  made : i < s.kernel.insts.length
  shared : ∀ m member x, OpenAs s m member x → member.pid = s.self ∧ x.inst = i

theorem Settled.of_same {s s' : Sys} {i : Nat} (hs : Settled s i) (h : SameMembers s s') :
    Settled s' i :=
  ⟨h.wired hs.toWired, h.insts ▸ hs.made,
    fun m member x ho => h.self ▸ hs.shared m member x ((h.openAs m member x).mp ho)⟩

theorem Settled.of_moved {closing : Prop} {m i : Nat} {s s' : Sys} (h : Settled s i)
    (hm : Moved closing m s s') (hc : creators s' = creators s) :
    Settled s' i := by
  have hlen : s'.kernel.insts.length = s.kernel.insts.length := by
    simpa only [creators, List.length_map] using congrArg List.length hc
  refine ⟨hm.wired, hlen ▸ h.made, fun k new y ho => ?_⟩
  obtain ⟨k', old, y', hold, hpid, hinst⟩ := hm.origin k new y ho
  obtain ⟨hself, hi⟩ := h.shared k' old y' hold
  exact ⟨hm.self ▸ hpid.trans hself, hinst.trans hi⟩

theorem Settled.current {m i : Nat} {s : Sys} (h : Settled s i) (hm : m < s.family.members.length) :
    ∃ member x inst, Passes s m member x ∧ s.kernel.insts[x.inst]? = some inst ∧
      (x.closed = false → x.inst = i) := by
  obtain ⟨member, x, hget, hx, hlt⟩ := h.handle_of_member hm
  have hshared : x.closed = false → member.pid = s.self ∧ x.inst = i :=
    fun hc => h.shared m member x ⟨hget, hx, hc⟩
  refine ⟨member, x, _, ⟨hget, hx, ?_⟩, List.getElem?_eq_getElem hlt, fun hc => (hshared hc).2⟩
  cases hc : x.closed with
  | true => exact Or.inr rfl
  | false => exact Or.inl (hshared hc).1

-- A family of one that process `pid` has just made with new.
def opened (pid : Pid) (objects : Objects) : Sys where
  self := pid
  family := ⟨[⟨0, pid⟩], [⟨0, false, true, pid⟩], [(0, 0)], Slots.empty, Slots.empty, none⟩
  kernel := ⟨[⟨pid, Interest.empty, []⟩], []⟩
  objects := objects
  oracle := {}
  frames := fun _ => Frame.empty

-- The object before `initialize` has run.
def allocated (pid : Pid) (objects : Objects) : Sys where
  self := pid
  family := ⟨[⟨0, pid⟩], [], [], Slots.empty, Slots.empty, none⟩
  kernel := ⟨[], []⟩
  objects := objects
  oracle := {}
  frames := fun _ => Frame.empty

theorem opened_settled (pid : Pid) (objects : Objects) : Settled (opened pid objects) 0 := by
  have honly : ∀ (m : Nat) (member : Member), (opened pid objects).family.members[m]? = some member →
      m = 0 ∧ member = ⟨0, pid⟩ := by
    intro m member hm
    cases m with
    | zero => exact ⟨rfl, (Option.some.inj hm).symm⟩
    | succ m => cases hm
  refine ⟨⟨rfl, ?_, ?_, ?_, ?_⟩, Nat.zero_lt_one, ?_⟩
  · simp [opened]
  · simp [opened]
  · simp [opened, KeysOpen]
  · intro m m' member member' x hm hm' _
    rw [(honly m member hm.1).1, (honly m' member' hm').1]
  · intro m member x ⟨hm, hx, _⟩
    obtain ⟨rfl, rfl⟩ := honly m member hm
    cases hx
    exact ⟨rfl, rfl⟩

end SleepyPenguin
