import SleepyPenguin.Runtime.Family

-- What the fork check does where it re-initialises and gets its new instance.
namespace SleepyPenguin

open Foundation Foundation.Prog

-- The old keys have been dealt with: their IOs may be closed now.
structure Retired (s s' : Sys) : Prop where
  self : s'.self = s.self
  members : s'.family.members = s.family.members
  copies : s'.family.copies = s.family.copies
  mutex : s'.family.mutex = s.family.mutex
  objects : s'.objects = s.objects
  insts : s'.kernel.insts = s.kernel.insts
  answers : s'.oracle.answers = s.oracle.answers
  creates : s'.oracle.creates = s.oracle.creates
  closes : (∀ o ∈ s.oracle.closes, o = none) → ∀ o ∈ s'.oracle.closes, o = none
  length : s'.family.handles.length = s.family.handles.length
  handles : ∀ (n : Nat) (y' : Handle), s'.family.handles[n]? = some y' →
    ∃ y : Handle, s.family.handles[n]? = some y ∧ y'.inst = y.inst ∧
      (y.closed = true → y'.closed = true)

namespace Retired

variable {s s' s'' : Sys}

theorem refl (s : Sys) : Retired s s :=
  ⟨rfl, rfl, rfl, rfl, rfl, rfl, rfl, rfl, id, rfl, fun _ y h => ⟨y, h, rfl, id⟩⟩

theorem trans (h : Retired s s') (h' : Retired s' s'') : Retired s s'' := by
  refine ⟨h'.self.trans h.self, h'.members.trans h.members, h'.copies.trans h.copies,
    h'.mutex.trans h.mutex, h'.objects.trans h.objects, h'.insts.trans h.insts,
    h'.answers.trans h.answers, h'.creates.trans h.creates, fun hall => h'.closes (h.closes hall),
      h'.length.trans h.length, fun n y'' hy'' => ?_⟩
  obtain ⟨y', hy', hi', hc'⟩ := h'.handles n y'' hy''
  obtain ⟨y, hy, hi, hc⟩ := h.handles n y' hy'
  exact ⟨y, hy, hi'.trans hi, fun hcl => hc' (hc hcl)⟩

-- One handle replaced by another on the same instance.
theorem handles_set {handles : List Handle} {io n : Nat} {x y' : Handle} (x' : Handle)
    (hx : handles[io]? = some x) (hi : x'.inst = x.inst) (hc : x.closed = true → x'.closed = true)
    (hy' : (handles.set io x')[n]? = some y') :
    ∃ y, handles[n]? = some y ∧ y'.inst = y.inst ∧ (y.closed = true → y'.closed = true) := by
  rw [List.getElem?_set] at hy'
  split at hy'
  · rename_i heq
    split at hy'
    · cases hy'
      exact ⟨x, heq ▸ hx, hi, hc⟩
    · cases hy'
  · exact ⟨y', hy', rfl, id⟩

theorem close {io : Nat} {x : Handle} (hall : ∀ o ∈ s.oracle.closes, o = none)
    (hx : s.family.handles[io]? = some x) :
    ∃ s', s.close io x = (.ok (), s') ∧ Retired s s' := by
  obtain ⟨outcome, calls, closes, hclose, _, hok⟩ := Sys.close_cases hx
  obtain ⟨rfl, hcloses⟩ := hok hall
  exact ⟨_, hclose, rfl, rfl, rfl, rfl, rfl, rfl, rfl, rfl, fun _ => hcloses, List.length_set,
    fun n y' hy' => handles_set { x with closed := true } hx rfl (fun _ => rfl) hy'⟩

theorem autocloseOff {io : Nat} {x : Handle} (hx : s.family.handles[io]? = some x)
    (hc : x.closed = false) : ∃ s', s.autocloseOff io x = (.ok (), s') ∧ Retired s s' ∧
      s'.family.handles = s.family.handles.set io { x with autoclose := false } := by
  have hoff : s.autocloseOff io x = (.ok (), s.setHandle io { x with autoclose := false }) := by
    rw [Sys.autocloseOff, hc]
    rfl
  exact ⟨_, hoff, ⟨rfl, rfl, rfl, rfl, rfl, rfl, rfl, rfl, id, List.length_set, fun _ _ hy' =>
    handles_set { x with autoclose := false } hx rfl id hy'⟩, rfl⟩

end Retired

-- After a re-initialisation by `m`: it alone has a new IO, on an instance this
-- process has just created. Its `@pid` is as before where the duplicates could
-- not be listed.
structure Reinited (s : Sys) (m : Nat) (pid : Pid) (s' : Sys) : Prop where
  self : s'.self = s.self
  members : s'.family.members = s.family.members.set m ⟨s.family.handles.length, pid⟩
  mutex : s'.family.mutex = s.family.mutex
  objects : s'.objects = s.objects
  insts : s'.kernel.insts = s.kernel.insts ++ [⟨s.self, Interest.empty, []⟩]
  answers : s'.oracle.answers = s.oracle.answers
  length : s.family.handles.length < s'.family.handles.length
  old : ∀ (n : Nat) (y' : Handle), n < s.family.handles.length → s'.family.handles[n]? = some y' →
    ∃ y : Handle, s.family.handles[n]? = some y ∧ y'.inst = y.inst ∧
      (y.closed = true → y'.closed = true)
  new : ∀ (n : Nat) (y' : Handle), s.family.handles.length ≤ n → s'.family.handles[n]? = some y' →
    y' = ⟨s.kernel.insts.length, false, true, s.self⟩
  key : KeysOpen s'.family.copies s'.family.handles

-- The loop that lists one duplicate of an IO on `inst` for every object.
structure Listing (inst : Nat) (s s' : Sys) : Prop where
  self : s'.self = s.self
  members : s'.family.members = s.family.members
  marks : s'.family.marks = s.family.marks
  events : s'.family.events = s.family.events
  mutex : s'.family.mutex = s.family.mutex
  objects : s'.objects = s.objects
  insts : s'.kernel.insts = s.kernel.insts
  answers : s'.oracle.answers = s.oracle.answers
  handles : ∃ k, s'.family.handles = s.family.handles ++ List.replicate k ⟨inst, false, true, s.self⟩
  key : KeysOpen s'.family.copies s'.family.handles

section Listing

variable {t m : Nat} {member : Member} {x : Handle} {s : Sys} {fail : Err → Sys → Prop}

theorem wp_listDuplicates (hm : OpenAs s m member x)
    (hkey : KeysOpen s.family.copies s.family.handles) (objects : List Nat) :
    wp (exec t) (fun _ s' => Listing x.inst s s') (fun _ s' => Listing x.inst s s')
      (Shared.listDuplicates m objects) s := by
  unfold Shared.listDuplicates
  apply wp_each
  · exact ⟨rfl, rfl, rfl, rfl, rfl, rfl, rfl, rfl, ⟨0, (List.append_nil _).symm⟩, hkey⟩
  · intro obj _ q hq
    obtain ⟨k, hk⟩ := hq.handles
    have hget : q.family.handles[member.io]? = some x := by
      rw [hk]
      exact (List.getElem?_append_left (List.getElem?_eq_some_iff.mp hm.2.1).1).trans hm.2.1
    simp only [wp_monad_bind, wp_getIo, wp_dup, wp_getCopies, wp_setCopies]
    refine ⟨member, hq.members ▸ hm.1, x, hget, ?_⟩
    rcases q.dup_open hm.2.2 with ⟨errno, _, hdup⟩ | ⟨_, hdup⟩
    · rw [hdup]
      exact ⟨hq.self, hq.members, hq.marks, hq.events, hq.mutex, hq.objects, hq.insts, hq.answers,
        hq.handles, hq.key⟩
    · rw [hdup]
      refine ⟨hq.self, hq.members, hq.marks, hq.events, hq.mutex, hq.objects, hq.insts, hq.answers,
        ⟨k + 1, ?_⟩, hq.key.insert_new rfl obj⟩
      rw [hk, hq.self, List.append_assoc, ← List.replicate_succ']

end Listing

-- The creation of an instance succeeds, at its second try where the first
-- failure allows one.
def Creates (retry : Errno → Bool) (oracle : Oracle) : Prop :=
  ∀ errno, oracle.creates.headD none = some errno →
    retry errno = true ∧ oracle.creates.tail.headD none = none

section Check

variable {t m : Nat} {member : Member} {x : Handle} {s : Sys} {fail : Err → Sys → Prop}
  {retire reinit : Nat → Method Unit}

-- `@io` of `m` is a new IO on an instance just created.
structure Renewed (m : Nat) (member : Member) (s s' : Sys) : Prop where
  self : s'.self = s.self
  members : s'.family.members = s.family.members.set m { member with io := s.family.handles.length }
  handles : s'.family.handles = s.family.handles ++ [⟨s.kernel.insts.length, false, true, s.self⟩]
  copies : s'.family.copies = s.family.copies
  mutex : s'.family.mutex = s.family.mutex
  objects : s'.objects = s.objects
  insts : s'.kernel.insts = s.kernel.insts ++ [⟨s.self, Interest.empty, []⟩]
  answers : s'.oracle.answers = s.oracle.answers

-- The parts of the check together: the old keys, the new instance, the
-- duplicates and `@pid`.
theorem reinited_of_steps {s₁ s₂ s₃ : Sys} (h₁ : Retired s s₁)
    (h₂ : Renewed m member { s₁ with family.copies := [] } s₂)
    (h₃ : Listing s.kernel.insts.length s₂ s₃) (pid : Pid) :
    Reinited s m pid (s₃.setMember m ⟨s.family.handles.length, pid⟩) := by
  obtain ⟨k, hk⟩ := h₃.handles
  have hself : s₂.self = s.self := h₂.self.trans h₁.self
  have hhandles : s₃.family.handles = s₁.family.handles ++
      List.replicate (k + 1) ⟨s.kernel.insts.length, false, true, s.self⟩ := by
    rw [hk, h₂.handles, hself]
    simp only [h₁.insts, h₁.self]
    rw [List.append_assoc, List.singleton_append, ← List.replicate_succ]
  have hsize : s₃.family.handles.length = s.family.handles.length + (k + 1) := by
    rw [hhandles, List.length_append, List.length_replicate, h₁.length]
  refine ⟨h₃.self.trans hself, ?_, h₃.mutex.trans (h₂.mutex.trans h₁.mutex),
    h₃.objects.trans (h₂.objects.trans h₁.objects), ?_, h₃.answers.trans (h₂.answers.trans h₁.answers),
    ?_, ?_, ?_, h₃.key⟩
  · simp only [Sys.setMember, h₃.members, h₂.members, h₁.members, List.set_set]
  · simp only [Sys.setMember, h₃.insts, h₂.insts, h₁.insts, h₁.self]
  · simp only [Sys.setMember]
    omega
  · intro n y' hn hy'
    simp only [Sys.setMember, hhandles] at hy'
    rw [List.getElem?_append_left (by rw [h₁.length]; exact hn)] at hy'
    exact h₁.handles n y' hy'
  · intro n y' hn hy'
    simp only [Sys.setMember, hhandles] at hy'
    rw [List.getElem?_append_right (by rw [h₁.length]; exact hn)] at hy'
    exact List.eq_of_mem_replicate (List.mem_of_getElem? hy')

-- A member that is stored again as it is.
theorem setMember_self {s : Sys} (h : s.family.members[m]? = some member) : s.setMember m member = s := by
  simp only [Sys.setMember, List.set_of_getElem? h]

theorem wp_check_reinit (Tables : Slots Obj → Slots EventArg → Prop)
    (hopen : OpenAs s m member x) (hpid : member.pid ≠ s.self)
    (hretire : wp (exec t) (fun _ q => Retired s q) (fun _ _ => False)
      (each (s.family.copies.map Prod.fst) retire) s)
    (hreinit : ∀ q, q.family.members[m]? = some member → q.oracle.creates = s.oracle.creates →
      wp (exec t) (fun _ q' => Renewed m member q q' ∧ Tables q'.family.marks q'.family.events)
        (fun _ _ => False) (reinit m) q) :
    wp (exec t) (fun _ s' => Reinited s m s.self s' ∧ Tables s'.family.marks s'.family.events)
      (fun _ s' => Reinited s m member.pid s' ∧ Tables s'.family.marks s'.family.events)
      (Shared.check retire reinit m) s := by
  simp only [Shared.check, wp_monad_bind, wp_getPid, wp_self]
  refine ⟨member, hopen.1, ?_⟩
  simp only [if_neg hpid, wp_monad_bind, wp_getIo, wp_closed]
  refine ⟨member, hopen.1, x, hopen.2.1, ?_⟩
  simp only [hopen.2.2, Bool.false_eq_true, ite_false, wp_monad_bind, wp_getCopies, wp_setCopies,
    wp_self, wp_setPid]
  refine wp_mono hretire ?_ (fun _ _ hf => hf.elim)
  intro _ s₁ h₁
  have hlisted : ({ s₁ with family.copies := [] } : Sys).family.members[m]? = some member :=
    h₁.members ▸ hopen.1
  refine wp_mono (hreinit _ hlisted h₁.creates) ?_ (fun _ _ hf => hf.elim)
  intro _ s₂ hs₂
  obtain ⟨h₂, htables⟩ := hs₂
  have hlt : m < s₁.family.members.length := (List.getElem?_eq_some_iff.mp hlisted).1
  have hnew : OpenAs s₂ m { member with io := s₁.family.handles.length }
      ⟨s₁.kernel.insts.length, false, true, s₁.self⟩ := by
    refine ⟨?_, ?_, rfl⟩
    · rw [h₂.members]
      exact List.getElem?_set_self hlt
    · rw [h₂.handles]
      exact List.getElem?_concat_length
  have hkeys : KeysOpen s₂.family.copies s₂.family.handles := by
    intro pair hpair
    simp [h₂.copies] at hpair
  have hlist : ∀ s₃, Listing s₁.kernel.insts.length s₂ s₃ →
      Tables s₃.family.marks s₃.family.events := by
    intro s₃ h₃
    rw [h₃.marks, h₃.events]
    exact htables
  refine wp_mono (wp_listDuplicates hnew hkeys _) ?_ ?_
  · intro _ s₃ h₃
    have hsteps := reinited_of_steps (m := m) h₁ h₂ (h₁.insts ▸ h₃) s.self
    have hself : s₃.self = s.self := h₃.self.trans (h₂.self.trans h₁.self)
    refine ⟨_, h₃.members ▸ hnew.1, ?_, hlist s₃ h₃⟩
    rw [hself]
    exact h₁.length ▸ hsteps
  · intro _ s₃ h₃
    have hsteps := reinited_of_steps (m := m) h₁ h₂ (h₁.insts ▸ h₃) member.pid
    have hstored : s₃.family.members[m]? = some ⟨s.family.handles.length, member.pid⟩ := by
      rw [h₃.members, hnew.1, h₁.length]
    rw [setMember_self hstored] at hsteps
    exact ⟨hsteps, hlist s₃ h₃⟩

end Check

-- When `m` was the only open member, it is now the only open member, and the
-- instance is its own.
theorem Reinited.only {s s' : Sys} {m : Nat} {pid : Pid} (h : Reinited s m pid s') (hs : Wired s)
    (hsole : ∀ k, OpenAt s k → k = m) {k : Nat} {member : Member} {x : Handle}
    (ho : OpenAs s' k member x) :
    k = m ∧ member = ⟨s.family.handles.length, pid⟩ ∧
      x = ⟨s.kernel.insts.length, false, true, s.self⟩ := by
  obtain ⟨hmember, hx, hc⟩ := ho
  rw [h.members, List.getElem?_set] at hmember
  split at hmember
  · rename_i heq
    split at hmember
    · cases hmember
      exact ⟨heq.symm, rfl, h.new _ x (Nat.le_refl _) hx⟩
    · cases hmember
  · rename_i hne
    have hlt := hs.member member (List.mem_of_getElem? hmember)
    obtain ⟨y, hy, _, hclosed⟩ := h.old _ x hlt hx
    have hyc : y.closed = false := by
      cases hyc : y.closed with
      | false => rfl
      | true => rw [hclosed hyc] at hc; cases hc
    exact absurd (hsole k ⟨member, y, hmember, hy, hyc⟩).symm hne

theorem Reinited.wired {s s' : Sys} {m : Nat} {pid : Pid} (h : Reinited s m pid s') (hs : Wired s)
    (hsole : ∀ k, OpenAt s k → k = m) : Wired s' := by
  refine ⟨h.mutex.trans hs.idle, ?_, ?_, h.key, ?_⟩
  · intro y hy
    obtain ⟨n, hn⟩ := List.getElem?_of_mem hy
    have hlen : s'.kernel.insts.length = s.kernel.insts.length + 1 := by
      rw [h.insts, List.length_append, List.length_singleton]
    rcases Nat.lt_or_ge n s.family.handles.length with hlt | hge
    · obtain ⟨z, hz, hi, _⟩ := h.old n y hlt hn
      have := hs.handle z (List.mem_of_getElem? hz)
      omega
    · rw [h.new n y hge hn]
      simp only
      omega
  · intro member hmember
    have := h.length
    rw [h.members] at hmember
    rcases List.mem_or_eq_of_mem_set hmember with hmember | rfl
    · have := hs.member member hmember
      omega
    · exact h.length
  · intro k k' old old' y ho hold' heq
    obtain ⟨rfl, rfl, _⟩ := h.only hs hsole ho
    rw [h.members, List.getElem?_set] at hold'
    split at hold'
    · rename_i hk
      exact hk
    · have := hs.member old' (List.mem_of_getElem? hold')
      simp only at heq
      omega

theorem Reinited.last {s s' : Sys} {m : Nat} {pid : Pid} (h : Reinited s m pid s') :
    s'.kernel.insts[s.kernel.insts.length]? = some ⟨s.self, Interest.empty, []⟩ := by
  rw [h.insts]
  exact List.getElem?_concat_length

theorem Reinited.creator {s s' : Sys} {m : Nat} {pid : Pid} (h : Reinited s m pid s') :
    (creators s')[s.kernel.insts.length]? = some s.self := by
  rw [creators, List.getElem?_map, h.last]
  rfl

theorem Reinited.settled {s s' : Sys} {m : Nat} (h : Reinited s m s.self s') (hs : Wired s)
    (hsole : ∀ k, OpenAt s k → k = m) : Settled s' s.kernel.insts.length := by
  refine ⟨h.wired hs hsole, (List.getElem?_eq_some_iff.mp h.last).1, fun k old y hopen => ?_⟩
  obtain ⟨_, rfl, rfl⟩ := h.only hs hsole hopen
  exact ⟨h.self.symm, rfl⟩

-- The member that re-initialised is open on the new instance.
theorem Reinited.openAs {s s' : Sys} {m : Nat} {pid : Pid} (h : Reinited s m pid s')
    (hm : m < s.family.members.length) :
    OpenAs s' m ⟨s.family.handles.length, pid⟩ ⟨s.kernel.insts.length, false, true, s.self⟩ := by
  have hget := List.getElem?_eq_getElem h.length
  refine ⟨by rw [h.members]; exact List.getElem?_set_self hm, ?_, rfl⟩
  rw [hget, h.new _ _ (Nat.le_refl _) hget]

theorem Reinited.of_lock {s s' : Sys} {m t : Nat} {pid : Pid} (hs : s.family.mutex = none)
    (h : Reinited (s.withMutex (some t)) m pid s') : Reinited s m pid (s'.withMutex none) :=
  ⟨h.self, h.members, hs.symm, h.objects, h.insts, h.answers, h.length, h.old, h.new, h.key⟩

end SleepyPenguin
