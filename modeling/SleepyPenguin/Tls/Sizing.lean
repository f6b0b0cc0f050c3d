import SleepyPenguin.Tls.Callers

-- How large the buffers are that Epoll::IO#epoll_wait and Kqueue::IO#kevent
-- ask for, in the arithmetic of a size_t.
namespace SleepyPenguin.Tls.Sizing

open Foundation Callers

-- The width of a size_t and what the structs take in it.
structure Platform where
  w : Nat
  epoll : Layout
  kqueue : Layout

-- The header and `count` events.
def bytes (layout : Layout) (count : Int) : Nat := layout.head + layout.event * count.toNat

-- The request for the size, where there is one.
def request (w : Nat) (s : Memory) (env : Env) : Except Err Nat → Outcome (Nat × Nat)
  | .ok size => gettlsbuf w s size env
  | .error e => .raised e s

def eptGet (w : Nat) (layout : Layout) (s : Memory) (maxevents : Int) (env : Env) : Outcome (Nat × Nat) :=
  request w s env (eptSize w layout maxevents)

def kptGet (w : Nat) (layout : Layout) (s : Memory) (nchanges nevents : Int) (env : Env) :
    Outcome (Nat × Nat) :=
  request w s env (kptSize w layout nchanges nevents)

-- What one thread does with its buffers. A `take` asks for 128 bytes at first
-- and then for as many as FIONREAD tells.
inductive Call
  | epollWait (maxevents : Int) (env : Env)
  | kevent (nchanges nevents : Int) (env : Env)
  | take (newlen : Option Int) (env : Env)
  | put (p : Nat)
  deriving DecidableEq, Repr

def InInt (n : Int) : Prop := -0x80000000 ≤ n ∧ n < 0x80000000

instance (n : Int) : Decidable (InInt n) := inferInstanceAs (Decidable (_ ∧ _))

-- A request ends with the buffer handed out, an exception or a fault.
def lend (s : Thread) (asked : Nat) : Outcome (Nat × Nat) → Thread
  | .returned (p, left) tls => { s with tls := tls, out := ⟨p, asked, left⟩ :: s.out }
  | .raised _ tls => { s with tls := tls }
  | .fault fault => { s with fault := some fault }

def step (P : Platform) (s : Thread) : Call → Option Thread
  | .epollWait maxevents env =>
      if s.fault ≠ none ∨ ¬InInt maxevents then none
      else some (lend s (bytes P.epoll maxevents) (eptGet P.w P.epoll s.tls maxevents env))
  | .kevent nchanges nevents env =>
      if s.fault ≠ none ∨ ¬InInt nchanges ∨ ¬InInt nevents then none
      else some (lend s (bytes P.kqueue (max nchanges nevents))
        (kptGet P.w P.kqueue s.tls nchanges nevents env))
  | .take newlen env =>
      let size := newlen.getD 128
      if s.fault ≠ none ∨ ¬InInt size ∨ size ≤ 0 then none
      else some (lend s size.toNat (gettlsbuf P.w s.tls size.toNat env))
  | .put p => Tls.step P.w s (.put p)

-- The buffer at `p` has room for `need` bytes behind its header, and its
-- recorded capacity is what was allocated.
def Room (tls : Memory) (p need : Nat) : Prop :=
  ∃ buf, tls.heap.get p = some buf ∧ need + header ≤ buf.bytes ∧ buf.capa + header = buf.bytes

def HasRoom (need : Nat) : Outcome (Nat × Nat) → Prop
  | .returned (p, _) tls => Room tls p need
  | .raised _ _ => True
  | .fault _ => False

-- Whoever gets past ept_get or kpt_get works in a buffer that is large enough.
def Roomy (P : Platform) (s : Thread) : Call → Prop
  | .epollWait maxevents env =>
      HasRoom (bytes P.epoll maxevents) (eptGet P.w P.epoll s.tls maxevents env)
  | .kevent nchanges nevents env =>
      HasRoom (bytes P.kqueue (max nchanges nevents)) (kptGet P.w P.kqueue s.tls nchanges nevents env)
  | .take _ _ | .put _ => True

-- The slot holds nothing, or a live buffer of its own.
def Usable (s : Memory) : Prop := ∀ p ∈ s.slot, ∃ buf ∈ s.heap.get p, buf.bufType ≠ .malloced

-- A request that is not refused: it fits the ready buffer, or a new one can
-- be made and, where it is for the slot, be kept there.
def GrantsFrom (size : Nat) (env : Env) : Option Block → Prop
  | none => ¬Fails size env
  | some ⟨_, _, .inuse⟩ => size < 0xFFFFFFFF ∧ env.memory = true
  | some ⟨_, capa, _⟩ => size ≤ capa ∨ ¬Fails size env

def Grants (s : Memory) (size : Nat) (env : Env) : Prop := GrantsFrom size env (s.slot.bind s.heap.get)

-- The condition: `need` with the allocator's own header does not wrap, unless
-- the request for what it wraps to is refused.
def FlexFits (w : Nat) (layout : Layout) (s : Memory) (count : Int) (env : Env) : Prop :=
  Usable s ∧ (Grants s (bytes layout count % 2 ^ w) env → bytes layout count + header < 2 ^ w)

def Fits (P : Platform) (s : Thread) : Call → Prop
  | .epollWait maxevents env => 0 < maxevents → FlexFits P.w P.epoll s.tls maxevents env
  | .kevent nchanges nevents env =>
      0 ≤ max nchanges nevents → FlexFits P.w P.kqueue s.tls (max nchanges nevents) env
  | .take _ _ | .put _ => True

instance (size : Nat) (env : Env) : (buf : Option Block) → Decidable (GrantsFrom size env buf)
  | none => inferInstanceAs (Decidable (¬(_ ∨ _ ∨ _)))
  | some ⟨_, _, .inuse⟩ => inferInstanceAs (Decidable (_ ∧ _))
  | some ⟨_, _, .ready⟩ => inferInstanceAs (Decidable (_ ∨ ¬(_ ∨ _ ∨ _)))
  | some ⟨_, _, .malloced⟩ => inferInstanceAs (Decidable (_ ∨ ¬(_ ∨ _ ∨ _)))

instance (s : Memory) : Decidable (Usable s) :=
  inferInstanceAs (Decidable (∀ p ∈ s.slot, ∃ buf ∈ s.heap.get p, buf.bufType ≠ .malloced))

instance (s : Memory) (size : Nat) (env : Env) : Decidable (Grants s size env) :=
  inferInstanceAs (Decidable (GrantsFrom size env _))

instance (w : Nat) (layout : Layout) (s : Memory) (count : Int) (env : Env) :
    Decidable (FlexFits w layout s count env) :=
  inferInstanceAs (Decidable (Usable s ∧ (Grants s _ env → _ < _)))

instance (P : Platform) (s : Thread) : (call : Call) → Decidable (Fits P s call)
  | .epollWait _ _ => inferInstanceAs (Decidable (_ → _))
  | .kevent _ _ _ => inferInstanceAs (Decidable (_ → _))
  | .take _ _ => inferInstanceAs (Decidable True)
  | .put _ => inferInstanceAs (Decidable True)

-- Every live buffer is what its capacity says.
def Sized (w : Nat) (heap : Heap Block) : Prop :=
  ∀ p buf, heap.get p = some buf → buf.capa + header = buf.bytes ∧ buf.bytes < 2 ^ w

-- What is live here was there before.
def Within (heap before : Heap Block) : Prop := ∀ p buf, heap.get p = some buf → before.get p = some buf

-- All that a request may do, whatever it finds.
inductive Lends (w : Nat) (s : Memory) (size : Nat) (env : Env) : Outcome (Nat × Nat) → Prop
  | fault {fault : Fault} (hlost : ¬Usable s) : Lends w s size env (.fault fault)
  | raised {e : Err} {s' : Memory} (husable : Usable s) (hrefused : ¬Grants s size env)
      (hheap : Within s'.heap s.heap) : Lends w s size env (.raised e s')
  | reused {p : Nat} {buf : Block} (husable : Usable s) (hgrants : Grants s size env)
      (hbuf : s.heap.get p = some buf) (hcapa : size ≤ buf.capa) :
      Lends w s size env (.returned (p, buf.capa) (s.setType p buf .inuse))
  | made {heap : Heap Block} {slot : Option Nat} {bufType : BufType} (husable : Usable s)
      (hgrants : Grants s size env) (hheap : Within heap s.heap) :
      Lends w s size env (.returned (heap.fresh, size)
        ⟨heap.alloc ⟨(size + header) % 2 ^ w, size, bufType⟩, slot⟩)

theorem Within.refl (heap : Heap Block) : Within heap heap := fun _ _ h => h

theorem within_free (heap : Heap Block) (p : Nat) : Within (heap.free p) heap := by
  intro q buf hq
  rw [Heap.get_free] at hq
  split at hq
  · cases hq
  · exact hq

theorem install_lends {w : Nat} {s before : Memory} {size : Nat} {env : Env} (husable : Usable before)
    (hgrants : Grants before size env ↔ ¬Fails size env) (hheap : Within s.heap before.heap) :
    Lends w before size env (install w s size env) := by
  rcases install_cases w s size env with ⟨e, s', hi, _, hsame, hfails⟩ | ⟨hi, _, hmade⟩
  · rw [hi]
    apply Lends.raised husable
    · intro h
      exact hgrants.mp h hfails
    · intro p buf hp
      exact hheap p buf (hsame p ▸ hp)
  · rw [hi]
    exact .made husable (hgrants.mpr hmade) hheap

section Found

variable {w : Nat} {s : Memory} {size : Nat} {env : Env} {p : Nat} {buf : Block}

theorem usable_slot_iff (hslot : s.slot = some p) :
    Usable s ↔ ∃ buf, s.heap.get p = some buf ∧ buf.bufType ≠ .malloced := by
  constructor
  · intro h
    exact h p hslot
  · intro h q hq
    rw [hslot] at hq
    cases hq
    exact h

theorem grants_inuse (hslot : s.slot = some p) (hbuf : s.heap.get p = some buf)
    (htype : buf.bufType = .inuse) :
    Grants s size env ↔ size < 0xFFFFFFFF ∧ env.memory = true := by
  rw [Grants, hslot, Option.bind_some, hbuf]
  cases buf
  cases htype
  rfl

theorem grants_ready (hslot : s.slot = some p) (hbuf : s.heap.get p = some buf)
    (htype : buf.bufType = .ready) :
    Grants s size env ↔ size ≤ buf.capa ∨ ¬Fails size env := by
  rw [Grants, hslot, Option.bind_some, hbuf]
  cases buf
  cases htype
  rfl

end Found

theorem gettlsbuf_lends (w : Nat) (s : Memory) (size : Nat) (env : Env) :
    Lends w s size env (gettlsbuf w s size env) := by
  unfold gettlsbuf
  cases hslot : s.slot with
  | none =>
      have husable : Usable s := by
        intro p hp
        rw [hslot] at hp
        cases hp
      apply install_lends husable ?_ (Within.refl _)
      simp only [Grants, hslot]
      rfl
  | some p =>
      cases hbuf : s.heap.get p with
      | none =>
          simp only [hbuf]
          apply Lends.fault
          intro husable
          obtain ⟨buf, hsome, _⟩ := (usable_slot_iff hslot).mp husable
          rw [hbuf] at hsome
          cases hsome
      | some buf =>
          cases htype : buf.bufType with
          | malloced =>
              simp only [hbuf, htype]
              apply Lends.fault
              intro husable
              obtain ⟨other, hother, hne⟩ := (usable_slot_iff hslot).mp husable
              rw [hbuf] at hother
              cases hother
              exact hne htype
          | inuse =>
              simp only [hbuf, htype]
              have husable := (usable_slot_iff hslot).mpr ⟨buf, hbuf, by rw [htype]; decide⟩
              have hgrants : Grants s size env ↔ _ := grants_inuse hslot hbuf htype
              rcases allocTlsbuf_cases w s size .malloced env.memory with ⟨ha, hfail⟩ | ⟨ha, hok⟩
              · rw [ha]
                apply Lends.raised husable ?_ (Within.refl _)
                intro h
                obtain ⟨hsize, hmemory⟩ := hgrants.mp h
                rcases hfail with hlarge | hnone
                · omega
                · rw [hmemory] at hnone
                  cases hnone
              · rw [ha]
                exact .made husable (hgrants.mpr hok) (Within.refl _)
          | ready =>
              simp only [hbuf, htype]
              have husable := (usable_slot_iff hslot).mpr ⟨buf, hbuf, by rw [htype]; decide⟩
              have hgrants : Grants s size env ↔ _ := grants_ready hslot hbuf htype
              by_cases hcapa : buf.capa ≥ size
              · rw [if_pos hcapa]
                exact .reused husable (hgrants.mpr (Or.inl hcapa)) hbuf hcapa
              · rw [if_neg hcapa]
                apply install_lends husable ?_ (within_free _ _)
                rw [hgrants]
                exact ⟨fun h => h.resolve_left hcapa, Or.inr⟩

section Request

variable {w : Nat} {s : Memory} {layout : Layout} {count : Int} {env : Env} {size : Nat}

theorem flexSize_eq (w : Nat) (layout : Layout) (count : Int) :
    flexSize w layout count = bytes layout count % 2 ^ w := by
  rw [flexSize, bytes, Nat.add_mod_mod]

theorem eptGet_eq (w : Nat) (layout : Layout) (s : Memory) (maxevents : Int) (env : Env) :
    eptGet w layout s maxevents env =
      if maxevents ≤ 0 then .raised (.sys .EINVAL) s
      else gettlsbuf w s (bytes layout maxevents % 2 ^ w) env := by
  rw [eptGet, eptSize, flexSize_eq]
  split <;> rfl

theorem kptGet_eq (w : Nat) (layout : Layout) (s : Memory) (nchanges nevents : Int) (env : Env) :
    kptGet w layout s nchanges nevents env =
      if max nchanges nevents < 0 then .raised (.sys .EINVAL) s
      else gettlsbuf w s (bytes layout (max nchanges nevents) % 2 ^ w) env := by
  rw [kptGet, kptSize_eq, flexSize_eq]
  split <;> rfl

-- On a heap that is what its capacities say, the room is there just where the
-- sizes do not wrap.
theorem gettlsbuf_room_iff (hsized : Sized w s.heap) :
    HasRoom (bytes layout count) (gettlsbuf w s (bytes layout count % 2 ^ w) env) ↔
      FlexFits w layout s count env := by
  rw [FlexFits]
  have hlends := gettlsbuf_lends w s (bytes layout count % 2 ^ w) env
  generalize gettlsbuf w s (bytes layout count % 2 ^ w) env = outcome at hlends
  cases hlends with
  | fault hlost => exact ⟨False.elim, fun h => hlost h.1⟩
  | raised husable hrefused _ => exact ⟨fun _ => ⟨husable, fun h => absurd h hrefused⟩, fun _ => trivial⟩
  | @reused p buf husable hgrants hbuf hcapa =>
      obtain ⟨hexact, hlt⟩ := hsized p buf hbuf
      have hget := get_setType hbuf .inuse
      constructor
      · intro ⟨block, hblock, hroom, _⟩
        refine ⟨husable, fun _ => ?_⟩
        obtain rfl := Option.some.inj (((hget p).trans (if_pos rfl)).symm.trans hblock)
        exact Nat.lt_of_le_of_lt hroom hlt
      · intro ⟨_, hfits⟩
        have hnowrap : bytes layout count % 2 ^ w = bytes layout count :=
          Nat.mod_eq_of_lt (by have := hfits hgrants; omega)
        refine ⟨_, (hget p).trans (if_pos rfl), ?_, hexact⟩
        show bytes layout count + header ≤ buf.bytes
        omega
  | @made heap slot bufType husable hgrants hheap =>
      have hget := (Heap.get_alloc heap
        ⟨(bytes layout count % 2 ^ w + header) % 2 ^ w, bytes layout count % 2 ^ w, bufType⟩
          heap.fresh).trans
        (if_pos rfl)
      constructor
      · intro ⟨block, hblock, hroom, _⟩
        refine ⟨husable, fun _ => ?_⟩
        obtain rfl := Option.some.inj (hget.symm.trans hblock)
        exact Nat.lt_of_le_of_lt hroom (Nat.mod_lt _ (Nat.two_pow_pos w))
      · intro ⟨_, hfits⟩
        have hlt := hfits hgrants
        have hnowrap : bytes layout count % 2 ^ w = bytes layout count := Nat.mod_eq_of_lt (by omega)
        have hnowrap' : (bytes layout count + header) % 2 ^ w = bytes layout count + header :=
          Nat.mod_eq_of_lt hlt
        refine ⟨_, hget, Nat.le_of_eq ?_, ?_⟩
        · rw [hnowrap, hnowrap']
        · rw [hnowrap, hnowrap']

theorem roomy_iff {P : Platform} {s : Thread} (hsized : Sized P.w s.tls.heap) (call : Call) :
    Roomy P s call ↔ Fits P s call := by
  cases call with
  | epollWait maxevents env =>
      simp only [Roomy, Fits, eptGet_eq]
      by_cases h : maxevents ≤ 0
      · rw [if_pos h]
        exact ⟨fun _ hpos => absurd hpos (Int.not_lt.mpr h), fun _ => trivial⟩
      · rw [if_neg h, gettlsbuf_room_iff hsized]
        exact ⟨fun hfits _ => hfits, fun hfits => hfits (Int.not_le.mp h)⟩
  | kevent nchanges nevents env =>
      simp only [Roomy, Fits, kptGet_eq]
      by_cases h : max nchanges nevents < 0
      · rw [if_pos h]
        exact ⟨fun _ hpos => absurd hpos (Int.not_le.mpr h), fun _ => trivial⟩
      · rw [if_neg h, gettlsbuf_room_iff hsized]
        exact ⟨fun hfits _ => hfits, fun hfits => hfits (Int.not_lt.mp h)⟩
  | take newlen env => exact Iff.rfl
  | put p => exact Iff.rfl

end Request

section Kept

variable {w : Nat} {s : Memory} {size : Nat} {env : Env} {outcome : Outcome (Nat × Nat)}

theorem Sized.within {heap before : Heap Block} (h : Sized w before) (hin : Within heap before) :
    Sized w heap := fun p buf hp => h p buf (hin p buf hp)

theorem Sized.setType {p : Nat} {buf : Block} (h : Sized w s.heap) (hbuf : s.heap.get p = some buf)
    (bufType : BufType) : Sized w (s.setType p buf bufType).heap := by
  intro q block hq
  have hget := (get_setType hbuf bufType q).symm.trans hq
  by_cases hqp : q = p
  · rw [if_pos hqp] at hget
    cases hget
    exact h p buf hbuf
  · rw [if_neg hqp] at hget
    exact h q block hget

theorem Sized.alloc {heap : Heap Block} {bufType : BufType} (h : Sized w heap)
    (hsize : size + header < 2 ^ w) :
    Sized w (heap.alloc ⟨(size + header) % 2 ^ w, size, bufType⟩) := by
  intro q block hq
  rw [Heap.get_alloc] at hq
  split at hq
  · cases hq
    rw [Nat.mod_eq_of_lt hsize]
    exact ⟨rfl, hsize⟩
  · exact h q block hq

theorem lend_sized {s : Thread} {asked : Nat} (h : Sized w s.tls.heap)
    (hlends : Lends w s.tls size env outcome)
    (hsize : Grants s.tls size env → size + header < 2 ^ w) : Sized w (lend s asked outcome).tls.heap := by
  cases hlends with
  | fault _ => exact h
  | raised _ _ hheap => exact h.within hheap
  | reused _ _ hbuf _ => exact h.setType hbuf _
  | made _ hgrants hheap => exact (h.within hheap).alloc (hsize hgrants)

theorem gettlsbuf_sized {s : Thread} {layout : Layout} {count : Int} {asked : Nat}
    (h : Sized w s.tls.heap) (hfits : FlexFits w layout s.tls count env) :
    Sized w (lend s asked (gettlsbuf w s.tls (bytes layout count % 2 ^ w) env)).tls.heap := by
  apply lend_sized h (gettlsbuf_lends w s.tls _ env)
  intro hgrants
  exact Nat.lt_of_le_of_lt (Nat.add_le_add_right (Nat.mod_le _ _) _) (hfits.2 hgrants)

theorem puttlsbuf_sized (h : Sized w s.heap) (p : Nat) :
    (∃ tls, puttlsbuf s (some p) = .returned () tls ∧ Sized w tls.heap) ∨
      ∃ fault, puttlsbuf s (some p) = .fault fault := by
  simp only [puttlsbuf]
  cases hbuf : s.heap.get p with
  | none => exact Or.inr ⟨_, rfl⟩
  | some buf =>
      cases htype : buf.bufType with
      | inuse =>
          simp only [htype]
          by_cases hslot : s.slot = some p
          · rw [if_pos hslot]
            exact Or.inl ⟨_, rfl, h.setType hbuf _⟩
          · rw [if_neg hslot]
            exact Or.inr ⟨_, rfl⟩
      | ready =>
          simp only [htype]
          exact Or.inr ⟨_, rfl⟩
      | malloced =>
          simp only [htype]
          exact Or.inl ⟨_, rfl, h.within (within_free _ _)⟩

-- A step that fits keeps the heap as its capacities say.
theorem step_sized {P : Platform} {s s' : Thread} {call : Call} (hw : 32 ≤ P.w) (h : Sized P.w s.tls.heap)
    (hfits : Fits P s call) (hs : step P s call = some s') : Sized P.w s'.tls.heap := by
  cases call with
  | epollWait maxevents env =>
      simp only [step] at hs
      split at hs
      · cases hs
      · cases hs
        rw [eptGet_eq]
        by_cases hneg : maxevents ≤ 0
        · rw [if_pos hneg]
          exact h
        · rw [if_neg hneg]
          exact gettlsbuf_sized h (hfits (Int.not_le.mp hneg))
  | kevent nchanges nevents env =>
      simp only [step] at hs
      split at hs
      · cases hs
      · cases hs
        rw [kptGet_eq]
        by_cases hneg : max nchanges nevents < 0
        · rw [if_pos hneg]
          exact h
        · rw [if_neg hneg]
          exact gettlsbuf_sized h (hfits (Int.not_lt.mp hneg))
  | take newlen env =>
      simp only [step] at hs
      split at hs
      · cases hs
      · rename_i hok
        cases hs
        apply lend_sized h (gettlsbuf_lends P.w s.tls _ env)
        intro _
        have hpow : 2 ^ 32 ≤ 2 ^ P.w := Nat.pow_le_pow_right (by decide) hw
        have hint : InInt (newlen.getD 128) := by
          by_contra hno
          exact hok (Or.inr (Or.inl hno))
        have := hint.2
        simp only [header]
        omega
  | put p =>
      simp only [step, Tls.step] at hs
      split at hs
      · cases hs
      · rcases puttlsbuf_sized h p with ⟨tls, hput, hsized⟩ | ⟨fault, hput⟩
        · rw [hput] at hs
          cases hs
          exact hsized
        · rw [hput] at hs
          cases hs
          exact h

end Kept

theorem start_sized (w : Nat) : Sized w Thread.start.tls.heap := by
  intro p buf h
  cases h

-- Over every run of a thread from its start, with any nesting of waits and any
-- failures: each epoll_wait and kevent that gets its buffer has room in it just
-- where its size does not wrap and the slot does not dangle.
theorem rooms_iff (P : Platform) (calls : List Call) (hw : 32 ≤ P.w) :
    Guarded (step P) (Roomy P) Thread.start calls ↔ Guarded (step P) (Fits P) Thread.start calls := by
  constructor
  · apply guarded_of_invariant (fun s => Sized P.w s.tls.heap)
    · intro s call hsized hroomy
      exact (roomy_iff hsized call).mp hroomy
    · intro s call s' hsized hroomy hs
      exact step_sized hw hsized ((roomy_iff hsized call).mp hroomy) hs
    · exact start_sized P.w
  · apply guarded_of_invariant (fun s => Sized P.w s.tls.heap)
    · intro s call hsized hfits
      exact (roomy_iff hsized call).mpr hfits
    · intro s call s' hsized hfits hs
      exact step_sized hw hsized hfits hs
    · exact start_sized P.w

-- With 32 bits: a wait inside the block of another one, a kevent in between
-- and a release of each.
theorem rooms_nested :
    Guarded (step ⟨32, ⟨20, 12⟩, ⟨32, 20⟩⟩) (Roomy ⟨32, ⟨20, 12⟩, ⟨32, 20⟩⟩) Thread.start
      [.epollWait 64 {}, .kevent 2 8 {}, .put 1, .put 0, .epollWait 128 {}] :=
  (rooms_iff ⟨32, ⟨20, 12⟩, ⟨32, 20⟩⟩ [.epollWait 64 {}, .kevent 2 8 {}, .put 1, .put 0, .epollWait 128 {}]
    (by decide)).mpr (by decide)

-- With 32 bits the bytes of 357913940 events and the struct around them come
-- to four more than a size_t holds, and a buffer of twelve bytes is handed out.
theorem rooms_wrapped :
    eptGet 32 ⟨20, 12⟩ Thread.start.tls 357913940 {} =
        .returned (0, 4) ⟨Heap.empty.alloc ⟨12, 4, .inuse⟩, some 0⟩ ∧
      ¬Guarded (step ⟨32, ⟨20, 12⟩, ⟨32, 20⟩⟩) (Roomy ⟨32, ⟨20, 12⟩, ⟨32, 20⟩⟩) Thread.start
        [.epollWait 357913940 {}] := by
  have hget : eptGet 32 ⟨20, 12⟩ Thread.start.tls 357913940 {} =
      .returned (0, 4) ⟨Heap.empty.alloc ⟨12, 4, .inuse⟩, some 0⟩ := by decide
  refine ⟨hget, fun h => ?_⟩
  obtain ⟨hroom, _⟩ := h
  simp only [Roomy, hget] at hroom
  obtain ⟨buf, hbuf, hle, _⟩ := hroom
  cases hbuf
  exact absurd hle (by decide)

-- With 64 bits no int of events wraps.
theorem bytes_lt {layout : Layout} {count : Int} (hhead : layout.head < 2 ^ 32)
    (hevent : layout.event < 2 ^ 32) (hint : InInt count) : bytes layout count + header < 2 ^ 64 := by
  have hcount : count.toNat ≤ 2 ^ 31 := by
    have := hint.2
    omega
  have hproduct : layout.event * count.toNat ≤ 2 ^ 32 * 2 ^ 31 :=
    Nat.mul_le_mul (Nat.le_of_lt hevent) hcount
  simp only [bytes, header]
  omega

def Call.Ints : Call → Prop
  | .epollWait maxevents _ => InInt maxevents
  | .kevent nchanges nevents _ => InInt nchanges ∧ InInt nevents
  | .take _ _ | .put _ => True

theorem fits_of_word64 {P : Platform} {s : Thread} {call : Call} (hw : 64 ≤ P.w)
    (hepoll : P.epoll.head < 2 ^ 32 ∧ P.epoll.event < 2 ^ 32)
    (hkqueue : P.kqueue.head < 2 ^ 32 ∧ P.kqueue.event < 2 ^ 32) (husable : Usable s.tls)
    (hints : call.Ints) :
    Fits P s call := by
  have hpow : 2 ^ 64 ≤ 2 ^ P.w := Nat.pow_le_pow_right (by decide) hw
  cases call with
  | epollWait maxevents env =>
      intro _
      exact ⟨husable, fun _ => Nat.lt_of_lt_of_le (bytes_lt hepoll.1 hepoll.2 hints) hpow⟩
  | kevent nchanges nevents env =>
      intro _
      have hmax : InInt (max nchanges nevents) := by
        obtain ⟨⟨_, _⟩, ⟨_, _⟩⟩ := hints
        constructor <;> omega
      exact ⟨husable, fun _ => Nat.lt_of_lt_of_le (bytes_lt hkqueue.1 hkqueue.2 hmax) hpow⟩
  | take newlen env => trivial
  | put p => trivial

-- So there only a slot that dangles is in the way.
theorem rooms_of_word64 {P : Platform} {calls : List Call} (hw : 64 ≤ P.w)
    (hepoll : P.epoll.head < 2 ^ 32 ∧ P.epoll.event < 2 ^ 32)
    (hkqueue : P.kqueue.head < 2 ^ 32 ∧ P.kqueue.event < 2 ^ 32)
    (h : Guarded (step P) (fun s call => Usable s.tls ∧ call.Ints) Thread.start calls) :
    Guarded (step P) (Roomy P) Thread.start calls := by
  apply (rooms_iff P calls (by omega)).mpr
  apply guarded_of_invariant (fun _ => True) ?_ (fun _ _ _ _ _ _ => trivial) trivial h
  intro s call _ ⟨husable, hints⟩
  exact fits_of_word64 hw hepoll hkqueue husable hints

end SleepyPenguin.Tls.Sizing
