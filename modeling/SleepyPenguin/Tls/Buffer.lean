import SleepyPenguin.Foundation.Heap
import SleepyPenguin.Foundation.Run
import SleepyPenguin.Runtime.Value

-- The buffer that each native thread keeps for its waits.
namespace SleepyPenguin.Tls

open Foundation

-- `enum rb_sp_tls_buf_type`
inductive BufType
  | inuse | ready | malloced
  deriving DecidableEq, Repr

-- `struct rb_sp_tlsbuf`, with the bytes that the allocator gave for it.
structure Block where
  bytes : Nat
  capa : Nat
  bufType : BufType
  deriving DecidableEq, Repr

-- `sizeof(struct rb_sp_tlsbuf)`
def header : Nat := 8

-- The allocations of one thread and what pthread_getspecific answers.
structure Memory where
  heap : Heap Block
  slot : Option Nat
  deriving DecidableEq, Repr

-- A failed assertion, or a buffer that is looked at after it was freed.
inductive Fault
  | assertion | freed
  deriving DecidableEq, Repr

inductive Outcome (α : Type)
  | returned (value : α) (s : Memory)
  | raised (e : Err) (s : Memory)
  | fault (fault : Fault)
  deriving DecidableEq, Repr

-- What posix_memalign and pthread_setspecific answer.
structure Env where
  memory : Bool := true
  setspecific : Option Errno := none
  deriving DecidableEq, Repr

namespace Memory

def free (s : Memory) (p : Nat) : Memory := { s with heap := s.heap.free p }

def setType (s : Memory) (p : Nat) (block : Block) (bufType : BufType) : Memory :=
  { s with heap := s.heap.set p { block with bufType := bufType } }

end Memory

-- A size_t has `w` bits. The type is for the caller to write.
def allocTlsbuf (w : Nat) (s : Memory) (size : Nat) (bufType : BufType) (memory : Bool) :
    Option (Nat × Memory) :=
  let bytes := (size + header) % 2 ^ w
  if size ≥ 0xFFFFFFFF ∨ memory = false then none
  else some (s.heap.fresh, { s with heap := s.heap.alloc ⟨bytes, size % 2 ^ 32, bufType⟩ })

-- The end of gettlsbuf, from `buf = alloc_tlsbuf(*size)` on.
def install (w : Nat) (s : Memory) (size : Nat) (env : Env) : Outcome (Nat × Nat) :=
  match allocTlsbuf w s size .inuse env.memory with
  | none => .raised .noMemoryError s
  | some (p, s) =>
      match env.setspecific with
      | some errno => .raised (.sys errno) (s.free p)
      | none => .returned (p, size) { s with slot := some p }

-- The buffer and what `*size` is left at.
def gettlsbuf (w : Nat) (s : Memory) (size : Nat) (env : Env) : Outcome (Nat × Nat) :=
  match s.slot with
  | none => install w s size env
  | some p =>
      match s.heap.get p with
      | none => .fault .freed
      | some buf =>
          match buf.bufType with
          | .malloced => .fault .assertion
          | .inuse =>
              match allocTlsbuf w s size .malloced env.memory with
              | none => .raised .noMemoryError s
              | some (p, s) => .returned (p, size) s
          | .ready =>
              if buf.capa ≥ size then .returned (p, buf.capa) (s.setType p buf .inuse)
              else install w (s.free p) size env

def puttlsbuf (s : Memory) (p : Option Nat) : Outcome Unit :=
  match p with
  | none => .returned () s
  | some p =>
      match s.heap.get p with
      | none => .fault .freed
      | some buf =>
          match buf.bufType with
          | .inuse => if s.slot = some p then .returned () (s.setType p buf .ready) else .fault .assertion
          | .ready => .fault .assertion
          | .malloced => .returned () (s.free p)

-- A buffer that was handed out: what was asked for and what `*size` said.
structure Lent where
  ptr : Nat
  asked : Nat
  left : Nat
  deriving DecidableEq, Repr

-- The thread, with the buffers that it has not put yet.
structure Thread where
  tls : Memory
  out : List Lent
  fault : Option Fault
  deriving DecidableEq, Repr

def Thread.start : Thread := ⟨⟨Heap.empty, none⟩, [], none⟩

inductive Event
  | get (size : Nat) (env : Env)
  | put (p : Nat)
  deriving DecidableEq, Repr

-- A put is of a buffer that was handed out and not put before.
def step (w : Nat) (s : Thread) : Event → Option Thread
  | .get size env =>
      if s.fault ≠ none then none
      else
        match gettlsbuf w s.tls size env with
        | .returned (p, left) tls => some { s with tls := tls, out := ⟨p, size, left⟩ :: s.out }
        | .raised _ tls => some { s with tls := tls }
        | .fault fault => some { s with fault := some fault }
  | .put p =>
      if s.fault ≠ none ∨ p ∉ s.out.map (·.ptr) then none
      else
        match puttlsbuf s.tls (some p) with
        | .returned _ tls => some { s with tls := tls, out := s.out.filter (·.ptr != p) }
        | .raised _ tls => some { s with tls := tls }
        | .fault fault => some { s with fault := some fault }

def Thread.ptrs (s : Thread) : List Nat := s.out.map (·.ptr)

-- A request that replaces the slot's buffer by a larger one.
def Grows (s : Memory) (size : Nat) : Prop :=
  ∃ p buf, s.slot = some p ∧ s.heap.get p = some buf ∧ buf.bufType = .ready ∧ buf.capa < size

-- Everything that a request for a new buffer in the slot fails for.
def Fails (size : Nat) (env : Env) : Prop :=
  size ≥ 0xFFFFFFFF ∨ env.memory = false ∨ env.setspecific ≠ none

-- The slot's buffer is live and in use by whoever got it or ready, every
-- buffer handed out is live and is the slot's or has been malloced for the
-- purpose, and nothing else is allocated.
structure Wired (s : Thread) : Prop where
  fault : s.fault = none
  distinct : s.ptrs.Nodup
  slot : ∀ p, s.tls.slot = some p → ∃ buf, s.tls.heap.get p = some buf ∧
    (buf.bufType = .ready ∧ p ∉ s.ptrs ∨ buf.bufType = .inuse ∧ p ∈ s.ptrs)
  out : ∀ p ∈ s.ptrs, ∃ buf, s.tls.heap.get p = some buf ∧
    (s.tls.slot = some p ∨ buf.bufType = .malloced)
  owned : ∀ p buf, s.tls.heap.get p = some buf → s.tls.slot = some p ∨ p ∈ s.ptrs

theorem start_wired : Wired Thread.start := by
  refine ⟨rfl, List.nodup_nil, ?_, ?_, ?_⟩
  · intro p h
    cases h
  · intro p h
    cases h
  · intro p buf h
    cases h

-- All that a request does.
inductive Get (w : Nat) (s : Memory) (size : Nat) (env : Env) : Outcome (Nat × Nat) → Prop
  | reused {p : Nat} {buf : Block} (hslot : s.slot = some p) (hbuf : s.heap.get p = some buf)
      (hready : buf.bufType = .ready) (hcapa : size ≤ buf.capa) :
      Get w s size env (.returned (p, buf.capa) (s.setType p buf .inuse))
  | nested {p : Nat} {buf : Block} (hslot : s.slot = some p) (hbuf : s.heap.get p = some buf)
      (hinuse : buf.bufType = .inuse) (hsize : size < 0xFFFFFFFF) :
      Get w s size env (.returned (s.heap.fresh, size)
        { s with heap := s.heap.alloc ⟨(size + header) % 2 ^ w, size, .malloced⟩ })
  | first (hslot : s.slot = none) (hsize : size < 0xFFFFFFFF) :
      Get w s size env (.returned (s.heap.fresh, size)
        ⟨s.heap.alloc ⟨(size + header) % 2 ^ w, size, .inuse⟩, some s.heap.fresh⟩)
  | grown {p : Nat} (hslot : s.slot = some p) (hgrows : Grows s size) (hmade : ¬Fails size env)
      (hsize : size < 0xFFFFFFFF) :
      Get w s size env (.returned ((s.heap.free p).fresh, size)
        ⟨(s.heap.free p).alloc ⟨(size + header) % 2 ^ w, size, .inuse⟩, some (s.heap.free p).fresh⟩)
  | refused {e : Err} {s' : Memory} (hgrows : ¬Grows s size) (hfails : Fails size env)
      (hslot : s'.slot = s.slot) (hheap : ∀ p, s'.heap.get p = s.heap.get p) :
      Get w s size env (.raised e s')
  | lost {p : Nat} {e : Err} {s' : Memory} (hgrows : Grows s size) (hfails : Fails size env)
      (hslot : s.slot = some p) (hslot' : s'.slot = some p) (hgone : s'.heap.get p = none) :
      Get w s size env (.raised e s')

theorem allocTlsbuf_cases (w : Nat) (s : Memory) (size : Nat) (bufType : BufType) (memory : Bool) :
    (allocTlsbuf w s size bufType memory = none ∧ (size ≥ 0xFFFFFFFF ∨ memory = false)) ∨
    (allocTlsbuf w s size bufType memory =
        some (s.heap.fresh, { s with heap := s.heap.alloc ⟨(size + header) % 2 ^ w, size, bufType⟩ }) ∧
      size < 0xFFFFFFFF ∧ memory = true) := by
  simp only [allocTlsbuf]
  split
  · rename_i hfail
    exact Or.inl ⟨rfl, hfail⟩
  · rename_i hok
    have hsize : size < 0xFFFFFFFF := by omega
    have hmemory : memory = true := by
      cases memory with
      | false => exact absurd (Or.inr rfl) hok
      | true => rfl
    have hcapa : size % 2 ^ 32 = size := Nat.mod_eq_of_lt (by omega)
    exact Or.inr ⟨by rw [hcapa], hsize, hmemory⟩

-- A new buffer that is given back at once leaves no trace.
theorem get_free_alloc (h : Heap Block) (buf : Block) (p : Nat) :
    ((h.alloc buf).free h.fresh).get p = h.get p := by
  rw [Heap.get_free, Heap.get_alloc]
  by_cases hp : p = h.fresh
  · rw [if_pos hp, hp, Heap.get_fresh]
  · rw [if_neg hp, if_neg hp]

theorem install_cases (w : Nat) (s : Memory) (size : Nat) (env : Env) :
    (∃ e s', install w s size env = .raised e s' ∧ s'.slot = s.slot ∧
      (∀ p, s'.heap.get p = s.heap.get p) ∧ Fails size env) ∨
    (install w s size env = .returned (s.heap.fresh, size)
        ⟨s.heap.alloc ⟨(size + header) % 2 ^ w, size, .inuse⟩, some s.heap.fresh⟩ ∧
      size < 0xFFFFFFFF ∧ ¬Fails size env) := by
  unfold install Fails
  rcases allocTlsbuf_cases w s size .inuse env.memory with ⟨ha, hfail⟩ | ⟨ha, hsize, hmemory⟩
  · rw [ha]
    exact Or.inl ⟨_, _, rfl, rfl, fun _ => rfl, hfail.imp_right Or.inl⟩
  · rw [ha]
    cases hset : env.setspecific with
    | some errno =>
        exact Or.inl ⟨_, _, rfl, rfl, fun p => get_free_alloc s.heap _ p, Or.inr (Or.inr (by simp))⟩
    | none =>
        refine Or.inr ⟨rfl, hsize, ?_⟩
        rintro (hlarge | hnone | hset')
        · omega
        · rw [hmemory] at hnone
          cases hnone
        · exact hset' rfl

theorem gettlsbuf_cases {s : Thread} (h : Wired s) (w size : Nat) (env : Env) :
    Get w s.tls size env (gettlsbuf w s.tls size env) := by
  unfold gettlsbuf
  cases hslot : s.tls.slot with
  | none =>
      have hgrows : ¬Grows s.tls size := by
        rintro ⟨p, _, hp, _⟩
        rw [hslot] at hp
        cases hp
      rcases install_cases w s.tls size env with ⟨e, s', hi, hs', hheap, hfails⟩ | ⟨hi, hsize, _⟩
      · simp only [hi]
        exact .refused hgrows hfails hs' hheap
      · simp only [hi]
        exact .first hslot hsize
  | some p =>
      obtain ⟨buf, hbuf, htype⟩ := h.slot p hslot
      simp only [hbuf]
      rcases htype with ⟨hready, _⟩ | ⟨hinuse, _⟩
      · simp only [hready]
        split
        · rename_i hcapa
          exact .reused hslot hbuf hready hcapa
        · rename_i hcapa
          have hgrows : Grows s.tls size := ⟨p, buf, hslot, hbuf, hready, by omega⟩
          rcases install_cases w (s.tls.free p) size env with
            ⟨e, s', hi, hs', hheap, hfails⟩ | ⟨hi, hsize, hmade⟩
          · rw [hi]
            refine .lost hgrows hfails hslot (hs'.trans hslot) ?_
            rw [hheap p]
            change (s.tls.heap.free p).get p = none
            rw [Heap.get_free, if_pos rfl]
          · rw [hi]
            exact .grown hslot hgrows hmade hsize
      · have hgrows : ¬Grows s.tls size := by
          rintro ⟨p', buf', hp', hbuf', hready, _⟩
          obtain rfl := Option.some.inj (hslot.symm.trans hp')
          obtain rfl := Option.some.inj (hbuf.symm.trans hbuf')
          rw [hinuse] at hready
          cases hready
        simp only [hinuse]
        rcases allocTlsbuf_cases w s.tls size .malloced env.memory with ⟨ha, hfail⟩ | ⟨ha, hsize, _⟩
        · rw [ha]
          exact .refused hgrows (hfail.imp_right Or.inl) rfl fun _ => rfl
        · rw [ha]
          exact .nested hslot hbuf hinuse hsize

theorem get_setType {s : Memory} {p : Nat} {buf : Block} (hbuf : s.heap.get p = some buf)
    (bufType : BufType) (q : Nat) :
    (s.setType p buf bufType).heap.get q =
      if q = p then some { buf with bufType := bufType } else s.heap.get q :=
  Heap.get_set hbuf _ q

-- All that giving back a buffer does.
inductive Put (s : Memory) (p : Nat) : Outcome Unit → Prop
  | slot {buf : Block} (hslot : s.slot = some p) (hbuf : s.heap.get p = some buf) :
      Put s p (.returned () (s.setType p buf .ready))
  | malloced {buf : Block} (hslot : s.slot ≠ some p) (hbuf : s.heap.get p = some buf) :
      Put s p (.returned () (s.free p))

theorem puttlsbuf_cases {s : Thread} (h : Wired s) {p : Nat} (hp : p ∈ s.ptrs) :
    Put s.tls p (puttlsbuf s.tls (some p)) := by
  obtain ⟨buf, hbuf, hwhere⟩ := h.out p hp
  simp only [puttlsbuf, hbuf]
  by_cases hslot : s.tls.slot = some p
  · have hinuse : buf.bufType = .inuse := by
      obtain ⟨buf', hbuf', htype⟩ := h.slot p hslot
      obtain rfl := Option.some.inj (hbuf.symm.trans hbuf')
      rcases htype with ⟨_, hnot⟩ | ⟨hinuse, _⟩
      · exact absurd hp hnot
      · exact hinuse
    rw [hinuse]
    simp only [hslot, ite_true]
    exact .slot hslot hbuf
  · have hmalloced : buf.bufType = .malloced := hwhere.resolve_left hslot
    rw [hmalloced]
    exact .malloced hslot hbuf

theorem mem_ptrs_put (s : Thread) (p q : Nat) :
    q ∈ (s.out.filter (·.ptr != p)).map (·.ptr) ↔ q ∈ s.ptrs ∧ q ≠ p := by
  simp only [Thread.ptrs, List.mem_map, List.mem_filter, bne_iff_ne, ne_eq]
  constructor
  · rintro ⟨lent, ⟨hlent, hne⟩, rfl⟩
    exact ⟨⟨lent, hlent, rfl⟩, hne⟩
  · rintro ⟨⟨lent, hlent, rfl⟩, hne⟩
    exact ⟨lent, ⟨hlent, hne⟩, rfl⟩

section Step

variable {s : Thread} {w p size : Nat} {env : Env}

-- A new buffer is none of those that are out, live or the slot's.
theorem Wired.fresh_not_out (h : Wired s) : s.tls.heap.fresh ∉ s.ptrs := by
  intro hout
  obtain ⟨buf, hbuf, _⟩ := h.out _ hout
  exact Heap.ne_fresh hbuf rfl

theorem Wired.slot_type (h : Wired s) (hslot : s.tls.slot = some p) {buf : Block}
    (hbuf : s.tls.heap.get p = some buf) :
    buf.bufType = .ready ∧ p ∉ s.ptrs ∨ buf.bufType = .inuse ∧ p ∈ s.ptrs := by
  obtain ⟨buf', hbuf', htype⟩ := h.slot p hslot
  obtain rfl := Option.some.inj (hbuf.symm.trans hbuf')
  exact htype

theorem Wired.reused (h : Wired s) {buf : Block} (hslot : s.tls.slot = some p)
    (hbuf : s.tls.heap.get p = some buf) (hready : buf.bufType = .ready) (left : Nat) :
    Wired ⟨s.tls.setType p buf .inuse, ⟨p, size, left⟩ :: s.out, s.fault⟩ := by
  have hnot : p ∉ s.ptrs := by
    rcases h.slot_type hslot hbuf with ⟨_, hnot⟩ | ⟨hinuse, _⟩
    · exact hnot
    · rw [hready] at hinuse
      cases hinuse
  have hget := get_setType hbuf .inuse
  refine ⟨h.fault, List.nodup_cons.mpr ⟨hnot, h.distinct⟩, fun q hq => ?_, fun q hq => ?_,
    fun q buf' hq => ?_⟩
  · obtain rfl := Option.some.inj (hslot.symm.trans hq)
    exact ⟨_, (hget p).trans (if_pos rfl), Or.inr ⟨rfl, List.mem_cons_self⟩⟩
  · rcases List.mem_cons.mp hq with rfl | hq
    · exact ⟨_, (hget _).trans (if_pos rfl), Or.inl hslot⟩
    · have hne : q ≠ p := fun heq => hnot (heq ▸ hq)
      obtain ⟨buf', hbuf', hwhere⟩ := h.out q hq
      exact ⟨buf', (hget q).trans ((if_neg hne).trans hbuf'), hwhere⟩
  · by_cases heq : q = p
    · exact Or.inl (heq ▸ hslot)
    · have hq' : s.tls.heap.get q = some buf' := by
        rw [← hq]
        exact ((hget q).trans (if_neg heq)).symm
      rcases h.owned q buf' hq' with hs | hs
      · exact Or.inl hs
      · exact Or.inr (List.mem_cons_of_mem _ hs)

theorem Wired.nested (h : Wired s) {buf : Block} (hmalloced : buf.bufType = .malloced) (left : Nat) :
    Wired ⟨{ s.tls with heap := s.tls.heap.alloc buf }, ⟨s.tls.heap.fresh, size, left⟩ :: s.out,
      s.fault⟩ := by
  have hget := Heap.get_alloc s.tls.heap buf
  have hold : ∀ {q buf'}, s.tls.heap.get q = some buf' → (s.tls.heap.alloc buf).get q = some buf' :=
    fun hq => (hget _).trans ((if_neg (Heap.ne_fresh hq)).trans hq)
  refine ⟨h.fault, List.nodup_cons.mpr ⟨h.fresh_not_out, h.distinct⟩, fun q hq => ?_, fun q hq => ?_,
    fun q buf' hq => ?_⟩
  · obtain ⟨buf', hbuf', htype⟩ := h.slot q hq
    refine ⟨buf', hold hbuf', ?_⟩
    rcases htype with ⟨hready, hnot⟩ | ⟨hinuse, hin⟩
    · refine Or.inl ⟨hready, fun hmem => ?_⟩
      rcases List.mem_cons.mp hmem with heq | hmem
      · exact Heap.ne_fresh hbuf' heq
      · exact hnot hmem
    · exact Or.inr ⟨hinuse, List.mem_cons_of_mem _ hin⟩
  · rcases List.mem_cons.mp hq with rfl | hq
    · exact ⟨buf, (hget _).trans (if_pos rfl), Or.inr hmalloced⟩
    · obtain ⟨buf', hbuf', hwhere⟩ := h.out q hq
      exact ⟨buf', hold hbuf', hwhere⟩
  · by_cases heq : q = s.tls.heap.fresh
    · exact Or.inr (heq ▸ List.mem_cons_self)
    · have hq' : s.tls.heap.get q = some buf' := by
        rw [← hq]
        exact ((hget q).trans (if_neg heq)).symm
      rcases h.owned q buf' hq' with hs | hs
      · exact Or.inl hs
      · exact Or.inr (List.mem_cons_of_mem _ hs)

-- A slot that was empty, or whose ready buffer has just been freed.
theorem Wired.installed (h : Wired s) {heap : Heap Block} {buf : Block}
    (hlive : ∀ q ∈ s.ptrs, heap.get q = s.tls.heap.get q)
    (hout : ∀ q ∈ s.ptrs, s.tls.slot ≠ some q)
    (hback : ∀ q buf', heap.get q = some buf' → q ∈ s.ptrs) (hinuse : buf.bufType = .inuse) (left : Nat) :
    Wired ⟨⟨heap.alloc buf, some heap.fresh⟩, ⟨heap.fresh, size, left⟩ :: s.out, s.fault⟩ := by
  have hget := Heap.get_alloc heap buf
  have hkept : ∀ q ∈ s.ptrs, ∃ buf', heap.get q = some buf' ∧ buf'.bufType = .malloced := by
    intro q hq
    obtain ⟨buf', hbuf', hwhere⟩ := h.out q hq
    exact ⟨buf', (hlive q hq).trans hbuf', hwhere.resolve_left (hout q hq)⟩
  have hfresh : heap.fresh ∉ s.ptrs := by
    intro hmem
    obtain ⟨buf', hbuf', _⟩ := hkept _ hmem
    exact Heap.ne_fresh hbuf' rfl
  refine ⟨h.fault, List.nodup_cons.mpr ⟨hfresh, h.distinct⟩, fun q hq => ?_, fun q hq => ?_,
    fun q buf' hq => ?_⟩
  · obtain rfl := Option.some.inj hq
    exact ⟨buf, (hget _).trans (if_pos rfl), Or.inr ⟨hinuse, List.mem_cons_self⟩⟩
  · rcases List.mem_cons.mp hq with rfl | hq
    · exact ⟨buf, (hget _).trans (if_pos rfl), Or.inl rfl⟩
    · obtain ⟨buf', hbuf', hmalloced⟩ := hkept q hq
      exact ⟨buf', (hget q).trans ((if_neg (Heap.ne_fresh hbuf')).trans hbuf'), Or.inr hmalloced⟩
  · by_cases heq : q = heap.fresh
    · exact Or.inl (congrArg some heq.symm)
    · have hq' : heap.get q = some buf' := by
        rw [← hq]
        exact ((hget q).trans (if_neg heq)).symm
      exact Or.inr (List.mem_cons_of_mem _ (hback q buf' hq'))

theorem Wired.of_heap (h : Wired s) {tls : Memory} (hslot : tls.slot = s.tls.slot)
    (hheap : ∀ q, tls.heap.get q = s.tls.heap.get q) : Wired { s with tls := tls } := by
  refine ⟨h.fault, h.distinct, fun q hq => ?_, fun q hq => ?_, fun q buf hq => ?_⟩
  · obtain ⟨buf, hbuf, htype⟩ := h.slot q (hslot.symm.trans hq)
    exact ⟨buf, (hheap q).trans hbuf, htype⟩
  · obtain ⟨buf, hbuf, hwhere⟩ := h.out q hq
    exact ⟨buf, (hheap q).trans hbuf, hwhere.imp_left fun hs => hslot.trans hs⟩
  · exact (h.owned q buf ((hheap q).symm.trans hq)).imp_left fun hs => hslot.trans hs

theorem Wired.put (h : Wired s) {tls : Memory}
    (hput : Put s.tls p (.returned () tls)) :
    Wired ⟨tls, s.out.filter (·.ptr != p), s.fault⟩ := by
  have hmem := mem_ptrs_put s p
  have hdistinct : ((s.out.filter (·.ptr != p)).map (·.ptr)).Nodup :=
    h.distinct.sublist ((List.filter_sublist).map _)
  cases hput with
  | @slot buf hslot hbuf =>
      have hget := get_setType hbuf .ready
      refine ⟨h.fault, hdistinct, fun q hq => ?_, fun q hq => ?_, fun q buf' hq => ?_⟩
      · obtain rfl := Option.some.inj (hslot.symm.trans hq)
        exact ⟨_, (hget p).trans (if_pos rfl), Or.inl ⟨rfl, fun hin => ((hmem p).mp hin).2 rfl⟩⟩
      · obtain ⟨hin, hne⟩ := (hmem q).mp hq
        obtain ⟨buf', hbuf', hwhere⟩ := h.out q hin
        exact ⟨buf', (hget q).trans ((if_neg hne).trans hbuf'), hwhere⟩
      · by_cases heq : q = p
        · exact Or.inl (heq ▸ hslot)
        · have hq' : s.tls.heap.get q = some buf' := by
            rw [← hq]
            exact ((hget q).trans (if_neg heq)).symm
          exact (h.owned q buf' hq').imp_right fun hin => (hmem q).mpr ⟨hin, heq⟩
  | @malloced buf hslot hbuf =>
      have hget := Heap.get_free s.tls.heap p
      have hne : ∀ {q}, s.tls.slot = some q → q ≠ p := fun hq heq => hslot (heq ▸ hq)
      refine ⟨h.fault, hdistinct, fun q hq => ?_, fun q hq => ?_, fun q buf' hq => ?_⟩
      · obtain ⟨buf', hbuf', htype⟩ := h.slot q hq
        refine ⟨buf', (hget q).trans ((if_neg (hne hq)).trans hbuf'), ?_⟩
        rcases htype with ⟨hready, hnot⟩ | ⟨hinuse, hin⟩
        · exact Or.inl ⟨hready, fun hin => hnot ((hmem q).mp hin).1⟩
        · exact Or.inr ⟨hinuse, (hmem q).mpr ⟨hin, hne hq⟩⟩
      · obtain ⟨hin, hqp⟩ := (hmem q).mp hq
        obtain ⟨buf', hbuf', hwhere⟩ := h.out q hin
        exact ⟨buf', (hget q).trans ((if_neg hqp).trans hbuf'), hwhere⟩
      · have hqp : q ≠ p := by
          intro heq
          have hnone := (hget q).trans (if_pos heq)
          have hsome : (s.tls.heap.free p).get q = some buf' := hq
          rw [hnone] at hsome
          cases hsome
        have hq' : s.tls.heap.get q = some buf' := by
          rw [← hq]
          exact ((hget q).trans (if_neg hqp)).symm
        exact (h.owned q buf' hq').imp_right fun hin => (hmem q).mpr ⟨hin, hqp⟩

theorem Wired.free_grows (h : Wired s) (hslot : s.tls.slot = some p)
    (hgrows : Grows s.tls size) :
    p ∉ s.ptrs ∧ (∀ q ∈ s.ptrs, (s.tls.heap.free p).get q = s.tls.heap.get q) ∧
      (∀ q ∈ s.ptrs, s.tls.slot ≠ some q) ∧
      ∀ q buf', (s.tls.heap.free p).get q = some buf' → q ∈ s.ptrs := by
  obtain ⟨p', buf, hslot', hbuf, hready, _⟩ := hgrows
  obtain rfl := Option.some.inj (hslot.symm.trans hslot')
  have hget := Heap.get_free s.tls.heap p
  have hnot : p ∉ s.ptrs := by
    rcases h.slot_type hslot hbuf with ⟨_, hnot⟩ | ⟨hinuse, _⟩
    · exact hnot
    · rw [hready] at hinuse
      cases hinuse
  have hne : ∀ {q}, q ∈ s.ptrs → q ≠ p := fun hq heq => hnot (heq ▸ hq)
  refine ⟨hnot, fun q hq => (hget q).trans (if_neg (hne hq)), fun q hq hs => ?_, fun q buf' hq => ?_⟩
  · exact hne hq (Option.some.inj (hs.symm.trans hslot))
  · rw [hget] at hq
    split at hq
    · cases hq
    · rename_i hqp
      rcases h.owned q buf' hq with hs | hs
      · exact absurd (Option.some.inj (hs.symm.trans hslot)) hqp
      · exact hs

-- One request or release that does not fail while it grows the buffer.
theorem step_wired {s' : Thread} {event : Event} (h : Wired s)
    (hg : ∀ size env, event = .get size env → Grows s.tls size → ¬Fails size env)
    (hs : step w s event = some s') : Wired s' := by
  cases event with
  | get size env =>
      simp only [step, h.fault, ne_eq, not_true_eq_false, ite_false] at hs
      have hcases := gettlsbuf_cases h w size env
      generalize gettlsbuf w s.tls size env = outcome at hs hcases
      cases hcases with
      | reused hslot hbuf hready _ =>
          cases hs
          exact h.fault ▸ h.reused hslot hbuf hready _
      | nested _ _ _ _ =>
          cases hs
          exact h.fault ▸ h.nested rfl _
      | first hslot _ =>
          cases hs
          refine h.fault ▸ h.installed (fun _ _ => rfl) (fun q _ hq => ?_) (fun q buf' hq => ?_) rfl _
          · rw [hslot] at hq
            cases hq
          · refine (h.owned q buf' hq).resolve_left fun hq' => ?_
            rw [hslot] at hq'
            cases hq'
      | grown hslot hgrows _ _ =>
          cases hs
          obtain ⟨_, hlive, hout, hback⟩ := h.free_grows hslot hgrows
          exact h.fault ▸ h.installed hlive hout hback rfl _
      | refused _ _ hslot hheap =>
          cases hs
          exact h.fault ▸ h.of_heap hslot hheap
      | lost hgrows hfails _ _ _ => exact absurd hfails (hg size env rfl hgrows)
  | put p =>
      simp only [step] at hs
      split at hs
      · cases hs
      · rename_i hin
        have hp : p ∈ s.ptrs := by
          by_contra hnot
          exact hin (Or.inr hnot)
        have hput := puttlsbuf_cases h hp
        generalize puttlsbuf s.tls (some p) = outcome at hs hput
        cases hput with
        | slot hslot hbuf =>
            cases hs
            exact h.put (.slot hslot hbuf)
        | malloced hslot hbuf =>
            cases hs
            exact h.put (.malloced hslot hbuf)

end Step

end SleepyPenguin.Tls
