import SleepyPenguin.Tls.Buffer

namespace SleepyPenguin.Tls

open Foundation

-- A request that does not fail while it grows the slot's buffer.
def Spared (s : Thread) : Event → Prop
  | .get size env => Grows s.tls size → ¬Fails size env
  | .put _ => True

-- No buffer is looked at after it was freed: not the slot's, and none of
-- those that are handed out.
structure Usable (s : Thread) : Prop where
  fault : s.fault = none
  slot : ∀ p, s.tls.slot = some p → (s.tls.heap.get p).isSome
  out : ∀ p ∈ s.ptrs, (s.tls.heap.get p).isSome

theorem Wired.usable {s : Thread} (h : Wired s) : Usable s := by
  refine ⟨h.fault, fun p hp => ?_, fun p hp => ?_⟩
  · obtain ⟨buf, hbuf, _⟩ := h.slot p hp
    rw [hbuf]
    rfl
  · obtain ⟨buf, hbuf, _⟩ := h.out p hp
    rw [hbuf]
    rfl

theorem Wired.spared {w : Nat} {s s' : Thread} {event : Event} (h : Wired s) (hg : Spared s event)
    (hs : step w s event = some s') : Wired s' := by
  refine step_wired h (fun size env heq hgrows => ?_) hs
  subst heq
  exact hg hgrows

-- The old buffer is freed before the new one is there, and the slot keeps it.
theorem Wired.dangles {w size : Nat} {env : Env} {s : Thread} (h : Wired s)
    (hgrows : Grows s.tls size) (hfails : Fails size env) :
    ∃ s', step w s (.get size env) = some s' ∧ ¬Usable s' := by
  simp only [step, h.fault, ne_eq, not_true_eq_false, ite_false]
  have hcases := gettlsbuf_cases h w size env
  obtain ⟨p, buf, hslot, hbuf, hready, hcapa⟩ := hgrows
  generalize gettlsbuf w s.tls size env = outcome at hcases
  cases hcases with
  | reused hslot' hbuf' _ hcapa' =>
      obtain rfl := Option.some.inj (hslot.symm.trans hslot')
      obtain rfl := Option.some.inj (hbuf.symm.trans hbuf')
      omega
  | nested hslot' hbuf' hinuse _ =>
      obtain rfl := Option.some.inj (hslot.symm.trans hslot')
      obtain rfl := Option.some.inj (hbuf.symm.trans hbuf')
      rw [hready] at hinuse
      cases hinuse
  | first hslot' _ =>
      rw [hslot] at hslot'
      cases hslot'
  | grown _ _ hmade _ => exact absurd hfails hmade
  | refused hgrows' _ _ _ => exact absurd ⟨p, buf, hslot, hbuf, hready, hcapa⟩ hgrows'
  | lost _ _ _ hslot' hgone =>
      refine ⟨_, rfl, fun hu => ?_⟩
      have hsome := hu.slot _ hslot'
      rw [hgone] at hsome
      cases hsome

-- In every run of requests and releases, whatever fails in it, no freed
-- buffer is looked at or handed out just when no request fails while it
-- grows the slot's buffer.
theorem usable_iff (w : Nat) (events : List Event) :
    Visits (step w) Usable Thread.start events ↔ Guarded (step w) Spared Thread.start events := by
  constructor
  · intro hv
    refine guarded_of_visits Wired Usable (fun s event s' h _ hg hs => h.spared hg hs) ?_
      (fun _ _ => trivial) start_wired hv
    intro s event h _ hno
    cases event with
    | get size env =>
        have hboth : Grows s.tls size ∧ Fails size env := by
          by_contra hnot
          exact hno fun hgrows hfails => hnot ⟨hgrows, hfails⟩
        exact h.dangles hboth.1 hboth.2
    | put p => exact absurd trivial hno
  · exact visits_of_guarded Wired Usable (fun s h => h.usable) (fun s event s' h hg hs => h.spared hg hs)
      start_wired

-- A wait, then one for more events than there is memory for, then a third.
theorem usable_lost :
    ∃ s, runEvents (step 64) Thread.start [.get 800 {}, .put 0, .get 0xFFFFFFFF {}] = some s ∧
      ¬Usable s ∧ (step 64 s (.get 800 {})).map (·.fault) = some (some .freed) := by
  refine ⟨_, rfl, fun hu => ?_, rfl⟩
  have hsome := hu.slot 0 rfl
  cases hsome

-- A request that the slot's buffer does not serve.
def Allocates (s : Memory) (size : Nat) : Prop :=
  ¬∃ p buf, s.slot = some p ∧ s.heap.get p = some buf ∧ buf.bufType = .ready ∧ size ≤ buf.capa

-- The size of the buffer with its header is a size_t.
def Fits (w : Nat) (s : Thread) : Event → Prop
  | .get size _ => Allocates s.tls size → size + header < 2 ^ w
  | .put _ => True

-- Sizes below UINT32_MAX, and no allocation that fails.
def Event.Served : Event → Prop
  | .get size env => size < 0xFFFFFFFF ∧ env.memory = true ∧ env.setspecific = none
  | .put _ => True

-- The buffers that are out are distinct live allocations of at least the
-- sizes they were handed out with; what is left when all are back is ready
-- in the slot.
structure Sound (s : Thread) : Prop where
  fault : s.fault = none
  distinct : s.ptrs.Nodup
  room : ∀ lent ∈ s.out, ∃ buf, s.tls.heap.get lent.ptr = some buf ∧
    lent.asked ≤ lent.left ∧ lent.left + header ≤ buf.bytes
  back : s.out = [] → ∀ p buf, s.tls.heap.get p = some buf →
    s.tls.slot = some p ∧ buf.bufType = .ready

-- Every buffer has the capacity that it says it has.
structure Sized (s : Thread) : Prop where
  capa : ∀ p buf, s.tls.heap.get p = some buf → buf.capa + header ≤ buf.bytes
  lent : ∀ lent ∈ s.out, ∃ buf, s.tls.heap.get lent.ptr = some buf ∧
    lent.asked ≤ lent.left ∧ lent.left = buf.capa

theorem start_sized : Sized Thread.start := by
  refine ⟨fun p buf h => ?_, fun lent h => ?_⟩
  · cases h
  · cases h

theorem Sized.sound {s : Thread} (h : Sized s) (hw : Wired s) : Sound s := by
  refine ⟨hw.fault, hw.distinct, fun lent hlent => ?_, fun hout p buf hbuf => ?_⟩
  · obtain ⟨buf, hbuf, hasked, hleft⟩ := h.lent lent hlent
    have hcapa := h.capa _ _ hbuf
    exact ⟨buf, hbuf, hasked, by omega⟩
  · have hnone : p ∉ s.ptrs := by simp [Thread.ptrs, hout]
    have hslot := (hw.owned p buf hbuf).resolve_right hnone
    rcases hw.slot_type hslot hbuf with ⟨hready, _⟩ | ⟨_, hin⟩
    · exact ⟨hslot, hready⟩
    · exact absurd hin hnone

section Sizes

variable {w size : Nat} {env : Env} {s s' : Thread}

-- Handing out a buffer of a heap that keeps the capacities of the others.
theorem Sized.handed (h : Sized s) {tls : Memory} {lent : Lent} {buf : Block}
    (hnew : tls.heap.get lent.ptr = some buf) (hasked : lent.asked ≤ lent.left)
    (hleft : lent.left = buf.capa) (hroom : buf.capa + header ≤ buf.bytes)
    (hback : ∀ p buf', tls.heap.get p = some buf' → p ≠ lent.ptr → s.tls.heap.get p = some buf')
    (hkept : ∀ p ∈ s.ptrs, p ≠ lent.ptr ∧ tls.heap.get p = s.tls.heap.get p) :
    Sized ⟨tls, lent :: s.out, s.fault⟩ := by
  refine ⟨fun p buf' hp => ?_, fun other ho => ?_⟩
  · by_cases heq : p = lent.ptr
    · subst heq
      obtain rfl := Option.some.inj (hnew.symm.trans hp)
      exact hroom
    · exact h.capa p buf' (hback p buf' hp heq)
  · rcases List.mem_cons.mp ho with rfl | ho
    · exact ⟨buf, hnew, hasked, hleft⟩
    · obtain ⟨buf', hbuf', hothers⟩ := h.lent other ho
      have hmem : other.ptr ∈ s.ptrs := List.mem_map_of_mem ho
      exact ⟨buf', (hkept _ hmem).2.trans hbuf', hothers⟩

theorem Sized.of_alloc (h : Sized s) (hw : Wired s) {heap : Heap Block} {bufType : BufType}
    {slot : Option Nat} (hsize : size + header < 2 ^ w)
    (hlive : ∀ q ∈ s.ptrs, heap.get q = s.tls.heap.get q)
    (hback : ∀ q buf', heap.get q = some buf' → s.tls.heap.get q = some buf') :
    Sized ⟨⟨heap.alloc ⟨(size + header) % 2 ^ w, size, bufType⟩, slot⟩,
      ⟨heap.fresh, size, size⟩ :: s.out, s.fault⟩ := by
  have hget := Heap.get_alloc heap ⟨(size + header) % 2 ^ w, size, bufType⟩
  have hbytes : (size + header) % 2 ^ w = size + header := Nat.mod_eq_of_lt hsize
  refine h.handed ((hget _).trans (if_pos rfl)) (Nat.le_refl _) rfl (Nat.le_of_eq hbytes.symm)
    (fun p buf' hp hne => ?_) fun p hp => ?_
  · exact hback p buf' (((hget p).trans (if_neg hne)).symm.trans hp)
  · obtain ⟨buf', hbuf', _⟩ := hw.out p hp
    have hne : p ≠ heap.fresh := Heap.ne_fresh ((hlive p hp).trans hbuf')
    exact ⟨hne, ((hget p).trans (if_neg hne)).trans (hlive p hp)⟩

theorem Event.Served.not_fails (h : (Event.get size env).Served) : ¬Fails size env := by
  obtain ⟨hsize, hmemory, hset⟩ := h
  rintro (hlarge | hnone | hset')
  · omega
  · rw [hmemory] at hnone
    cases hnone
  · exact hset' hset

theorem Event.Served.spared {event : Event} (h : event.Served) : Spared s event := by
  cases event with
  | get size env => exact fun _ => h.not_fails
  | put p => trivial

theorem Allocates.of_slot {p : Nat} {buf : Block} (hslot : s.tls.slot = some p)
    (hbuf : s.tls.heap.get p = some buf) (hnot : ¬(buf.bufType = .ready ∧ size ≤ buf.capa)) :
    Allocates s.tls size := by
  rintro ⟨p', buf', hslot', hbuf', hready, hcapa⟩
  obtain rfl := Option.some.inj (hslot.symm.trans hslot')
  obtain rfl := Option.some.inj (hbuf.symm.trans hbuf')
  exact hnot ⟨hready, hcapa⟩

theorem Allocates.of_grows (h : Grows s.tls size) : Allocates s.tls size := by
  obtain ⟨p, buf, hslot, hbuf, _, hcapa⟩ := h
  exact .of_slot hslot hbuf fun ⟨_, hle⟩ => by omega

theorem Allocates.of_empty (h : s.tls.slot = none) : Allocates s.tls size := by
  rintro ⟨p, _, hp, _⟩
  rw [h] at hp
  cases hp

theorem Sized.put {p : Nat} (h : Sized s) {tls : Memory} (hput : Put s.tls p (.returned () tls)) :
    Sized ⟨tls, s.out.filter (·.ptr != p), s.fault⟩ := by
  cases hput with
  | @slot buf hslot hbuf =>
      have hget := get_setType hbuf .ready
      refine ⟨fun q buf' hq => ?_, fun lent hlent => ?_⟩
      · rw [hget] at hq
        split at hq
        · cases hq
          exact h.capa p buf hbuf
        · exact h.capa q buf' hq
      · obtain ⟨hin, hne⟩ := List.mem_filter.mp hlent
        obtain ⟨buf', hbuf', hothers⟩ := h.lent lent hin
        have hq : lent.ptr ≠ p := by simpa using hne
        exact ⟨buf', (hget _).trans ((if_neg hq).trans hbuf'), hothers⟩
  | @malloced buf hslot hbuf =>
      have hget := Heap.get_free s.tls.heap p
      refine ⟨fun q buf' hq => ?_, fun lent hlent => ?_⟩
      · have hq' : (s.tls.heap.free p).get q = some buf' := hq
        rw [hget] at hq'
        split at hq'
        · cases hq'
        · exact h.capa q buf' hq'
      · obtain ⟨hin, hne⟩ := List.mem_filter.mp hlent
        obtain ⟨buf', hbuf', hothers⟩ := h.lent lent hin
        have hq : lent.ptr ≠ p := by simpa using hne
        exact ⟨buf', (hget _).trans ((if_neg hq).trans hbuf'), hothers⟩

theorem Sized.step {event : Event} (h : Sized s) (hw : Wired s) (hp : event.Served)
    (hfit : Fits w s event) (hs : Tls.step w s event = some s') : Sized s' := by
  cases event with
  | get size env =>
      simp only [Tls.step, hw.fault, ne_eq, not_true_eq_false, ite_false] at hs
      have hcases := gettlsbuf_cases hw w size env
      generalize gettlsbuf w s.tls size env = outcome at hs hcases
      cases hcases with
      | @reused p buf hslot hbuf hready hcapa =>
          cases hs
          have hget := get_setType hbuf .inuse
          have hnot : p ∉ s.ptrs := by
            rcases hw.slot_type hslot hbuf with ⟨_, hnot⟩ | ⟨hinuse, _⟩
            · exact hnot
            · rw [hready] at hinuse
              cases hinuse
          refine hw.fault ▸ h.handed ((hget p).trans (if_pos rfl)) hcapa rfl (h.capa p buf hbuf)
            (fun q buf' hq hne => ((hget q).trans (if_neg hne)).symm.trans hq) fun q hq => ?_
          have hne : q ≠ p := fun heq => hnot (heq ▸ hq)
          exact ⟨hne, (hget q).trans (if_neg hne)⟩
      | nested hslot hbuf hinuse _ =>
          cases hs
          have hsize := hfit (.of_slot hslot hbuf fun hfree => by rw [hinuse] at hfree; cases hfree.1)
          exact hw.fault ▸ h.of_alloc hw hsize (fun _ _ => rfl) fun _ _ hq => hq
      | first hslot _ =>
          cases hs
          exact hw.fault ▸ h.of_alloc hw (hfit (.of_empty hslot)) (fun _ _ => rfl) fun _ _ hq => hq
      | grown hslot hgrows _ _ =>
          cases hs
          obtain ⟨_, hlive, _, hback⟩ := hw.free_grows hslot hgrows
          refine hw.fault ▸ h.of_alloc hw (hfit (.of_grows hgrows)) hlive fun q buf' hq => ?_
          exact (hlive q (hback q buf' hq)).symm.trans hq
      | refused _ hfails _ _ => exact absurd hfails hp.not_fails
      | lost _ hfails _ _ _ => exact absurd hfails hp.not_fails
  | put p =>
      simp only [Tls.step] at hs
      split at hs
      · cases hs
      · rename_i hin
        have hptr : p ∈ s.ptrs := by
          by_contra hnot
          exact hin (Or.inr hnot)
        have hput := puttlsbuf_cases hw hptr
        generalize puttlsbuf s.tls (some p) = outcome at hs hput
        cases hput with
        | slot hslot hbuf =>
            cases hs
            exact h.put (.slot hslot hbuf)
        | malloced hslot hbuf =>
            cases hs
            exact h.put (.malloced hslot hbuf)

-- The sum of the size and the header wraps, and the buffer has fewer bytes
-- than it says.
theorem Wired.short (h : Wired s) (hp : (Event.get size env).Served) (ha : Allocates s.tls size)
    (hlarge : 2 ^ w ≤ size + header) : ∃ s', Tls.step w s (.get size env) = some s' ∧ ¬Sound s' := by
  have hpos : 0 < 2 ^ w := Nat.two_pow_pos w
  have hbytes : (size + header) % 2 ^ w < 2 ^ w := Nat.mod_lt _ hpos
  have hshort : ∀ (heap : Heap Block) (bufType : BufType) (slot : Option Nat),
      ¬Sound ⟨⟨heap.alloc ⟨(size + header) % 2 ^ w, size, bufType⟩, slot⟩,
        ⟨heap.fresh, size, size⟩ :: s.out, none⟩ := by
    intro heap bufType slot hsound
    obtain ⟨buf, hbuf, _, hroom⟩ := hsound.room _ List.mem_cons_self
    have hget := (Heap.get_alloc heap ⟨(size + header) % 2 ^ w, size, bufType⟩ heap.fresh).trans
      (if_pos rfl)
    obtain rfl := Option.some.inj (hget.symm.trans hbuf)
    simp only at hroom
    omega
  simp only [Tls.step, h.fault, ne_eq, not_true_eq_false, ite_false]
  have hcases := gettlsbuf_cases h w size env
  generalize gettlsbuf w s.tls size env = outcome at hcases
  cases hcases with
  | reused hslot hbuf hready hcapa => exact absurd ⟨_, _, hslot, hbuf, hready, hcapa⟩ ha
  | nested _ _ _ _ => exact ⟨_, rfl, hshort _ _ _⟩
  | first _ _ => exact ⟨_, rfl, hshort _ _ _⟩
  | grown _ _ _ _ => exact ⟨_, rfl, hshort _ _ _⟩
  | refused _ hfails _ _ => exact absurd hfails hp.not_fails
  | lost _ hfails _ _ _ => exact absurd hfails hp.not_fails

end Sizes

-- In every run without a failing allocation, the buffers are what they
-- should be in every state just when no request that allocates is so large
-- that its size with the header does not fit a size_t.
theorem sound_iff (w : Nat) (events : List Event) (hp : ∀ event ∈ events, event.Served) :
    Visits (step w) Sound Thread.start events ↔ Guarded (step w) (Fits w) Thread.start events := by
  have hstart : Wired Thread.start ∧ Sized Thread.start := ⟨start_wired, start_sized⟩
  constructor
  · intro hv
    refine guarded_of_visits (fun s => Wired s ∧ Sized s) Sound
      (fun s event s' h hserved hg hs => ⟨h.1.spared hserved.spared hs, h.2.step h.1 hserved hg hs⟩)
      ?_ hp hstart hv
    intro s event h hserved hno
    cases event with
    | get size env =>
        have hboth : Allocates s.tls size ∧ 2 ^ w ≤ size + header := by
          by_contra hnot
          exact hno fun ha => by
            by_contra hlt
            exact hnot ⟨ha, Nat.le_of_not_lt hlt⟩
        exact h.1.short hserved hboth.1 hboth.2
    | put p => exact absurd trivial hno
  · intro hg
    refine visits_of_guarded (fun s => Wired s ∧ Sized s) Sound (fun s h => h.2.sound h.1)
      (fun s event s' h hboth hs => ⟨h.1.spared hboth.2.spared hs, h.2.step h.1 hboth.2 hboth.1 hs⟩)
      hstart (guarded_and hg (guarded_of_forall hp _))

-- A size_t of more than 32 bits holds every size that is asked for.
theorem fits_wide {w : Nat} (hw : 33 ≤ w) {events : List Event}
    (hp : ∀ event ∈ events, event.Served) (s : Thread) : Guarded (step w) (Fits w) s events := by
  have hpow : 2 ^ 33 ≤ 2 ^ w := Nat.pow_le_pow_right (by decide) hw
  have hall : ∀ event ∈ events, ∀ s, Fits w s event := by
    intro event hevent s
    cases event with
    | get size env =>
        have hsize := (hp _ hevent).1
        intro _
        simp only [header]
        omega
    | put p => trivial
  induction events generalizing s with
  | nil => trivial
  | cons event rest ih =>
      exact ⟨hall event List.mem_cons_self s, fun s' _ =>
        ih (fun other ho => hp other (List.mem_cons_of_mem _ ho)) s'
          fun other ho => hall other (List.mem_cons_of_mem _ ho)⟩

theorem sound_wide {w : Nat} (hw : 33 ≤ w) (events : List Event)
    (hp : ∀ event ∈ events, event.Served) : Visits (step w) Sound Thread.start events :=
  (sound_iff w events hp).mpr (fits_wide hw hp _)

-- Nested waits, whose buffers come back out of order, and a larger one after.
theorem sound_nested :
    (runEvents (step 64) Thread.start
        [.get 800 {}, .get 128 {}, .get 128 {}, .put 1, .put 0, .put 2, .get 2000 {}, .put 3]).map (·.out) =
      some [] ∧
    Visits (step 64) Sound Thread.start
      [.get 800 {}, .get 128 {}, .get 128 {}, .put 1, .put 0, .put 2, .get 2000 {}, .put 3] := by
  have hserved : ∀ event ∈ ([.get 800 {}, .get 128 {}, .get 128 {}, .put 1, .put 0, .put 2, .get 2000 {},
      .put 3] : List Event), event.Served := by
    simp [Event.Served]
  exact ⟨by decide, (sound_iff 64 _ hserved).mpr (fits_wide (by decide) hserved _)⟩

-- With a size_t of 32 bits, the buffer for 357913939 events has no bytes.
theorem sound_wrapped :
    (∀ event ∈ [Event.get 0xFFFFFFF8 {}], event.Served) ∧
      ∃ s, runEvents (step 32) Thread.start [.get 0xFFFFFFF8 {}] = some s ∧
        s.out = [⟨0, 0xFFFFFFF8, 0xFFFFFFF8⟩] ∧ (s.tls.heap.get 0).map (·.bytes) = some 0 ∧ ¬Sound s := by
  refine ⟨by simp [Event.Served], _, rfl, rfl, rfl, fun hs => ?_⟩
  obtain ⟨buf, hbuf, _, hroom⟩ := hs.room _ List.mem_cons_self
  cases hbuf
  simp [header] at hroom

end SleepyPenguin.Tls
