import SleepyPenguin.Tls.Callers

-- Calls one after another in a thread, and what is left of their buffers.
namespace SleepyPenguin.Tls.Callers

open Foundation

-- A command in the thread, written down in the ledger.
def recorded (w : Nat) : (β : Type) → Thread × Ledger → Cmd β → Option (β × (Thread × Ledger))
  | _, (s, l), .get size env =>
      match exec w _ s (.get size env) with
      | none => none
      | some (.ok (p, left), s) =>
          some (.ok (p, left), s, ⟨l.answers ++ [.ok (p, left)], l.got ++ [p], l.gave⟩)
      | some (.error e, s) => some (.error e, s, ⟨l.answers ++ [.error e], l.got, l.gave⟩)
  | _, (s, l), .put p =>
      match exec w _ s (.put p) with
      | none => none
      | some (_, s) => some ((), s, { l with gave := l.gave ++ p.toList })
  | _, _, .blocked => none

-- A request that does not fail while it grows the slot's buffer.
def SparedCmd : (β : Type) → Thread × Ledger → Cmd β → Prop
  | _, (s, _), .get size env => Grows s.tls size → ¬Fails size env
  | _, _, .put _ => True
  | _, _, .blocked => True

def Call.record (w : Nat) (s : Thread) (call : Call) : Option (Except Err Unit × (Thread × Ledger)) :=
  (call.program w).run (recorded w) (s, ⟨[], [], []⟩)

-- One call, from when it is made to when it is left.
def Call.enter (w : Nat) (s : Thread) (call : Call) : Option Thread :=
  (call.record w s).map fun result => result.2.1

-- The call meets its condition, and no request fails while it grows the
-- slot's buffer.
def Careful (w : Nat) (s : Thread) (call : Call) : Prop :=
  (∀ result, call.record w s = some result → call.Gives result.2.2.answers) ∧
    (call.program w).Guarded (recorded w) SparedCmd (s, ⟨[], [], []⟩)

-- No buffer is out, and none is allocated but one in the slot that is ready.
structure Returned (s : Thread) : Prop where
  fault : s.fault = none
  out : s.out = []
  live : ∀ p, s.tls.slot = some p → ∃ buf, s.tls.heap.get p = some buf ∧ buf.bufType = .ready
  owned : ∀ p buf, s.tls.heap.get p = some buf → s.tls.slot = some p

theorem returned_of_wired {s : Thread} (h : Wired s) (hout : s.out = []) : Returned s := by
  have hnone : ∀ p, p ∉ s.ptrs := by simp [Thread.ptrs, hout]
  refine ⟨h.fault, hout, fun p hp => ?_, fun p buf hbuf => ?_⟩
  · obtain ⟨buf, hbuf, ⟨hready, _⟩ | ⟨_, hin⟩⟩ := h.slot p hp
    · exact ⟨buf, hbuf, hready⟩
    · exact absurd hin (hnone p)
  · exact (h.owned p buf hbuf).resolve_right (hnone p)

section Recorded

variable {w : Nat} {s s' : Thread} {l l' : Ledger}

-- The ledger of a run is what the call would be accounted for with the
-- answers that it got.
theorem account_of_recorded {α : Type} {program : Waiter α} {outcome : Except Err α}
    (h : program.run (recorded w) (s, l) = some (outcome, s', l')) :
    ∃ answers, l'.answers = l.answers ++ answers ∧
      program.run account ⟨answers, l.got, l.gave⟩ = some (outcome, ⟨[], l'.got, l'.gave⟩) := by
  induction program generalizing s l with
  | pure value =>
      cases h
      exact ⟨[], (List.append_nil _).symm, rfl⟩
  | raise e =>
      cases h
      exact ⟨[], (List.append_nil _).symm, rfl⟩
  | cmd command rest ih =>
      obtain ⟨⟨answer, t, m⟩, hc, hr⟩ := Option.bind_eq_some_iff.mp h
      obtain ⟨answers, hanswers, hrun⟩ := ih answer hr
      cases command with
      | get size env =>
          simp only [recorded] at hc
          split at hc
          · cases hc
          · rename_i p left t' _
            cases hc
            exact ⟨.ok (p, left) :: answers, by simpa using hanswers, hrun⟩
          · rename_i e t' _
            cases hc
            exact ⟨.error e :: answers, by simpa using hanswers, hrun⟩
      | put p =>
          simp only [recorded] at hc
          split at hc
          · cases hc
          · cases hc
            refine ⟨answers, hanswers, ?_⟩
            cases p with
            | none =>
                rw [Option.toList_none, List.append_nil] at hrun
                exact hrun
            | some p => exact hrun
      | blocked => cases hc

-- The buffers that the call got are those it gave and those that are out.
structure Booked (s : Thread) (l : Ledger) : Prop where
  wired : Wired s
  books : (s.ptrs ++ l.gave).Perm l.got

theorem ptrs_put (h : Wired s) {p : Nat} (hp : p ∈ s.ptrs) :
    (p :: (s.out.filter (·.ptr != p)).map (·.ptr)).Perm s.ptrs := by
  have hfilter : (s.out.filter (·.ptr != p)).map (·.ptr) = s.ptrs.erase p := by
    rw [h.distinct.erase_eq_filter, Thread.ptrs, List.filter_map]
    rfl
  rw [hfilter]
  exact (List.perm_cons_erase hp).symm

-- Only a buffer that is out can be given back.
theorem mem_of_put (h : Wired s) {p : Nat} (hs : ∀ f, puttlsbuf s.tls (some p) ≠ .fault f) :
    p ∈ s.ptrs := by
  by_contra hnot
  cases hbuf : s.tls.heap.get p with
  | none => exact hs .freed (by simp only [puttlsbuf, hbuf])
  | some buf =>
      have hslot := (h.owned p buf hbuf).resolve_right hnot
      rcases h.slot_type hslot hbuf with ⟨hready, _⟩ | ⟨_, hin⟩
      · exact hs .assertion (by simp only [puttlsbuf, hbuf, hready])
      · exact hnot hin

theorem Booked.get (h : Booked s l) {size : Nat} {env : Env} (hg : Grows s.tls size → ¬Fails size env)
    {answer : Except Err (Nat × Nat)} (hc : recorded w _ (s, l) (.get size env) = some (answer, s', l')) :
    Booked s' l' := by
  have hspared : Spared s (.get size env) := hg
  simp only [recorded, exec] at hc
  cases hget : gettlsbuf w s.tls size env with
  | returned value tls =>
      obtain ⟨p, left⟩ := value
      rw [hget] at hc
      cases hc
      have hstep : step w s (.get size env) = some
        { s with tls := tls, out := ⟨p, size, left⟩ :: s.out } := by
        simp [step, h.wired.fault, hget]
      refine ⟨h.wired.spared hspared hstep, ?_⟩
      have hmoved : (p :: (s.ptrs ++ l.gave)).Perm (p :: l.got) := h.books.cons p
      exact hmoved.trans (List.perm_append_singleton p l.got).symm
  | raised e tls =>
      rw [hget] at hc
      cases hc
      have hstep : step w s (.get size env) = some { s with tls := tls } := by
        simp [step, h.wired.fault, hget]
      exact ⟨h.wired.spared hspared hstep, h.books⟩
  | fault f =>
      rw [hget] at hc
      cases hc

theorem Booked.put (h : Booked s l) {p : Option Nat}
    (hc : recorded w _ (s, l) (.put p) = some ((), s', l')) : Booked s' l' := by
  cases p with
  | none =>
      cases hc
      refine ⟨h.wired, ?_⟩
      rw [Option.toList_none, List.append_nil]
      exact h.books
  | some p =>
      simp only [recorded, exec] at hc
      have hp : p ∈ s.ptrs := by
        refine mem_of_put h.wired fun f hf => ?_
        rw [hf] at hc
        cases hc
      have hcases := puttlsbuf_cases h.wired hp
      have hkept : ∀ {tls}, Put s.tls p (.returned () tls) →
          Booked ⟨tls, s.out.filter (·.ptr != p), s.fault⟩ { l with gave := l.gave ++ [p] } := by
        refine fun hput => ⟨h.wired.put hput, ?_⟩
        have hmoved := (ptrs_put h.wired hp).append_right l.gave
        have hlast := List.perm_append_singleton p ((s.out.filter (·.ptr != p)).map (·.ptr) ++ l.gave)
        rw [List.append_assoc] at hlast
        exact hlast.trans (hmoved.trans h.books)
      generalize puttlsbuf s.tls (some p) = outcome at hc hcases
      cases hcases with
      | slot hslot hbuf =>
          cases hc
          exact hkept (.slot hslot hbuf)
      | malloced hslot hbuf =>
          cases hc
          exact hkept (.malloced hslot hbuf)

theorem run_booked {program : Waiter Unit} {outcome : Except Err Unit}
    (hg : program.Guarded (recorded w) SparedCmd (s, l)) (h : Booked s l)
    (hr : program.run (recorded w) (s, l) = some (outcome, s', l')) : Booked s' l' := by
  refine Prog.run_invariant_guarded (fun t => Booked t.1 t.2) ?_ hg h hr
  rintro β ⟨s, l⟩ command ⟨answer, s', l'⟩ hbooked hguard hc
  cases command with
  | get size env => exact hbooked.get hguard hc
  | put p => exact hbooked.put hc
  | blocked => cases hc

end Recorded

-- How each call is left, wherever it is.
theorem left_balanced {w : Nat} (call : Call) {answers : List (Except Err (Nat × Nat))}
    {outcome : Except Err Unit} {l : Ledger} (h : call.leave w answers = some (outcome, l)) :
    Balanced l ↔ call.Gives answers := by
  cases call with
  | epollWait layout c => exact ⟨fun _ => trivial, fun _ => epwait_balanced h⟩
  | kevent layout c => exact kevent_balanced h
  | take c => exact take_balanced h

-- A call that gives back all that it got leaves a thread as it was before.
theorem enter_returned {w : Nat} {s s' : Thread} {call : Call} (h : Wired s ∧ s.out = [])
    (hc : Careful w s call) (he : call.enter w s = some s') : Wired s' ∧ s'.out = [] := by
  obtain ⟨⟨outcome, t, l⟩, hr, rfl⟩ := Option.map_eq_some_iff.mp he
  have hstart : Booked s ⟨[], [], []⟩ := ⟨h.1, by simp [Thread.ptrs, h.2]⟩
  have hend : Booked t l := run_booked hc.2 hstart hr
  obtain ⟨answers, hanswers, hrun⟩ := account_of_recorded hr
  have hgives := hc.1 _ hr
  rw [List.nil_append] at hanswers
  rw [hanswers] at hgives
  have hbalanced : l.gave.Perm l.got := (left_balanced call hrun).mpr hgives
  have hlen := (hend.books.trans hbalanced.symm).length_eq
  rw [List.length_append] at hlen
  have hptrs : t.ptrs = [] := List.eq_nil_of_length_eq_zero (by omega)
  exact ⟨hend.wired, List.map_eq_nil_iff.mp hptrs⟩

-- A call gives back every buffer that it got, each once, just when it meets
-- its condition. Where every call of a thread does, what is left after each
-- is one buffer that is ready in the slot, or none.
theorem gives_back_iff (call : Call) (answers : List (Except Err (Nat × Nat))) (outcome : Except Err Unit)
    (l : Ledger) (w : Nat) (calls : List Call) :
    (call.leave w answers = some (outcome, l) → (Balanced l ↔ call.Gives answers)) ∧
    (Guarded (Call.enter w) (Careful w) Thread.start calls →
      Visits (Call.enter w) Returned Thread.start calls) := by
  refine ⟨fun h => left_balanced call h, fun hg => ?_⟩
  exact visits_of_guarded (fun s => Wired s ∧ s.out = []) Returned (fun s h => returned_of_wired h.1 h.2)
    (fun s call s' h hc he => enter_returned h hc he) ⟨start_wired, rfl⟩ hg

-- A wait for an event whose block breaks, twice.
def breaking : Call :=
  .epollWait ⟨40, 12⟩
    { block := true, timeout := .ok (-1), maxevents := .ok 64, waits := [⟨.error .EINTR, none, false, true⟩,
      ⟨.ok 1, none, false, true⟩], blocks := [some 7] }

theorem gives_back_breaking :
    breaking.leave 64 [.ok (0, 808)] = some (.error (.block 7), ⟨[], [0], [0]⟩) ∧
    Balanced ⟨[], [0], [0]⟩ ∧ Visits (Call.enter 64) Returned Thread.start [breaking, breaking] := by
  have hleft : breaking.leave 64 [.ok (0, 808)] = some (.error (.block 7), ⟨[], [0], [0]⟩) := rfl
  have hcareful : ∀ s step, recorded 64 _ (s, ⟨[], [], []⟩) (.get 808 {}) = some (.ok (0, 808), step) →
      ¬Grows s.tls 808 → Careful 64 s breaking := by
    intro s step hstep hspared
    refine ⟨fun _ _ => trivial, fun hgrows => absurd hgrows hspared, fun other hother => ?_⟩
    obtain rfl := Option.some.inj (hstep.symm.trans hother)
    exact ⟨trivial, fun _ _ => trivial⟩
  have hboth := gives_back_iff breaking [.ok (0, 808)] (.error (.block 7)) ⟨[], [0], [0]⟩ 64
    [breaking, breaking]
  refine ⟨hleft, (hboth.1 hleft).mpr trivial, hboth.2 ?_⟩
  refine ⟨hcareful _ _ rfl ?_, fun s hs => ?_⟩
  · rintro ⟨_, _, hslot, _⟩
    cases hslot
  · cases hs
    refine ⟨hcareful _ _ rfl ?_, fun _ _ => trivial⟩
    rintro ⟨_, _, hslot, hbuf, _, hcapa⟩
    cases hslot
    cases hbuf
    cases Nat.lt_irrefl 808 hcapa

-- A take that reads one event and returns it.
theorem take_unbalanced :
    (Call.take { turns := [⟨.ok (Inotify.Record.encode ⟨1, 256, 0, [], by decide, by decide, by decide,
      fun h => absurd rfl h⟩), none, .ok 0, {}, false, false⟩] }).leave 64 [.ok (0, 128)] =
      some (.ok (), ⟨[], [0], []⟩) ∧ ¬Balanced ⟨[], [0], []⟩ := by
  refine ⟨rfl, ?_⟩
  decide

end SleepyPenguin.Tls.Callers
