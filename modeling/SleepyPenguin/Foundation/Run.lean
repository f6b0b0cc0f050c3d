import Mathlib.Data.Option.Basic
import Mathlib.Tactic.ByContra

namespace Foundation

universe u v

variable {σ : Type u} {ε : Type v} (step : σ → ε → Option σ)

-- A run of a partial step function along a list of events; `none` where an
-- event is not enabled.
def runEvents : σ → List ε → Option σ
  | s, [] => some s
  | s, event :: rest => (step s event).bind fun s' => runEvents s' rest

-- Every step of the run meets the guard in the state it is taken from.
def Guarded (guard : σ → ε → Prop) : σ → List ε → Prop
  | _, [] => True
  | s, event :: rest => guard s event ∧ ∀ s', step s event = some s' → Guarded guard s' rest

-- Every state of the run satisfies the predicate.
def Visits (p : σ → Prop) : σ → List ε → Prop
  | s, [] => p s
  | s, event :: rest => p s ∧ ∀ s', step s event = some s' → Visits p s' rest

instance decidableGuarded (guard : σ → ε → Prop) [∀ s event, Decidable (guard s event)] :
    (s : σ) → (events : List ε) → Decidable (Guarded step guard s events)
  | _, [] => isTrue trivial
  | s, event :: rest =>
      match h : step s event with
      | none =>
          decidable_of_iff (guard s event) ⟨fun hg => ⟨hg, fun s' hs => by rw [h] at hs; cases hs⟩,
            fun hg => hg.1⟩
      | some s' =>
          have := decidableGuarded guard s' rest
          decidable_of_iff (guard s event ∧ Guarded step guard s' rest)
            ⟨fun hg => ⟨hg.1, fun t ht => Option.some.inj (h.symm.trans ht) ▸ hg.2⟩,
              fun hg => ⟨hg.1, hg.2 s' h⟩⟩

variable {step} {guard : σ → ε → Prop} {s s' : σ} {events : List ε}

@[simp] theorem runEvents_nil (s : σ) : runEvents step s [] = some s := rfl

@[simp] theorem runEvents_cons (s : σ) (event : ε) (rest : List ε) :
    runEvents step s (event :: rest) = (step s event).bind fun s' => runEvents step s' rest := rfl

theorem run_invariant_guarded (inv : σ → Prop)
    (hstep : ∀ s event s', inv s → guard s event → step s event = some s' → inv s')
    (hg : Guarded step guard s events) (hs : inv s) (h : runEvents step s events = some s') : inv s' := by
  induction events generalizing s with
  | nil =>
      cases h
      exact hs
  | cons event rest ih =>
      obtain ⟨next, hn, hr⟩ := Option.bind_eq_some_iff.mp h
      exact ih (hg.2 next hn) (hstep s event next hs hg.1 hn) hr

theorem guarded_of_forall {allowed : ε → Prop} (h : ∀ event ∈ events, allowed event) (s : σ) :
    Guarded step (fun _ event => allowed event) s events := by
  induction events generalizing s with
  | nil => trivial
  | cons event rest ih =>
      exact ⟨h event List.mem_cons_self,
        fun s' _ => ih (fun other ho => h other (List.mem_cons_of_mem _ ho)) s'⟩

theorem guarded_true (s : σ) (events : List ε) : Guarded step (fun _ _ => True) s events :=
  guarded_of_forall (fun _ _ => trivial) s

theorem guarded_and {other : σ → ε → Prop} (h : Guarded step guard s events)
    (h' : Guarded step other s events) :
    Guarded step (fun s event => guard s event ∧ other s event) s events := by
  induction events generalizing s with
  | nil => trivial
  | cons event rest ih => exact ⟨⟨h.1, h'.1⟩, fun s' hs => ih (h.2 s' hs) (h'.2 s' hs)⟩

-- The rule for runs over a fixed set of events.
theorem run_invariant (inv : σ → Prop) {allowed : ε → Prop}
    (hstep : ∀ s event s', inv s → allowed event → step s event = some s' → inv s')
    (hall : ∀ event ∈ events, allowed event) (hs : inv s) (h : runEvents step s events = some s') :
    inv s' :=
  run_invariant_guarded inv hstep (guarded_of_forall hall s) hs h

theorem visits_mono {p q : σ → Prop} (hpq : ∀ s, p s → q s) (h : Visits step p s events) :
    Visits step q s events := by
  induction events generalizing s with
  | nil => exact hpq s h
  | cons event rest ih => exact ⟨hpq s h.1, fun s' hs => ih (h.2 s' hs)⟩

theorem visits_of_guarded (inv p : σ → Prop) (hp : ∀ s, inv s → p s)
    (hstep : ∀ s event s', inv s → guard s event → step s event = some s' → inv s')
    (hs : inv s) (hg : Guarded step guard s events) : Visits step p s events := by
  induction events generalizing s with
  | nil => exact hp s hs
  | cons event rest ih =>
      exact ⟨hp s hs, fun s' h => ih (hstep s event s' hs hg.1 h) (hg.2 s' h)⟩

-- What the invariant makes of the guard holds at every step too.
theorem guarded_of_invariant (inv : σ → Prop) {other : σ → ε → Prop}
    (himp : ∀ s event, inv s → guard s event → other s event)
    (hstep : ∀ s event s', inv s → guard s event → step s event = some s' → inv s')
    (hs : inv s) (hg : Guarded step guard s events) : Guarded step other s events := by
  induction events generalizing s with
  | nil => trivial
  | cons event rest ih =>
      exact ⟨himp s event hs hg.1, fun s' h => ih (hstep s event s' hs hg.1 h) (hg.2 s' h)⟩

-- Where a step outside the guard breaks the predicate at once, the guard is
-- exactly what a run needs.
theorem guarded_of_visits (inv p : σ → Prop) {allowed : ε → Prop}
    (hstep : ∀ s event s', inv s → allowed event → guard s event → step s event = some s' → inv s')
    (hbreak : ∀ s event, inv s → allowed event → ¬guard s event →
      ∃ s', step s event = some s' ∧ ¬p s')
    (hall : ∀ event ∈ events, allowed event) (hs : inv s) (hv : Visits step p s events) :
    Guarded step guard s events := by
  induction events generalizing s with
  | nil => trivial
  | cons event rest ih =>
      have hfirst : ∀ s', step s event = some s' → p s' := by
        intro s' h
        have hrest := hv.2 s' h
        cases rest with
        | nil => exact hrest
        | cons other rest => exact hrest.1
      have hguard : guard s event := by
        by_contra hn
        obtain ⟨s', h, hp⟩ := hbreak s event hs (hall event List.mem_cons_self) hn
        exact hp (hfirst s' h)
      refine ⟨hguard, fun s' h => ih (fun other ho => hall other (List.mem_cons_of_mem _ ho))
        ?_ (hv.2 s' h)⟩
      exact hstep s event s' hs (hall event List.mem_cons_self) hguard h

end Foundation
