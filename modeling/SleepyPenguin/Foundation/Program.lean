import Mathlib.Logic.Basic
import Mathlib.Data.List.Basic

namespace Foundation

-- A program over a signature `C` of atomic commands. A command answers a
-- value on which the rest of the program depends, so that the same text can
-- be run to its end or one command at a time.
inductive Prog (C : Type → Type) (ε α : Type) : Type 1
  | pure (value : α)
  | raise (error : ε)
  | cmd {β : Type} (command : C β) (rest : β → Prog C ε α)

namespace Prog

variable {C : Type → Type} {ε α β σ : Type}

-- Continue on either outcome. Sequencing, rescuing and ensuring are its cases.
def handle (program : Prog C ε α) (next : Except ε α → Prog C ε β) : Prog C ε β :=
  match program with
  | .pure value => next (.ok value)
  | .raise error => next (.error error)
  | .cmd command rest => .cmd command fun answer => (rest answer).handle next

def ofExcept : Except ε α → Prog C ε α
  | .ok value => .pure value
  | .error error => .raise error

def bind (program : Prog C ε α) (next : α → Prog C ε β) : Prog C ε β :=
  program.handle fun
    | .ok value => next value
    | .error error => .raise error

instance : Monad (Prog C ε) where
  pure := .pure
  bind := .bind

def rescue (program : Prog C ε α) (handler : ε → Prog C ε α) : Prog C ε α :=
  program.handle fun
    | .ok value => .pure value
    | .error error => handler error

-- The cleanup runs on both outcomes; an error of its own replaces the outcome.
def ensure (program : Prog C ε α) (cleanup : Prog C ε Unit) : Prog C ε α :=
  program.handle fun outcome => cleanup.bind fun _ => ofExcept outcome

def perform (command : C α) : Prog C ε α := .cmd command .pure

-- A command whose answer may be an error that the program then raises.
def attempt (command : C (Except ε α)) : Prog C ε α := .cmd command ofExcept

def each (items : List β) (body : β → Prog C ε Unit) : Prog C ε Unit :=
  match items with
  | [] => .pure ()
  | item :: rest => (body item).bind fun _ => each rest body

def replicate (count : Nat) (body : Prog C ε Unit) : Prog C ε Unit :=
  match count with
  | 0 => .pure ()
  | count + 1 => body.bind fun _ => replicate count body

section Run

variable (exec : (β : Type) → σ → C β → Option (β × σ))

-- An outcome and the state it was reached in, against the two assertions.
def Ends (post : α → σ → Prop) (fail : ε → σ → Prop) : Except ε α × σ → Prop
  | (.ok value, state) => post value state
  | (.error error, state) => fail error state

-- Run to the end with nothing else running; `none` where a command is not
-- enabled.
def run : Prog C ε α → σ → Option (Except ε α × σ)
  | .pure value, state => some (.ok value, state)
  | .raise error, state => some (.error error, state)
  | .cmd command rest, state => (exec _ state command).bind fun step => (rest step.1).run step.2

-- Total weakest precondition: no command gets stuck, and the run ends in
-- `post` when it returns and in `fail` when it raises.
def wp (post : α → σ → Prop) (fail : ε → σ → Prop) : Prog C ε α → σ → Prop
  | .pure value, state => post value state
  | .raise error, state => fail error state
  | .cmd command rest, state =>
      ∃ step, exec _ state command = some step ∧ (rest step.1).wp post fail step.2

-- Every command of the run meets the guard in the state it is taken from.
def Guarded (guard : (β : Type) → σ → C β → Prop) : Prog C ε α → σ → Prop
  | .pure _, _ => True
  | .raise _, _ => True
  | .cmd command rest, state =>
      guard _ state command ∧
        ∀ step, exec _ state command = some step → (rest step.1).Guarded guard step.2

variable {exec}

@[simp] theorem ends_ok (post : α → σ → Prop) (fail : ε → σ → Prop) (value : α) (state : σ) :
    Ends post fail (.ok value, state) ↔ post value state := Iff.rfl

@[simp] theorem ends_error (post : α → σ → Prop) (fail : ε → σ → Prop) (error : ε) (state : σ) :
    Ends post fail (.error error, state) ↔ fail error state := Iff.rfl

theorem ends_mono {post post' : α → σ → Prop} {fail fail' : ε → σ → Prop}
    {result : Except ε α × σ} (h : Ends post fail result)
    (hpost : ∀ value s, post value s → post' value s)
    (hfail : ∀ error s, fail error s → fail' error s) : Ends post' fail' result := by
  rcases result with ⟨_ | _, state⟩
  · exact hfail _ _ h
  · exact hpost _ _ h

-- A state that is as it should be however the run ended.
theorem ends_same {p : σ → Prop} {result : Except ε α × σ}
    (h : Ends (fun _ s => p s) (fun _ s => p s) result) : p result.2 := by
  rcases result with ⟨_ | _, state⟩
  · exact h
  · exact h

theorem ends_of_same {p : σ → Prop} {result : Except ε α × σ} (h : p result.2) :
    Ends (fun _ s => p s) (fun _ s => p s) result := by
  rcases result with ⟨_ | _, state⟩
  · exact h
  · exact h

@[simp] theorem wp_pure (post : α → σ → Prop) (fail : ε → σ → Prop) (value : α) (state : σ) :
    wp exec post fail (.pure value) state ↔ post value state := Iff.rfl

@[simp] theorem wp_raise (post : α → σ → Prop) (fail : ε → σ → Prop) (error : ε) (state : σ) :
    wp exec post fail (.raise error) state ↔ fail error state := Iff.rfl

@[simp] theorem wp_ofExcept (post : α → σ → Prop) (fail : ε → σ → Prop)
    (outcome : Except ε α) (state : σ) :
    wp exec post fail (ofExcept outcome) state ↔ Ends post fail (outcome, state) := by
  cases outcome <;> rfl

theorem wp_cmd (post : α → σ → Prop) (fail : ε → σ → Prop) (command : C β)
    (rest : β → Prog C ε α) (state : σ) (step : β × σ) (h : exec _ state command = some step) :
    wp exec post fail (.cmd command rest) state ↔ wp exec post fail (rest step.1) step.2 := by
  simp [wp, h]

-- A command that is always enabled, and one that depends on a lookup.
theorem wp_perform {post : α → σ → Prop} {fail : ε → σ → Prop} {command : C α} {state : σ} {step : α × σ}
    (h : exec _ state command = some step) :
    wp exec post fail (perform command) state ↔ post step.1 step.2 :=
  wp_cmd post fail command .pure state step h

theorem wp_perform_map {γ : Type} {post : α → σ → Prop} {fail : ε → σ → Prop} {command : C α} {state : σ}
    {found : Option γ} {next : γ → α × σ} (h : exec _ state command = found.map next) :
    wp exec post fail (perform command) state ↔ ∃ x, found = some x ∧ post (next x).1 (next x).2 := by
  simp only [perform, wp, h, Option.map_eq_some_iff, exists_exists_and_eq_and]

-- The same for a command whose answer may be an error.
theorem wp_attempt {post : α → σ → Prop} {fail : ε → σ → Prop} {command : C (Except ε α)} {state : σ} :
    wp exec post fail (attempt command) state ↔
      ∃ step, exec _ state command = some step ∧ Ends post fail step := by
  simp only [attempt, wp, wp_ofExcept]

theorem wp_attempt_map {γ : Type} {post : α → σ → Prop} {fail : ε → σ → Prop} {command : C (Except ε α)}
    {state : σ} {found : Option γ} {next : γ → Except ε α × σ} (h : exec _ state command = found.map next) :
    wp exec post fail (attempt command) state ↔ ∃ x, found = some x ∧ Ends post fail (next x) := by
  simp only [wp_attempt, h, Option.map_eq_some_iff, exists_exists_and_eq_and]

theorem wp_attempt_bind {γ δ : Type} {post : α → σ → Prop} {fail : ε → σ → Prop}
    {command : C (Except ε α)} {state : σ} {found : Option γ} {within : γ → Option δ}
    {next : γ → δ → Except ε α × σ}
    (h : exec _ state command = found.bind fun x => (within x).map (next x)) :
    wp exec post fail (attempt command) state ↔
      ∃ x, found = some x ∧ ∃ y, within x = some y ∧ Ends post fail (next x y) := by
  rw [wp_attempt, h]
  constructor
  · intro ⟨step, hstep, hend⟩
    obtain ⟨x, hx, hwithin⟩ := Option.bind_eq_some_iff.mp hstep
    obtain ⟨y, hy, rfl⟩ := Option.map_eq_some_iff.mp hwithin
    exact ⟨x, hx, y, hy, hend⟩
  · intro ⟨x, hx, y, hy, hend⟩
    refine ⟨_, Option.bind_eq_some_iff.mpr ⟨x, hx, ?_⟩, hend⟩
    exact Option.map_eq_some_iff.mpr ⟨y, hy, rfl⟩

theorem wp_handle (post : β → σ → Prop) (fail : ε → σ → Prop) (program : Prog C ε α)
    (next : Except ε α → Prog C ε β) (state : σ) :
    wp exec post fail (program.handle next) state ↔
      wp exec (fun value s => wp exec post fail (next (.ok value)) s)
        (fun error s => wp exec post fail (next (.error error)) s) program state := by
  induction program generalizing state with
  | pure value => rfl
  | raise error => rfl
  | cmd command rest ih => simp only [handle, wp, ih]

@[simp] theorem wp_bind (post : β → σ → Prop) (fail : ε → σ → Prop) (program : Prog C ε α)
    (next : α → Prog C ε β) (state : σ) :
    wp exec post fail (program.bind next) state ↔
      wp exec (fun value s => wp exec post fail (next value) s) fail program state :=
  wp_handle post fail program _ state

@[simp] theorem wp_monad_bind (post : β → σ → Prop) (fail : ε → σ → Prop) (program : Prog C ε α)
    (next : α → Prog C ε β) (state : σ) :
    wp exec post fail (program >>= next) state ↔
      wp exec (fun value s => wp exec post fail (next value) s) fail program state :=
  wp_handle post fail program _ state

@[simp] theorem wp_monad_pure (post : α → σ → Prop) (fail : ε → σ → Prop) (value : α) (state : σ) :
    wp exec post fail (Pure.pure value) state ↔ post value state := Iff.rfl

@[simp] theorem wp_rescue (post : α → σ → Prop) (fail : ε → σ → Prop) (program : Prog C ε α)
    (handler : ε → Prog C ε α) (state : σ) :
    wp exec post fail (program.rescue handler) state ↔
      wp exec post (fun error s => wp exec post fail (handler error) s) program state :=
  wp_handle post fail program _ state

@[simp] theorem wp_ensure (post : α → σ → Prop) (fail : ε → σ → Prop) (program : Prog C ε α)
    (cleanup : Prog C ε Unit) (state : σ) :
    wp exec post fail (program.ensure cleanup) state ↔
      wp exec (fun value s => wp exec (fun _ t => post value t) fail cleanup s)
        (fun error s => wp exec (fun _ t => fail error t) fail cleanup s) program state := by
  simp [ensure, wp_handle]

theorem wp_mono {post post' : α → σ → Prop} {fail fail' : ε → σ → Prop} {program : Prog C ε α}
    {state : σ} (h : wp exec post fail program state)
    (hpost : ∀ value s, post value s → post' value s)
    (hfail : ∀ error s, fail error s → fail' error s) :
    wp exec post' fail' program state := by
  induction program generalizing state with
  | pure value => exact hpost value state h
  | raise error => exact hfail error state h
  | cmd command rest ih =>
      obtain ⟨step, hs, hr⟩ := h
      exact ⟨step, hs, ih step.1 hr⟩

-- The rule for a loop over a list: its body keeps the invariant.
theorem wp_each (inv : σ → Prop) {fail : ε → σ → Prop} {items : List β}
    {body : β → Prog C ε Unit} {state : σ} (h : inv state)
    (hbody : ∀ item ∈ items, ∀ s, inv s → wp exec (fun _ t => inv t) fail (body item) s) :
    wp exec (fun _ t => inv t) fail (each items body) state := by
  induction items generalizing state with
  | nil => exact h
  | cons item rest ih =>
      simp only [each, wp_bind]
      apply wp_mono (hbody item List.mem_cons_self state h)
      · intro _ s hs
        exact ih hs fun other ho => hbody other (List.mem_cons_of_mem _ ho)
      · exact fun _ _ hf => hf

-- The rule for a counted loop: the invariant may mention what is left to do.
theorem wp_replicate (inv : Nat → σ → Prop) {fail : ε → σ → Prop} {count : Nat}
    {body : Prog C ε Unit} {state : σ} (h : inv count state)
    (hbody : ∀ n s, inv (n + 1) s → wp exec (fun _ t => inv n t) fail body s) :
    wp exec (fun _ t => inv 0 t) fail (replicate count body) state := by
  induction count generalizing state with
  | zero => exact h
  | succ count ih =>
      simp only [replicate, wp_bind]
      exact wp_mono (hbody count state h) (fun _ s hs => ih hs) (fun _ _ hf => hf)

-- The weakest precondition says exactly what the run does.
theorem wp_iff_run (post : α → σ → Prop) (fail : ε → σ → Prop) (program : Prog C ε α) (state : σ) :
    wp exec post fail program state ↔
      ∃ result, run exec program state = some result ∧ Ends post fail result := by
  induction program generalizing state with
  | pure value => simp [run, Ends]
  | raise error => simp [run, Ends]
  | cmd command rest ih =>
      simp only [wp, run, ih, Option.bind_eq_some_iff]
      constructor
      · rintro ⟨step, hs, result, hr, hp⟩
        exact ⟨result, ⟨step, hs, hr⟩, hp⟩
      · rintro ⟨result, ⟨step, hs, hr⟩, hp⟩
        exact ⟨step, hs, result, hr, hp⟩

-- Running a program in parts, where parts of it may get stuck.
theorem run_handle (program : Prog C ε α) (next : Except ε α → Prog C ε β) (state : σ) :
    run exec (program.handle next) state =
      (run exec program state).bind fun result => run exec (next result.1) result.2 := by
  induction program generalizing state with
  | pure value => rfl
  | raise error => rfl
  | cmd command rest ih =>
      simp only [handle, run, Option.bind_assoc, ih]

theorem run_bind_ok {program : Prog C ε α} {next : α → Prog C ε β} {state state' : σ} {value : α}
    (h : run exec program state = some (.ok value, state')) :
    run exec (program >>= next) state = run exec (next value) state' :=
  (run_handle program _ state).trans (by rw [h]; rfl)

theorem run_bind_error {program : Prog C ε α} {next : α → Prog C ε β} {state state' : σ} {error : ε}
    (h : run exec program state = some (.error error, state')) :
    run exec (program >>= next) state = some (.error error, state') :=
  (run_handle program _ state).trans (by rw [h]; rfl)

theorem run_bind_none {program : Prog C ε α} {next : α → Prog C ε β} {state : σ}
    (h : run exec program state = none) : run exec (program >>= next) state = none :=
  (run_handle program _ state).trans (by rw [h]; rfl)

-- What a sequence that returned went through, and a rescue.
theorem run_bind_cases {program : Prog C ε α} {next : α → Prog C ε β} {state state' : σ} {value : β}
    (h : run exec (program >>= next) state = some (.ok value, state')) :
    ∃ first middle, run exec program state = some (.ok first, middle) ∧
      run exec (next first) middle = some (.ok value, state') := by
  obtain ⟨⟨error | first, middle⟩, hp, hnext⟩ :=
    Option.bind_eq_some_iff.mp ((run_handle program _ state).symm.trans h)
  · cases hnext
  · exact ⟨first, middle, hp, hnext⟩

theorem run_rescue_cases {program : Prog C ε α} {handler : ε → Prog C ε α} {state state' : σ} {value : α}
    (h : run exec (program.rescue handler) state = some (.ok value, state')) :
    run exec program state = some (.ok value, state') ∨
      ∃ error middle, run exec program state = some (.error error, middle) ∧
        run exec (handler error) middle = some (.ok value, state') := by
  obtain ⟨⟨error | first, middle⟩, hp, hnext⟩ :=
    Option.bind_eq_some_iff.mp ((run_handle program _ state).symm.trans h)
  · exact Or.inr ⟨error, middle, hp, hnext⟩
  · cases hnext
    exact Or.inl hp

theorem wp_iff_ends {post : α → σ → Prop} {fail : ε → σ → Prop} {program : Prog C ε α} {state : σ}
    {result : Except ε α × σ} (h : run exec program state = some result) :
    wp exec post fail program state ↔ Ends post fail result := by
  rw [wp_iff_run, h]
  constructor
  · rintro ⟨other, ho, hend⟩
    cases ho
    exact hend
  · intro hend
    exact ⟨result, rfl, hend⟩

-- A run, by its weakest precondition.
theorem run_iff_wp {program : Prog C ε α} {state : σ} {result : Except ε α × σ} :
    run exec program state = some result ↔
      wp exec (fun v s => (.ok v, s) = result) (fun e s => (.error e, s) = result) program state := by
  have hends : ∀ r : Except ε α × σ,
      Ends (fun v s => (Except.ok v, s) = result) (fun e s => (Except.error e, s) = result) r ↔
        r = result := by
    intro r
    rcases r with ⟨_ | _, _⟩ <;> rfl
  simp only [wp_iff_run, hends, exists_eq_right]

theorem run_ok_iff_wp {program : Prog C ε α} {state state' : σ} {value : α} :
    run exec program state = some (.ok value, state') ↔
      wp exec (fun v s => v = value ∧ s = state') (fun _ _ => False) program state := by
  simp only [run_iff_wp, Prod.mk.injEq, Except.ok.injEq, reduceCtorEq, false_and]

-- A run that ends in `Q`, however it does or with a given outcome.
theorem exists_run_iff_wp {program : Prog C ε α} {state : σ} {Q : σ → Prop} :
    (∃ outcome state', run exec program state = some (outcome, state') ∧ Q state') ↔
      wp exec (fun _ s => Q s) (fun _ s => Q s) program state := by
  rw [wp_iff_run]
  constructor
  · rintro ⟨outcome, state', hr, hq⟩
    exact ⟨(outcome, state'), hr, ends_of_same hq⟩
  · rintro ⟨⟨outcome, state'⟩, hr, hend⟩
    exact ⟨outcome, state', hr, ends_same hend⟩

theorem exists_run_eq_iff_wp {program : Prog C ε α} {state : σ} {Q : σ → Prop} {outcome : Except ε α} :
    (∃ state', run exec program state = some (outcome, state') ∧ Q state') ↔
      wp exec (fun v s => .ok v = outcome ∧ Q s) (fun e s => .error e = outcome ∧ Q s) program state := by
  rw [wp_iff_run]
  constructor
  · rintro ⟨state', hr, hq⟩
    refine ⟨(outcome, state'), hr, ?_⟩
    cases outcome with
    | ok v => exact ⟨rfl, hq⟩
    | error e => exact ⟨rfl, hq⟩
  · rintro ⟨⟨e | v, state'⟩, hr, rfl, hq⟩
    · exact ⟨state', hr, hq⟩
    · exact ⟨state', hr, hq⟩

-- Two programs that meet the same assertions run alike.
theorem run_congr {program other : Prog C ε α} {state : σ}
    (h : ∀ (post : α → σ → Prop) (fail : ε → σ → Prop),
      wp exec post fail program state ↔ wp exec post fail other state) :
    run exec program state = run exec other state := by
  apply Option.ext
  intro result
  rw [run_iff_wp, run_iff_wp]
  exact h _ _

theorem wp_of_run {post : α → σ → Prop} {fail : ε → σ → Prop} {program : Prog C ε α} {state : σ}
    (h : wp exec post fail program state) {result : Except ε α × σ}
    (hr : run exec program state = some result) : Ends post fail result := by
  obtain ⟨result', hr', hp⟩ := (wp_iff_run post fail program state).mp h
  exact Option.some.inj (hr'.symm.trans hr) ▸ hp

-- The rule for a run whose commands keep an invariant under the guard.
theorem run_invariant_guarded (inv : σ → Prop) {guard : (β : Type) → σ → C β → Prop}
    (hcmd : ∀ (β : Type) (s : σ) (command : C β) (step : β × σ), inv s → guard β s command →
      exec β s command = some step → inv step.2)
    {program : Prog C ε α} {state : σ} {result : Except ε α × σ}
    (hg : program.Guarded exec guard state) (hs : inv state)
    (hr : run exec program state = some result) : inv result.2 := by
  induction program generalizing state with
  | pure value =>
      cases hr
      exact hs
  | raise error =>
      cases hr
      exact hs
  | cmd command rest ih =>
      obtain ⟨step, hstep, hrest⟩ := Option.bind_eq_some_iff.mp hr
      exact ih step.1 (hg.2 step hstep) (hcmd _ _ _ _ hs hg.1 hstep) hrest

end Run

end Prog

end Foundation
