import SleepyPenguin.Foundation.Lists
import SleepyPenguin.Foundation.Program

-- Programs of which others run at the same time, one command after another in
-- any order.
namespace Foundation.Prog

variable {C : Type → Type} {ε α β σ : Type}

-- Partial correctness next to others. Before each command the state may have
-- moved along what the program relies on there; the command then meets the
-- guard. A run that comes to its end does so in `post` or in `fail`.
def Along (exec : (β : Type) → σ → C β → Option (β × σ)) (rely : (β : Type) → C β → σ → σ → Prop)
    (guard : (β : Type) → σ → C β → Prop) (post : α → σ → Prop) (fail : ε → σ → Prop) :
    Prog C ε α → σ → Prop
  | .pure value, state => post value state
  | .raise error, state => fail error state
  | .cmd command rest, state => ∀ state', rely _ command state state' →
      guard _ state' command ∧
        ∀ step, exec _ state' command = some step → (rest step.1).Along exec rely guard post fail step.2

section Along

variable {exec : (β : Type) → σ → C β → Option (β × σ)} {rely : (β : Type) → C β → σ → σ → Prop}
  {guard : (β : Type) → σ → C β → Prop}

theorem along_mono {post post' : α → σ → Prop} {fail fail' : ε → σ → Prop} {program : Prog C ε α}
    {state : σ} (h : Along exec rely guard post fail program state)
    (hpost : ∀ value s, post value s → post' value s) (hfail : ∀ error s, fail error s → fail' error s) :
    Along exec rely guard post' fail' program state := by
  induction program generalizing state with
  | pure value => exact hpost value state h
  | raise error => exact hfail error state h
  | cmd command rest ih =>
      intro state' hr
      obtain ⟨hg, hstep⟩ := h state' hr
      exact ⟨hg, fun step hs => ih step.1 (hstep step hs)⟩

theorem along_handle (post : β → σ → Prop) (fail : ε → σ → Prop) (program : Prog C ε α)
    (next : Except ε α → Prog C ε β) (state : σ) :
    Along exec rely guard post fail (program.handle next) state ↔
      Along exec rely guard (fun value s => Along exec rely guard post fail (next (.ok value)) s)
        (fun error s => Along exec rely guard post fail (next (.error error)) s) program state := by
  induction program generalizing state with
  | pure value => rfl
  | raise error => rfl
  | cmd command rest ih => simp only [handle, Along, ih]

@[simp] theorem along_bind (post : β → σ → Prop) (fail : ε → σ → Prop) (program : Prog C ε α)
    (next : α → Prog C ε β) (state : σ) :
    Along exec rely guard post fail (program >>= next) state ↔
      Along exec rely guard (fun value s => Along exec rely guard post fail (next value) s) fail
        program state :=
  along_handle post fail program _ state

@[simp] theorem along_rescue (post : α → σ → Prop) (fail : ε → σ → Prop) (program : Prog C ε α)
    (handler : ε → Prog C ε α) (state : σ) :
    Along exec rely guard post fail (program.rescue handler) state ↔
      Along exec rely guard post (fun error s => Along exec rely guard post fail (handler error) s)
        program state :=
  along_handle post fail program _ state

@[simp] theorem along_ofExcept (post : α → σ → Prop) (fail : ε → σ → Prop) (outcome : Except ε α)
    (state : σ) :
    Along exec rely guard post fail (ofExcept outcome) state ↔ Ends post fail (outcome, state) := by
  cases outcome <;> rfl

@[simp] theorem along_ensure (post : α → σ → Prop) (fail : ε → σ → Prop) (program : Prog C ε α)
    (cleanup : Prog C ε Unit) (state : σ) :
    Along exec rely guard post fail (program.ensure cleanup) state ↔
      Along exec rely guard
        (fun value s => Along exec rely guard (fun _ t => post value t) fail cleanup s)
        (fun error s => Along exec rely guard (fun _ t => fail error t) fail cleanup s)
        program state := by
  have hbind : ∀ (outcome : Except ε α) (s : σ),
      Along exec rely guard post fail (cleanup.bind fun _ => ofExcept outcome) s ↔
        Along exec rely guard (fun _ t => Ends post fail (outcome, t)) fail cleanup s := by
    intro outcome s
    refine (along_handle post fail cleanup _ s).trans ?_
    simp only [along_ofExcept]
    rfl
  refine (along_handle post fail program _ state).trans ?_
  simp only [hbind, ends_ok, ends_error]

theorem along_perform {post : α → σ → Prop} {fail : ε → σ → Prop} {command : C α} {state : σ} :
    Along exec rely guard post fail (perform command) state ↔
      ∀ state', rely _ command state state' → guard _ state' command ∧
        ∀ step, exec _ state' command = some step → post step.1 step.2 := Iff.rfl

theorem along_attempt {post : α → σ → Prop} {fail : ε → σ → Prop} {command : C (Except ε α)} {state : σ} :
    Along exec rely guard post fail (attempt command) state ↔
      ∀ state', rely _ command state state' → guard _ state' command ∧
        ∀ step, exec _ state' command = some step → Ends post fail step := by
  simp only [attempt, Along, along_ofExcept]

-- The rules for loops.
theorem along_each (inv : σ → Prop) {fail : ε → σ → Prop} {items : List β}
    {body : β → Prog C ε Unit} {state : σ} (h : inv state)
    (hbody : ∀ item ∈ items, ∀ s, inv s → Along exec rely guard (fun _ t => inv t) fail (body item) s) :
    Along exec rely guard (fun _ t => inv t) fail (each items body) state := by
  induction items generalizing state with
  | nil => exact h
  | cons item rest ih =>
      refine (along_handle _ _ (body item) _ state).mpr
        (along_mono (hbody item List.mem_cons_self state h) ?_ ?_)
      · intro _ s hs
        exact ih hs fun other ho => hbody other (List.mem_cons_of_mem _ ho)
      · exact fun _ _ hf => hf

theorem along_replicate (inv : Nat → σ → Prop) {fail : ε → σ → Prop} {count : Nat}
    {body : Prog C ε Unit} {state : σ} (h : inv count state)
    (hbody : ∀ n s, inv (n + 1) s → Along exec rely guard (fun _ t => inv n t) fail body s) :
    Along exec rely guard (fun _ t => inv 0 t) fail (replicate count body) state := by
  induction count generalizing state with
  | zero => exact h
  | succ count ih =>
      refine (along_handle _ _ body _ state).mpr (along_mono (hbody count state h) ?_ ?_)
      · exact fun _ s hs => ih hs
      · exact fun _ _ hf => hf

-- With nothing else running, every command of the run meets the guard.
theorem Along.guarded {post : α → σ → Prop} {fail : ε → σ → Prop} {program : Prog C ε α} {state : σ}
    (inv : σ → Prop) (hrely : ∀ (β : Type) (command : C β) (s : σ), inv s → rely β command s s)
    (hcmd : ∀ (β : Type) (s : σ) (command : C β) (step : β × σ), inv s → guard β s command →
      exec β s command = some step → inv step.2)
    (h : Along exec rely guard post fail program state) (hs : inv state) :
    program.Guarded exec guard state := by
  induction program generalizing state with
  | pure value => trivial
  | raise error => trivial
  | cmd command rest ih =>
      obtain ⟨hg, hstep⟩ := h state (hrely _ command state hs)
      exact ⟨hg, fun step he => ih step.1 (hstep step he) (hcmd _ _ _ _ hs hg he)⟩

-- A guard on what the state projects to, and commands that respect it.
theorem Guarded.project {τ : Type} {fine : (β : Type) → τ → C β → Option (β × τ)} (proj : τ → σ)
    (hfine : ∀ (β : Type) (state : τ) (command : C β),
      (fine β state command).map (fun step => (step.1, proj step.2)) = exec β (proj state) command)
    {program : Prog C ε α} {state : τ}
    (h : program.Guarded fine (fun β t command => guard β (proj t) command) state) :
    program.Guarded exec guard (proj state) := by
  induction program generalizing state with
  | pure value => trivial
  | raise error => trivial
  | cmd command rest ih =>
      refine ⟨h.1, fun step hstep => ?_⟩
      rw [← hfine] at hstep
      obtain ⟨before, hbefore, rfl⟩ := Option.map_eq_some_iff.mp hstep
      exact ih before.1 (h.2 before hbefore)

-- A program that waits for its turn while the state moves.
theorem Along.later {program : Prog C ε α} {state state' : σ}
    (htrans : ∀ (β : Type) (command : C β) (a b c : σ), rely β command a b → rely β command b c →
      rely β command a c)
    (h : Along exec rely guard (fun _ _ => True) (fun _ _ => True) program state)
    (hr : ∀ (β : Type) (command : C β) (rest : β → Prog C ε α), program = .cmd command rest →
      rely β command state state') :
    Along exec rely guard (fun _ _ => True) (fun _ _ => True) program state' := by
  cases program with
  | pure value => trivial
  | raise error => trivial
  | cmd command rest => exact fun s hs => h s (htrans _ _ _ _ _ (hr _ command rest rfl) hs)

end Along

section Spec

variable (exec : (β : Type) → σ → C β → Option (β × σ)) (rely : (β : Type) → C β → σ → σ → Prop)
  (guard : (β : Type) → σ → C β → Prop)

-- The program started in `pre` ends in `post` or in `fail`.
def Spec (pre : σ → Prop) (program : Prog C ε α) (post : α → σ → Prop) (fail : ε → σ → Prop) : Prop :=
  ∀ state, pre state → Along exec rely guard post fail program state

variable {exec rely guard} {pre : σ → Prop} {post : α → σ → Prop} {fail : ε → σ → Prop}

theorem spec_pure {value : α} (h : ∀ s, pre s → post value s) :
    Spec exec rely guard pre (Pure.pure value : Prog C ε α) post fail := h

theorem spec_raise {error : ε} (h : ∀ s, pre s → fail error s) :
    Spec exec rely guard pre (.raise error : Prog C ε α) post fail := h

theorem spec_mono {program : Prog C ε α} {P : σ → Prop} {Q : α → σ → Prop} {R : ε → σ → Prop}
    (h : Spec exec rely guard P program Q R) (hpre : ∀ s, pre s → P s)
    (hpost : ∀ value s, Q value s → post value s) (hfail : ∀ error s, R error s → fail error s) :
    Spec exec rely guard pre program post fail :=
  fun s hs => along_mono (h s (hpre s hs)) hpost hfail

theorem spec_bind {program : Prog C ε β} {next : β → Prog C ε α} {M : β → σ → Prop}
    (h : Spec exec rely guard pre program M fail)
    (hnext : ∀ value, Spec exec rely guard (M value) (next value) post fail) :
    Spec exec rely guard pre (program >>= next) post fail := by
  intro s hs
  rw [along_bind]
  exact along_mono (h s hs) (fun value s' hm => hnext value s' hm) fun _ _ hf => hf

theorem spec_rescue {program : Prog C ε α} {handler : ε → Prog C ε α} {M : ε → σ → Prop}
    (h : Spec exec rely guard pre program post M)
    (hhandler : ∀ error, Spec exec rely guard (M error) (handler error) post fail) :
    Spec exec rely guard pre (program.rescue handler) post fail := by
  intro s hs
  rw [along_rescue]
  exact along_mono (h s hs) (fun _ _ hp => hp) fun error s' hm => hhandler error s' hm

theorem spec_ofExcept {outcome : Except ε α} (hpost : ∀ value s, outcome = .ok value → pre s → post value s)
    (hfail : ∀ error s, outcome = .error error → pre s → fail error s) :
    Spec exec rely guard pre (.ofExcept outcome) post fail := by
  intro s hs
  rw [along_ofExcept]
  cases outcome with
  | error error => exact hfail error s rfl hs
  | ok value => exact hpost value s rfl hs

-- The cleanup leads from what the program ends in to what the whole ends in.
theorem spec_ensure {program : Prog C ε α} {cleanup : Prog C ε Unit} {Q : α → σ → Prop}
    {R : ε → σ → Prop} (h : Spec exec rely guard pre program Q R)
    (hpost : ∀ value, Spec exec rely guard (Q value) cleanup (fun _ s => post value s) fail)
    (hfail : ∀ error, Spec exec rely guard (R error) cleanup (fun _ s => fail error s) fail) :
    Spec exec rely guard pre (program.ensure cleanup) post fail := by
  intro s hs
  rw [along_ensure]
  exact along_mono (h s hs) (fun value s' hp => hpost value s' hp) fun error s' hf => hfail error s' hf

end Spec

section Pool

variable (exec : Nat → (β : Type) → σ → C β → Option (β × σ))
  (rely : Nat → (β : Type) → C β → σ → σ → Prop) (guard : Nat → (β : Type) → σ → C β → Prop)

-- Program `i` of a pool performs its next command.
def advance (pool : List (Prog C ε α)) (i : Nat) (state : σ) : Option (List (Prog C ε α) × σ) :=
  match pool[i]? with
  | some (.cmd command rest) =>
      (exec i _ state command).map fun step => (pool.set i (rest step.1), step.2)
  | _ => none

-- Whatever the order of the commands, each of them will meet its guard.
def Steady (pool : List (Prog C ε α)) (state : σ) : Prop :=
  ∀ (i : Nat) (program : Prog C ε α), pool[i]? = some program →
    Along (exec i) (rely i) (guard i) (fun _ _ => True) (fun _ _ => True) program state

variable {exec rely guard} {pool pool' : List (Prog C ε α)} {i : Nat} {state state' : σ}

theorem advance_cases (h : advance exec pool i state = some (pool', state')) :
    ∃ (β : Type) (command : C β) (rest : β → Prog C ε α) (answer : β),
      pool[i]? = some (.cmd command rest) ∧ exec i β state command = some (answer, state') ∧
        pool' = pool.set i (rest answer) := by
  unfold advance at h
  split at h
  · rename_i β command rest hget
    obtain ⟨⟨answer, next⟩, hstep, heq⟩ := Option.map_eq_some_iff.mp h
    cases heq
    exact ⟨β, command, rest, answer, hget, hstep, rfl⟩
  · cases h

theorem Steady.later
    (htrans : ∀ (j : Nat) (β : Type) (command : C β) (a b c : σ), rely j β command a b →
      rely j β command b c → rely j β command a c)
    (h : Steady exec rely guard pool state)
    (hr : ∀ (j : Nat) (β : Type) (command : C β), rely j β command state state') :
    Steady exec rely guard pool state' :=
  fun j program hj => (h j program hj).later (htrans j) fun β command _ _ => hr j β command

-- A program that joins the pool.
theorem Steady.concat (h : Steady exec rely guard pool state) {program : Prog C ε α}
    (hnew : Along (exec pool.length) (rely pool.length) (guard pool.length) (fun _ _ => True)
      (fun _ _ => True) program state) : Steady exec rely guard (pool ++ [program]) state := by
  intro j other hj
  rcases List.getElem?_concat_cases hj with hj | ⟨rfl, rfl⟩
  · exact h j other hj
  · exact hnew

-- The command that program `i` performs next meets its guard.
theorem Steady.guarded (h : Steady exec rely guard pool state) {β : Type} {command : C β}
    {rest : β → Prog C ε α} (hi : pool[i]? = some (.cmd command rest))
    (hself : rely i β command state state) :
    guard i β state command :=
  (h i _ hi state hself).1

-- A command that moves the state along what the others rely on leaves the pool
-- steady.
theorem Steady.advance
    (htrans : ∀ (j : Nat) (β : Type) (command : C β) (a b c : σ), rely j β command a b →
      rely j β command b c → rely j β command a c)
    (h : Steady exec rely guard pool state) {β : Type} {command : C β} {rest : β → Prog C ε α}
    {answer : β} (hi : pool[i]? = some (.cmd command rest)) (hself : rely i β command state state)
    (hstep : exec i β state command = some (answer, state'))
    (hothers : ∀ (j : Nat) (γ : Type) (other : C γ), j ≠ i → rely j γ other state state') :
    Steady exec rely guard (pool.set i (rest answer)) state' := by
  have hrest := (h i _ hi state hself).2 _ hstep
  intro j program hj
  rw [List.getElem?_set] at hj
  split at hj
  · rename_i heq
    subst heq
    split at hj
    · cases hj
      exact hrest
    · cases hj
  · rename_i hne
    exact (h j program hj).later (htrans j) fun γ other _ _ => hothers j γ other (Ne.symm hne)

end Pool

end Foundation.Prog
