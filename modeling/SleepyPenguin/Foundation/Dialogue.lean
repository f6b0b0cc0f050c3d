import SleepyPenguin.Foundation.Lists
import SleepyPenguin.Foundation.Run

-- Calls that go on at the same time, each of which makes one request after
-- another and goes on with whatever it is answered.
namespace Foundation

universe u

-- How a call begins, what it requests (`none` where it waits for no answer),
-- where an answer takes it (`none` for one that the request does not have), and
-- what it does by itself.
structure Dialogue (ι κ ρ α μ : Type u) where
  enter : ι → κ
  request : κ → Option ρ
  hear : κ → α → Option κ
  go : κ → μ → Option κ

-- A request, whose it was and what it was answered.
structure Exchange (ρ α : Type u) where
  call : Nat
  request : ρ
  answer : α
  deriving DecidableEq, Repr

-- Every call so far, and every request that has been answered.
structure Talks (κ ρ α : Type u) where
  calls : List κ
  log : List (Exchange ρ α)
  deriving DecidableEq, Repr

-- What may happen next: a call begins, hears an answer or goes on. The answer
-- is anybody's guess.
inductive Turn (ι α μ : Type u)
  | enter (x : ι)
  | answer (i : Nat) (a : α)
  | go (i : Nat) (m : μ)

variable {ι κ ρ α μ : Type u}

def Talks.start : Talks κ ρ α := ⟨[], []⟩

def Dialogue.step (d : Dialogue ι κ ρ α μ) (t : Talks κ ρ α) : Turn ι α μ → Option (Talks κ ρ α)
  | .enter x => some { t with calls := t.calls ++ [d.enter x] }
  | .answer i a =>
      t.calls[i]?.bind fun c =>
        (d.request c).bind fun r =>
          (d.hear c a).map fun c' => ⟨t.calls.set i c', t.log ++ [⟨i, r, a⟩]⟩
  | .go i m =>
      t.calls[i]?.bind fun c => (d.go c m).map fun c' => { t with calls := t.calls.set i c' }

-- What one call has said and heard, in its order.
def said (log : List (Exchange ρ α)) (i : Nat) : List (ρ × α) :=
  log.filterMap fun e => if e.call = i then some (e.request, e.answer) else none

theorem said_concat (log : List (Exchange ρ α)) (j i : Nat) (r : ρ) (a : α) :
    said (log ++ [⟨j, r, a⟩]) i = said log i ++ if j = i then [(r, a)] else [] := by
  rw [said, List.filterMap_append]
  congr 1
  by_cases hj : j = i <;> simp [hj]

-- Who has not begun has said nothing.
def Begun (t : Talks κ ρ α) : Prop := ∀ e ∈ t.log, e.call < t.calls.length

-- What every call is and has said belong together.
structure Told (good : κ → List (ρ × α) → Prop) (t : Talks κ ρ α) : Prop where
  begun : Begun t
  each : ∀ i c, t.calls[i]? = some c → good c (said t.log i)

-- What the steps of one call preserve, alone with whoever answers it.
structure Dialogue.Keeps (d : Dialogue ι κ ρ α μ) (good : κ → List (ρ × α) → Prop) : Prop where
  enter : ∀ x, good (d.enter x) []
  hear : ∀ c c' r a l, good c l → d.request c = some r → d.hear c a = some c' → good c' (l ++ [(r, a)])
  go : ∀ c c' m l, good c l → d.go c m = some c' → good c' l

section Keeps

variable {d : Dialogue ι κ ρ α μ} {good : κ → List (ρ × α) → Prop} {t t' : Talks κ ρ α} {i : Nat} {c' : κ}

theorem said_of_begun (h : Begun t) : said t.log t.calls.length = [] := by
  refine List.filterMap_eq_nil_iff.mpr fun e he => if_neg ?_
  exact Nat.ne_of_lt (h e he)

theorem Told.start (good : κ → List (ρ × α) → Prop) : Told good Talks.start := by
  refine ⟨?_, ?_⟩
  · intro e he
    cases he
  · intro i c hc
    cases hc

theorem Told.enter (h : Told good t) {c : κ} (hc : good c []) :
    Told good { t with calls := t.calls ++ [c] } := by
  refine ⟨fun e he => ?_, fun i b hb => ?_⟩
  · have hlt := h.begun e he
    simp only [List.length_append, List.length_singleton]
    omega
  · rcases List.getElem?_concat_cases hb with hb | ⟨rfl, rfl⟩
    · exact h.each i b hb
    · rw [said_of_begun h.begun]
      exact hc

theorem Told.go (h : Told good t) (hc : good c' (said t.log i)) :
    Told good { t with calls := t.calls.set i c' } := by
  refine ⟨fun e he => (List.length_set ..).symm ▸ h.begun e he, fun j b hb => ?_⟩
  rcases List.getElem?_set_cases hb with ⟨rfl, rfl⟩ | ⟨_, hb⟩
  · exact hc
  · exact h.each j b hb

-- Nobody else has heard the answer.
theorem Told.hear (h : Told good t) {c : κ} {r : ρ} {a : α} (hi : t.calls[i]? = some c)
    (hc : good c' (said t.log i ++ [(r, a)])) : Told good ⟨t.calls.set i c', t.log ++ [⟨i, r, a⟩]⟩ := by
  refine ⟨fun e he => ?_, fun j b hb => ?_⟩
  · rw [List.length_set]
    rcases List.mem_append.mp he with he | he
    · exact h.begun e he
    · cases List.mem_singleton.mp he
      exact (List.getElem?_eq_some_iff.mp hi).1
  · rw [said_concat]
    rcases List.getElem?_set_cases hb with ⟨rfl, rfl⟩ | ⟨hne, hb⟩
    · rw [if_pos rfl]
      exact hc
    · rw [if_neg (Ne.symm hne), List.append_nil]
      exact h.each j b hb

theorem Dialogue.Keeps.step (hd : d.Keeps good) (h : Told good t) {turn : Turn ι α μ}
    (hs : d.step t turn = some t') : Told good t' := by
  cases turn with
  | enter x =>
      cases hs
      exact h.enter (hd.enter x)
  | answer i a =>
      obtain ⟨c, hi, hs⟩ := Option.bind_eq_some_iff.mp hs
      obtain ⟨r, hr, hs⟩ := Option.bind_eq_some_iff.mp hs
      obtain ⟨c', hc', rfl⟩ := Option.map_eq_some_iff.mp hs
      exact h.hear hi (hd.hear c c' r a _ (h.each i c hi) hr hc')
  | go i m =>
      obtain ⟨c, hi, hs⟩ := Option.bind_eq_some_iff.mp hs
      obtain ⟨c', hc', rfl⟩ := Option.map_eq_some_iff.mp hs
      exact h.go (hd.go c c' m _ (h.each i c hi) hc')

-- It is enough to look at one call at a time.
theorem Dialogue.Keeps.visits (hd : d.Keeps good) {p : κ → List (ρ × α) → Prop}
    (hp : ∀ c l, good c l → p c l)
    (turns : List (Turn ι α μ)) : Visits d.step (Told p) Talks.start turns :=
  visits_of_guarded (Told good) (Told p) (fun _ h => ⟨h.begun, fun i c hc => hp c _ (h.each i c hc)⟩)
    (fun _ _ _ h _ hs => hd.step h hs) (Told.start good) (guarded_true _ turns)

end Keeps

end Foundation
