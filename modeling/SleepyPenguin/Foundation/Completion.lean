import Mathlib.Logic.Hydra
import SleepyPenguin.Foundation.Rely

-- Pools of programs that come to their end, whatever the order of their
-- commands.
namespace Foundation

universe u v

-- Until all is over something can be done next, whatever happens outside in
-- between, and this can be done only finitely often.
inductive Completes {σ : Type u} (next outside : σ → σ → Prop) (halted : σ → Prop) : σ → Prop
  | intro (state : σ)
      (progress : ∀ between, Relation.ReflTransGen outside state between →
        halted between ∨ ∃ after, next between after)
      (rest : ∀ between after, Relation.ReflTransGen outside state between → next between after →
        Completes next outside halted after) :
      Completes next outside halted state

-- A measure that every step lowers, and that the outside leaves as it is.
theorem completes_of_lowers {σ : Type u} {α : Type v} {next outside : σ → σ → Prop} {halted : σ → Prop}
    {lower : α → α → Prop} (hlower : WellFounded lower) (measure : σ → α) (inv : σ → Prop)
    (hprogress : ∀ s, inv s → halted s ∨ ∃ s', next s s')
    (hnext : ∀ s s', inv s → next s s' → inv s' ∧ lower (measure s') (measure s))
    (houtside : ∀ s s', inv s → outside s s' → inv s' ∧ measure s' = measure s)
    {state : σ} (h : inv state) : Completes next outside halted state := by
  have hbetween : ∀ {s s'}, inv s → Relation.ReflTransGen outside s s' → inv s' ∧
    measure s' = measure s := by
    intro s s' hs hr
    induction hr with
    | refl => exact ⟨hs, rfl⟩
    | tail _ hlast ih =>
        obtain ⟨hinv, hmeasure⟩ := houtside _ _ ih.1 hlast
        exact ⟨hinv, hmeasure.trans ih.2⟩
  generalize hm : measure state = m
  induction m using hlower.induction generalizing state with
  | _ m ih =>
      subst hm
      refine .intro state (fun between hr => hprogress between (hbetween h hr).1)
        fun between after hr hn => ?_
      obtain ⟨hinv, hmeasure⟩ := hbetween h hr
      obtain ⟨hafter, hlt⟩ := hnext between after hinv hn
      exact ih (measure after) (hmeasure ▸ hlt) hafter rfl

namespace Prog

variable {C : Type → Type} {ε α σ : Type}

def ended : Prog C ε α → Bool
  | .pure _ => true
  | .raise _ => true
  | .cmd _ _ => false

-- What is left of a program once its next command is answered.
inductive Remains : Prog C ε α → Prog C ε α → Prop
  | answered {β : Type} (command : C β) (rest : β → Prog C ε α) (answer : β) :
      Remains (rest answer) (.cmd command rest)

theorem remains_wellFounded : WellFounded (Remains (C := C) (ε := ε) (α := α)) := by
  refine ⟨fun program => ?_⟩
  induction program with
  | pure value => exact ⟨_, fun _ h => by cases h⟩
  | raise error => exact ⟨_, fun _ h => by cases h⟩
  | cmd command rest ih =>
      refine ⟨_, fun other h => ?_⟩
      cases h with
      | answered _ _ answer => exact ih answer

section Pool

variable {exec : Nat → (β : Type) → σ → C β → Option (β × σ)} {pool pool' : List (Prog C ε α)} {i : Nat}
  {state state' : σ}

-- Every command lowers the pool as a multiset.
theorem advance_lowers (h : advance exec pool i state = some (pool', state')) :
    Relation.CutExpand Remains (pool' : Multiset (Prog C ε α)) pool := by
  obtain ⟨β, command, rest, answer, hget, _, rfl⟩ := advance_cases h
  refine ⟨{rest answer}, .cmd command rest, fun other ho => ?_, ?_⟩
  · rw [Multiset.mem_singleton.mp ho]
    exact .answered command rest answer
  · have hperm := List.perm_flatMap_set (fun program => [program]) hget (rest answer)
    rw [List.flatMap_singleton', List.flatMap_singleton'] at hperm
    exact Multiset.coe_eq_coe.mpr hperm

variable (exec) (rely : Nat → (β : Type) → C β → σ → σ → Prop) (guard : Nat → (β : Type) → σ → C β → Prop)
  (post : Nat → σ → Prop)

-- A steady pool whose programs end in `post`.
def Ensured (pool : List (Prog C ε α)) (state : σ) : Prop :=
  ∀ (i : Nat) (program : Prog C ε α), pool[i]? = some program →
    Along (exec i) (rely i) (guard i) (fun _ => post i) (fun _ => post i) program state

variable {exec rely guard post}

theorem Ensured.ended (h : Ensured exec rely guard post pool state) {program : Prog C ε α}
    (hi : pool[i]? = some program) (he : program.ended = true) : post i state := by
  have hprogram := h i program hi
  cases program with
  | pure value => exact hprogram
  | raise error => exact hprogram
  | cmd command rest => cases he

theorem Ensured.guarded (h : Ensured exec rely guard post pool state) {β : Type} {command : C β}
    {rest : β → Prog C ε α} (hi : pool[i]? = some (.cmd command rest))
    (hself : rely i β command state state) :
    guard i β state command :=
  (h i _ hi state hself).1

-- A program waits for its turn, or has ended, while the state moves.
theorem along_later {exec : (β : Type) → σ → C β → Option (β × σ)} {rely : (β : Type) → C β → σ → σ → Prop}
    {guard : (β : Type) → σ → C β → Prop} {post : σ → Prop} {program : Prog C ε α}
    (htrans : ∀ (β : Type) (command : C β) (a b c : σ), rely β command a b → rely β command b c →
      rely β command a c)
    (h : Along exec rely guard (fun _ => post) (fun _ => post) program state)
    (hpost : post state → post state')
    (hr : ∀ (β : Type) (command : C β), rely β command state state') :
    Along exec rely guard (fun _ => post) (fun _ => post) program state' := by
  cases program with
  | pure value => exact hpost h
  | raise error => exact hpost h
  | cmd command rest => exact fun s hs => h s (htrans _ _ _ _ _ (hr _ command) hs)

theorem Ensured.later
    (htrans : ∀ (j : Nat) (β : Type) (command : C β) (a b c : σ), rely j β command a b →
      rely j β command b c → rely j β command a c)
    (h : Ensured exec rely guard post pool state) (hpost : ∀ j, post j state → post j state')
    (hr : ∀ (j : Nat) (β : Type) (command : C β), rely j β command state state') :
    Ensured exec rely guard post pool state' :=
  fun j program hj => along_later (htrans j) (h j program hj) (hpost j) (hr j)

theorem Ensured.concat (h : Ensured exec rely guard post pool state) {program : Prog C ε α}
    (hnew : Along (exec pool.length) (rely pool.length) (guard pool.length) (fun _ => post pool.length)
      (fun _ => post pool.length) program state) :
    Ensured exec rely guard post (pool ++ [program]) state := by
  intro j other hj
  rcases List.getElem?_concat_cases hj with hj | ⟨rfl, rfl⟩
  · exact h j other hj
  · exact hnew

-- A command that moves the state along what the others rely on.
theorem Ensured.advance
    (htrans : ∀ (j : Nat) (β : Type) (command : C β) (a b c : σ), rely j β command a b →
      rely j β command b c → rely j β command a c)
    (h : Ensured exec rely guard post pool state) {β : Type} {command : C β} {rest : β → Prog C ε α}
    {answer : β} (hi : pool[i]? = some (.cmd command rest)) (hself : rely i β command state state)
    (hstep : exec i β state command = some (answer, state'))
    (hothers : ∀ j, j ≠ i → (post j state → post j state') ∧
      ∀ (γ : Type) (other : C γ), rely j γ other state state') :
    Ensured exec rely guard post (pool.set i (rest answer)) state' := by
  have hrest := (h i _ hi state hself).2 _ hstep
  intro j program hj
  rw [List.getElem?_set] at hj
  by_cases heq : i = j
  · subst heq
    rw [if_pos rfl] at hj
    split at hj
    · cases hj
      exact hrest
    · cases hj
  · rw [if_neg heq] at hj
    obtain ⟨hpost, hrely⟩ := hothers j (Ne.symm heq)
    exact along_later (htrans j) (h j program hj) hpost hrely

end Pool

end Prog

end Foundation
