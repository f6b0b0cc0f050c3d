import SleepyPenguin.Foundation.Lists

-- Calls that are numbered as they begin, and a log whose entries each belong to
-- a call or to none.
namespace Foundation

universe u v w

variable {κ : Type u} {ε : Type v} {β : Type w} (owner : ε → Option Nat) (amounts : ε → List β)

-- What the log has for a call, in its order.
def own (log : List ε) (i : Nat) : List β :=
  log.flatMap fun entry => if owner entry = some i then amounts entry else []

-- Every call's share is what the log has for it, and every entry is one that
-- its call asks for.
structure Booked (asks : κ → ε → Prop) (share : κ → List β) (calls : List κ) (log : List ε) : Prop where
  exact : ∀ i c, calls[i]? = some c → own owner amounts log i = share c
  asked : ∀ entry ∈ log, ∀ i, owner entry = some i → ∃ c, calls[i]? = some c ∧ asks c entry

variable {owner amounts}

theorem own_concat (log : List ε) (entry : ε) (i : Nat) : own owner amounts (log ++ [entry]) i =
    own owner amounts log i ++ if owner entry = some i then amounts entry else [] := by
  simp [own]

namespace Booked

variable {asks : κ → ε → Prop} {share : κ → List β} {calls : List κ} {log : List ε} {c c' : κ} {entry : ε}
  {i : Nat}

theorem nil : Booked owner amounts asks share [] [] := by
  refine ⟨?_, ?_⟩
  · intro i c hc
    cases hc
  · intro entry he
    cases he

-- A call that has not begun has no entry.
theorem begin (h : Booked owner amounts asks share calls log) (hc : share c = []) :
    Booked owner amounts asks share (calls ++ [c]) log := by
  refine ⟨?_, ?_⟩
  · intro i d hd
    rcases List.getElem?_concat_cases hd with hd | ⟨rfl, rfl⟩
    · exact h.exact i d hd
    · rw [hc]
      refine List.flatMap_eq_nil_iff.mpr fun entry he => if_neg fun howner => ?_
      obtain ⟨e, hlen, _⟩ := h.asked entry he _ howner
      exact Nat.lt_irrefl _ (List.getElem?_eq_some_iff.mp hlen).1
  · intro entry he i howner
    obtain ⟨d, hd, hasks⟩ := h.asked entry he i howner
    exact ⟨d, List.getElem?_concat_of_some hd, hasks⟩

-- Who asked for an entry asks for it still.
theorem asked_set (h : Booked owner amounts asks share calls log) (hc : calls[i]? = some c)
    (hasks : ∀ entry, asks c entry → asks c' entry) :
    ∀ entry ∈ log, ∀ j, owner entry = some j → ∃ d, (calls.set i c')[j]? = some d ∧ asks d entry := by
  intro entry he j howner
  obtain ⟨d, hd, hdasks⟩ := h.asked entry he j howner
  by_cases hj : i = j
  · subst hj
    obtain rfl := Option.some.inj (hc.symm.trans hd)
    exact ⟨c', List.getElem?_set_self (List.getElem?_eq_some_iff.mp hc).1, hasks entry hdasks⟩
  · exact ⟨d, by rw [List.getElem?_set_ne hj, hd], hdasks⟩

theorem keep (h : Booked owner amounts asks share calls log) (hc : calls[i]? = some c)
    (hasks : ∀ entry, asks c entry → asks c' entry) (hsame : share c' = share c) :
    Booked owner amounts asks share (calls.set i c') log := by
  refine ⟨?_, h.asked_set hc hasks⟩
  intro j d hd
  rcases List.getElem?_set_cases hd with ⟨rfl, rfl⟩ | ⟨_, hd⟩
  · rw [hsame]
    exact h.exact j c hc
  · exact h.exact j d hd

theorem enter (h : Booked owner amounts asks share calls log) (hc : calls[i]? = some c)
    (hasks : ∀ entry, asks c entry → asks c' entry) (howner : owner entry = some i) (hentry : asks c' entry)
    (hshare : share c' = share c ++ amounts entry) :
    Booked owner amounts asks share (calls.set i c') (log ++ [entry]) := by
  refine ⟨?_, ?_⟩
  · intro j d hd
    rw [own_concat]
    rcases List.getElem?_set_cases hd with ⟨rfl, rfl⟩ | ⟨hne, hd⟩
    · rw [if_pos howner, hshare, h.exact j c hc]
    · have hother : owner entry ≠ some j := fun heq => hne (Option.some.inj (heq.symm.trans howner))
      rw [if_neg hother, List.append_nil]
      exact h.exact j d hd
  · intro other he j hj
    rcases List.mem_append.mp he with he | he
    · exact h.asked_set hc hasks other he j hj
    · cases List.mem_singleton.mp he
      rw [← Option.some.inj (howner.symm.trans hj)]
      exact ⟨c', List.getElem?_set_self (List.getElem?_eq_some_iff.mp hc).1, hentry⟩

end Booked

end Foundation
