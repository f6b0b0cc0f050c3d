import Mathlib.Data.List.Basic

namespace Foundation

-- Allocations by address. An address is never given out twice, and one that
-- was freed holds nothing.
structure Heap (α : Type) where
  cells : List (Option α)
  deriving DecidableEq, Repr

namespace Heap

variable {α : Type} {h : Heap α} {p q : Nat} {a b : α}

def empty : Heap α := ⟨[]⟩

def get (h : Heap α) (p : Nat) : Option α := (h.cells[p]?).join

def fresh (h : Heap α) : Nat := h.cells.length

def alloc (h : Heap α) (a : α) : Heap α := ⟨h.cells ++ [some a]⟩

def free (h : Heap α) (p : Nat) : Heap α := ⟨h.cells.set p none⟩

def set (h : Heap α) (p : Nat) (a : α) : Heap α := ⟨h.cells.set p (some a)⟩

@[simp] theorem get_empty (p : Nat) : (empty : Heap α).get p = none := rfl

theorem lt_fresh (hp : h.get p = some a) : p < h.fresh := by
  have hcell := Option.join_eq_some_iff.mp hp
  exact (List.getElem?_eq_some_iff.mp hcell).1

theorem ne_fresh (hp : h.get p = some a) : p ≠ h.fresh := Nat.ne_of_lt (lt_fresh hp)

theorem get_fresh (h : Heap α) : h.get h.fresh = none := by
  simp [get, fresh]

theorem get_alloc (h : Heap α) (a : α) (q : Nat) :
    (h.alloc a).get q = if q = h.fresh then some a else h.get q := by
  unfold get alloc fresh
  by_cases hq : q = h.cells.length
  · simp [hq]
  · rw [if_neg hq]
    by_cases hlt : q < h.cells.length
    · rw [List.getElem?_append_left hlt]
    · rw [List.getElem?_eq_none (by omega : h.cells.length ≤ q),
        List.getElem?_eq_none (by simp only [List.length_append, List.length_singleton]; omega)]

theorem get_free (h : Heap α) (p q : Nat) :
    (h.free p).get q = if q = p then none else h.get q := by
  unfold get free
  by_cases hq : q = p
  · subst hq
    rw [if_pos rfl, List.getElem?_set_self']
    cases h.cells[q]? <;> rfl
  · rw [if_neg hq, List.getElem?_set_ne (Ne.symm hq)]

theorem get_set (hp : h.get p = some b) (a : α) (q : Nat) :
    (h.set p a).get q = if q = p then some a else h.get q := by
  unfold set
  by_cases hq : q = p
  · subst hq
    have hlt : q < h.cells.length := lt_fresh hp
    rw [if_pos rfl]
    simp [get, hlt]
  · rw [if_neg hq]
    simp [get, List.getElem?_set_ne (Ne.symm hq)]

end Heap

end Foundation
