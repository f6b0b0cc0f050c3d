import Mathlib.Data.List.Basic

namespace Foundation

-- An array indexed by the naturals that answers nothing past its end and
-- grows when a later slot is written.
structure Slots (α : Type) where
  cells : List (Option α)
  deriving Repr, DecidableEq

namespace Slots

variable {α : Type}

def empty : Slots α := ⟨[]⟩

def get (slots : Slots α) (index : Nat) : Option α := (slots.cells[index]?).join

def set (slots : Slots α) (index : Nat) (value : Option α) : Slots α :=
  ⟨(slots.cells ++ List.replicate (index + 1 - slots.cells.length) none).set index value⟩

instance : Membership α (Slots α) where
  mem slots value := some value ∈ slots.cells

instance [DecidableEq α] (slots : Slots α) (value : α) : Decidable (value ∈ slots) :=
  inferInstanceAs (Decidable (some value ∈ slots.cells))

@[simp] theorem get_empty (index : Nat) : (empty : Slots α).get index = none := rfl

theorem get_set (slots : Slots α) (index other : Nat) (value : Option α) :
    (slots.set index value).get other = if other = index then value else slots.get other := by
  by_cases h : other = index
  · subst h
    have hlt : other < slots.cells.length + (other + 1 - slots.cells.length) := by omega
    simp [get, set, hlt]
  · simp only [get, set, List.getElem?_set_ne (Ne.symm h), if_neg h]
    by_cases hl : other < slots.cells.length
    · rw [List.getElem?_append_left hl]
    · rw [List.getElem?_append_right (by omega), List.getElem?_replicate,
        List.getElem?_eq_none (by omega : slots.cells.length ≤ other)]
      split <;> rfl

@[simp] theorem get_set_self (slots : Slots α) (index : Nat) (value : Option α) :
    (slots.set index value).get index = value := by
  simp [get_set]

-- Membership is being the value of some slot.
theorem mem_iff (slots : Slots α) (value : α) :
    value ∈ slots ↔ ∃ index, slots.get index = some value := by
  constructor
  · intro h
    obtain ⟨index, hi, hv⟩ := List.mem_iff_getElem.mp (h : some value ∈ slots.cells)
    exact ⟨index, by simp [get, List.getElem?_eq_getElem hi, hv]⟩
  · rintro ⟨index, h⟩
    exact List.mem_of_getElem? (Option.join_eq_some_iff.mp h)

theorem mem_of_get {slots : Slots α} {index : Nat} {value : α} (h : slots.get index = some value) :
    value ∈ slots :=
  (mem_iff slots value).mpr ⟨index, h⟩

end Slots

end Foundation
