import Mathlib.Algebra.GroupWithZero.Nat
import Mathlib.Data.List.Forall2

namespace List

universe u v

theorem getElem?_concat_cases {α : Type u} {l : List α} {a b : α} {n : Nat}
    (h : (l ++ [a])[n]? = some b) : l[n]? = some b ∨ n = l.length ∧ b = a := by
  rcases Nat.lt_trichotomy n l.length with hn | hn | hn
  · rw [getElem?_append_left hn] at h
    exact Or.inl h
  · subst hn
    rw [getElem?_concat_length] at h
    exact Or.inr ⟨rfl, (Option.some.inj h).symm⟩
  · rw [getElem?_eq_none (by simp; omega)] at h
    cases h

theorem getElem?_concat_of_some {α : Type u} {l : List α} {a b : α} {n : Nat}
    (h : l[n]? = some b) : (l ++ [a])[n]? = some b := by
  rw [getElem?_append_left (getElem?_eq_some_iff.mp h).1]
  exact h

theorem getElem?_set_cases {α : Type u} {l : List α} {a b : α} {m n : Nat} (h : (l.set n a)[m]? = some b) :
    (m = n ∧ b = a) ∨ (m ≠ n ∧ l[m]? = some b) := by
  rw [getElem?_set] at h
  split at h
  · rename_i heq
    split at h
    · exact Or.inl ⟨heq.symm, (Option.some.inj h).symm⟩
    · cases h
  · rename_i hne
    exact Or.inr ⟨Ne.symm hne, h⟩

-- A place that is written over with what is there.
theorem set_of_getElem? {α : Type u} {l : List α} {n : Nat} {a : α} (h : l[n]? = some a) :
    l.set n a = l := by
  obtain ⟨hlt, rfl⟩ := getElem?_eq_some_iff.mp h
  exact set_getElem_self hlt

theorem headD_of_forall {α : Type u} {l : List α} {a : α} (h : ∀ b ∈ l, b = a) : l.headD a = a := by
  cases l with
  | nil => rfl
  | cons first rest => exact h first mem_cons_self

-- A place of a list that is written over.
theorem forall_mem_set {α : Type u} {p : α → Prop} {l : List α} {n : Nat} {a : α}
    (h : ∀ b ∈ l, p b) (ha : p a) : ∀ b ∈ l.set n a, p b := by
  intro b hb
  rcases mem_or_eq_of_mem_set hb with hb | rfl
  · exact h b hb
  · exact ha

theorem forall_mem_concat {α : Type u} {p : α → Prop} {l : List α} {a : α}
    (h : ∀ b ∈ l, p b) (ha : p a) : ∀ b ∈ l ++ [a], p b := by
  intro b hb
  rcases mem_append.mp hb with hb | hb
  · exact h b hb
  · rw [mem_singleton.mp hb]
    exact ha

theorem sum_map_set {α : Type} (f : α → Nat) {l : List α} {n : Nat} {a : α} (h : l[n]? = some a) (b : α) :
    ((l.set n b).map f).sum + f a = (l.map f).sum + f b := by
  induction l generalizing n with
  | nil => cases h
  | cons c l ih =>
      cases n with
      | zero =>
          cases h
          simp only [set_cons_zero, map_cons, sum_cons]
          omega
      | succ n =>
          have hrest := ih (n := n) h
          simp only [set_cons_succ, map_cons, sum_cons]
          omega

theorem perm_flatMap_set {α : Type u} {β : Type v} (f : α → List β) {l : List α} {n : Nat} {a : α}
    (h : l[n]? = some a)
    (b : α) : ((l.set n b).flatMap f ++ f a).Perm (l.flatMap f ++ f b) := by
  induction l generalizing n with
  | nil => cases h
  | cons c l ih =>
      cases n with
      | zero =>
          cases h
          simp only [set_cons_zero, flatMap_cons]
          rw [append_assoc (f a)]
          exact perm_append_comm.trans (perm_append_comm.append_left (f a))
      | succ n =>
          have hrest := (ih (n := n) h).append_left (f c)
          simpa only [set_cons_succ, flatMap_cons, append_assoc] using hrest

theorem flatMap_set_of_eq {α β : Type} {f : α → List β} {l : List α} {n : Nat} {a b : α}
    (h : l[n]? = some a)
    (hf : f b = f a) : (l.set n b).flatMap f = l.flatMap f := by
  induction l generalizing n with
  | nil => rfl
  | cons c l ih =>
      cases n with
      | zero =>
          cases h
          rw [set_cons_zero, flatMap_cons, flatMap_cons, hf]
      | succ n => rw [set_cons_succ, flatMap_cons, flatMap_cons, ih (n := n) h]

-- A list of which one place alone counts.
theorem flatMap_eq_of_single {α β : Type} {f : α → List β} {l : List α} {n : Nat} {a : α}
    (h : l[n]? = some a)
    (hnil : ∀ m b, m ≠ n → l[m]? = some b → f b = []) : l.flatMap f = f a := by
  induction l generalizing n with
  | nil => cases h
  | cons c l ih =>
      cases n with
      | zero =>
          cases h
          have hrest : l.flatMap f = [] := by
            refine flatMap_eq_nil_iff.mpr fun b hb => ?_
            obtain ⟨m, hm⟩ := getElem?_of_mem hb
            exact hnil (m + 1) b (Nat.succ_ne_zero m) hm
          rw [flatMap_cons, hrest, append_nil]
      | succ n =>
          have hhead : f c = [] := hnil 0 c (Nat.succ_ne_zero n).symm rfl
          have hrest := ih (n := n) h fun m b hm hb => hnil (m + 1) b (fun heq => hm (Nat.succ.inj heq)) hb
          rw [flatMap_cons, hhead, hrest, nil_append]

end List

namespace Except

universe u v w

variable {α : Type v} {β : Type v} {ε : Type u}

theorem bind_ok_iff {x : Except ε α} {f : α → Except ε β} {b : β} :
    (x >>= f) = .ok b ↔ ∃ a, x = .ok a ∧ f a = .ok b := by
  cases x with
  | error e => simp [bind, Except.bind]
  | ok a => simp [bind, Except.bind]

theorem bind_error_iff {x : Except ε α} {f : α → Except ε β} {e : ε} :
    (x >>= f) = .error e ↔ x = .error e ∨ ∃ a, x = .ok a ∧ f a = .error e := by
  cases x with
  | error e' => simp [bind, Except.bind]
  | ok a => simp [bind, Except.bind]

theorem isOk_iff {x : Except ε α} : x.isOk = true ↔ ∃ a, x = .ok a := by
  cases x with
  | error e => simp [isOk, Except.toBool]
  | ok a => simp [isOk, Except.toBool]

-- A list that converts does so element by element.
theorem mapM_ok_iff (f : α → Except ε β) (l : List α) (r : List β) :
    l.mapM f = .ok r ↔ List.Forall₂ (fun a b => f a = .ok b) l r := by
  induction l generalizing r with
  | nil => simp [pure, Except.pure, eq_comm]
  | cons a l ih =>
      simp only [List.mapM_cons, bind_ok_iff, ih, List.forall₂_cons_left_iff]
      constructor
      · rintro ⟨b, hb, bs, hbs, hr⟩
        exact ⟨b, bs, hb, hbs, (Except.ok.inj hr).symm⟩
      · rintro ⟨b, bs, hb, hbs, rfl⟩
        exact ⟨b, hb, bs, hbs, rfl⟩

-- The error of a list is the error of one of its elements.
theorem mapM_error {f : α → Except ε β} {l : List α} {e : ε} (h : l.mapM f = .error e) :
    ∃ a ∈ l, f a = .error e := by
  induction l with
  | nil => cases h
  | cons a l ih =>
      rw [List.mapM_cons] at h
      rcases bind_error_iff.mp h with ha | ⟨b, _, h⟩
      · exact ⟨a, List.mem_cons_self, ha⟩
      · rcases bind_error_iff.mp h with hl | ⟨bs, _, h⟩
        · obtain ⟨other, ho, he⟩ := ih hl
          exact ⟨other, List.mem_cons_of_mem _ ho, he⟩
        · cases h

end Except
