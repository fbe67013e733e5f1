import Mathlib.Data.List.Basic
import Mathlib.Logic.Function.Basic

/-! Singly linked lists: what a map of successors shows from an element on, and how it
changes when a link is set. -/
namespace Chains

variable {α : Type*} {next : α → Option α} {first : Option α} {l : List α}

/-- The links lead through the list, and from its last element nowhere. -/
def Linked (next : α → Option α) : Option α → List α → Prop
  | first, [] => first = none
  | first, a :: l => first = some a ∧ Linked next (next a) l

theorem Linked.unique {q : List α} (h : Linked next first l) (h' : Linked next first q) : l = q := by
  induction l generalizing first q with
  | nil =>
    cases q with
    | nil => rfl
    | cons b q =>
      rw [Linked] at h
      rw [h, Linked] at h'
      cases h'.1
  | cons a l ih =>
    cases q with
    | nil =>
      rw [Linked] at h'
      rw [h', Linked] at h
      cases h.1
    | cons b q =>
      obtain ⟨rfl, rest⟩ := h
      obtain ⟨same, rest'⟩ := h'
      cases same
      rw [ih rest rest']

variable [DecidableEq α]

/-- A link that is set outside the list changes nothing. -/
theorem Linked.update (h : Linked next first l) {d : α} (outside : d ∉ l) (x : Option α) :
    Linked (Function.update next d x) first l := by
  induction l generalizing first with
  | nil => exact h
  | cons a l ih =>
    obtain ⟨rfl, rest⟩ := h
    rw [List.mem_cons, not_or] at outside
    constructor
    · rfl
    · rw [Function.update_of_ne (Ne.symm outside.1)]
      exact ih rest outside.2

/-- An element is linked behind the last one. -/
theorem Linked.append {t d : α} (h : Linked next first (l ++ [t])) (once : (l ++ [t]).Nodup)
    (new : d ∉ l ++ [t]) (stop : next d = none) :
    Linked (Function.update next t (some d)) first (l ++ [t, d]) := by
  induction l generalizing first with
  | nil =>
    obtain ⟨rfl, -⟩ := h
    have other : d ≠ t := fun same => new (by simp [same])
    refine ⟨rfl, ?_⟩
    rw [Function.update_self]
    refine ⟨rfl, ?_⟩
    rw [Function.update_of_ne other]
    exact stop
  | cons a l ih =>
    obtain ⟨rfl, rest⟩ := h
    obtain ⟨fresh, once⟩ := List.nodup_cons.mp once
    have other : a ≠ t := fun same => fresh (by simp [same])
    constructor
    · rfl
    · rw [Function.update_of_ne other]
      exact ih rest once fun here => new (List.mem_cons_of_mem a here)

end Chains
