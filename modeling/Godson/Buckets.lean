import Mathlib.Data.List.Nodup
import Mathlib.Data.List.Perm.Basic
import Mathlib.Logic.Function.Basic

/-! Buckets of a hash table whose entries are found by a tag, each tag once, and are moved to
the front of their bucket when they are found. -/
namespace Godson.Buckets

variable {α τ : Type*} {tag : α → τ} {l l' : List α} {x : α} {t : τ}

/-- No two entries have one tag. -/
def Unique (tag : α → τ) (l : List α) : Prop := (l.map tag).Nodup

theorem unique_perm (perm : l.Perm l') (unique : Unique tag l) : Unique tag l' :=
  (perm.map tag).nodup_iff.mp unique

variable [DecidableEq τ]

/-- The first entry with a tag, and the bucket without it. -/
def takeOut (tag : α → τ) (t : τ) : List α → Option (α × List α)
  | [] => none
  | x :: l =>
    if tag x = t then some (x, l) else (takeOut tag t l).map fun (y, rest) => (y, x :: rest)

/-- The entry with a tag. -/
def lookup (tag : α → τ) (t : τ) (l : List α) : Option α := l.find? fun x => tag x == t

theorem lookup_some (h : lookup tag t l = some x) : x ∈ l ∧ tag x = t := by
  have same := List.find?_some h
  exact ⟨List.mem_of_find?_eq_some h, eq_of_beq same⟩

theorem lookup_none : lookup tag t l = none ↔ ∀ x ∈ l, tag x ≠ t := by
  simp [lookup]

theorem lookup_eq_some (unique : Unique tag l) :
    lookup tag t l = some x ↔ x ∈ l ∧ tag x = t := by
  refine ⟨lookup_some, fun ⟨here, same⟩ => ?_⟩
  cases found : lookup tag t l with
  | none => exact absurd same (lookup_none.mp found x here)
  | some y =>
    obtain ⟨there, other⟩ := lookup_some found
    rw [List.inj_on_of_nodup_map unique there here (other.trans same.symm)]

/-- With one entry for each tag the order of the entries does not matter. -/
theorem lookup_perm (perm : l.Perm l') (unique : Unique tag l) :
    lookup tag t l' = lookup tag t l := by
  refine Option.ext fun x => ?_
  rw [lookup_eq_some unique, lookup_eq_some (unique_perm perm unique), perm.mem_iff]

theorem lookup_cons (x : α) (l : List α) :
    lookup tag t (x :: l) = if tag x = t then some x else lookup tag t l := by
  by_cases same : tag x = t <;> simp [lookup, same]

theorem takeOut_some {rest : List α} (h : takeOut tag t l = some (x, rest)) :
    tag x = t ∧ (x :: rest).Perm l := by
  induction l generalizing rest with
  | nil => cases h
  | cons y l ih =>
    rw [takeOut] at h
    split at h
    · rename_i same
      cases h
      exact ⟨same, .refl _⟩
    · obtain ⟨⟨z, rest'⟩, found, same⟩ := Option.map_eq_some_iff.mp h
      cases same
      obtain ⟨tag, perm⟩ := ih found
      exact ⟨tag, (List.Perm.swap y x rest').trans (perm.cons y)⟩

theorem takeOut_none (h : takeOut tag t l = none) : lookup tag t l = none := by
  induction l with
  | nil => rfl
  | cons y l ih =>
    rw [takeOut] at h
    split at h
    · cases h
    · rename_i other
      rw [lookup_cons, if_neg other]
      exact ih (Option.map_eq_none_iff.mp h)

/-- A new entry for a tag that has none. -/
theorem unique_cons (unique : Unique tag l) (absent : lookup tag (tag x) l = none) :
    Unique tag (x :: l) := by
  refine List.nodup_cons.mpr ⟨fun here => ?_, unique⟩
  obtain ⟨y, hy, same⟩ := List.mem_map.mp here
  exact lookup_none.mp absent y hy same

end Godson.Buckets
