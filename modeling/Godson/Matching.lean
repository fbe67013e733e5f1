import Mathlib.Logic.Function.Basic

/-! Greedy matching: the cells of a request matrix are visited one after the other, and a
cell whose row and column are both free is granted. Whatever the order, the grants form a
matching, and a sweep that visits every cell leaves no request with both sides free. -/
namespace Matching

variable {ι κ : Type*} [DecidableEq ι] [DecidableEq κ] {ok : ι → κ → Bool}

/-- Which rows and columns are taken, and the row each column has been granted to. -/
structure Tokens (ι κ : Type*) where
  row : ι → Bool
  col : κ → Bool
  grant : κ → Option ι

namespace Tokens

def empty : Tokens ι κ := ⟨fun _ => false, fun _ => false, fun _ => none⟩

/-- A row and a column are taken. -/
def take (t : Tokens ι κ) (i : ι) (o : κ) : Tokens ι κ where
  row := Function.update t.row i true
  col := Function.update t.col o true
  grant := Function.update t.grant o (some i)

/-- A cell is granted if it may be and its row and column are free. -/
def visit (ok : ι → κ → Bool) (t : Tokens ι κ) (c : ι × κ) : Tokens ι κ :=
  if ok c.1 c.2 && !t.row c.1 && !t.col c.2 then t.take c.1 c.2 else t

def sweep (ok : ι → κ → Bool) (cells : List (ι × κ)) (t : Tokens ι κ) : Tokens ι κ :=
  cells.foldl (visit ok) t

/-- The tokens say what has been granted, and the grants are a matching. -/
structure Matched (ok : ι → κ → Bool) (t : Tokens ι κ) : Prop where
  sound : ∀ i o, t.grant o = some i → ok i o = true
  single : ∀ i o o', t.grant o = some i → t.grant o' = some i → o = o'
  row : ∀ i, t.row i = true ↔ ∃ o, t.grant o = some i
  col : ∀ o, t.col o = true ↔ (t.grant o).isSome = true

omit [DecidableEq ι] [DecidableEq κ] in
theorem matched_empty : Matched ok (empty : Tokens ι κ) := by
  constructor <;> simp [empty]

variable {t : Tokens ι κ} {i : ι} {o : κ} {cells : List (ι × κ)}

theorem grant_take {p : κ} {j : ι} : (t.take i o).grant p = some j ↔
    p = o ∧ j = i ∨ p ≠ o ∧ t.grant p = some j := by
  simp only [take, Function.update_apply]
  split
  · simp [*, eq_comm]
  · simp [*]

theorem row_take {j : ι} : (t.take i o).row j = true ↔ j = i ∨ t.row j = true := by
  simp only [take, Function.update_apply]
  split <;> simp [*]

theorem col_take {p : κ} : (t.take i o).col p = true ↔ p = o ∨ t.col p = true := by
  simp only [take, Function.update_apply]
  split <;> simp [*]

/-- A grant of a free row and a free column. -/
theorem Matched.take (h : Matched ok t) (allowed : ok i o = true)
    (fresh : ∀ p, t.grant p ≠ some i) (idle : t.grant o = none) : Matched ok (t.take i o) := by
  constructor
  · intro j p grant
    rcases grant_take.mp grant with ⟨rfl, rfl⟩ | ⟨-, grant⟩
    · exact allowed
    · exact h.sound j p grant
  · intro j p q grant other
    rcases grant_take.mp grant with ⟨rfl, rfl⟩ | ⟨-, held⟩
    · rcases grant_take.mp other with ⟨rfl, -⟩ | ⟨-, held⟩
      · rfl
      · exact absurd held (fresh q)
    · rcases grant_take.mp other with ⟨rfl, rfl⟩ | ⟨-, held'⟩
      · exact absurd held (fresh p)
      · exact h.single j p q held held'
  · intro j
    rw [row_take, h.row j]
    simp only [grant_take]
    constructor
    · rintro (rfl | ⟨p, grant⟩)
      · exact ⟨o, .inl ⟨rfl, rfl⟩⟩
      · refine ⟨p, .inr ⟨?_, grant⟩⟩
        rintro rfl
        rw [idle] at grant
        cases grant
    · rintro ⟨p, ⟨-, rfl⟩ | ⟨-, grant⟩⟩
      · exact .inl rfl
      · exact .inr ⟨p, grant⟩
  · intro p
    rw [col_take, h.col p]
    simp only [Option.isSome_iff_exists, grant_take]
    constructor
    · rintro (rfl | ⟨j, grant⟩)
      · exact ⟨i, .inl ⟨rfl, rfl⟩⟩
      · by_cases here : p = o
        · exact ⟨i, .inl ⟨here, rfl⟩⟩
        · exact ⟨j, .inr ⟨here, grant⟩⟩
    · rintro ⟨j, ⟨here, -⟩ | ⟨-, grant⟩⟩
      · exact .inl here
      · exact .inr ⟨j, grant⟩

theorem Matched.visit (h : Matched ok t) (c : ι × κ) : Matched ok (t.visit ok c) := by
  unfold Tokens.visit
  split
  · rename_i free
    simp only [Bool.and_eq_true, Bool.not_eq_true'] at free
    obtain ⟨⟨allowed, row⟩, col⟩ := free
    apply h.take allowed
    · intro p grant
      rw [(h.row c.1).mpr ⟨p, grant⟩] at row
      cases row
    · rw [← Option.not_isSome_iff_eq_none, ← h.col c.2, col]
      simp
  · exact h

theorem Matched.sweep (h : Matched ok t) (cells : List (ι × κ)) : Matched ok (t.sweep ok cells) := by
  induction cells generalizing t with
  | nil => exact h
  | cons c cells ih => exact ih (h.visit c)

/-- Tokens are never given back. -/
theorem visit_mono (ok : ι → κ → Bool) (t : Tokens ι κ) (c : ι × κ) :
    (∀ i, t.row i = true → (t.visit ok c).row i = true) ∧
      ∀ o, t.col o = true → (t.visit ok c).col o = true := by
  unfold visit
  split
  · exact ⟨fun i taken => row_take.mpr (.inr taken), fun o taken => col_take.mpr (.inr taken)⟩
  · exact ⟨fun _ taken => taken, fun _ taken => taken⟩

theorem sweep_mono (ok : ι → κ → Bool) (cells : List (ι × κ)) (t : Tokens ι κ) :
    (∀ i, t.row i = true → (t.sweep ok cells).row i = true) ∧
      ∀ o, t.col o = true → (t.sweep ok cells).col o = true := by
  induction cells generalizing t with
  | nil => exact ⟨fun _ taken => taken, fun _ taken => taken⟩
  | cons c cells ih =>
    obtain ⟨row, col⟩ := visit_mono ok t c
    exact ⟨fun i taken => (ih _).1 i (row i taken), fun o taken => (ih _).2 o (col o taken)⟩

/-- A visited cell that may be granted has its row or its column taken from then on. -/
theorem visit_taken (t : Tokens ι κ) (allowed : ok i o = true) :
    (t.visit ok (i, o)).row i = true ∨ (t.visit ok (i, o)).col o = true := by
  unfold visit
  split
  · exact .inl (row_take.mpr (.inl rfl))
  · rename_i taken
    simp only [allowed, Bool.true_and, Bool.and_eq_true, Bool.not_eq_true', not_and_or,
      Bool.not_eq_false] at taken
    exact taken

theorem sweep_taken (t : Tokens ι κ)
    (here : (i, o) ∈ cells) (allowed : ok i o = true) :
    (t.sweep ok cells).row i = true ∨ (t.sweep ok cells).col o = true := by
  induction cells generalizing t with
  | nil => cases here
  | cons c cells ih =>
    rcases List.mem_cons.mp here with rfl | later
    · have kept := sweep_mono ok cells (t.visit ok (i, o))
      rcases visit_taken t allowed with row | col
      · exact .inl (kept.1 i row)
      · exact .inr (kept.2 o col)
    · exact ih (t.visit ok c) later

/-- A sweep over every cell is maximal. -/
theorem sweep_maximal (all : ∀ i o, (i, o) ∈ cells)
    (allowed : ok i o = true) :
    (∃ o', (empty.sweep ok cells).grant o' = some i) ∨
      ((empty.sweep ok cells).grant o).isSome = true := by
  have matched : Matched ok (empty.sweep ok cells) := matched_empty.sweep cells
  rcases sweep_taken empty (all i o) allowed with row | col
  · exact .inl ((matched.row i).mp row)
  · exact .inr ((matched.col o).mp col)

end Tokens

end Matching
