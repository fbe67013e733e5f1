import Mathlib.Data.List.Basic

/-! Loops of an imperative program as big steps, and loops whose index walks through a list. -/
namespace Godson.Loops

variable {σ ι α : Type*}

/-- `while (test) body`, run from the first state, ends in the second. -/
inductive While (test : σ → Bool) (body : σ → σ) : σ → σ → Prop
  | stop {s : σ} (h : test s = false) : While test body s s
  | turn {s t : σ} (h : test s = true) (rest : While test body (body s) t) : While test body s t

/-- `do body while (test)`. -/
def DoWhile (test : σ → Bool) (body : σ → σ) (s t : σ) : Prop := While test body (body s) t

/-- The index walks through the list and is at `e` behind it. -/
def Walk (next : ι → ι) : ι → List ι → ι → Prop
  | i, [], e => i = e
  | i, j :: l, e => i = j ∧ Walk next (next i) l e

variable {next : ι → ι}

theorem Walk.cons {i e : ι} {l : List ι} (h : Walk next (next i) l e) : Walk next i (i :: l) e :=
  ⟨rfl, h⟩

theorem Walk.unique {i e e' : ι} {l : List ι} (h : Walk next i l e) (h' : Walk next i l e') :
    e = e' := by
  induction l generalizing i with
  | nil => exact h.symm.trans h'
  | cons j l ih => exact ih h.2 h'.2

/-- A walk that is left early ends at the first index that fails the condition. -/
theorem Walk.takeWhile {i e : ι} {l : List ι} (h : Walk next i l e) (p : ι → Bool) :
    ∃ e', Walk next i (l.takeWhile p) e' ∧ (e' = e ∨ p e' = false) := by
  induction l generalizing i with
  | nil => exact ⟨e, h, .inl rfl⟩
  | cons j l ih =>
    obtain ⟨rfl, rest⟩ := h
    by_cases hi : p i
    · obtain ⟨e', walk, last⟩ := ih rest
      refine ⟨e', ?_, last⟩
      rw [List.takeWhile_cons_of_pos hi]
      exact walk.cons
    · refine ⟨i, ?_, .inr (by simpa using hi)⟩
      rw [List.takeWhile_cons_of_neg hi]
      rfl

variable {test : ι × α → Bool} {body : ι × α → ι × α} {f : α → ι → α}

variable (body) in
/-- A loop that handles every index of its walk. -/
theorem while_walk {i e : ι} {l : List ι} {x : α} (walk : Walk next i l e)
    (turn : ∀ front j rest, l = front ++ j :: rest →
      test (j, front.foldl f x) = true ∧
        body (j, front.foldl f x) = (next j, f (front.foldl f x) j))
    (stop : test (e, l.foldl f x) = false) : While test body (i, x) (e, l.foldl f x) := by
  induction l generalizing i x with
  | nil =>
    obtain rfl : i = e := walk
    exact .stop stop
  | cons j l ih =>
    obtain ⟨rfl, rest⟩ := walk
    obtain ⟨go, moved⟩ := turn [] i l rfl
    refine .turn go ?_
    rw [show body (i, x) = (next i, f x i) from moved]
    exact ih rest (fun front j rest split => turn (i :: front) j rest (by rw [split]; rfl)) stop

variable (body) in
/-- A loop that handles the first index before any test. -/
theorem doWhile_walk {i e : ι} {l : List ι} {x : α} (walk : Walk next i (i :: l) e)
    (first : body (i, x) = (next i, f x i))
    (turn : ∀ front j rest, l = front ++ j :: rest →
      test (j, front.foldl f (f x i)) = true ∧
        body (j, front.foldl f (f x i)) = (next j, f (front.foldl f (f x i)) j))
    (stop : test (e, l.foldl f (f x i)) = false) :
    DoWhile test body (i, x) (e, (i :: l).foldl f x) := by
  rw [DoWhile, first]
  exact while_walk body walk.2 turn stop

/-- A loop that is left early, by its test or by a break, once `done` holds. Every turn keeps
`inv`. -/
theorem while_walk_until (done : α → Bool) (inv : α → Prop) {i e : ι} {l : List ι} {x : α}
    (walk : Walk next i l e) (start : inv x)
    (turn : ∀ j ∈ l, ∀ x, inv x → done x = false →
      test (j, x) = true ∧ (body (j, x)).2 = f x j ∧
        (done (f x j) = false → (body (j, x)).1 = next j))
    (keep : ∀ j x, inv x → inv (f x j))
    (halt : ∀ j x, done x = true → test (j, x) = false)
    (idle : ∀ j x, done x = true → f x j = x)
    (stop : ∀ x, inv x → test (e, x) = false) : ∃ j, While test body (i, x) (j, l.foldl f x) := by
  have rest_idle : ∀ (l : List ι) (x : α), done x = true → l.foldl f x = x := by
    intro l x hx
    induction l with
    | nil => rfl
    | cons j l ih => rw [List.foldl_cons, idle j x hx, ih]
  induction l generalizing i x with
  | nil =>
    obtain rfl : i = e := walk
    exact ⟨i, .stop (stop x start)⟩
  | cons j l ih =>
    obtain ⟨rfl, rest⟩ := walk
    cases hx : done x with
    | true =>
      rw [rest_idle _ x hx]
      exact ⟨i, .stop (halt i x hx)⟩
    | false =>
      obtain ⟨go, value, index⟩ := turn i List.mem_cons_self x start hx
      rw [List.foldl_cons]
      cases left : done (f x i) with
      | true =>
        rw [rest_idle _ _ left]
        refine ⟨(body (i, x)).1, .turn go ?_⟩
        rw [← value]
        exact .stop (halt _ _ (by rw [value]; exact left))
      | false =>
        obtain ⟨j, run⟩ := ih (x := f x i) rest (keep i x start)
          fun j hj => turn j (List.mem_cons_of_mem _ hj)
        refine ⟨j, .turn go ?_⟩
        rwa [show body (i, x) = (next i, f x i) from Prod.ext (index left) value]

/-- The value of a search that keeps the first hit. -/
theorem foldl_search (p : ι → Bool) (l : List ι) :
    l.foldl (fun x j => if x.isSome then x else if p j then some j else none) none = l.find? p := by
  have found : ∀ (l : List ι) (j : ι),
      l.foldl (fun x j => if x.isSome then x else if p j then some j else none) (some j) = some j := by
    intro l j
    induction l with
    | nil => rfl
    | cons a l ih => exact ih
  induction l with
  | nil => rfl
  | cons j l ih =>
    rw [List.foldl_cons]
    by_cases hj : p j
    · rw [List.find?_cons_of_pos hj]
      simp only [Option.isSome_none, Bool.false_eq_true, if_false, hj, if_true]
      exact found l j
    · rw [List.find?_cons_of_neg hj]
      simp only [Option.isSome_none, Bool.false_eq_true, if_false, hj]
      exact ih

end Godson.Loops
