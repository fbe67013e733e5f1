import Mathlib.Data.List.Basic

/-! Runs of a step function that may fail, and conditions that every step of a run meets
in the state in which it is taken. -/
namespace Godson.Runs

variable {σ α : Type*} {f : σ → α → Option σ}

theorem run_cons {a : α} {l : List α} {s t : σ} :
    (a :: l).foldlM f s = some t ↔ ∃ u, f s a = some u ∧ l.foldlM f u = some t := by
  rw [List.foldlM_cons, Option.bind_eq_bind, Option.bind_eq_some_iff]

theorem run_append {l q : List α} {s t : σ} :
    (l ++ q).foldlM f s = some t ↔ ∃ u, l.foldlM f s = some u ∧ q.foldlM f u = some t := by
  rw [List.foldlM_append, Option.bind_eq_bind, Option.bind_eq_some_iff]

variable {P : σ → α → Prop}

/-- Every step of the run from `s` meets the condition. -/
def Along (f : σ → α → Option σ) (P : σ → α → Prop) (s : σ) (l : List α) : Prop :=
  ∀ past a rest t, l = past ++ a :: rest → past.foldlM f s = some t → P t a

theorem Along.head {s : σ} {a : α} {l : List α} (h : Along f P s (a :: l)) : P s a :=
  h [] a l s rfl rfl

theorem Along.tail {s t : σ} {a : α} {l : List α} (h : Along f P s (a :: l))
    (step : f s a = some t) : Along f P t l := by
  intro past b rest u split ran
  apply h (a :: past) b rest u
  · rw [split, List.cons_append]
  · exact run_cons.mpr ⟨t, step, ran⟩

/-- The first part of a run. -/
theorem Along.front {s : σ} {l q : List α} (h : Along f P s (l ++ q)) : Along f P s l := by
  intro past a rest t split
  apply h past a (rest ++ q) t
  rw [split, List.append_assoc, List.cons_append]

/-- What a step keeps under the condition holds at the end of a run that meets it. -/
theorem Along.invariant {I : σ → Prop} (step : ∀ s a t, I s → P s a → f s a = some t → I t)
    {s t : σ} {l : List α} (h : Along f P s l) (start : I s) (ran : l.foldlM f s = some t) :
    I t := by
  induction l generalizing s with
  | nil =>
    cases ran
    exact start
  | cons a l ih =>
    obtain ⟨u, now, later⟩ := run_cons.mp ran
    exact ih (h.tail now) (step s a u start h.head now) later

theorem along_true (s : σ) (l : List α) : Along f (fun _ _ => True) s l := fun _ _ _ _ _ _ => trivial

/-- What every step keeps holds at the end of a run. -/
theorem invariant {I : σ → Prop} (step : ∀ s a t, I s → f s a = some t → I t)
    {s t : σ} {l : List α} (start : I s) (ran : l.foldlM f s = some t) : I t :=
  (along_true s l).invariant (fun s a t h _ => step s a t h) start ran

/-- The test of every step of a run. -/
def checkAlong (f : σ → α → Option σ) (p : σ → α → Bool) : σ → List α → Bool
  | _, [] => true
  | s, a :: l => p s a && (f s a).all fun t => checkAlong f p t l

theorem along_of_check {p : σ → α → Bool} (sound : ∀ s a, p s a = true → P s a) {s : σ}
    {l : List α} (h : checkAlong f p s l = true) : Along f P s l := by
  intro past
  induction past generalizing s l with
  | nil =>
    intro a rest t split ran
    cases ran
    rw [split, List.nil_append, checkAlong, Bool.and_eq_true] at h
    exact sound _ a h.1
  | cons b past ih =>
    intro a rest t split ran
    obtain ⟨u, now, later⟩ := run_cons.mp ran
    rw [split, List.cons_append, checkAlong, now, Bool.and_eq_true, Option.all_some] at h
    exact ih h.2 a rest t rfl later

end Godson.Runs
