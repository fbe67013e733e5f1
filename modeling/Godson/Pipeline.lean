import Mathlib.Data.List.Nodup
import Mathlib.Logic.Function.Basic

/-! Queues one behind the other: what leaves one enters the next. Read from the
far end they are one queue. -/
namespace Pipeline

variable {σ α : Type*}

/-- The contents of the stages, the one nearest the exit first. -/
def contents (stages : List σ) (queue : σ → List α) : List α := stages.flatMap queue

theorem contents_congr {stages : List σ} {q q' : σ → List α} (h : ∀ c ∈ stages, q' c = q c) :
    contents stages q' = contents stages q := List.flatMap_congr h

/-- An element enters the last stage. -/
theorem contents_enter {pre : List σ} {c : σ} {q q' : σ → List α} {a : α}
    (hnodup : (pre ++ [c]).Nodup) (hc : q' c = q c ++ [a]) (hother : ∀ x ≠ c, q' x = q x) :
    contents (pre ++ [c]) q' = contents (pre ++ [c]) q ++ [a] := by
  have hpre : contents pre q' = contents pre q :=
    contents_congr fun x hx => hother x fun h =>
      (List.nodup_append.mp hnodup).2.2 x hx c List.mem_cons_self h
  simp only [contents, List.flatMap_append, List.flatMap_singleton, hc] at hpre ⊢
  rw [hpre, List.append_assoc]

/-- The first element of the stage at the exit leaves. -/
theorem contents_leave {post : List σ} {c : σ} {q q' : σ → List α} {a : α} {l : List α}
    (hnodup : (c :: post).Nodup) (hc : q c = a :: l) (hc' : q' c = l)
    (hother : ∀ x ≠ c, q' x = q x) :
    contents (c :: post) q = a :: contents (c :: post) q' := by
  have hpost : contents post q' = contents post q :=
    contents_congr fun x hx => hother x fun h => (List.nodup_cons.mp hnodup).1 (h ▸ hx)
  simp only [contents, List.flatMap_cons, hc, hc'] at hpost ⊢
  rw [hpost, List.cons_append]

/-- The first element of a stage goes to the stage in front of it. -/
theorem contents_shift {pre post : List σ} {c d : σ} {q q' : σ → List α} {a : α} {l : List α}
    (hnodup : (pre ++ d :: c :: post).Nodup) (hc : q c = a :: l) (hc' : q' c = l)
    (hd : q' d = q d ++ [a]) (hother : ∀ x, x ≠ c → x ≠ d → q' x = q x) :
    contents (pre ++ d :: c :: post) q' = contents (pre ++ d :: c :: post) q := by
  obtain ⟨-, htail, hdisj⟩ := List.nodup_append.mp hnodup
  obtain ⟨hdnot, htail⟩ := List.nodup_cons.mp htail
  obtain ⟨hcnot, -⟩ := List.nodup_cons.mp htail
  have hpre : contents pre q' = contents pre q := contents_congr fun x hx =>
    hother x (fun h => hdisj x hx c (by simp) h) fun h => hdisj x hx d (by simp) h
  have hpost : contents post q' = contents post q := contents_congr fun x hx =>
    hother x (fun h => hcnot (h ▸ hx)) fun h => hdnot (List.mem_cons_of_mem _ (h ▸ hx))
  simp only [contents, List.flatMap_append, List.flatMap_cons, hc, hc', hd] at hpre hpost ⊢
  rw [hpre, hpost]
  simp

end Pipeline
