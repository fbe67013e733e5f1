import Mathlib.Data.List.Basic

/-! Writes over a base at nested levels. A deeper level sees what the levels below it have
written; going back to a level forgets what the deeper ones wrote. -/
namespace Godson.Layers

/-- A write at a level. -/
structure Entry (α β : Type*) where
  level : Nat
  key : α
  value : β

/-- The current level and the writes that are live, the latest first. -/
structure Layered (α β : Type*) where
  level : Nat := 0
  log : List (Entry α β) := []

inductive Op (α β : Type*)
  | store (key : α) (value : β)
  | enter
  | recover (level : Nat)

namespace Layered

variable {α β : Type*}

def step (s : Layered α β) : Op α β → Layered α β
  | .store key value => { s with log := ⟨s.level, key, value⟩ :: s.log }
  | .enter => { s with level := s.level + 1 }
  | .recover l => { level := l, log := s.log.filter fun e => decide (e.level ≤ l) }

def run (s : Layered α β) (ops : List (Op α β)) : Layered α β := ops.foldl step s

@[simp] theorem run_nil (s : Layered α β) : s.run [] = s := rfl

@[simp] theorem run_cons (s : Layered α β) (op : Op α β) (ops : List (Op α β)) :
    s.run (op :: ops) = (s.step op).run ops := rfl

theorem run_append (s : Layered α β) (ops ops' : List (Op α β)) :
    s.run (ops ++ ops') = (s.run ops).run ops' := List.foldl_append

/-- Writes are made at the current level or below it. -/
def Bounded (s : Layered α β) : Prop := ∀ e ∈ s.log, e.level ≤ s.level

theorem Bounded.step {s : Layered α β} (h : s.Bounded) (op : Op α β) : (s.step op).Bounded := by
  intro e he
  cases op with
  | store key value =>
    rcases List.mem_cons.mp he with rfl | he
    · exact Nat.le_refl _
    · exact h e he
  | enter => exact Nat.le_succ_of_le (h e he)
  | recover l => exact of_decide_eq_true (List.mem_filter.mp he).2

/-- The operations stay above a level. -/
def Above (l : Nat) (ops : List (Op α β)) : Prop := ∀ m, Op.recover m ∈ ops → l < m

/-- What is written above a level is all that going back to it forgets. -/
theorem run_above {s : Layered α β} {l : Nat} {ops : List (Op α β)} (deep : l < s.level)
    (above : Above l ops) : l < (s.run ops).level ∧
      (s.run ops).log.filter (fun e => decide (e.level ≤ l)) =
        s.log.filter fun e => decide (e.level ≤ l) := by
  induction ops generalizing s with
  | nil => exact ⟨deep, rfl⟩
  | cons op ops ih =>
    have rest : Above l ops := fun m hm => above m (List.mem_cons_of_mem _ hm)
    cases op with
    | store key value =>
      obtain ⟨deep', same⟩ := ih (s := s.step (.store key value)) deep rest
      refine ⟨deep', same.trans ?_⟩
      simp only [step]
      rw [List.filter_cons_of_neg]
      simpa using deep
    | enter => exact ih (s := s.step .enter) (Nat.lt_succ_of_lt deep) rest
    | recover m =>
      have here : l < m := above m List.mem_cons_self
      obtain ⟨deep', same⟩ := ih (s := s.step (.recover m)) here rest
      refine ⟨deep', same.trans ?_⟩
      simp only [step, List.filter_filter]
      apply List.filter_congr
      intro e _
      rw [← Bool.decide_and]
      apply decide_eq_decide.mpr
      omega

/-- Going back to a level brings back the state from which the next one was entered. -/
theorem run_recover {s : Layered α β} (h : s.Bounded) {ops : List (Op α β)}
    (above : Above s.level ops) : ((s.step .enter).run ops).step (.recover s.level) = s := by
  obtain ⟨-, same⟩ := run_above (s := s.step .enter) (Nat.lt_succ_self _) above
  obtain ⟨level, log⟩ := s
  simp only [step] at same ⊢
  rw [same, List.filter_eq_self.mpr]
  intro e he
  exact decide_eq_true (h e he)

section Read

variable [DecidableEq α]

/-- The latest live write of a key. -/
def lookup (s : Layered α β) (key : α) : Option β :=
  (s.log.find? fun e => decide (e.key = key)).map Entry.value

def read (base : α → β) (s : Layered α β) (key : α) : β := (s.lookup key).getD (base key)

theorem lookup_store_same (s : Layered α β) (key : α) (value : β) :
    (s.step (.store key value)).lookup key = some value := by
  simp [lookup, step]

theorem lookup_store_other (s : Layered α β) {key key' : α} (value : β) (other : key ≠ key') :
    (s.step (.store key value)).lookup key' = s.lookup key' := by
  simp [lookup, step, other]

/-- A key whose live writes are all at one level is kept or forgotten as a whole. -/
theorem lookup_recover {s : Layered α β} {key : α} {m : Nat}
    (at_level : ∀ e ∈ s.log, e.key = key → e.level = m) (l : Nat) :
    (s.step (.recover l)).lookup key = if m ≤ l then s.lookup key else none := by
  simp only [lookup, step, ← List.head?_filter, List.filter_filter]
  have split : ∀ e ∈ s.log, (decide (e.key = key) && decide (e.level ≤ l)) =
      (decide (e.key = key) && decide (m ≤ l)) := by
    intro e he
    by_cases hk : e.key = key
    · rw [at_level e he hk]
    · simp [hk]
  rw [List.filter_congr split]
  by_cases low : m ≤ l <;> simp [low]

end Read

end Layered

end Godson.Layers
