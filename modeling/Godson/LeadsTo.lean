import Mathlib.Order.WellFounded

/-! What an endless run comes to. A predicate is about the moments of the run, so it may speak of
the state at a moment and of the choice made there. -/
namespace Temporal

variable {p p' q q' r : Nat → Prop}

/-- Whenever `p` holds, `q` holds then or later. -/
def LeadsTo (p q : Nat → Prop) : Prop := ∀ n, p n → ∃ m ≥ n, q m

/-- Where `p` holds, it goes on to hold or `q` holds. -/
def Unless (p q : Nat → Prop) : Prop := ∀ n, p n → q n ∨ p (n + 1)

theorem LeadsTo.trans (h : LeadsTo p q) (h' : LeadsTo q r) : LeadsTo p r := by
  intro n hn
  obtain ⟨m, hm, here⟩ := h n hn
  obtain ⟨i, hi, there⟩ := h' m here
  exact ⟨i, hm.le.trans hi, there⟩

theorem LeadsTo.mono (h : LeadsTo p q) (hp : ∀ n, p' n → p n) (hq : ∀ n, q n → q' n) :
    LeadsTo p' q' := by
  intro n hn
  obtain ⟨m, hm, here⟩ := h n (hp n hn)
  exact ⟨m, hm, hq m here⟩

/-- Where `q` comes, the next step brings `r`. -/
theorem LeadsTo.next (h : LeadsTo p q) (step : ∀ n, q n → r (n + 1)) : LeadsTo p r := by
  intro n hn
  obtain ⟨m, hm, here⟩ := h n hn
  exact ⟨m + 1, hm.le.trans (Nat.le_succ m), step m here⟩

/-- Whatever does not lead to `q` at once comes nearer to it, and it cannot do so for ever. -/
theorem LeadsTo.of_measure {β : Type*} {rel : β → β → Prop} (wf : WellFounded rel) (μ : Nat → β)
    (h : ∀ n, p n → ∃ m ≥ n, q m ∨ p m ∧ rel (μ m) (μ n)) : LeadsTo p q := by
  intro n hn
  induction hμ : μ n using wf.induction generalizing n with
  | _ b ih =>
    obtain ⟨m, hm, done | ⟨still, nearer⟩⟩ := h n hn
    · exact ⟨m, hm, done⟩
    · obtain ⟨i, hi, there⟩ := ih (μ m) (hμ ▸ nearer) m still rfl
      exact ⟨i, hm.le.trans hi, there⟩

/-- Up to any later moment `p` has held on, or `q` has come in between. -/
theorem Unless.until (h : Unless p q) {n m : Nat} (hn : p n) (le : n ≤ m) :
    (∃ i, n ≤ i ∧ i < m ∧ q i) ∨ p m := by
  induction m, le using Nat.le_induction with
  | base => exact .inr hn
  | succ m le ih =>
    rcases ih with ⟨i, hi, before, hq⟩ | hp
    · exact .inl ⟨i, hi, Nat.lt_succ_of_lt before, hq⟩
    · rcases h m hp with hq | hp
      · exact .inl ⟨m, le, Nat.lt_succ_self m, hq⟩
      · exact .inr hp

/-- What holds unless `q` still holds when `r` comes, or `q` has come before. -/
theorem Unless.leadsTo (h : Unless p q) (h' : LeadsTo p r) :
    LeadsTo p fun n => q n ∨ p n ∧ r n := by
  intro n hn
  obtain ⟨m, hm, hr⟩ := h' n hn
  rcases h.until hn hm with ⟨i, hi, -, hq⟩ | hp
  · exact ⟨i, hi, .inl hq⟩
  · exact ⟨m, hm, .inr ⟨hp, hr⟩⟩

end Temporal
