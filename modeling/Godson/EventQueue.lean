import Mathlib.Data.List.Perm.Basic
import Mathlib.Data.Prod.Lex
import Godson.LeadsTo

/-! A list of timed events kept in the order they will run. An event is inserted
either behind every event that is not later or in front of every event that is
not earlier. -/
namespace EventQueue

variable {ε : Type*}

/-- The insertion scan goes past an event at `t`. -/
def passes (behind : Bool) (time t : Nat) : Bool := if behind then t ≤ time else t < time

/-- Insert an event, `behind` the ones of the same time or in front of them. -/
def insert (behind : Bool) (time : Nat) (ev : ε) : List (Nat × ε) → List (Nat × ε)
  | [] => [(time, ev)]
  | (t, e) :: rest =>
    if passes behind time t then (t, e) :: insert behind time ev rest
    else (time, ev) :: (t, e) :: rest

/-- The new event splits the list where the scan stops. -/
theorem insert_split (behind : Bool) (time : Nat) (ev : ε) (q : List (Nat × ε)) :
    ∃ l r, q = l ++ r ∧ insert behind time ev q = l ++ (time, ev) :: r ∧
      (∀ x ∈ l, passes behind time x.1) ∧ ∀ x, r.head? = some x → passes behind time x.1 = false := by
  induction q with
  | nil => exact ⟨[], [], by simp [insert]⟩
  | cons x rest ih =>
    obtain ⟨t, e⟩ := x
    by_cases h : passes behind time t
    · obtain ⟨l, r, hq, hi, hl, hr⟩ := ih
      refine ⟨(t, e) :: l, r, by simp [hq], by simp [insert, h, hi], ?_, hr⟩
      intro x hx
      rcases List.mem_cons.mp hx with rfl | hx
      · exact h
      · exact hl x hx
    · exact ⟨[], (t, e) :: rest, by simp [insert, h]⟩

theorem insert_perm (behind : Bool) (time : Nat) (ev : ε) (q : List (Nat × ε)) :
    (insert behind time ev q).Perm ((time, ev) :: q) := by
  obtain ⟨l, r, hq, hi, -, -⟩ := insert_split behind time ev q
  rw [hi, hq]
  exact List.perm_middle

@[simp] theorem mem_insert {behind : Bool} {time : Nat} {ev : ε} {q : List (Nat × ε)}
    {x : Nat × ε} : x ∈ insert behind time ev q ↔ x = (time, ev) ∨ x ∈ q := by
  rw [(insert_perm behind time ev q).mem_iff, List.mem_cons]

@[simp] theorem countP_insert (p : Nat × ε → Bool) (behind : Bool) (time : Nat) (ev : ε)
    (q : List (Nat × ε)) :
    (insert behind time ev q).countP p = q.countP p + if p (time, ev) then 1 else 0 := by
  rw [(insert_perm behind time ev q).countP_eq, List.countP_cons]

/-- Insertion keeps an order that the new event fits into anywhere the scan can stop. -/
theorem pairwise_insert {rel : Nat × ε → Nat × ε → Prop} {behind : Bool} {time : Nat} {ev : ε}
    {q : List (Nat × ε)} (hq : q.Pairwise rel)
    (hpast : ∀ x ∈ q, passes behind time x.1 → rel x (time, ev))
    (hfuture : ∀ x ∈ q, rel (time, ev) x) : (insert behind time ev q).Pairwise rel := by
  obtain ⟨l, r, rfl, hi, hl, -⟩ := insert_split behind time ev q
  rw [hi]
  obtain ⟨hll, hrr, hlr⟩ := List.pairwise_append.mp hq
  refine List.pairwise_append.mpr ⟨hll, List.pairwise_cons.mpr ⟨fun x hx => ?_, hrr⟩, ?_⟩
  · exact hfuture x (List.mem_append_right _ hx)
  · intro x hx y hy
    rcases List.mem_cons.mp hy with rfl | hy
    · exact hpast x (List.mem_append_left _ hx) (hl x hx)
    · exact hlr x hx y hy

/-- The scan goes past everything: the new event is the last. -/
theorem insert_last {behind : Bool} {time : Nat} {ev : ε} {q : List (Nat × ε)}
    (h : ∀ x ∈ q, passes behind time x.1) : insert behind time ev q = q ++ [(time, ev)] := by
  obtain ⟨l, r, rfl, hi, -, hr⟩ := insert_split behind time ev q
  cases r with
  | nil => simpa using hi
  | cons x r =>
    have := h x (List.mem_append_right _ List.mem_cons_self)
    rw [hr x rfl] at this
    exact absurd this Bool.false_ne_true

/-- A filter sees the new event, or nothing new. -/
theorem filterMap_insert_none {β : Type*} {f : Nat × ε → Option β} {behind : Bool} {time : Nat}
    {ev : ε} (q : List (Nat × ε)) (h : f (time, ev) = none) :
    (insert behind time ev q).filterMap f = q.filterMap f := by
  obtain ⟨l, r, rfl, hi, -, -⟩ := insert_split behind time ev q
  rw [hi, List.filterMap_append, List.filterMap_append, List.filterMap_cons_none h]

theorem filterMap_insert_some {β : Type*} {f : Nat × ε → Option β} {behind : Bool} {time : Nat}
    {ev : ε} {b : β} {q : List (Nat × ε)} (h : f (time, ev) = some b) (hq : q.filterMap f = []) :
    (insert behind time ev q).filterMap f = [b] := by
  obtain ⟨l, r, rfl, hi, -, -⟩ := insert_split behind time ev q
  obtain ⟨hl, hr⟩ := List.append_eq_nil_iff.mp ((List.filterMap_append).symm.trans hq)
  rw [hi, List.filterMap_append, List.filterMap_cons_some h, hl, hr, List.nil_append]

/-- The events that were in the list keep their order. -/
theorem sublist_insert (behind : Bool) (time : Nat) (ev : ε) (q : List (Nat × ε)) :
    q.Sublist (insert behind time ev q) := by
  obtain ⟨l, r, hq, hi, -, -⟩ := insert_split behind time ev q
  rw [hi, hq]
  exact (List.sublist_cons_self _ _).append_left l

/-- In a sorted list the scan stops in front of everything that it would not go past. -/
theorem insert_split_sorted (behind : Bool) (time : Nat) (ev : ε) {q : List (Nat × ε)}
    (hq : q.Pairwise fun a b => a.1 ≤ b.1) : ∃ l r, q = l ++ r ∧
      insert behind time ev q = l ++ (time, ev) :: r ∧ (∀ x ∈ l, passes behind time x.1) ∧
      ∀ x ∈ r, passes behind time x.1 = false := by
  obtain ⟨l, r, rfl, hi, hl, hr⟩ := insert_split behind time ev q
  refine ⟨l, r, rfl, hi, hl, fun x hx => ?_⟩
  cases r with
  | nil => cases hx
  | cons y r =>
    have stop := hr y rfl
    rcases List.mem_cons.mp hx with rfl | hx
    · exact stop
    · have later := (List.pairwise_cons.mp (List.pairwise_append.mp hq).2.1).1 x hx
      cases behind <;> simp only [passes, Bool.false_eq_true, if_true, if_false,
        decide_eq_false_iff_not] at stop ⊢ <;> omega

/-- Insertion keeps an order that the new event fits into where the scan stops. -/
theorem pairwise_insert_sorted {rel : Nat × ε → Nat × ε → Prop} {behind : Bool} {time : Nat}
    {ev : ε} {q : List (Nat × ε)} (sorted : q.Pairwise fun a b => a.1 ≤ b.1) (hq : q.Pairwise rel)
    (hpast : ∀ x ∈ q, passes behind time x.1 → rel x (time, ev))
    (hfuture : ∀ x ∈ q, passes behind time x.1 = false → rel (time, ev) x) :
    (insert behind time ev q).Pairwise rel := by
  obtain ⟨l, r, rfl, hi, hl, hr⟩ := insert_split_sorted behind time ev sorted
  rw [hi]
  obtain ⟨hll, hrr, hlr⟩ := List.pairwise_append.mp hq
  refine List.pairwise_append.mpr ⟨hll, List.pairwise_cons.mpr ⟨fun x hx => ?_, hrr⟩, ?_⟩
  · exact hfuture x (List.mem_append_right _ hx) (hr x hx)
  · intro x hx y hy
    rcases List.mem_cons.mp hy with rfl | hy
    · exact hpast x (List.mem_append_left _ hx) (hl x hx)
    · exact hlr x hx y hy

/-- Insertion keeps the list sorted by time. -/
theorem sorted_insert {behind : Bool} {time : Nat} {ev : ε} {q : List (Nat × ε)}
    (hq : q.Pairwise fun a b => a.1 ≤ b.1) :
    (insert behind time ev q).Pairwise fun a b => a.1 ≤ b.1 := by
  induction q with
  | nil => simp [insert]
  | cons x rest ih =>
    obtain ⟨t, e⟩ := x
    obtain ⟨hx, hrest⟩ := List.pairwise_cons.mp hq
    by_cases h : passes behind time t
    · have ht : t ≤ time := by
        cases behind <;> simp [passes] at h <;> omega
      simp only [insert, h, if_true, List.pairwise_cons, mem_insert]
      refine ⟨?_, ih hrest⟩
      rintro y (rfl | hy)
      · exact ht
      · exact hx y hy
    · have ht : time ≤ t := by
        cases behind <;> simp [passes] at h <;> omega
      simp only [insert, h]
      refine List.pairwise_cons.mpr ⟨?_, hq⟩
      intro y hy
      rcases List.mem_cons.mp hy with rfl | hy
      · exact ht
      · exact Nat.le_trans ht (hx y hy)

/-- The time of the first event. -/
def next (q : List (Nat × ε)) : Nat := (q.head?.map Prod.fst).getD 0

/-- The number of events at the time of the first one, and of any that are late. -/
def due (q : List (Nat × ε)) : Nat := q.countP fun x => decide (x.1 ≤ next q)

/-- Take the first event, and put in some that are later: time goes on, or fewer are due. -/
theorem next_due {q rest new : List (Nat × ε)} {t : Nat} {ev : ε} {e : Nat × ε}
    (sorted : q.Pairwise fun a b => a.1 ≤ b.1) (he : e ∈ q) (perm : q.Perm (new ++ rest))
    (later : ∀ x ∈ new, t < x.1) (first : ∀ x ∈ rest, t ≤ x.1) :
    Prod.Lex (· < ·) (· < ·) (e.1 - next q, due q)
      (e.1 - next ((t, ev) :: rest), due ((t, ev) :: rest)) := by
  obtain ⟨x, l, rfl⟩ := List.exists_cons_of_ne_nil (List.ne_nil_of_mem he)
  have hle : t ≤ x.1 := by
    rcases List.mem_append.mp (perm.mem_iff.mp List.mem_cons_self) with hx | hx
    · exact (later x hx).le
    · exact first x hx
  have hx : x.1 ≤ e.1 := by
    rcases List.mem_cons.mp he with rfl | he
    · exact Nat.le_refl _
    · exact (List.pairwise_cons.mp sorted).1 e he
  have old : next ((t, ev) :: rest) = t := rfl
  have now : next (x :: l) = x.1 := rfl
  rcases hle.lt_or_eq with hlt | heq
  · refine Prod.Lex.left _ _ ?_
    rw [old, now]
    omega
  · have none : new.countP (fun y => decide (y.1 ≤ t)) = 0 :=
      List.countP_eq_zero.mpr fun y hy => by simpa using later y hy
    have fewer : due (x :: l) < due ((t, ev) :: rest) := by
      rw [due, due, old, now, ← heq, perm.countP_eq, List.countP_append, none,
        List.countP_cons_of_pos (by simp)]
      omega
    rw [old, now, ← heq]
    exact Prod.Lex.right _ fewer

/-- In an endless run that takes the first event in each step and puts in later ones, every event
comes to be the first. -/
theorem leadsTo_head {q : Nat → List (Nat × ε)}
    (sorted : ∀ n, (q n).Pairwise fun a b => a.1 ≤ b.1)
    (step : ∀ n t ev rest, q n = (t, ev) :: rest →
      ∃ new, (q (n + 1)).Perm (new ++ rest) ∧ ∀ x ∈ new, t < x.1) (e : Nat × ε) :
    Temporal.LeadsTo (fun n => e ∈ q n) fun n => (q n).head? = some e := by
  refine .of_measure (Prod.lex Nat.lt_wfRel Nat.lt_wfRel).wf
    (fun n => (e.1 - next (q n), due (q n))) fun n he => ?_
  obtain ⟨⟨t, ev⟩, rest, hq⟩ := List.exists_cons_of_ne_nil (List.ne_nil_of_mem he)
  rw [hq] at he
  rcases List.mem_cons.mp he with rfl | he
  · exact ⟨n, Nat.le_refl n, .inl (by rw [hq]; rfl)⟩
  · obtain ⟨new, perm, later⟩ := step n t ev rest hq
    have there : e ∈ q (n + 1) := perm.mem_iff.mpr (List.mem_append_right _ he)
    have first := (List.pairwise_cons.mp (hq ▸ sorted n)).1
    refine ⟨n + 1, Nat.le_succ n, .inr ⟨there, ?_⟩⟩
    rw [hq]
    exact next_due (sorted (n + 1)) there perm later first

end EventQueue
