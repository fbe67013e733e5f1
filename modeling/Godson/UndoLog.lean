import Mathlib.Data.Set.Lattice
import Mathlib.Data.List.Infix

/-! Undo logs. Every change of a state leaves an entry that remembers the old contents
of the cells it touched; walking the log from the youngest entry to the oldest brings
the state back. Entries restore cell by cell, so the order inside an entry is free. -/
namespace Godson.UndoLog

section Restore

variable {σ κ ν α : Type*} (get : σ → κ → ν)

/-- `r` brings the cells of `C` back to their contents in `s₀` and keeps all others. -/
structure Restores (s₀ : σ) (C : Set κ) (r : σ → σ) : Prop where
  inside : ∀ s, ∀ c ∈ C, get (r s) c = get s₀ c
  outside : ∀ s, ∀ c ∉ C, get (r s) c = get s c

/-- From `s` to `t` only cells of `C` change. -/
def ChangedIn (C : Set κ) (s t : σ) : Prop := ∀ c ∉ C, get t c = get s c

variable {get}

theorem ChangedIn.refl (C : Set κ) (s : σ) : ChangedIn get C s s := fun _ _ => rfl

theorem ChangedIn.trans {C D : Set κ} {s t u : σ} (h : ChangedIn get C s t)
    (k : ChangedIn get D t u) : ChangedIn get (C ∪ D) s u := by
  intro c hc
  rw [Set.mem_union, not_or] at hc
  rw [k c hc.2, h c hc.1]

theorem restores_id (s₀ : σ) : Restores get s₀ ∅ id :=
  ⟨fun _ _ hc => absurd hc (Set.notMem_empty _), fun _ _ _ => rfl⟩

theorem Restores.comp {s₀ : σ} {C D : Set κ} {r q : σ → σ} (h : Restores get s₀ C r)
    (k : Restores get s₀ D q) : Restores get s₀ (C ∪ D) (fun s => q (r s)) := by
  constructor
  · intro s c hc
    by_cases hd : c ∈ D
    · exact k.inside _ c hd
    · rw [k.outside _ c hd]
      exact h.inside s c (hc.resolve_right hd)
  · intro s c hc
    rw [Set.mem_union, not_or] at hc
    rw [k.outside _ c hc.2, h.outside _ c hc.1]

/-- What has changed in the restored cells only is undone exactly. -/
theorem Restores.undoes (ext : ∀ s t : σ, (∀ c, get s c = get t c) → s = t) {s₀ t : σ}
    {C : Set κ} {r : σ → σ} (h : Restores get s₀ C r) (k : ChangedIn get C s₀ t) :
    r t = s₀ := by
  apply ext
  intro c
  by_cases hc : c ∈ C
  · exact h.inside t c hc
  · rw [h.outside t c hc, k c hc]

/-- Two restores commute when the first goes back to a state the second leaves alone. -/
theorem Restores.comm (ext : ∀ s t : σ, (∀ c, get s c = get t c) → s = t) {s₀ z : σ}
    {C N : Set κ} {r n : σ → σ} (h : Restores get s₀ C r) (k : Restores get z N n)
    (fixed : n s₀ = s₀) (s : σ) : r (n s) = n (r s) := by
  apply ext
  intro c
  by_cases hc : c ∈ C <;> by_cases hn : c ∈ N
  · rw [h.inside _ c hc, k.inside _ c hn, ← k.inside s₀ c hn, fixed]
  · rw [h.inside _ c hc, k.outside _ c hn, h.inside _ c hc]
  · rw [h.outside _ c hc, k.inside _ c hn, k.inside _ c hn]
  · rw [h.outside _ c hc, k.outside _ c hn, k.outside _ c hn, h.outside _ c hc]

end Restore

section Log

variable {σ δ : Type*} (undo : δ → σ → σ) (before : δ → σ)

/-- Undo all entries of a log, oldest first in the list, from the youngest on. -/
def unwind (l : List δ) (s : σ) : σ := l.foldr undo s

@[simp] theorem unwind_nil (s : σ) : unwind undo [] s = s := rfl

@[simp] theorem unwind_cons (d : δ) (l : List δ) (s : σ) :
    unwind undo (d :: l) s = undo d (unwind undo l s) := rfl

theorem unwind_append (l q : List δ) (s : σ) :
    unwind undo (l ++ q) s = unwind undo l (unwind undo q s) := List.foldr_append

/-- Entries that undo nothing can be left out. -/
theorem unwind_idle (l : List δ) (s : σ) (h : ∀ d ∈ l, ∀ t, undo d t = t) :
    unwind undo l s = s := by
  induction l with
  | nil => rfl
  | cons d l ih =>
    rw [unwind_cons, ih fun x hx => h x (List.mem_cons_of_mem _ hx)]
    exact h d List.mem_cons_self s

/-- Unwinding the log down to an entry gives the state before that entry. -/
def Logged (l : List δ) (s : σ) : Prop :=
  ∀ p d q, l = p ++ d :: q → unwind undo (d :: q) s = before d

variable {undo before}

theorem logged_nil (s : σ) : Logged undo before [] s := by
  intro p d q h
  simp at h

theorem logged_cons {d : δ} {l : List δ} {s : σ} :
    Logged undo before (d :: l) s ↔
      unwind undo (d :: l) s = before d ∧ Logged undo before l s := by
  constructor
  · intro h
    refine ⟨h [] d l rfl, ?_⟩
    intro p x q hl
    exact h (d :: p) x q (by rw [hl, List.cons_append])
  · rintro ⟨head, rest⟩ p x q hl
    cases p with
    | nil =>
      cases hl
      exact head
    | cons y p =>
      cases hl
      exact rest p x q rfl

theorem Logged.head {d : δ} {l : List δ} {s : σ} (h : Logged undo before (d :: l) s) :
    unwind undo (d :: l) s = before d := (logged_cons.mp h).1

/-- The oldest entry may be forgotten. -/
theorem Logged.tail {d : δ} {l : List δ} {s : σ} (h : Logged undo before (d :: l) s) :
    Logged undo before l s := (logged_cons.mp h).2

/-- The younger part of a log may be undone. -/
theorem Logged.front {l q : List δ} {s : σ} (h : Logged undo before (l ++ q) s) :
    Logged undo before l (unwind undo q s) := by
  intro p d r hl
  rw [← unwind_append]
  apply h p d (r ++ q)
  rw [hl, List.append_assoc, List.cons_append]

/-- A new entry. The state may be normalized before it, by an operation that commutes
with the entries undone. -/
theorem Logged.push {norm : σ → σ} {l : List δ} {x : δ} {s s' : σ}
    (h : Logged undo before l s) (hb : before x = norm s) (hu : undo x s' = norm s)
    (comm : ∀ d ∈ l, ∀ t, undo d (norm t) = norm (undo d t))
    (fixed : ∀ d ∈ l, norm (before d) = before d) : Logged undo before (l ++ [x]) s' := by
  have pass : ∀ q, (∀ d ∈ q, d ∈ l) → unwind undo q (norm s) = norm (unwind undo q s) := by
    intro q hq
    induction q with
    | nil => rfl
    | cons d q ih =>
      rw [unwind_cons, unwind_cons, ih fun y hy => hq y (List.mem_cons_of_mem _ hy)]
      exact comm d (hq d List.mem_cons_self) _
  intro p d q hl
  rcases List.eq_nil_or_concat q with hq | ⟨q, y, hq⟩
  · subst hq
    have same := List.append_inj' hl rfl
    cases same.2
    rw [unwind_cons, unwind_nil, hu, hb]
  · rw [List.concat_eq_append] at hq
    subst hq
    rw [← List.cons_append, ← List.append_assoc] at hl
    have same := List.append_inj' hl rfl
    cases same.2
    have inl : ∀ e ∈ d :: q, e ∈ l := by
      intro e he
      rw [same.1]
      exact List.mem_append_right _ he
    have newest : unwind undo [x] s' = norm s := hu
    rw [← List.cons_append, unwind_append, newest, pass _ inl, h p d q same.1]
    exact fixed d (inl d List.mem_cons_self)

section Agree

variable {κ ν : Type*} {get : σ → κ → ν} {undo undo' : δ → σ → σ} {cells : δ → Set κ}
  {back back' : δ → σ}

/-- Two ways to undo a log agree on a cell if and only if they do on the oldest entry that
covers it. -/
theorem unwind_agree_iff (l : List δ) (h : ∀ d ∈ l, Restores get (back d) (cells d) (undo d))
    (h' : ∀ d ∈ l, Restores get (back' d) (cells d) (undo' d)) (s : σ) (c : κ) :
    get (unwind undo l s) c = get (unwind undo' l s) c ↔
      ∀ p d q, l = p ++ d :: q → c ∈ cells d → (∀ e ∈ p, c ∉ cells e) →
        get (back d) c = get (back' d) c := by
  induction l with
  | nil => simp
  | cons d l ih =>
    have first := h d List.mem_cons_self
    have first' := h' d List.mem_cons_self
    rw [unwind_cons, unwind_cons]
    by_cases hc : c ∈ cells d
    · rw [first.inside _ c hc, first'.inside _ c hc]
      constructor
      · intro same p e q split _ apart
        cases p with
        | nil =>
          cases split
          exact same
        | cons x p =>
          cases split
          exact absurd hc (apart d List.mem_cons_self)
      · exact fun all => all [] d l rfl hc nofun
    · rw [first.outside _ c hc, first'.outside _ c hc,
        ih (fun e he => h e (List.mem_cons_of_mem _ he))
          fun e he => h' e (List.mem_cons_of_mem _ he)]
      constructor
      · intro all p e q split covers apart
        cases p with
        | nil =>
          cases split
          exact absurd covers hc
        | cons x p =>
          cases split
          exact all p e q rfl covers fun y hy => apart y (List.mem_cons_of_mem _ hy)
      · rintro all p e q rfl covers apart
        exact all (d :: p) e q rfl covers (List.forall_mem_cons.mpr ⟨hc, apart⟩)

end Agree

end Log

end Godson.UndoLog
