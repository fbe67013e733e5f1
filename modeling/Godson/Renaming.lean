import Godson.RsLinks

/-! Register renaming: at each speculation level the create vector names the youngest
instruction in flight on the path of that level that writes a register, unless it has
written back. The levels nest as the mispredicted branches do. -/
namespace Godson

open Mips

/-- What renaming and speculation know of an instruction. -/
structure Trace where
  op : Op
  onames : Nat → Nat
  level : Nat
  misPredict : Bool
  completed : Bool
  brcompleted : Bool

namespace Trace

def ctrl (d : Trace) : Bool := d.op.has .ctrl
def likely (d : Trace) : Bool := d.op.has .ctrlLikely

/-- The consumers of the instruction have been woken up. -/
def writtenBack (d : Trace) : Bool := d.completed || d.brcompleted

/-- A mispredicted branch that has not been recovered from. -/
def unresolved (d : Trace) : Bool := d.misPredict && !d.completed

end Trace

def Descript.trace (d : Descript) : Trace :=
  ⟨d.op, d.onames, d.specLevel, d.misPredict, d.completed, d.brcompleted⟩

/-- The entry of a register when the instructions `l`, from the oldest on, are in flight. -/
def entry (trace : Nat → Trace) (name : Nat) (l : List Nat) : Option (Nat × Nat) :=
  (l.reverse.find? fun d => (trace d).onames 0 == name).bind fun d =>
    if (trace d).writtenBack then none else some (d, 0)

section Entry

variable {trace : Nat → Trace} {name : Nat} {l : List Nat} {d : Nat}

theorem entry_nil : entry trace name [] = none := rfl

theorem entry_append (l : List Nat) (d : Nat) : entry trace name (l ++ [d]) =
    if (trace d).onames 0 = name then if (trace d).writtenBack then none else some (d, 0)
    else entry trace name l := by
  rw [entry, List.reverse_append, List.reverse_singleton, List.singleton_append, List.find?_cons]
  by_cases writes : (trace d).onames 0 = name
  · simp [writes]
  · have other : ((trace d).onames 0 == name) = false := by simpa using writes
    simp only [other, if_neg writes, entry]

theorem entry_congr {trace' : Nat → Trace} (same : ∀ d ∈ l,
      (trace' d).onames = (trace d).onames ∧ (trace' d).writtenBack = (trace d).writtenBack) :
    entry trace' name l = entry trace name l := by
  induction l using List.reverseRecOn with
  | nil => rfl
  | append_singleton l d ih =>
    obtain ⟨names, back⟩ := same d (by simp)
    rw [entry_append, entry_append, names, back, ih fun e he => same e (by simp [he])]

theorem entry_some {out : Nat} (h : entry trace name l = some (d, out)) :
    d ∈ l ∧ out = 0 ∧ (trace d).onames 0 = name ∧ (trace d).writtenBack = false := by
  induction l using List.reverseRecOn with
  | nil => cases h
  | append_singleton l e ih =>
    rw [entry_append] at h
    split at h
    · rename_i writes
      split at h
      · cases h
      · rename_i fresh
        cases h
        exact ⟨by simp, rfl, writes, Bool.eq_false_of_not_eq_true fresh⟩
    · obtain ⟨here, rest⟩ := ih h
      exact ⟨by simp [here], rest⟩

/-- The oldest instruction may leave when it has written back. -/
theorem entry_cons (back : (trace d).writtenBack) :
    entry trace name (d :: l) = entry trace name l := by
  induction l using List.reverseRecOn with
  | nil =>
    have one := @entry_append trace name [] d
    rw [List.nil_append] at one
    rw [one, entry_nil]
    simp [back]
  | append_singleton l e ih => rw [← List.cons_append, entry_append, entry_append, ih]

/-- An instruction writes back: its entry, if it has one, is empty now. -/
theorem entry_back {trace' : Nat → Trace} (other : ∀ e, e ≠ d → trace' e = trace e)
    (same : (trace' d).onames = (trace d).onames) (back : (trace' d).writtenBack) :
    entry trace' name l =
      if entry trace name l = some (d, 0) then none else entry trace name l := by
  induction l using List.reverseRecOn with
  | nil => simp [entry_nil]
  | append_singleton l e ih =>
    rw [entry_append, entry_append]
    by_cases here : e = d
    · subst here
      by_cases writes : (trace e).onames 0 = name
      · simp only [same, writes, back, if_true]
        split <;> simp_all
      · simp [same, writes, ih]
    · rw [other e here]
      by_cases writes : (trace e).onames 0 = name
      · have ne : ¬(if (trace e).writtenBack = true then none else some (e, 0)) = some (d, 0) := by
          split <;> simp [here]
        simp [writes, ne]
      · simp [writes, ih]

/-- The instruction that is the youngest writer at one level is it at the levels below, as far
as it runs there. -/
theorem entry_below {level : Nat → Nat} {k m : Nat} (low : level d ≤ k) (le : k ≤ m)
    (h : entry trace name (l.filter fun e => level e ≤ m) = some (d, 0)) :
    entry trace name (l.filter fun e => level e ≤ k) = some (d, 0) := by
  induction l using List.reverseRecOn with
  | nil => cases h
  | append_singleton l e ih =>
    rw [List.filter_append, List.filter_singleton] at h ⊢
    by_cases above : level e ≤ k
    · have inside : level e ≤ m := Nat.le_trans above le
      simp only [above, inside, decide_true, cond_true] at h ⊢
      rw [entry_append] at h ⊢
      split at h
      · rename_i writes
        rw [if_pos writes]
        exact h
      · rename_i other
        rw [if_neg other]
        exact ih h
    · simp only [above, decide_false, cond_false, List.append_nil]
      by_cases inside : level e ≤ m
      · simp only [inside, decide_true, cond_true] at h
        rw [entry_append] at h
        split at h
        · split at h
          · cases h
          · cases h
            exact absurd low above
        · exact ih h
      · simp only [inside, decide_false, cond_false, List.append_nil] at h
        exact ih h

end Entry

/-- The parts of the state that renaming and speculation work on. -/
structure Course where
  trace : Nat → Trace
  fetchData : List Nat
  decodeData : List Nat
  createVector : Nat → Nat → Option (Nat × Nat)
  specLevel : Nat
  lastIsBranch : Bool
  enteringSpec : Bool

def Backend.course (s : Backend) : Course :=
  ⟨fun d => (s.desc d).trace, s.fetchData, s.decodeData, s.createVector, s.specLevel,
    s.lastIsBranch, s.enteringSpec⟩

/-- The instructions behind a branch that a misprediction takes back. -/
def Trace.behind (d : Trace) (l : List Nat) : List Nat := if d.likely then l else l.tail

/-- The instructions in flight `l`, from the oldest on, and the levels that they run at. -/
structure Levels (c : Course) (l : List Nat) : Prop where
  branch : ∀ d ∈ l, (c.trace d).misPredict → (c.trace d).ctrl
  sorted : l.Pairwise fun a b => (c.trace a).level ≤ (c.trace b).level
  bound : ∀ d ∈ l, (c.trace d).level ≤ c.specLevel
  nested : ∀ before d behind, l = before ++ d :: behind → (c.trace d).unresolved →
    (∀ e ∈ (c.trace d).behind behind, (c.trace d).level < (c.trace e).level) ∧
    ((c.trace d).likely ∨ behind ≠ [] → (c.trace d).level < c.specLevel) ∧
    ((c.trace d).likely = false → ∀ e ∈ behind.head?,
      (c.trace e).ctrl = false ∧ (c.trace e).level = (c.trace d).level)
  entering : c.enteringSpec = true → ∃ before d, l = before ++ [d] ∧ (c.trace d).unresolved ∧
    (c.trace d).likely = false ∧ (c.trace d).level = c.specLevel
  pending : ∀ before d, l = before ++ [d] → (c.trace d).unresolved →
    (c.trace d).likely = false → c.enteringSpec = true
  slot : c.enteringSpec = true → c.lastIsBranch = true ∨
    ∃ d rest, c.fetchData = d :: rest ∧ (c.trace d).ctrl = false
  covered : ∀ n < c.specLevel, ∃ d ∈ l, (c.trace d).unresolved ∧ (c.trace d).level = n

/-- The create vector up to level `top`. -/
def Named (c : Course) (l : List Nat) (top : Nat) : Prop :=
  ∀ n < top, ∀ name ≠ 0, c.createVector n name =
    entry c.trace name (l.filter fun d => (c.trace d).level ≤ n)

/-- The state of renaming with the instructions `roq` in the reorder queue. -/
structure Renamed (c : Course) (roq : List Nat) : Prop where
  front : ∀ d ∈ c.fetchData, (c.trace d).completed = false ∧ (c.trace d).brcompleted = false
  second : ∀ d ∈ roq ++ c.decodeData, (c.trace d).onames 1 = 0
  levels : Levels c (roq ++ c.decodeData)
  named : Named c (roq ++ c.decodeData) (c.specLevel + 1)

section Levels

variable {c c' : Course} {l : List Nat} {d : Nat}

/-- Levels depend on few things. -/
theorem Levels.congr (h : Levels c l) (same : ∀ d ∈ l, (c'.trace d).op = (c.trace d).op ∧
      (c'.trace d).level = (c.trace d).level ∧
      (c'.trace d).misPredict = (c.trace d).misPredict ∧
      (c'.trace d).unresolved = (c.trace d).unresolved)
    (spec : c'.specLevel = c.specLevel) (entering : c'.enteringSpec = c.enteringSpec)
    (slot : c'.enteringSpec = true → c'.lastIsBranch = true ∨
      ∃ d rest, c'.fetchData = d :: rest ∧ (c'.trace d).ctrl = false) : Levels c' l := by
  have op {d : Nat} (hd : d ∈ l) := (same d hd).1
  have level {d : Nat} (hd : d ∈ l) := (same d hd).2.1
  have miss {d : Nat} (hd : d ∈ l) := (same d hd).2.2.1
  have open' {d : Nat} (hd : d ∈ l) := (same d hd).2.2.2
  have likely {d : Nat} (hd : d ∈ l) : (c'.trace d).likely = (c.trace d).likely := by
    rw [Trace.likely, op hd, Trace.likely]
  have ctrl {d : Nat} (hd : d ∈ l) : (c'.trace d).ctrl = (c.trace d).ctrl := by
    rw [Trace.ctrl, op hd, Trace.ctrl]
  constructor
  case branch =>
    intro d hd wrong
    rw [ctrl hd]
    exact h.branch d hd (miss hd ▸ wrong)
  case sorted =>
    refine h.sorted.imp_of_mem fun {a b} ha hb le => ?_
    rwa [level ha, level hb]
  case bound =>
    intro d hd
    rw [level hd, spec]
    exact h.bound d hd
  case nested =>
    intro before d behind split unresolved
    have hd : d ∈ l := by simp [split]
    have hbehind {e : Nat} (he : e ∈ behind) : e ∈ l := by simp [split, he]
    obtain ⟨deeper, below, plain⟩ := h.nested before d behind split (open' hd ▸ unresolved)
    have tail {e : Nat} (he : e ∈ (c'.trace d).behind behind) :
        e ∈ (c.trace d).behind behind ∧ e ∈ behind := by
      rw [Trace.behind, likely hd] at he
      refine ⟨he, ?_⟩
      split at he
      · exact he
      · exact List.mem_of_mem_tail he
    refine ⟨fun e he => ?_, ?_, ?_⟩
    · obtain ⟨he, inside⟩ := tail he
      rw [level hd, level (hbehind inside)]
      exact deeper e he
    · rw [likely hd, level hd, spec]
      exact below
    · rw [likely hd]
      intro kind e he
      have inside := hbehind (List.mem_of_mem_head? he)
      rw [ctrl inside, level inside, level hd]
      exact plain kind e he
  case entering =>
    rw [entering]
    intro enters
    obtain ⟨before, d, split, unresolved, kind, top⟩ := h.entering enters
    have hd : d ∈ l := by simp [split]
    exact ⟨before, d, split, (open' hd).trans unresolved, (likely hd).trans kind,
      (level hd).trans (top.trans spec.symm)⟩
  case pending =>
    intro before d split unresolved kind
    have hd : d ∈ l := by simp [split]
    rw [entering]
    exact h.pending before d split ((open' hd).symm.trans unresolved)
      ((likely hd).symm.trans kind)
  case slot => exact slot
  case covered =>
    intro n hn
    obtain ⟨d, hd, unresolved, at_n⟩ := h.covered n (spec ▸ hn)
    exact ⟨d, hd, (open' hd).trans unresolved, (level hd).trans at_n⟩

/-- The oldest instruction leaves, when it is not an open branch. -/
theorem Levels.tail (h : Levels c (d :: l)) (closed : (c.trace d).unresolved = false) :
    Levels c l := by
  constructor
  case branch => exact fun e he => h.branch e (List.mem_cons_of_mem _ he)
  case sorted => exact (List.pairwise_cons.mp h.sorted).2
  case bound => exact fun e he => h.bound e (List.mem_cons_of_mem _ he)
  case nested =>
    intro before e behind split
    exact h.nested (d :: before) e behind (by rw [split, List.cons_append])
  case entering =>
    intro enters
    obtain ⟨before, e, split, unresolved, kind, top⟩ := h.entering enters
    cases before with
    | nil =>
      simp only [List.nil_append, List.cons.injEq] at split
      obtain ⟨rfl, -⟩ := split
      exact absurd unresolved (by simp [closed])
    | cons a before =>
      simp only [List.cons_append, List.cons.injEq] at split
      exact ⟨before, e, split.2, unresolved, kind, top⟩
  case pending =>
    intro before e split
    exact h.pending (d :: before) e (by rw [split, List.cons_append])
  case slot => exact h.slot
  case covered =>
    intro n hn
    obtain ⟨e, he, unresolved, at_n⟩ := h.covered n hn
    rcases List.mem_cons.mp he with rfl | he
    · exact absurd unresolved (by simp [closed])
    · exact ⟨e, he, unresolved, at_n⟩

/-- A new instruction is decoded at the present level. -/
theorem Levels.append (h : Levels c l) (outside : d ∉ l)
    (same : ∀ e, e ≠ d → c'.trace e = c.trace e)
    (level : (c'.trace d).level = c.specLevel) (fresh : (c'.trace d).completed = false)
    (branch : (c'.trace d).misPredict → (c'.trace d).ctrl)
    (plain : c.enteringSpec = true → (c'.trace d).ctrl = false)
    (spec : c'.specLevel = c.specLevel +
      if c.enteringSpec = true ∨ (c'.trace d).misPredict = true ∧ (c'.trace d).likely = true
        then 1 else 0)
    (entering : c'.enteringSpec =
      (!c.enteringSpec && (c'.trace d).misPredict && !(c'.trace d).likely))
    (slot : c'.enteringSpec = true → c'.lastIsBranch = true) : Levels c' (l ++ [d]) := by
  have old {e : Nat} (he : e ∈ l) : c'.trace e = c.trace e := by
    refine same e ?_
    rintro rfl
    exact outside he
  have goes : c.enteringSpec = true → (c'.trace d).misPredict = false := by
    intro enters
    by_contra wrong
    have ctrl := branch (Bool.eq_true_of_not_eq_false wrong)
    rw [plain enters] at ctrl
    cases ctrl
  have up : c.specLevel ≤ c'.specLevel := by omega
  constructor
  case branch =>
    intro e he
    rcases List.mem_append.mp he with he | he
    · rw [old he]
      exact h.branch e he
    · rw [List.mem_singleton.mp he]
      exact branch
  case sorted =>
    refine List.pairwise_append.mpr ⟨?_, List.pairwise_singleton .., fun a ha b hb => ?_⟩
    · refine h.sorted.imp_of_mem fun {a b} ha hb le => ?_
      rwa [old ha, old hb]
    · rw [List.mem_singleton.mp hb, level, old ha]
      exact h.bound a ha
  case bound =>
    intro e he
    rcases List.mem_append.mp he with he | he
    · rw [old he]
      exact Nat.le_trans (h.bound e he) up
    · rw [List.mem_singleton.mp he, level]
      exact up
  case nested =>
    intro before e behind split unresolved
    rcases List.eq_nil_or_concat' behind with rfl | ⟨inner, z, rfl⟩
    · obtain ⟨rfl, same⟩ := List.append_inj' split rfl
      obtain rfl : d = e := by simpa using same
      refine ⟨fun e he => ?_, fun kind => ?_, fun _ e he => ?_⟩
      · simp [Trace.behind] at he
      · have wrong : (c'.trace d).misPredict = true := by
          simp only [Trace.unresolved, Bool.and_eq_true] at unresolved
          exact unresolved.1
        rw [level, spec, if_pos (.inr ⟨wrong, by simpa using kind⟩)]
        exact Nat.lt_succ_self _
      · cases he
    · rw [← List.cons_append, ← List.append_assoc] at split
      obtain ⟨rfl, last⟩ := List.append_inj' split rfl
      obtain rfl : d = z := by simpa using last
      have he : e ∈ before ++ e :: inner := by simp
      have hinner {x : Nat} (hx : x ∈ inner) : x ∈ before ++ e :: inner := by simp [hx]
      rw [old he] at unresolved ⊢
      obtain ⟨deeper, below, next⟩ := h.nested before e inner rfl unresolved
      refine ⟨fun x hx => ?_, fun _ => ?_, fun kind x hx => ?_⟩
      · cases kind : (c.trace e).likely with
        | true =>
          simp only [Trace.behind, kind, if_true] at hx deeper
          rcases List.mem_append.mp hx with hx | hx
          · rw [old (hinner hx)]
            exact deeper x hx
          · rw [List.mem_singleton.mp hx, level]
            exact below (.inl kind)
        | false =>
          simp only [Trace.behind, kind, Bool.false_eq_true, if_false] at hx deeper
          cases inner with
          | nil => simp at hx
          | cons a rest =>
            rw [List.cons_append, List.tail_cons] at hx
            rcases List.mem_append.mp hx with hx | hx
            · rw [old (hinner (List.mem_cons_of_mem _ hx))]
              exact deeper x hx
            · rw [List.mem_singleton.mp hx, level]
              exact below (.inr (by simp))
      · by_cases inside : (c.trace e).likely = true ∨ inner ≠ []
        · exact Nat.lt_of_lt_of_le (below inside) up
        · rw [not_or, not_not, Bool.not_eq_true] at inside
          obtain ⟨kind, rfl⟩ := inside
          rw [spec, if_pos (.inl (h.pending before e rfl unresolved kind))]
          exact Nat.lt_succ_of_le (h.bound e he)
      · cases inner with
        | nil =>
          obtain rfl : d = x := by simpa using hx
          have enters := h.pending before e rfl unresolved kind
          obtain ⟨before', e', split, -, -, top⟩ := h.entering enters
          obtain ⟨-, last⟩ := List.append_inj' split rfl
          obtain rfl : e = e' := by simpa using last
          exact ⟨plain enters, level.trans top.symm⟩
        | cons a rest =>
          obtain rfl : a = x := by simpa using hx
          rw [old (hinner List.mem_cons_self)]
          exact next kind a rfl
  case entering =>
    intro enters
    rw [entering, Bool.and_eq_true, Bool.and_eq_true, Bool.not_eq_true', Bool.not_eq_true'] at enters
    obtain ⟨⟨outer, wrong⟩, kind⟩ := enters
    refine ⟨l, d, rfl, by simp [Trace.unresolved, wrong, fresh], kind, ?_⟩
    rw [level, spec, if_neg (by simp [outer, kind]), Nat.add_zero]
  case pending =>
    intro before e split unresolved kind
    obtain ⟨rfl, last⟩ := List.append_inj' split rfl
    obtain rfl : d = e := by simpa using last
    have wrong : (c'.trace d).misPredict = true := by
      simp only [Trace.unresolved, Bool.and_eq_true] at unresolved
      exact unresolved.1
    have outer : c.enteringSpec = false := by
      by_contra enters
      rw [goes (Bool.eq_true_of_not_eq_false enters)] at wrong
      cases wrong
    rw [entering, outer, wrong, kind]
    rfl
  case slot => exact fun enters => .inl (slot enters)
  case covered =>
    intro n hn
    by_cases below : n < c.specLevel
    · obtain ⟨e, he, unresolved, at_n⟩ := h.covered n below
      exact ⟨e, List.mem_append_left _ he, by rwa [old he], by rwa [old he]⟩
    · have top : n = c.specLevel := by
        rw [spec] at hn
        split at hn <;> omega
      subst top
      have deeper : c.enteringSpec = true ∨
          (c'.trace d).misPredict = true ∧ (c'.trace d).likely = true := by
        by_contra neither
        rw [spec, if_neg neither] at hn
        omega
      rcases deeper with enters | ⟨wrong, kind⟩
      · obtain ⟨before, e, split, unresolved, -, at_n⟩ := h.entering enters
        have he : e ∈ l := by simp [split]
        exact ⟨e, List.mem_append_left _ he, by rwa [old he], by rwa [old he]⟩
      · exact ⟨d, by simp, by simp [Trace.unresolved, wrong, fresh], level⟩

/-- The instructions that stay when a branch is recovered from. -/
def Trace.kept (d : Trace) (behind : List Nat) : List Nat :=
  if d.likely then [] else behind.take 1

/-- A mispredicted branch is recovered from: what ran at deeper levels is gone. -/
theorem Levels.recover {before behind : List Nat} (h : Levels c l)
    (split : l = before ++ d :: behind) (unresolved : (c.trace d).unresolved)
    (same : ∀ e, (c'.trace e).op = (c.trace e).op ∧ (c'.trace e).level = (c.trace e).level ∧
      (c'.trace e).misPredict = (c.trace e).misPredict)
    (others : ∀ e, e ≠ d → (c'.trace e).unresolved = (c.trace e).unresolved)
    (closed : (c'.trace d).unresolved = false) (spec : c'.specLevel = (c.trace d).level)
    (entering : c'.enteringSpec = false) :
    Levels c' (before ++ d :: (c.trace d).kept behind) := by
  have here : d ∈ l := by simp [split]
  have wrong : (c.trace d).misPredict = true := by
    simp only [Trace.unresolved, Bool.and_eq_true] at unresolved
    exact unresolved.1
  have op (e : Nat) := (same e).1
  have level (e : Nat) := (same e).2.1
  have likely (e : Nat) : (c'.trace e).likely = (c.trace e).likely := by
    rw [Trace.likely, op, Trace.likely]
  have ctrl (e : Nat) : (c'.trace e).ctrl = (c.trace e).ctrl := by
    rw [Trace.ctrl, op, Trace.ctrl]
  obtain ⟨-, -, plain⟩ := h.nested before d behind split unresolved
  have stays {z : Nat} (hz : z ∈ (c.trace d).kept behind) : z ∈ behind ∧
      (c.trace z).ctrl = false ∧ (c.trace z).level = (c.trace d).level := by
    rw [Trace.kept] at hz
    split at hz
    · cases hz
    · rename_i kind
      cases behind with
      | nil => cases hz
      | cons a rest =>
        obtain rfl : z = a := by simpa using hz
        exact ⟨List.mem_cons_self, plain (Bool.eq_false_of_not_eq_true kind) z rfl⟩
  have old {e : Nat} (he : e ∈ before ++ d :: (c.trace d).kept behind) : e ∈ l := by
    rw [split]
    rcases List.mem_append.mp he with he | he
    · exact List.mem_append_left _ he
    · rcases List.mem_cons.mp he with rfl | he
      · simp
      · exact List.mem_append_right _ (List.mem_cons_of_mem _ (stays he).1)
  have under {e : Nat} (he : e ∈ before) : (c.trace e).level ≤ (c.trace d).level := by
    have sorted := h.sorted
    rw [split] at sorted
    exact (List.pairwise_append.mp sorted).2.2 e he d List.mem_cons_self
  -- an open branch is in front of the one that is recovered from
  have locate {before' : List Nat} {e : Nat} {behind' : List Nat}
      (split' : before ++ d :: (c.trace d).kept behind = before' ++ e :: behind')
      (open' : (c'.trace e).unresolved) : (c.trace e).unresolved ∧
        ∃ inner, before = before' ++ e :: inner ∧ behind' = inner ++ d :: (c.trace d).kept behind := by
    have ne : e ≠ d := by
      rintro rfl
      exact absurd open' (by simp [closed])
    have opened : (c.trace e).unresolved := by rwa [← others e ne]
    refine ⟨opened, ?_⟩
    have absent : e ∉ (c.trace d).kept behind := by
      intro hz
      simp only [Trace.unresolved, Bool.and_eq_true] at opened
      have := h.branch e (old (by simp [hz])) opened.1
      rw [(stays hz).2.1] at this
      cases this
    rcases List.append_eq_append_iff.mp split' with ⟨front, -, rest⟩ | ⟨inner, front, rest⟩
    · cases front with
      | nil =>
        simp only [List.nil_append, List.cons.injEq] at rest
        exact absurd rest.1.symm ne
      | cons a front =>
        simp only [List.cons_append, List.cons.injEq] at rest
        exact absurd (by simp [rest.2]) absent
    · cases inner with
      | nil =>
        simp only [List.nil_append, List.cons.injEq] at rest
        exact absurd rest.1 ne
      | cons a inner =>
        simp only [List.cons_append, List.cons.injEq] at rest
        obtain ⟨rfl, rfl⟩ := rest
        exact ⟨inner, front, rfl⟩
  constructor
  case branch =>
    intro e he miss
    rw [ctrl]
    exact h.branch e (old he) ((same e).2.2 ▸ miss)
  case sorted =>
    have part : (before ++ d :: (c.trace d).kept behind).Sublist l := by
      rw [split]
      refine List.Sublist.append_left (List.Sublist.cons_cons d ?_) before
      rw [Trace.kept]
      split
      · exact List.nil_sublist _
      · exact List.take_sublist ..
    refine (h.sorted.sublist part).imp fun {a b} le => ?_
    rwa [level, level]
  case bound =>
    intro e he
    rw [level, spec]
    rcases List.mem_append.mp he with he | he
    · exact under he
    · rcases List.mem_cons.mp he with rfl | he
      · exact Nat.le_refl _
      · exact Nat.le_of_eq (stays he).2.2
  case nested =>
    intro before' e behind' split' open'
    obtain ⟨opened, inner, rfl, rfl⟩ := locate split' open'
    have whole : l = before' ++ e :: (inner ++ d :: behind) := by
      rw [split, List.append_assoc, List.cons_append]
    obtain ⟨deeper, -, next⟩ := h.nested before' e _ whole opened
    refine ⟨fun x hx => ?_, fun _ => ?_, fun kind x hx => ?_⟩
    · rw [level, level]
      refine deeper x ?_
      rw [Trace.behind, likely] at hx
      rw [Trace.behind]
      cases kind : (c.trace e).likely with
      | true =>
        simp only [kind, if_true, List.mem_append, List.mem_cons] at hx ⊢
        exact hx.imp_right fun rest => rest.imp_right fun hz => (stays hz).1
      | false =>
        simp only [kind, Bool.false_eq_true, if_false] at hx ⊢
        cases inner with
        | nil => exact (stays hx).1
        | cons a inner =>
          simp only [List.cons_append, List.tail_cons, List.mem_append, List.mem_cons] at hx ⊢
          exact hx.imp_right fun rest => rest.imp_right fun hz => (stays hz).1
    · rw [level, spec]
      refine deeper d ?_
      rw [Trace.behind]
      cases kind : (c.trace e).likely with
      | true => simp
      | false =>
        cases inner with
        | nil =>
          have ctrl := h.branch d here wrong
          rw [(next kind d rfl).1] at ctrl
          cases ctrl
        | cons a inner => simp
    · rw [ctrl, level, level]
      refine next ((likely e).symm.trans kind) x ?_
      cases inner with
      | nil => simpa using hx
      | cons a inner => simpa using hx
  case entering =>
    intro enters
    rw [entering] at enters
    cases enters
  case pending =>
    intro before' e split' open' kind
    obtain ⟨-, inner, -, rest⟩ := locate split' open'
    simp at rest
  case slot =>
    intro enters
    rw [entering] at enters
    cases enters
  case covered =>
    intro n hn
    rw [spec] at hn
    have top := h.bound d here
    obtain ⟨e, he, opened, at_n⟩ := h.covered n (by omega)
    have ne : e ≠ d := by
      rintro rfl
      omega
    rw [split] at he
    rcases List.mem_append.mp he with front | rest
    · exact ⟨e, by simp [front], by rwa [others e ne], (level e).trans at_n⟩
    · have sorted := h.sorted
      rw [split] at sorted
      rcases List.mem_cons.mp rest with rfl | rest
      · exact absurd rfl ne
      · have le := (List.pairwise_cons.mp (List.pairwise_append.mp sorted).2.1).1 e rest
        omega

end Levels

section Named

variable {c c' : Course} {l : List Nat} {d top : Nat}

theorem Named.congr (h : Named c l top) (same : ∀ d ∈ l,
      (c'.trace d).onames = (c.trace d).onames ∧ (c'.trace d).level = (c.trace d).level ∧
      (c'.trace d).writtenBack = (c.trace d).writtenBack)
    (vector : ∀ n < top, c'.createVector n = c.createVector n) : Named c' l top := by
  intro n hn name named
  have path : l.filter (fun d => (c'.trace d).level ≤ n) =
      l.filter fun d => (c.trace d).level ≤ n :=
    List.filter_congr fun e he => by rw [(same e he).2.1]
  rw [vector n hn, path, h n hn name named]
  refine (entry_congr fun e he => ?_).symm
  obtain ⟨names, -, back⟩ := same e (List.mem_of_mem_filter he)
  exact ⟨names, back⟩

theorem Named.tail (h : Named c (d :: l) top) (back : (c.trace d).writtenBack) :
    Named c l top := by
  intro n hn name named
  rw [h n hn name named, List.filter_cons]
  split
  · exact entry_cons back
  · rfl

/-- An instruction writes back, and its entries are emptied. -/
theorem Named.back (h : Named c l top) (other : ∀ e, e ≠ d → c'.trace e = c.trace e)
    (same : (c'.trace d).onames = (c.trace d).onames)
    (level : (c'.trace d).level = (c.trace d).level) (back : (c'.trace d).writtenBack)
    (vector : ∀ n < top, ∀ name ≠ 0, c'.createVector n name =
      if c.createVector n name = some (d, 0) then none else c.createVector n name) :
    Named c' l top := by
  intro n hn name named
  have path : l.filter (fun d => (c'.trace d).level ≤ n) =
      l.filter fun d => (c.trace d).level ≤ n := by
    refine List.filter_congr fun e _ => ?_
    by_cases here : e = d
    · rw [here, level]
    · rw [other e here]
  rw [vector n hn name named, path, entry_back other same back, h n hn name named]

/-- A decoded instruction takes the entry of its output, and a deeper level starts with a
copy. -/
theorem Named.append (h : Named c l (c.specLevel + 1)) (outside : d ∉ l)
    (bound : ∀ e ∈ l, (c.trace e).level ≤ c.specLevel)
    (same : ∀ e, e ≠ d → (c'.trace e).onames = (c.trace e).onames ∧
      (c'.trace e).level = (c.trace e).level ∧
      (c'.trace e).writtenBack = (c.trace e).writtenBack)
    (level : (c'.trace d).level = c.specLevel) (fresh : (c'.trace d).writtenBack = false)
    (vector : ∀ n ≤ c.specLevel, ∀ name ≠ 0, c'.createVector n name =
      if n = c.specLevel ∧ (c'.trace d).onames 0 = name then some (d, 0)
      else c.createVector n name)
    (spec : c'.specLevel = c.specLevel ∨ c'.specLevel = c.specLevel + 1 ∧
      c'.createVector (c.specLevel + 1) = c'.createVector c.specLevel) :
    Named c' (l ++ [d]) (c'.specLevel + 1) := by
  have other {e : Nat} (he : e ∈ l) : e ≠ d := by
    rintro rfl
    exact outside he
  have old (part : List Nat) (inside : ∀ e ∈ part, e ∈ l) (name : Nat) :
      entry c'.trace name part = entry c.trace name part :=
    entry_congr fun e he => by
      obtain ⟨names, -, back⟩ := same e (other (inside e he))
      exact ⟨names, back⟩
  have path (n : Nat) : l.filter (fun e => (c'.trace e).level ≤ n) =
      l.filter fun e => (c.trace e).level ≤ n :=
    List.filter_congr fun e he => by rw [(same e (other he)).2.1]
  have whole {n : Nat} (hn : c.specLevel ≤ n) : l.filter (fun e => (c.trace e).level ≤ n) = l :=
    List.filter_eq_self.mpr fun e he => by
      simpa using Nat.le_trans (bound e he) hn
  have at_top (n : Nat) (hn : c.specLevel ≤ n) (name : Nat) (named : name ≠ 0) :
      c'.createVector c.specLevel name =
        entry c'.trace name ((l ++ [d]).filter fun e => (c'.trace e).level ≤ n) := by
    rw [List.filter_append, path, whole hn, List.filter_singleton, level]
    simp only [hn, decide_true, cond_true]
    rw [entry_append, fresh, old l (fun _ he => he), vector _ (Nat.le_refl _) name named,
      h _ (Nat.lt_succ_self _) name named, whole (Nat.le_refl _)]
    simp
  intro n hn name named
  by_cases low : n < c.specLevel
  · have out : ¬ c.specLevel ≤ n := by omega
    rw [List.filter_append, path, List.filter_singleton, level]
    simp only [out, decide_false, cond_false, List.append_nil]
    rw [old _ (fun _ he => List.mem_of_mem_filter he), vector n (by omega) name named,
      if_neg (by omega), h n (by omega) name named]
  · by_cases here : n = c.specLevel
    · subst here
      exact at_top _ (Nat.le_refl _) name named
    · rcases spec with same | ⟨next, copy⟩
      · omega
      · obtain rfl : n = c.specLevel + 1 := by omega
        rw [copy]
        exact at_top _ (Nat.le_succ _) name named

/-- What ran at deeper levels is gone. -/
theorem Named.front {gone : List Nat} (h : Named c (l ++ gone) top) {low : Nat} (le : low ≤ top)
    (deeper : ∀ e ∈ gone, low ≤ (c.trace e).level) : Named c l low := by
  intro n hn name named
  rw [h n (by omega) name named, List.filter_append]
  have none : gone.filter (fun e => (c.trace e).level ≤ n) = [] := by
    refine List.filter_eq_nil_iff.mpr fun e he => ?_
    have := deeper e he
    simp only [decide_eq_true_eq]
    omega
  rw [none, List.append_nil]

end Named

namespace Renamed

variable {c c' : Course} {roq : List Nat} {d : Nat}

theorem retire (h : Renamed c (d :: roq)) (done : (c.trace d).completed) : Renamed c roq where
  front := h.front
  second e he := h.second e (List.mem_cons_of_mem _ he)
  levels := h.levels.tail (by simp [Trace.unresolved, done])
  named := h.named.tail (by simp [Trace.writtenBack, done])

theorem map {rest : List Nat} (h : Renamed c roq) (queue : c.decodeData = d :: rest) :
    Renamed { c with decodeData := rest } (roq ++ [d]) := by
  have whole : roq ++ [d] ++ rest = roq ++ c.decodeData := by simp [queue]
  exact {
    front := h.front
    second := by simpa only [whole] using h.second
    levels := by
      simp only [whole]
      exact h.levels.congr (fun _ _ => ⟨rfl, rfl, rfl, rfl⟩) rfl rfl h.levels.slot
    named := by
      simp only [whole]
      exact h.named.congr (fun _ _ => ⟨rfl, rfl, rfl⟩) fun _ _ => rfl }

/-- An instruction in the reorder queue changes to another state in which it is known as
before. -/
theorem settle (h : Renamed c roq) (other : ∀ e, e ≠ d → c'.trace e = c.trace e)
    (outside : d ∉ c.fetchData) (op : (c'.trace d).op = (c.trace d).op)
    (names : (c'.trace d).onames = (c.trace d).onames)
    (level : (c'.trace d).level = (c.trace d).level)
    (miss : (c'.trace d).misPredict = (c.trace d).misPredict)
    (unresolved : (c'.trace d).unresolved = (c.trace d).unresolved)
    (fetch : c'.fetchData = c.fetchData) (decode : c'.decodeData = c.decodeData)
    (spec : c'.specLevel = c.specLevel) (last : c'.lastIsBranch = c.lastIsBranch)
    (entering : c'.enteringSpec = c.enteringSpec)
    (named : Named c' (roq ++ c.decodeData) (c.specLevel + 1)) : Renamed c' roq := by
  have same (e : Nat) : (c'.trace e).op = (c.trace e).op ∧
      (c'.trace e).onames = (c.trace e).onames ∧ (c'.trace e).level = (c.trace e).level ∧
      (c'.trace e).misPredict = (c.trace e).misPredict ∧
      (c'.trace e).unresolved = (c.trace e).unresolved := by
    by_cases here : e = d
    · rw [here]
      exact ⟨op, names, level, miss, unresolved⟩
    · rw [other e here]
      exact ⟨rfl, rfl, rfl, rfl, rfl⟩
  constructor
  case front =>
    intro e he
    rw [fetch] at he
    have ne : e ≠ d := by
      rintro rfl
      exact outside he
    rw [other e ne]
    exact h.front e he
  case second =>
    intro e he
    rw [decode] at he
    rw [(same e).2.1]
    exact h.second e he
  case levels =>
    rw [decode]
    refine h.levels.congr (fun e _ => ?_) spec entering fun enters => ?_
    · obtain ⟨op, -, level, miss, unresolved⟩ := same e
      exact ⟨op, level, miss, unresolved⟩
    · rw [last, fetch]
      rcases h.levels.slot (entering ▸ enters) with branch | ⟨e, rest, queue, plain⟩
      · exact .inl branch
      · exact .inr ⟨e, rest, queue, by rwa [Trace.ctrl, (same e).1, ← Trace.ctrl]⟩
  case named =>
    rw [decode, spec]
    exact named

/-- An instruction writes back. -/
theorem finish (h : Renamed c roq) (here : d ∈ roq) (outside : d ∉ c.fetchData)
    (other : ∀ e, e ≠ d → c'.trace e = c.trace e) (op : (c'.trace d).op = (c.trace d).op)
    (names : (c'.trace d).onames = (c.trace d).onames)
    (level : (c'.trace d).level = (c.trace d).level)
    (miss : (c'.trace d).misPredict = (c.trace d).misPredict)
    (branch : (c.trace d).ctrl → (c'.trace d).completed = (c.trace d).completed)
    (back : (c'.trace d).writtenBack)
    (fetch : c'.fetchData = c.fetchData) (decode : c'.decodeData = c.decodeData)
    (spec : c'.specLevel = c.specLevel) (last : c'.lastIsBranch = c.lastIsBranch)
    (entering : c'.enteringSpec = c.enteringSpec)
    (vector : ∀ n < c.specLevel + 1, ∀ name ≠ 0, c'.createVector n name =
      if c.createVector n name = some (d, 0) then none else c.createVector n name) :
    Renamed c' roq := by
  have unresolved : (c'.trace d).unresolved = (c.trace d).unresolved := by
    rw [Trace.unresolved, Trace.unresolved, miss]
    cases wrong : (c.trace d).misPredict with
    | false => rfl
    | true =>
      have kind := h.levels.branch d (List.mem_append_left _ here) wrong
      rw [branch kind]
  exact h.settle other outside op names level miss unresolved fetch decode spec last entering
    (h.named.back other names level back vector)

/-- The state behind a recovery. -/
theorem recover {before behind : List Nat} (h : Renamed c roq)
    (split : roq ++ c.decodeData = before ++ d :: behind) (unresolved : (c.trace d).unresolved)
    (back : (c.trace d).writtenBack) (other : ∀ e, e ≠ d → c'.trace e = c.trace e)
    (op : (c'.trace d).op = (c.trace d).op) (names : (c'.trace d).onames = (c.trace d).onames)
    (level : (c'.trace d).level = (c.trace d).level)
    (miss : (c'.trace d).misPredict = (c.trace d).misPredict)
    (done : (c'.trace d).completed) (fetch : c'.fetchData = []) (decode : c'.decodeData = [])
    (spec : c'.specLevel = (c.trace d).level) (entering : c'.enteringSpec = false)
    (vector : c'.createVector = c.createVector) :
    Renamed c' (before ++ d :: (c.trace d).kept behind) := by
  have same (e : Nat) : (c'.trace e).op = (c.trace e).op ∧
      (c'.trace e).onames = (c.trace e).onames ∧ (c'.trace e).level = (c.trace e).level ∧
      (c'.trace e).misPredict = (c.trace e).misPredict ∧
      (c'.trace e).writtenBack = (c.trace e).writtenBack := by
    by_cases here : e = d
    · rw [here]
      exact ⟨op, names, level, miss, by rw [back, Trace.writtenBack, done, Bool.true_or]⟩
    · rw [other e here]
      exact ⟨rfl, rfl, rfl, rfl, rfl⟩
  have parts : (c.trace d).kept behind ++ (c.trace d).behind behind = behind := by
    rw [Trace.kept, Trace.behind]
    split
    · rfl
    · cases behind <;> simp
  have whole : roq ++ c.decodeData =
      (before ++ d :: (c.trace d).kept behind) ++ (c.trace d).behind behind := by
    rw [split, List.append_assoc, List.cons_append, parts]
  constructor
  case front =>
    rw [fetch]
    exact fun e he => absurd he List.not_mem_nil
  case second =>
    rw [decode, List.append_nil]
    intro e he
    rw [(same e).2.1]
    exact h.second e (by rw [whole]; exact List.mem_append_left _ he)
  case levels =>
    rw [decode, List.append_nil]
    refine h.levels.recover split unresolved (fun e => ?_) (fun e ne => by rw [other e ne])
      (by simp [Trace.unresolved, done]) spec entering
    obtain ⟨op, -, level, miss, -⟩ := same e
    exact ⟨op, level, miss⟩
  case named =>
    rw [decode, List.append_nil, spec]
    have deeper := (h.levels.nested before d behind split unresolved).1
    have bound := h.levels.bound d (by simp [split])
    have named := h.named
    rw [whole] at named
    refine (named.front (Nat.succ_le_succ bound) deeper).congr (fun e _ => ?_) fun _ _ => by
      rw [vector]
    obtain ⟨-, names, level, -, back⟩ := same e
    exact ⟨names, level, back⟩

/-- The state behind a flush. -/
theorem flush (fetch : c'.fetchData = []) (decode : c'.decodeData = [])
    (spec : c'.specLevel = 0) (entering : c'.enteringSpec = false)
    (vector : ∀ name, c'.createVector 0 name = none) : Renamed c' [] where
  front := by
    rw [fetch]
    exact fun e he => absurd he List.not_mem_nil
  second := by
    rw [decode]
    exact fun e he => absurd he List.not_mem_nil
  levels := by
    rw [decode]
    exact {
      branch := fun e he => absurd he List.not_mem_nil
      sorted := .nil
      bound := fun e he => absurd he List.not_mem_nil
      nested := fun before d behind split => absurd split (by simp)
      entering := fun enters => absurd enters (by simp [entering])
      pending := fun before d split => absurd split (by simp)
      slot := fun enters => absurd enters (by simp [entering])
      covered := fun n hn => absurd hn (by simp [spec]) }
  named := by
    rw [decode, spec]
    intro n hn name _
    obtain rfl : n = 0 := by omega
    exact vector name

/-- The front of the pipeline changes, and what is in flight does not see it. -/
theorem front_change (h : Renamed c roq) (outside : d ∉ roq ++ c.decodeData)
    (other : ∀ e, e ≠ d → c'.trace e = c.trace e)
    (front : ∀ e ∈ c'.fetchData, (c'.trace e).completed = false ∧ (c'.trace e).brcompleted = false)
    (decode : c'.decodeData = c.decodeData) (spec : c'.specLevel = c.specLevel)
    (entering : c'.enteringSpec = c.enteringSpec)
    (slot : c'.enteringSpec = true → c'.lastIsBranch = true ∨
      ∃ e rest, c'.fetchData = e :: rest ∧ (c'.trace e).ctrl = false)
    (vector : c'.createVector = c.createVector) : Renamed c' roq := by
  have same {e : Nat} (he : e ∈ roq ++ c.decodeData) : c'.trace e = c.trace e := by
    refine other e ?_
    rintro rfl
    exact outside he
  constructor
  case front => exact front
  case second =>
    rw [decode]
    intro e he
    rw [same he]
    exact h.second e he
  case levels =>
    rw [decode]
    exact h.levels.congr (fun e he => by rw [same he]; exact ⟨rfl, rfl, rfl, rfl⟩) spec entering slot
  case named =>
    rw [decode, spec]
    exact h.named.congr (fun e he => by rw [same he]; exact ⟨rfl, rfl, rfl⟩) fun _ _ => by
      rw [vector]

/-- An instruction goes from the fetch queue to the decode queue. -/
theorem decode {rest : List Nat} (h : Renamed c roq) (queue : c.fetchData = d :: rest)
    (outside : d ∉ roq ++ c.decodeData)
    (other : ∀ e, e ≠ d → c'.trace e = c.trace e)
    (level : (c'.trace d).level = c.specLevel)
    (completed : (c'.trace d).completed = (c.trace d).completed)
    (brcompleted : (c'.trace d).brcompleted = (c.trace d).brcompleted)
    (second : (c'.trace d).onames 1 = 0)
    (branch : (c'.trace d).misPredict → (c'.trace d).ctrl)
    (plain : c.enteringSpec = true → (c'.trace d).ctrl = false)
    (fetch : ∀ e ∈ c'.fetchData, e ≠ d ∧ e ∈ c.fetchData)
    (decode : c'.decodeData = c.decodeData ++ [d])
    (spec : c'.specLevel = c.specLevel +
      if c.enteringSpec = true ∨ (c'.trace d).misPredict = true ∧ (c'.trace d).likely = true
        then 1 else 0)
    (entering : c'.enteringSpec =
      (!c.enteringSpec && (c'.trace d).misPredict && !(c'.trace d).likely))
    (slot : c'.enteringSpec = true → c'.lastIsBranch = true)
    (vector : ∀ n ≤ c.specLevel, ∀ name ≠ 0, c'.createVector n name =
      if n = c.specLevel ∧ (c'.trace d).onames 0 = name then some (d, 0)
      else c.createVector n name)
    (copy : c'.specLevel = c.specLevel + 1 →
      c'.createVector (c.specLevel + 1) = c'.createVector c.specLevel) : Renamed c' roq := by
  obtain ⟨fresh, fresh'⟩ := h.front d (by simp [queue])
  have whole : roq ++ c'.decodeData = (roq ++ c.decodeData) ++ [d] := by
    rw [decode, List.append_assoc]
  constructor
  case front =>
    intro e he
    obtain ⟨ne, before⟩ := fetch e he
    rw [other e ne]
    exact h.front e before
  case second =>
    rw [whole]
    intro e he
    rcases List.mem_append.mp he with before | last
    · have ne : e ≠ d := by
        rintro rfl
        exact outside before
      rw [other e ne]
      exact h.second e before
    · rw [List.mem_singleton.mp last]
      exact second
  case levels =>
    rw [whole]
    exact h.levels.append outside other level (completed.trans fresh) branch plain spec entering slot
  case named =>
    rw [whole]
    refine h.named.append outside h.levels.bound (fun e ne => ?_) level ?_ vector ?_
    · rw [other e ne]
      exact ⟨rfl, rfl, rfl⟩
    · rw [Trace.writtenBack, completed, brcompleted, fresh, fresh']
      rfl
    · by_cases deeper : c'.specLevel = c.specLevel + 1
      · exact .inr ⟨deeper, copy deeper⟩
      · left
        split at spec <;> omega

end Renamed

namespace Backend

variable {cfg : BackendConfig} {s t : Backend} {roq done : List Nat} {d : Nat}

section Frames

theorem trace_update (f : Nat → Descript) (i : Nat) (d : Descript) :
    (fun j => (Function.update f i d j).trace) =
      Function.update (fun j => (f j).trace) i d.trace := by
  funext j
  by_cases same : j = i <;> simp [same]

theorem course_modDesc {rs : Nat} (f : Descript → Descript)
    (same : (f (s.desc rs)).trace = (s.desc rs).trace) : (s.modDesc rs f).course = s.course := by
  have traces : (fun j => (Function.update s.desc rs (f (s.desc rs)) j).trace) =
      fun j => (s.desc j).trace := by
    rw [trace_update, same]
    exact Function.update_eq_self ..
  simp only [course, modDesc, traces]

theorem course_readyqEnqueue {rs : Nat} (e : s.readyqEnqueue rs = some t) :
    t.course = s.course := by
  obtain ⟨id, pool, -, rfl⟩ := readyqEnqueue_some e
  have same : (s.modDesc rs fun d => { d with queued := true }).course = s.course := by
    rw [course_modDesc]
    rfl
  exact same

theorem course_eventqQueueEvent {rs time : Nat} (e : s.eventqQueueEvent rs time = some t) :
    t.course = s.course := by
  obtain ⟨-, id, pool, -, rfl⟩ := eventqQueueEvent_some e
  rfl

theorem course_ready (x : Nat × RsLink) (s : Backend) : (s.ready x).course = s.course := by
  rw [ready, course_modDesc]
  rfl

theorem course_wakeOne {x : Nat × RsLink} (e : s.wakeOne x = some t) : t.course = s.course := by
  rcases wakeOne_some e with ⟨-, rfl⟩ | ⟨-, -, ⟨-, rfl⟩ | ⟨-, u, entered, rfl⟩⟩
  · rfl
  · exact course_ready x s
  · exact (course_readyqEnqueue entered).trans (course_ready x s)

theorem course_wakeAll {l : List (Nat × RsLink)} (e : l.foldlM wakeOne s = some t) :
    t.course = s.course := by
  induction l generalizing s with
  | nil =>
    cases e
    rfl
  | cons x l ih =>
    obtain ⟨u, first, e⟩ := Option.bind_eq_some_iff.mp e
    exact (ih e).trans (course_wakeOne first)

theorem course_squashLast (h : Passage cfg s.place (roq ++ [d]) done)
    (e : s.squashLast cfg = some t) : t.course = s.course := by
  obtain ⟨-, rfl⟩ := squashLast_some h.last e
  have same : (s.modDesc d squashed).course = s.course := by
    rw [course_modDesc]
    rfl
  exact same

theorem course_squashAll {gone : List Nat} (h : Passage cfg s.place (roq ++ gone) done)
    (e : s.squashAll cfg gone.length = some t) : t.course = s.course := by
  refine (squashAll_invariant (P := fun roq u => Passage cfg u.place roq done ∧
    u.course = s.course) (fun _ _ _ _ h e => ?_) ⟨h, rfl⟩ e).2
  exact ⟨flow_squashLast h.1 e, (course_squashLast h.1 e).trans h.2⟩

theorem course_nextValidNode (fu : Nat) (s : Backend) :
    (s.nextValidNode fu).course = s.course := by
  rw [nextValidNode, rslinkFreeAll_eq]
  rfl

theorem course_dcache (a : LsqAnswer) (s : Backend) : (s.dcache a).course = s.course := by
  have first : (s.toDtagcmp a).course = s.course := by
    rw [toDtagcmp]
    split <;> rfl
  have second (u : Backend) : (u.toDcache a).course = u.course := by
    rw [toDcache]
    split <;> rfl
  exact (second _).trans first

theorem course_lsqLook {a : LsqAnswer} (e : s.lsqLook cfg a = some t) : t.course = s.course := by
  have tag (u : Backend) : (u.dtagcmp a).course = u.course := by
    simp only [dtagcmp]
    split <;> rfl
  simp only [lsqLook] at e
  split at e
  · exact (course_eventqQueueEvent e).trans (tag { s with lsqWtbki := s.lsqSelect cfg a })
  · cases e
    exact tag { s with lsqWtbki := s.lsqSelect cfg a }

theorem course_issueInst {l : RsLink} (e : s.issueInst l = some t) : t.course = s.course := by
  obtain ⟨u, v, oplat, first, rfl, e⟩ := issueInst_some e
  obtain ⟨-, rfl⟩ := deleteNode_some e
  have start : (s.issued l.rs).course = s.course := by
    have same : (s.modDesc l.rs fun d => { d with issued := true, queued := false }).course =
        s.course := by
      rw [course_modDesc]
      rfl
    exact same
  have next : u.course = s.course := by
    split at first
    · obtain ⟨-, -, -, rfl⟩ := lsqIssue_some first
      exact start
    · exact (course_eventqQueueEvent first).trans start
  have counted : (u.countIssue (u.desc l.rs).inIntq (-1)).course = u.course := by
    rw [countIssue_eq]
    rfl
  exact counted.trans next

theorem course_retire (e : s.retire cfg d = some t) : t.course = s.course := by
  obtain ⟨-, -, -, rfl⟩ := retire_some e
  rfl

end Frames

section Wakeup

/-- The entries equal to `w` of register `name` at the levels from `low` below `high`, emptied. -/
def clearedMap (w : Nat × Nat) (name low high : Nat) (cv : Nat → Nat → Option (Nat × Nat)) :
    Nat → Nat → Option (Nat × Nat) := fun level r =>
  if r = name ∧ low ≤ level ∧ level < high ∧ cv level name = some w then none else cv level r

theorem clearedMap_self (w : Nat × Nat) (name low : Nat)
    (cv : Nat → Nat → Option (Nat × Nat)) : clearedMap w name low low cv = cv := by
  funext level r
  rw [clearedMap, if_neg]
  rintro ⟨-, h, h', -⟩
  omega

/-- The first entry is emptied, then those above it. -/
theorem clearedMap_step {w : Nat × Nat} {name low high : Nat}
    {cv : Nat → Nat → Option (Nat × Nat)} (here : cv low name = some w) (h : low < high) :
    clearedMap w name (low + 1) high
        (Function.update cv low (Function.update (cv low) name none)) =
      clearedMap w name low high cv := by
  funext level r
  rw [clearedMap, clearedMap]
  by_cases atLow : level = low
  · subst atLow
    by_cases same : r = name
    · subst same
      simp [here, h]
    · simp [same]
  · simp only [Function.update_of_ne atLow]
    have bounds : (low + 1 ≤ level ∧ level < high) ↔ (low ≤ level ∧ level < high) := by omega
    by_cases same : r = name
    · subst same
      by_cases low' : low ≤ level
      · have : low + 1 ≤ level := by omega
        simp [this, low']
      · have : ¬low + 1 ≤ level := by omega
        simp [this, low']
    · simp [same]

/-- The scan of `update_create_vector` stops at the first entry of another instruction: where
the entries of the instruction lie at adjoining levels, it empties them all. -/
theorem clearLevels_eq (rs out name n low : Nat) (s : Backend)
    (stops : ∀ k m, low ≤ k → k ≤ m → m < low + n → s.createVector k name ≠ some (rs, out) →
      s.createVector m name ≠ some (rs, out)) :
    s.clearLevels rs out name n low =
      { s with createVector := clearedMap (rs, out) name low (low + n) s.createVector } := by
  induction n generalizing low s with
  | zero => rw [clearLevels, Nat.add_zero, clearedMap_self]
  | succ n ih =>
    rw [clearLevels]
    split
    · rename_i here
      rw [ih]
      · have bound : low + 1 + n = low + (n + 1) := by omega
        simp only [bound, clearedMap_step here (by omega : low < low + (n + 1))]
      · intro k m hk hm high other
        have ne : k ≠ low := by omega
        have ne' : m ≠ low := by omega
        simp only [Function.update_of_ne ne, Function.update_of_ne ne'] at other ⊢
        exact stops k m (by omega) hm (by omega) other
    · rename_i other
      have same : clearedMap (rs, out) name low (low + (n + 1)) s.createVector =
          s.createVector := by
        funext level r
        rw [clearedMap, if_neg]
        rintro ⟨-, h, high, entry⟩
        exact stops low level (Nat.le_refl _) h high other entry
      rw [same]

theorem course_broadcast {rs out : Nat} (e : s.broadcast rs out = some t) :
    t.course = if (s.desc rs).onames out = 0 then s.course else (s.updateCreateVector rs).course := by
  rcases broadcast_some e with ⟨unnamed, rfl⟩ | ⟨named, u, woken, rfl⟩
  · rw [if_pos unnamed]
  · rw [if_neg named, course_modDesc, course_wakeAll woken]
    rfl

/-- The entries of an instruction in flight that has one output are emptied. -/
theorem course_updateCreateVector {rs : Nat} {l : List Nat} (single : (s.desc rs).onames 1 = 0)
    (named : (s.desc rs).onames 0 ≠ 0) (bound : (s.desc rs).specLevel ≤ s.specLevel)
    {c : Course} (h : Named c l (s.specLevel + 1)) (vector : c.createVector = s.createVector)
    (level : (c.trace rs).level = (s.desc rs).specLevel) :
    (s.updateCreateVector rs).course = { s.course with
      createVector := clearedMap (rs, 0) ((s.desc rs).onames 0) (s.desc rs).specLevel
        (s.specLevel + 1) s.createVector } := by
  have cleared := clearLevels_eq rs 0 ((s.desc rs).onames 0)
    (s.specLevel - (s.desc rs).specLevel + 1) (s.desc rs).specLevel s fun k m low le high other mine => by
      rw [← vector] at other mine
      rw [h m (by omega) _ named] at mine
      rw [h k (by omega) _ named] at other
      exact other (entry_below (by rw [level]; exact low) le mine)
  have high : (s.desc rs).specLevel + (s.specLevel - (s.desc rs).specLevel + 1) =
      s.specLevel + 1 := by omega
  rw [high] at cleared
  have one : s.updateCreateVector rs = s.clearLevels rs 0 ((s.desc rs).onames 0)
      (s.specLevel - (s.desc rs).specLevel + 1) (s.desc rs).specLevel := by
    have desc : (s.clearLevels rs 0 ((s.desc rs).onames 0)
        (s.specLevel - (s.desc rs).specLevel + 1) (s.desc rs).specLevel).desc = s.desc := by
      rw [cleared]
    simp only [updateCreateVector, List.foldl_cons, List.foldl_nil, updateOutput, if_neg named,
      desc, single, if_true]
  rw [one, cleared]
  rfl

theorem renamed_finish {rs : Nat} (h : Renamed s.course roq) (here : rs ∈ roq)
    (outside : rs ∉ s.fetchData) (e : s.finish rs = some t) : Renamed t.course roq := by
  obtain ⟨⟨-, -, -, fresh⟩, u, first, second⟩ := finish_some e
  have flight : rs ∈ roq ++ s.course.decodeData := List.mem_append_left _ here
  have single : (s.desc rs).onames 1 = 0 := h.second rs flight
  have bound : (s.desc rs).specLevel ≤ s.specLevel := h.levels.bound rs flight
  generalize after : (if (s.desc rs).ctrl then { s.desc rs with brcompleted := true }
    else { s.desc rs with completed := true }) = d
  have onames : d.onames = (s.desc rs).onames := by
    rw [← after]
    split <;> rfl
  have level : d.specLevel = (s.desc rs).specLevel := by
    rw [← after]
    split <;> rfl
  have start : (s.finished rs).course = { s.course with
      trace := Function.update s.course.trace rs d.trace } := by
    simp only [course, finished, after, trace_update]
  have desc : (s.finished rs).desc rs = d := by simp [finished, after]
  -- the second output has no name, the consumers of the first are woken up once
  have last : t.course = u.course := by
    have names : (u.desc rs).onames 1 = 0 := by
      have same : (u.desc rs).trace = ((s.finished rs).desc rs).trace := by
        have moved := course_broadcast first
        split at moved
        · exact congrArg (fun c : Course => c.trace rs) moved
        · exact (congrArg (fun c : Course => c.trace rs) moved).trans (congrArg Descript.trace
            (congrFun (wiring_updateCreateVector rs (s.finished rs)).2 rs))
      have names := congrArg (fun t : Trace => t.onames 1) same
      rw [desc] at names
      exact names.trans ((congrFun onames 1).trans single)
    rw [course_broadcast second, if_pos names]
  rw [last]
  have moved := course_broadcast first
  rw [desc, onames] at moved
  have vector : u.course.trace = Function.update s.course.trace rs d.trace ∧
      u.course.fetchData = s.fetchData ∧ u.course.decodeData = s.decodeData ∧
      u.course.specLevel = s.specLevel ∧ u.course.lastIsBranch = s.lastIsBranch ∧
      u.course.enteringSpec = s.enteringSpec ∧
      ∀ n < s.specLevel + 1, ∀ name ≠ 0, u.course.createVector n name =
        if s.createVector n name = some (rs, 0) then none else s.createVector n name := by
    have mine {n name : Nat} (hn : n < s.specLevel + 1) (named : name ≠ 0)
        (entry : s.createVector n name = some (rs, 0)) :
        (s.desc rs).onames 0 = name ∧ (s.desc rs).specLevel ≤ n := by
      have known := h.named n hn name named
      rw [show s.course.createVector n name = some (rs, 0) from entry] at known
      obtain ⟨inside, -, writes, -⟩ := entry_some known.symm
      exact ⟨writes, of_decide_eq_true (List.mem_filter.mp inside).2⟩
    split at moved
    · rename_i unnamed
      rw [moved, start]
      refine ⟨rfl, rfl, rfl, rfl, rfl, rfl, fun n hn name named => ?_⟩
      rw [if_neg]
      · rfl
      · intro entry
        exact named ((mine hn named entry).1.symm.trans unnamed)
    · rename_i writes
      have cleared := @course_updateCreateVector (s.finished rs) rs (roq ++ s.course.decodeData)
        (by rw [desc, onames]; exact single) (by rw [desc, onames]; exact writes)
        (by rw [desc, level]; exact bound) s.course h.named rfl (by rw [desc, level]; rfl)
      rw [moved, cleared, start]
      refine ⟨rfl, rfl, rfl, rfl, rfl, rfl, fun n hn name named => ?_⟩
      simp only [clearedMap]
      rw [desc, onames, level]
      refine if_congr ⟨fun hit => ?_, fun entry => ?_⟩ rfl rfl
      · rw [hit.1]
        exact hit.2.2.2
      · obtain ⟨writes, low⟩ := mine hn named entry
        refine ⟨writes.symm, low, hn, ?_⟩
        rw [writes]
        exact entry
  obtain ⟨trace, fetch, decode, spec, lastBranch, entering, vector⟩ := vector
  have here' : u.course.trace rs = d.trace := by rw [trace, Function.update_self]
  refine h.finish here outside (fun e ne => by rw [trace, Function.update_of_ne ne]) ?_ ?_ ?_ ?_
    (fun kind => ?_) ?_ fetch decode spec lastBranch entering vector
  all_goals rw [here', ← after]
  any_goals split <;> rfl
  · have kind : (s.desc rs).ctrl = true := kind
    rw [if_pos kind]
    rfl
  · split <;> simp [Descript.trace, Trace.writtenBack]

end Wakeup

section Squash

theorem course_tracerRecover (once : s.decodeData.Nodup) (level : Nat) :
    (s.tracerRecover level).course = ⟨s.course.trace, [], [], s.createVector, level, false, false⟩ := by
  rw [tracerRecover_eq once]
  simp only [course]
  congr 1
  funext d
  split <;> rfl

theorem decode_nodup (h : Passage cfg s.place roq done) : s.decodeData.Nodup :=
  (List.nodup_append.mp (flight_nodup h)).2.1

theorem renamed_pipelineFlush (h : Passage cfg s.place roq done) (e : s.pipelineFlush cfg = some t) :
    Renamed t.course [] := by
  obtain ⟨u, dropped, all, rfl⟩ := pipelineFlush_some h e
  have same : u.course = (s.tracerRecover 0).course := course_squashAll dropped all
  rw [course_tracerRecover (decode_nodup h)] at same
  refine Renamed.flush (congrArg Course.fetchData same) (congrArg Course.decodeData same)
    (congrArg Course.specLevel same) (congrArg Course.enteringSpec same) fun name => ?_
  simp [course, clearCreateVector]

theorem renamed_retire (h : Renamed s.course (d :: roq)) (done : (s.desc d).completed)
    (e : (s.modDesc d fun x => { x with tag := x.tag + 1 }).retire cfg d = some t) :
    Renamed t.course roq := by
  rw [course_retire e, course_modDesc]
  · exact h.retire done
  · rfl

/-- A branch is resolved. -/
def resolved (rs : Nat) (s : Backend) : Backend :=
  s.modDesc rs fun d => { d with brcompleted := false, completed := true }

theorem course_resolved (rs : Nat) (s : Backend) : (s.resolved rs).course = { s.course with
    trace := Function.update s.course.trace rs
      { s.course.trace rs with completed := true, brcompleted := false } } := by
  simp only [resolved, course, modDesc, trace_update]
  rfl

/-- The prediction was right. -/
theorem renamed_resolved {rs : Nat} (h : Renamed s.course roq) (outside : rs ∉ s.fetchData)
    (back : (s.desc rs).brcompleted) (right : (s.desc rs).misPredict = false) :
    Renamed (s.resolved rs).course roq := by
  rw [course_resolved]
  have back' : (s.course.trace rs).writtenBack = true := by
    simp [course, Descript.trace, Trace.writtenBack, back]
  have closed : (s.course.trace rs).unresolved = false := by
    simp [course, Descript.trace, Trace.unresolved, right]
  refine h.settle (d := rs) (fun e ne => Function.update_of_ne ne ..) outside ?_ ?_ ?_ ?_ ?_
    rfl rfl rfl rfl rfl ?_
  any_goals simp only [Function.update_self]
  · rw [closed]
    simp [course, Descript.trace, Trace.unresolved, right]
  · refine h.named.congr (fun e _ => ?_) fun _ _ => rfl
    by_cases eq : e = rs
    · subst eq
      simp only [Function.update_self, back', true_and]
      rfl
    · simp only [Function.update_of_ne eq, and_self]

/-- The prediction was wrong: what stays is the branch with its delay slot. -/
theorem renamed_brerrRecover (h : Renamed s.course roq) (flow : Passage cfg s.place roq done) {i : Nat}
    (hi : i < roq.length) (slot : i + 1 < roq.length) (trap : (s.desc roq[i]).trap = false)
    (back : (s.desc roq[i]).brcompleted) (open' : (s.desc roq[i]).completed = false)
    (wrong : (s.desc roq[i]).misPredict)
    (e : (s.resolved roq[i]).brerrRecover cfg roq[i] = some t) :
    Renamed t.course (roq.take (lastKept (s.desc roq[i]) i + 1)) := by
  have place : (s.resolved roq[i]).place = s.place :=
    (layout_eq.mp (layout_modDesc _ rfl)).1
  rw [← place] at flow
  obtain ⟨u, squashed, rfl⟩ := brerrRecover_some flow hi slot e
  have kept : lastKept ((s.resolved roq[i]).desc roq[i]) i = lastKept (s.desc roq[i]) i := by
    rw [resolved, modDesc_self]
    rfl
  have level : ((s.resolved roq[i]).desc roq[i]).specLevel = (s.desc roq[i]).specLevel := by
    rw [resolved, modDesc_self]
  rw [kept] at squashed
  rw [level]
  generalize last : lastKept (s.desc roq[i]) i + 1 = n at squashed ⊢
  have parts := List.take_append_drop n roq
  have same : u.course = (s.resolved roq[i]).course := by
    have whole : Passage cfg (s.resolved roq[i]).place (roq.take n ++ roq.drop n) done := by
      rw [parts]
      exact flow
    refine course_squashAll whole ?_
    rw [List.length_drop]
    exact squashed
  have once : u.decodeData.Nodup := by
    rw [show u.decodeData = s.decodeData from congrArg Course.decodeData same]
    exact decode_nodup (s := s.resolved roq[i]) flow
  rw [course_tracerRecover once, same, course_resolved]
  rw [show u.createVector = s.createVector from congrArg Course.createVector same]
  have split : roq ++ s.course.decodeData =
      roq.take i ++ roq[i] :: (roq.drop (i + 1) ++ s.course.decodeData) := by
    have whole := List.take_append_drop i roq
    rw [List.drop_eq_getElem_cons hi] at whole
    rw [← List.cons_append, ← List.append_assoc, whole]
  have stays : roq.take n = roq.take i ++
      roq[i] :: (s.course.trace roq[i]).kept (roq.drop (i + 1) ++ s.course.decodeData) := by
    rw [← last, lastKept, trap]
    have kind : (s.course.trace roq[i]).likely = (s.desc roq[i]).likely := rfl
    rw [Trace.kept, kind]
    cases (s.desc roq[i]).likely with
    | true => exact List.take_succ_eq_append_getElem hi
    | false =>
      rw [List.drop_eq_getElem_cons slot]
      change roq.take (i + 1 + 1) = roq.take i ++ [roq[i], roq[i + 1]]
      rw [List.take_succ_eq_append_getElem slot, List.take_succ_eq_append_getElem hi,
        List.append_assoc]
      rfl
  rw [stays]
  have unresolved : (s.course.trace roq[i]).unresolved = true := by
    simp [course, Descript.trace, Trace.unresolved, wrong, open']
  have back' : (s.course.trace roq[i]).writtenBack = true := by
    simp [course, Descript.trace, Trace.writtenBack, back]
  refine h.recover split unresolved back' (fun e ne => Function.update_of_ne ne ..) ?_ ?_ ?_ ?_ ?_
    rfl rfl rfl rfl rfl
  all_goals simp only [Function.update_self]

end Squash

section Decode

theorem course_placed {rest : List Nat} :
    (s.placed cfg d rest).course = { s.course with decodeData := rest } := by
  have trace : (fun j => ((s.placed cfg d rest).desc j).trace) = s.course.trace := by
    funext j
    by_cases eq : j = d
    · simp [placed, eq, Descript.trace, course]
    · simp [placed, eq, course]
  simp only [course] at trace ⊢
  rw [trace]
  rfl

theorem renamed_mapInst {rest : List Nat} (h : Renamed s.course roq)
    (queue : s.decodeData = d :: rest) (e : s.mapInst cfg = some t) :
    Renamed t.course (roq ++ [d]) := by
  have next := h.map queue
  rw [← @course_placed cfg s d] at next
  rw [mapInst_eq cfg queue] at e
  split_ifs at e
  · rw [course_readyqEnqueue e]
    exact next
  · cases e
    exact next

theorem course_roqLinkIdep {rs num name : Nat} (e : s.roqLinkIdep rs num name = some t) :
    t.course = s.course := by
  rcases roqLinkIdep_some e with ⟨-, rfl⟩ | ⟨p, out, id, pool, -, -, -, rfl⟩
  · rw [course_modDesc]
    rfl
  · have same : (s.waitFor rs num p out (s.linkTo rs id)).course = s.course := by
      rw [waitFor, course_modDesc, course_modDesc] <;> rfl
    exact same

/-- The entry that an output takes at the present level. -/
theorem course_roqInstallOdep (rs num name : Nat) (s : Backend) :
    (s.roqInstallOdep rs num name).course = { s.course with
      trace := Function.update s.course.trace rs { s.course.trace rs with
        onames := Function.update (s.course.trace rs).onames num name }
      createVector := if name = 0 then s.createVector else
        Function.update s.createVector s.specLevel
          (Function.update (s.createVector s.specLevel) name (some (rs, num))) } := by
  simp only [roqInstallOdep]
  split
  · simp only [course, modDesc, trace_update]
    rfl
  · simp only [course, modDesc, trace_update]
    rfl

theorem course_rename {rs : Nat} (e : s.rename rs = some t) : ∃ name, t.course = { s.course with
    trace := Function.update s.course.trace rs { s.course.trace rs with
      onames := Function.update (Function.update (s.course.trace rs).onames 0 name) 1 0 }
    createVector := if name = 0 then s.createVector else
      Function.update s.createVector s.specLevel
        (Function.update (s.createVector s.specLevel) name (some (rs, 0))) } := by
  simp only [rename] at e
  obtain ⟨u, first, e⟩ := Option.bind_eq_some_iff.mp e
  obtain ⟨v, second, e⟩ := Option.bind_eq_some_iff.mp e
  obtain ⟨w, third, rfl⟩ := Option.map_eq_some_iff.mp e
  have start : w.course = s.course := by
    rw [course_roqLinkIdep third, course_roqLinkIdep second, course_roqLinkIdep first,
      course_modDesc]
    rfl
  refine ⟨((s.desc rs).op.names (s.desc rs).ir).out1, ?_⟩
  rw [Op.names_out2, course_roqInstallOdep, course_roqInstallOdep, start]
  simp only [if_true, Function.update_self, Function.update_idem]
  have vector : (w.roqInstallOdep rs 0 ((s.desc rs).op.names (s.desc rs).ir).out1).createVector =
      if ((s.desc rs).op.names (s.desc rs).ir).out1 = 0 then s.createVector else
        Function.update s.createVector s.specLevel (Function.update (s.createVector s.specLevel)
          ((s.desc rs).op.names (s.desc rs).ir).out1 (some (rs, 0))) := by
    have same := congrArg Course.createVector (course_roqInstallOdep rs 0
      ((s.desc rs).op.names (s.desc rs).ir).out1 w)
    have cv : w.createVector = s.createVector := congrArg Course.createVector start
    have level : w.specLevel = s.specLevel := congrArg Course.specLevel start
    rw [cv, level] at same
    exact same
  rw [vector]

/-- The step to a deeper level, or its announcement. -/
theorem course_enterSpec {o : Outcome} {rs : Nat} (e : s.enterSpec cfg o rs = some t) :
    ∃ miss deeper : Bool, (miss = true → s.enteringSpec = false ∧ (s.desc rs).ctrl = true) ∧
      deeper = (s.enteringSpec || (miss && (s.desc rs).likely)) ∧ t.course = { s.course with
        trace := Function.update s.course.trace rs { s.course.trace rs with
          level := s.specLevel, misPredict := miss }
        specLevel := if deeper then s.specLevel + 1 else s.specLevel
        enteringSpec := !s.enteringSpec && miss && !(s.desc rs).likely
        createVector := if deeper then Function.update s.createVector (s.specLevel + 1)
          (s.createVector s.specLevel) else s.createVector } := by
  simp only [enterSpec] at e
  split at e
  · rename_i enters
    obtain ⟨u, entered, rfl⟩ := Option.map_eq_some_iff.mp e
    rw [enterLevel] at entered
    split_ifs at entered
    cases entered
    refine ⟨false, true, fun h => absurd h Bool.false_ne_true, ?_, ?_⟩
    · have enters : s.enteringSpec = true := enters
      rw [enters]
      rfl
    · simp only [course, modDesc, trace_update, Bool.and_false, Bool.false_and, if_true]
      rfl
  · rename_i outer
    have outer : s.enteringSpec = false := Bool.eq_false_of_not_eq_true outer
    split at e
    · rename_i wrong
      rw [Bool.and_eq_true, modDesc_self] at wrong
      split at e
      · rename_i likely
        rw [modDesc_self, modDesc_self] at likely
        have likely : (s.desc rs).likely = true := likely
        rw [enterLevel] at e
        split_ifs at e
        cases e
        refine ⟨true, true, fun _ => ⟨outer, wrong.1⟩, by rw [likely]; simp, ?_⟩
        simp only [course, modDesc, trace_update, likely, Function.update_idem,
          Function.update_self, if_true, Bool.not_true, Bool.and_false]
        rw [show s.enteringSpec = false from outer]
        rfl
      · rename_i plain
        rw [modDesc_self, modDesc_self] at plain
        have plain : (s.desc rs).likely = false := Bool.eq_false_of_not_eq_true plain
        cases e
        refine ⟨true, false, fun _ => ⟨outer, wrong.1⟩, by rw [plain, outer]; rfl, ?_⟩
        simp only [course, modDesc, trace_update, plain, outer, Function.update_idem,
          Function.update_self, Bool.false_eq_true, if_false, Bool.not_false, Bool.and_self]
        rfl
    · cases e
      refine ⟨false, false, fun h => absurd h Bool.false_ne_true, by rw [outer]; rfl, ?_⟩
      simp only [course, modDesc, trace_update, Bool.false_eq_true, if_false, Bool.and_false,
        Bool.false_and]
      rw [show s.enteringSpec = false from outer]
      rfl

/-- The fetch queue when the fetch unit may have been redirected. -/
theorem course_redirect (o : Outcome) (rs : Nat) (s : Backend) : ∃ fetch,
    (s.redirect o rs).course = { s.course with fetchData := fetch } ∧
      fetch.tail.Sublist s.fetchData.tail := by
  simp only [redirect]
  split
  · rw [foldl_returnToFreeList]
    refine ⟨s.fetchData.take 1, rfl, ?_⟩
    cases s.fetchData <;> simp
  · split
    · exact ⟨s.fetchData, rfl, .refl _⟩
    · exact ⟨s.fetchData, rfl, .refl _⟩

theorem renamed_decodeNext {o : Outcome} {rest : List Nat} (h : Renamed s.course roq)
    (flow : Passage cfg s.place roq done) (queue : s.fetchData = d :: rest)
    (plain : s.enteringSpec = true → (s.desc d).ctrl = false)
    (e : s.decodeNext cfg o d = some t) : Renamed t.course roq := by
  have outside : d ∉ roq ++ s.decodeData := by
    intro hd
    exact flight_fetched flow d hd (queue ▸ List.mem_cons_self)
  have later : d ∉ rest := by
    have once := flow.once d
    simp only [place, queue, List.count_cons_self] at once
    exact List.count_eq_zero.mp (by omega)
  have first : (s.modDesc d fun x => { x with divDelay := o.divDelay }).course = s.course := by
    rw [course_modDesc]
    rfl
  simp only [decodeNext] at e
  obtain ⟨u, named, e⟩ := Option.bind_eq_some_iff.mp e
  obtain ⟨v, entered, rfl⟩ := Option.map_eq_some_iff.mp e
  obtain ⟨name, renamed⟩ := course_rename named
  rw [first] at renamed
  have cv : (s.modDesc d fun x => { x with divDelay := o.divDelay }).createVector =
    s.createVector := rfl
  have spec : (s.modDesc d fun x => { x with divDelay := o.divDelay }).specLevel =
    s.specLevel := rfl
  rw [cv, spec] at renamed
  have kind : (u.desc d).ctrl = (s.desc d).ctrl ∧ (u.desc d).likely = (s.desc d).likely := by
    have op : (u.desc d).op = (s.desc d).op := by
      have same := congrArg (fun c : Course => (c.trace d).op) renamed
      simp only [Function.update_self] at same
      exact same
    simp only [Descript.ctrl, Descript.likely, op, and_self]
  generalize branch : (if (u.desc d).ctrl = true then { u with lastIsBranch := true } else u) = w
    at entered
  have slot : w.course = { u.course with
      lastIsBranch := if (s.desc d).ctrl then true else u.lastIsBranch } ∧ w.desc = u.desc := by
    rw [← branch, kind.1]
    split <;> exact ⟨rfl, rfl⟩
  obtain ⟨fetch, redirected, short⟩ := course_redirect o d w
  have desc : (w.redirect o d).desc = w.desc := by
    simp only [redirect]
    split
    · rw [foldl_returnToFreeList]
    · split <;> rfl
  obtain ⟨miss, deeper, wrong, deeper_eq, moved⟩ := course_enterSpec entered
  rw [desc, slot.2, kind.2] at deeper_eq moved
  rw [desc, slot.2, kind.1] at wrong
  have fields : (w.redirect o d).specLevel = s.specLevel ∧
      (w.redirect o d).enteringSpec = s.enteringSpec ∧
      (w.redirect o d).createVector = (if name = 0 then s.createVector else
        Function.update s.createVector s.specLevel
          (Function.update (s.createVector s.specLevel) name (some (d, 0)))) ∧
      w.fetchData = s.fetchData := by
    have one := redirected.trans (congrArg (fun c : Course => { c with fetchData := fetch }) slot.1)
    rw [renamed] at one
    have two := slot.1
    rw [renamed] at two
    exact ⟨congrArg Course.specLevel one, congrArg Course.enteringSpec one,
      congrArg Course.createVector one, congrArg Course.fetchData two⟩
  obtain ⟨level, enters, vector, fetched⟩ := fields
  rw [enters] at deeper_eq moved wrong
  rw [level, vector, redirected, slot.1, renamed] at moved
  rw [fetched, queue, List.tail_cons] at short
  have goal : Backend.course { v with
      decodeData := v.decodeData ++ [d], fetchData := v.fetchData.tail } =
      { v.course with decodeData := v.decodeData ++ [d], fetchData := v.fetchData.tail } := rfl
  have decode : v.decodeData = s.decodeData := congrArg Course.decodeData moved
  have fetch' : v.fetchData = fetch := congrArg Course.fetchData moved
  rw [goal, decode, fetch', moved]
  simp only [Function.update_self, Function.update_idem]
  have hd (e : Nat) (ne : e ≠ d) (T : Trace) :
      Function.update s.course.trace d T e = s.course.trace e := Function.update_of_ne ne ..
  refine h.decode (d := d) queue outside (fun e ne => hd e ne _) ?_ ?_ ?_ ?_ ?_ ?_ ?_ rfl ?_ ?_ ?_
    ?_ ?_
  any_goals simp only [Function.update_self]
  · rfl
  · exact fun missed => (wrong missed).2
  · exact plain
  · intro e he
    have inside : e ∈ rest := short.subset he
    refine ⟨?_, ?_⟩
    · rintro rfl
      exact later inside
    · change e ∈ s.fetchData
      rw [queue]
      exact List.mem_cons_of_mem _ inside
  · change _ = s.specLevel + if s.enteringSpec = true ∨ miss = true ∧ (s.desc d).likely = true
      then 1 else 0
    rw [deeper_eq]
    cases s.enteringSpec <;> cases miss <;> cases (s.desc d).likely <;> rfl
  · rfl
  · intro announced
    rw [Bool.and_eq_true, Bool.and_eq_true] at announced
    rw [if_pos (wrong announced.1.2).2]
  · intro n hn name' named'
    have low : n ≠ s.specLevel + 1 := by
      have hn : n ≤ s.specLevel := hn
      omega
    have vectors : (if deeper = true then Function.update (if name = 0 then s.createVector else
          Function.update s.createVector s.specLevel
            (Function.update (s.createVector s.specLevel) name (some (d, 0)))) (s.specLevel + 1)
          ((if name = 0 then s.createVector else Function.update s.createVector s.specLevel
            (Function.update (s.createVector s.specLevel) name (some (d, 0)))) s.specLevel)
        else if name = 0 then s.createVector else Function.update s.createVector s.specLevel
          (Function.update (s.createVector s.specLevel) name (some (d, 0)))) n =
        (if name = 0 then s.createVector else Function.update s.createVector s.specLevel
          (Function.update (s.createVector s.specLevel) name (some (d, 0)))) n := by
      split
      · rw [Function.update_of_ne low]
      · rfl
    rw [vectors]
    have written : Function.update (Function.update (s.course.trace d).onames 0 name) 1 0 0 =
        name := by simp
    rw [written]
    change _ = if n = s.specLevel ∧ name = name' then some (d, 0) else s.createVector n name'
    split
    · rename_i zero
      rw [if_neg]
      rintro ⟨-, same⟩
      exact named' (same.symm.trans zero)
    · by_cases top : n = s.specLevel
      · subst top
        rw [Function.update_self]
        by_cases same : name = name'
        · subst same
          simp
        · rw [Function.update_of_ne (Ne.symm same)]
          simp [same]
      · rw [Function.update_of_ne top]
        simp [top]
  · intro next
    cases deep : deeper with
    | true =>
      have ne : s.specLevel ≠ s.specLevel + 1 := by omega
      have level : s.course.specLevel = s.specLevel := rfl
      rw [if_pos rfl, level, Function.update_self, Function.update_of_ne ne]
    | false =>
      rw [deep, if_neg Bool.false_ne_true] at next
      have next : s.specLevel = s.specLevel + 1 := next
      omega

/-- A branch in a delay slot has become a `nop`. -/
theorem renamed_markSlot {rest : List Nat} (h : Renamed s.course roq)
    (flow : Passage cfg s.place roq done) (queue : s.fetchData = d :: rest)
    (e : s.markSlot d = some t) :
    Renamed t.course roq ∧ (t.enteringSpec = true → (t.desc d).ctrl = false) := by
  simp only [markSlot] at e
  split at e
  · rename_i last
    cases e
    refine ⟨h, fun enters => ?_⟩
    rw [Bool.not_eq_true'] at last
    rcases h.levels.slot enters with branch | ⟨a, rest', fetched, plain⟩
    · exact absurd (last.symm.trans branch) Bool.false_ne_true
    · have same : d :: rest = a :: rest' := queue.symm.trans fetched
      obtain rfl : d = a := (List.cons.inj same).1
      exact plain
  · split at e
    · cases e
    · cases e
      generalize after : (if (s.desc d).ctrl then
        { s.desc d with ir := nopInst, op := mdSetOpcode nopInst, bd := true }
        else { s.desc d with bd := true }) = x
      have plain : x.trace.ctrl = false := by
        rw [← after]
        split
        · rfl
        · rename_i plain
          exact Bool.eq_false_of_not_eq_true plain
      have fresh : x.completed = (s.desc d).completed ∧
          x.brcompleted = (s.desc d).brcompleted := by
        rw [← after]
        split <;> exact ⟨rfl, rfl⟩
      have outside : d ∉ roq ++ s.decodeData := fun hd =>
        flight_fetched flow d hd (queue ▸ List.mem_cons_self)
      refine ⟨?_, fun _ => ?_⟩
      · refine h.front_change (d := d) outside (fun e ne => ?_) (fun e he => ?_) rfl rfl rfl
          (fun _ => .inr ⟨d, rest, queue, ?_⟩) rfl
        · simp only [course, modDesc, Function.update_of_ne ne]
        · have before := h.front e he
          by_cases eq : e = d
          · subst eq
            simp only [course, modDesc, Function.update_self, after]
            rw [show x.trace.completed = _ from fresh.1, show x.trace.brcompleted = _ from fresh.2]
            exact before
          · simp only [course, modDesc, Function.update_of_ne eq]
            exact before
        · simp only [course, modDesc, Function.update_self, after]
          exact plain
      · simp only [modDesc, Function.update_self, after]
        exact plain

theorem renamed_decodeInst {o : Nat → Outcome} {rest : List Nat} {more : Bool}
    (h : Renamed s.course roq) (flow : Passage cfg s.place roq done)
    (queue : s.fetchData = d :: rest) (e : s.decodeInst cfg o = some (t, more)) :
    Renamed t.course roq := by
  simp only [decodeInst, queue] at e
  obtain ⟨u, marked, e⟩ := Option.bind_eq_some_iff.mp e
  obtain ⟨next, plain⟩ := renamed_markSlot h flow queue marked
  obtain ⟨flow', fetched, -⟩ := flow_markSlot flow queue marked
  split at e
  · cases e
    exact next
  · split at e
    · cases e
    · obtain ⟨v, decoded, same⟩ := Option.map_eq_some_iff.mp e
      cases same
      exact renamed_decodeNext next flow' (fetched.trans queue) plain decoded

/-- A new instruction enters the fetch queue. -/
theorem renamed_pushed (h : Renamed s.course roq) (flow : Passage cfg s.place roq done)
    (room : s.fetchData.length < cfg.fetchIfqSize) (ir : Word) (op : Op) (trap : Bool) :
    Renamed (s.pushed cfg ir op trap).course roq := by
  obtain ⟨fetched, decoded, queued, -⟩ := got_apart flow
  obtain ⟨d, free, fresh, got, -⟩ := getFromFreeList_some s
  rw [got] at fetched decoded queued
  have outside : d ∉ roq ++ s.decodeData := by simp [decoded, queued]
  have course' : (s.pushed cfg ir op trap).course = { s.course with
      trace := Function.update s.course.trace d
        ⟨op, (s.desc d).onames, (s.desc d).specLevel, (s.desc d).misPredict, false, false⟩
      fetchData := s.fetchData ++ [d] } := by
    simp only [pushed, got, fetchPush, newInst, modDesc, room, if_true, course, trace_update]
    rfl
  rw [course']
  refine h.front_change (d := d) outside (fun e ne => Function.update_of_ne ne ..)
    (fun e he => ?_) rfl rfl rfl (fun enters => ?_) rfl
  · rcases List.mem_append.mp he with old | new
    · have ne : e ≠ d := by
        rintro rfl
        exact fetched old
      simp only [Function.update_of_ne ne]
      exact h.front e old
    · obtain rfl := List.mem_singleton.mp new
      simp
  · rcases h.levels.slot enters with branch | ⟨a, rest, queue, plain⟩
    · exact .inl branch
    · have ne : a ≠ d := by
        rintro rfl
        refine fetched ?_
        rw [show s.fetchData = a :: rest from queue]
        exact List.mem_cons_self
      refine .inr ⟨a, rest ++ [d], ?_, ?_⟩
      · simp only
        rw [show s.fetchData = a :: rest from queue, List.cons_append]
      · simp only [Function.update_of_ne ne]
        exact plain

theorem renamed_fetchInst (h : Renamed s.course roq) (flow : Passage cfg s.place roq done)
    (f : Fetched) (free : s.fetchData.length < cfg.fetchIfqSize)
    (room : FetchRoom cfg f s.fetchData.length) : Renamed (s.fetchInst cfg f).1.course roq := by
  obtain ⟨ir, invalid, cases⟩ := fetchInst_cases f room
  have first := renamed_pushed h flow free ir (mdSetOpcode ir) (!f.valid)
  rcases cases with ⟨d, l, fresh, -, moved⟩ | moved | ⟨half, space, moved⟩ <;> rw [moved]
  · exact h
  · exact first
  · have nop : (!f.valid) = true → mdSetOpcode ir = mdSetOpcode nopInst := by
      intro bad
      rw [Bool.not_eq_true'] at bad
      rw [invalid bad]
    refine renamed_pushed first (flow_pushed flow free ir nop) ?_ ir half false
    rw [pushed, length_fetchPush]
    simpa using space

end Decode

end Backend

end Godson
