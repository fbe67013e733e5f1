import Godson.Chains
import Godson.Backend

/-! The free list of instruction descriptors (`fetch.c`), with the pointers to its head and
its tail that two functions keep apart from each other. -/
namespace Godson

open Chains

/-- The descriptors, numbered as they are created, with their `next` pointers, the two ends
of the list, and the descriptors in use. -/
structure FreeList where
  next : Nat → Option Nat := fun _ => none
  head : Option Nat := none
  tail : Option Nat := none
  created : Nat := 0
  inUse : List Nat := []

namespace FreeList

variable {s t : FreeList} {chain : List Nat} {d : Nat}

/-- One round of the loop of `fetch_init_inst_free_list`. -/
def malloc (s : FreeList) (i : Nat) : FreeList :=
  { s with
    next := Function.update s.next s.created s.head
    head := some s.created
    tail := if i = 0 then some s.created else s.tail
    created := s.created + 1 }

/-- `fetch_init_inst_free_list` -/
def init (s : FreeList) : FreeList :=
  (List.range fetchFreeListSize).foldl malloc { s with head := none }

/-- `fetch_get_from_free_list` -/
def get (s : FreeList) : Option FreeList :=
  let s := if s.head = none then s.init else s
  s.head.map fun d => { s with head := s.next d, inUse := d :: s.inUse }

/-- `fetch_return_to_free_list`, of a descriptor in use. -/
def give (d : Nat) (s : FreeList) : Option FreeList :=
  if d ∈ s.inUse then
    s.tail.map fun t =>
      { s with
        next := Function.update (Function.update s.next d none) t (some d)
        tail := some d
        inUse := s.inUse.erase d }
  else none

inductive Call
  | get
  | give (d : Nat)

def step (s : FreeList) : Call → Option FreeList
  | .get => s.get
  | .give d => s.give d

def run (calls : List Call) : Option FreeList := calls.foldlM step ({} : FreeList).init

/-- Every descriptor is in use or reachable from the head, once. -/
def Conserved (s : FreeList) : Prop :=
  ∃ chain, Linked s.next s.head chain ∧ (chain ++ s.inUse).Perm (List.range s.created)

/-- The chain from the head, with the tail at its end unless it is empty. -/
structure Shows (s : FreeList) (chain : List Nat) : Prop where
  linked : Linked s.next s.head chain
  tail : chain ≠ [] → s.tail = chain.getLast?
  once : (chain ++ s.inUse).Nodup
  old : ∀ d ∈ chain ++ s.inUse, d < s.created

theorem foldl_malloc (s : FreeList) (empty : s.head = none) (n : Nat) :
    Linked ((List.range n).foldl malloc s).next ((List.range n).foldl malloc s).head
      ((List.range n).map (s.created + ·)).reverse ∧
    ((List.range n).foldl malloc s).created = s.created + n ∧
    ((List.range n).foldl malloc s).inUse = s.inUse ∧
    (n ≠ 0 → ((List.range n).foldl malloc s).tail = some s.created) := by
  induction n with
  | zero => exact ⟨empty, rfl, rfl, fun h => absurd rfl h⟩
  | succ n ih =>
    obtain ⟨linked, created, inUse, tail⟩ := ih
    rw [List.range_succ, List.foldl_append, List.foldl_cons, List.foldl_nil, List.map_append,
      List.reverse_append]
    generalize (List.range n).foldl malloc s = u at *
    have fresh : u.created ∉ ((List.range n).map (s.created + ·)).reverse := by
      rw [created, List.mem_reverse, List.mem_map]
      rintro ⟨i, hi, same⟩
      have := List.mem_range.mp hi
      omega
    refine ⟨⟨congrArg some created, ?_⟩, ?_, inUse, fun _ => ?_⟩
    · change Linked (Function.update u.next u.created u.head)
        (Function.update u.next u.created u.head (s.created + n)) _
      rw [← created, Function.update_self]
      exact linked.update fresh _
    · rw [malloc, created, Nat.add_assoc]
    · simp only [malloc]
      split
      · rename_i zero
        rw [created, zero, Nat.add_zero]
      · rename_i later
        exact tail later

/-- The descriptors that `fetch_init_inst_free_list` makes, from the head on. -/
def made (s : FreeList) : List Nat := ((List.range fetchFreeListSize).map (s.created + ·)).reverse

theorem mem_made : d ∈ s.made ↔ s.created ≤ d ∧ d < s.created + fetchFreeListSize := by
  simp only [made, List.mem_reverse, List.mem_map, List.mem_range]
  constructor
  · rintro ⟨i, hi, rfl⟩
    omega
  · rintro ⟨low, high⟩
    exact ⟨d - s.created, by omega, by omega⟩

/-- New descriptors are made when the list is empty. -/
theorem Shows.init (h : Shows s []) : Shows s.init s.made ∧ s.init.inUse = s.inUse ∧
    s.init.created = s.created + fetchFreeListSize := by
  obtain ⟨linked, created, inUse, tail⟩ := foldl_malloc { s with head := none } rfl fetchFreeListSize
  refine ⟨⟨linked, fun _ => ?_, ?_, fun d hd => ?_⟩, inUse, created⟩
  · rw [FreeList.init, tail (by decide)]
    simp [made, fetchFreeListSize, List.range_succ_eq_map]
  · rw [FreeList.init, inUse]
    refine List.nodup_append.mpr ⟨?_, h.once, ?_⟩
    · refine List.nodup_reverse.mpr (List.Nodup.map (fun i j same => ?_) List.nodup_range)
      exact Nat.add_left_cancel same
    · rintro d here e used rfl
      have old := h.old d used
      have new := mem_made.mp here
      omega
  · rw [FreeList.init, created]
    rw [FreeList.init, inUse] at hd
    rcases List.mem_append.mp hd with here | used
    · exact (mem_made.mp here).2
    · have old := h.old d used
      exact Nat.lt_of_lt_of_le old (Nat.le_add_right ..)

/-- A descriptor is taken from the head, of new ones if there is none left. -/
theorem Shows.get (h : Shows s chain) (e : s.get = some t) :
    ∃ a l, (if chain = [] then s.made else chain) = a :: l ∧ Shows t l ∧
      t.inUse = a :: s.inUse ∧
      t.created = s.created + if chain = [] then fetchFreeListSize else 0 := by
  have full : ∃ a l, (if chain = [] then s.made else chain) = a :: l ∧
      Shows (if s.head = none then s.init else s) (a :: l) ∧
      (if s.head = none then s.init else s).inUse = s.inUse ∧
      (if s.head = none then s.init else s).created =
        s.created + if chain = [] then fetchFreeListSize else 0 := by
    cases chain with
    | nil =>
      obtain ⟨a, l, cons⟩ : ∃ a l, s.made = a :: l := by
        apply List.exists_cons_of_ne_nil
        simp [made, fetchFreeListSize]
      have empty : s.head = none := h.linked
      obtain ⟨shows', inUse, created⟩ := h.init
      rw [if_pos rfl, if_pos rfl, if_pos empty]
      exact ⟨a, l, cons, cons ▸ shows', inUse, created⟩
    | cons a l =>
      have filled : s.head ≠ none := by
        rw [h.linked.1]
        simp
      rw [if_neg filled, if_neg (by simp), if_neg (by simp)]
      exact ⟨a, l, rfl, h, rfl, rfl⟩
  obtain ⟨a, l, cons, full, inUse, created⟩ := full
  refine ⟨a, l, cons, ?_⟩
  rw [FreeList.get] at e
  revert e
  generalize (if s.head = none then s.init else s) = u at full inUse created
  intro e
  simp only [full.linked.1, Option.map_some, Option.some.injEq] at e
  subst e
  have moved : (l ++ a :: u.inUse).Perm (a :: l ++ u.inUse) := List.perm_middle
  refine ⟨⟨full.linked.2, fun some => ?_, ?_, fun d hd => ?_⟩, congrArg (a :: ·) inUse, created⟩
  · rw [full.tail (by simp), List.getLast?_cons_of_ne_nil some]
  · exact moved.symm.nodup full.once
  · exact full.old d (moved.mem_iff.mp hd)

/-- A descriptor is linked behind the tail. The head does not lead there when the list has
run empty. -/
theorem Shows.give (h : Shows s chain) (e : s.give d = some t) :
    Shows t (if chain = [] then [] else chain ++ [d]) ∧ d ∈ s.inUse ∧
      t.inUse = s.inUse.erase d ∧ t.created = s.created := by
  rw [FreeList.give] at e
  split at e
  · rename_i used
    obtain ⟨last, tail, rfl⟩ := Option.map_eq_some_iff.mp e
    refine ⟨?_, used, rfl, rfl⟩
    by_cases empty : chain = []
    · subst empty
      rw [if_pos rfl]
      refine ⟨h.linked, fun none => absurd rfl none, ?_, fun j hj => ?_⟩
      · exact h.once.sublist List.erase_sublist
      · exact h.old j (List.mem_of_mem_erase hj)
    · rw [if_neg empty]
      obtain ⟨l, last', rfl⟩ : ∃ l last, chain = l ++ [last] :=
        ⟨_, _, (List.dropLast_append_getLast empty).symm⟩
      have here := h.tail empty
      rw [List.getLast?_concat, tail] at here
      cases here
      obtain ⟨once, -, apart⟩ := List.nodup_append.mp h.once
      have new : d ∉ l ++ [last] := fun here => apart d here d used rfl
      have moved : (l ++ [last] ++ [d] ++ s.inUse.erase d).Perm (l ++ [last] ++ s.inUse) := by
        rw [List.append_assoc]
        exact (List.perm_cons_erase used).symm.append_left _
      refine ⟨?_, fun _ => ?_, moved.symm.nodup h.once, fun j hj => ?_⟩
      · rw [List.append_assoc]
        apply (h.linked.update new none).append once new
        rw [Function.update_self]
      · rw [List.getLast?_concat]
      · exact h.old j (moved.mem_iff.mp hj)
  · cases e

/-- Nothing is lost as long as the numbers agree. -/
theorem Shows.conserved_iff (h : Shows s chain) :
    Conserved s ↔ chain.length + s.inUse.length = s.created := by
  constructor
  · rintro ⟨chain', linked, perm⟩
    rw [h.linked.unique linked, ← List.length_append, perm.length_eq, List.length_range]
  · intro all
    refine ⟨chain, h.linked, ?_⟩
    have within : (chain ++ s.inUse) ⊆ List.range s.created := fun d hd =>
      List.mem_range.mpr (h.old d hd)
    apply (h.once.subperm within).perm_of_length_le
    rw [List.length_range, List.length_append, all]

theorem shows_start : Shows ({} : FreeList).init ({} : FreeList).made := by
  have none : Shows {} [] := by
    constructor
    · exact rfl
    · exact fun none => absurd rfl none
    · exact List.nodup_nil
    · rintro d ⟨⟩
  exact none.init.1

theorem run_append (calls later : List Call) :
    run (calls ++ later) = (run calls).bind fun s => later.foldlM step s := by
  rw [run, List.foldlM_append]
  rfl

theorem run_concat (calls : List Call) (call : Call) :
    run (calls ++ [call]) = (run calls).bind fun s => s.step call := by
  rw [run_append]
  simp

/-- The list shows a chain in every state. -/
theorem run_shows {calls : List Call} (e : run calls = some s) : ∃ chain, Shows s chain := by
  induction calls using List.reverseRecOn generalizing s with
  | nil =>
    cases e
    exact ⟨_, shows_start⟩
  | append_singleton calls call ih =>
    rw [run_concat] at e
    obtain ⟨u, before, e⟩ := Option.bind_eq_some_iff.mp e
    obtain ⟨chain, shows'⟩ := ih before
    cases call with
    | get =>
      obtain ⟨a, l, -, next, -⟩ := shows'.get e
      exact ⟨l, next⟩
    | give d => exact ⟨_, (shows'.give e).1⟩

/-- A descriptor that is returned to an empty list is the only one that gets lost. -/
theorem conserved_step {call : Call} (h : Shows s chain) (all : Conserved s)
    (e : s.step call = some t) : Conserved t ↔ ∀ d, call = .give d → s.head ≠ none := by
  have count := h.conserved_iff.mp all
  cases call with
  | get =>
    obtain ⟨a, l, cons, next, inUse, created⟩ := h.get e
    rw [next.conserved_iff, inUse, created]
    have length : (if chain = [] then s.made else chain).length = l.length + 1 := by
      rw [cons, List.length_cons]
    constructor
    · rintro - d ⟨⟩
    · intro _
      rw [List.length_cons]
      split at length
      · rename_i empty
        rw [if_pos empty]
        rw [empty, List.length_nil] at count
        simp only [made, List.length_reverse, List.length_map, List.length_range] at length
        omega
      · rename_i full
        rw [if_neg full]
        omega
  | give d =>
    obtain ⟨next, used, inUse, created⟩ := h.give e
    rw [next.conserved_iff, inUse, created, List.length_erase_of_mem used]
    have some : 0 < s.inUse.length := List.length_pos_of_mem used
    cases chain with
    | nil =>
      have empty : s.head = none := h.linked
      rw [if_pos rfl]
      rw [List.length_nil] at count ⊢
      constructor
      · omega
      · intro full
        exact absurd empty (full d rfl)
    | cons a l =>
      have full : s.head ≠ none := by
        rw [h.linked.1]
        simp
      rw [if_neg (by simp), List.length_append, List.length_singleton]
      constructor
      · intro _ _ _
        exact full
      · intro _
        omega

/-- In a run in which only descriptors in use are returned, each one is in use or reachable
from the head exactly once, in every state, just when none is returned to an empty list. -/
theorem free_list_conserved {calls : List Call} (e : run calls = some t) :
    (∀ before after, calls = before ++ after → ∀ s, run before = some s → Conserved s) ↔
      ∀ before d after, calls = before ++ .give d :: after →
        ∀ s, run before = some s → s.head ≠ none := by
  constructor
  · rintro all before d after rfl s reached
    obtain ⟨chain, shows'⟩ := run_shows reached
    have here := all before _ rfl s reached
    obtain ⟨u, next⟩ : ∃ u, s.step (.give d) = some u := by
      rw [run_append, reached, Option.bind_some, List.foldlM_cons] at e
      obtain ⟨u, next, -⟩ := Option.bind_eq_some_iff.mp e
      exact ⟨u, next⟩
    have later : Conserved u := by
      apply all (before ++ [.give d]) after (by simp)
      rw [run_concat, reached]
      exact next
    exact (conserved_step shows' here next).mp later d rfl
  · intro full before
    induction before using List.reverseRecOn with
    | nil =>
      rintro after - s reached
      cases reached
      apply shows_start.conserved_iff.mpr
      decide
    | append_singleton before call ih =>
      rintro after rfl s reached
      rw [run_concat] at reached
      obtain ⟨u, earlier, next⟩ := Option.bind_eq_some_iff.mp reached
      obtain ⟨chain, shows'⟩ := run_shows earlier
      have here := ih (call :: after) (by simp) u earlier
      apply (conserved_step shows' here next).mpr
      rintro d rfl
      exact full before d after (by simp) u earlier

theorem free_list_conserved_returned :
    (∀ before after, [Call.get, .give 79] = before ++ after →
      ∀ s, run before = some s → Conserved s) ↔
      ∀ before d after, [Call.get, .give 79] = before ++ .give d :: after →
        ∀ s, run before = some s → s.head ≠ none :=
  free_list_conserved rfl

/-- As many calls as the list is long empty it. -/
theorem Shows.drain (h : Shows s chain) :
    ∃ t, (List.replicate chain.length Call.get).foldlM step s = some t ∧ Shows t [] ∧
      t.inUse = chain.reverse ++ s.inUse ∧ t.created = s.created ∧ t.tail = s.tail := by
  induction chain generalizing s with
  | nil => exact ⟨s, rfl, h, rfl, rfl, rfl⟩
  | cons a l ih =>
    have filled : s.head ≠ none := by
      rw [h.linked.1]
      simp
    have e : s.get = some { s with head := s.next a, inUse := a :: s.inUse } := by
      simp only [FreeList.get, if_neg filled]
      rw [h.linked.1]
      rfl
    obtain ⟨b, q, cons, next, -⟩ := h.get e
    rw [if_neg (by simp)] at cons
    cases cons
    obtain ⟨t, taken, empty, inUse, created, tail⟩ := ih next
    refine ⟨t, ?_, empty, ?_, created, tail⟩
    · rw [List.length_cons, List.replicate_succ, List.foldlM_cons]
      change s.get.bind _ = some t
      rw [e]
      exact taken
    · rw [inUse, List.reverse_cons, List.append_assoc]
      rfl

/-- All descriptors are taken, and one is returned. -/
def exhausted : List Call := List.replicate fetchFreeListSize .get ++ [.give 0]

theorem conserved_exhausted : ∃ s, run exhausted = some s ∧ ¬Conserved s := by
  obtain ⟨t, taken, empty, inUse, created, tail⟩ := shows_start.drain
  have used : 0 ∈ t.inUse := by
    rw [inUse]
    apply List.mem_append_left
    rw [List.mem_reverse]
    exact mem_made.mpr ⟨Nat.zero_le _, Nat.zero_lt_succ _⟩
  have last : t.tail = some 0 := tail.trans (shows_start.tail (by decide))
  obtain ⟨u, e⟩ : ∃ u, t.give 0 = some u := by
    rw [FreeList.give, if_pos used, last]
    exact ⟨_, rfl⟩
  refine ⟨u, ?_, ?_⟩
  · have length : ({} : FreeList).made.length = fetchFreeListSize := by
      simp [made]
    rw [length] at taken
    rw [exhausted, run_append, run, taken, Option.bind_some, List.foldlM_cons]
    change (t.give 0).bind _ = _
    rw [e]
    rfl
  · obtain ⟨next, -, inUse', created'⟩ := empty.give e
    rw [if_pos rfl] at next
    rw [next.conserved_iff, inUse', created', List.length_erase_of_mem used, inUse, created]
    decide

/-- The descriptors a state of the pipeline keeps in its list are those that the head leads
to: both functions change them as the pointers do. -/
theorem backend_get {b : Backend} (h : Shows s b.freeList) (fresh : s.created = b.fresh)
    (e : s.get = some t) : Shows t b.getFromFreeList.2.freeList ∧
      t.created = b.getFromFreeList.2.fresh ∧ t.inUse = b.getFromFreeList.1 :: s.inUse := by
  obtain ⟨a, l, cons, next, inUse, created⟩ := h.get e
  rw [Backend.getFromFreeList]
  split
  · rename_i d rest list
    rw [list, if_neg (by simp)] at cons
    rw [list, if_neg (by simp)] at created
    cases cons
    exact ⟨next, created.trans fresh, inUse⟩
  · rename_i list
    rw [list, if_pos rfl, made, fresh] at cons
    rw [list, if_pos rfl, fresh] at created
    rw [show fetchFreeListSize = 79 + 1 from rfl, List.range_succ, List.map_append,
      List.reverse_append, List.map_singleton, List.reverse_singleton, List.singleton_append] at cons
    cases cons
    exact ⟨next, created, inUse⟩

theorem backend_give {b : Backend} (h : Shows s b.freeList) (fresh : s.created = b.fresh)
    (e : s.give d = some t) : Shows t (b.returnToFreeList d).freeList ∧
      t.created = (b.returnToFreeList d).fresh ∧ t.inUse = s.inUse.erase d := by
  obtain ⟨next, -, inUse, created⟩ := h.give e
  exact ⟨next, created.trans fresh, inUse⟩

end FreeList

end Godson
