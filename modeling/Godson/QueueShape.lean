import Godson.QueueScans

/-! The structure of the load/store queue: what the three ends of the ring and the stage
registers say about the entries. -/
namespace Godson

/-- The register names the only entry in state `a`, or is empty and there is none. -/
def Names (reg : Option Nat) (entry : Nat → LsqEntry) (a : LsqState) : Prop :=
  ∀ i, reg = some i ↔ (entry i).state = a

namespace Names

variable {reg : Option Nat} {entry entry' : Nat → LsqEntry} {a : LsqState} {i : Nat} {x : LsqEntry}

theorem congr (h : Names reg entry a) (same : ∀ i, (entry' i).state = a ↔ (entry i).state = a) :
    Names reg entry' a := fun i => (h i).trans (same i).symm

theorem absent (h : Names none entry a) (i : Nat) : (entry i).state ≠ a :=
  fun hi => Option.some_ne_none i ((h i).mpr hi).symm

/-- The entry moves into the state. -/
theorem enter (h : Names none entry a) (hx : x.state = a) :
    Names (some i) (Function.update entry i x) a := by
  intro j
  by_cases hj : j = i
  · subst hj
    simp [hx]
  · rw [Function.update_of_ne hj]
    constructor
    · intro e
      exact absurd (Option.some.inj e).symm hj
    · intro e
      exact absurd e (h.absent j)

/-- The entry moves out of the state. -/
theorem leave (h : Names reg entry a) (hi : reg = some i) (hx : x.state ≠ a) :
    Names none (Function.update entry i x) a := by
  intro j
  by_cases hj : j = i
  · subst hj
    simp [hx]
  · rw [Function.update_of_ne hj, ← h j, hi, Option.some.injEq]
    constructor
    · intro e
      cases e
    · intro e
      exact absurd e.symm hj

/-- An entry moves between two other states. -/
theorem other (h : Names reg entry a) (hi : (entry i).state ≠ a) (hx : x.state ≠ a) :
    Names reg (Function.update entry i x) a := by
  refine h.congr fun j => ?_
  by_cases hj : j = i
  · subst hj
    simp [hi, hx]
  · rw [Function.update_of_ne hj]

end Names

/-- The two states are on the same side of the ends of the ring. -/
structure LsqState.SameSort (a b : LsqState) : Prop where
  empty : a = .empty ↔ b = .empty
  commit : a = .commit ↔ b = .commit
  delay1 : a = .delay1 ↔ b = .delay1

theorem LsqState.SameSort.refl (a : LsqState) : a.SameSort a := ⟨.rfl, .rfl, .rfl⟩

namespace LsqPart

/-- The entry at distance `j` from the oldest one. -/
def nth (n : Nat) (q : LsqPart) (j : Nat) : LsqEntry := q.entry (slot n q.head1 j)

/-- The ring of `n` entries: the first `num` of them are in use, the first `d` in LSQ_DELAY1
and the next ones, up to `e`, in LSQ_COMMIT. -/
structure Shape (n d e : Nat) (q : LsqPart) : Prop where
  head1_lt : q.head1 < n
  head_eq : q.head = slot n q.head1 d
  tail_eq : q.tail = slot n q.head1 q.num
  drained_le : d ≤ e
  committed_le : e ≤ q.num
  num_le : q.num ≤ n
  drained : ∀ j < n, (q.nth n j).state = .delay1 ↔ j < d
  committed : ∀ j < n, (q.nth n j).state = .commit ↔ d ≤ j ∧ j < e
  present : ∀ j < n, (q.nth n j).state ≠ .empty ↔ j < q.num
  outside : ∀ i, n ≤ i → (q.entry i).state = .empty

/-- The stage registers. -/
structure Stations (q : LsqPart) : Prop where
  issue : Names q.issuei q.entry .issue
  dcache : Names q.dcachei q.entry .dcache
  dtagcmp : Names q.dtagcmpi q.entry .dtagcmp
  dcache_alone : q.dcachei = none ∨ q.dcacheRefill = none
  dtagcmp_alone : q.dtagcmpi = none ∨ q.dtagcmpRefill = none

/-- The two queues have the same ends. -/
structure SameEnds (q q' : LsqPart) : Prop where
  head1 : q'.head1 = q.head1
  head : q'.head = q.head
  tail : q'.tail = q.tail
  num : q'.num = q.num

variable {n d e : Nat} {q q' : LsqPart}

namespace Shape

theorem size_pos (h : Shape n d e q) : 0 < n := Nat.zero_lt_of_lt h.head1_lt

theorem congr (h : Shape n d e q) (ends : q.SameEnds q')
    (same : ∀ i, (q'.entry i).state.SameSort (q.entry i).state) : Shape n d e q' := by
  obtain ⟨head1, head, tail, num⟩ := ends
  have nth_eq : ∀ j, (q'.nth n j).state.SameSort (q.nth n j).state := by
    intro j
    rw [LsqPart.nth, LsqPart.nth, head1]
    exact same _
  constructor
  · exact head1 ▸ h.head1_lt
  · rw [head, head1, h.head_eq]
  · rw [tail, head1, num, h.tail_eq]
  · exact h.drained_le
  · exact num ▸ h.committed_le
  · exact num ▸ h.num_le
  · exact fun j hj => (nth_eq j).delay1.trans (h.drained j hj)
  · exact fun j hj => (nth_eq j).commit.trans (h.committed j hj)
  · exact fun j hj => (not_congr (nth_eq j).empty).trans (num ▸ h.present j hj)
  · exact fun i hi => (same i).empty.mpr (h.outside i hi)

/-- An entry in use is somewhere in the ring. -/
theorem exists_nth (h : Shape n d e q) {i : Nat} (hi : (q.entry i).state ≠ .empty) :
    ∃ j < q.num, i = slot n q.head1 j := by
  have hlt : i < n := by
    by_contra hge
    exact hi (h.outside i (by omega))
  obtain ⟨j, hj, rfl⟩ := exists_slot q.head1 hlt
  exact ⟨j, (h.present j hj).mp hi, rfl⟩

end Shape

end LsqPart

variable {cfg : Config} {k : Nat} {c c' : Cpu}

/-- Entry `i` becomes `x`, and nothing else changes that a shape is about. -/
theorem LsqPart.Shape.update {n d e i : Nat} {q q' : LsqPart} {x : LsqEntry} (h : q.Shape n d e)
    (ends : q.SameEnds q') (entry : q'.entry = Function.update q.entry i x)
    (sort : x.state.SameSort (q.entry i).state) : q'.Shape n d e := by
  refine h.congr ends fun j => ?_
  rw [entry]
  by_cases hj : j = i
  · subst hj
    rw [Function.update_self]
    exact sort
  · rw [Function.update_of_ne hj]
    exact .refl _

/-! ### Operations of the pipeline -/

open LsqPart

variable {n d e : Nat}

/-- Nothing about the entry tells it from another one on the same side of the ends. -/
theorem LsqState.SameSort.pending {a b : LsqState} (ha : a ≠ .empty ∧ a ≠ .commit ∧ a ≠ .delay1)
    (hb : b ≠ .empty ∧ b ≠ .commit ∧ b ≠ .delay1) : a.SameSort b :=
  ⟨iff_of_false ha.1 hb.1, iff_of_false ha.2.1 hb.2.1, iff_of_false ha.2.2 hb.2.2⟩

/-- The ring after the entry at distance `p` has become `x`. -/
theorem nth_update {p j : Nat} {q q' : LsqPart} {x : LsqEntry} (hp : p < n) (hj : j < n)
    (head1 : q'.head1 = q.head1)
    (entry : q'.entry = Function.update q.entry (slot n q.head1 p) x) :
    q'.nth n j = if j = p then x else q.nth n j := by
  rw [LsqPart.nth, LsqPart.nth, entry, head1]
  split
  · rename_i hjp
    rw [hjp, Function.update_self]
  · rename_i hjp
    rw [Function.update_of_ne (fun he => hjp ((slot_inj hj hp).mp he))]

/-- One entry becomes `x` and the ends move accordingly. -/
theorem LsqPart.Shape.change {p d' e' : Nat} {q q' : LsqPart} {x : LsqEntry} (hs : q.Shape n d e)
    (hp : p < n) (entry : q'.entry = Function.update q.entry (slot n q.head1 p) x)
    (head1 : q'.head1 = q.head1) (head : q'.head = slot n q.head1 d')
    (tail : q'.tail = slot n q.head1 q'.num) (order : d' ≤ e' ∧ e' ≤ q'.num ∧ q'.num ≤ n)
    (drained : x.state = .delay1 ↔ p < d') (committed : x.state = .commit ↔ d' ≤ p ∧ p < e')
    (present : x.state ≠ .empty ↔ p < q'.num)
    (rest : ∀ j < n, j ≠ p → (j < d ↔ j < d') ∧ (d ≤ j ∧ j < e ↔ d' ≤ j ∧ j < e') ∧
      (j < q.num ↔ j < q'.num)) : q'.Shape n d' e' := by
  have nth := fun j (hj : j < n) => nth_update hp hj head1 entry
  constructor
  · exact head1 ▸ hs.head1_lt
  · rw [head, head1]
  · rw [tail, head1]
  · exact order.1
  · exact order.2.1
  · exact order.2.2
  · intro j hj
    rw [nth j hj]
    split
    · rename_i hjp
      rw [drained, hjp]
    · rename_i hjp
      exact (hs.drained j hj).trans (rest j hj hjp).1
  · intro j hj
    rw [nth j hj]
    split
    · rename_i hjp
      rw [committed, hjp]
    · rename_i hjp
      exact (hs.committed j hj).trans (rest j hj hjp).2.1
  · intro j hj
    rw [nth j hj]
    split
    · rename_i hjp
      rw [present, hjp]
    · rename_i hjp
      exact (hs.present j hj).trans (rest j hj hjp).2.2
  · intro i hi
    rw [entry, Function.update_of_ne]
    · exact hs.outside i hi
    · have := slot_lt (n := n) (h := q.head1) hs.size_pos p
      omega

/-- A new entry at the tail. -/
theorem LsqPart.Shape.push {q q' : LsqPart} {x : LsqEntry} (hs : q.Shape n d e) (room : q.num < n)
    (head1 : q'.head1 = q.head1) (head : q'.head = q.head) (tail : q'.tail = nextIndex n q.tail)
    (num : q'.num = q.num + 1) (entry : q'.entry = Function.update q.entry q.tail x)
    (state : x.state = .enter) : q'.Shape n d e := by
  rw [hs.tail_eq] at entry
  rw [hs.tail_eq, nextIndex_slot, ← num] at tail
  have bounds := And.intro hs.drained_le hs.committed_le
  apply hs.change room entry head1 (head.trans hs.head_eq) tail
  · omega
  · simp only [state, reduceCtorEq, false_iff]
    omega
  · simp only [state, reduceCtorEq, false_iff]
    omega
  · simp only [state, ne_eq, reduceCtorEq, not_false_eq_true, true_iff]
    omega
  · intro j _ _
    refine ⟨?_, ?_, ?_⟩ <;> omega

/-- The oldest entry that is not committed becomes so. -/
theorem LsqPart.Shape.retire {q q' : LsqPart} {x : LsqEntry} (hs : q.Shape n d e) (left : e < q.num)
    (ends : q.SameEnds q') (entry : q'.entry = Function.update q.entry (slot n q.head1 e) x)
    (state : x.state = .commit) : q'.Shape n d (e + 1) := by
  obtain ⟨head1, head, tail, num⟩ := ends
  rw [hs.tail_eq, ← num] at tail
  have bounds := And.intro hs.drained_le hs.num_le
  apply hs.change (by omega) entry head1 (head.trans hs.head_eq) tail
  · omega
  · simp only [state, reduceCtorEq, false_iff]
    omega
  · simp only [state, true_iff]
    omega
  · simp only [state, ne_eq, reduceCtorEq, not_false_eq_true, true_iff]
    omega
  · intro j _ _
    refine ⟨?_, ?_, ?_⟩ <;> omega

/-- The youngest entry is taken back. -/
theorem LsqPart.Shape.pop {q q' : LsqPart} {x : LsqEntry} (hs : q.Shape n d e) (left : d < q.num)
    (head1 : q'.head1 = q.head1) (head : q'.head = q.head)
    (tail : q'.tail = slot n q.head1 (q.num - 1)) (num : q'.num = q.num - 1)
    (entry : q'.entry = Function.update q.entry (slot n q.head1 (q.num - 1)) x)
    (state : x.state = .empty) : q'.Shape n d (min e (q.num - 1)) := by
  rw [← num] at tail
  have bounds := And.intro hs.drained_le (And.intro hs.committed_le hs.num_le)
  apply hs.change (by omega) entry head1 (head.trans hs.head_eq) tail
  · omega
  · simp only [state, reduceCtorEq, false_iff]
    omega
  · simp only [state, reduceCtorEq, false_iff]
    omega
  · simp only [state, ne_eq, not_true_eq_false, false_iff]
    omega
  · intro j _ _
    refine ⟨?_, ?_, ?_⟩ <;> omega

/-- The entry at the commit head leaves for the data cache. -/
theorem LsqPart.Shape.drain {q q' : LsqPart} {x : LsqEntry} (hs : q.Shape n d e) (left : d < e)
    (head1 : q'.head1 = q.head1) (head : q'.head = nextIndex n q.head) (tail : q'.tail = q.tail)
    (num : q'.num = q.num) (entry : q'.entry = Function.update q.entry q.head x)
    (state : x.state = .delay1) : q'.Shape n (d + 1) e := by
  rw [hs.head_eq] at entry
  rw [hs.head_eq, nextIndex_slot] at head
  rw [hs.tail_eq, ← num] at tail
  have bounds := And.intro hs.committed_le hs.num_le
  apply hs.change (by omega) entry head1 head tail
  · omega
  · simp only [state, true_iff]
    omega
  · simp only [state, reduceCtorEq, false_iff]
    omega
  · simp only [state, ne_eq, reduceCtorEq, not_false_eq_true, true_iff]
    omega
  · intro j _ _
    refine ⟨?_, ?_, ?_⟩ <;> omega

/-! ### Operations of the pipeline -/

theorem shape_enqueue {op : MemOp} {addr : Nat} (hs : c.lsqPart.Shape cfg.lsqIfqSize d e)
    (h : lsqEnqueue cfg op addr c = some c') : c'.lsqPart.Shape cfg.lsqIfqSize d e := by
  obtain ⟨room, spec⟩ := lsqPart_enqueue h
  rw [spec]
  exact hs.push room rfl rfl rfl rfl rfl rfl

/-- Moving an entry from one pending state to another. -/
theorem LsqPart.Shape.setState {i : Nat} {a : LsqState} {q q' : LsqPart} (hs : q.Shape n d e)
    (ends : q.SameEnds q') (entry : q'.entry = (q.setState i a).entry)
    (old : (q.entry i).state ≠ .empty ∧ (q.entry i).state ≠ .commit ∧ (q.entry i).state ≠ .delay1)
    (new : a ≠ .empty ∧ a ≠ .commit ∧ a ≠ .delay1) : q'.Shape n d e :=
  hs.update ends entry (.pending new old)

theorem shape_issue {i : Nat} (hs : c.lsqPart.Shape n d e) (h : lsqIssue cfg i c = some c') :
    c'.lsqPart.Shape n d e := by
  obtain ⟨enter, -, spec⟩ := lsqPart_issue h
  rw [spec]
  exact hs.setState ⟨rfl, rfl, rfl, rfl⟩ rfl (by simp [enter]) (by simp)

theorem shape_writeback (hs : c.lsqPart.Shape n d e) (h : lsqWriteback c = some c') :
    c'.lsqPart.Shape n d e := by
  obtain ⟨i, -, ready, spec⟩ := lsqPart_writeback h
  rw [spec]
  exact hs.setState ⟨rfl, rfl, rfl, rfl⟩ rfl (by simp [ready]) (by simp)

/-- The entry `lsqCommit` picks is the oldest one that is not committed. -/
theorem LsqPart.Shape.oldest {i : Nat} {q : LsqPart} (hs : q.Shape n d e)
    (find : (ring n q.head q.tail).find? (fun i => (q.entry i).state != .commit) = some i)
    (state : (q.entry i).state = .writeback) : e < q.num ∧ i = slot n q.head1 e := by
  have bounds := And.intro hs.drained_le (And.intro hs.committed_le hs.num_le)
  rw [hs.head_eq, hs.tail_eq, ring_slot hs.head1_lt (by omega) (by omega), List.find?_map] at find
  obtain ⟨j, hj, rfl⟩ := Option.map_eq_some_iff.mp find
  obtain ⟨-, hmem, before⟩ := List.find?_range_eq_some.mp hj
  have inside : d + j < q.num := by
    obtain ⟨p, hp, hslot⟩ := hs.exists_nth (i := slot n q.head1 (d + j)) (by simp [state])
    have undrained : ¬p < d := by
      intro hpd
      have delay1 := (hs.drained p (by omega)).mpr hpd
      rw [LsqPart.nth, ← hslot, state] at delay1
      cases delay1
    split at hmem
    · omega
    · have := List.mem_range.mp hmem
      omega
  have behind : ¬d + j < e := by
    intro hlt
    have commit := (hs.committed (d + j) (by omega)).mpr ⟨by omega, hlt⟩
    rw [LsqPart.nth, state] at commit
    cases commit
  have ahead : ¬e < d + j := by
    intro hlt
    have commit := before (e - d) (by omega)
    simp only [Function.comp_apply, Bool.not_eq_true', bne_eq_false_iff_eq] at commit
    have := (hs.committed (d + (e - d)) (by omega)).mp commit
    omega
  obtain rfl : e = d + j := by omega
  exact ⟨inside, rfl⟩

theorem shape_commit (hs : c.lsqPart.Shape cfg.lsqIfqSize d e) (h : lsqCommit cfg c = some c') :
    c'.lsqPart.Shape cfg.lsqIfqSize d (e + 1) := by
  obtain ⟨i, find, writeback, -, spec⟩ := lsqPart_commit h
  obtain ⟨left, rfl⟩ := hs.oldest find writeback
  rw [spec]
  exact hs.retire left ⟨rfl, rfl, rfl, rfl⟩ rfl rfl

/-- `lsq_cancel_one` at the tail, for an entry behind the commit head. -/
theorem LsqPart.Shape.cancelOne {q : LsqPart} (hs : q.Shape n d e) (left : d < q.num) :
    (q.cancelOne ((q.tail + n - 1) % n)).Shape n d (min e (q.num - 1)) := by
  have last : (q.tail + n - 1) % n = slot n q.head1 (q.num - 1) := by
    rw [hs.tail_eq, slot_pred hs.head1_lt (by omega) hs.num_le]
  rw [last]
  exact hs.pop left rfl rfl rfl rfl rfl rfl

/-- The entry `lsqCancel` takes back is not committed. -/
theorem LsqPart.Shape.youngest {i : Nat} {q : LsqPart} (hs : q.Shape n d e)
    (hi : i = (q.tail + n - 1) % n) (occupied : (q.entry i).state ≠ .empty)
    (pending : (q.entry i).state ≠ .commit) (undrained : (q.entry i).state ≠ .delay1) :
    e < q.num ∧ i = slot n q.head1 (q.num - 1) := by
  have bounds := And.intro hs.drained_le (And.intro hs.committed_le hs.num_le)
  have size := hs.size_pos
  have some_left : 0 < q.num := by
    by_contra none
    have num : q.num = 0 := by omega
    have before : i = slot n q.head1 (n - 1) := by
      rw [hi, hs.tail_eq, num, ← slot_pred hs.head1_lt size le_rfl, ← slot_add_size 0, Nat.zero_add]
    have := (hs.present (n - 1) (by omega)).mp (by rw [LsqPart.nth, ← before]; exact occupied)
    omega
  have last : i = slot n q.head1 (q.num - 1) := by
    rw [hi, hs.tail_eq, slot_pred hs.head1_lt some_left hs.num_le]
  refine ⟨?_, last⟩
  rw [last] at pending undrained
  have uncommitted := mt (hs.committed (q.num - 1) (by omega)).mpr pending
  have := mt (hs.drained (q.num - 1) (by omega)).mpr undrained
  omega

theorem shape_cancel (hs : c.lsqPart.Shape cfg.lsqIfqSize d e) (h : lsqCancel cfg c = some c') :
    c'.lsqPart.Shape cfg.lsqIfqSize d e := by
  obtain ⟨i, hi, occupied, pending, undrained, spec⟩ := lsqPart_cancel h
  obtain ⟨left, -⟩ := hs.youngest hi occupied pending undrained
  have cut := hs.cancelOne (lt_of_le_of_lt hs.drained_le left)
  rw [spec, hi]
  rwa [Nat.min_eq_left (Nat.le_sub_one_of_lt left)] at cut

end Godson
