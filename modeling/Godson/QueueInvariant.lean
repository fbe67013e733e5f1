import Godson.QueueShape

/-! The load/store queue over whole runs: every section of an activation and every operation of
the pipeline keeps the shape of the ring and the meaning of the stage registers. -/
namespace Godson

open LsqPart

variable {cfg : Config} {k n d e : Nat} {c c' : Cpu}

/-! ### Draining -/

theorem takeWhile_range {p : Nat → Bool} (hd : d ≤ n) (h : ∀ j < n, p j = true ↔ j < d) :
    (List.range n).takeWhile p = List.range d := by
  obtain ⟨m, rfl⟩ := Nat.exists_eq_add_of_le hd
  have front : ∀ j ∈ List.range d, p j = true := by
    intro j hj
    have hj := List.mem_range.mp hj
    exact (h j (by omega)).mpr hj
  rw [List.range_add, List.takeWhile_append_of_pos front]
  cases m with
  | zero => simp
  | succ m =>
    have stop : p d = false := by
      rw [← Bool.not_eq_true, h d (by omega)]
      omega
    simp [List.range_succ_eq_map, stop]

/-- The entries in LSQ_DELAY1 are those the first loop of the commit block walks over. -/
theorem LsqPart.Shape.done_eq (hs : c.lsqPart.Shape n d e) :
    (((List.range n).map fun j => (c.lsqHead1 + j) % n).takeWhile
      fun i => (c.lsq i).state == .delay1) = (List.range d).map (slot n c.lsqHead1) := by
  rw [List.takeWhile_map, takeWhile_range (d := d)]
  · rfl
  · have := And.intro hs.drained_le (And.intro hs.committed_le hs.num_le)
    omega
  · intro j hj
    simp only [Function.comp_apply, beq_iff_eq]
    exact hs.drained j hj

/-- The queue after the entries that are done have been freed. -/
def LsqPart.freed (n d : Nat) (q : LsqPart) : LsqPart :=
  { q with
    entry := fun i =>
      if (q.entry i).state = .delay1 then { q.entry i with state := .empty } else q.entry i
    num := q.num - d
    head1 := slot n q.head1 d }

theorem lsqPart_freeDone (hs : c.lsqPart.Shape cfg.lsqIfqSize d e) :
    (freeDone cfg c).lsqPart = c.lsqPart.freed cfg.lsqIfqSize d := by
  have bounds := And.intro hs.drained_le (And.intro hs.committed_le hs.num_le)
  have once : ((List.range d).map (slot cfg.lsqIfqSize c.lsqHead1)).Nodup := by
    refine List.Nodup.map_on (fun i hi j hj h => ?_) List.nodup_range
    have hi := List.mem_range.mp hi
    have hj := List.mem_range.mp hj
    exact (slot_inj (by omega) (by omega)).mp h
  have mem : ∀ i, i ∈ (List.range d).map (slot cfg.lsqIfqSize c.lsqHead1) ↔
      (c.lsq i).state = .delay1 := by
    intro i
    simp only [List.mem_map, List.mem_range]
    constructor
    · rintro ⟨j, hj, rfl⟩
      exact (hs.drained j (by omega)).mpr hj
    · intro state
      have occupied : (c.lsqPart.entry i).state ≠ .empty := by
        intro empty
        rw [show (c.lsqPart.entry i).state = .delay1 from state] at empty
        cases empty
      obtain ⟨j, hj, rfl⟩ := hs.exists_nth occupied
      exact ⟨j, (hs.drained j (by omega)).mp state, rfl⟩
  simp only [freeDone, hs.done_eq, foldl_modLsq _ once, List.length_map, List.length_range]
  simp only [Cpu.lsqPart, LsqPart.freed, LsqPart.mk.injEq, and_true]
  constructor
  · funext i
    by_cases state : (c.lsq i).state = .delay1
    · rw [if_pos ((mem i).mpr state)]
      exact (if_pos state).symm
    · rw [if_neg (mt (mem i).mp state)]
      exact (if_neg state).symm
  · rfl

theorem state_freed (q : LsqPart) (i : Nat) : ((q.freed n d).entry i).state =
    if (q.entry i).state = .delay1 then .empty else (q.entry i).state := by
  simp only [LsqPart.freed]
  split <;> rfl

theorem nth_freed {j : Nat} {q : LsqPart} (hs : q.Shape n d e) (hj : j < n) :
    ((q.freed n d).nth n j).state = if d + j < n then (q.nth n (d + j)).state else .empty := by
  have nth : (q.freed n d).nth n j = (q.freed n d).entry (slot n q.head1 (d + j)) := by
    rw [LsqPart.nth, LsqPart.freed, slot_slot]
  rw [nth, state_freed]
  by_cases hlt : d + j < n
  · have undrained := mt (hs.drained (d + j) hlt).mp (by omega)
    rw [if_pos hlt]
    exact if_neg undrained
  · obtain ⟨i, hi⟩ := Nat.exists_eq_add_of_le' (by omega : n ≤ d + j)
    have := And.intro hs.drained_le (And.intro hs.committed_le hs.num_le)
    have drained := (hs.drained i (by omega)).mpr (by omega)
    rw [if_neg hlt, hi, slot_add_size]
    exact if_pos drained

/-- After the freeing the ring starts at the commit head. -/
theorem LsqPart.Shape.freed {q : LsqPart} (hs : q.Shape n d e) : (q.freed n d).Shape n 0 (e - d) := by
  have bounds := And.intro hs.drained_le (And.intro hs.committed_le hs.num_le)
  have head1_lt : (q.freed n d).head1 < n := slot_lt hs.size_pos d
  constructor
  · exact head1_lt
  · rw [slot_zero head1_lt]
    exact hs.head_eq
  · simp only [LsqPart.freed, slot_slot, hs.tail_eq]
    congr 1
    omega
  · exact Nat.zero_le _
  · simp only [LsqPart.freed]
    omega
  · simp only [LsqPart.freed]
    omega
  · intro j hj
    rw [nth_freed hs hj]
    split
    · rename_i hlt
      rw [hs.drained (d + j) hlt]
      omega
    · simp
  · intro j hj
    rw [nth_freed hs hj]
    split
    · rename_i hlt
      rw [hs.committed (d + j) hlt]
      omega
    · simp only [reduceCtorEq, false_iff]
      omega
  · intro j hj
    rw [nth_freed hs hj]
    simp only [LsqPart.freed]
    split
    · rename_i hlt
      rw [hs.present (d + j) hlt]
      omega
    · simp only [ne_eq, not_true_eq_false, false_iff]
      omega
  · intro i hi
    rw [state_freed, hs.outside i hi]
    rfl

/-- What draining does to an entry: its state moves on. -/
structure LsqEntry.Drained (l l' : LsqEntry) : Prop where
  rest : l' = { l with state := l'.state }
  state : l'.state = l.state ∨ l.state = .commit ∧ l'.state = .delay1 ∨
    l.state = .delay1 ∧ l'.state = .empty

/-- Nothing but the ends of the ring and the states of entries changes. -/
structure LsqPart.DrainedTo (q q' : LsqPart) : Prop where
  rest : q' = { q with entry := q'.entry, head1 := q'.head1, head := q'.head, num := q'.num }
  entry : ∀ i, (q.entry i).Drained (q'.entry i)

theorem LsqPart.DrainedTo.freed (n d : Nat) (q : LsqPart) : q.DrainedTo (q.freed n d) where
  rest := rfl
  entry i := by
    by_cases state : (q.entry i).state = .delay1
    · rw [show (q.freed n d).entry i = _ from if_pos state]
      exact ⟨rfl, .inr (.inr ⟨state, rfl⟩)⟩
    · rw [show (q.freed n d).entry i = _ from if_neg state]
      exact ⟨rfl, .inl rfl⟩

/-- One more entry leaves for the data cache. -/
theorem LsqPart.DrainedTo.leave {q q' q'' : LsqPart} {i : Nat} (h : q.DrainedTo q')
    (commit : (q'.entry i).state = .commit) (rest : q'' = { q'.setState i .delay1 with head := q''.head }) :
    q.DrainedTo q'' where
  rest := by
    rw [rest, h.rest]
    rfl
  entry j := by
    rw [rest]
    by_cases hj : j = i
    · subst hj
      simp only [LsqPart.setState, LsqPart.set, Function.update_self]
      refine ⟨by rw [(h.entry j).rest], .inr (.inl ⟨?_, rfl⟩)⟩
      obtain same | ⟨-, delay1⟩ | ⟨-, empty⟩ := (h.entry j).state
      · rw [← same, commit]
      · rw [commit] at delay1
        cases delay1
      · rw [commit] at empty
        cases empty
    · simp only [LsqPart.setState, LsqPart.set, Function.update_of_ne hj]
      exact h.entry j

/-- The entry at the commit head is committed. -/
theorem LsqPart.Shape.left {q : LsqPart} (hs : q.Shape n d e)
    (commit : (q.entry q.head).state = .commit) : d < e := by
  have bounds := And.intro hs.drained_le (And.intro hs.committed_le hs.num_le)
  rw [hs.head_eq] at commit
  by_cases hd : d < n
  · exact ((hs.committed d hd).mp commit).2
  · -- a full turn leads back to the oldest entry, which has been drained
    obtain rfl : d = n := by omega
    have turn := slot_add_size (n := d) (h := q.head1) 0
    rw [Nat.zero_add] at turn
    rw [turn] at commit
    have := ((hs.committed 0 hs.size_pos).mp commit).1
    have := hs.size_pos
    omega

theorem LsqPart.DrainedTo.withHead {q q' : LsqPart} (h : q.DrainedTo q') (i : Nat) :
    q.DrainedTo { q' with head := i } where
  rest := by
    conv_lhs => rw [h.rest]
  entry := h.entry

/-- The loop that drains loads behind the head. -/
theorem drainLoads_spec {q : LsqPart} {j i d : Nat}
    (hs : LsqPart.Shape cfg.lsqIfqSize d e { c.lsqPart with head := i })
    (drained : q.DrainedTo c.lsqPart) :
    (∃ d', (drainLoads cfg j i c).lsqPart.Shape cfg.lsqIfqSize d' e) ∧
      q.DrainedTo (drainLoads cfg j i c).lsqPart := by
  induction j generalizing i c d with
  | zero => exact ⟨⟨d, hs⟩, drained.withHead i⟩
  | succ j ih =>
    unfold drainLoads
    split
    · rename_i load
      have commit : (c.lsqPart.entry i).state = .commit := load.1
      have part := lsqPart_setState c i .delay1
      refine ih (d := d + 1) ?_ (drained.leave commit part)
      rw [part]
      exact hs.drain (hs.left commit) rfl rfl rfl rfl rfl rfl
    · exact ⟨⟨d, hs⟩, drained.withHead i⟩

/-- The commit block. -/
theorem drain_spec {loc : Locals} (hs : c.lsqPart.Shape cfg.lsqIfqSize d e)
    (write : loc.dcachewriteValid → (c.lsqPart.entry c.lsqPart.head).state = .commit) :
    (∃ d', (drain cfg loc c).lsqPart.Shape cfg.lsqIfqSize d' (e - d)) ∧
      c.lsqPart.DrainedTo (drain cfg loc c).lsqPart := by
  have part := lsqPart_freeDone hs
  have freed := hs.freed
  have drained := LsqPart.DrainedTo.freed cfg.lsqIfqSize d c.lsqPart
  rw [← part] at freed drained
  have head : (freeDone cfg c).lsqHead = c.lsqHead := congrArg LsqPart.head part
  simp only [drain]
  split
  · rename_i go
    have commit : ((freeDone cfg c).lsqPart.entry (freeDone cfg c).lsqPart.head).state = .commit := by
      simp only [Bool.or_eq_true, Bool.and_eq_true, beq_iff_eq] at go
      obtain valid | ⟨-, commit⟩ := go
      · have head_state := write valid
        rw [part, state_freed]
        rw [show (c.lsqPart.freed cfg.lsqIfqSize d).head = c.lsqPart.head from rfl, head_state]
        rfl
      · exact commit
    have set := lsqPart_setState (freeDone cfg c) (freeDone cfg c).lsqHead .delay1
    refine drainLoads_spec (d := 1) ?_ (drained.leave commit set)
    rw [set]
    exact freed.drain (freed.left commit) rfl rfl rfl rfl rfl rfl
  · exact ⟨⟨0, freed⟩, drained⟩

/-! ### One step -/

/-- What is in a stage register stays, moves on to the next stage or is cancelled: nothing is
overwritten. -/
structure LsqPart.Advances (q q' : LsqPart) : Prop where
  issuei : ∀ i, q.issuei = some i → q'.issuei = some i ∨
    q'.issuei = none ∧ (q'.dcachei = some i ∨ (q'.entry i).state = .empty)
  dcachei : ∀ i, q.dcachei = some i → q'.dcachei = some i ∨
    q'.dcachei = none ∧ (q'.dtagcmpi = some i ∨ (q'.entry i).state = .empty)
  dtagcmpi : ∀ i, q.dtagcmpi = some i → q'.dtagcmpi = some i ∨
    q'.dtagcmpi = none ∧ ((q'.entry i).state = .readcache ∨ (q'.entry i).state = .empty)
  refill : ∀ p, q.refill = some p → q'.refill = some p ∨
    q'.refill = none ∧ q'.dcacheRefill = some p
  dcacheRefill : ∀ p, q.dcacheRefill = some p → q'.dcacheRefill = some p ∨
    q'.dcacheRefill = none ∧ ∃ p', p.SameRequest p' ∧ q'.dtagcmpRefill = some p'
  dtagcmpRefill : ∀ p, q.dtagcmpRefill = some p → q'.dtagcmpRefill = some p ∨
    q'.dtagcmpRefill = none

/-- The two queues have the same stage registers. -/
structure LsqPart.SameRegisters (q q' : LsqPart) : Prop where
  issuei : q'.issuei = q.issuei
  dcachei : q'.dcachei = q.dcachei
  dtagcmpi : q'.dtagcmpi = q.dtagcmpi
  refill : q'.refill = q.refill
  dcacheRefill : q'.dcacheRefill = q.dcacheRefill
  dtagcmpRefill : q'.dtagcmpRefill = q.dtagcmpRefill

theorem LsqPart.SameRegisters.advances {q q' : LsqPart} (h : q.SameRegisters q') : q.Advances q' where
  issuei _ hi := .inl (h.issuei.trans hi)
  dcachei _ hi := .inl (h.dcachei.trans hi)
  dtagcmpi _ hi := .inl (h.dtagcmpi.trans hi)
  refill _ hp := .inl (h.refill.trans hp)
  dcacheRefill _ hp := .inl (h.dcacheRefill.trans hp)
  dtagcmpRefill _ hp := .inl (h.dtagcmpRefill.trans hp)

theorem LsqPart.Advances.refl (q : LsqPart) : q.Advances q :=
  LsqPart.SameRegisters.advances ⟨rfl, rfl, rfl, rfl, rfl, rfl⟩

/-- Two states that no register tells apart. -/
def LsqState.SameStation (a b : LsqState) : Prop :=
  (a = .issue ↔ b = .issue) ∧ (a = .dcache ↔ b = .dcache) ∧ (a = .dtagcmp ↔ b = .dtagcmp)

theorem LsqPart.Stations.congr {q q' : LsqPart} (h : q.Stations) (same : q.SameRegisters q')
    (states : ∀ i, (q'.entry i).state.SameStation (q.entry i).state) : q'.Stations where
  issue := same.issuei ▸ h.issue.congr fun i => (states i).1
  dcache := same.dcachei ▸ h.dcache.congr fun i => (states i).2.1
  dtagcmp := same.dtagcmpi ▸ h.dtagcmp.congr fun i => (states i).2.2
  dcache_alone := by
    rw [same.dcachei, same.dcacheRefill]
    exact h.dcache_alone
  dtagcmp_alone := by
    rw [same.dtagcmpi, same.dtagcmpRefill]
    exact h.dtagcmp_alone

/-- An entry moves between two states that no register is about. -/
theorem LsqPart.Stations.setState {q : LsqPart} {i : Nat} {a : LsqState} (h : q.Stations)
    (old : (q.entry i).state ≠ .issue ∧ (q.entry i).state ≠ .dcache ∧ (q.entry i).state ≠ .dtagcmp)
    (new : a ≠ .issue ∧ a ≠ .dcache ∧ a ≠ .dtagcmp) : (q.setState i a).Stations where
  issue := h.issue.other old.1 new.1
  dcache := h.dcache.other old.2.1 new.2.1
  dtagcmp := h.dtagcmp.other old.2.2 new.2.2
  dcache_alone := h.dcache_alone
  dtagcmp_alone := h.dtagcmp_alone

theorem stations_enqueue {op : MemOp} {addr : Nat} (hs : c.lsqPart.Shape cfg.lsqIfqSize d e)
    (hr : c.lsqPart.Stations) (h : lsqEnqueue cfg op addr c = some c') : c'.lsqPart.Stations := by
  obtain ⟨room, spec⟩ := lsqPart_enqueue h
  have free : (c.lsqPart.entry c.lsqPart.tail).state = .empty := by
    by_contra occupied
    rw [hs.tail_eq] at occupied
    exact lt_irrefl _ ((hs.present _ room).mp occupied)
  rw [spec]
  exact ⟨hr.issue.other (by simp [free]) (by simp [LsqEntry.entered]),
    hr.dcache.other (by simp [free]) (by simp [LsqEntry.entered]),
    hr.dtagcmp.other (by simp [free]) (by simp [LsqEntry.entered]), hr.dcache_alone, hr.dtagcmp_alone⟩

theorem stations_issue {i : Nat} (hr : c.lsqPart.Stations) (h : lsqIssue cfg i c = some c') :
    c'.lsqPart.Stations := by
  obtain ⟨enter, free, spec⟩ := lsqPart_issue h
  rw [spec]
  exact ⟨(free ▸ hr.issue).enter rfl, hr.dcache.other (by simp [enter]) (by simp),
    hr.dtagcmp.other (by simp [enter]) (by simp), hr.dcache_alone, hr.dtagcmp_alone⟩

/-- `lsq_cancel_one` empties the register that names the entry. -/
theorem LsqPart.Stations.cancelOne {q : LsqPart} (hr : q.Stations) (i : Nat) :
    (q.cancelOne i).Stations := by
  have names : ∀ {reg : Option Nat} {a : LsqState}, Names reg q.entry a → a ≠ .empty →
      Names (if (q.entry i).state = a then none else reg)
        (q.setState i .empty).entry a := by
    intro reg a named ha
    split
    · rename_i state
      exact named.leave ((named i).mpr state) ha.symm
    · rename_i state
      exact named.other state ha.symm
  refine ⟨names hr.issue (by simp), names hr.dcache (by simp), names hr.dtagcmp (by simp), ?_, ?_⟩
  · simp only [LsqPart.cancelOne]
    split
    · exact .inl rfl
    · exact hr.dcache_alone
  · simp only [LsqPart.cancelOne]
    split
    · exact .inl rfl
    · exact hr.dtagcmp_alone

theorem LsqPart.Stations.cancel_advances {q : LsqPart} (hr : q.Stations) (i : Nat) :
    q.Advances (q.cancelOne i) := by
  have emptied : ((q.cancelOne i).entry i).state = .empty := by
    simp [LsqPart.cancelOne, LsqPart.setState, LsqPart.set]
  have names : ∀ {reg : Option Nat} {a : LsqState} {j : Nat}, Names reg q.entry a → reg = some j →
      (if (q.entry i).state = a then none else reg) = some j ∨
        (if (q.entry i).state = a then none else reg) = none ∧
          ((q.cancelOne i).entry j).state = .empty := by
    intro reg a j named hj
    split
    · rename_i state
      obtain rfl : i = j := Option.some.inj (((named i).mpr state).symm.trans hj)
      exact .inr ⟨rfl, emptied⟩
    · exact .inl hj
  constructor
  · intro j hj
    exact (names hr.issue hj).imp id fun h => ⟨h.1, .inr h.2⟩
  · intro j hj
    exact (names hr.dcache hj).imp id fun h => ⟨h.1, .inr h.2⟩
  · intro j hj
    exact (names hr.dtagcmp hj).imp id fun h => ⟨h.1, .inr h.2⟩
  · exact fun p hp => .inl hp
  · exact fun p hp => .inl hp
  · exact fun p hp => .inl hp

/-- The ring and its registers are in order. -/
structure LsqPart.WellFormed (n : Nat) (q : LsqPart) : Prop where
  shape : ∃ d e, q.Shape n d e
  stations : q.Stations

/-- A refill may wait at address calculation behind this section. -/
def Phase.behindRefill : Phase → Bool
  | .delay | .lsqSelect | .dcachewrite | .dtagcmp | .drain | .dcache | .memaddr => true
  | _ => false

/-- What the section a core has reached says about its registers. -/
structure LsqPart.Timely (place : Option (Phase × Locals)) (q : LsqPart) : Prop where
  refill : q.refill = none ∨ ∃ x, place = some x ∧ x.1.behindRefill
  compared : ∀ x, place = some x → x.1 = .drain ∨ x.1 = .dcache →
    q.dtagcmpi = none ∧ q.dtagcmpRefill = none
  probed : ∀ x, place = some x → x.1 = .memaddr → q.dcachei = none ∧ q.dcacheRefill = none
  write : ∀ x, place = some x → x.1 = .dtagcmp ∨ x.1 = .drain → x.2.dcachewriteValid →
    (q.entry q.head).state = .commit

/-- The invariant of one queue. -/
structure LsqPart.Invariant (n : Nat) (place : Option (Phase × Locals)) (q : LsqPart) : Prop where
  wellFormed : q.WellFormed n
  timely : q.Timely place

/-- Outside the sections the timing is about there is only the refill to look at. -/
theorem LsqPart.Timely.outside {place : Option (Phase × Locals)} {q : LsqPart}
    (refill : q.refill = none) (out : ∀ x, place = some x → x.1 ≠ .dtagcmp ∧ x.1 ≠ .drain ∧
      x.1 ≠ .dcache ∧ x.1 ≠ .memaddr) : q.Timely place where
  refill := .inl refill
  compared x hx h := by
    have := out x hx
    tauto
  probed x hx h := absurd h (out x hx).2.2.2
  write x hx h := by
    have := out x hx
    tauto

/-- An operation of the pipeline keeps the queue in order. -/
theorem wellFormed_op (h : LsqOp cfg c c') (wf : c.lsqPart.WellFormed cfg.lsqIfqSize) :
    c'.lsqPart.WellFormed cfg.lsqIfqSize ∧ c.lsqPart.Advances c'.lsqPart ∧
      c'.lsqPart.refill = c.lsqPart.refill := by
  obtain ⟨⟨d, e, hs⟩, hr⟩ := wf
  cases h with
  | keep same =>
    rw [same]
    exact ⟨⟨⟨d, e, hs⟩, hr⟩, .refl _, rfl⟩
  | enqueue op addr h =>
    refine ⟨⟨⟨d, e, shape_enqueue hs h⟩, stations_enqueue hs hr h⟩, ?_⟩
    rw [(lsqPart_enqueue h).2]
    exact ⟨LsqPart.SameRegisters.advances ⟨rfl, rfl, rfl, rfl, rfl, rfl⟩, rfl⟩
  | issue i h =>
    refine ⟨⟨⟨d, e, shape_issue hs h⟩, stations_issue hr h⟩, ?_⟩
    obtain ⟨-, free, spec⟩ := lsqPart_issue h
    rw [spec]
    refine ⟨⟨fun j hj => ?_, fun _ hi => .inl hi, fun _ hi => .inl hi, fun _ hp => .inl hp,
      fun _ hp => .inl hp, fun _ hp => .inl hp⟩, rfl⟩
    rw [free] at hj
    cases hj
  | writeback h =>
    obtain ⟨i, -, ready, spec⟩ := lsqPart_writeback h
    refine ⟨⟨⟨d, e, shape_writeback hs h⟩, ?_⟩, ?_⟩
    · rw [spec]
      exact hr.setState (by simp [ready]) (by simp)
    · rw [spec]
      exact ⟨LsqPart.SameRegisters.advances ⟨rfl, rfl, rfl, rfl, rfl, rfl⟩, rfl⟩
  | commit h =>
    obtain ⟨i, -, writeback, -, spec⟩ := lsqPart_commit h
    refine ⟨⟨⟨d, e + 1, shape_commit hs h⟩, ?_⟩, ?_⟩
    · rw [spec]
      exact hr.setState (by simp [writeback]) (by simp)
    · rw [spec]
      exact ⟨LsqPart.SameRegisters.advances ⟨rfl, rfl, rfl, rfl, rfl, rfl⟩, rfl⟩
  | cancel h =>
    obtain ⟨i, -, -, -, -, spec⟩ := lsqPart_cancel h
    refine ⟨⟨⟨d, e, shape_cancel hs h⟩, ?_⟩, ?_⟩
    · rw [spec]
      exact hr.cancelOne i
    · rw [spec]
      exact ⟨hr.cancel_advances i, rfl⟩

variable (cfg) in
/-- A sweep of the queue leaves the states alone. -/
theorem wellFormed_scanned (p : RefillPacket) (wf : c.lsqPart.WellFormed n)
    (at_p : c.lsqDtagcmpRefill = some p) : (c.scanned cfg p).WellFormed n := by
  obtain ⟨⟨d, e, hs⟩, hr⟩ := wf
  have states : ∀ i, ((c.scanned cfg p).entry i).state = (c.lsqPart.entry i).state := by
    intro i
    simp only [Cpu.scanned]
    split
    · exact (p.scanned c (c.lsq i)).state
    · rfl
  have idle : c.lsqPart.dtagcmpi = none := by
    obtain idle | none := hr.dtagcmp_alone
    · exact idle
    · rw [show c.lsqPart.dtagcmpRefill = some p from at_p] at none
      cases none
  refine ⟨⟨d, e, hs.congr ⟨rfl, rfl, rfl, rfl⟩ fun i => ?_⟩, ?_⟩
  · rw [states]
    exact .refl _
  · exact ⟨hr.issue.congr fun i => by rw [states], hr.dcache.congr fun i => by rw [states],
      hr.dtagcmp.congr fun i => by rw [states], hr.dcache_alone, .inl idle⟩

variable (cfg) in
/-- The tag compare of an operation takes it out of its register. -/
theorem wellFormed_compared {i : Nat} (wf : c.lsqPart.WellFormed n) (at_i : c.lsqPart.dtagcmpi = some i) :
    (dtagcmpOp cfg i c).lsqPart.WellFormed n := by
  obtain ⟨⟨d, e, hs⟩, hr⟩ := wf
  obtain ⟨entry, wtbki, spec, self, others⟩ := lsqPart_dtagcmpOp cfg i c
  have old : (c.lsqPart.entry i).state = .dtagcmp := (hr.dtagcmp i).mp at_i
  have states : ∀ j, (entry j).state = if j = i then .readcache else (c.lsqPart.entry j).state := by
    intro j
    split
    · rename_i hj
      rw [hj, self]
    · rename_i hj
      exact (others j hj).state
  rw [spec]
  refine ⟨⟨d, e, hs.congr ⟨rfl, rfl, rfl, rfl⟩ fun j => ?_⟩, ?_⟩
  · rw [states]
    split
    · rename_i hj
      rw [hj, old]
      exact .pending (by simp) (by simp)
    · exact .refl _
  · refine ⟨hr.issue.congr fun j => ?_, hr.dcache.congr fun j => ?_, fun j => ?_, hr.dcache_alone,
      .inl rfl⟩
    · rw [states]
      split
      · rename_i hj
        simp [hj, old]
      · rfl
    · rw [states]
      split
      · rename_i hj
        simp [hj, old]
      · rfl
    · rw [states]
      split
      · simp
      · rename_i hj
        rw [← hr.dtagcmp j, at_i, Option.some.injEq]
        simp [Ne.symm hj]

/-- An operation moves from address calculation to the data cache. -/
theorem wellFormed_memaddr {q : LsqPart} {i : Nat} (wf : q.WellFormed n) (at_i : q.issuei = some i)
    (free : q.dcachei = none ∧ q.dcacheRefill = none) :
    LsqPart.WellFormed n { q.setState i .dcache with dcachei := some i, issuei := none } := by
  obtain ⟨⟨d, e, hs⟩, hr⟩ := wf
  have old : (q.entry i).state = .issue := (hr.issue i).mp at_i
  refine ⟨⟨d, e, hs.setState ⟨rfl, rfl, rfl, rfl⟩ rfl (by simp [old]) (by simp)⟩, ?_⟩
  exact ⟨hr.issue.leave at_i (by simp), (free.1 ▸ hr.dcache).enter rfl,
    hr.dtagcmp.other (by simp [old]) (by simp), .inr free.2, hr.dtagcmp_alone⟩

/-- An operation moves from the data cache to the tag compare. -/
theorem wellFormed_probed {q : LsqPart} {i : Nat} {paddr : Nat} {blk : Option BlkRef}
    (wf : q.WellFormed n) (at_i : q.dcachei = some i)
    (free : q.dtagcmpi = none ∧ q.dtagcmpRefill = none) :
    LsqPart.WellFormed n { q.set i (LsqEntry.probed paddr blk .noReq) with
      dtagcmpi := some i, dcachei := none } := by
  obtain ⟨⟨d, e, hs⟩, hr⟩ := wf
  have old : (q.entry i).state = .dcache := (hr.dcache i).mp at_i
  refine ⟨⟨d, e, hs.update (i := i) ⟨rfl, rfl, rfl, rfl⟩ rfl ?_⟩, ?_⟩
  · rw [old]
    exact .pending (by simp [LsqEntry.probed]) (by simp)
  · exact ⟨hr.issue.other (by simp [old]) (by simp [LsqEntry.probed]),
      hr.dcache.leave at_i (by simp [LsqEntry.probed]), (free.1 ▸ hr.dtagcmp).enter rfl, .inl rfl,
      .inr free.2⟩

/-- Draining only moves states that no register is about. -/
theorem LsqPart.DrainedTo.stations {q q' : LsqPart} (h : q.DrainedTo q') (hr : q.Stations) :
    q'.Stations := by
  refine hr.congr ?_ fun i => ?_
  · rw [h.rest]
    exact ⟨rfl, rfl, rfl, rfl, rfl, rfl⟩
  · obtain same | ⟨old, new⟩ | ⟨old, new⟩ := (h.entry i).state
    · rw [same]
      exact ⟨.rfl, .rfl, .rfl⟩
    · simp [old, new, LsqState.SameStation]
    · simp [old, new, LsqState.SameStation]

/-- Neither the selection nor a waiting refill matters for the order of the queue. -/
theorem LsqPart.WellFormed.withOthers {q : LsqPart} (wf : q.WellFormed n) (w : Option Nat)
    (r : Option RefillPacket) : LsqPart.WellFormed n { q with wtbki := w, refill := r } := by
  obtain ⟨⟨d, e, hs⟩, hr⟩ := wf
  exact ⟨⟨d, e, hs.congr ⟨rfl, rfl, rfl, rfl⟩ fun _ => .refl _⟩,
    ⟨hr.issue, hr.dcache, hr.dtagcmp, hr.dcache_alone, hr.dtagcmp_alone⟩⟩

theorem lsqPart_of_core (core : c'.lsqCore = c.lsqCore) :
    c'.lsqPart = { c.lsqPart with refill := c'.lsqPart.refill } :=
  congrArg (fun q : LsqPart => { q with refill := c'.lsqPart.refill }) core

variable {place place' : Option (Phase × Locals)}

/-- Every step keeps the queue in order and overwrites no register. -/
theorem invariant_step (h : LsqStep cfg k place c place' c')
    (inv : c.lsqPart.Invariant cfg.lsqIfqSize place) :
    c'.lsqPart.Invariant cfg.lsqIfqSize place' ∧ c.lsqPart.Advances c'.lsqPart := by
  obtain ⟨wf, timely⟩ := inv
  have early : ∀ {phase : Phase} {loc : Locals}, place = some (phase, loc) →
      phase.behindRefill = false → c.lsqPart.refill = none := by
    intro phase loc hp behind
    obtain none | ⟨x, hx, waits⟩ := timely.refill
    · exact none
    · obtain rfl := Option.some.inj (hx.symm.trans hp)
      rw [behind] at waits
      cases waits
  cases h with
  | rest same =>
    rw [same]
    refine ⟨⟨wf, .outside ?_ (by simp)⟩, .refl _⟩
    obtain none | ⟨x, hx, -⟩ := timely.refill
    · exact none
    · cases hx
  | start same =>
    rw [same]
    refine ⟨⟨wf, .outside ?_ (by simp)⟩, .refl _⟩
    obtain none | ⟨x, hx, -⟩ := timely.refill
    · exact none
    · cases hx
  | @quiet phase next loc loc' _ _ outside succ same =>
    rw [same]
    refine ⟨⟨wf, ?_⟩, .refl _⟩
    cases phase <;> cases outside <;> obtain rfl := Option.some.inj succ <;> first
      | exact .outside (early rfl rfl) (by simp)
      | exact ⟨.inr ⟨_, rfl, rfl⟩, by simp, by simp, by simp⟩
  | refill core =>
    have free := early rfl rfl
    have same := lsqPart_of_core core
    rw [same]
    refine ⟨⟨wf.withOthers _ _, .inr ⟨_, rfl, rfl⟩, by simp, by simp, by simp⟩, ?_⟩
    refine ⟨fun _ hi => .inl hi, fun _ hi => .inl hi, fun _ hi => .inl hi, fun p hp => ?_,
      fun _ hp => .inl hp, fun _ hp => .inl hp⟩
    rw [free] at hp
    cases hp
  | select =>
    have same : (lsqSelect cfg c).lsqPart = { c.lsqPart with
        wtbki := (lsqSelect cfg c).lsqWtbki, refill := c.lsqPart.refill } := rfl
    rw [same]
    exact ⟨⟨wf.withOthers _ _, .inr ⟨_, rfl, rfl⟩, by simp, by simp, by simp⟩,
      LsqPart.SameRegisters.advances ⟨rfl, rfl, rfl, rfl, rfl, rfl⟩⟩
  | write h =>
    obtain ⟨same, commit⟩ := lsqPart_dcachewrite h
    rw [same]
    refine ⟨⟨wf, .inr ⟨_, rfl, rfl⟩, by simp, by simp, fun x hx _ valid => ?_⟩, .refl _⟩
    obtain rfl := Option.some.inj hx
    exact commit valid
  | @compare loc _ _ h =>
    have head := timely.write _ rfl (.inl rfl)
    obtain ⟨p, at_p, spec⟩ | ⟨i, idle, at_i, rfl⟩ | ⟨idle, none, rfl⟩ := dtagcmp_cases h
    · have wf' := wellFormed_scanned cfg p wf at_p
      have empty : c.lsqPart.dtagcmpi = none := by
        obtain empty | none := wf.stations.dtagcmp_alone
        · exact empty
        · rw [show c.lsqPart.dtagcmpRefill = some p from at_p] at none
          cases none
      rw [spec]
      refine ⟨⟨wf', .inr ⟨_, rfl, rfl⟩, fun _ _ _ => ⟨empty, rfl⟩, by simp, fun x hx _ valid => ?_⟩, ?_⟩
      · obtain rfl := Option.some.inj hx
        rw [← head valid]
        simp only [Cpu.scanned]
        split
        · exact (p.scanned c _).state
        · rfl
      · exact ⟨fun _ hi => .inl hi, fun _ hi => .inl hi, fun _ hi => .inl hi, fun _ hp => .inl hp,
          fun _ hp => .inl hp, fun _ _ => .inr rfl⟩
    · have wf' := wellFormed_compared cfg wf at_i
      have old : (c.lsqPart.entry i).state = .dtagcmp := (wf.stations.dtagcmp i).mp at_i
      obtain ⟨entry, wtbki, spec, self, others⟩ := lsqPart_dtagcmpOp cfg i c
      rw [spec] at wf' ⊢
      refine ⟨⟨wf', .inr ⟨_, rfl, rfl⟩, fun _ _ _ => ⟨rfl, idle⟩, by simp, fun x hx _ valid => ?_⟩, ?_⟩
      · obtain rfl := Option.some.inj hx
        have other : c.lsqPart.head ≠ i := by
          intro he
          have := head valid
          rw [he, old] at this
          cases this
        exact (others _ other).state.trans (head valid)
      · refine ⟨fun _ hi => .inl hi, fun _ hi => .inl hi, fun j hj => .inr ⟨rfl, .inl ?_⟩,
          fun _ hp => .inl hp, fun _ hp => .inl hp, fun _ hp => .inl hp⟩
        obtain rfl := Option.some.inj (hj.symm.trans at_i)
        exact self
    · refine ⟨⟨wf, timely.refill.imp id fun _ => ⟨_, rfl, rfl⟩, fun _ _ _ => ⟨none, idle⟩, by simp,
        fun x hx _ valid => ?_⟩, .refl _⟩
      obtain rfl := Option.some.inj hx
      exact head valid
  | drain =>
    obtain ⟨d, e, hs⟩ := wf.shape
    obtain ⟨⟨d', hs'⟩, drained⟩ := drain_spec hs (timely.write _ rfl (.inr rfl))
    have free := timely.compared _ rfl (.inl rfl)
    refine ⟨⟨⟨⟨d', _, hs'⟩, drained.stations wf.stations⟩, .inr ⟨_, rfl, rfl⟩, fun _ _ _ => ?_, by simp,
      by simp⟩, ?_⟩
    · rw [drained.rest]
      exact free
    · refine LsqPart.SameRegisters.advances ?_
      rw [drained.rest]
      exact ⟨rfl, rfl, rfl, rfl, rfl, rfl⟩
  | @probe loc _ _ i idle at_i same =>
    have free := timely.compared _ rfl (.inr rfl)
    obtain ⟨paddr, blk, spec⟩ := lsqPart_dcacheOp cfg k i c
    rw [same, spec]
    refine ⟨⟨wellFormed_probed wf at_i free, .inr ⟨_, rfl, rfl⟩, by simp, fun _ _ _ => ⟨rfl, idle⟩,
      by simp⟩, ?_⟩
    refine ⟨fun _ hi => .inl hi, fun j hj => .inr ⟨rfl, .inl ?_⟩, fun j hj => ?_,
      fun _ hp => .inl hp, fun _ hp => .inl hp, fun _ hp => .inl hp⟩
    · exact at_i.symm.trans hj
    · rw [free.1] at hj
      cases hj
  | @pass loc _ _ p p' at_p request same =>
    have free := timely.compared _ rfl (.inr rfl)
    have empty : c.lsqPart.dcachei = none := by
      obtain empty | none := wf.stations.dcache_alone
      · exact empty
      · rw [show c.lsqPart.dcacheRefill = some p from at_p] at none
        cases none
    obtain ⟨⟨d, e, hs⟩, hr⟩ := wf
    rw [same]
    refine ⟨⟨⟨⟨d, e, hs.congr ⟨rfl, rfl, rfl, rfl⟩ fun _ => .refl _⟩, ⟨hr.issue, hr.dcache, hr.dtagcmp,
      .inr rfl, .inl free.1⟩⟩, .inr ⟨_, rfl, rfl⟩, by simp, fun _ _ _ => ⟨empty, rfl⟩, by simp⟩, ?_⟩
    refine ⟨fun _ hi => .inl hi, fun _ hi => .inl hi, fun _ hi => .inl hi, fun _ hp => .inl hp,
      fun r hr => .inr ⟨rfl, p', ?_, rfl⟩, fun r hr => ?_⟩
    · obtain rfl := Option.some.inj (at_p.symm.trans hr)
      exact request
    · rw [free.2] at hr
      cases hr
  | bubble idle none same =>
    rw [same]
    exact ⟨⟨wf, timely.refill.imp id fun _ => ⟨_, rfl, rfl⟩, by simp, fun _ _ _ => ⟨none, idle⟩,
      by simp⟩, .refl _⟩
  | forward =>
    have free := timely.probed _ rfl rfl
    obtain ⟨p, at_p, spec⟩ | ⟨i, idle, at_i, spec⟩ | ⟨idle, none, spec⟩ := lsqPart_memaddr c
    · obtain ⟨⟨d, e, hs⟩, hr⟩ := wf
      rw [spec]
      refine ⟨⟨⟨⟨d, e, hs.congr ⟨rfl, rfl, rfl, rfl⟩ fun _ => .refl _⟩, ⟨hr.issue, hr.dcache, hr.dtagcmp,
        .inl free.1, hr.dtagcmp_alone⟩⟩, .outside rfl (by simp)⟩, ?_⟩
      refine ⟨fun _ hi => .inl hi, fun _ hi => .inl hi, fun _ hi => .inl hi,
        fun r hr => .inr ⟨rfl, at_p.symm.trans hr⟩, fun r hr => ?_, fun _ hp => .inl hp⟩
      rw [free.2] at hr
      cases hr
    · rw [spec]
      refine ⟨⟨wellFormed_memaddr wf at_i free, .outside idle (by simp)⟩, ?_⟩
      refine ⟨fun j hj => .inr ⟨rfl, .inl (at_i.symm.trans hj)⟩, fun j hj => ?_, fun _ hi => .inl hi,
        fun _ hp => .inl hp, fun _ hp => .inl hp, fun _ hp => .inl hp⟩
      rw [free.1] at hj
      cases hj
    · rw [spec]
      exact ⟨⟨wf, .outside idle (by simp)⟩, .refl _⟩
  | @op phase loc _ _ h pipeline =>
    obtain ⟨wf', advances, refill⟩ := wellFormed_op h wf
    have free : c.lsqPart.refill = none := by
      obtain rfl | rfl := pipeline
      · exact early rfl rfl
      · exact early rfl rfl
    refine ⟨⟨wf', .outside (refill.trans free) fun x hx => ?_⟩, advances⟩
    obtain rfl := Option.some.inj hx
    obtain rfl | rfl := pipeline
    · simp
    · simp
  | done same =>
    rw [same]
    exact ⟨⟨wf, .outside (early rfl rfl) (by simp)⟩, .refl _⟩

/-! ### Runs -/

theorem invariant_initial (cfg : Config) (k : Nat) :
    ((Machine.initial cfg).cpus k).lsqPart.Invariant cfg.lsqIfqSize
      ((Machine.initial cfg).place k) := by
  have idle : (Machine.initial cfg).place k = none := rfl
  have names : ∀ a : LsqState, a ≠ .empty →
      Names none ((Machine.initial cfg).cpus k).lsqPart.entry a := by
    intro a ha i
    constructor
    · intro h
      cases h
    · exact fun h => absurd h.symm ha
  rw [idle]
  refine ⟨⟨⟨0, 0, ?_⟩, names _ (by simp), names _ (by simp), names _ (by simp), .inl rfl, .inl rfl⟩,
    .outside rfl (by simp)⟩
  refine ⟨cfg.lsq_pos, (slot_zero cfg.lsq_pos).symm, (slot_zero cfg.lsq_pos).symm, le_rfl, le_rfl,
    Nat.zero_le _, ?_, ?_, ?_, fun _ _ => rfl⟩
  all_goals
    intro j _
    simp [LsqPart.nth, Machine.initial, Cpu.lsqPart, LsqEntry.plain]

/-- In every reachable state every queue is in order. -/
theorem invariant_reachable {s : Sys} (h : Machine.Reachable cfg s) (k : Nat) :
    (s.cpus k).lsqPart.Invariant cfg.lsqIfqSize (s.place k) := by
  induction h with
  | initial => exact invariant_initial cfg k
  | step _ _ hstep ih => exact (invariant_step (lsqStep_of_step hstep k) ih).1

end Godson
