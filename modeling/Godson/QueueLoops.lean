import Godson.Loops
import Godson.QueueInvariant
import Mathlib.Data.List.TakeWhile

/-! The loops of `lsq_stage` as they stand in the source, each with its own index arithmetic and
exits. They terminate and compute what the scans of the model say. -/
namespace Godson

open Loops

/-- `i++; if (i==lsq_ifq_size) i=0`. -/
def stepUp (n i : Nat) : Nat := if i + 1 = n then 0 else i + 1

/-- `i--; if (i<0) i=lsq_ifq_size-1`. -/
def stepDown (n i : Nat) : Nat := if i = 0 then n - 1 else i - 1

/-! ### Index arithmetic -/

variable {n h : Nat}

theorem stepUp_eq {i : Nat} (hi : i < n) : stepUp n i = nextIndex n i := by
  rw [stepUp, nextIndex, mod_below_twice (by omega)]
  split_ifs <;> omega

theorem stepDown_slot {p : Nat} (hh : h < n) (hp : 0 < p) (hpn : p < 2 * n) :
    stepDown n (slot n h p) = slot n h (p - 1) := by
  have down : ∀ q, 0 < q → q ≤ n → stepDown n (slot n h q) = slot n h (q - 1) := by
    intro q hq hqn
    rw [← slot_pred hh hq hqn, stepDown, mod_below_twice (by have := slot_lt (h := h) (n := n) (by omega) q; omega)]
    have := slot_lt (h := h) (n := n) (by omega) q
    split_ifs <;> omega
  by_cases hpn' : p ≤ n
  · exact down p hp hpn'
  · obtain ⟨q, rfl⟩ := Nat.exists_eq_add_of_le' (by omega : n ≤ p)
    rw [slot_add_size, down q (by omega) (by omega), ← slot_add_size]
    congr 1
    omega

theorem walk_up (hn : 0 < n) (a m : Nat) :
    Walk (stepUp n) (slot n h a) ((List.range m).map fun j => slot n h (a + j)) (slot n h (a + m)) := by
  induction m generalizing a with
  | zero => rfl
  | succ m ih =>
    have next : stepUp n (slot n h a) = slot n h (a + 1) := by
      rw [stepUp_eq (slot_lt hn a), nextIndex_slot]
    have tail : ((fun j => slot n h (a + j)) ∘ Nat.succ) = fun j => slot n h (a + 1 + j) := by
      funext j
      simp only [Function.comp_apply]
      congr 1
      omega
    rw [List.range_succ_eq_map, List.map_cons, List.map_map, tail]
    refine ⟨rfl, ?_⟩
    rw [Nat.add_zero, next, ← Nat.add_assoc, Nat.add_right_comm]
    exact ih (a + 1)

theorem walk_down (hh : h < n) {a m : Nat} (hm : m ≤ a) (ha : a < 2 * n) :
    Walk (stepDown n) (slot n h a) ((List.range m).map fun j => slot n h (a - j)) (slot n h (a - m)) := by
  induction m generalizing a with
  | zero => rfl
  | succ m ih =>
    have next : stepDown n (slot n h a) = slot n h (a - 1) := stepDown_slot hh (by omega) ha
    have tail : ((fun j => slot n h (a - j)) ∘ Nat.succ) = fun j => slot n h (a - 1 - j) := by
      funext j
      simp only [Function.comp_apply]
      congr 1
      omega
    rw [List.range_succ_eq_map, List.map_cons, List.map_map, tail]
    refine ⟨rfl, ?_⟩
    rw [next, show a - (m + 1) = a - 1 - m by omega]
    exact ih (by omega) (by omega)

/-- A scan of the ring starts at its first index and meets the last one nowhere else. -/
theorem ring_cons {i stop : Nat} (hi : i < n) (hs : stop < n) :
    ∃ rest, ring n i stop = i :: rest ∧ Walk (stepUp n) i (i :: rest) stop ∧
      ∀ j ∈ rest, j ≠ stop := by
  have hn : 0 < n := by omega
  have below : (stop + n - i - 1) % n < n := Nat.mod_lt _ hn
  have last : slot n i ((stop + n - i - 1) % n + 1) = stop := by
    rw [slot, mod_below_twice (x := stop + n - i - 1) (by omega)]
    split <;> rw [mod_below_twice (by omega)] <;> split_ifs <;> omega
  generalize hm : (stop + n - i - 1) % n = m at below last
  have list : ring n i stop = i :: (List.range m).map fun j => slot n i (1 + j) := by
    have shift : ((fun j => (i + j) % n) ∘ Nat.succ) = fun j => slot n i (1 + j) := by
      funext j
      simp only [Function.comp_apply, slot]
      congr 1
      omega
    rw [ring, hm, List.range_succ_eq_map, List.map_cons, List.map_map, shift, Nat.add_zero,
      Nat.mod_eq_of_lt hi]
  refine ⟨_, list, .cons ?_, ?_⟩
  · have next : stepUp n i = slot n i 1 := by
      rw [stepUp_eq hi]
      rfl
    have walk := walk_up (h := i) hn 1 m
    rwa [← next, Nat.add_comm 1 m, last] at walk
  · intro j hj
    obtain ⟨p, hp, rfl⟩ := List.mem_map.mp hj
    have hp := List.mem_range.mp hp
    rw [← last, ← slot_slot, Nat.add_comm m, ← slot_slot, Ne, slot_inj (by omega) (by omega)]
    omega

/-! ### The loops -/

/-- One turn of the two selecting loops: take the entry and leave, or go on. -/
def selectBody (n : Nat) (p : Nat → Bool) (s : Nat × Option Nat) : Nat × Option Nat :=
  if p s.1 then (s.1, some s.1) else (stepUp n s.1, s.2)

def selectTest (c : Cpu) (s : Nat × Option Nat) : Bool :=
  s.2.isNone && s.1 != c.lsqTail && (c.lsq s.1).state != .empty

/-- One turn of the loops of a replacement or an intervention. -/
def sweepBody (n : Nat) (f : LsqEntry → LsqEntry) (s : Nat × Cpu) : Nat × Cpu :=
  (stepUp n s.1, s.2.modLsq s.1 f)

def sweepTest (s : Nat × Cpu) : Bool := s.1 != s.2.lsqTail

/-- One turn of the loop of a refill, which also withdraws the selected miss. -/
def refillBody (n : Nat) (p : RefillPacket) (s : Nat × Cpu) : Nat × Cpu :=
  let l := s.2.lsq s.1
  let served := l.refillMatch p && !(l.opStore && p.mode == .shared)
  (stepUp n s.1, { s.2.modLsq s.1 (LsqEntry.onRefill p) with
    lsqMissi := if served && s.2.lsqMissi == some s.1 then none else s.2.lsqMissi })

/-- One turn of the search for older stores. -/
def searchBody (n : Nat) (c : Cpu) (lsqid : Nat) (bytemask : BitVec 8) (s : Nat × BitVec 8) :
    Nat × BitVec 8 :=
  let m := (c.lsq s.1).bytemask &&& bytemask &&& s.2
  (stepDown n s.1, if m ≠ 0 ∧ storeMatch (c.lsq lsqid) (c.lsq s.1) then s.2 &&& ~~~m else s.2)

def searchTest (last : Nat) (bytemask : BitVec 8) (s : Nat × BitVec 8) : Bool :=
  s.1 != last && bytemask &&& s.2 != 0

/-- One turn of the search for an older load that has not written back. -/
def speculateBody (n : Nat) (c : Cpu) (s : Nat × Option Nat) : Nat × Option Nat :=
  if (c.lsq s.1).opLoad && (c.lsq s.1).state.beforeWriteback then (s.1, some s.1)
  else (stepDown n s.1, s.2)

def speculateTest (last : Nat) (s : Nat × Option Nat) : Bool := s.2.isNone && s.1 != last

/-- One turn of the forwarding to younger loads. -/
def forwardBody (n lsqid : Nat) (bytemask : BitVec 8) (s : Nat × (Cpu × BitVec 8)) :
    Nat × (Cpu × BitVec 8) :=
  (stepUp n s.1, forwardStep lsqid bytemask s.2 s.1)

def forwardTest (bytemask : BitVec 8) (s : Nat × (Cpu × BitVec 8)) : Bool :=
  s.1 != s.2.1.lsqTail && bytemask &&& s.2.2 != 0

/-- One turn of the freeing of drained entries. -/
def freeBody (n : Nat) (s : Nat × Cpu) : Nat × Cpu :=
  (stepUp n s.1, { s.2.modLsq s.1 fun l => { l with state := .empty } with
    lsqNum := s.2.lsqNum - 1 })

def freeTest (s : Nat × Cpu) : Bool := (s.2.lsq s.1).state == .delay1

/-- One turn of the draining of loads; `s.2.1` counts them. -/
def drainBody (n : Nat) (s : Nat × (Nat × Cpu)) : Nat × (Nat × Cpu) :=
  (nextIndex n s.1, s.2.1 + 1, s.2.2.modLsq s.1 fun l => { l with state := .delay1 })

def drainTest (s : Nat × (Nat × Cpu)) : Bool :=
  (s.2.2.lsq s.1).state == .commit && (s.2.2.lsq s.1).opLoad && s.2.1 < 3

variable {cfg : Config} {c : Cpu}

/-- A search that leaves with its first hit. -/
theorem search_loop {next : Nat → Nat} {test : Nat × Option Nat → Bool}
    {body : Nat × Option Nat → Nat × Option Nat} {p : Nat → Bool} {i e : Nat} {l : List Nat}
    (walk : Walk next i l e) (hit : ∀ j, p j = true → body (j, none) = (j, some j))
    (miss : ∀ j, p j = false → body (j, none) = (next j, none))
    (go : ∀ j ∈ l, test (j, none) = true) (left : ∀ j k, test (j, some k) = false)
    (stop : test (e, none) = false) : ∃ j, While test body (i, none) (j, l.find? p) := by
  rw [← foldl_search]
  refine while_walk_until Option.isSome (fun _ => True) walk trivial ?_
    (fun _ _ _ => trivial) ?_ ?_ ?_
  · rintro j hj (_ | k) - open_
    · refine ⟨go j hj, ?_⟩
      cases hp : p j with
      | true => simp [hit j hp]
      | false => simp [miss j hp]
    · cases open_
  · rintro j (_ | k) found
    · cases found
    · exact left j k
  · rintro j (_ | k) found
    · cases found
    · rfl
  · rintro (_ | k) -
    · exact stop
    · exact left e k

/-- The loops that select the entry to write back and the miss to issue. -/
theorem select_loop (p : Nat → Bool) (head : c.lsqHead < cfg.lsqIfqSize)
    (tail : c.lsqTail < cfg.lsqIfqSize) :
    ∃ i, DoWhile (selectTest c) (selectBody cfg.lsqIfqSize p) (c.lsqHead, none)
      (i, (lsqScan cfg c).find? p) := by
  obtain ⟨rest, list, walk, ends⟩ := ring_cons head tail
  obtain ⟨e, walk, last⟩ := walk.2.takeWhile fun i => (c.lsq i).state != .empty
  have hit : ∀ j, p j = true → selectBody cfg.lsqIfqSize p (j, none) = (j, some j) := by
    intro j hj
    simp [selectBody, hj]
  have miss : ∀ j, p j = false →
      selectBody cfg.lsqIfqSize p (j, none) = (stepUp cfg.lsqIfqSize j, none) := by
    intro j hj
    simp [selectBody, hj]
  have left : ∀ j k, selectTest c (j, some k) = false := fun _ _ => rfl
  unfold DoWhile
  rw [lsqScan, list]
  cases hp : p c.lsqHead with
  | true =>
    rw [hit _ hp, List.find?_cons_of_pos hp]
    exact ⟨_, .stop (left _ _)⟩
  | false =>
    rw [miss _ hp, List.find?_cons_of_neg (by simp [hp])]
    refine search_loop walk hit miss (fun j hj => ?_) left ?_
    · have live := List.mem_takeWhile_imp hj
      have inside := ends j (List.takeWhile_subset _ hj)
      simp [selectTest, inside, bne_iff_ne.mp live]
    · obtain rfl | empty := last
      · simp [selectTest]
      · have empty : (c.lsq e).state = .empty := by simpa using empty
        simp [selectTest, empty]

/-- The loops of a replacement and of an intervention. -/
theorem sweep_loop (f : LsqEntry → LsqEntry) (head : c.lsqHead < cfg.lsqIfqSize)
    (tail : c.lsqTail < cfg.lsqIfqSize) :
    DoWhile sweepTest (sweepBody cfg.lsqIfqSize f) (c.lsqHead, c)
      (c.lsqTail, mapRing cfg (fun _ => f) c) := by
  obtain ⟨rest, list, walk, ends⟩ := ring_cons head tail
  have kept : ∀ (l : List Nat) (c : Cpu),
      (l.foldl (fun c i => c.modLsq i f) c).lsqTail = c.lsqTail :=
    foldl_keeps fun _ _ => rfl
  rw [mapRing, list]
  refine doWhile_walk (sweepBody _ f) (f := fun (c : Cpu) i => c.modLsq i f) walk rfl ?_ ?_
  · intro front j rest' split
    refine ⟨?_, rfl⟩
    have inside := ends j (by rw [split]; simp)
    simp only [sweepTest, kept, bne_iff_ne]
    exact inside
  · simp only [sweepTest, kept]
    simp [Cpu.modLsq]

/-- A refill serves the entry with its data. -/
def LsqEntry.served (p : RefillPacket) (l : LsqEntry) : Bool :=
  l.refillMatch p && !(l.opStore && p.mode == .shared)

/-- The refill loop over a list withdraws the selected miss if it is in the list. -/
theorem foldl_refill (p : RefillPacket) {l : List Nat} (once : l.Nodup) (c : Cpu) :
    l.foldl (fun c i => (refillBody n p (i, c)).2) c = { c with
      lsq := fun i => if i ∈ l then (c.lsq i).onRefill p else c.lsq i
      lsqMissi := c.lsqMissi.filter fun i => !(l.contains i && (c.lsq i).served p) } := by
  induction l generalizing c with
  | nil =>
    have all : c.lsqMissi.filter (fun _ => true) = c.lsqMissi := by
      cases c.lsqMissi <;> rfl
    simp [all]
  | cons j l ih =>
    obtain ⟨hj, hl⟩ := List.nodup_cons.mp once
    rw [List.foldl_cons, ih hl]
    have entries : (fun i => if i ∈ l then ((c.modLsq j (LsqEntry.onRefill p)).lsq i).onRefill p
        else (c.modLsq j (LsqEntry.onRefill p)).lsq i) =
        fun i => if i ∈ j :: l then (c.lsq i).onRefill p else c.lsq i := by
      funext i
      by_cases hi : i = j
      · subst hi
        simp [Cpu.modLsq, hj]
      · simp [Cpu.modLsq, hi]
    have miss : ((if (c.lsq j).served p && c.lsqMissi == some j then none else c.lsqMissi).filter
          fun i => !(l.contains i && ((c.modLsq j (LsqEntry.onRefill p)).lsq i).served p)) =
        c.lsqMissi.filter fun i => !((j :: l).contains i && (c.lsq i).served p) := by
      cases c.lsqMissi with
      | none => simp
      | some i =>
        by_cases hi : i = j
        · subst hi
          by_cases served : (c.lsq i).served p <;> simp [Option.filter, served, hj]
        · simp [Option.filter, Cpu.modLsq, hi]
    show ({ c with lsq := _, lsqMissi := _ } : Cpu) = { c with lsq := _, lsqMissi := _ }
    rw [← entries, ← miss]
    rfl

theorem refill_loop (p : RefillPacket) (head : c.lsqHead < cfg.lsqIfqSize)
    (tail : c.lsqTail < cfg.lsqIfqSize) :
    DoWhile sweepTest (refillBody cfg.lsqIfqSize p) (c.lsqHead, c) (c.lsqTail,
      { mapRing cfg (fun _ => LsqEntry.onRefill p) c with lsqMissi := refillMissi cfg p c }) := by
  obtain ⟨rest, list, walk, ends⟩ := ring_cons head tail
  have value : { mapRing cfg (fun _ => LsqEntry.onRefill p) c with lsqMissi := refillMissi cfg p c } =
      (c.lsqHead :: rest).foldl (fun c i => (refillBody cfg.lsqIfqSize p (i, c)).2) c := by
    rw [foldl_refill p (list ▸ nodup_ring cfg.lsq_pos), ← list, mapRing_eq]
    simp only [refillMissi, LsqEntry.served, Bool.and_assoc]
  have kept : ∀ (l : List Nat) (c : Cpu),
      (l.foldl (fun c i => (refillBody cfg.lsqIfqSize p (i, c)).2) c).lsqTail = c.lsqTail :=
    foldl_keeps fun _ _ => rfl
  rw [value]
  refine doWhile_walk (refillBody cfg.lsqIfqSize p)
    (f := fun c i => (refillBody cfg.lsqIfqSize p (i, c)).2) walk rfl ?_ ?_
  · intro front j rest' split
    refine ⟨?_, rfl⟩
    have inside := ends j (by rw [split]; simp)
    simp only [sweepTest, kept, bne_iff_ne]
    exact inside
  · simp only [sweepTest, kept]
    simp [refillBody, Cpu.modLsq]

/-- The scan back from an entry ends behind the oldest one. -/
theorem walk_before {h i : Nat} (hi : i < n) (hh : h < n) :
    Walk (stepDown n) (stepDown n i) (ringBefore n i h) (stepDown n h) ∧
      ∀ j ∈ ringBefore n i h, j ≠ stepDown n h := by
  obtain ⟨p, hp, rfl⟩ := exists_slot h hi
  have last : stepDown n h = slot n h (n - 1) := by
    have down := stepDown_slot (p := n) hh (by omega) (by omega)
    have turn := slot_add_size (n := n) (h := h) 0
    rw [Nat.zero_add, slot_zero hh] at turn
    rwa [turn] at down
  have first : stepDown n (slot n h p) = slot n h (p + n - 1) := by
    rw [← slot_add_size, stepDown_slot hh (by omega) (by omega)]
  have list : ringBefore n (slot n h p) h = (List.range p).map fun j => slot n h (p + n - 1 - j) := by
    rw [ringBefore_slot hh hp]
    refine List.map_congr_left fun j hj => ?_
    have hj := List.mem_range.mp hj
    rw [← slot_add_size]
    congr 1
    omega
  have walk := walk_down hh (a := p + n - 1) (m := p) (by omega) (by omega)
  rw [show p + n - 1 - p = n - 1 by omega] at walk
  refine ⟨by rw [first, list, last]; exact walk, fun j hj => ?_⟩
  obtain ⟨q, hq, rfl⟩ := (mem_ringBefore hh hp).mp hj
  rw [last, Ne, slot_inj (by omega) (by omega)]
  omega

/-- The search of a load for older stores. -/
theorem search_back_loop {lsqid : Nat} (bytemask : BitVec 8) (hi : lsqid < cfg.lsqIfqSize)
    (head1 : c.lsqHead1 < cfg.lsqIfqSize) :
    ∃ i, While (searchTest (stepDown cfg.lsqIfqSize c.lsqHead1) bytemask)
      (searchBody cfg.lsqIfqSize c lsqid bytemask) (stepDown cfg.lsqIfqSize lsqid, 0xff)
      (i, notFoundMask cfg c lsqid bytemask) := by
  obtain ⟨walk, ends⟩ := walk_before hi head1
  refine while_walk_until (fun nf => bytemask &&& nf == 0) (fun _ => True) walk
    trivial ?_ (fun _ _ _ => trivial) ?_ ?_ ?_
  · intro j hj nf _ more
    refine ⟨?_, rfl, fun _ => rfl⟩
    simp only [searchTest, Bool.and_eq_true, bne_iff_ne]
    exact ⟨ends j hj, by simpa using more⟩
  · intro j nf covered
    simp only [beq_iff_eq] at covered
    simp [searchTest, covered]
  · intro j nf covered
    simp only [beq_iff_eq] at covered
    have none : (c.lsq j).bytemask &&& bytemask &&& nf = 0 := by
      rw [BitVec.and_assoc, covered]
      exact BitVec.and_zero
    simp [none]
  · intro nf _
    simp [searchTest]

/-- The search of a load for an older load that has not written back. -/
theorem speculate_loop {lsqid : Nat} (hi : lsqid < cfg.lsqIfqSize)
    (head1 : c.lsqHead1 < cfg.lsqIfqSize) :
    ∃ i, While (speculateTest (stepDown cfg.lsqIfqSize c.lsqHead1)) (speculateBody cfg.lsqIfqSize c)
      (stepDown cfg.lsqIfqSize lsqid, none)
      (i, (ringBefore cfg.lsqIfqSize lsqid c.lsqHead1).find? fun j =>
        (c.lsq j).opLoad && (c.lsq j).state.beforeWriteback) := by
  obtain ⟨walk, ends⟩ := walk_before hi head1
  refine search_loop walk ?_ ?_ ?_ ?_ ?_
  · intro j hit
    simp only [speculateBody, hit, if_true]
  · intro j miss
    simp only [speculateBody, miss, Bool.false_eq_true, if_false]
  · intro j hj
    simp [speculateTest, ends j hj]
  · intro j k
    rfl
  · simp [speculateTest]

/-- The scan forward from an entry ends at the tail. -/
theorem walk_after {i stop : Nat} (hi : i < n) (hs : stop < n) :
    Walk (stepUp n) (stepUp n i) (ringAfter n i stop) stop ∧ ∀ j ∈ ringAfter n i stop, j ≠ stop := by
  obtain ⟨rest, list, walk, ends⟩ := ring_cons hi hs
  have after : ringAfter n i stop = rest := by
    have shift : ((fun j => (i + j) % n) ∘ Nat.succ) = fun j => (i + (j + 1)) % n := rfl
    rw [ring, List.range_succ_eq_map, List.map_cons, List.map_map, shift] at list
    exact (List.cons.inj list).2
  rw [after]
  exact ⟨walk.2, ends⟩

/-- The forwarding of a store to younger loads. -/
theorem forward_loop {lsqid : Nat} (bytemask : BitVec 8) (hi : lsqid < cfg.lsqIfqSize)
    (tail : c.lsqTail < cfg.lsqIfqSize) :
    ∃ i, While (forwardTest bytemask) (forwardBody cfg.lsqIfqSize lsqid bytemask)
      (stepUp cfg.lsqIfqSize lsqid, (c, 0xff))
      (i, (ringAfter cfg.lsqIfqSize lsqid c.lsqTail).foldl (forwardStep lsqid bytemask) (c, 0xff)) := by
  obtain ⟨walk, ends⟩ := walk_after hi tail
  have swept := swept_forwardStep lsqid bytemask
  refine while_walk_until (f := forwardStep lsqid bytemask)
    (fun st => bytemask &&& st.2 == 0) (fun st => st.1.lsqTail = c.lsqTail) walk rfl
    ?_ ?_ ?_ ?_ ?_
  · intro j hj st same more
    refine ⟨?_, rfl, fun _ => rfl⟩
    simp only [forwardTest, Bool.and_eq_true, bne_iff_ne, same]
    exact ⟨ends j hj, by simpa using more⟩
  · intro j st same
    rw [(swept st j).rest]
    exact same
  · intro j st covered
    simp only [beq_iff_eq] at covered
    simp [forwardTest, covered]
  · intro j st covered
    simp only [beq_iff_eq] at covered
    have none : (st.1.lsq j).bytemask &&& bytemask &&& st.2 = 0 := by
      rw [BitVec.and_assoc, covered]
      exact BitVec.and_zero
    simp [forwardStep, none]
  · intro st same
    simp [forwardTest, same]

/-- The freeing loop over a list. -/
theorem foldl_free {l : List Nat} (once : l.Nodup) (c : Cpu) :
    l.foldl (fun c i => (freeBody n (i, c)).2) c = { c with
      lsq := fun i => if i ∈ l then { c.lsq i with state := .empty } else c.lsq i
      lsqNum := c.lsqNum - l.length } := by
  induction l generalizing c with
  | nil => simp
  | cons j l ih =>
    obtain ⟨hj, hl⟩ := List.nodup_cons.mp once
    rw [List.foldl_cons, ih hl]
    have entries : (fun i => if i ∈ l then
          { (c.modLsq j fun l => { l with state := .empty }).lsq i with state := .empty }
        else (c.modLsq j fun l => { l with state := .empty }).lsq i) =
        fun i => if i ∈ j :: l then { c.lsq i with state := .empty } else c.lsq i := by
      funext i
      by_cases hi : i = j
      · subst hi
        simp [Cpu.modLsq, hj]
      · simp [Cpu.modLsq, hi]
    have num : c.lsqNum - 1 - l.length = c.lsqNum - (j :: l).length := by
      rw [List.length_cons]
      omega
    show ({ c with lsq := _, lsqNum := _ } : Cpu) = { c with lsq := _, lsqNum := _ }
    rw [← entries, ← num]
    rfl

/-- The loop that frees drained entries leaves `lsq_head1` behind the last of them. -/
theorem free_loop (head1 : c.lsqHead1 < cfg.lsqIfqSize) :
    ∃ i c', While freeTest (freeBody cfg.lsqIfqSize) (c.lsqHead1, c) (i, c') ∧
      freeDone cfg c = { c' with lsqHead1 := i } := by
  have size := cfg.lsq_pos
  have slots : ((List.range cfg.lsqIfqSize).map fun j => (c.lsqHead1 + j) % cfg.lsqIfqSize) =
      (List.range cfg.lsqIfqSize).map fun j => slot cfg.lsqIfqSize c.lsqHead1 (0 + j) := by
    refine List.map_congr_left fun j _ => ?_
    rw [Nat.zero_add, slot]
  have around := walk_up (h := c.lsqHead1) size 0 cfg.lsqIfqSize
  rw [slot_add_size, slot_zero head1, ← slots] at around
  obtain ⟨e, walk, last⟩ := around.takeWhile fun i => (c.lsq i).state == .delay1
  generalize hl : ((List.range cfg.lsqIfqSize).map fun j => (c.lsqHead1 + j) % cfg.lsqIfqSize).takeWhile
    (fun i => (c.lsq i).state == .delay1) = l at walk
  have delay1 : ∀ j ∈ l, (c.lsq j).state = .delay1 := by
    intro j hj
    rw [← hl] at hj
    simpa using List.mem_takeWhile_imp hj
  have short : l = (List.range l.length).map fun j => slot cfg.lsqIfqSize c.lsqHead1 (0 + j) := by
    have front : l <+: (List.range cfg.lsqIfqSize).map fun j => slot cfg.lsqIfqSize c.lsqHead1 (0 + j) := by
      rw [← slots, ← hl]
      exact List.takeWhile_prefix _
    have below := front.length_le
    rw [List.length_map, List.length_range] at below
    conv_lhs => rw [List.prefix_iff_eq_take.mp front, ← List.map_take, List.take_range,
      Nat.min_eq_left below]
  have below : l.length ≤ cfg.lsqIfqSize := by
    rw [← hl]
    refine (List.takeWhile_prefix _).length_le.trans ?_
    rw [List.length_map, List.length_range]
  have once : l.Nodup := by
    rw [short]
    refine List.Nodup.map_on (fun p hp q hq same => ?_) List.nodup_range
    have hp := List.mem_range.mp hp
    have hq := List.mem_range.mp hq
    rw [Nat.zero_add, Nat.zero_add] at same
    exact (slot_inj (by omega) (by omega)).mp same
  have index : e = slot cfg.lsqIfqSize c.lsqHead1 (0 + l.length) := by
    have up := walk_up (h := c.lsqHead1) size 0 l.length
    rw [← short, slot_zero head1] at up
    exact walk.unique up
  refine ⟨e, _, while_walk (freeBody cfg.lsqIfqSize)
    (f := fun c i => (freeBody cfg.lsqIfqSize (i, c)).2) walk (fun front j rest split => ⟨?_, rfl⟩) ?_, ?_⟩
  · rw [split] at once delay1
    obtain ⟨front_once, -, apart⟩ := List.nodup_append.mp once
    have fresh : j ∉ front := fun hj => apart j hj j List.mem_cons_self rfl
    rw [foldl_free front_once]
    simp [freeTest, fresh, delay1 j (by simp)]
  · rw [foldl_free once]
    by_cases he : e ∈ l
    · simp [freeTest, he]
    · obtain rfl | stop := last
      · -- Every entry is drained: the walk is back at the first one, which is free.
        cases hc : l with
        | nil =>
          rw [hc] at hl
          have first : (c.lsq c.lsqHead1).state ≠ .delay1 := by
            intro drained
            rw [slots, ← Nat.succ_pred_eq_of_pos size, List.range_succ_eq_map, List.map_cons,
              List.takeWhile_cons_of_pos] at hl
            · cases hl
            · rw [Nat.succ_pred_eq_of_pos size, slot_zero head1, drained]
              rfl
          simp [freeTest, first]
        | cons j rest =>
          rw [hc] at walk
          obtain ⟨rfl, -⟩ := walk
          exact absurd (hc ▸ List.mem_cons_self) he
      · simpa [freeTest, he] using stop
  · simp only [freeDone, hl]
    rw [foldl_free once, foldl_modLsq _ once, index, Nat.zero_add]
    rfl

/-- The loop that drains loads leaves `lsq_head` behind the last of them. -/
theorem drain_loop (i : Nat) (c : Cpu) :
    ∃ i' j' c', While drainTest (drainBody cfg.lsqIfqSize) (i, (0, c)) (i', (j', c')) ∧
      drainLoads cfg 3 i c = { c' with lsqHead := i' } := by
  have run : ∀ m j i c, m + j = 3 → ∃ i' j' c',
      While drainTest (drainBody cfg.lsqIfqSize) (i, (j, c)) (i', (j', c')) ∧
        drainLoads cfg m i c = { c' with lsqHead := i' } := by
    intro m
    induction m with
    | zero =>
      intro j i c hj
      refine ⟨i, j, c, .stop ?_, rfl⟩
      simp [drainTest]
      omega
    | succ m ih =>
      intro j i c hj
      unfold drainLoads
      split
      · rename_i load
        obtain ⟨i', j', c', loop, value⟩ := ih (j + 1) (nextIndex cfg.lsqIfqSize i)
          (c.modLsq i fun l => { l with state := .delay1 }) (by omega)
        refine ⟨i', j', c', .turn ?_ loop, value⟩
        simp [drainTest, load.1, load.2]
        omega
      · rename_i load
        refine ⟨i, j, c, .stop ?_, rfl⟩
        simp only [not_and, Bool.not_eq_true] at load
        by_cases commit : (c.lsq i).state = .commit
        · simp [drainTest, load commit]
        · simp [drainTest, commit]
  exact run 3 0 i c rfl

end Godson
