import Godson.BackendSteps
import Godson.Ring

/-! Where the descriptors are: each of them is free, fetched, decoded, in the reorder queue,
or belongs to a committed memory operation that waits in the load/store queue. -/
namespace Godson

open Mips

/-- `LSQ_COMMIT` and `LSQ_DELAY1` -/
def LsqState.committed : LsqState → Bool
  | .commit | .delay1 => true
  | _ => false

/-- The places that a descriptor knows, and the operation that it holds. -/
structure Seat where
  op : Op
  trap : Bool
  roqid : Nat
  lsqid : Nat
  brqid : Nat

namespace Seat

def ctrl (d : Seat) : Bool := d.op.has .ctrl
def mem (d : Seat) : Bool := d.op.has .mem

end Seat

def Descript.seat (d : Descript) : Seat := ⟨d.op, d.trap, d.roqid, d.lsqid, d.brqid⟩

/-- The queues of the pipeline, without what the instructions wait for. -/
structure Place where
  fresh : Nat
  freeList : List Nat
  fetchData : List Nat
  decodeData : List Nat
  seat : Nat → Seat
  roq : Nat → Option Nat
  roqHead : Nat
  roqTail : Nat
  roqNum : Int
  brq : Nat → Option Nat
  lsq : Nat → Option Nat
  committed : Nat → Bool
  lsqHead1 : Nat
  lsqTail : Nat
  lsqNum : Int

/-- The descriptor in a slot of the load/store queue. -/
def LsqItem.slot (l : LsqItem) : Option Nat := if l.state = LsqState.empty then none else some l.rs

namespace Backend

def place (s : Backend) : Place where
  fresh := s.fresh
  freeList := s.freeList
  fetchData := s.fetchData
  decodeData := s.decodeData
  seat d := (s.desc d).seat
  roq := s.roq
  roqHead := s.roqHead
  roqTail := s.roqTail
  roqNum := s.roqNum
  brq := s.brq
  lsq i := (s.lsq i).slot
  committed i := (s.lsq i).state.committed
  lsqHead1 := s.lsqHead1
  lsqTail := s.lsqTail
  lsqNum := s.lsqNum

end Backend

/-- The instructions `roq` of the reorder queue and the committed memory operations `done`,
both from the oldest on, are where they belong. -/
structure Passage (cfg : BackendConfig) (p : Place) (roq done : List Nat) : Prop where
  ring : Ring.Holds cfg.roqIfqSize p.roq p.roqHead roq
  roqNum : p.roqNum = roq.length
  roqTail : p.roqTail = (p.roqHead + roq.length) % cfg.roqIfqSize
  roqid : ∀ i, ∀ hi : i < roq.length,
    (p.seat roq[i]).roqid = (p.roqHead + i) % cfg.roqIfqSize
  own : ∀ d, p.freeList.count d + p.fetchData.count d + p.decodeData.count d + roq.count d +
    done.count d ≤ if d < p.fresh then 1 else 0
  memory : Ring.Holds cfg.lsqIfqSize p.lsq p.lsqHead1
    (done ++ roq.filter fun d => (p.seat d).mem)
  lsqNum : p.lsqNum = done.length + (roq.filter fun d => (p.seat d).mem).length
  lsqTail : p.lsqTail = (p.lsqHead1 + (done.length +
    (roq.filter fun d => (p.seat d).mem).length)) % cfg.lsqIfqSize
  lsqid : ∀ d ∈ roq, (p.seat d).mem → (p.seat d).lsqid < cfg.lsqIfqSize ∧
    p.lsq (p.seat d).lsqid = some d
  slots : ∀ i d, p.lsq i = some d → i < cfg.lsqIfqSize
  committed : ∀ i d, p.lsq i = some d → (p.committed i ↔ d ∈ done)
  branch : ∀ i d, p.brq i = some d → d ∈ roq ∧ (p.seat d).ctrl ∧ (p.seat d).brqid = i
  nop : ∀ d, (p.seat d).trap → (p.seat d).op = mdSetOpcode nopInst

namespace Passage

variable {cfg : BackendConfig} {p : Place} {roq done : List Nat} {d : Nat}

theorem once (h : Passage cfg p roq done) (d : Nat) :
    p.freeList.count d + p.fetchData.count d + p.decodeData.count d + roq.count d +
      done.count d ≤ 1 := by
  have own := h.own d
  split_ifs at own <;> omega

theorem nodup (h : Passage cfg p roq done) : roq.Nodup := by
  refine List.nodup_iff_count_le_one.mpr fun d => ?_
  have own := h.once d
  omega

theorem memory_nodup (h : Passage cfg p roq done) :
    (done ++ roq.filter fun d => (p.seat d).mem).Nodup := by
  refine List.nodup_iff_count_le_one.mpr fun d => ?_
  have own := h.once d
  have part := (List.filter_sublist (l := roq) (p := fun d => (p.seat d).mem)).count_le d
  rw [List.count_append]
  omega

/-- A descriptor is at one place at most. -/
theorem apart (h : Passage cfg p roq done) (here : d ∈ roq) :
    d ∉ p.freeList ∧ d ∉ p.fetchData ∧ d ∉ p.decodeData ∧ d ∉ done := by
  have own := h.once d
  have pos := List.count_pos_iff.mpr here
  refine ⟨?_, ?_, ?_, ?_⟩ <;> rw [← List.count_eq_zero] <;> omega

theorem trap_mem (h : Passage cfg p roq done) (trap : (p.seat d).trap) : (p.seat d).mem = false := by
  rw [Seat.mem, h.nop d trap]
  rfl

theorem trap_ctrl (h : Passage cfg p roq done) (trap : (p.seat d).trap) :
    (p.seat d).ctrl = false := by
  rw [Seat.ctrl, h.nop d trap]
  rfl

theorem count_giveBack (l : List Nat) (d e : Nat) :
    (Backend.giveBack l d).count e ≤ l.count e + if d = e then 1 else 0 := by
  rw [Backend.giveBack]
  split
  · simp
  · rw [List.count_append, List.count_singleton]
    simp

theorem count_giveBacks (l q : List Nat) (e : Nat) :
    (q.foldl Backend.giveBack l).count e ≤ l.count e + q.count e := by
  induction q generalizing l with
  | nil => simp
  | cons d q ih =>
    have more := ih (Backend.giveBack l d)
    have once := count_giveBack l d e
    rw [List.foldl_cons, List.count_cons]
    simp only [beq_iff_eq]
    omega

/-- A memory operation has one slot of the load/store queue. -/
theorem slot_unique (h : Passage cfg p roq done) {i j : Nat} (first : p.lsq i = some d)
    (second : p.lsq j = some d) : i = j := by
  obtain ⟨k, hk, rfl, held⟩ := h.memory.distance (h.slots i d first) first
  obtain ⟨l, hl, rfl, held'⟩ := h.memory.distance (h.slots j d second) second
  rw [(List.Nodup.getElem_inj_iff h.memory_nodup).mp (held.trans held'.symm)]

/-- Descriptors move between the free list and the queues in front of the reorder queue. -/
theorem exchange (h : Passage cfg p roq done) (free fetch decode : List Nat) (fresh : Nat)
    (less : ∀ e, free.count e + fetch.count e + decode.count e +
      (if e < p.fresh then 1 else 0) ≤ p.freeList.count e + p.fetchData.count e +
        p.decodeData.count e + if e < fresh then 1 else 0) :
    Passage cfg { p with freeList := free, fetchData := fetch, decodeData := decode, fresh := fresh }
      roq done := by
  refine { h with own := fun e => ?_ }
  have own := h.own e
  have moved := less e
  simp only
  omega

/-- The fetched and decoded instructions are dropped. -/
theorem drop (h : Passage cfg p roq done) :
    Passage cfg { p with
      fetchData := []
      decodeData := []
      freeList := (p.fetchData ++ p.decodeData.reverse).foldl Backend.giveBack p.freeList }
      roq done := by
  refine h.exchange _ _ _ _ fun e => ?_
  have back := count_giveBacks p.freeList (p.fetchData ++ p.decodeData.reverse) e
  rw [List.count_append, List.count_reverse] at back
  simp only [List.count_nil]
  omega

/-- A descriptor in front of the reorder queue gets another operation. -/
theorem reseat (h : Passage cfg p roq done) (seat : Seat) (outside : d ∉ roq)
    (nop : seat.trap → seat.op = mdSetOpcode nopInst) :
    Passage cfg { p with seat := Function.update p.seat d seat } roq done := by
  have other {e : Nat} (he : e ∈ roq) : Function.update p.seat d seat e = p.seat e := by
    refine Function.update_of_ne ?_ ..
    rintro rfl
    exact outside he
  have same : roq.filter (fun e => (Function.update p.seat d seat e).mem) =
      roq.filter fun e => (p.seat e).mem := List.filter_congr fun e he => by rw [other he]
  constructor
  case ring => exact h.ring
  case roqNum => exact h.roqNum
  case roqTail => exact h.roqTail
  case roqid => exact fun i hi => by simpa only [other (List.getElem_mem hi)] using h.roqid i hi
  case own => exact h.own
  case memory => simpa only [same] using h.memory
  case lsqNum => simpa only [same] using h.lsqNum
  case lsqTail => simpa only [same] using h.lsqTail
  case lsqid => exact fun e he => by simpa only [other he] using h.lsqid e he
  case slots => exact h.slots
  case committed => exact h.committed
  case branch =>
    intro i e slot
    obtain ⟨here, kind, id⟩ := h.branch i e slot
    simp only [other here]
    exact ⟨here, kind, id⟩
  case nop =>
    intro e holds
    by_cases here : e = d
    · subst here
      simp only [Function.update_self] at holds ⊢
      exact nop holds
    · simp only [Function.update_of_ne here] at holds ⊢
      exact h.nop e holds

section Retire

/-- The oldest instruction leaves the reorder queue. A memory operation waits in the
load/store queue. -/
theorem retire (h : Passage cfg p (d :: roq) done) :
    Passage cfg { p with
      roq := Function.update p.roq p.roqHead none
      roqHead := (p.roqHead + 1) % cfg.roqIfqSize
      roqNum := p.roqNum - 1
      brq := if (p.seat d).ctrl then Function.update p.brq (p.seat d).brqid none else p.brq
      committed := if (p.seat d).mem then Function.update p.committed (p.seat d).lsqid true
        else p.committed
      freeList := if (p.seat d).mem then p.freeList else Backend.giveBack p.freeList d }
      roq (if (p.seat d).mem then done ++ [d] else done) := by
  have apart := h.apart List.mem_cons_self
  have later : d ∉ roq := (List.nodup_cons.mp h.nodup).1
  have same : (if (p.seat d).mem then done ++ [d] else done) ++
      roq.filter (fun d => (p.seat d).mem) = done ++ (d :: roq).filter fun d => (p.seat d).mem := by
    cases mem : (p.seat d).mem <;> simp [mem]
  constructor
  case ring => exact h.ring.pop
  case roqNum =>
    have num := h.roqNum
    simp only [List.length_cons] at num ⊢
    omega
  case roqTail =>
    have tail := h.roqTail
    simp only [List.length_cons] at tail ⊢
    rw [tail, Nat.mod_add_mod]
    congr 1
    omega
  case roqid =>
    intro i hi
    have id := h.roqid (i + 1) (by simpa using hi)
    simp only [List.getElem_cons_succ] at id ⊢
    rw [id, Nat.mod_add_mod]
    congr 1
    omega
  case own =>
    intro e
    have own := h.own e
    have back := count_giveBack p.freeList d e
    rw [List.count_cons] at own
    simp only [beq_iff_eq] at own
    cases mem : (p.seat d).mem <;> simp only [Bool.false_eq_true, if_false, if_true,
      List.count_append, List.count_singleton, beq_iff_eq] <;> omega
  case memory =>
    rw [same]
    exact h.memory
  case lsqNum =>
    have num := h.lsqNum
    cases mem : (p.seat d).mem <;> simp [mem] at num ⊢ <;> omega
  case lsqTail =>
    have tail := h.lsqTail
    cases mem : (p.seat d).mem with
    | false => simpa [mem] using tail
    | true =>
      simp only [mem, List.filter_cons_of_pos, List.length_cons, List.length_append,
        List.length_nil, if_true] at tail ⊢
      rw [tail]
      congr 1
      omega
  case lsqid => exact fun e he => h.lsqid e (List.mem_cons_of_mem _ he)
  case slots => exact h.slots
  case committed =>
    intro i e slot
    have before := h.committed i e slot
    cases mem : (p.seat d).mem with
    | false => simpa using before
    | true =>
      obtain ⟨valid, held⟩ := h.lsqid d List.mem_cons_self mem
      by_cases here : i = (p.seat d).lsqid
      · obtain rfl : e = d := Option.some.inj (slot.symm.trans (here ▸ held))
        simp [here]
      · have other : e ≠ d := by
          rintro rfl
          exact here (h.slot_unique slot held)
        simpa [Function.update_of_ne here, other] using before
  case branch =>
    intro i e slot
    cases ctrl : (p.seat d).ctrl with
    | false =>
      simp only [ctrl, Bool.false_eq_true, if_false] at slot
      obtain ⟨here, kind, id⟩ := h.branch i e slot
      rcases List.mem_cons.mp here with rfl | here
      · exact absurd kind (by simp [ctrl])
      · exact ⟨here, kind, id⟩
    | true =>
      simp only [ctrl, if_true] at slot
      have other : i ≠ (p.seat d).brqid := by
        rintro rfl
        rw [Function.update_self] at slot
        cases slot
      rw [Function.update_of_ne other] at slot
      obtain ⟨here, kind, id⟩ := h.branch i e slot
      rcases List.mem_cons.mp here with rfl | here
      · exact absurd id.symm other
      · exact ⟨here, kind, id⟩
  case nop => exact h.nop

end Retire

section Squash

/-- One slot back from behind the last element. -/
theorem slot_back {size : Nat} (positive : 0 < size) (a : Nat) :
    ((a + 1) % size + size - 1) % size = a % size := by
  rw [Nat.add_sub_assoc positive, Nat.mod_add_mod, Nat.add_assoc, Nat.add_sub_cancel' positive,
    Nat.add_mod_right]

theorem roq_positive (h : Passage cfg p (roq ++ [d]) done) : 0 < cfg.roqIfqSize := by
  have room := h.ring.length_le
  simp only [List.length_append, List.length_singleton] at room
  omega

theorem roq_back (h : Passage cfg p (roq ++ [d]) done) :
    (p.roqTail + cfg.roqIfqSize - 1) % cfg.roqIfqSize =
      (p.roqHead + roq.length) % cfg.roqIfqSize := by
  rw [h.roqTail, List.length_append, List.length_singleton, ← Nat.add_assoc,
    slot_back h.roq_positive]

/-- The last instruction is in the slot in front of the tail. -/
theorem last (h : Passage cfg p (roq ++ [d]) done) :
    p.roq ((p.roqTail + cfg.roqIfqSize - 1) % cfg.roqIfqSize) = some d := by
  rw [h.roq_back, h.ring.at_distance (by simp)]
  simp

/-- The youngest memory operation is in the last slot of the load/store queue. -/
theorem lsqid_last (h : Passage cfg p (roq ++ [d]) done) (mem : (p.seat d).mem) :
    (p.seat d).lsqid = (p.lsqHead1 +
      (done ++ roq.filter fun d => (p.seat d).mem).length) % cfg.lsqIfqSize := by
  obtain ⟨valid, held⟩ := h.lsqid d (by simp) mem
  have memory := h.memory
  rw [List.filter_append, List.filter_singleton, mem, cond_true, ← List.append_assoc] at memory
  refine h.slot_unique held ?_
  rw [memory.at_distance (by simp)]
  simp

/-- The youngest instruction is squashed. -/
theorem squash (h : Passage cfg p (roq ++ [d]) done) :
    Passage cfg { p with
      roq := Function.update p.roq ((p.roqTail + cfg.roqIfqSize - 1) % cfg.roqIfqSize) none
      roqTail := (p.roqTail + cfg.roqIfqSize - 1) % cfg.roqIfqSize
      roqNum := p.roqNum - 1
      brq := if (p.seat d).ctrl then Function.update p.brq (p.seat d).brqid none else p.brq
      lsq := if (p.seat d).mem then Function.update p.lsq (p.seat d).lsqid none else p.lsq
      committed := if (p.seat d).mem then Function.update p.committed (p.seat d).lsqid false
        else p.committed
      lsqNum := if (p.seat d).mem then p.lsqNum - 1 else p.lsqNum
      lsqTail := if (p.seat d).mem then (p.seat d).lsqid else p.lsqTail
      freeList := Backend.giveBack p.freeList d } roq done := by
  have here : d ∈ roq ++ [d] := by simp
  have earlier : d ∉ roq := fun before =>
    (List.nodup_append.mp h.nodup).2.2 d before d (List.mem_singleton_self d) rfl
  have split : (roq ++ [d]).filter (fun d => (p.seat d).mem) =
      roq.filter (fun d => (p.seat d).mem) ++ if (p.seat d).mem then [d] else [] := by
    rw [List.filter_append, List.filter_singleton, Bool.cond_eq_ite]
  constructor
  case ring =>
    rw [h.roq_back]
    exact h.ring.unput
  case roqNum =>
    have num := h.roqNum
    simp only [List.length_append, List.length_singleton] at num ⊢
    omega
  case roqTail => exact h.roq_back
  case roqid =>
    intro i hi
    have id := h.roqid i (by simp; omega)
    rwa [List.getElem_append_left hi] at id
  case own =>
    intro e
    have own := h.own e
    have back := count_giveBack p.freeList d e
    rw [List.count_append, List.count_singleton] at own
    simp only [beq_iff_eq] at own ⊢
    omega
  case memory =>
    have memory := h.memory
    rw [split] at memory
    cases mem : (p.seat d).mem with
    | false => simpa [mem] using memory
    | true =>
      rw [mem, if_pos rfl, ← List.append_assoc] at memory
      rw [if_pos rfl, h.lsqid_last mem]
      exact memory.unput
  case lsqNum =>
    have num := h.lsqNum
    rw [split] at num
    cases mem : (p.seat d).mem <;> simp [mem] at num ⊢ <;> omega
  case lsqTail =>
    have tail := h.lsqTail
    rw [split] at tail
    cases mem : (p.seat d).mem with
    | false => simpa [mem] using tail
    | true =>
      simp only [if_true]
      rw [h.lsqid_last mem, List.length_append]
  case lsqid =>
    intro e he mem
    obtain ⟨valid, held⟩ := h.lsqid e (List.mem_append_left _ he) mem
    refine ⟨valid, ?_⟩
    cases memory : (p.seat d).mem with
    | false => exact held
    | true =>
      simp only [if_true]
      rwa [Function.update_of_ne]
      intro same
      rw [same, (h.lsqid d here memory).2] at held
      exact earlier (Option.some.inj held ▸ he)
  case slots =>
    intro i e slot
    cases mem : (p.seat d).mem with
    | false =>
      simp only [mem, Bool.false_eq_true, if_false] at slot
      exact h.slots i e slot
    | true =>
      simp only [mem, if_true] at slot
      have other : i ≠ (p.seat d).lsqid := by
        rintro rfl
        rw [Function.update_self] at slot
        cases slot
      rw [Function.update_of_ne other] at slot
      exact h.slots i e slot
  case committed =>
    intro i e slot
    cases mem : (p.seat d).mem with
    | false =>
      simp only [mem, Bool.false_eq_true, if_false] at slot
      simpa using h.committed i e slot
    | true =>
      simp only [mem, if_true] at slot
      have other : i ≠ (p.seat d).lsqid := by
        rintro rfl
        rw [Function.update_self] at slot
        cases slot
      rw [Function.update_of_ne other] at slot
      simpa [Function.update_of_ne other] using h.committed i e slot
  case branch =>
    intro i e slot
    have kept {q : Nat → Option Nat} (same : q i = p.brq i) (slot : q i = some e)
        (other : e ≠ d) : e ∈ roq ∧ (p.seat e).ctrl ∧ (p.seat e).brqid = i := by
      obtain ⟨held, kind, id⟩ := h.branch i e (same ▸ slot)
      rcases List.mem_append.mp held with held | held
      · exact ⟨held, kind, id⟩
      · exact absurd (List.mem_singleton.mp held) other
    cases ctrl : (p.seat d).ctrl with
    | false =>
      simp only [ctrl, Bool.false_eq_true, if_false] at slot
      refine kept rfl slot ?_
      rintro rfl
      exact absurd (h.branch i e slot).2.1 (by simp [ctrl])
    | true =>
      simp only [ctrl, if_true] at slot
      have other : i ≠ (p.seat d).brqid := by
        rintro rfl
        rw [Function.update_self] at slot
        cases slot
      refine kept (Function.update_of_ne other ..) slot ?_
      rintro rfl
      rw [Function.update_of_ne other] at slot
      exact other (h.branch i e slot).2.2.symm
  case nop => exact h.nop

/-- An empty reorder queue starts again at the first slot. -/
theorem reset (h : Passage cfg p [] done) : Passage cfg { p with roqHead := 0, roqTail := 0 } [] done :=
  { h with
    ring := h.ring.reset
    roqTail := (Nat.zero_mod _).symm
    roqid := fun _ hi => absurd hi (Nat.not_lt_zero _) }

end Squash

section Memory

/-- The oldest committed operation leaves the load/store queue. -/
theorem free (h : Passage cfg p roq (d :: done)) :
    Passage cfg { p with
      lsq := Function.update p.lsq p.lsqHead1 none
      committed := Function.update p.committed p.lsqHead1 false
      lsqHead1 := (p.lsqHead1 + 1) % cfg.lsqIfqSize
      lsqNum := p.lsqNum - 1
      freeList := Backend.giveBack p.freeList d } roq done := by
  have memory : Ring.Holds cfg.lsqIfqSize p.lsq p.lsqHead1
    (d :: (done ++ roq.filter fun d => (p.seat d).mem)) := h.memory
  have valid := memory.head_valid
  have first : p.lsq p.lsqHead1 = some d := memory.slot_head (by simp)
  have other {i e : Nat} (hi : i < cfg.lsqIfqSize) (slot : p.lsq i = some e) (ne : e ≠ d) :
      i ≠ p.lsqHead1 := by
    rintro rfl
    exact ne (Option.some.inj (slot.symm.trans first))
  constructor
  case ring => exact h.ring
  case roqNum => exact h.roqNum
  case roqTail => exact h.roqTail
  case roqid => exact h.roqid
  case own =>
    intro e
    have own := h.own e
    have back := count_giveBack p.freeList d e
    rw [List.count_cons] at own
    simp only [beq_iff_eq] at own ⊢
    omega
  case memory => exact memory.pop
  case lsqNum =>
    have num := h.lsqNum
    simp only [List.length_cons] at num ⊢
    omega
  case lsqTail =>
    have tail := h.lsqTail
    simp only [List.length_cons] at tail ⊢
    rw [tail, Nat.mod_add_mod]
    congr 1
    omega
  case lsqid =>
    intro e he mem
    obtain ⟨fits, held⟩ := h.lsqid e he mem
    have ne : e ≠ d := by
      rintro rfl
      exact (h.apart he).2.2.2 List.mem_cons_self
    exact ⟨fits, (Function.update_of_ne (other fits held ne) ..).trans held⟩
  case slots =>
    intro i e slot
    change Function.update p.lsq p.lsqHead1 none i = some e at slot
    have ne : i ≠ p.lsqHead1 := by
      rintro rfl
      rw [Function.update_self] at slot
      cases slot
    rw [Function.update_of_ne ne] at slot
    exact h.slots i e slot
  case committed =>
    intro i e slot
    change Function.update p.lsq p.lsqHead1 none i = some e at slot
    change Function.update p.committed p.lsqHead1 false i = true ↔ e ∈ done
    have ne : i ≠ p.lsqHead1 := by
      rintro rfl
      rw [Function.update_self] at slot
      cases slot
    rw [Function.update_of_ne ne] at slot ⊢
    have before := h.committed i e slot
    have away : e ≠ d := by
      rintro rfl
      exact ne (h.slot_unique slot first)
    simpa [away] using before
  case branch => exact h.branch
  case nop => exact h.nop

end Memory

section Enter

/-- The slot at the tail of the load/store queue is free. -/
theorem vacant (h : Passage cfg p roq done) (space : p.lsqNum < cfg.lsqIfqSize) :
    p.lsq p.lsqTail = none := by
  have num := h.lsqNum
  have free : (done ++ roq.filter fun d => (p.seat d).mem).length < cfg.lsqIfqSize := by
    rw [List.length_append]
    omega
  rw [h.lsqTail, ← List.length_append, h.memory.slot _ free]
  simp

/-- A descriptor goes from the decode queue to the end of the reorder queue, and a memory
operation to the end of the load/store queue. -/
theorem map {rest : List Nat} (h : Passage cfg p roq done) (seat : Seat)
    (queue : p.decodeData = d :: rest) (room : p.roqNum < cfg.roqIfqSize)
    (space : p.lsqNum < cfg.lsqIfqSize) (op : seat.op = (p.seat d).op)
    (trap : seat.trap = (p.seat d).trap) (roqid : seat.roqid = p.roqTail)
    (lsqid : (p.seat d).mem → seat.lsqid = p.lsqTail) :
    Passage cfg { p with
      decodeData := rest
      seat := Function.update p.seat d seat
      roq := Function.update p.roq p.roqTail (some d)
      roqTail := (p.roqTail + 1) % cfg.roqIfqSize
      roqNum := p.roqNum + 1
      brq := if (p.seat d).ctrl then Function.update p.brq seat.brqid (some d) else p.brq
      lsq := if (p.seat d).mem then Function.update p.lsq p.lsqTail (some d) else p.lsq
      committed := if (p.seat d).mem then Function.update p.committed p.lsqTail false
        else p.committed
      lsqNum := if (p.seat d).mem then p.lsqNum + 1 else p.lsqNum
      lsqTail := if (p.seat d).mem then (p.lsqTail + 1) % cfg.lsqIfqSize else p.lsqTail }
      (roq ++ [d]) done := by
  have num := h.roqNum
  have lnum := h.lsqNum
  have once := h.once d
  rw [queue, List.count_cons_self] at once
  have outside : d ∉ roq := List.count_eq_zero.mp (by omega)
  have undone : d ∉ done := List.count_eq_zero.mp (by omega)
  have mem : seat.mem = (p.seat d).mem := by rw [Seat.mem, op, Seat.mem]
  have ctrl : seat.ctrl = (p.seat d).ctrl := by rw [Seat.ctrl, op, Seat.ctrl]
  have other {e : Nat} (he : e ∈ roq) : Function.update p.seat d seat e = p.seat e := by
    refine Function.update_of_ne ?_ ..
    rintro rfl
    exact outside he
  have split : (roq ++ [d]).filter (fun e => (Function.update p.seat d seat e).mem) =
      roq.filter (fun e => (p.seat e).mem) ++ if (p.seat d).mem then [d] else [] := by
    rw [List.filter_append, List.filter_singleton, Bool.cond_eq_ite, Function.update_self, mem,
      List.filter_congr fun e he => by rw [other he]]
  have tail : p.lsqTail = (p.lsqHead1 +
      (done ++ roq.filter fun d => (p.seat d).mem).length) % cfg.lsqIfqSize := by
    rw [h.lsqTail, List.length_append]
  have free : (done ++ roq.filter fun d => (p.seat d).mem).length < cfg.lsqIfqSize := by
    rw [List.length_append]
    omega
  have vacant := h.vacant space
  constructor
  case ring =>
    rw [h.roqTail]
    exact h.ring.put (by omega) d
  case roqNum =>
    simp only [List.length_append, List.length_singleton]
    omega
  case roqTail =>
    simp only [List.length_append, List.length_singleton, h.roqTail, Nat.mod_add_mod,
      Nat.add_assoc]
  case roqid =>
    intro i hi
    rw [List.length_append, List.length_singleton] at hi
    by_cases last : i = roq.length
    · subst last
      simp [roqid, h.roqTail]
    · have before : i < roq.length := by omega
      simp only [List.getElem_append_left before, other (List.getElem_mem before)]
      exact h.roqid i before
  case own =>
    intro e
    have own := h.own e
    rw [queue, List.count_cons] at own
    simp only [List.count_append, List.count_singleton]
    omega
  case memory =>
    simp only [split]
    cases memory : (p.seat d).mem with
    | false => simpa using h.memory
    | true =>
      simp only [if_true, ← List.append_assoc]
      rw [tail]
      exact h.memory.put free d
  case lsqNum =>
    simp only [split]
    cases memory : (p.seat d).mem <;> simp <;> omega
  case lsqTail =>
    simp only [split]
    cases memory : (p.seat d).mem with
    | false => simpa using h.lsqTail
    | true =>
      simp only [if_true, List.length_append, List.length_singleton, h.lsqTail, Nat.mod_add_mod,
        Nat.add_assoc]
  case lsqid =>
    intro e he memory
    rcases List.mem_append.mp he with he | he
    · simp only [other he] at memory ⊢
      obtain ⟨valid, held⟩ := h.lsqid e he memory
      refine ⟨valid, ?_⟩
      split
      · rwa [Function.update_of_ne]
        intro same
        rw [same, vacant] at held
        cases held
      · exact held
    · obtain rfl := List.mem_singleton.mp he
      simp only [Function.update_self, mem] at memory ⊢
      rw [lsqid memory, if_pos memory, tail]
      exact ⟨Nat.mod_lt _ (by omega), Function.update_self ..⟩
  case slots =>
    intro i e slot
    cases memory : (p.seat d).mem with
    | false =>
      simp only [memory, Bool.false_eq_true, if_false] at slot
      exact h.slots i e slot
    | true =>
      simp only [memory, if_true] at slot
      by_cases here : i = p.lsqTail
      · rw [here, tail]
        exact Nat.mod_lt _ (by omega)
      · rw [Function.update_of_ne here] at slot
        exact h.slots i e slot
  case committed =>
    intro i e slot
    cases memory : (p.seat d).mem with
    | false =>
      simp only [memory, Bool.false_eq_true, if_false] at slot ⊢
      exact h.committed i e slot
    | true =>
      simp only [memory, if_true] at slot ⊢
      by_cases here : i = p.lsqTail
      · subst here
        rw [Function.update_self] at slot ⊢
        cases slot
        simpa using undone
      · rw [Function.update_of_ne here] at slot ⊢
        exact h.committed i e slot
  case branch =>
    intro i e slot
    have old (slot : p.brq i = some e) : e ∈ roq ++ [d] ∧
        (Function.update p.seat d seat e).ctrl ∧ (Function.update p.seat d seat e).brqid = i := by
      obtain ⟨here, kind, id⟩ := h.branch i e slot
      rw [other here]
      exact ⟨List.mem_append_left _ here, kind, id⟩
    cases kind : (p.seat d).ctrl with
    | false =>
      simp only [kind, Bool.false_eq_true, if_false] at slot
      exact old slot
    | true =>
      simp only [kind, if_true] at slot
      by_cases here : i = seat.brqid
      · subst here
        rw [Function.update_self] at slot
        cases slot
        simp only [Function.update_self]
        exact ⟨by simp, ctrl.trans kind, trivial⟩
      · rw [Function.update_of_ne here] at slot
        exact old slot
  case nop =>
    intro e holds
    by_cases here : e = d
    · subst here
      simp only [Function.update_self, op, trap] at holds ⊢
      exact h.nop e holds
    · simp only [Function.update_of_ne here] at holds ⊢
      exact h.nop e holds

end Enter

end Passage

namespace Backend

variable {cfg : BackendConfig} {s t : Backend} {roq done : List Nat} {d : Nat}

section Frames

@[simp] theorem seat_mem (d : Descript) : d.seat.mem = d.mem := rfl

@[simp] theorem seat_ctrl (d : Descript) : d.seat.ctrl = d.ctrl := rfl

theorem slot_update (f : Nat → LsqItem) (i : Nat) (l : LsqItem) :
    (fun j => (Function.update f i l j).slot) =
      Function.update (fun j => (f j).slot) i l.slot := by
  funext j
  by_cases same : j = i <;> simp [same]

theorem committed_update (f : Nat → LsqItem) (i : Nat) (l : LsqItem) :
    (fun j => (Function.update f i l j).state.committed) =
      Function.update (fun j => (f j).state.committed) i l.state.committed := by
  funext j
  by_cases same : j = i <;> simp [same]

theorem seat_update (f : Nat → Descript) (i : Nat) (d : Descript) :
    (fun j => (Function.update f i d j).seat) =
      Function.update (fun j => (f j).seat) i d.seat := by
  funext j
  by_cases same : j = i <;> simp [same]

/-- A change that leaves a descriptor its seat. -/
theorem seat_kept {f : Nat → Descript} {i : Nat} {d : Descript} (same : d.seat = (f i).seat) :
    (fun j => (Function.update f i d j).seat) = fun j => (f j).seat := by
  rw [seat_update, same]
  exact Function.update_eq_self ..

theorem slot_kept {f : Nat → LsqItem} {i : Nat} {l : LsqItem} (rs : l.rs = (f i).rs)
    (empty : l.state = LsqState.empty ↔ (f i).state = LsqState.empty) :
    (fun j => (Function.update f i l j).slot) = fun j => (f j).slot := by
  have same : l.slot = (f i).slot := by simp only [LsqItem.slot, empty, rs]
  rw [slot_update, same]
  exact Function.update_eq_self ..

theorem committed_kept {f : Nat → LsqItem} {i : Nat} {l : LsqItem}
    (same : l.state.committed = (f i).state.committed) :
    (fun j => (Function.update f i l j).state.committed) = fun j => (f j).state.committed := by
  rw [committed_update, same]
  exact Function.update_eq_self ..

/-- What the operations outside the load/store queue leave alone when they move nothing. -/
def layout (s : Backend) :
    Place × (Nat → LsqItem) × Option Nat × Option Nat × Option Nat :=
  (s.place, s.lsq, s.lsqIssuei, s.lsqDcachei, s.lsqDtagcmpi)

theorem layout_eq : t.layout = s.layout ↔ t.place = s.place ∧ t.lsq = s.lsq ∧
    t.lsqIssuei = s.lsqIssuei ∧ t.lsqDcachei = s.lsqDcachei ∧ t.lsqDtagcmpi = s.lsqDtagcmpi := by
  simp only [layout, Prod.mk.injEq]

theorem layout_modDesc {rs : Nat} (f : Descript → Descript)
    (same : (f (s.desc rs)).seat = (s.desc rs).seat) : (s.modDesc rs f).layout = s.layout := by
  have seats : (fun j => (Function.update s.desc rs (f (s.desc rs)) j).seat) =
      fun j => (s.desc j).seat := seat_kept same
  simp only [layout, place, modDesc, seats]

theorem Ports.congr (ports : s.Ports) (lsq : t.lsq = s.lsq) (issue : t.lsqIssuei = s.lsqIssuei)
    (dcache : t.lsqDcachei = s.lsqDcachei) (dtagcmp : t.lsqDtagcmpi = s.lsqDtagcmpi) :
    t.Ports := by
  refine ⟨fun i hi => ?_, fun i hi => ?_, fun i hi => ?_⟩ <;> rw [lsq]
  · exact ports.issue i (issue ▸ hi)
  · exact ports.dcache i (dcache ▸ hi)
  · exact ports.dtagcmp i (dtagcmp ▸ hi)

theorem ports_layout (ports : s.Ports) (same : t.layout = s.layout) : t.Ports := by
  obtain ⟨-, lsq, issue, dcache, dtagcmp⟩ := layout_eq.mp same
  exact ports.congr lsq issue dcache dtagcmp

end Frames

section Squash

theorem flow_squashLast (h : Passage cfg s.place (roq ++ [d]) done) (e : s.squashLast cfg = some t) :
    Passage cfg t.place roq done := by
  obtain ⟨-, rfl⟩ := squashLast_some h.last e
  have seat : (fun j => (Function.update s.desc d (squashed (s.desc d)) j).seat) =
      fun j => (s.desc j).seat := seat_kept rfl
  have next := h.squash
  simp only [place, seat, seat_mem, seat_ctrl] at next ⊢
  cases mem : (s.desc d).mem with
  | false =>
    simp only [mem, Bool.false_eq_true, if_false] at next ⊢
    exact next
  | true =>
    simp only [mem, if_true, slot_update, committed_update] at next ⊢
    exact next

/-- What the squash of the youngest instruction keeps, the squash of several keeps. -/
theorem squashAll_invariant {P : List Nat → Backend → Prop}
    (step : ∀ roq d s t, P (roq ++ [d]) s → s.squashLast cfg = some t → P roq t)
    {gone : List Nat} (h : P (roq ++ gone) s) (e : s.squashAll cfg gone.length = some t) :
    P roq t := by
  induction gone using List.reverseRecOn generalizing s with
  | nil =>
    cases e
    rwa [List.append_nil] at h
  | append_singleton gone d ih =>
    rw [List.length_append, List.length_singleton, squashAll] at e
    obtain ⟨u, first, e⟩ := Option.bind_eq_some_iff.mp e
    rw [← List.append_assoc] at h
    exact ih (step _ d s u h first) e

theorem flow_squashAll {gone : List Nat} (h : Passage cfg s.place (roq ++ gone) done)
    (e : s.squashAll cfg gone.length = some t) : Passage cfg t.place roq done :=
  squashAll_invariant (P := fun roq s => Passage cfg s.place roq done)
    (fun _ _ _ _ h e => flow_squashLast h e) h e

theorem roqHead_squashLast (h : Passage cfg s.place (roq ++ [d]) done)
    (e : s.squashLast cfg = some t) : t.roqHead = s.roqHead := by
  obtain ⟨-, rfl⟩ := squashLast_some h.last e
  rfl

/-- The loop of `brerr_recover` squashes all behind the entry that it stops at. -/
theorem squashTo_squashAll {j n : Nat} (h : Passage cfg s.place roq done) (hj : j < roq.length)
    (e : s.squashTo cfg ((s.roqHead + j) % cfg.roqIfqSize) n = some t) :
    s.squashAll cfg (roq.length - (j + 1)) = some t := by
  induction n generalizing s roq with
  | zero => cases e
  | succ n ih =>
    obtain ⟨older, d, rfl⟩ := (List.eq_nil_or_concat' roq).resolve_left
      (List.ne_nil_of_length_pos (Nat.zero_lt_of_lt hj))
    have room := h.ring.length_le
    rw [List.length_append, List.length_singleton] at hj room ⊢
    simp only [squashTo] at e
    rw [show (s.roqTail + cfg.roqIfqSize - 1) % cfg.roqIfqSize = _ from h.roq_back] at e
    split at e
    · rename_i stop
      cases e
      have same := Ring.index_injective (by omega) (by omega) stop
      rw [same, Nat.sub_self]
      rfl
    · rename_i goes
      split at e
      · cases e
      · obtain ⟨u, first, e⟩ := Option.bind_eq_some_iff.mp e
        have earlier : j < older.length := by
          rcases Nat.lt_or_eq_of_le (Nat.le_of_lt_succ hj) with before | same
          · exact before
          · exact absurd (by rw [same]; rfl) goes
        have next := flow_squashLast h first
        rw [← roqHead_squashLast h first] at e
        have rest := ih next earlier e
        rw [show older.length + 1 - (j + 1) = older.length - (j + 1) + 1 by omega, squashAll, first]
        exact rest

theorem flow_tracerRecover (h : Passage cfg s.place roq done) (level : Nat) :
    Passage cfg (s.tracerRecover level).place roq done := by
  have once : s.decodeData.Nodup := by
    refine List.nodup_iff_count_le_one.mpr fun e => ?_
    have own := h.once e
    simp only [place] at own
    omega
  have seat : (fun j => (if j ∈ s.decodeData then
      squashed { s.desc j with tag := (s.desc j).tag + s.fetchData.count j }
      else { s.desc j with tag := (s.desc j).tag + s.fetchData.count j }).seat) =
      fun j => (s.desc j).seat := by
    funext j
    split <;> rfl
  rw [tracerRecover_eq once]
  simp only [place, seat]
  exact h.drop

/-- A flush drops what waits to be mapped, and then the whole reorder queue. -/
theorem pipelineFlush_some (h : Passage cfg s.place roq done) (e : s.pipelineFlush cfg = some t) :
    ∃ u, Passage cfg (s.tracerRecover 0).place ([] ++ roq) done ∧
      (s.tracerRecover 0).squashAll cfg roq.length = some u ∧
      t = { u with roqHead := 0, roqTail := 0 }.clearCreateVector := by
  obtain ⟨u, all, rfl⟩ := Option.map_eq_some_iff.mp e
  have dropped := flow_tracerRecover h 0
  have num : (s.tracerRecover 0).roqNum = roq.length := dropped.roqNum
  rw [num, Int.toNat_natCast] at all
  exact ⟨u, dropped, all, rfl⟩

theorem flow_pipelineFlush (h : Passage cfg s.place roq done) (e : s.pipelineFlush cfg = some t) :
    Passage cfg t.place [] done := by
  obtain ⟨u, dropped, all, rfl⟩ := pipelineFlush_some h e
  exact (flow_squashAll dropped all).reset

/-- The delay slot of a branch that has one in the reorder queue. -/
theorem delaySlotIn_next (h : Passage cfg s.place roq done) {i : Nat} (hi : i < roq.length)
    (slot : s.delaySlotIn cfg (s.desc roq[i]) = true) : i + 1 < roq.length := by
  have room := h.ring.length_le
  have id : (s.desc roq[i]).roqid = (s.roqHead + i) % cfg.roqIfqSize := h.roqid i hi
  simp only [delaySlotIn, id, Nat.mod_add_mod, Bool.and_eq_true, Option.isSome_iff_exists,
    bne_iff_ne] at slot
  obtain ⟨⟨d, held⟩, inside⟩ := slot
  obtain ⟨k, hk, at_k, -⟩ := h.ring.distance (Nat.mod_lt _ (by omega)) held
  rw [Nat.add_assoc] at at_k inside
  by_cases last : i + 1 = cfg.roqIfqSize
  · have valid : s.roqHead < cfg.roqIfqSize := by
      rcases h.ring.head_lt with zero | valid
      · have zero : s.roqHead = 0 := zero
        omega
      · exact valid
    rw [last, Nat.add_mod_right, Nat.mod_eq_of_lt valid] at inside
    exact absurd rfl inside
  · have same := Ring.index_injective (by omega) (by omega) at_k
    omega

/-- The last instruction that stays when a branch was mispredicted. -/
def lastKept (d : Descript) (i : Nat) : Nat := if !d.trap && !d.likely then i + 1 else i

/-- `brerr_recover` squashes all behind the branch and its delay slot. -/
theorem brerrRecover_some (h : Passage cfg s.place roq done) {i : Nat} (hi : i < roq.length)
    (slot : i + 1 < roq.length) (e : s.brerrRecover cfg roq[i] = some t) :
    ∃ u, s.squashAll cfg (roq.length - (lastKept (s.desc roq[i]) i + 1)) = some u ∧
      t = u.tracerRecover (s.desc roq[i]).specLevel := by
  have id : (s.desc roq[i]).roqid = (s.roqHead + i) % cfg.roqIfqSize := h.roqid i hi
  obtain ⟨u, squashed, rfl⟩ := Option.map_eq_some_iff.mp e
  refine ⟨u, ?_, rfl⟩
  rw [lastKept]
  split_ifs at squashed ⊢
  · rw [id, Nat.mod_add_mod, Nat.add_assoc] at squashed
    exact squashTo_squashAll h slot squashed
  · rw [id] at squashed
    exact squashTo_squashAll h hi squashed

theorem lastKept_lt {d : Descript} {i : Nat} (slot : i + 1 < roq.length) :
    lastKept d i < roq.length := by
  rw [lastKept]
  split <;> omega

theorem flow_brerrRecover (h : Passage cfg s.place roq done) {i : Nat} (hi : i < roq.length)
    (slot : i + 1 < roq.length) (e : s.brerrRecover cfg roq[i] = some t) :
    Passage cfg t.place (roq.take (lastKept (s.desc roq[i]) i + 1)) done := by
  obtain ⟨u, squashed, rfl⟩ := brerrRecover_some h hi slot e
  refine flow_tracerRecover ?_ _
  rw [← List.take_append_drop (lastKept (s.desc roq[i]) i + 1) roq] at h
  refine flow_squashAll h ?_
  rwa [List.length_drop]

end Squash

section Map

theorem flow_placed {rest : List Nat} (h : Passage cfg s.place roq done)
    (queue : s.decodeData = d :: rest) (room : s.roqNum < cfg.roqIfqSize)
    (space : s.lsqNum < cfg.lsqIfqSize) : Passage cfg (s.placed cfg d rest).place (roq ++ [d]) done := by
  have trap : (s.desc d).trap = true → (s.desc d).mem = false := h.trap_mem
  have memory : (!(s.desc d).trap && (s.desc d).mem) = (s.desc d).mem := by
    cases holds : (s.desc d).trap with
    | false => rfl
    | true => rw [trap holds, Bool.and_false]
  have next := h.map ((s.placed cfg d rest).desc d).seat queue room space
    (by simp [placed, place, Descript.seat]) (by simp [placed, place, Descript.seat])
    (by simp [placed, place, Descript.seat]) (by
      intro mem
      have kind : (s.desc d).trap = false := by
        cases holds : (s.desc d).trap with
        | false => rfl
        | true => exact absurd mem (by simp [place, trap holds])
      simp [placed, place, Descript.seat, kind])
  simp only [place, placed, memory, Function.update_self, seat_update, seat_mem, seat_ctrl,
    resAlloc] at next ⊢
  cases mem : (s.desc d).mem with
  | false =>
    simp only [mem, Bool.false_eq_true, if_false] at next ⊢
    exact next
  | true =>
    simp only [mem, if_true, slot_update, committed_update] at next ⊢
    exact next

theorem layout_readyqEnqueue {rs : Nat} (e : s.readyqEnqueue rs = some t) :
    t.layout = s.layout := by
  obtain ⟨id, pool, -, rfl⟩ := readyqEnqueue_some e
  have same : (s.modDesc rs fun d => { d with queued := true }).layout = s.layout := by
    rw [layout_modDesc]
    rfl
  exact same

theorem flow_mapInst {rest : List Nat} (h : Passage cfg s.place roq done)
    (queue : s.decodeData = d :: rest) (room : s.roqNum < cfg.roqIfqSize)
    (space : s.lsqNum < cfg.lsqIfqSize) (e : s.mapInst cfg = some t) :
    Passage cfg t.place (roq ++ [d]) done := by
  rw [mapInst_eq cfg queue] at e
  split_ifs at e
  · rw [(layout_eq.mp (layout_readyqEnqueue e)).1]
    exact flow_placed h queue room space
  · cases e
    exact flow_placed h queue room space

end Map

section Memory

theorem place_eventqQueueEvent {rs time : Nat} (e : s.eventqQueueEvent rs time = some t) :
    t.place = s.place := by
  obtain ⟨-, id, pool, -, rfl⟩ := eventqQueueEvent_some e
  rfl

theorem ports_eventqQueueEvent {rs time : Nat} (ports : s.Ports)
    (e : s.eventqQueueEvent rs time = some t) : t.Ports := by
  obtain ⟨-, id, pool, -, rfl⟩ := eventqQueueEvent_some e
  exact ⟨ports.issue, ports.dcache, ports.dtagcmp⟩

/-- An operation of the load/store queue goes on to another state, which it has not been
committed in. -/
theorem place_modLsq {i : Nat} {state : LsqState} (held : (s.lsq i).state ≠ LsqState.empty)
    (same : state.committed = (s.lsq i).state.committed) (full : state ≠ LsqState.empty) :
    (s.modLsq i fun l => { l with state }).place = s.place := by
  have slots : (fun j => (Function.update s.lsq i { s.lsq i with state } j).slot) =
      fun j => (s.lsq j).slot := slot_kept rfl (by simp [held, full])
  have states : (fun j => (Function.update s.lsq i { s.lsq i with state } j).state.committed) =
      fun j => (s.lsq j).state.committed := committed_kept same
  simp only [place, modLsq, slots, states]

theorem ports_dtagcmp (ports : s.Ports) (a : LsqAnswer) : (s.dtagcmp a).Ports := by
  simp only [dtagcmp]
  split
  · rename_i i _ port
    have state := ports.dtagcmp i port
    refine ⟨fun j hj => ?_, fun j hj => ?_, fun j hj => by cases hj⟩
    · have other : j ≠ i := by
        rintro rfl
        rw [ports.issue j hj] at state
        cases state
      simpa [modLsq, Function.update_of_ne other] using ports.issue j hj
    · have other : j ≠ i := by
        rintro rfl
        rw [ports.dcache j hj] at state
        cases state
      simpa [modLsq, Function.update_of_ne other] using ports.dcache j hj
  · exact ports

theorem place_dtagcmp (ports : s.Ports) (a : LsqAnswer) : (s.dtagcmp a).place = s.place := by
  simp only [dtagcmp]
  split
  · rename_i i _ port
    have state := ports.dtagcmp i port
    have moved : (s.modLsq i fun l => { l with state := .readcache }).place = s.place :=
      place_modLsq (by simp [state]) (by simp [state, LsqState.committed]) (by simp)
    exact moved
  · rfl

theorem look_frame (ports : s.Ports) {a : LsqAnswer} (e : s.lsqLook cfg a = some t) :
    t.place = s.place ∧ t.Ports := by
  have before : ({ s with lsqWtbki := s.lsqSelect cfg a } : Backend).Ports :=
    ⟨ports.issue, ports.dcache, ports.dtagcmp⟩
  have place := place_dtagcmp before a
  have after := ports_dtagcmp before a
  have mark : (({ s with lsqWtbki := s.lsqSelect cfg a }.dtagcmp a).markEx a).Ports :=
    ⟨after.issue, after.dcache, after.dtagcmp⟩
  simp only [lsqLook] at e
  split at e
  · exact ⟨(place_eventqQueueEvent e).trans place, ports_eventqQueueEvent mark e⟩
  · cases e
    exact ⟨place, mark⟩

theorem toDtagcmp_frame (ports : s.Ports) (a : LsqAnswer) :
    (s.toDtagcmp a).place = s.place ∧ (s.toDtagcmp a).Ports := by
  rw [toDtagcmp]
  split
  · rename_i i _ port
    have state := ports.dcache i port
    have moved : (s.modLsq i fun l => { l with state := .dtagcmp }).place = s.place :=
      place_modLsq (by simp [state]) (by simp [state, LsqState.committed]) (by simp)
    refine ⟨moved, ⟨fun j hj => ?_, fun j hj => (by cases hj), fun j hj => ?_⟩⟩
    · have other : j ≠ i := by
        rintro rfl
        rw [ports.issue j hj] at state
        cases state
      simpa [modLsq, Function.update_of_ne other] using ports.issue j hj
    · obtain rfl := Option.some.inj hj
      simp [modLsq]
  · exact ⟨rfl, ports⟩

theorem toDcache_frame (ports : s.Ports) (a : LsqAnswer) :
    (s.toDcache a).place = s.place ∧ (s.toDcache a).Ports := by
  rw [toDcache]
  split
  · rename_i i _ port
    have state := ports.issue i port
    have moved : (s.modLsq i fun l => { l with state := .dcache }).place = s.place :=
      place_modLsq (by simp [state]) (by simp [state, LsqState.committed]) (by simp)
    refine ⟨moved, ⟨fun j hj => (by cases hj), fun j hj => ?_, fun j hj => ?_⟩⟩
    · obtain rfl := Option.some.inj hj
      simp [modLsq]
    · have other : j ≠ i := by
        rintro rfl
        rw [ports.dtagcmp j hj] at state
        cases state
      simpa [modLsq, Function.update_of_ne other] using ports.dtagcmp j hj
  · exact ⟨rfl, ports.issue, ports.dcache, ports.dtagcmp⟩
  · exact ⟨rfl, ports⟩

theorem dcache_frame (ports : s.Ports) (a : LsqAnswer) :
    (s.dcache a).place = s.place ∧ (s.dcache a).Ports := by
  obtain ⟨first, ports⟩ := toDtagcmp_frame ports a
  obtain ⟨second, ports⟩ := toDcache_frame ports a
  exact ⟨second.trans first, ports⟩

theorem drainOne_frame (ports : s.Ports) (head : (s.lsq s.lsqHead).state = LsqState.commit) :
    (s.drainOne cfg).place = s.place ∧ (s.drainOne cfg).Ports := by
  have moved : (s.modLsq s.lsqHead fun l => { l with state := .delay1 }).place = s.place :=
    place_modLsq (by simp [head]) (by simp [head, LsqState.committed]) (by simp)
  have other {j : Nat} {state : LsqState} (held : (s.lsq j).state = state)
      (before : state ≠ LsqState.commit) : ((s.drainOne cfg).lsq j).state = state := by
    have ne : j ≠ s.lsqHead := by
      rintro rfl
      exact before (held.symm.trans head)
    simpa [drainOne, modLsq, Function.update_of_ne ne] using held
  exact ⟨moved, fun j hj => other (ports.issue j hj) (by simp),
    fun j hj => other (ports.dcache j hj) (by simp), fun j hj => other (ports.dtagcmp j hj) (by simp)⟩

/-- The freed entry belongs to the oldest committed operation. -/
theorem flow_freeOne (h : Passage cfg s.place roq done)
    (state : (s.lsq s.lsqHead1).state = LsqState.delay1) :
    ∃ rest, done = (s.lsq s.lsqHead1).rs :: rest ∧ Passage cfg (s.freeOne cfg).place roq rest := by
  have slot : s.place.lsq s.lsqHead1 = some (s.lsq s.lsqHead1).rs := by
    simp [place, LsqItem.slot, state]
  have committed : (s.lsq s.lsqHead1).rs ∈ done :=
    (h.committed _ _ slot).mp (by simp [place, state, LsqState.committed])
  cases done with
  | nil => cases committed
  | cons d rest =>
    have first := h.memory.slot_head (by simp)
    rw [show s.place.lsqHead1 = s.lsqHead1 from rfl, slot] at first
    have same : (s.lsq s.lsqHead1).rs = d := by simpa using first
    refine ⟨rest, by rw [same], ?_⟩
    have next := h.free
    simp only [place, freeOne, modLsq, returnToFreeList, slot_update, committed_update, same]
      at next ⊢
    exact next

theorem ports_freeOne (ports : s.Ports) (state : (s.lsq s.lsqHead1).state = LsqState.delay1) :
    (s.freeOne cfg).Ports := by
  have other {j : Nat} {state' : LsqState} (held : (s.lsq j).state = state')
      (before : state' ≠ LsqState.delay1) : ((s.freeOne cfg).lsq j).state = state' := by
    have ne : j ≠ s.lsqHead1 := by
      rintro rfl
      exact before (held.symm.trans state)
    simpa [freeOne, modLsq, returnToFreeList, Function.update_of_ne ne] using held
  exact ⟨fun j hj => other (ports.issue j hj) (by simp),
    fun j hj => other (ports.dcache j hj) (by simp), fun j hj => other (ports.dtagcmp j hj) (by simp)⟩

theorem flow_retire (h : Passage cfg s.place (d :: roq) done) (e : s.retire cfg d = some t) :
    Passage cfg t.place roq (if (s.desc d).mem then done ++ [d] else done) := by
  obtain ⟨head, -, -, rfl⟩ := retire_some e
  have next := h.retire
  simp only [place, seat_mem, seat_ctrl] at next ⊢
  have brq : (if (s.desc d).ctrl then Function.update s.brq s.brqHead none else s.brq) =
      if (s.desc d).ctrl then Function.update s.brq (s.desc d).seat.brqid none else s.brq := by
    cases ctrl : (s.desc d).ctrl with
    | false => rfl
    | true => simp only [if_true, head ctrl, Descript.seat]
  rw [brq]
  cases mem : (s.desc d).mem with
  | false =>
    simp only [mem, Bool.false_eq_true, if_false] at next ⊢
    exact next
  | true =>
    have held := (h.lsqid d List.mem_cons_self mem).2
    have full : (s.lsq (s.desc d).lsqid).state ≠ LsqState.empty := by
      intro empty
      have : (s.lsq (s.desc d).lsqid).slot = some d := held
      simp [LsqItem.slot, empty] at this
    have slots : (fun j => (Function.update s.lsq (s.desc d).lsqid
        { s.lsq (s.desc d).lsqid with state := .commit } j).slot) = fun j => (s.lsq j).slot :=
      slot_kept rfl (by simp [full])
    simp only [mem, if_true, slots, committed_update] at next ⊢
    exact next

theorem ports_retire (ports : s.Ports) (e : s.retire cfg d = some t)
    (closed : (s.desc d).mem → (s.lsq (s.desc d).lsqid).state = LsqState.writeback) : t.Ports := by
  obtain ⟨-, -, -, rfl⟩ := retire_some e
  cases mem : (s.desc d).mem with
  | false =>
    simp only [Bool.false_eq_true, if_false]
    exact ⟨ports.issue, ports.dcache, ports.dtagcmp⟩
  | true =>
    have other {j : Nat} {state : LsqState} (held : (s.lsq j).state = state)
        (before : state ≠ LsqState.writeback) : (Function.update s.lsq (s.desc d).lsqid
        { s.lsq (s.desc d).lsqid with state := .commit } j).state = state := by
      have ne : j ≠ (s.desc d).lsqid := by
        rintro rfl
        exact before (held.symm.trans (closed mem))
      simpa [Function.update_of_ne ne] using held
    simp only [if_true]
    exact ⟨fun j hj => other (ports.issue j hj) (by simp),
      fun j hj => other (ports.dcache j hj) (by simp),
      fun j hj => other (ports.dtagcmp j hj) (by simp)⟩

theorem ports_squashLast (ports : s.Ports) (h : Passage cfg s.place (roq ++ [d]) done)
    (e : s.squashLast cfg = some t) : t.Ports := by
  obtain ⟨-, rfl⟩ := squashLast_some h.last e
  have other {j : Nat} {state : LsqState} (held : (s.lsq j).state = state)
      (out : ¬((s.desc d).mem = true ∧ (s.lsq (s.desc d).lsqid).state = state)) :
      ((if (s.desc d).mem then Function.update s.lsq (s.desc d).lsqid
        { s.lsq (s.desc d).lsqid with state := .empty } else s.lsq) j).state = state := by
    split
    · rename_i mem
      have ne : j ≠ (s.desc d).lsqid := by
        rintro rfl
        exact out ⟨mem, held⟩
      simpa [Function.update_of_ne ne] using held
    · exact held
  refine ⟨fun j hj => ?_, fun j hj => ?_, fun j hj => ?_⟩ <;> simp only at hj <;> split at hj <;>
    first | cases hj | skip
  · rename_i out
    exact other (ports.issue j hj) out
  · rename_i out
    exact other (ports.dcache j hj) out
  · rename_i out
    exact other (ports.dtagcmp j hj) out

end Memory

section Decode

theorem layout_waitFor (rs num p out : Nat) (l : RsLink) (s : Backend) :
    (s.waitFor rs num p out l).layout = s.layout := by
  rw [waitFor, layout_modDesc, layout_modDesc] <;> rfl

theorem layout_roqLinkIdep {rs num name : Nat} (e : s.roqLinkIdep rs num name = some t) :
    t.layout = s.layout := by
  rcases roqLinkIdep_some e with ⟨-, rfl⟩ | ⟨p, out, id, pool, -, -, -, rfl⟩
  · rw [layout_modDesc]
    rfl
  · exact layout_waitFor rs num p out _ s

theorem layout_roqInstallOdep (rs num name : Nat) (s : Backend) :
    (s.roqInstallOdep rs num name).layout = s.layout := by
  have same : (s.modDesc rs fun d =>
      { d with onames := Function.update d.onames num name
               odepList := Function.update d.odepList num [] }).layout = s.layout := by
    rw [layout_modDesc]
    rfl
  simp only [roqInstallOdep]
  split <;> exact same

theorem layout_rename {rs : Nat} (e : s.rename rs = some t) : t.layout = s.layout := by
  simp only [rename] at e
  obtain ⟨u, first, e⟩ := Option.bind_eq_some_iff.mp e
  obtain ⟨v, second, e⟩ := Option.bind_eq_some_iff.mp e
  obtain ⟨w, third, rfl⟩ := Option.map_eq_some_iff.mp e
  calc _ = w.layout := by rw [layout_roqInstallOdep, layout_roqInstallOdep]
    _ = v.layout := layout_roqLinkIdep third
    _ = u.layout := layout_roqLinkIdep second
    _ = _ := layout_roqLinkIdep first
    _ = s.layout := by
      rw [layout_modDesc]
      rfl

theorem layout_enterLevel (e : s.enterLevel cfg = some t) : t.layout = s.layout := by
  rw [enterLevel] at e
  split_ifs at e
  cases e
  rfl

theorem layout_enterSpec {o : Outcome} {rs : Nat} (e : s.enterSpec cfg o rs = some t) :
    t.layout = s.layout := by
  have first : (s.modDesc rs fun d =>
      { d with specLevel := s.specLevel, misPredict := false }).layout = s.layout := by
    rw [layout_modDesc]
    rfl
  have second : ((s.modDesc rs fun d =>
      { d with specLevel := s.specLevel, misPredict := false }).modDesc rs fun d =>
      { d with misPredict := true }).layout = s.layout := by
    rw [layout_modDesc, first]
    rfl
  simp only [enterSpec] at e
  split at e
  · obtain ⟨u, entered, rfl⟩ := Option.map_eq_some_iff.mp e
    exact (layout_enterLevel entered).trans first
  · split at e
    · split at e
      · exact (layout_enterLevel e).trans second
      · cases e
        exact second
    · cases e
      exact first

theorem foldl_returnToFreeList (l : List Nat) (s : Backend) :
    l.foldl (fun s d => s.returnToFreeList d) s =
      { s with freeList := l.foldl giveBack s.freeList } := by
  induction l generalizing s with
  | nil => rfl
  | cons x l ih =>
    rw [List.foldl_cons, ih]
    rfl

/-- The queues when the fetch unit may have been redirected. -/
theorem redirect_place (o : Outcome) (rs : Nat) (s : Backend) :
    ∃ free fetch, (s.redirect o rs).place = { s.place with freeList := free, fetchData := fetch } ∧
      (s.redirect o rs).lsq = s.lsq ∧ (s.redirect o rs).lsqIssuei = s.lsqIssuei ∧
      (s.redirect o rs).lsqDcachei = s.lsqDcachei ∧
      (s.redirect o rs).lsqDtagcmpi = s.lsqDtagcmpi ∧ fetch.tail.Sublist s.fetchData.tail ∧
      ∀ e, free.count e + fetch.tail.count e ≤
        s.freeList.count e + s.fetchData.tail.count e := by
  simp only [redirect]
  split
  · rw [foldl_returnToFreeList]
    have short : (s.fetchData.take 1).tail = [] := by
      cases s.fetchData <;> simp
    refine ⟨_, _, rfl, rfl, rfl, rfl, rfl, short ▸ List.nil_sublist _, fun e => ?_⟩
    have back := Passage.count_giveBacks s.freeList s.fetchData.tail e
    rw [short, List.count_nil]
    omega
  · split
    · exact ⟨s.freeList, s.fetchData, rfl, rfl, rfl, rfl, rfl, .refl _, fun e => Nat.le_refl _⟩
    · exact ⟨s.freeList, s.fetchData, rfl, rfl, rfl, rfl, rfl, .refl _, fun e => Nat.le_refl _⟩

theorem front_apart (h : Passage cfg s.place roq done) {rest : List Nat}
    (queue : s.fetchData = d :: rest) : d ∉ roq := by
  have once := h.once d
  rw [show s.place.fetchData = d :: rest from queue, List.count_cons_self] at once
  exact List.count_eq_zero.mp (by omega)

theorem flow_markSlot {rest : List Nat} (h : Passage cfg s.place roq done)
    (queue : s.fetchData = d :: rest) (e : s.markSlot d = some t) :
    Passage cfg t.place roq done ∧ t.fetchData = s.fetchData ∧ t.decodeData = s.decodeData ∧
      t.lsq = s.lsq ∧ t.lsqIssuei = s.lsqIssuei ∧ t.lsqDcachei = s.lsqDcachei ∧
      t.lsqDtagcmpi = s.lsqDtagcmpi := by
  simp only [markSlot] at e
  split at e
  · cases e
    exact ⟨h, rfl, rfl, rfl, rfl, rfl, rfl⟩
  · split at e
    · cases e
    · cases e
      refine ⟨?_, rfl, rfl, rfl, rfl, rfl, rfl⟩
      have next := h.reseat (if (s.desc d).ctrl then
          { s.desc d with ir := nopInst, op := mdSetOpcode nopInst, bd := true }
        else { s.desc d with bd := true }).seat (front_apart h queue) (by
          split
          · exact fun _ => rfl
          · exact h.nop d)
      simp only [place, modDesc, seat_update] at next ⊢
      exact next

/-- The queues when an instruction is decoded. -/
theorem decodeNext_place {o : Outcome} (e : s.decodeNext cfg o d = some t) :
    ∃ free fetch, t.place = { s.place with
        freeList := free, fetchData := fetch, decodeData := s.decodeData ++ [d] } ∧
      t.lsq = s.lsq ∧ t.lsqIssuei = s.lsqIssuei ∧ t.lsqDcachei = s.lsqDcachei ∧
      t.lsqDtagcmpi = s.lsqDtagcmpi ∧ fetch.Sublist s.fetchData.tail ∧ ∀ e, free.count e + fetch.count e ≤
        s.freeList.count e + s.fetchData.tail.count e := by
  have first : (s.modDesc d fun x => { x with divDelay := o.divDelay }).layout = s.layout := by
    rw [layout_modDesc]
    rfl
  simp only [decodeNext] at e
  obtain ⟨u, named, e⟩ := Option.bind_eq_some_iff.mp e
  obtain ⟨v, entered, rfl⟩ := Option.map_eq_some_iff.mp e
  have renamed : (if (u.desc d).ctrl = true then { u with lastIsBranch := true } else u).layout =
      s.layout := by
    have same := (layout_rename named).trans first
    split <;> exact same
  generalize (if (u.desc d).ctrl = true then { u with lastIsBranch := true } else u) = w
    at renamed entered
  obtain ⟨place, lsq, issue, dcache, dtagcmp⟩ := layout_eq.mp renamed
  obtain ⟨free, fetch, moved, lsq', issue', dcache', dtagcmp', part, less⟩ :=
    redirect_place o d w
  obtain ⟨place', lsq2, issue2, dcache2, dtagcmp2⟩ := layout_eq.mp (layout_enterSpec entered)
  have both : v.place = { s.place with freeList := free, fetchData := fetch } := by
    rw [place', moved, place]
  have decoded : v.decodeData = s.decodeData := congrArg Place.decodeData both
  have fetched : v.fetchData = fetch := congrArg Place.fetchData both
  refine ⟨free, fetch.tail, ?_, lsq2.trans (lsq'.trans lsq), issue2.trans (issue'.trans issue),
    dcache2.trans (dcache'.trans dcache), dtagcmp2.trans (dtagcmp'.trans dtagcmp), ?_, fun e => ?_⟩
  · rw [decoded, fetched]
    have same := congrArg (fun p : Place => { p with
      decodeData := s.decodeData ++ [d], fetchData := fetch.tail }) both
    exact same
  · have before : w.fetchData = s.fetchData := congrArg Place.fetchData place
    rw [← before]
    exact part
  · have before : w.fetchData = s.fetchData := congrArg Place.fetchData place
    have freed : w.freeList = s.freeList := congrArg Place.freeList place
    rw [← before, ← freed]
    exact less e

theorem flow_decodeNext {o : Outcome} {rest : List Nat} (h : Passage cfg s.place roq done)
    (ports : s.Ports) (queue : s.fetchData = d :: rest) (e : s.decodeNext cfg o d = some t) :
    Passage cfg t.place roq done ∧ t.Ports := by
  obtain ⟨free, fetch, moved, lsq, issue, dcache, dtagcmp, -, less⟩ := decodeNext_place e
  refine ⟨?_, ports.congr lsq issue dcache dtagcmp⟩
  have next := h.exchange free fetch (s.decodeData ++ [d]) s.fresh fun e => by
    have small := less e
    rw [queue, List.tail_cons] at small
    simp only [Backend.place, queue, List.count_append, List.count_cons, List.count_nil]
    omega
  rw [moved]
  exact next

theorem flow_decodeInst {o : Nat → Outcome} {rest : List Nat} {more : Bool}
    (h : Passage cfg s.place roq done) (ports : s.Ports) (queue : s.fetchData = d :: rest)
    (e : s.decodeInst cfg o = some (t, more)) : Passage cfg t.place roq done ∧ t.Ports := by
  simp only [decodeInst, queue] at e
  obtain ⟨u, marked, e⟩ := Option.bind_eq_some_iff.mp e
  obtain ⟨next, fetched, -, lsq, issue, dcache, dtagcmp⟩ := flow_markSlot h queue marked
  have kept := ports.congr lsq issue dcache dtagcmp
  split at e
  · cases e
    exact ⟨next, kept⟩
  · split at e
    · cases e
    · obtain ⟨v, decoded, same⟩ := Option.map_eq_some_iff.mp e
      cases same
      exact flow_decodeNext next kept (fetched.trans queue) decoded

end Decode

section Wakeup

theorem layout_ready (x : Nat × RsLink) (s : Backend) : (s.ready x).layout = s.layout := by
  rw [ready, layout_modDesc]
  rfl

theorem layout_wakeOne {x : Nat × RsLink} (e : s.wakeOne x = some t) : t.layout = s.layout := by
  rcases wakeOne_some e with ⟨-, rfl⟩ | ⟨-, -, ⟨-, rfl⟩ | ⟨-, u, entered, rfl⟩⟩
  · rfl
  · exact layout_ready x s
  · exact (layout_readyqEnqueue entered).trans (layout_ready x s)

theorem layout_wakeAll {l : List (Nat × RsLink)} (e : l.foldlM wakeOne s = some t) :
    t.layout = s.layout := by
  induction l generalizing s with
  | nil =>
    cases e
    rfl
  | cons x l ih =>
    obtain ⟨u, first, e⟩ := Option.bind_eq_some_iff.mp e
    exact (ih e).trans (layout_wakeOne first)

theorem layout_clearLevels (rs out name n level : Nat) (s : Backend) :
    (s.clearLevels rs out name n level).layout = s.layout := by
  induction n generalizing level s with
  | zero => rfl
  | succ n ih =>
    rw [clearLevels]
    split
    · rw [ih]
      rfl
    · rfl

theorem layout_updateCreateVector (rs : Nat) (s : Backend) :
    (s.updateCreateVector rs).layout = s.layout := by
  have one (out : Nat) (u : Backend) : (updateOutput rs u out).layout = u.layout := by
    simp only [updateOutput]
    split
    · rfl
    · exact layout_clearLevels ..
  exact (one 1 _).trans (one 0 s)

theorem layout_broadcast {rs out : Nat} (e : s.broadcast rs out = some t) :
    t.layout = s.layout := by
  rcases broadcast_some e with ⟨-, rfl⟩ | ⟨-, u, woken, rfl⟩
  · rfl
  · rw [layout_modDesc, layout_wakeAll woken, layout_updateCreateVector]
    rfl

/-- The load/store queue hears that a memory operation is done. -/
theorem finished_frame {rs : Nat} (ports : s.Ports)
    (held : (s.desc rs).mem → (s.lsq (s.desc rs).lsqid).state = LsqState.readcache) :
    (s.finished rs).place = s.place ∧ (s.finished rs).Ports := by
  have seats : (fun j => (Function.update s.desc rs (if (s.desc rs).ctrl then
      { s.desc rs with brcompleted := true } else { s.desc rs with completed := true }) j).seat) =
      fun j => (s.desc j).seat := seat_kept (by split <;> rfl)
  cases mem : (s.desc rs).mem with
  | false =>
    refine ⟨?_, ports.congr (by simp [finished, mem]) rfl rfl rfl⟩
    simp only [place, finished, mem, Bool.false_eq_true, if_false, seats]
  | true =>
    have state := held mem
    have moved : (s.modLsq (s.desc rs).lsqid fun l => { l with state := .writeback }).place =
        s.place := place_modLsq (by simp [state]) (by simp [state, LsqState.committed]) (by simp)
    constructor
    · simp only [place, finished, mem, if_true, seats, modLsq] at moved ⊢
      exact moved
    · have other {j : Nat} {state' : LsqState} (now : (s.lsq j).state = state')
          (before : state' ≠ LsqState.readcache) :
          ((s.finished rs).lsq j).state = state' := by
        have ne : j ≠ (s.desc rs).lsqid := by
          rintro rfl
          exact before (now.symm.trans state)
        simpa [finished, mem, Function.update_of_ne ne] using now
      exact ⟨fun j hj => other (ports.issue j hj) (by simp),
        fun j hj => other (ports.dcache j hj) (by simp),
        fun j hj => other (ports.dtagcmp j hj) (by simp)⟩

theorem finish_frame {rs : Nat} (ports : s.Ports) (e : s.finish rs = some t)
    (held : (s.desc rs).mem → (s.lsq (s.desc rs).lsqid).state = LsqState.readcache) :
    t.place = s.place ∧ t.Ports := by
  obtain ⟨-, u, first, second⟩ := finish_some e
  have same := (layout_broadcast second).trans (layout_broadcast first)
  obtain ⟨place, kept⟩ := finished_frame ports held
  exact ⟨(layout_eq.mp same).1.trans place, ports_layout kept same⟩

theorem nextValidNode_layout (fu : Nat) (s : Backend) : (s.nextValidNode fu).layout = s.layout := by
  rw [nextValidNode, rslinkFreeAll_eq]
  rfl

theorem issueInst_frame {l : RsLink} (ports : s.Ports) (e : s.issueInst l = some t) :
    t.place = s.place ∧ t.Ports := by
  obtain ⟨u, v, oplat, first, rfl, e⟩ := issueInst_some e
  obtain ⟨-, rfl⟩ := deleteNode_some e
  have start : (s.issued l.rs).layout = s.layout := by
    have same : (s.modDesc l.rs fun d => { d with issued := true, queued := false }).layout =
        s.layout := by
      rw [layout_modDesc]
      rfl
    exact same
  have after (w : Backend) : (u.countIssue (u.desc l.rs).inIntq (-1)).layout = u.layout := by
    rw [countIssue_eq]
    rfl
  have both : u.place = s.place ∧ u.Ports := by
    have kept := ports_layout ports start
    split at first
    · obtain ⟨-, state, -, rfl⟩ := lsqIssue_some first
      have moved : ((s.issued l.rs).modLsq ((s.issued l.rs).desc l.rs).lsqid fun x =>
          { x with state := .issue }).place = (s.issued l.rs).place :=
        place_modLsq (by simp [state]) (by simp [state, LsqState.committed]) (by simp)
      refine ⟨moved.trans (layout_eq.mp start).1, fun j hj => ?_, fun j hj => ?_, fun j hj => ?_⟩
      · obtain rfl := Option.some.inj hj
        simp [modLsq]
      · have ne : j ≠ ((s.issued l.rs).desc l.rs).lsqid := by
          rintro rfl
          rw [kept.dcache _ hj] at state
          cases state
        simpa [modLsq, Function.update_of_ne ne] using kept.dcache j hj
      · have ne : j ≠ ((s.issued l.rs).desc l.rs).lsqid := by
          rintro rfl
          rw [kept.dtagcmp _ hj] at state
          cases state
        simpa [modLsq, Function.update_of_ne ne] using kept.dtagcmp j hj
    · exact ⟨(place_eventqQueueEvent first).trans (layout_eq.mp start).1,
        ports_eventqQueueEvent kept first⟩
  have counted := after u
  exact ⟨(layout_eq.mp counted).1.trans both.1, (ports_layout both.2 counted).congr rfl rfl rfl rfl⟩

end Wakeup

section Fetch

/-- A descriptor from the free list, or one of a new block. -/
theorem getFromFreeList_some (s : Backend) : ∃ d free fresh,
    s.getFromFreeList = (d, { s with freeList := free, fresh := fresh }) ∧
      ∀ e, free.count e + (if d = e then 1 else 0) + (if e < s.fresh then 1 else 0) ≤
        s.freeList.count e + if e < fresh then 1 else 0 := by
  rw [getFromFreeList]
  split
  · rename_i d rest filled
    refine ⟨d, rest, s.fresh, rfl, fun e => ?_⟩
    rw [filled, List.count_cons]
    simp only [beq_iff_eq]
    omega
  · rename_i empty
    refine ⟨_, _, _, rfl, fun e => ?_⟩
    have once : ((List.range (fetchFreeListSize - 1)).map (s.fresh + ·)).Nodup :=
      List.nodup_range.map fun a b same => Nat.add_left_cancel same
    rw [List.count_reverse, empty, List.count_nil]
    have most := List.nodup_iff_count_le_one.mp once e
    by_cases new : e ∈ (List.range (fetchFreeListSize - 1)).map (s.fresh + ·)
    · obtain ⟨k, hk, rfl⟩ := List.mem_map.mp new
      have small : k < 79 := List.mem_range.mp hk
      rw [if_neg (by rw [fetchFreeListSize]; omega), if_neg (by omega),
        if_pos (by rw [fetchFreeListSize]; omega)]
      omega
    · rw [List.count_eq_zero.mpr new]
      by_cases top : s.fresh + fetchFreeListSize - 1 = e
      · rw [if_pos top, if_neg (by rw [fetchFreeListSize] at top; omega),
          if_pos (by rw [fetchFreeListSize] at top ⊢; omega)]
      · rw [if_neg top]
        by_cases old : e < s.fresh
        · rw [if_pos old, if_pos (by omega)]
        · rw [if_neg old]
          omega

/-- The descriptor of a new instruction is at no other place. -/
theorem got_apart (h : Passage cfg s.place roq done) :
    s.getFromFreeList.1 ∉ s.fetchData ∧ s.getFromFreeList.1 ∉ s.decodeData ∧
      s.getFromFreeList.1 ∉ roq ∧ s.getFromFreeList.1 ∉ done := by
  obtain ⟨d, free, fresh, got, less⟩ := getFromFreeList_some s
  have first : s.getFromFreeList.1 = d := by rw [got]
  rw [first]
  have small := less d
  have own : s.freeList.count d + s.fetchData.count d + s.decodeData.count d + roq.count d +
      done.count d ≤ if d < s.fresh then 1 else 0 := h.own d
  rw [if_pos rfl] at small
  have zero : s.fetchData.count d + s.decodeData.count d + roq.count d + done.count d = 0 := by
    by_cases old : d < s.fresh
    · rw [if_pos old] at own small
      split at small <;> omega
    · rw [if_neg old] at own
      omega
  refine ⟨?_, ?_, ?_, ?_⟩ <;> rw [← List.count_eq_zero] <;> omega

/-- The instructions in flight are different ones, and not fetched ones. -/
theorem flight_nodup (h : Passage cfg s.place roq done) : (roq ++ s.decodeData).Nodup := by
  refine List.nodup_iff_count_le_one.mpr fun d => ?_
  have once := h.once d
  simp only [place] at once
  rw [List.count_append]
  omega

theorem flight_fetched (h : Passage cfg s.place roq done) :
    ∀ d ∈ roq ++ s.decodeData, d ∉ s.fetchData := by
  intro d hd fetched
  have once := h.once d
  have here := List.count_pos_iff.mpr hd
  have there := List.count_pos_iff.mpr fetched
  rw [List.count_append] at here
  simp only [place] at once
  omega

/-- A new instruction has entered the fetch queue. -/
def pushed (cfg : BackendConfig) (ir : Word) (op : Op) (trap : Bool) (s : Backend) : Backend :=
  (s.getFromFreeList.2.newInst s.getFromFreeList.1 ir op trap).fetchPush cfg s.getFromFreeList.1

/-- A fetched word: its descriptor goes back, or one or two instructions enter the queue. -/
theorem fetchInst_cases (f : Fetched) (room : FetchRoom cfg f s.fetchData.length) :
    ∃ ir, (f.valid = false → ir = nopInst) ∧
      ((∃ d l fresh, s.getFromFreeList = (d, { s with freeList := l, fresh := fresh }) ∧
          (s.fetchInst cfg f).1 = { s with freeList := giveBack l d, fresh := fresh }) ∨
        (s.fetchInst cfg f).1 = s.pushed cfg ir (mdSetOpcode ir) (!f.valid) ∨
        ∃ half, s.fetchData.length + 1 < cfg.fetchIfqSize ∧ (s.fetchInst cfg f).1 =
          (s.pushed cfg ir (mdSetOpcode ir) (!f.valid)).pushed cfg ir half false) := by
  obtain ⟨d, l, fresh, got, less⟩ := getFromFreeList_some s
  refine ⟨if f.valid then f.ir else nopInst, fun bad => by rw [bad]; rfl, ?_⟩
  simp only [FetchRoom] at room
  simp only [fetchInst]
  generalize (if f.valid then f.ir else nopInst) = ir at room ⊢
  split
  · refine .inl ⟨d, l, fresh, got, ?_⟩
    rw [got]
    rfl
  · rename_i goes
    split
    · rename_i split
      rw [split, Bool.true_and, beq_iff_eq, fetchData_getFromFreeList] at goes
      exact .inr (.inr ⟨_, room split goes, rfl⟩)
    · exact .inr (.inl rfl)

theorem flow_pushed (h : Passage cfg s.place roq done) (room : s.fetchData.length < cfg.fetchIfqSize)
    (ir : Word) {op : Op} {trap : Bool} (nop : trap → op = mdSetOpcode nopInst) :
    Passage cfg (s.pushed cfg ir op trap).place roq done := by
  obtain ⟨d, free, fresh, got, less⟩ := getFromFreeList_some s
  have entered := h.exchange free (s.fetchData ++ [d]) s.decodeData fresh fun e => by
    have small := less e
    change free.count e + (s.fetchData ++ [d]).count e + s.decodeData.count e +
        (if e < s.fresh then 1 else 0) ≤ s.freeList.count e + s.fetchData.count e +
        s.decodeData.count e + if e < fresh then 1 else 0
    simp only [List.count_append, List.count_singleton, beq_iff_eq]
    omega
  have outside : d ∉ roq := by
    have once := entered.once d
    simp only [List.count_append, List.count_singleton_self] at once
    exact List.count_eq_zero.mp (by omega)
  have next := entered.reseat ((newInst d ir op trap
    { s with freeList := free, fresh := fresh }).desc d).seat outside (by
      simpa [newInst, modDesc, Descript.seat] using nop)
  simp only [pushed, got, fetchPush, newInst, modDesc, room, if_true, place, seat_update,
    Function.update_self] at next ⊢
  exact next

theorem memory_pushed (ir : Word) (op : Op) (trap : Bool) (s : Backend) :
    (s.pushed cfg ir op trap).lsq = s.lsq ∧ (s.pushed cfg ir op trap).lsqIssuei = s.lsqIssuei ∧
      (s.pushed cfg ir op trap).lsqDcachei = s.lsqDcachei ∧
      (s.pushed cfg ir op trap).lsqDtagcmpi = s.lsqDtagcmpi := by
  obtain ⟨d, l, fresh, got, -⟩ := getFromFreeList_some s
  rw [pushed, got]
  exact ⟨rfl, rfl, rfl, rfl⟩

theorem flow_fetchInst (h : Passage cfg s.place roq done) (ports : s.Ports) (f : Fetched)
    (free : s.fetchData.length < cfg.fetchIfqSize) (room : FetchRoom cfg f s.fetchData.length) :
    Passage cfg (s.fetchInst cfg f).1.place roq done ∧ (s.fetchInst cfg f).1.Ports := by
  obtain ⟨ir, invalid, cases⟩ := fetchInst_cases f room
  have nop : (!f.valid) = true → mdSetOpcode ir = mdSetOpcode nopInst := by
    intro bad
    rw [Bool.not_eq_true'] at bad
    rw [invalid bad]
  have push {u : Backend} (ports : u.Ports) (op : Op) (trap : Bool) :
      (u.pushed cfg ir op trap).Ports := by
    obtain ⟨lsq, issue, dcache, dtagcmp⟩ := @memory_pushed cfg ir op trap u
    exact ports.congr lsq issue dcache dtagcmp
  have first := flow_pushed h free ir nop
  rcases cases with ⟨d, l, fresh, got, moved⟩ | moved | ⟨half, space, moved⟩ <;> rw [moved]
  · obtain ⟨d', l', fresh', got', less⟩ := getFromFreeList_some s
    obtain ⟨rfl, same⟩ := Prod.mk.inj (got.symm.trans got')
    obtain rfl : l = l' := congrArg Backend.freeList same
    obtain rfl : fresh = fresh' := congrArg Backend.fresh same
    refine ⟨?_, ports.congr rfl rfl rfl rfl⟩
    refine h.exchange (giveBack l d) s.fetchData s.decodeData fresh fun e => ?_
    have small := less e
    have back := Passage.count_giveBack l d e
    change (giveBack l d).count e + s.fetchData.count e + s.decodeData.count e +
        (if e < s.fresh then 1 else 0) ≤ s.freeList.count e + s.fetchData.count e +
        s.decodeData.count e + if e < fresh then 1 else 0
    omega
  · exact ⟨first, push ports _ _⟩
  · refine ⟨flow_pushed first ?_ ir (fun absent => (by cases absent)), push (push ports _ _) _ _⟩
    rw [pushed, length_fetchPush]
    simpa using space

end Fetch

end Backend

end Godson
