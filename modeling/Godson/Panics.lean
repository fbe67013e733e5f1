import Godson.Scheduled
import Godson.Alternating

/-! The assertions of the stages. A recovery and a flush find every entry that they look for, an
instruction that retires has no consumers left, and an instruction that leaves its unit is one
that was issued and has not been there before. -/
namespace Godson.Backend

open Mips Awake

variable {cfg : BackendConfig} {s t u : Backend} {roq done : List Nat} {d : Nat}

section Squash

theorem lsqCancelOne_total {i : Nat} (used : (s.lsq i).state ≠ .empty) :
    ∃ t, s.lsqCancelOne i = some t := by
  rw [lsqCancelOne]
  cases state : (s.lsq i).state with
  | empty => exact absurd state used
  | _ => exact ⟨_, rfl⟩

/-- The youngest instruction can be squashed. -/
theorem squashLast_total (flow : Passage cfg s.place (roq ++ [d]) done) :
    ∃ t, s.squashLast cfg = some t := by
  have last : s.roq ((s.roqTail + cfg.roqIfqSize - 1) % cfg.roqIfqSize) = some d := flow.last
  simp only [squashLast, last, Option.bind_some, leaveBrq_eq, squash_eq]
  cases mem : (s.desc d).mem with
  | false => exact ⟨_, rfl⟩
  | true =>
    have held : s.place.lsq (s.desc d).lsqid = some d := (flow.lsqid d (by simp) mem).2
    have used : (s.lsq (s.desc d).lsqid).state ≠ .empty := by
      intro none
      simp [place, LsqItem.slot, none] at held
    obtain ⟨t, cancelled⟩ := lsqCancelOne_total (s := { s with
      desc := Function.update s.desc d (squashed (s.desc d))
      rslinkFreeList := odepIds (s.desc d) ++ s.rslinkFreeList
      fuBusy := Function.update s.fuBusy (s.desc d).fu false
      brq := if (s.desc d).ctrl then Function.update s.brq (s.desc d).brqid none else s.brq
      brqTail := if (s.desc d).ctrl then (s.brqTail + cfg.brqIfqSize - 1) % cfg.brqIfqSize
        else s.brqTail
      brqNum := if (s.desc d).ctrl then s.brqNum - 1 else s.brqNum }) used
    rw [if_pos rfl, cancelled]
    exact ⟨_, rfl⟩

theorem squashAll_total {gone : List Nat} (flow : Passage cfg s.place (roq ++ gone) done) :
    ∃ t, s.squashAll cfg gone.length = some t := by
  induction gone using List.reverseRecOn generalizing s with
  | nil => exact ⟨s, rfl⟩
  | append_singleton gone d ih =>
    rw [← List.append_assoc] at flow
    obtain ⟨u, first⟩ := squashLast_total flow
    obtain ⟨t, rest⟩ := ih (flow_squashLast flow first)
    refine ⟨t, ?_⟩
    rw [List.length_append, List.length_singleton, squashAll, first]
    exact rest

/-- The loop of `brerr_recover` comes to the entry that it is to stop at. -/
theorem squashTo_total {j n : Nat} (flow : Passage cfg s.place roq done) (hj : j < roq.length)
    (rounds : roq.length ≤ n + j) :
    ∃ t, s.squashTo cfg ((s.roqHead + j) % cfg.roqIfqSize) n = some t := by
  induction n generalizing s roq with
  | zero => omega
  | succ n ih =>
    obtain ⟨older, d, rfl⟩ := (List.eq_nil_or_concat' roq).resolve_left
      (List.ne_nil_of_length_pos (Nat.zero_lt_of_lt hj))
    have room := flow.ring.length_le
    have num : s.roqNum = (older ++ [d]).length := flow.roqNum
    rw [List.length_append, List.length_singleton] at hj room rounds num
    have back : (s.roqTail + cfg.roqIfqSize - 1) % cfg.roqIfqSize =
        (s.roqHead + older.length) % cfg.roqIfqSize := flow.roq_back
    simp only [squashTo, back]
    by_cases stop : (s.roqHead + older.length) % cfg.roqIfqSize =
        (s.roqHead + j) % cfg.roqIfqSize
    · rw [if_pos stop]
      exact ⟨s, rfl⟩
    · have earlier : j < older.length := by
        rcases Nat.lt_or_eq_of_le (Nat.le_of_lt_succ hj) with before | same
        · exact before
        · exact absurd (by rw [same]) stop
      have head : (s.roqHead + older.length) % cfg.roqIfqSize ≠ s.roqHead := by
        intro same
        have start : s.roqHead % cfg.roqIfqSize = s.roqHead := by
          rcases flow.ring.head_lt with zero | low
          · have none : s.roqHead = 0 := zero
            rw [none, Nat.zero_mod]
          · exact Nat.mod_eq_of_lt low
        rw [← start] at same
        have equal := @Ring.index_injective cfg.roqIfqSize s.roqHead older.length 0 (by omega)
          (by omega) (by simpa using same)
        omega
      have filled : ¬(s.roqNum = 0 ∨ (s.roqHead + older.length) % cfg.roqIfqSize = s.roqHead) := by
        rintro (none | same)
        · omega
        · exact head same
      rw [if_neg stop, if_neg filled]
      obtain ⟨u, first⟩ := squashLast_total flow
      obtain ⟨t, rest⟩ := ih (flow_squashLast flow first) earlier (by omega)
      rw [roqHead_squashLast flow first] at rest
      rw [first]
      exact ⟨t, rest⟩

theorem pipelineFlush_total (flow : Passage cfg s.place roq done) :
    ∃ t, s.pipelineFlush cfg = some t := by
  have dropped : Passage cfg (s.tracerRecover 0).place ([] ++ roq) done :=
    flow_tracerRecover flow 0
  have num : (s.tracerRecover 0).roqNum = roq.length := dropped.roqNum
  obtain ⟨u, all⟩ := squashAll_total dropped
  rw [pipelineFlush, num, Int.toNat_natCast, all]
  exact ⟨_, rfl⟩

theorem brerrRecover_total {i : Nat} (flow : Passage cfg s.place roq done)
    (hi : i < roq.length) (slot : i + 1 < roq.length) :
    ∃ t, s.brerrRecover cfg roq[i] = some t := by
  have id : (s.desc roq[i]).roqid = (s.roqHead + i) % cfg.roqIfqSize := flow.roqid i hi
  have num : s.roqNum = roq.length := flow.roqNum
  have stop : (if !(s.desc roq[i]).trap && !(s.desc roq[i]).likely then
      ((s.desc roq[i]).roqid + 1) % cfg.roqIfqSize else (s.desc roq[i]).roqid) =
      (s.roqHead + lastKept (s.desc roq[i]) i) % cfg.roqIfqSize := by
    rw [lastKept]
    split
    · rw [id, Nat.mod_add_mod, Nat.add_assoc]
    · rw [id]
  obtain ⟨u, squashed⟩ := squashTo_total (n := s.roqNum.toNat + 1) flow
    (lastKept_lt (d := s.desc roq[i]) slot) (by omega)
  simp only [brerrRecover, stop, squashed]
  exact ⟨_, rfl⟩

end Squash

section Commit

theorem retire_total (order : (s.desc d).ctrl = true → s.brqHead = (s.desc d).brqid)
    (first : (s.desc d).odepList 0 = []) (second : (s.desc d).odepList 1 = []) :
    ∃ t, s.retire cfg d = some t := by
  have stays : ¬((s.desc d).ctrl = true ∧ s.brqHead ≠ (s.desc d).brqid) := by
    rintro ⟨ctrl, ne⟩
    exact ne (order ctrl)
  have bare : ¬((s.desc d).odepList 0 ≠ [] ∨ (s.desc d).odepList 1 ≠ []) := by
    rintro (filled | filled)
    · exact filled first
    · exact filled second
  have head (f : LsqItem → LsqItem) :
      (if (s.desc d).mem = true then s.modLsq (s.desc d).lsqid f else s).brqHead = s.brqHead := by
    split <;> rfl
  simp only [retire, head]
  rw [if_neg stays, if_neg bare]
  exact ⟨_, rfl⟩

/-- The oldest instruction, when it is a branch, is at the head of the branch queue. -/
theorem Branches.oldest {rest : List Nat} (h : Branches cfg s (d :: rest))
    (ctrl : (s.desc d).ctrl = true) : s.brqHead = (s.desc d).brqid := by
  have first : s.branches (d :: rest) = d :: s.branches rest := by
    rw [branches, List.filter_cons_of_pos (p := fun d => (s.desc d).ctrl) ctrl, branches]
  have some : 0 < (s.branches (d :: rest)).length := by
    rw [first]
    exact Nat.zero_lt_succ _
  have id := h.brqid 0 some
  simp only [first, List.getElem_cons_zero, Nat.add_zero] at id
  rw [id]
  have room := h.ring.length_le
  rcases h.ring.head_lt with zero | low
  · rw [zero, Nat.zero_mod]
  · exact (Nat.mod_eq_of_lt low).symm

/-- What a completed instruction has written is not waited for. -/
theorem Pending.bare (h : s.Pending) (completed : (s.desc d).completed = true) (out : Nat) :
    (s.desc d).odepList out = [] := by
  by_contra filled
  exact absurd ((h d out filled).1.symm.trans completed) Bool.false_ne_true

theorem commitInst_total {rest : List Nat} (coherent : Coherent cfg s (d :: rest) done)
    (pending : s.Pending) (brq : Branches cfg s (d :: rest))
    (trap : (s.desc d).trap = false) : ∃ r, s.commitInst cfg = some r := by
  have head : s.roq s.roqHead = some d := by
    rw [show s.roq s.roqHead = _ from coherent.flow.ring.slot_head (List.cons_ne_nil _ _)]
    rfl
  simp only [commitInst, head, Option.bind_some, trap, Bool.false_eq_true, if_false]
  cases completed : (s.desc d).completed with
  | false => exact ⟨_, rfl⟩
  | true =>
    have before := coherent.bumped_coherent d
    have same : (Coherent.bumped d s).desc d = { s.desc d with tag := (s.desc d).tag + 1 } := by
      rw [Coherent.bumped, modDesc_self]
    obtain ⟨t, flushed⟩ := pipelineFlush_total before.flow
    obtain ⟨u, left⟩ := @retire_total cfg (Coherent.bumped d s) d
      (fun ctrl => by
        rw [same] at ctrl ⊢
        exact brq.oldest ctrl)
      (by rw [same]; exact pending.bare completed 0)
      (by rw [same]; exact pending.bare completed 1)
    simp only [Bool.not_true, Bool.false_eq_true, if_false]
    split
    · exact ⟨(t, false), Option.map_eq_some_iff.mpr ⟨t, flushed, rfl⟩⟩
    · exact ⟨(u, _), Option.map_eq_some_iff.mpr ⟨u, left, rfl⟩⟩

/-- The state of a core none of whose instructions in the reorder queue was fetched from an
invalid address. -/
structure Untrapped (cfg : BackendConfig) (s : Backend) (roq done : List Nat) : Prop where
  alert : Alert cfg s roq done
  brq : Branches cfg s roq
  bound : Bounded cfg (Coherent.counters s)
  trap : ∀ d ∈ roq, (s.desc d).trap = false

theorem Untrapped.commitInst {more : Bool} (h : Untrapped cfg s roq done) (filled : 0 < s.roqNum)
    (e : s.commitInst cfg = some (t, more)) : ∃ roq done, Untrapped cfg t roq done := by
  have coherent := h.alert.coherent
  obtain ⟨rest, done', next, trap⟩ : ∃ rest done', Coherent cfg t rest done' ∧
      ∀ d ∈ rest, (t.desc d).trap = false := by
    have traps := h.trap
    obtain ⟨d, rest, rfl, same | ⟨completed, -, flushed | left⟩⟩ := coherent.commit_cases filled e
    · exact ⟨_, done, same ▸ coherent, same ▸ traps⟩
    · refine ⟨[], done, (coherent.bumped_coherent d).flush flushed, fun j hj => ?_⟩
      cases hj
    · obtain ⟨done', next⟩ := coherent.retire completed left
      refine ⟨rest, done', next, fun j hj => ?_⟩
      obtain ⟨-, -, -, rfl⟩ := retire_some left
      change ((Coherent.bumped d s).desc j).trap = false
      rw [Coherent.desc_bumped]
      exact traps j (List.mem_cons_of_mem _ hj)
  have step : Micro cfg True (fun _ => True) s t := .commit filled e
  obtain ⟨roq₁, done₁, alert⟩ := h.alert.micro step
  obtain ⟨roq₂, done₂, coherent₂, brq, bound⟩ := Stocked.commitInst coherent h.brq h.bound filled e
  have first : roq₁ = rest := alert.coherent.inRoq_eq.symm.trans next.inRoq_eq
  have second : roq₂ = rest := coherent₂.inRoq_eq.symm.trans next.inRoq_eq
  subst first second
  exact ⟨roq₂, done₁, alert, brq, bound, trap⟩

theorem Untrapped.commitLoop_total (h : Untrapped cfg s roq done) (n : Nat) :
    ∃ t, s.commitLoop cfg n = some t := by
  induction n generalizing s roq done with
  | zero => exact ⟨s, rfl⟩
  | succ n ih =>
    rw [commitLoop]
    by_cases filled : s.roqNum > 0
    · rw [if_pos filled]
      have num : s.roqNum = roq.length := h.alert.coherent.flow.roqNum
      obtain ⟨d, rest, rfl⟩ := List.exists_cons_of_length_pos (l := roq) (by omega)
      obtain ⟨⟨t, more⟩, first⟩ := commitInst_total h.alert.coherent h.alert.pending h.brq
        (h.trap d List.mem_cons_self)
      rw [first, Option.bind_some]
      cases more with
      | false => exact ⟨t, rfl⟩
      | true =>
        obtain ⟨roq', done', next⟩ := h.commitInst filled first
        exact ih next
    · rw [if_neg filled]
      exact ⟨s, rfl⟩

end Commit

section Branch

/-- The scan of `check_brq` stops in a slot that is taken, or has passed taken slots only. -/
theorem brqScan_some {n i j : Nat}
    (e : s.brqScan cfg n ((s.brqHead + i) % cfg.brqIfqSize) = some j) :
    (∃ rs, s.brq j = some rs) ∨
      (∀ k < n, ∃ rs, s.brq ((s.brqHead + (i + k)) % cfg.brqIfqSize) = some rs) ∧
        j = (s.brqHead + (i + n)) % cfg.brqIfqSize := by
  induction n generalizing i with
  | zero =>
    cases e
    refine .inr ⟨fun k hk => ?_, rfl⟩
    cases hk
  | succ n ih =>
    rw [brqScan] at e
    split at e
    · cases e
    · rename_i rs slot
      split at e
      · cases e
        exact .inl ⟨rs, slot⟩
      · rw [Nat.mod_add_mod, Nat.add_assoc] at e
        rcases ih e with found | ⟨passed, stop⟩
        · exact .inl found
        · refine .inr ⟨fun k hk => ?_, ?_⟩
          · cases k with
            | zero => exact ⟨rs, slot⟩
            | succ k =>
              have next := passed k (Nat.lt_of_succ_lt_succ hk)
              rwa [Nat.add_assoc i, Nat.add_comm 1 k] at next
          · rw [stop, Nat.add_assoc i, Nat.add_comm 1 n]

/-- The scan stops in a slot that is taken. -/
theorem Branches.scanned (h : Branches cfg s roq) (flow : Passage cfg s.place roq done) {j : Nat}
    (e : s.brqScan cfg (s.brqNum + 1).toNat s.brqHead = some j) : ∃ rs, s.brq j = some rs := by
  have rounds : (s.brqNum + 1).toNat = (s.branches roq).length + 1 := by
    rw [h.num]
    omega
  have start : s.brqHead = (s.brqHead + 0) % cfg.brqIfqSize := by
    rcases h.ring.head_lt with zero | low
    · rw [zero, Nat.zero_mod]
    · exact (Nat.mod_eq_of_lt low).symm
  rw [rounds] at e
  by_cases none : s.branches roq = []
  · have empty : s.brq s.brqHead = Option.none := by
      by_contra filled
      obtain ⟨rs, slot⟩ := Option.ne_none_iff_exists'.mp filled
      obtain ⟨here, kind, -⟩ := flow.branch s.brqHead rs slot
      have inside : rs ∈ s.branches roq := List.mem_filter.mpr ⟨here, kind⟩
      rw [none] at inside
      cases inside
    rw [none, List.length_nil, brqScan, empty] at e
    cases e
  · rw [start] at e
    rcases brqScan_some e with found | ⟨passed, stop⟩
    · exact found
    · have few := h.ring.length_le
      have some := List.length_pos_iff.mpr none
      have full : (s.branches roq).length = cfg.brqIfqSize := by
        by_contra room
        obtain ⟨rs, slot⟩ := passed (s.branches roq).length (Nat.lt_succ_self _)
        rw [Nat.zero_add, h.ring.slot _ (by omega),
          List.getElem?_eq_none (Nat.le_refl _)] at slot
        cases slot
      obtain ⟨rs, slot⟩ := passed 1 (by omega)
      refine ⟨rs, ?_⟩
      have round : (s.brqHead + (0 + ((s.branches roq).length + 1))) % cfg.brqIfqSize =
          (s.brqHead + (0 + 1)) % cfg.brqIfqSize := by
        rw [full, show s.brqHead + (0 + (cfg.brqIfqSize + 1)) =
          s.brqHead + (0 + 1) + cfg.brqIfqSize by omega, Nat.add_mod_right]
      rw [stop, round]
      exact slot

theorem checkBrq_total (coherent : Coherent cfg s roq done) (brq : Branches cfg s roq) :
    ∃ t, s.checkBrq cfg = some t := by
  simp only [checkBrq]
  split
  · exact ⟨s, rfl⟩
  · rename_i j scan
    obtain ⟨rs, slot⟩ := brq.scanned coherent.flow scan
    obtain ⟨here, -, -⟩ := coherent.flow.branch j rs slot
    obtain ⟨i, hi, rfl⟩ := List.getElem_of_mem here
    rw [slot, Option.bind_some]
    split
    · rename_i ready
      split
      · rename_i wrong
        simp only [Bool.and_eq_true, Bool.or_eq_true, Bool.not_eq_true'] at ready
        have follows : s.delaySlotIn cfg (s.desc roq[i]) = true :=
          ready.2.resolve_left fun right => absurd (right.symm.trans wrong) Bool.false_ne_true
        have flow : Passage cfg (s.resolved roq[i]).place roq done :=
          (layout_eq.mp (Coherent.layout_resolved roq[i] s)).1 ▸ coherent.flow
        exact brerrRecover_total flow hi (delaySlotIn_next coherent.flow hi follows)
      · exact ⟨_, rfl⟩
    · exact ⟨s, rfl⟩

end Branch

section Writeback

/-- The links that are free. -/
def poolSize (s : Backend) : Nat := s.rslinkFreeList.length

theorem rslinkNew_total (pool : 0 < s.poolSize) (rs : Nat) :
    ∃ id rest, s.rslinkFreeList = id :: rest ∧
      s.rslinkNew rs = some (s.linkTo rs id, { s with rslinkFreeList := rest }) := by
  obtain ⟨id, rest, filled⟩ := List.exists_cons_of_length_pos pool
  refine ⟨id, rest, filled, ?_⟩
  rw [rslinkNew, filled]
  rfl

theorem readyqEnqueue_total (pool : 0 < s.poolSize) (rs : Nat) :
    ∃ t, s.readyqEnqueue rs = some t ∧ t.poolSize + 1 = s.poolSize := by
  obtain ⟨id, rest, filled, new⟩ := rslinkNew_total pool rs
  rw [readyqEnqueue, new]
  refine ⟨_, rfl, ?_⟩
  rw [poolSize, poolSize, filled]
  rfl

theorem eventqQueueEvent_total {rs time : Nat} (pool : 0 < s.poolSize)
    (unfinished : (s.desc rs).completed = false) (later : s.simCycle < time) :
    ∃ id rest, s.rslinkFreeList = id :: rest ∧ s.eventqQueueEvent rs time = some { s with
      rslinkFreeList := rest
      eventQueue := EventQueue.insert false time (s.linkTo rs id) s.eventQueue } := by
  obtain ⟨id, rest, filled, new⟩ := rslinkNew_total pool rs
  refine ⟨id, rest, filled, ?_⟩
  have fits : ¬((s.desc rs).completed || decide (time ≤ s.simCycle)) = true := by
    rw [unfinished, Bool.false_or, decide_eq_true_eq]
    omega
  rw [eventqQueueEvent, if_neg fits, new]
  rfl

/-- A wakeup takes one link at most and gives one back. -/
theorem wakeOne_total {x : Nat × RsLink} (pool : 0 < s.poolSize)
    (waits : s.rslinkValid x.2 = true → (s.desc x.2.rs).idepReady x.1 = false) :
    ∃ t, s.wakeOne x = some t ∧ s.poolSize ≤ t.poolSize := by
  simp only [wakeOne]
  cases valid : s.rslinkValid x.2 with
  | false => exact ⟨_, rfl, Nat.le_succ _⟩
  | true =>
    rw [if_pos rfl, waits valid, if_neg Bool.false_ne_true]
    split
    · obtain ⟨u, entered, less⟩ := readyqEnqueue_total (s := s.ready x) pool x.2.rs
      have same : (s.ready x).poolSize = s.poolSize := rfl
      exact ⟨u.rslinkFree x.2, Option.map_eq_some_iff.mpr ⟨u, entered, rfl⟩, by
        rw [← same, ← less]
        exact Nat.le_refl _⟩
    · exact ⟨_, rfl, Nat.le_succ _⟩

theorem wakeAll_total {f : Nat → Nat → List (Nat × RsLink)} {flight : List Nat} {p out : Nat}
    {l : List (Nat × RsLink)}
    (h : Awake { s.wiring with odep := longer f p out l } s.standby flight)
    (wired : Wired { s.wiring with odep := longer f p out l } flight)
    (waiting : s.Waiting flight) (once : flight.Nodup) (there : p ∈ flight) (low : out ≤ 1)
    (pool : 0 < s.poolSize) : ∃ t, l.foldlM wakeOne s = some t ∧ s.poolSize ≤ t.poolSize := by
  induction l generalizing s with
  | nil => exact ⟨s, rfl, Nat.le_refl _⟩
  | cons x l ih =>
    have held : x ∈ longer f p out (x :: l) p out := by simp [longer]
    obtain ⟨u, first, more⟩ := wakeOne_total pool fun valid => (h.unready wired held valid).2
    obtain ⟨t, rest, most⟩ := ih (awake_wakeOne h wired waiting once there low first)
      (wired_wakeOne wired once there low first) (waiting.wakeOne first)
      (Nat.lt_of_lt_of_le pool more)
    refine ⟨t, ?_, Nat.le_trans more most⟩
    rw [List.foldlM_cons, first]
    exact rest

theorem broadcast_total {flight : List Nat} {rs out : Nat} (h : Awake s.wiring s.standby flight)
    (wired : Wired s.wiring flight) (waiting : s.Waiting flight) (once : flight.Nodup)
    (there : rs ∈ flight) (low : out ≤ 1) (pool : 0 < s.poolSize) :
    ∃ t, s.broadcast rs out = some t ∧ s.poolSize ≤ t.poolSize := by
  simp only [broadcast]
  split
  · exact ⟨s, rfl, Nat.le_refl _⟩
  · obtain ⟨wires, desc⟩ := wiring_updateCreateVector rs s
    have standby : (s.updateCreateVector rs).standby = s.standby := by
      funext d
      rw [Backend.standby, Backend.standby, desc]
    have waits : (s.updateCreateVector rs).Waiting flight := by
      rw [Waiting, desc]
      exact waiting
    have row : longer s.wiring.odep rs out ((s.desc rs).odepList out) = s.wiring.odep :=
      Entering.longer_self s.wiring.odep rs out
    have free : (s.updateCreateVector rs).poolSize = s.poolSize :=
      congrArg (fun w : Wiring => w.free.length) wires
    obtain ⟨u, woken, more⟩ := wakeAll_total (f := s.wiring.odep)
      (l := (s.desc rs).odepList out) (by rw [wires, row, standby]; exact h)
      (by rw [wires, row]; exact wired) waits once there low (free.symm ▸ pool)
    rw [desc, woken]
    exact ⟨_, rfl, free ▸ more⟩

theorem finish_eq {rs : Nat} (ready : (s.desc rs).operandsReady = true)
    (queued : (s.desc rs).queued = false) (issued : (s.desc rs).issued = true)
    (unfinished : (s.desc rs).completed = false) : s.finish rs =
      ((s.finished rs).broadcast rs 0).bind fun u => (u.broadcast rs 1).bind some := by
  have same : (if (s.desc rs).mem = true then
      ((({ s with fuBusy := Function.update s.fuBusy (s.desc rs).fu false } : Backend).modDesc rs
        fun d => if d.ctrl = true then { d with brcompleted := true }
          else { d with completed := true }).modLsq (s.desc rs).lsqid fun l =>
        { l with state := .writeback })
      else ({ s with fuBusy := Function.update s.fuBusy (s.desc rs).fu false } : Backend).modDesc
        rs fun d => if d.ctrl = true then { d with brcompleted := true }
          else { d with completed := true }) = s.finished rs := by
    cases mem : (s.desc rs).mem <;> simp [finished, modDesc, modLsq, mem]
  simp only [finish, ready, queued, issued, unfinished, Bool.not_true, Bool.or_false,
    Bool.false_eq_true, if_false, same]
  rfl

theorem finish_total {flight : List Nat} {rs : Nat} (h : Awake s.wiring s.standby flight)
    (wired : Wired s.wiring flight) (waiting : s.Waiting flight) (once : flight.Nodup)
    (there : rs ∈ flight) (pool : 0 < s.poolSize)
    (ready : (s.desc rs).operandsReady = true) (queued : (s.desc rs).queued = false)
    (issued : (s.desc rs).issued = true) (unfinished : (s.desc rs).completed = false) :
    ∃ t, s.finish rs = some t ∧ s.poolSize ≤ t.poolSize := by
  have standby : (s.finished rs).standby = s.standby := funext fun d => (desc_finished rs s d).1
  have waits : (s.finished rs).Waiting flight := waiting.congr fun d => (desc_finished rs s d).2
  rw [← wiring_finished rs s] at h wired
  rw [← standby] at h
  obtain ⟨u, first, more⟩ :=
    broadcast_total h wired waits once there (Nat.zero_le 1) (s := s.finished rs) pool
  obtain ⟨one, waits'⟩ := awake_broadcast h wired waits once there (Nat.zero_le 1) first
  have wired' := wired_broadcast wired once there (Nat.zero_le 1) first
  obtain ⟨t, second, most⟩ :=
    broadcast_total one wired' waits' once there (Nat.le_refl 1) (Nat.lt_of_lt_of_le pool more)
  refine ⟨t, ?_, Nat.le_trans more most⟩
  rw [finish_eq ready queued issued unfinished, first, Option.bind_some, second]
  rfl

/-- An instruction that has a valid event can leave its unit, unless it has done so. -/
theorem deliver_total {time : Nat} {l : RsLink} {rest : List (Nat × RsLink)}
    (h : Alert cfg s roq done) (sched : Scheduled s roq)
    (queue : s.eventQueue = (time, l) :: rest)
    (fresh : s.rslinkValid l = true → (s.desc l.rs).mem = true →
      (s.desc l.rs).completed = false) :
    ∃ t, s.deliver l rest = some t ∧ s.poolSize < t.poolSize := by
  have start : Awake ({ s with eventQueue := rest }.rslinkFree l).wiring
      ({ s with eventQueue := rest }.rslinkFree l).standby (roq ++ s.decodeData) :=
    awake_same h.awake rfl rfl rfl
  have popped : Wired ({ s with eventQueue := rest }.rslinkFree l).wiring (roq ++ s.decodeData) :=
    h.coherent.wired.deliver queue
  have waits : ({ s with eventQueue := rest }.rslinkFree l).Waiting (roq ++ s.decodeData) :=
    waiting_booked h.coherent.booked
  simp only [Backend.deliver]
  split
  · rename_i valid
    have front : (time, l) ∈ s.eventQueue := by
      rw [queue]
      exact List.mem_cons_self
    obtain ⟨here, reading⟩ := h.coherent.accesses.event _ front valid
    have seated := h.coherent.booked.seated l.rs here
    have working : (s.desc l.rs).issued = true ∧ (s.desc l.rs).completed = false := by
      cases mem : (s.desc l.rs).mem with
      | false =>
        have count := sched.plain l.rs here mem
        have some : 0 < s.eventQueue.countP (s.marks l.rs) := by
          refine List.countP_pos_iff.mpr ⟨_, front, ?_⟩
          rw [marks, valid, beq_self_eq_true]
          rfl
        have running : (s.desc l.rs).running = true := by
          by_contra idle
          rw [if_neg idle] at count
          omega
        simp only [Descript.running, Bool.and_eq_true, Bool.not_eq_true'] at running
        exact running.1
      | true =>
        have unfinished := fresh valid mem
        refine ⟨?_, unfinished⟩
        by_contra idle
        have entering := (sched.enter l.rs here mem).mpr (Bool.eq_false_of_not_eq_true idle)
        rw [show s.lsqState l.rs = _ from reading mem unfinished] at entering
        cases entering
    have trap : (s.desc l.rs).trap = false := by
      apply Bool.eq_false_iff.mpr
      intro trap
      have idle : (s.desc l.rs).issued = false := (seated.trap trap).2.1
      exact absurd (idle.symm.trans working.1) Bool.false_ne_true
    have queued : (s.desc l.rs).queued = !(s.desc l.rs).issued := seated.queued trap
    rw [working.1] at queued
    exact finish_total start popped waits h.coherent.flight_nodup (List.mem_append_left _ here)
      (Nat.zero_lt_succ _) (seated.issued working.1) queued working.1 working.2
  · exact ⟨_, rfl, Nat.lt_succ_self _⟩

end Writeback

end Godson.Backend
