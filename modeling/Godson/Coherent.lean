import Godson.Accesses

/-! Every step of the pipeline keeps all of this at once: where the descriptors are, how the
registers are renamed, where the links are, what the counters count, and how far the memory
operations have come. -/
namespace Godson.Backend

open Mips

variable {cfg : BackendConfig} {s t : Backend} {roq done : List Nat} {d : Nat}

/-- The state of the pipeline with the instructions `roq` in the reorder queue and the
committed memory operations `done`, both from the oldest on. -/
structure Coherent (cfg : BackendConfig) (s : Backend) (roq done : List Nat) : Prop where
  flow : Passage cfg s.place roq done
  ports : s.Ports
  renamed : Renamed s.course roq
  wired : Wired s.wiring (roq ++ s.decodeData)
  booked : Booked s.ledger roq
  accesses : Accesses s roq

/-- The instructions of the reorder queue, from the oldest on. -/
def inRoq (cfg : BackendConfig) (s : Backend) : List Nat :=
  Ring.toList cfg.roqIfqSize s.roq s.roqHead

/-- The branch that `check_brq` finds mispredicted and recovers from. -/
def recovering (cfg : BackendConfig) (s : Backend) : Option Nat :=
  ((s.brqScan cfg (s.brqNum + 1).toNat s.brqHead).bind s.brq).filter fun rs =>
    (s.desc rs).brcompleted && (s.desc rs).misPredict && s.delaySlotIn cfg (s.desc rs)

namespace Coherent

theorem inRoq_eq (h : Coherent cfg s roq done) : s.inRoq cfg = roq := h.flow.ring.toList_eq

theorem flight_nodup (h : Coherent cfg s roq done) : (roq ++ s.decodeData).Nodup :=
  Backend.flight_nodup h.flow

section Commit

/-- A new tag makes the links to an instruction invalid. -/
def bumped (d : Nat) (s : Backend) : Backend := s.modDesc d fun x => { x with tag := x.tag + 1 }

theorem desc_bumped (d e : Nat) (s : Backend) : (bumped d s).desc e =
    { s.desc e with tag := (s.desc e).tag + if e = d then 1 else 0 } := by
  by_cases eq : e = d
  · simp [bumped, eq]
  · simp [bumped, modDesc_of_ne s eq, eq]

theorem bumped_coherent (h : Coherent cfg s roq done) (d : Nat) :
    Coherent cfg (bumped d s) roq done := by
  have layout : (bumped d s).layout = s.layout := layout_modDesc _ rfl
  obtain ⟨place, lsq, -⟩ := layout_eq.mp layout
  have wiring : (bumped d s).wiring =
      { s.wiring with tag := Function.update s.wiring.tag d (s.wiring.tag d + 1) } := by
    simp only [bumped, wiring, modDesc, Wiring.mk.injEq, true_and]
    refine ⟨?_, ?_, ?_, ?_⟩ <;> funext j <;> by_cases eq : j = d <;> simp [eq]
  constructor
  · rw [place]
    exact h.flow
  · exact ports_layout h.ports layout
  · rw [bumped, course_modDesc _ rfl]
    exact h.renamed
  · rw [wiring]
    refine h.wired.recycle (fun e => ?_) fun _ _ => rfl
    by_cases eq : e = d
    · simp [eq]
    · rw [Function.update_of_ne eq]
  · rw [bumped, ledger_modDesc _ rfl]
    exact h.booked
  · refine h.accesses.congr (fun e he => he) (fun e _ => ?_) (fun e _ _ _ => ?_) fun x hx valid => ?_
    · rw [desc_bumped]
      exact ⟨rfl, rfl⟩
    · rw [lsqState, desc_bumped]
      rfl
    · refine ⟨hx, (valid_back h.wired hx ?_ valid).1, id⟩
      rw [desc_bumped]
      exact Nat.le_add_right _ _

/-- The possible rounds of the commit loop: the oldest instruction waits, is marked for
exception, or leaves. -/
theorem commit_cases {more : Bool} (h : Coherent cfg s roq done) (filled : 0 < s.roqNum)
    (e : s.commitInst cfg = some (t, more)) : ∃ d rest, roq = d :: rest ∧
      (t = s ∨ (s.desc d).completed = true ∧ (s.desc d).trap = false ∧
        ((bumped d s).pipelineFlush cfg = some t ∨ (bumped d s).retire cfg d = some t)) := by
  have num : s.roqNum = roq.length := h.flow.roqNum
  obtain ⟨d, rest, rfl⟩ := List.exists_cons_of_length_pos (l := roq) (by omega)
  have head : s.roq s.roqHead = some d := h.flow.ring.slot_head (List.cons_ne_nil d rest)
  refine ⟨d, rest, rfl, ?_⟩
  simp only [commitInst, head, Option.bind_some] at e
  split at e
  · cases e
  · rename_i trap
    split at e
    · cases e
      exact .inl rfl
    · rename_i completed
      refine .inr ⟨by simpa using completed, Bool.eq_false_of_not_eq_true trap, ?_⟩
      split at e
      · obtain ⟨u, flushed, same⟩ := Option.map_eq_some_iff.mp e
        cases same
        exact .inl flushed
      · obtain ⟨u, left, same⟩ := Option.map_eq_some_iff.mp e
        cases same
        exact .inr left

theorem retire (h : Coherent cfg s (d :: roq) done) (completed : (s.desc d).completed = true)
    (e : (bumped d s).retire cfg d = some t) : ∃ done, Coherent cfg t roq done := by
  have before := h.bumped_coherent d
  refine ⟨_, flow_retire before.flow e, ports_retire before.ports e fun mem => ?_,
    renamed_retire h.renamed completed e, ?_, booked_retire h.booked completed e,
    accesses_retire h.accesses h.flow h.wired e⟩
  · rw [desc_bumped] at mem ⊢
    exact h.accesses.done d List.mem_cons_self mem completed
  · have decode : t.decodeData = s.decodeData := by
      obtain ⟨-, -, -, rfl⟩ := retire_some e
      rfl
    rw [decode]
    exact wired_retire h.wired h.flight_nodup e

theorem ports_squashAll {gone : List Nat} (ports : s.Ports)
    (flow : Passage cfg s.place (roq ++ gone) done) (e : s.squashAll cfg gone.length = some t) :
    t.Ports := by
  refine (squashAll_invariant (P := fun roq u => u.Ports ∧ Passage cfg u.place roq done)
    (fun roq d u v h e => ?_) ⟨ports, flow⟩ e).1
  exact ⟨ports_squashLast h.1 h.2 e, flow_squashLast h.2 e⟩

theorem ports_tracerRecover (ports : s.Ports) (flow : Passage cfg s.place roq done) (level : Nat) :
    (s.tracerRecover level).Ports := by
  rw [tracerRecover_eq (decode_nodup flow)]
  exact ports.congr rfl rfl rfl rfl

theorem flush (h : Coherent cfg s roq done) (e : s.pipelineFlush cfg = some t) :
    Coherent cfg t [] done := by
  refine ⟨flow_pipelineFlush h.flow e, ?_, renamed_pipelineFlush h.flow e, ?_,
    booked_pipelineFlush h.booked h.flow e, accesses_pipelineFlush h.accesses h.flow h.wired e⟩
  · obtain ⟨u, dropped, all, rfl⟩ := pipelineFlush_some h.flow e
    have kept := ports_squashAll (ports_tracerRecover h.ports h.flow 0) dropped all
    exact kept.congr rfl rfl rfl rfl
  · obtain ⟨u, dropped, all, rfl⟩ := pipelineFlush_some h.flow e
    have none : u.decodeData = [] := decodeData_squashAll all
    have links := wired_pipelineFlush h.flow h.wired e
    change Wired _ ([] ++ u.decodeData)
    rw [none]
    exact links

theorem ports_brerrRecover (ports : s.Ports) (flow : Passage cfg s.place roq done) {i : Nat}
    (hi : i < roq.length) (slot : i + 1 < roq.length)
    (e : s.brerrRecover cfg roq[i] = some t) : t.Ports := by
  obtain ⟨u, squashed, rfl⟩ := brerrRecover_some flow hi slot e
  generalize lastKept (s.desc roq[i]) i + 1 = n at squashed
  have whole := List.take_append_drop n roq
  rw [← whole] at flow
  rw [← List.length_drop] at squashed
  exact ports_tracerRecover (ports_squashAll ports flow squashed) (flow_squashAll flow squashed) _

end Commit

section Branch

/-- The branch queue resolves nothing, or a branch of the reorder queue. -/
theorem checkBrq_cases (h : Coherent cfg s roq done) (e : s.checkBrq cfg = some t) :
    t = s ∨ ∃ i, ∃ hi : i < roq.length, (s.desc roq[i]).ctrl = true ∧
      (s.desc roq[i]).brcompleted = true ∧
      ((s.desc roq[i]).misPredict = false ∧ t = s.resolved roq[i] ∨
        (s.desc roq[i]).misPredict = true ∧ i + 1 < roq.length ∧
          s.recovering cfg = some roq[i] ∧
          (s.resolved roq[i]).brerrRecover cfg roq[i] = some t) := by
  simp only [checkBrq] at e
  split at e
  · cases e
    exact .inl rfl
  · rename_i j scan
    obtain ⟨rs, slot, e⟩ := Option.bind_eq_some_iff.mp e
    obtain ⟨here, kind, -⟩ := h.flow.branch j rs slot
    obtain ⟨i, hi, rfl⟩ := List.getElem_of_mem here
    split at e
    · rename_i ready
      simp only [Bool.and_eq_true, Bool.or_eq_true, Bool.not_eq_true'] at ready
      refine .inr ⟨i, hi, kind, ready.1, ?_⟩
      split at e
      · rename_i wrong
        have follows : s.delaySlotIn cfg (s.desc roq[i]) = true :=
          ready.2.resolve_left fun right => absurd (right.symm.trans wrong) Bool.false_ne_true
        refine .inr ⟨wrong, delaySlotIn_next h.flow hi follows, ?_, e⟩
        simp [recovering, scan, slot, ready.1, wrong, follows]
      · rename_i right
        cases e
        exact .inl ⟨Bool.eq_false_of_not_eq_true right, rfl⟩
    · cases e
      exact .inl rfl

theorem layout_resolved (rs : Nat) (s : Backend) : (s.resolved rs).layout = s.layout :=
  layout_modDesc _ rfl

theorem wiring_resolved (rs : Nat) (s : Backend) : (s.resolved rs).wiring = s.wiring :=
  wiring_modDesc _ ⟨rfl, rfl, rfl, rfl⟩

theorem right (h : Coherent cfg s roq done) (here : d ∈ roq) (ctrl : (s.desc d).ctrl = true)
    (back : (s.desc d).brcompleted = true) (right : (s.desc d).misPredict = false) :
    Coherent cfg (s.resolved d) roq done := by
  have layout := layout_resolved d s
  refine ⟨(layout_eq.mp layout).1 ▸ h.flow, ports_layout h.ports layout,
    renamed_resolved h.renamed (h.flow.apart here).2.1 back right, ?_,
    booked_resolved h.booked h.flow here back, accesses_resolved h.accesses ctrl⟩
  rw [wiring_resolved]
  exact h.wired

theorem recover (h : Coherent cfg s roq done) {i : Nat} (hi : i < roq.length)
    (slot : i + 1 < roq.length) (ctrl : (s.desc roq[i]).ctrl = true)
    (back : (s.desc roq[i]).brcompleted = true) (wrong : (s.desc roq[i]).misPredict = true)
    (e : (s.resolved roq[i]).brerrRecover cfg roq[i] = some t) :
    Coherent cfg t (roq.take (lastKept (s.desc roq[i]) i + 1)) done := by
  have here : roq[i] ∈ roq := List.getElem_mem hi
  have layout := layout_resolved roq[i] s
  have flow : Passage cfg (s.resolved roq[i]).place roq done := (layout_eq.mp layout).1 ▸ h.flow
  have ports := ports_layout h.ports layout
  have wired : Wired (s.resolved roq[i]).wiring (roq ++ (s.resolved roq[i]).decodeData) := by
    rw [wiring_resolved]
    exact h.wired
  have kept : lastKept ((s.resolved roq[i]).desc roq[i]) i = lastKept (s.desc roq[i]) i := by
    rw [resolved, modDesc_self]
    rfl
  have trap : (s.desc roq[i]).trap = false := by
    by_contra absent
    have none := h.flow.trap_ctrl (Bool.eq_true_of_not_eq_false absent)
    exact absurd (none.symm.trans ctrl) Bool.false_ne_true
  have fresh : (s.desc roq[i]).completed = false := ((h.booked.seated _ here).branch back).2
  have booked := booked_resolved h.booked h.flow here back
  have accesses : Accesses (s.resolved roq[i]) roq := accesses_resolved h.accesses ctrl
  have decode : t.decodeData = [] := by
    obtain ⟨u, -, rfl⟩ := brerrRecover_some flow hi slot e
    rfl
  rw [← kept]
  refine ⟨flow_brerrRecover flow hi slot e, ?_, ?_, ?_, booked_brerrRecover booked flow hi slot e,
    accesses_brerrRecover accesses flow wired hi slot e⟩
  · exact ports_brerrRecover ports flow hi slot e
  · rw [kept]
    exact renamed_brerrRecover h.renamed h.flow hi slot trap back fresh wrong e
  · rw [decode, List.append_nil]
    exact wired_brerrRecover flow wired hi slot e

end Branch

section Writeback

/-- The links leave the event queue one by one. -/
theorem deliver {time : Nat} {l : RsLink} {rest : List (Nat × RsLink)}
    (h : Coherent cfg s roq done) (queue : s.eventQueue = (time, l) :: rest)
    (e : s.deliver l rest = some t) : Coherent cfg t roq done := by
  have popped : Wired ({ s with eventQueue := rest }.rslinkFree l).wiring (roq ++ s.decodeData) :=
    h.wired.deliver queue
  have links := wired_deliver h.wired h.flight_nodup queue e
  have entries := accesses_deliver h.accesses h.flow queue e
  simp only [Backend.deliver] at e
  split at e
  · rename_i valid
    have front : (time, l) ∈ s.eventQueue := by
      rw [queue]
      exact List.mem_cons_self
    obtain ⟨here, read⟩ := h.accesses.event _ front valid
    have held : ((s.desc l.rs).mem → (s.lsq (s.desc l.rs).lsqid).state = LsqState.readcache) := by
      intro mem
      exact read mem (finish_some e).1.2.2.2
    obtain ⟨place, ports⟩ := finish_frame (s := { s with eventQueue := rest }.rslinkFree l)
      ⟨h.ports.issue, h.ports.dcache, h.ports.dtagcmp⟩ e held
    have decode : t.decodeData = s.decodeData := congrArg Place.decodeData place
    have flow : Passage cfg t.place roq done := by
      rw [place]
      exact h.flow
    refine ⟨flow, ports, ?_, ?_, ?_, entries⟩
    · exact renamed_finish (s := { s with eventQueue := rest }.rslinkFree l) h.renamed here
        (h.flow.apart here).2.1 e
    · rw [decode]
      exact links
    · exact booked_finish (s := { s with eventQueue := rest }.rslinkFree l) h.booked h.flow popped
        here ⟨h.ports.issue, h.ports.dcache, h.ports.dtagcmp⟩ held e
  · cases e
    exact ⟨h.flow, ⟨h.ports.issue, h.ports.dcache, h.ports.dtagcmp⟩, h.renamed, links, h.booked,
      entries⟩

end Writeback

section Memory

theorem wiring_dcache (a : LsqAnswer) (s : Backend) : (s.dcache a).wiring = s.wiring := by
  rw [dcache_eq]
  have first : (s.toDtagcmp a).wiring = s.wiring := by
    unfold toDtagcmp
    split <;> rfl
  rw [← first]
  unfold toDcache
  split <;> rfl

theorem ledger_dcache (a : LsqAnswer) (s : Backend) : (s.dcache a).ledger = s.ledger := by
  rw [dcache_eq]
  have first : (s.toDtagcmp a).ledger = s.ledger := by
    unfold toDtagcmp
    split <;> rfl
  rw [← first]
  unfold toDcache
  split <;> rfl

theorem dcache (h : Coherent cfg s roq done) (a : LsqAnswer) :
    Coherent cfg (s.dcache a) roq done := by
  obtain ⟨place, ports⟩ := dcache_frame h.ports a
  have decode : (s.dcache a).decodeData = s.decodeData := congrArg Place.decodeData place
  refine ⟨place ▸ h.flow, ports, course_dcache a s ▸ h.renamed, ?_, ledger_dcache a s ▸ h.booked,
    accesses_dcache h.accesses h.ports a⟩
  rw [decode, wiring_dcache]
  exact h.wired

theorem dtagcmp_same (a : LsqAnswer) (s : Backend) : (s.dtagcmp a).wiring = s.wiring ∧
    (s.dtagcmp a).ledger = s.ledger ∧ (s.dtagcmp a).decodeData = s.decodeData := by
  unfold dtagcmp
  split <;> exact ⟨rfl, rfl, rfl⟩

theorem lsqLook {a : LsqAnswer} (h : Coherent cfg s roq done) (e : s.lsqLook cfg a = some t) :
    Coherent cfg t roq done := by
  obtain ⟨place, ports⟩ := look_frame h.ports e
  have entries := accesses_lsqLook h.accesses h.flow h.ports e
  have decode : t.decodeData = s.decodeData := congrArg Place.decodeData place
  have links : Wired t.wiring (roq ++ s.decodeData) ∧ t.ledger = s.ledger := by
    obtain ⟨wires, ledger, -⟩ := dtagcmp_same a { s with lsqWtbki := s.lsqSelect cfg a }
    generalize looked : ({ s with lsqWtbki := s.lsqSelect cfg a } : Backend).dtagcmp a = u at *
    have wired : Wired (u.markEx a).wiring (roq ++ s.decodeData) := by
      have same : (u.markEx a).wiring = u.wiring := rfl
      rw [same, wires]
      exact h.wired
    have book : (u.markEx a).ledger = s.ledger := ledger
    simp only [Backend.lsqLook, looked] at e
    split at e
    · rename_i i _
      refine ⟨?_, (ledger_eventqQueueEvent e).trans book⟩
      obtain ⟨-, id, pool, -, same⟩ := eventqQueueEvent_some e
      have there : ((u.markEx a).lsq i).rs ∈ roq := by
        by_contra outside
        have front : ((u.markEx a).simCycle + 1,
            (u.markEx a).linkTo ((u.markEx a).lsq i).rs id) ∈ t.eventQueue := by
          rw [same]
          exact EventQueue.mem_insert.mpr (.inl rfl)
        have valid : t.rslinkValid ((u.markEx a).linkTo ((u.markEx a).lsq i).rs id) = true := by
          rw [same]
          exact beq_self_eq_true _
        exact outside (entries.event _ front valid).1
      exact wired_eventqQueueEvent wired (List.mem_append_left _ there) e
    · cases e
      exact ⟨wired, book⟩
  refine ⟨place ▸ h.flow, ports, course_lsqLook e ▸ h.renamed, ?_, links.2 ▸ h.booked, entries⟩
  rw [decode]
  exact links.1

theorem freeOne (h : Coherent cfg s roq done)
    (state : (s.lsq s.lsqHead1).state = LsqState.delay1) :
    ∃ done, Coherent cfg (s.freeOne cfg) roq done := by
  obtain ⟨rest, -, flow⟩ := flow_freeOne h.flow state
  exact ⟨rest, flow, ports_freeOne h.ports state, h.renamed, h.wired, h.booked,
    accesses_freeOne h.accesses state⟩

theorem drainOne (h : Coherent cfg s roq done)
    (head : (s.lsq s.lsqHead).state = LsqState.commit) :
    Coherent cfg (s.drainOne cfg) roq done := by
  obtain ⟨place, ports⟩ := @drainOne_frame cfg s h.ports head
  exact ⟨place ▸ h.flow, ports, h.renamed, h.wired, h.booked, accesses_drainOne h.accesses head⟩

end Memory

section Issue

theorem ledger_nextValidNode (fu : Nat) (s : Backend) : (s.nextValidNode fu).ledger = s.ledger := by
  rw [nextValidNode, rslinkFreeAll_eq]
  rfl

theorem nextValidNode (h : Coherent cfg s roq done) {fu : Nat} (unit : fu < numFu) :
    Coherent cfg (s.nextValidNode fu) roq done := by
  have layout := nextValidNode_layout fu s
  have place := (layout_eq.mp layout).1
  have decode : (s.nextValidNode fu).decodeData = s.decodeData := congrArg Place.decodeData place
  refine ⟨place ▸ h.flow, ports_layout h.ports layout, course_nextValidNode fu s ▸ h.renamed, ?_,
    ledger_nextValidNode fu s ▸ h.booked, ?_⟩
  · rw [decode]
    exact wired_nextValidNode h.wired unit
  · refine accesses_same h.accesses layout (fun d => ?_) ?_ ?_
    · rw [Backend.nextValidNode, rslinkFreeAll_eq]
    · rw [Backend.nextValidNode, rslinkFreeAll_eq]
      rfl
    · rw [Backend.nextValidNode, rslinkFreeAll_eq]
      rfl

theorem choose (h : Coherent cfg s roq done) (fu : Nat) : Coherent cfg (s.choose fu) roq done :=
  ⟨h.flow, ⟨h.ports.issue, h.ports.dcache, h.ports.dtagcmp⟩, h.renamed, wired_choose h.wired fu,
    h.booked, ⟨h.accesses.done, h.accesses.event⟩⟩

/-- An instruction that a unit has chosen is in the reorder queue. -/
theorem chosen_here {fu : Nat} {l : RsLink} (h : Coherent cfg s roq done)
    (which : s.chosen cfg fu = some l) (valid : s.rslinkValid l = true)
    (ready : issuable (s.desc l.rs) = true) : l.rs ∈ roq := by
  have known : s.wiring.Known l := by
    simp only [chosen] at which
    split at which
    · obtain ⟨x, first, rfl⟩ := Option.map_eq_some_iff.mp which
      exact .ready (List.mem_of_mem_head? first)
    · exact .chosen (Option.filter_eq_some_iff.mp which).1
  have there := ((h.wired.known l known).2 (eq_of_beq valid)).1
  simp only [issuable, Bool.and_eq_true] at ready
  exact queued_mapped h.booked there (.inl ready.1.1.2)

theorem issueInst {fu : Nat} {l : RsLink} (h : Coherent cfg s roq done)
    (which : s.chosen cfg fu = some l) (valid : s.rslinkValid l = true)
    (ready : issuable (s.desc l.rs) = true) (e : s.issueInst l = some t) :
    Coherent cfg t roq done := by
  have here := h.chosen_here which valid ready
  obtain ⟨place, ports⟩ := issueInst_frame h.ports e
  have decode : t.decodeData = s.decodeData := congrArg Place.decodeData place
  refine ⟨place ▸ h.flow, ports, course_issueInst e ▸ h.renamed, ?_,
    booked_issueInst h.booked h.flow here ready e, accesses_issueInst h.accesses here e⟩
  rw [decode]
  exact wired_issueInst h.wired (List.mem_append_left _ here) e

end Issue

section Map

theorem ports_mapInst {rest : List Nat} (h : Coherent cfg s roq done)
    (queue : s.decodeData = d :: rest) (space : s.lsqNum < cfg.lsqIfqSize)
    (e : s.mapInst cfg = some t) : t.Ports := by
  have vacant : (s.lsq s.lsqTail).state = LsqState.empty := by
    have free : (s.lsq s.lsqTail).slot = none := h.flow.vacant space
    simpa [LsqItem.slot] using free
  have other {j : Nat} {state : LsqState} (held : (s.lsq j).state = state)
      (busy : state ≠ LsqState.empty) : ((s.placed cfg d rest).lsq j).state = state := by
    have ne : j ≠ s.lsqTail := by
      rintro rfl
      exact busy (held.symm.trans vacant)
    simp only [placed]
    split
    · rw [Function.update_of_ne ne, held]
    · exact held
  have ports : (s.placed cfg d rest).Ports :=
    ⟨fun j hj => other (h.ports.issue j hj) (by simp),
      fun j hj => other (h.ports.dcache j hj) (by simp),
      fun j hj => other (h.ports.dtagcmp j hj) (by simp)⟩
  rw [mapInst_eq cfg queue] at e
  split_ifs at e
  · exact ports_layout ports (layout_readyqEnqueue e)
  · cases e
    exact ports

theorem wired_mapInst {rest flight : List Nat} (h : Wired s.wiring flight) (here : d ∈ flight)
    (queue : s.decodeData = d :: rest) (e : s.mapInst cfg = some t) : Wired t.wiring flight := by
  have seated : Wired (s.placed cfg d rest).wiring flight := wired_placed h
  rw [mapInst_eq cfg queue] at e
  split_ifs at e
  · have odep : t.wiring.odep = (s.placed cfg d rest).wiring.odep := by
      obtain ⟨id, pool, -, wires⟩ := wiring_readyqEnqueue e
      rw [wires]
    have entered := wired_readyqEnqueue (f := (s.placed cfg d rest).wiring.odep) seated here e
    rw [← odep] at entered
    exact entered
  · cases e
    exact seated

theorem mapInst {rest : List Nat} (h : Coherent cfg s roq done)
    (queue : s.decodeData = d :: rest) (room : Room cfg s 1) (e : s.mapInst cfg = some t) :
    Coherent cfg t (roq ++ [d]) done := by
  have slot : s.roqNum < cfg.roqIfqSize := by
    have one := room.roq
    omega
  have space : s.lsqNum < cfg.lsqIfqSize := by
    have one := room.lsq
    omega
  have decode : t.decodeData = rest := (mapInst_next queue e).1
  refine ⟨flow_mapInst h.flow queue slot space e, h.ports_mapInst queue space e,
    renamed_mapInst h.renamed queue e, ?_, booked_mapInst h.booked h.flow queue e,
    accesses_mapInst h.accesses h.flow h.booked queue space e⟩
  have links := h.wired
  rw [queue] at links
  rw [decode, List.append_assoc, List.singleton_append]
  exact wired_mapInst links (by simp) queue e

end Map

section Decode

/-- The branch queue and the counters of resources. -/
structure Counters where
  brq : Nat → Option Nat
  brqHead : Nat
  brqTail : Nat
  brqNum : Int
  intRename : Int
  fpRename : Int
  intIssue : Int
  fpIssue : Int

def counters (s : Backend) : Counters :=
  ⟨s.brq, s.brqHead, s.brqTail, s.brqNum, s.intRenameRegNum, s.fpRenameRegNum, s.intIssueNum,
    s.fpIssueNum⟩

/-- The instructions other than `d` change in nothing but what they wait for. -/
structure Beside (d : Nat) (s t : Backend) : Prop where
  lsq : t.lsq = s.lsq
  event : t.eventQueue = s.eventQueue
  ready : t.readyQueue = s.readyQueue
  fuBusy : t.fuBusy = s.fuBusy
  counters : counters t = counters s
  tag : ∀ j, (t.desc j).tag = (s.desc j).tag
  other : ∀ j ≠ d, (t.desc j).seat = (s.desc j).seat ∧ (t.desc j).standing = (s.desc j).standing

/-- And no instruction is numbered. -/
structure Only (d : Nat) (s t : Backend) : Prop extends Beside d s t where
  instSeq : t.instSeq = s.instSeq
  retired : t.retired = s.retired
  seq : ∀ j, (t.desc j).seq = (s.desc j).seq

namespace Only

variable {u : Backend}

theorem refl (d : Nat) (s : Backend) : Only d s s :=
  ⟨⟨rfl, rfl, rfl, rfl, rfl, fun _ => rfl, fun _ _ => ⟨rfl, rfl⟩⟩, rfl, rfl, fun _ => rfl⟩

theorem trans (h : Only d s t) (h' : Only d t u) : Only d s u where
  lsq := h'.lsq.trans h.lsq
  event := h'.event.trans h.event
  ready := h'.ready.trans h.ready
  fuBusy := h'.fuBusy.trans h.fuBusy
  counters := h'.counters.trans h.counters
  tag j := (h'.tag j).trans (h.tag j)
  other j ne := ⟨(h'.other j ne).1.trans (h.other j ne).1, (h'.other j ne).2.trans (h.other j ne).2⟩
  instSeq := h'.instSeq.trans h.instSeq
  retired := h'.retired.trans h.retired
  seq j := (h'.seq j).trans (h.seq j)

theorem modDesc (d : Nat) (s : Backend) {f : Descript → Descript}
    (same : (f (s.desc d)).tag = (s.desc d).tag ∧ (f (s.desc d)).seq = (s.desc d).seq) :
    Only d s (s.modDesc d f) := by
  refine ⟨⟨rfl, rfl, rfl, rfl, rfl, fun j => ?_, fun j ne => ?_⟩, rfl, rfl, fun j => ?_⟩
  · by_cases eq : j = d
    · rw [eq, modDesc_self, same.1]
    · rw [modDesc_of_ne s eq]
  · rw [modDesc_of_ne s ne]
    exact ⟨rfl, rfl⟩
  · by_cases eq : j = d
    · rw [eq, modDesc_self, same.2]
    · rw [modDesc_of_ne s eq]

/-- The step starts with a change of the instruction itself. -/
theorem after {f : Descript → Descript} (h : Only d (s.modDesc d f) t)
    (same : (f (s.desc d)).tag = (s.desc d).tag ∧ (f (s.desc d)).seq = (s.desc d).seq) :
    Only d s t :=
  (modDesc d s same).trans h

/-- An instruction changes in nothing that is looked at. -/
theorem unseen (d p : Nat) (s : Backend) {f : Descript → Descript}
    (tag : (f (s.desc p)).tag = (s.desc p).tag) (seat : (f (s.desc p)).seat = (s.desc p).seat)
    (standing : (f (s.desc p)).standing = (s.desc p).standing)
    (seq : (f (s.desc p)).seq = (s.desc p).seq) : Only d s (s.modDesc p f) := by
  refine ⟨⟨rfl, rfl, rfl, rfl, rfl, fun j => ?_, fun j _ => ?_⟩, rfl, rfl, fun j => ?_⟩ <;>
    by_cases eq : j = p
  · rw [eq, modDesc_self, tag]
  · rw [modDesc_of_ne s eq]
  · rw [eq, modDesc_self]
    exact ⟨seat, standing⟩
  · rw [modDesc_of_ne s eq]
    exact ⟨rfl, rfl⟩
  · rw [eq, modDesc_self, seq]
  · rw [modDesc_of_ne s eq]

theorem linkIdep {num name : Nat} (e : s.roqLinkIdep d num name = some t) : Only d s t := by
  rcases roqLinkIdep_some e with ⟨-, rfl⟩ | ⟨p, out, id, pool, -, -, -, rfl⟩
  · exact modDesc d s ⟨rfl, rfl⟩
  · have first : Only d s (s.modDesc d fun x =>
        { x with idepReady := Function.update x.idepReady num false }) := modDesc d s ⟨rfl, rfl⟩
    have second : Only d s (s.waitFor d num p out (s.linkTo d id)) :=
      first.trans (unseen d p _ rfl rfl rfl rfl)
    exact ⟨⟨second.lsq, second.event, second.ready, second.fuBusy, second.counters, second.tag, second.other⟩, second.instSeq,
      second.retired, second.seq⟩

theorem installOdep (num name : Nat) (s : Backend) : Only d s (s.roqInstallOdep d num name) := by
  have first : Only d s (s.modDesc d fun x =>
      { x with onames := Function.update x.onames num name
               odepList := Function.update x.odepList num [] }) := modDesc d s ⟨rfl, rfl⟩
  simp only [roqInstallOdep]
  split
  · exact first
  · exact first.trans ⟨⟨rfl, rfl, rfl, rfl, rfl, fun _ => rfl, fun _ _ => ⟨rfl, rfl⟩⟩, rfl, rfl, fun _ => rfl⟩

theorem rename (e : s.rename d = some t) : Only d s t := by
  simp only [Backend.rename] at e
  obtain ⟨u, first, e⟩ := Option.bind_eq_some_iff.mp e
  obtain ⟨v, second, e⟩ := Option.bind_eq_some_iff.mp e
  obtain ⟨w, third, rfl⟩ := Option.map_eq_some_iff.mp e
  exact after ((linkIdep first).trans ((linkIdep second).trans
    ((linkIdep third).trans ((installOdep 0 _ w).trans (installOdep 1 _ _))))) ⟨rfl, rfl⟩

theorem enterLevel (e : s.enterLevel cfg = some t) : Only d s t := by
  rw [Backend.enterLevel] at e
  split_ifs at e
  cases e
  exact ⟨⟨rfl, rfl, rfl, rfl, rfl, fun _ => rfl, fun _ _ => ⟨rfl, rfl⟩⟩, rfl, rfl, fun _ => rfl⟩

theorem enterSpec {o : Outcome} (e : s.enterSpec cfg o d = some t) : Only d s t := by
  have first : Only d s (s.modDesc d fun x =>
      { x with specLevel := s.specLevel, misPredict := false }) := modDesc d s ⟨rfl, rfl⟩
  simp only [Backend.enterSpec] at e
  split at e
  · obtain ⟨u, entered, rfl⟩ := Option.map_eq_some_iff.mp e
    have deeper := first.trans (enterLevel entered)
    exact ⟨⟨deeper.lsq, deeper.event, deeper.ready, deeper.fuBusy, deeper.counters, deeper.tag, deeper.other⟩, deeper.instSeq,
      deeper.retired, deeper.seq⟩
  · split at e
    · have second := first.trans (modDesc d _ (f := fun x => { x with misPredict := true }) ⟨rfl, rfl⟩)
      split at e
      · exact second.trans (enterLevel e)
      · cases e
        exact ⟨⟨second.lsq, second.event, second.ready, second.fuBusy, second.counters, second.tag, second.other⟩, second.instSeq,
      second.retired, second.seq⟩
    · cases e
      exact first

theorem redirect (o : Outcome) (s : Backend) : Only d s (s.redirect o d) := by
  simp only [Backend.redirect]
  split
  · rw [foldl_returnToFreeList]
    exact ⟨⟨rfl, rfl, rfl, rfl, rfl, fun _ => rfl, fun _ _ => ⟨rfl, rfl⟩⟩, rfl, rfl, fun _ => rfl⟩
  · split
    · exact ⟨⟨rfl, rfl, rfl, rfl, rfl, fun _ => rfl, fun _ _ => ⟨rfl, rfl⟩⟩, rfl, rfl, fun _ => rfl⟩
    · exact refl d s

theorem markSlot (e : s.markSlot d = some t) : Only d s t := by
  simp only [Backend.markSlot] at e
  split at e
  · cases e
    exact refl d s
  · split at e
    · cases e
    · cases e
      have marked := modDesc d s (f := fun x =>
        if x.ctrl then { x with ir := nopInst, op := mdSetOpcode nopInst, bd := true }
        else { x with bd := true }) (by split <;> exact ⟨rfl, rfl⟩)
      exact ⟨⟨marked.lsq, marked.event, marked.ready, marked.fuBusy, marked.counters, marked.tag, marked.other⟩, marked.instSeq,
      marked.retired, marked.seq⟩

theorem decodeNext {o : Outcome} (e : s.decodeNext cfg o d = some t) : Only d s t := by
  simp only [Backend.decodeNext] at e
  obtain ⟨u, named, e⟩ := Option.bind_eq_some_iff.mp e
  obtain ⟨v, entered, rfl⟩ := Option.map_eq_some_iff.mp e
  have renamed : Only d s (if (u.desc d).ctrl = true then { u with lastIsBranch := true } else u) := by
    have both : Only d s u := after (rename named) ⟨rfl, rfl⟩
    split
    · exact ⟨⟨both.lsq, both.event, both.ready, both.fuBusy, both.counters, both.tag, both.other⟩, both.instSeq,
      both.retired, both.seq⟩
    · exact both
  have all := (renamed.trans (redirect o _)).trans (enterSpec entered)
  exact ⟨⟨all.lsq, all.event, all.ready, all.fuBusy, all.counters, all.tag, all.other⟩, all.instSeq,
      all.retired, all.seq⟩

theorem decodeInst {o : Nat → Outcome} {rest : List Nat} {more : Bool}
    (queue : s.fetchData = d :: rest) (e : s.decodeInst cfg o = some (t, more)) : Only d s t := by
  simp only [Backend.decodeInst, queue] at e
  obtain ⟨u, marked, e⟩ := Option.bind_eq_some_iff.mp e
  split at e
  · cases e
    exact markSlot marked
  · split at e
    · cases e
    · obtain ⟨v, decoded, same⟩ := Option.map_eq_some_iff.mp e
      cases same
      exact (markSlot marked).trans (decodeNext decoded)

end Only

namespace Beside

theorem pushed (ir : Word) (op : Op) (trap : Bool) (s : Backend) :
    Beside s.getFromFreeList.1 s (s.pushed cfg ir op trap) := by
  obtain ⟨d, free, fresh, got, -⟩ := getFromFreeList_some s
  rw [Backend.pushed, got]
  refine ⟨rfl, rfl, rfl, rfl, rfl, fun j => ?_, fun j ne => ?_⟩
  · by_cases eq : j = d <;> simp [newInst, fetchPush, eq, modDesc]
  · have other : j ≠ d := ne
    simp [newInst, fetchPush, modDesc, other]

/-- The operations in the load/store queue do not see it. -/
theorem accesses (h : Beside d s t) (entries : Accesses s roq) (outside : d ∉ roq) :
    Accesses t roq := by
  refine accesses_front entries h.lsq (fun j hj => ?_) h.event (funext h.tag)
  have ne : j ≠ d := by
    rintro rfl
    exact outside hj
  exact ⟨(h.other j ne).1, congrArg Standing.completed (h.other j ne).2⟩

end Beside

/-- What the create vector names is in flight. -/
theorem vector (h : Coherent cfg s roq done) : ∀ name ≠ 0, ∀ p out,
    s.createVector s.specLevel name = some (p, out) → p ∈ roq ++ s.decodeData ∧ out ≤ 1 := by
  intro name named p out found
  have same := h.renamed.named s.specLevel (Nat.lt_succ_self _) name named
  obtain ⟨here, rfl, -⟩ := entry_some (same.symm.trans found)
  exact ⟨(List.mem_filter.mp here).1, Nat.zero_le 1⟩

theorem decodeInst {o : Nat → Outcome} {rest : List Nat} {more : Bool}
    (h : Coherent cfg s roq done) (queue : s.fetchData = d :: rest)
    (e : s.decodeInst cfg o = some (t, more)) : Coherent cfg t roq done := by
  obtain ⟨flow, ports⟩ := flow_decodeInst h.flow h.ports queue e
  refine ⟨flow, ports, renamed_decodeInst h.renamed h.flow queue e, ?_,
    booked_decodeInst h.booked h.flow queue e,
    (Only.decodeInst queue e).toBeside.accesses h.accesses (front_apart h.flow queue)⟩
  have outside : d ∉ roq ++ s.decodeData := fun hd =>
    flight_fetched h.flow d hd (queue ▸ List.mem_cons_self)
  simp only [Backend.decodeInst, queue] at e
  obtain ⟨u, marked, e⟩ := Option.bind_eq_some_iff.mp e
  obtain ⟨flow', -, decode, -⟩ := flow_markSlot h.flow queue marked
  have links : Wired u.wiring (roq ++ u.decodeData) := by
    rw [decode, wiring_markSlot marked]
    exact h.wired
  split at e
  · cases e
    exact links
  · split at e
    · cases e
    · obtain ⟨v, decoded, same⟩ := Option.map_eq_some_iff.mp e
      cases same
      have named := (renamed_markSlot h.renamed h.flow queue marked).1
      have found : ∀ name ≠ 0, ∀ p out, u.createVector u.specLevel name = some (p, out) →
          p ∈ roq ++ u.decodeData ∧ out ≤ 1 := by
        intro name nonzero p out entry
        have same := named.named u.specLevel (Nat.lt_succ_self _) name nonzero
        obtain ⟨here, rfl, -⟩ := entry_some (same.symm.trans entry)
        exact ⟨(List.mem_filter.mp here).1, Nat.zero_le 1⟩
      obtain ⟨free, fetch, moved, -⟩ := decodeNext_place decoded
      have decode' : t.decodeData = u.decodeData ++ [d] := congrArg Place.decodeData moved
      rw [decode']
      exact wired_decodeNext links (Backend.flight_nodup flow') (decode ▸ outside) found decoded

end Decode

section Fetch

/-- What does not see the instructions in front of the reorder queue does not see a fetch. -/
theorem fetchInst_beside {P : Backend → Prop} (h : Coherent cfg s roq done) (f : Fetched)
    (free : s.fetchData.length < cfg.fetchIfqSize) (room : FetchRoom cfg f s.fetchData.length)
    (beside : ∀ u v d, P u → Beside d u v → d ∉ roq → P v) (start : P s) :
    P (s.fetchInst cfg f).1 := by
  obtain ⟨ir, invalid, cases⟩ := fetchInst_cases f room
  have nop : (!f.valid) = true → mdSetOpcode ir = mdSetOpcode nopInst := by
    intro bad
    rw [Bool.not_eq_true'] at bad
    rw [invalid bad]
  have first : P (s.pushed cfg ir (mdSetOpcode ir) (!f.valid)) :=
    beside _ _ _ start (Beside.pushed ir _ _ s) (got_apart h.flow).2.2.1
  rcases cases with ⟨d, l, fresh, -, moved⟩ | moved | ⟨half, -, moved⟩ <;> rw [moved]
  · exact beside s _ _ start ⟨rfl, rfl, rfl, rfl, rfl, fun _ => rfl, fun _ _ => ⟨rfl, rfl⟩⟩
      (got_apart h.flow).2.2.1
  · exact first
  · have flow := flow_pushed h.flow free ir nop
    exact beside _ _ _ first (Beside.pushed ir half false _) (got_apart flow).2.2.1

theorem accesses_fetchInst (h : Coherent cfg s roq done) (f : Fetched)
    (free : s.fetchData.length < cfg.fetchIfqSize)
    (room : FetchRoom cfg f s.fetchData.length) : Accesses (s.fetchInst cfg f).1 roq :=
  h.fetchInst_beside (P := fun u => Accesses u roq) f free room
    (fun _ _ _ entries same outside => same.accesses entries outside) h.accesses

theorem wired_fetchInst (h : Coherent cfg s roq done) (f : Fetched)
    (free : s.fetchData.length < cfg.fetchIfqSize) (room : FetchRoom cfg f s.fetchData.length) :
    Wired (s.fetchInst cfg f).1.wiring (roq ++ (s.fetchInst cfg f).1.decodeData) := by
  obtain ⟨ir, invalid, cases⟩ := fetchInst_cases f room
  have nop : (!f.valid) = true → mdSetOpcode ir = mdSetOpcode nopInst := by
    intro bad
    rw [Bool.not_eq_true'] at bad
    rw [invalid bad]
  have first : Wired (s.pushed cfg ir (mdSetOpcode ir) (!f.valid)).wiring
      (roq ++ (s.pushed cfg ir (mdSetOpcode ir) (!f.valid)).decodeData) := by
    rw [decodeData_pushed]
    exact wired_pushed h.flow h.wired ir _ _
  rcases cases with ⟨d, l, fresh, -, moved⟩ | moved | ⟨half, -, moved⟩ <;> rw [moved]
  · exact h.wired
  · exact first
  · have flow := flow_pushed h.flow free ir nop
    rw [decodeData_pushed]
    exact wired_pushed flow first ir half false

theorem fetchInst (h : Coherent cfg s roq done) (f : Fetched)
    (free : s.fetchData.length < cfg.fetchIfqSize) (room : FetchRoom cfg f s.fetchData.length) :
    Coherent cfg (s.fetchInst cfg f).1 roq done := by
  obtain ⟨flow, ports⟩ := flow_fetchInst h.flow h.ports f free room
  exact ⟨flow, ports, renamed_fetchInst h.renamed h.flow f free room, h.wired_fetchInst f free room,
    booked_fetchInst h.booked h.flow f free room, h.accesses_fetchInst f free room⟩

end Fetch

section Runs

/-- The pipeline starts empty. -/
theorem start (cfg : BackendConfig) : Coherent cfg Backend.start [] [] := by
  constructor
  case flow =>
    constructor
    case ring => exact Ring.Holds.nil _
    case memory => exact Ring.Holds.nil _
    case own =>
      intro d
      have once : Backend.start.freeList.count d ≤ if d < Backend.start.fresh then 1 else 0 := by
        have most : Backend.start.freeList.count d ≤ 1 :=
          List.nodup_iff_count_le_one.mp (by decide) d
        by_cases here : d ∈ Backend.start.freeList
        · have low : ∀ d ∈ Backend.start.freeList, d < Backend.start.fresh := by decide
          rw [if_pos (low d here)]
          exact most
        · rw [List.count_eq_zero.mpr here]
          exact Nat.zero_le _
      exact once
    case nop =>
      intro d absent
      cases absent
    all_goals first | rfl | simp [place, Backend.start, getFromFreeList, LsqItem.slot]
  case ports => constructor <;> intro j hj <;> cases hj
  case renamed =>
    constructor
    case levels => constructor <;> simp [course, Backend.start, getFromFreeList]
    case front => simp [course, Backend.start, getFromFreeList]
    case second => simp [course, Backend.start, getFromFreeList]
    case named =>
      intro level _ name _
      rfl
  case wired =>
    constructor
    case pool =>
      have free : Backend.start.wiring.ids [] = (List.range maxRsLinks).reverse := by
        simp [Wiring.ids, wiring, Backend.start, getFromFreeList, linkIds]
      change (Backend.start.wiring.ids []).Perm _
      rw [free]
      exact List.reverse_perm _
    case known =>
      intro l known
      cases known with
      | ready h => cases h
      | chosen h => cases h
      | event h => cases h
      | odep h => cases h
    all_goals simp [wiring, Backend.start, getFromFreeList, numFu]
  case booked =>
    constructor <;> simp [ledger, Backend.start, getFromFreeList]
  case accesses =>
    constructor <;> simp [Backend.start, getFromFreeList]

theorem tick (h : Coherent cfg s roq done) :
    Coherent cfg { s with simCycle := s.simCycle + 1 } roq done :=
  ⟨h.flow, ⟨h.ports.issue, h.ports.dcache, h.ports.dtagcmp⟩, h.renamed, h.wired, h.booked,
    ⟨h.accesses.done, h.accesses.event⟩⟩

theorem releaseFu (h : Coherent cfg s roq done) : Coherent cfg s.releaseFu roq done :=
  ⟨h.flow, ⟨h.ports.issue, h.ports.dcache, h.ports.dtagcmp⟩, h.renamed, h.wired, h.booked,
    ⟨h.accesses.done, h.accesses.event⟩⟩

/-- What every step keeps. -/
def Ordered (cfg : BackendConfig) (s : Backend) : Prop := ∃ roq done, Coherent cfg s roq done

theorem micro {tight : Prop} {safe : Backend → Prop} (h : Coherent cfg s roq done)
    (step : Micro cfg tight safe s t) : Ordered cfg t := by
  cases step with
  | tick => exact ⟨roq, done, h.tick⟩
  | releaseFu => exact ⟨roq, done, h.releaseFu⟩
  | commit filled e =>
    obtain ⟨d, rest, rfl, same | ⟨completed, -, flushed | left⟩⟩ := h.commit_cases filled e
    · exact ⟨_, done, same ▸ h⟩
    · exact ⟨[], done, (h.bumped_coherent d).flush flushed⟩
    · obtain ⟨done, next⟩ := h.retire completed left
      exact ⟨rest, done, next⟩
  | checkBrq _ e =>
    rcases h.checkBrq_cases e with same | ⟨i, hi, ctrl, back, ⟨right, same⟩ | ⟨wrong, slot, -, e⟩⟩
    · exact ⟨roq, done, same ▸ h⟩
    · exact ⟨roq, done, same ▸ h.right (List.getElem_mem hi) ctrl back right⟩
    · exact ⟨_, done, h.recover hi slot ctrl back wrong e⟩
  | deliver queue e => exact ⟨roq, done, h.deliver queue e⟩
  | lsqLook a e => exact ⟨roq, done, h.lsqLook e⟩
  | freeOne state =>
    obtain ⟨done, next⟩ := h.freeOne state
    exact ⟨roq, done, next⟩
  | drainOne head => exact ⟨roq, done, h.drainOne head⟩
  | dcache a => exact ⟨roq, done, h.dcache a⟩
  | nextValidNode unit => exact ⟨roq, done, h.nextValidNode unit⟩
  | choose fu => exact ⟨roq, done, h.choose fu⟩
  | issueInst which valid ready _ _ e => exact ⟨roq, done, h.issueInst which valid ready e⟩
  | mapInst queue room _ e => exact ⟨_, done, h.mapInst queue room e⟩
  | decodeInst o queue e => exact ⟨roq, done, h.decodeInst queue e⟩
  | fetchInst f free room => exact ⟨roq, done, h.fetchInst f free room⟩

theorem single (h : Coherent cfg s roq done) : ∀ d ∈ s.decodeData, (s.desc d).onames 1 = 0 :=
  fun d hd => h.renamed.second d (List.mem_append_right roq hd)

/-- The order holds in every state of a run in which the fetch queue does not overflow. -/
theorem reachable {C : Backend → Stage → Prop} (fits : ∀ s a, C s a → Fits cfg s a)
    (h : Reachable cfg C s) : Ordered cfg s := by
  have room : ∀ s a, C s a → Fits cfg s a ∧ (False → BranchesFit cfg s a) ∧
      (a = .checkBrq → True) := fun s a meets => ⟨fits s a meets, False.elim, fun _ => trivial⟩
  refine reachable_invariant (I := Ordered cfg) room ⟨[], [], start cfg⟩ ?_ ?_ ?_ h
  · rintro s t ⟨roq, done, coherent⟩ step
    exact coherent.micro step
  · rintro s ⟨roq, done, coherent⟩
    exact coherent.ports
  · rintro s ⟨roq, done, coherent⟩
    exact coherent.single

end Runs

end Coherent

section Programs

/-- The stages of a list run one after the other, each where it is allowed. -/
def runs (cfg : BackendConfig) (allowed : Backend → Stage → Bool) (l : List Stage)
    (s : Backend) : Option Backend :=
  l.foldlM (fun s a => if allowed s a then s.stage cfg a else none) s

theorem reachable_runs {C : Backend → Stage → Prop} {allowed : Backend → Stage → Bool}
    (sound : ∀ s a, allowed s a = true → C s a) {l : List Stage} (h : Reachable cfg C s)
    (e : runs cfg allowed l s = some t) : Reachable cfg C t := by
  induction l generalizing s with
  | nil =>
    cases e
    exact h
  | cons a l ih =>
    obtain ⟨u, first, e⟩ := Option.bind_eq_some_iff.mp e
    rw [Option.ite_none_right_eq_some] at first
    exact ih (h.step (sound s a first.1) first.2) e

/-- Two additions, the second of which needs the first, a branch that is mispredicted, its
delay slot and an addition behind it. -/
def depending : List Stage :=
  let outcome : Nat → Outcome := fun n => { wrong := n == 2 }
  [.fetch [⟨0x00221821#32, true⟩, ⟨0x00632021#32, true⟩, ⟨0x10000002#32, true⟩, ⟨nopInst, true⟩],
    .decode outcome, .fetch [⟨0x00221821#32, true⟩], .map, .decode outcome]

/-- The first addition commits. -/
def dependingCommit : List Stage :=
  depending ++ [.issue, .issue, .tick, .writeback, .checkBrq, .tick, .commit]

theorem reachable_shipped {α : Type} {f : Backend → α} {l : List Stage} {v : α}
    (e : (runs {} (fun _ _ => true) l Backend.start).map f = some v) :
    ∃ t, Reachable {} (Fits {}) t ∧ f t = v := by
  obtain ⟨t, moved, same⟩ := Option.map_eq_some_iff.mp e
  exact ⟨t, reachable_runs (fun s a _ => fits_same {} rfl s a) .start moved, same⟩

end Programs

end Godson.Backend
