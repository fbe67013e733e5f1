import Godson.RsLinks
import Godson.Renaming

/-! How far each instruction has come, and the counters of the resources that the
instructions in the reorder queue hold. -/
namespace Godson

open Mips

/-- What the pipeline knows of the progress of an instruction. -/
structure Standing where
  ir : Word
  op : Op
  trap : Bool
  fu : Fu
  inIntq : Bool
  usedInt : Nat
  usedFp : Nat
  onames : Nat → Nat
  mapped : Bool
  queued : Bool
  issued : Bool
  completed : Bool
  brcompleted : Bool
  ready : Bool

namespace Standing

def ctrl (d : Standing) : Bool := d.op.has .ctrl

/-- The class of the function unit that serves an instruction. -/
def cls (d : Standing) : FuClass :=
  if !d.trap && d.op.fuClass != .na then d.op.fuClass else .intALU

/-- The integer rename registers of the outputs. -/
def intRegs (d : Standing) : Nat :=
  (if d.onames 0 ≠ 0 ∧ (d.onames 0 < 32 ∨ d.onames 0 = dhi) then 1 else 0) +
    (if d.onames 1 ≠ 0 ∧ (d.onames 1 < 32 ∨ d.onames 1 = dlo) then 1 else 0)

/-- The floating-point rename registers of the outputs. -/
def fpRegs (d : Standing) : Nat :=
  (if d.onames 0 ≠ 0 ∧ ¬(d.onames 0 < 32 ∨ d.onames 0 = dhi) then 1 else 0) +
    (if d.onames 1 ≠ 0 ∧ ¬(d.onames 1 < 32 ∨ d.onames 1 = dlo) then 1 else 0)

/-- An instruction in front of the reorder queue. -/
structure Idle (d : Standing) : Prop where
  mapped : d.mapped = false
  queued : d.queued = false
  issued : d.issued = false
  completed : d.completed = false
  brcompleted : d.brcompleted = false
  nop : d.trap → d.ir = nopInst ∧ d.op = mdSetOpcode nopInst

/-- An instruction in the reorder queue. -/
structure Seated (d : Standing) : Prop where
  mapped : d.mapped = true
  trap : d.trap → d.queued = false ∧ d.issued = false ∧ d.ready = true
  queued : d.trap = false → d.queued = !d.issued
  issued : d.issued → d.ready
  done : d.completed ∨ d.brcompleted → d.issued
  branch : d.brcompleted → d.ctrl ∧ d.completed = false
  cls : d.fu.cls = d.cls
  unit : d.fu.unit ∈ d.fu.cls.units
  intq : d.inIntq = d.op.isIntq
  usedInt : d.usedInt = d.intRegs
  usedFp : d.usedFp = d.fpRegs

/-- The instruction has a place in the integer issue queue. -/
def inIntIssue (d : Standing) : Bool := d.queued && d.inIntq

/-- The instruction has a place in the floating-point issue queue. -/
def inFpIssue (d : Standing) : Bool := d.queued && !d.inIntq

end Standing

def Descript.standing (d : Descript) : Standing :=
  ⟨d.ir, d.op, d.trap, d.fu, d.inIntq, d.usedIntRenameReg, d.usedFpRenameReg, d.onames, d.mapped,
    d.queued, d.issued, d.completed, d.brcompleted, d.operandsReady⟩

/-- The instructions with their progress, and the counters of resources. -/
structure Ledger where
  standing : Nat → Standing
  fetchData : List Nat
  decodeData : List Nat
  intRename : Int
  fpRename : Int
  intIssue : Int
  fpIssue : Int

def Backend.ledger (s : Backend) : Ledger :=
  ⟨fun d => (s.desc d).standing, s.fetchData, s.decodeData, s.intRenameRegNum, s.fpRenameRegNum,
    s.intIssueNum, s.fpIssueNum⟩

/-- The progress of all instructions, with `roq` in the reorder queue. -/
structure Booked (l : Ledger) (roq : List Nat) : Prop where
  fetched : ∀ d ∈ l.fetchData, (l.standing d).Idle
  decoded : ∀ d ∈ l.decodeData, (l.standing d).Idle ∧
    ((l.standing d).trap → (l.standing d).ready)
  seated : ∀ d ∈ roq, (l.standing d).Seated
  intRename : l.intRename = (roq.map fun d => (l.standing d).usedInt).sum
  fpRename : l.fpRename = (roq.map fun d => (l.standing d).usedFp).sum
  intIssue : l.intIssue = roq.countP fun d => (l.standing d).inIntIssue
  fpIssue : l.fpIssue = roq.countP fun d => (l.standing d).inFpIssue

/-- One element of a list changes. -/
theorem countP_update {α : Type} {l : List Nat} {d : Nat} (once : l.Nodup) (here : d ∈ l)
    (f : Nat → α) (e : α) (p : α → Bool) :
    (l.countP fun j => p (Function.update f d e j)) + (if p (f d) then 1 else 0) =
      (l.countP fun j => p (f j)) + if p e then 1 else 0 := by
  induction l with
  | nil => cases here
  | cons j l ih =>
    obtain ⟨new, rest⟩ := List.nodup_cons.mp once
    rw [List.countP_cons, List.countP_cons]
    rcases List.mem_cons.mp here with rfl | here
    · have same : (l.countP fun j => p (Function.update f d e j)) = l.countP fun j => p (f j) :=
        List.countP_congr fun j hj => by
          rw [Function.update_of_ne]
          rintro rfl
          exact new hj
      rw [same, Function.update_self]
      omega
    · have ne : j ≠ d := by
        rintro rfl
        exact new here
      have ih := ih rest here
      rw [Function.update_of_ne ne]
      omega

namespace Booked

variable {l l' : Ledger} {roq : List Nat} {d : Nat}

/-- What the counters say depends on the instructions in the reorder queue only. -/
theorem congr (h : Booked l roq) (fetched : ∀ d ∈ l'.fetchData, (l'.standing d).Idle)
    (decoded : ∀ d ∈ l'.decodeData, (l'.standing d).Idle ∧
      ((l'.standing d).trap → (l'.standing d).ready))
    (same : ∀ d ∈ roq, l'.standing d = l.standing d) (intRename : l'.intRename = l.intRename)
    (fpRename : l'.fpRename = l.fpRename) (intIssue : l'.intIssue = l.intIssue)
    (fpIssue : l'.fpIssue = l.fpIssue) : Booked l' roq := by
  have sums (f : Standing → Nat) : (roq.map fun d => f (l'.standing d)) =
      roq.map fun d => f (l.standing d) := List.map_congr_left fun d hd => by rw [same d hd]
  have counts (p : Standing → Bool) : (roq.countP fun d => p (l'.standing d)) =
      roq.countP fun d => p (l.standing d) := List.countP_congr fun d hd => by rw [same d hd]
  constructor
  case fetched => exact fetched
  case decoded => exact decoded
  case seated =>
    intro d hd
    rw [same d hd]
    exact h.seated d hd
  case intRename => rw [intRename, h.intRename, sums Standing.usedInt]
  case fpRename => rw [fpRename, h.fpRename, sums Standing.usedFp]
  case intIssue => rw [intIssue, h.intIssue, counts Standing.inIntIssue]
  case fpIssue => rw [fpIssue, h.fpIssue, counts Standing.inFpIssue]

/-- The instructions in front of the reorder queue change. -/
theorem front (h : Booked l roq) {standing : Nat → Standing} {fetch decode : List Nat}
    (fetched : ∀ d ∈ fetch, (standing d).Idle)
    (decoded : ∀ d ∈ decode, (standing d).Idle ∧ ((standing d).trap → (standing d).ready))
    (same : ∀ d ∈ roq, standing d = l.standing d) :
    Booked { l with standing := standing, fetchData := fetch, decodeData := decode } roq :=
  h.congr fetched decoded same rfl rfl rfl rfl

/-- An instruction enters the reorder queue. -/
theorem map {rest : List Nat} (h : Booked l roq) (queue : l.decodeData = d :: rest)
    (apart : d ∉ roq) (once : d ∉ rest) (fetched : d ∉ l.fetchData) {e : Standing}
    (seated : e.Seated) : Booked { l with
      standing := Function.update l.standing d e
      decodeData := rest
      intRename := l.intRename + e.usedInt
      fpRename := l.fpRename + e.usedFp
      intIssue := l.intIssue + if e.inIntIssue then 1 else 0
      fpIssue := l.fpIssue + if e.inFpIssue then 1 else 0 } (roq ++ [d]) := by
  have old {j : Nat} (hj : j ≠ d) : Function.update l.standing d e j = l.standing j :=
    Function.update_of_ne hj ..
  have inside {j : Nat} (hj : j ∈ roq) : j ≠ d := by
    rintro rfl
    exact apart hj
  constructor
  case fetched =>
    intro j hj
    have ne : j ≠ d := by
      rintro rfl
      exact fetched hj
    simp only [old ne]
    exact h.fetched j hj
  case decoded =>
    intro j hj
    have ne : j ≠ d := by
      rintro rfl
      exact once hj
    simp only [old ne]
    exact h.decoded j (queue ▸ List.mem_cons_of_mem _ hj)
  case seated =>
    intro j hj
    rcases List.mem_append.mp hj with hj | hj
    · simp only [old (inside hj)]
      exact h.seated j hj
    · obtain rfl := List.mem_singleton.mp hj
      simpa using seated
  case intRename =>
    have before : (roq.map fun j => (Function.update l.standing d e j).usedInt) =
        roq.map fun j => (l.standing j).usedInt :=
      List.map_congr_left fun j hj => by rw [old (inside hj)]
    simp [before, h.intRename]
  case fpRename =>
    have before : (roq.map fun j => (Function.update l.standing d e j).usedFp) =
        roq.map fun j => (l.standing j).usedFp :=
      List.map_congr_left fun j hj => by rw [old (inside hj)]
    simp [before, h.fpRename]
  case intIssue =>
    have before : (roq.countP fun j => (Function.update l.standing d e j).inIntIssue) =
        roq.countP fun j => (l.standing j).inIntIssue :=
      List.countP_congr fun j hj => by rw [old (inside hj)]
    simp [List.countP_append, before, h.intIssue, List.countP_cons]
  case fpIssue =>
    have before : (roq.countP fun j => (Function.update l.standing d e j).inFpIssue) =
        roq.countP fun j => (l.standing j).inFpIssue :=
      List.countP_congr fun j hj => by rw [old (inside hj)]
    simp [List.countP_append, before, h.fpIssue, List.countP_cons]

/-- One of the instructions in the reorder queue makes progress. -/
theorem update (h : Booked l roq) (once : roq.Nodup) (here : d ∈ roq) (fetched : d ∉ l.fetchData)
    (decoded : d ∉ l.decodeData) {e : Standing} (seated : e.Seated)
    (usedInt : e.usedInt = (l.standing d).usedInt) (usedFp : e.usedFp = (l.standing d).usedFp) :
    Booked { l with
      standing := Function.update l.standing d e
      intIssue := l.intIssue + (if e.inIntIssue then 1 else 0) -
        if (l.standing d).inIntIssue then 1 else 0
      fpIssue := l.fpIssue + (if e.inFpIssue then 1 else 0) -
        if (l.standing d).inFpIssue then 1 else 0 } roq := by
  have old {j : Nat} (hj : j ≠ d) : Function.update l.standing d e j = l.standing j :=
    Function.update_of_ne hj ..
  have sums (f : Standing → Nat) (same : f e = f (l.standing d)) :
      (roq.map fun j => f (Function.update l.standing d e j)) =
        roq.map fun j => f (l.standing j) := by
    refine List.map_congr_left fun j _ => ?_
    by_cases eq : j = d
    · rw [eq, Function.update_self, same]
    · rw [old eq]
  constructor
  case fetched =>
    intro j hj
    have ne : j ≠ d := by
      rintro rfl
      exact fetched hj
    simp only [old ne]
    exact h.fetched j hj
  case decoded =>
    intro j hj
    have ne : j ≠ d := by
      rintro rfl
      exact decoded hj
    simp only [old ne]
    exact h.decoded j hj
  case seated =>
    intro j hj
    by_cases eq : j = d
    · simpa [eq] using seated
    · simp only [old eq]
      exact h.seated j hj
  case intRename => rw [sums Standing.usedInt usedInt, h.intRename]
  case fpRename => rw [sums Standing.usedFp usedFp, h.fpRename]
  case intIssue =>
    have moved := countP_update once here l.standing e Standing.inIntIssue
    simp only [h.intIssue]
    split_ifs at moved ⊢ <;> omega
  case fpIssue =>
    have moved := countP_update once here l.standing e Standing.inFpIssue
    simp only [h.fpIssue]
    split_ifs at moved ⊢ <;> omega

/-- The oldest instruction leaves. -/
theorem retire (h : Booked l (d :: roq)) (done : (l.standing d).completed) : Booked { l with
    intRename := l.intRename - (l.standing d).usedInt
    fpRename := l.fpRename - (l.standing d).usedFp } roq := by
  have seat := h.seated d List.mem_cons_self
  have issued := seat.done (.inl done)
  have idle : (l.standing d).queued = false := by
    cases trap : (l.standing d).trap with
    | true => exact (seat.trap trap).1
    | false => rw [seat.queued trap, issued]; rfl
  constructor
  case fetched => exact h.fetched
  case decoded => exact h.decoded
  case seated => exact fun j hj => h.seated j (List.mem_cons_of_mem _ hj)
  case intRename => simp [h.intRename]
  case fpRename => simp [h.fpRename]
  case intIssue => simp [h.intIssue, Standing.inIntIssue, idle]
  case fpIssue => simp [h.fpIssue, Standing.inFpIssue, idle]

/-- The youngest instruction is squashed. -/
theorem squash (h : Booked l (roq ++ [d])) : Booked { l with
    intRename := l.intRename - (l.standing d).usedInt
    fpRename := l.fpRename - (l.standing d).usedFp
    intIssue := l.intIssue - if (l.standing d).inIntIssue then 1 else 0
    fpIssue := l.fpIssue - if (l.standing d).inFpIssue then 1 else 0 } roq where
  fetched := h.fetched
  decoded := h.decoded
  seated j hj := h.seated j (List.mem_append_left _ hj)
  intRename := by simp [h.intRename]
  fpRename := by simp [h.fpRename]
  intIssue := by
    simp only [h.intIssue, List.countP_append, List.countP_singleton]
    split <;> simp
  fpIssue := by
    simp only [h.fpIssue, List.countP_append, List.countP_singleton]
    split <;> simp

end Booked

namespace Backend

variable {cfg : BackendConfig} {s t : Backend} {roq done : List Nat} {d : Nat}

section Frames

theorem standing_update (f : Nat → Descript) (i : Nat) (d : Descript) :
    (fun j => (Function.update f i d j).standing) =
      Function.update (fun j => (f j).standing) i d.standing := by
  funext j
  by_cases same : j = i <;> simp [same]

theorem ledger_modDesc {rs : Nat} (f : Descript → Descript)
    (same : (f (s.desc rs)).standing = (s.desc rs).standing) :
    (s.modDesc rs f).ledger = s.ledger := by
  have all : (fun j => (Function.update s.desc rs (f (s.desc rs)) j).standing) =
      fun j => (s.desc j).standing := by
    rw [standing_update, same]
    exact Function.update_eq_self ..
  simp only [ledger, modDesc, all]

theorem ledger_readyqEnqueue {rs : Nat} (queued : (s.desc rs).queued = true)
    (e : s.readyqEnqueue rs = some t) : t.ledger = s.ledger := by
  obtain ⟨id, pool, -, rfl⟩ := readyqEnqueue_some e
  have same : (s.modDesc rs fun d => { d with queued := true }).ledger = s.ledger := by
    refine ledger_modDesc _ ?_
    simp [Descript.standing, queued, Descript.operandsReady]
  exact same

theorem ledger_eventqQueueEvent {rs time : Nat} (e : s.eventqQueueEvent rs time = some t) :
    t.ledger = s.ledger := by
  obtain ⟨-, id, pool, -, rfl⟩ := eventqQueueEvent_some e
  rfl

theorem ledger_clearLevels (rs out name n level : Nat) (s : Backend) :
    (s.clearLevels rs out name n level).ledger = s.ledger := by
  induction n generalizing level s with
  | zero => rfl
  | succ n ih =>
    rw [clearLevels]
    split
    · rw [ih]
      rfl
    · rfl

theorem ledger_updateCreateVector (rs : Nat) (s : Backend) :
    (s.updateCreateVector rs).ledger = s.ledger := by
  have one (out : Nat) (u : Backend) : (updateOutput rs u out).ledger = u.ledger := by
    simp only [updateOutput]
    split
    · rfl
    · exact ledger_clearLevels ..
  exact (one 1 _).trans (one 0 s)

end Frames

section Wakeup

/-- An instruction that waits for an input has neither been issued nor left its queue. -/
theorem waits_idle (h : Booked s.ledger roq) (here : d ∈ roq) {x : Nat} (input : x < 3)
    (waits : (s.desc d).idepReady x = false) :
    (s.desc d).operandsReady = false ∧ (s.desc d).trap = false ∧ (s.desc d).issued = false ∧
      (s.desc d).queued = true := by
  have seat := h.seated d here
  have unready : (s.desc d).operandsReady = false := by
    have cases : x = 0 ∨ x = 1 ∨ x = 2 := by omega
    rcases cases with rfl | rfl | rfl <;> simp [Descript.operandsReady, waits]
  have trap : (s.desc d).trap = false := by
    by_contra holds
    have ready := (seat.trap (Bool.eq_true_of_not_eq_false holds)).2.2
    exact absurd ready (by simp [ledger, Descript.standing, unready])
  have issued : (s.desc d).issued = false := by
    by_contra holds
    have ready := seat.issued (Bool.eq_true_of_not_eq_false holds)
    exact absurd ready (by simp [ledger, Descript.standing, unready])
  have queued : (s.desc d).queued = !(s.desc d).issued := seat.queued trap
  exact ⟨unready, trap, issued, by rw [queued, issued]; rfl⟩

/-- An input of an instruction in flight becomes ready. -/
theorem booked_ready (h : Booked s.ledger roq) (flow : Passage cfg s.place roq done)
    {x : Nat × RsLink} (input : x.1 < 3) (here : x.2.rs ∈ roq ++ s.decodeData)
    (waits : (s.desc x.2.rs).idepReady x.1 = false) : Booked (s.ready x).ledger roq := by
  have fetched := flight_fetched flow x.2.rs here
  have same : (s.ready x).ledger = { s.ledger with
      standing := Function.update s.ledger.standing x.2.rs
        ((s.ready x).desc x.2.rs).standing } := by
    simp only [ready, modDesc_self, ledger]
    simp only [modDesc, standing_update]
  rw [same]
  generalize after : ((s.ready x).desc x.2.rs) = e
  rw [ready, modDesc_self] at after
  rcases List.mem_append.mp here with inside | inside
  · obtain ⟨unready, trap, issued, queued⟩ := waits_idle h inside input waits
    have seat := h.seated x.2.rs inside
    have decoded : x.2.rs ∉ s.ledger.decodeData := (flow.apart inside).2.2.1
    have next := h.update flow.nodup inside fetched decoded (e := e.standing) (by
      rw [← after]
      exact {
        mapped := seat.mapped
        trap := fun holds => absurd (trap.symm.trans holds) Bool.false_ne_true
        queued := seat.queued
        issued := fun holds => absurd (issued.symm.trans holds) Bool.false_ne_true
        done := seat.done
        branch := seat.branch
        cls := seat.cls
        unit := seat.unit
        intq := seat.intq
        usedInt := seat.usedInt
        usedFp := seat.usedFp }) (by rw [← after]; rfl) (by rw [← after]; rfl)
    have int : e.standing.inIntIssue = (s.ledger.standing x.2.rs).inIntIssue := by
      rw [← after]
      rfl
    have fp : e.standing.inFpIssue = (s.ledger.standing x.2.rs).inFpIssue := by
      rw [← after]
      rfl
    rw [int, fp, Int.add_sub_cancel, Int.add_sub_cancel] at next
    exact next
  · have outside : x.2.rs ∉ roq := by
      intro hd
      exact (flow.apart hd).2.2.1 inside
    refine h.front (fun j hj => ?_) (fun j hj => ?_) fun j hj => ?_
    · have ne : j ≠ x.2.rs := by
        rintro rfl
        exact fetched hj
      rw [Function.update_of_ne ne]
      exact h.fetched j hj
    · by_cases eq : j = x.2.rs
      · subst eq
        obtain ⟨idle, trap⟩ := h.decoded _ hj
        rw [Function.update_self, ← after]
        refine ⟨⟨idle.mapped, idle.queued, idle.issued, idle.completed, idle.brcompleted,
          idle.nop⟩, fun holds => ?_⟩
        have ready : (s.desc x.2.rs).operandsReady = true := trap holds
        simp only [Descript.operandsReady, Bool.and_eq_true] at ready
        have cases : x.1 = 0 ∨ x.1 = 1 ∨ x.1 = 2 := by omega
        rcases cases with eq | eq | eq <;> rw [eq] at waits <;> simp [waits] at ready
      · rw [Function.update_of_ne eq]
        exact h.decoded j hj
    · have ne : j ≠ x.2.rs := by
        rintro rfl
        exact outside hj
      rw [Function.update_of_ne ne]

variable {f : Nat → Nat → List (Nat × RsLink)}

theorem booked_wakeOne {p out : Nat} {x : Nat × RsLink} {rest : List (Nat × RsLink)}
    (h : Booked s.ledger roq) (flow : Passage cfg s.place roq done)
    (wired : Wired { s.wiring with
      odep := Function.update f p (Function.update (f p) out (x :: rest)) } (roq ++ s.decodeData))
    (e : s.wakeOne x = some t) : Booked t.ledger roq := by
  have here : x ∈ Function.update f p (Function.update (f p) out (x :: rest)) p out := by simp
  have input := wired.inputs p out x here
  have known := wired.known x.2 (.odep here)
  rcases wakeOne_some e with ⟨-, rfl⟩ | ⟨valid, waits, ⟨-, rfl⟩ | ⟨both, u, entered, rfl⟩⟩
  · exact h
  · exact booked_ready h flow input (known.2 (eq_of_beq valid)).1 waits
  · have flight := (known.2 (eq_of_beq valid)).1
    have next := booked_ready h flow input flight waits
    have mapped : (s.desc x.2.rs).mapped = true := by
      rw [Bool.and_eq_true, ready, modDesc_self] at both
      exact both.2
    have inside : x.2.rs ∈ roq := by
      rcases List.mem_append.mp flight with inside | front
      · exact inside
      · have idle := (h.decoded _ front).1.mapped
        exact absurd (idle.symm.trans mapped) Bool.false_ne_true
    have queued := (waits_idle h inside input waits).2.2.2
    have same := ledger_readyqEnqueue (s := s.ready x) (by rw [ready, modDesc_self]; exact queued)
      entered
    rw [← same] at next
    exact next

theorem booked_wakeAll {p out : Nat} {l : List (Nat × RsLink)}
    (h : Booked s.ledger roq) (flow : Passage cfg s.place roq done)
    (wired : Wired { s.wiring with
      odep := Function.update f p (Function.update (f p) out l) } (roq ++ s.decodeData))
    (there : p ∈ roq ++ s.decodeData) (low : out ≤ 1) (e : l.foldlM wakeOne s = some t) :
    Booked t.ledger roq := by
  induction l generalizing s with
  | nil =>
    cases e
    exact h
  | cons x l ih =>
    obtain ⟨u, first, e⟩ := Option.bind_eq_some_iff.mp e
    have place := (layout_eq.mp (layout_wakeOne first)).1
    have decode : u.decodeData = s.decodeData := congrArg Place.decodeData place
    have next := wired_wakeOne wired (flight_nodup flow) there low first
    rw [← decode] at next there
    exact ih (booked_wakeOne h flow wired first) (place ▸ flow) next there e

theorem booked_broadcast {rs out : Nat} (h : Booked s.ledger roq)
    (flow : Passage cfg s.place roq done) (wired : Wired s.wiring (roq ++ s.decodeData))
    (there : rs ∈ roq ++ s.decodeData) (low : out ≤ 1) (e : s.broadcast rs out = some t) :
    Booked t.ledger roq := by
  rcases broadcast_some e with ⟨-, rfl⟩ | ⟨-, u, woken, rfl⟩
  · exact h
  · obtain ⟨wires, desc⟩ := wiring_updateCreateVector rs s
    have ledger := ledger_updateCreateVector rs s
    have place := (layout_eq.mp (layout_updateCreateVector rs s)).1
    have decode : (s.updateCreateVector rs).decodeData = s.decodeData :=
      congrArg Place.decodeData place
    rw [← ledger] at h
    rw [← place] at flow
    rw [← decode] at wired there
    rw [← wires] at wired
    rw [desc] at woken
    have row : (s.desc rs).odepList = (s.updateCreateVector rs).wiring.odep rs := by
      rw [wires]
      rfl
    have start : Wired { (s.updateCreateVector rs).wiring with
        odep := Function.update (s.updateCreateVector rs).wiring.odep rs
          (Function.update ((s.updateCreateVector rs).wiring.odep rs) out
            ((s.desc rs).odepList out)) } (roq ++ (s.updateCreateVector rs).decodeData) := by
      rw [row, Function.update_eq_self, Function.update_eq_self]
      exact wired
    have next := booked_wakeAll h flow start there low woken
    rw [ledger_modDesc]
    · exact next
    · rfl

/-- An instruction in the reorder queue leaves its function unit. -/
theorem booked_finish {rs : Nat} (h : Booked s.ledger roq) (flow : Passage cfg s.place roq done)
    (wired : Wired s.wiring (roq ++ s.decodeData)) (here : rs ∈ roq) (ports : s.Ports)
    (held : (s.desc rs).mem → (s.lsq (s.desc rs).lsqid).state = LsqState.readcache)
    (e : s.finish rs = some t) : Booked t.ledger roq := by
  obtain ⟨⟨ready, queued, issued, completed⟩, u, first, second⟩ := finish_some e
  have seat := h.seated rs here
  have place := (finished_frame ports held).1
  have start : Booked (s.finished rs).ledger roq := by
    generalize after : (if (s.desc rs).ctrl then { s.desc rs with brcompleted := true }
      else { s.desc rs with completed := true }) = e
    have decoded : rs ∉ s.ledger.decodeData := (flow.apart here).2.2.1
    have fetched : rs ∉ s.ledger.fetchData := (flow.apart here).2.1
    have seated : e.standing.Seated := by
      rw [← after]
      split
      · rename_i kind
        exact { seat with
          done := fun _ => issued
          branch := fun _ => ⟨kind, completed⟩ }
      · rename_i kind
        exact { seat with
          done := fun _ => issued
          branch := fun back => absurd (seat.branch back).1 kind }
    have next := h.update flow.nodup here fetched decoded seated
      (by rw [← after]; split <;> rfl) (by rw [← after]; split <;> rfl)
    have int : e.standing.inIntIssue = (s.ledger.standing rs).inIntIssue := by
      rw [← after]
      split <;> rfl
    have fp : e.standing.inFpIssue = (s.ledger.standing rs).inFpIssue := by
      rw [← after]
      split <;> rfl
    rw [int, fp, Int.add_sub_cancel, Int.add_sub_cancel] at next
    have same : (s.finished rs).ledger = { s.ledger with
        standing := Function.update s.ledger.standing rs e.standing } := by
      simp only [ledger, finished, after, standing_update]
    rw [same]
    exact next
  have there : rs ∈ roq ++ s.decodeData := List.mem_append_left _ here
  rw [← place] at flow
  rw [← wiring_finished rs s] at wired
  have one := booked_broadcast start flow wired there (Nat.zero_le 1) first
  have layout := (layout_eq.mp (layout_broadcast first)).1
  have decode : u.decodeData = s.decodeData := congrArg Place.decodeData layout
  have once : (roq ++ s.decodeData).Nodup := flight_nodup (s := s.finished rs) flow
  have wired' := wired_broadcast wired once there (Nat.zero_le 1) first
  rw [← layout] at flow
  rw [← decode] at wired'
  exact booked_broadcast one flow wired' (decode ▸ there) (Nat.le_refl 1) second

end Wakeup

section Decode

/-- The registers of one instruction are renamed. -/
theorem ledger_roqLinkIdep {rs num name : Nat} (e : s.roqLinkIdep rs num name = some t) :
    t.ledger = { s.ledger with
      standing := Function.update s.ledger.standing rs
        { s.ledger.standing rs with ready := (t.desc rs).operandsReady } } := by
  rcases roqLinkIdep_some e with ⟨-, rfl⟩ | ⟨p, out, id, pool, -, -, -, rfl⟩
  · simp only [modDesc_self]
    simp only [ledger, modDesc, standing_update]
    rfl
  · have waits : (s.waitFor rs num p out (s.linkTo rs id)).ledger = (s.modDesc rs fun d => { d with
        idepReady := Function.update d.idepReady num false }).ledger := by
      rw [waitFor, ledger_modDesc]
      rfl
    have same : ((s.waitFor rs num p out (s.linkTo rs id)).desc rs).operandsReady =
        ((s.modDesc rs fun d => { d with
          idepReady := Function.update d.idepReady num false }).desc rs).operandsReady :=
      congrArg (fun l : Ledger => (l.standing rs).ready) waits
    have goal : ledger { s.waitFor rs num p out (s.linkTo rs id) with rslinkFreeList := pool } =
        (s.waitFor rs num p out (s.linkTo rs id)).ledger := rfl
    rw [goal, waits]
    simp only [same, modDesc_self]
    simp only [ledger, modDesc, standing_update]
    rfl

theorem ledger_roqInstallOdep (rs num name : Nat) (s : Backend) : ∃ onames,
    (s.roqInstallOdep rs num name).ledger = { s.ledger with
      standing := Function.update s.ledger.standing rs
        { s.ledger.standing rs with onames := onames } } := by
  refine ⟨Function.update (s.desc rs).onames num name, ?_⟩
  have same : (s.modDesc rs fun d => { d with
      onames := Function.update d.onames num name
      odepList := Function.update d.odepList num [] }).ledger = { s.ledger with
      standing := Function.update s.ledger.standing rs
        { s.ledger.standing rs with
          onames := Function.update (s.desc rs).onames num name } } := by
    simp only [ledger, modDesc, standing_update]
    rfl
  simp only [roqInstallOdep]
  split <;> exact same

theorem ledger_rename {rs : Nat} (e : s.rename rs = some t) : ∃ onames ready,
    t.ledger = { s.ledger with
      standing := Function.update s.ledger.standing rs
        { s.ledger.standing rs with onames := onames, ready := ready } } := by
  simp only [rename] at e
  obtain ⟨u, first, e⟩ := Option.bind_eq_some_iff.mp e
  obtain ⟨v, second, e⟩ := Option.bind_eq_some_iff.mp e
  obtain ⟨w, third, rfl⟩ := Option.map_eq_some_iff.mp e
  obtain ⟨names, one⟩ := ledger_roqInstallOdep rs 0 ((s.desc rs).op.names (s.desc rs).ir).out1 w
  obtain ⟨names', two⟩ := ledger_roqInstallOdep rs 1 ((s.desc rs).op.names (s.desc rs).ir).out2
    (w.roqInstallOdep rs 0 ((s.desc rs).op.names (s.desc rs).ir).out1)
  have start : (s.modDesc rs fun d => { d with ins := fun i =>
      if i = 0 then ((s.desc rs).op.names (s.desc rs).ir).in1
      else if i = 1 then ((s.desc rs).op.names (s.desc rs).ir).in2
      else if i = 2 then ((s.desc rs).op.names (s.desc rs).ir).in3 else 0 }).ledger = s.ledger :=
    ledger_modDesc _ rfl
  rw [two, one, ledger_roqLinkIdep third, ledger_roqLinkIdep second, ledger_roqLinkIdep first, start]
  simp only [Function.update_self, Function.update_idem]
  exact ⟨_, _, rfl⟩

/-- An instruction without inputs is ready. -/
theorem ready_rename {rs : Nat} (e : s.rename rs = some t)
    (none : ((s.desc rs).op.names (s.desc rs).ir).in1 = 0 ∧
      ((s.desc rs).op.names (s.desc rs).ir).in2 = 0 ∧
      ((s.desc rs).op.names (s.desc rs).ir).in3 = 0) : (t.desc rs).operandsReady = true := by
  obtain ⟨none1, none2, none3⟩ := none
  have install (num name : Nat) (u : Backend) :
      ((u.roqInstallOdep rs num name).desc rs).operandsReady = (u.desc rs).operandsReady := by
    obtain ⟨names, same⟩ := ledger_roqInstallOdep rs num name u
    have ready := congrArg (fun l : Ledger => (l.standing rs).ready) same
    simp only [Function.update_self] at ready
    exact ready
  simp only [rename, roqLinkIdep, none1, none2, none3, if_true, Option.bind_some,
    Option.map_some, Option.some.injEq] at e
  rw [← e, install, install]
  simp [modDesc, Descript.operandsReady]

theorem ledger_enterSpec {o : Outcome} {rs : Nat} (e : s.enterSpec cfg o rs = some t) :
    t.ledger = s.ledger := by
  have level {u v : Backend} (e : u.enterLevel cfg = some v) : v.ledger = u.ledger := by
    rw [enterLevel] at e
    split_ifs at e
    cases e
    rfl
  have first : (s.modDesc rs fun d =>
      { d with specLevel := s.specLevel, misPredict := false }).ledger = s.ledger :=
    ledger_modDesc _ rfl
  have second : ((s.modDesc rs fun d =>
      { d with specLevel := s.specLevel, misPredict := false }).modDesc rs fun d =>
      { d with misPredict := true }).ledger = s.ledger :=
    (ledger_modDesc _ rfl).trans first
  simp only [enterSpec] at e
  split at e
  · obtain ⟨u, entered, rfl⟩ := Option.map_eq_some_iff.mp e
    exact (level entered).trans first
  · split at e
    · split at e
      · exact (level e).trans second
      · cases e
        exact second
    · cases e
      exact first

theorem ledger_redirect (o : Outcome) (rs : Nat) (s : Backend) : ∃ fetch,
    (s.redirect o rs).ledger = { s.ledger with fetchData := fetch } ∧
      fetch.tail.Sublist s.fetchData.tail := by
  simp only [redirect]
  split
  · rw [foldl_returnToFreeList]
    refine ⟨s.fetchData.take 1, rfl, ?_⟩
    cases s.fetchData <;> simp
  · split
    · exact ⟨s.fetchData, rfl, .refl _⟩
    · exact ⟨s.fetchData, rfl, .refl _⟩

theorem booked_decodeNext {o : Outcome} {rest : List Nat} (h : Booked s.ledger roq)
    (flow : Passage cfg s.place roq done) (queue : s.fetchData = d :: rest)
    (e : s.decodeNext cfg o d = some t) : Booked t.ledger roq := by
  have outside : d ∉ roq ++ s.decodeData := fun hd =>
    flight_fetched flow d hd (queue ▸ List.mem_cons_self)
  rw [List.mem_append, not_or] at outside
  have later : d ∉ rest := by
    have once := flow.once d
    simp only [place, queue, List.count_cons_self] at once
    exact List.count_eq_zero.mp (by omega)
  have first : (s.modDesc d fun x => { x with divDelay := o.divDelay }).ledger = s.ledger :=
    ledger_modDesc _ rfl
  simp only [decodeNext] at e
  obtain ⟨u, named, e⟩ := Option.bind_eq_some_iff.mp e
  obtain ⟨v, entered, rfl⟩ := Option.map_eq_some_iff.mp e
  obtain ⟨onames, ready, renamed⟩ := ledger_rename named
  rw [first] at renamed
  have branch : (if (u.desc d).ctrl = true then { u with lastIsBranch := true } else u).ledger =
      u.ledger := by
    split <;> rfl
  obtain ⟨fetch, redirected, short⟩ := ledger_redirect o d
    (if (u.desc d).ctrl = true then { u with lastIsBranch := true } else u)
  have fetched : (if (u.desc d).ctrl = true then { u with lastIsBranch := true } else u).fetchData =
      s.fetchData := (congrArg Ledger.fetchData branch).trans (congrArg Ledger.fetchData renamed)
  rw [fetched, queue, List.tail_cons] at short
  have moved := (ledger_enterSpec entered).trans redirected
  rw [branch, renamed] at moved
  have goal : Backend.ledger { v with
      decodeData := v.decodeData ++ [d], fetchData := v.fetchData.tail } =
      { v.ledger with decodeData := v.decodeData ++ [d], fetchData := v.fetchData.tail } := rfl
  have decode : v.decodeData = s.decodeData := congrArg Ledger.decodeData moved
  have fetch' : v.fetchData = fetch := congrArg Ledger.fetchData moved
  have front : d ∈ s.ledger.fetchData := by
    change d ∈ s.fetchData
    rw [queue]
    exact List.mem_cons_self
  have idle := h.fetched d front
  have nop : (s.desc d).trap = true → ready = true := by
    intro trap
    have place : (s.desc d).ir = nopInst ∧ (s.desc d).op = mdSetOpcode nopInst := idle.nop trap
    have same := congrArg (fun l : Ledger => (l.standing d).ready) renamed
    simp only [Function.update_self] at same
    rw [← same]
    refine ready_rename named ?_
    simp only [modDesc_self, place]
    decide
  rw [goal, decode, fetch', moved]
  refine h.front (fun j hj => ?_) (fun j hj => ?_) fun j hj => ?_
  · have inside : j ∈ rest := short.subset hj
    have ne : j ≠ d := by
      rintro rfl
      exact later inside
    simp only [Function.update_of_ne ne]
    refine h.fetched j ?_
    change j ∈ s.fetchData
    rw [queue]
    exact List.mem_cons_of_mem _ inside
  · rcases List.mem_append.mp hj with old | new
    · have ne : j ≠ d := by
        rintro rfl
        exact outside.2 old
      simp only [Function.update_of_ne ne]
      exact h.decoded j old
    · obtain rfl := List.mem_singleton.mp new
      simp only [Function.update_self]
      exact ⟨⟨idle.mapped, idle.queued, idle.issued, idle.completed, idle.brcompleted, idle.nop⟩,
        nop⟩
  · have ne : j ≠ d := by
      rintro rfl
      exact outside.1 hj
    simp only [Function.update_of_ne ne]

theorem booked_markSlot {rest : List Nat} (h : Booked s.ledger roq)
    (flow : Passage cfg s.place roq done) (queue : s.fetchData = d :: rest)
    (e : s.markSlot d = some t) : Booked t.ledger roq := by
  have outside : d ∉ roq ++ s.decodeData := fun hd =>
    flight_fetched flow d hd (queue ▸ List.mem_cons_self)
  rw [List.mem_append, not_or] at outside
  simp only [markSlot] at e
  split at e
  · cases e
    exact h
  · split at e
    · cases e
    · cases e
      have front : d ∈ s.ledger.fetchData := by
        change d ∈ s.fetchData
        rw [queue]
        exact List.mem_cons_self
      have idle := h.fetched d front
      generalize after : (if (s.desc d).ctrl then
        { s.desc d with ir := nopInst, op := mdSetOpcode nopInst, bd := true }
        else { s.desc d with bd := true }) = x
      have idle' : x.standing.Idle := by
        rw [← after]
        split
        · exact ⟨idle.mapped, idle.queued, idle.issued, idle.completed, idle.brcompleted,
            fun _ => ⟨rfl, rfl⟩⟩
        · exact ⟨idle.mapped, idle.queued, idle.issued, idle.completed, idle.brcompleted, idle.nop⟩
      have goal : Backend.ledger { s.modDesc d (fun d => if d.ctrl then
          { d with ir := nopInst, op := mdSetOpcode nopInst, bd := true }
          else { d with bd := true }) with lastIsBranch := false } = { s.ledger with
          standing := Function.update s.ledger.standing d x.standing } := by
        simp only [ledger, modDesc, standing_update, after]
      rw [goal]
      refine h.front (fun j hj => ?_) (fun j hj => ?_) fun j hj => ?_
      · by_cases eq : j = d
        · rw [eq, Function.update_self]
          exact idle'
        · rw [Function.update_of_ne eq]
          exact h.fetched j hj
      · have ne : j ≠ d := by
          rintro rfl
          exact outside.2 hj
        rw [Function.update_of_ne ne]
        exact h.decoded j hj
      · have ne : j ≠ d := by
          rintro rfl
          exact outside.1 hj
        rw [Function.update_of_ne ne]

theorem booked_decodeInst {o : Nat → Outcome} {rest : List Nat} {more : Bool}
    (h : Booked s.ledger roq) (flow : Passage cfg s.place roq done)
    (queue : s.fetchData = d :: rest) (e : s.decodeInst cfg o = some (t, more)) :
    Booked t.ledger roq := by
  simp only [decodeInst, queue] at e
  obtain ⟨u, marked, e⟩ := Option.bind_eq_some_iff.mp e
  have next := booked_markSlot h flow queue marked
  obtain ⟨flow', fetched, -⟩ := flow_markSlot flow queue marked
  split at e
  · cases e
    exact next
  · split at e
    · cases e
    · obtain ⟨v, decoded, same⟩ := Option.map_eq_some_iff.mp e
      cases same
      exact booked_decodeNext next flow' (fetched.trans queue) decoded

/-- A new instruction enters the fetch queue. -/
theorem booked_pushed (h : Booked s.ledger roq) (flow : Passage cfg s.place roq done)
    (room : s.fetchData.length < cfg.fetchIfqSize) {ir : Word} {op : Op} {trap : Bool}
    (nop : trap → ir = nopInst ∧ op = mdSetOpcode nopInst) :
    Booked (s.pushed cfg ir op trap).ledger roq := by
  obtain ⟨fetched, decoded, queued, -⟩ := got_apart flow
  obtain ⟨d, free, fresh, got, -⟩ := getFromFreeList_some s
  rw [got] at fetched decoded queued
  generalize after : ({ s.desc d with
    ir, op, trap, seq := s.instSeq, bd := false, mapped := false, queued := false
    issued := false, completed := false, brcompleted := false } : Descript) = x
  have idle : x.standing.Idle := by
    rw [← after]
    exact ⟨rfl, rfl, rfl, rfl, rfl, nop⟩
  have goal : (s.pushed cfg ir op trap).ledger = { s.ledger with
      standing := Function.update s.ledger.standing d x.standing
      fetchData := s.fetchData ++ [d] } := by
    simp only [pushed, got, fetchPush, newInst, modDesc, room, if_true, ledger, standing_update,
      after]
  rw [goal]
  refine h.front (fun j hj => ?_) (fun j hj => ?_) fun j hj => ?_
  · rcases List.mem_append.mp hj with old | new
    · have ne : j ≠ d := by
        rintro rfl
        exact fetched old
      rw [Function.update_of_ne ne]
      exact h.fetched j old
    · rw [List.mem_singleton.mp new, Function.update_self]
      exact idle
  · have ne : j ≠ d := by
      rintro rfl
      exact decoded hj
    rw [Function.update_of_ne ne]
    exact h.decoded j hj
  · have ne : j ≠ d := by
      rintro rfl
      exact queued hj
    rw [Function.update_of_ne ne]

theorem booked_fetchInst (h : Booked s.ledger roq) (flow : Passage cfg s.place roq done)
    (f : Fetched) (free : s.fetchData.length < cfg.fetchIfqSize)
    (room : FetchRoom cfg f s.fetchData.length) : Booked (s.fetchInst cfg f).1.ledger roq := by
  obtain ⟨ir, invalid, cases⟩ := fetchInst_cases f room
  have nop : (!f.valid) = true → ir = nopInst ∧ mdSetOpcode ir = mdSetOpcode nopInst := by
    intro bad
    rw [Bool.not_eq_true'] at bad
    rw [invalid bad]
    exact ⟨rfl, rfl⟩
  have first := booked_pushed h flow free nop
  rcases cases with ⟨d, l, fresh, -, moved⟩ | moved | ⟨half, space, moved⟩ <;> rw [moved]
  · exact h
  · exact first
  · refine booked_pushed first (flow_pushed flow free ir fun bad => (nop bad).2) ?_
      fun absent => (by cases absent)
    rw [pushed, length_fetchPush]
    simpa using space

end Decode

section Squash

theorem booked_squashLast (h : Booked s.ledger (roq ++ [d]))
    (flow : Passage cfg s.place (roq ++ [d]) done) (e : s.squashLast cfg = some t) :
    Booked t.ledger roq := by
  obtain ⟨-, rfl⟩ := squashLast_some flow.last e
  have next := h.squash
  have same : (fun j => (Function.update s.desc d (squashed (s.desc d)) j).standing) =
      s.ledger.standing := by
    rw [standing_update]
    exact Function.update_eq_self ..
  have int (n : Int) : (if ((s.desc d).queued && (s.desc d).inIntq) = true then n - 1 else n) =
      n - if (s.ledger.standing d).inIntIssue then 1 else 0 := by
    change (if (s.desc d).standing.inIntIssue = true then n - 1 else n) =
      n - if (s.desc d).standing.inIntIssue = true then 1 else 0
    split <;> simp
  have fp (n : Int) : (if ((s.desc d).queued && !(s.desc d).inIntq) = true then n - 1 else n) =
      n - if (s.ledger.standing d).inFpIssue then 1 else 0 := by
    change (if (s.desc d).standing.inFpIssue = true then n - 1 else n) =
      n - if (s.desc d).standing.inFpIssue = true then 1 else 0
    split <;> simp
  have goal : Ledger.mk s.ledger.standing s.fetchData s.decodeData
      (s.intRenameRegNum - (s.desc d).usedIntRenameReg)
      (s.fpRenameRegNum - (s.desc d).usedFpRenameReg)
      (s.intIssueNum - if (s.ledger.standing d).inIntIssue then 1 else 0)
      (s.fpIssueNum - if (s.ledger.standing d).inFpIssue then 1 else 0) = { s.ledger with
    intRename := s.ledger.intRename - (s.ledger.standing d).usedInt
    fpRename := s.ledger.fpRename - (s.ledger.standing d).usedFp
    intIssue := s.ledger.intIssue - if (s.ledger.standing d).inIntIssue then 1 else 0
    fpIssue := s.ledger.fpIssue - if (s.ledger.standing d).inFpIssue then 1 else 0 } := rfl
  rw [← goal, ← int, ← fp, ← same] at next
  exact next

theorem booked_squashAll {gone : List Nat} (h : Booked s.ledger (roq ++ gone))
    (flow : Passage cfg s.place (roq ++ gone) done) (e : s.squashAll cfg gone.length = some t) :
    Booked t.ledger roq := by
  refine (squashAll_invariant (P := fun roq u => Booked u.ledger roq ∧
    Passage cfg u.place roq done) (fun roq d u v h e => ?_) ⟨h, flow⟩ e).1
  exact ⟨booked_squashLast h.1 h.2 e, flow_squashLast h.2 e⟩

theorem booked_tracerRecover (h : Booked s.ledger roq) (flow : Passage cfg s.place roq done)
    (level : Nat) : Booked (s.tracerRecover level).ledger roq := by
  have goal : (s.tracerRecover level).ledger =
      { s.ledger with fetchData := [], decodeData := [] } := by
    rw [tracerRecover_eq (decode_nodup flow)]
    simp only [ledger]
    congr 1
    funext j
    split <;> rfl
  rw [goal]
  exact h.front (fun j hj => absurd hj List.not_mem_nil) (fun j hj => absurd hj List.not_mem_nil)
    fun j _ => rfl

theorem booked_pipelineFlush (h : Booked s.ledger roq) (flow : Passage cfg s.place roq done)
    (e : s.pipelineFlush cfg = some t) : Booked t.ledger [] := by
  obtain ⟨u, dropped, all, rfl⟩ := pipelineFlush_some flow e
  have last : Booked u.ledger [] :=
    booked_squashAll (booked_tracerRecover h flow 0) dropped all
  exact last

theorem booked_brerrRecover (h : Booked s.ledger roq) (flow : Passage cfg s.place roq done) {i : Nat}
    (hi : i < roq.length) (slot : i + 1 < roq.length)
    (e : s.brerrRecover cfg roq[i] = some t) :
    Booked t.ledger (roq.take (lastKept (s.desc roq[i]) i + 1)) := by
  obtain ⟨u, squashed, rfl⟩ := brerrRecover_some flow hi slot e
  generalize lastKept (s.desc roq[i]) i + 1 = n at squashed ⊢
  have whole := List.take_append_drop n roq
  rw [← whole] at h flow
  rw [← List.length_drop] at squashed
  exact booked_tracerRecover (booked_squashAll h flow squashed) (flow_squashAll flow squashed) _

theorem booked_retire (h : Booked s.ledger (d :: roq)) (completed : (s.desc d).completed)
    (e : (s.modDesc d fun x => { x with tag := x.tag + 1 }).retire cfg d = some t) :
    Booked t.ledger roq := by
  have same : (s.modDesc d fun x => { x with tag := x.tag + 1 }).ledger = s.ledger :=
    ledger_modDesc _ rfl
  have next := h.retire completed
  rw [← same] at next
  obtain ⟨-, -, -, rfl⟩ := retire_some e
  exact next

/-- A branch is resolved. -/
theorem booked_resolved {rs : Nat} (h : Booked s.ledger roq) (flow : Passage cfg s.place roq done)
    (here : rs ∈ roq) (back : (s.desc rs).brcompleted) : Booked (s.resolved rs).ledger roq := by
  have seat := h.seated rs here
  have goal : (s.resolved rs).ledger = { s.ledger with
      standing := Function.update s.ledger.standing rs
        { s.ledger.standing rs with brcompleted := false, completed := true } } := by
    simp only [resolved, ledger, modDesc, standing_update]
    rfl
  have issued := seat.done (.inr back)
  have next := h.update flow.nodup here (flow.apart here).2.1 (flow.apart here).2.2.1
    (e := { s.ledger.standing rs with brcompleted := false, completed := true })
    { seat with
      done := fun _ => issued
      branch := fun absent => absurd absent Bool.false_ne_true } rfl rfl
  have int : ({ s.ledger.standing rs with brcompleted := false, completed := true } :
      Standing).inIntIssue = (s.ledger.standing rs).inIntIssue := rfl
  have fp : ({ s.ledger.standing rs with brcompleted := false, completed := true } :
      Standing).inFpIssue = (s.ledger.standing rs).inFpIssue := rfl
  rw [int, fp, Int.add_sub_cancel, Int.add_sub_cancel] at next
  rw [goal]
  exact next

end Squash

section Issue

/-- `res_alloc` takes a unit of the class. -/
theorem resAlloc_unit {cls : FuClass} (served : cls ≠ .na) (s : Backend) :
    (s.resAlloc cls).1.unit ∈ cls.units := by
  simp only [resAlloc]
  cases cls
  case na => exact absurd rfl served
  case intALU =>
    simp only [FuClass.units, List.foldl_cons, List.foldl_nil]
    split <;> simp
  all_goals simp [FuClass.units]

/-- An instruction that waits in a ready queue has been mapped. -/
theorem queued_mapped (h : Booked s.ledger roq) (here : d ∈ roq ++ s.decodeData)
    (moves : (s.desc d).queued ∨ (s.desc d).issued) : d ∈ roq := by
  rcases List.mem_append.mp here with inside | front
  · exact inside
  · obtain ⟨idle, -⟩ := h.decoded d front
    rcases moves with queued | issued
    · exact absurd (idle.queued.symm.trans queued) Bool.false_ne_true
    · exact absurd (idle.issued.symm.trans issued) Bool.false_ne_true

theorem booked_issueInst {l : RsLink} (h : Booked s.ledger roq) (flow : Passage cfg s.place roq done)
    (here : l.rs ∈ roq) (ready : issuable (s.desc l.rs)) (e : s.issueInst l = some t) :
    Booked t.ledger roq := by
  simp only [issuable, Bool.and_eq_true, Bool.not_eq_true'] at ready
  obtain ⟨⟨⟨ready, queued⟩, waiting⟩, fresh⟩ := ready
  obtain ⟨u, v, oplat, first, rfl, e⟩ := issueInst_some e
  obtain ⟨-, rfl⟩ := deleteNode_some e
  have seat := h.seated l.rs here
  have trap : (s.desc l.rs).trap = false := by
    by_contra holds
    have idle := (seat.trap (Bool.eq_true_of_not_eq_false holds)).1
    exact absurd (idle.symm.trans queued) Bool.false_ne_true
  have next := h.update flow.nodup here (flow.apart here).2.1 (flow.apart here).2.2.1
    (e := { s.ledger.standing l.rs with issued := true, queued := false })
    { seat with
      trap := fun holds => absurd (trap.symm.trans holds) Bool.false_ne_true
      queued := fun _ => rfl
      issued := fun _ => ready
      done := fun _ => rfl } rfl rfl
  have start : (s.issued l.rs).ledger = { s.ledger with
      standing := Function.update s.ledger.standing l.rs
        { s.ledger.standing l.rs with issued := true, queued := false } } := by
    simp only [issued, ledger, standing_update]
    rfl
  have moved : u.ledger = (s.issued l.rs).ledger := by
    split at first
    · obtain ⟨-, -, -, rfl⟩ := lsqIssue_some first
      rfl
    · exact ledger_eventqQueueEvent first
  have intq : (u.desc l.rs).inIntq = (s.desc l.rs).inIntq := by
    have same := congrArg (fun x : Ledger => (x.standing l.rs).inIntq) (moved.trans start)
    simp only [Function.update_self] at same
    exact same
  have goal : (u.countIssue (u.desc l.rs).inIntq (-1)).ledger = { s.ledger with
      standing := Function.update s.ledger.standing l.rs
        { s.ledger.standing l.rs with issued := true, queued := false }
      intIssue := s.ledger.intIssue + 0 - if (s.ledger.standing l.rs).inIntIssue then 1 else 0
      fpIssue := s.ledger.fpIssue + 0 - if (s.ledger.standing l.rs).inFpIssue then 1 else 0 } := by
    have int : (s.ledger.standing l.rs).inIntIssue = (s.desc l.rs).inIntq := by
      simp [ledger, Descript.standing, Standing.inIntIssue, queued]
    have fp : (s.ledger.standing l.rs).inFpIssue = !(s.desc l.rs).inIntq := by
      simp [ledger, Descript.standing, Standing.inFpIssue, queued]
    rw [countIssue_eq, intq, int, fp]
    have whole := moved.trans start
    have counts : u.intIssueNum = s.intIssueNum ∧ u.fpIssueNum = s.fpIssueNum :=
      ⟨congrArg Ledger.intIssue whole, congrArg Ledger.fpIssue whole⟩
    have shape : ∀ a b : Int, ledger { u with intIssueNum := a, fpIssueNum := b } =
        { u.ledger with intIssue := a, fpIssue := b } := fun _ _ => rfl
    rw [shape, whole, counts.1, counts.2]
    cases (s.desc l.rs).inIntq <;> simp [ledger, Int.sub_eq_add_neg]
  have last : Booked (u.countIssue (u.desc l.rs).inIntq (-1)).ledger roq := by
    rw [goal]
    exact next
  exact last

theorem booked_placed {rest : List Nat} (h : Booked s.ledger roq)
    (flow : Passage cfg s.place roq done) (queue : s.decodeData = d :: rest) :
    Booked (s.placed cfg d rest).ledger (roq ++ [d]) := by
  have front : d ∈ s.ledger.decodeData := by
    change d ∈ s.decodeData
    rw [queue]
    exact List.mem_cons_self
  obtain ⟨idle, ready⟩ := h.decoded d front
  have once := flight_nodup flow
  rw [queue] at once
  have apart : d ∉ roq := fun hd => (flow.apart hd).2.2.1 front
  have later : d ∉ rest := (List.nodup_cons.mp (List.nodup_append.mp once).2.1).1
  have fetched : d ∉ s.ledger.fetchData := flight_fetched flow d (List.mem_append_right _ front)
  generalize after : (s.placed cfg d rest).desc d = x
  have seated : x.standing.Seated := by
    rw [← after]
    simp only [placed, Function.update_self]
    constructor
    case mapped => rfl
    case trap =>
      intro trap
      have trap : (s.desc d).trap = true := trap
      refine ⟨?_, idle.issued, ready trap⟩
      simp only [Descript.standing, trap, Bool.not_true, Bool.false_or]
      exact idle.queued
    case queued =>
      intro trap
      have trap : (s.desc d).trap = false := trap
      have issued : (s.desc d).issued = false := idle.issued
      simp [Descript.standing, trap, issued]
    case issued => exact fun issued => absurd (idle.issued.symm.trans issued) Bool.false_ne_true
    case done =>
      rintro (completed | back)
      · exact absurd (idle.completed.symm.trans completed) Bool.false_ne_true
      · exact absurd (idle.brcompleted.symm.trans back) Bool.false_ne_true
    case branch => exact fun back => absurd (idle.brcompleted.symm.trans back) Bool.false_ne_true
    case cls => rfl
    case unit =>
      have some : (if (!(s.desc d).trap && (s.desc d).op.fuClass != .na) = true then
          (s.desc d).op.fuClass else .intALU) ≠ FuClass.na := by
        split
        · rename_i served
          simp only [Bool.and_eq_true, bne_iff_ne] at served
          exact served.2
        · decide
      exact resAlloc_unit some s
    case intq => rfl
    case usedInt => rfl
    case usedFp => rfl
  have next := h.map queue apart later fetched seated
  have goal : (s.placed cfg d rest).ledger = { s.ledger with
      standing := Function.update s.ledger.standing d x.standing
      decodeData := rest
      intRename := s.ledger.intRename + x.standing.usedInt
      fpRename := s.ledger.fpRename + x.standing.usedFp
      intIssue := s.ledger.intIssue + if x.standing.inIntIssue then 1 else 0
      fpIssue := s.ledger.fpIssue + if x.standing.inFpIssue then 1 else 0 } := by
    have standing : (s.placed cfg d rest).ledger.standing =
        Function.update s.ledger.standing d x.standing := by
      rw [← after]
      simp only [placed, ledger, Function.update_self, standing_update]
    have queued : (s.desc d).queued = false := idle.queued
    have int : (if x.standing.inIntIssue then 1 else 0 : Int) =
        if !(s.desc d).trap && (s.desc d).op.isIntq then 1 else 0 := by
      rw [← after]
      simp [placed, Descript.standing, Standing.inIntIssue, queued]
    have fp : (if x.standing.inFpIssue then 1 else 0 : Int) =
        if !(s.desc d).trap && !(s.desc d).op.isIntq then 1 else 0 := by
      rw [← after]
      simp [placed, Descript.standing, Standing.inFpIssue, queued]
    have shape : (s.placed cfg d rest).ledger = { s.ledger with
        standing := (s.placed cfg d rest).ledger.standing
        decodeData := rest
        intRename := s.intRenameRegNum + intRegs (s.desc d)
        fpRename := s.fpRenameRegNum + fpRegs (s.desc d)
        intIssue := if !(s.desc d).trap && (s.desc d).op.isIntq then s.intIssueNum + 1
          else s.intIssueNum
        fpIssue := if !(s.desc d).trap && !(s.desc d).op.isIntq then s.fpIssueNum + 1
          else s.fpIssueNum } := rfl
    have used : x.standing.usedInt = intRegs (s.desc d) ∧
        x.standing.usedFp = fpRegs (s.desc d) := by
      rw [← after]
      simp only [placed, Function.update_self, Descript.standing, and_self]
    rw [shape, standing, int, fp, used.1, used.2]
    simp only [ledger, Ledger.mk.injEq, true_and]
    constructor <;> split <;> simp
  rw [goal]
  exact next

theorem booked_mapInst {rest : List Nat} (h : Booked s.ledger roq)
    (flow : Passage cfg s.place roq done) (queue : s.decodeData = d :: rest)
    (e : s.mapInst cfg = some t) : Booked t.ledger (roq ++ [d]) := by
  have next := booked_placed h flow queue
  rw [mapInst_eq cfg queue] at e
  split_ifs at e with goes
  · simp only [Bool.and_eq_true, Bool.not_eq_true'] at goes
    rw [ledger_readyqEnqueue _ e]
    · exact next
    · simp [placed, goes.1]
  · cases e
    exact next

end Issue

end Backend

end Godson
