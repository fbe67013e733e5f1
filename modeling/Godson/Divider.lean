import Godson.Works

/-! The integer divider takes one operation after the other. Its busy flag is set by the
operation that enters it, and cleared by the one that completes; a squash clears it for
every division that it meets. -/
namespace Godson.Backend

open Mips

variable {cfg : BackendConfig} {s t u : Backend} {roq done : List Nat} {d : Nat}

/-- The integer divider, as `fu_config` has it. -/
def divider : Fu := ⟨1, .intDIV⟩

/-- `DIV`, `DIVU` and the second half of each. -/
def divides (s : Backend) (d : Nat) : Bool :=
  (s.desc d).op == .div || (s.desc d).op == .divu || (s.desc d).op == .splitdiv

/-- A division in the divider: it has been issued and has not completed. -/
def dividing (s : Backend) (d : Nat) : Bool :=
  s.divides d && (s.desc d).issued && !(s.desc d).completed

theorem divides_eq (same : t.works = s.works) (d : Nat) : t.divides d = s.divides d := by
  rw [divides, divides, (work_eq same d).1]

theorem dividing_eq (same : t.works = s.works) (d : Nat) : t.dividing d = s.dividing d := by
  obtain ⟨-, -, issued, completed⟩ := work_eq same d
  rw [dividing, dividing, divides_eq same, issued, completed]

/-- What a recovery from the branch `b` keeps of the reorder queue. -/
def keptBy (cfg : BackendConfig) (s : Backend) (b : Nat) : List Nat :=
  (s.inRoq cfg).take (lastKept (s.desc b) ((s.inRoq cfg).idxOf b) + 1)

/-- What it squashes. -/
def squashedBy (cfg : BackendConfig) (s : Backend) (b : Nat) : List Nat :=
  (s.inRoq cfg).drop (lastKept (s.desc b) ((s.inRoq cfg).idxOf b) + 1)

/-- No recovery squashes a division while one that it keeps is in the divider. -/
def SparesDivider (cfg : BackendConfig) (s : Backend) : Prop :=
  ∀ b ∈ s.recovering cfg, ∀ d ∈ s.squashedBy cfg b, s.divides d = true →
    ∀ e ∈ s.keptBy cfg b, s.dividing e = false

instance (cfg : BackendConfig) (s : Backend) : Decidable (SparesDivider cfg s) :=
  inferInstanceAs (Decidable (∀ b ∈ s.recovering cfg, ∀ d ∈ s.squashedBy cfg b,
    s.divides d = true → ∀ e ∈ s.keptBy cfg b, s.dividing e = false))

/-- The divider with the instructions `roq` in the reorder queue. At the beginning of a squash
that keeps `kept`, all of `roq` are still there. -/
structure Divider (s : Backend) (kept roq : List Nat) : Prop where
  busy : s.fuBusy divider = true → ∃ d ∈ roq, s.dividing d = true
  flag : ∀ d ∈ kept, s.dividing d = true → s.fuBusy divider = true
  one : ∀ d ∈ roq, ∀ e ∈ roq, s.dividing d = true → s.dividing e = true → d = e
  unit : ∀ d ∈ roq, (s.desc d).fu = divider ↔ s.divides d = true

/-- The instruction goes to the divider if it is a division. -/
theorem Coherent.unit (h : Coherent cfg s roq done) (here : d ∈ roq) :
    (s.desc d).fu = divider ↔ s.divides d = true := by
  have seat : (s.desc d).standing.Seated := h.booked.seated d here
  have nop : (s.desc d).trap = true → (s.desc d).op = mdSetOpcode nopInst := h.flow.nop d
  have cls : (s.desc d).fu.cls = (s.desc d).standing.cls := seat.cls
  have unit : (s.desc d).fu.unit ∈ (s.desc d).fu.cls.units := seat.unit
  have kind : (s.desc d).fu.cls = .intDIV ↔ s.divides d = true := by
    rw [cls, Standing.cls, divides]
    change (if !(s.desc d).trap && (s.desc d).op.fuClass != .na then (s.desc d).op.fuClass
      else .intALU) = .intDIV ↔ _
    cases trap : (s.desc d).trap
    · cases op : (s.desc d).op <;> decide
    · rw [nop trap]
      decide
  rw [← kind]
  constructor
  · intro same
    rw [same]
    rfl
  · intro div
    rw [div] at unit
    have one : (s.desc d).fu.unit = 1 := List.mem_singleton.mp unit
    rw [divider, ← one, ← div]

namespace Divider

variable {kept : List Nat}

/-- The divider does not see what does not touch it. -/
theorem congr (h : Divider s kept roq) (same : t.works = s.works) : Divider t kept roq where
  busy := by
    simp only [busy_eq same, dividing_eq same]
    exact h.busy
  flag := by
    simp only [busy_eq same, dividing_eq same]
    exact h.flag
  one := by
    simp only [dividing_eq same]
    exact h.one
  unit := by
    intro d hd
    rw [(work_eq same d).2.1, divides_eq same]
    exact h.unit d hd

/-- What the instructions of the reorder queue are not changed in is not seen. -/
theorem unseen (h : Divider s roq roq) (busy : t.fuBusy divider = s.fuBusy divider)
    (work : ∀ j ∈ roq, (t.desc j).fu = (s.desc j).fu ∧ t.divides j = s.divides j ∧
      t.dividing j = s.dividing j) : Divider t roq roq where
  busy := by
    intro held
    rw [busy] at held
    obtain ⟨j, hj, there⟩ := h.busy held
    exact ⟨j, hj, (work j hj).2.2.trans there⟩
  flag := by
    intro j hj there
    rw [busy]
    exact h.flag j hj ((work j hj).2.2.symm.trans there)
  one := by
    intro i hi j hj
    rw [(work i hi).2.2, (work j hj).2.2]
    exact h.one i hi j hj
  unit := by
    intro j hj
    rw [(work j hj).1, (work j hj).2.1]
    exact h.unit j hj

/-- What no division in the divider is, may leave the reorder queue. -/
theorem tail (h : Divider s (d :: roq) (d :: roq)) (idle : s.dividing d = false) :
    Divider s roq roq where
  busy := by
    intro busy
    obtain ⟨e, he, held⟩ := h.busy busy
    refine ⟨e, (List.mem_cons.mp he).resolve_left ?_, held⟩
    rintro rfl
    exact absurd (idle.symm.trans held) Bool.false_ne_true
  flag e he := h.flag e (List.mem_cons_of_mem d he)
  one e he f hf := h.one e (List.mem_cons_of_mem d he) f (List.mem_cons_of_mem d hf)
  unit e he := h.unit e (List.mem_cons_of_mem d he)

section Squash

theorem work_squashLast (flow : Passage cfg s.place (roq ++ [d]) done)
    (e : s.squashLast cfg = some t) (j : Nat) : (t.desc j).fu = (s.desc j).fu ∧
      t.divides j = s.divides j ∧ t.dividing j = s.dividing j := by
  obtain ⟨-, moved⟩ := squashLast_some flow.last e
  have desc : t.desc = Function.update s.desc d (squashed (s.desc d)) := by rw [moved]
  by_cases eq : j = d <;> simp [divides, dividing, desc, eq, squashed]

/-- The youngest instruction is squashed. -/
theorem squashLast (h : Divider s kept (roq ++ [d])) (flow : Passage cfg s.place (roq ++ [d]) done)
    (spare : s.divides d = true → ∀ e ∈ kept, s.dividing e = false)
    (e : s.squashLast cfg = some t) : Divider t kept roq := by
  have last := h.unit d (by simp)
  have unit := fun e he => h.unit e (List.mem_append_left [d] he)
  have one := fun e he f hf => h.one e (List.mem_append_left [d] he) f (List.mem_append_left [d] hf)
  obtain ⟨-, moved⟩ := squashLast_some flow.last e
  have busy : t.fuBusy = Function.update s.fuBusy (s.desc d).fu false := by rw [moved]
  have work := work_squashLast flow e
  constructor
  case busy =>
    intro held
    by_cases div : s.divides d = true
    · rw [busy, last.mpr div, Function.update_self] at held
      cases held
    · rw [busy, Function.update_of_ne fun same => div (last.mp same.symm)] at held
      obtain ⟨j, hj, there⟩ := h.busy held
      refine ⟨j, ?_, (work j).2.2.trans there⟩
      rcases List.mem_append.mp hj with hj | hj
      · exact hj
      · rw [List.mem_singleton.mp hj, dividing] at there
        simp only [Bool.and_eq_true] at there
        exact absurd there.1.1 div
  case flag =>
    intro j hj there
    rw [(work j).2.2] at there
    have open' : s.divides d ≠ true := fun div =>
      absurd ((spare div j hj).symm.trans there) Bool.false_ne_true
    rw [busy, Function.update_of_ne fun same => open' (last.mp same.symm)]
    exact h.flag j hj there
  case one =>
    intro i hi j hj
    rw [(work i).2.2, (work j).2.2]
    exact one i hi j hj
  case unit =>
    intro j hj
    rw [(work j).1, (work j).2.1]
    exact unit j hj

/-- All behind `kept` are squashed, among them no division that is not in the divider while a
kept one is. -/
theorem squashAll {gone : List Nat} (h : Divider s kept (kept ++ gone))
    (flow : Passage cfg s.place (kept ++ gone) done)
    (spare : ∀ d ∈ gone, s.divides d = true → ∀ e ∈ kept, s.dividing e = false)
    (e : s.squashAll cfg gone.length = some t) :
    Divider t kept kept ∧ ∀ d, t.dividing d = s.dividing d := by
  induction gone using List.reverseRecOn generalizing s with
  | nil =>
    cases e
    rw [List.append_nil] at h
    exact ⟨h, fun _ => rfl⟩
  | append_singleton gone d ih =>
    rw [List.length_append, List.length_singleton, Backend.squashAll] at e
    obtain ⟨u, first, e⟩ := Option.bind_eq_some_iff.mp e
    rw [← List.append_assoc] at h flow
    have work := work_squashLast flow first
    obtain ⟨kept, same⟩ := ih (h.squashLast flow (spare d (by simp)) first) (flow_squashLast flow first)
      (fun x hx div y hy => by
        rw [(work y).2.2]
        rw [(work x).2.1] at div
        exact spare x (List.mem_append_left [d] hx) div y hy) e
    exact ⟨kept, fun d => (same d).trans (work d).2.2⟩

/-- `pipeline_flush` frees the divider. -/
theorem pipelineFlush (h : Divider s roq roq) (flow : Passage cfg s.place roq done)
    (e : s.pipelineFlush cfg = some t) :
    Divider t [] [] ∧ ∀ d, t.dividing d = s.dividing d := by
  obtain ⟨u, dropped, all, rfl⟩ := pipelineFlush_some flow e
  have works := works_tracerRecover (decode_nodup flow) 0
  have before : Divider (s.tracerRecover 0) [] ([] ++ roq) :=
    { h.congr works with flag := fun _ none => by cases none }
  obtain ⟨after, same⟩ := before.squashAll dropped (fun _ _ _ _ none => by cases none) all
  exact ⟨after.congr rfl, fun d => (same d).trans (dividing_eq works d)⟩

/-- The condition of a recovery from a mispredicted branch. -/
theorem brerrRecover {i : Nat} (h : Divider s roq roq) (flow : Passage cfg s.place roq done)
    (hi : i < roq.length) (slot : i + 1 < roq.length)
    (spare : ∀ d ∈ roq.drop (lastKept (s.desc roq[i]) i + 1), s.divides d = true →
      ∀ e ∈ roq.take (lastKept (s.desc roq[i]) i + 1), s.dividing e = false)
    (e : s.brerrRecover cfg roq[i] = some t) :
    Divider t (roq.take (lastKept (s.desc roq[i]) i + 1)) (roq.take (lastKept (s.desc roq[i]) i + 1)) ∧
      ∀ d, t.dividing d = s.dividing d := by
  obtain ⟨u, squashed, rfl⟩ := brerrRecover_some flow hi slot e
  generalize lastKept (s.desc roq[i]) i + 1 = n at *
  have whole := List.take_append_drop n roq
  have part : Divider s (roq.take n) (roq.take n ++ roq.drop n) := by
    rw [whole]
    exact { h with flag := fun d hd => h.flag d (List.mem_of_mem_take hd) }
  rw [← whole] at flow
  rw [← List.length_drop] at squashed
  obtain ⟨kept, same⟩ := part.squashAll flow spare squashed
  have works : (u.tracerRecover (s.desc roq[i]).specLevel).works = u.works :=
    works_tracerRecover (decode_nodup (flow_squashAll flow squashed)) _
  exact ⟨kept.congr works, fun d => (dividing_eq works d).trans (same d)⟩

end Squash

section Steps

/-- A branch is no division. -/
theorem ctrl_divides (ctrl : (s.desc d).ctrl = true) : s.divides d = false := by
  rw [Descript.ctrl] at ctrl
  rw [divides]
  cases op : (s.desc d).op <;> rw [op] at ctrl <;> first | rfl | cases ctrl

theorem work_resolved (ctrl : (s.desc d).ctrl = true) (j : Nat) :
    ((s.resolved d).desc j).fu = (s.desc j).fu ∧ (s.resolved d).divides j = s.divides j ∧
      (s.resolved d).dividing j = s.dividing j := by
  by_cases eq : j = d
  · have none := ctrl_divides ctrl
    rw [divides] at none
    simp [dividing, divides, Backend.resolved, eq, none]
  · simp only [dividing, divides, Backend.resolved, modDesc_of_ne s eq, and_self]

theorem resolved (h : Divider s roq roq) (ctrl : (s.desc d).ctrl = true) :
    Divider (s.resolved d) roq roq :=
  h.unseen rfl fun j _ => work_resolved ctrl j

/-- An operation completes: a division leaves the divider. -/
theorem finish (h : Divider s roq roq) (here : d ∈ roq) (e : s.finish d = some t) :
    Divider t roq roq := by
  obtain ⟨⟨-, -, issued, fresh⟩, -⟩ := finish_some e
  have busy : (s.finished d).fuBusy = Function.update s.fuBusy (s.desc d).fu false := rfl
  have work (j : Nat) : ((s.finished d).desc j).fu = (s.desc j).fu ∧
      (s.finished d).divides j = s.divides j ∧
      (s.finished d).dividing j = (s.dividing j && decide (j ≠ d)) := by
    by_cases eq : j = d
    · by_cases ctrl : (s.desc d).ctrl = true
      · have none := ctrl_divides ctrl
        rw [divides] at none
        simp [divides, dividing, finished, eq, ctrl, none]
      · simp [divides, dividing, finished, eq, ctrl]
    · simp [divides, dividing, finished, eq]
  have done : Divider (s.finished d) roq roq := by
    constructor
    case busy =>
      intro held
      have div : (s.desc d).fu ≠ divider := by
        intro same
        rw [busy, same, Function.update_self] at held
        cases held
      rw [busy, Function.update_of_ne div.symm] at held
      obtain ⟨j, hj, there⟩ := h.busy held
      refine ⟨j, hj, ?_⟩
      have ne : j ≠ d := by
        rintro rfl
        simp only [dividing, Bool.and_eq_true] at there
        exact div ((h.unit j hj).mpr there.1.1)
      rw [(work j).2.2, there, decide_eq_true ne]
      rfl
    case flag =>
      intro j hj there
      rw [(work j).2.2, Bool.and_eq_true, decide_eq_true_eq] at there
      obtain ⟨there, ne⟩ := there
      rw [busy, Function.update_of_ne]
      · exact h.flag j hj there
      · intro same
        have div : s.divides d = true := (h.unit d here).mp same.symm
        have both : s.dividing d = true := by simp [dividing, div, issued, fresh]
        exact ne (h.one j hj d here there both)
    case one =>
      intro i hi j hj
      rw [(work i).2.2, (work j).2.2, Bool.and_eq_true, Bool.and_eq_true]
      exact fun a b => h.one i hi j hj a.1 b.1
    case unit =>
      intro j hj
      rw [(work j).1, (work j).2.1]
      exact h.unit j hj
  exact done.congr (works_finish e)

/-- A division goes to the divider only when it is free. -/
theorem issueInst {l : RsLink} (h : Divider s roq roq) (here : l.rs ∈ roq)
    (ready : issuable (s.desc l.rs) = true) (free : s.fuBusy (s.desc l.rs).fu = false)
    (cls : (s.desc l.rs).fu.cls = .intDIV ↔ s.divides l.rs = true) (e : s.issueInst l = some t) :
    Divider t roq roq := by
  simp only [issuable, Bool.and_eq_true, Bool.not_eq_true'] at ready
  have work (j : Nat) : ((s.issued l.rs).desc j).fu = (s.desc j).fu ∧
      (s.issued l.rs).divides j = s.divides j ∧ (s.issued l.rs).dividing j =
        (s.dividing j || decide (j = l.rs) && s.divides l.rs) := by
    by_cases eq : j = l.rs
    · simp [divides, dividing, issued, eq, ready]
    · simp [divides, dividing, issued, eq]
  have entered : Divider (s.issued l.rs) roq roq := by
    by_cases div : s.divides l.rs = true
    · have unit := (h.unit l.rs here).mpr div
      have idle (j : Nat) (hj : j ∈ roq) : s.dividing j = false := by
        by_contra there
        have held := h.flag j hj (Bool.eq_true_of_not_eq_false there)
        rw [unit, held] at free
        cases free
      have busy : (s.issued l.rs).fuBusy divider = true := by
        have kind : divider.cls = .intDIV := rfl
        simp only [issued, unit, if_pos kind, Function.update_self]
      have only (j : Nat) (hj : j ∈ roq) : (s.issued l.rs).dividing j = true ↔ j = l.rs := by
        rw [(work j).2.2, idle j hj, div]
        simp
      exact
        { busy := fun _ => ⟨l.rs, here, (only l.rs here).mpr rfl⟩
          flag := fun _ _ _ => busy
          one := fun i hi j hj a b => ((only i hi).mp a).trans ((only j hj).mp b).symm
          unit := fun j hj => by
            rw [(work j).1, (work j).2.1]
            exact h.unit j hj }
    · have busy : (s.issued l.rs).fuBusy = s.fuBusy := by
        have other : ¬(s.desc l.rs).fu.cls = .intDIV := fun kind => div (cls.mp kind)
        simp only [issued, if_neg other]
      refine h.unseen (congrFun busy divider) fun j _ => ⟨(work j).1, (work j).2.1, ?_⟩
      rw [(work j).2.2, Bool.eq_false_of_not_eq_true div]
      simp
  obtain ⟨works, -, -⟩ := works_issueInst e
  have desc (j : Nat) : (t.desc j).op = ((s.issued l.rs).desc j).op ∧
      (t.desc j).fu = ((s.issued l.rs).desc j).fu ∧
      (t.desc j).issued = ((s.issued l.rs).desc j).issued ∧
      (t.desc j).completed = ((s.issued l.rs).desc j).completed :=
    ⟨congrFun (congrArg Works.op works) j, congrFun (congrArg Works.fu works) j,
      congrFun (congrArg Works.issued works) j, congrFun (congrArg Works.completed works) j⟩
  refine entered.unseen (congrFun (congrArg Works.fuBusy works) divider) fun j _ => ?_
  obtain ⟨op, fu, issued, completed⟩ := desc j
  have div : t.divides j = (s.issued l.rs).divides j := by rw [divides, divides, op]
  exact ⟨fu, div, by rw [dividing, dividing, div, issued, completed]⟩

/-- The instructions of the reorder queue are looked at only. -/
theorem beside (h : Divider s roq roq) (same : Coherent.Beside d s t) (outside : d ∉ roq) :
    Divider t roq roq := by
  refine h.unseen (congrFun same.fuBusy divider) fun j hj => ?_
  have ne : j ≠ d := by
    rintro rfl
    exact outside hj
  have standing := (same.other j ne).2
  have op : (t.desc j).op = (s.desc j).op := congrArg Standing.op standing
  have issued : (t.desc j).issued = (s.desc j).issued := congrArg Standing.issued standing
  have completed : (t.desc j).completed = (s.desc j).completed :=
    congrArg Standing.completed standing
  have div : t.divides j = s.divides j := by rw [divides, divides, op]
  refine ⟨congrArg Standing.fu standing, div, ?_⟩
  rw [dividing, dividing, div, issued, completed]

/-- A new instruction of the reorder queue has not been issued. -/
theorem mapInst {rest : List Nat} (h : Divider s roq roq) (coherent : Coherent cfg s roq done)
    (queue : s.decodeData = d :: rest) (next : Coherent cfg t (roq ++ [d]) done)
    (e : s.mapInst cfg = some t) : Divider t (roq ++ [d]) (roq ++ [d]) := by
  have outside : d ∉ roq := by
    have once := coherent.flight_nodup
    rw [queue] at once
    exact fun hd => List.disjoint_of_nodup_append once hd List.mem_cons_self
  have here : d ∈ s.ledger.decodeData := by
    change d ∈ s.decodeData
    rw [queue]
    exact List.mem_cons_self
  have waits : (s.desc d).issued = false := (coherent.booked.decoded d here).1.issued
  have works : t.works = (s.placed cfg d rest).works := by
    rw [mapInst_eq cfg queue] at e
    split_ifs at e
    · exact works_readyqEnqueue e
    · cases e
      rfl
  have busy : t.fuBusy = s.fuBusy := (busy_eq works).trans rfl
  have work (j : Nat) (hj : j ∈ roq) : (t.desc j).fu = (s.desc j).fu ∧
      t.divides j = s.divides j ∧ t.dividing j = s.dividing j := by
    have ne : j ≠ d := by
      rintro rfl
      exact outside hj
    rw [(work_eq works j).2.1, divides_eq works, dividing_eq works]
    simp [placed, divides, dividing, ne]
  have fresh : t.dividing d = false := by
    rw [dividing_eq works]
    simp [placed, dividing, waits]
  have old := h.unseen (congrFun busy divider) work
  have last {j : Nat} (hj : j ∈ roq ++ [d]) (there : t.dividing j = true) : j ∈ roq := by
    refine (List.mem_append.mp hj).resolve_right fun same => ?_
    rw [List.mem_singleton.mp same, fresh] at there
    cases there
  constructor
  case busy =>
    intro held
    obtain ⟨j, hj, there⟩ := old.busy held
    exact ⟨j, List.mem_append_left [d] hj, there⟩
  case flag => exact fun j hj there => old.flag j (last hj there) there
  case one => exact fun i hi j hj a b => old.one i (last hi a) j (last hj b) a b
  case unit => exact fun j hj => next.unit hj

end Steps

section Runs

/-- The divider in a state of the pipeline. -/
def Exclusive (cfg : BackendConfig) (s : Backend) : Prop :=
  ∃ roq done, Coherent cfg s roq done ∧ Divider s roq roq

theorem bumped (h : Divider s roq roq) (d : Nat) : Divider (Coherent.bumped d s) roq roq :=
  h.congr (works_modDesc _ ⟨rfl, rfl, rfl, rfl, rfl⟩)

theorem dividing_bumped (d j : Nat) (s : Backend) :
    (Coherent.bumped d s).dividing j = s.dividing j :=
  dividing_eq (works_modDesc _ ⟨rfl, rfl, rfl, rfl, rfl⟩) j

/-- What a round of `commit_stage` leaves in the divider. -/
theorem commitInst {more : Bool} (div : Divider s roq roq) (h : Coherent cfg s roq done)
    (filled : 0 < s.roqNum) (e : s.commitInst cfg = some (t, more)) :
    Exclusive cfg t ∧ ∀ j, t.dividing j = s.dividing j := by
  obtain ⟨d, rest, rfl, same | ⟨completed, -, flushed | left⟩⟩ := h.commit_cases filled e
  · exact ⟨⟨_, done, same ▸ h, same ▸ div⟩, fun j => by rw [same]⟩
  · have before := h.bumped_coherent d
    obtain ⟨none, same⟩ := (div.bumped d).pipelineFlush before.flow flushed
    exact ⟨⟨[], done, before.flush flushed, none⟩, fun j => (same j).trans (dividing_bumped d j s)⟩
  · obtain ⟨done, next⟩ := h.retire completed left
    have idle : s.dividing d = false := by simp [dividing, completed]
    have idle' : (Coherent.bumped d s).dividing d = false := (dividing_bumped d d s).trans idle
    obtain ⟨desc, busy⟩ : t.desc = (Coherent.bumped d s).desc ∧
        t.fuBusy = (Coherent.bumped d s).fuBusy := by
      obtain ⟨-, -, -, rfl⟩ := retire_some left
      exact ⟨rfl, rfl⟩
    have div' (j : Nat) : t.divides j = (Coherent.bumped d s).divides j := by
      rw [divides, divides, desc]
    have same (j : Nat) : t.dividing j = (Coherent.bumped d s).dividing j := by
      rw [dividing, dividing, div', desc]
    have after := ((div.bumped d).tail idle').unseen (congrFun busy divider)
      fun j _ => ⟨by rw [desc], div' j, same j⟩
    exact ⟨⟨rest, done, next, after⟩, fun j => (same j).trans (dividing_bumped d j s)⟩

theorem commitLoop {n : Nat} (h : Exclusive cfg s) (e : s.commitLoop cfg n = some t) :
    Exclusive cfg t ∧ ∀ j, t.dividing j = s.dividing j := by
  induction n generalizing s with
  | zero =>
    cases e
    exact ⟨h, fun _ => rfl⟩
  | succ n ih =>
    rw [Backend.commitLoop] at e
    split at e
    · rename_i filled
      obtain ⟨⟨u, more⟩, first, e⟩ := Option.bind_eq_some_iff.mp e
      obtain ⟨roq, done, coherent, div⟩ := h
      obtain ⟨next, same⟩ := div.commitInst coherent filled first
      simp only at e
      split at e
      · obtain ⟨last, rest⟩ := ih next e
        exact ⟨last, fun j => (rest j).trans (same j)⟩
      · cases e
        exact ⟨next, same⟩
    · cases e
      exact ⟨h, fun _ => rfl⟩

/-- What `check_brq` leaves in the divider. -/
theorem checkBrq (div : Divider s roq roq) (h : Coherent cfg s roq done)
    (spares : SparesDivider cfg s) (e : s.checkBrq cfg = some t) :
    Exclusive cfg t ∧ ∀ j, t.dividing j = s.dividing j := by
  rcases h.checkBrq_cases e with
    same | ⟨i, hi, ctrl, back, ⟨right, same⟩ | ⟨wrong, slot, branch, e⟩⟩
  · exact ⟨⟨roq, done, same ▸ h, same ▸ div⟩, fun j => by rw [same]⟩
  · rw [same]
    exact ⟨⟨roq, done, h.right (List.getElem_mem hi) ctrl back right, div.resolved ctrl⟩,
      fun j => (work_resolved ctrl j).2.2⟩
  · have index : roq.idxOf roq[i] = i := h.flow.nodup.idxOf_getElem i hi
    have spare := spares roq[i] (Option.mem_def.mpr branch)
    rw [squashedBy, keptBy, h.inRoq_eq, index] at spare
    have flow : Passage cfg (s.resolved roq[i]).place roq done :=
      (layout_eq.mp (Coherent.layout_resolved roq[i] s)).1 ▸ h.flow
    have kept : lastKept ((s.resolved roq[i]).desc roq[i]) i = lastKept (s.desc roq[i]) i := by
      rw [Backend.resolved, modDesc_self]
      rfl
    obtain ⟨after, same⟩ := (div.resolved ctrl).brerrRecover flow hi slot (fun d hd divides x hx => by
      rw [kept] at hd hx
      rw [(work_resolved ctrl d).2.1] at divides
      rw [(work_resolved ctrl x).2.2]
      exact spare d hd divides x hx) e
    rw [kept] at after
    exact ⟨⟨_, done, h.recover hi slot ctrl back wrong e, after⟩,
      fun j => (same j).trans (work_resolved ctrl j).2.2⟩

theorem cls (div : Divider s roq roq) (h : Coherent cfg s roq done) (here : d ∈ roq) :
    (s.desc d).fu.cls = .intDIV ↔ s.divides d = true := by
  rw [← div.unit d here]
  constructor
  · intro kind
    have unit : (s.desc d).fu.unit ∈ (s.desc d).fu.cls.units := (h.booked.seated d here).unit
    rw [kind] at unit
    have one : (s.desc d).fu.unit = 1 := List.mem_singleton.mp unit
    rw [divider, ← one, ← kind]
  · intro same
    rw [same]
    rfl

theorem deliver {time : Nat} {l : RsLink} {rest : List (Nat × RsLink)}
    (div : Divider s roq roq) (h : Coherent cfg s roq done)
    (queue : s.eventQueue = (time, l) :: rest) (e : s.deliver l rest = some t) :
    Divider t roq roq := by
  have front : (time, l) ∈ s.eventQueue := by
    rw [queue]
    exact List.mem_cons_self
  have popped : Divider ({ s with eventQueue := rest }.rslinkFree l) roq roq := div.congr rfl
  simp only [Backend.deliver] at e
  split at e
  · rename_i valid
    exact popped.finish (h.accesses.event _ front valid).1 e
  · cases e
    exact popped

theorem fetchInst (div : Divider s roq roq) (h : Coherent cfg s roq done) (f : Fetched)
    (free : s.fetchData.length < cfg.fetchIfqSize)
    (room : FetchRoom cfg f s.fetchData.length) : Divider (s.fetchInst cfg f).1 roq roq :=
  h.fetchInst_beside (P := fun u => Divider u roq roq) f free room
    (fun _ _ _ div same outside => div.beside same outside) div

/-- Every step whose recoveries spare the divider keeps at most one division in it. -/
theorem micro {tight : Prop} (h : Exclusive cfg s)
    (step : Micro cfg tight (SparesDivider cfg) s t) : Exclusive cfg t := by
  obtain ⟨roq, done, coherent, div⟩ := h
  cases step with
  | tick => exact ⟨roq, done, coherent.tick, div.congr rfl⟩
  | releaseFu => exact ⟨roq, done, coherent.releaseFu, div.congr rfl⟩
  | commit filled e => exact (div.commitInst coherent filled e).1
  | checkBrq spares e => exact (div.checkBrq coherent spares e).1
  | deliver queue e =>
    exact ⟨roq, done, coherent.deliver queue e, div.deliver coherent queue e⟩
  | lsqLook a e => exact ⟨roq, done, coherent.lsqLook e, div.congr (works_lsqLook e)⟩
  | freeOne state =>
    obtain ⟨done, next⟩ := coherent.freeOne state
    exact ⟨roq, done, next, div.congr rfl⟩
  | drainOne head => exact ⟨roq, done, coherent.drainOne head, div.congr rfl⟩
  | dcache a => exact ⟨roq, done, coherent.dcache a, div.congr (works_dcache a s)⟩
  | nextValidNode unit =>
    exact ⟨roq, done, coherent.nextValidNode unit, div.congr (works_nextValidNode _ s)⟩
  | choose fu => exact ⟨roq, done, coherent.choose fu, div.congr rfl⟩
  | issueInst which valid ready free _ e =>
    have here := coherent.chosen_here which valid ready
    exact ⟨roq, done, coherent.issueInst which valid ready e,
      div.issueInst here ready free (div.cls coherent here) e⟩
  | mapInst queue room _ e =>
    have next := coherent.mapInst queue room e
    exact ⟨_, done, next, div.mapInst coherent queue next e⟩
  | decodeInst o queue e =>
    exact ⟨roq, done, coherent.decodeInst queue e,
      div.beside (Coherent.Only.decodeInst queue e).toBeside (front_apart coherent.flow queue)⟩
  | fetchInst f free room =>
    exact ⟨roq, done, coherent.fetchInst f free room, div.fetchInst coherent f free room⟩

/-- The condition of a run: the fetch queue does not overflow, and recoveries spare the
divider. -/
def Spares (cfg : BackendConfig) (s : Backend) (a : Stage) : Prop :=
  Fits cfg s a ∧ (a = .checkBrq → SparesDivider cfg s)

theorem reachable (h : Reachable cfg (Spares cfg) s) : Exclusive cfg s := by
  have room : ∀ s a, Spares cfg s a → Fits cfg s a ∧ (False → BranchesFit cfg s a) ∧
      (a = .checkBrq → SparesDivider cfg s) :=
    fun s a meets => ⟨meets.1, False.elim, meets.2⟩
  have start : Exclusive cfg Backend.start := by
    refine ⟨[], [], Coherent.start cfg, ?_⟩
    constructor <;> intro j <;> intros <;> contradiction
  refine reachable_invariant (I := Exclusive cfg) room start (fun s t h step => micro h step) ?_ ?_ h
  · rintro s ⟨roq, done, coherent, -⟩
    exact coherent.ports
  · rintro s ⟨roq, done, coherent, -⟩
    exact coherent.single

/-- At most one division is in the divider, which is busy just then; and the squashes of a
stage free it only of a division that they squash. -/
theorem exclusive (h : Reachable cfg (Spares cfg) s) :
    (∀ d ∈ s.inRoq cfg, ∀ e ∈ s.inRoq cfg, s.dividing d = true → s.dividing e = true → d = e) ∧
      (s.fuBusy divider = true ↔ ∃ d ∈ s.inRoq cfg, s.dividing d = true) ∧
      ∀ a t, a = .commit ∨ a = .checkBrq → Spares cfg s a → s.stage cfg a = some t →
        s.fuBusy divider = true → t.fuBusy divider = false →
        ∃ d ∈ s.inRoq cfg, s.dividing d = true ∧ d ∉ t.inRoq cfg := by
  obtain ⟨roq, done, coherent, div⟩ := reachable h
  rw [coherent.inRoq_eq]
  refine ⟨div.one, ⟨div.busy, fun ⟨d, hd, there⟩ => div.flag d hd there⟩, ?_⟩
  intro a t squash spares moved busy freed
  have after : Exclusive cfg t ∧ ∀ j, t.dividing j = s.dividing j := by
    rcases squash with rfl | rfl
    · exact commitLoop ⟨roq, done, coherent, div⟩ moved
    · exact div.checkBrq coherent (spares.2 rfl) moved
  obtain ⟨⟨roq', done', coherent', div'⟩, same⟩ := after
  obtain ⟨d, hd, there⟩ := div.busy busy
  refine ⟨d, hd, there, fun left => ?_⟩
  rw [coherent'.inRoq_eq] at left
  have held := div'.flag d left ((same d).trans there)
  exact absurd (freed.symm.trans held) Bool.false_ne_true

/-- A division, a branch that is mispredicted, its delay slot and another division. -/
def twoDivisions : List Stage :=
  let outcome : Nat → Outcome := fun n => if n = 2 then { wrong := true } else { divDelay := 30 }
  [.fetch [⟨0x0022001a#32, true⟩, ⟨0x10000002#32, true⟩, ⟨nopInst, true⟩], .decode outcome,
    .fetch [⟨0x0022001a#32, true⟩], .map, .issue, .decode outcome, .issue, .map, .tick, .writeback]

/-- Recoveries spare the divider. -/
def sparing (cfg : BackendConfig) (s : Backend) : Stage → Bool
  | .checkBrq => decide (SparesDivider cfg s)
  | _ => true

theorem exclusive_entered : ∃ t : Backend, (t.inRoq {}).filter t.dividing = [79] ∧
    t.fuBusy divider = true := by
  have run : (runs {} (sparing {}) twoDivisions Backend.start).map
      (fun t => (t.inRoq {}).filter t.dividing) = some [79] := by
    decide +kernel
  obtain ⟨t, moved, one⟩ := Option.map_eq_some_iff.mp run
  have reached : Reachable {} (Spares {}) t := by
    refine reachable_runs (fun s a ok => ⟨fits_same {} rfl s a, ?_⟩) .start moved
    rintro rfl
    exact of_decide_eq_true ok
  obtain ⟨-, busy, -⟩ := exclusive reached
  have here : 79 ∈ (t.inRoq {}).filter t.dividing := by
    rw [one]
    exact List.mem_singleton_self 79
  exact ⟨t, one, busy.mpr ⟨79, List.mem_filter.mp here⟩⟩

/-- The recovery from the branch squashes the second division, and both halves of the first one
get into the divider. -/
theorem exclusive_lost : ∃ t : Backend, Reachable {} (Fits {}) t ∧
    (t.inRoq {}).filter t.dividing = [79, 78] := by
  have run : (runs {} (fun _ _ => true) (twoDivisions ++ [.checkBrq, .releaseFu, .issue, .issue])
      Backend.start).map (fun t => (t.inRoq {}).filter t.dividing) = some [79, 78] := by
    decide +kernel
  obtain ⟨t, moved, two⟩ := Option.map_eq_some_iff.mp run
  exact ⟨t, reachable_runs (fun s a _ => fits_same {} rfl s a) .start moved, two⟩

end Runs

end Divider

end Godson.Backend
