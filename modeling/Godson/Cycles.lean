import Godson.Pacing

/-! Whole cycles of a core, as `cpu_execute` runs them. -/
namespace Godson.Backend

open Mips

variable {cfg : BackendConfig} {s t u : Backend} {roq done : List Nat} {limit : Nat}

section Cycle

theorem simCycle_micro {tight : Prop} {safe : Backend → Prop} (h : Coherent cfg s roq done)
    (step : Micro cfg tight safe s t) : s.simCycle ≤ t.simCycle := by
  cases step with
  | tick => exact Nat.le_succ _
  | releaseFu => exact Nat.le_refl _
  | commit filled e =>
    obtain ⟨_, _, _, k, _⟩ := Keeps.commitInst h filled e
    exact Nat.le_of_eq k.clock.symm
  | checkBrq _ e =>
    obtain ⟨_, _, k, _⟩ := Keeps.checkBrq h e
    exact Nat.le_of_eq k.clock.symm
  | deliver _ e => exact Nat.le_of_eq (simCycle_deliver e).symm
  | lsqLook a e =>
    have moved : (({ s with lsqWtbki := s.lsqSelect cfg a }.dtagcmp a).markEx a).simCycle =
        s.simCycle := by
      simp only [dtagcmp, markEx]
      split <;> rfl
    simp only [lsqLook] at e
    split at e
    · obtain ⟨-, id, pool, -, rfl⟩ := eventqQueueEvent_some e
      exact Nat.le_of_eq moved.symm
    · cases e
      exact Nat.le_of_eq moved.symm
  | freeOne _ => exact Nat.le_refl _
  | drainOne _ => exact Nat.le_refl _
  | dcache a => exact Nat.le_of_eq (simCycle_dcache a s).symm
  | nextValidNode _ =>
    rw [nextValidNode, rslinkFreeAll_eq]
  | choose _ => exact Nat.le_refl _
  | issueInst _ _ _ _ _ e =>
    obtain ⟨u, v, oplat, first, rfl, e⟩ := issueInst_some e
    obtain ⟨-, rfl⟩ := deleteNode_some e
    rw [countIssue_eq]
    split at first
    · obtain ⟨-, -, -, rfl⟩ := lsqIssue_some first
      exact Nat.le_refl _
    · obtain ⟨-, id, pool, -, rfl⟩ := eventqQueueEvent_some first
      exact Nat.le_refl _
  | @mapInst _ rs rest queue _ _ e =>
    have outside : rs ∉ roq := fun hd =>
      (h.flow.apart hd).2.2.1 (show rs ∈ s.decodeData from queue ▸ List.mem_cons_self)
    exact Nat.le_of_eq (Keeps.mapInst outside queue e).clock.symm
  | decodeInst o queue e => exact Nat.le_of_eq (simCycle_decodeInst queue e).symm
  | fetchInst f free room => exact Nat.le_of_eq (Keeps.chosen_fetchInst f room).2.symm

theorem simCycle_stage {a : Stage} (h : Reachable cfg (Fits cfg) s) (fits : Fits cfg s a)
    (e : s.stage cfg a = some t) : s.simCycle ≤ t.simCycle := by
  obtain ⟨done, alert⟩ := Alert.reachable h
  have coherent := alert.coherent
  have steps : Steps cfg False (fun _ => True) s t :=
    stage_steps coherent.ports coherent.single fits False.elim (fun _ => trivial) e
  have both := steps.invariant (I := fun u => (∃ roq done, Coherent cfg u roq done) ∧
    s.simCycle ≤ u.simCycle) ?_ ⟨⟨_, done, coherent⟩, Nat.le_refl _⟩
  · exact both.2
  · rintro u v ⟨⟨roq, done, coherent⟩, later⟩ step
    exact ⟨Coherent.micro coherent step, later.trans (simCycle_micro coherent step)⟩

/-- A state within a cycle. The events of the memory operations are due by the cycle `limit`. -/
structure Midway (cfg : BackendConfig) (limit : Nat) (s : Backend) : Prop where
  reached : Reachable cfg (Fits cfg) s
  going : ∃ roq done, Going cfg limit s roq done

namespace Midway

theorem parts (h : Midway cfg limit s) : ∃ done, Going cfg limit s (s.inRoq cfg) done ∧
    Alert cfg s (s.inRoq cfg) done ∧ Scheduled s (s.inRoq cfg) := by
  obtain ⟨roq, done, going⟩ := h.going
  obtain ⟨done', alert⟩ := Alert.reachable h.reached
  have same := going.coherent.inRoq_eq
  subst same
  exact ⟨done', ⟨alert.coherent, going.paced, going.undone⟩, alert, Scheduled.reachable h.reached⟩

theorem later {limit' : Nat} (h : Midway cfg limit s) (le : limit ≤ limit') :
    Midway cfg limit' s := by
  obtain ⟨roq, done, going⟩ := h.going
  have soon := going.paced.soon
  exact ⟨h.reached, roq, done, going.coherent, ⟨going.paced.once,
    fun d hd mem x hx marked => (soon d hd mem x hx marked).trans le, going.paced.sorted⟩,
    going.undone⟩

theorem commit_total (narrow : cfg.mapWidth ≤ 4) (h : Midway cfg limit s)
    (trap : ∀ d ∈ s.inRoq cfg, (s.desc d).trap = false) : ∃ t, s.stage cfg .commit = some t := by
  obtain ⟨done, -, alert, -⟩ := h.parts
  obtain ⟨roq, done', coherent, brq, bound⟩ := Stocked.narrow narrow h.reached
  have same : s.inRoq cfg = roq := coherent.inRoq_eq
  rw [← same] at brq
  exact Untrapped.commitLoop_total ⟨alert, brq, bound, trap⟩ cfg.commitWidth

theorem commit (h : Midway cfg limit s) (e : s.stage cfg .commit = some t) :
    Midway cfg limit t ∧ s.poolSize ≤ t.poolSize := by
  obtain ⟨done, going, -, -⟩ := h.parts
  obtain ⟨roq, done', next, more⟩ := going.commitLoop e
  exact ⟨⟨.step (a := .commit) h.reached trivial e, roq, done', next⟩, more⟩

theorem releaseFu (h : Midway cfg limit s) : Midway cfg limit s.releaseFu := by
  have reached : Reachable cfg (Fits cfg) s.releaseFu :=
    .step (a := .releaseFu) h.reached trivial rfl
  obtain ⟨done, going, -, -⟩ := h.parts
  obtain ⟨done', alert⟩ := Alert.reachable reached
  exact ⟨reached, _, done', going.still alert.coherent rfl rfl rfl rfl rfl⟩

theorem checkBrq_total (narrow : cfg.mapWidth ≤ 4) (h : Midway cfg limit s) :
    ∃ t, s.stage cfg .checkBrq = some t := by
  obtain ⟨roq, done, coherent, brq, -⟩ := Stocked.narrow narrow h.reached
  exact Backend.checkBrq_total coherent brq

theorem checkBrq (h : Midway cfg limit s) (e : s.stage cfg .checkBrq = some t) :
    Midway cfg limit t ∧ s.poolSize ≤ t.poolSize := by
  obtain ⟨done, going, -, -⟩ := h.parts
  obtain ⟨roq, done', next, more⟩ := going.checkBrq e
  exact ⟨⟨.step (a := .checkBrq) h.reached trivial e, roq, done', next⟩, more⟩

theorem writeback (h : Midway cfg limit s) (due : limit ≤ s.simCycle) :
    ∃ t, s.stage cfg .writeback = some t ∧ Midway cfg t.simCycle t ∧
      (∀ roq done, Coherent cfg t roq done → t.Quiet roq) ∧ s.poolSize ≤ t.poolSize := by
  obtain ⟨done, going, alert, sched⟩ := (h.later due).parts
  obtain ⟨t, roq, done', e, more, clock, next, quiet⟩ :=
    going.writebackLoop alert sched (Nat.le_refl _)
  refine ⟨t, e, ⟨.step (a := .writeback) h.reached trivial e, roq, done', clock ▸ next⟩,
    fun roq' done'' coherent => ?_, more⟩
  have same : roq = roq' := next.coherent.inRoq_eq.symm.trans coherent.inRoq_eq
  exact same ▸ quiet

theorem lsq_total (h : Midway cfg limit s) (pool : 0 < s.poolSize) (a : LsqAnswer) :
    ∃ t, s.stage cfg (.lsq a) = some t := by
  obtain ⟨done, going, -, -⟩ := h.parts
  exact going.lsqStage_total pool a

theorem lsq {a : LsqAnswer} (h : Midway cfg limit s)
    (quiet : ∀ roq done, Coherent cfg s roq done → s.Quiet roq)
    (e : s.stage cfg (.lsq a) = some t) :
    Midway cfg (s.simCycle + 1) t ∧ t.Ported ∧ s.poolSize ≤ t.poolSize + 1 := by
  obtain ⟨done, going, -, -⟩ := h.parts
  obtain ⟨done', next, less, ported⟩ := going.lsqStage (quiet _ _ going.coherent) e
  exact ⟨⟨.step (a := .lsq a) h.reached trivial e, _, done', next⟩, ported, less⟩

theorem issue_total (h : Midway cfg limit s) (ported : s.Ported) (pool : 0 < s.poolSize) :
    ∃ t, s.stage cfg .issue = some t ∧ s.poolSize ≤ t.poolSize := by
  obtain ⟨done, going, alert, sched⟩ := h.parts
  exact going.issueStage_total alert sched ported pool

theorem issue (h : Midway cfg limit s) (e : s.stage cfg .issue = some t) : Midway cfg limit t := by
  obtain ⟨done, going, alert, sched⟩ := h.parts
  obtain ⟨done', next⟩ := going.issueStage alert sched e
  exact ⟨.step (a := .issue) h.reached trivial e, _, done', next⟩

theorem map_total (h : Midway cfg limit s) (pool : cfg.mapWidth ≤ s.poolSize) :
    ∃ t, s.stage cfg .map = some t := by
  obtain ⟨done, going, -, -⟩ := h.parts
  exact going.mapStage_total pool

theorem map (h : Midway cfg limit s) (e : s.stage cfg .map = some t) : Midway cfg limit t := by
  obtain ⟨done, going, -, -⟩ := h.parts
  obtain ⟨roq, done', next⟩ := going.mapStage e
  exact ⟨.step (a := .map) h.reached trivial e, roq, done', next⟩

theorem decode {o : Nat → Outcome} (h : Midway cfg limit s)
    (e : s.stage cfg (.decode o) = some t) : Midway cfg limit t := by
  refine ⟨.step (a := .decode o) h.reached trivial e, ?_⟩
  obtain ⟨done, going, -, -⟩ := h.parts
  simp only [stage, decodeStage] at e
  split_ifs at e
  · cases e
    exact ⟨_, done, going⟩
  · exact going.decodeLoop e

theorem fetch {fs : List Fetched} (h : Midway cfg limit s) (fits : Fits cfg s (.fetch fs)) :
    Midway cfg limit (s.fetchStage cfg fs) := by
  refine ⟨.step (a := .fetch fs) h.reached fits rfl, ?_⟩
  obtain ⟨done, going, -, -⟩ := h.parts
  rw [fetchStage]
  split_ifs with full
  · exact ⟨_, done, going⟩
  · exact ⟨_, done, going.fetchLoop (fits (Nat.le_of_not_gt full))⟩

theorem tick (h : Midway cfg limit s) : Midway cfg limit { s with simCycle := s.simCycle + 1 } := by
  obtain ⟨done, going, -, -⟩ := h.parts
  have reached : Reachable cfg (Fits cfg) { s with simCycle := s.simCycle + 1 } :=
    .step (a := .tick) h.reached trivial rfl
  obtain ⟨done', alert⟩ := Alert.reachable reached
  exact ⟨reached, _, done', alert.coherent, ⟨going.paced.once, going.paced.soon,
    going.paced.sorted⟩, going.undone⟩

end Midway

variable (cfg)

/-- The stages run one after the other. -/
def stages (l : List Stage) (s : Backend) : Option Backend :=
  l.foldlM (fun s a => s.stage cfg a) s

/-- The stages behind `decode_stage`, as `cpu_execute` calls them. -/
def backStages (a : LsqAnswer) : List Stage :=
  [.commit, .releaseFu, .checkBrq, .writeback, .lsq a, .issue, .map]

/-- One call of `cpu_execute`, and the clock. -/
def cycle (a : LsqAnswer) (o : Nat → Outcome) (fs : List Fetched) (s : Backend) : Option Backend :=
  (s.stages cfg (backStages a)).bind fun t => (t.stage cfg (.decode o)).bind fun u =>
    u.stages cfg [.fetch fs, .tick]

/-- The states between the cycles of a core, from the first on. -/
inductive Cycled : Backend → Prop
  | start : Cycled Backend.start
  | next {s t u v : Backend} {a : LsqAnswer} {o : Nat → Outcome} {fs : List Fetched} : Cycled s →
      s.stages cfg (backStages a) = some t → t.stage cfg (.decode o) = some u →
      Fits cfg u (.fetch fs) → u.stages cfg [.fetch fs, .tick] = some v → Cycled v

variable {cfg}

theorem stages_cons {a : Stage} {l : List Stage} (e : s.stages cfg (a :: l) = some t) :
    ∃ u, s.stage cfg a = some u ∧ u.stages cfg l = some t :=
  Option.bind_eq_some_iff.mp e

theorem stages_of {a : Stage} {l : List Stage} (first : s.stage cfg a = some u)
    (e : u.stages cfg l = some t) : s.stages cfg (a :: l) = some t :=
  Option.bind_eq_some_iff.mpr ⟨u, first, e⟩

namespace Midway

/-- What the stages up to `map_stage` leave to the next cycle. -/
theorem behind {a : LsqAnswer} (h : Midway cfg limit s) (due : limit ≤ s.simCycle)
    (e : s.stages cfg (backStages a) = some t) : Midway cfg (t.simCycle + 1) t := by
  obtain ⟨s₁, first, e⟩ := stages_cons e
  have late₁ : s.simCycle ≤ s₁.simCycle := simCycle_stage (a := .commit) h.reached trivial first
  have committed := (h.commit first).1
  obtain ⟨s₂, second, e⟩ := stages_cons e
  cases second
  obtain ⟨s₃, third, e⟩ := stages_cons e
  have late₃ : s₁.releaseFu.simCycle ≤ s₃.simCycle :=
    simCycle_stage (a := .checkBrq) committed.releaseFu.reached trivial third
  have looked := (committed.releaseFu.checkBrq third).1
  obtain ⟨s₄, fourth, e⟩ := stages_cons e
  obtain ⟨s₄', fourth', written, quiet, -⟩ := looked.writeback (due.trans (late₁.trans late₃))
  cases fourth'.symm.trans fourth
  obtain ⟨s₅, fifth, e⟩ := stages_cons e
  have late₅ : s₄.simCycle ≤ s₅.simCycle :=
    simCycle_stage (a := .lsq a) written.reached trivial fifth
  have stored := (written.lsq quiet fifth).1
  obtain ⟨s₆, sixth, e⟩ := stages_cons e
  have late₆ : s₅.simCycle ≤ s₆.simCycle :=
    simCycle_stage (a := .issue) stored.reached trivial sixth
  have issued := stored.issue sixth
  obtain ⟨s₇, seventh, e⟩ := stages_cons e
  have late₇ : s₆.simCycle ≤ s₇.simCycle :=
    simCycle_stage (a := .map) issued.reached trivial seventh
  cases e
  exact (issued.map seventh).later (by omega)

/-- With links for what is mapped and two for what is written back and issued, no stage up to
`map_stage` fails. -/
theorem behind_total (narrow : cfg.mapWidth ≤ 4) (h : Midway cfg limit s)
    (due : limit ≤ s.simCycle) (trap : ∀ d ∈ s.inRoq cfg, (s.desc d).trap = false)
    (pool : cfg.mapWidth + 2 ≤ s.poolSize) (a : LsqAnswer) :
    ∃ t, s.stages cfg (backStages a) = some t := by
  obtain ⟨s₁, first⟩ := h.commit_total narrow trap
  have late₁ : s.simCycle ≤ s₁.simCycle := simCycle_stage (a := .commit) h.reached trivial first
  obtain ⟨committed, more₁⟩ := h.commit first
  obtain ⟨s₃, third⟩ := committed.releaseFu.checkBrq_total narrow
  have late₃ : s₁.releaseFu.simCycle ≤ s₃.simCycle :=
    simCycle_stage (a := .checkBrq) committed.releaseFu.reached trivial third
  obtain ⟨looked, more₃⟩ := committed.releaseFu.checkBrq third
  obtain ⟨s₄, fourth, written, quiet, more₄⟩ :=
    looked.writeback (due.trans (late₁.trans late₃))
  have left : cfg.mapWidth + 2 ≤ s₄.poolSize := pool.trans (more₁.trans (Nat.le_trans more₃ more₄))
  obtain ⟨s₅, fifth⟩ := written.lsq_total (by omega) a
  obtain ⟨stored, ported, less⟩ := written.lsq quiet fifth
  obtain ⟨s₆, sixth, more₆⟩ := stored.issue_total ported (by omega)
  obtain ⟨t, seventh⟩ := (stored.issue sixth).map_total (by omega)
  have free : s₁.stage cfg .releaseFu = some s₁.releaseFu := rfl
  exact ⟨t, stages_of first (stages_of free (stages_of third (stages_of fourth
    (stages_of fifth (stages_of sixth (stages_of seventh rfl))))))⟩

end Midway

/-- Between two cycles the events of the memory operations are due. -/
theorem Cycled.midway (h : Cycled cfg s) : Midway cfg s.simCycle s := by
  induction h with
  | start =>
    refine ⟨.start, [], [], Coherent.start cfg, ⟨fun d hd => ?_, fun d hd => ?_, ?_⟩,
      fun _ fu l _ _ here => ?_⟩
    · cases hd
    · cases hd
    · exact List.Pairwise.nil
    · cases here
  | @next s t u v a o fs _ back decoded fits moved ih =>
    have mapped := ih.behind (Nat.le_refl _) back
    have late₁ : t.simCycle ≤ u.simCycle :=
      simCycle_stage (a := .decode o) mapped.reached trivial decoded
    have fetched := (mapped.decode decoded).fetch fits
    have late₂ : u.simCycle ≤ (u.fetchStage cfg fs).simCycle :=
      simCycle_stage (a := .fetch fs) (mapped.decode decoded).reached fits rfl
    cases moved
    exact fetched.tick.later (Nat.succ_le_succ (late₁.trans late₂))

/-- A cycle of a core in whose reorder queue no instruction was fetched from an invalid address
gets to `decode_stage`: as long as the pool has enough links, no check of `commit_stage`,
`check_brq`, `writeback_stage`, `lsq_stage`, `issue_stage` and `map_stage` stops it. -/
theorem cycle_total (narrow : cfg.mapWidth ≤ 4) (h : Cycled cfg s)
    (trap : ∀ d ∈ s.inRoq cfg, (s.desc d).trap = false)
    (pool : cfg.mapWidth + 2 ≤ s.poolSize) (a : LsqAnswer) :
    ∃ t, s.stages cfg (backStages a) = some t :=
  h.midway.behind_total narrow (Nat.le_refl _) trap pool a

/-- Whole cycles of the shipped configuration. -/
theorem cycled_shipped {α : Type} {f : Backend → α} {v : α}
    {l : List ((Nat → Outcome) × List Fetched)} (h : Cycled {} s)
    (e : (l.foldlM (fun (s : Backend) c => s.cycle {} {} c.1 c.2) s).map f = some v) :
    ∃ t, Cycled {} t ∧ f t = v := by
  induction l generalizing s with
  | nil => exact ⟨s, h, Option.some.inj e⟩
  | cons c l ih =>
    obtain ⟨t, moved, same⟩ := Option.map_eq_some_iff.mp e
    obtain ⟨u, first, rest⟩ := Option.bind_eq_some_iff.mp moved
    obtain ⟨w, back, front⟩ := Option.bind_eq_some_iff.mp first
    obtain ⟨x, decoded, fetched⟩ := Option.bind_eq_some_iff.mp front
    exact ih (.next h back decoded (fits_same {} rfl _ _) fetched)
      (Option.map_eq_some_iff.mpr ⟨t, rest, same⟩)

/-- Two additions are in flight when the fourth cycle begins. -/
theorem cycle_total_depending : ∃ t : Backend, Cycled {} t ∧ t.inRoq {} ≠ [] ∧
    ∃ u, t.stages {} (backStages {}) = some u := by
  obtain ⟨t, cycled, seen⟩ := cycled_shipped (l := [(fun _ => {}, [⟨0x00221821#32, true⟩,
    ⟨0x00632021#32, true⟩]), (fun _ => {}, []), (fun _ => {}, [])])
    (f := fun t => (decide (t.inRoq {} ≠ []), (t.inRoq {}).all fun d => !(t.desc d).trap,
      decide (6 ≤ t.poolSize))) (v := (true, true, true)) .start (by decide +kernel)
  simp only [Prod.mk.injEq, decide_eq_true_eq, List.all_eq_true, Bool.not_eq_true'] at seen
  obtain ⟨filled, trap, pool⟩ := seen
  exact ⟨t, cycled, filled, cycle_total (by decide) cycled trap pool {}⟩

/-- A memory operation in the reorder queue of a core that runs whole cycles has one valid event at
most, which is due in the cycle that begins, and none when it is completed. -/
theorem access_once (h : Cycled cfg s) : ∀ d ∈ s.inRoq cfg, (s.desc d).mem = true →
    s.eventQueue.countP (s.marks d) ≤ (if (s.desc d).completed then 0 else 1) ∧
      ∀ x ∈ s.eventQueue, s.marks d x = true → x.1 ≤ s.simCycle := by
  obtain ⟨done, going, -, -⟩ := h.midway.parts
  exact fun d hd mem => ⟨going.paced.once d hd mem, going.paced.soon d hd mem⟩

/-- A load has read the cache and is written back in the next cycle. -/
theorem access_once_load : ∃ t : Backend, Cycled {} t ∧ t.inRoq {} = [79] ∧
    t.eventQueue.countP (t.marks 79) = 1 ∧ ∀ x ∈ t.eventQueue, t.marks 79 x = true → x.1 ≤ 9 := by
  obtain ⟨t, cycled, seen⟩ := cycled_shipped (l := (fun _ => {}, [⟨0x8c430000#32, true⟩]) ::
      List.replicate 8 (fun _ => {}, []))
    (f := fun t => (t.inRoq {}, (t.desc 79).mem, t.eventQueue.countP (t.marks 79), t.simCycle))
    (v := ([79], true, 1, 9)) .start (by decide +kernel)
  simp only [Prod.mk.injEq] at seen
  obtain ⟨queue, mem, one, clock⟩ := seen
  have once := access_once cycled 79 (queue ▸ List.mem_singleton_self 79) mem
  exact ⟨t, cycled, queue, one, clock ▸ once.2⟩

end Cycle

end Godson.Backend
