import Godson.Readiness

/-! What the ready queues and the dependence chains hold in every state that the pipeline
reaches: each instruction that can be issued is once in the queue of its unit, oldest first, and
each input that is not ready waits once. -/
namespace Godson.Backend

open Mips

variable {cfg : BackendConfig} {s : Backend} {roq done : List Nat} {d fu : Nat}

namespace Alert

theorem start (cfg : BackendConfig) : Alert cfg Backend.start [] [] where
  coherent := Coherent.start cfg
  num := by
    refine ⟨List.Pairwise.nil, fun n hn => ?_⟩
    cases hn
  awake := by
    constructor
    · intro p out filled
      exact absurd rfl filled
    · intro p out x hx
      cases hx
    · intro d hd
      cases hd
    · intro d hd
      cases hd
    · intro fu
      exact List.Pairwise.nil
    · intro fu x hx
      cases hx
    · intro fu l which
      cases which
  pending := by
    intro p out filled
    exact absurd rfl filled

theorem reachable (h : Reachable cfg (Fits cfg) s) : ∃ done, Alert cfg s (s.inRoq cfg) done := by
  have room : ∀ s a, Fits cfg s a → Fits cfg s a ∧ (False → BranchesFit cfg s a) ∧
      (a = .checkBrq → True) := fun s a fits => ⟨fits, False.elim, fun _ => trivial⟩
  have found : ∃ roq done, Alert cfg s roq done := by
    refine reachable_invariant (I := fun s => ∃ roq done, Alert cfg s roq done) room
      ⟨[], [], start cfg⟩ ?_ ?_ ?_ h
    · rintro s t ⟨roq, done, alert⟩ step
      exact alert.micro step
    · rintro s ⟨roq, done, alert⟩
      exact alert.coherent.ports
    · rintro s ⟨roq, done, alert⟩
      exact alert.coherent.single
  obtain ⟨roq, done, alert⟩ := found
  exact ⟨done, alert.coherent.inRoq_eq.symm ▸ alert⟩

end Alert

section Ready

/-- A link to the instruction that is valid. -/
def marks (s : Backend) (d : Nat) (x : Nat × RsLink) : Bool := s.rslinkValid x.2 && x.2.rs == d

/-- A valid link in a ready queue stands for an instruction that belongs there, under its
number. -/
theorem Alert.ready_due (h : Alert cfg s roq done) {x : Nat × RsLink}
    (here : x ∈ s.readyQueue fu) (valid : s.rslinkValid x.2 = true) :
    x.2.rs ∈ roq ++ s.decodeData ∧ (s.desc x.2.rs).due = some fu ∧
      x.1 = (s.desc x.2.rs).seq % 2 ^ 32 := by
  have known := h.coherent.wired.known x.2 (.ready here)
  obtain ⟨inside, made⟩ : _ ∧ x.2.made = (s.desc x.2.rs).seq := known.2 (eq_of_beq valid)
  refine ⟨inside, ?_, made ▸ h.awake.keys fu x here⟩
  have some : 0 < s.wiring.entries fu x.2.rs := by
    refine List.countP_pos_iff.mpr ⟨x, here, ?_⟩
    rw [Bool.and_eq_true]
    exact ⟨valid, beq_self_eq_true _⟩
  have entries := h.awake.entries x.2.rs inside fu
  split at entries
  · assumption
  · omega

/-- An instruction in flight is as often in a ready queue as it belongs there. -/
theorem Alert.queued_once (h : Alert cfg s roq done) (here : d ∈ roq ++ s.decodeData) (fu : Nat) :
    (s.readyQueue fu).countP (s.marks d) = if (s.desc d).due = some fu then 1 else 0 :=
  h.awake.entries d here fu

/-- An instruction in flight is in the ready queue of its unit, and there once, when it is
mapped, has all its inputs and is not issued; otherwise it is in none. Every queue is sorted
by the numbers of the instructions. -/
theorem ready_once (h : Reachable cfg (Fits cfg) s) :
    (∀ d ∈ s.flight cfg, ∀ fu, (s.readyQueue fu).countP (s.marks d) =
      if (s.desc d).due = some fu then 1 else 0) ∧
    ∀ fu, (s.readyQueue fu).Pairwise (fun x y => x.1 ≤ y.1) ∧
      ∀ x ∈ s.readyQueue fu, s.rslinkValid x.2 = true → x.2.rs ∈ s.flight cfg ∧
        x.1 = (s.desc x.2.rs).seq % 2 ^ 32 := by
  obtain ⟨done, alert⟩ := Alert.reachable h
  refine ⟨fun d hd => alert.queued_once hd, fun fu => ⟨alert.awake.sorted fu, ?_⟩⟩
  intro x here valid
  obtain ⟨inside, -, key⟩ := alert.ready_due here valid
  exact ⟨inside, key⟩

theorem ready_once_depending : ∃ t : Backend, t.flight {} = [79, 78, 77, 76, 75] ∧
    (t.readyQueue 0).countP (t.marks 77) = 1 ∧ (t.readyQueue 0).countP (t.marks 78) = 0 := by
  obtain ⟨t, reached, found⟩ := reachable_shipped (l := depending)
    (v := ([79, 78, 77, 76, 75], some 0, none))
    (f := fun t => (t.flight {}, (t.desc 77).due, (t.desc 78).due)) (by decide +kernel)
  obtain ⟨flight, found⟩ := Prod.mk.inj found
  obtain ⟨branch, addition⟩ := Prod.mk.inj found
  have once := (ready_once reached).1
  rw [flight] at once
  refine ⟨t, flight, ?_, ?_⟩
  · rw [once 77 (by decide) 0, branch]
    rfl
  · rw [once 78 (by decide) 0, addition]
    rfl

/-- The instruction that `next_valid_node` leaves at the head of a ready queue. -/
def candidate (fu : Nat) (s : Backend) : Option Nat :=
  ((s.nextValidNode fu).readyQueue fu).head?.map fun x => x.2.rs

theorem candidate_eq (fu : Nat) (s : Backend) : s.candidate fu =
    ((s.readyQueue fu).find? fun x => s.rslinkValid x.2).map fun x => x.2.rs := by
  have queue : (s.nextValidNode fu).readyQueue fu =
      (s.readyQueue fu).dropWhile fun x => !s.rslinkValid x.2 := by
    simp only [nextValidNode, Function.update_self]
  rw [candidate, queue, List.find?_eq_head?_dropWhile_not]

/-- An instruction that belongs in a ready queue is in the reorder queue and passes the test of
`issue_stage`. -/
theorem issuable_of_due (h : Coherent cfg s roq done) (here : d ∈ roq ++ s.decodeData)
    (due : (s.desc d).due = some fu) :
    d ∈ roq ∧ (s.desc d).fu.unit = fu ∧ issuable (s.desc d) = true := by
  rw [Descript.due, Option.ite_none_right_eq_some] at due
  obtain ⟨test, unit⟩ := due
  simp only [Bool.and_eq_true, Bool.not_eq_true'] at test
  obtain ⟨⟨⟨mapped, trap⟩, ready⟩, fresh⟩ := test
  have inside : d ∈ roq := by
    rcases List.mem_append.mp here with inside | front
    · exact inside
    · have idle : (s.desc d).mapped = false := (h.booked.decoded d front).1.mapped
      exact absurd (idle.symm.trans mapped) Bool.false_ne_true
  have seated := h.booked.seated d inside
  have queued : (s.desc d).queued = true := by
    have other : (s.desc d).queued = !(s.desc d).issued := seated.queued trap
    rw [other, fresh]
    rfl
  have unfinished : (s.desc d).completed = false := by
    apply Bool.eq_false_iff.mpr
    intro completed
    have issued : (s.desc d).issued = true := seated.done (.inl completed)
    exact absurd (fresh.symm.trans issued) Bool.false_ne_true
  refine ⟨inside, Option.some.inj unit, ?_⟩
  rw [issuable, ready, queued, fresh, unfinished]
  rfl

/-- A function unit gets the oldest instruction that is ready for it, and this passes the test
of `issue_stage`; it gets none only if none is ready. -/
theorem oldest_first (h : Reachable cfg (Fits cfg) s) (fu : Nat) :
    (∀ d, s.candidate fu = some d → d ∈ s.inRoq cfg ∧ (s.desc d).fu.unit = fu ∧
      issuable (s.desc d) = true ∧ ∀ e ∈ s.flight cfg, (s.desc e).due = some fu →
        (s.desc d).seq % 2 ^ 32 ≤ (s.desc e).seq % 2 ^ 32) ∧
    (s.candidate fu = none → ∀ e ∈ s.flight cfg, (s.desc e).due ≠ some fu) := by
  obtain ⟨done, alert⟩ := Alert.reachable h
  have queued : ∀ e ∈ s.flight cfg, (s.desc e).due = some fu →
      ∃ y ∈ s.readyQueue fu, s.rslinkValid y.2 = true ∧ y.2.rs = e := by
    intro e he due
    have once := alert.queued_once he fu
    rw [if_pos due] at once
    obtain ⟨y, hy, marked⟩ := List.countP_pos_iff.mp (Nat.lt_of_lt_of_eq Nat.zero_lt_one once.symm)
    rw [marks, Bool.and_eq_true] at marked
    exact ⟨y, hy, marked.1, eq_of_beq marked.2⟩
  rw [candidate_eq]
  constructor
  · intro d found
    obtain ⟨x, first, rfl⟩ := Option.map_eq_some_iff.mp found
    obtain ⟨valid, front, behind, split, dead⟩ := List.find?_eq_some_iff_append.mp first
    have here : x ∈ s.readyQueue fu := List.mem_of_find?_eq_some first
    obtain ⟨inside, due, key⟩ := alert.ready_due here valid
    obtain ⟨held, unit, test⟩ := issuable_of_due alert.coherent inside due
    refine ⟨held, unit, test, fun e he dueToo => ?_⟩
    obtain ⟨y, hy, lives, rfl⟩ := queued e he dueToo
    rw [← key, ← (alert.ready_due hy lives).2.2]
    have sorted := alert.awake.sorted fu
    change (s.readyQueue fu).Pairwise _ at sorted
    rw [split] at hy sorted
    rcases List.mem_append.mp hy with gone | hy
    · have dies := dead y gone
      rw [lives] at dies
      cases dies
    · rcases List.mem_cons.mp hy with rfl | later
      · exact Nat.le_refl _
      · exact (List.pairwise_cons.mp (List.pairwise_append.mp sorted).2.1).1 y later
  · intro none e he due
    obtain ⟨y, hy, lives, -⟩ := queued e he due
    have dead := List.find?_eq_none.mp (Option.map_eq_none_iff.mp none) y hy
    exact dead lives

theorem oldest_first_depending : ∃ t : Backend, t.candidate 0 = some 79 ∧
    (t.desc 77).due = some 0 ∧ (t.desc 79).seq % 2 ^ 32 ≤ (t.desc 77).seq % 2 ^ 32 := by
  obtain ⟨t, reached, found⟩ := reachable_shipped (l := depending)
    (v := ([79, 78, 77, 76, 75], some 79, some 0))
    (f := fun t => (t.flight {}, t.candidate 0, (t.desc 77).due)) (by decide +kernel)
  obtain ⟨flight, found⟩ := Prod.mk.inj found
  obtain ⟨first, branch⟩ := Prod.mk.inj found
  have inside : 77 ∈ t.flight {} := by
    rw [flight]
    decide
  exact ⟨t, first, branch, ((oldest_first reached 0).1 79 first).2.2.2 77 inside branch⟩

end Ready

section Waiting

/-- The dependence chains of the instructions in flight. -/
def chains (cfg : BackendConfig) (s : Backend) : List (Nat × RsLink) :=
  (s.flight cfg).flatMap fun p => (s.desc p).odepList 0 ++ (s.desc p).odepList 1

/-- A valid link in a chain stands for an input of a younger instruction that is not ready. -/
theorem Alert.unready (h : Alert cfg s roq done) {p out : Nat} {x : Nat × RsLink}
    (hx : x ∈ (s.desc p).odepList out) (valid : s.rslinkValid x.2 = true) :
    x.2.rs ∈ roq ++ s.decodeData ∧ (s.desc x.2.rs).idepReady x.1 = false ∧
      (s.desc p).seq < (s.desc x.2.rs).seq := by
  obtain ⟨inside, waits⟩ := h.awake.unready h.coherent.wired hx valid
  exact ⟨inside, waits, h.awake.older p out x hx valid⟩

/-- An instruction that others wait for is in flight and has not written back. -/
theorem Alert.awaited (h : Alert cfg s roq done) {p out : Nat}
    (filled : (s.desc p).odepList out ≠ []) : p ∈ roq ++ s.decodeData ∧
      (s.desc p).onames out ≠ 0 ∧ (s.desc p).completed = false ∧
      (s.desc p).brcompleted = false := by
  refine ⟨?_, h.awake.named p out filled, h.pending p out filled⟩
  by_contra apart
  exact filled (h.coherent.wired.idle p out apart)

/-- Each input of an instruction in flight that is not ready waits once, in the chain of an
older instruction that will write it and has not written back, and an input that is ready does
not wait. So no instruction is woken up twice for one input, and none that is completed has
a chain: the panics of `writeback_stage` and `commit_stage` about them are not reached. -/
theorem waits_once (h : Reachable cfg (Fits cfg) s) :
    (∀ d ∈ s.flight cfg, ∀ num < 3,
      (s.chains cfg).countP (fun x => s.marks d x && x.1 == num) =
        if (s.desc d).idepReady num then 0 else 1) ∧
    (∀ p out, ∀ x ∈ (s.desc p).odepList out, s.rslinkValid x.2 = true →
      x.2.rs ∈ s.flight cfg ∧ (s.desc x.2.rs).idepReady x.1 = false ∧
        (s.desc p).seq < (s.desc x.2.rs).seq) ∧
    ∀ p out, (s.desc p).odepList out ≠ [] → p ∈ s.flight cfg ∧ (s.desc p).onames out ≠ 0 ∧
      (s.desc p).completed = false ∧ (s.desc p).brcompleted = false := by
  obtain ⟨done, alert⟩ := Alert.reachable h
  exact ⟨alert.awake.waits, fun p out x hx valid => alert.unready hx valid,
    fun p out filled => alert.awaited filled⟩

theorem waits_once_depending : ∃ t : Backend, t.flight {} = [79, 78, 77, 76, 75] ∧
    (t.chains {}).countP (fun x => t.marks 78 x && x.1 == 0) = 1 ∧
    (t.desc 79).completed = false := by
  obtain ⟨t, reached, found⟩ := reachable_shipped (l := depending)
    (v := ([79, 78, 77, 76, 75], false, 2))
    (f := fun t => (t.flight {}, (t.desc 78).idepReady 0, ((t.desc 79).odepList 0).length))
    (by decide +kernel)
  obtain ⟨flight, found⟩ := Prod.mk.inj found
  obtain ⟨waiting, chain⟩ := Prod.mk.inj found
  obtain ⟨once, -, unfinished⟩ := waits_once reached
  have filled : (t.desc 79).odepList 0 ≠ [] := by
    intro none
    rw [none] at chain
    cases chain
  refine ⟨t, flight, ?_, (unfinished 79 0 filled).2.2.1⟩
  rw [once 78 (by rw [flight]; decide) 0 (by decide), waiting]
  rfl

/-- The instruction waits for an output of another one. -/
def WaitsFor (s : Backend) (p d : Nat) : Prop :=
  ∃ out, ∃ x ∈ (s.desc p).odepList out, s.rslinkValid x.2 = true ∧ x.2.rs = d

theorem WaitsFor.older (h : Alert cfg s roq done) {p : Nat} (waits : s.WaitsFor p d) :
    p ∈ roq ++ s.decodeData ∧ (s.desc p).seq < (s.desc d).seq ∧
      (s.desc p).completed = false ∧ (s.desc p).brcompleted = false := by
  obtain ⟨out, x, hx, valid, rfl⟩ := waits
  obtain ⟨inside, -, completed, back⟩ := h.awaited (List.ne_nil_of_mem hx)
  exact ⟨inside, (h.unready hx valid).2.2, completed, back⟩

/-- An instruction that has not all its inputs waits for an older one. -/
theorem Alert.waits_some (h : Alert cfg s roq done) (here : d ∈ roq ++ s.decodeData)
    (lacks : (s.desc d).operandsReady = false) : ∃ p, s.WaitsFor p d := by
  obtain ⟨num, low, waiting⟩ : ∃ num < 3, (s.desc d).idepReady num = false := by
    by_contra none
    have each (num : Nat) (low : num < 3) : (s.desc d).idepReady num = true := by
      by_contra waiting
      exact none ⟨num, low, Bool.eq_false_of_not_eq_true waiting⟩
    rw [Descript.operandsReady, each 0 (by decide), each 1 (by decide), each 2 (by decide)] at lacks
    cases lacks
  have idep : (s.standby d).idep num = false := waiting
  have once := h.awake.waits d here num low
  rw [idep, if_neg Bool.false_ne_true] at once
  obtain ⟨x, hx, marked⟩ := List.countP_pos_iff.mp (Nat.lt_of_lt_of_eq Nat.zero_lt_one once.symm)
  simp only [Wiring.asks, Bool.and_eq_true, beq_iff_eq] at marked
  obtain ⟨⟨valid, mine⟩, -⟩ := marked
  obtain ⟨p, -, chained⟩ := List.mem_flatMap.mp hx
  rcases List.mem_append.mp chained with chained | chained
  · exact ⟨p, 0, x, chained, valid, mine⟩
  · exact ⟨p, 1, x, chained, valid, mine⟩

/-- No instructions wait for each other: one that has not all its inputs waits, maybe through
others, for one that has them and has not written back. That is in the decode queue, once in the
ready queue of its unit, issued, or a fetch from an invalid address. -/
theorem waits_end (h : Reachable cfg (Fits cfg) s) (here : d ∈ s.flight cfg)
    (lacks : (s.desc d).operandsReady = false) :
    ∃ p ∈ s.flight cfg, Relation.TransGen s.WaitsFor p d ∧ (s.desc p).operandsReady = true ∧
      (s.desc p).completed = false ∧ (s.desc p).brcompleted = false ∧
      (p ∈ s.decodeData ∨ (s.desc p).issued = true ∨ (s.desc p).trap = true ∨
        (s.readyQueue (s.desc p).fu.unit).countP (s.marks p) = 1) := by
  obtain ⟨done, alert⟩ := Alert.reachable h
  induction number : (s.desc d).seq using Nat.strong_induction_on generalizing d with
  | _ n ih =>
    subst number
    obtain ⟨p, waits⟩ := alert.waits_some here lacks
    obtain ⟨inside, older, completed, back⟩ := waits.older alert
    cases ready : (s.desc p).operandsReady with
    | false =>
      obtain ⟨e, he, path, last⟩ := ih _ older inside ready rfl
      exact ⟨e, he, path.tail waits, last⟩
    | true =>
      refine ⟨p, inside, .single waits, ready, completed, back, ?_⟩
      rcases List.mem_append.mp inside with seat | front
      · have mapped : (s.desc p).mapped = true := (alert.coherent.booked.seated p seat).mapped
        cases issued : (s.desc p).issued with
        | true => exact .inr (.inl rfl)
        | false =>
          cases trap : (s.desc p).trap with
          | true => exact .inr (.inr (.inl rfl))
          | false =>
            have due : (s.desc p).due = some (s.desc p).fu.unit := by
              simp [Descript.due, mapped, trap, ready, issued]
            have once := alert.queued_once inside (s.desc p).fu.unit
            rw [if_pos due] at once
            exact .inr (.inr (.inr once))
      · exact .inl front

theorem waits_end_depending : ∃ (t : Backend) (p : Nat), t.flight {} = [79, 78, 77, 76, 75] ∧
    Relation.TransGen t.WaitsFor p 78 ∧ (t.desc p).operandsReady = true := by
  obtain ⟨t, reached, found⟩ := reachable_shipped (l := depending)
    (v := ([79, 78, 77, 76, 75], false))
    (f := fun t => (t.flight {}, (t.desc 78).operandsReady)) (by decide +kernel)
  obtain ⟨flight, lacks⟩ := Prod.mk.inj found
  have inside : 78 ∈ t.flight {} := by
    rw [flight]
    decide
  obtain ⟨p, -, path, ready, -⟩ := waits_end reached inside lacks
  exact ⟨t, p, flight, path, ready⟩

end Waiting

end Godson.Backend
