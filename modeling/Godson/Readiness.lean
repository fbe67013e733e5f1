import Godson.Wakeups
import Godson.Conservation

/-! Every step of the pipeline keeps what waits and what is ready: an instruction is once in the
ready queue of its unit from the step on at which its last input has become ready, until it is
issued. -/
namespace Godson.Backend

open Mips

variable {cfg : BackendConfig} {s t u : Backend} {roq done flight kept gone : List Nat} {d : Nat}

def standby (s : Backend) (d : Nat) : Standby := (s.desc d).standby

/-- Only the outputs of an instruction that has not written back are waited for. -/
def Pending (s : Backend) : Prop := ∀ p out, (s.desc p).odepList out ≠ [] →
  (s.desc p).completed = false ∧ (s.desc p).brcompleted = false

section Frames

theorem awake_same (h : Awake s.wiring s.standby flight) (desc : t.desc = s.desc)
    (ready : t.readyQueue = s.readyQueue) (chosen : t.nextIssueItem = s.nextIssueItem) :
    Awake t.wiring t.standby flight := by
  have wires : t.wiring = { s.wiring with
      free := t.rslinkFreeList, event := t.eventQueue, unit := s.wiring.unit } := by
    simp only [wiring, desc, ready, chosen]
  have same : t.standby = s.standby := by
    funext d
    rw [standby, standby, desc]
  rw [wires, same]
  exact h.congr _ _ _

theorem Pending.same (h : s.Pending) (desc : t.desc = s.desc) : t.Pending := by
  intro p out filled
  rw [desc] at filled ⊢
  exact h p out filled

theorem Pending.parts (h : s.Pending) (trace : ∀ p, (t.desc p).trace = (s.desc p).trace)
    (odep : ∀ p, (t.desc p).odepList = (s.desc p).odepList) : t.Pending := by
  intro p out filled
  rw [odep] at filled
  have completed : (t.desc p).completed = (s.desc p).completed :=
    congrArg Trace.completed (trace p)
  have back : (t.desc p).brcompleted = (s.desc p).brcompleted :=
    congrArg Trace.brcompleted (trace p)
  rw [completed, back]
  exact h p out filled

/-- A descriptor changes in what is not looked at. -/
theorem standby_modDesc {f : Descript → Descript}
    (same : (f (s.desc d)).standby = (s.desc d).standby) : (s.modDesc d f).standby = s.standby := by
  funext e
  by_cases eq : e = d
  · rw [standby, eq, modDesc_self, same]
    rfl
  · rw [standby, modDesc_of_ne s eq]
    rfl

theorem standby_of_ne {e : Nat} (ne : e ≠ d) (f : Descript → Descript) :
    (s.modDesc d f).standby e = s.standby e := by
  rw [standby, modDesc_of_ne s ne]
  rfl

end Frames

section Squash

/-- What a squash leaves: the ready queues, and the instructions `kept`. -/
structure Recalled (kept : List Nat) (s t : Backend) : Prop where
  ready : t.readyQueue = s.readyQueue
  chosen : t.nextIssueItem = s.nextIssueItem
  each : ∀ d, (t.desc d).seq = (s.desc d).seq ∧ (s.desc d).tag ≤ (t.desc d).tag ∧
    (t.desc d).standby = (s.desc d).standby ∧ (t.desc d).completed = (s.desc d).completed ∧
    (t.desc d).brcompleted = (s.desc d).brcompleted
  odep : ∀ d, (t.desc d).odepList = (s.desc d).odepList ∨ (t.desc d).odepList = fun _ => []
  same : ∀ d ∈ kept, (t.desc d).odepList = (s.desc d).odepList ∧ (t.desc d).tag = (s.desc d).tag

namespace Recalled

theorem refl (kept : List Nat) (s : Backend) : Recalled kept s s :=
  ⟨rfl, rfl, fun _ => ⟨rfl, Nat.le_refl _, rfl, rfl, rfl⟩, fun _ => .inl rfl, fun _ _ => ⟨rfl, rfl⟩⟩

theorem trans {less : List Nat} (h : Recalled kept s t) (h' : Recalled less t u)
    (sub : less ⊆ kept) : Recalled less s u where
  ready := h'.ready.trans h.ready
  chosen := h'.chosen.trans h.chosen
  each d := by
    obtain ⟨seq, tag, standby, completed, back⟩ := h.each d
    obtain ⟨seq', tag', standby', completed', back'⟩ := h'.each d
    exact ⟨seq'.trans seq, tag.trans tag', standby'.trans standby, completed'.trans completed,
      back'.trans back⟩
  odep d := by
    rcases h'.odep d with same | none
    · rw [same]
      exact h.odep d
    · exact .inr none
  same d hd := by
    obtain ⟨odep, tag⟩ := h.same d (sub hd)
    obtain ⟨odep', tag'⟩ := h'.same d hd
    exact ⟨odep'.trans odep, tag'.trans tag⟩

theorem bumped (apart : d ∉ kept) (s : Backend) : Recalled kept s (Coherent.bumped d s) where
  ready := rfl
  chosen := rfl
  each e := by
    rw [Coherent.desc_bumped]
    exact ⟨rfl, Nat.le_add_right _ _, rfl, rfl, rfl⟩
  odep e := by
    rw [Coherent.desc_bumped]
    exact .inl rfl
  same e he := by
    have ne : e ≠ d := by
      rintro rfl
      exact apart he
    rw [Coherent.desc_bumped, if_neg ne]
    exact ⟨rfl, rfl⟩

theorem retire (kept : List Nat) (e : s.retire cfg d = some t) : Recalled kept s t := by
  obtain ⟨-, -, -, rfl⟩ := retire_some e
  exact ⟨rfl, rfl, fun _ => ⟨rfl, Nat.le_refl _, rfl, rfl, rfl⟩, fun _ => .inl rfl,
    fun _ _ => ⟨rfl, rfl⟩⟩

theorem squashLast (flow : Passage cfg s.place (roq ++ [d]) done)
    (e : s.squashLast cfg = some t) : Recalled roq s t := by
  have apart : d ∉ roq := by
    have once := flow.nodup
    rw [List.nodup_append] at once
    exact fun hd => once.2.2 d hd d (by simp) rfl
  obtain ⟨-, rfl⟩ := squashLast_some flow.last e
  refine ⟨rfl, rfl, fun j => ?_, fun j => ?_, fun j hj => ?_⟩ <;> dsimp only
  · by_cases eq : j = d
    · rw [eq, Function.update_self]
      exact ⟨rfl, Nat.le_add_right _ _, rfl, rfl, rfl⟩
    · rw [Function.update_of_ne eq]
      exact ⟨rfl, Nat.le_refl _, rfl, rfl, rfl⟩
  · by_cases eq : j = d
    · rw [eq, Function.update_self]
      exact .inr rfl
    · rw [Function.update_of_ne eq]
      exact .inl rfl
  · have ne : j ≠ d := by
      rintro rfl
      exact apart hj
    rw [Function.update_of_ne ne]
    exact ⟨rfl, rfl⟩

theorem squashAll (flow : Passage cfg s.place (roq ++ gone) done)
    (e : s.squashAll cfg gone.length = some t) : Recalled roq s t := by
  refine (squashAll_invariant (P := fun l u => Passage cfg u.place l done ∧ Recalled l s u)
    (fun l d u v h e => ?_) ⟨flow, refl _ s⟩ e).2
  exact ⟨flow_squashLast h.1 e, h.2.trans (squashLast h.1 e) (List.subset_append_left l [d])⟩

theorem tracerRecover (flow : Passage cfg s.place roq done) (level : Nat) :
    Recalled roq s (s.tracerRecover level) := by
  rw [tracerRecover_eq (decode_nodup flow)]
  refine ⟨rfl, rfl, fun j => ?_, fun j => ?_, fun j hj => ?_⟩
  · dsimp only
    split
    · exact ⟨rfl, by simp only [squashed]; omega, rfl, rfl, rfl⟩
    · exact ⟨rfl, Nat.le_add_right _ _, rfl, rfl, rfl⟩
  · dsimp only
    split
    · exact .inr rfl
    · exact .inl rfl
  · obtain ⟨-, fetched, decoded, -⟩ := flow.apart hj
    have none : s.fetchData.count j = 0 := List.count_eq_zero.mpr fetched
    have outside : j ∉ s.decodeData := decoded
    simp [outside, none]

theorem pipelineFlush (flow : Passage cfg s.place roq done) (e : s.pipelineFlush cfg = some t) :
    Recalled [] s t := by
  obtain ⟨u, dropped, all, rfl⟩ := pipelineFlush_some flow e
  have both := (tracerRecover flow 0).trans (squashAll dropped all) (List.nil_subset _)
  exact ⟨both.ready, both.chosen, both.each, both.odep, both.same⟩

theorem brerrRecover {i : Nat} (flow : Passage cfg s.place roq done) (hi : i < roq.length)
    (slot : i + 1 < roq.length) (e : s.brerrRecover cfg roq[i] = some t) :
    Recalled (roq.take (lastKept (s.desc roq[i]) i + 1)) s t := by
  obtain ⟨u, squashed, rfl⟩ := brerrRecover_some flow hi slot e
  generalize lastKept (s.desc roq[i]) i + 1 = n at *
  have whole := List.take_append_drop n roq
  rw [← whole] at flow
  rw [← List.length_drop] at squashed
  exact (squashAll flow squashed).trans (tracerRecover (flow_squashAll flow squashed) _)
    (List.Subset.refl _)

theorem awake (r : Recalled kept s t) (h : Awake s.wiring s.standby flight)
    (wired : Wired s.wiring flight) (parts : flight.Perm (kept ++ gone))
    (apart : ∀ p ∈ gone, ∀ out, ∀ x ∈ (s.desc p).odepList out, s.rslinkValid x.2 = true →
      x.2.rs ∉ kept) : Awake t.wiring t.standby kept := by
  have same : t.standby = s.standby := funext fun d => (r.each d).2.2.1
  rw [same]
  exact h.leave wired parts apart r.ready r.chosen (funext fun d => (r.each d).1)
    (fun d => (r.each d).2.1) r.odep r.same

theorem pending (r : Recalled kept s t) (h : s.Pending) : t.Pending := by
  intro p out filled
  obtain ⟨-, -, -, completed, back⟩ := r.each p
  rw [completed, back]
  apply h p out
  rcases r.odep p with same | none
  · rwa [same] at filled
  · rw [none] at filled
    exact absurd rfl filled

end Recalled

end Squash

section Wakeup

open Awake

/-- An instruction in the reorder queue that waits for an input is not a trap and has not been
issued. -/
def Waiting (s : Backend) (flight : List Nat) : Prop :=
  ∀ d ∈ flight, (s.desc d).mapped = true → ∀ num < 3, (s.desc d).idepReady num = false →
    (s.desc d).trap = false ∧ (s.desc d).issued = false

theorem Waiting.congr (h : s.Waiting flight) (same : ∀ d, (t.desc d).mapped = (s.desc d).mapped ∧
      (t.desc d).trap = (s.desc d).trap ∧ (t.desc d).issued = (s.desc d).issued ∧
      (t.desc d).idepReady = (s.desc d).idepReady) : t.Waiting flight := by
  intro d hd mapped num low waits
  obtain ⟨mapped', trap, issued, idep⟩ := same d
  rw [trap, issued]
  rw [mapped'] at mapped
  rw [idep] at waits
  exact h d hd mapped num low waits

theorem waiting_booked (h : Booked s.ledger roq) : s.Waiting (roq ++ s.decodeData) := by
  intro d hd mapped num low waits
  rcases List.mem_append.mp hd with here | front
  · obtain ⟨-, trap, issued, -⟩ := waits_idle h here low waits
    exact ⟨trap, issued⟩
  · have idle := (h.decoded d front).1.mapped
    exact absurd (idle.symm.trans mapped) Bool.false_ne_true

/-- What a wakeup leaves as it is. -/
theorem wakeOne_same {x : Nat × RsLink} (e : s.wakeOne x = some t) (d : Nat) :
    (t.desc d).mapped = (s.desc d).mapped ∧ (t.desc d).trap = (s.desc d).trap ∧
      (t.desc d).issued = (s.desc d).issued ∧
      ∀ num, (t.desc d).idepReady num = false → (s.desc d).idepReady num = false := by
  have ready : ((s.ready x).desc d).mapped = (s.desc d).mapped ∧
      ((s.ready x).desc d).trap = (s.desc d).trap ∧
      ((s.ready x).desc d).issued = (s.desc d).issued ∧
      ∀ num, ((s.ready x).desc d).idepReady num = false → (s.desc d).idepReady num = false := by
    by_cases eq : d = x.2.rs
    · subst eq
      rw [Backend.ready, modDesc_self]
      refine ⟨rfl, rfl, rfl, fun num waits => ?_⟩
      by_cases mine : num = x.1
      · subst mine
        simp at waits
      · simpa [mine] using waits
    · rw [Backend.ready, modDesc_of_ne s eq]
      exact ⟨rfl, rfl, rfl, fun _ => id⟩
  rcases wakeOne_some e with ⟨-, rfl⟩ | ⟨-, -, ⟨-, rfl⟩ | ⟨-, u, entered, rfl⟩⟩
  · exact ⟨rfl, rfl, rfl, fun _ => id⟩
  · exact ready
  · obtain ⟨id, pool, -, rfl⟩ := readyqEnqueue_some entered
    by_cases eq : d = x.2.rs
    · subst eq
      simpa [rslinkFree] using ready
    · simpa [rslinkFree, Function.update_of_ne eq] using ready

theorem Waiting.wakeOne {x : Nat × RsLink} (h : s.Waiting flight) (e : s.wakeOne x = some t) :
    t.Waiting flight := by
  intro d hd mapped num low waits
  obtain ⟨same, trap, issued, less⟩ := wakeOne_same e d
  rw [trap, issued]
  exact h d hd (same ▸ mapped) num low (less num waits)

/-- An instruction that waits for an input is due nowhere. -/
theorem due_waits {e : Descript} {num : Nat} (low : num < 3) (waits : e.idepReady num = false) :
    e.due = none := by
  have unready : e.operandsReady = false := by
    have cases : num = 0 ∨ num = 1 ∨ num = 2 := by omega
    rcases cases with rfl | rfl | rfl <;> simp [Descript.operandsReady, waits]
  simp [Descript.due, unready]

/-- One that does not wait is due when it has been mapped. -/
theorem due_ready {e : Descript}
    (fits : e.mapped = true → e.trap = false ∧ e.issued = false) :
    e.due = if e.operandsReady && e.mapped then some e.fu.unit else none := by
  cases mapped : e.mapped with
  | false => simp [Descript.due, mapped]
  | true =>
    obtain ⟨trap, issued⟩ := fits mapped
    simp [Descript.due, mapped, trap, issued]

theorem standby_readyqEnqueue {rs : Nat} (e : s.readyqEnqueue rs = some t) :
    t.standby = s.standby := by
  obtain ⟨id, pool, -, rfl⟩ := readyqEnqueue_some e
  exact standby_modDesc (f := fun d => { d with queued := true }) rfl

theorem awake_wakeOne {f : Nat → Nat → List (Nat × RsLink)} {p out : Nat} {x : Nat × RsLink}
    {rest : List (Nat × RsLink)}
    (h : Awake { s.wiring with odep := longer f p out (x :: rest) } s.standby flight)
    (wired : Wired { s.wiring with odep := longer f p out (x :: rest) } flight)
    (waiting : s.Waiting flight) (once : flight.Nodup) (there : p ∈ flight) (low : out ≤ 1)
    (e : s.wakeOne x = some t) :
    Awake { t.wiring with odep := longer f p out rest } t.standby flight := by
  have held : x ∈ longer f p out (x :: rest) p out := by simp [longer]
  have input := wired.inputs p out x held
  have known := wired.known x.2 (.odep held)
  have wires : (s.ready x).wiring = s.wiring := wiring_modDesc _ ⟨rfl, rfl, rfl, rfl⟩
  have others : ∀ e ≠ x.2.rs, (s.ready x).standby e = s.standby e := fun e ne => standby_of_ne ne _
  rcases wakeOne_some e with ⟨invalid, rfl⟩ | ⟨valid, waits, cases⟩
  · exact (h.skip once there low invalid).congr _ _ _
  · have idle : (s.desc x.2.rs).due = none := due_waits input waits
    have due := due_ready (e := (s.ready x).desc x.2.rs) fun mapped => by
      rw [Backend.ready, modDesc_self] at mapped ⊢
      exact waiting x.2.rs (known.2 (eq_of_beq valid)).1 mapped x.1 input waits
    have settled (e : Standby) (same : e = { (s.ready x).standby x.2.rs with due := none }) :
        e = (s.standby x.2.rs).settle x.1 true := by
      rw [same, standby, Descript.standby, Backend.ready, modDesc_self, Standby.settle, standby,
        Descript.standby, idle]
    rcases cases with ⟨both, rfl⟩ | ⟨both, u, entered, rfl⟩
    · rw [both] at due
      have woken := h.wake once there low valid waits others
        (settled _ (by rw [standby, Descript.standby, due]; rfl))
      rw [← wires] at woken
      exact woken.congr _ _ _
    · rw [both] at due
      obtain ⟨id, pool, -, moved⟩ := wiring_readyqEnqueue entered
      generalize st : Function.update s.standby x.2.rs
        { (s.ready x).standby x.2.rs with due := none } = half
      have mine : half x.2.rs = { (s.ready x).standby x.2.rs with due := none } := by
        rw [← st, Function.update_self]
      have beside : ∀ e ≠ x.2.rs, half e = s.standby e := by
        intro e ne
        rw [← st, Function.update_of_ne ne]
      have woken := h.wake once there low valid waits beside (settled _ mine)
      have joined : (s.ready x).standby x.2.rs =
          (half x.2.rs).join ((s.ready x).desc x.2.rs).fu.unit := by
        rw [mine, Standby.join, standby, Descript.standby, due]
        rfl
      have queued := woken.enqueue (by rw [mine]) id ((s.ready x).desc x.2.rs).fu.unit
        (fun e ne => (others e ne).trans (beside e ne).symm) joined
      have same : u.standby = (s.ready x).standby := standby_readyqEnqueue entered
      have seq : ((s.ready x).desc x.2.rs).seq = s.wiring.seq x.2.rs :=
        congrFun (congrArg Wiring.seq wires) x.2.rs
      have freed : (u.rslinkFree x.2).wiring =
          { u.wiring with free := x.2.id :: u.rslinkFreeList } := rfl
      rw [wires, seq] at moved
      rw [freed, moved]
      change Awake _ u.standby flight
      rw [same]
      exact queued.congr _ _ _

theorem awake_wakeAll {f : Nat → Nat → List (Nat × RsLink)} {p out : Nat} {l : List (Nat × RsLink)}
    (h : Awake { s.wiring with odep := longer f p out l } s.standby flight)
    (wired : Wired { s.wiring with odep := longer f p out l } flight)
    (waiting : s.Waiting flight) (once : flight.Nodup) (there : p ∈ flight) (low : out ≤ 1)
    (e : l.foldlM wakeOne s = some t) :
    Awake { t.wiring with odep := longer f p out [] } t.standby flight ∧ t.Waiting flight := by
  induction l generalizing s with
  | nil =>
    cases e
    exact ⟨h, waiting⟩
  | cons x l ih =>
    obtain ⟨u, first, e⟩ := Option.bind_eq_some_iff.mp e
    exact ih (awake_wakeOne h wired waiting once there low first)
      (wired_wakeOne wired once there low first) (waiting.wakeOne first) e

/-- The consumers of one output are woken up. -/
theorem awake_broadcast {rs out : Nat} (h : Awake s.wiring s.standby flight)
    (wired : Wired s.wiring flight) (waiting : s.Waiting flight) (once : flight.Nodup)
    (there : rs ∈ flight) (low : out ≤ 1) (e : s.broadcast rs out = some t) :
    Awake t.wiring t.standby flight ∧ t.Waiting flight := by
  rcases broadcast_some e with ⟨-, rfl⟩ | ⟨-, u, woken, rfl⟩
  · exact ⟨h, waiting⟩
  · obtain ⟨wires, desc⟩ := wiring_updateCreateVector rs s
    have standby : (s.updateCreateVector rs).standby = s.standby := by
      funext d
      rw [Backend.standby, Backend.standby, desc]
    have waits : (s.updateCreateVector rs).Waiting flight := by
      rw [Waiting, desc]
      exact waiting
    have row : longer s.wiring.odep rs out ((s.desc rs).odepList out) = s.wiring.odep :=
      Entering.longer_self s.wiring.odep rs out
    rw [desc] at woken
    obtain ⟨stop, kept⟩ := awake_wakeAll (f := s.wiring.odep) (by rw [wires, row, standby]; exact h)
      (by rw [wires, row]; exact wired) waits once there low woken
    obtain ⟨free, ready, moved⟩ := wiring_wakeAll woken
    have odep : u.wiring.odep = s.wiring.odep := by rw [moved, wires]
    have same : (u.modDesc rs fun d => { d with
        odepList := Function.update d.odepList out [] }).wiring =
        { u.wiring with odep := longer s.wiring.odep rs out [] } := by
      rw [wiring_setOdep, ← odep]
      rfl
    rw [same, standby_modDesc rfl]
    refine ⟨stop, kept.congr fun d => ?_⟩
    by_cases eq : d = rs
    · rw [eq, modDesc_self]
      exact ⟨rfl, rfl, rfl, rfl⟩
    · rw [modDesc_of_ne u eq]
      exact ⟨rfl, rfl, rfl, rfl⟩

theorem desc_finished (rs : Nat) (s : Backend) (d : Nat) :
    ((s.finished rs).desc d).standby = (s.desc d).standby ∧
      ((s.finished rs).desc d).mapped = (s.desc d).mapped ∧
      ((s.finished rs).desc d).trap = (s.desc d).trap ∧
      ((s.finished rs).desc d).issued = (s.desc d).issued ∧
      ((s.finished rs).desc d).idepReady = (s.desc d).idepReady := by
  by_cases eq : d = rs
  · simp only [finished, eq, Function.update_self]
    split <;> exact ⟨rfl, rfl, rfl, rfl, rfl⟩
  · simp only [finished, Function.update_of_ne eq]
    exact ⟨trivial, trivial, trivial, trivial, trivial⟩

theorem awake_finish {rs : Nat} (h : Awake s.wiring s.standby flight) (wired : Wired s.wiring flight)
    (waiting : s.Waiting flight) (once : flight.Nodup) (there : rs ∈ flight)
    (e : s.finish rs = some t) : Awake t.wiring t.standby flight := by
  obtain ⟨-, u, first, second⟩ := finish_some e
  have standby : (s.finished rs).standby = s.standby := funext fun d => (desc_finished rs s d).1
  have waits : (s.finished rs).Waiting flight := waiting.congr fun d => (desc_finished rs s d).2
  rw [← wiring_finished rs s] at h wired
  rw [← standby] at h
  obtain ⟨one, waits'⟩ := awake_broadcast h wired waits once there (Nat.zero_le 1) first
  have wired' := wired_broadcast wired once there (Nat.zero_le 1) first
  exact (awake_broadcast one wired' waits' once there (Nat.le_refl 1) second).1

/-- Nobody waits for an instruction that has written back. -/
theorem row_broadcast {rs out : Nat} (e : s.broadcast rs out = some t) :
    (∀ d, (t.desc d).completed = (s.desc d).completed ∧
        (t.desc d).brcompleted = (s.desc d).brcompleted ∧ (t.desc d).onames = (s.desc d).onames) ∧
      t.wiring.odep = if (s.desc rs).onames out = 0 then s.wiring.odep
        else longer s.wiring.odep rs out [] := by
  rcases broadcast_some e with ⟨unnamed, rfl⟩ | ⟨named, u, woken, rfl⟩
  · rw [if_pos unnamed]
    exact ⟨fun _ => ⟨rfl, rfl, rfl⟩, rfl⟩
  · rw [if_neg named]
    obtain ⟨wires, desc⟩ := wiring_updateCreateVector rs s
    obtain ⟨free, ready, moved⟩ := wiring_wakeAll woken
    have odep : u.wiring.odep = s.wiring.odep := by rw [moved, wires]
    have course := congrArg Course.trace (course_wakeAll woken)
    refine ⟨fun d => ?_, by rw [wiring_setOdep, ← odep]; rfl⟩
    have trace : (u.desc d).trace = (s.desc d).trace := by
      rw [← desc]
      exact congrFun course d
    have parts : (u.desc d).completed = (s.desc d).completed ∧
        (u.desc d).brcompleted = (s.desc d).brcompleted ∧ (u.desc d).onames = (s.desc d).onames :=
      ⟨congrArg Trace.completed trace, congrArg Trace.brcompleted trace,
        congrArg Trace.onames trace⟩
    by_cases eq : d = rs
    · rw [eq, modDesc_self]
      exact eq ▸ parts
    · rw [modDesc_of_ne u eq]
      exact parts

theorem pending_finish {rs : Nat} (h : s.Pending) (named : ∀ out, (s.desc rs).odepList out ≠ [] →
      (s.desc rs).onames out ≠ 0) (outs : ∀ out, 1 < out → (s.desc rs).odepList out = [])
    (e : s.finish rs = some t) : t.Pending := by
  obtain ⟨-, u, first, second⟩ := finish_some e
  obtain ⟨same, odep⟩ := row_broadcast first
  obtain ⟨same', odep'⟩ := row_broadcast second
  have start : (s.finished rs).wiring.odep = s.wiring.odep :=
    congrArg Wiring.odep (wiring_finished rs s)
  rw [start] at odep
  have names : (u.desc rs).onames = (s.desc rs).onames :=
    (same rs).2.2.trans (congrArg Standby.names (desc_finished rs s rs).1)
  have names' : ((s.finished rs).desc rs).onames = (s.desc rs).onames :=
    congrArg Standby.names (desc_finished rs s rs).1
  rw [names'] at odep
  rw [names, odep] at odep'
  intro p out filled
  change t.wiring.odep p out ≠ [] at filled
  have before : p ≠ rs ∧ (s.desc p).odepList out ≠ [] := by
    have held : (s.desc p).odepList out ≠ [] := by
      intro none
      change s.wiring.odep p out = [] at none
      apply filled
      rw [odep']
      split_ifs <;> simp [longer_apply, none]
    refine ⟨?_, held⟩
    rintro rfl
    have low : out = 0 ∨ out = 1 := by
      by_contra high
      exact held (outs out (by omega))
    have name := named out held
    apply filled
    rcases low with rfl | rfl
    · rw [odep', if_neg name]
      split_ifs <;> simp [longer_apply]
    · rw [odep', if_neg name]
      simp [longer_apply]
  obtain ⟨ne, held⟩ := before
  obtain ⟨completed, back, -⟩ := same p
  obtain ⟨completed', back', -⟩ := same' p
  rw [completed', back', completed, back]
  simp only [finished, Function.update_of_ne ne]
  exact h p out held

end Wakeup

section Issue

theorem awake_nextValidNode (h : Awake s.wiring s.standby flight) (fu : Nat) :
    Awake (s.nextValidNode fu).wiring (s.nextValidNode fu).standby flight := by
  rw [nextValidNode, rslinkFreeAll_eq]
  exact (h.purge fu).congr _ _ _

theorem awake_choose (h : Awake s.wiring s.standby flight) (fu : Nat) :
    Awake (s.choose fu).wiring (s.choose fu).standby flight := h.choose fu

/-- The links of a ready queue differ. -/
theorem ready_nodup (wired : Wired s.wiring flight) {fu : Nat} (unit : fu < numFu) :
    (linkIds (s.readyQueue fu)).Nodup := by
  have once := wired.pool.nodup_iff.mpr List.nodup_range
  simp only [Wiring.ids, List.nodup_append] at once
  exact (List.nodup_flatMap.mp once.2.1.1).1 fu (List.mem_range.mpr unit)

/-- A link is taken out of a queue by its number. -/
theorem taken_out {q : List (Nat × RsLink)} (once : (linkIds q).Nodup) {x : Nat × RsLink}
    (here : x ∈ q) : q.Perm (x :: q.eraseP fun y => y.2.id == x.2.id) := by
  obtain ⟨a, l, r, -, mine, split, erased⟩ :=
    List.exists_of_eraseP (p := fun y : Nat × RsLink => y.2.id == x.2.id) here (by simp)
  have same : a = x := by
    have inside : a ∈ q := split ▸ (by simp)
    exact List.inj_on_of_nodup_map once inside here (eq_of_beq mine)
  rw [erased, split, same]
  exact List.perm_middle

/-- The chosen link is in the ready queue of the unit. -/
theorem chosen_ready {fu : Nat} {l : RsLink} (h : Awake s.wiring s.standby flight)
    (which : s.chosen cfg fu = some l) (valid : s.rslinkValid l = true)
    (fresh : (s.desc l.rs).issued = false) : ∃ x ∈ s.readyQueue fu, x.2 = l := by
  simp only [chosen] at which
  split at which
  · obtain ⟨x, first, rfl⟩ := Option.map_eq_some_iff.mp which
    exact ⟨x, List.mem_of_mem_head? first, rfl⟩
  · rcases h.chosen fu l (Option.filter_eq_some_iff.mp which).1 valid with found | gone
    · exact found
    · have issued : (s.desc l.rs).issued = true := gone
      exact absurd (fresh.symm.trans issued) Bool.false_ne_true

theorem awake_issueInst {fu : Nat} {l : RsLink} (h : Awake s.wiring s.standby flight)
    (wired : Wired s.wiring flight) (here : l.rs ∈ flight) (which : s.chosen cfg fu = some l)
    (valid : s.rslinkValid l = true) (fresh : (s.desc l.rs).issued = false)
    (unit : (s.desc l.rs).fu.unit = fu) (e : s.issueInst l = some t) :
    Awake t.wiring t.standby flight ∧ t.desc = (s.issued l.rs).desc := by
  obtain ⟨x, inside, rfl⟩ := chosen_ready h which valid fresh
  have small : fu < numFu := unit ▸ wired.unit x.2.rs
  have parts := taken_out (ready_nodup wired small) inside
  have others : ∀ e ≠ x.2.rs, (s.issued x.2.rs).standby e = s.standby e := by
    intro e ne
    simp only [standby, issued, Function.update_of_ne ne]
  have mine : (s.issued x.2.rs).standby x.2.rs = (s.standby x.2.rs).depart := by
    simp [standby, issued, Descript.standby, Descript.due, Standby.depart]
  have gone := h.issue here valid parts List.eraseP_sublist others mine
  obtain ⟨u, v, oplat, first, rfl, e⟩ := issueInst_some e
  obtain ⟨-, rfl⟩ := deleteNode_some e
  have next : u.desc = (s.issued x.2.rs).desc ∧ u.readyQueue = s.readyQueue ∧
      u.nextIssueItem = s.nextIssueItem := by
    split at first
    · obtain ⟨-, -, -, rfl⟩ := lsqIssue_some first
      exact ⟨rfl, rfl, rfl⟩
    · obtain ⟨-, id, pool, -, rfl⟩ := eventqQueueEvent_some first
      exact ⟨rfl, rfl, rfl⟩
  obtain ⟨desc, ready, chosen⟩ := next
  let rest : Backend := { s.issued x.2.rs with
    readyQueue := Function.update s.readyQueue fu
      ((s.readyQueue fu).eraseP fun y => y.2.id == x.2.id) }
  have wires : (s.issued x.2.rs).wiring = s.wiring := by
    have same : (s.modDesc x.2.rs fun d => { d with issued := true, queued := false }).wiring =
        s.wiring := wiring_modDesc _ ⟨rfl, rfl, rfl, rfl⟩
    exact same
  have start : Awake rest.wiring rest.standby flight := by
    have same : rest.wiring = { (s.issued x.2.rs).wiring with ready := rest.readyQueue } := rfl
    rw [same, wires]
    exact gone
  rw [countIssue_eq]
  refine ⟨awake_same start desc ?_ chosen, desc⟩
  simp only [ready, unit, rest]

end Issue

section Map

theorem awake_mapInst {rest : List Nat} (h : Awake s.wiring s.standby flight)
    (queue : s.decodeData = d :: rest) (fresh : (s.desc d).mapped = false)
    (unissued : (s.desc d).issued = false) (e : s.mapInst cfg = some t) :
    Awake t.wiring t.standby flight ∧ (∀ p, (t.desc p).trace = (s.desc p).trace) ∧
      ∀ p, (t.desc p).odepList = (s.desc p).odepList := by
  have idle : (s.desc d).due = none := by simp [Descript.due, fresh]
  have placed (e : Nat) (ne : e ≠ d) : (s.placed cfg d rest).standby e = s.standby e := by
    simp only [standby, Backend.placed, Function.update_of_ne ne]
  have wires : (s.placed cfg d rest).wiring =
      { s.wiring with unit := (s.placed cfg d rest).wiring.unit } := by
    simp only [wiring, Backend.placed, Wiring.mk.injEq, and_true]
    refine ⟨rfl, rfl, rfl, rfl, ?_, ?_, ?_⟩ <;> funext j <;> by_cases eq : j = d <;> simp [eq]
  have mine : (s.placed cfg d rest).standby d = { s.standby d with
      due := if !(s.desc d).trap && (s.desc d).operandsReady then
        some ((s.placed cfg d rest).desc d).fu.unit else none } := by
    simp [standby, Descript.standby, Descript.due, Backend.placed, unissued,
      Descript.operandsReady]
  have trace (p : Nat) : ((s.placed cfg d rest).desc p).trace = (s.desc p).trace :=
    congrFun (congrArg Course.trace course_placed) p
  have odep (p : Nat) : ((s.placed cfg d rest).desc p).odepList = (s.desc p).odepList := by
    have same := congrArg Wiring.odep wires
    exact congrFun same p
  rw [mapInst_eq cfg queue] at e
  split at e
  · rename_i both
    rw [if_pos both] at mine
    obtain ⟨id, pool, -, moved⟩ := wiring_readyqEnqueue e
    have trace' (p : Nat) : (t.desc p).trace = ((s.placed cfg d rest).desc p).trace :=
      congrFun (congrArg Course.trace (course_readyqEnqueue e)) p
    have odep' (p : Nat) : (t.desc p).odepList = ((s.placed cfg d rest).desc p).odepList := by
      have same := congrArg Wiring.odep moved
      exact congrFun same p
    refine ⟨?_, fun p => (trace' p).trans (trace p), fun p => (odep' p).trans (odep p)⟩
    have queued := h.enqueue idle id ((s.placed cfg d rest).desc d).fu.unit placed mine
    have seq : ((s.placed cfg d rest).desc d).seq = s.wiring.seq d := by
      have same := congrArg Wiring.seq wires
      exact congrFun same d
    rw [standby_readyqEnqueue e, moved, seq, wires]
    exact queued.congr _ _ _
  · rename_i both
    cases e
    rw [if_neg both] at mine
    have same : (s.placed cfg d rest).standby = s.standby := by
      funext j
      by_cases eq : j = d
      · rw [eq, mine, standby, Descript.standby, idle]
      · exact placed j eq
    refine ⟨?_, trace, odep⟩
    rw [wires, same]
    exact h.congr s.wiring.free s.wiring.event _

end Map

section Decode

open Awake

/-- The instruction that the create vector names for a register can be waited for. -/
structure Source (s : Backend) (flight : List Nat) (rs p out : Nat) : Prop where
  here : p ∈ flight
  low : out ≤ 1
  named : (s.desc p).onames out ≠ 0
  older : (s.desc p).seq < (s.desc rs).seq
  fresh : (s.desc p).completed = false ∧ (s.desc p).brcompleted = false

/-- What the renaming of the inputs of `rs` starts from. -/
structure Sources (s : Backend) (flight : List Nat) (rs : Nat) : Prop where
  vector : ∀ name ≠ 0, ∀ p out, s.createVector s.specLevel name = some (p, out) →
    s.Source flight rs p out
  fresh : (s.desc rs).mapped = false
  pending : s.Pending

theorem Sources.modDesc {rs j : Nat} (h : s.Sources flight rs) {f : Descript → Descript}
    (same : (f (s.desc j)).onames = (s.desc j).onames ∧ (f (s.desc j)).seq = (s.desc j).seq ∧
      (f (s.desc j)).completed = (s.desc j).completed ∧
      (f (s.desc j)).brcompleted = (s.desc j).brcompleted ∧
      (f (s.desc j)).mapped = (s.desc j).mapped ∧
      (f (s.desc j)).odepList = (s.desc j).odepList) : (s.modDesc j f).Sources flight rs := by
  have part (k : Nat) : ((s.modDesc j f).desc k).onames = (s.desc k).onames ∧
      ((s.modDesc j f).desc k).seq = (s.desc k).seq ∧
      ((s.modDesc j f).desc k).completed = (s.desc k).completed ∧
      ((s.modDesc j f).desc k).brcompleted = (s.desc k).brcompleted ∧
      ((s.modDesc j f).desc k).mapped = (s.desc k).mapped ∧
      ((s.modDesc j f).desc k).odepList = (s.desc k).odepList := by
    by_cases eq : k = j
    · rw [eq, modDesc_self]
      exact same
    · rw [modDesc_of_ne s eq]
      exact ⟨rfl, rfl, rfl, rfl, rfl, rfl⟩
  refine ⟨fun name named p out entry => ?_, ?_, fun p out filled => ?_⟩
  · obtain ⟨here, low, name, older, fresh⟩ := h.vector name named p out entry
    obtain ⟨onames, seq, completed, back, -⟩ := part p
    refine ⟨here, low, ?_, ?_, ?_⟩
    · rwa [onames]
    · rwa [seq, (part rs).2.1]
    · rwa [completed, back]
  · obtain ⟨-, -, -, -, mapped, -⟩ := part rs
    rw [mapped, h.fresh]
  · obtain ⟨-, -, completed, back, -, odep⟩ := part p
    rw [odep] at filled
    rw [completed, back]
    exact h.pending p out filled

theorem roqLinkIdep_sources {rs num name : Nat} (h : s.Sources flight rs)
    (e : s.roqLinkIdep rs num name = some t) : t.Sources flight rs := by
  have course := course_roqLinkIdep e
  have trace (j : Nat) : (t.desc j).trace = (s.desc j).trace :=
    congrFun (congrArg Course.trace course) j
  have only := Coherent.Only.linkIdep e
  have parts (j : Nat) : (t.desc j).completed = (s.desc j).completed ∧
      (t.desc j).brcompleted = (s.desc j).brcompleted ∧ (t.desc j).onames = (s.desc j).onames :=
    ⟨congrArg Trace.completed (trace j), congrArg Trace.brcompleted (trace j),
      congrArg Trace.onames (trace j)⟩
  refine ⟨fun name named p out entry => ?_, ?_, fun p out filled => ?_⟩
  · have vector : t.createVector = s.createVector := congrArg Course.createVector course
    have level : t.specLevel = s.specLevel := congrArg Course.specLevel course
    rw [vector, level] at entry
    obtain ⟨here, low, name, older, fresh⟩ := h.vector name named p out entry
    obtain ⟨completed, back, onames⟩ := parts p
    refine ⟨here, low, ?_, ?_, ?_⟩
    · rwa [onames]
    · rwa [only.seq, only.seq]
    · rwa [completed, back]
  · rw [← h.fresh]
    rcases roqLinkIdep_some e with ⟨-, rfl⟩ | ⟨p, out, id, pool, -, entry, -, rfl⟩
    · rw [modDesc_self]
    · by_cases eq : rs = p
      · subst eq
        simp [waitFor, modDesc]
      · simp [waitFor, modDesc, eq]
  · obtain ⟨completed, back, -⟩ := parts p
    rw [completed, back]
    rcases roqLinkIdep_some e with ⟨-, rfl⟩ | ⟨q, out', id, pool, named, entry, -, rfl⟩
    · apply h.pending p out
      by_cases eq : p = rs
      · subst eq
        rwa [modDesc_self] at filled
      · rwa [modDesc_of_ne s eq] at filled
    · by_cases eq : p = q
      · rw [eq]
        exact (h.vector name named q out' entry).fresh
      · apply h.pending p out
        simp only [waitFor] at filled
        rw [modDesc_of_ne _ eq] at filled
        by_cases eq' : p = rs
        · subst eq'
          rwa [modDesc_self] at filled
        · rwa [modDesc_of_ne s eq'] at filled

/-- An input of the instruction that comes into flight is linked. -/
theorem entering_roqLinkIdep {rs num name : Nat} (h : Entering s.wiring s.standby flight rs num)
    (sources : s.Sources flight rs) (once : flight.Nodup) (outside : rs ∉ flight)
    (e : s.roqLinkIdep rs num name = some t) :
    Entering t.wiring t.standby flight rs (num + 1) := by
  have due {b : Bool} : { s.desc rs with
      idepReady := Function.update (s.desc rs).idepReady num b }.standby =
      (s.standby rs).settle num b := by
    simp [Descript.standby, Descript.due, standby, Standby.settle, sources.fresh]
  have settled {b : Bool} (f : Descript → Descript) (same : f = fun d => { d with
      idepReady := Function.update d.idepReady num b }) :
      (∀ e ≠ rs, (s.modDesc rs f).standby e = s.standby e) ∧
        (s.modDesc rs f).standby rs = (s.standby rs).settle num b := by
    refine ⟨fun e ne => standby_of_ne ne f, ?_⟩
    rw [standby, modDesc_self, same]
    exact due
  rcases roqLinkIdep_some e with ⟨-, rfl⟩ | ⟨p, out, id, pool, named, entry, -, rfl⟩
  · obtain ⟨others, mine⟩ := settled (b := true) _ rfl
    rw [wiring_modDesc _ ⟨rfl, rfl, rfl, rfl⟩]
    exact h.settled outside others mine
  · obtain ⟨others, mine⟩ := settled (b := false) _ rfl
    obtain ⟨there, low, name', older, -⟩ := sources.vector name named p out entry
    have next := h.waiting once outside there low name' older others mine id
    have wires : (s.modDesc rs fun d => { d with
        idepReady := Function.update d.idepReady num false }).wiring = s.wiring :=
      wiring_modDesc _ ⟨rfl, rfl, rfl, rfl⟩
    have row : (s.waitFor rs num p out (s.linkTo rs id)).wiring = { s.wiring with
        odep := longer s.wiring.odep p out
          ((num, s.wiring.link rs id) :: s.wiring.odep p out) } := by
      have odep : ((s.modDesc rs fun d => { d with
          idepReady := Function.update d.idepReady num false }).desc p).odepList =
          s.wiring.odep p := congrFun (congrArg Wiring.odep wires) p
      rw [waitFor, wiring_setOdep, wires, odep]
      rfl
    have same : (s.waitFor rs num p out (s.linkTo rs id)).standby = (s.modDesc rs fun d => { d with
        idepReady := Function.update d.idepReady num false }).standby := standby_modDesc rfl
    rw [← row, ← same] at next
    exact next.congr pool s.eventQueue _

/-- The outputs of an instruction get their names. -/
theorem entering_roqInstallOdep (num name : Nat) {rs n : Nat} (h : Entering s.wiring s.standby flight rs n)
    (outside : rs ∉ flight) :
    Entering (s.roqInstallOdep rs num name).wiring (s.roqInstallOdep rs num name).standby flight rs
      n := by
  have wires := (wiring_roqInstallOdep rs num name s h.bare).1
  have standby : (s.roqInstallOdep rs num name).standby = (s.modDesc rs fun d => { d with
      onames := Function.update d.onames num name
      odepList := Function.update d.odepList num [] }).standby := by
    simp only [roqInstallOdep]
    split <;> rfl
  rw [wires, standby]
  have mine : ((s.modDesc rs fun d => { d with
      onames := Function.update d.onames num name
      odepList := Function.update d.odepList num [] }).standby rs).idep = (s.standby rs).idep ∧
      ((s.modDesc rs fun d => { d with
        onames := Function.update d.onames num name
        odepList := Function.update d.odepList num [] }).standby rs).issued =
          (s.standby rs).issued := by
    rw [Backend.standby, modDesc_self]
    exact ⟨rfl, rfl⟩
  exact h.change outside (fun e ne => standby_of_ne ne _) mine.2 (by rw [mine.1]; exact h.asked)

theorem pending_roqInstallOdep {rs num name : Nat} (h : s.Pending) :
    (s.roqInstallOdep rs num name).Pending := by
  have start : (s.modDesc rs fun d => { d with
      onames := Function.update d.onames num name
      odepList := Function.update d.odepList num [] }).Pending := by
    intro p out filled
    by_cases eq : p = rs
    · subst eq
      rw [modDesc_self] at filled ⊢
      apply h p out
      intro none
      apply filled
      by_cases eq : out = num <;> simp [eq, none]
    · rw [modDesc_of_ne s eq] at filled ⊢
      exact h p out filled
  simp only [roqInstallOdep]
  split
  · exact start
  · exact start

/-- The registers of an instruction that comes into flight are renamed. -/
theorem awake_rename {rs : Nat} (h : Awake s.wiring s.standby flight) (wired : Wired s.wiring flight)
    (sources : s.Sources flight rs) (once : flight.Nodup) (outside : rs ∉ flight)
    (e : s.rename rs = some t) : Awake t.wiring t.standby (flight ++ [rs]) ∧ t.Pending := by
  simp only [rename] at e
  obtain ⟨u, first, e⟩ := Option.bind_eq_some_iff.mp e
  obtain ⟨v, second, e⟩ := Option.bind_eq_some_iff.mp e
  obtain ⟨w, third, rfl⟩ := Option.map_eq_some_iff.mp e
  generalize ((s.desc rs).op.names (s.desc rs).ir) = n at first second third ⊢
  generalize start : (s.modDesc rs fun d => { d with ins := fun i =>
    if i = 0 then n.in1 else if i = 1 then n.in2 else if i = 2 then n.in3 else 0 }) = s₀ at first
  have named : s₀.Sources flight rs := start ▸ sources.modDesc ⟨rfl, rfl, rfl, rfl, rfl, rfl⟩
  have zero : Entering s₀.wiring s₀.standby flight rs 0 := by
    rw [← start, wiring_modDesc _ ⟨rfl, rfl, rfl, rfl⟩, standby_modDesc rfl]
    exact .start h wired outside
  have one := entering_roqLinkIdep zero named once outside first
  have named₁ := roqLinkIdep_sources named first
  have two := entering_roqLinkIdep one named₁ once outside second
  have named₂ := roqLinkIdep_sources named₁ second
  have three := entering_roqLinkIdep two named₂ once outside third
  have named₃ := roqLinkIdep_sources named₂ third
  have last := entering_roqInstallOdep 1 n.out2 (entering_roqInstallOdep 0 n.out1 three outside)
    outside
  refine ⟨last.entered ?_, pending_roqInstallOdep (pending_roqInstallOdep named₃.pending)⟩
  have fresh {u : Backend} (num name : Nat) (mapped : (u.desc rs).mapped = false) :
      ((u.roqInstallOdep rs num name).desc rs).mapped = false := by
    simp only [roqInstallOdep]
    split <;> simpa [Backend.modDesc] using mapped
  have mapped := fresh 1 n.out2 (fresh 0 n.out1 named₃.fresh)
  simp [standby, Descript.standby, Descript.due, mapped]

/-- The queue in front of the instructions in flight holds younger ones. -/
theorem front_younger {rest : List Nat} (num : Numbered s roq) (queue : s.fetchData = d :: rest)
    {p : Nat} (hp : p ∈ roq ++ s.decodeData) : (s.desc p).seq < (s.desc d).seq := by
  have sorted := num.sorted
  rw [numbers, queue, ← List.append_assoc, List.map_append, List.pairwise_append,
    List.pairwise_append] at sorted
  exact sorted.2.1.2.2 _ (List.mem_map_of_mem hp) _ (by simp)

/-- No instruction changes in what waiting and waking look at. -/
def Unseen (s t : Backend) : Prop := ∀ j, (t.desc j).standby = (s.desc j).standby ∧
  (t.desc j).completed = (s.desc j).completed ∧ (t.desc j).brcompleted = (s.desc j).brcompleted ∧
  (t.desc j).odepList = (s.desc j).odepList

namespace Unseen

theorem of_desc (same : t.desc = s.desc) : Unseen s t := by
  intro j
  rw [same]
  exact ⟨rfl, rfl, rfl, rfl⟩

theorem trans (h : Unseen s t) (h' : Unseen t u) : Unseen s u := by
  intro j
  obtain ⟨standby, completed, back, odep⟩ := h j
  obtain ⟨standby', completed', back', odep'⟩ := h' j
  exact ⟨standby'.trans standby, completed'.trans completed, back'.trans back, odep'.trans odep⟩

theorem modDesc {rs : Nat} {f : Descript → Descript} (s : Backend)
    (same : (f (s.desc rs)).standby = (s.desc rs).standby ∧
      (f (s.desc rs)).completed = (s.desc rs).completed ∧
      (f (s.desc rs)).brcompleted = (s.desc rs).brcompleted ∧
      (f (s.desc rs)).odepList = (s.desc rs).odepList) : Unseen s (s.modDesc rs f) := by
  intro j
  by_cases eq : j = rs
  · rw [eq, modDesc_self]
    exact same
  · rw [modDesc_of_ne s eq]
    exact ⟨rfl, rfl, rfl, rfl⟩

theorem desc (h : Unseen s t) (same : u.desc = t.desc) : Unseen s u := h.trans (of_desc same)

theorem standby (h : Unseen s t) : t.standby = s.standby := funext fun j => (h j).1

theorem pending (h : Unseen s t) (before : s.Pending) : t.Pending := by
  intro p out filled
  obtain ⟨-, completed, back, odep⟩ := h p
  rw [odep] at filled
  rw [completed, back]
  exact before p out filled

theorem enterLevel (e : s.enterLevel cfg = some t) : Unseen s t := by
  rw [Backend.enterLevel] at e
  split_ifs at e
  cases e
  exact of_desc rfl

theorem enterSpec {o : Outcome} {rs : Nat} (e : s.enterSpec cfg o rs = some t) : Unseen s t := by
  have first : Unseen s (s.modDesc rs fun d =>
      { d with specLevel := s.specLevel, misPredict := false }) := modDesc s ⟨rfl, rfl, rfl, rfl⟩
  simp only [Backend.enterSpec] at e
  split at e
  · obtain ⟨u, entered, rfl⟩ := Option.map_eq_some_iff.mp e
    exact first.trans ((enterLevel entered).trans (of_desc rfl))
  · split at e
    · have second : Unseen s ((s.modDesc rs fun d =>
          { d with specLevel := s.specLevel, misPredict := false }).modDesc rs fun d =>
          { d with misPredict := true }) := first.trans (modDesc _ ⟨rfl, rfl, rfl, rfl⟩)
      split at e
      · exact second.trans (enterLevel e)
      · cases e
        exact second.desc rfl
    · cases e
      exact first

theorem redirect (o : Outcome) (rs : Nat) (s : Backend) : Unseen s (s.redirect o rs) := by
  simp only [Backend.redirect]
  split
  · rw [foldl_returnToFreeList]
    exact of_desc rfl
  · split
    · exact of_desc rfl
    · exact of_desc rfl

theorem markSlot {rs : Nat} (e : s.markSlot rs = some t) : Unseen s t := by
  simp only [Backend.markSlot] at e
  split at e
  · cases e
    exact of_desc rfl
  · split at e
    · cases e
    · cases e
      have marked : Unseen s (s.modDesc rs fun d =>
          if d.ctrl then { d with ir := nopInst, op := mdSetOpcode nopInst, bd := true }
          else { d with bd := true }) := modDesc s (by split <;> exact ⟨rfl, rfl, rfl, rfl⟩)
      exact marked.desc rfl

end Unseen

theorem awake_decodeNext {o : Outcome} (h : Awake s.wiring s.standby flight)
    (wired : Wired s.wiring flight) (sources : s.Sources flight d) (once : flight.Nodup)
    (outside : d ∉ flight) (e : s.decodeNext cfg o d = some t) :
    Awake t.wiring t.standby (flight ++ [d]) ∧ t.Pending := by
  simp only [decodeNext] at e
  obtain ⟨u, named, e⟩ := Option.bind_eq_some_iff.mp e
  obtain ⟨v, entered, rfl⟩ := Option.map_eq_some_iff.mp e
  generalize start : (s.modDesc d fun x => { x with divDelay := o.divDelay }) = s₀ at named
  have wires : s₀.wiring = s.wiring := start ▸ wiring_modDesc _ ⟨rfl, rfl, rfl, rfl⟩
  have standby : s₀.standby = s.standby := start ▸ standby_modDesc rfl
  have sources₀ : s₀.Sources flight d := start ▸ sources.modDesc ⟨rfl, rfl, rfl, rfl, rfl, rfl⟩
  rw [← wires] at h wired
  rw [← standby] at h
  obtain ⟨renamed, pending⟩ := awake_rename h wired sources₀ once outside named
  generalize branch : (if (u.desc d).ctrl = true then { u with lastIsBranch := true } else u) = u'
    at entered
  have same : u'.wiring = u.wiring ∧ u'.desc = u.desc := by
    rw [← branch]
    split <;> exact ⟨rfl, rfl⟩
  have unseen : Unseen u v :=
    (Unseen.of_desc same.2).trans ((Unseen.redirect o d u').trans (Unseen.enterSpec entered))
  have wires' : v.wiring = u.wiring :=
    (wiring_enterSpec entered).trans ((wiring_redirect o d u').trans same.1)
  refine ⟨?_, unseen.pending pending⟩
  change Awake v.wiring v.standby (flight ++ [d])
  rw [wires', unseen.standby]
  exact renamed

theorem awake_decodeInst {o : Nat → Outcome} {rest : List Nat} {more : Bool}
    (coherent : Coherent cfg s roq done) (num : Numbered s roq)
    (h : Awake s.wiring s.standby (roq ++ s.decodeData)) (pending : s.Pending)
    (queue : s.fetchData = d :: rest) (e : s.decodeInst cfg o = some (t, more)) :
    Awake t.wiring t.standby (roq ++ t.decodeData) ∧ t.Pending := by
  have outside : d ∉ roq ++ s.decodeData := fun hd =>
    flight_fetched coherent.flow d hd (queue ▸ List.mem_cons_self)
  simp only [Backend.decodeInst, queue] at e
  obtain ⟨u, marked, e⟩ := Option.bind_eq_some_iff.mp e
  obtain ⟨flow', fetched, decode, -⟩ := flow_markSlot coherent.flow queue marked
  have unseen := Unseen.markSlot marked
  have wires := wiring_markSlot marked
  have pending' : u.Pending := unseen.pending pending
  rw [← wires, ← unseen.standby] at h
  split at e
  · cases e
    rw [decode]
    exact ⟨h, pending'⟩
  · split at e
    · cases e
    · obtain ⟨v, decoded, same⟩ := Option.map_eq_some_iff.mp e
      cases same
      have named := (renamed_markSlot coherent.renamed coherent.flow queue marked).1
      have seq := (Coherent.Only.markSlot marked).seq
      have sources : u.Sources (roq ++ s.decodeData) d := by
        refine ⟨fun name nonzero p out entry => ?_, ?_, pending'⟩
        · have same := named.named u.specLevel (Nat.lt_succ_self _) name nonzero
          obtain ⟨here, rfl, names, back⟩ := entry_some (same.symm.trans entry)
          have there := (List.mem_filter.mp here).1
          change p ∈ roq ++ u.decodeData at there
          rw [decode] at there
          have fresh : (u.desc p).completed = false ∧ (u.desc p).brcompleted = false := by
            simpa [course, Trace.writtenBack, Descript.trace] using back
          have name' : (u.desc p).onames 0 = name := names
          refine ⟨there, Nat.zero_le 1, name' ▸ nonzero, ?_, fresh⟩
          rw [seq, seq]
          exact front_younger num queue there
        · have booked := booked_markSlot coherent.booked coherent.flow queue marked
          have front : d ∈ u.fetchData := by
            rw [fetched, queue]
            exact List.mem_cons_self
          exact (booked.fetched d front).mapped
      obtain ⟨free, fetch, moved, -⟩ := decodeNext_place decoded
      have decode' : t.decodeData = s.decodeData ++ [d] := by
        rw [← decode]
        exact congrArg Place.decodeData moved
      rw [decode', ← List.append_assoc]
      exact awake_decodeNext h (wires.symm ▸ coherent.wired) sources coherent.flight_nodup outside decoded

end Decode

section Fetch

/-- A fetched instruction takes a descriptor that is not in flight. -/
theorem awake_pushed (h : Awake s.wiring s.standby flight) (wired : Wired s.wiring flight)
    (pending : s.Pending) (outside : s.getFromFreeList.1 ∉ flight) (ir : Word) (op : Op)
    (trap : Bool) : Awake (s.pushed cfg ir op trap).wiring (s.pushed cfg ir op trap).standby flight ∧
      (s.pushed cfg ir op trap).Pending := by
  obtain ⟨d, free, fresh, got, -⟩ := getFromFreeList_some s
  rw [got] at outside
  have apart (j : Nat) (ne : j ≠ d) : (s.pushed cfg ir op trap).desc j = s.desc j := by
    rw [pushed, got]
    simp [newInst, fetchPush, modDesc, ne]
  have here : ((s.pushed cfg ir op trap).desc d).odepList = (s.desc d).odepList ∧
      ((s.pushed cfg ir op trap).desc d).tag = (s.desc d).tag := by
    rw [pushed, got]
    simp [newInst, fetchPush, modDesc]
  have queues : (s.pushed cfg ir op trap).readyQueue = s.readyQueue ∧
      (s.pushed cfg ir op trap).nextIssueItem = s.nextIssueItem := by
    rw [pushed, got]
    exact ⟨rfl, rfl⟩
  have part (j : Nat) : ((s.pushed cfg ir op trap).desc j).odepList = (s.desc j).odepList ∧
      ((s.pushed cfg ir op trap).desc j).tag = (s.desc j).tag := by
    by_cases eq : j = d
    · rw [eq]
      exact here
    · rw [apart j eq]
      exact ⟨rfl, rfl⟩
  have inside {j : Nat} (hj : j ∈ flight) : j ≠ d := by
    rintro rfl
    exact outside hj
  constructor
  · refine h.front wired queues.1 queues.2 (funext fun j => (part j).1) (funext fun j => (part j).2)
      (fun j hj => ?_) fun j hj => ?_
    · exact congrArg Descript.seq (apart j (inside hj))
    · exact congrArg Descript.standby (apart j (inside hj))
  · intro p out filled
    rw [(part p).1] at filled
    have flies : p ∈ flight := by
      by_contra absent
      exact filled (wired.idle p out absent)
    rw [apart p (inside flies)]
    exact pending p out filled

theorem awake_fetchInst (coherent : Coherent cfg s roq done)
    (h : Awake s.wiring s.standby (roq ++ s.decodeData)) (pending : s.Pending) (f : Fetched)
    (free : s.fetchData.length < cfg.fetchIfqSize) (room : FetchRoom cfg f s.fetchData.length) :
    Awake (s.fetchInst cfg f).1.wiring (s.fetchInst cfg f).1.standby
        (roq ++ (s.fetchInst cfg f).1.decodeData) ∧ (s.fetchInst cfg f).1.Pending := by
  obtain ⟨ir, invalid, cases⟩ := fetchInst_cases f room
  have nop : (!f.valid) = true → mdSetOpcode ir = mdSetOpcode nopInst := by
    intro bad
    rw [Bool.not_eq_true'] at bad
    rw [invalid bad]
  have outside {u : Backend} (flow : Passage cfg u.place roq done) :
      u.getFromFreeList.1 ∉ roq ++ u.decodeData := by
    obtain ⟨-, decoded, queued, -⟩ := got_apart flow
    rw [List.mem_append, not_or]
    exact ⟨queued, decoded⟩
  obtain ⟨first, kept⟩ := @awake_pushed cfg _ _ h coherent.wired pending
    (outside coherent.flow) ir (mdSetOpcode ir) (!f.valid)
  rcases cases with ⟨d, l, fresh, -, moved⟩ | moved | ⟨half, space, moved⟩ <;> rw [moved]
  · exact ⟨awake_same h rfl rfl rfl, pending.same rfl⟩
  · rw [decodeData_pushed]
    exact ⟨first, kept⟩
  · have flow := flow_pushed coherent.flow free ir nop
    have wired := wired_pushed coherent.flow coherent.wired ir (mdSetOpcode ir) (!f.valid)
    have apart := outside flow
    rw [decodeData_pushed] at apart
    rw [decodeData_pushed, decodeData_pushed]
    exact awake_pushed first wired kept apart ir half false

end Fetch

section Runs

/-- The instructions in program order, what they wait for and which of them are ready. -/
structure Alert (cfg : BackendConfig) (s : Backend) (roq done : List Nat) : Prop where
  coherent : Coherent cfg s roq done
  num : Numbered s roq
  awake : Awake s.wiring s.standby (roq ++ s.decodeData)
  pending : s.Pending

namespace Alert

/-- The instructions in the reorder queue are those that are found there. -/
theorem of_sequenced (seq : Numbered.Sequenced cfg t) (coherent : Coherent cfg t roq done)
    (awake : Awake t.wiring t.standby (roq ++ t.decodeData)) (pending : t.Pending) :
    ∃ roq done, Alert cfg t roq done := by
  obtain ⟨roq', done', coherent', num⟩ := seq
  have same : roq' = roq := coherent'.inRoq_eq.symm.trans coherent.inRoq_eq
  subst same
  exact ⟨roq', done', coherent', num, awake, pending⟩

section Commit

theorem retire (h : Alert cfg s (d :: roq) done) (e : (Coherent.bumped d s).retire cfg d = some t) :
    Awake t.wiring t.standby (roq ++ t.decodeData) ∧ t.Pending := by
  have once := h.coherent.flight_nodup
  have apart : d ∉ roq ++ s.decodeData := (List.nodup_cons.mp once).1
  have recalled := (Recalled.bumped apart s).trans (.retire _ e) (List.Subset.refl _)
  obtain ⟨-, first, second, same⟩ := retire_some e
  have decode : t.decodeData = s.decodeData := by
    rw [same]
    rfl
  rw [Coherent.desc_bumped] at first second
  have bare (out : Nat) : (s.desc d).odepList out = [] := by
    by_cases high : 1 < out
    · exact h.coherent.wired.outs d out high
    · have low : out = 0 ∨ out = 1 := by omega
      rcases low with rfl | rfl
      · exact first
      · exact second
  rw [decode]
  have parts : (d :: roq ++ s.decodeData).Perm (roq ++ s.decodeData ++ [d]) :=
    (List.perm_append_singleton d _).symm
  refine ⟨recalled.awake h.awake h.coherent.wired parts ?_, recalled.pending h.pending⟩
  intro p hp out x here
  rw [List.mem_singleton.mp hp, bare] at here
  cases here

theorem flush (h : Alert cfg s (d :: roq) done)
    (e : (Coherent.bumped d s).pipelineFlush cfg = some t) :
    Awake t.wiring t.standby ([] ++ t.decodeData) ∧ t.Pending := by
  have flow := (h.coherent.bumped_coherent d).flow
  have recalled := (Recalled.bumped List.not_mem_nil s).trans (.pipelineFlush flow e)
    (List.nil_subset _)
  obtain ⟨u, -, all, rfl⟩ := pipelineFlush_some flow e
  have none : u.decodeData = [] := decodeData_squashAll all
  refine ⟨?_, recalled.pending h.pending⟩
  change Awake _ _ ([] ++ u.decodeData)
  rw [none]
  exact recalled.awake h.awake h.coherent.wired (List.Perm.refl _) fun p _ out x _ _ inside => by
    cases inside

/-- What the recovery keeps does not wait for what it squashes, which is younger. -/
theorem recover {i : Nat} (h : Alert cfg s roq done) (hi : i < roq.length)
    (slot : i + 1 < roq.length) (back : (s.desc roq[i]).brcompleted = true)
    (e : (s.resolved roq[i]).brerrRecover cfg roq[i] = some t) :
    Awake t.wiring t.standby (roq.take (lastKept (s.desc roq[i]) i + 1) ++ t.decodeData) ∧
      t.Pending := by
  have flow : Passage cfg (s.resolved roq[i]).place roq done :=
    (layout_eq.mp (Coherent.layout_resolved roq[i] s)).1 ▸ h.coherent.flow
  have kept : lastKept ((s.resolved roq[i]).desc roq[i]) i = lastKept (s.desc roq[i]) i := by
    rw [resolved, modDesc_self]
    rfl
  have recalled := Recalled.brerrRecover flow hi slot e
  rw [kept] at recalled
  have decode : t.decodeData = [] := by
    obtain ⟨u, -, rfl⟩ := brerrRecover_some flow hi slot e
    rfl
  rw [decode, List.append_nil]
  generalize lastKept (s.desc roq[i]) i + 1 = n at recalled ⊢
  have wires := Coherent.wiring_resolved roq[i] s
  have standby : (s.resolved roq[i]).standby = s.standby := standby_modDesc rfl
  have parts : (roq ++ s.decodeData).Perm (roq.take n ++ (roq.drop n ++ s.decodeData)) := by
    rw [← List.append_assoc, List.take_append_drop]
  have sorted := h.num.sorted
  rw [numbers, ← List.append_assoc roq, List.map_append, List.pairwise_append,
    List.pairwise_append] at sorted
  have flight := sorted.2.1.1
  have split : roq ++ s.decodeData = roq.take n ++ (roq.drop n ++ s.decodeData) := by
    rw [← List.append_assoc, List.take_append_drop]
  rw [split, List.map_append, List.pairwise_append] at flight
  constructor
  · refine recalled.awake (by rw [wires, standby]; exact h.awake)
      (by rw [wires]; exact h.coherent.wired) parts ?_
    intro p hp out x here valid inside
    have chain : (s.resolved roq[i]).wiring.odep p out = s.wiring.odep p out := by rw [wires]
    have held : x ∈ s.wiring.odep p out := chain ▸ here
    have holds : s.wiring.valid x.2 = true := by
      have tags : (s.resolved roq[i]).wiring.tag = s.wiring.tag := by rw [wires]
      have same : ((s.resolved roq[i]).desc x.2.rs).tag = (s.desc x.2.rs).tag :=
        congrFun tags x.2.rs
      rwa [rslinkValid, same] at valid
    have older : (s.desc p).seq < (s.desc x.2.rs).seq := h.awake.older p out x held holds
    have younger := flight.2.2 _ (List.mem_map_of_mem inside) _ (List.mem_map_of_mem hp)
    omega
  · refine recalled.pending fun p out filled => ?_
    by_cases eq : p = roq[i]
    · rw [eq, resolved, modDesc_self] at filled
      have fresh := (h.pending roq[i] out filled).2
      exact absurd (fresh.symm.trans back) Bool.false_ne_true
    · rw [resolved, modDesc_of_ne s eq] at filled ⊢
      exact h.pending p out filled

theorem right (h : Alert cfg s roq done) (back : (s.desc d).brcompleted = true) :
    Awake (s.resolved d).wiring (s.resolved d).standby (roq ++ (s.resolved d).decodeData) ∧
      (s.resolved d).Pending := by
  constructor
  · rw [Coherent.wiring_resolved]
    have standby : (s.resolved d).standby = s.standby := standby_modDesc rfl
    rw [standby]
    exact h.awake
  · intro p out filled
    by_cases eq : p = d
    · rw [eq, resolved, modDesc_self] at filled
      have fresh := (h.pending d out filled).2
      exact absurd (fresh.symm.trans back) Bool.false_ne_true
    · rw [resolved, modDesc_of_ne s eq] at filled ⊢
      exact h.pending p out filled

end Commit

theorem decodeData_finish {rs : Nat} (e : s.finish rs = some t) : t.decodeData = s.decodeData := by
  obtain ⟨-, u, first, second⟩ := finish_some e
  have one : u.decodeData = s.decodeData :=
    congrArg Place.decodeData (layout_eq.mp (layout_broadcast first)).1
  exact (congrArg Place.decodeData (layout_eq.mp (layout_broadcast second)).1).trans one

/-- An event is delivered. -/
theorem deliver {time : Nat} {l : RsLink} {rest : List (Nat × RsLink)} (h : Alert cfg s roq done)
    (queue : s.eventQueue = (time, l) :: rest) (e : s.deliver l rest = some t) :
    Awake t.wiring t.standby (roq ++ t.decodeData) ∧ t.Pending := by
  have start : Awake ({ s with eventQueue := rest }.rslinkFree l).wiring
      ({ s with eventQueue := rest }.rslinkFree l).standby (roq ++ s.decodeData) :=
    awake_same h.awake rfl rfl rfl
  have popped : Wired ({ s with eventQueue := rest }.rslinkFree l).wiring (roq ++ s.decodeData) :=
    h.coherent.wired.deliver queue
  simp only [Backend.deliver] at e
  split at e
  · rename_i valid
    have front : (time, l) ∈ s.eventQueue := by
      rw [queue]
      exact List.mem_cons_self
    obtain ⟨here, -⟩ := h.coherent.accesses.event _ front valid
    have waits : ({ s with eventQueue := rest }.rslinkFree l).Waiting (roq ++ s.decodeData) :=
      waiting_booked h.coherent.booked
    have decode : t.decodeData = ({ s with eventQueue := rest }.rslinkFree l).decodeData :=
      decodeData_finish e
    rw [decode]
    exact ⟨awake_finish start popped waits h.coherent.flight_nodup (List.mem_append_left _ here) e,
      pending_finish (s := { s with eventQueue := rest }.rslinkFree l) h.pending
        (fun out => h.awake.named l.rs out) (fun out => h.coherent.wired.outs l.rs out) e⟩
  · cases e
    exact ⟨start, h.pending⟩

theorem lsqLook_same {a : LsqAnswer} (e : s.lsqLook cfg a = some t) : t.desc = s.desc ∧
    t.readyQueue = s.readyQueue ∧ t.nextIssueItem = s.nextIssueItem := by
  have first (u : Backend) : ((u.dtagcmp a).markEx a).desc = u.desc ∧
      ((u.dtagcmp a).markEx a).readyQueue = u.readyQueue ∧
      ((u.dtagcmp a).markEx a).nextIssueItem = u.nextIssueItem := by
    unfold dtagcmp
    split <;> exact ⟨rfl, rfl, rfl⟩
  have start := first { s with lsqWtbki := s.lsqSelect cfg a }
  simp only [Backend.lsqLook] at e
  split at e
  · obtain ⟨-, id, pool, -, rfl⟩ := eventqQueueEvent_some e
    exact start
  · cases e
    exact start

theorem dcache_same (a : LsqAnswer) (s : Backend) : (s.dcache a).desc = s.desc ∧
    (s.dcache a).readyQueue = s.readyQueue ∧ (s.dcache a).nextIssueItem = s.nextIssueItem := by
  have first : (s.toDtagcmp a).desc = s.desc ∧ (s.toDtagcmp a).readyQueue = s.readyQueue ∧
      (s.toDtagcmp a).nextIssueItem = s.nextIssueItem := by
    unfold toDtagcmp
    split <;> exact ⟨rfl, rfl, rfl⟩
  rw [dcache_eq]
  unfold toDcache
  split <;> exact first

theorem micro {tight : Prop} {safe : Backend → Prop} (h : Alert cfg s roq done)
    (step : Micro cfg tight safe s t) : ∃ roq done, Alert cfg t roq done := by
  have seq : Numbered.Sequenced cfg t := Numbered.micro ⟨roq, done, h.coherent, h.num⟩ step
  have same (next : Coherent cfg t roq done) (desc : t.desc = s.desc)
      (ready : t.readyQueue = s.readyQueue) (chosen : t.nextIssueItem = s.nextIssueItem)
      (decode : t.decodeData = s.decodeData) : ∃ roq done, Alert cfg t roq done :=
    of_sequenced seq next (decode ▸ awake_same h.awake desc ready chosen) (h.pending.same desc)
  cases step with
  | tick => exact same h.coherent.tick rfl rfl rfl rfl
  | releaseFu => exact same h.coherent.releaseFu rfl rfl rfl rfl
  | commit filled e =>
    obtain ⟨d, rest, rfl, stays | ⟨completed, -, flushed | left⟩⟩ :=
      h.coherent.commit_cases filled e
    · exact ⟨_, done, stays ▸ h⟩
    · obtain ⟨awake, pending⟩ := h.flush flushed
      exact of_sequenced seq ((h.coherent.bumped_coherent d).flush flushed) awake pending
    · obtain ⟨done, next⟩ := h.coherent.retire completed left
      obtain ⟨awake, pending⟩ := h.retire left
      exact of_sequenced seq next awake pending
  | checkBrq _ e =>
    rcases h.coherent.checkBrq_cases e with
      stays | ⟨i, hi, ctrl, back, ⟨right, moved⟩ | ⟨wrong, slot, -, e⟩⟩
    · exact ⟨roq, done, stays ▸ h⟩
    · obtain ⟨awake, pending⟩ := h.right back
      rw [moved] at seq ⊢
      exact of_sequenced seq (h.coherent.right (List.getElem_mem hi) ctrl back right) awake pending
    · obtain ⟨awake, pending⟩ := h.recover hi slot back e
      exact of_sequenced seq (h.coherent.recover hi slot ctrl back wrong e) awake pending
  | deliver queue e =>
    have next := h.coherent.deliver queue e
    obtain ⟨awake, pending⟩ := h.deliver queue e
    exact of_sequenced seq next awake pending
  | lsqLook a e =>
    obtain ⟨desc, ready, chosen⟩ := lsqLook_same e
    exact same (h.coherent.lsqLook e) desc ready chosen
      (congrArg Place.decodeData (look_frame h.coherent.ports e).1)
  | freeOne state =>
    obtain ⟨done, next⟩ := h.coherent.freeOne state
    exact of_sequenced seq next (awake_same h.awake rfl rfl rfl) (h.pending.same rfl)
  | drainOne head => exact same (h.coherent.drainOne head) rfl rfl rfl rfl
  | dcache a =>
    obtain ⟨desc, ready, chosen⟩ := dcache_same a s
    exact same (h.coherent.dcache a) desc ready chosen
      (congrArg Place.decodeData (dcache_frame h.coherent.ports a).1)
  | @nextValidNode fu unit =>
    have desc : (s.nextValidNode fu).desc = s.desc := by
      rw [Backend.nextValidNode, rslinkFreeAll_eq]
    have decode : (s.nextValidNode fu).decodeData = s.decodeData :=
      congrArg Place.decodeData (layout_eq.mp (nextValidNode_layout fu s)).1
    exact of_sequenced seq (h.coherent.nextValidNode unit)
      (decode ▸ awake_nextValidNode h.awake fu) (h.pending.same desc)
  | choose fu =>
    exact of_sequenced seq (h.coherent.choose fu) (awake_choose h.awake fu) (h.pending.same rfl)
  | @issueInst t fu l which valid ready _ unit e =>
    have here := h.coherent.chosen_here which valid ready
    have decode : t.decodeData = s.decodeData :=
      congrArg Place.decodeData (issueInst_frame h.coherent.ports e).1
    have fresh : (s.desc l.rs).issued = false := by
      simp only [issuable, Bool.and_eq_true, Bool.not_eq_true'] at ready
      exact ready.1.2
    obtain ⟨awake, desc⟩ := awake_issueInst h.awake h.coherent.wired (List.mem_append_left _ here)
      which valid fresh unit e
    have parts (p : Nat) : ((s.issued l.rs).desc p).trace = (s.desc p).trace ∧
        ((s.issued l.rs).desc p).odepList = (s.desc p).odepList := by
      by_cases eq : p = l.rs
      · simp only [eq, issued, Function.update_self]
        exact ⟨rfl, trivial⟩
      · simp only [issued, Function.update_of_ne eq]
        exact ⟨trivial, trivial⟩
    rw [← desc] at parts
    exact of_sequenced seq (h.coherent.issueInst which valid ready e) (decode ▸ awake)
      (h.pending.parts (fun p => (parts p).1) fun p => (parts p).2)
  | @mapInst t d rest queue room _ e =>
    have front : d ∈ s.decodeData := by
      rw [queue]
      exact List.mem_cons_self
    have idle := (h.coherent.booked.decoded d front).1
    obtain ⟨awake, trace, odep⟩ := awake_mapInst h.awake queue idle.mapped idle.issued e
    have decode : t.decodeData = rest := (mapInst_next queue e).1
    have flight : roq ++ [d] ++ t.decodeData = roq ++ s.decodeData := by
      rw [decode, queue, List.append_assoc, List.singleton_append]
    exact of_sequenced seq (h.coherent.mapInst queue room e) (flight ▸ awake)
      (h.pending.parts trace odep)
  | decodeInst o queue e =>
    obtain ⟨awake, pending⟩ := awake_decodeInst h.coherent h.num h.awake h.pending queue e
    exact of_sequenced seq (h.coherent.decodeInst queue e) awake pending
  | fetchInst f free room =>
    obtain ⟨awake, pending⟩ := awake_fetchInst h.coherent h.awake h.pending f free room
    exact of_sequenced seq (h.coherent.fetchInst f free room) awake pending

end Alert

end Runs

end Godson.Backend
