import Mathlib.Data.List.Chain
import Godson.Resources

/-! No branch follows a branch in the decode queue: what stands behind one is its delay slot,
and a branch there is fatal on the right path and a `nop` on a wrong one. So a group that
`map_stage` takes is half branches at most, and fits into the branch queue. -/
namespace Godson.Backend

open Mips

variable {cfg : BackendConfig} {s t u : Backend} {roq done : List Nat} {d : Nat}

structure Alternating (c : Course) : Prop where
  chain : c.decodeData.IsChain fun a b => (c.trace a).ctrl = false ∨ (c.trace b).ctrl = false
  last : ∀ d ∈ c.decodeData.getLast?, (c.trace d).ctrl = true → c.lastIsBranch = true ∨
    ∃ e ∈ c.fetchData.head?, (c.trace e).ctrl = false

/-- A list with no two branches in a row is half branches at most. -/
theorem countP_alternating {α : Type} (p : α → Bool) : ∀ l : List α,
    l.IsChain (fun a b => p a = false ∨ p b = false) → 2 * l.countP p ≤ l.length + 1
  | [], _ => by simp
  | [a], _ => by
    rw [List.countP_singleton]
    split <;> simp
  | a :: b :: l, h => by
    rw [List.isChain_cons_cons] at h
    have rest := countP_alternating p l h.2.tail
    have tail := countP_alternating p (b :: l) h.2
    rw [List.countP_cons] at tail ⊢
    rw [List.countP_cons]
    simp only [List.length_cons] at tail ⊢
    rcases h.1 with first | second
    · rw [first, if_neg Bool.false_ne_true]
      omega
    · rw [second, if_neg Bool.false_ne_true] at tail ⊢
      split <;> omega

namespace Alternating

variable {c c' : Course}

theorem empty (none : c.decodeData = []) : Alternating c := by
  constructor <;> simp [none]

/-- The kinds of the instructions stay, and so does the delay slot that is waited for. -/
theorem congr (h : Alternating c) (decode : c'.decodeData = c.decodeData)
    (ctrl : ∀ d ∈ c.decodeData, (c'.trace d).ctrl = (c.trace d).ctrl)
    (slot : (c.lastIsBranch = true ∨ ∃ e ∈ c.fetchData.head?, (c.trace e).ctrl = false) →
      c'.lastIsBranch = true ∨ ∃ e ∈ c'.fetchData.head?, (c'.trace e).ctrl = false) :
    Alternating c' where
  chain := by
    rw [decode]
    refine h.chain.imp_of_mem_imp fun a b ha hb one => ?_
    rwa [ctrl a ha, ctrl b hb]
  last := by
    rw [decode]
    intro d hd kind
    rw [ctrl d (List.mem_of_mem_getLast? hd)] at kind
    exact slot (h.last d hd kind)

/-- Only the create vector, levels and progress change. -/
theorem kinds (h : Alternating c) (decode : c'.decodeData = c.decodeData)
    (fetch : c'.fetchData = c.fetchData) (slot : c'.lastIsBranch = c.lastIsBranch)
    (op : ∀ d, (c'.trace d).op = (c.trace d).op) : Alternating c' := by
  have ctrl (d : Nat) : (c'.trace d).ctrl = (c.trace d).ctrl := by rw [Trace.ctrl, op, Trace.ctrl]
  refine h.congr decode (fun d _ => ctrl d) ?_
  rw [fetch, slot]
  simp only [ctrl]
  exact fun slot => slot

theorem updateCreateVector (h : Alternating s.course) (rs : Nat) :
    Alternating (s.updateCreateVector rs).course := by
  have levels (out name n level : Nat) (u : Backend) : ∃ vector,
      (u.clearLevels rs out name n level).course = { u.course with createVector := vector } := by
    induction n generalizing level u with
    | zero => exact ⟨u.createVector, rfl⟩
    | succ n ih =>
      rw [clearLevels]
      split
      · obtain ⟨vector, same⟩ := ih (level + 1) _
        exact ⟨vector, same⟩
      · exact ⟨u.createVector, rfl⟩
  have one (out : Nat) {u : Backend} (h : Alternating u.course) :
      Alternating (updateOutput rs u out).course := by
    simp only [updateOutput]
    split
    · exact h
    · obtain ⟨vector, same⟩ := levels out _ _ _ u
      rw [same]
      exact h.kinds rfl rfl rfl fun _ => rfl
  exact one 1 (one 0 h)

theorem broadcast {rs out : Nat} (h : Alternating s.course) (e : s.broadcast rs out = some t) :
    Alternating t.course := by
  rw [course_broadcast e]
  split
  · exact h
  · exact h.updateCreateVector rs

theorem finish {rs : Nat} (h : Alternating s.course) (e : s.finish rs = some t) :
    Alternating t.course := by
  obtain ⟨-, u, first, second⟩ := finish_some e
  have done : Alternating (s.finished rs).course := by
    refine h.kinds rfl rfl rfl fun d => ?_
    by_cases eq : d = rs
    · subst eq
      simp only [course, finished, Function.update_self]
      split <;> rfl
    · simp only [course, finished, Function.update_of_ne eq]
  exact (done.broadcast first).broadcast second

theorem resolved (h : Alternating s.course) (rs : Nat) : Alternating (s.resolved rs).course := by
  rw [course_resolved]
  refine h.kinds rfl rfl rfl fun d => ?_
  by_cases eq : d = rs
  · simp only [eq, Function.update_self]
  · simp only [Function.update_of_ne eq]

theorem mapInst {rest : List Nat} (h : Alternating s.course) (queue : s.decodeData = d :: rest)
    (e : s.mapInst cfg = some t) : Alternating t.course := by
  have placed : Alternating (s.placed cfg d rest).course := by
    have decode : s.course.decodeData = d :: rest := queue
    have chain := h.chain
    have last := h.last
    rw [decode] at chain last
    rw [course_placed]
    refine ⟨chain.tail, fun x hx => last x ?_⟩
    cases rest with
    | nil => cases hx
    | cons y rest => exact hx
  rw [mapInst_eq cfg queue] at e
  split_ifs at e
  · rw [course_readyqEnqueue e]
    exact placed
  · cases e
    exact placed

/-- An instruction moves to the end of the decode queue. -/
theorem decode (h : Alternating c)
    (decode : c'.decodeData = c.decodeData ++ [d])
    (op : ∀ e, (c'.trace e).op = (c.trace e).op)
    (plain : ∀ e ∈ c.decodeData.getLast?, (c.trace e).ctrl = true → (c.trace d).ctrl = false)
    (slot : (c.trace d).ctrl = true → c'.lastIsBranch = true) : Alternating c' := by
  have ctrl (e : Nat) : (c'.trace e).ctrl = (c.trace e).ctrl := by rw [Trace.ctrl, op, Trace.ctrl]
  constructor
  · rw [decode]
    simp only [ctrl]
    refine List.isChain_append.mpr ⟨h.chain, List.isChain_singleton _, fun e he x hx => ?_⟩
    obtain rfl : d = x := by simpa using hx
    cases kind : (c.trace e).ctrl with
    | false => exact .inl rfl
    | true => exact .inr (plain e he kind)
  · rw [decode, List.getLast?_concat]
    intro e he kind
    cases he
    exact .inl (slot (ctrl d ▸ kind))

theorem decodeNext {o : Outcome} (h : Alternating s.course)
    (plain : ∀ e ∈ s.decodeData.getLast?, (s.desc e).ctrl = true → (s.desc d).ctrl = false)
    (e : s.decodeNext cfg o d = some t) : Alternating t.course := by
  simp only [Backend.decodeNext] at e
  obtain ⟨u, named, e⟩ := Option.bind_eq_some_iff.mp e
  obtain ⟨v, entered, rfl⟩ := Option.map_eq_some_iff.mp e
  obtain ⟨name, renamed⟩ := course_rename named
  obtain ⟨miss, deeper, -, -, entered⟩ := course_enterSpec entered
  generalize branch : (if (u.desc d).ctrl = true then { u with lastIsBranch := true } else u) = w
    at entered
  obtain ⟨fetch, redirected, -⟩ := course_redirect o d w
  have desc : (w.redirect o d).desc = w.desc := by
    simp only [redirect]
    split
    · rw [foldl_returnToFreeList]
    · split <;> rfl
  have kept : w.desc = u.desc ∧ w.decodeData = u.decodeData ∧
      ((u.desc d).ctrl = true → w.lastIsBranch = true) := by
    rw [← branch]
    split
    · exact ⟨rfl, rfl, fun _ => rfl⟩
    · rename_i other
      exact ⟨rfl, rfl, fun kind => absurd kind other⟩
  have opU (x : Nat) : (u.desc x).op = (s.desc x).op := by
    have same := congrArg (fun c : Course => (c.trace x).op) renamed
    by_cases eq : x = d
    · subst eq
      simpa only [course, Descript.trace, modDesc_self, Function.update_self] using same
    · simpa only [course, Descript.trace, modDesc, Function.update_of_ne eq] using same
  have opV (x : Nat) : (v.desc x).op = (u.desc x).op := by
    have same := congrArg (fun c : Course => (c.trace x).op) entered
    by_cases eq : x = d
    · subst eq
      simpa only [course, Descript.trace, desc, kept.1, Function.update_self] using same
    · simpa only [course, Descript.trace, desc, kept.1, Function.update_of_ne eq] using same
  have decodeU : u.decodeData = s.decodeData := congrArg Course.decodeData renamed
  have decodeW : (w.redirect o d).decodeData = w.decodeData :=
    congrArg Course.decodeData redirected
  have slotW : (w.redirect o d).lastIsBranch = w.lastIsBranch :=
    congrArg Course.lastIsBranch redirected
  have decodeV : v.decodeData = s.decodeData :=
    (congrArg Course.decodeData entered).trans (decodeW.trans (kept.2.1.trans decodeU))
  have slotV : v.lastIsBranch = w.lastIsBranch :=
    (congrArg Course.lastIsBranch entered).trans slotW
  refine h.decode (congrArg (· ++ [d]) decodeV) (fun x => (opV x).trans (opU x)) plain
    fun kind => slotV.trans (kept.2.2 ?_)
  have kind : (s.desc d).op.has .ctrl = true := kind
  rwa [Descript.ctrl, opU]

theorem markSlot {rest : List Nat} (h : Alternating s.course) (outside : d ∉ s.decodeData)
    (queue : s.fetchData = d :: rest) (e : s.markSlot d = some t) : Alternating t.course ∧
      ∀ e ∈ t.decodeData.getLast?, (t.desc e).ctrl = true → (t.desc d).ctrl = false := by
  have front : s.course.fetchData = d :: rest := queue
  simp only [Backend.markSlot] at e
  split at e
  · rename_i last
    cases e
    refine ⟨h, fun e he kind => ?_⟩
    rcases h.last e he kind with branch | ⟨x, hx, plain⟩
    · have branch : s.lastIsBranch = true := branch
      rw [branch] at last
      cases last
    · rw [front] at hx
      cases hx
      exact plain
  · split at e
    · cases e
    · cases e
      generalize after : (if (s.desc d).ctrl then
        { s.desc d with ir := nopInst, op := mdSetOpcode nopInst, bd := true }
        else { s.desc d with bd := true }) = x
      have plain : x.ctrl = false := by
        rw [← after]
        split
        · rfl
        · rename_i plain
          exact Bool.eq_false_of_not_eq_true plain
      refine ⟨h.congr rfl (fun e he => ?_) fun _ => .inr ⟨d, ?_, ?_⟩, fun _ _ _ => ?_⟩
      · have ne : e ≠ d := by
          rintro rfl
          exact outside he
        simp only [course, modDesc, Function.update_of_ne ne]
      · change d ∈ s.course.fetchData.head?
        rw [front]
        rfl
      · simp only [course, modDesc, Function.update_self, after]
        exact plain
      · simp only [modDesc, Function.update_self, after]
        exact plain

theorem decodeInst {o : Nat → Outcome} {rest : List Nat} {more : Bool}
    (h : Alternating s.course) (outside : d ∉ s.decodeData) (queue : s.fetchData = d :: rest)
    (e : s.decodeInst cfg o = some (t, more)) : Alternating t.course := by
  simp only [Backend.decodeInst, queue] at e
  obtain ⟨u, marked, e⟩ := Option.bind_eq_some_iff.mp e
  obtain ⟨next, plain⟩ := h.markSlot outside queue marked
  split at e
  · cases e
    exact next
  · split at e
    · cases e
    · obtain ⟨v, decoded, same⟩ := Option.map_eq_some_iff.mp e
      cases same
      exact next.decodeNext plain decoded

theorem pushed (h : Alternating s.course) (flow : Passage cfg s.place roq done)
    (room : s.fetchData.length < cfg.fetchIfqSize) (ir : Word) (op : Op) (trap : Bool) :
    Alternating (s.pushed cfg ir op trap).course := by
  obtain ⟨fetched, decoded, -⟩ := got_apart flow
  obtain ⟨d, free, fresh, got, -⟩ := getFromFreeList_some s
  rw [got] at fetched decoded
  have moved : (s.pushed cfg ir op trap).course = { s.course with
      trace := Function.update s.course.trace d
        ⟨op, (s.desc d).onames, (s.desc d).specLevel, (s.desc d).misPredict, false, false⟩
      fetchData := s.fetchData ++ [d] } := by
    simp only [Backend.pushed, got, fetchPush, newInst, modDesc, room, if_true, course,
      trace_update]
    rfl
  rw [moved]
  refine h.congr rfl (fun e he => ?_) fun slot => slot.imp_right ?_
  · have ne : e ≠ d := by
      rintro rfl
      exact decoded he
    simp only [Function.update_of_ne ne]
  · rintro ⟨e, he, plain⟩
    have head : e ∈ s.fetchData.head? := he
    have ne : e ≠ d := by
      rintro rfl
      exact fetched (List.mem_of_mem_head? head)
    refine ⟨e, ?_, ?_⟩
    · change e ∈ (s.fetchData ++ [d]).head?
      rw [List.head?_append, head]
      rfl
    · simp only [Function.update_of_ne ne]
      exact plain

theorem fetchInst (h : Alternating s.course) (coherent : Coherent cfg s roq done) (f : Fetched)
    (free : s.fetchData.length < cfg.fetchIfqSize) (room : FetchRoom cfg f s.fetchData.length) :
    Alternating (s.fetchInst cfg f).1.course := by
  obtain ⟨ir, invalid, cases⟩ := fetchInst_cases f room
  have nop : (!f.valid) = true → mdSetOpcode ir = mdSetOpcode nopInst := by
    intro bad
    rw [Bool.not_eq_true'] at bad
    rw [invalid bad]
  have first := h.pushed coherent.flow free ir (mdSetOpcode ir) (!f.valid)
  rcases cases with ⟨d, l, fresh, -, moved⟩ | moved | ⟨half, space, moved⟩ <;> rw [moved]
  · exact h
  · exact first
  · refine first.pushed (flow_pushed coherent.flow free ir nop) ?_ ir half false
    rw [Backend.pushed, length_fetchPush]
    simpa using space

theorem checkBrq (h : Alternating s.course) (coherent : Coherent cfg s roq done)
    (e : s.checkBrq cfg = some t) : Alternating t.course := by
  rcases coherent.checkBrq_cases e with same | ⟨i, hi, -, -, ⟨-, rfl⟩ | ⟨-, slot, -, e⟩⟩
  · exact same ▸ h
  · exact h.resolved roq[i]
  · have flow : Passage cfg (s.resolved roq[i]).place roq done :=
      (layout_eq.mp (Coherent.layout_resolved roq[i] s)).1 ▸ coherent.flow
    obtain ⟨u, -, rfl⟩ := brerrRecover_some flow hi slot e
    exact empty rfl

theorem commitInst {more : Bool} (h : Alternating s.course) (coherent : Coherent cfg s roq done)
    (filled : 0 < s.roqNum) (e : s.commitInst cfg = some (t, more)) : Alternating t.course := by
  obtain ⟨d, rest, -, same | ⟨-, -, flushed | left⟩⟩ := coherent.commit_cases filled e
  · exact same ▸ h
  · have before := coherent.bumped_coherent d
    obtain ⟨u, dropped, all, rfl⟩ := pipelineFlush_some before.flow flushed
    have same : u.course = ((Coherent.bumped d s).tracerRecover 0).course :=
      course_squashAll dropped all
    rw [course_tracerRecover (decode_nodup before.flow)] at same
    exact empty (congrArg Course.decodeData same)
  · rw [course_retire left, Coherent.bumped, course_modDesc]
    · exact h
    · rfl

theorem deliver {l : RsLink} {rest : List (Nat × RsLink)} (h : Alternating s.course)
    (e : s.deliver l rest = some t) : Alternating t.course := by
  have popped : Alternating ({ s with eventQueue := rest }.rslinkFree l).course := h
  simp only [Backend.deliver] at e
  split at e
  · exact popped.finish e
  · cases e
    exact popped

theorem micro {tight : Prop} {safe : Backend → Prop} (coherent : Coherent cfg s roq done)
    (h : Alternating s.course) (step : Micro cfg tight safe s t) : Alternating t.course := by
  cases step with
  | tick => exact h
  | releaseFu => exact h
  | commit filled e => exact h.commitInst coherent filled e
  | checkBrq _ e => exact h.checkBrq coherent e
  | deliver _ e => exact h.deliver e
  | lsqLook _ e => exact course_lsqLook e ▸ h
  | freeOne => exact h
  | drainOne => exact h
  | dcache a => exact course_dcache a s ▸ h
  | nextValidNode => exact course_nextValidNode _ s ▸ h
  | choose => exact h
  | issueInst _ _ _ _ _ e => exact course_issueInst e ▸ h
  | mapInst queue _ _ e => exact h.mapInst queue e
  | decodeInst o queue e =>
    exact h.decodeInst (fun hd => flight_fetched coherent.flow _ (List.mem_append_right _ hd)
      (queue ▸ List.mem_cons_self)) queue e
  | fetchInst f free room => exact h.fetchInst coherent f free room

theorem reachable (h : Reachable cfg (Fits cfg) s) : Alternating s.course := by
  have room : ∀ s a, Fits cfg s a → Fits cfg s a ∧ (False → BranchesFit cfg s a) ∧
      (a = .checkBrq → True) := fun s a fits => ⟨fits, False.elim, fun _ => trivial⟩
  have both : (∃ roq done, Coherent cfg s roq done) ∧ Alternating s.course := by
    refine reachable_invariant (I := fun s => (∃ roq done, Coherent cfg s roq done) ∧
      Alternating s.course) room ⟨⟨[], [], Coherent.start cfg⟩, empty rfl⟩ ?_ ?_ ?_ h
    · rintro s t ⟨⟨roq, done, coherent⟩, alternating⟩ step
      exact ⟨Coherent.micro coherent step, alternating.micro coherent step⟩
    · rintro s ⟨⟨roq, done, coherent⟩, -⟩
      exact coherent.ports
    · rintro s ⟨⟨roq, done, coherent⟩, -⟩
      exact coherent.single
  exact both.2

end Alternating

/-- With groups of four instructions at most the branch queue has room for the branches of
each group that `map_stage` takes. -/
theorem branches_fit (narrow : cfg.mapWidth ≤ 4) (h : Reachable cfg (Fits cfg) s)
    (a : Stage) : BranchesFit cfg s a := by
  cases a with
  | map =>
    intro space
    have alternating := (Alternating.reachable h).chain.take cfg.mapWidth
    have half := countP_alternating (fun d => (s.desc d).ctrl) _ alternating
    rw [List.length_take] at half
    simp only [mapFull, Bool.or_eq_false_iff, decide_eq_false_iff_not] at space
    have few : s.brqNum + 2 ≤ cfg.brqIfqSize := by omega
    have two : (s.decodeData.take cfg.mapWidth).countP (fun d => (s.desc d).ctrl) ≤ 2 := by
      have half : 2 * (s.decodeData.take cfg.mapWidth).countP (fun d => (s.desc d).ctrl) ≤
        min cfg.mapWidth s.decodeData.length + 1 := half
      omega
    exact (Int.add_le_add_left (Int.ofNat_le.mpr two) s.brqNum).trans few
  | _ => trivial

theorem Stocked.narrow (narrow : cfg.mapWidth ≤ 4) (h : Reachable cfg (Fits cfg) s) :
    Stocked cfg s := by
  refine Stocked.reachable ?_
  induction h with
  | start => exact .start
  | @step s t a before fits moved ih => exact .step ih ⟨fits, branches_fit narrow before a⟩ moved

/-- The reorder queue, the branch queue and the load/store queue are rings; the second holds
the branches of the first, the third the committed memory operations and behind them those of
the first; and the counters say what the instructions of the first hold. -/
theorem queues_consistent (narrow : cfg.mapWidth ≤ 4) (h : Reachable cfg (Fits cfg) s) :
    ∃ done, Consistent cfg s (s.inRoq cfg) done :=
  (Stocked.narrow narrow h).consistent

theorem queues_consistent_depending : ∃ t : Backend, t.inRoq {} = [78, 77, 76] ∧
    ∃ done, Consistent {} t [78, 77, 76] done := by
  obtain ⟨t, reached, queue⟩ := reachable_shipped (l := dependingCommit) (v := [78, 77, 76])
    (f := fun t => t.inRoq {}) (by decide +kernel)
  have consistent := queues_consistent (by decide) reached
  rw [queue] at consistent
  exact ⟨t, queue, consistent⟩

end Godson.Backend
