import Godson.Works

/-! Instructions are numbered as they are fetched, and stay in this order: the queues hold
them by number, and they are committed by number, each one once. -/
namespace Godson.Backend

open Mips

variable {cfg : BackendConfig} {s t u : Backend} {roq done : List Nat} {d : Nat}

/-- The numbers of the committed instructions, and of those in the queues. -/
def numbers (s : Backend) (roq : List Nat) : List Nat :=
  s.retired ++ (roq ++ (s.decodeData ++ s.fetchData)).map fun d => (s.desc d).seq

structure Numbered (s : Backend) (roq : List Nat) : Prop where
  sorted : (s.numbers roq).Pairwise (· < ·)
  bound : ∀ n ∈ s.numbers roq, n < s.instSeq

namespace Numbered

/-- Instructions may leave. -/
theorem sublist {roq' : List Nat} (h : Numbered s roq)
    (sub : (t.numbers roq').Sublist (s.numbers roq)) (inst : t.instSeq = s.instSeq) :
    Numbered t roq' where
  sorted := h.sorted.sublist sub
  bound n hn := by
    rw [inst]
    exact h.bound n (sub.subset hn)

/-- No instruction gets another number, or into another queue. -/
theorem same (h : Numbered s roq) (inst : t.instSeq = s.instSeq) (retired : t.retired = s.retired)
    (seq : ∀ d, (t.desc d).seq = (s.desc d).seq) (decode : t.decodeData = s.decodeData)
    (fetch : t.fetchData = s.fetchData) : Numbered t roq := by
  refine h.sublist ?_ inst
  rw [numbers, numbers, retired, funext seq, decode, fetch]

theorem congr (h : Numbered s roq) (works : t.works = s.works)
    (decode : t.decodeData = s.decodeData) (fetch : t.fetchData = s.fetchData) :
    Numbered t roq :=
  h.same (congrArg Works.instSeq works) (congrArg Works.retired works)
    (congrFun (congrArg Works.seq works)) decode fetch

theorem place (h : Numbered s roq) (works : t.works = s.works) (place : t.place = s.place) :
    Numbered t roq :=
  h.congr works (congrArg Place.decodeData place) (congrArg Place.fetchData place)

section Squash

/-- What a squash leaves as it is. -/
theorem squashAll_same {gone : List Nat} (flow : Passage cfg s.place (roq ++ gone) done)
    (e : s.squashAll cfg gone.length = some t) : t.instSeq = s.instSeq ∧ t.retired = s.retired ∧
      t.fetchData = s.fetchData ∧ ∀ d, (t.desc d).seq = (s.desc d).seq := by
  refine (squashAll_invariant (P := fun roq u => Passage cfg u.place roq done ∧
    u.instSeq = s.instSeq ∧ u.retired = s.retired ∧ u.fetchData = s.fetchData ∧
    ∀ d, (u.desc d).seq = (s.desc d).seq) (fun roq d u v h e => ?_)
    ⟨flow, rfl, rfl, rfl, fun _ => rfl⟩ e).2
  obtain ⟨flow, inst, retired, fetch, seq⟩ := h
  refine ⟨flow_squashLast flow e, ?_⟩
  obtain ⟨-, rfl⟩ := squashLast_some flow.last e
  refine ⟨inst, retired, fetch, fun j => ?_⟩
  by_cases eq : j = d
  · simpa [eq, squashed] using seq d
  · simpa [eq] using seq j

theorem squashAll {gone : List Nat} (h : Numbered s (roq ++ gone))
    (flow : Passage cfg s.place (roq ++ gone) done)
    (e : s.squashAll cfg gone.length = some t) : Numbered t roq := by
  obtain ⟨inst, retired, fetch, seq⟩ := squashAll_same flow e
  refine h.sublist ?_ inst
  rw [numbers, numbers, retired, funext seq, decodeData_squashAll e, fetch]
  refine List.Sublist.append (.refl _) (List.Sublist.map _ ?_)
  exact List.Sublist.append (List.sublist_append_left roq gone) (.refl _)

theorem tracerRecover (h : Numbered s roq) (once : s.decodeData.Nodup) (level : Nat) :
    Numbered (s.tracerRecover level) roq := by
  have works := works_tracerRecover once level
  have retired : (s.tracerRecover level).retired = s.retired := congrArg Works.retired works
  have seq : (fun d => ((s.tracerRecover level).desc d).seq) = fun d => (s.desc d).seq :=
    congrArg Works.seq works
  refine h.sublist ?_ (congrArg Works.instSeq works)
  rw [numbers, numbers, retired, seq]
  refine List.Sublist.append (.refl _) (List.Sublist.map _ ?_)
  exact List.Sublist.append (.refl _) (List.nil_sublist _)

theorem pipelineFlush (h : Numbered s roq) (flow : Passage cfg s.place roq done)
    (e : s.pipelineFlush cfg = some t) : Numbered t [] := by
  obtain ⟨u, dropped, all, rfl⟩ := pipelineFlush_some flow e
  have before : Numbered (s.tracerRecover 0) ([] ++ roq) := h.tracerRecover (decode_nodup flow) 0
  have after := before.squashAll dropped all
  exact after.congr rfl rfl rfl

theorem brerrRecover {i : Nat} (h : Numbered s roq) (flow : Passage cfg s.place roq done)
    (hi : i < roq.length) (slot : i + 1 < roq.length) (e : s.brerrRecover cfg roq[i] = some t) :
    Numbered t (roq.take (lastKept (s.desc roq[i]) i + 1)) := by
  obtain ⟨u, squashed, rfl⟩ := brerrRecover_some flow hi slot e
  generalize lastKept (s.desc roq[i]) i + 1 = n at *
  have whole := List.take_append_drop n roq
  rw [← whole] at flow h
  rw [← List.length_drop] at squashed
  exact (h.squashAll flow squashed).tracerRecover (decode_nodup (flow_squashAll flow squashed)) _

end Squash

section Steps

theorem modDesc (h : Numbered s roq) {f : Descript → Descript}
    (seq : (f (s.desc d)).seq = (s.desc d).seq) : Numbered (s.modDesc d f) roq := by
  refine h.same rfl rfl (fun j => ?_) rfl rfl
  by_cases eq : j = d
  · rw [eq, modDesc_self, seq]
  · rw [modDesc_of_ne s eq]

theorem retire (h : Numbered s (d :: roq)) (e : s.retire cfg d = some t) : Numbered t roq := by
  have same : t.numbers roq = s.numbers (d :: roq) := by
    obtain ⟨-, -, -, rfl⟩ := retire_some e
    simp [numbers]
  have inst : t.instSeq = s.instSeq := by
    obtain ⟨-, -, -, rfl⟩ := retire_some e
    rfl
  exact h.sublist (same ▸ .refl _) inst

theorem mapInst {rest : List Nat} (h : Numbered s roq) (queue : s.decodeData = d :: rest)
    (e : s.mapInst cfg = some t) : Numbered t (roq ++ [d]) := by
  have works : t.works = (s.placed cfg d rest).works ∧
      t.fetchData = s.fetchData := by
    rw [mapInst_eq cfg queue] at e
    split_ifs at e
    · refine ⟨works_readyqEnqueue e, ?_⟩
      obtain ⟨id, pool, -, rfl⟩ := readyqEnqueue_some e
      rfl
    · cases e
      exact ⟨rfl, rfl⟩
  have retired : t.retired = s.retired := (congrArg Works.retired works.1).trans rfl
  have inst : t.instSeq = s.instSeq := (congrArg Works.instSeq works.1).trans rfl
  have seq : (fun j => (t.desc j).seq) = fun j => (s.desc j).seq := by
    refine (congrArg Works.seq works.1).trans (funext fun j => ?_)
    by_cases eq : j = d <;> simp [Backend.works, placed, eq]
  refine h.sublist ?_ inst
  rw [numbers, numbers, retired, seq, (mapInst_next queue e).1, works.2, queue]
  simp

theorem decodeInst {o : Nat → Outcome} {rest : List Nat} {more : Bool} (h : Numbered s roq)
    (flow : Passage cfg s.place roq done) (queue : s.fetchData = d :: rest)
    (e : s.decodeInst cfg o = some (t, more)) : Numbered t roq := by
  have only := Coherent.Only.decodeInst queue e
  have lists : (t.decodeData ++ t.fetchData).Sublist (s.decodeData ++ s.fetchData) := by
    simp only [Backend.decodeInst, queue] at e
    obtain ⟨u, marked, e⟩ := Option.bind_eq_some_iff.mp e
    obtain ⟨-, fetched, decode, -⟩ := flow_markSlot flow queue marked
    split at e
    · cases e
      rw [fetched, decode]
    · split at e
      · cases e
      · obtain ⟨v, decoded, same⟩ := Option.map_eq_some_iff.mp e
        cases same
        obtain ⟨free, fetch, moved, -, -, -, -, part, -⟩ := decodeNext_place decoded
        have decode' : t.decodeData = u.decodeData ++ [d] := congrArg Place.decodeData moved
        have fetch' : t.fetchData = fetch := congrArg Place.fetchData moved
        rw [fetched, queue, List.tail_cons] at part
        rw [decode', fetch', decode, queue, List.append_assoc]
        exact List.Sublist.append (.refl _) (part.cons_cons d)
  refine h.sublist ?_ only.instSeq
  rw [numbers, numbers, only.retired, funext only.seq]
  exact List.Sublist.append (.refl _) (List.Sublist.map _ (List.Sublist.append (.refl _) lists))

/-- An instruction enters the fetch queue with the next number. -/
theorem pushed_same (room : s.fetchData.length < cfg.fetchIfqSize) (ir : Word) (op : Op)
    (trap : Bool) : (s.pushed cfg ir op trap).retired = s.retired ∧
      (s.pushed cfg ir op trap).fetchData = s.fetchData ++ [s.getFromFreeList.1] ∧
      (s.pushed cfg ir op trap).instSeq = s.instSeq + 1 ∧
      ((s.pushed cfg ir op trap).desc s.getFromFreeList.1).seq = s.instSeq ∧
      ∀ j ≠ s.getFromFreeList.1, ((s.pushed cfg ir op trap).desc j).seq = (s.desc j).seq := by
  have before : s.getFromFreeList.2.fetchData = s.fetchData ∧
      s.getFromFreeList.2.instSeq = s.instSeq ∧ s.getFromFreeList.2.retired = s.retired ∧
      s.getFromFreeList.2.desc = s.desc := by
    obtain ⟨d, free, fresh, got, -⟩ := getFromFreeList_some s
    rw [got]
    exact ⟨rfl, rfl, rfl, rfl⟩
  obtain ⟨fetch, inst, retired, desc⟩ := before
  rw [Backend.pushed]
  generalize s.getFromFreeList.2 = u at *
  generalize s.getFromFreeList.1 = d
  refine ⟨retired, ?_, ?_, ?_, fun j ne => ?_⟩
  · simp only [fetchPush, newInst, Backend.modDesc, fetch, if_pos room]
  · rw [← inst]
    rfl
  · simp only [fetchPush, newInst, Backend.modDesc, Function.update_self, inst]
  · simp only [fetchPush, newInst, Backend.modDesc, Function.update_of_ne ne, desc]

theorem pushed (h : Numbered s roq) (flow : Passage cfg s.place roq done)
    (room : s.fetchData.length < cfg.fetchIfqSize) (ir : Word) (op : Op) (trap : Bool) :
    Numbered (s.pushed cfg ir op trap) roq := by
  obtain ⟨fetched, decoded, queued, -⟩ := got_apart flow
  obtain ⟨retired, fetch, inst, number, other⟩ := pushed_same room ir op trap
  have lists : (s.pushed cfg ir op trap).numbers roq = s.numbers roq ++ [s.instSeq] := by
    have same : (roq ++ (s.decodeData ++ s.fetchData)).map
        (fun j => ((s.pushed cfg ir op trap).desc j).seq) =
        (roq ++ (s.decodeData ++ s.fetchData)).map fun j => (s.desc j).seq := by
      refine List.map_congr_left fun j hj => other j ?_
      rintro rfl
      simp [queued, decoded, fetched] at hj
    rw [numbers, numbers, retired, decodeData_pushed, fetch, ← List.append_assoc s.decodeData,
      ← List.append_assoc roq, List.map_append, same, List.map_singleton, number, List.append_assoc]
  constructor
  · rw [lists, List.pairwise_append]
    refine ⟨h.sorted, List.pairwise_singleton .., fun n hn m hm => ?_⟩
    rw [List.mem_singleton.mp hm]
    exact h.bound n hn
  · intro n hn
    rw [lists, List.mem_append, List.mem_singleton] at hn
    rw [inst]
    rcases hn with hn | rfl
    · exact Nat.lt_succ_of_lt (h.bound n hn)
    · exact Nat.lt_succ_self _

theorem fetchInst (h : Numbered s roq) (flow : Passage cfg s.place roq done) (f : Fetched)
    (free : s.fetchData.length < cfg.fetchIfqSize) (room : FetchRoom cfg f s.fetchData.length) :
    Numbered (s.fetchInst cfg f).1 roq := by
  obtain ⟨ir, invalid, cases⟩ := fetchInst_cases f room
  have nop : (!f.valid) = true → mdSetOpcode ir = mdSetOpcode nopInst := by
    intro bad
    rw [Bool.not_eq_true'] at bad
    rw [invalid bad]
  have first := h.pushed flow free ir (mdSetOpcode ir) (!f.valid)
  rcases cases with ⟨d, l, fresh, -, moved⟩ | moved | ⟨half, space, moved⟩ <;> rw [moved]
  · exact h.congr rfl rfl rfl
  · exact first
  · refine first.pushed (flow_pushed flow free ir nop) ?_ ir half false
    rw [Backend.pushed, length_fetchPush]
    simpa using space

end Steps

section Runs

/-- The instructions of the pipeline in program order. -/
def Sequenced (cfg : BackendConfig) (s : Backend) : Prop :=
  ∃ roq done, Coherent cfg s roq done ∧ Numbered s roq

theorem deliver {time : Nat} {l : RsLink} {rest : List (Nat × RsLink)}
    (num : Numbered s roq) (h : Coherent cfg s roq done) (next : Coherent cfg t roq done)
    (queue : s.eventQueue = (time, l) :: rest) (e : s.deliver l rest = some t) :
    Numbered t roq := by
  have popped : Numbered ({ s with eventQueue := rest }.rslinkFree l) roq := num.congr rfl rfl rfl
  simp only [Backend.deliver] at e
  split at e
  · rename_i valid
    have front : (time, l) ∈ s.eventQueue := by
      rw [queue]
      exact List.mem_cons_self
    obtain ⟨here, read⟩ := h.accesses.event _ front valid
    have held : ((s.desc l.rs).mem → (s.lsq (s.desc l.rs).lsqid).state = LsqState.readcache) :=
      fun mem => read mem (finish_some e).1.2.2.2
    have ports : ({ s with eventQueue := rest }.rslinkFree l).Ports :=
      ⟨h.ports.issue, h.ports.dcache, h.ports.dtagcmp⟩
    have place := (finish_frame ports e held).1
    have finished : Numbered (({ s with eventQueue := rest }.rslinkFree l).finished l.rs) roq := by
      refine popped.same rfl rfl (fun j => ?_) rfl rfl
      simp only [finished]
      by_cases eq : j = l.rs
      · rw [eq, Function.update_self]
        split <;> rfl
      · rw [Function.update_of_ne eq]
    exact finished.congr (works_finish e) (congrArg Place.decodeData place)
      (congrArg Place.fetchData place)
  · cases e
    exact popped

theorem micro {tight : Prop} {safe : Backend → Prop} (h : Sequenced cfg s)
    (step : Micro cfg tight safe s t) : Sequenced cfg t := by
  obtain ⟨roq, done, coherent, num⟩ := h
  cases step with
  | tick => exact ⟨roq, done, coherent.tick, num.congr rfl rfl rfl⟩
  | releaseFu => exact ⟨roq, done, coherent.releaseFu, num.congr rfl rfl rfl⟩
  | commit filled e =>
    obtain ⟨d, rest, rfl, same | ⟨completed, -, flushed | left⟩⟩ := coherent.commit_cases filled e
    · exact ⟨_, done, same ▸ coherent, same ▸ num⟩
    · have before := coherent.bumped_coherent d
      exact ⟨[], done, before.flush flushed, (num.modDesc rfl).pipelineFlush before.flow flushed⟩
    · obtain ⟨done, next⟩ := coherent.retire completed left
      exact ⟨rest, done, next, (num.modDesc rfl).retire left⟩
  | checkBrq _ e =>
    rcases coherent.checkBrq_cases e with
      same | ⟨i, hi, ctrl, back, ⟨right, same⟩ | ⟨wrong, slot, -, e⟩⟩
    · exact ⟨roq, done, same ▸ coherent, same ▸ num⟩
    · have next := coherent.right (List.getElem_mem hi) ctrl back right
      exact ⟨roq, done, same ▸ next, same ▸ num.modDesc rfl⟩
    · have flow : Passage cfg (s.resolved roq[i]).place roq done :=
        (layout_eq.mp (Coherent.layout_resolved roq[i] s)).1 ▸ coherent.flow
      have kept : lastKept ((s.resolved roq[i]).desc roq[i]) i = lastKept (s.desc roq[i]) i := by
        rw [resolved, modDesc_self]
        rfl
      have after := (num.modDesc rfl).brerrRecover flow hi slot e
      exact ⟨_, done, coherent.recover hi slot ctrl back wrong e, kept ▸ after⟩
  | deliver queue e =>
    have next := coherent.deliver queue e
    exact ⟨roq, done, next, num.deliver coherent next queue e⟩
  | lsqLook a e =>
    exact ⟨roq, done, coherent.lsqLook e,
      num.place (works_lsqLook e) (look_frame coherent.ports e).1⟩
  | freeOne state =>
    obtain ⟨done, next⟩ := coherent.freeOne state
    exact ⟨roq, done, next, num.congr rfl rfl rfl⟩
  | drainOne head => exact ⟨roq, done, coherent.drainOne head, num.congr rfl rfl rfl⟩
  | dcache a =>
    exact ⟨roq, done, coherent.dcache a,
      num.place (works_dcache a s) (dcache_frame coherent.ports a).1⟩
  | nextValidNode unit =>
    exact ⟨roq, done, coherent.nextValidNode unit, num.place (works_nextValidNode _ s)
      (layout_eq.mp (nextValidNode_layout _ s)).1⟩
  | choose fu => exact ⟨roq, done, coherent.choose fu, num.congr rfl rfl rfl⟩
  | @issueInst t fu l which valid ready _ _ e =>
    have place := (issueInst_frame coherent.ports e).1
    have issued : Numbered (s.issued l.rs) roq := by
      refine num.same rfl rfl (fun j => ?_) rfl rfl
      by_cases eq : j = l.rs <;> simp [issued, eq]
    obtain ⟨works, -, -⟩ := works_issueInst e
    exact ⟨roq, done, coherent.issueInst which valid ready e,
      issued.same (congrArg Works.instSeq works) (congrArg Works.retired works)
        (congrFun (congrArg Works.seq works)) (congrArg Place.decodeData place)
        (congrArg Place.fetchData place)⟩
  | mapInst queue room _ e =>
    exact ⟨_, done, coherent.mapInst queue room e, num.mapInst queue e⟩
  | decodeInst o queue e =>
    exact ⟨roq, done, coherent.decodeInst queue e, num.decodeInst coherent.flow queue e⟩
  | fetchInst f free room =>
    exact ⟨roq, done, coherent.fetchInst f free room,
      num.fetchInst coherent.flow f free room⟩

theorem reachable (h : Reachable cfg (Fits cfg) s) : Sequenced cfg s := by
  have room : ∀ s a, Fits cfg s a → Fits cfg s a ∧ (False → BranchesFit cfg s a) ∧
      (a = .checkBrq → True) := fun s a fits => ⟨fits, False.elim, fun _ => trivial⟩
  have start : Sequenced cfg Backend.start := by
    refine ⟨[], [], Coherent.start cfg, List.Pairwise.nil, fun n hn => ?_⟩
    cases hn
  refine reachable_invariant (I := Sequenced cfg) room start (fun s t h step => micro h step) ?_ ?_ h
  · rintro s ⟨roq, done, coherent, -⟩
    exact coherent.ports
  · rintro s ⟨roq, done, coherent, -⟩
    exact coherent.single

end Runs

end Numbered

/-- The committed instructions, and behind them those of the reorder queue, of the decode
queue and of the fetch queue are in the order in which they were fetched, each one once. -/
theorem program_order (h : Reachable cfg (Fits cfg) s) :
    (s.retired ++ (s.inRoq cfg ++ (s.decodeData ++ s.fetchData)).map
      fun d => (s.desc d).seq).Pairwise (· < ·) := by
  obtain ⟨roq, done, coherent, num⟩ := Numbered.reachable h
  rw [coherent.inRoq_eq]
  exact num.sorted

theorem program_order_depending : ∃ t : Backend, t.retired = [0] ∧ t.inRoq {} = [78, 77, 76] ∧
    t.decodeData = [75] ∧ (t.retired ++ (t.inRoq {} ++ (t.decodeData ++ t.fetchData)).map
      fun d => (t.desc d).seq).Pairwise (· < ·) := by
  obtain ⟨t, reached, found⟩ := reachable_shipped (l := dependingCommit)
    (v := ([0], [78, 77, 76], [75])) (f := fun t => (t.retired, t.inRoq {}, t.decodeData))
    (by decide +kernel)
  obtain ⟨retired, found⟩ := Prod.mk.inj found
  obtain ⟨queue, decode⟩ := Prod.mk.inj found
  exact ⟨t, retired, queue, decode, program_order reached⟩

end Godson.Backend
