import Godson.Quiet

/-! What one step of the machine does to the load/store queue of a core, by the place the
core has reached in its activation. -/
namespace Godson

/-- The section of its activation a core has reached, and the local variables there. -/
def Sys.place (s : Sys) (k : Nat) : Option (Phase × Locals) :=
  s.frame.bind fun fr => if fr.cpu = k then some (fr.phase, fr.loc) else none

/-- A section that leaves the load/store queue alone and has a successor. -/
def Phase.outsideLsq : Phase → Bool
  | .refill | .lsqSelect | .dcachewrite | .dtagcmp | .drain | .dcache | .memaddr | .front => false
  | _ => true

/-- The two packets ask the data cache for the same. -/
structure RefillPacket.SameRequest (p p' : RefillPacket) : Prop where
  replace : p'.replace = p.replace
  intervention : p'.intervention = p.intervention
  paddr : p'.paddr = p.paddr
  missqid : p'.missqid = p.missqid

/-- An operation of the pipeline on the queue. -/
inductive LsqOp (cfg : Config) (c c' : Cpu) : Prop
  | keep (same : c'.lsqPart = c.lsqPart)
  | enqueue (op : MemOp) (addr : Nat) (h : lsqEnqueue cfg op addr c = some c')
  | issue (i : Nat) (h : lsqIssue cfg i c = some c')
  | writeback (h : lsqWriteback c = some c')
  | commit (h : lsqCommit cfg c = some c')
  | cancel (h : lsqCancel cfg c = some c')

/-- A step of the machine as the queue of core `k` sees it. -/
inductive LsqStep (cfg : Config) (k : Nat) :
    Option (Phase × Locals) → Cpu → Option (Phase × Locals) → Cpu → Prop
  | rest {c c' : Cpu} (same : c'.lsqPart = c.lsqPart) : LsqStep cfg k none c none c'
  | start {c c' : Cpu} (same : c'.lsqPart = c.lsqPart) :
      LsqStep cfg k none c (some (.pipeline, {})) c'
  | quiet {phase next : Phase} {loc loc' : Locals} {c c' : Cpu} (outside : phase.outsideLsq)
      (succ : phase.next = some next) (same : c'.lsqPart = c.lsqPart) :
      LsqStep cfg k (some (phase, loc)) c (some (next, loc')) c'
  | refill {loc : Locals} {c c' : Cpu} (core : c'.lsqCore = c.lsqCore) :
      LsqStep cfg k (some (.refill, loc)) c (some (.delay, loc)) c'
  | select {loc : Locals} {c : Cpu} :
      LsqStep cfg k (some (.lsqSelect, loc)) c (some (.dcachewrite, loc)) (lsqSelect cfg c)
  | write {loc loc' : Locals} {c c' : Cpu} (h : dcachewrite loc c = some (c', loc')) :
      LsqStep cfg k (some (.dcachewrite, loc)) c (some (.dtagcmp, loc')) c'
  | compare {loc : Locals} {c c' : Cpu} (h : dtagcmp cfg k c = some c') :
      LsqStep cfg k (some (.dtagcmp, loc)) c (some (.drain, loc)) c'
  | drain {loc : Locals} {c : Cpu} :
      LsqStep cfg k (some (.drain, loc)) c (some (.dcache, loc)) (drain cfg loc c)
  | probe {loc : Locals} {c c' : Cpu} {i : Nat} (idle : c.lsqDcacheRefill = none)
      (at_i : c.lsqDcachei = some i) (same : c'.lsqPart = (dcacheOp cfg k i c).lsqPart) :
      LsqStep cfg k (some (.dcache, loc)) c (some (.memaddr, loc)) c'
  | pass {loc : Locals} {c c' : Cpu} {p r : RefillPacket} (at_p : c.lsqDcacheRefill = some p)
      (request : p.SameRequest r)
      (same : c'.lsqPart = { c.lsqPart with dcacheRefill := none, dtagcmpRefill := some r }) :
      LsqStep cfg k (some (.dcache, loc)) c (some (.memaddr, loc)) c'
  | bubble {loc : Locals} {c c' : Cpu} (idle : c.lsqDcacheRefill = none)
      (none : c.lsqDcachei = none) (same : c'.lsqPart = c.lsqPart) :
      LsqStep cfg k (some (.dcache, loc)) c (some (.memaddr, loc)) c'
  | forward {loc : Locals} {c : Cpu} :
      LsqStep cfg k (some (.memaddr, loc)) c (some (.front, loc)) (memaddr c)
  | op {phase : Phase} {loc : Locals} {c c' : Cpu} (h : LsqOp cfg c c')
      (pipeline : phase = .pipeline ∨ phase = .front) :
      LsqStep cfg k (some (phase, loc)) c (some (phase, loc)) c'
  | done {loc : Locals} {c c' : Cpu} (same : c'.lsqPart = c.lsqPart) :
      LsqStep cfg k (some (.front, loc)) c none c'

/-- Change one entry. -/
def LsqPart.set (q : LsqPart) (i : Nat) (f : LsqEntry → LsqEntry) : LsqPart :=
  { q with entry := Function.update q.entry i (f (q.entry i)) }

theorem lsqPart_set (c : Cpu) (i : Nat) {f g : LsqEntry → LsqEntry}
    (h : ∀ l, (f l).plain = g l.plain) : (c.modLsq i f).lsqPart = c.lsqPart.set i g := by
  have entry : (fun j => ((c.modLsq i f).lsq j).plain) = (c.lsqPart.set i g).entry := by
    funext j
    by_cases hj : j = i
    · subst hj
      simp only [Cpu.modLsq, LsqPart.set, Function.update_self]
      exact h _
    · simp only [Cpu.modLsq, LsqPart.set, Function.update_of_ne hj]
      rfl
  rw [Cpu.lsqPart, entry]
  rfl

variable {cfg : Config} {k : Nat} {s s' : Sys}

theorem lsqOp_pipeline {op : PipeOp} {c c' : Cpu}
    (h : Machine.ifActive (Machine.pipeline cfg op) c = some c') : LsqOp cfg c c' := by
  unfold Machine.ifActive at h
  split_ifs at h
  cases op with
  | retire counted stop => exact .keep ((Option.some.inj h) ▸ rfl)
  | writeback => exact .writeback h
  | commit => exact .commit h
  | cancel => exact .cancel h
  | recover =>
    obtain rfl := Option.some.inj h
    refine .keep ?_
    unfold cancelFetch
    split_ifs <;> rfl
  | branchStall => exact .keep ((Option.some.inj h) ▸ rfl)
  | enqueue op addr => cases h
  | issue i => cases h
  | fetch addr => cases h

theorem lsqOp_front {simCycle : Nat} {op : PipeOp} {c c' : Cpu}
    (h : Machine.ifActive (Machine.front cfg k simCycle op) c = some c') : LsqOp cfg c c' := by
  unfold Machine.ifActive at h
  split_ifs at h
  cases op with
  | retire counted stop => cases h
  | writeback => cases h
  | commit => cases h
  | cancel => exact .cancel h
  | recover =>
    obtain rfl := Option.some.inj h
    refine .keep ?_
    unfold cancelFetch
    split_ifs <;> rfl
  | branchStall => exact .keep ((Option.some.inj h) ▸ rfl)
  | enqueue op addr => exact .enqueue op addr h
  | issue i => exact .issue i h
  | fetch addr =>
    obtain rfl := Option.some.inj h
    exact .keep lsqPart_fetchStage

theorem own_onCpu {f : Cpu → Option Cpu} (h : Machine.onCpu k f s = some s') :
    f (s.cpus k) = some (s'.cpus k) := by
  obtain ⟨c, hc, rfl⟩ := Option.map_eq_some_iff.mp h
  simp only [Sys.modCpu, Function.update_self]
  exact hc

theorem own_modCpu (f : Cpu → Cpu) : (s.modCpu k f).cpus k = f (s.cpus k) := by
  simp only [Sys.modCpu, Function.update_self]

/-- The data cache section. -/
theorem dcacheStage_cases {loc : Locals} (h : dcacheStage cfg k s = some s') :
    LsqStep cfg k (some (.dcache, loc)) (s.cpus k) (some (.memaddr, loc)) (s'.cpus k) := by
  simp only [dcacheStage, own_modCpu] at h
  cases at_p : (s.cpus k).lsqDcacheRefill with
  | some p =>
    rw [at_p] at h
    simp only [dcacheRefill] at h
    split at h
    · obtain ⟨⟨t, r⟩, ht, rfl⟩ := Option.map_eq_some_iff.mp h
      have quiet := (quiet_replaceBlock ht).eq k
      refine .pass (r := { p with blk := some r }) at_p ⟨rfl, rfl, rfl, rfl⟩ ?_
      rw [own_modCpu] at quiet ⊢
      exact congrArg (fun q : LsqPart => { q with
        dcacheRefill := none, dtagcmpRefill := some { p with blk := some r } }) quiet
    · split at h
      · obtain ⟨i, -, rfl⟩ := Option.map_eq_some_iff.mp h
        rw [own_modCpu, own_modCpu]
        exact .pass (r := { p with blk := i.blk, ack := i.ack, cacheStatus := i.cacheStatus }) at_p
          ⟨rfl, rfl, rfl, rfl⟩ rfl
      · obtain rfl := Option.some.inj h
        rw [own_modCpu, own_modCpu]
        exact .pass (r := { p with blk := (s.cpus k).dcache.refillBlk }) at_p
          ⟨rfl, rfl, rfl, rfl⟩ rfl
  | none =>
    rw [at_p] at h
    cases at_i : (s.cpus k).lsqDcachei with
    | some i =>
      rw [at_i] at h
      obtain rfl := Option.some.inj h
      rw [own_modCpu, own_modCpu]
      exact .probe at_p at_i rfl
    | none =>
      rw [at_i] at h
      obtain rfl := Option.some.inj h
      rw [own_modCpu]
      exact .bubble at_p at_i rfl

/-- A section of the core itself. -/
theorem lsqStep_section {ch : Choice} {phase : Phase} {loc loc' : Locals}
    (h : Machine.runPhase cfg ch k phase loc s = some (s', loc')) :
    LsqStep cfg k (some (phase, loc)) (s.cpus k)
      (if Machine.repeats ch phase then some (phase, loc') else phase.next.map fun p => (p, loc'))
      (s'.cpus k) := by
  have hkeep : ∀ {s? : Option Sys}, s?.map (fun s => (s, loc)) = some (s', loc') →
      s? = some s' ∧ loc' = loc := by
    intro s? hs
    obtain ⟨t, ht, hc⟩ := Option.map_eq_some_iff.mp hs
    obtain ⟨rfl, rfl⟩ := Prod.mk.inj hc
    exact ⟨ht, rfl⟩
  have hsome : ∀ {t : Sys}, some (t, loc) = some (s', loc') → t = s' ∧ loc' = loc := by
    intro t ht
    obtain ⟨rfl, rfl⟩ := Prod.mk.inj (Option.some.inj ht)
    exact ⟨rfl, rfl⟩
  have hquiet : s.Quiet s' → phase.outsideLsq → Machine.repeats ch phase = false →
      LsqStep cfg k (some (phase, loc)) (s.cpus k)
        (if Machine.repeats ch phase then some (phase, loc') else phase.next.map fun p => (p, loc'))
        (s'.cpus k) := by
    intro quiet outside once
    rw [once]
    cases phase <;> first
      | exact .quiet outside rfl (quiet.eq k)
      | cases outside
  cases phase with
  | pipeline =>
    simp only [Machine.runPhase] at h
    cases hop : ch.op with
    | none =>
      rw [hop] at h
      obtain ⟨rfl, rfl⟩ := hsome h
      exact hquiet (.refl s) rfl (by simp [Machine.repeats, hop])
    | some op =>
      rw [hop] at h
      obtain ⟨ht, rfl⟩ := hkeep h
      rw [if_pos (by simp [Machine.repeats, hop])]
      exact .op (lsqOp_pipeline (own_onCpu ht)) (.inl rfl)
  | memq =>
    obtain ⟨rfl, rfl⟩ := hsome h
    exact hquiet (.modCpu (lsqPart_checkMemq _)) rfl rfl
  | flitReq => exact hquiet (quiet_deliver (hkeep h).1) rfl rfl
  | flitInvn => exact hquiet (quiet_deliver (hkeep h).1) rfl rfl
  | flitWtbk => exact hquiet (quiet_deliver (hkeep h).1) rfl rfl
  | flitResp => exact hquiet (quiet_deliver (hkeep h).1) rfl rfl
  | select =>
    obtain ⟨rfl, -⟩ := Prod.mk.inj (Option.some.inj h)
    exact hquiet (.refl s) rfl rfl
  | accept =>
    obtain ⟨rfl, rfl⟩ := hsome h
    exact hquiet (.modCpu (lsqPart_accept ..)) rfl rfl
  | issue => exact hquiet (quiet_issue h) rfl rfl
  | reprobe => exact hquiet (quiet_reprobe h) rfl rfl
  | modifyL1 => exact hquiet (quiet_modifyL1 h) rfl rfl
  | l2Miss => exact hquiet (quiet_l2Miss h) rfl rfl
  | memref =>
    obtain ⟨rfl, rfl⟩ := hsome h
    exact hquiet (quiet_memref _) rfl rfl
  | refillL2 => exact hquiet (quiet_refillL2 (hkeep h).1) rfl rfl
  | wtbk => exact hquiet (quiet_wtbk h) rfl rfl
  | extrdy => exact hquiet (quiet_extrdy (hkeep h).1) rfl rfl
  | refill =>
    obtain ⟨ht, rfl⟩ := hkeep h
    exact .refill ((quietCore_refill ht).eq k)
  | delay =>
    obtain ⟨rfl, rfl⟩ := hsome h
    exact hquiet quiet_delay rfl rfl
  | lsqSelect =>
    obtain ⟨rfl, rfl⟩ := hsome h
    rw [own_modCpu]
    exact .select
  | dcachewrite =>
    obtain ⟨⟨c, loc''⟩, hc, hs⟩ := Option.map_eq_some_iff.mp h
    obtain ⟨rfl, rfl⟩ := Prod.mk.inj hs
    rw [own_modCpu]
    exact .write hc
  | dtagcmp =>
    obtain ⟨ht, rfl⟩ := hkeep h
    exact .compare (own_onCpu ht)
  | drain =>
    obtain ⟨rfl, rfl⟩ := hsome h
    rw [own_modCpu]
    exact .drain
  | dcache =>
    obtain ⟨ht, rfl⟩ := hkeep h
    exact dcacheStage_cases ht
  | memaddr =>
    obtain ⟨rfl, rfl⟩ := hsome h
    rw [own_modCpu]
    exact .forward
  | front =>
    simp only [Machine.runPhase] at h
    cases hop : ch.op with
    | none =>
      rw [hop] at h
      obtain ⟨rfl, rfl⟩ := hsome h
      rw [if_neg (by simp [Machine.repeats, hop])]
      exact .done rfl
    | some op =>
      rw [hop] at h
      obtain ⟨ht, rfl⟩ := hkeep h
      rw [if_pos (by simp [Machine.repeats, hop])]
      exact .op (lsqOp_front (own_onCpu ht)) (.inr rfl)

theorem place_none (h : s.frame = none) (k : Nat) : s.place k = none := by
  rw [Sys.place, h, Option.bind_none]

theorem place_frame {fr : Frame} (h : s.frame = some fr) (k : Nat) :
    s.place k = if fr.cpu = k then some (fr.phase, fr.loc) else none := by
  rw [Sys.place, h, Option.bind_some]

variable (cfg k) in
/-- Where the activation of a core is after a section. -/
theorem place_advance (ch : Choice) (j : Nat) (phase : Phase) (loc : Locals) (t : Sys) :
    (Machine.advance cfg ch j phase loc t).cpus = t.cpus ∧
      (Machine.advance cfg ch j phase loc t).place k = if j = k then
        if Machine.repeats ch phase then some (phase, loc) else phase.next.map fun p => (p, loc)
      else none := by
  simp only [Machine.advance]
  split
  · exact ⟨rfl, rfl⟩
  · cases phase.next with
    | some p => exact ⟨rfl, rfl⟩
    | none =>
      simp only [Option.map_none, ite_self]
      split
      · exact ⟨rfl, place_none rfl k⟩
      · exact ⟨rfl, place_none rfl k⟩

theorem quiet_runEvent {ev : Event} (h : Machine.runEvent cfg ev s = some s') : s.Quiet s' := by
  cases ev with
  | cpuExecute k =>
    obtain rfl := Option.some.inj h
    exact ⟨fun _ => rfl⟩
  | scacheProbe k req q paddr => exact .onCpu (fun _ _ hc => lsqPart_scacheProbe hc) h
  | scacheRefill k q => exact .onCpu (fun _ _ hc => lsqPart_scacheRefill hc) h
  | scacheWriteback k cpuid req paddr inst =>
    exact .onCpu (fun _ _ hc => lsqPart_scacheWriteback hc) h
  | updateCredit k chan =>
    exact .onCpu (fun c _ hc => (Option.some.inj hc) ▸ lsqPart_updateCredit chan c) h

theorem place_runEvent {ev : Event} (idle : s.frame = none)
    (h : Machine.runEvent cfg ev s = some s') (k : Nat) :
    s'.place k = none ∨ s'.place k = some (.pipeline, {}) := by
  have keep : ∀ {j f}, Machine.onCpu j f s = some s' → s'.place k = none := by
    intro j f hs
    obtain ⟨c, -, rfl⟩ := Option.map_eq_some_iff.mp hs
    exact place_none idle k
  cases ev with
  | cpuExecute j =>
    obtain rfl := Option.some.inj h
    rw [place_frame rfl]
    split
    · exact .inr rfl
    · exact .inl rfl
  | scacheProbe => exact .inl (keep h)
  | scacheRefill => exact .inl (keep h)
  | scacheWriteback => exact .inl (keep h)
  | updateCredit j chan => exact .inl (keep (j := j) (f := fun c => some (updateCredit chan c)) h)

/-- Every step of the machine is one of these steps of every queue. -/
theorem lsqStep_of_step {ch : Choice} (h : Machine.step cfg ch s = some s') (k : Nat) :
    LsqStep cfg k (s.place k) (s.cpus k) (s'.place k) (s'.cpus k) := by
  unfold Machine.step at h
  split at h
  · rename_i fr hfr
    obtain ⟨⟨t, loc⟩, ht, hs⟩ := Option.map_eq_some_iff.mp h
    obtain ⟨cpus, place⟩ := place_advance cfg k ch fr.cpu fr.phase loc t
    rw [← hs, cpus, place, place_frame hfr]
    by_cases hk : fr.cpu = k
    · subst hk
      rw [if_pos rfl, if_pos rfl]
      exact lsqStep_section ht
    · rw [if_neg hk, if_neg hk]
      exact .rest (congrArg Cpu.lsqPart ((within_runPhase ht).others k (Ne.symm hk)))
  · rename_i idle
    split at h
    · cases h
    · rename_i time ev rest _
      rw [place_none idle]
      have same := (quiet_runEvent h).eq k
      obtain none | start := place_runEvent (s := { s with simCycle := time, pending := rest }) idle h k
      · rw [none]
        exact .rest same
      · rw [start]
        exact .start same

/-! ### The operations as the queue sees them -/

variable {c c' : Cpu}

/-- The state of one entry changes. -/
def LsqPart.setState (q : LsqPart) (i : Nat) (a : LsqState) : LsqPart :=
  q.set i fun l => { l with state := a }

theorem lsqPart_setState (c : Cpu) (i : Nat) (a : LsqState) :
    (c.modLsq i fun l => { l with state := a }).lsqPart = c.lsqPart.setState i a :=
  lsqPart_set c i fun _ => rfl

/-- The new entry of `lsq_enqueue`, in a slot that held `l`. -/
def LsqEntry.entered (op : MemOp) (addr : Nat) (l : LsqEntry) : LsqEntry :=
  { l with op := op, state := .enter, addr := addr, ex := false, loadspec := false }

theorem lsqPart_enqueue {op : MemOp} {addr : Nat} (h : lsqEnqueue cfg op addr c = some c') :
    c.lsqPart.num < cfg.lsqIfqSize ∧
      c'.lsqPart = { c.lsqPart.set c.lsqPart.tail (LsqEntry.entered op addr) with
        num := c.lsqPart.num + 1
        tail := nextIndex cfg.lsqIfqSize c.lsqPart.tail } := by
  unfold lsqEnqueue at h
  split_ifs at h with room
  obtain rfl := Option.some.inj h
  have set := lsqPart_set c c.lsqTail (f := LsqEntry.entered op addr)
    (g := LsqEntry.entered op addr) fun _ => rfl
  exact ⟨room, congrArg (fun q : LsqPart => { q with
    num := c.lsqNum + 1, tail := nextIndex cfg.lsqIfqSize c.lsqTail }) set⟩

theorem lsqPart_issue {i : Nat} (h : lsqIssue cfg i c = some c') :
    (c.lsqPart.entry i).state = .enter ∧ c.lsqPart.issuei = none ∧
      c'.lsqPart = { c.lsqPart.setState i .issue with issuei := some i } := by
  unfold lsqIssue at h
  split_ifs at h with can
  obtain rfl := Option.some.inj h
  have set := lsqPart_setState c i .issue
  exact ⟨can.1, can.2.1, congrArg (fun q : LsqPart => { q with issuei := some i }) set⟩

theorem lsqPart_writeback (h : lsqWriteback c = some c') :
    ∃ i, c.lsqPart.wtbki = some i ∧ (c.lsqPart.entry i).state = .readcache ∧
      c'.lsqPart = c.lsqPart.setState i .writeback := by
  obtain ⟨i, hi, h⟩ := Option.bind_eq_some_iff.mp h
  split_ifs at h with can
  obtain rfl := Option.some.inj h
  exact ⟨i, hi, can, lsqPart_setState c i _⟩

theorem lsqPart_commit (h : lsqCommit cfg c = some c') :
    ∃ i, (ring cfg.lsqIfqSize c.lsqPart.head c.lsqPart.tail).find?
        (fun i => (c.lsqPart.entry i).state != .commit) = some i ∧
      (c.lsqPart.entry i).state = .writeback ∧ (c.lsqPart.entry i).ex = false ∧
      c'.lsqPart = c.lsqPart.setState i .commit := by
  obtain ⟨i, hi, h⟩ := Option.bind_eq_some_iff.mp h
  split_ifs at h with can
  obtain rfl := Option.some.inj h
  exact ⟨i, hi, can.1, can.2, lsqPart_setState c i _⟩

/-- `lsq_cancel_one`, without its assertion. -/
def lsqCancelOne (i : Nat) (c : Cpu) : Cpu :=
  let l := c.lsq i
  let c := match l.state with
    | .issue => { c with lsqIssuei := none }
    | .dcache => { c with lsqDcachei := none }
    | .dtagcmp => { c with lsqDtagcmpi := none }
    | _ => if c.lsqMissi = some i then { c with lsqMissi := none } else c
  { c.modLsq i fun l => { l with state := .empty } with
    lsqNum := c.lsqNum - 1
    lsqTail := i }

/-- What `lsq_cancel_one` does to the queue. -/
def LsqPart.cancelOne (q : LsqPart) (i : Nat) : LsqPart :=
  { q.setState i .empty with
    issuei := if (q.entry i).state = .issue then none else q.issuei
    dcachei := if (q.entry i).state = .dcache then none else q.dcachei
    dtagcmpi := if (q.entry i).state = .dtagcmp then none else q.dtagcmpi
    num := q.num - 1
    tail := i }

theorem lsqPart_cancelOne (i : Nat) (c : Cpu) :
    (lsqCancelOne i c).lsqPart = c.lsqPart.cancelOne i := by
  have state : (c.lsqPart.entry i).state = (c.lsq i).state := rfl
  have empty := fun c => lsqPart_setState c i .empty
  simp only [LsqPart.cancelOne, lsqCancelOne, state]
  cases (c.lsq i).state with
  | issue =>
    exact congrArg (fun q : LsqPart => { q with num := c.lsqNum - 1, tail := i })
      (empty { c with lsqIssuei := none })
  | dcache =>
    exact congrArg (fun q : LsqPart => { q with num := c.lsqNum - 1, tail := i })
      (empty { c with lsqDcachei := none })
  | dtagcmp =>
    exact congrArg (fun q : LsqPart => { q with num := c.lsqNum - 1, tail := i })
      (empty { c with lsqDtagcmpi := none })
  | _ =>
    simp only
    split
    · exact congrArg (fun q : LsqPart => { q with num := c.lsqNum - 1, tail := i })
        (empty { c with lsqMissi := none })
    · exact congrArg (fun q : LsqPart => { q with num := c.lsqNum - 1, tail := i }) (empty c)

theorem lsqPart_cancel (h : lsqCancel cfg c = some c') :
    ∃ i, i = (c.lsqPart.tail + cfg.lsqIfqSize - 1) % cfg.lsqIfqSize ∧
      (c.lsqPart.entry i).state ≠ .empty ∧ (c.lsqPart.entry i).state ≠ .commit ∧
      (c.lsqPart.entry i).state ≠ .delay1 ∧ c'.lsqPart = c.lsqPart.cancelOne i := by
  refine ⟨_, rfl, ?_⟩
  generalize hi : (c.lsqPart.tail + cfg.lsqIfqSize - 1) % cfg.lsqIfqSize = i
  have hi : (c.lsqTail + cfg.lsqIfqSize - 1) % cfg.lsqIfqSize = i := hi
  simp only [lsqCancel, hi] at h
  split at h
  · cases h
  · rename_i cannot
    simp only [not_or] at cannot
    refine ⟨cannot.1, cannot.2.1, cannot.2.2, ?_⟩
    rw [← lsqPart_cancelOne]
    exact congrArg Cpu.lsqPart (Option.some.inj h).symm

end Godson
