import Godson.Effects

/-! Which cores keep being activated. An activation queues the next one at its very
end, so a core that returns early is never activated again, and with it stop the
router, the queues and the memory of its node. -/
namespace Godson

/-! ### Events leave the progress of a core alone -/

namespace Cpu

/-- Two states of a core that differ below the pipeline only. -/
structure SameProgress (c c' : Cpu) : Prop where
  active : c'.active = c.active
  simPopInsn : c'.simPopInsn = c.simPopInsn
  sdbbp : c'.sdbbp = c.sdbbp

theorem SameProgress.finished {cfg : Config} {c c' : Cpu} (h : SameProgress c c') :
    c'.finished cfg = c.finished cfg := by
  simp only [Cpu.finished, h.active, h.simPopInsn, h.sdbbp]

theorem SameProgress.trans {c c' c'' : Cpu} (h : SameProgress c c') (h' : SameProgress c' c'') :
    SameProgress c c'' :=
  ⟨h'.active.trans h.active, h'.simPopInsn.trans h.simPopInsn, h'.sdbbp.trans h.sdbbp⟩

end Cpu

open Cpu Sys

variable {cfg : Config} {k : Nat} {c c' : Cpu} {s s' : Sys}

theorem sameProgress_modMissq (q : Nat) (f : MissEntry → MissEntry) :
    SameProgress c (c.modMissq q f) := ⟨rfl, rfl, rfl⟩

theorem sameProgress_missqChangeState (qid : Nat) (next : MissState) :
    SameProgress c (missqChangeState c qid next) := by
  unfold missqChangeState
  constructor <;> dsimp only <;> split_ifs <;> rfl

theorem sameProgress_changed (qid : Nat) (next : MissState) (f : MissEntry → MissEntry) :
    SameProgress c ((missqChangeState c qid next).modMissq qid f) :=
  (sameProgress_missqChangeState qid next).trans (sameProgress_modMissq qid f)

theorem sameProgress_probeMiss (simCycle qid paddr : Nat) :
    SameProgress c (probeMiss cfg c simCycle qid paddr) := by
  simp only [probeMiss]
  exact sameProgress_changed ..

theorem sameProgress_probeExclusiveRead (qid : Nat) (r : BlkRef) :
    SameProgress c (probeExclusiveRead cfg c qid r) := by
  simp only [probeExclusiveRead]
  split
  · exact sameProgress_modMissq ..
  · exact sameProgress_changed ..

theorem sameProgress_probeExclusiveWrite {qid : Nat} {r : BlkRef}
    (h : probeExclusiveWrite c qid r = some c') : SameProgress c c' := by
  simp only [probeExclusiveWrite] at h
  split_ifs at h <;> obtain rfl := Option.some.inj h
  · exact sameProgress_modMissq ..
  · exact sameProgress_changed ..

theorem sameProgress_probeSharedRead (qid : Nat) (r : BlkRef) :
    SameProgress c (probeSharedRead cfg c k qid r) := by
  simp only [probeSharedRead]
  split
  · exact sameProgress_modMissq ..
  · obtain ⟨h₁, h₂, h₃⟩ := sameProgress_missqChangeState (c := c) qid
      (if k = (c.missq qid).cpuid then .replaceL1 else .extrdy)
    exact ⟨h₁, h₂, h₃⟩

theorem sameProgress_probeSharedWrite {qid : Nat} {r : BlkRef}
    (h : probeSharedWrite c qid r = some c') : SameProgress c c' := by
  simp only [probeSharedWrite] at h
  split_ifs at h <;> obtain rfl := Option.some.inj h
  · exact sameProgress_modMissq ..
  · exact sameProgress_changed ..

theorem sameProgress_probeSharedUpgrade {qid : Nat} {r : BlkRef}
    (h : probeSharedUpgrade c qid r = some c') : SameProgress c c' := by
  simp only [probeSharedUpgrade] at h
  split_ifs at h
  obtain rfl := Option.some.inj h
  exact sameProgress_changed ..

theorem sameProgress_scacheProbe {simCycle qid paddr : Nat} {req : Req}
    (h : scacheProbe cfg simCycle k req qid paddr c = some c') : SameProgress c c' := by
  unfold scacheProbe at h
  split at h
  · exact Option.some.inj h ▸ sameProgress_probeMiss ..
  · split at h
    · exact Option.some.inj h ▸ sameProgress_probeExclusiveRead ..
    · exact sameProgress_probeExclusiveWrite h
    · exact sameProgress_probeExclusiveWrite h
    · exact Option.some.inj h ▸ sameProgress_probeSharedRead ..
    · exact sameProgress_probeSharedWrite h
    · exact sameProgress_probeSharedUpgrade h
    · exact Option.some.inj h ▸ ⟨rfl, rfl, rfl⟩

theorem sameProgress_scacheRefill {qid : Nat} (h : scacheRefill cfg k qid c = some c') :
    SameProgress c c' := by
  obtain ⟨r, -, rfl⟩ := Option.map_eq_some_iff.mp h
  obtain ⟨h₁, h₂, h₃⟩ := sameProgress_missqChangeState (c := c) qid
    (if (c.missq qid).cpuid = k then .replaceL1 else .extrdy)
  refine SameProgress.trans ?_ (sameProgress_missqChangeState ..)
  exact ⟨rfl, rfl, rfl⟩

theorem sameProgress_scacheWriteback {requestCpuid paddr : Nat} {req : Req} {inst : Bool}
    (h : scacheWriteback cfg requestCpuid req paddr inst c = some c') : SameProgress c c' := by
  simp only [scacheWriteback] at h
  split_ifs at h
  obtain rfl := Option.some.inj h
  exact ⟨rfl, rfl, rfl⟩

theorem sameProgress_updateCredit (chan : Chan) : SameProgress c (updateCredit chan c) := by
  cases chan <;> exact ⟨rfl, rfl, rfl⟩

/-! ### One activation for every core that goes on -/

namespace Sys

/-- Core `k` is in the middle of its activation. -/
def Running (s : Sys) (k : Nat) : Prop := ∃ fr, s.frame = some fr ∧ fr.cpu = k

/-- Every core is activated exactly once more, unless it is running or has returned early. -/
def Served (cfg : Config) (s : Sys) : Prop :=
  ∀ k < cfg.totalCpus, (s.Running k → s.activations k = 0) ∧
    (¬ s.Running k → s.activations k = if (s.cpus k).finished cfg then 0 else 1)

end Sys

namespace Machine

/-- The activation of core `k` is the next event. -/
theorem activations_pop {t : Nat} {ev : Event} {rest : List (Nat × Event)}
    (h : s.pending = (t, ev) :: rest) (i : Nat) :
    s.activations i = Sys.activations { s with simCycle := t, pending := rest } i +
      if ev = .cpuExecute i then 1 else 0 := by
  simp [Sys.activations, h, List.countP_cons]

/-- An event other than an activation. -/
theorem runEvent_other {ev : Event} (hev : ev.isExecute = false)
    (h : runEvent cfg ev s = some s') :
    s'.frame = s.frame ∧ (∀ i, s'.activations i = s.activations i) ∧
      ∀ i, (s'.cpus i).finished cfg = (s.cpus i).finished cfg := by
  have hcpu : ∀ {k : Nat} {f : Cpu → Option Cpu}, onCpu k f s = some s' →
      (∀ c c', f c = some c' → SameProgress c c') →
      s'.frame = s.frame ∧ (∀ i, s'.activations i = s.activations i) ∧
        ∀ i, (s'.cpus i).finished cfg = (s.cpus i).finished cfg := by
    intro k f hf hsame
    obtain ⟨c, hc, rfl⟩ := Option.map_eq_some_iff.mp hf
    refine ⟨rfl, fun _ => rfl, fun i => ?_⟩
    by_cases hik : i = k
    · subst hik
      simpa [Sys.modCpu] using (hsame _ c hc).finished
    · simp [Sys.modCpu, hik]
  cases ev with
  | cpuExecute k => simp [Event.isExecute] at hev
  | scacheProbe k req qid paddr => exact hcpu h fun _ _ hc => sameProgress_scacheProbe hc
  | scacheRefill k qid => exact hcpu h fun _ _ hc => sameProgress_scacheRefill hc
  | scacheWriteback k i req paddr inst =>
    exact hcpu h fun _ _ hc => sameProgress_scacheWriteback hc
  | updateCredit k chan =>
    change onCpu k (fun c => some (updateCredit chan c)) s = some s' at h
    exact hcpu h fun _ _ hc => Option.some.inj hc ▸ sameProgress_updateCredit chan

/-- Where an activation goes on, it is the one under way; where it ends, it is
queued again unless the core returns early. -/
theorem advance_spec (cfg : Config) (ch : Choice) (k : Nat) (phase : Phase) (loc : Locals) (s : Sys) :
    (advance cfg ch k phase loc s).cpus = s.cpus ∧
    ((∃ fr, (advance cfg ch k phase loc s).frame = some fr ∧ fr.cpu = k) ∧
        (∀ i, (advance cfg ch k phase loc s).activations i = s.activations i) ∨
      (advance cfg ch k phase loc s).frame = none ∧
        ∀ i, (advance cfg ch k phase loc s).activations i = s.activations i +
          if i = k ∧ (s.cpus k).finished cfg = false then 1 else 0) := by
  unfold advance
  split
  · exact ⟨rfl, .inl ⟨⟨_, rfl, rfl⟩, fun _ => rfl⟩⟩
  · split
    · exact ⟨rfl, .inl ⟨⟨_, rfl, rfl⟩, fun _ => rfl⟩⟩
    · dsimp only
      split
      · rename_i hfin
        exact ⟨rfl, .inr ⟨rfl, fun i => by simp [hfin]; rfl⟩⟩
      · rename_i hfin
        refine ⟨rfl, .inr ⟨rfl, fun i => ?_⟩⟩
        have hbeq : (Event.cpuExecute k == .cpuExecute i) = decide (i = k) := by
          rw [Bool.eq_iff_iff, beq_iff_eq, Event.cpuExecute.injEq, decide_eq_true_iff, eq_comm]
        simp [Sys.activations, Sys.queue, queueEvent, hbeq, hfin]

theorem served_step {ch : Choice} (h : s.Served cfg) (hstep : step cfg ch s = some s') :
    s'.Served cfg := by
  unfold step at hstep
  split at hstep
  · rename_i fr hfr
    obtain ⟨⟨t, loc⟩, ht, rfl⟩ := Option.map_eq_some_iff.mp hstep
    have hwithin := within_runPhase ht
    have hrunning : s.Running fr.cpu := ⟨fr, hfr, rfl⟩
    obtain ⟨hcpus, hends⟩ := advance_spec cfg ch fr.cpu fr.phase loc t
    intro k hk
    have hother : k ≠ fr.cpu → ¬ s.Running k := by
      rintro hne ⟨fr', hfr', rfl⟩
      rw [hfr] at hfr'
      exact hne (by rw [Option.some.inj hfr'])
    by_cases hkf : k = fr.cpu
    · subst hkf
      have hzero := (h fr.cpu hk).1 hrunning
      rcases hends with ⟨hrun, hact⟩ | ⟨hnone, hact⟩
      · refine ⟨fun _ => ?_, fun hno => absurd hrun hno⟩
        rw [hact, hwithin.activations, hzero]
      · refine ⟨?_, fun _ => ?_⟩
        · rintro ⟨fr', hfr', -⟩
          rw [hnone] at hfr'
          exact absurd hfr' (by simp)
        · rw [hact, hwithin.activations, hzero, hcpus]
          cases hfin : (t.cpus fr.cpu).finished cfg <;> simp
    · have hsame := (h k hk).2 (hother hkf)
      have hact : (advance cfg ch fr.cpu fr.phase loc t).activations k = s.activations k := by
        rcases hends with ⟨-, hact⟩ | ⟨-, hact⟩
        · rw [hact, hwithin.activations]
        · rw [hact, hwithin.activations, if_neg fun hh => hkf hh.1, Nat.add_zero]
      refine ⟨?_, fun _ => ?_⟩
      · rintro ⟨fr', hfr', rfl⟩
        rcases hends with ⟨⟨fr'', hfr'', hcpu⟩, -⟩ | ⟨hnone, -⟩
        · rw [hfr''] at hfr'
          exact absurd ((Option.some.inj hfr') ▸ hcpu) hkf
        · rw [hnone] at hfr'
          exact absurd hfr' (by simp)
      · rw [hact, hcpus, hwithin.others k hkf]
        exact hsame
  · rename_i hfr
    have hidle : ∀ k, ¬ s.Running k := by
      rintro k ⟨fr, hfr', -⟩
      rw [hfr] at hfr'
      exact absurd hfr' (by simp)
    split at hstep
    · exact absurd hstep (by simp)
    · rename_i t ev rest hpend
      cases hev : ev.isExecute with
      | false =>
        obtain ⟨hframe, hact, hfin⟩ := runEvent_other hev hstep
        have hne : ∀ k, ev ≠ .cpuExecute k := by
          rintro k rfl
          simp [Event.isExecute] at hev
        intro k hk
        refine ⟨?_, fun _ => ?_⟩
        · rintro ⟨fr, hfr', -⟩
          rw [hframe, hfr] at hfr'
          exact absurd hfr' (by simp)
        · have := (h k hk).2 (hidle k)
          rw [activations_pop hpend, if_neg (hne k), Nat.add_zero] at this
          rw [hact, hfin]
          exact this
      | true =>
        cases ev with
        | cpuExecute j =>
          obtain rfl := Option.some.inj hstep
          intro k hk
          have hserved := (h k hk).2 (hidle k)
          rw [activations_pop hpend] at hserved
          refine ⟨?_, fun hno => ?_⟩
          · rintro ⟨fr, hfr', rfl⟩
            obtain rfl := Option.some.inj hfr'
            simp only [if_true] at hserved
            have hle : (if (s.cpus j).finished cfg = true then 0 else 1) ≤ 1 := by split <;> decide
            exact Nat.le_zero.mp (by simp only [Sys.activations] at *; omega)
          · have hjk : ¬ Event.cpuExecute j = .cpuExecute k :=
              fun hh => hno ⟨_, rfl, Event.cpuExecute.inj hh⟩
            rwa [if_neg hjk, Nat.add_zero] at hserved
        | _ => simp [Event.isExecute] at hev

theorem served_initial : (initial cfg).Served cfg := by
  intro k hk
  have hidle : ¬ (initial cfg).Running k := by
    rintro ⟨fr, hfr, -⟩
    exact absurd hfr (by simp [initial])
  refine ⟨fun hrun => absurd hrun hidle, fun _ => ?_⟩
  have hfin : ((initial cfg).cpus k).finished cfg = false := by
    simp only [initial, Cpu.finished]
    cases hmax : cfg.optMaxInsts <;> simp
  have hcount : (initial cfg).activations k = (List.range cfg.totalCpus).count k := by
    simp only [Sys.activations, initial, List.countP_map, List.count]
    exact List.countP_congr fun i _ => by simp
  rw [hcount, hfin, List.count_eq_one_of_mem List.nodup_range (List.mem_range.mpr hk)]
  rfl

theorem Reachable.served (h : Reachable cfg s) : s.Served cfg :=
  RunWith.invariant cfg served_initial (fun _ _ _ hs _ hstep => served_step hs hstep) h

end Machine

/-- Some core still executes, or has an outstanding miss or intervention, or a
packet is on its way. -/
def Sys.Busy (cfg : Config) (s : Sys) : Prop :=
  (∃ k < cfg.totalCpus, (s.cpus k).active ∧ (s.cpus k).finished cfg = false) ∨
  (∃ k < cfg.totalCpus, ∃ q < cfg.missqIfqSize, ((s.cpus k).missq q).state ≠ .empty) ∨
  s.net ≠ []

namespace Machine

/-- Between two activations the pending list holds one activation of every core
that has not returned early, and none of the others: while anything is still under
way, every node is served if and only if no core has returned early. -/
theorem home_service_iff (h : Reachable cfg s) (hframe : s.frame = none) :
    (∀ k < cfg.totalCpus, s.activations k = if (s.cpus k).finished cfg then 0 else 1) ∧
    ((s.Busy cfg → ∀ k < cfg.totalCpus, s.activations k = 1) ↔
      (s.Busy cfg → ∀ k < cfg.totalCpus, (s.cpus k).finished cfg = false)) := by
  have hcount : ∀ k < cfg.totalCpus,
      s.activations k = if (s.cpus k).finished cfg then 0 else 1 := by
    refine fun k hk => (h.served k hk).2 ?_
    rintro ⟨fr, hfr, -⟩
    rw [hframe] at hfr
    exact absurd hfr (by simp)
  refine ⟨hcount, forall_congr' fun _ => forall₂_congr fun k hk => ?_⟩
  rw [hcount k hk]
  cases (s.cpus k).finished cfg <;> simp

end Machine

/-- Two cores, each with its own program. -/
def Config.duo : Config where
  cpuBits := 1
  cpuBits_le := by decide
  missqIfqSize := 4
  missq_pos := by decide
  wtbkqIfqSize := 4
  wtbkq_pos := by decide
  lsqIfqSize := 4
  lsq_pos := by decide
  memqIfqSize := 4
  memReadFirstDelay := 10
  memReadIntervalDelay := 1
  memWriteDelay := 10
  icache := ⟨2, 2, by decide⟩
  dcache := ⟨2, 2, by decide⟩
  l2 := ⟨2, 2, by decide⟩
  isSplash := false
  programs := 2
  optMaxInsts := 0

namespace Machine

/-- Core 0 loads from its stack, whose home is node 1, while core 1 commits its
stop instruction. -/
def stopRun : List Choice :=
  let idle : Choice := {}
  List.replicate 25 idle ++
    [{ op := some (.enqueue .lw 0x7fff8000) }, { op := some (.issue 0) }, idle] ++
    [idle, { op := some (.retire true true) }] ++ List.replicate 181 idle

theorem stopRun_stalls : ∃ s, Reachable .duo s ∧ s.frame = none ∧ s.activations 1 = 0 ∧
    (∃ q < Config.duo.missqIfqSize, ((s.cpus 0).missq q).state = .readL2) ∧
    s.net.map (fun p => p.dest) = [1] := by
  have h : (run .duo stopRun (initial .duo)).any (fun s =>
      s.frame.isNone && s.activations 1 == 0 && s.net.map (fun p => p.dest) == [1] &&
      (List.range 4).any fun q => ((s.cpus 0).missq q).state == .readL2) = true := by
    decide +kernel
  obtain ⟨s, hrun, hs⟩ := (Option.any_eq_true _ _).mp h
  simp only [Bool.and_eq_true, Option.isNone_iff_eq_none, beq_iff_eq, List.any_eq_true,
    List.mem_range] at hs
  obtain ⟨⟨⟨hframe, hact⟩, hnet⟩, hmiss⟩ := hs
  exact ⟨s, reachable_run .duo .initial hrun, hframe, hact, hmiss, hnet⟩

theorem home_service_iff_duo : ∃ s : Sys, s.activations 1 = 0 ∧
    (∀ k < Config.duo.totalCpus, s.activations k = if (s.cpus k).finished .duo then 0 else 1) ∧
    ((s.Busy .duo → ∀ k < Config.duo.totalCpus, s.activations k = 1) ↔
      (s.Busy .duo → ∀ k < Config.duo.totalCpus, (s.cpus k).finished .duo = false)) := by
  obtain ⟨s, hs, hframe, hact, -⟩ := stopRun_stalls
  exact ⟨s, hact, home_service_iff hs hframe⟩

/-- The node of the core that stopped is not served any more. -/
theorem home_service_stops : ∃ s, Reachable .duo s ∧ s.frame = none ∧ s.Busy .duo ∧
    ¬ ∀ k < Config.duo.totalCpus, s.activations k = 1 := by
  obtain ⟨s, hs, hframe, hact, ⟨q, hq, hmiss⟩, -⟩ := stopRun_stalls
  refine ⟨s, hs, hframe, .inr (.inl ⟨0, by decide, q, hq, by simp [hmiss]⟩), fun h => ?_⟩
  exact absurd (hact.symm.trans (h 1 (by decide))) (by decide)

end Machine

end Godson
