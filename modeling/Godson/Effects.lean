import Godson.Machine

/-! What a section of an activation does outside its own core: it queues events
and sends packets, but it changes no other core and no activation. -/
namespace Godson

namespace Sys

/-- Number of pending activations of core `i`. -/
def activations (s : Sys) (i : Nat) : Nat := s.pending.countP fun e => e.2 == .cpuExecute i

/-- The step from `s` to `s'` stays within core `k`. -/
structure Within (k : Nat) (s s' : Sys) : Prop where
  others : ∀ i ≠ k, s'.cpus i = s.cpus i
  simCycle : s'.simCycle = s.simCycle
  activations : ∀ i, s'.activations i = s.activations i

namespace Within

variable {k : Nat} {s s' s'' : Sys}

theorem refl (s : Sys) : Within k s s := ⟨fun _ _ => rfl, rfl, fun _ => rfl⟩

theorem trans (h : Within k s s') (h' : Within k s' s'') : Within k s s'' where
  others i hi := (h'.others i hi).trans (h.others i hi)
  simCycle := h'.simCycle.trans h.simCycle
  activations i := (h'.activations i).trans (h.activations i)

theorem modCpu (s : Sys) (f : Cpu → Cpu) : Within k s (s.modCpu k f) where
  others _ hi := Function.update_of_ne hi _ _
  simCycle := rfl
  activations _ := rfl

theorem queue (s : Sys) (delay : Nat) {ev : Event} (h : ev.isExecute = false) :
    Within k s (s.queue delay ev) where
  others _ _ := rfl
  simCycle := rfl
  activations _ := by
    have hne : ∀ i, (ev == .cpuExecute i) = false := by
      cases ev <;> simp_all [Event.isExecute]
    simp [Sys.activations, Sys.queue, queueEvent, hne]

theorem net (s : Sys) (l : List Packet) : Within k s { s with net := l } :=
  ⟨fun _ _ => rfl, rfl, fun _ => rfl⟩

/-- A change of the core after a step. -/
theorem andCpu (h : Within k s s') (f : Cpu → Cpu) : Within k s (s'.modCpu k f) :=
  h.trans (modCpu s' f)

/-- An event queued after a step. -/
theorem andQueue (h : Within k s s') (delay : Nat) {ev : Event} (hev : ev.isExecute = false) :
    Within k s (s'.queue delay ev) := h.trans (queue s' delay hev)

theorem ite {b : Prop} [Decidable b] (h : Within k s s') (h' : Within k s s'') :
    Within k s (if b then s' else s'') := by
  split
  · exact h
  · exact h'

/-- A fold of steps. -/
theorem foldl {α : Type} {f : Sys → α → Sys} (h : ∀ s a, Within k s (f s a)) (l : List α) (s : Sys) :
    Within k s (l.foldl f s) := by
  induction l generalizing s with
  | nil => exact refl s
  | cons a l ih => exact (h s a).trans (ih (f s a))

theorem foldlM {α : Type} {f : Sys → α → Option Sys} (h : ∀ s a s', f s a = some s' → Within k s s')
    {l : List α} {s s' : Sys} (hf : l.foldlM f s = some s') : Within k s s' := by
  induction l generalizing s with
  | nil =>
    obtain rfl : s = s' := Option.some.inj hf
    exact refl s
  | cons a l ih =>
    rw [List.foldlM_cons] at hf
    obtain ⟨t, ht, hrest⟩ := Option.bind_eq_some_iff.mp hf
    exact (h s a t ht).trans (ih hrest)

end Within

end Sys

open Sys

variable {cfg : Config} {k : Nat} {s s' : Sys}

theorem within_nocRequest (chan : Chan) (req : Req) (status : Status) (qid target paddr : Nat)
    (inst : Bool) : Within k s (nocRequest cfg k s chan req status qid target paddr inst) :=
  .net s _

theorem within_onCpu {f : Cpu → Option Cpu} (h : Machine.onCpu k f s = some s') :
    Within k s s' := by
  obtain ⟨c, -, rfl⟩ := Option.map_eq_some_iff.mp h
  exact .modCpu s _

theorem within_releaseWtbk (i : Nat) : Within k s (releaseWtbk k i s) :=
  (Within.modCpu s _).andQueue 0 rfl

theorem within_freeEntry (q : Nat) : Within k s (freeEntry k q s) :=
  (Within.modCpu s _).andQueue 0 rfl

theorem within_replaceBlock {inst : Bool} {bindex : Option Nat} {paddr : Nat} {req : Req}
    {intervention : Bool} {newStatus : Status} {r : BlkRef}
    (h : replaceBlock cfg s k inst bindex paddr req intervention newStatus = some (s', r)) :
    Within k s s' := by
  simp only [replaceBlock] at h
  split at h
  · exact absurd h (by simp)
  · split at h
    · obtain ⟨c, -, hc⟩ := Option.map_eq_some_iff.mp h
      obtain ⟨rfl, -⟩ := Prod.mk.inj hc
      exact .modCpu s _
    · obtain ⟨rfl, -⟩ := Prod.mk.inj (Option.some.inj h)
      exact (Within.modCpu s _).andQueue 0 rfl

/-! ### The sections -/

theorem within_deliver {chan : Chan} {choice : Option Nat}
    (h : Machine.deliver cfg k chan choice s = some s') : Within k s s' := by
  unfold Machine.deliver at h
  split at h
  · obtain rfl := Option.some.inj h
    exact .refl s
  · obtain ⟨p, -, hp⟩ := Option.bind_eq_some_iff.mp h
    split at hp
    · exact (Within.net s _).trans (within_onCpu hp)
    · exact absurd hp (by simp)

theorem within_issueLocal (q : Nat) : Within k s (issueLocal k q s) :=
  (Within.modCpu s _).andQueue _ rfl

theorem within_issueRemote (q : Nat) : Within k s (issueRemote cfg k q s) := by
  simp only [issueRemote]
  exact (within_nocRequest ..).andCpu _

theorem within_issue {room : Bool} {loc loc' : Locals}
    (h : issue cfg k room loc s = some (s', loc')) : Within k s s' := by
  unfold issue at h
  split at h
  · obtain ⟨rfl, -⟩ := Prod.mk.inj (Option.some.inj h)
    exact .refl s
  · simp only at h
    split_ifs at h
    · obtain ⟨rfl, -⟩ := Prod.mk.inj (Option.some.inj h)
      exact .refl s
    · obtain ⟨rfl, -⟩ := Prod.mk.inj (Option.some.inj h)
      exact .modCpu s _
    · obtain ⟨rfl, -⟩ := Prod.mk.inj (Option.some.inj h)
      exact (Within.modCpu s _).trans (within_issueLocal _)
    · obtain ⟨rfl, -⟩ := Prod.mk.inj (Option.some.inj h)
      exact (Within.modCpu s _).trans (within_issueRemote _)
    · obtain ⟨rfl, -⟩ := Prod.mk.inj (Option.some.inj h)
      exact .modCpu s _

theorem within_reprobe {loc loc' : Locals} (h : reprobe cfg k loc s = some (s', loc')) :
    Within k s s' := by
  unfold reprobe at h
  split at h
  · obtain ⟨rfl, -⟩ := Prod.mk.inj (Option.some.inj h)
    exact .refl s
  · simp only at h
    split_ifs at h
    · obtain ⟨c, -, hc⟩ := Option.map_eq_some_iff.mp h
      obtain ⟨rfl, -⟩ := Prod.mk.inj hc
      exact .modCpu s _
    · obtain ⟨rfl, -⟩ := Prod.mk.inj (Option.some.inj h)
      exact .refl s

theorem within_wtbkqAnswer (q i : Nat) : Within k s (wtbkqAnswer k q i s) := by
  unfold wtbkqAnswer
  refine Within.andCpu ?_ _
  exact .ite (.modCpu s _) ((Within.modCpu s _).trans (within_releaseWtbk i))

theorem within_checkExternal (q : Nat) (loc : Locals) :
    Within k s (checkExternal cfg k q loc s).1 := by
  have hcheck : Within k s (if ((s.cpus k).missq q).conflictChecked then s
      else s.modCpu k (conflictCheck cfg q)) := .ite (.refl s) (.modCpu s _)
  unfold checkExternal
  generalize (if ((s.cpus k).missq q).conflictChecked then s
    else s.modCpu k (conflictCheck cfg q)) = t at hcheck
  simp only
  split
  · exact hcheck
  · dsimp only
    refine Within.andCpu (hcheck.trans ?_) _
    split
    · exact within_wtbkqAnswer q _
    · exact .refl _

theorem within_sendIntervention (q : Nat) (type : Req) (paddr : Nat) (target : Nat × Bool) :
    Within k s (sendIntervention cfg k q type paddr target s) :=
  (within_nocRequest ..).andCpu _

theorem within_modifyHome {room : Bool} {q : Nat} (h : modifyHome cfg k room q s = some s') :
    Within k s s' := by
  obtain ⟨r, -, rfl⟩ := Option.map_eq_some_iff.mp h
  dsimp only
  cases interventionTarget cfg k ((s.cpus k).missq q) (((s.cpus k).l2.blks r).status == .shared) with
  | none => exact .ite (.modCpu s _) (.refl s)
  | some target =>
    dsimp only
    have hsend : Within k s (sendIntervention cfg k q ((s.cpus k).missq q).interventionType
        ((s.cpus k).missq q).paddr target s) := within_sendIntervention ..
    exact .ite ((Within.ite hsend (.refl s)).andCpu _) (.ite hsend (.refl s))

theorem within_modifyL1 {room : Bool} {loc loc' : Locals}
    (h : modifyL1 cfg k room loc s = some (s', loc')) : Within k s s' := by
  unfold modifyL1 at h
  split at h
  · obtain ⟨rfl, -⟩ := Prod.mk.inj (Option.some.inj h)
    exact .refl s
  · simp only at h
    split_ifs at h
    · obtain ⟨rfl, -⟩ := Prod.mk.inj (Option.some.inj h)
      exact (within_checkExternal ..).andCpu _
    · obtain ⟨t, ht, hc⟩ := Option.map_eq_some_iff.mp h
      obtain ⟨rfl, -⟩ := Prod.mk.inj hc
      exact (within_modifyHome ht).andCpu _

theorem within_l2Miss {room : Bool} {loc loc' : Locals}
    (h : l2Miss cfg k room loc s = some (s', loc')) : Within k s s' := by
  unfold l2Miss at h
  split at h
  · obtain ⟨rfl, -⟩ := Prod.mk.inj (Option.some.inj h)
    exact .refl s
  · rename_i q _
    obtain ⟨r, -, hc⟩ := Option.map_eq_some_iff.mp h
    obtain ⟨rfl, -⟩ := Prod.mk.inj hc
    cases interventionTarget cfg k ((s.cpus k).missq q)
        (((s.cpus k).l2.blks r).status == .shared) with
    | none => exact .ite ((Within.modCpu s _).andCpu _) (.modCpu s _)
    | some target =>
      dsimp only
      have hsend : Within k s (sendIntervention cfg k q .interventionExc
          ((s.cpus k).missq q).l2ReplacePaddr target s) := within_sendIntervention ..
      exact .ite (((Within.ite hsend (.refl s)).andCpu _).andCpu _)
        ((Within.ite hsend (.refl s)).andCpu _)

theorem within_memref (loc : Locals) : Within k s (memref k loc s) := by
  unfold memref
  split
  · exact .refl s
  · exact .ite (.modCpu s _) (.refl s)

theorem within_refillL2 {loc : Locals} (h : refillL2 cfg k loc s = some s') : Within k s s' := by
  unfold refillL2 at h
  split at h
  · obtain rfl := Option.some.inj h
    exact .refl s
  · obtain ⟨r, -, rfl⟩ := Option.map_eq_some_iff.mp h
    exact .ite (.ite (.refl s) ((Within.modCpu s _).andQueue _ rfl)) (.modCpu s _)

theorem within_wtbkDeliver {i q : Nat} (h : wtbkDeliver cfg k i q s = some s') :
    Within k s s' := by
  simp only [wtbkDeliver] at h
  split_ifs at h
  · obtain rfl := Option.some.inj h
    exact .refl s
  all_goals try
    obtain ⟨c, -, rfl⟩ := Option.map_eq_some_iff.mp h
    exact (Within.modCpu s _).trans (within_releaseWtbk i)
  obtain rfl := Option.some.inj h
  exact (Within.modCpu s _).trans (within_releaseWtbk i)

theorem within_wtbkLocal {i : Nat} {loc loc' : Locals}
    (h : wtbkLocal cfg k i loc s = some (s', loc')) : Within k s s' := by
  simp only [wtbkLocal] at h
  split_ifs at h
  · obtain ⟨rfl, -⟩ := Prod.mk.inj (Option.some.inj h)
    exact .refl s
  · obtain ⟨rfl, -⟩ := Prod.mk.inj (Option.some.inj h)
    exact (within_releaseWtbk i).andQueue _ rfl
  · obtain ⟨t, ht, hc⟩ := Option.map_eq_some_iff.mp h
    obtain ⟨rfl, -⟩ := Prod.mk.inj hc
    exact .foldlM (fun _ _ _ hq => within_wtbkDeliver hq) ht

theorem within_wtbkExternal {i : Nat} (h : wtbkExternal cfg k i s = some s') :
    Within k s s' := by
  simp only [wtbkExternal] at h
  split at h
  · exact absurd h (by simp)
  · obtain rfl := Option.some.inj h
    exact (Within.modCpu s _).trans (within_releaseWtbk i)

theorem within_wtbk {room : Bool} {loc loc' : Locals}
    (h : wtbk cfg k room loc s = some (s', loc')) : Within k s s' := by
  simp only [wtbk] at h
  refine (Within.modCpu s fun c =>
    { c with wtbkqLasti := nextIndex cfg.wtbkqIfqSize c.wtbkqLasti }).trans ?_
  split at h
  · obtain ⟨rfl, -⟩ := Prod.mk.inj (Option.some.inj h)
    exact .refl _
  · split_ifs at h
    · exact within_wtbkLocal h
    · obtain ⟨t, ht, hc⟩ := Option.map_eq_some_iff.mp h
      obtain ⟨rfl, -⟩ := Prod.mk.inj hc
      exact within_wtbkExternal ht
    · obtain ⟨rfl, -⟩ := Prod.mk.inj (Option.some.inj h)
      exact (within_nocRequest ..).trans (within_releaseWtbk _)
    · obtain ⟨rfl, -⟩ := Prod.mk.inj (Option.some.inj h)
      exact .refl _

theorem within_extrdy {room : Bool} {loc : Locals} (h : extrdy cfg k room loc s = some s') :
    Within k s s' := by
  unfold extrdy at h
  split at h
  · obtain rfl := Option.some.inj h
    exact .refl s
  · simp only at h
    split_ifs at h <;> obtain rfl := Option.some.inj h
    · exact (within_nocRequest ..).trans (within_freeEntry _)
    · exact .refl s
    · exact (within_nocRequest ..).trans (within_freeEntry _)
    · exact .refl s

theorem within_emptyMatch (i : Option Nat) : Within k s (emptyMatch k i s) := by
  unfold emptyMatch
  split
  · exact (Within.modCpu s _).andQueue 0 rfl
  · exact .refl s

theorem within_interveneInst {paddr : Nat} (h : interveneInst cfg k paddr s = some s') :
    Within k s s' := by
  obtain ⟨⟨t, r⟩, ht, rfl⟩ := Option.map_eq_some_iff.mp h
  exact ((Within.modCpu s _).trans (within_replaceBlock ht)).andCpu _

theorem within_externalInst {q : Nat} (h : externalInst cfg k q s = some s') :
    Within k s s' := by
  obtain ⟨t, ht, rfl⟩ := Option.map_eq_some_iff.mp h
  exact ((within_interveneInst ht).andCpu _).trans
    ((within_emptyMatch _).trans (within_emptyMatch _))

theorem within_interveneLocal {q : Nat} {type : Req} {paddr : Nat}
    (h : interveneLocal cfg k q type paddr s = some s') : Within k s s' := by
  simp only [interveneLocal] at h
  split_ifs at h
  · obtain ⟨t, ht, rfl⟩ := Option.map_eq_some_iff.mp h
    exact (within_interveneInst ht).andCpu _
  · obtain rfl := Option.some.inj h
    exact .modCpu s _
  · obtain rfl := Option.some.inj h
    exact .refl s

theorem within_mesiKill {q : Nat} (h : mesiKill cfg k q s = some s') : Within k s s' := by
  refine (Within.modCpu s _).trans (Within.foldlM (fun t i t' ht => ?_) h)
  simp only at ht
  split_ifs at ht
  · obtain rfl := Option.some.inj ht
    exact (Within.modCpu t _).andQueue 0 rfl
  · obtain rfl := Option.some.inj ht
    exact .refl t

theorem within_replaceL1 {q : Nat} (h : replaceL1 cfg k q s = some s') : Within k s s' := by
  simp only [replaceL1] at h
  obtain ⟨t, ht, rfl⟩ := Option.map_eq_some_iff.mp h
  refine Within.andCpu ((Within.modCpu s fun c =>
    reserveWtbk { c with refilltag := true, refilli := q }).trans ?_) _
  split_ifs at ht
  · obtain ⟨⟨u, r⟩, hu, rfl⟩ := Option.map_eq_some_iff.mp ht
    exact (within_replaceBlock hu).andCpu _
  · obtain ⟨u, hu, rfl⟩ := Option.map_eq_some_iff.mp ht
    exact (within_mesiKill hu).andCpu _
  · obtain ⟨u, hu, rfl⟩ := Option.map_eq_some_iff.mp ht
    obtain rfl := Option.some.inj hu
    exact .modCpu _ _

theorem within_refill {loc : Locals} (h : refill cfg k loc s = some s') : Within k s s' := by
  simp only [refill] at h
  refine (Within.modCpu s fun c => { c with refillDelay := c.refillDelay - 1 }).trans ?_
  split at h
  · obtain rfl := Option.some.inj h
    exact .modCpu _ _
  · split at h
    · split_ifs at h
      · exact within_externalInst h
      · obtain rfl := Option.some.inj h
        exact .modCpu _ _
      · obtain rfl := Option.some.inj h
        exact .refl _
    · obtain ⟨r, -, hr⟩ := Option.bind_eq_some_iff.mp h
      split_ifs at hr
      · exact within_interveneLocal hr
      · obtain rfl := Option.some.inj hr
        exact .refl _
    · exact within_replaceL1 h
    · obtain ⟨r, -, hr⟩ := Option.bind_eq_some_iff.mp h
      split_ifs at hr
      · exact within_interveneLocal hr
      · obtain rfl := Option.some.inj hr
        exact .refl _
    · obtain rfl := Option.some.inj h
      exact .refl _

theorem within_delay : Within k s (delay cfg k s) := by
  refine Within.foldl (fun t q => ?_) _ s
  split
  · exact (Within.modCpu t _).andQueue 0 rfl
  · exact .modCpu t _
  · exact .modCpu t _
  · exact .refl t

theorem within_dcacheStage (h : dcacheStage cfg k s = some s') : Within k s s' := by
  simp only [dcacheStage] at h
  refine (Within.modCpu s fun c => { c with replaceDelay := c.replaceDelay - 1 }).trans ?_
  split at h
  · unfold dcacheRefill at h
    split at h
    · obtain ⟨⟨t, r⟩, ht, rfl⟩ := Option.map_eq_some_iff.mp h
      exact (within_replaceBlock ht).andCpu _
    · split at h
      · obtain ⟨i, -, rfl⟩ := Option.map_eq_some_iff.mp h
        exact .modCpu _ _
      · obtain rfl := Option.some.inj h
        exact .modCpu _ _
  · obtain rfl := Option.some.inj h
    exact .modCpu _ _
  · obtain rfl := Option.some.inj h
    exact .refl _

/-- Every section stays within its core. -/
theorem within_runPhase {ch : Choice} {phase : Phase} {loc loc' : Locals}
    (h : Machine.runPhase cfg ch k phase loc s = some (s', loc')) : Within k s s' := by
  have hkeep : ∀ {s? : Option Sys}, s?.map (fun s => (s, loc)) = some (s', loc') → s? = some s' := by
    intro s? hs
    obtain ⟨t, ht, hc⟩ := Option.map_eq_some_iff.mp hs
    rw [ht, (Prod.mk.inj hc).1]
  have hsome : ∀ {t : Sys}, some (t, loc) = some (s', loc') → t = s' :=
    fun ht => (Prod.mk.inj (Option.some.inj ht)).1
  cases phase with
  | pipeline =>
    simp only [Machine.runPhase] at h
    split at h
    · exact hsome h ▸ .refl s
    · exact within_onCpu (hkeep h)
  | memq => exact hsome h ▸ .modCpu s _
  | flitReq => exact within_deliver (hkeep h)
  | flitInvn => exact within_deliver (hkeep h)
  | flitWtbk => exact within_deliver (hkeep h)
  | flitResp => exact within_deliver (hkeep h)
  | select =>
    obtain ⟨rfl, -⟩ := Prod.mk.inj (Option.some.inj h)
    exact .refl s
  | accept => exact hsome h ▸ .modCpu s _
  | issue => exact within_issue h
  | reprobe => exact within_reprobe h
  | modifyL1 => exact within_modifyL1 h
  | l2Miss => exact within_l2Miss h
  | memref => exact hsome h ▸ within_memref loc
  | refillL2 => exact within_refillL2 (hkeep h)
  | wtbk => exact within_wtbk h
  | extrdy => exact within_extrdy (hkeep h)
  | refill => exact within_refill (hkeep h)
  | delay => exact hsome h ▸ within_delay
  | lsqSelect => exact hsome h ▸ .modCpu s _
  | dcachewrite =>
    obtain ⟨⟨c, loc⟩, -, hc⟩ := Option.map_eq_some_iff.mp h
    obtain ⟨rfl, -⟩ := Prod.mk.inj hc
    exact .modCpu s _
  | dtagcmp => exact within_onCpu (hkeep h)
  | drain => exact hsome h ▸ .modCpu s _
  | dcache => exact within_dcacheStage (hkeep h)
  | memaddr => exact hsome h ▸ .modCpu s _
  | front =>
    simp only [Machine.runPhase] at h
    split at h
    · exact hsome h ▸ .refl s
    · exact within_onCpu (hkeep h)

end Godson
