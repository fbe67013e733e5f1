import Godson.Effects

/-! The load/store queue and its pipeline as `lsq_stage` sees them. Every section of an
activation outside `lsq_stage` leaves them alone, but for the packet a refill puts in. -/
namespace Godson

/-- An entry without the two fields that only steer the request for its block. -/
def LsqEntry.plain (l : LsqEntry) : LsqEntry := { l with fetching := false, req := .noReq }

/-- The load/store queue and the registers of its pipeline. -/
structure LsqPart where
  entry : Nat → LsqEntry
  head1 : Nat
  head : Nat
  tail : Nat
  num : Nat
  issuei : Option Nat
  dcachei : Option Nat
  dtagcmpi : Option Nat
  wtbki : Option Nat
  refill : Option RefillPacket
  dcacheRefill : Option RefillPacket
  dtagcmpRefill : Option RefillPacket

def Cpu.lsqPart (c : Cpu) : LsqPart where
  entry i := (c.lsq i).plain
  head1 := c.lsqHead1
  head := c.lsqHead
  tail := c.lsqTail
  num := c.lsqNum
  issuei := c.lsqIssuei
  dcachei := c.lsqDcachei
  dtagcmpi := c.lsqDtagcmpi
  wtbki := c.lsqWtbki
  refill := c.lsqRefill
  dcacheRefill := c.lsqDcacheRefill
  dtagcmpRefill := c.lsqDtagcmpRefill

/-- All but the packet that waits at address calculation. -/
def Cpu.lsqCore (c : Cpu) : LsqPart := { c.lsqPart with refill := none }

theorem Cpu.lsqCore_congr {c c' : Cpu} (h : c'.lsqPart = c.lsqPart) : c'.lsqCore = c.lsqCore := by
  rw [Cpu.lsqCore, h, Cpu.lsqCore]

/-- The step leaves what `view` shows of every core as it is. -/
structure Sys.Keeps {α : Type} (view : Cpu → α) (s s' : Sys) : Prop where
  eq : ∀ i, view (s'.cpus i) = view (s.cpus i)

namespace Sys.Keeps

variable {α : Type} {view : Cpu → α} {k : Nat} {s s' s'' : Sys}

theorem refl (s : Sys) : Keeps view s s := ⟨fun _ => rfl⟩

theorem trans (h : Keeps view s s') (h' : Keeps view s' s'') : Keeps view s s'' :=
  ⟨fun i => (h'.eq i).trans (h.eq i)⟩

theorem modCpu {f : Cpu → Cpu} (h : view (f (s.cpus k)) = view (s.cpus k)) :
    Keeps view s (s.modCpu k f) := by
  refine ⟨fun i => ?_⟩
  by_cases hi : i = k
  · subst hi
    simpa only [Sys.modCpu, Function.update_self] using h
  · simp only [Sys.modCpu, Function.update_of_ne hi]

/-- A change of the core after a step. -/
theorem andCpu (h : Keeps view s s') {f : Cpu → Cpu} (hf : view (f (s'.cpus k)) = view (s'.cpus k)) :
    Keeps view s (s'.modCpu k f) := h.trans (modCpu hf)

theorem net (s : Sys) (l : List Packet) : Keeps view s { s with net := l } := ⟨fun _ => rfl⟩

/-- An event queued after a step. -/
theorem andQueue (h : Keeps view s s') (delay : Nat) (ev : Event) :
    Keeps view s (s'.queue delay ev) := ⟨h.eq⟩

theorem ite {b : Prop} [Decidable b] (h : Keeps view s s') (h' : Keeps view s s'') :
    Keeps view s (if b then s' else s'') := by
  split
  · exact h
  · exact h'

theorem foldl {β : Type} {f : Sys → β → Sys} (h : ∀ s a, Keeps view s (f s a)) (l : List β)
    (s : Sys) : Keeps view s (l.foldl f s) := by
  induction l generalizing s with
  | nil => exact refl s
  | cons a l ih => exact (h s a).trans (ih (f s a))

theorem foldlM {β : Type} {f : Sys → β → Option Sys} (h : ∀ s a s', f s a = some s' → Keeps view s s')
    {l : List β} {s s' : Sys} (hf : l.foldlM f s = some s') : Keeps view s s' := by
  induction l generalizing s with
  | nil =>
    obtain rfl : s = s' := Option.some.inj hf
    exact refl s
  | cons a l ih =>
    rw [List.foldlM_cons] at hf
    obtain ⟨t, ht, hrest⟩ := Option.bind_eq_some_iff.mp hf
    exact (h s a t ht).trans (ih hrest)

/-- What a function of one core leaves. -/
theorem onCpu {f : Cpu → Option Cpu} (hf : ∀ c c', f c = some c' → view c' = view c)
    (h : Machine.onCpu k f s = some s') : Keeps view s s' := by
  obtain ⟨c, hc, rfl⟩ := Option.map_eq_some_iff.mp h
  exact modCpu (hf _ _ hc)

end Sys.Keeps

/-- The queue of every core is as before. -/
abbrev Sys.Quiet (s s' : Sys) : Prop := Sys.Keeps Cpu.lsqPart s s'

theorem Sys.Quiet.core {s s' : Sys} (h : s.Quiet s') : Sys.Keeps Cpu.lsqCore s s' :=
  ⟨fun i => Cpu.lsqCore_congr (h.eq i)⟩

theorem foldl_keeps {α β : Type} {view : Cpu → α} {f : Cpu → β → Cpu}
    (h : ∀ c a, view (f c a) = view c) (l : List β) (c : Cpu) : view (l.foldl f c) = view c := by
  induction l generalizing c with
  | nil => rfl
  | cons a l ih => exact (ih (f c a)).trans (h c a)

open Sys

variable {cfg : Config} {k : Nat} {s s' : Sys} {c c' : Cpu}

/-! ### Operations on one core -/

@[simp] theorem lsqPart_modMissq (c : Cpu) (q : Nat) (f : MissEntry → MissEntry) :
    (c.modMissq q f).lsqPart = c.lsqPart := rfl

@[simp] theorem lsqPart_missqChangeState (c : Cpu) (q : Nat) (next : MissState) :
    (missqChangeState c q next).lsqPart = c.lsqPart := by
  unfold missqChangeState
  split_ifs <;> rfl

@[simp] theorem lsqPart_setL1 (c : Cpu) (inst : Bool) (cp : Cache) :
    (c.setL1 inst cp).lsqPart = c.lsqPart := by
  cases inst <;> rfl

theorem lsqPart_wtbkqEnter {cpuid paddr : Nat} {req : Req} {inst intervention : Bool}
    {status : Status} (h : wtbkqEnter cfg c cpuid req paddr inst status intervention = some c') :
    c'.lsqPart = c.lsqPart := by
  obtain ⟨i, -, rfl⟩ := Option.map_eq_some_iff.mp h
  rfl

theorem lsqPart_scacheProbe {simCycle : Nat} {req : Req} {q paddr : Nat}
    (h : scacheProbe cfg simCycle k req q paddr c = some c') : c'.lsqPart = c.lsqPart := by
  have write : ∀ {r}, probeExclusiveWrite c q r = some c' → c'.lsqPart = c.lsqPart := by
    intro r h
    simp only [probeExclusiveWrite] at h
    split_ifs at h <;> obtain rfl := Option.some.inj h <;> simp
  unfold scacheProbe at h
  split at h
  · obtain rfl := Option.some.inj h
    simp [probeMiss]
  · split at h
    · obtain rfl := Option.some.inj h
      simp only [probeExclusiveRead]
      split_ifs <;> simp
    · exact write h
    · exact write h
    · obtain rfl := Option.some.inj h
      simp only [probeSharedRead]
      split
      · simp
      · exact lsqPart_missqChangeState ..
    · simp only [probeSharedWrite] at h
      split_ifs at h <;> obtain rfl := Option.some.inj h <;> simp
    · simp only [probeSharedUpgrade] at h
      split_ifs at h
      obtain rfl := Option.some.inj h
      simp
    · obtain rfl := Option.some.inj h
      rfl

theorem lsqPart_scacheRefill {q : Nat} (h : scacheRefill cfg k q c = some c') :
    c'.lsqPart = c.lsqPart := by
  obtain ⟨r, -, rfl⟩ := Option.map_eq_some_iff.mp h
  exact lsqPart_missqChangeState ..

theorem lsqPart_scacheWriteback {cpuid paddr : Nat} {req : Req} {inst : Bool}
    (h : scacheWriteback cfg cpuid req paddr inst c = some c') : c'.lsqPart = c.lsqPart := by
  simp only [scacheWriteback] at h
  split_ifs at h
  obtain rfl := Option.some.inj h
  rfl

theorem lsqPart_updateCredit (chan : Chan) (c : Cpu) : (updateCredit chan c).lsqPart = c.lsqPart := by
  cases chan <;> rfl

theorem lsqPart_answerModify {inst : Bool} {cpuid : Nat} {l1 : Status} {q : Nat}
    (h : answerModify inst cpuid l1 q c = some c') : c'.lsqPart = c.lsqPart := by
  obtain ⟨r, -, hr⟩ := Option.bind_eq_some_iff.mp h
  simp only at hr
  split_ifs at hr <;> obtain rfl := Option.some.inj hr <;> rfl

theorem lsqPart_answerMiss {inst : Bool} {cpuid : Nat} {l1 : Status} {q : Nat}
    (h : answerMiss inst cpuid l1 q c = some c') : c'.lsqPart = c.lsqPart := by
  obtain ⟨r, -, hr⟩ := Option.bind_eq_some_iff.mp h
  simp only at hr
  split at hr
  · exact absurd hr (by simp)
  · obtain rfl := Option.some.inj hr
    rfl

theorem lsqPart_homeEnter {p : Packet} (h : homeEnter cfg p c = some c') :
    c'.lsqPart = c.lsqPart := by
  have request : enterRequest cfg p c = some c' → c'.lsqPart = c.lsqPart := by
    intro h
    obtain ⟨q, -, rfl⟩ := Option.map_eq_some_iff.mp h
    exact lsqPart_missqChangeState ..
  have notice : enterNotice cfg p c = some c' → c'.lsqPart = c.lsqPart := lsqPart_wtbkqEnter
  have intervention : enterIntervention cfg p c = some c' → c'.lsqPart = c.lsqPart := by
    intro h
    obtain ⟨q, -, rfl⟩ := Option.map_eq_some_iff.mp h
    exact lsqPart_missqChangeState ..
  have response : enterResponse p c = some c' → c'.lsqPart = c.lsqPart := by
    intro h
    simp only [enterResponse] at h
    split_ifs at h
    · exact lsqPart_answerModify h
    · obtain rfl := Option.some.inj h
      simp
    · exact lsqPart_answerMiss h
    · obtain rfl := Option.some.inj h
      rfl
  unfold homeEnter at h
  split at h <;> first
    | exact request h
    | exact notice h
    | exact intervention h
    | exact response h
    | exact (Option.some.inj h) ▸ rfl

theorem lsqPart_checkMemq (c : Cpu) : (checkMemq cfg c).lsqPart = c.lsqPart := by
  have item : ∀ (c : Cpu) m, (checkMemqItem cfg c m).lsqPart = c.lsqPart := by
    intro c m
    simp only [checkMemqItem]
    split_ifs <;> rfl
  unfold checkMemq
  split_ifs
  · rfl
  · exact foldl_keeps item _ _

theorem lsqPart_fetchStage {simCycle addr : Nat} :
    (fetchStage cfg k simCycle addr c).lsqPart = c.lsqPart := by
  simp only [fetchStage]
  split_ifs <;> rfl

theorem lsqPart_conflictCheck (q : Nat) (c : Cpu) :
    (conflictCheck cfg q c).lsqPart = c.lsqPart := by
  refine (foldl_keeps (fun c i => ?_) _ _).trans (lsqPart_modMissq c q _)
  split_ifs <;> rfl

theorem lsqPart_memqEnter (c : Cpu) (read : Bool) (q : Nat) :
    (memqEnter cfg c read q).1.lsqPart = c.lsqPart := by
  unfold memqEnter
  split_ifs <;> rfl

theorem lsqPart_memread (q : Nat) (c : Cpu) : (memread cfg q c).lsqPart = c.lsqPart := by
  simp only [memread]
  split
  · rfl
  · exact lsqPart_memqEnter c true q

/-! ### Accepting a miss -/

/-- Clearing the request of an entry that only changed in it gives back what was there. -/
theorem lsqPart_modLsq {i : Nat} {f : LsqEntry → LsqEntry}
    (h : (f (c.lsq i)).plain = (c.lsq i).plain) : (c.modLsq i f).lsqPart = c.lsqPart := by
  have entry : (fun j => ((c.modLsq i f).lsq j).plain) = fun j => (c.lsq j).plain := by
    funext j
    by_cases hj : j = i
    · subst hj
      simpa only [Cpu.modLsq, Function.update_self] using h
    · simp only [Cpu.modLsq, Function.update_of_ne hj]
  simp only [Cpu.lsqPart, entry]
  rfl

theorem lsqPart_mergeScan (li : Nat) (l : List Nat) (c : Cpu) (up : Bool) :
    (mergeScan k li l c up).1.lsqPart = c.lsqPart := by
  induction l generalizing c up with
  | nil => rfl
  | cons i is ih =>
    simp only [mergeScan]
    split_ifs
    · exact (ih _ _).trans (lsqPart_modLsq rfl)
    · rfl
    · rfl
    · rfl
    · exact ih c up

theorem lsqPart_missEnter (q : Nat) (inst : Bool) (req : Req) (paddr : Nat) (c : Cpu) :
    (missEnter k c q inst req paddr).lsqPart = c.lsqPart :=
  lsqPart_missqChangeState c q .l1Miss

theorem lsqPart_acceptData (q li : Nat) (c : Cpu) :
    (acceptData cfg k q li c).lsqPart = c.lsqPart := by
  simp only [acceptData]
  refine (lsqPart_modLsq (i := li) (f := fun l => { l with fetching := true }) rfl).trans ?_
  split
  · exact (lsqPart_missEnter ..).trans (lsqPart_mergeScan ..)
  · exact lsqPart_mergeScan ..

theorem lsqPart_accept (loc : Locals) (c : Cpu) : (accept cfg k loc c).lsqPart = c.lsqPart := by
  unfold accept
  split
  · rfl
  · split
    · split
      · exact lsqPart_acceptData ..
      · split
        · simp only [acceptInst]
          split
          · exact lsqPart_missEnter (k := k) _ true .readShd c.irepbuf.paddr c
          · rfl
        · rfl
    · rfl

/-! ### The sections -/

theorem quiet_nocRequest (chan : Chan) (req : Req) (status : Status) (qid target paddr : Nat)
    (inst : Bool) : s.Quiet (nocRequest cfg k s chan req status qid target paddr inst) :=
  .net s _

theorem quiet_deliver {chan : Chan} {choice : Option Nat}
    (h : Machine.deliver cfg k chan choice s = some s') : s.Quiet s' := by
  unfold Machine.deliver at h
  split at h
  · obtain rfl := Option.some.inj h
    exact .refl s
  · obtain ⟨p, -, hp⟩ := Option.bind_eq_some_iff.mp h
    split at hp
    · exact (Sys.Keeps.net s _).trans (.onCpu (fun _ _ hc => lsqPart_homeEnter hc) hp)
    · exact absurd hp (by simp)

theorem quiet_releaseWtbk (i : Nat) : s.Quiet (releaseWtbk k i s) :=
  (Sys.Keeps.modCpu rfl).andQueue _ _

theorem quiet_freeEntry (q : Nat) : s.Quiet (freeEntry k q s) :=
  (Sys.Keeps.modCpu (lsqPart_missqChangeState (s.cpus k) q .empty)).andQueue _ _

theorem quiet_replaceBlock {inst : Bool} {bindex : Option Nat} {paddr : Nat} {req : Req}
    {intervention : Bool} {newStatus : Status} {r : BlkRef}
    (h : replaceBlock cfg s k inst bindex paddr req intervention newStatus = some (s', r)) :
    s.Quiet s' := by
  simp only [replaceBlock] at h
  split at h
  · exact absurd h (by simp)
  · split at h
    · obtain ⟨c, hc, hs⟩ := Option.map_eq_some_iff.mp h
      obtain ⟨rfl, -⟩ := Prod.mk.inj hs
      exact .modCpu ((lsqPart_setL1 ..).trans (lsqPart_wtbkqEnter hc))
    · obtain ⟨rfl, -⟩ := Prod.mk.inj (Option.some.inj h)
      exact (Sys.Keeps.modCpu (f := fun c => { c.setL1 inst _ with wtbkqNum := c.wtbkqNum - 1 })
        (lsqPart_setL1 ..)).andQueue _ _

theorem quiet_issue {room : Bool} {loc loc' : Locals}
    (h : issue cfg k room loc s = some (s', loc')) : s.Quiet s' := by
  unfold issue at h
  split at h
  · obtain ⟨rfl, -⟩ := Prod.mk.inj (Option.some.inj h)
    exact .refl s
  · simp only at h
    split_ifs at h
    · obtain ⟨rfl, -⟩ := Prod.mk.inj (Option.some.inj h)
      exact .refl s
    · obtain ⟨rfl, -⟩ := Prod.mk.inj (Option.some.inj h)
      exact .modCpu rfl
    · obtain ⟨rfl, -⟩ := Prod.mk.inj (Option.some.inj h)
      exact (Sys.Keeps.modCpu rfl).trans
        ((Sys.Keeps.modCpu (lsqPart_missqChangeState _ _ .readL2)).andQueue _ _)
    · obtain ⟨rfl, -⟩ := Prod.mk.inj (Option.some.inj h)
      simp only [issueRemote]
      exact (Sys.Keeps.modCpu rfl).trans
        ((quiet_nocRequest ..).andCpu (lsqPart_missqChangeState ..))
    · obtain ⟨rfl, -⟩ := Prod.mk.inj (Option.some.inj h)
      exact .modCpu rfl

theorem quiet_reprobe {loc loc' : Locals} (h : reprobe cfg k loc s = some (s', loc')) :
    s.Quiet s' := by
  unfold reprobe at h
  split at h
  · obtain ⟨rfl, -⟩ := Prod.mk.inj (Option.some.inj h)
    exact .refl s
  · simp only at h
    split_ifs at h
    · obtain ⟨c, hc, hs⟩ := Option.map_eq_some_iff.mp h
      obtain ⟨rfl, -⟩ := Prod.mk.inj hs
      exact .modCpu (lsqPart_scacheProbe hc)
    · obtain ⟨rfl, -⟩ := Prod.mk.inj (Option.some.inj h)
      exact .refl s

theorem quiet_wtbkqAnswer (q i : Nat) : s.Quiet (wtbkqAnswer k q i s) := by
  unfold wtbkqAnswer
  refine Sys.Keeps.andCpu ?_ (lsqPart_missqChangeState ..)
  exact .ite (.modCpu rfl) ((Sys.Keeps.modCpu rfl).trans (quiet_releaseWtbk i))

theorem quiet_checkExternal (q : Nat) (loc : Locals) :
    s.Quiet (checkExternal cfg k q loc s).1 := by
  have hcheck : s.Quiet (if ((s.cpus k).missq q).conflictChecked then s
      else s.modCpu k (conflictCheck cfg q)) :=
    .ite (.refl s) (.modCpu (lsqPart_conflictCheck ..))
  unfold checkExternal
  generalize (if ((s.cpus k).missq q).conflictChecked then s
    else s.modCpu k (conflictCheck cfg q)) = t at hcheck
  simp only
  split
  · exact hcheck
  · dsimp only
    refine (hcheck.trans ?_).andCpu rfl
    split
    · exact quiet_wtbkqAnswer q _
    · exact .refl _

theorem quiet_sendIntervention (q : Nat) (type : Req) (paddr : Nat) (target : Nat × Bool) :
    s.Quiet (sendIntervention cfg k q type paddr target s) :=
  (quiet_nocRequest ..).andCpu rfl

theorem quiet_modifyHome {room : Bool} {q : Nat} (h : modifyHome cfg k room q s = some s') :
    s.Quiet s' := by
  obtain ⟨r, -, rfl⟩ := Option.map_eq_some_iff.mp h
  have done : ∀ c : Cpu, (modifyDone k q r c).lsqPart = c.lsqPart :=
    fun c => lsqPart_missqChangeState ..
  dsimp only
  cases interventionTarget cfg k ((s.cpus k).missq q) (((s.cpus k).l2.blks r).status == .shared) with
  | none => exact .ite (.modCpu (done _)) (.refl s)
  | some target =>
    dsimp only
    have hsend : s.Quiet (sendIntervention cfg k q ((s.cpus k).missq q).interventionType
        ((s.cpus k).missq q).paddr target s) := quiet_sendIntervention ..
    exact .ite ((Sys.Keeps.ite hsend (.refl s)).andCpu (done _)) (.ite hsend (.refl s))

theorem quiet_modifyL1 {room : Bool} {loc loc' : Locals}
    (h : modifyL1 cfg k room loc s = some (s', loc')) : s.Quiet s' := by
  unfold modifyL1 at h
  split at h
  · obtain ⟨rfl, -⟩ := Prod.mk.inj (Option.some.inj h)
    exact .refl s
  · simp only at h
    split_ifs at h
    · obtain ⟨rfl, -⟩ := Prod.mk.inj (Option.some.inj h)
      exact (quiet_checkExternal ..).andCpu rfl
    · obtain ⟨t, ht, hs⟩ := Option.map_eq_some_iff.mp h
      obtain ⟨rfl, -⟩ := Prod.mk.inj hs
      exact (quiet_modifyHome ht).andCpu rfl

theorem quiet_l2Miss {room : Bool} {loc loc' : Locals}
    (h : l2Miss cfg k room loc s = some (s', loc')) : s.Quiet s' := by
  unfold l2Miss at h
  split at h
  · obtain ⟨rfl, -⟩ := Prod.mk.inj (Option.some.inj h)
    exact .refl s
  · rename_i q _
    obtain ⟨r, -, hs⟩ := Option.map_eq_some_iff.mp h
    obtain ⟨rfl, -⟩ := Prod.mk.inj hs
    have rest : ∀ t : Sys, t.Quiet (t.modCpu k (memread cfg q)) :=
      fun t => .modCpu (lsqPart_memread ..)
    have changed : ∀ t : Sys, t.Quiet
        ((t.modCpu k (memread cfg q)).modCpu k fun c => missqChangeState c q .memref) :=
      fun t => (rest t).andCpu (lsqPart_missqChangeState ..)
    cases interventionTarget cfg k ((s.cpus k).missq q)
        (((s.cpus k).l2.blks r).status == .shared) with
    | none => exact .ite (changed s) (rest s)
    | some target =>
      dsimp only
      have hsend : s.Quiet (sendIntervention cfg k q .interventionExc
          ((s.cpus k).missq q).l2ReplacePaddr target s) := quiet_sendIntervention ..
      exact .ite ((Sys.Keeps.ite hsend (.refl s)).trans (changed _))
        ((Sys.Keeps.ite hsend (.refl s)).trans (rest _))

theorem quiet_memref (loc : Locals) : s.Quiet (memref k loc s) := by
  unfold memref
  split
  · exact .refl s
  · exact .ite (.modCpu (lsqPart_missqChangeState ..)) (.refl s)

theorem quiet_refillL2 {loc : Locals} (h : refillL2 cfg k loc s = some s') : s.Quiet s' := by
  unfold refillL2 at h
  split at h
  · obtain rfl := Option.some.inj h
    exact .refl s
  · obtain ⟨r, -, rfl⟩ := Option.map_eq_some_iff.mp h
    refine .ite (.ite (.refl s) (Sys.Keeps.andQueue ?_ _ _)) (.modCpu (lsqPart_memqEnter ..))
    exact .modCpu rfl

theorem quiet_wtbkDeliver {i q : Nat} (h : wtbkDeliver cfg k i q s = some s') : s.Quiet s' := by
  simp only [wtbkDeliver] at h
  split_ifs at h
  · obtain rfl := Option.some.inj h
    exact .refl s
  · obtain ⟨c, hc, rfl⟩ := Option.map_eq_some_iff.mp h
    exact (Sys.Keeps.modCpu ((lsqPart_scacheWriteback hc).trans rfl)).trans (quiet_releaseWtbk i)
  · obtain ⟨c, hc, rfl⟩ := Option.map_eq_some_iff.mp h
    exact (Sys.Keeps.modCpu (lsqPart_scacheWriteback hc)).trans (quiet_releaseWtbk i)
  · obtain ⟨e, -, rfl⟩ := Option.map_eq_some_iff.mp h
    exact (Sys.Keeps.modCpu rfl).trans (quiet_releaseWtbk i)
  · obtain rfl := Option.some.inj h
    exact (Sys.Keeps.modCpu rfl).trans (quiet_releaseWtbk i)

theorem quiet_wtbkLocal {i : Nat} {loc loc' : Locals}
    (h : wtbkLocal cfg k i loc s = some (s', loc')) : s.Quiet s' := by
  simp only [wtbkLocal] at h
  split_ifs at h
  · obtain ⟨rfl, -⟩ := Prod.mk.inj (Option.some.inj h)
    exact .refl s
  · obtain ⟨rfl, -⟩ := Prod.mk.inj (Option.some.inj h)
    exact (quiet_releaseWtbk i).andQueue _ _
  · obtain ⟨t, ht, hs⟩ := Option.map_eq_some_iff.mp h
    obtain ⟨rfl, -⟩ := Prod.mk.inj hs
    exact .foldlM (fun _ _ _ hq => quiet_wtbkDeliver hq) ht

theorem quiet_wtbkExternal {i : Nat} (h : wtbkExternal cfg k i s = some s') : s.Quiet s' := by
  simp only [wtbkExternal] at h
  split at h
  · exact absurd h (by simp)
  · obtain rfl := Option.some.inj h
    refine Sys.Keeps.trans (.modCpu (foldl_keeps (fun c q => ?_) _ _)) (quiet_releaseWtbk i)
    exact lsqPart_missqChangeState _ q .extrdy

theorem quiet_wtbk {room : Bool} {loc loc' : Locals}
    (h : wtbk cfg k room loc s = some (s', loc')) : s.Quiet s' := by
  simp only [wtbk] at h
  refine (Sys.Keeps.modCpu (s := s) (k := k) (f := fun c =>
    { c with wtbkqLasti := nextIndex cfg.wtbkqIfqSize c.wtbkqLasti }) rfl).trans ?_
  split at h
  · obtain ⟨rfl, -⟩ := Prod.mk.inj (Option.some.inj h)
    exact .refl _
  · split_ifs at h
    · exact quiet_wtbkLocal h
    · obtain ⟨t, ht, hs⟩ := Option.map_eq_some_iff.mp h
      obtain ⟨rfl, -⟩ := Prod.mk.inj hs
      exact quiet_wtbkExternal ht
    · obtain ⟨rfl, -⟩ := Prod.mk.inj (Option.some.inj h)
      exact (quiet_nocRequest ..).trans (quiet_releaseWtbk _)
    · obtain ⟨rfl, -⟩ := Prod.mk.inj (Option.some.inj h)
      exact .refl _

theorem quiet_extrdy {room : Bool} {loc : Locals} (h : extrdy cfg k room loc s = some s') :
    s.Quiet s' := by
  unfold extrdy at h
  split at h
  · obtain rfl := Option.some.inj h
    exact .refl s
  · simp only at h
    split_ifs at h <;> obtain rfl := Option.some.inj h
    · exact (quiet_nocRequest ..).trans (quiet_freeEntry _)
    · exact .refl s
    · exact (quiet_nocRequest ..).trans (quiet_freeEntry _)
    · exact .refl s

theorem quiet_delay : s.Quiet (delay cfg k s) := by
  refine Sys.Keeps.foldl (fun t q => ?_) _ s
  split
  · refine Sys.Keeps.andQueue ?_ _ _
    exact .modCpu rfl
  · exact .modCpu rfl
  · exact .modCpu rfl
  · exact .refl t

/-! ### The refill of the level one caches -/

/-- All but the waiting packet of every core is as before. -/
abbrev Sys.QuietCore (s s' : Sys) : Prop := Sys.Keeps Cpu.lsqCore s s'

theorem quietCore_toDcache (p : RefillPacket) (f : MissEntry → MissEntry) (q : Nat) :
    s.QuietCore (s.modCpu k fun c => (toDcache p c).modMissq q f) := .modCpu rfl

theorem lsqCore_refillStep (c : Cpu) : (refillStep c).lsqCore = c.lsqCore := by
  simp only [refillStep]
  have change : ∀ (c : Cpu) q, (missqChangeState c q .delay1).lsqCore = c.lsqCore :=
    fun c q => Cpu.lsqCore_congr (lsqPart_missqChangeState ..)
  split
  · split
    · rw [change]
      split_ifs <;> rfl
    · split_ifs <;> rfl
  · rfl

theorem quiet_emptyMatch (i : Option Nat) : s.Quiet (emptyMatch k i s) := by
  unfold emptyMatch
  split
  · refine Sys.Keeps.andQueue ?_ _ _
    exact .modCpu rfl
  · exact .refl s

theorem quiet_interveneInst {paddr : Nat} (h : interveneInst cfg k paddr s = some s') :
    s.Quiet s' := by
  obtain ⟨⟨t, r⟩, ht, rfl⟩ := Option.map_eq_some_iff.mp h
  refine ((Sys.Keeps.modCpu rfl).trans (quiet_replaceBlock ht)).trans ?_
  exact .modCpu rfl

theorem lsqPart_killMatch (paddr : Nat) (i : Option Nat) (c : Cpu) :
    (killMatch paddr i c).lsqPart = c.lsqPart := by
  unfold killMatch
  split
  · split_ifs <;> rfl
  · rfl

theorem lsqCore_externalData (q : Nat) (c : Cpu) : (externalData q c).lsqCore = c.lsqCore := by
  have kill := fun paddr i c => Cpu.lsqCore_congr (lsqPart_killMatch paddr i c)
  exact (kill _ _ _).trans (kill _ _ _)

theorem quiet_externalInst {q : Nat} (h : externalInst cfg k q s = some s') : s.Quiet s' := by
  obtain ⟨t, ht, rfl⟩ := Option.map_eq_some_iff.mp h
  refine ((quiet_interveneInst ht).andCpu ?_).trans
    ((quiet_emptyMatch _).trans (quiet_emptyMatch _))
  rfl

theorem quietCore_interveneLocal {q : Nat} {type : Req} {paddr : Nat}
    (h : interveneLocal cfg k q type paddr s = some s') : s.QuietCore s' := by
  simp only [interveneLocal] at h
  split_ifs at h
  · obtain ⟨t, ht, rfl⟩ := Option.map_eq_some_iff.mp h
    exact (quiet_interveneInst ht).core.andCpu rfl
  · obtain rfl := Option.some.inj h
    exact quietCore_toDcache ..
  · obtain rfl := Option.some.inj h
    exact .refl s

theorem quiet_mesiKill {q : Nat} (h : mesiKill cfg k q s = some s') : s.Quiet s' := by
  refine Sys.Keeps.trans (.modCpu rfl) (Sys.Keeps.foldlM (fun t i t' ht => ?_) h)
  simp only at ht
  split_ifs at ht
  · obtain rfl := Option.some.inj ht
    refine Sys.Keeps.andQueue ?_ _ _
    exact .modCpu rfl
  · obtain rfl := Option.some.inj ht
    exact .refl t

theorem quietCore_replaceL1 {q : Nat} (h : replaceL1 cfg k q s = some s') : s.QuietCore s' := by
  simp only [replaceL1] at h
  obtain ⟨t, ht, rfl⟩ := Option.map_eq_some_iff.mp h
  have change : ∀ c : Cpu, (missqChangeState c q .refillL1).lsqCore = c.lsqCore :=
    fun c => Cpu.lsqCore_congr (lsqPart_missqChangeState ..)
  refine Sys.Keeps.andCpu (Sys.Keeps.trans (.modCpu (k := k) (f := fun c =>
    reserveWtbk { c with refilltag := true, refilli := q }) rfl) ?_) (change _)
  split_ifs at ht
  · obtain ⟨⟨u, r⟩, hu, rfl⟩ := Option.map_eq_some_iff.mp ht
    exact (quiet_replaceBlock hu).core.andCpu rfl
  · obtain ⟨u, hu, rfl⟩ := Option.map_eq_some_iff.mp ht
    exact (quiet_mesiKill hu).core.andCpu rfl
  · obtain ⟨u, hu, rfl⟩ := Option.map_eq_some_iff.mp ht
    obtain rfl := Option.some.inj hu
    exact .modCpu rfl

theorem quietCore_refill {loc : Locals} (h : refill cfg k loc s = some s') : s.QuietCore s' := by
  simp only [refill] at h
  refine Sys.Keeps.trans (.modCpu (k := k) (f := fun c =>
    { c with refillDelay := c.refillDelay - 1 }) rfl) ?_
  split at h
  · obtain rfl := Option.some.inj h
    exact .modCpu (lsqCore_refillStep _)
  · split at h
    · split_ifs at h
      · exact (quiet_externalInst h).core
      · obtain rfl := Option.some.inj h
        exact .modCpu (lsqCore_externalData ..)
      · obtain rfl := Option.some.inj h
        exact .refl _
    · obtain ⟨r, -, hr⟩ := Option.bind_eq_some_iff.mp h
      split_ifs at hr
      · exact quietCore_interveneLocal hr
      · obtain rfl := Option.some.inj hr
        exact .refl _
    · exact quietCore_replaceL1 h
    · obtain ⟨r, -, hr⟩ := Option.bind_eq_some_iff.mp h
      split_ifs at hr
      · exact quietCore_interveneLocal hr
      · obtain rfl := Option.some.inj hr
        exact .refl _
    · obtain rfl := Option.some.inj h
      exact .refl _

end Godson
