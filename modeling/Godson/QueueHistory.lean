import Godson.QueueInvariant

/-! The load/store queue from the point of view of one entry: what a step of the machine can do
to it, who is older than it, and that an entry marked for exception stays so until it is
cancelled. -/
namespace Godson

open LsqPart

variable {cfg : Config} {k n d e : Nat} {c c' : Cpu}

theorem load_not_store {l : LsqEntry} (load : l.opLoad) : l.opStore = false := by
  unfold LsqEntry.opLoad LsqEntry.opStore at *
  cases hop : l.op <;> simp [hop, MemOp.isLoad] at load <;> rfl

theorem store_not_load {l : LsqEntry} (store : l.opStore) : l.opLoad = false := by
  unfold LsqEntry.opLoad LsqEntry.opStore at *
  cases hop : l.op <;> simp [hop, MemOp.isStore] at store <;> rfl

/-- The core is at the tag compare of `lsq_stage`. -/
def AtCompare (place : Option (Phase × Locals)) : Prop := ∃ loc, place = some (.dtagcmp, loc)

/-- Operation `i` is about to pass its tag compare. -/
structure Cpu.Compares (c : Cpu) (place : Option (Phase × Locals)) (i : Nat) : Prop where
  place : AtCompare place
  alone : c.lsqDtagcmpRefill = none
  names : c.lsqDtagcmpi = some i

/-- One state after the other, without the two the data cache stage and the tag compare set. -/
inductive LsqEntry.Next (ex : Bool) : LsqState → LsqState → Prop
  | issue : Next ex .enter .issue
  | dcache : Next ex .issue .dcache
  | writeback : Next ex .readcache .writeback
  | commit (clean : ex = false) : Next ex .writeback .commit
  | delay1 : Next ex .commit .delay1

/-- What one step does to one entry. `scan` holds at the tag compare stage, `now` when it is the
turn of this entry. -/
inductive LsqEntry.Moves (scan now : Prop) (l l' : LsqEntry) : Prop
  | keep (same : l' = l)
  | advance (rest : l' = { l with state := l'.state }) (next : Next l.ex l.state l'.state)
  | probe (old : l.state = .dcache) (paddr : Nat) (blk : Option BlkRef)
      (new : l' = l.probed paddr blk .noReq)
  | scan (now : scan) (same : l.Scanned l')
  | compare (turn : now) (old : l.state = .dtagcmp) (same : l.atCompare.Scanned l')
  | leave (empty : l'.state = .empty)
  | enter (old : l.state = .empty) (new : l'.state = .enter) (clean : l'.ex = false)

namespace LsqEntry.Moves

variable {scan now : Prop} {l l' : LsqEntry}

/-- Entry `i` becomes `x` without a tag compare, the others stay. -/
theorem update {q q' : LsqPart} {i : Nat} {x : LsqEntry}
    (entry : q'.entry = Function.update q.entry i x) (self : Moves scan False (q.entry i) x)
    (j : Nat) : Moves scan now (q.entry j) (q'.entry j) := by
  rw [entry]
  by_cases hj : j = i
  · subst hj
    rw [Function.update_self]
    cases self with
    | keep same => exact .keep same
    | advance rest next => exact .advance rest next
    | probe old paddr blk new => exact .probe old paddr blk new
    | scan now same => exact .scan now same
    | compare turn => exact turn.elim
    | leave empty => exact .leave empty
    | enter old new clean => exact .enter old new clean
  · rw [Function.update_of_ne hj]
    exact .keep rfl

/-- An entry that stays in use is the same operation. -/
theorem op (h : Moves scan now l l') (old : l.state ≠ .empty) (new : l'.state ≠ .empty) :
    l'.op = l.op := by
  cases h with
  | keep same => rw [same]
  | advance rest => rw [rest]
  | probe _ _ _ same => rw [same]; rfl
  | scan _ same => exact same.op
  | compare _ _ same => exact same.op
  | leave empty => exact absurd empty new
  | enter empty => exact absurd empty old

/-- The mark for exception stays. -/
theorem ex (h : Moves scan now l l') (old : l.state ≠ .empty) (new : l'.state ≠ .empty)
    (hex : l.ex) : l'.ex := by
  cases h with
  | keep same => rw [same]; exact hex
  | advance rest => rw [rest]; exact hex
  | probe _ _ _ same => rw [same]; exact hex
  | scan _ same => exact same.ex hex
  | compare _ _ same => exact same.ex hex
  | leave empty => exact absurd empty new
  | enter empty => exact absurd empty old

/-- An entry marked for exception does not commit. -/
theorem uncommitted (h : Moves scan now l l') (hex : l.ex)
    (old : l.state ≠ .empty ∧ l.state ≠ .commit ∧ l.state ≠ .delay1) :
    l'.state ≠ .commit ∧ l'.state ≠ .delay1 := by
  cases h with
  | keep same => rw [same]; exact old.2
  | advance _ next =>
    generalize l.state = a at next old
    generalize l'.state = b at next
    cases next with
    | commit clean => rw [hex] at clean; cases clean
    | delay1 => exact absurd rfl old.2.1
    | _ => simp
  | probe _ _ _ same => rw [same]; simp [LsqEntry.probed]
  | scan _ same => rw [same.state]; exact old.2
  | compare _ _ same => rw [same.state]; simp [LsqEntry.atCompare]
  | leave empty => simp [empty]
  | enter empty => exact absurd empty old.1

/-- An entry passes the tag compare only when it is its turn. -/
theorem compared (h : Moves scan now l l') (new : l'.state.compared) : l.state.compared ∨ now := by
  cases h with
  | keep same => rw [← same]; exact .inl new
  | advance _ next =>
    generalize l.state = a at next
    generalize l'.state = b at next new
    cases next with
    | issue => cases new
    | dcache => cases new
    | _ => exact .inl rfl
  | probe _ _ _ same => rw [same] at new; cases new
  | scan _ same => rw [← same.state]; exact .inl new
  | compare turn => exact .inr turn
  | leave empty => rw [empty] at new; cases new
  | enter _ enter => rw [enter] at new; cases new

/-- An entry that has not written back had not done so before. -/
theorem beforeWriteback (h : Moves scan now l l') (old : l.state ≠ .empty)
    (new : l'.state ≠ .empty) (before : l'.state.beforeWriteback) : l.state.beforeWriteback := by
  cases h with
  | keep same => rw [← same]; exact before
  | advance _ next =>
    generalize l.state = a at next
    generalize l'.state = b at next before
    cases next with
    | commit => cases before
    | delay1 => cases before
    | _ => rfl
  | probe old => rw [old]; rfl
  | scan _ same => rw [← same.state]; exact before
  | compare _ old => rw [old]; rfl
  | leave empty => exact absurd empty new
  | enter empty => exact absurd empty old

end LsqEntry.Moves

variable {place place' : Option (Phase × Locals)}

theorem moves_op (h : LsqOp cfg c c') (wf : c.lsqPart.WellFormed cfg.lsqIfqSize) (i : Nat) :
    (c.lsqPart.entry i).Moves (AtCompare place) (c.Compares place i) (c'.lsqPart.entry i) := by
  cases h with
  | keep same =>
    rw [same]
    exact .keep rfl
  | enqueue op addr h =>
    obtain ⟨room, spec⟩ := lsqPart_enqueue h
    obtain ⟨d, e, hs⟩ := wf.shape
    have free : (c.lsqPart.entry c.lsqPart.tail).state = .empty := by
      by_contra occupied
      rw [hs.tail_eq] at occupied
      exact lt_irrefl _ ((hs.present _ room).mp occupied)
    rw [spec]
    exact .update rfl (.enter free rfl rfl) i
  | issue j h =>
    obtain ⟨enter, -, spec⟩ := lsqPart_issue h
    rw [spec]
    exact .update rfl (.advance rfl (enter ▸ .issue)) i
  | writeback h =>
    obtain ⟨j, -, ready, spec⟩ := lsqPart_writeback h
    rw [spec]
    exact .update rfl (.advance rfl (ready ▸ .writeback)) i
  | commit h =>
    obtain ⟨j, -, written, clean, spec⟩ := lsqPart_commit h
    rw [spec]
    exact .update rfl (.advance rfl (written ▸ .commit clean)) i
  | cancel h =>
    obtain ⟨j, -, -, -, -, spec⟩ := lsqPart_cancel h
    rw [spec]
    exact .update rfl (.leave rfl) i

theorem LsqEntry.Drained.moves {scan now : Prop} {l l' : LsqEntry} (h : l.Drained l') :
    l.Moves scan now l' := by
  obtain same | ⟨old, new⟩ | ⟨-, new⟩ := h.state
  · refine .keep ?_
    rw [h.rest, same]
  · exact .advance h.rest (by rw [old, new]; exact .delay1)
  · exact .leave new

/-- What one step of the machine does to an entry of the queue. -/
theorem moves_step (h : LsqStep cfg k place c place' c')
    (inv : c.lsqPart.Invariant cfg.lsqIfqSize place) (i : Nat) :
    (c.lsqPart.entry i).Moves (AtCompare place) (c.Compares place i) (c'.lsqPart.entry i) := by
  obtain ⟨wf, timely⟩ := inv
  cases h with
  | rest same => rw [same]; exact .keep rfl
  | start same => rw [same]; exact .keep rfl
  | quiet _ _ same => rw [same]; exact .keep rfl
  | refill core => rw [lsqPart_of_core core]; exact .keep rfl
  | select => exact .keep rfl
  | write h => rw [(lsqPart_dcachewrite h).1]; exact .keep rfl
  | @compare loc _ _ h =>
    obtain ⟨p, at_p, spec⟩ | ⟨j, idle, at_j, rfl⟩ | ⟨idle, none, rfl⟩ := dtagcmp_cases h
    · refine .scan ⟨loc, rfl⟩ ?_
      rw [spec]
      simp only [Cpu.scanned]
      split
      · have scanned := p.scanned c (c.lsq i)
        exact ⟨scanned.state, scanned.op, scanned.addr, scanned.paddr, scanned.bytemask, scanned.ex,
          scanned.loadspec⟩
      · exact .refl _
    · have swept : (compareEnter j c).Swept (dtagcmpOp cfg j c) := swept_dtagcmpOp j c
      have swept := swept.entry i
      by_cases hi : i = j
      · subst hi
        rw [compareEnter_lsq] at swept
        refine .compare ⟨⟨loc, rfl⟩, idle, at_j⟩ ((wf.stations.dtagcmp i).mp at_j) ?_
        exact ⟨swept.state, swept.op, swept.addr, swept.paddr, swept.bytemask, swept.ex, swept.loadspec⟩
      · obtain ⟨entry, wtbki, spec, -, others⟩ := lsqPart_dtagcmpOp cfg j c
        rw [spec]
        exact .scan ⟨loc, rfl⟩ (others i hi)
    · exact .keep rfl
  | drain =>
    obtain ⟨d, e, hs⟩ := wf.shape
    exact ((drain_spec hs (timely.write _ rfl (.inr rfl))).2.entry i).moves
  | @probe loc _ _ j idle at_j same =>
    obtain ⟨paddr, blk, spec⟩ := lsqPart_dcacheOp cfg k j c
    rw [same, spec]
    exact .update rfl (.probe ((wf.stations.dcache j).mp at_j) paddr blk rfl) i
  | pass _ _ same => rw [same]; exact .keep rfl
  | bubble _ _ same => rw [same]; exact .keep rfl
  | forward =>
    obtain ⟨p, at_p, spec⟩ | ⟨j, idle, at_j, spec⟩ | ⟨idle, none, spec⟩ := lsqPart_memaddr c
    · rw [spec]; exact .keep rfl
    · have issued := (wf.stations.issue j).mp at_j
      rw [spec]
      exact .update rfl (.advance rfl (issued ▸ .dcache)) i
    · rw [spec]; exact .keep rfl
  | op h => exact moves_op h wf i
  | done same => rw [same]; exact .keep rfl

/-- A step at the tag compare stage is the tag compare. -/
theorem compare_step (h : LsqStep cfg k place c place' c') (now : AtCompare place) :
    dtagcmp cfg k c = some c' := by
  obtain ⟨loc, hloc⟩ := now
  cases h with
  | compare h => exact h
  | quiet outside =>
    cases hloc
    cases outside
  | op _ pipeline =>
    cases hloc
    obtain h | h := pipeline <;> cases h
  | _ => cases hloc

/-- The turn of an operation. -/
theorem Cpu.Compares.step {i : Nat} (h : LsqStep cfg k place c place' c') (turn : c.Compares place i) :
    c' = dtagcmpOp cfg i c := by
  obtain ⟨p, at_p, -⟩ | ⟨j, -, at_j, spec⟩ | ⟨-, idle, -⟩ := dtagcmp_cases (compare_step h turn.place)
  · rw [turn.alone] at at_p
    cases at_p
  · obtain rfl := Option.some.inj (at_j.symm.trans turn.names)
    exact spec
  · rw [turn.names] at idle
    cases idle

/-! ### Program order -/

/-- Entry `i` is older than entry `j`. -/
def LsqPart.Before (n : Nat) (q : LsqPart) (i j : Nat) : Prop :=
  ∃ a b, a < b ∧ b < q.num ∧ i = slot n q.head1 a ∧ j = slot n q.head1 b

theorem LsqPart.Before.live {q : LsqPart} {i j : Nat} (h : q.Before n i j) (hs : q.Shape n d e) :
    (q.entry i).state ≠ .empty ∧ (q.entry j).state ≠ .empty := by
  obtain ⟨a, b, hab, hb, rfl, rfl⟩ := h
  have := hs.num_le
  exact ⟨(hs.present a (by omega)).mpr (by omega), (hs.present b (by omega)).mpr hb⟩

theorem LsqPart.Before.scanned {q : LsqPart} {i j : Nat} (h : q.Before n i j) (hs : q.Shape n d e) :
    i ∈ ringBefore n j q.head1 := by
  obtain ⟨a, b, hab, hb, rfl, rfl⟩ := h
  exact (mem_ringBefore hs.head1_lt (lt_of_lt_of_le hb hs.num_le)).mpr ⟨a, hab, rfl⟩

variable (cfg) in
theorem drainLoads_ends (j i : Nat) (c : Cpu) :
    (drainLoads cfg j i c).lsqHead1 = c.lsqHead1 ∧ (drainLoads cfg j i c).lsqNum = c.lsqNum := by
  induction j generalizing i c with
  | zero => exact ⟨rfl, rfl⟩
  | succ j ih =>
    unfold drainLoads
    split
    · exact ih _ _
    · exact ⟨rfl, rfl⟩

variable (cfg) in
theorem drain_ends (loc : Locals) (c : Cpu) :
    (drain cfg loc c).lsqHead1 = (freeDone cfg c).lsqHead1 ∧
      (drain cfg loc c).lsqNum = (freeDone cfg c).lsqNum := by
  simp only [drain]
  split
  · exact drainLoads_ends ..
  · exact ⟨rfl, rfl⟩

/-- The order of the entries that stay is the same, and a new one is younger than all. -/
theorem before_step {i j : Nat} (h : LsqStep cfg k place c place' c')
    (inv : c.lsqPart.Invariant cfg.lsqIfqSize place) (new : c'.lsqPart.Before cfg.lsqIfqSize i j) :
    c.lsqPart.Before cfg.lsqIfqSize i j ∨ (c'.lsqPart.entry j).state = .enter := by
  have keep : c.lsqPart.SameEnds c'.lsqPart → c.lsqPart.Before cfg.lsqIfqSize i j := by
    intro ends
    rwa [LsqPart.Before, ends.head1, ends.num] at new
  have same : c'.lsqPart = c.lsqPart → c.lsqPart.Before cfg.lsqIfqSize i j := by
    intro same
    rwa [same] at new
  obtain ⟨⟨⟨d, e, hs⟩, hr⟩, timely⟩ := inv
  cases h with
  | rest h => exact .inl (same h)
  | start h => exact .inl (same h)
  | quiet _ _ h => exact .inl (same h)
  | refill core => exact .inl (keep (lsqPart_of_core core ▸ ⟨rfl, rfl, rfl, rfl⟩))
  | select => exact .inl (keep ⟨rfl, rfl, rfl, rfl⟩)
  | write h => exact .inl (same (lsqPart_dcachewrite h).1)
  | compare h =>
    obtain ⟨p, -, spec⟩ | ⟨j, -, -, rfl⟩ | ⟨-, -, rfl⟩ := dtagcmp_cases h
    · exact .inl (keep (spec ▸ ⟨rfl, rfl, rfl, rfl⟩))
    · obtain ⟨entry, wtbki, spec, -, -⟩ := lsqPart_dtagcmpOp cfg j c
      exact .inl (keep (spec ▸ ⟨rfl, rfl, rfl, rfl⟩))
    · exact .inl new
  | drain =>
    rename_i loc
    have part := lsqPart_freeDone hs
    obtain ⟨a, b, hab, hb, rfl, rfl⟩ := new
    obtain ⟨head1, num⟩ := drain_ends cfg loc c
    have head1 : (drain cfg loc c).lsqPart.head1 = slot cfg.lsqIfqSize c.lsqHead1 d :=
      head1.trans (congrArg LsqPart.head1 part)
    have num : (drain cfg loc c).lsqPart.num = c.lsqNum - d := num.trans (congrArg LsqPart.num part)
    rw [head1, slot_slot, slot_slot]
    exact .inl ⟨d + a, d + b, by omega, show d + b < c.lsqNum by omega, rfl, rfl⟩
  | probe _ _ h =>
    rename_i loc j _ _
    obtain ⟨paddr, blk, spec⟩ := lsqPart_dcacheOp cfg k j c
    exact .inl (keep (h.trans spec ▸ ⟨rfl, rfl, rfl, rfl⟩))
  | pass _ _ h => exact .inl (keep (h ▸ ⟨rfl, rfl, rfl, rfl⟩))
  | bubble _ _ h => exact .inl (same h)
  | forward =>
    obtain ⟨p, -, spec⟩ | ⟨j, -, -, spec⟩ | ⟨-, -, spec⟩ := lsqPart_memaddr c
    · exact .inl (keep (spec ▸ ⟨rfl, rfl, rfl, rfl⟩))
    · exact .inl (keep (spec ▸ ⟨rfl, rfl, rfl, rfl⟩))
    · exact .inl (same spec)
  | op h =>
    cases h with
    | keep h => exact .inl (same h)
    | enqueue op addr h =>
      obtain ⟨room, spec⟩ := lsqPart_enqueue h
      rw [spec] at new ⊢
      obtain ⟨a, b, hab, hb, rfl, rfl⟩ := new
      by_cases last : b = c.lsqPart.num
      · have tail : slot cfg.lsqIfqSize c.lsqPart.head1 b = c.lsqPart.tail := by
          rw [last, hs.tail_eq]
        refine .inr ?_
        change ((c.lsqPart.set c.lsqPart.tail (LsqEntry.entered op addr)).entry
          (slot cfg.lsqIfqSize c.lsqPart.head1 b)).state = .enter
        simp [tail, LsqPart.set, LsqEntry.entered]
      · exact .inl ⟨a, b, hab, lt_of_le_of_ne (Nat.le_of_lt_succ hb) last, rfl, rfl⟩
    | issue j h => exact .inl (keep ((lsqPart_issue h).2.2 ▸ ⟨rfl, rfl, rfl, rfl⟩))
    | writeback h =>
      obtain ⟨j, -, -, spec⟩ := lsqPart_writeback h
      exact .inl (keep (spec ▸ ⟨rfl, rfl, rfl, rfl⟩))
    | commit h =>
      obtain ⟨j, -, -, -, spec⟩ := lsqPart_commit h
      exact .inl (keep (spec ▸ ⟨rfl, rfl, rfl, rfl⟩))
    | cancel h =>
      obtain ⟨j, -, -, -, -, spec⟩ := lsqPart_cancel h
      rw [spec] at new
      obtain ⟨a, b, hab, hb, rfl, rfl⟩ := new
      exact .inl ⟨a, b, hab, lt_of_lt_of_le hb (Nat.sub_le _ 1), rfl, rfl⟩
  | done h => exact .inl (same h)

/-! ### Runs in which an entry stays in use -/

namespace Machine

/-- Steps from one state to another, with `keep` in every state behind the first. -/
inductive Path (cfg : Config) (keep : Sys → Prop) (s : Sys) : Sys → Prop
  | refl : Path cfg keep s s
  | step {t u : Sys} {ch : Choice} : Path cfg keep s t → step cfg ch t = some u → keep u →
      Path cfg keep s u

theorem Path.reachable {keep : Sys → Prop} {s t : Sys} (h : Path cfg keep s t)
    (hs : Reachable cfg s) : Reachable cfg t := by
  induction h with
  | refl => exact hs
  | step _ hstep _ ih => exact .step ih trivial hstep

end Machine

/-- Entry `i` of core `k` is in use. -/
def Sys.Occupied (k i : Nat) (s : Sys) : Prop := ((s.cpus k).lsq i).state ≠ .empty

/-- An entry marked for exception never commits: it stays marked until it is cancelled. -/
theorem marked_never_commits {s t : Sys} {i : Nat} (hs : Machine.Reachable cfg s)
    (path : Machine.Path cfg (Sys.Occupied k i) s t) (live : s.Occupied k i)
    (ex : ((s.cpus k).lsq i).ex)
    (pending : ((s.cpus k).lsq i).state ≠ .commit ∧ ((s.cpus k).lsq i).state ≠ .delay1) :
    ((t.cpus k).lsq i).ex ∧ ((t.cpus k).lsq i).state ≠ .commit ∧
      ((t.cpus k).lsq i).state ≠ .delay1 := by
  suffices t.Occupied k i ∧ ((t.cpus k).lsq i).ex ∧ ((t.cpus k).lsq i).state ≠ .commit ∧
      ((t.cpus k).lsq i).state ≠ .delay1 from this.2
  induction path with
  | refl => exact ⟨live, ex, pending⟩
  | step path hstep kept ih =>
    obtain ⟨old, ex, pending⟩ := ih
    have moves := moves_step (lsqStep_of_step hstep k)
      (invariant_reachable (path.reachable hs) k) i
    exact ⟨kept, moves.ex old kept ex, moves.uncommitted ex ⟨old, pending⟩⟩

end Godson
