import Godson.QueueHistory
import Godson.QueueStructure

/-! The order of two loads of a core: which of them carries the mark of a speculative load, and
what an invalidation or a replacement makes of it. -/
namespace Godson

open LsqPart

variable {cfg : Config} {k n d e : Nat} {c c' : Cpu}
  {place place' : Option (Phase × Locals)}

/-- A younger load that has written back before an older one carries the mark. -/
def LsqPart.LoadsMarked (n : Nat) (q : LsqPart) : Prop :=
  ∀ i j, q.Before n i j → (q.entry i).opLoad → (q.entry j).opLoad →
    (q.entry i).state.beforeWriteback → ¬ (q.entry j).state.beforeWriteback → (q.entry j).loadspec

/-- A load passes its tag compare behind all older ones: their values are those of earlier
cycles. -/
def LsqPart.LoadsOrdered (n : Nat) (q : LsqPart) : Prop :=
  ∀ i j, q.Before n i j → (q.entry i).opLoad → (q.entry j).opLoad →
    (q.entry i).state.beforeWriteback → (q.entry j).state.compared = false

/-- No load passes its tag compare while an older load of its queue has not written back. -/
def Machine.ComparesInOrder (cfg : Config) (s : Sys) (_ : Choice) : Prop :=
  ∀ k i, (s.cpus k).Compares (s.place k) i → ((s.cpus k).lsq i).opLoad →
    ∀ j ∈ ringBefore cfg.lsqIfqSize i (s.cpus k).lsqHead1,
      ¬ (((s.cpus k).lsq j).opLoad ∧ ((s.cpus k).lsq j).state.beforeWriteback)

theorem LsqState.compared_or_before (a : LsqState) : a.compared ∨ a.beforeWriteback := by
  cases a with
  | empty | enter | issue | dcache | dtagcmp | readcache => exact .inr rfl
  | writeback | commit | delay1 => exact .inl rfl

theorem LsqPart.LoadsOrdered.marked {q : LsqPart} (h : q.LoadsOrdered n) : q.LoadsMarked n := by
  intro i j before loadi loadj waiting written
  have early := h i j before loadi loadj waiting
  obtain compared | before := (q.entry j).state.compared_or_before
  · rw [early] at compared
    cases compared
  · exact absurd before written

/-- One step keeps the loads in order if its tag compare does. -/
theorem loadsOrdered_step (h : LsqStep cfg k place c place' c')
    (inv : c.lsqPart.Invariant cfg.lsqIfqSize place)
    (ok : ∀ i, c.Compares place i → (c.lsq i).opLoad →
      ∀ j ∈ ringBefore cfg.lsqIfqSize i c.lsqHead1,
        ¬ ((c.lsq j).opLoad ∧ (c.lsq j).state.beforeWriteback))
    (ordered : c.lsqPart.LoadsOrdered cfg.lsqIfqSize) : c'.lsqPart.LoadsOrdered cfg.lsqIfqSize := by
  intro i j new loadi loadj waiting
  obtain ⟨d, e, hs⟩ := inv.wellFormed.shape
  obtain ⟨d', e', hs'⟩ := (invariant_step h inv).1.wellFormed.shape
  obtain ⟨livei', livej'⟩ := new.live hs'
  obtain before | fresh := before_step h inv new
  · obtain ⟨livei, livej⟩ := before.live hs
    have movesi := moves_step h inv i
    have movesj := moves_step h inv j
    have loadi : (c.lsqPart.entry i).opLoad := by
      rwa [LsqEntry.opLoad, movesi.op livei livei'] at loadi
    have loadj : (c.lsqPart.entry j).opLoad := by
      rwa [LsqEntry.opLoad, movesj.op livej livej'] at loadj
    have waiting := movesi.beforeWriteback livei livei' waiting
    have early := ordered i j before loadi loadj waiting
    by_contra passed
    obtain compared | turn := movesj.compared (by simpa using passed)
    · rw [early] at compared
      cases compared
    · exact ok j turn loadj i (before.scanned hs) ⟨loadi, waiting⟩
  · rw [fresh]
    rfl

/-- In a run that compares loads in order they write back in order. -/
theorem loadsOrdered_reachable {s : Sys}
    (h : Machine.RunWith cfg (Machine.ComparesInOrder cfg) s) (k : Nat) :
    (s.cpus k).lsqPart.LoadsOrdered cfg.lsqIfqSize := by
  induction h with
  | initial =>
    rintro i j ⟨a, b, -, hb, -, -⟩
    cases hb
  | step run ok hstep ih =>
    have reachable := run.mono cfg fun _ _ _ => trivial
    exact loadsOrdered_step (lsqStep_of_step hstep k) (invariant_reachable reachable k) (ok k) ih

/-! ### The scans of a replacement and of an intervention -/

/-- The packet takes the block at `paddr` away from the data cache of `c`. -/
def RefillPacket.Takes (p : RefillPacket) (c : Cpu) (paddr : Nat) : Prop :=
  p.replace ∧ blockMatch paddr c.dcache.replacePaddr ∨
    p.replace = false ∧ p.intervention ∧ blockMatch paddr p.paddr

theorem mispec_marks {l : LsqEntry} {paddr : Nat} (load : l.opLoad) (spec : l.loadspec)
    (written : l.state = .writeback) (block : blockMatch l.paddr paddr) : (l.mispec paddr).ex := by
  rw [LsqEntry.mispec, if_pos ⟨load, spec, written, block⟩]

/-- The scan marks a speculative load that has written back and loses its block. -/
theorem scan_marks {p : RefillPacket} {l : LsqEntry} (load : l.opLoad) (spec : l.loadspec)
    (written : l.state = .writeback) (takes : p.Takes c l.paddr) : (p.scan c l).ex := by
  have store := load_not_store load
  unfold RefillPacket.scan
  obtain ⟨replace, block⟩ | ⟨replace, intervention, block⟩ := takes
  · rw [if_pos replace, LsqEntry.onReplace, if_neg (by simp [store])]
    exact mispec_marks load spec written block
  · rw [if_neg (by simp [replace]), if_pos intervention, LsqEntry.onIntervention,
      if_neg (by simp [store]), if_neg (by simp [written])]
    exact mispec_marks load spec written block

/-- Every entry in use behind the commit head is scanned. -/
theorem LsqPart.Shape.scanned {q : LsqPart} {i : Nat} (hs : q.Shape n d e)
    (live : (q.entry i).state ≠ .empty) (undrained : (q.entry i).state ≠ .delay1) :
    i ∈ ring n q.head q.tail := by
  obtain ⟨j, hj, rfl⟩ := hs.exists_nth live
  have bound := lt_of_lt_of_le hj hs.num_le
  have behind := mt (hs.drained j bound).mpr undrained
  rw [hs.head_eq, hs.tail_eq]
  exact mem_ring hs.head1_lt (by omega) hj hs.num_le

theorem taken_marks {s s' : Sys} {ch : Choice} {p : RefillPacket} {i : Nat}
    (hs : Machine.Reachable cfg s) (hstep : Machine.step cfg ch s = some s')
    (now : AtCompare (s.place k)) (at_p : (s.cpus k).lsqDtagcmpRefill = some p)
    (load : ((s.cpus k).lsq i).opLoad) (spec : ((s.cpus k).lsq i).loadspec)
    (written : ((s.cpus k).lsq i).state = .writeback)
    (takes : p.Takes (s.cpus k) ((s.cpus k).lsq i).paddr) : ((s'.cpus k).lsq i).ex := by
  obtain ⟨d, e, shape⟩ := (invariant_reachable hs k).wellFormed.shape
  have mem := shape.scanned (i := i) (by simp [Cpu.lsqPart, LsqEntry.plain, written])
    (by simp [Cpu.lsqPart, LsqEntry.plain, written])
  have part : (s'.cpus k).lsqPart = (s.cpus k).scanned cfg p := by
    obtain ⟨p', at_p', spec⟩ | ⟨j, idle, -⟩ | ⟨idle, -⟩ :=
      dtagcmp_cases (compare_step (lsqStep_of_step hstep k) now)
    · obtain rfl := Option.some.inj (at_p.symm.trans at_p')
      exact spec
    · rw [at_p] at idle
      cases idle
    · rw [at_p] at idle
      cases idle
  have entry : ((s'.cpus k).lsq i).plain = (p.scan (s.cpus k) ((s.cpus k).lsq i)).plain := by
    have same := congrArg (fun q : LsqPart => q.entry i) part
    simp only [Cpu.scanned] at same
    rw [if_pos (show i ∈ ring cfg.lsqIfqSize (s.cpus k).lsqHead (s.cpus k).lsqTail from mem)] at same
    exact same
  have ex := congrArg LsqEntry.ex entry
  exact ex.trans (scan_marks load spec written takes)

/-- In a run that compares loads in order, a load that has written back before an older one
carries the mark, and it is the older one that gets its value first. A marked load that has
written back is marked for exception when its block is invalidated or replaced, and then it does
not commit. -/
theorem load_load_order {s : Sys} (h : Machine.RunWith cfg (Machine.ComparesInOrder cfg) s) (k : Nat) :
    (s.cpus k).lsqPart.LoadsMarked cfg.lsqIfqSize ∧
      (s.cpus k).lsqPart.LoadsOrdered cfg.lsqIfqSize ∧
      ∀ i, ((s.cpus k).lsq i).opLoad → ((s.cpus k).lsq i).state = .writeback →
        (((s.cpus k).lsq i).loadspec → ∀ p ch s', AtCompare (s.place k) →
          (s.cpus k).lsqDtagcmpRefill = some p → p.Takes (s.cpus k) ((s.cpus k).lsq i).paddr →
          Machine.step cfg ch s = some s' → ((s'.cpus k).lsq i).ex) ∧
        (((s.cpus k).lsq i).ex → ∀ t, Machine.Path cfg (Sys.Occupied k i) s t →
          ((t.cpus k).lsq i).ex ∧ ((t.cpus k).lsq i).state ≠ .commit ∧
            ((t.cpus k).lsq i).state ≠ .delay1) := by
  have ordered := loadsOrdered_reachable h k
  have reachable : Machine.Reachable cfg s := h.mono cfg fun _ _ _ => trivial
  refine ⟨ordered.marked, ordered, fun i load written => ⟨?_, ?_⟩⟩
  · intro spec p ch s' now at_p takes hstep
    exact taken_marks reachable hstep now at_p load spec written takes
  · intro ex t path
    exact marked_never_commits reachable path (by simp [Sys.Occupied, written]) ex
      (by simp [written])

namespace Machine

/-- The test of `ComparesInOrder`. -/
def comparesInOrder (cfg : Config) (s : Sys) : Bool :=
  s.frame.all fun fr => fr.phase != .dtagcmp || (s.cpus fr.cpu).lsqDtagcmpi.all fun i =>
    !((s.cpus fr.cpu).lsq i).opLoad ||
      (ringBefore cfg.lsqIfqSize i (s.cpus fr.cpu).lsqHead1).all fun j =>
        !(((s.cpus fr.cpu).lsq j).opLoad && ((s.cpus fr.cpu).lsq j).state.beforeWriteback)

theorem comparesInOrder_of_test {s : Sys} (h : comparesInOrder cfg s = true) (ch : Choice) :
    ComparesInOrder cfg s ch := by
  rintro k i ⟨⟨loc, now⟩, -, names⟩ load j before ⟨older, waits⟩
  obtain ⟨fr, frame, here⟩ := Option.bind_eq_some_iff.mp now
  obtain ⟨rfl, same⟩ := Option.ite_none_right_eq_some.mp here
  obtain ⟨phase, -⟩ := Prod.mk.inj (Option.some.inj same)
  simp only [comparesInOrder, frame, Option.all_some, phase, bne_self_eq_false, names, load,
    Bool.not_true, Bool.false_or, List.all_eq_true] at h
  have quiet := h j before
  rw [older, waits] at quiet
  cases quiet

/-- Take one step for each choice as long as the loads are compared in order. -/
def runInOrder (cfg : Config) : List Choice → Sys → Option Sys
  | [], s => some s
  | ch :: chs, s =>
    if comparesInOrder cfg s then (step cfg ch s).bind (runInOrder cfg chs) else none

theorem runWith_runInOrder {chs : List Choice} {s s' : Sys}
    (hs : RunWith cfg (ComparesInOrder cfg) s) (h : runInOrder cfg chs s = some s') :
    RunWith cfg (ComparesInOrder cfg) s' := by
  induction chs generalizing s with
  | nil =>
    cases h
    exact hs
  | cons ch chs ih =>
    rw [runInOrder, Option.ite_none_right_eq_some] at h
    obtain ⟨test, h⟩ := h
    obtain ⟨t, ht, hrun⟩ := Option.bind_eq_some_iff.mp h
    exact ih (.step hs (comparesInOrder_of_test test ch) ht) hrun

/-- A load writes back; then a second one passes its tag compare and misses, and a third one
waits behind it. -/
def orderedRun : List Choice :=
  waitThen 51 [.enqueue .lw 64, .issue 0] ++ waitThen 603 [.writeback] ++
    waitThen 24 [.enqueue .lw 128, .enqueue .lw 192, .issue 1] ++ waitThen 90 []

end Machine

theorem load_load_order_mono : ∃ s, Machine.RunWith .mono (Machine.ComparesInOrder .mono) s ∧
    (s.cpus 0).lsqNum = 3 ∧ ((s.cpus 0).lsq 0).opLoad ∧ ((s.cpus 0).lsq 1).opLoad ∧
    ((s.cpus 0).lsq 2).opLoad ∧ ((s.cpus 0).lsq 0).state = .writeback ∧
    ((s.cpus 0).lsq 1).state = .readcache ∧ ((s.cpus 0).lsq 2).state = .enter ∧
    (s.cpus 0).lsqPart.LoadsMarked 4 ∧ (s.cpus 0).lsqPart.LoadsOrdered 4 := by
  have h : (Machine.runInOrder .mono Machine.orderedRun (Machine.initial .mono)).any (fun s =>
      (s.cpus 0).lsqNum == 3 && ((s.cpus 0).lsq 0).opLoad && ((s.cpus 0).lsq 1).opLoad &&
      ((s.cpus 0).lsq 2).opLoad && ((s.cpus 0).lsq 0).state == .writeback &&
      ((s.cpus 0).lsq 1).state == .readcache && ((s.cpus 0).lsq 2).state == .enter) = true := by
    decide +kernel
  obtain ⟨s, hrun, hs⟩ := (Option.any_eq_true _ _).mp h
  simp only [Bool.and_eq_true, beq_iff_eq] at hs
  obtain ⟨⟨⟨⟨⟨⟨num, load0⟩, load1⟩, load2⟩, written⟩, missed⟩, waits⟩ := hs
  have reached := Machine.runWith_runInOrder .initial hrun
  obtain ⟨marked, ordered, -⟩ := load_load_order reached 0
  exact ⟨s, reached, num, load0, load1, load2, written, missed, waits, marked, ordered⟩

namespace Machine

/-- A load brings a block in. Then an older load misses while a younger one hits that block and
writes back, and the block is invalidated before the older load gets its value. -/
def invalidateRun : List Choice :=
  waitThen 51 [.enqueue .lw 64, .issue 0] ++ waitThen 603 [.writeback, .commit] ++
    waitThen 24 [.enqueue .lw 128, .enqueue .lw 64, .issue 1] ++ waitThen 26 [.issue 2] ++
    waitThen 81 [.writeback] ++ waitThen 203 []

theorem invalidateRun_unmarked : ∃ s s', Reachable .mono s ∧ step .mono {} s = some s' ∧
    (s.cpus 0).lsqPart.Before 4 1 2 ∧ ((s.cpus 0).lsq 1).opLoad ∧ ((s.cpus 0).lsq 2).opLoad ∧
    ((s.cpus 0).lsq 1).state.beforeWriteback ∧ ((s.cpus 0).lsq 1).loadspec ∧
    ((s.cpus 0).lsq 2).state = .writeback ∧ ((s.cpus 0).lsq 2).loadspec = false ∧
    (∃ p, (s.cpus 0).lsqDtagcmpRefill = some p ∧ p.Takes (s.cpus 0) ((s.cpus 0).lsq 2).paddr) ∧
    AtCompare (s.place 0) ∧ ((s'.cpus 0).lsq 2).ex = false := by
  have h : (run .mono invalidateRun (initial .mono)).any (fun s =>
      ((s.cpus 0).lsqHead1, (s.cpus 0).lsqNum) == (1, 2) &&
      ((s.cpus 0).lsq 1).opLoad && ((s.cpus 0).lsq 2).opLoad &&
      ((s.cpus 0).lsq 1).state.beforeWriteback && ((s.cpus 0).lsq 1).loadspec &&
      ((s.cpus 0).lsq 2).state == .writeback && !((s.cpus 0).lsq 2).loadspec &&
      ((s.cpus 0).lsqDtagcmpRefill.any fun p => !p.replace && p.intervention &&
        blockMatch ((s.cpus 0).lsq 2).paddr p.paddr) &&
      (s.frame.any fun fr => fr.cpu == 0 && fr.phase == .dtagcmp) &&
      ((step .mono {} s).any fun s' => !((s'.cpus 0).lsq 2).ex)) = true := by
    decide +kernel
  obtain ⟨s, hrun, hs⟩ := (Option.any_eq_true _ _).mp h
  simp only [Bool.and_eq_true, Bool.not_eq_true', beq_iff_eq, Prod.mk.injEq, Option.any_eq_true] at hs
  obtain ⟨⟨⟨⟨⟨⟨⟨⟨⟨⟨head1, num⟩, load1⟩, load2⟩, waiting⟩, spec1⟩, written⟩, spec2⟩, p, hp, takes⟩,
    fr, hfr, core, phase⟩, s', hstep, ex⟩ := hs
  have order : (s.cpus 0).lsqPart.Before 4 1 2 := by
    refine ⟨0, 1, by decide, ?_, ?_, ?_⟩
    · exact lt_of_lt_of_eq Nat.one_lt_two num.symm
    · exact (congrArg (slot 4 · 0) head1).symm
    · exact (congrArg (slot 4 · 1) head1).symm
  refine ⟨s, s', reachable_run .mono .initial hrun, hstep, order, load1, load2, waiting, spec1, written,
    spec2, ⟨p, hp, .inr ⟨takes.1.1, takes.1.2, takes.2⟩⟩, ⟨fr.loc, ?_⟩, ex⟩
  rw [place_frame hfr, if_pos core, phase]

end Machine

/-- The mark is on the older load: the younger one keeps its value over the invalidation. -/
theorem load_load_unmarked : ∃ s s', Machine.Reachable .mono s ∧
    Machine.step .mono {} s = some s' ∧ ¬ (s.cpus 0).lsqPart.LoadsMarked 4 ∧
    ((s.cpus 0).lsq 2).state = .writeback ∧
    (∃ p, (s.cpus 0).lsqDtagcmpRefill = some p ∧ p.Takes (s.cpus 0) ((s.cpus 0).lsq 2).paddr) ∧
    AtCompare (s.place 0) ∧ ((s'.cpus 0).lsq 2).ex = false := by
  obtain ⟨s, s', hs, hstep, order, load1, load2, waiting, -, written, spec, takes, now, ex⟩ :=
    Machine.invalidateRun_unmarked
  refine ⟨s, s', hs, hstep, fun marked => ?_, written, takes, now, ex⟩
  have := marked 1 2 order load1 load2 waiting (by simp [Cpu.lsqPart, LsqEntry.plain, written,
    LsqState.beforeWriteback])
  rw [show ((s.cpus 0).lsqPart.entry 2).loadspec = ((s.cpus 0).lsq 2).loadspec from rfl, spec] at this
  cases this

end Godson
