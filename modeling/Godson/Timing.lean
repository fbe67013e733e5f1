import Godson.MeshInvariant

/-! When the events of the mesh run. All pending events lie in one cycle, and a
node is activated only after what it sent in the cycle before has arrived. -/
namespace Godson

variable (cfg : MeshConfig)

/-- A flit that node `k` has put onto a wire. -/
def MeshEvent.IsFrom (k : Nat) : MeshEvent → Prop
  | .flitArrive _ x y _ d => cfg.hop (cfg.cpuid x y) d = some k
  | _ => False

namespace Mesh

variable (m : Mesh)

/-- Behind an activation there are no flits of the same node and no second activation of it. -/
def Follows (a b : Nat × MeshEvent) : Prop :=
  ∀ k, a.2 = .cpuExecute k → ¬ b.2.IsFrom cfg k ∧ b.2 ≠ .cpuExecute k

/-- The pending events are sorted, lie in one cycle, and every node comes after its flits. -/
structure Timed : Prop where
  sorted : m.pending.Pairwise fun a b => a.1 ≤ b.1
  window : ∀ e ∈ m.pending, m.simCycle ≤ e.1 ∧ e.1 ≤ m.simCycle + 1
  order : m.pending.Pairwise (Follows cfg)

/-- Node `k` is not waiting to be activated. -/
def Active (k : Nat) : Prop := ∀ e ∈ m.pending, e.2 ≠ .cpuExecute k

/-- The wire of an output of node `k` is free. -/
def Clear (k : Nat) (type : Chan) (out : Direction) : Prop :=
  ∀ j, cfg.hop k out = some j → m.wires cfg j type out.opposite = 0

variable {cfg m}

theorem Timed.setRouter (h : m.Timed cfg) (k : Nat) (r : Router) : (m.setRouter k r).Timed cfg :=
  ⟨h.sorted, h.window, h.order⟩

/-- The next event is taken from the queue. -/
theorem Timed.pop {t : Nat} {ev : MeshEvent} {rest : List (Nat × MeshEvent)} (h : m.Timed cfg)
    (hpend : m.pending = (t, ev) :: rest) :
    Timed cfg { m with simCycle := t, pending := rest } := by
  obtain ⟨hsorted, hwindow, horder⟩ := h
  rw [hpend] at hsorted hwindow horder
  obtain ⟨hle, hsorted⟩ := List.pairwise_cons.mp hsorted
  refine ⟨hsorted, fun e he => ⟨hle e he, ?_⟩, (List.pairwise_cons.mp horder).2⟩
  have hnow := (hwindow (t, ev) List.mem_cons_self).1
  have hlast := (hwindow e (List.mem_cons_of_mem _ he)).2
  exact hlast.trans (Nat.succ_le_succ hnow)

/-- When a node is activated, no flit of it is on a wire and it is not waiting again. -/
theorem Timed.activated {t k : Nat} {rest : List (Nat × MeshEvent)} (h : m.Timed cfg)
    (hpend : m.pending = (t, .cpuExecute k) :: rest) :
    ∀ e ∈ rest, ¬ e.2.IsFrom cfg k ∧ e.2 ≠ .cpuExecute k := by
  have horder := h.order
  rw [hpend] at horder
  exact fun e he => (List.pairwise_cons.mp horder).1 e he k rfl

/-- Something is put onto a wire by a node that is active. -/
theorem Timed.queue {k : Nat} {ev : MeshEvent} (h : m.Timed cfg) (hk : m.Active k)
    (hev : ev.isExecute = false) (hfrom : ∀ i, ev.IsFrom cfg i → i = k) :
    (m.queue ev).Timed cfg where
  sorted := EventQueue.sorted_insert h.sorted
  window e he := by
    rcases EventQueue.mem_insert.mp he with rfl | he
    · exact ⟨Nat.le_succ _, Nat.le_refl _⟩
    · exact h.window e he
  order := by
    refine EventQueue.pairwise_insert h.order (fun a ha _ i hi => ⟨fun hf => ?_, fun hx => ?_⟩)
      fun b _ i hi => ?_
    · exact hk a ha (hfrom i hf ▸ hi)
    · simp only at hx
      simp [hx, MeshEvent.isExecute] at hev
    · simp only at hi
      simp [hi, MeshEvent.isExecute] at hev

theorem Active.queue {k : Nat} {ev : MeshEvent} (h : m.Active k) (hev : ev.isExecute = false) :
    (m.queue ev).Active k := by
  intro e he
  rcases EventQueue.mem_insert.mp he with rfl | he
  · rintro rfl
    simp [MeshEvent.isExecute] at hev
  · exact h e he

/-- A returned credit is no flit. -/
theorem Timed.giveBack {k : Nat} (h : m.Timed cfg) (hk : m.Active k) (type : Chan)
    (d : Direction) : (m.giveBack cfg k type d).Timed cfg ∧ (m.giveBack cfg k type d).Active k := by
  unfold Mesh.giveBack
  split
  · exact ⟨h.queue hk rfl fun _ hf => hf.elim, hk.queue rfl⟩
  · exact ⟨h, hk⟩

/-- All wires of a node are free when it is activated. -/
theorem Timed.clear {t k : Nat} {rest : List (Nat × MeshEvent)} (h : m.Timed cfg)
    (hk : k < cfg.totalCpus) (hpend : m.pending = (t, .cpuExecute k) :: rest) (type : Chan)
    (out : Direction) : Clear cfg { m with simCycle := t, pending := rest } k type out := by
  intro j hj
  by_contra hwire
  obtain ⟨s, p, x, y, he, rfl⟩ := exists_wire hwire
  exact (h.activated hpend _ he).1 (cfg.hop_back hk hj).2

/-- A flit on one wire leaves the other wires of its node free. -/
theorem Clear.queue {k j : Nat} {type t : Chan} {out o : Direction} (p : Flit)
    (h : m.Clear cfg k t o) (hne : (t, o) ≠ (type, out)) :
    (m.queue (.flitArrive p (cfg.homeX j) (cfg.homeY j) type out.opposite)).Clear cfg k t o := by
  intro i hi
  rw [wires_queue, h i hi, if_neg]
  simp only [MeshEvent.isFlitTo, Bool.and_eq_true, beq_iff_eq]
  rintro ⟨⟨-, rfl⟩, hopp⟩
  refine hne ?_
  rw [← Direction.opposite_opposite o, ← hopp, Direction.opposite_opposite]

/-- The node waits for its next activation, behind all other events. -/
theorem Timed.requeue {k : Nat} (h : m.Timed cfg) (hk : m.Active k) :
    (m.queue (.cpuExecute k)).Timed cfg where
  sorted := EventQueue.sorted_insert h.sorted
  window e he := by
    rcases EventQueue.mem_insert.mp he with rfl | he
    · exact ⟨Nat.le_succ _, Nat.le_refl _⟩
    · exact h.window e he
  order := by
    have hlast : (m.queue (.cpuExecute k)).pending =
        m.pending ++ [(m.simCycle + 1, .cpuExecute k)] := by
      refine EventQueue.insert_last fun e he => ?_
      simpa [EventQueue.passes, MeshEvent.isExecute] using (h.window e he).2
    rw [hlast]
    refine List.pairwise_append.mpr ⟨h.order, List.pairwise_singleton _ _, fun a ha b hb i hi => ?_⟩
    obtain rfl := List.mem_singleton.mp hb
    refine ⟨fun hf => hf, fun hx => hk a ha ?_⟩
    rwa [MeshEvent.cpuExecute.inj hx]

end Mesh

end Godson
