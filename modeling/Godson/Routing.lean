import Mathlib.Tactic.Linarith
import Godson.Mesh

/-! Dimension order routing: where a flit goes next, how far it still has to go,
and why no cycle of waiting input buffers can form. -/
namespace Godson

namespace MeshConfig

variable (cfg : MeshConfig)

theorem homeX_lt (k : Nat) : cfg.homeX k < cfg.meshWidth := Nat.mod_lt _ cfg.meshWidth_pos

theorem homeY_lt {k : Nat} (hk : k < cfg.totalCpus) : cfg.homeY k < cfg.meshHeight := by
  rwa [homeY, Nat.div_lt_iff_lt_mul cfg.meshWidth_pos, Nat.mul_comm]

theorem cpuid_lt {x y : Nat} (hx : x < cfg.meshWidth) (hy : y < cfg.meshHeight) :
    cfg.cpuid x y < cfg.totalCpus := by
  rw [cpuid, totalCpus, Nat.mul_comm]
  calc x + cfg.meshWidth * y < cfg.meshWidth + cfg.meshWidth * y := by omega
    _ = cfg.meshWidth * (y + 1) := by rw [Nat.mul_succ, Nat.add_comm]
    _ ≤ cfg.meshWidth * cfg.meshHeight := Nat.mul_le_mul_left _ hy

@[simp] theorem homeX_cpuid {x y : Nat} (hx : x < cfg.meshWidth) : cfg.homeX (cfg.cpuid x y) = x := by
  rw [homeX, cpuid, Nat.add_mul_mod_self_right, Nat.mod_eq_of_lt hx]

@[simp] theorem homeY_cpuid {x y : Nat} (hx : x < cfg.meshWidth) : cfg.homeY (cfg.cpuid x y) = y := by
  rw [homeY, cpuid, Nat.add_mul_div_right _ _ cfg.meshWidth_pos, Nat.div_eq_of_lt hx, Nat.zero_add]

theorem cpuid_home (k : Nat) : cfg.cpuid (cfg.homeX k) (cfg.homeY k) = k := by
  rw [cpuid, homeX, homeY, Nat.mul_comm]
  exact Nat.mod_add_div k _

/-- The node a flit sent this way comes to; `none` at the edge of the mesh. -/
def hop (k : Nat) : Direction → Option Nat
  | .home => none
  | .up => if cfg.homeY k ≥ 1 then some (cfg.cpuid (cfg.homeX k) (cfg.homeY k - 1)) else none
  | .down =>
    if cfg.homeY k + 1 < cfg.meshHeight then some (cfg.cpuid (cfg.homeX k) (cfg.homeY k + 1))
    else none
  | .left => if cfg.homeX k ≥ 1 then some (cfg.cpuid (cfg.homeX k - 1) (cfg.homeY k)) else none
  | .right =>
    if cfg.homeX k + 1 < cfg.meshWidth then some (cfg.cpuid (cfg.homeX k + 1) (cfg.homeY k))
    else none

/-- A hop stays in the mesh, and leads back. -/
theorem hop_back {k j : Nat} {d : Direction} (hk : k < cfg.totalCpus) (h : cfg.hop k d = some j) :
    j < cfg.totalCpus ∧ cfg.hop j d.opposite = some k := by
  have hx := cfg.homeX_lt k
  have hy := cfg.homeY_lt hk
  cases d with
  | home => simp [hop] at h
  | up =>
    simp only [hop, Option.ite_none_right_eq_some, Option.some.injEq] at h
    obtain ⟨hy1, rfl⟩ := h
    refine ⟨cfg.cpuid_lt hx (by omega), ?_⟩
    simp only [Direction.opposite, hop, homeX_cpuid cfg hx, homeY_cpuid cfg hx]
    rw [if_pos (by omega), Nat.sub_add_cancel hy1, cpuid_home]
  | down =>
    simp only [hop, Option.ite_none_right_eq_some, Option.some.injEq] at h
    obtain ⟨hy1, rfl⟩ := h
    refine ⟨cfg.cpuid_lt hx hy1, ?_⟩
    simp only [Direction.opposite, hop, homeX_cpuid cfg hx, homeY_cpuid cfg hx]
    rw [if_pos (by omega), Nat.add_sub_cancel, cpuid_home]
  | left =>
    simp only [hop, Option.ite_none_right_eq_some, Option.some.injEq] at h
    obtain ⟨hx1, rfl⟩ := h
    have hx' : cfg.homeX k - 1 < cfg.meshWidth := by omega
    refine ⟨cfg.cpuid_lt hx' hy, ?_⟩
    simp only [Direction.opposite, hop, homeX_cpuid cfg hx', homeY_cpuid cfg hx']
    rw [if_pos (by omega), Nat.sub_add_cancel hx1, cpuid_home]
  | right =>
    simp only [hop, Option.ite_none_right_eq_some, Option.some.injEq] at h
    obtain ⟨hx1, rfl⟩ := h
    refine ⟨cfg.cpuid_lt hx1 hy, ?_⟩
    simp only [Direction.opposite, hop, homeX_cpuid cfg hx1, homeY_cpuid cfg hx1]
    rw [if_pos (by omega), Nat.add_sub_cancel, cpuid_home]

end MeshConfig

@[simp] theorem Direction.opposite_opposite (d : Direction) : d.opposite.opposite = d := by
  cases d <;> rfl

@[simp] theorem Direction.opposite_eq_home {d : Direction} : d.opposite = .home ↔ d = .home := by
  cases d <;> simp [opposite]

namespace MeshConfig

variable (cfg : MeshConfig)

/-- Two nodes with the same neighbour in one direction are the same. -/
theorem hop_injective {k k' j : Nat} {d : Direction} (hk : k < cfg.totalCpus)
    (hk' : k' < cfg.totalCpus) (h : cfg.hop k d = some j) (h' : cfg.hop k' d = some j) : k = k' := by
  have h := (cfg.hop_back hk h).2
  have h' := (cfg.hop_back hk' h').2
  exact Option.some.inj (h.symm.trans h')

end MeshConfig

namespace Flit

/-- The tests of the round robin arbiter single out the output the wave front
router computes. -/
theorem wants_iff (p : Flit) (x y : Nat) (out : Direction) :
    p.wants x y out = true ↔ out = p.selectDestChannel x y := by
  unfold selectDestChannel
  cases out <;> simp only [wants, Bool.and_eq_true, beq_iff_eq, decide_eq_true_eq] <;> grind

/-- Dimension order: a flit that moves in a column has reached its own, and no
flit moves away from its destination. -/
def OnRoute (p : Flit) (x y : Nat) : Direction → Prop
  | .home => True
  | .up => p.destX = x ∧ y ≤ p.destY
  | .down => p.destX = x ∧ p.destY ≤ y
  | .left => x ≤ p.destX
  | .right => p.destX ≤ x

/-- The coordinates of the flit are those of the node its packet is for. -/
structure Addressed (cfg : MeshConfig) (p : Flit) : Prop where
  dest_lt : p.packet.dest < cfg.totalCpus
  destX : p.destX = cfg.homeX p.packet.dest
  destY : p.destY = cfg.homeY p.packet.dest

/-- Manhattan distance to the destination. -/
def distance (p : Flit) (x y : Nat) : Nat :=
  (p.destX - x) + (x - p.destX) + ((p.destY - y) + (y - p.destY))

/-- What makes a flit fit to sit in an input buffer of a node. -/
structure Fits (cfg : MeshConfig) (p : Flit) (k : Nat) (type : Chan) (d : Direction) : Prop where
  addressed : p.Addressed cfg
  onRoute : p.OnRoute (cfg.homeX k) (cfg.homeY k) d
  chan : p.packet.chan = type
  entered : d ≠ .home → (cfg.hop k d).isSome

end Flit

/-- Height of an input buffer above the buffers its flits can still come to:
columns lie below rows, and a row or column falls in the direction of travel. -/
def MeshConfig.rank (cfg : MeshConfig) (k : Nat) : Direction → Nat
  | .up => cfg.meshHeight - cfg.homeY k
  | .down => cfg.homeY k
  | .left => cfg.meshHeight + 1 + (cfg.meshWidth - cfg.homeX k)
  | .right => cfg.meshHeight + 1 + cfg.homeX k
  | .home => cfg.meshHeight + cfg.meshWidth + 2

namespace Flit

/-- One hop of a flit that fits: it stays in the mesh and on its route, does not
turn back, and gets nearer to its destination. -/
theorem Fits.hop_onRoute {cfg : MeshConfig} {p : Flit} {k : Nat} {type : Chan} {d out : Direction}
    (hk : k < cfg.totalCpus) (h : p.Fits cfg k type d)
    (hw : p.wants (cfg.homeX k) (cfg.homeY k) out) (hout : out ≠ .home) :
    ∃ j, cfg.hop k out = some j ∧ p.OnRoute (cfg.homeX j) (cfg.homeY j) out.opposite ∧ d ≠ out ∧
      p.distance (cfg.homeX j) (cfg.homeY j) < p.distance (cfg.homeX k) (cfg.homeY k) ∧
      cfg.rank j out.opposite < cfg.rank k d := by
  have hx := cfg.homeX_lt k
  have hy := cfg.homeY_lt hk
  have hdx : p.destX < cfg.meshWidth := h.addressed.destX ▸ cfg.homeX_lt _
  have hdy : p.destY < cfg.meshHeight := h.addressed.destY ▸ cfg.homeY_lt h.addressed.dest_lt
  have hroute := h.onRoute
  cases out with
  | home => exact absurd rfl hout
  | up =>
    simp only [wants, Bool.and_eq_true, beq_iff_eq, decide_eq_true_eq] at hw
    refine ⟨cfg.cpuid (cfg.homeX k) (cfg.homeY k - 1), by simp [MeshConfig.hop]; omega,
      ?_, ?_, ?_, ?_⟩
    · simp only [Direction.opposite, OnRoute, cfg.homeX_cpuid hx, cfg.homeY_cpuid hx]
      omega
    · rintro rfl
      simp only [OnRoute] at hroute
      omega
    · simp only [distance, cfg.homeX_cpuid hx, cfg.homeY_cpuid hx]
      omega
    · cases d <;> simp only [Direction.opposite, OnRoute, MeshConfig.rank,
        cfg.homeY_cpuid hx] at hroute ⊢ <;> omega
  | down =>
    simp only [wants, Bool.and_eq_true, beq_iff_eq, decide_eq_true_eq] at hw
    refine ⟨cfg.cpuid (cfg.homeX k) (cfg.homeY k + 1), by simp [MeshConfig.hop]; omega,
      ?_, ?_, ?_, ?_⟩
    · simp only [Direction.opposite, OnRoute, cfg.homeX_cpuid hx, cfg.homeY_cpuid hx]
      omega
    · rintro rfl
      simp only [OnRoute] at hroute
      omega
    · simp only [distance, cfg.homeX_cpuid hx, cfg.homeY_cpuid hx]
      omega
    · cases d <;> simp only [Direction.opposite, OnRoute, MeshConfig.rank,
        cfg.homeY_cpuid hx] at hroute ⊢ <;> omega
  | left =>
    simp only [wants, decide_eq_true_eq] at hw
    have hx' : cfg.homeX k - 1 < cfg.meshWidth := by omega
    refine ⟨cfg.cpuid (cfg.homeX k - 1) (cfg.homeY k), by simp [MeshConfig.hop]; omega,
      ?_, ?_, ?_, ?_⟩
    · simp only [Direction.opposite, OnRoute, cfg.homeX_cpuid hx']
      omega
    · rintro rfl
      simp only [OnRoute] at hroute
      omega
    · simp only [distance, cfg.homeX_cpuid hx', cfg.homeY_cpuid hx']
      omega
    · cases d <;> simp only [Direction.opposite, OnRoute, MeshConfig.rank,
        cfg.homeX_cpuid hx'] at hroute ⊢ <;> omega
  | right =>
    simp only [wants, decide_eq_true_eq] at hw
    have hx' : cfg.homeX k + 1 < cfg.meshWidth := by omega
    refine ⟨cfg.cpuid (cfg.homeX k + 1) (cfg.homeY k), by simp [MeshConfig.hop]; omega,
      ?_, ?_, ?_, ?_⟩
    · simp only [Direction.opposite, OnRoute, cfg.homeX_cpuid hx']
      omega
    · rintro rfl
      simp only [OnRoute] at hroute
      omega
    · simp only [distance, cfg.homeX_cpuid hx', cfg.homeY_cpuid hx']
      omega
    · cases d <;> simp only [Direction.opposite, OnRoute, MeshConfig.rank,
        cfg.homeX_cpuid hx'] at hroute ⊢ <;> omega

/-- After a hop the flit fits the buffer it comes to. -/
theorem Fits.hop {cfg : MeshConfig} {p : Flit} {k j : Nat} {type : Chan} {d out : Direction}
    (hk : k < cfg.totalCpus) (h : p.Fits cfg k type d)
    (hw : p.wants (cfg.homeX k) (cfg.homeY k) out) (hout : out ≠ .home)
    (hj : cfg.hop k out = some j) : p.Fits cfg j type out.opposite := by
  obtain ⟨i, hi, hroute, -⟩ := h.hop_onRoute hk hw hout
  obtain rfl : i = j := Option.some.inj (hi.symm.trans hj)
  exact ⟨h.addressed, hroute, h.chan, fun _ => by rw [(cfg.hop_back hk hi).2]; rfl⟩

/-- A flit is nearer to its destination than at the node it came from. -/
theorem Fits.nearer {cfg : MeshConfig} {p : Flit} {k j : Nat} {type : Chan} {d : Direction}
    (h : p.Fits cfg k type d) (hj : cfg.hop k d = some j) :
    p.distance (cfg.homeX k) (cfg.homeY k) < p.distance (cfg.homeX j) (cfg.homeY j) := by
  have hroute := h.onRoute
  have hx := cfg.homeX_lt k
  cases d with
  | home => simp [MeshConfig.hop] at hj
  | up =>
    simp only [MeshConfig.hop, Option.ite_none_right_eq_some, Option.some.injEq] at hj
    obtain ⟨hy1, rfl⟩ := hj
    simp only [OnRoute, distance, cfg.homeX_cpuid hx, cfg.homeY_cpuid hx] at *
    omega
  | down =>
    simp only [MeshConfig.hop, Option.ite_none_right_eq_some, Option.some.injEq] at hj
    obtain ⟨hy1, rfl⟩ := hj
    simp only [OnRoute, distance, cfg.homeX_cpuid hx, cfg.homeY_cpuid hx] at *
    omega
  | left =>
    simp only [MeshConfig.hop, Option.ite_none_right_eq_some, Option.some.injEq] at hj
    obtain ⟨hx1, rfl⟩ := hj
    have hx' : cfg.homeX k - 1 < cfg.meshWidth := by omega
    simp only [OnRoute, distance, cfg.homeX_cpuid hx', cfg.homeY_cpuid hx'] at *
    omega
  | right =>
    simp only [MeshConfig.hop, Option.ite_none_right_eq_some, Option.some.injEq] at hj
    obtain ⟨hx1, rfl⟩ := hj
    simp only [OnRoute, distance, cfg.homeX_cpuid hx1, cfg.homeY_cpuid hx1] at *
    omega

end Flit

end Godson
