import Godson.Lsq

/-! The scans of `lsq_stage` in program order: an entry of the ring is named by its distance
from `lsq_head1`. -/
namespace Godson

variable {n h : Nat}

theorem mod_below_twice {x : Nat} (hx : x < 2 * n) : x % n = if x < n then x else x - n := by
  split
  · rename_i hlt
    exact Nat.mod_eq_of_lt hlt
  · rw [Nat.mod_eq_sub_mod (by omega), Nat.mod_eq_of_lt (by omega)]

/-- The entry at distance `p` from the oldest one. -/
def slot (n h p : Nat) : Nat := (h + p) % n

theorem slot_lt (hn : 0 < n) (p : Nat) : slot n h p < n := Nat.mod_lt _ hn

theorem slot_inj {p q : Nat} (hp : p < n) (hq : q < n) : slot n h p = slot n h q ↔ p = q :=
  ⟨Ring.index_injective hp hq, fun e => e ▸ rfl⟩

theorem exists_slot {i : Nat} (h : Nat) (hi : i < n) : ∃ p < n, slot n h p = i :=
  Ring.exists_distance h hi

theorem slot_slot (p q : Nat) : slot n (slot n h p) q = slot n h (p + q) := by
  rw [slot, slot, slot, Nat.mod_add_mod, Nat.add_assoc]

theorem nextIndex_slot (p : Nat) : nextIndex n (slot n h p) = slot n h (p + 1) := by
  rw [nextIndex, slot, slot, Nat.mod_add_mod, Nat.add_assoc]

theorem slot_zero (hh : h < n) : slot n h 0 = h := by
  rw [slot, Nat.add_zero, Nat.mod_eq_of_lt hh]

theorem slot_add_size (p : Nat) : slot n h (p + n) = slot n h p := by
  rw [slot, slot, ← Nat.add_assoc, Nat.add_mod_right]

/-- The entry before the one behind `p` others. -/
theorem slot_pred {p : Nat} (hh : h < n) (hp : 0 < p) (hpn : p ≤ n) :
    (slot n h p + n - 1) % n = slot n h (p - 1) := by
  simp only [slot]
  rw [mod_below_twice (x := h + p) (by omega)]
  split
  · rw [mod_below_twice (by omega), mod_below_twice (by omega)]
    split_ifs <;> omega
  · rw [mod_below_twice (by omega), mod_below_twice (by omega)]
    split_ifs <;> omega

/-- The scan back from an entry, in program order from the youngest. -/
theorem ringBefore_slot {p : Nat} (hh : h < n) (hp : p < n) :
    ringBefore n (slot n h p) h = (List.range p).map fun j => slot n h (p - 1 - j) := by
  have dist : (slot n h p + n - h) % n = p := by
    simp only [slot]
    rw [mod_below_twice (x := h + p) (by omega)]
    split <;> rw [mod_below_twice (by omega)] <;> split_ifs <;> omega
  rw [ringBefore, dist]
  refine List.map_congr_left fun j hj => ?_
  have hj := List.mem_range.mp hj
  simp only [slot]
  rw [mod_below_twice (x := h + p) (by omega)]
  split <;> rw [mod_below_twice (by omega), mod_below_twice (by omega)] <;> split_ifs <;> omega

/-- The scan forward from an entry, in program order. -/
theorem ringAfter_slot {p m : Nat} (hh : h < n) (hp : p < m) (hm : m ≤ n) :
    ringAfter n (slot n h p) (slot n h m) = (List.range (m - p - 1)).map fun j => slot n h (p + 1 + j) := by
  have dist : (slot n h m + n - slot n h p - 1) % n = m - p - 1 := by
    simp only [slot]
    rw [mod_below_twice (x := h + p) (by omega), mod_below_twice (x := h + m) (by omega)]
    split <;> split <;> rw [mod_below_twice (by omega)] <;> split_ifs <;> omega
  rw [ringAfter, dist]
  refine List.map_congr_left fun j hj => ?_
  rw [← slot, slot_slot]
  congr 1
  omega

/-- The scan of the whole queue. When all that is left is drained it runs once around. -/
theorem ring_slot {d m : Nat} (hh : h < n) (hd : d ≤ m) (hm : m ≤ n) :
    ring n (slot n h d) (slot n h m) =
      (List.range (if d = m then n else m - d)).map fun j => slot n h (d + j) := by
  have dist : (slot n h m + n - slot n h d - 1) % n + 1 = if d = m then n else m - d := by
    simp only [slot]
    rw [mod_below_twice (x := h + d) (by omega), mod_below_twice (x := h + m) (by omega)]
    split <;> split <;> rw [mod_below_twice (by omega)] <;> split_ifs <;> omega
  rw [ring, dist]
  refine List.map_congr_left fun j _ => ?_
  rw [← slot, slot_slot]

theorem mem_ringBefore {p i : Nat} (hh : h < n) (hp : p < n) :
    i ∈ ringBefore n (slot n h p) h ↔ ∃ j < p, i = slot n h j := by
  rw [ringBefore_slot hh hp]
  simp only [List.mem_map, List.mem_range]
  constructor
  · rintro ⟨j, hj, rfl⟩
    exact ⟨p - 1 - j, by omega, rfl⟩
  · rintro ⟨j, hj, rfl⟩
    exact ⟨p - 1 - j, by omega, by congr 1; omega⟩

/-- Every entry of the queue behind the commit head is scanned. -/
theorem mem_ring {d m p : Nat} (hh : h < n) (hd : d ≤ p) (hp : p < m) (hm : m ≤ n) :
    slot n h p ∈ ring n (slot n h d) (slot n h m) := by
  rw [ring_slot hh (by omega) hm, if_neg (by omega)]
  exact List.mem_map.mpr ⟨p - d, List.mem_range.mpr (by omega), by congr 1; omega⟩

/-- No entry is scanned twice. -/
theorem nodup_ring {i stop : Nat} (hn : 0 < n) : (ring n i stop).Nodup := by
  have short : (stop + n - i - 1) % n + 1 ≤ n := Nat.mod_lt _ hn
  refine List.Nodup.map_on (fun p hp q hq e => ?_) List.nodup_range
  have hp := List.mem_range.mp hp
  have hq := List.mem_range.mp hq
  exact Ring.index_injective (by omega) (by omega) e

end Godson
