import Mathlib.Logic.Function.Basic
import Mathlib.Data.List.Basic
import Mathlib.Data.List.Nodup
import Mathlib.Data.Nat.ModEq

/-! Ring buffers: an array of optional slots with a head index, where the next
free slot and the next occupied slot are found by a scan from the head. -/
namespace Ring

variable {α : Type*} {size head : Nat} {slots : Nat → Option α} {l : List α}

/-- The first index with property `p`, found by a scan of the whole array from `start`. -/
def scanFrom (size start : Nat) (p : Nat → Bool) : Option Nat :=
  ((List.range size).map fun j => (start + j) % size).find? p

/-- The array with this head holds the list, one slot after the other. -/
structure Holds (size : Nat) (slots : Nat → Option α) (head : Nat) (l : List α) : Prop where
  length_le : l.length ≤ size
  head_lt : head = 0 ∨ head < size
  slot : ∀ i < size, slots ((head + i) % size) = l[i]?

/-- The list an array holds. -/
def toList (size : Nat) (slots : Nat → Option α) (head : Nat) : List α :=
  (List.range size).filterMap fun i => slots ((head + i) % size)

theorem scanFrom_eq_some {size start j : Nat} {p : Nat → Bool} (hj : j < size)
    (hp : p ((start + j) % size)) (hlt : ∀ i < j, p ((start + i) % size) = false) :
    scanFrom size start p = some ((start + j) % size) := by
  rw [scanFrom, List.find?_map]
  have h : (List.range size).find? (p ∘ fun j => (start + j) % size) = some j := by
    rw [List.find?_range_eq_some]
    exact ⟨hp, List.mem_range.mpr hj, fun i hi => by simp [hlt i hi]⟩
  rw [h, Option.map_some]

theorem scanFrom_eq_none {size start : Nat} {p : Nat → Bool}
    (h : ∀ i < size, p ((start + i) % size) = false) : scanFrom size start p = none := by
  rw [scanFrom, List.find?_eq_none]
  intro x hx
  obtain ⟨i, hi, rfl⟩ := List.mem_map.mp hx
  simp [h i (List.mem_range.mp hi)]

/-- Every index of the array is at some distance from `start`. -/
theorem exists_distance {size i : Nat} (start : Nat) (hi : i < size) :
    ∃ j < size, (start + j) % size = i := by
  have hs : start % size < size := Nat.mod_lt _ (by omega)
  by_cases h : start % size ≤ i
  · refine ⟨i - start % size, by omega, ?_⟩
    rw [← Nat.mod_add_mod, Nat.add_sub_cancel' h, Nat.mod_eq_of_lt hi]
  · refine ⟨i + size - start % size, by omega, ?_⟩
    rw [← Nat.mod_add_mod, Nat.add_sub_cancel' (by omega), Nat.add_mod_right, Nat.mod_eq_of_lt hi]

/-- A scan goes from the start to the end of the array, and on from its beginning. -/
theorem scanFrom_split {size : Nat} (pos : 0 < size) (start : Nat) (p : Nat → Bool) :
    scanFrom size start p = ((List.range' (start % size) (size - start % size)).find? p).or
      ((List.range (start % size)).find? p) := by
  have low : start % size < size := Nat.mod_lt _ pos
  have whole : List.range size = List.range (size - start % size) ++
      (List.range (start % size)).map (size - start % size + ·) := by
    rw [← List.range_add, Nat.sub_add_cancel low.le]
  have front : (List.range (size - start % size)).map (fun j => (start + j) % size) =
      List.range' (start % size) (size - start % size) := by
    rw [List.range'_eq_map_range]
    apply List.map_congr_left
    intro j hj
    have hj := List.mem_range.mp hj
    rw [← Nat.mod_add_mod, Nat.mod_eq_of_lt (by omega)]
  have back : ((List.range (start % size)).map (size - start % size + ·)).map
      (fun j => (start + j) % size) = List.range (start % size) := by
    rw [List.map_map]
    conv_rhs => rw [← List.map_id (List.range (start % size))]
    apply List.map_congr_left
    intro j hj
    have hj := List.mem_range.mp hj
    rw [Function.comp_apply, ← Nat.mod_add_mod,
      show start % size + (size - start % size + j) = j + size by omega, Nat.add_mod_right,
      Nat.mod_eq_of_lt (by omega)]
    rfl
  rw [scanFrom, whole, List.map_append, front, back, List.find?_append]

/-- Two distances below the size lead to different indices. -/
theorem index_injective {size start i j : Nat} (hi : i < size) (hj : j < size)
    (h : (start + i) % size = (start + j) % size) : i = j := by
  have h : i ≡ j [MOD size] := Nat.ModEq.add_left_cancel' start h
  rwa [Nat.ModEq, Nat.mod_eq_of_lt hi, Nat.mod_eq_of_lt hj] at h

theorem filterMap_getElem? {l : List α} (h : l.length ≤ size) :
    (List.range size).filterMap (fun i => l[i]?) = l := by
  induction l generalizing size with
  | nil => simp
  | cons a l ih =>
    obtain ⟨n, rfl⟩ : ∃ n, size = n + 1 := Nat.exists_eq_succ_of_ne_zero (by simp at h; omega)
    rw [List.range_succ_eq_map, List.filterMap_cons, List.filterMap_map]
    simp only [List.getElem?_cons_zero, List.cons.injEq, true_and]
    exact ih (by simpa using h)

namespace Holds

theorem toList_eq (h : Holds size slots head l) : toList size slots head = l := by
  rw [toList, List.filterMap_congr fun i hi => h.slot i (List.mem_range.mp hi)]
  exact filterMap_getElem? h.length_le

/-- Counting slots is counting elements. -/
theorem countP_slots (h : Holds size slots head l) (f : α → Bool) :
    (List.range size).countP (fun i => (slots i).any f) = l.countP f := by
  have hperm : ((List.range size).map fun i => (head + i) % size).Perm (List.range size) := by
    refine (List.perm_ext_iff_of_nodup ?_ List.nodup_range).mpr fun i => ?_
    · refine List.Nodup.map_on (fun i hi j hj hij => ?_) List.nodup_range
      exact index_injective (List.mem_range.mp hi) (List.mem_range.mp hj) hij
    · simp only [List.mem_map, List.mem_range]
      constructor
      · rintro ⟨j, hj, rfl⟩
        exact Nat.mod_lt _ (Nat.zero_lt_of_lt hj)
      · intro hi
        obtain ⟨j, hj, hji⟩ := exists_distance head hi
        exact ⟨j, hj, hji⟩
  rw [← hperm.countP_eq, List.countP_map]
  conv_rhs => rw [← h.toList_eq, toList, List.countP_filterMap]
  refine List.countP_congr fun i _ => ?_
  cases hs : slots ((head + i) % size) <;> simp [hs]

/-- The empty array. -/
theorem nil (size : Nat) : Holds size (fun _ => (none : Option α)) 0 [] :=
  ⟨Nat.zero_le _, .inl rfl, fun _ _ => rfl⟩

/-- The slot at the head holds the first element. -/
theorem slot_head (h : Holds size slots head l) (hl : l ≠ []) : slots head = l.head? := by
  have hpos : 0 < l.length := List.length_pos_iff.mpr hl
  have hlt : head < size := by
    have := h.length_le
    rcases h.head_lt with h | h <;> omega
  have := h.slot 0 (by omega)
  rwa [Nat.add_zero, Nat.mod_eq_of_lt hlt, ← List.head?_eq_getElem?] at this

/-- The scan for a free slot finds the one behind the last element. -/
theorem scan_free (h : Holds size slots head l) (hl : l.length < size) :
    scanFrom size head (fun i => (slots i).isNone) = some ((head + l.length) % size) := by
  apply scanFrom_eq_some hl
  · rw [h.slot _ hl]
    simp
  · intro i hi
    rw [h.slot i (by omega)]
    simp [hi]

/-- A new element goes into the slot behind the last one. -/
theorem put (h : Holds size slots head l) (hl : l.length < size) (a : α) :
    Holds size (Function.update slots ((head + l.length) % size) (some a)) head (l ++ [a]) where
  length_le := by simp only [List.length_append, List.length_singleton]; omega
  head_lt := h.head_lt
  slot i hi := by
    by_cases hil : i = l.length
    · subst hil
      simp
    · rw [Function.update_of_ne (fun hne => hil (index_injective hi hl hne)), h.slot i hi]
      rcases Nat.lt_or_gt_of_ne hil with hlt | hgt
      · rw [List.getElem?_append_left hlt]
      · rw [List.getElem?_eq_none (by omega), List.getElem?_eq_none (by simp; omega)]

/-- Clearing the head slot of a longer list moves the head to the next slot. -/
theorem scan_next {a b : α} (h : Holds size slots head (a :: b :: l)) :
    scanFrom size head (fun i => (Function.update slots head none i).isSome) =
      some ((head + 1) % size) := by
  have hlen := h.length_le
  simp only [List.length_cons] at hlen
  have hlt : head < size := by
    rcases h.head_lt with h | h <;> omega
  apply scanFrom_eq_some (by omega)
  · rw [Function.update_of_ne, h.slot 1 (by omega)]
    · simp
    · intro hne
      have := index_injective (i := 1) (j := 0) (by omega) (by omega)
        (hne.trans (by rw [Nat.add_zero, Nat.mod_eq_of_lt hlt]))
      omega
  · intro i hi
    obtain rfl : i = 0 := by omega
    simp [Nat.mod_eq_of_lt hlt]

/-- Clearing the only occupied slot leaves nothing to find. -/
theorem scan_last {a : α} (h : Holds size slots head [a]) :
    scanFrom size head (fun i => (Function.update slots head none i).isSome) = none := by
  have hlen := h.length_le
  simp only [List.length_singleton] at hlen
  have hlt : head < size := by
    rcases h.head_lt with h | h <;> omega
  apply scanFrom_eq_none
  intro i hi
  by_cases h0 : i = 0
  · subst h0
    simp [Nat.mod_eq_of_lt hlt]
  · rw [Function.update_of_ne, h.slot i hi]
    · simp [h0]
    · intro hne
      exact h0 (index_injective hi (by omega)
        (hne.trans (by rw [Nat.add_zero, Nat.mod_eq_of_lt hlt])))

/-- Take the first element out. The head moves on unless the array is empty now. -/
theorem take {a : α} (h : Holds size slots head (a :: l)) :
    Holds size (Function.update slots head none)
      ((scanFrom size head fun i => (Function.update slots head none i).isSome).getD head) l := by
  have hlen := h.length_le
  simp only [List.length_cons] at hlen
  have hlt : head < size := by
    rcases h.head_lt with h | h <;> omega
  cases l with
  | nil =>
    rw [h.scan_last]
    refine ⟨Nat.zero_le _, h.head_lt, fun i hi => ?_⟩
    by_cases h0 : i = 0
    · subst h0
      simp [Nat.mod_eq_of_lt hlt]
    · rw [Option.getD_none, Function.update_of_ne, h.slot i hi]
      · simp [h0]
      · intro hne
        exact h0 (index_injective hi (by omega)
          (hne.trans (by rw [Nat.add_zero, Nat.mod_eq_of_lt hlt])))
  | cons b l =>
    rw [h.scan_next, Option.getD_some]
    refine ⟨by omega, .inr (Nat.mod_lt _ (by omega)), fun i hi => ?_⟩
    rw [Nat.mod_add_mod, Nat.add_assoc]
    by_cases hlast : 1 + i = size
    · rw [hlast, Nat.add_mod_right, Nat.mod_eq_of_lt hlt, Function.update_self,
        List.getElem?_eq_none (by omega)]
    · rw [Function.update_of_ne, h.slot (1 + i) (by omega), Nat.add_comm 1 i,
        List.getElem?_cons_succ]
      intro hne
      have := index_injective (i := 1 + i) (j := 0) (by omega) (by omega)
        (hne.trans (by rw [Nat.add_zero, Nat.mod_eq_of_lt hlt]))
      omega

theorem head_valid {a : α} (h : Holds size slots head (a :: l)) : head < size := by
  have hlen := h.length_le
  simp only [List.length_cons] at hlen
  rcases h.head_lt with h | h <;> omega

/-- An element of the list is in the slot at its distance from the head. -/
theorem at_distance (h : Holds size slots head l) {i : Nat} (hi : i < l.length) :
    slots ((head + i) % size) = some l[i] := by
  rw [h.slot i (Nat.lt_of_lt_of_le hi h.length_le), List.getElem?_eq_getElem hi]

/-- What a slot holds is an element of the list, at some distance from the head. -/
theorem distance (h : Holds size slots head l) {i : Nat} {a : α} (hi : i < size)
    (ha : slots i = some a) : ∃ j, ∃ hj : j < l.length, (head + j) % size = i ∧ l[j] = a := by
  obtain ⟨j, hj, rfl⟩ := exists_distance head hi
  rw [h.slot j hj, List.getElem?_eq_some_iff] at ha
  obtain ⟨within, same⟩ := ha
  exact ⟨j, within, rfl, same⟩

theorem mem_of_slot (h : Holds size slots head l) {i : Nat} {a : α} (hi : i < size)
    (ha : slots i = some a) : a ∈ l := by
  obtain ⟨j, hj, -, rfl⟩ := h.distance hi ha
  exact List.getElem_mem hj

/-- The first element leaves, and the head moves on to the next slot. -/
theorem pop {a : α} (h : Holds size slots head (a :: l)) :
    Holds size (Function.update slots head none) ((head + 1) % size) l := by
  have valid := h.head_valid
  have hlen := h.length_le
  simp only [List.length_cons] at hlen
  refine ⟨by omega, .inr (Nat.mod_lt _ (by omega)), fun i hi => ?_⟩
  rw [Nat.mod_add_mod, Nat.add_assoc]
  by_cases last : 1 + i = size
  · rw [last, Nat.add_mod_right, Nat.mod_eq_of_lt valid, Function.update_self,
      List.getElem?_eq_none (by omega)]
  · rw [Function.update_of_ne, h.slot (1 + i) (by omega), Nat.add_comm 1 i,
      List.getElem?_cons_succ]
    intro same
    have := index_injective (i := 1 + i) (j := 0) (by omega) (by omega)
      (same.trans (by rw [Nat.add_zero, Nat.mod_eq_of_lt valid]))
    omega

/-- The last element leaves. -/
theorem unput {a : α} (h : Holds size slots head (l ++ [a])) :
    Holds size (Function.update slots ((head + l.length) % size) none) head l := by
  have hlen := h.length_le
  simp only [List.length_append, List.length_singleton] at hlen
  refine ⟨by omega, h.head_lt, fun i hi => ?_⟩
  by_cases last : i = l.length
  · subst last
    simp
  · rw [Function.update_of_ne (fun same => last (index_injective hi (by omega) same)),
      h.slot i hi]
    rcases Nat.lt_or_gt_of_ne last with before | behind
    · rw [List.getElem?_append_left before]
    · rw [List.getElem?_eq_none (by simp; omega), List.getElem?_eq_none (by omega)]

/-- The head of an empty array may be anywhere. -/
theorem reset (h : Holds size slots head []) : Holds size slots 0 [] := by
  refine ⟨Nat.zero_le _, .inl rfl, fun i hi => ?_⟩
  rw [Nat.zero_add, Nat.mod_eq_of_lt hi]
  by_contra full
  obtain ⟨a, full⟩ := Option.ne_none_iff_exists'.mp full
  exact absurd (h.mem_of_slot hi full) List.not_mem_nil

end Holds

/-- The slots from the head on hold the list. Nothing is said about the other slots, which
an array that only counts its elements does not clear. -/
structure Window (size : Nat) (slots : Nat → Option α) (head : Nat) (l : List α) : Prop where
  length_le : l.length ≤ size
  slot : ∀ i < l.length, slots ((head + i) % size) = l[i]?

namespace Window

theorem nil (size : Nat) (slots : Nat → Option α) (head : Nat) : Window size slots head [] :=
  ⟨Nat.zero_le _, fun _ hi => absurd hi (Nat.not_lt_zero _)⟩

/-- The elements, read one slot after the other. -/
theorem read (h : Window size slots head l) :
    (List.range l.length).map (fun i => slots ((head + i) % size)) = l.map some := by
  refine List.ext_getElem (by simp) fun i hi _ => ?_
  rw [List.length_map, List.length_range] at hi
  rw [List.getElem_map, List.getElem_range, h.slot i hi, List.getElem_map,
    List.getElem?_eq_getElem hi]

/-- A new element goes into the slot behind the last one. -/
theorem put (h : Window size slots head l) (room : l.length < size) (a : α) :
    Window size (Function.update slots ((head + l.length) % size) (some a)) head (l ++ [a]) where
  length_le := by simp only [List.length_append, List.length_singleton]; omega
  slot i hi := by
    rw [List.length_append, List.length_singleton] at hi
    by_cases last : i = l.length
    · subst last
      simp
    · rw [Function.update_of_ne (fun same => last (index_injective (by omega) room same)),
        h.slot i (by omega), List.getElem?_append_left (by omega)]

/-- The first element is in the slot of the head. -/
theorem first {a : α} (h : Window size slots head (a :: l)) : slots (head % size) = some a := by
  simpa using h.slot 0 (by simp)

/-- The head moves on behind the first element. -/
theorem pop {a : α} (h : Window size slots head (a :: l)) :
    Window size slots ((head + 1) % size) l where
  length_le := by
    have := h.length_le
    rw [List.length_cons] at this
    omega
  slot i hi := by
    have next := h.slot (i + 1) (by rw [List.length_cons]; omega)
    rw [List.getElem?_cons_succ] at next
    rw [Nat.mod_add_mod, Nat.add_assoc, Nat.add_comm 1 i, next]

end Window

end Ring
