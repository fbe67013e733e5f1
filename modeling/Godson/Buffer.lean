import Godson.Routing

/-! The input buffers of a router are queues: the array with its head index and
its count holds a list, arrivals go to the end and departures leave at the front. -/
namespace Godson

@[simp] theorem update2_self {β : Type} (f : Chan → Direction → β) (type : Chan) (d : Direction)
    (b : β) : update2 f type d b type d = b := by
  simp [update2]

theorem update2_of_ne {β : Type} {f : Chan → Direction → β} {type type' : Chan} {d d' : Direction}
    {b : β} (h : ¬(type' = type ∧ d' = d)) : update2 f type d b type' d' = f type' d' := by
  unfold update2
  by_cases ht : type' = type
  · subst ht
    rw [Function.update_self, Function.update_of_ne fun hd => h ⟨rfl, hd⟩]
  · rw [Function.update_of_ne ht]

theorem update2_apply {β : Type} (f : Chan → Direction → β) (type type' : Chan) (d d' : Direction)
    (b : β) : update2 f type d b type' d' = if type' = type ∧ d' = d then b else f type' d' := by
  split_ifs with h
  · obtain ⟨rfl, rfl⟩ := h
    exact update2_self ..
  · exact update2_of_ne h

@[simp] theorem update2_eq_self {β : Type} (f : Chan → Direction → β) (type : Chan)
    (d : Direction) : update2 f type d (f type d) = f := by
  simp [update2]

namespace Router

variable (size : Nat)

/-- The flits in an input buffer, first come first. -/
def buf (r : Router) (type : Chan) (d : Direction) : List Flit :=
  Ring.toList size (r.ingress type d) (r.ingressHead type d)

/-- Every input buffer holds its list, and every flit knows its place. -/
structure Wf (r : Router) : Prop where
  holds : ∀ type d, Ring.Holds size (r.ingress type d) (r.ingressHead type d) (r.buf size type d)
  num : ∀ type d, r.ingressNum type d = (r.buf size type d).length
  place : ∀ type d i p, (r.buf size type d)[i]? = some p →
    p.sourceChannel = d ∧ p.index = (r.ingressHead type d + i) % size

variable {size} {r : Router}

/-- A router whose buffers hold the given lists. -/
theorem wf_of_holds {q : Chan → Direction → List Flit}
    (holds : ∀ type d, Ring.Holds size (r.ingress type d) (r.ingressHead type d) (q type d))
    (num : ∀ type d, r.ingressNum type d = (q type d).length)
    (place : ∀ type d i p, (q type d)[i]? = some p →
      p.sourceChannel = d ∧ p.index = (r.ingressHead type d + i) % size) :
    r.Wf size ∧ ∀ type d, r.buf size type d = q type d := by
  have hbuf : ∀ type d, r.buf size type d = q type d := fun type d => (holds type d).toList_eq
  refine ⟨⟨fun type d => ?_, fun type d => ?_, fun type d => ?_⟩, hbuf⟩
  · rw [hbuf]
    exact holds type d
  · rw [hbuf]
    exact num type d
  · rw [hbuf]
    exact place type d

/-- The flit a non-empty buffer shows to the arbiter. -/
theorem Wf.ingressFirst_eq (h : r.Wf size) (type : Chan) (d : Direction) :
    r.ingressFirst type d = (r.buf size type d).head? := by
  unfold ingressFirst
  rw [h.num]
  cases hb : r.buf size type d with
  | nil => simp
  | cons p l =>
    rw [if_pos (by simp), (h.holds type d).slot_head (by simp [hb]), hb]

/-- A flit arrives at a buffer with room: it is the last one now. -/
theorem Wf.flitArrive (h : r.Wf size) {type : Chan} {d : Direction} (p : Flit)
    (hroom : (r.buf size type d).length < size) :
    ∃ pos r', r.flitArrive size p type d = .ok r' ∧ r'.Wf size ∧
      r'.buf size = update2 (r.buf size) type d
        (r.buf size type d ++ [{ p with sourceChannel := d, index := pos }]) ∧
      r'.egressCredit = r.egressCredit ∧ r'.egressGrant = r.egressGrant := by
  have hscan := (h.holds type d).scan_free hroom
  set pos := (r.ingressHead type d + (r.buf size type d).length) % size with hpos
  set p' : Flit := { p with sourceChannel := d, index := pos } with hp'
  set r' : Router := { r with
    ingress := update2 r.ingress type d (Function.update (r.ingress type d) pos (some p'))
    ingressNum := update2 r.ingressNum type d (r.ingressNum type d + 1) } with hr'
  have hok : r.flitArrive size p type d = .ok r' := by
    simp only [Router.flitArrive, store, hscan, countIn]
    rw [if_pos (by rw [h.num]; omega)]
  have hspec : r'.Wf size ∧ ∀ t e, r'.buf size t e =
      update2 (r.buf size) type d (r.buf size type d ++ [p']) t e := wf_of_holds ?_ ?_ ?_
  · exact ⟨pos, r', hok, hspec.1, funext fun t => funext fun e => hspec.2 t e, rfl, rfl⟩
  · intro t e
    by_cases hte : t = type ∧ e = d
    · obtain ⟨rfl, rfl⟩ := hte
      simpa [hr'] using (h.holds t e).put hroom p'
    · simpa [hr', update2_of_ne hte] using h.holds t e
  · intro t e
    by_cases hte : t = type ∧ e = d
    · obtain ⟨rfl, rfl⟩ := hte
      simp [hr', h.num]
    · simpa [hr', update2_of_ne hte] using h.num t e
  · intro t e i q hq
    by_cases hte : t = type ∧ e = d
    · obtain ⟨rfl, rfl⟩ := hte
      rw [update2_self] at hq
      rcases Nat.lt_trichotomy i (r.buf size t e).length with hi | hi | hi
      · rw [List.getElem?_append_left hi] at hq
        exact h.place t e i q hq
      · rw [hi, List.getElem?_concat_length, Option.some.injEq] at hq
        subst hq
        exact ⟨rfl, by rw [hi]⟩
      · rw [List.getElem?_eq_none (by simp; omega)] at hq
        exact absurd hq (by simp)
    · rw [update2_of_ne hte] at hq
      exact h.place t e i q hq

/-- The first flit of a buffer is in the slot at the head. -/
theorem Wf.index_head (h : r.Wf size) {type : Chan} {p : Flit} {l : List Flit}
    (hp : r.buf size type p.sourceChannel = p :: l) :
    p.index = r.ingressHead type p.sourceChannel := by
  have hholds := h.holds type p.sourceChannel
  rw [hp] at hholds
  have hlen := hholds.length_le
  simp only [List.length_cons] at hlen
  have := (h.place type p.sourceChannel 0 p (by rw [hp]; rfl)).2
  rcases hholds.head_lt with h0 | h0
  · rw [this, Nat.add_zero, Nat.mod_eq_of_lt (by omega)]
  · rw [this, Nat.add_zero, Nat.mod_eq_of_lt h0]

/-- A granted flit departs: it was the first one, and its output pays a credit. -/
theorem Wf.packetDepart (h : r.Wf size) {type : Chan} {out : Direction} {p : Flit} {l : List Flit}
    (hp : r.buf size type p.sourceChannel = p :: l)
    (hcredit : 0 < r.egressCredit type out ∨ out = .home ∧ 0 ≤ r.egressCredit type out) :
    ∃ r', r.packetDepart size p type out = .ok r' ∧ r'.Wf size ∧
      r'.buf size = update2 (r.buf size) type p.sourceChannel l ∧
      r'.egressCredit = update2 r.egressCredit type out
        (r.egressCredit type out - if out = .home then 0 else 1) ∧
      r'.egressGrant = r.egressGrant := by
  have hidx := h.index_head hp
  obtain ⟨d, hd⟩ : ∃ d, p.sourceChannel = d := ⟨_, rfl⟩
  rw [hd] at hp hidx ⊢
  have hholds := h.holds type d
  rw [hp] at hholds
  have hlen := hholds.length_le
  simp only [List.length_cons] at hlen
  set slots := Function.update (r.ingress type d) (r.ingressHead type d) none with hslots
  set head := (Ring.scanFrom size (r.ingressHead type d) fun i => (slots i).isSome).getD
    (r.ingressHead type d) with hhead
  have hmoved : updateIngressHead size type d { r with ingress := update2 r.ingress type d slots } =
      { r with
        ingress := update2 r.ingress type d slots
        ingressHead := update2 r.ingressHead type d head } := by
    simp only [updateIngressHead, update2_self]
    cases hscan : Ring.scanFrom size (r.ingressHead type d) fun i => (slots i).isSome with
    | none =>
      have : head = r.ingressHead type d := by rw [hhead, hscan]; rfl
      rw [this, update2_eq_self]
    | some pos =>
      have : head = pos := by rw [hhead, hscan]; rfl
      rw [this]
  set r' : Router := { r with
    ingress := update2 r.ingress type d slots
    ingressHead := update2 r.ingressHead type d head
    ingressNum := update2 r.ingressNum type d (r.ingressNum type d - 1)
    egressCredit := update2 r.egressCredit type out
      (r.egressCredit type out - if out = .home then 0 else 1) } with hr'
  have hok : r.packetDepart size p type out = .ok r' := by
    have hnum : r.ingressNum type d = l.length + 1 := by rw [h.num, hp]; simp
    have hc : ¬ (r.egressCredit type out - if out = .home then 0 else 1) < 0 := by
      rcases hcredit with hc | ⟨rfl, hc⟩
      · split_ifs <;> omega
      · simpa using hc
    simp only [Router.packetDepart, hd, hidx, ← hslots, hmoved]
    rw [if_neg (by rw [hnum]; omega), if_neg hc]
  have hspec : r'.Wf size ∧ ∀ t e, r'.buf size t e = update2 (r.buf size) type d l t e :=
    wf_of_holds ?_ ?_ ?_
  · exact ⟨r', hok, hspec.1, funext fun t => funext fun e => hspec.2 t e, rfl, rfl⟩
  · intro t e
    by_cases hte : t = type ∧ e = d
    · obtain ⟨rfl, rfl⟩ := hte
      simpa [hr'] using hholds.take
    · simpa [hr', update2_of_ne hte] using h.holds t e
  · intro t e
    by_cases hte : t = type ∧ e = d
    · obtain ⟨rfl, rfl⟩ := hte
      simp [hr', h.num, hp]
    · simpa [hr', update2_of_ne hte] using h.num t e
  · intro t e i q hq
    by_cases hte : t = type ∧ e = d
    · obtain ⟨rfl, rfl⟩ := hte
      rw [update2_self] at hq
      obtain ⟨hs, hi⟩ := h.place t e (i + 1) q (by rw [hp, List.getElem?_cons_succ, hq])
      refine ⟨hs, ?_⟩
      have hne : l ≠ [] := by rintro rfl; simp at hq
      obtain ⟨b, l', rfl⟩ := List.exists_cons_of_ne_nil hne
      have : head = (r.ingressHead t e + 1) % size := by
        rw [hhead, hslots, hholds.scan_next, Option.getD_some]
      simp only [hr', update2_self, this, Nat.mod_add_mod]
      rw [hi]
      congr 1
      omega
    · rw [update2_of_ne hte] at hq
      simpa [hr', update2_of_ne hte] using h.place t e i q hq

/-- A credit comes back to an output. -/
theorem updateCredit_spec (type : Chan) (d : Direction)
    (hroom : r.egressCredit type d + 1 ≤ size) :
    ∃ r', r.updateCredit size type d = .ok r' ∧ r'.buf size = r.buf size ∧
      r'.egressGrant = r.egressGrant ∧ ∀ t e, r.egressCredit t e ≤ r'.egressCredit t e := by
  refine ⟨_, if_pos hroom, rfl, rfl, fun t e => ?_⟩
  simp only [update2_apply]
  split_ifs with hte
  · rw [hte.1, hte.2]
    omega
  · exact Int.le_refl _

/-- An arrival changes one buffer and its count. -/
theorem flitArrive_eq {p : Flit} {type : Chan} {d : Direction} {r' : Router}
    (ok : r.flitArrive size p type d = .ok r') :
    r' = { r with ingress := r'.ingress, ingressNum := r'.ingressNum } := by
  simp only [flitArrive, countIn] at ok
  split at ok
  · obtain rfl := Except.ok.inj ok
    simp only [store]
    split <;> rfl
  · cases ok

theorem updateCredit_eq {type : Chan} {d : Direction} {r' : Router}
    (ok : r.updateCredit size type d = .ok r') :
    r' = { r with egressCredit := update2 r.egressCredit type d (r.egressCredit type d + 1) } := by
  simp only [updateCredit] at ok
  split_ifs at ok
  exact (Except.ok.inj ok).symm

end Router

end Godson
