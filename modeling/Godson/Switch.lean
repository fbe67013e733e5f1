import Mathlib.Data.List.Chain

/-! A switch that keeps packets whole. Flits come to its inputs packet after packet, and an
output that has taken the first flit of a packet takes from the same input until the last
one. Only the flits at the head of an input are looked at. -/
namespace Switch

variable {ι ο α : Type*}

/-- What is to be known of flits: the ends of packets, the order within a packet, and the
output that a flit wants, which is the same for all of a packet. -/
structure Format (ο α : Type*) where
  First : α → Prop
  Last : α → Prop
  Next : α → α → Prop
  route : α → ο
  route_next {a b : α} : Next a b → route b = route a

variable (fmt : Format ο α)

/-- Flit `b` may come behind flit `a`. -/
def Format.Follows (a b : α) : Prop :=
  (fmt.Last a → fmt.First b) ∧ (¬ fmt.Last a → fmt.Next a b)

/-- Packet after packet, the last one perhaps unfinished. -/
structure Whole (l : List α) : Prop where
  chain : l.IsChain fmt.Follows
  first : ∀ a ∈ l.head?, fmt.First a

variable {fmt}

theorem Whole.nil : Whole fmt [] := ⟨.nil, by simp⟩

theorem Whole.left {l l' : List α} (h : Whole fmt (l ++ l')) : Whole fmt l := by
  refine ⟨h.chain.left_of_append, fun a ha => h.first a ?_⟩
  rw [List.head?_append, Option.mem_def.mp ha]
  rfl

/-- The first of the later flits continues what came before. -/
theorem Whole.follows {l l' : List α} {a b : α} (h : Whole fmt (l ++ b :: l'))
    (last : l.getLast? = some a) : fmt.Follows a b :=
  (List.isChain_append.mp h.chain).2.2 a last b rfl

/-- Behind whole packets comes the first flit of another one. -/
theorem Whole.opens {l l' : List α} {b : α} (h : Whole fmt (l ++ b :: l'))
    (ended : ∀ a, l.getLast? = some a → fmt.Last a) : fmt.First b := by
  cases last : l.getLast? with
  | none =>
    rw [List.getLast?_eq_none_iff] at last
    subst last
    exact h.first b rfl
  | some a => exact (h.follows last).1 (ended a last)

theorem Whole.concat {l : List α} {b : α} (h : Whole fmt l)
    (follows : ∀ a, l.getLast? = some a → fmt.Follows a b) (first : l = [] → fmt.First b) :
    Whole fmt (l ++ [b]) := by
  constructor
  · rw [List.isChain_append]
    refine ⟨h.chain, List.isChain_singleton b, fun a ha c hc => ?_⟩
    obtain rfl : b = c := Option.some.inj hc
    exact follows a ha
  · intro c hc
    cases l with
    | nil =>
      obtain rfl : b = c := Option.some.inj hc
      exact first rfl
    | cons a l => exact h.first c hc

variable (ι ο α) in
/-- The flits that have left each input, those that wait there, those that went to each
output, and the input that an output takes from. -/
structure State where
  past : ι → List α
  wait : ι → List α
  sent : ο → List α
  owner : ο → Option ι

variable (fmt) in
/-- A packet that has left its input in part has an output that takes from this input. -/
structure Kept (s : State ι ο α) : Prop where
  input : ∀ i, Whole fmt (s.past i ++ s.wait i)
  output : ∀ o, Whole fmt (s.sent o)
  owned : ∀ o i, s.owner o = some i → ∃ a, (s.past i).getLast? = some a ∧
    (s.sent o).getLast? = some a ∧ ¬ fmt.Last a ∧ fmt.route a = o
  free : ∀ o, s.owner o = none → ∀ a, (s.sent o).getLast? = some a → fmt.Last a
  held : ∀ i a, (s.past i).getLast? = some a → ¬ fmt.Last a → ∃ o, s.owner o = some i

variable (fmt) in
/-- An output may take the flit at the head of the input that it takes from already, or any
flit that wants it while it is free. -/
structure Grant (s : State ι ο α) (o : ο) (i : ι) (a : α) : Prop where
  head : (s.wait i).head? = some a
  turn : s.owner o = some i ∨ s.owner o = none ∧ fmt.route a = o

variable (fmt) in
/-- A round of grants. -/
structure Round (s t : State ι ο α) (g : ο → Option (ι × α)) : Prop where
  grant : ∀ o i a, g o = some (i, a) → Grant fmt s o i a
  sent : ∀ o, t.sent o = s.sent o ++ ((g o).map Prod.snd).toList
  rest : ∀ o, g o = none → t.owner o = s.owner o
  ends : ∀ o i a, g o = some (i, a) → fmt.Last a → t.owner o = none
  goes : ∀ o i a, g o = some (i, a) → ¬ fmt.Last a → t.owner o = some i
  taken : ∀ o i a, g o = some (i, a) → t.past i = s.past i ++ [a] ∧ s.wait i = a :: t.wait i
  other : ∀ i, (∀ o a, g o ≠ some (i, a)) → t.past i = s.past i ∧ t.wait i = s.wait i

variable {s t : State ι ο α} {g : ο → Option (ι × α)} {o o' : ο} {i : ι} {a b : α}

theorem Grant.wait (now : Grant fmt s o i b) : ∃ rest, s.wait i = b :: rest :=
  List.head?_eq_some_iff.mp now.head

/-- The flit at the head of an input from which an output takes comes next on that output. -/
theorem Kept.resume (h : Kept fmt s) (own : s.owner o = some i)
    (head : (s.wait i).head? = some b) :
    ∃ a, (s.sent o).getLast? = some a ∧ fmt.Follows a b ∧ fmt.route b = o := by
  obtain ⟨a, past, sent, open_, route⟩ := h.owned o i own
  obtain ⟨rest, wait⟩ := List.head?_eq_some_iff.mp head
  have follows := (wait ▸ h.input i).follows past
  exact ⟨a, sent, follows, (fmt.route_next (follows.2 open_)).trans route⟩

theorem Kept.grant_route (h : Kept fmt s) (now : Grant fmt s o i b) : fmt.route b = o := by
  rcases now.turn with own | ⟨-, route⟩
  · obtain ⟨a, -, -, route⟩ := h.resume own now.head
    exact route
  · exact route

/-- A free output is only asked for by the first flit of a packet. -/
theorem Kept.grant_first (h : Kept fmt s) (free : s.owner o = none)
    (head : (s.wait i).head? = some b) (route : fmt.route b = o) : fmt.First b := by
  obtain ⟨rest, wait⟩ := List.head?_eq_some_iff.mp head
  have whole := h.input i
  rw [wait] at whole
  apply whole.opens
  intro a past
  by_contra going
  obtain ⟨o', own⟩ := h.held i a past going
  obtain ⟨-, -, -, route'⟩ := h.resume own head
  rw [← route, route', own] at free
  cases free

theorem Round.whole (h : Kept fmt s) (round : Round fmt s t g) (o : ο) : Whole fmt (t.sent o) := by
  rw [round.sent]
  cases now : g o with
  | none =>
    rw [Option.map_none, Option.toList_none, List.append_nil]
    exact h.output o
  | some next =>
    obtain ⟨i, b⟩ := next
    have grant := round.grant o i b now
    apply (h.output o).concat
    · intro a last
      rcases grant.turn with own | ⟨free, route⟩
      · obtain ⟨a', last', follows, -⟩ := h.resume own grant.head
        obtain rfl : a' = a := Option.some.inj (last'.symm.trans last)
        exact follows
      · exact ⟨fun _ => h.grant_first free grant.head route, fun no => absurd (h.free o free a last) no⟩
    · intro empty
      rcases grant.turn with own | ⟨free, route⟩
      · obtain ⟨a, last, -⟩ := h.resume own grant.head
        rw [empty] at last
        cases last
      · exact h.grant_first free grant.head route

theorem Round.input (round : Round fmt s t g) (i : ι) :
    t.past i ++ t.wait i = s.past i ++ s.wait i := by
  by_cases now : ∃ o a, g o = some (i, a)
  · obtain ⟨o, a, now⟩ := now
    obtain ⟨past, wait⟩ := round.taken o i a now
    rw [past, wait, List.append_assoc]
    rfl
  · obtain ⟨past, wait⟩ := round.other i fun o a now' => now ⟨o, a, now'⟩
    rw [past, wait]

/-- An output that has nothing granted in a round keeps the input that it takes from, and
nothing of this input goes elsewhere. -/
theorem Round.waits (h : Kept fmt s) (round : Round fmt s t g) (none_ : g o = none)
    (own : s.owner o = some i) : t.past i = s.past i ∧ t.wait i = s.wait i := by
  apply round.other
  intro o' a now
  have grant := round.grant o' i a now
  obtain ⟨-, -, -, route⟩ := h.resume own grant.head
  rw [← h.grant_route grant, route, none_] at now
  cases now

theorem Kept.round (h : Kept fmt s) (round : Round fmt s t g) : Kept fmt t := by
  constructor
  case input =>
    intro i
    rw [round.input]
    exact h.input i
  case output => exact round.whole h
  case owned =>
    intro o i own
    cases now : g o with
    | none =>
      rw [round.rest o now] at own
      obtain ⟨a, past, sent, going, route⟩ := h.owned o i own
      rw [(round.waits h now own).1, round.sent, now]
      exact ⟨a, past, by simpa using sent, going, route⟩
    | some next =>
      obtain ⟨j, b⟩ := next
      have going : ¬ fmt.Last b := by
        intro last
        rw [round.ends o j b now last] at own
        cases own
      obtain rfl : j = i := Option.some.inj ((round.goes o j b now going).symm.trans own)
      refine ⟨b, ?_, ?_, going, h.grant_route (round.grant o j b now)⟩
      · rw [(round.taken o j b now).1]
        exact List.getLast?_concat
      · rw [round.sent, now]
        exact List.getLast?_concat
  case free =>
    intro o own a last
    cases now : g o with
    | none =>
      rw [round.rest o now] at own
      apply h.free o own
      simpa [round.sent, now] using last
    | some next =>
      obtain ⟨j, b⟩ := next
      have same : (s.sent o ++ [b]).getLast? = some a := by
        simpa [round.sent, now] using last
      obtain rfl : b = a := Option.some.inj (List.getLast?_concat.symm.trans same)
      by_contra going
      rw [round.goes o j b now going] at own
      cases own
  case held =>
    intro i a past going
    by_cases now : ∃ o b, g o = some (i, b)
    · obtain ⟨o, b, now⟩ := now
      rw [(round.taken o i b now).1, List.getLast?_concat] at past
      obtain rfl := Option.some.inj past
      exact ⟨o, round.goes o i b now going⟩
    · obtain ⟨same, -⟩ := round.other i fun o b now' => now ⟨o, b, now'⟩
      rw [same] at past
      obtain ⟨o, own⟩ := h.held i a past going
      refine ⟨o, ?_⟩
      cases out : g o with
      | none => exact (round.rest o out).trans own
      | some next =>
        -- the output took from its own input
        obtain ⟨j, b⟩ := next
        exfalso
        rcases (round.grant o j b out).turn with own' | ⟨free, -⟩
        · obtain rfl := Option.some.inj (own.symm.trans own')
          exact now ⟨o, b, out⟩
        · rw [own] at free
          cases free

/-- Flits come to the inputs. -/
theorem Kept.arrive (h : Kept fmt s) {wait : ι → List α}
    (whole : ∀ i, Whole fmt (s.past i ++ wait i)) : Kept fmt { s with wait } :=
  ⟨whole, h.output, h.owned, h.free, h.held⟩

theorem Kept.start (sent : ∀ o, s.sent o = []) (past : ∀ i, s.past i = [])
    (wait : ∀ i, s.wait i = []) (owner : ∀ o, s.owner o = none) : Kept fmt s := by
  constructor
  case input =>
    intro i
    rw [past, wait]
    exact Whole.nil
  case output =>
    intro o
    rw [sent]
    exact Whole.nil
  case owned =>
    intro o i own
    rw [owner] at own
    cases own
  case free =>
    intro o _ a last
    rw [sent] at last
    cases last
  case held =>
    intro i a last
    rw [past] at last
    cases last

end Switch
