import CircuitSections.Condition.Grouping
import Mathlib.Data.List.SplitBy
import Mathlib.Logic.Function.Basic
import Mathlib.Order.Bounds.Basic

/-!
# Folds by precedence and the groups of a list

Both folds read a list once and remember a single truth value, that of the group
they are in.  What they compute is said here by the groups of the whole list.
The lazy fold asks for a result exactly when the verdict may still depend on it.
-/

namespace CircuitSections

namespace Grouping

variable {α : Type} {joins : α → Option CombineOp}

/-- The items in groups, with a cut before every item but the first that is
joined by `or`. -/
def groups (joins : α → Option CombineOp) (items : List α) : List (List α) :=
  items.splitBy fun _ next => !startsGroup (joins next)

/-- Some group holds in all its members. -/
def someGroupHolds (value : α → Bool) (list : List (List α)) : Bool :=
  list.any fun group => group.all value

/-- The groups of a list that begins with the members of `current`. -/
def gather (joins : α → Option CombineOp) (current : List α) :
    List α → List (List α)
  | [] => [current]
  | item :: rest =>
    if startsGroup (joins item) then current :: gather joins [item] rest
    else gather joins (current ++ [item]) rest

theorem splitBy_loop (rest : List α) (item : α) (members : List α)
    (closed : List (List α)) :
    List.splitBy.loop (fun _ next => !startsGroup (joins next)) rest item
      members closed =
        closed.reverse ++ gather joins (members.reverse ++ [item]) rest := by
  induction rest generalizing item members closed with
  | nil => simp [List.splitBy.loop, gather]
  | cons next rest ih =>
      cases starts : startsGroup (joins next) with
      | true => simp [List.splitBy.loop, gather, starts, ih]
      | false => simp [List.splitBy.loop, gather, starts, ih]

theorem groups_cons (item : α) (rest : List α) :
    groups joins (item :: rest) = gather joins [item] rest :=
  splitBy_loop rest item [] []

theorem flatten_groups (joins : α → Option CombineOp) (items : List α) :
    (groups joins items).flatten = items :=
  List.flatten_splitBy _ items

theorem gather_map {β : Type} (f : β → α) (current rest : List β) :
    gather joins (current.map f) (rest.map f) =
      (gather (joins ∘ f) current rest).map (List.map f) := by
  induction rest generalizing current with
  | nil => rfl
  | cons item rest ih =>
      have one := ih [item]
      have more := ih (current ++ [item])
      rw [List.map_append] at more
      cases starts : startsGroup (joins (f item)) with
      | true => simpa [gather, starts] using one
      | false => simpa [gather, starts] using more

theorem groups_map {β : Type} (f : β → α) (items : List β) :
    groups joins (items.map f) =
      (groups (joins ∘ f) items).map (List.map f) := by
  cases items with
  | nil => rfl
  | cons item rest =>
      rw [List.map_cons, groups_cons, groups_cons]
      exact gather_map f [item] rest

/-! ### The eager fold -/

theorem resolveFrom_verdict (current rest : List (Option CombineOp × Bool)) :
    (resolveFrom (current.all Prod.snd) rest).1 =
      someGroupHolds Prod.snd (gather Prod.fst current rest) := by
  induction rest generalizing current with
  | nil => simp [resolveFrom, gather, someGroupHolds]
  | cons pair rest ih =>
      obtain ⟨op, result⟩ := pair
      cases starts : startsGroup op with
      | true =>
          cases holds : current.all Prod.snd with
          | true => simp [resolveFrom, gather, someGroupHolds, starts, holds]
          | false =>
              have later := ih [(op, result)]
              simp only [List.all_cons, List.all_nil, Bool.and_true] at later
              simp [resolveFrom, gather, someGroupHolds, starts, holds, later]
      | false =>
          have later := ih (current ++ [(op, result)])
          simp only [List.all_append, List.all_cons, List.all_nil,
            Bool.and_true] at later
          simp [resolveFrom, gather, starts, later]

theorem resolve_verdict (pairs : List (Option CombineOp × Bool)) :
    (resolve pairs).1 = someGroupHolds Prod.snd (groups Prod.fst pairs) := by
  cases pairs with
  | nil => rfl
  | cons pair rest =>
      have folded := resolveFrom_verdict [pair] rest
      rw [List.all_cons, List.all_nil, Bool.and_true] at folded
      rw [groups_cons]
      exact folded

/-- The pair at a later index than the first is joined by `or`, and the group
before it holds. -/
def Closes (pairs : List (Option CombineOp × Bool)) (i : Nat) : Prop :=
  0 < i ∧ (∃ result, pairs[i]? = some (some .or, result)) ∧
    ∃ group, (groups Prod.fst (pairs.take i)).getLast? = some group ∧
      ∀ pair ∈ group, pair.2 = true

/-- Whether the last of the groups holds. -/
def lastHolds (pairs : List (Option CombineOp × Bool)) : Bool :=
  ((groups Prod.fst pairs).getLast?).any fun group => group.all Prod.snd

theorem groups_concat_of_starts (joins : α → Option CombineOp) {item : α}
    (starts : startsGroup (joins item) = true) (front : List α) :
    groups joins (front ++ [item]) = groups joins front ++ [[item]] := by
  apply List.splitBy_append_cons
  intro _ _
  rw [starts]
  rfl

theorem gather_concat {item : α} (joined : startsGroup (joins item) = false)
    (current rest : List α) :
    ∃ before last, gather joins current rest = before ++ [last] ∧
      gather joins current (rest ++ [item]) = before ++ [last ++ [item]] := by
  induction rest generalizing current with
  | nil => exact ⟨[], current, rfl, by simp [gather, joined]⟩
  | cons next rest ih =>
      rw [List.cons_append]
      cases starts : startsGroup (joins next) with
      | true =>
          obtain ⟨before, last, gathered, extended⟩ := ih [next]
          exact ⟨current :: before, last, by simp [gather, starts, gathered],
            by simp [gather, starts, extended]⟩
      | false =>
          simpa [gather, starts] using ih (current ++ [next])

theorem groups_concat_of_joined (joins : α → Option CombineOp) {item : α}
    (joined : startsGroup (joins item) = false) {front : List α}
    (some_front : front ≠ []) :
    ∃ before last, groups joins front = before ++ [last] ∧
      groups joins (front ++ [item]) = before ++ [last ++ [item]] := by
  cases front with
  | nil => exact absurd rfl some_front
  | cons first rest =>
      rw [List.cons_append, groups_cons, groups_cons]
      exact gather_concat joined [first] rest

theorem lastHolds_concat {front : List (Option CombineOp × Bool)}
    (some_front : front ≠ []) (op : Option CombineOp) (result : Bool) :
    lastHolds (front ++ [(op, result)]) =
      if startsGroup op then result else lastHolds front && result := by
  let pair : Option CombineOp × Bool := (op, result)
  cases starts : startsGroup op with
  | true =>
      have opens : startsGroup pair.1 = true := starts
      have cut := groups_concat_of_starts Prod.fst opens front
      simp [lastHolds, pair, cut]
  | false =>
      have joined : startsGroup pair.1 = false := starts
      obtain ⟨before, last, grouped, extended⟩ :=
        groups_concat_of_joined Prod.fst joined some_front
      simp [lastHolds, pair, grouped, extended]

theorem lastHolds_iff {pairs : List (Option CombineOp × Bool)} :
    lastHolds pairs = true ↔
      ∃ group, (groups Prod.fst pairs).getLast? = some group ∧
      ∀ pair ∈ group, pair.2 = true := by
  unfold lastHolds
  rw [Option.any_eq_true]
  simp only [List.all_eq_true]

theorem closes_length_iff {front : List (Option CombineOp × Bool)}
    (some_front : front ≠ []) (pair : Option CombineOp × Bool)
    (rest : List (Option CombineOp × Bool)) :
    Closes (front ++ pair :: rest) front.length ↔
      startsGroup pair.1 = true ∧ lastHolds front = true := by
  have positive : 0 < front.length := List.length_pos_of_ne_nil some_front
  have joined :
      (∃ result, (front ++ pair :: rest)[front.length]? =
        some (some .or, result)) ↔
        startsGroup pair.1 = true := by
    obtain ⟨op, result⟩ := pair
    simp [startsGroup]
  unfold Closes
  rw [joined, List.take_left, lastHolds_iff]
  exact and_iff_right positive

/-- What is left of the pairs when the fold stops, if it has not stopped before
`start`. -/
def StopsFrom (start : Nat) (pairs unread : List (Option CombineOp × Bool)) :
    Prop :=
  (unread = [] ∧ ∀ i, start ≤ i → ¬ Closes pairs i) ∨
    ∃ i, start ≤ i ∧ Closes pairs i ∧
      (∀ j, start ≤ j → j < i → ¬ Closes pairs j) ∧
      unread = pairs.drop (i + 1)

theorem StopsFrom.of_succ {start : Nat}
    {pairs unread : List (Option CombineOp × Bool)}
    (open_here : ¬ Closes pairs start)
    (stops : StopsFrom (start + 1) pairs unread) :
    StopsFrom start pairs unread := by
  have still_open {j : Nat} (after : start ≤ j)
      (later : start + 1 ≤ j → ¬ Closes pairs j) :
      ¬ Closes pairs j := by
    rcases Nat.eq_or_lt_of_le after with rfl | beyond
    · exact open_here
    · exact later beyond
  rcases stops with ⟨all_read, never⟩ | ⟨i, after, closes, least, unread_eq⟩
  · exact .inl ⟨all_read, fun i after => still_open after (never i)⟩
  · refine .inr ⟨i, Nat.le_of_succ_le after, closes, ?_, unread_eq⟩
    intro j within before
    exact still_open within fun beyond => least j beyond before

theorem stopsFrom_resolveFrom {front : List (Option CombineOp × Bool)}
    (some_front : front ≠ []) (rest : List (Option CombineOp × Bool)) :
    StopsFrom front.length (front ++ rest)
      (resolveFrom (lastHolds front) rest).2 := by
  induction rest generalizing front with
  | nil =>
      refine .inl ⟨rfl, ?_⟩
      rintro i after ⟨_, ⟨result, found⟩, _⟩
      rw [List.append_nil, List.getElem?_eq_none after] at found
      cases found
  | cons pair rest ih =>
      obtain ⟨op, result⟩ := pair
      have here := closes_length_iff some_front (op, result) rest
      have longer : front ++ [(op, result)] ≠ [] := by simp
      have later := ih longer
      rw [lastHolds_concat some_front, List.length_append,
        List.append_assoc] at later
      cases starts : startsGroup op with
      | true =>
          cases holds : lastHolds front with
          | true =>
              refine .inr
                ⟨front.length, Nat.le_refl _, here.mpr ⟨starts, holds⟩, ?_, ?_⟩
              · intro j after before
                exact absurd before (Nat.not_lt.mpr after)
              · simp [resolveFrom, starts, List.drop_append]
          | false =>
              simp only [starts, if_true] at later
              refine StopsFrom.of_succ (fun closes => ?_) ?_
              · exact absurd (here.mp closes).2 (by simp [holds])
              · simpa [resolveFrom, starts, holds] using later
      | false =>
          simp only [starts, Bool.false_eq_true, if_false] at later
          refine StopsFrom.of_succ (fun closes => ?_) ?_
          · exact absurd (here.mp closes).1 (by simp [starts])
          · simpa [resolveFrom, starts] using later

theorem stopsFrom_resolve (pairs : List (Option CombineOp × Bool)) :
    StopsFrom 0 pairs (resolve pairs).2 := by
  cases pairs with
  | nil => exact .inl ⟨rfl, fun i _ closes => by simp [Closes] at closes⟩
  | cons pair rest =>
      have stops := stopsFrom_resolveFrom (List.cons_ne_nil pair []) rest
      have single : lastHolds [pair] = pair.2 := by
        simp [lastHolds, groups_cons, gather]
      rw [single] at stops
      exact StopsFrom.of_succ (fun closes => Nat.lt_irrefl 0 closes.1) stops

theorem unread_of_isLeast {pairs : List (Option CombineOp × Bool)} {i : Nat}
    (least : IsLeast {i | Closes pairs i} i) :
    (resolve pairs).2 = pairs.drop (i + 1) := by
  rcases stopsFrom_resolve pairs with ⟨_, never⟩ |
    ⟨j, _, closes, before, unread⟩
  · exact absurd least.1 (never i (Nat.zero_le i))
  · have same : i = j := by
      rcases Nat.eq_or_lt_of_le (least.2 closes) with same | earlier
      · exact same
      · exact absurd least.1 (before i (Nat.zero_le i) earlier)
    rw [unread, same]

theorem unread_of_never {pairs : List (Option CombineOp × Bool)}
    (never : ∀ i, ¬ Closes pairs i) : (resolve pairs).2 = [] := by
  rcases stopsFrom_resolve pairs with ⟨all_read, _⟩ | ⟨i, _, closes, _⟩
  · exact all_read
  · exact absurd closes (never i)

end Grouping

end CircuitSections
