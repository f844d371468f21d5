import CircuitSections.Proofs.Condition.Groups

/-!
# The results that a lazy fold asks for

Within a group the results are asked for up to the first that fails, and the
first group that holds ends the fold.  Nothing less would do: each result asked
for decides the verdict for some outcome of the conditions after it, and no
result that was not asked for can change it.
-/

namespace CircuitSections

namespace Grouping

variable {α : Type} {joins : α → Option CombineOp}

/-- An evaluator that knows the results and writes down the positions it is
asked for. -/
def asking (position : α → Nat) (value : α → Bool) (item : α) :
    StateM (List Nat) Bool :=
  modifyGet fun asked => (value item, asked ++ [position item])

/-- The members of a group up to the first that fails. -/
def upToFailure (value : α → Bool) : List α → List α
  | [] => []
  | item :: rest => item :: if value item then upToFailure value rest else []

/-- What is looked at in groups of which the first that holds is the last one
entered. -/
def visited (value : α → Bool) : List (List α) → List α
  | [] => []
  | group :: rest =>
    upToFailure value group ++ if group.all value then []
      else visited value rest

/-- The item stands after members that hold, in a group after groups that do
not. -/
def Needed (value : α → Bool) (list : List (List α)) (item : α) : Prop :=
  ∃ before earlier later after,
    list = before ++ (earlier ++ item :: later) :: after ∧
    (∀ group ∈ before, ∃ member ∈ group, value member = false) ∧
      ∀ member ∈ earlier, value member = true

section Visited

variable {value : α → Bool}

theorem upToFailure_concat (current : List α) (item : α) :
    upToFailure value (current ++ [item]) =
      upToFailure value current ++ if current.all value then [item]
        else [] := by
  induction current with
  | nil => simp [upToFailure]
  | cons first rest ih =>
      cases holds : value first with
      | true => simp [upToFailure, holds, ih]
      | false => simp [upToFailure, holds]

theorem upToFailure_sublist (group : List α) :
    (upToFailure value group).Sublist group := by
  induction group with
  | nil => exact List.nil_sublist _
  | cons first rest ih =>
      apply List.Sublist.cons_cons
      split
      · exact ih
      · exact List.nil_sublist _

theorem visited_sublist (value : α → Bool) (list : List (List α)) :
    (visited value list).Sublist list.flatten := by
  induction list with
  | nil => exact List.nil_sublist _
  | cons group rest ih =>
      apply List.Sublist.append (upToFailure_sublist group)
      split
      · exact List.nil_sublist _
      · exact ih

theorem mem_upToFailure {group : List α} {item : α} :
    item ∈ upToFailure value group ↔ ∃ earlier later,
      group = earlier ++ item :: later ∧
      ∀ member ∈ earlier, value member = true := by
  induction group with
  | nil => simp [upToFailure]
  | cons first rest ih =>
      rw [upToFailure, List.mem_cons]
      constructor
      · rintro (rfl | later)
        · exact ⟨[], rest, rfl, List.forall_mem_nil _⟩
        · cases holds : value first with
          | false => simp [holds] at later
          | true =>
              simp only [holds, if_true] at later
              obtain ⟨earlier, after, rfl, hold⟩ := ih.mp later
              exact ⟨first :: earlier, after, rfl,
                List.forall_mem_cons.mpr ⟨holds, hold⟩⟩
      · rintro ⟨earlier, later, split_at, hold⟩
        cases earlier with
        | nil =>
            cases split_at
            exact .inl rfl
        | cons head tail =>
            cases split_at
            obtain ⟨holds, hold⟩ := List.forall_mem_cons.mp hold
            rw [holds]
            exact .inr (ih.mpr ⟨tail, later, rfl, hold⟩)

theorem all_eq_false_iff {group : List α} :
    group.all value = false ↔ ∃ member ∈ group, value member = false := by
  simp

theorem mem_visited {list : List (List α)} {item : α} :
    item ∈ visited value list ↔ Needed value list item := by
  induction list with
  | nil => simp [visited, Needed]
  | cons group rest ih =>
      rw [visited, List.mem_append]
      constructor
      · rintro (within | beyond)
        · obtain ⟨earlier, later, rfl, hold⟩ := mem_upToFailure.mp within
          exact ⟨[], earlier, later, rest, rfl, List.forall_mem_nil _, hold⟩
        · cases holds : group.all value with
          | true => simp [holds] at beyond
          | false =>
              simp only [holds, Bool.false_eq_true, if_false] at beyond
              obtain ⟨before, earlier, later, after, rfl, fail, hold⟩ :=
                ih.mp beyond
              exact ⟨group :: before, earlier, later, after, rfl,
                List.forall_mem_cons.mpr ⟨all_eq_false_iff.mp holds, fail⟩,
                hold⟩
      · rintro ⟨before, earlier, later, after, cut, fail, hold⟩
        cases before with
        | nil =>
            cases cut
            exact .inl (mem_upToFailure.mpr ⟨earlier, later, rfl, hold⟩)
        | cons head tail =>
            cases cut
            obtain ⟨fails, fail⟩ := List.forall_mem_cons.mp fail
            rw [all_eq_false_iff.mpr fails]
            exact .inr (ih.mpr ⟨tail, earlier, later, after, rfl, fail, hold⟩)

end Visited

/-! ### What the fold does -/

/-- The fold over the items after `current` has the verdict of the groups, and
it looks at what is visited of the groups after the members of `current`. -/
theorem run_resolveLazyFrom (joins : α → Option CombineOp) (position : α → Nat)
    (value : α → Bool) (current rest : List α) (asked : List Nat) :
    ∃ looked, visited value (gather joins current rest) =
      upToFailure value current ++ looked ∧
      (resolveLazyFrom joins (asking position value) (current.all value)
        rest).run asked =
          (someGroupHolds value (gather joins current rest),
            asked ++ looked.map position) := by
  induction rest generalizing current asked with
  | nil =>
      refine ⟨[], by simp [gather, visited], ?_⟩
      simp only [gather, someGroupHolds, List.any_cons,
        List.any_nil, Bool.or_false, List.map_nil, List.append_nil]
      rfl
  | cons item rest ih =>
      cases starts : startsGroup (joins item) with
      | true =>
          cases holds : current.all value with
          | true =>
              refine ⟨[], by simp [gather, visited, starts, holds], ?_⟩
              simp only [resolveLazyFrom, gather, someGroupHolds, starts,
                holds, if_true, List.any_cons, Bool.true_or, List.map_nil,
                List.append_nil]
              rfl
          | false =>
              obtain ⟨looked, visits, runs⟩ :=
                ih [item] (asked ++ [position item])
              simp only [List.all_cons, List.all_nil, Bool.and_true] at runs
              refine ⟨item :: looked, ?_, ?_⟩
              · simp [gather, visited, starts, holds, visits, upToFailure]
              · simp [resolveLazyFrom, gather, someGroupHolds, starts,
                  holds, asking, runs]
      | false =>
          have extended : (current ++ [item]).all value =
              (current.all value && value item) := by
            simp
          cases holds : current.all value with
          | true =>
              obtain ⟨looked, visits, runs⟩ :=
                ih (current ++ [item]) (asked ++ [position item])
              rw [extended, holds, Bool.true_and] at runs
              refine ⟨item :: looked, ?_, ?_⟩
              · simp [gather, starts, visits, upToFailure_concat, holds]
              · simp [resolveLazyFrom, gather, starts, asking, runs]
          | false =>
              obtain ⟨looked, visits, runs⟩ := ih (current ++ [item]) asked
              rw [extended, holds, Bool.false_and] at runs
              refine ⟨looked, ?_, ?_⟩
              · simp [gather, starts, visits, upToFailure_concat, holds]
              · simp [resolveLazyFrom, gather, starts, runs]

theorem run_resolveLazy (position : α → Nat) (value : α → Bool)
    (items : List α) :
    (resolveLazy joins (asking position value) items).run [] =
      (someGroupHolds value (groups joins items),
        (visited value (groups joins items)).map position) := by
  cases items with
  | nil => rfl
  | cons item rest =>
      obtain ⟨looked, visits, runs⟩ :=
        run_resolveLazyFrom joins position value [item] rest [position item]
      simp only [List.all_cons, List.all_nil, Bool.and_true] at runs
      rw [groups_cons, visits]
      simpa [resolveLazy, asking, upToFailure] using runs

theorem resolveLazyFrom_pure (value : α → Bool) (group : Bool)
    (items : List α) :
    Id.run (resolveLazyFrom joins (fun item => pure (value item)) group items) =
      (resolveFrom group
        (items.map fun item => (joins item, value item))).1 := by
  induction items generalizing group with
  | nil => rfl
  | cons item rest ih =>
      cases starts : startsGroup (joins item) with
      | true => cases group <;> simp [resolveLazyFrom, resolveFrom, starts, ih]
      | false => cases group <;> simp [resolveLazyFrom, resolveFrom, starts, ih]

/-! ### What the verdict depends on -/

section Dependence

variable {value other : α → Bool}

theorem all_congr_upToFailure {group : List α}
    (agree : ∀ item ∈ upToFailure value group, other item = value item) :
    group.all other = group.all value := by
  induction group with
  | nil => rfl
  | cons first rest ih =>
      obtain ⟨same, agree⟩ := List.forall_mem_cons.mp agree
      rw [List.all_cons, List.all_cons, same]
      cases holds : value first with
      | false => rfl
      | true =>
          rw [holds, if_pos rfl] at agree
          rw [ih agree]

theorem someGroupHolds_congr_visited {list : List (List α)}
    (agree : ∀ item ∈ visited value list, other item = value item) :
    someGroupHolds other list = someGroupHolds value list := by
  induction list with
  | nil => rfl
  | cons group rest ih =>
      obtain ⟨within, beyond⟩ := List.forall_mem_append.mp agree
      have same : group.all other = group.all value :=
        all_congr_upToFailure within
      simp only [someGroupHolds, List.any_cons, same] at ih ⊢
      cases holds : group.all value with
      | true => rfl
      | false =>
          rw [holds, if_neg Bool.false_ne_true] at beyond
          rw [ih beyond]

/-- A group decides the verdict when no other one holds, and a member decides
its group when all others hold. -/
theorem someGroupHolds_eq_of_others {before after : List (List α)}
    {earlier later : List α} {item : α}
    (fail_before : ∀ group ∈ before, ∃ member ∈ group, value member = false)
    (hold_earlier : ∀ member ∈ earlier, value member = true)
    (hold_later : ∀ member ∈ later, value member = true)
    (fail_after : ∀ group ∈ after, ∃ member ∈ group, value member = false) :
    someGroupHolds value (before ++ (earlier ++ item :: later) :: after) =
      value item := by
  have failing {list : List (List α)}
      (fail : ∀ group ∈ list, ∃ member ∈ group, value member = false) :
      list.any (fun group => group.all value) = false := by
    rw [List.any_eq_false]
    intro group member
    rw [all_eq_false_iff.mpr (fail group member)]
    exact Bool.false_ne_true
  rw [someGroupHolds, List.any_append, List.any_cons, failing fail_before,
    failing fail_after, List.all_append, List.all_cons,
    List.all_eq_true.mpr hold_earlier,
    List.all_eq_true.mpr hold_later]
  simp

end Dependence

/-- A needed item decides the verdict once the rest of its group holds and no
later group does. -/
theorem Needed.decides {position : α → Nat} {items : List α}
    {truth : Nat → Bool} {item : α}
    (ascending : items.Pairwise fun first second =>
      position first < position second)
    (needed : Needed (truth ∘ position) (groups joins items) item) :
    ∃ other : Nat → Bool, (∀ i ≤ position item, other i = truth i) ∧
      ∀ result,
        someGroupHolds (Function.update other (position item) result ∘ position)
        (groups joins items) = result := by
  obtain ⟨before, earlier, later, after, cut, fail, hold⟩ := needed
  have occupied : [] ∉ groups joins items := List.nil_notMem_splitBy _ items
  rw [← flatten_groups joins items] at ascending
  rw [cut] at ascending occupied ⊢
  obtain ⟨within, across⟩ := List.pairwise_flatten.mp ascending
  obtain ⟨_, onward, before_item⟩ := List.pairwise_append.mp across
  obtain ⟨group_after, _⟩ := List.pairwise_cons.mp onward
  have inside : (earlier ++ item :: later).Pairwise fun first second =>
      position first < position second :=
    within _ (List.mem_append_right _ List.mem_cons_self)
  obtain ⟨_, item_on, earlier_item⟩ := List.pairwise_append.mp inside
  obtain ⟨item_later, _⟩ := List.pairwise_cons.mp item_on
  have in_group : item ∈ earlier ++ item :: later :=
    List.mem_append_right _ List.mem_cons_self
  let other := fun i => if i ≤ position item then truth i
    else decide (i ∈ later.map position)
  have kept {i : Nat} (early : i ≤ position item) : other i = truth i :=
    if_pos early
  refine ⟨other, fun i => kept, ?_⟩
  intro result
  have early {member : α} (earlier : position member < position item) :
      (Function.update other (position item) result ∘ position) member =
        (truth ∘ position) member := by
    rw [Function.comp_apply, Function.update_of_ne (Nat.ne_of_lt earlier)]
    exact kept (Nat.le_of_lt earlier)
  have late {member : α} (beyond : position item < position member) :
      (Function.update other (position item) result ∘ position) member =
        decide (position member ∈ later.map position) := by
    rw [Function.comp_apply, Function.update_of_ne (Nat.ne_of_gt beyond)]
    exact if_neg (Nat.not_le_of_gt beyond)
  rw [someGroupHolds_eq_of_others]
  · exact Function.update_self _ _ _
  · intro group member
    obtain ⟨failing, mem, fails⟩ := fail group member
    have precedes :=
      before_item group member _ List.mem_cons_self failing mem item in_group
    exact ⟨failing, mem, (early precedes).trans fails⟩
  · intro member mem
    have precedes := earlier_item member mem item List.mem_cons_self
    exact (early precedes).trans (hold member mem)
  · intro member mem
    rw [late (item_later member mem), decide_eq_true_iff]
    exact List.mem_map_of_mem mem
  · intro group member
    have some_member : group ≠ [] := by
      rintro rfl
      exact occupied (List.mem_append_right _ (List.mem_cons_of_mem _ member))
    obtain ⟨first, mem⟩ := List.exists_mem_of_ne_nil group some_member
    have follows := group_after group member
    refine ⟨first, mem, ?_⟩
    rw [late (follows item in_group first mem), decide_eq_false_iff_not]
    intro shared
    obtain ⟨twin, twin_later, same⟩ := List.mem_map.mp shared
    have apart := follows twin
      (List.mem_append_right _ (List.mem_cons_of_mem _ twin_later)) first mem
    exact absurd same (Nat.ne_of_lt apart)

end Grouping

namespace Condition

theorem allHold_eq_resolve (conditions : List Condition) (channels : Channels) :
    allHold conditions channels =
      (Grouping.resolve (conditions.map fun condition =>
      (condition.combine, condition.holds channels))).1 := by
  cases conditions with
  | nil => rfl
  | cons condition rest =>
      exact Grouping.resolveLazyFrom_pure
        (fun condition => condition.holds channels) _ rest

/-- The verdict on conditions whose results are known, and the indices of those
asked for. -/
def consult (conditions : List Condition) (truth : Nat → Bool) :
    Bool × List Nat :=
  (Grouping.resolveLazy (fun entry : Condition × Nat => entry.1.combine)
    (Grouping.asking Prod.snd (truth ∘ Prod.snd)) conditions.zipIdx).run []

/-- The conditions with their indices, in groups. -/
def indexedGroups (conditions : List Condition) :
    List (List (Condition × Nat)) :=
  Grouping.groups (fun entry : Condition × Nat => entry.1.combine)
    conditions.zipIdx

theorem consult_eq (conditions : List Condition) (truth : Nat → Bool) :
    consult conditions truth =
      (Grouping.someGroupHolds (truth ∘ Prod.snd) (indexedGroups conditions),
        (Grouping.visited (truth ∘ Prod.snd) (indexedGroups conditions)).map
          Prod.snd) :=
  Grouping.run_resolveLazy _ _ _

theorem zipIdx_ascending (conditions : List Condition) :
    conditions.zipIdx.Pairwise fun first second => first.2 < second.2 := by
  rw [← List.pairwise_map (f := Prod.snd), List.zipIdx_map_snd]
  exact List.pairwise_lt_range'

theorem mem_consult {conditions : List Condition}
    {truth : Nat → Bool} {i : Nat} :
    i ∈ (consult conditions truth).2 ↔ ∃ condition,
      Grouping.Needed (truth ∘ Prod.snd) (indexedGroups conditions)
        (condition, i) := by
  rw [consult_eq, List.mem_map]
  constructor
  · rintro ⟨⟨condition, _⟩, looked, rfl⟩
    exact ⟨condition, Grouping.mem_visited.mp looked⟩
  · rintro ⟨condition, needed⟩
    exact ⟨(condition, i), Grouping.mem_visited.mpr needed, rfl⟩

theorem consult_ascending (conditions : List Condition) (truth : Nat → Bool) :
    (consult conditions truth).2.Pairwise (· < ·) := by
  have within :=
    Grouping.visited_sublist (truth ∘ Prod.snd) (indexedGroups conditions)
  rw [indexedGroups, Grouping.flatten_groups] at within
  rw [consult_eq, List.pairwise_map]
  exact (zipIdx_ascending conditions).sublist within

theorem consult_verdict (conditions : List Condition) (truth : Nat → Bool) :
    (consult conditions truth).1 =
      (Grouping.resolve (conditions.zipIdx.map fun entry =>
      (entry.1.combine, truth entry.2))).1 := by
  rw [consult_eq, Grouping.resolve_verdict, Grouping.groups_map]
  simp only [Grouping.someGroupHolds, List.any_map, List.all_map,
    Function.comp_def, indexedGroups]

/-- The eager fold has the verdict of the groups, whatever the first pair is
joined by, and reads up to the first pair that closes a group that holds.  The
lazy fold has the same verdict and asks for exactly the results that may still
change it. -/
theorem folds_follow_groups (pairs : List (Option CombineOp × Bool))
    (conditions : List Condition) (truth : Nat → Bool) :
    ((Grouping.resolve pairs).1 = true ↔
        pairs ≠ [] ∧ ∃ group ∈ Grouping.groups Prod.fst pairs, ∀ pair ∈ group,
          pair.2 = true) ∧
      (∀ op, Grouping.resolve (pairs.modifyHead fun pair => (op, pair.2)) =
        Grouping.resolve pairs) ∧
      (∀ i, IsLeast {i | Grouping.Closes pairs i} i →
        (Grouping.resolve pairs).2 = pairs.drop (i + 1)) ∧
      ((∀ i, ¬ Grouping.Closes pairs i) → (Grouping.resolve pairs).2 = []) ∧
      (consult conditions truth).1 =
        (Grouping.resolve (conditions.zipIdx.map fun entry =>
        (entry.1.combine, truth entry.2))).1 ∧
      (consult conditions truth).2.Pairwise (· < ·) ∧
      (∀ i, i ∈ (consult conditions truth).2 ↔ ∃ condition,
        Grouping.Needed (truth ∘ Prod.snd) (indexedGroups conditions)
          (condition, i)) ∧
      (∀ i ∈ (consult conditions truth).2, ∃ other : Nat → Bool,
        (∀ j ≤ i, other j = truth j) ∧
          (consult conditions (Function.update other i (!other i))).1 =
            !(consult conditions other).1) ∧
      ∀ other : Nat → Bool,
        (∀ i ∈ (consult conditions truth).2, other i = truth i) →
        (consult conditions other).1 = (consult conditions truth).1 := by
  refine ⟨?_, ?_, fun i => Grouping.unread_of_isLeast, Grouping.unread_of_never,
    consult_verdict conditions truth, consult_ascending conditions truth,
    fun i => mem_consult,
    ?_, ?_⟩
  · rw [Grouping.resolve_verdict]
    cases pairs with
    | nil => simp [Grouping.groups, Grouping.someGroupHolds]
    | cons pair rest => simp [Grouping.someGroupHolds]
  · intro op
    cases pairs with
    | nil => rfl
    | cons pair rest => rfl
  · intro i asked
    obtain ⟨condition, needed⟩ := mem_consult.mp asked
    obtain ⟨other, kept, decides⟩ :=
      needed.decides (zipIdx_ascending conditions)
    have verdict (result : Bool) :
        (consult conditions (Function.update other i result)).1 = result := by
      rw [consult_eq]
      exact decides result
    have unchanged := verdict (other i)
    rw [Function.update_eq_self] at unchanged
    exact ⟨other, kept, by rw [verdict, unchanged]⟩
  · intro other agree
    rw [consult_eq] at agree
    rw [consult_eq, consult_eq]
    apply Grouping.someGroupHolds_congr_visited
    intro entry looked
    exact agree entry.2 (List.mem_map_of_mem looked)

/-- A first group of one result and a second of two. -/
def splitResults : List (Option CombineOp × Bool) :=
  [(none, true), (some .or, false), (some .and, true)]

/-- A first group of two conditions and a second of one. -/
def splitConditions : List Condition :=
  let iron : Condition :=
    .ofComparison (.ofSelector (.signal (.ofName .item "iron"))) .less
      (.constant 100)
  [iron, iron.joined .and, iron.joined .or]

theorem folds_follow_groups_split :
    IsLeast {i | Grouping.Closes splitResults i} 1 ∧
      (Grouping.resolve splitResults).2 = [(some .and, true)] ∧
      (consult splitConditions fun i => i = 2).2 = [0, 2] ∧
      (∃ other : Nat → Bool, (∀ j ≤ 2, other j = decide (j = 2)) ∧
        (consult splitConditions (Function.update other 2 (!other 2))).1 =
          !(consult splitConditions other).1) ∧
      (consult splitConditions fun i => i ≠ 0).1 =
        (consult splitConditions fun i => i = 2).1 := by
  have closes : Grouping.Closes splitResults 1 :=
    ⟨Nat.one_pos, ⟨false, rfl⟩, [(none, true)], rfl, by simp⟩
  have least : IsLeast {i | Grouping.Closes splitResults i} 1 :=
    ⟨closes, fun i other_closes => other_closes.1⟩
  have asked : (consult splitConditions fun i => i = 2).2 = [0, 2] := by decide
  obtain ⟨_, _, read, _, _, _, _, decisive, skipped⟩ :=
    folds_follow_groups splitResults splitConditions fun i => i = 2
  refine ⟨least, read 1 least, asked, decisive 2 (by simp [asked]),
    skipped _ ?_⟩
  intro i member
  rw [asked] at member
  simp only [List.mem_cons, List.not_mem_nil, or_false] at member
  rcases member with rfl | rfl <;> rfl

end Condition

end CircuitSections
