/-
# What rendering asks of a backend

A backend is asked for predicates one after the other, and it may mind what it was asked
before: it may count, or keep what it builds. So here it answers a request knowing all
earlier ones (`Answers`), and rendering keeps the list of them (`Expr.renderAsking`). For a
backend that minds nothing this is `Expr.render` (`Expr.renderAsking_answers`).

An expression that has no leaf is silent. Its parent passes over it, in an `and` as in an
`or`, and that is how its truth is defined (`Expr.holds`), without any backend. Rendering
asks once for each leaf and never to join fewer than two predicates, and what it gives is as
true as the expression (`Expr.render_faithful`).

Key definitions: `Request`, `Answers`, `Answers.Decides`, `Expr.renderAsking`,
`Expr.isSilent`, `Expr.holds`.
Key theorems: `Expr.renderAsking_answers`, `Expr.meaning_renderAsking`,
`Expr.truth?_eq_holds`, `Expr.render_faithful`.
-/
import QueryFilter.Proofs.Expr.Truth

namespace QueryFilter

variable {C P Q : Type}

/-! ### Requests and answers -/

/-- What a backend is asked for when an expression is rendered. -/
inductive Request (C P : Type) where
  | evaluate (column : C) (op : Operator)
  | join (kind : Junction) (predicates : List P)

/-- The comparison that a request asks for, if it does. -/
def Request.comparison? : Request C P → Option (C × Operator)
  | .evaluate column op => some (column, op)
  | .join _ _ => none

/-- How a backend answers a request, given those before it. -/
abbrev Answers (C P : Type) : Type := List (Request C P) → Request C P → P

/-- The answers of a backend that does not mind what it was asked before. -/
def Backend.answers (b : Backend C P Q) : Answers C P
  | _, .evaluate column op => b.evaluate column op
  | _, .join kind ps => b.join kind ps

/-- Whether predicates have truth values by which a comparison is what a valuation says, and
a junction of two or more of them is their conjunction or disjunction. -/
structure Answers.Decides (answer : Answers C P) (v : C → Operator → Bool) (meaning : P → Bool) :
    Prop where
  evaluate : ∀ asked column op, meaning (answer asked (.evaluate column op)) = v column op
  conj : ∀ asked ps, 2 ≤ ps.length → meaning (answer asked (.join .and ps)) = ps.all meaning
  disj : ∀ asked ps, 2 ≤ ps.length → meaning (answer asked (.join .or ps)) = ps.any meaning

theorem Backend.decides_deciding (v : C → Operator → Bool) :
    (Backend.deciding v).answers.Decides v id where
  evaluate _ _ _ := rfl
  conj _ _ _ := rfl
  disj _ _ _ := rfl

namespace Expr

/-! ### Rendering with the requests kept -/

/-- The predicate of several under a junction, and the requests made by then. -/
def combineAsking (answer : Answers C P) (kind : Junction) (asked : List (Request C P)) :
    List P → Option P × List (Request C P)
  | [] => (none, asked)
  | [p] => (some p, asked)
  | ps => (some (answer asked (.join kind ps)), asked ++ [.join kind ps])

mutual

/-- The predicate of an expression, if it says anything, and the requests made by then. -/
def renderAsking (answer : Answers C P) (asked : List (Request C P)) :
    Expr C → Option P × List (Request C P)
  | .leaf column op =>
    (some (answer asked (.evaluate column op)), asked ++ [.evaluate column op])
  | .junction kind children =>
    let members := renderAllAsking answer asked children
    combineAsking answer kind members.2 members.1

/-- The predicates of the expressions that say anything, and the requests made by then. -/
def renderAllAsking (answer : Answers C P) (asked : List (Request C P)) :
    List (Expr C) → List P × List (Request C P)
  | [] => ([], asked)
  | e :: rest =>
    let first := renderAsking answer asked e
    let more := renderAllAsking answer first.2 rest
    (first.1.toList ++ more.1, more.2)

end

theorem combineAsking_answers (b : Backend C P Q) (kind : Junction) (asked : List (Request C P))
    (ps : List P) : (combineAsking b.answers kind asked ps).1 = combine b kind ps := by
  match ps with
  | [] => rfl
  | [_] => rfl
  | _ :: _ :: _ => rfl

mutual

/-- **The same predicate.** A backend that minds nothing gives the predicate that rendering
is defined by. -/
theorem renderAsking_answers (b : Backend C P Q) : ∀ (e : Expr C) (asked : List (Request C P)),
    (e.renderAsking b.answers asked).1 = e.render b
  | .leaf _ _, _ => rfl
  | .junction kind children, asked => by
    rw [renderAsking, combineAsking_answers, renderAllAsking_answers b children, render]

theorem renderAllAsking_answers (b : Backend C P Q) : ∀ (es : List (Expr C))
    (asked : List (Request C P)), (renderAllAsking b.answers asked es).1 = renderAll b es
  | [], _ => rfl
  | e :: rest, asked => by
    rw [renderAllAsking, renderAll, renderAsking_answers b e, renderAllAsking_answers b rest]

end

/-! ### Silent expressions and truth -/

/-- Whether an expression has no leaf. -/
def isSilent (e : Expr C) : Bool := e.leaves.isEmpty

mutual

/-- The truth value of an expression, where a member that has no leaf does not count. -/
def holds (v : C → Operator → Bool) : Expr C → Bool
  | .leaf column op => v column op
  | .junction .and children => allHold v children
  | .junction .or children => someHolds v children

def allHold (v : C → Operator → Bool) : List (Expr C) → Bool
  | [] => true
  | e :: rest => (e.isSilent || holds v e) && allHold v rest

def someHolds (v : C → Operator → Bool) : List (Expr C) → Bool
  | [] => false
  | e :: rest => (!e.isSilent && holds v e) || someHolds v rest

end

theorem isSilent_junction (kind : Junction) (es : List (Expr C)) :
    (Expr.junction kind es).isSilent = es.all isSilent := by
  unfold isSilent
  rw [leaves_junction]
  induction es with
  | nil => rfl
  | cons e rest ih =>
    rw [List.flatMap_cons, List.all_cons, ← ih]
    cases e.leaves <;> rfl

/-- The members of a junction that say something. -/
def speaking (es : List (Expr C)) : List (Expr C) := es.filter fun e => !e.isSilent

theorem speaking_cons (e : Expr C) (rest : List (Expr C)) :
    speaking (e :: rest) = if e.isSilent then speaking rest else e :: speaking rest := by
  unfold speaking
  cases hs : e.isSilent with
  | true => simp [hs]
  | false => simp [hs]

theorem speaking_eq_nil_iff {kind : Junction} {es : List (Expr C)} :
    speaking es = [] ↔ (Expr.junction kind es).isSilent = true := by
  unfold speaking
  rw [isSilent_junction]
  simp [List.filter_eq_nil_iff]

variable (v : C → Operator → Bool)

theorem allHold_eq_all : ∀ es : List (Expr C), allHold v es = (speaking es).all (holds v)
  | [] => rfl
  | e :: rest => by
    rw [allHold, allHold_eq_all rest, speaking_cons]
    cases hs : e.isSilent with
    | true => simp
    | false => simp

theorem someHolds_eq_any : ∀ es : List (Expr C), someHolds v es = (speaking es).any (holds v)
  | [] => rfl
  | e :: rest => by
    rw [someHolds, someHolds_eq_any rest, speaking_cons]
    cases hs : e.isSilent with
    | true => simp
    | false => simp

/-- A junction is the conjunction or disjunction of its members that say something. -/
theorem holds_junction (kind : Junction) (es : List (Expr C)) :
    holds v (.junction kind es) = (Backend.deciding v).join kind ((speaking es).map (holds v)) := by
  cases kind with
  | and =>
    show allHold v es = ((speaking es).map (holds v)).all id
    rw [allHold_eq_all, List.all_map, Function.id_comp]
  | or =>
    show someHolds v es = ((speaking es).map (holds v)).any id
    rw [someHolds_eq_any, List.any_map, Function.id_comp]

/-! ### What is asked -/

variable {answer : Answers C P} {asked : List (Request C P)}

/-- What the requests have gained by rendering an expression: its leaves from left to right,
and junctions of two or more predicates. -/
structure Asks (asked : List (Request C P)) (leaves : List (C × Operator))
    (after : List (Request C P)) : Prop where
  comparisons : after.filterMap Request.comparison? =
    asked.filterMap Request.comparison? ++ leaves
  joins : ∀ kind ps, .join kind ps ∈ after → .join kind ps ∈ asked ∨ 2 ≤ ps.length

theorem Asks.nothing (asked : List (Request C P)) : Asks asked [] asked where
  comparisons := (List.append_nil _).symm
  joins _ _ h := Or.inl h

theorem Asks.trans {asked₁ asked₂ : List (Request C P)} {leaves leaves' : List (C × Operator)}
    (h : Asks asked leaves asked₁) (h' : Asks asked₁ leaves' asked₂) :
    Asks asked (leaves ++ leaves') asked₂ where
  comparisons := by rw [h'.comparisons, h.comparisons, List.append_assoc]
  joins kind ps hmem := (h'.joins kind ps hmem).elim (h.joins kind ps) Or.inr

theorem asks_evaluate (asked : List (Request C P)) (column : C) (op : Operator) :
    Asks asked [(column, op)] (asked ++ [.evaluate column op]) where
  comparisons := by rw [List.filterMap_append]; rfl
  joins kind ps h := by
    rcases List.mem_append.mp h with h | h
    · exact Or.inl h
    · cases List.mem_singleton.mp h

/-- Joining asks for no comparison, and for a junction only if there are two predicates. -/
theorem asks_combineAsking (kind : Junction) (asked : List (Request C P)) (ps : List P) :
    Asks asked [] (combineAsking answer kind asked ps).2 := by
  match ps with
  | [] => exact .nothing asked
  | [_] => exact .nothing asked
  | p :: p' :: rest =>
    refine ⟨?_, fun kind' ps' h => ?_⟩
    · show (asked ++ [Request.join kind (p :: p' :: rest)]).filterMap Request.comparison? = _
      rw [List.filterMap_append]
      rfl
    · rcases List.mem_append.mp h with h | h
      · exact Or.inl h
      · cases List.mem_singleton.mp h
        exact Or.inr (by simp)

theorem asks_renderAllAsking : ∀ {es : List (Expr C)},
    (∀ e ∈ es, ∀ asked, Asks asked e.leaves (e.renderAsking answer asked).2) →
    ∀ asked, Asks asked (es.flatMap leaves) (renderAllAsking answer asked es).2
  | [], _, asked => .nothing asked
  | e :: rest, h, asked => by
    obtain ⟨he, hrest⟩ := List.forall_mem_cons.mp h
    rw [List.flatMap_cons, renderAllAsking]
    exact (he asked).trans (asks_renderAllAsking hrest _)

/-- **Each leaf once, in order,** and no junction of fewer than two. -/
theorem asks_renderAsking (e : Expr C) :
    ∀ asked, Asks asked e.leaves (e.renderAsking answer asked).2 := by
  induction e using induction with
  | leaf column op => exact fun asked => asks_evaluate asked column op
  | junction kind es ih =>
    intro asked
    have hmembers := asks_renderAllAsking ih asked
    have hjoin : Asks (renderAllAsking answer asked es).2 []
        (renderAsking answer asked (.junction kind es)).2 := asks_combineAsking kind _ _
    rw [leaves_junction, ← List.append_nil (es.flatMap leaves)]
    exact hmembers.trans hjoin

/-! ### What is answered -/

variable {v} {meaning : P → Bool}

/-- Joining predicates joins their truth values, and one or none as it is. -/
theorem meaning_combineAsking (hd : answer.Decides v meaning) (kind : Junction) (ps : List P) :
    (combineAsking answer kind asked ps).1.map meaning =
      combine (.deciding v) kind (ps.map meaning) := by
  match ps with
  | [] => rfl
  | [_] => rfl
  | p :: p' :: rest =>
    have htwo : 2 ≤ (p :: p' :: rest).length := by simp
    cases kind with
    | and =>
      show some (meaning (answer asked (.join .and (p :: p' :: rest)))) =
        some (((p :: p' :: rest).map meaning).all id)
      rw [hd.conj asked _ htwo, List.all_map, Function.id_comp]
    | or =>
      show some (meaning (answer asked (.join .or (p :: p' :: rest)))) =
        some (((p :: p' :: rest).map meaning).any id)
      rw [hd.disj asked _ htwo, List.any_map, Function.id_comp]

theorem meaning_renderAllAsking : ∀ {es : List (Expr C)},
    (∀ e ∈ es, ∀ asked, (e.renderAsking answer asked).1.map meaning =
      if e.isSilent then none else some (e.holds v)) →
    ∀ asked, (renderAllAsking answer asked es).1.map meaning = (speaking es).map (holds v)
  | [], _, _ => rfl
  | e :: rest, h, asked => by
    obtain ⟨he, hrest⟩ := List.forall_mem_cons.mp h
    have hmore := meaning_renderAllAsking hrest (e.renderAsking answer asked).2
    have hfirst : (e.renderAsking answer asked).1.toList.map meaning =
        if e.isSilent then [] else [e.holds v] := by
      rw [← Option.toList_map, he asked]
      cases e.isSilent <;> rfl
    rw [renderAllAsking, List.map_append, hfirst, hmore, speaking_cons]
    cases e.isSilent <;> rfl

/-- **The truth of what is rendered.** There is no predicate for a silent expression, and
for any other one that is as true as the expression. -/
theorem meaning_renderAsking (hd : answer.Decides v meaning) (e : Expr C) :
    ∀ asked, (e.renderAsking answer asked).1.map meaning =
      if e.isSilent then none else some (e.holds v) := by
  induction e using induction with
  | leaf column op => exact fun asked => congrArg some (hd.evaluate asked column op)
  | junction kind es ih =>
    intro asked
    rw [renderAsking, meaning_combineAsking hd, meaning_renderAllAsking ih, combine_deciding,
      holds_junction]
    refine if_congr ?_ rfl rfl
    rw [List.map_eq_nil_iff, speaking_eq_nil_iff]

/-- Where every comparison is true, so is every predicate. -/
theorem decides_true (answer : Answers C P) :
    answer.Decides (fun _ _ => true) fun _ => true where
  evaluate _ _ _ := rfl
  conj _ _ _ := by simp
  disj _ ps h := by
    match ps, h with
    | _ :: _ :: _, _ => rfl

/-- Whether there is a predicate does not depend on the backend. -/
theorem renderAsking_eq_none_iff (e : Expr C) :
    (e.renderAsking answer asked).1 = none ↔ e.leaves = [] := by
  -- A meaning that all answers have is enough to tell whether there is a predicate.
  have h := meaning_renderAsking (decides_true answer) e asked
  rw [← List.isEmpty_iff, ← Option.map_eq_none_iff, h, isSilent]
  cases e.leaves.isEmpty <;> simp

/-- The truth value that an expression has for a backend that decides is its own. -/
theorem truth?_eq_holds (v : C → Operator → Bool) (e : Expr C) :
    truth? v e = if e.leaves = [] then none else some (e.holds v) := by
  have h := meaning_renderAsking (Backend.decides_deciding v) e []
  rw [Option.map_id, renderAsking_answers] at h
  rw [truth?]
  refine h.trans (if_congr ?_ rfl rfl)
  rw [isSilent, List.isEmpty_iff]

/-! ### Rendering -/

/-- **Rendering is faithful.** Whatever a backend answers, and whatever it makes of earlier
requests: it is asked to compare once for each leaf, from left to right, with the column and
the operator of the leaf, and never to join fewer than two predicates. There is no predicate
exactly if there is no leaf. Otherwise, if the answers mean a valuation, conjunction and
disjunction, the predicate means the truth value of the expression, in which members without
a leaf do not count. `render` gives that predicate, and `apply` leaves the query as it is if
there is no leaf and otherwise applies it. -/
theorem render_faithful (e : Expr C) :
    (∀ answer : Answers C P,
      (e.renderAsking answer []).2.filterMap Request.comparison? = e.leaves ∧
      (∀ kind ps, .join kind ps ∈ (e.renderAsking answer []).2 → 2 ≤ ps.length) ∧
      ((e.renderAsking answer []).1 = none ↔ e.leaves = []) ∧
      ∀ v meaning, answer.Decides v meaning →
        ∀ p, (e.renderAsking answer []).1 = some p → meaning p = e.holds v) ∧
    ∀ b : Backend C P Q,
      e.render b = (e.renderAsking b.answers []).1 ∧
      (e.leaves = [] → ∀ query, e.apply b query = query) ∧
      (e.leaves ≠ [] → ∃ p, e.render b = some p ∧
        ∀ query, e.apply b query = b.applyPredicate query p) := by
  refine ⟨fun answer => ?_, fun b => ?_⟩
  · have hasks : Asks [] e.leaves (e.renderAsking answer []).2 := asks_renderAsking e []
    refine ⟨hasks.comparisons, fun kind ps h => ?_, renderAsking_eq_none_iff e, ?_⟩
    · exact (hasks.joins kind ps h).resolve_left List.not_mem_nil
    · intro v meaning hd p hp
      have hmeaning := meaning_renderAsking hd e []
      rw [hp] at hmeaning
      split at hmeaning
      · cases hmeaning
      · exact Option.some.inj hmeaning
  · have hrender : e.render b = (e.renderAsking b.answers []).1 := (renderAsking_answers b e []).symm
    have hnone : e.render b = none ↔ e.leaves = [] := by
      rw [hrender]
      exact renderAsking_eq_none_iff e
    refine ⟨hrender, fun hleaves query => ?_, fun hleaves => ?_⟩
    · rw [apply, hnone.mpr hleaves]
      rfl
    · obtain ⟨p, hp⟩ := Option.ne_none_iff_exists'.mp fun h => hleaves (hnone.mp h)
      refine ⟨p, hp, fun query => ?_⟩
      rw [apply, hp]
      rfl

/-- Junctions of nothing, and of one member that says something, around three comparisons. -/
def hollow : Expr Column :=
  .junction .and
    [.junction .or [],
      .junction .or [.junction .and [], .leaf (.plain "tt" "age") ⟨.gt, .int 24, by decide⟩],
      .junction .or
        [.junction .and [.junction .or []],
          .leaf (.plain "tt" "name") ⟨.eq, .string "Cid", by decide⟩,
          .leaf (.plain "tt" "age") ⟨.lt, .int 69, by decide⟩]]

/-- Neither the empty `or` makes it false, nor the `and` of an empty `or` the `or` around it. -/
theorem render_faithful_hollow :
    let v : Column → Operator → Bool := fun _ op => op.kind == .gt
    (Backend.deciding v).answers.Decides v id ∧
      (hollow.renderAsking (Backend.deciding v).answers []).1 = some false ∧
      hollow.holds v = false ∧ hollow.render (Backend.deciding v) = some false := by
  intro v
  have hd := Backend.decides_deciding v
  have hsome : (hollow.renderAsking (Backend.deciding v).answers []).1 = some false := rfl
  obtain ⟨hanswers, hbackends⟩ := render_faithful (Q := Bool) hollow
  refine ⟨hd, hsome, ?_, (hbackends (Backend.deciding v)).1.trans hsome⟩
  exact ((hanswers (Backend.deciding v).answers).2.2.2 v id hd false hsome).symm

end Expr
end QueryFilter
