import RenderFold.Component.Engine

/-!
# Hooks in Any Order

The hooks of an instance run side by side. All of them are told the scope as it
is when they are called, and after that they may be done in any order, after any
time. Their results are kept until the last of them has succeeded, and only then
put into the scope, in the order of the hooks. A failure ends the work before
anything has been put there.

How long a hook takes is part of what it answers, and the engine only gives what
the whole comes to. So the work is also described move by move: a hook is asked
whether it is done, the results are merged once all are there, or the failure of
a hook ends the work. Whatever moves are made, the work comes to one of the same
ends, and the end that the engine gives is among them.

## Main definitions

* `Instance.outcomes`: What the hooks of an instance give when they are told its
  scope.
* `Engine.Ends`: What prefetching an instance may come to.
* `Engine.Prefetching`, `Prefetching.move`, `Prefetching.play`: Hooks that run,
  and what moves come to.

## Theorems

* `Delayed.joinAll_error`: The failure of work done side by side is that of one
  of its parts.
* `Engine.prefetch_ends`: What the engine gives.
* `Prefetching.Kept.move`, `Prefetching.kept_play`: What a move and what any
  moves keep.
* `Prefetching.exists_end`: Every end can be reached.
* `Engine.prefetch_atomic`: All results or none, whatever the order.
-/

namespace RenderFold

namespace Delayed

variable {ε α β γ : Type} {e : ε}

theorem join_error {f : α → β → γ} {first : Delayed (Except ε α)} {second : Delayed (Except ε β)}
    (h : (join f first second).value = .error e) :
    first.value = .error e ∨ second.value = .error e := by
  unfold join at h
  cases hfirst : first.value with
  | ok a =>
      cases hsecond : second.value with
      | ok b => simp only [hfirst, hsecond, reduceCtorEq] at h
      | error e' =>
          simp only [hfirst, hsecond, Except.error.injEq] at h
          exact .inr (h ▸ rfl)
  | error e' =>
      cases hsecond : second.value with
      | ok b =>
          simp only [hfirst, hsecond, Except.error.injEq] at h
          exact .inl (h ▸ rfl)
      | error later =>
          simp only [hfirst, hsecond] at h
          split at h
          · exact .inl (congrArg _ (Except.error.inj h))
          · exact .inr (congrArg _ (Except.error.inj h))

theorem joinEach_error {works : List (Delayed (Except ε α))}
    (h : (joinEach works).value = .error e) : .error e ∈ works.map (·.value) := by
  induction works with
  | nil => cases h
  | cons work rest ih =>
      rw [List.map_cons]
      rcases join_error h with hwork | hrest
      · exact hwork ▸ List.mem_cons_self
      · exact List.mem_cons_of_mem _ (ih hrest)

theorem joinInOrder_error {works : List (Delayed (Except ε α))}
    (h : (joinInOrder works).value = .error e) : .error e ∈ works.map (·.value) := by
  induction works with
  | nil => cases h
  | cons work rest ih =>
      rw [List.map_cons]
      unfold joinInOrder at h
      split at h
      · next e' hwork =>
          cases h
          exact hwork ▸ List.mem_cons_self
      · next a hwork =>
          dsimp only at h
          cases hlater : (joinInOrder rest).value with
          | ok later =>
              rw [hlater] at h
              cases h
          | error e' =>
              rw [hlater] at h
              cases h
              exact List.mem_cons_of_mem _ (ih hlater)

/-- The failure of work done side by side is that of one of its parts. -/
theorem joinAll_error {works : List (Delayed (Except ε α))}
    (h : (joinAll works).value = .error e) : .error e ∈ works.map (·.value) := by
  unfold joinAll at h
  split at h
  · exact joinEach_error h
  · rw [← map_value_queued]
    exact joinInOrder_error h

end Delayed

namespace Instance

/-- What the hooks of an instance are told: its scope as it is. -/
def request (inst : Instance) : Request := ⟨inst.pass, inst.scope⟩

/-- What the hooks of an instance give, in order. -/
def outcomes (inst : Instance) : List (Except String Value) :=
  inst.component.prefetch.map fun hook => (hook inst.request).value

/-- The instance with the fields of all results that are objects laid over its
    scope, in order. -/
def overlaid (inst : Instance) (results : List Value) : Instance :=
  { inst with
    scope := Fields.overlay inst.scope (results.flatMap fun result => result.object?.getD []) }

/-- The instance with other hooks. -/
def withHooks (inst : Instance) (hooks : List Hook) : Instance :=
  { inst with component := { inst.component with prefetch := hooks } }

theorem foldl_merge (results : List Value) (inst : Instance) :
    results.foldl merge inst = inst.overlaid results := by
  induction results generalizing inst with
  | nil => rfl
  | cons result rest ih =>
      rw [List.foldl_cons, ih]
      simp only [overlaid, merge, Fields.overlay, List.flatMap_cons, List.foldl_append]

theorem foldl_merge_withHooks (results : List Value) (inst : Instance) (hooks : List Hook) :
    results.foldl merge (inst.withHooks hooks) = (results.foldl merge inst).withHooks hooks := by
  rw [foldl_merge, foldl_merge]
  rfl

end Instance

namespace Engine

variable {inst other after : Instance} {results : List Value} {message : String}
  {result : Except RenderError Unit}

/-- What prefetching an instance may come to: all results over its scope if all
    hooks succeed, and the failure of some hook, with the instance left as it
    was, if not. -/
inductive Ends (inst : Instance) : Except RenderError Unit → Instance → Prop where
  | merged {results : List Value} (h : inst.outcomes = results.map .ok) :
      Ends inst (.ok ()) (inst.overlaid results)
  | failed {message : String} (h : .error message ∈ inst.outcomes) :
      Ends inst (.error (.prefetch inst.component.name message)) inst

theorem not_failed_of_outcomes (h : inst.outcomes = results.map .ok) :
    .error message ∉ inst.outcomes := by
  rw [h]
  intro hmem
  obtain ⟨result, -, hresult⟩ := List.mem_map.mp hmem
  cases hresult

theorem Ends.of_outcomes (h : Ends inst result after) (hok : inst.outcomes = results.map .ok) :
    result = .ok () ∧ after = inst.overlaid results := by
  cases h with
  | merged hother =>
      have hsame : (results.map Except.ok : List (Except String Value)) = _ := hok.symm.trans hother
      rw [(List.map_inj_right fun _ _ h => Except.ok.inj h).mp hsame]
      exact ⟨rfl, rfl⟩
  | failed herror => exact absurd herror (not_failed_of_outcomes hok)

theorem Ends.of_error (h : Ends inst result after) (herror : .error message ∈ inst.outcomes) :
    (∃ failure, .error failure ∈ inst.outcomes ∧
      result = .error (.prefetch inst.component.name failure)) ∧ after = inst := by
  cases h with
  | merged hok => exact absurd herror (not_failed_of_outcomes hok)
  | failed hfailure => exact ⟨⟨_, hfailure, rfl⟩, rfl⟩

theorem prefetch_value_of_ok
    (h : (Delayed.joinAll (inst.component.prefetch.map (· inst.request))).value = .ok results) :
    (prefetch inst).value = .ok (results.foldl Instance.merge inst) := by
  unfold Instance.request at h
  simp only [prefetch, Delayed.map, h]

theorem prefetch_value_of_error
    (h : (Delayed.joinAll (inst.component.prefetch.map (· inst.request))).value = .error message) :
    (prefetch inst).value = .error (.prefetch inst.component.name message) := by
  unfold Instance.request at h
  simp only [prefetch, Delayed.map, h]

/-- The results of all hooks, or the failure of one of them. -/
theorem prefetch_cases (inst : Instance) :
    (∃ results, inst.outcomes = results.map .ok ∧
      (prefetch inst).value = .ok (inst.overlaid results)) ∨
    ∃ message, .error message ∈ inst.outcomes ∧
      (prefetch inst).value = .error (.prefetch inst.component.name message) := by
  have houtcomes : (inst.component.prefetch.map (· inst.request)).map (·.value) =
      inst.outcomes := List.map_map
  cases hall : (Delayed.joinAll (inst.component.prefetch.map (· inst.request))).value with
  | ok results =>
      refine .inl ⟨results, houtcomes ▸ Delayed.joinAll_ok.mp hall, ?_⟩
      rw [← Instance.foldl_merge]
      exact prefetch_value_of_ok hall
  | error message =>
      exact .inr ⟨message, houtcomes ▸ Delayed.joinAll_error hall, prefetch_value_of_error hall⟩

/-- What the engine gives is one of the ends. -/
theorem prefetch_ends (inst : Instance) :
    Ends inst ((prefetch inst).value.map fun _ => ())
      (leftBehind inst true (prefetch inst).value) := by
  obtain ⟨results, hok, hvalue⟩ | ⟨message, herror, hvalue⟩ := prefetch_cases inst
  · rw [hvalue]
    exact .merged hok
  · rw [hvalue]
    exact .failed herror

theorem prefetch_of_outcomes (hok : inst.outcomes = results.map .ok) :
    (prefetch inst).value = .ok (inst.overlaid results) := by
  obtain ⟨others, hothers, hvalue⟩ | ⟨message, herror, -⟩ := prefetch_cases inst
  · have hsame : (results.map Except.ok : List (Except String Value)) = _ := hok.symm.trans hothers
    rw [hvalue, (List.map_inj_right fun _ _ h => Except.ok.inj h).mp hsame]
  · exact absurd herror (not_failed_of_outcomes hok)

theorem prefetch_of_error (herror : .error message ∈ inst.outcomes) :
    ∃ failure, .error failure ∈ inst.outcomes ∧
      (prefetch inst).value = .error (.prefetch inst.component.name failure) := by
  obtain ⟨results, hok, -⟩ | hfailure := prefetch_cases inst
  · exact absurd herror (not_failed_of_outcomes hok)
  · exact hfailure

/-- What is left behind is the instance as it was, or with all results. -/
theorem leftBehind_of_outcomes (hok : inst.outcomes = results.map .ok) (settled : Bool) :
    leftBehind inst settled (prefetch inst).value = inst ∨
      leftBehind inst settled (prefetch inst).value = inst.overlaid results := by
  rw [prefetch_of_outcomes hok]
  cases settled with
  | false => exact .inl rfl
  | true => exact .inr rfl

theorem leftBehind_of_error (herror : .error message ∈ inst.outcomes) (settled : Bool) :
    leftBehind inst settled (prefetch inst).value = inst := by
  obtain ⟨failure, -, hvalue⟩ := prefetch_of_error herror
  rw [hvalue]
  rfl

/-- The hooks are asked nothing but what they answer to the scope as it is. -/
theorem prefetch_withHooks {hooks : List Hook}
    (h : hooks.map (· inst.request) = inst.component.prefetch.map (· inst.request)) :
    prefetch (inst.withHooks hooks) = (prefetch inst).map (Except.map (·.withHooks hooks)) := by
  have hdelay : (prefetch (inst.withHooks hooks)).delay = (prefetch inst).delay :=
    congrArg (fun works => (Delayed.joinAll works).delay) h
  have hvalue : (prefetch (inst.withHooks hooks)).value =
      (prefetch inst).value.map (·.withHooks hooks) := by
    cases hall : (Delayed.joinAll (inst.component.prefetch.map (· inst.request))).value with
    | ok results =>
        rw [prefetch_value_of_ok hall, prefetch_value_of_ok (h.symm ▸ hall),
          Instance.foldl_merge_withHooks]
        rfl
    | error message =>
        rw [prefetch_value_of_error hall, prefetch_value_of_error (h.symm ▸ hall)]
        rfl
  exact congr (congrArg Delayed.mk hdelay) hvalue

/-- A hook that was told: it is waited for, or it has settled. -/
inductive Answer where
  | waiting (work : Delayed (Except String Value))
  | settled (outcome : Except String Value)

namespace Answer

/-- What a hook gives in the end. -/
def outcome : Answer → Except String Value
  | waiting work => work.value
  | settled outcome => outcome

/-- Ask a hook whether it is done. -/
def ask : Answer → Answer
  | waiting ⟨0, outcome⟩ => settled outcome
  | waiting ⟨delay + 1, outcome⟩ => waiting ⟨delay, outcome⟩
  | settled outcome => settled outcome

/-- The result of a hook that has succeeded. -/
def result? : Answer → Option Value
  | settled (.ok result) => some result
  | _ => none

theorem outcome_ask (answer : Answer) : answer.ask.outcome = answer.outcome := by
  cases answer with
  | settled => rfl
  | waiting work =>
      obtain ⟨_ | delay, outcome⟩ := work <;> rfl

end Answer

/-- Hooks that run for an instance, and what their work has come to if it has
    ended. -/
structure Prefetching where
  inst : Instance
  answers : List Answer
  result : Option (Except RenderError Unit)

namespace Prefetching

/-- What can happen: a hook is asked whether it is done, the results are merged,
    or the failure of a hook ends the work. -/
inductive Move where
  | ask (i : Nat)
  | merge
  | fail (i : Nat)

/-- All hooks are told at the same time. -/
def start (inst : Instance) : Prefetching where
  inst
  answers := inst.component.prefetch.map fun hook => .waiting (hook inst.request)
  result := none

/-- What a move does. Results are merged when all are there, and the work ends
    with a failure when the hook has failed; nothing happens after the end. -/
def move (work : Prefetching) (next : Move) : Prefetching :=
  if work.result.isSome then work
  else match next with
  | .ask i =>
    match work.answers[i]? with
    | some answer => { work with answers := work.answers.set i answer.ask }
    | none => work
  | .merge =>
    match work.answers.mapM Answer.result? with
    | some results =>
      { work with inst := results.foldl Instance.merge work.inst, result := some (.ok ()) }
    | none => work
  | .fail i =>
    match work.answers[i]? with
    | some (.settled (.error message)) =>
      { work with result := some (.error (.prefetch work.inst.component.name message)) }
    | _ => work

/-- What moves come to that are made one after the other. -/
def play (inst : Instance) (moves : List Move) : Prefetching := moves.foldl move (start inst)

/-- What holds while hooks run: they give what they were going to give, the
    instance stays as it is until the end, and the end is one of those there
    are. -/
structure Kept (inst : Instance) (work : Prefetching) : Prop where
  outcomes : work.answers.map Answer.outcome = inst.outcomes
  meantime : work.result = none → work.inst = inst
  ended : ∀ result, work.result = some result → Ends inst result work.inst

variable {work : Prefetching} {moves : List Move}

theorem kept_start (inst : Instance) : Kept inst (start inst) where
  outcomes := List.map_map
  meantime _ := rfl
  ended _ h := by cases h

/-- Results that are all there are those of all hooks. -/
theorem map_outcome_of_results {answers : List Answer}
    (h : answers.mapM Answer.result? = some results) :
    answers.map Answer.outcome = results.map .ok := by
  induction answers generalizing results with
  | nil =>
      cases h
      rfl
  | cons answer rest ih =>
      rw [List.mapM_cons] at h
      obtain ⟨result, hresult, h⟩ := Option.bind_eq_some_iff.mp h
      obtain ⟨later, hlater, h⟩ := Option.bind_eq_some_iff.mp h
      cases h
      rw [List.map_cons, List.map_cons, ih hlater]
      unfold Answer.result? at hresult
      split at hresult
      · cases hresult
        rfl
      · cases hresult

theorem map_outcome_set {answers : List Answer} {i : Nat} {answer : Answer}
    (h : answers[i]? = some answer) :
    (answers.set i answer.ask).map Answer.outcome = answers.map Answer.outcome := by
  obtain ⟨hlt, hget⟩ := List.getElem?_eq_some_iff.mp h
  rw [← List.length_map Answer.outcome] at hlt
  have hsame : answer.ask.outcome = (answers.map Answer.outcome)[i] := by
    rw [answer.outcome_ask, List.getElem_map, hget]
  rw [List.map_set, hsame, List.set_getElem_self]

/-- All that a move can do. -/
theorem move_cases (work : Prefetching) (next : Move) :
    work.move next = work ∨ work.result = none ∧
      ((∃ i answer, work.answers[i]? = some answer ∧
        work.move next = { work with answers := work.answers.set i answer.ask }) ∨
      (∃ results, work.answers.mapM Answer.result? = some results ∧ work.move next =
        { work with inst := results.foldl Instance.merge work.inst, result := some (.ok ()) }) ∨
      ∃ message, Answer.settled (.error message) ∈ work.answers ∧ work.move next =
        { work with result := some (.error (.prefetch work.inst.component.name message)) }) := by
  unfold move
  cases hresult : work.result with
  | some result => exact .inl (if_pos rfl)
  | none =>
      rw [Option.isSome_none, if_neg Bool.false_ne_true]
      cases next with
      | ask i =>
          dsimp only
          split
          · next answer hanswer => exact .inr ⟨rfl, .inl ⟨i, answer, hanswer, rfl⟩⟩
          · exact .inl rfl
      | merge =>
          dsimp only
          split
          · next results hall => exact .inr ⟨rfl, .inr (.inl ⟨results, hall, rfl⟩)⟩
          · exact .inl rfl
      | fail i =>
          dsimp only
          split
          · next message hanswer =>
              exact .inr ⟨rfl, .inr (.inr ⟨message, List.mem_of_getElem? hanswer, rfl⟩)⟩
          · exact .inl rfl

/-- What a move keeps. -/
theorem Kept.move (h : Kept inst work) (next : Move) : Kept inst (work.move next) := by
  rcases move_cases work next with hmove | ⟨hresult, ⟨i, answer, hanswer, hmove⟩ |
    ⟨results, hall, hmove⟩ | ⟨message, hanswer, hmove⟩⟩ <;> rw [hmove]
  · exact h
  · refine ⟨?_, h.meantime, h.ended⟩
    rw [← h.outcomes, map_outcome_set hanswer]
  -- The results of all hooks are merged into the instance as it was.
  · refine ⟨h.outcomes, fun hnone => (by cases hnone), fun result hend => ?_⟩
    cases hend
    rw [h.meantime hresult, Instance.foldl_merge]
    exact .merged (h.outcomes.symm.trans (map_outcome_of_results hall))
  · refine ⟨h.outcomes, fun hnone => (by cases hnone), fun result hend => ?_⟩
    cases hend
    rw [h.meantime hresult]
    refine .failed ?_
    rw [← h.outcomes]
    exact List.mem_map_of_mem hanswer

/-- What any moves keep. -/
theorem kept_play (inst : Instance) (moves : List Move) : Kept inst (play inst moves) := by
  have hmoves : ∀ (moves : List Move) (work : Prefetching), Kept inst work →
      Kept inst (moves.foldl Prefetching.move work) := by
    intro moves
    induction moves with
    | nil => exact fun _ h => h
    | cons next rest ih => exact fun work h => ih _ (h.move next)
  exact hmoves moves _ (kept_start inst)

/-- A hook that is asked. -/
theorem move_ask (hnone : work.result = none) {i : Nat} {answer : Answer}
    (hanswer : work.answers[i]? = some answer) :
    work.move (.ask i) = { work with answers := work.answers.set i answer.ask } := by
  simp only [move, hnone, Option.isSome_none, Bool.false_eq_true, if_false, hanswer]

/-- A hook that is asked often enough settles. -/
theorem ask_often (hnone : work.result = none) {i : Nat} {answer : Answer}
    (hanswer : work.answers[i]? = some answer) :
    ∃ moves : List Move, moves.foldl move work =
      { work with answers := work.answers.set i (.settled answer.outcome) } := by
  cases answer with
  | settled outcome =>
      obtain ⟨hlt, hget⟩ := List.getElem?_eq_some_iff.mp hanswer
      refine ⟨[], ?_⟩
      rw [Answer.outcome, ← hget, List.set_getElem_self]
      rfl
  | waiting waited =>
      obtain ⟨delay, outcome⟩ := waited
      induction delay generalizing work with
      | zero => exact ⟨[.ask i], move_ask hnone hanswer⟩
      | succ delay ih =>
          have hlt : i < work.answers.length := (List.getElem?_eq_some_iff.mp hanswer).1
          obtain ⟨moves, hmoves⟩ := @ih
            { work with answers := work.answers.set i (.waiting ⟨delay, outcome⟩) } hnone
            (List.getElem?_set_self hlt)
          refine ⟨.ask i :: moves, ?_⟩
          rw [List.foldl_cons, move_ask hnone hanswer]
          exact hmoves.trans (by rw [List.set_set]; rfl)

/-- All hooks settle if they are asked one after the other. -/
theorem ask_all (hnone : work.result = none) :
    ∃ moves : List Move, moves.foldl move work =
      { work with answers := (work.answers.map Answer.outcome).map .settled } := by
  -- By induction on the hooks that have not been asked yet.
  have hfrom : ∀ (rest : List Answer) (front : List (Except String Value)) (work : Prefetching),
      work.result = none → work.answers = front.map .settled ++ rest →
      ∃ moves : List Move, moves.foldl move work =
        { work with answers := (front ++ rest.map Answer.outcome).map .settled } := by
    intro rest
    induction rest with
    | nil =>
        intro front work hnone hanswers
        rw [List.append_nil] at hanswers
        refine ⟨[], ?_⟩
        rw [List.map_nil, List.append_nil, ← hanswers]
        rfl
    | cons answer rest ih =>
        intro front work hnone hanswers
        have hanswer : work.answers[front.length]? = some answer := by
          rw [hanswers, List.getElem?_append_right (Nat.le_of_eq (List.length_map _)),
            List.length_map, Nat.sub_self]
          rfl
        obtain ⟨moves, hmoves⟩ := ask_often hnone hanswer
        have hset : work.answers.set front.length (.settled answer.outcome) =
            (front ++ [answer.outcome]).map .settled ++ rest := by
          rw [hanswers, List.set_append_right _ _ (Nat.le_of_eq (List.length_map _)),
            List.length_map, Nat.sub_self, List.set_cons_zero, List.map_append, List.append_assoc]
          rfl
        obtain ⟨later, hlater⟩ := ih (front ++ [answer.outcome])
          { work with answers := work.answers.set front.length (.settled answer.outcome) } hnone
          hset
        refine ⟨moves ++ later, ?_⟩
        rw [List.foldl_append, hmoves, hlater, List.map_cons, List.append_assoc]
        rfl
  exact hfrom work.answers [] work hnone rfl

theorem results_of_settled (results : List Value) :
    ((results.map Except.ok).map Answer.settled).mapM Answer.result? = some results := by
  induction results with
  | nil => rfl
  | cons result rest ih =>
      rw [List.map_cons, List.map_cons, List.mapM_cons, ih]
      rfl

/-- Every end can be reached, whatever moves were made before. -/
theorem exists_end (h : Kept inst work) (hnone : work.result = none)
    (hend : Ends inst result after) :
    ∃ moves : List Move, (moves.foldl move work).result = some result ∧
      (moves.foldl move work).inst = after := by
  obtain ⟨moves, hmoves⟩ := ask_all hnone
  rw [h.outcomes] at hmoves
  have hinst : work.inst = inst := h.meantime hnone
  cases hend with
  | @merged results hok =>
      rw [hok] at hmoves
      refine ⟨moves ++ [.merge], ?_⟩
      rw [List.foldl_append, hmoves]
      simp only [List.foldl_cons, List.foldl_nil, move, hnone, Option.isSome_none,
        Bool.false_eq_true, if_false, results_of_settled, hinst, Instance.foldl_merge, and_self]
  | @failed message herror =>
      obtain ⟨i, hi⟩ := List.getElem?_of_mem herror
      have hanswer : (inst.outcomes.map Answer.settled)[i]? =
          some (.settled (.error message)) := by
        rw [List.getElem?_map, hi]
        rfl
      refine ⟨moves ++ [.fail i], ?_⟩
      rw [List.foldl_append, hmoves]
      simp only [List.foldl_cons, List.foldl_nil, move, hnone, Option.isSome_none,
        Bool.false_eq_true, if_false, hanswer, hinst, and_self]

end Prefetching

/-- Prefetching puts all results into the scope or none, and does not depend on
    the order in which the hooks are done.

    The hooks are told the scope as it was before any result: nothing else that
    they would answer makes a difference. If all succeed, their results are laid
    over that scope in the order of the hooks. If any of them fails, the whole
    fails with the failure of one that does and the instance is as it was, also
    where the hooks of another instance run beside it. The same holds of any
    moves that are made; until they come to an end the instance is as it was,
    and they can always be continued to the end that the engine gives. -/
theorem prefetch_atomic (inst other : Instance) :
    (∀ hooks : List Hook,
      hooks.map (· inst.request) = inst.component.prefetch.map (· inst.request) →
      prefetch (inst.withHooks hooks) = (prefetch inst).map (Except.map (·.withHooks hooks))) ∧
    (∀ results, inst.outcomes = results.map .ok →
      (prefetch inst).value = .ok (inst.overlaid results) ∧
      ((prefetchBoth inst other).2.1 = inst ∨
        (prefetchBoth inst other).2.1 = inst.overlaid results) ∧
      ((prefetchBoth other inst).2.2 = inst ∨
        (prefetchBoth other inst).2.2 = inst.overlaid results) ∧
      ∀ moves result, (Prefetching.play inst moves).result = some result →
        result = .ok () ∧ (Prefetching.play inst moves).inst = inst.overlaid results) ∧
    ((∃ message, .error message ∈ inst.outcomes) →
      (∃ message, .error message ∈ inst.outcomes ∧
        (prefetch inst).value = .error (.prefetch inst.component.name message)) ∧
      (prefetchBoth inst other).2.1 = inst ∧ (prefetchBoth other inst).2.2 = inst ∧
      ∀ moves, (Prefetching.play inst moves).inst = inst ∧
        ∀ result, (Prefetching.play inst moves).result = some result →
          ∃ message, .error message ∈ inst.outcomes ∧
            result = .error (.prefetch inst.component.name message)) ∧
    ∀ moves, (Prefetching.play inst moves).result = none →
      (Prefetching.play inst moves).inst = inst ∧
      ∃ more, (Prefetching.play inst (moves ++ more)).result =
          some ((prefetch inst).value.map fun _ => ()) ∧
        (Prefetching.play inst (moves ++ more)).inst =
          leftBehind inst true (prefetch inst).value := by
  refine ⟨fun hooks hsame => prefetch_withHooks hsame, fun results hok => ?_,
    fun ⟨message, herror⟩ => ?_, fun moves hnone => ?_⟩
  · refine ⟨prefetch_of_outcomes hok, leftBehind_of_outcomes hok _, leftBehind_of_outcomes hok _,
      fun moves result hresult => ?_⟩
    exact ((Prefetching.kept_play inst moves).ended result hresult).of_outcomes hok
  · refine ⟨prefetch_of_error herror, leftBehind_of_error herror _, leftBehind_of_error herror _,
      fun moves => ?_⟩
    have hkept := Prefetching.kept_play inst moves
    refine ⟨?_, fun result hresult => ((hkept.ended result hresult).of_error herror).1⟩
    cases hresult : (Prefetching.play inst moves).result with
    | none => exact hkept.meantime hresult
    | some result => exact ((hkept.ended result hresult).of_error herror).2
  · have hkept := Prefetching.kept_play inst moves
    obtain ⟨more, hend, hinst⟩ := Prefetching.exists_end hkept hnone (prefetch_ends inst)
    unfold Prefetching.play at hend hinst hkept hnone ⊢
    rw [← List.foldl_append] at hend hinst
    exact ⟨hkept.meantime hnone, more, hend, hinst⟩

/-- An instance with two hooks that both give a name. The first of them is done
    last. -/
def greeted : Instance :=
  { (default : Instance) with
    component := { Component.named "user" with
      prefetch := [fun _ => ⟨2, .ok (.object [("name", .str "ada")])⟩,
        fun _ => ⟨0, .ok (.object [("name", .str "bob")])⟩] } }

/-- The name is that of the second hook. -/
theorem prefetch_atomic_greeted :
    greeted.outcomes = [.object [("name", .str "ada")], .object [("name", .str "bob")]].map .ok ∧
      (prefetch greeted).value = .ok (greeted.overlaid
        [.object [("name", .str "ada")], .object [("name", .str "bob")]]) ∧
      (greeted.overlaid [.object [("name", .str "ada")], .object [("name", .str "bob")]]).scope =
        [("name", .str "bob")] := by
  have houtcomes : greeted.outcomes =
      [.object [("name", .str "ada")], .object [("name", .str "bob")]].map .ok := rfl
  exact ⟨houtcomes, ((prefetch_atomic greeted greeted).2.1 _ houtcomes).1, rfl⟩

end Engine

end RenderFold
