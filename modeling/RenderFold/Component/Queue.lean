import RenderFold.Component.Delayed

/-!
# Work in a Queue

Asking every piece of work in every round is only done for a handful of
them. Where there are more, they wait in a queue, and the one in front is
asked: if it is done it leaves the queue, and if it is not it goes to the
back. A round ends when two in a row were not done, or when all that are left
were not, since asking one twice for nothing does not help. So a piece of
work may be asked more than once in a round, and may wait for rounds without
being asked.

Results are looked at in the order of the work. A failure is met only when
everything before it has succeeded, so the foremost failure ends the whole,
however long it takes.

## Main definitions

* `Delayed.settle`: In which round each piece of work in a queue is done.
* `Delayed.joinInOrder`: Work whose results are looked at in order.
* `Delayed.joinQueued`: Work that waits in a queue.
* `Delayed.joinAll`: Many things side by side, in a queue if they are too
  many to be asked one by one.

## Theorems

* `Delayed.joinAll_ok`: The whole succeeds exactly when every part does.
-/

namespace RenderFold

namespace Delayed

variable {ε α : Type}

/-- How many pieces of work may turn out not to be done before the round
    ends, if `left` of them are left. -/
def patience (left : Nat) : Nat := min 2 left

/-- How many questions it takes until a queue is empty. -/
def questions : List (Nat × Nat) → Nat
  | [] => 0
  | (_, delay) :: rest => questions rest + delay + 1

theorem questions_append (front back : List (Nat × Nat)) :
    questions (front ++ back) = questions front + questions back := by
  induction front with
  | nil => simp only [List.nil_append, questions, Nat.zero_add]
  | cons entry rest ih => simp only [List.cons_append, questions, ih]; omega

/-- In which round each piece of work is done. The queue holds the position
    of each and how often it will still answer that it is not done; `asks` is
    how many more of these answers the current round allows. -/
def settle (round asks : Nat) (queue : List (Nat × Nat)) : List (Nat × Nat) :=
  match queue, asks with
  | [], _ => []
  -- The round is over, and the next one starts with whoever is in front.
  | front :: rest, 0 => settle (round + 1) (patience (rest.length + 1)) (front :: rest)
  | (position, 0) :: rest, _ + 1 => (position, round) :: settle round (patience rest.length) rest
  | (position, delay + 1) :: rest, asks + 1 => settle round asks (rest ++ [(position, delay)])
termination_by (questions queue, if asks = 0 then 1 else 0)
decreasing_by
  · have hasks : patience (rest.length + 1) ≠ 0 := by simp only [patience]; omega
    rw [if_neg hasks, if_pos trivial]
    exact Prod.Lex.right _ Nat.zero_lt_one
  · exact Prod.Lex.left _ _ (by simp only [questions]; omega)
  · exact Prod.Lex.left _ _ (by simp only [questions_append, questions]; omega)

/-- The same work, each piece with the round in which a queue is done with
    it. -/
def queued (works : List (Delayed α)) : List (Delayed α) :=
  let rounds := settle 0 (patience works.length) (works.zipIdx.map fun (work, i) => (i, work.delay))
  works.zipIdx.map fun (work, i) => ⟨(rounds.lookup i).getD 0, work.value⟩

/-- Do several things whose results are looked at in order. -/
def joinInOrder : List (Delayed (Except ε α)) → Delayed (Except ε (List α))
  | [] => now (.ok [])
  | work :: rest =>
    match work.value with
    | .error e => ⟨work.delay, .error e⟩
    | .ok a =>
      let later := joinInOrder rest
      ⟨max work.delay later.delay, later.value.map (a :: ·)⟩

/-- Do several things that wait in a queue. -/
def joinQueued (works : List (Delayed (Except ε α))) : Delayed (Except ε (List α)) :=
  joinInOrder (queued works)

/-- The most pieces of work that are asked one by one. -/
def handful : Nat := 30

/-- Do many things side by side. -/
def joinAll (works : List (Delayed (Except ε α))) : Delayed (Except ε (List α)) :=
  if works.length ≤ handful then joinEach works else joinQueued works

theorem map_value_queued (works : List (Delayed α)) :
    (queued works).map (·.value) = works.map (·.value) := by
  have hvalue : (fun entry : Delayed α × Nat => entry.1.value) = Delayed.value ∘ Prod.fst := rfl
  simp only [queued, List.map_map, Function.comp_def]
  rw [hvalue, ← List.map_map, List.zipIdx_map_fst]

theorem joinInOrder_ok {works : List (Delayed (Except ε α))} {results : List α} :
    (joinInOrder works).value = .ok results ↔ works.map (·.value) = results.map .ok := by
  induction works generalizing results with
  | nil => cases results <;> simp [joinInOrder, now]
  | cons work rest ih =>
      simp only [joinInOrder]
      cases hvalue : work.value with
      | error e => cases results <;> simp [hvalue]
      | ok a =>
          cases hlater : (joinInOrder rest).value with
          -- A later failure makes the whole fail, whatever came before it.
          | error e =>
              have hnone : ∀ later, rest.map (·.value) ≠ List.map Except.ok later := fun later h => by
                simp [ih.mpr h] at hlater
              cases results <;> simp [Except.map, hvalue, hnone]
          | ok later =>
              have hrest := ih.mp hlater
              cases results with
              | nil => simp [Except.map]
              | cons b others =>
                  simp only [Except.map, Except.ok.injEq, List.map_cons, hvalue, List.cons.injEq]
                  refine and_congr_right fun _ => ?_
                  rw [← ih, hlater, Except.ok.injEq]

theorem joinAll_ok {works : List (Delayed (Except ε α))} {results : List α} :
    (joinAll works).value = .ok results ↔ works.map (·.value) = results.map .ok := by
  unfold joinAll
  split
  · exact joinEach_ok
  · rw [joinQueued, joinInOrder_ok, map_value_queued]

end Delayed

end RenderFold
