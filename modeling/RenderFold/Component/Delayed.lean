/-!
# Delayed Results

Asynchronous work as a value. Pending work is asked in rounds whether it is
done; a delayed result answers no `delay` times and then gives its value. So
the round in which it settles, counted from zero, is its delay.

Work that is joined is asked in order in every round. The first failure to
be met ends the whole, which makes it the one with the least delay, and the
foremost one among equals; if nothing fails, the whole is done when its
slowest part is.

## Main definitions

* `Delayed`: A value and how long it takes.
* `Delayed.join`, `Delayed.joinEach`: Work done side by side.
* `Delayed.settledFirst`, `Delayed.settledSecond`: Which side of a join had
  settled when the join did.

## Theorems

* `Delayed.join_ok`, `Delayed.joinEach_ok`: A join succeeds exactly when all
  sides do.
-/

namespace RenderFold

/-- A value that is there after `delay` rounds of waiting. -/
structure Delayed (α : Type) where
  delay : Nat
  value : α

namespace Delayed

variable {ε α β γ : Type}

/-- A value that is there at once. -/
def now (value : α) : Delayed α := ⟨0, value⟩

/-- Apply a function when the value is there. -/
def map (f : α → β) (work : Delayed α) : Delayed β := ⟨work.delay, f work.value⟩

/-- Do two things side by side, the first one being asked first. -/
def join (f : α → β → γ) (first : Delayed (Except ε α)) (second : Delayed (Except ε β)) :
    Delayed (Except ε γ) :=
  match first.value, second.value with
  | .ok a, .ok b => ⟨max first.delay second.delay, .ok (f a b)⟩
  | .ok _, .error e => ⟨second.delay, .error e⟩
  | .error e, .ok _ => ⟨first.delay, .error e⟩
  | .error e, .error e' =>
    if first.delay ≤ second.delay then ⟨first.delay, .error e⟩ else ⟨second.delay, .error e'⟩

/-- Do several things side by side, each of them being asked in every
    round. -/
def joinEach : List (Delayed (Except ε α)) → Delayed (Except ε (List α))
  | [] => now (.ok [])
  | work :: rest => join List.cons work (joinEach rest)

/-- Whether the first side has settled when a join of both settles in round
    `round`. It is asked before the second. -/
def settledFirst (first : Delayed α) (round : Nat) : Bool := first.delay ≤ round

/-- Whether the second side has settled when a join of both settles in round
    `round`. If the first side fails in that round, the second side is not
    asked any more. -/
def settledSecond (first : Delayed (Except ε α)) (second : Delayed β) (round : Nat) : Bool :=
  match first.value with
  | .ok _ => second.delay ≤ round
  | .error _ => if first.delay = round then second.delay < round else second.delay ≤ round

theorem join_ok {f : α → β → γ} {first : Delayed (Except ε α)} {second : Delayed (Except ε β)}
    {c : γ} : (join f first second).value = .ok c ↔
      ∃ a b, first.value = .ok a ∧ second.value = .ok b ∧ c = f a b := by
  unfold join
  cases ha : first.value with
  | error e =>
      cases hb : second.value with
      | error e' => simp only [reduceCtorEq, false_and, exists_false, iff_false]; split <;> simp
      | ok b => simp
  | ok a =>
      cases hb : second.value with
      | error e => simp
      | ok b =>
          simp only [Except.ok.injEq]
          constructor
          · rintro rfl
            exact ⟨a, b, rfl, rfl, rfl⟩
          · rintro ⟨a', b', rfl, rfl, rfl⟩
            rfl

theorem joinEach_ok {works : List (Delayed (Except ε α))} {results : List α} :
    (joinEach works).value = .ok results ↔ works.map (·.value) = results.map .ok := by
  induction works generalizing results with
  | nil => cases results <;> simp [joinEach, now]
  | cons work rest ih =>
      simp only [joinEach, join_ok, ih, List.map_cons]
      constructor
      · rintro ⟨a, later, ha, hlater, rfl⟩
        rw [ha, hlater, List.map_cons]
      · intro h
        cases results with
        | nil => simp at h
        | cons a later =>
            simp only [List.map_cons, List.cons.injEq] at h
            exact ⟨a, later, h.1, h.2, rfl⟩

end Delayed

end RenderFold
