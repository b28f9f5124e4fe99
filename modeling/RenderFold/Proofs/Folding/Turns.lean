import RenderFold.Proofs.Folding.Pauses

/-!
# Turn by Turn

A walk that never pauses, told without a record of what it compares. In each
turn it meets the next pair of the innermost frame, or closes the frame.

How a walk ends is determined. The only choice there is, how many async
components a meeting looks through at most, makes no difference if it
finishes.

## Main definitions

* `Walk.takeTurn`: One turn.
* `Walk.Concludes`: How a walk ends.

## Theorems

* `Walk.ends_iff_concludes`: This is how a walk with pauses ends.
* `Walk.meet_more`: A meeting that finishes is the same with more depth.
* `Walk.Concludes.unique`, `Engine.Folds.unique`: There is one way to end.
-/

namespace RenderFold

namespace Walk

variable {engine : Engine} {walk after : Walk} {pair : Pair} {data : Twin NodeData}
  {resolutions : Twin Resolution} {result other : Except FoldError Walk}

/-- Meet the next pair of the innermost frame, or close it. Gives whether there was a
    frame. -/
def takeTurn (engine : Engine) (depth : Nat) : Walking Bool := do
  match (← get).frames with
  | [] => return false
  | frame :: rest =>
    match frame.pairs.next? with
    | some (pair, left) =>
      modify fun walk => { walk with frames := frame.withPairs left :: rest }
      meet engine depth pair
    | none =>
      modify fun walk => { walk with frames := rest }
      finish engine frame
    return true

/-- How a walk ends that takes turn after turn. The error that says that evaluation did
    not finish does not count. -/
inductive Concludes (engine : Engine) : Walk → Except FoldError Walk → Prop where
  | done {walk after depth} (hwork : takeTurn engine depth walk = .ok false after) :
      Concludes engine walk (.ok after)
  | step {walk after depth result} (hwork : takeTurn engine depth walk = .ok true after)
      (hrest : Concludes engine after result) : Concludes engine walk result
  | fails {walk after depth e} (hwork : takeTurn engine depth walk = .error e after)
      (hfinished : e ≠ .render .unfinished) : Concludes engine walk (.error e)

section Turn

variable {frame : Frame} {rest : List Frame} {left : Pairs}

theorem takeTurn_of_nil (depth : Nat) (hframes : walk.frames = []) :
    takeTurn engine depth walk = .ok false walk := by
  rw [takeTurn, get_bind, hframes]
  rfl

theorem takeTurn_of_next (depth : Nat) (hframes : walk.frames = frame :: rest)
    (hnext : frame.pairs.next? = some (pair, left)) :
    takeTurn engine depth walk = (meet engine depth pair >>= fun _ => pure true)
      { walk with frames := frame.withPairs left :: rest } := by
  rw [takeTurn, get_bind, hframes]
  dsimp only
  rw [hnext]
  rfl

theorem takeTurn_of_exhausted (depth : Nat) (hframes : walk.frames = frame :: rest)
    (hnext : frame.pairs.next? = none) :
    takeTurn engine depth walk =
      (finish engine frame >>= fun _ => pure true) { walk with frames := rest } := by
  rw [takeTurn, get_bind, hframes]
  dsimp only
  rw [hnext]
  rfl

end Turn

/-- A walk that meets pair after pair takes turn after turn. -/
theorem Rounds.concludes {log : List Visit} (h : Rounds engine walk log result) :
    Concludes engine walk result := by
  induction h with
  | done hframes => exact .done (takeTurn_of_nil 0 hframes)
  | meet hframes hnext hwork hrest ih =>
      exact .step ((takeTurn_of_next _ hframes hnext).trans (bind_of_ok hwork)) ih
  | meetFails hframes hnext hwork hfinished =>
      exact .fails ((takeTurn_of_next _ hframes hnext).trans (bind_of_error hwork)) hfinished
  | finish hframes hnext hwork hrest ih =>
      exact .step ((takeTurn_of_exhausted 0 hframes hnext).trans (bind_of_ok hwork)) ih
  | finishFails hframes hnext hwork hfinished =>
      exact .fails ((takeTurn_of_exhausted 0 hframes hnext).trans (bind_of_error hwork)) hfinished

/-- A turn is a step of a walk that meets pair after pair. -/
def Turned (engine : Engine) (walk : Walk) : EStateM.Result FoldError Walk Bool → Prop
  | .ok false after => after = walk ∧ walk.frames = []
  | .ok true after => ∀ log result, Rounds engine after log result →
      ∃ log, Rounds engine walk log result
  | .error e _ => e ≠ .render .unfinished → ∃ log, Rounds engine walk log (.error e)

theorem turned (engine : Engine) (depth : Nat) (walk : Walk) :
    Turned engine walk (takeTurn engine depth walk) := by
  rcases hframes : walk.frames with _ | ⟨frame, rest⟩
  · rw [takeTurn_of_nil depth hframes]
    exact ⟨rfl, hframes⟩
  · cases hnext : frame.pairs.next? with
    | none =>
        rw [takeTurn_of_exhausted depth hframes hnext]
        cases hfinish : finish engine frame { walk with frames := rest } with
        | ok _ after =>
            rw [bind_of_ok hfinish]
            exact fun log result hrest => ⟨_, .finish hframes hnext hfinish hrest⟩
        | error e after =>
            rw [bind_of_error hfinish]
            exact fun hfinished => ⟨_, .finishFails hframes hnext hfinish hfinished⟩
    | some next =>
        obtain ⟨pair, left⟩ := next
        rw [takeTurn_of_next depth hframes hnext]
        cases hmeet : meet engine depth pair
            { walk with frames := frame.withPairs left :: rest } with
        | ok _ after =>
            rw [bind_of_ok hmeet]
            exact fun log result hrest => ⟨_, .meet hframes hnext hmeet hrest⟩
        | error e after =>
            rw [bind_of_error hmeet]
            exact fun hfinished => ⟨_, .meetFails hframes hnext hmeet hfinished⟩

/-- A walk that takes turn after turn meets pair after pair. -/
theorem Concludes.rounds (h : Concludes engine walk result) :
    ∃ log, Rounds engine walk log result := by
  induction h with
  | @done walk after depth hwork =>
      obtain ⟨rfl, hframes⟩ := hwork ▸ turned engine depth walk
      exact ⟨[], .done hframes⟩
  | @step walk after depth result hwork hrest ih =>
      obtain ⟨log, hrounds⟩ := ih
      have hturned := turned engine depth walk
      rw [hwork] at hturned
      exact hturned log _ hrounds
  | @fails walk after depth e hwork hfinished =>
      have hturned := turned engine depth walk
      rw [hwork] at hturned
      exact hturned hfinished

/-- A walk that pauses ends as one that takes turn after turn. -/
theorem ends_iff_concludes (hpause : walk.pause = .going) :
    (∃ log, Ends engine none walk log result) ↔ Concludes engine walk result := by
  constructor
  · rintro ⟨log, hends⟩
    exact ((ends_iff_rounds hpause).mp hends).concludes
  · intro h
    obtain ⟨log, hrounds⟩ := h.rounds
    exact ⟨log, (ends_iff_rounds hpause).mpr hrounds⟩

/-- What async components resolved to is either two views, or is not met. -/
theorem settle_congr (meet other : Pair → Walking Unit)
    (hviews : ∀ static dynamic, resolutions ≠ ⟨.view static, .view dynamic⟩) :
    settle engine meet pair data resolutions = settle engine other pair data resolutions := by
  unfold settle
  dsimp only
  rw [compareResolved_congr _ _ hviews]

/-- Views that async components resolved to are met alike if they are met alike at all. -/
theorem settle_eq {meet other : Pair → Walking Unit}
    (hmeet : ∀ pair, Finishes (meet pair walk) → other pair walk = meet pair walk)
    (hfinishes : Finishes (settle engine meet pair data resolutions walk)) :
    settle engine other pair data resolutions walk =
      settle engine meet pair data resolutions walk := by
  by_cases hviews : ∃ static dynamic, resolutions = ⟨.view static, .view dynamic⟩
  · obtain ⟨static, dynamic, rfl⟩ := hviews
    rw [settle_views] at hfinishes
    rw [settle_views, settle_views]
    exact hmeet _ hfinishes
  · rw [settle_congr other meet fun static dynamic heq => hviews ⟨static, dynamic, heq⟩]

/-- Two async components are met when both have resolved. -/
theorem meet_deferred {id id' : FactoryId} {data data' : NodeData}
    (hview : pair.view = ⟨.deferred id data, .deferred id' data'⟩) (depth : Nat) :
    meet engine (depth + 1) pair walk =
      (onEngine (engine.resolveBoth (walk.engine.asked id) (walk.engine.asked id')) >>=
        fun (static, dynamic) =>
          settle engine (meet engine depth) pair ⟨data, data'⟩ ⟨static, dynamic⟩) walk :=
  bind_of_ok (arrive_deferred hview)

/-- A meeting that finishes is the same if it may look through one more async
    component. -/
theorem meet_succ (depth : Nat) : ∀ {pair : Pair} {walk : Walk},
    Finishes (meet engine depth pair walk) →
    meet engine (depth + 1) pair walk = meet engine depth pair walk := by
  induction depth with
  | zero => exact fun hfinishes => absurd rfl (hfinishes _)
  | succ depth ih =>
      intro pair walk hfinishes
      by_cases hview : BothDeferred pair.view
      · obtain ⟨id, data, id', data', hview⟩ := hview
        rw [meet_deferred hview] at hfinishes ⊢
        rw [meet_deferred hview]
        cases hboth : onEngine (engine.resolveBoth (walk.engine.asked id) (walk.engine.asked id'))
            walk with
        | error e after => rw [bind_of_error hboth, bind_of_error hboth]
        | ok both after =>
            rw [bind_of_ok hboth] at hfinishes ⊢
            rw [bind_of_ok hboth]
            exact settle_eq (fun pair hfinishes => ih hfinishes) hfinishes
      · rw [meet, meet, arrive_follow_of_plain hview, arrive_follow_of_plain hview]

theorem meet_more {depth : Nat} (more : Nat) (hfinishes : Finishes (meet engine depth pair walk)) :
    meet engine (depth + more) pair walk = meet engine depth pair walk := by
  induction more with
  | zero => rfl
  | succ more ih =>
      rw [← Nat.add_assoc, meet_succ (depth + more) (ih ▸ hfinishes), ih]

/-- A turn that finishes is the same if it may look through more async components. -/
theorem takeTurn_more {depth : Nat} (more : Nat)
    (hfinishes : Finishes (takeTurn engine depth walk)) :
    takeTurn engine (depth + more) walk = takeTurn engine depth walk := by
  rcases hframes : walk.frames with _ | ⟨frame, rest⟩
  · rw [takeTurn_of_nil _ hframes, takeTurn_of_nil _ hframes]
  · cases hnext : frame.pairs.next? with
    | none => rw [takeTurn_of_exhausted _ hframes hnext, takeTurn_of_exhausted _ hframes hnext]
    | some next =>
        obtain ⟨pair, left⟩ := next
        rw [takeTurn_of_next _ hframes hnext] at hfinishes
        rw [takeTurn_of_next _ hframes hnext, takeTurn_of_next _ hframes hnext]
        refine bind_congr_of_eq (meet_more more fun after hwork => ?_)
        rw [bind_of_error hwork] at hfinishes
        exact hfinishes after rfl

/-- Turns that finish are the same. -/
theorem takeTurn_unique {depth depth' : Nat} (h : Finishes (takeTurn engine depth walk))
    (h' : Finishes (takeTurn engine depth' walk)) :
    takeTurn engine depth walk = takeTurn engine depth' walk := by
  rw [← takeTurn_more depth' h, ← takeTurn_more depth h', Nat.add_comm]

/-- How a walk ends that has taken a turn. -/
def EndsAfter (engine : Engine) (result : Except FoldError Walk) :
    EStateM.Result FoldError Walk Bool → Prop
  | .ok false after => result = .ok after
  | .ok true after => Concludes engine after result
  | .error e _ => result = .error e

/-- A walk ends after the turn that it takes. -/
theorem Concludes.turns {depth : Nat} (h : Concludes engine walk result)
    (hfinishes : Finishes (takeTurn engine depth walk)) :
    EndsAfter engine result (takeTurn engine depth walk) := by
  cases h with
  | done hwork =>
      rw [takeTurn_unique hfinishes (finishes_of_ok hwork), hwork]
      exact rfl
  | step hwork hrest =>
      rw [takeTurn_unique hfinishes (finishes_of_ok hwork), hwork]
      exact hrest
  | fails hwork hfinished =>
      rw [takeTurn_unique hfinishes (finishes_of_error hwork hfinished), hwork]
      exact rfl

/-- There is one way for a walk to end. -/
theorem Concludes.unique (h : Concludes engine walk result) (h' : Concludes engine walk other) :
    result = other := by
  induction h with
  | done hwork =>
      have hends := h'.turns (finishes_of_ok hwork)
      rw [hwork] at hends
      exact hends.symm
  | step hwork hrest ih =>
      have hends := h'.turns (finishes_of_ok hwork)
      rw [hwork] at hends
      exact ih hends
  | fails hwork hfinished =>
      have hends := h'.turns (finishes_of_error hwork hfinished)
      rw [hwork] at hends
      exact hends.symm

end Walk

namespace Engine

variable {engine : Engine} {options : Options} {root : Twin View} {state : Engine.State}
  {result other : Except FoldError FoldedTree}

/-- What comes of folding is what comes of the turns. -/
theorem folds_iff_concludes :
    engine.Folds options root state result ↔
      ∃ last, Walk.Concludes engine (.start options root state) last ∧
        result = last.bind Walk.result := by
  have hends (last : Except FoldError Walk) :
      (∃ log, Walk.Ends engine none (.start options root state) log last) ↔
        Walk.Concludes engine (.start options root state) last := Walk.ends_iff_concludes rfl
  constructor
  · rintro ⟨log, last, h, hresult⟩
    exact ⟨last, (hends last).mp ⟨log, h⟩, hresult⟩
  · rintro ⟨last, h, hresult⟩
    obtain ⟨log, h⟩ := (hends last).mpr h
    exact ⟨log, last, h, hresult⟩

/-- One thing comes of folding. -/
theorem Folds.unique (h : engine.Folds options root state result)
    (h' : engine.Folds options root state other) : result = other := by
  obtain ⟨last, hlast, rfl⟩ := folds_iff_concludes.mp h
  obtain ⟨last', hlast', rfl⟩ := folds_iff_concludes.mp h'
  rw [hlast.unique hlast']

end Engine

end RenderFold
