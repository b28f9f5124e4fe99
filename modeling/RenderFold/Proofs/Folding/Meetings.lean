import RenderFold.Proofs.Component.Matching
import RenderFold.Proofs.Folding.Ends

/-!
# Meetings

A pair is met when it is compared and everything that this has to wait for is
waited for at once, until a frame is open for what is below the pair or
nothing is left to be done about it.

Comparing looks through async components that have resolved by itself, and
pauses at others. Meeting treats them all alike: each takes one step, which
waits if it has to.

## Main definitions

* `Walk.meet`: Comparing a pair without a pause.
* `Walk.met`: The nodes that are compared then.
* `Walk.Rounds`: How a walk ends that meets pair after pair.

## Theorems

* `Walk.compare_staysAt`: What is waited for is at the same place.
* `Walk.meetsAs`: A pair is met by comparing it and waiting for what comes of
  it.
-/

namespace RenderFold

namespace Engine

/-- What two requests were answered with when they were made. -/
def answered? : Twin Asked → Option (Twin Resolution)
  | ⟨.answered static, .answered dynamic⟩ => some ⟨static, dynamic⟩
  | _ => none

theorem resolveBoth_of_answered {engine : Engine} {asked : Twin Asked}
    {resolutions : Twin Resolution} (h : answered? asked = some resolutions) (state : State) :
    engine.resolveBoth asked.static asked.dynamic state =
      .ok (resolutions.static, resolutions.dynamic) state := by
  obtain ⟨_ | _, _ | _⟩ := asked <;> cases h
  rfl

end Engine

namespace Walk

/-- Compare a pair. Async components always have to be waited for. -/
def arrive (engine : Engine) (pair : Pair) : Walking (Option Suspension) := do
  match pair.view.static, pair.view.dynamic with
  | .deferred id data, .deferred id' data' =>
    let static ← onEngine (Engine.ask id)
    let dynamic ← onEngine (Engine.ask id')
    return some (.deferred pair ⟨data, data'⟩ ⟨static, dynamic⟩)
  | _, _ => compare engine 1 pair

/-- Run the hooks of a component that has to be waited for, and enter it. -/
def enter (engine : Engine) : Option Suspension → Walking Unit
  | some (.component pending) => do
    let (result, static, dynamic) :=
      Engine.prefetchBoth pending.instances.static pending.instances.dynamic
    ofExcept result
    enterComponent engine { pending with instances := ⟨static, dynamic⟩ }
  | _ => return

/-- Compare what async components resolved to, with nothing left to wait for.
    Views are met. -/
def settle (engine : Engine) (meet : Pair → Walking Unit) (pair : Pair) (data : Twin NodeData)
    (resolutions : Twin Resolution) : Walking Unit := do
  let meetFirst (pair : Pair) : Walking (Option Suspension) := do
    meet pair
    return none
  enter engine (← compareResolved engine meetFirst pair data resolutions)

/-- Wait for what a comparison has to wait for. -/
def follow (engine : Engine) (meet : Pair → Walking Unit) : Option Suspension → Walking Unit
  | some (.deferred pair data asked) => do
    let (static, dynamic) ← onEngine (engine.resolveBoth asked.static asked.dynamic)
    settle engine meet pair data ⟨static, dynamic⟩
  | out => enter engine out

/-- Compare a pair without a pause, through at most `depth` async components that
    resolve to one another. -/
def meet (engine : Engine) : Nat → Pair → Walking Unit
  | 0, _ => throw (.render .unfinished)
  | depth + 1, pair => do
    follow engine (meet engine depth) (← arrive engine pair)

/-- The nodes that are compared while something is waited for. -/
def followed (engine : Engine) (met : Twin View → Engine.State → List (Twin View)) :
    Option Suspension → Engine.State → List (Twin View)
  | some (.deferred _ _ asked), state =>
    match engine.resolveBoth asked.static asked.dynamic state with
    | .ok (static, dynamic) state => resolvedViews (met · state) ⟨static, dynamic⟩
    | .error _ _ => []
  | _, _ => []

/-- The nodes that are compared when a pair is met, at the same place. -/
def met (engine : Engine) : Nat → Twin View → Engine.State → List (Twin View)
  | 0, view, _ => [view]
  | depth + 1, view, state =>
    view ::
      match view.static, view.dynamic with
      | .deferred id _, .deferred id' _ =>
        match engine.resolveBoth (state.asked id) (state.asked id') state with
        | .ok (static, dynamic) state => resolvedViews (met engine depth · state) ⟨static, dynamic⟩
        | .error _ _ => []
      | _, _ => []

/-- How a walk ends that meets the pairs of the innermost frame until there are none
    left, and then closes it. The error that says that evaluation did not finish
    does not count. -/
inductive Rounds (engine : Engine) : Walk → List Visit → Except FoldError Walk → Prop where
  | done {walk} (hframes : walk.frames = []) : Rounds engine walk [] (.ok walk)
  | meet {walk depth frame rest pair left after log result} (hframes : walk.frames = frame :: rest)
      (hnext : frame.pairs.next? = some (pair, left))
      (hwork : meet engine depth pair { walk with frames := frame.withPairs left :: rest } =
        .ok () after)
      (hrest : Rounds engine after log result) :
      Rounds engine walk
        (compareAll (Frame.path (frame.withPairs left :: rest)) pair.context
          (met engine depth pair.view walk.engine) ++ log) result
  | meetFails {walk depth frame rest pair left e after} (hframes : walk.frames = frame :: rest)
      (hnext : frame.pairs.next? = some (pair, left))
      (hwork : meet engine depth pair { walk with frames := frame.withPairs left :: rest } =
        .error e after)
      (hfinished : e ≠ .render .unfinished) :
      Rounds engine walk
        (compareAll (Frame.path (frame.withPairs left :: rest)) pair.context
          (met engine depth pair.view walk.engine)) (.error e)
  | finish {walk frame rest after log result} (hframes : walk.frames = frame :: rest)
      (hnext : frame.pairs.next? = none)
      (hwork : finish engine frame { walk with frames := rest } = .ok () after)
      (hrest : Rounds engine after log result) :
      Rounds engine walk (.finished (Frame.path rest) frame.kind :: log) result
  | finishFails {walk frame rest e after} (hframes : walk.frames = frame :: rest)
      (hnext : frame.pairs.next? = none)
      (hwork : finish engine frame { walk with frames := rest } = .error e after)
      (hfinished : e ≠ .render .unfinished) :
      Rounds engine walk [.finished (Frame.path rest) frame.kind] (.error e)

section Meet

variable {engine : Engine} {pair : Pair} {data : Twin NodeData} {resolutions : Twin Resolution}
  {walk after : Walk} {out : Option Suspension}

/-- What two steps do after a third is the same if they do the same on what it gives. -/
theorem bind_congr_of_leads {α β : Type} {work : Walking α} {next other : α → Walking β}
    (h : Leads work walk (fun a after => next a after = other a after) fun _ => True) :
    (work >>= next) walk = (work >>= other) walk := by
  cases hwork : work walk with
  | ok a after => rw [bind_of_ok hwork, bind_of_ok hwork, leads_ok h hwork]
  | error e after => rw [bind_of_error hwork, bind_of_error hwork]

theorem bind_congr_of_eq {α β : Type} {work other : Walking α} {next : α → Walking β}
    (h : work walk = other walk) : (work >>= next) walk = (other >>= next) walk := by
  simp only [bind, EStateM.bind, h]

/-- A component is compared without a pause, or has hooks to wait for. No frame is
    open for it then. -/
theorem compareComponents_out (component : Twin Component) :
    Leads (compareComponents engine pair component data) walk
      (fun out after => out = none ∨
        ∃ pending, out = some (.component pending) ∧ after.frames = walk.frames)
      fun _ => True := by
  unfold compareComponents
  split
  · exact .inl rfl
  · rw [leads_bind, leads_get]
    dsimp only
    rw [leads_bind, leads_onEngine]
    split
    · rw [leads_bind, leads_onEngine]
      split
      · rw [leads_bind, leads_fromProgram]
        split
        · exact .inr ⟨_, rfl, rfl⟩
        · rw [leads_bind]
          exact leads_of_eq (fun _ _ _ => .inl rfl) fun _ _ _ => trivial
      · trivial
    · trivial

/-- Two async components. -/
def BothDeferred (view : Twin View) : Prop :=
  ∃ id data id' data', view = ⟨.deferred id data, .deferred id' data'⟩

/-- Other nodes are compared without looking through anything. -/
theorem compare_of_plain (hview : ¬ BothDeferred pair.view) (depth : Nat) :
    compare engine (depth + 1) pair = arrive engine pair := by
  obtain ⟨⟨static, dynamic⟩, slot, context⟩ := pair
  cases static <;> cases dynamic <;>
    first
    | exact absurd ⟨_, _, _, _, rfl⟩ hview
    | rfl

variable (engine walk) in
theorem compare_out (hview : ¬ BothDeferred pair.view) (depth : Nat) :
    Leads (compare engine (depth + 1) pair) walk
      (fun out after => out = none ∨
        ∃ pending, out = some (.component pending) ∧ after.frames = walk.frames)
      fun _ => True := by
  unfold compare
  split
  · exact .inl rfl
  · rw [leads_bind, leads_get]
    split <;> exact .inl rfl
  · rw [leads_bind]
    exact leads_of_eq (fun _ _ _ => .inl rfl) fun _ _ _ => trivial
  · split
    · rw [leads_bind]
      exact leads_of_eq (fun _ _ _ => .inl rfl) fun _ _ _ => trivial
    · exact .inl rfl
  · exact compareComponents_out _
  · next hstatic hdynamic =>
      exact absurd ⟨_, _, _, _, Twin.eq_mk hstatic hdynamic⟩ hview
  · exact .inl rfl

/-- Other nodes never have to wait for anything but hooks. -/
theorem arrive_follow_of_plain (hview : ¬ BothDeferred pair.view) (meet : Pair → Walking Unit) :
    (arrive engine pair >>= follow engine meet) walk =
      (compare engine 1 pair >>= enter engine) walk := by
  rw [← compare_of_plain hview 0]
  refine bind_congr_of_leads (leads_mono (compare_out engine walk hview 0)
    (fun out after hout => ?_) fun _ _ => trivial)
  obtain rfl | ⟨pending, rfl, -⟩ := hout <;> rfl

/-- What is waited for after a comparison is at the same place. -/
def StaysAt (walk : Walk) (pair : Pair) : Option Suspension → Walk → Prop
  | none, _ => True
  | some (.component _), after => after.frames = walk.frames
  | some (.deferred other _ _), after =>
    other.context = pair.context ∧ after.frames = walk.frames

theorem StaysAt.of_out (hout : out = none ∨
    ∃ pending, out = some (.component pending) ∧ after.frames = walk.frames) :
    StaysAt walk pair out after := by
  obtain rfl | ⟨pending, rfl, hframes⟩ := hout
  · trivial
  · exact hframes

theorem compareResolved_staysAt {compare : Pair → Walking (Option Suspension)}
    (hcompare : ∀ pair walk, Leads (compare pair) walk (StaysAt walk pair) fun _ => True) :
    Leads (compareResolved engine compare pair data resolutions) walk (StaysAt walk pair)
      fun _ => True := by
  unfold compareResolved
  split
  · exact leads_mono (compareComponents_out _) (fun _ _ => .of_out) fun _ _ => trivial
  · exact hcompare _ _
  · split <;> trivial
  · trivial

/-- What asking about both of two async components gives. -/
def askedAt (walk : Walk) (id id' : FactoryId) : Twin Engine.Asked :=
  ⟨walk.engine.asked id, walk.engine.asked id'⟩

theorem onEngine_ask (walk : Walk) (id : FactoryId) :
    onEngine (Engine.ask id) walk = .ok (walk.engine.asked id) walk := by
  unfold onEngine
  rw [Engine.ask_eq]

theorem arrive_deferred {id id' : FactoryId} {data data' : NodeData}
    (hview : pair.view = ⟨.deferred id data, .deferred id' data'⟩) :
    arrive engine pair walk =
      .ok (some (.deferred pair ⟨data, data'⟩ (walk.askedAt id id'))) walk := by
  obtain ⟨⟨static, dynamic⟩, slot, context⟩ := pair
  cases hview
  unfold arrive
  dsimp only
  rw [bind_of_ok (onEngine_ask walk id), bind_of_ok (onEngine_ask walk id')]
  rfl

variable (engine walk) in
/-- Two async components are looked through at once if both have resolved. -/
theorem compare_deferred {id id' : FactoryId} {data data' : NodeData}
    (hview : pair.view = ⟨.deferred id data, .deferred id' data'⟩) (depth : Nat) :
    compare engine (depth + 1) pair walk =
      match Engine.answered? (walk.askedAt id id') with
      | some resolutions =>
        compareResolved engine (compare engine depth) pair ⟨data, data'⟩ resolutions walk
      | none => arrive engine pair walk := by
  rw [arrive_deferred hview]
  obtain ⟨⟨static, dynamic⟩, slot, context⟩ := pair
  cases hview
  unfold compare askedAt
  dsimp only
  rw [bind_of_ok (onEngine_ask walk id), bind_of_ok (onEngine_ask walk id')]
  cases walk.engine.asked id <;> cases walk.engine.asked id' <;> rfl

variable (walk) in
theorem hops_deferred {id id' : FactoryId} {data data' : NodeData} {view : Twin View}
    (hview : view = ⟨.deferred id data, .deferred id' data'⟩) (depth : Nat) :
    hops walk.cached (depth + 1) view =
      view ::
        match Engine.answered? (walk.askedAt id id') with
        | some resolutions => resolvedViews (hops walk.cached depth) resolutions
        | none => [] := by
  subst hview
  unfold hops askedAt Engine.State.asked cached
  dsimp only
  cases (walk.engine.factories id).cached <;> cases (walk.engine.factories id').cached <;> rfl

theorem met_deferred {id id' : FactoryId} {data data' : NodeData} {view : Twin View}
    (hview : view = ⟨.deferred id data, .deferred id' data'⟩) (pair : Pair) (depth : Nat) :
    met engine (depth + 1) view walk.engine =
      view :: followed engine (met engine depth)
        (some (.deferred pair ⟨data, data'⟩ (walk.askedAt id id'))) walk.engine := by
  subst hview
  rfl

variable (engine) in
theorem plain_lists {view : Twin View} (hview : ¬ BothDeferred view) (depth : Nat)
    (cached : FactoryId → Option Resolution) (state : Engine.State) :
    hops cached (depth + 1) view = [view] ∧ met engine (depth + 1) view state = [view] := by
  obtain ⟨static, dynamic⟩ := view
  cases static <;> cases dynamic <;>
    first
    | exact absurd ⟨_, _, _, _, rfl⟩ hview
    | exact ⟨rfl, rfl⟩

theorem compare_staysAt (depth : Nat) : ∀ pair walk,
    Leads (compare engine depth pair) walk (StaysAt walk pair) fun _ => True := by
  induction depth with
  | zero => exact fun _ _ => trivial
  | succ depth ih =>
      intro pair walk
      by_cases hview : BothDeferred pair.view
      · obtain ⟨id, data, id', data', hview⟩ := hview
        have hcompare := compare_deferred engine walk hview depth
        unfold Leads
        rw [hcompare]
        cases Engine.answered? (walk.askedAt id id') with
        | some resolutions => exact compareResolved_staysAt ih
        | none =>
            rw [arrive_deferred hview]
            exact ⟨rfl, rfl⟩
      · exact leads_mono (compare_out engine walk hview depth) (fun _ _ => .of_out)
          fun _ _ => trivial

theorem follow_answered {asked : Twin Engine.Asked}
    (h : Engine.answered? asked = some resolutions) (meet : Pair → Walking Unit) :
    follow engine meet (some (.deferred pair data asked)) walk =
      settle engine meet pair data resolutions walk := by
  have hboth : onEngine (engine.resolveBoth asked.static asked.dynamic) walk =
      .ok (resolutions.static, resolutions.dynamic) walk := by
    unfold onEngine
    rw [Engine.resolveBoth_of_answered h]
  exact bind_of_ok hboth

theorem followed_answered {asked : Twin Engine.Asked}
    (h : Engine.answered? asked = some resolutions)
    (met : Twin View → Engine.State → List (Twin View)) (state : Engine.State) :
    followed engine met (some (.deferred pair data asked)) state =
      resolvedViews (met · state) resolutions := by
  simp only [followed, Engine.resolveBoth_of_answered h]

/-- Waiting for what comes of comparing what async components resolved to, if
    meeting two views is comparing them and waiting for what comes of it. -/
theorem compareResolved_follow {compare : Pair → Walking (Option Suspension)}
    {meet later : Pair → Walking Unit}
    (hmeet : ∀ static dynamic, resolutions = ⟨.view static, .view dynamic⟩ →
      (compare { pair with view := ⟨static, dynamic⟩ } >>= follow engine later) walk =
        meet { pair with view := ⟨static, dynamic⟩ } walk) :
    (compareResolved engine compare pair data resolutions >>= follow engine later) walk =
      settle engine meet pair data resolutions walk := by
  obtain ⟨static, dynamic⟩ := resolutions
  unfold settle compareResolved
  dsimp only
  split
  · refine bind_congr_of_leads (leads_mono (compareComponents_out _) (fun out after hafter => ?_)
      fun _ _ => trivial)
    obtain rfl | ⟨pending, rfl, hframes⟩ := hafter <;> rfl
  · next static dynamic =>
      rw [hmeet static dynamic rfl, bind_assoc]
      simp only [pure_bind]
      show _ = (meet _ >>= fun _ => pure ()) walk
      rw [bind_pure_unit]
  · split <;> rfl
  · rfl

/-- Work that does not fail because evaluation did not finish. -/
def Finishes {α : Type} (result : EStateM.Result FoldError Walk α) : Prop :=
  ∀ after, result ≠ .error (.render .unfinished) after

theorem finishes_of_ok {α : Type} {result : EStateM.Result FoldError Walk α} {a : α}
    (h : result = .ok a after) : Finishes result :=
  fun _ hfails => by cases h.symm.trans hfails

theorem finishes_of_error {α : Type} {result : EStateM.Result FoldError Walk α} {e : FoldError}
    (h : result = .error e after) (hfinished : e ≠ .render .unfinished) : Finishes result :=
  fun _ hfails => by
    cases h.symm.trans hfails
    exact hfinished rfl

/-- The nodes that are compared while what a comparison gave is waited for. -/
def followedOf (engine : Engine) (depth : Nat) :
    EStateM.Result FoldError Walk (Option Suspension) → List (Twin View)
  | .ok out after => followed engine (met engine depth) out after.engine
  | .error _ _ => []

theorem followedOf_eq_nil {compares : Walking (Option Suspension)} {frames : List Frame}
    (h : Leads compares walk (fun out after => out = none ∨
      ∃ pending, out = some (.component pending) ∧ after.frames = frames) fun _ => True)
    (depth : Nat) : followedOf engine depth (compares walk) = [] := by
  unfold followedOf
  cases hwork : compares walk with
  | ok out after => obtain rfl | ⟨pending, rfl, -⟩ := leads_ok h hwork <;> rfl
  | error e after => rfl

/-- What async components resolved to is either two views, or is not met. -/
theorem compareResolved_out {compare : Pair → Walking (Option Suspension)}
    (hviews : ∀ static dynamic, resolutions ≠ ⟨.view static, .view dynamic⟩) :
    Leads (compareResolved engine compare pair data resolutions) walk
      (fun out after => out = none ∨
        ∃ pending, out = some (.component pending) ∧ after.frames = walk.frames)
      fun _ => True := by
  unfold compareResolved
  split
  · exact compareComponents_out _
  · next hstatic hdynamic => exact absurd (Twin.eq_mk hstatic hdynamic) (hviews _ _)
  · split <;> exact .inl rfl
  · exact .inl rfl

theorem resolvedViews_eq_nil {look : Twin View → List (Twin View)}
    (hviews : ∀ static dynamic, resolutions ≠ ⟨.view static, .view dynamic⟩) :
    resolvedViews look resolutions = [] := by
  unfold resolvedViews
  split
  · next hstatic hdynamic => exact absurd (Twin.eq_mk hstatic hdynamic) (hviews _ _)
  · rfl

/-- Meeting a pair is comparing it and then waiting for what comes of it, and the same
    nodes are compared. -/
def MeetsAs (engine : Engine) (depth : Nat) : Prop :=
  ∀ pair walk, Finishes (compare engine depth pair walk) → ∃ more, ∀ later,
    meet engine (later + more) pair walk =
      (compare engine depth pair >>= follow engine (meet engine later)) walk ∧
    met engine (later + more) pair.view walk.engine =
      hops walk.cached depth pair.view ++ followedOf engine later (compare engine depth pair walk)

/-- What async components resolved to is met if views are. -/
theorem MeetsAs.settle {depth : Nat} (h : MeetsAs engine depth)
    (hfinishes : Finishes
      (compareResolved engine (compare engine depth) pair data resolutions walk)) :
    ∃ more, ∀ later,
      settle engine (meet engine (later + more)) pair data resolutions walk =
        (compareResolved engine (compare engine depth) pair data resolutions >>=
          follow engine (meet engine later)) walk ∧
      resolvedViews (met engine (later + more) · walk.engine) resolutions =
        resolvedViews (hops walk.cached depth) resolutions ++ followedOf engine later
          (compareResolved engine (compare engine depth) pair data resolutions walk) := by
  by_cases hviews : ∃ static dynamic, resolutions = ⟨.view static, .view dynamic⟩
  · obtain ⟨static, dynamic, rfl⟩ := hviews
    obtain ⟨more, hmore⟩ := h _ walk hfinishes
    refine ⟨more, fun later => ⟨?_, (hmore later).2⟩⟩
    refine (compareResolved_follow fun static' dynamic' heq => ?_).symm
    cases heq
    exact (hmore later).1.symm
  · have hviews (static dynamic : View) : resolutions ≠ ⟨.view static, .view dynamic⟩ :=
      fun heq => hviews ⟨static, dynamic, heq⟩
    refine ⟨0, fun later => ⟨(compareResolved_follow fun static dynamic heq =>
      absurd heq (hviews static dynamic)).symm, ?_⟩⟩
    rw [resolvedViews_eq_nil hviews, resolvedViews_eq_nil hviews, List.nil_append,
      followedOf_eq_nil (compareResolved_out hviews)]

/-- A pair is met by comparing it and waiting for what comes of it. -/
theorem meetsAs (depth : Nat) : MeetsAs engine depth := by
  -- By induction on the async components that are looked through without a pause.
  induction depth with
  | zero => exact fun _ walk hfinishes => absurd rfl (hfinishes walk)
  | succ depth ih =>
      intro pair walk hfinishes
      by_cases hview : BothDeferred pair.view
      · obtain ⟨id, data, id', data', hview⟩ := hview
        have hcompare := compare_deferred engine walk hview depth
        have hmeet (later : Nat) : meet engine (later + 1) pair walk =
            follow engine (meet engine later)
              (some (.deferred pair ⟨data, data'⟩ (walk.askedAt id id'))) walk :=
          bind_of_ok (arrive_deferred hview)
        have hhops := hops_deferred walk hview depth
        cases hanswered : Engine.answered? (walk.askedAt id id') with
        | some resolutions =>
            rw [hanswered] at hcompare hhops
            rw [hcompare] at hfinishes
            obtain ⟨more, hmore⟩ := ih.settle hfinishes
            refine ⟨more + 1, fun later => ⟨?_, ?_⟩⟩
            · rw [← Nat.add_assoc, hmeet, follow_answered hanswered, (hmore later).1]
              exact (bind_congr_of_eq hcompare).symm
            · rw [← Nat.add_assoc, met_deferred hview pair, followed_answered hanswered,
                (hmore later).2, hhops, hcompare, List.cons_append]
        | none =>
            rw [hanswered, arrive_deferred hview] at hcompare
            refine ⟨1, fun later => ⟨?_, ?_⟩⟩
            · rw [hmeet, bind_of_ok hcompare]
            · rw [hcompare, hhops, hanswered, met_deferred hview pair]
              rfl
      · have hplain := compare_out engine walk hview depth
        refine ⟨1, fun later => ⟨?_, ?_⟩⟩
        · rw [compare_of_plain hview]
          rfl
        · obtain ⟨hhops, -⟩ := plain_lists engine hview depth walk.cached walk.engine
          obtain ⟨-, hmet⟩ := plain_lists engine hview later walk.cached walk.engine
          rw [followedOf_eq_nil hplain, List.append_nil, hhops, hmet]

end Meet

end Walk

end RenderFold
