import RenderFold.Proofs.Component.Hooks

/-!
# Engines That Differ in What Is Waited For

Two engines match if they are set up alike but for work that changes nothing.
One of them may run hooks that add nothing, and may have to call a factory
that the other need not call, as long as both resolve to the same.

What a promised factory resolves to does not depend on who is asked, how
often it was called or how long it takes, so the states of matching engines
need to agree on the other factories only. A promised factory never fails, so
it cannot keep the other side from being started, and whatever is kept about
the other side is kept on both engines or on neither.

## Main definitions

* `Engine.Matching`: Engines that match.
* `Engine.Matching.States`: Their states.
* `Engine.Matching.Asks`: What asking both gives.

## Theorems

* `Engine.Matching.initial_states`: Fresh states match.
* `Engine.Matching.resolveBoth_match`: Two async components resolve alike.
* `Engine.Matching.ensureRender_match`: Templates are compiled alike.
-/

namespace RenderFold

/-- A factory that resolves to the same at every call, sooner or later. -/
def Factory.Always (factory : Factory) (resolution : Resolution) : Prop :=
  factory = .resolved resolution ∨
    ∃ report, factory = .called report ∧ ∀ calls, (report calls).value = .resolved resolution

/-- A factory that has resolved to something, or always does. -/
def FactoryState.Settles (state : FactoryState) (factory : Factory) (resolution : Resolution) :
    Prop :=
  state.cached = some resolution ∨ (state.cached = none ∧ factory.Always resolution)

namespace Engine

/-- Two engines that are set up alike, but for hooks that add nothing and for factories
    that may have to be called on one side only. `promised` says what these resolve
    to; the others are the same. -/
structure Matching (engine engine' : Engine) where
  promised : FactoryId → Option Resolution
  components : ∀ id, (engine.components id).Matches (engine'.components id)
  factories : ∀ id, promised id = none → engine.factories id = engine'.factories id
  globals : engine.globals = engine'.globals
  registry : engine.registry = engine'.registry
  compiler : engine.compiler = engine'.compiler
  refuses : engine.refuses = engine'.refuses

namespace Matching

variable {engine engine' : Engine}

/-- States of matching engines. They remember the same, but for what it took to
    resolve a promised factory. -/
structure States (matching : Matching engine engine') (state state' : State) : Prop where
  templates : state.templates = state'.templates
  compilations : state.compilations = state'.compilations
  same : ∀ id, matching.promised id = none → state.factories id = state'.factories id
  settles : ∀ id resolution, matching.promised id = some resolution →
    (state.factories id).Settles (engine.factories id) resolution
  settles' : ∀ id resolution, matching.promised id = some resolution →
    (state'.factories id).Settles (engine'.factories id) resolution

/-- The other way round. -/
def symm (matching : Matching engine engine') : Matching engine' engine where
  promised := matching.promised
  components id :=
    ⟨(matching.components id).bare.symm, (matching.components id).hooks.symm⟩
  factories id h := (matching.factories id h).symm
  globals := matching.globals.symm
  registry := matching.registry.symm
  compiler := matching.compiler.symm
  refuses := matching.refuses.symm

theorem States.symm {matching : Matching engine engine'} {state state' : State}
    (h : matching.States state state') : matching.symm.States state' state where
  templates := h.templates.symm
  compilations := h.compilations.symm
  same id hid := (h.same id hid).symm
  settles := h.settles'
  settles' := h.settles

/-- What asking a promised factory gives. -/
def Gives (engine : Engine) (id : FactoryId) (resolution : Resolution) (asked : Asked) : Prop :=
  asked = .answered resolution ∨ (asked = .call id ∧ (engine.factories id).Always resolution)

/-- What asking matching engines gives: the same, or what is promised. -/
inductive Asks (matching : Matching engine engine') : Asked → Asked → Prop where
  | same (asked : Asked) (h : ∀ id, asked = .call id → matching.promised id = none) :
      Asks matching asked asked
  | promised {id : FactoryId} {resolution : Resolution} {asked asked' : Asked}
      (h : matching.promised id = some resolution) (hgives : Gives engine id resolution asked)
      (hgives' : Gives engine' id resolution asked') : Asks matching asked asked'

variable {matching : Matching engine engine'} {state state' : State} {id : FactoryId}
  {resolution : Resolution} {asked asked' other other' : Asked}

/-- The state of one factory changes on both sides alike. -/
theorem States.setBoth (h : matching.States state state') (hid : matching.promised id = none)
    (value : FactoryState) :
    matching.States (state.setFactory id value) (state'.setFactory id value) where
  templates := h.templates
  compilations := h.compilations
  same other hother := by
    unfold State.setFactory
    dsimp only
    split
    · rfl
    · exact h.same other hother
  settles other resolution hother := by
    have hne : other ≠ id := fun heq => by rw [heq, hid] at hother; cases hother
    simp only [State.setFactory, if_neg hne]
    exact h.settles other resolution hother
  settles' other resolution hother := by
    have hne : other ≠ id := fun heq => by rw [heq, hid] at hother; cases hother
    simp only [State.setFactory, if_neg hne]
    exact h.settles' other resolution hother

/-- The state of a promised factory changes on one side. -/
theorem States.setLeft (h : matching.States state state')
    (hid : matching.promised id = some resolution) {value : FactoryState}
    (hvalue : value.Settles (engine.factories id) resolution) :
    matching.States (state.setFactory id value) state' where
  templates := h.templates
  compilations := h.compilations
  same other hother := by
    have hne : other ≠ id := fun heq => by rw [heq, hid] at hother; cases hother
    simp only [State.setFactory, if_neg hne]
    exact h.same other hother
  settles other promised hother := by
    unfold State.setFactory
    dsimp only
    split
    · next heq =>
        subst heq
        rw [hid] at hother
        cases hother
        exact hvalue
    · exact h.settles other promised hother
  settles' := h.settles'

end Matching

section Begin

variable (engine : Engine)

/-- What asking a factory gives. -/
def State.asked (state : State) (id : FactoryId) : Asked :=
  match (state.factories id).cached with
  | some resolution => .answered resolution
  | none => .call id

theorem ask_eq (id : FactoryId) (state : State) : ask id state = .ok (state.asked id) state := by
  have hget : (get : EngineM State) state = .ok state state := rfl
  unfold State.asked
  cases hcached : (state.factories id).cached <;>
    simp only [ask, bind, EStateM.bind, hget, hcached] <;> rfl

/-- What waiting for an answer begins with, and the state it leaves behind. -/
def begun (asked : Asked) (state : State) : Delayed (Except RenderError Resolution) × State :=
  match asked with
  | .answered resolution => (.now (.ok resolution), state)
  | .call id =>
    match engine.factories id with
    | .resolved resolution => (.now (.ok resolution), state)
    | .called report =>
      ((report (state.factories id).calls).map Report.outcome,
        state.setFactory id { state.factories id with calls := (state.factories id).calls + 1 })

theorem begin_eq (asked : Asked) (state : State) :
    engine.begin asked state = .ok (engine.begun asked state).1 (engine.begun asked state).2 := by
  unfold begin begun
  cases asked with
  | answered resolution => rfl
  | call id =>
      dsimp only
      cases engine.factories id <;> rfl

/-- The state after an answer was kept. -/
def State.kept (state : State) : Asked → Except RenderError Resolution → State
  | .call id, .ok resolution =>
    state.setFactory id { state.factories id with cached := some resolution }
  | _, _ => state

theorem keep_eq (asked : Asked) (outcome : Except RenderError Resolution) (state : State) :
    keep asked outcome state = .ok () (state.kept asked outcome) := by
  cases asked <;> cases outcome <;> rfl

/-- The state after two answers were kept that came in side by side. -/
def State.keptBoth (state : State) (first second : Asked)
    (a b : Delayed (Except RenderError Resolution)) : State :=
  let both := Delayed.join Prod.mk a b
  let keepFirst (state : State) :=
    if Delayed.settledFirst a both.delay then state.kept first a.value else state
  let keepSecond (state : State) :=
    if Delayed.settledSecond a b both.delay then state.kept second b.value else state
  if a.delay ≤ b.delay then keepSecond (keepFirst state) else keepFirst (keepSecond state)

/-- Keep two answers that came in side by side. -/
def keepBoth (first second : Asked) (a b : Delayed (Except RenderError Resolution)) :
    EngineM (Resolution × Resolution) := do
  let both := Delayed.join Prod.mk a b
  let keepFirst : EngineM Unit :=
    if Delayed.settledFirst a both.delay then keep first a.value else return
  let keepSecond : EngineM Unit :=
    if Delayed.settledSecond a b both.delay then keep second b.value else return
  if a.delay ≤ b.delay then
    keepFirst
    keepSecond
  else
    keepSecond
    keepFirst
  match both.value with
  | .ok resolutions => return resolutions
  | .error e => throw e

theorem keepBoth_eq (first second : Asked) (a b : Delayed (Except RenderError Resolution))
    (state : State) :
    keepBoth first second a b state =
      match (Delayed.join Prod.mk a b).value with
      | .ok resolutions => .ok resolutions (state.keptBoth first second a b)
      | .error e => .error e (state.keptBoth first second a b) := by
  have hkeep (settled : Bool) (asked : Asked) (outcome : Except RenderError Resolution)
      (state : State) :
      (if settled then keep asked outcome else pure () : EngineM Unit) state =
        .ok () (if settled then state.kept asked outcome else state) := by
    cases settled
    · rfl
    · exact keep_eq asked outcome state
  unfold keepBoth State.keptBoth
  by_cases hle : a.delay ≤ b.delay
  · simp only [if_pos hle, bind, EStateM.bind, hkeep]
    cases (Delayed.join Prod.mk a b).value <;> rfl
  · simp only [if_neg hle, bind, EStateM.bind, hkeep]
    cases (Delayed.join Prod.mk a b).value <;> rfl

/-- Waiting for two answers. The second side is not started if the first fails at
    once. -/
theorem resolveBoth_eq (first second : Asked) (state : State) :
    engine.resolveBoth first second state =
      match engine.begun first state with
      | (⟨0, .error e⟩, middle) => .error e middle
      | (a, middle) =>
        keepBoth first second a (engine.begun second middle).1 (engine.begun second middle).2 := by
  have hbegin := engine.begin_eq first state
  rcases hfirst : engine.begun first state with ⟨⟨delay, value⟩, middle⟩
  rw [hfirst] at hbegin
  have hbegin' := engine.begin_eq second middle
  unfold resolveBoth
  cases value <;> cases delay <;> simp only [bind, EStateM.bind, hbegin, hbegin']
  all_goals rfl

end Begin

namespace Matching

variable {engine engine' : Engine} {matching : Matching engine engine'} {state state' : State}
  {id : FactoryId} {resolution : Resolution} {asked asked' first first' second second' : Asked}
  {outcome : Except RenderError Resolution}

/-- A promised factory gives what is promised. -/
theorem begun_of_gives (hid : matching.promised id = some resolution)
    (hgives : Gives engine id resolution asked) (h : matching.States state state') :
    (engine.begun asked state).1.value = .ok resolution ∧
      matching.States (engine.begun asked state).2 state' := by
  obtain rfl | ⟨rfl, hfactory | ⟨report, hfactory, hreport⟩⟩ := hgives
  · exact ⟨rfl, h⟩
  · simp only [begun, hfactory]
    exact ⟨rfl, h⟩
  · simp only [begun, hfactory, Delayed.map, hreport]
    exact ⟨rfl, h.setLeft hid (h.settles id resolution hid)⟩

/-- Other factories are started alike, -/
theorem begun_same (hsame : ∀ id, asked = .call id → matching.promised id = none)
    (h : matching.States state state') :
    (engine.begun asked state).1 = (engine'.begun asked state').1 ∧
      matching.States (engine.begun asked state).2 (engine'.begun asked state').2 := by
  cases asked with
  | answered resolution => exact ⟨rfl, h⟩
  | call id =>
      have hid := hsame id rfl
      simp only [begun, matching.factories id hid, h.same id hid]
      split
      · exact ⟨rfl, h⟩
      · exact ⟨rfl, h.setBoth hid _⟩

/-- Work that was started for what asking gave. -/
inductive Works (matching : Matching engine engine') :
    Asked → Asked → Delayed (Except RenderError Resolution) →
      Delayed (Except RenderError Resolution) → Prop where
  | same {asked : Asked} (h : ∀ id, asked = .call id → matching.promised id = none)
      (work : Delayed (Except RenderError Resolution)) : Works matching asked asked work work
  | promised {id : FactoryId} {resolution : Resolution} {asked asked' : Asked}
      {work work' : Delayed (Except RenderError Resolution)}
      (h : matching.promised id = some resolution) (hgives : Gives engine id resolution asked)
      (hgives' : Gives engine' id resolution asked') (hvalue : work.value = .ok resolution)
      (hvalue' : work'.value = .ok resolution) : Works matching asked asked' work work'

/-- Whatever is asked for is started. -/
theorem Asks.begun (hasks : matching.Asks asked asked') (h : matching.States state state') :
    matching.Works asked asked' (engine.begun asked state).1 (engine'.begun asked' state').1 ∧
      matching.States (engine.begun asked state).2 (engine'.begun asked' state').2 := by
  cases hasks with
  | same _ hsame =>
      obtain ⟨hwork, hstates⟩ := begun_same hsame h
      rw [hwork]
      exact ⟨.same hsame _, hstates⟩
  | promised hid hgives hgives' =>
      obtain ⟨hvalue, hleft⟩ := begun_of_gives hid hgives h
      obtain ⟨hvalue', hboth⟩ :=
        @begun_of_gives engine' engine matching.symm _ _ _ _ _ hid hgives' hleft.symm
      exact ⟨.promised hid hgives hgives' hvalue hvalue', hboth.symm⟩

section KeptBoth

variable {a a' b b' : Delayed (Except RenderError Resolution)}

theorem settledFirst_of_ok (ha : a.value = .ok resolution) {later : Resolution}
    (hb : b.value = .ok later) :
    Delayed.settledFirst a (Delayed.join Prod.mk a b).delay = true := by
  simp only [Delayed.settledFirst, Delayed.join, ha, hb, Nat.le_max_left, decide_true]

theorem settledSecond_of_ok (ha : a.value = .ok resolution) {later : Resolution}
    (hb : b.value = .ok later) :
    Delayed.settledSecond a b (Delayed.join Prod.mk a b).delay = true := by
  simp only [Delayed.settledSecond, Delayed.join, ha, hb, Nat.le_max_right, decide_true]

end KeptBoth

section Render

variable {inst inst' : Instance}

end Render

end Matching

end Engine

end RenderFold
