import RenderFold.Proofs.Folding.Lined
import RenderFold.Proofs.Folding.Pauses
import RenderFold.Proofs.Folding.Traversal

/-!
# What Is Below a Pair

Meeting a pair finds out what the traversal finds out about it: nothing, and
then no frame is opened, or places, and then a frame is opened for them, with
a pair for each place. Neither what is known about expressions nor what has
been built so far makes a difference. Closing a frame compares nothing, never
fails, and gives the instances around the node back.

## Main definitions

* `Walk.Finds`: What a meeting leaves behind.
* `Walk.Sees`: A step that finds what is below two nodes.
* `Walk.Closes`: What closing a frame leaves behind.

## Theorems

* `Walk.meet_sees`: Meeting a pair finds out what is below it.
* `Walk.finish_closes`: A frame can always be closed.
-/

namespace RenderFold

/-- The place of a pair. -/
def Pair.place (pair : Pair) : Place := ⟨pair.view, pair.context⟩

theorem map_place_zipWith {views : List (Twin View)} {slots : List Script.Id}
    (context : Twin TagContext) (hlength : views.length = slots.length) :
    (views.zipWith (Pair.mk · · context) slots).map Pair.place = views.map (⟨·, context⟩) := by
  induction views generalizing slots with
  | nil => rfl
  | cons view views ih =>
      cases slots with
      | nil => cases hlength
      | cons slot slots =>
          rw [List.zipWith_cons_cons, List.map_cons, List.map_cons, ih (Nat.succ.inj hlength)]
          rfl

namespace Engine

variable {engine : Engine}

/-- There is nothing to wait for without hooks. -/
theorem prefetchBoth_of_not_hasPrefetch {static dynamic : Instance}
    (h : (hasPrefetch static || hasPrefetch dynamic) = false) :
    prefetchBoth static dynamic = (.ok (), static, dynamic) := by
  obtain ⟨hstatic, hdynamic⟩ := Bool.or_eq_false_iff.mp h
  have hvalue := Walk.prefetch_of_not_hasPrefetch hstatic
  have hvalue' := Walk.prefetch_of_not_hasPrefetch hdynamic
  have hleft (inst : Instance) (settled : Bool) : leftBehind inst settled (.ok inst) = inst := by
    cases settled <;> rfl
  simp only [prefetchBoth, Delayed.join, hvalue, hvalue', hleft]

end Engine

namespace Walk

variable {engine : Engine} {walk after : Walk} {pair : Pair} {α : Type}

/-- A meeting found what is below a pair: a frame is open for it, or nothing is. -/
def Shows (walk : Walk) : Descent → Walk → Prop
  | .nothing, after => after.frames = walk.frames ∧ after.active = walk.active
  | .opens kind active places, after =>
    after.active = active ∧ ∃ frame, after.frames = frame :: walk.frames ∧ frame.kind = kind ∧
      frame.around active = walk.active ∧ frame.pairs.size = places.length ∧
      frame.pairs.left.map Pair.place = places

/-- What a meeting leaves behind. -/
def Finds (walk : Walk) (below : Descent) (state : Engine.State) (after : Walk) : Prop :=
  walk.Shows below after ∧ after.engine = state ∧ after.synthesizer = walk.synthesizer

/-- A step of a walk finds what is below two nodes, or fails for the same reason. -/
def Sees (walk : Walk) : EStateM.Result RenderError Engine.State Descent →
    EStateM.Result FoldError Walk Unit → Prop
  | .ok below state, .ok _ after => walk.Finds below state after
  | .error e _, .error e' _ => e' = .render e
  | _, _ => False

theorem sees_of_leads {work : Walking Unit} {below : Descent} {state : Engine.State}
    {middle : Walk}
    (h : Leads work middle (fun _ after => walk.Finds below state after) fun _ => False) :
    Sees walk (.ok below state) (work middle) := by
  unfold Leads at h
  cases hwork : work middle <;> rw [hwork] at h <;> exact h

/-- Work of the engine is done in both. -/
theorem sees_onEngine {work : EngineM α} {next : α → EngineM Descent} {next' : α → Walking Unit}
    {middle : Walk} {state : Engine.State} (hstate : middle.engine = state)
    (h : ∀ a state', work state = .ok a state' →
      Sees walk (next a state') (next' a { middle with engine := state' })) :
    Sees walk ((work >>= next) state) ((onEngine work >>= next') middle) := by
  simp only [bind, EStateM.bind, onEngine, hstate]
  cases hwork : work state with
  | ok a state' => exact h a state' hwork
  | error e state' => rfl

/-- A failure is a failure of both. -/
theorem sees_ofExcept {outcome : Except RenderError α} {next : α → EngineM Descent}
    {next' : α → Walking Unit} {middle : Walk} {state : Engine.State}
    (h : ∀ a, outcome = .ok a → Sees walk (next a state) (next' a middle)) :
    Sees walk ((MonadExcept.ofExcept outcome >>= next) state)
      ((ofExcept outcome >>= next') middle) := by
  cases outcome with
  | ok a => exact h a rfl
  | error e => rfl

theorem fromProgram_bind {β : Type} (change : Program → α × Program) (next : α → Walking β)
    (walk : Walk) :
    (fromProgram change >>= next) walk =
      next (change walk.program).1 { walk with program := (change walk.program).2 } := rfl

/-- A frame is opened for nodes that are all in one context. -/
theorem finds_zipWith {views : Twin (List View)} {slots : List Script.Id} {frame : Frame}
    {middle : Walk} (context : Twin TagContext)
    (hlength : views.static.length = views.dynamic.length)
    (hslots : slots.length = views.static.length) (hframes : middle.frames = walk.frames)
    (hactive : middle.active = walk.active) (hsynthesizer : middle.synthesizer = walk.synthesizer)
    (hpairs : frame.pairs = .ofList ((views.static.zipWith Twin.mk views.dynamic).zipWith
      (Pair.mk · · context) slots))
    (haround : frame.around walk.active = walk.active) :
    walk.Finds (.children frame.kind walk.active context views) middle.engine
      { middle with frames := frame :: middle.frames } := by
  have hcount := (Twin.length_zipWith hlength).trans hslots.symm
  obtain ⟨hsame, -, -⟩ := zipPairs_spec context hcount
  unfold Finds Descent.children
  rw [if_pos hlength]
  refine ⟨⟨hactive, frame, congrArg _ hframes, rfl, haround, ?_, ?_⟩, rfl, hsynthesizer⟩
  · rw [hpairs, Pairs.size, Pairs.ofList, hsame, List.length_map, hcount]
  · rw [hpairs]
    exact map_place_zipWith context hcount

/-- The children of two nodes are compared next. -/
theorem descend_finds (slot : Script.Id) (closing : String) {views : Twin (List View)}
    (hlength : views.static.length = views.dynamic.length) (program : Program) :
    Leads (descend slot closing views) { walk with program }
      (fun _ after => walk.Finds (.children "element" walk.active (.within walk.active) views)
        walk.engine after)
      fun _ => False := by
  unfold descend
  rw [leads_bind, leads_fromProgram, leads_bind, leads_get]
  dsimp only
  rw [leads_pushFrame, elementContext_eq]
  refine @finds_zipWith walk views (program.correlate slot views.static.length).1
    (.element slot closing (.ofList _)) _ _ hlength (program.length_correlate slot _) rfl rfl rfl
    rfl rfl

theorem finds_nothing (program : Program) :
    walk.Finds .nothing walk.engine { walk with program } :=
  ⟨⟨rfl, rfl⟩, rfl, rfl⟩

theorem compareFragments_finds (slot : Script.Id) (opening closing : Twin String)
    (views : Twin (List View)) :
    Leads (compareFragments slot opening closing views) walk
      (fun _ after => walk.Finds (.fragments walk.active opening closing views) walk.engine after)
      fun _ => False := by
  unfold compareFragments Descent.fragments
  by_cases hempty : views.static = [] ∧ views.dynamic = []
  · rw [if_pos hempty, if_pos (by simp [hempty])]
    dsimp only
    split
    · exact finds_nothing _
    · exact finds_nothing walk.program
  · rw [if_neg hempty, if_neg (by simpa using hempty)]
    by_cases hsame : opening.static = opening.dynamic ∧ closing.static = closing.dynamic
    · rw [if_pos hsame]
      by_cases hlength : views.static.length = views.dynamic.length
      · rw [if_pos (by simp [hlength, hsame])]
        exact descend_finds slot closing.static hlength _
      · rw [if_neg (by simp [hlength]), Descent.children, if_neg hlength]
        exact finds_nothing walk.program
    · rw [if_neg hsame, if_neg (by simpa [and_assoc] using fun _ => not_and.mp hsame)]
      exact finds_nothing walk.program

theorem compareElements_finds (tag : String) (data : Twin NodeData) (views : Twin (List View)) :
    Leads (compareElements engine pair tag data views) walk
      (fun _ after => walk.Finds (.elements walk.active tag data views) walk.engine after)
      fun _ => False := by
  unfold compareElements Descent.elements
  dsimp only
  cases Markup.endTag? tag with
  | none => exact finds_nothing _
  | some closing =>
      cases data.static.content? <;> cases data.dynamic.content? <;> dsimp only
      · by_cases hempty : views.static = [] ∧ views.dynamic = []
        · rw [if_pos hempty, if_pos (by simp [hempty])]
          exact finds_nothing _
        · rw [if_neg hempty, if_neg (by simpa using hempty)]
          by_cases hlength : views.static.length = views.dynamic.length
          · rw [if_pos hlength]
            split
            · exact descend_finds pair.slot closing hlength _
            · exact descend_finds pair.slot closing hlength walk.program
          · rw [if_neg hlength, Descent.children, if_neg hlength]
            exact finds_nothing walk.program
      · exact finds_nothing walk.program
      · exact finds_nothing walk.program
      · split
        · exact finds_nothing _
        · exact finds_nothing walk.program

/-- A component is rendered in both. -/
theorem enterComponent_sees {middle : Walk} {state : Engine.State} {pending : Pending}
    {instances : Twin Instance} {context : Twin TagContext} (hstate : middle.engine = state)
    (hframes : middle.frames = walk.frames) (hactive : middle.active = walk.active)
    (hsynthesizer : middle.synthesizer = walk.synthesizer)
    (hinstances : pending.instances = instances) (hcontext : pending.context = context) :
    Sees walk
      ((do
        let root ← MonadExcept.ofExcept (engine.render instances.static)
        let root' ← MonadExcept.ofExcept (engine.render instances.dynamic)
        return .opens "component" (some instances) [⟨⟨root, root'⟩, context⟩] :
        EngineM Descent) state)
      (enterComponent engine pending middle) := by
  subst hinstances hcontext
  unfold enterComponent
  refine sees_ofExcept fun root _ => sees_ofExcept fun root' _ => ?_
  exact ⟨⟨rfl, _, congrArg _ hframes, rfl, hactive, rfl, rfl⟩, hstate, hsynthesizer⟩

/-- Get two components ready to be entered. -/
def prepare (engine : Engine) (pair : Pair) (component : Twin Component) (data : Twin NodeData) :
    Walking Pending := do
  let active := (← get).active
  let static := Instance.create component.static data.static (active.map (·.static)) .static
  let dynamic := Instance.create component.dynamic data.dynamic (active.map (·.dynamic)) .dynamic
  let (own, static) ← onEngine (engine.ensureRender static)
  let (_, dynamic) ← onEngine (engine.ensureRender dynamic)
  let function ← fromProgram fun program =>
    let (function, arena) := program.arena.graft own.arena own.root
    (function, { arena, findings := program.findings.setFunction pair.slot function })
  return {
    slot := pair.slot
    function
    instances := ⟨static, dynamic⟩
    own
    context :=
      ⟨pair.context.static.nest data.static component.static.scopeId,
        pair.context.dynamic.nest data.dynamic component.dynamic.scopeId⟩ }

/-- Components that are the same are got ready, and entered when their hooks have run. Without
    hooks there is nothing to wait for. -/
theorem compareComponents_enter (component : Twin Component) (data : Twin NodeData) :
    compareComponents engine pair component data >>= enter engine =
      if component.static.name = component.dynamic.name then
        prepare engine pair component data >>= fun pending =>
          enter engine (some (.component pending))
      else pure () := by
  unfold compareComponents prepare
  by_cases hname : component.static.name = component.dynamic.name
  · rw [if_neg (not_not_intro hname), if_pos hname]
    simp only [bind_assoc, pure_bind]
    refine bind_congr fun walk => bind_congr fun own => bind_congr fun other =>
      bind_congr fun function => ?_
    cases hhooks : Engine.hasPrefetch own.2 || Engine.hasPrefetch other.2 with
    | true => rw [if_pos rfl, pure_bind]
    | false =>
        rw [if_neg Bool.false_ne_true, bind_assoc]
        simp only [pure_bind]
        rw [show ∀ work : Walking Unit, (work >>= fun _ => enter engine none) = work from
          fun _ => bind_pure_unit]
        unfold enter
        dsimp only
        rw [Engine.prefetchBoth_of_not_hasPrefetch hhooks]
        rfl
  · rw [if_pos hname, if_neg hname, pure_bind]
    rfl

/-- Two components are rendered when their hooks have run. -/
theorem compareComponents_sees {middle : Walk} (component : Twin Component)
    (data : Twin NodeData) (hframes : middle.frames = walk.frames)
    (hactive : middle.active = walk.active) (hsynthesizer : middle.synthesizer = walk.synthesizer) :
    Sees walk (engine.descentOfComponents walk.active pair.context component data middle.engine)
      ((compareComponents engine pair component data >>= enter engine) middle) := by
  rw [compareComponents_enter]
  unfold Engine.descentOfComponents prepare
  by_cases hname : component.static.name = component.dynamic.name
  · rw [if_neg (not_not_intro hname), if_pos hname]
    simp only [bind_assoc, pure_bind]
    rw [get_bind, hactive]
    refine sees_onEngine rfl fun own state _ => sees_onEngine rfl fun other state' _ => ?_
    rw [fromProgram_bind]
    refine sees_ofExcept fun _ _ => ?_
    exact @enterComponent_sees engine walk _ _ _ ⟨_, _⟩ _ rfl hframes hactive hsynthesizer rfl rfl
  · rw [if_pos hname, if_neg hname]
    exact ⟨⟨hframes, hactive⟩, rfl, hsynthesizer⟩

/-- What async components resolved to is looked at in both. -/
theorem settle_sees {middle : Walk} {meet : Pair → Walking Unit}
    {again : Twin View → EngineM Descent} {state : Engine.State} (data : Twin NodeData) (resolutions : Twin Resolution)
    (hstate : middle.engine = state) (hframes : middle.frames = walk.frames)
    (hactive : middle.active = walk.active) (hsynthesizer : middle.synthesizer = walk.synthesizer)
    (hmeet : ∀ view, Sees walk (again view state) (meet { pair with view } middle)) :
    Sees walk (engine.descentOfResolved again walk.active pair.context data resolutions state)
      (settle engine meet pair data resolutions middle) := by
  obtain ⟨static, dynamic⟩ := resolutions
  subst hstate
  cases static <;> cases dynamic
  case component.component => exact compareComponents_sees _ data hframes hactive hsynthesizer
  case view.view static dynamic =>
    rw [settle_views]
    exact hmeet ⟨static, dynamic⟩
  case views.views static dynamic =>
    unfold settle compareResolved Engine.descentOfResolved
    by_cases hlength : static.length = dynamic.length
    · dsimp only
      rw [if_pos hlength, bind_assoc, fromProgram_bind]
      obtain ⟨-, hslots⟩ := Program.pushHoles_adds static.length middle.program
      exact @finds_zipWith walk ⟨static, dynamic⟩ _ (.group pair.slot (.ofList _))
        { middle with program := (Program.pushHoles static.length middle.program).2 } pair.context
        hlength hslots hframes hactive hsynthesizer rfl rfl
    · dsimp only
      rw [if_neg hlength, pure_bind, Descent.children, if_neg hlength]
      exact ⟨⟨hframes, hactive⟩, rfl, hsynthesizer⟩
  all_goals exact ⟨⟨hframes, hactive⟩, rfl, hsynthesizer⟩

/-- What is below two nodes that are no async components. -/
theorem arrive_sees (hview : ¬ BothDeferred pair.view) (depth : Nat) (meet : Pair → Walking Unit) :
    Sees walk (engine.sight walk.active (depth + 1) pair.place walk.engine)
      ((arrive engine pair >>= follow engine meet) walk) := by
  rw [arrive_follow_of_plain hview]
  obtain ⟨⟨static, dynamic⟩, slot, context⟩ := pair
  cases static <;> cases dynamic
  case deferred.deferred => exact absurd ⟨_, _, _, _, rfl⟩ hview
  case component.component => exact compareComponents_sees _ _ rfl rfl rfl
  case fragment.fragment opening closing views opening' closing' views' =>
    refine sees_of_leads ?_
    unfold compare
    dsimp only
    rw [bind_assoc, leads_bind]
    exact compareFragments_finds slot _ _ _
  case element.element tag data views tag' data' views' =>
    unfold Engine.sight compare Pair.place
    dsimp only
    split
    · refine sees_of_leads ?_
      rw [bind_assoc, leads_bind]
      exact compareElements_finds tag _ _
    · exact finds_nothing walk.program
  case comment.comment comment comment' =>
    refine sees_of_leads ?_
    unfold compare
    dsimp only
    rw [bind_assoc, leads_bind, leads_get]
    split
    · exact finds_nothing _
    · exact finds_nothing walk.program
  all_goals exact finds_nothing _

theorem sight_deferred {id id' : FactoryId} {data data' : NodeData}
    {active : Option (Twin Instance)}
    (hview : pair.view = ⟨.deferred id data, .deferred id' data'⟩) (depth : Nat) :
    engine.sight active (depth + 1) pair.place walk.engine =
      (engine.resolveBoth (walk.askedAt id id').static (walk.askedAt id id').dynamic >>=
        fun (static, dynamic) =>
          engine.descentOfResolved (fun view => engine.sight active depth ⟨view, pair.context⟩)
            active pair.context ⟨data, data'⟩ ⟨static, dynamic⟩) walk.engine := by
  obtain ⟨⟨static, dynamic⟩, slot, context⟩ := pair
  cases hview
  simp only [Engine.sight, Pair.place, bind, EStateM.bind, Engine.ask_eq]
  rfl

variable (engine) in
/-- Meeting a pair finds out what is below it. -/
theorem meet_sees (depth : Nat) : ∀ (pair : Pair) (walk : Walk),
    Sees walk (engine.sight walk.active depth pair.place walk.engine)
      (meet engine depth pair walk) := by
  -- By induction on the async components that are looked through.
  induction depth with
  | zero => exact fun _ _ => rfl
  | succ depth ih =>
      intro pair walk
      by_cases hview : BothDeferred pair.view
      · obtain ⟨id, data, id', data', hview⟩ := hview
        rw [show meet engine (depth + 1) pair walk = _ from bind_of_ok (arrive_deferred hview),
          sight_deferred hview]
        refine sees_onEngine rfl fun both state _ => settle_sees _ _ rfl rfl rfl rfl fun view => ?_
        exact ih { pair with view } { walk with engine := state }
      · exact arrive_sees hview depth _

/-- What closing a frame leaves behind. Nothing is compared, and the instances are those
    around the node again. -/
structure Closes (walk : Walk) (frame : Frame) (after : Walk) : Prop where
  frames : after.frames = walk.frames
  active : after.active = frame.around walk.active
  engine : after.engine = walk.engine
  sound : after.synthesizer.Sound

theorem leaveStatic_closes {boundary : Boundary} {pairs : Pairs} (hsound : walk.synthesizer.Sound)
    (text : String) :
    Leads (leaveStatic boundary text) { walk with active := boundary.around }
      (fun _ after => Closes walk (.component boundary pairs) after) fun _ => False := by
  obtain ⟨function, hliteral, -, hafter⟩ := Synthesizer.literal_spec hsound text
  unfold leaveStatic
  rw [leads_bind, leads_onSynthesizer]
  dsimp only
  rw [hliteral]
  exact ⟨rfl, rfl, rfl, hafter⟩

theorem leaveRewritten_closes {boundary : Boundary} {pairs : Pairs}
    (hsound : walk.synthesizer.Sound) (function : Script.Id) :
    Leads (leaveRewritten engine boundary function) { walk with active := boundary.around }
      (fun _ after => Closes walk (.component boundary pairs) after) fun _ => False := by
  unfold leaveRewritten
  rw [leads_bind, leads_get, leads_bind, leads_onProgram, leads_bind, leads_get, leads_bind,
    leads_onSynthesizer]
  have hafter (arena : Script.Arena) :=
    (Synthesizer.synthesize_sound hsound engine arena function boundary.inst).1
  dsimp only
  split
  · exact ⟨rfl, rfl, rfl, hafter _⟩
  · exact ⟨rfl, rfl, rfl, hafter _⟩

/-- A frame can always be closed. -/
theorem finish_closes (hsound : walk.synthesizer.Sound) (frame : Frame) :
    Leads (finish engine frame) walk (fun _ after => Closes walk frame after) fun _ => False := by
  cases frame with
  | element slot closing pairs => exact ⟨rfl, rfl, rfl, hsound⟩
  | group slot pairs => exact ⟨rfl, rfl, rfl, hsound⟩
  | component boundary pairs =>
      have hclose (function : RenderFunction) :
          Leads (closeEntry boundary.slot function false fun _ => true)
            { walk with active := boundary.around }
            (fun _ after => Closes walk (.component boundary pairs) after) fun _ => False :=
        ⟨rfl, rfl, rfl, hsound⟩
      unfold finish leaveComponent
      rw [leads_bind, leads_modify, leads_bind, leads_get]
      dsimp only
      split
      · exact leaveStatic_closes hsound _
      · split
        · exact hclose _
        · split
          · exact hclose _
          · exact leaveRewritten_closes hsound _

end Walk

end RenderFold
