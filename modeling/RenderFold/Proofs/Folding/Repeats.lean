import RenderFold.Proofs.Folding.Compared
import RenderFold.Proofs.Folding.Finished
import RenderFold.Proofs.Folding.Moves
import RenderFold.Proofs.Html.Quiet

/-!
# Comparing a Node with Itself

If both passes render the same, every pair has the same node on both sides.
In a quiet tree such a pair always folds: comparing it takes no pause, and
all moves that it takes to compare what is below it succeed. A node takes at
most twice as many moves as it takes steps to write it, one to compare it and
one to close its frame.

What the pair folds into is not followed here, only that it folds. The
markup is the one that was written, which is known of all pairs that fold.

## Main definitions

* `Walk.Poised`: Walks in which both passes render the same.
* `Walk.Settles`: What comparing a node with itself leads to.
* `Walk.Repeats`, `Walk.RepeatAll`: Nodes that fold when they are compared
  with themselves.

## Theorems

* `Walk.RepeatAll.moves`: Children, compared one after another.
* `Walk.compareComponents_settles`: Components, from entering to leaving.
* `Written.repeats`: All nodes of a quiet tree fold.
-/

namespace RenderFold

open Script (Id)

/-- The same thing in both passes. -/
def Twin.both {α : Type} (a : α) : Twin α := ⟨a, a⟩

/-- An instance in both passes. -/
def Instance.both (inst : Instance) : Twin Instance := ⟨inst.inStatic, inst⟩

theorem Twin.within_both (owner : Option Instance) :
    Twin.within (owner.map Instance.both) = .both (.within owner) := by
  cases owner <;> rfl

namespace Program

variable {program : Program} {slot : Id}

/-- Matching children finds no markup. -/
theorem correlate_same (slot : Id) (count : Nat) :
    Findings.SameTexts program.findings (program.correlate slot count).2.findings := by
  unfold correlate
  dsimp only
  split
  · exact .refl _
  · rw [(pushHoles_adds count _).1.findings]
    exact Findings.sameTexts_markUnmatched

theorem locateRoot_same (function : Id) :
    Findings.SameTexts program.findings (program.locateRoot function).2.findings := by
  unfold locateRoot
  split
  · exact .refl _
  · exact Findings.sameTexts_markUnmatched

/-- Folding a level keeps what is known. If its opening markup and all its
    children are known, its node is static then. -/
theorem foldLevel_kept (hfilled : program.findings.Filled)
    (htext : (program.findings.text? slot).isSome = true) (closing : String) {slots : List Id}
    (hslots : ∀ other ∈ slots, (program.findings.literal? other).isSome = true) :
    Findings.Kept program.findings (program.foldLevel slot closing slots).findings ∧
      ((program.foldLevel slot closing slots).findings.literal? slot).isSome = true := by
  unfold foldLevel
  split
  · next hstatic =>
      exact ⟨.refl _, Findings.isSome_literal?.mpr ⟨hstatic, hfilled slot hstatic⟩⟩
  · obtain ⟨opening, hopening⟩ := Option.isSome_iff_exists.mp htext
    obtain ⟨content, hcontent⟩ := Option.isSome_iff_exists.mp (Findings.isSome_literal?_runs hslots)
    dsimp only
    rw [hopening, hcontent]
    refine ⟨Findings.kept_markStatic, ?_⟩
    simp only [foldToLiteral, Findings.literal?_markStatic_self, Option.isSome_some]

theorem foldGroup_kept (hfilled : program.findings.Filled) (slot : Id) {slots : List Id}
    (hslots : ∀ other ∈ slots, (program.findings.literal? other).isSome = true) :
    Findings.Kept program.findings (program.foldGroup slot slots).findings ∧
      ((program.foldGroup slot slots).findings.literal? slot).isSome = true := by
  unfold foldGroup
  split
  · next hstatic =>
      exact ⟨.refl _, Findings.isSome_literal?.mpr ⟨hstatic, hfilled slot hstatic⟩⟩
  · obtain ⟨text, htext⟩ := Option.isSome_iff_exists.mp (Findings.isSome_literal?_runs hslots)
    rw [htext]
    refine ⟨Findings.kept_markStatic, ?_⟩
    simp only [foldToLiteral, Findings.literal?_markStatic_self, Option.isSome_some]

end Program

namespace Walk

section Definitions

variable (engine : Engine) (functions : Component → Option RenderFunction)
  (cached : FactoryId → Option Resolution)

/-- A walk in which both passes render the same, inside what `owner`
    renders. -/
structure Poised (owner : Option Instance) (walk : Walk) : Prop where
  comments : walk.options.foldComments = true
  hoists : walk.options.hoistStyles = true
  active : walk.active = owner.map Instance.both
  remembers : engine.Remembers functions cached walk.engine
  sound : walk.synthesizer.Sound
  filled : walk.program.findings.Filled

/-- What work leads to that has to settle a node: it takes no pause, and
    after some more moves, fewer than twice as many as it takes steps to
    write the node, all of it is done. What is recorded from then on comes
    after what is recorded for the work itself. -/
def Settles (walk : Walk) (recorded : List Event) (answers : List Answer) (cost : Nat)
    (post : Walk → Prop) (found : Option Suspension) (after : Walk) : Prop :=
  found = none ∧ ∃ moves events last, Moves engine after moves events last ∧ moves < 2 * cost ∧
    (Event.answers (recorded ++ events)).map Settled.static = answers ∧
    last.frames = walk.frames ∧ Passes engine walk last ∧ post last

/-- A node that folds when it is compared with itself. -/
def Repeats (owner : Option Instance) (context : TagContext) (view : View) (answers : List Answer)
    (cost : Nat) : Prop :=
  ∀ depth (walk : Walk) slot, cost ≤ depth → depth ≤ maxChain →
    Poised engine functions cached owner walk →
    Leads (compare engine depth ⟨.both view, slot, .both context⟩) walk
      (Settles engine walk (trail walk.cached walk.active depth ⟨.both view, slot, .both context⟩)
        answers cost fun last => (last.program.findings.literal? slot).isSome = true)
      fun _ => False

/-- Nodes that fold one after another. -/
inductive RepeatAll (owner : Option Instance) (context : TagContext) :
    List View → List Answer → Nat → Prop where
  | nil : RepeatAll owner context [] [] 0
  | cons {view views inner answers cost steps}
      (hview : Repeats engine functions cached owner context view inner cost)
      (hviews : RepeatAll owner context views answers steps) :
      RepeatAll owner context (view :: views) (inner ++ answers) (cost + steps)

end Definitions

variable {engine : Engine} {functions : Component → Option RenderFunction}
  {cached : FactoryId → Option Resolution} {owner : Option Instance} {context : TagContext}
  {walk : Walk} {answers : List Answer} {steps : Nat}

theorem Poised.passes {last : Walk} (h : Poised engine functions cached owner walk)
    (hpasses : Passes engine walk last) : Poised engine functions cached owner last where
  comments := by rw [hpasses.options]; exact h.comments
  hoists := by rw [hpasses.options]; exact h.hoists
  active := hpasses.active.trans h.active
  remembers := h.remembers.kept hpasses.engine
  sound := hpasses.synthesizer h.sound
  filled := hpasses.findings.filled h.filled

namespace Settles

variable {recorded : List Event} {cost : Nat} {post : Walk → Prop} {found : Option Suspension}
  {after : Walk}

/-- What was recorded earlier comes first. -/
theorem later {cost' : Nat} (h : Settles engine walk recorded answers cost post found after)
    (earlier : List Event) (hcost : cost ≤ cost') :
    Settles engine walk (earlier ++ recorded)
      ((Event.answers earlier).map Settled.static ++ answers) cost' post found after := by
  obtain ⟨rfl, moves, events, last, hmoves, hless, rfl, hrest⟩ := h
  refine ⟨rfl, moves, events, last, hmoves, by omega, ?_, hrest⟩
  rw [List.append_assoc, Event.answers_append, List.map_append]

theorem weaken {post' : Walk → Prop}
    (h : Settles engine walk recorded answers cost post found after)
    (hpost : ∀ last, post last → post' last) :
    Settles engine walk recorded answers cost post' found after := by
  obtain ⟨rfl, moves, events, last, hmoves, hless, hanswers, hframes, hpasses, hlast⟩ := h
  exact ⟨rfl, moves, events, last, hmoves, hless, hanswers, hframes, hpasses, hpost last hlast⟩

/-- What was done earlier is forgotten by no one. -/
theorem since {start : Walk} (h : Settles engine walk recorded answers cost post found after)
    (hpasses : Passes engine start walk) (hframes : walk.frames = start.frames) :
    Settles engine start recorded answers cost post found after := by
  obtain ⟨rfl, moves, events, last, hmoves, hless, hanswers, hlast, hpassed, hpost⟩ := h
  exact ⟨rfl, moves, events, last, hmoves, hless, hanswers, hlast.trans hframes,
    hpasses.trans hpassed, hpost⟩

/-- A node that is found to be static at once. -/
theorem mark {slot : Id} {text : String} (hcost : 0 < cost)
    (hrecorded : Event.answers recorded = []) :
    Settles engine walk recorded [] cost
      (fun last => (last.program.findings.literal? slot).isSome = true) none
      { walk with program := walk.program.markStatic slot text } := by
  refine ⟨rfl, 0, [], _, .nil _, by omega, ?_, rfl, .of_findings Findings.kept_markStatic, ?_⟩
  · rw [List.append_nil, hrecorded]
    rfl
  · simp only [Program.markStatic, Findings.literal?_markStatic_self, Option.isSome_some]

end Settles

namespace RepeatAll

variable {views : List View} {frame : Frame} {rest : List Frame} {pairs : List Pair}

theorem single {view : View}
    (h : RepeatAll engine functions cached owner context [view] answers steps) :
    Repeats engine functions cached owner context view answers steps := by
  cases h with
  | cons hview hviews =>
      cases hviews
      rwa [List.append_nil]

/-- Children are compared one after another, and fold. -/
theorem moves (h : RepeatAll engine functions cached owner context views answers steps)
    {later : List Pair} (hsteps : steps ≤ maxChain)
    (hpoised : Poised engine functions cached owner walk) (hframes : walk.frames = frame :: rest)
    (hleft : frame.pairs.left = pairs ++ later) (hviews : pairs.map (·.view) = views.map Twin.both)
    (hcontexts : ∀ pair ∈ pairs, pair.context = .both context) :
    ∃ moves events last, Moves engine walk moves events last ∧ moves ≤ 2 * steps ∧
      (Event.answers events).map Settled.static = answers ∧
      last.frames = frame.withPairs ⟨frame.pairs.slots, later⟩ :: rest ∧
      Passes engine walk last ∧
      ∀ pair ∈ pairs, (last.program.findings.literal? pair.slot).isSome = true := by
  -- By induction on the children. The first is taken from the frame and settled,
  -- and what that leaves behind is poised for the others.
  induction h generalizing walk frame pairs with
  | nil =>
      cases List.map_eq_nil_iff.mp hviews
      refine ⟨0, [], walk, .nil walk, Nat.zero_le _, rfl, ?_, .refl engine walk,
        List.forall_mem_nil _⟩
      rw [hframes, ← List.nil_append later, ← hleft]
      cases frame <;> rfl
  | @cons view views inner answers cost steps hview _ ih =>
      obtain ⟨⟨twin, slot, around⟩, pairs, rfl, hfirst, hothers⟩ := List.map_eq_cons_iff.mp hviews
      obtain ⟨hcontext, haround⟩ := List.forall_mem_cons.mp hcontexts
      dsimp only at hfirst hcontext
      subst hfirst hcontext
      -- The frame gives the pair away before it is compared.
      have hnext : frame.pairs.next? = some (⟨.both view, slot, .both context⟩,
          ⟨frame.pairs.slots, pairs ++ later⟩) := by
        simp only [Pairs.next?, hleft, List.cons_append]
      let start : Walk :=
        { walk with frames := frame.withPairs ⟨frame.pairs.slots, pairs ++ later⟩ :: rest }
      have hstart : Passes engine walk start := .of_findings (.refl _)
      have hleads := hview maxChain start slot (by omega) (Nat.le_refl _) (hpoised.passes hstart)
      cases hwork : compare engine maxChain ⟨.both view, slot, .both context⟩ start with
      | error e after => exact (leads_error hleads hwork).elim
      | ok found after =>
          obtain ⟨rfl, moves, events, middle, hmoves, hless, hanswers, hmiddle, hpasses, hslot⟩ :=
            leads_ok hleads hwork
          have hpassed := hstart.trans hpasses
          obtain ⟨moves', events', last, hmoves', hless', rfl, hlast, hpasses', hslots⟩ :=
            ih (by omega) (hpoised.passes hpassed) hmiddle
              (congrArg Pairs.left (Frame.pairs_withPairs frame _)) hothers haround
          refine ⟨moves + 1 + moves', _, last,
            (Moves.compare hframes hnext hwork hmoves).trans hmoves', by omega, ?_, ?_,
            hpassed.trans hpasses',
            List.forall_mem_cons.mpr ⟨hpasses'.findings.literal _ hslot, hslots⟩⟩
          · rw [Event.answers_append, List.map_append, ← hanswers]
            rfl
          · rw [hlast, Frame.pairs_withPairs]
            cases frame <;> rfl

/-- A frame is opened for children that all fold, and closed after them. -/
theorem settles {start : Walk} {post : Walk → Prop}
    (h : RepeatAll engine functions cached owner context views answers steps)
    (hsteps : steps ≤ maxChain) (hpoised : Poised engine functions cached owner walk)
    (hframes : walk.frames = frame :: start.frames) (hpairs : frame.pairs = .ofList pairs)
    (hviews : pairs.map (·.view) = views.map Twin.both)
    (hcontexts : ∀ pair ∈ pairs, pair.context = .both context)
    (hfinish : ∀ last : Walk, Passes engine walk last →
      (∀ pair ∈ pairs, (last.program.findings.literal? pair.slot).isSome = true) →
      Leads (finish engine (frame.withPairs ⟨frame.pairs.slots, []⟩))
        { last with frames := start.frames }
        (fun _ after => after.frames = start.frames ∧ Passes engine start after ∧ post after)
        fun _ => False) :
    Settles engine start [] answers (steps + 1) post none walk := by
  have hleft : frame.pairs.left = pairs ++ [] := by
    rw [hpairs, List.append_nil]
    rfl
  obtain ⟨moves, events, last, hmoves, hless, hanswers, hlast, hpasses, hslots⟩ :=
    h.moves hsteps hpoised hframes hleft hviews hcontexts
  -- All children are done, so the next move closes the frame.
  have hleads := hfinish last hpasses hslots
  cases hwork : finish engine (frame.withPairs ⟨frame.pairs.slots, []⟩)
      { last with frames := start.frames } with
  | error e after => exact (leads_error hleads hwork).elim
  | ok _ after =>
      obtain ⟨hafter, hpassed, hpost⟩ := leads_ok hleads hwork
      have hclose : Moves engine last 1 [] after :=
        .finish hlast (by rw [Frame.pairs_withPairs]; rfl) hwork (.nil after)
      refine ⟨rfl, moves + 1, events ++ [], after, hmoves.trans hclose, by omega, ?_, hafter,
        hpassed, hpost⟩
      rw [List.append_nil, List.nil_append, hanswers]

end RepeatAll

section Kinds

variable {children : List View} {inner : List Answer} {cost : Nat}

/-- A node that is static as soon as it is compared. -/
theorem Repeats.of_mark {view : View} (hcost : 0 < cost)
    (htrail : ∀ active depth slot, Event.answers
      (trail cached active (depth + 1) ⟨.both view, slot, .both context⟩) = [])
    (h : ∀ depth (walk : Walk) slot, Poised engine functions cached owner walk →
      ∃ text, compare engine (depth + 1) ⟨.both view, slot, .both context⟩ walk =
        .ok none { walk with program := walk.program.markStatic slot text }) :
    Repeats engine functions cached owner context view [] cost := by
  intro depth walk slot hdepth _ hpoised
  cases depth with
  | zero => omega
  | succ depth =>
      obtain ⟨text, hwork⟩ := h depth walk slot hpoised
      have hcached : walk.cached = cached := funext hpoised.remembers.cached
      rw [Leads, hwork, hcached]
      exact .mark hcost (htrail _ _ _)

theorem repeats_text {content markup : String} {raw : Bool}
    (hmarkup : (View.text content raw).textMarkup? = some markup) :
    Repeats engine functions cached owner context (.text content raw) [] 1 := by
  refine .of_mark Nat.one_pos (fun _ _ _ => rfl) fun depth walk slot _ => ⟨markup, ?_⟩
  have hrecord : walk.program.recordText slot (View.text content raw).textMarkup?
      (View.text content raw).textMarkup? = walk.program.markStatic slot markup := by
    simp only [Program.recordText, hmarkup, if_true]
  rw [← hrecord]
  rfl

theorem repeats_comment {content : String} :
    Repeats engine functions cached owner context (.comment content) [] 1 := by
  refine .of_mark Nat.one_pos (fun _ _ _ => rfl) fun depth walk slot hpoised =>
    ⟨"<!--" ++ content ++ "-->", ?_⟩
  have hget : (get : Walking Walk) walk = .ok walk walk := rfl
  simp only [compare, Twin.both, bind, EStateM.bind, hget, hpoised.comments, decide_true,
    Bool.and_self, if_true]
  rfl

/-- The children of a node are compared, and then the node is static. -/
theorem descend_settles (slot : Id) (closing : String) (hcost : cost ≤ maxChain)
    (hpoised : Poised engine functions cached owner walk)
    (hchildren : RepeatAll engine functions cached owner (.within owner) children inner cost)
    (htext : (walk.program.findings.text? slot).isSome = true) :
    Leads (descend slot closing (.both children)) walk
      (fun _ after => Settles engine walk [] inner (cost + 1)
        (fun last => (last.program.findings.literal? slot).isSome = true) none after)
      fun _ => False := by
  unfold descend
  rw [leads_bind, leads_fromProgram, leads_bind, leads_get, leads_pushFrame]
  have hsame := walk.program.correlate_same slot children.length
  have hlength := walk.program.length_correlate slot children.length
  have hcontext : ∀ program, elementContext { walk with program } = .both (.within owner) := by
    intro program
    rw [elementContext_eq]
    exact (congrArg Twin.within hpoised.active).trans (Twin.within_both owner)
  rw [hcontext]
  simp only [Twin.both, List.zipWith_self]
  -- Which expressions stand for the children does not matter, only how many.
  generalize walk.program.correlate slot children.length = located at hsame hlength ⊢
  obtain ⟨slots, program⟩ := located
  dsimp only at hsame hlength ⊢
  have hcount : (children.map Twin.both).length = slots.length := by rw [List.length_map, hlength]
  obtain ⟨hslots, hviews, hcontexts⟩ := zipPairs_spec (.both (.within owner)) hcount
  refine hchildren.settles hcost (hpoised.passes (.of_findings hsame.kept)) rfl rfl hviews hcontexts
    fun last hpasses hliterals => ?_
  have hpassed := (Passes.of_findings hsame.kept).trans hpasses
  obtain ⟨hkept, hslot⟩ := last.program.foldLevel_kept (hpassed.findings.filled hpoised.filled)
    (hpassed.findings.text slot htext) closing (List.forall_mem_map.mpr hliterals)
  rw [Frame.withPairs, finish, leads_onProgram]
  exact ⟨rfl, hpassed.trans (.of_findings hkept), hslot⟩

/-- The markup that opens a node is known, and its children are compared. -/
theorem opened_settles {slot : Id} {opening closing : String} {recorded : List Event}
    (hcost : cost ≤ maxChain) (hpoised : Poised engine functions cached owner walk)
    (hchildren : RepeatAll engine functions cached owner (.within owner) children inner cost)
    (hrecorded : Event.answers recorded = []) :
    Leads (do
        onProgram (·.setText slot opening)
        descend slot closing (.both children)
        return none) walk
      (Settles engine walk recorded inner (cost + 2) fun last =>
        (last.program.findings.literal? slot).isSome = true)
      fun _ => False := by
  rw [leads_bind, leads_onProgram, leads_bind]
  have hpasses : Passes engine walk { walk with program := walk.program.setText slot opening } :=
    .of_findings Findings.kept_setText
  have htext : ((walk.program.setText slot opening).findings.text? slot).isSome = true := by
    rw [Program.setText, Findings.text?_setText_self]
    rfl
  have hsettles := descend_settles slot closing hcost
    (hpoised.passes hpasses) hchildren htext
  refine leads_mono hsettles (fun _ after hafter => ?_) fun _ h => h
  have hlater := (hafter.since hpasses rfl).later recorded (Nat.le_succ _)
  rwa [hrecorded, List.append_nil] at hlater

/-- A node with children, whose own markup is known as soon as it is
    compared. -/
theorem Repeats.of_opened {view : View} (opening closing : String)
    (hchildren : RepeatAll engine functions cached owner (.within owner) children inner cost)
    (htrail : ∀ active depth slot, Event.answers
      (trail cached active (depth + 1) ⟨.both view, slot, .both context⟩) = [])
    (h : ∀ depth slot, compare engine (depth + 1) ⟨.both view, slot, .both context⟩ = (do
      onProgram (·.setText slot opening)
      descend slot closing (.both children)
      return none)) :
    Repeats engine functions cached owner context view inner (cost + 2) := by
  intro depth walk slot hdepth hchain hpoised
  cases depth with
  | zero => omega
  | succ depth =>
      have hcached : walk.cached = cached := funext hpoised.remembers.cached
      rw [h, hcached]
      exact opened_settles (by omega) hpoised hchildren (htrail _ _ _)

theorem repeats_fragment {opening closing : String}
    (hchildren : RepeatAll engine functions cached owner (.within owner) children inner cost) :
    Repeats engine functions cached owner context (.fragment opening closing children) inner
      (cost + 2) := by
  cases children with
  | nil =>
      cases hchildren
      refine .of_mark (Nat.zero_lt_succ _) (fun _ _ _ => rfl) fun depth walk slot _ =>
        ⟨opening ++ closing, ?_⟩
      simp only [compare, Twin.both, compareFragments, List.isEmpty_nil, Bool.and_self, if_true]
      rfl
  | cons child children =>
      refine .of_opened opening closing hchildren (fun _ _ _ => rfl) fun depth slot => ?_
      simp only [compare, Twin.both, compareFragments, List.isEmpty_cons, Bool.and_self,
        Bool.false_eq_true, if_false, decide_true, if_true, bind_assoc]

theorem repeats_void {tag : String} {data : NodeData} (hend : Markup.endTag? tag = none) :
    Repeats engine functions cached owner context (.element tag data children) [] 1 := by
  refine .of_mark Nat.one_pos (fun _ _ _ => rfl) fun depth walk slot _ =>
    ⟨engine.registry.startTag tag data context, ?_⟩
  simp only [compare, Twin.both, compareElements, hend, Program.recordText, if_true]
  rfl

theorem repeats_content {tag closing content : String} {data : NodeData}
    (hend : Markup.endTag? tag = some closing) (hcontent : data.content? = some content) :
    Repeats engine functions cached owner context (.element tag data children) [] 1 := by
  refine .of_mark Nat.one_pos (fun _ _ _ => rfl) fun depth walk slot _ =>
    ⟨engine.registry.startTag tag data context ++ content ++ closing, ?_⟩
  simp only [compare, Twin.both, compareElements, hend, hcontent, decide_true, Bool.and_self,
    if_true]
  rfl

theorem repeats_element {tag closing : String} {data : NodeData}
    (hend : Markup.endTag? tag = some closing) (hcontent : data.content? = none)
    (hchildren : RepeatAll engine functions cached owner (.within owner) children inner cost) :
    Repeats engine functions cached owner context (.element tag data children) inner
      (cost + 2) := by
  cases children with
  | nil =>
      cases hchildren
      refine .of_mark (Nat.zero_lt_succ _) (fun _ _ _ => rfl) fun depth walk slot _ =>
        ⟨engine.registry.startTag tag data context ++ closing, ?_⟩
      simp only [compare, Twin.both, compareElements, hend, hcontent, List.isEmpty_nil,
        Bool.and_self, Program.recordText, if_true]
      rfl
  | cons child children =>
      refine .of_opened (engine.registry.startTag tag data context) closing hchildren
        (fun _ _ _ => rfl) fun depth slot => ?_
      simp only [compare, Twin.both, compareElements, hend, hcontent, List.isEmpty_cons,
        Bool.and_self, Bool.false_eq_true, if_false, if_true, bind_assoc]

/-- Leaving a component whose root is static. -/
theorem leaveComponent_literal (boundary : Boundary) {before : Builder} {component : String}
    {styles : Styles} (hhoists : walk.options.hoistStyles = true) (hsound : walk.synthesizer.Sound)
    (hroot : (walk.program.findings.literal? boundary.rootSlot).isSome = true)
    (hbuilder : Builder.Grows (before.enter component styles) walk.builder) :
    Leads (leaveComponent engine boundary) walk
      (fun _ after => after.frames = walk.frames ∧ after.options = walk.options ∧
        after.active = boundary.around ∧ after.engine = walk.engine ∧
        Findings.Kept walk.program.findings after.program.findings ∧ after.synthesizer.Sound ∧
        ∃ text tree, after.program.findings.literal? boundary.slot = some text ∧
          tree.IsLiteral component text ∧ after.builder = before.attach boundary.slot tree)
      fun _ => False := by
  obtain ⟨text, htext⟩ := Option.isSome_iff_exists.mp hroot
  -- Reading a literal function cannot fail, and the entry is closed with it.
  obtain ⟨function, hread, htree, hsound'⟩ := Synthesizer.literal_spec hsound text
  obtain ⟨tree, hliteral, hclose⟩ := Builder.close_literal hbuilder htree boundary.slot
  unfold leaveComponent
  rw [leads_bind, leads_modify, leads_bind, leads_get]
  dsimp only
  rw [htext]
  dsimp only
  unfold leaveStatic
  rw [leads_bind, leads_onSynthesizer]
  dsimp only
  rw [hread]
  dsimp only
  rw [leads_bind, leads_onProgram, leads_bind, leads_get, leads_closeEntry]
  refine ⟨rfl, rfl, rfl, rfl, Findings.kept_markStatic, hsound', text, tree,
    Findings.literal?_markStatic_self, hliteral, ?_⟩
  simp only [hhoists, Bool.not_true, hclose]

/-- A component is entered, its root is compared, and it is left as a
    literal. -/
theorem enterComponent_settles {pending : Pending} {inst : Instance} {root : View}
    (hinstances : pending.instances = inst.both) (hstatic : engine.render inst.inStatic = .ok root)
    (hdynamic : engine.render inst = .ok root) (hcontext : pending.context = .both context)
    (hroot : RepeatAll engine functions cached (some inst) context [root] inner cost)
    (hcost : cost ≤ maxChain) (hpoised : Poised engine functions cached owner walk) :
    Leads (enterComponent engine pending) walk
      (fun _ after => Settles engine walk [] inner (cost + 1) (fun last =>
        ∃ text tree, last.program.findings.literal? pending.slot = some text ∧
          tree.IsLiteral inst.component.name text ∧
          last.builder = walk.builder.attach pending.slot tree) none after)
      fun _ => False := by
  unfold enterComponent
  rw [hinstances, hcontext, leads_bind, leads_ofExcept]
  dsimp only [Instance.both]
  rw [hstatic]
  dsimp only
  rw [leads_bind, leads_ofExcept, hdynamic]
  dsimp only
  rw [leads_bind, leads_fromProgram, leads_bind, leads_get, leads_bind, leads_modify,
    leads_pushFrame]
  have hsame := walk.program.locateRoot_same pending.function
  generalize walk.program.locateRoot pending.function = located at hsame ⊢
  obtain ⟨rootSlot, program⟩ := located
  dsimp only at hsame ⊢
  -- The root is the only child of the frame. When it is done, the entry that was
  -- opened for the component is the innermost one again.
  have hfilled := hsame.kept.filled hpoised.filled
  refine hroot.settles hcost ⟨hpoised.comments, hpoised.hoists, rfl, hpoised.remembers,
    hpoised.sound, hfilled⟩ rfl rfl rfl (List.forall_mem_singleton.mpr rfl)
    fun last hpasses hliterals => ?_
  have hhoists : last.options.hoistStyles = true := by
    rw [hpasses.options]
    exact hpoised.hoists
  refine leads_mono (leaveComponent_literal ⟨pending.slot, rootSlot, inst.inStatic, pending.own,
    walk.active⟩ hhoists (hpasses.synthesizer hpoised.sound) (hliterals _ List.mem_cons_self)
    hpasses.builder) (fun _ after hafter => ?_) fun _ h => h
  obtain ⟨hframes, hoptions, hactive, hengine, hfindings, hsound, text, tree, htext, hliteral,
    hbuilder⟩ := hafter
  have hpassed : Passes engine walk after :=
    { options := hoptions.trans hpasses.options
      active := hactive
      engine := hpasses.engine.trans ⟨by rw [hengine], by rw [hengine]⟩
      findings := (hsame.kept.trans hpasses.findings).trans hfindings
      builder := hbuilder ▸ Builder.grows_attach _ _ _
      synthesizer := fun _ => hsound }
  exact ⟨hframes, hpassed, text, tree, htext, hliteral, hbuilder⟩

/-- Getting the render function of an instance, which is remembered. -/
theorem ensureRender_remembers {component : Component} {function : RenderFunction}
    {state : Engine.State} (h : engine.Remembers functions cached state)
    (hfunction : functions component = some function) (data : NodeData) (owner : Option Instance)
    (pass : Pass) :
    ∃ after, engine.ensureRender (Instance.create component data owner pass) state =
        .ok (function, { Instance.create component data owner pass with render := some function })
          after ∧ Engine.Kept engine state after := by
  have hknown : engine.function? state component = some function := by rw [h.functions, hfunction]
  rcases engine.ensureRender_spec (Instance.create component data owner pass) rfl state with
    ⟨function', after, hensure, hfunction', hkept⟩ | ⟨e, after, -, hnone, -⟩
  · cases hknown.symm.trans hfunction'
    exact ⟨after, hensure, hkept⟩
  · cases hknown.symm.trans hnone

/-- A component without hooks is compared with itself. -/
theorem compareComponents_settles {component : Component} {data : NodeData} {inst : Instance}
    {root : View} (pair : Pair) (hnone : component.prefetch = [])
    (hrendering : engine.rendering? functions .dynamic owner component data = some (inst, root))
    (hroot : RepeatAll engine functions cached (some inst)
      (context.nest data component.scopeId) [root] inner cost)
    (hcost : cost ≤ maxChain) (hpoised : Poised engine functions cached owner walk)
    (hcontext : pair.context = .both context) :
    Leads (compareComponents engine pair (.both component) (.both data)) walk
      (Settles engine walk [] inner (cost + 1) fun last =>
        ∃ text tree, last.program.findings.literal? pair.slot = some text ∧
          tree.IsLiteral component.name text ∧ last.builder = walk.builder.attach pair.slot tree)
      fun _ => False := by
  have hstatics : walk.active.map (·.static) = owner.map Instance.inStatic := by
    rw [hpoised.active]
    cases owner <;> rfl
  have hdynamics : walk.active.map (·.dynamic) = owner := by
    rw [hpoised.active]
    cases owner <;> rfl
  obtain ⟨function, hfunction, hinst, hdynamic⟩ := (Engine.rendering?_of_nil hnone).mp hrendering
  -- Without hooks the static pass renders what the dynamic one does.
  obtain ⟨function', hfunction', hinst', hstatic⟩ :=
    (Engine.rendering?_of_nil hnone).mp (Engine.rendering?_static hnone hrendering)
  cases hfunction.symm.trans hfunction'
  obtain ⟨state, hensure, hkept⟩ :=
    ensureRender_remembers hpoised.remembers hfunction data (owner.map Instance.inStatic) .static
  obtain ⟨state', hensure', hkept'⟩ :=
    ensureRender_remembers (hpoised.remembers.kept hkept) hfunction data owner .dynamic
  have hname : inst.component = component := by
    rw [hinst]
    rfl
  have hpending : Engine.hasPrefetch inst = false ∧ Engine.hasPrefetch inst.inStatic = false := by
    simp only [Engine.hasPrefetch, Instance.inStatic, hname, hnone, List.isEmpty_nil, Bool.not_true,
      and_self]
  unfold compareComponents
  rw [if_neg (fun h => h rfl), leads_bind, leads_get]
  dsimp only [Twin.both]
  rw [hstatics, hdynamics, leads_bind, leads_onEngine, hensure]
  dsimp only
  rw [leads_bind, leads_onEngine, hensure']
  dsimp only
  rw [← hinst, ← hinst', leads_bind, leads_fromProgram, hpending.1, hpending.2]
  dsimp only
  rw [if_neg (by decide), leads_bind]
  have hpasses : Passes engine walk
      { walk with
        engine := state'
        program := ⟨(walk.program.arena.graft function.arena function.root).2,
          walk.program.findings.setFunction pair.slot
            (walk.program.arena.graft function.arena function.root).1⟩ } :=
    ⟨rfl, rfl, hkept.trans hkept', Findings.sameTexts_setFunction.kept, .refl _, id⟩
  rw [hcontext]
  refine leads_mono (enterComponent_settles rfl hstatic hdynamic rfl hroot hcost
    (hpoised.passes hpasses)) (fun _ after hafter => ?_) fun _ h => h
  rw [hname] at hafter
  exact hafter.since hpasses rfl

theorem repeats_component {id : ComponentId} {data : NodeData} {inst : Instance} {root : View}
    (hnone : (engine.components id).prefetch = [])
    (hrendering : engine.rendering? functions .dynamic owner (engine.components id) data =
      some (inst, root))
    (hroot : RepeatAll engine functions cached (some inst)
      (context.nest data (engine.components id).scopeId) [root] inner cost) :
    Repeats engine functions cached owner context (.component id data) inner (cost + 2) := by
  intro depth walk slot hdepth hchain hpoised
  cases depth with
  | zero => omega
  | succ depth =>
      have hleads := compareComponents_settles
        ⟨.both (.component id data), slot, .both context⟩ hnone hrendering hroot (by omega)
        hpoised rfl
      refine leads_mono hleads (fun _ after hafter => ?_) fun _ h => h
      exact (hafter.weaken fun last ⟨text, _, htext, _⟩ => by rw [htext]; rfl).later
        [.compared _ walk.active] (Nat.le_succ _)

section Deferred

variable {factory : FactoryId} {data : NodeData} {resolution : Resolution}

/-- An async component that has resolved is compared by what it resolved
    to. -/
theorem Repeats.of_resolved (hcached : cached factory = some resolution)
    (h : ∀ depth (walk : Walk) slot, cost ≤ depth → depth ≤ maxChain →
      Poised engine functions cached owner walk →
      Leads (compareResolved engine (compare engine depth)
          ⟨.both (.deferred factory data), slot, .both context⟩ (.both data) (.both resolution))
        walk
        (Settles engine walk
          (settleTrail (trail cached walk.active depth)
            ⟨.both (.deferred factory data), slot, .both context⟩ (.both resolution)).tail
          inner (cost + 1) fun last => (last.program.findings.literal? slot).isSome = true)
        fun _ => False) :
    Repeats engine functions cached owner context (.deferred factory data)
      (⟨factory, some resolution⟩ :: inner) (cost + 1) := by
  intro depth walk slot hdepth hchain hpoised
  cases depth with
  | zero => omega
  | succ depth =>
      have hknown : walk.cached = cached := funext hpoised.remembers.cached
      have hleads := h depth walk slot (by omega) (by omega) hpoised
      unfold compare
      dsimp only [Twin.both] at hleads ⊢
      rw [leads_bind, leads_ask, leads_bind, leads_ask, hknown, hcached]
      refine leads_mono hleads (fun _ after hafter => ?_) fun _ h => h
      -- Both sides have the same answer, so it counts as one.
      have hsymmetric : (Settled.mk (.both factory) (.both resolution)).isSymmetric = true := by
        cases resolution <;> rfl
      have hanswer : (Settled.mk (.both factory) (.both resolution)).static =
          ⟨factory, some resolution⟩ := by
        rw [Settled.static, hsymmetric]
        rfl
      have htrail : trail cached walk.active (depth + 1)
          ⟨.both (.deferred factory data), slot, .both context⟩ =
          [.compared ⟨.both (.deferred factory data), slot, .both context⟩ walk.active,
            .settled ⟨.both factory, .both resolution⟩] ++
          (settleTrail (trail cached walk.active depth)
            ⟨.both (.deferred factory data), slot, .both context⟩ (.both resolution)).tail := by
        simp only [trail, Twin.both, hcached]
        rfl
      have hlater := hafter.later
        [.compared ⟨.both (.deferred factory data), slot, .both context⟩ walk.active,
          .settled ⟨.both factory, .both resolution⟩] (Nat.le_refl _)
      rw [← hanswer]
      exact htrail ▸ hlater

theorem repeats_deferredComponent {id : ComponentId} {inst : Instance} {root : View}
    (hcached : cached factory = some (.component id)) (hnone : (engine.components id).prefetch = [])
    (hrendering : engine.rendering? functions .dynamic owner (engine.components id) data =
      some (inst, root))
    (hroot : RepeatAll engine functions cached (some inst)
      (context.nest data (engine.components id).scopeId) [root] inner cost) :
    Repeats engine functions cached owner context (.deferred factory data)
      (⟨factory, some (.component id)⟩ :: inner) (cost + 2) := by
  refine .of_resolved hcached fun depth walk slot hdepth hchain hpoised => ?_
  have hleads := compareComponents_settles
    ⟨.both (.deferred factory data), slot, .both context⟩ hnone hrendering hroot
    (by omega) hpoised rfl
  refine leads_mono hleads (fun _ after hafter => ?_) fun _ h => h
  exact (hafter.weaken fun last ⟨text, _, htext, _⟩ => by rw [htext]; rfl).later [] (Nat.le_succ _)

theorem repeats_deferredView {view : View} (hcached : cached factory = some (.view view))
    (hview : Repeats engine functions cached owner context view inner cost) :
    Repeats engine functions cached owner context (.deferred factory data)
      (⟨factory, some (.view view)⟩ :: inner) (cost + 1) := by
  refine .of_resolved hcached fun depth walk slot hdepth hchain hpoised => ?_
  refine leads_mono (hview depth walk slot hdepth hchain hpoised) (fun _ after hafter => ?_)
    fun _ h => h
  have hknown : walk.cached = cached := funext hpoised.remembers.cached
  rw [hknown] at hafter
  exact hafter.later [] (Nat.le_succ _)

theorem repeats_deferredViews {views : List View} (hcached : cached factory = some (.views views))
    (hviews : RepeatAll engine functions cached owner context views inner cost) :
    Repeats engine functions cached owner context (.deferred factory data)
      (⟨factory, some (.views views)⟩ :: inner) (cost + 1) := by
  refine .of_resolved hcached fun depth walk slot hdepth hchain hpoised => ?_
  dsimp only [compareResolved, Twin.both]
  rw [if_pos rfl, List.zipWith_self, leads_bind, leads_fromProgram, leads_bind, leads_pushFrame]
  obtain ⟨hadds, hlength⟩ := Program.pushHoles_adds views.length walk.program
  generalize Program.pushHoles views.length walk.program = located at hadds hlength ⊢
  obtain ⟨slots, program⟩ := located
  dsimp only at hadds hlength ⊢
  have hkept : Findings.Kept walk.program.findings program.findings := by
    rw [hadds.findings]
    exact .refl _
  have hcount : (views.map Twin.both).length = slots.length := by rw [List.length_map, hlength]
  obtain ⟨hslots, hpairs, hcontexts⟩ := zipPairs_spec (.both context) hcount
  refine hviews.settles (by omega) (hpoised.passes (.of_findings hkept)) rfl rfl hpairs hcontexts
    fun last hpasses hliterals => ?_
  have hpassed := (Passes.of_findings hkept).trans hpasses
  obtain ⟨hkept', hslot⟩ := last.program.foldGroup_kept (hpassed.findings.filled hpoised.filled)
    slot (List.forall_mem_map.mpr hliterals)
  rw [Frame.withPairs, finish, leads_onProgram]
  exact ⟨rfl, hpassed.trans (.of_findings hkept'), hslot⟩

end Deferred

end Kinds

end Walk

/-- All nodes of a quiet tree fold when they are compared with themselves. -/
theorem Written.repeats {engine : Engine} {functions : Component → Option RenderFunction}
    {cached : FactoryId → Option Resolution} {root : View} {owner : Option Instance}
    {context : TagContext} {views : List View} {answers : List Answer} {html : String} {steps : Nat}
    (h : Written engine functions .dynamic id owner context views answers html steps)
    (hquiet : Quiet engine functions cached root)
    (hbelow : ∀ view ∈ views, Below engine functions cached root owner view)
    (hanswers : Answered cached answers) :
    Walk.RepeatAll engine functions cached owner context views answers steps := by
  -- By induction on how the tree is written. Every step of writing is paid for
  -- by the cost of the node, and there are no answers of different kinds.
  induction h with
  | nil => exact .nil
  | text hmarkup hrest ih =>
      rw [Nat.add_comm]
      exact .cons (Walk.repeats_text hmarkup) (ih (List.forall_mem_cons.mp hbelow).2 hanswers)
  | comment hrest ih =>
      rw [Nat.add_comm]
      exact .cons Walk.repeats_comment (ih (List.forall_mem_cons.mp hbelow).2 hanswers)
  | fragment hchildren hrest ihchildren ih =>
      obtain ⟨hview, hbelow⟩ := List.forall_mem_cons.mp hbelow
      obtain ⟨hinner, hanswers⟩ := Answered.append_iff.mp hanswers
      exact .cons (Walk.repeats_fragment
        (ihchildren (fun child hchild => hview.inside hchild) hinner)) (ih hbelow hanswers)
  | void hend hstart hrest ih =>
      rw [Nat.add_comm]
      exact .cons (Walk.repeats_void hend) (ih (List.forall_mem_cons.mp hbelow).2 hanswers)
  | content hend hstart hcontent hrest ih =>
      rw [Nat.add_comm]
      exact .cons (Walk.repeats_content hend hcontent)
        (ih (List.forall_mem_cons.mp hbelow).2 hanswers)
  | element hend hstart hcontent hchildren hrest ihchildren ih =>
      obtain ⟨hview, hbelow⟩ := List.forall_mem_cons.mp hbelow
      obtain ⟨hinner, hanswers⟩ := Answered.append_iff.mp hanswers
      -- The element has no content of its own, so its children are in the tree.
      have hinside : ∀ child ∈ _, Below engine functions cached root _ child :=
        fun child hchild => hview.inside (by simpa [View.inside, hend, hcontent] using hchild)
      exact .cons (Walk.repeats_element hend hcontent (ihchildren hinside hinner))
        (ih hbelow hanswers)
  | component hroot hinner hrest ihinner ih =>
      obtain ⟨hview, hbelow⟩ := List.forall_mem_cons.mp hbelow
      obtain ⟨hinner, hanswers⟩ := Answered.append_iff.mp hanswers
      have hinside := ihinner (List.forall_mem_singleton.mpr (hview.component hroot)) hinner
      exact .cons (Walk.repeats_component (hquiet.component _ _ _ hview) hroot hinside)
        (ih hbelow hanswers)
  | deferredComponent hroot hinner hrest ihinner ih =>
      obtain ⟨hview, hbelow⟩ := List.forall_mem_cons.mp hbelow
      obtain ⟨hanswer, hanswers⟩ := Answered.cons_iff.mp hanswers
      obtain ⟨hinner, hanswers⟩ := Answered.append_iff.mp hanswers
      obtain ⟨resolution, hresolved, hhooks⟩ := hquiet.deferred _ _ _ hview
      have hnone := hhooks _ (Option.some.inj (hresolved.symm.trans hanswer))
      have hinside := ihinner
        (List.forall_mem_singleton.mpr (hview.deferredComponent hanswer hroot)) hinner
      exact .cons (Walk.repeats_deferredComponent hanswer hnone hroot hinside) (ih hbelow hanswers)
  | deferredView hinner hrest ihinner ih =>
      obtain ⟨hview, hbelow⟩ := List.forall_mem_cons.mp hbelow
      obtain ⟨hanswer, hanswers⟩ := Answered.cons_iff.mp hanswers
      obtain ⟨hinner, hanswers⟩ := Answered.append_iff.mp hanswers
      have hinside := ihinner (List.forall_mem_singleton.mpr (hview.deferredView hanswer)) hinner
      exact .cons (Walk.repeats_deferredView hanswer hinside.single) (ih hbelow hanswers)
  | deferredViews hinner hrest ihinner ih =>
      obtain ⟨hview, hbelow⟩ := List.forall_mem_cons.mp hbelow
      obtain ⟨hanswer, hanswers⟩ := Answered.cons_iff.mp hanswers
      obtain ⟨hinner, hanswers⟩ := Answered.append_iff.mp hanswers
      have hinside := ihinner (fun view hview' => hview.deferredViews hanswer hview') hinner
      exact .cons (Walk.repeats_deferredViews hanswer hinside) (ih hbelow hanswers)
  | differing hrest ih =>
      obtain ⟨hview, -⟩ := List.forall_mem_cons.mp hbelow
      obtain ⟨hanswer, -⟩ := Answered.cons_iff.mp hanswers
      obtain ⟨resolution, hresolved, -⟩ := hquiet.deferred _ _ _ hview
      cases hresolved.symm.trans hanswer

end RenderFold
