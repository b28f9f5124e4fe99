import RenderFold.Proofs.Folding.Stacks

/-!
# How a Walk Stands

A walk is idle when no pair is being compared: what was recorded last belongs
to a child that is done. It is busy while a pair is being compared, which may
take several steps and a pause. Then there is a zone in which it may work, an
expression that it works for, and a goal, which is what the pair is known to
fold into once the rest is done.

A busy walk becomes idle again in one of three ways. The goal is met and the
expression is static, a frame is opened that takes over the goal, or nothing
is found out.

## Main definitions

* `Walk.Idle`, `Walk.Busy`: How a walk stands.

## Theorems

* `Busy.drop`, `Busy.mark`, `Busy.push`: How a busy walk becomes idle.
* `Busy.edit`, `Busy.setText`, `Busy.settled`, `Busy.compared`: How it goes
  on.
* `Idle.next`: How an idle walk becomes busy.
-/

namespace RenderFold

open Script (Arena Id)
open Script.Arena (Closed Spans added)

namespace Walk

section Definitions

variable (engine : Engine) (functions : Component → Option RenderFunction) (comments : Bool)
  (events : List Event) (walk : Walk)

/-- No pair is being compared. -/
structure Idle : Prop where
  stacked : ∃ inner, Stacked engine functions comments walk.program {x | x ∈ Event.slots events}
    events inner walk.active [] walk.frames
  recorded : Recorded engine functions comments events walk.program.findings
  used_lt : ∀ x ∈ Event.slots events, x < walk.program.arena.size
  functions : engine.function? walk.engine = functions
  comments : walk.options.foldComments = comments

/-- A pair at `slot` is being compared. The walk works in `zone`, `known` is
    the text found for the expression so far, and the pair folds into what
    meets the goal. -/
structure Busy (zone : Set Id) (slot : Id) (known : Option String)
    (goal : List Settled → String → Prop) : Prop where
  stacked : ∃ start pair since, events = start ++ .compared pair walk.active :: since ∧
    pair.slot = slot ∧ (∀ x ∈ Event.slots (.compared pair walk.active :: since), x ∈ zone) ∧
    Stacked engine functions comments walk.program {x | x ∈ Event.slots events} start zone
      walk.active [pair] walk.frames
  closed : Closed walk.program.arena zone
  slot_mem : slot ∈ zone
  text : walk.program.findings.text? slot = known
  not_static : walk.program.findings.isStatic slot = false
  owes : Owes engine functions comments events slot goal
  recorded : Recorded engine functions comments events walk.program.findings
  used_lt : ∀ x ∈ Event.slots events, x < walk.program.arena.size
  functions : engine.function? walk.engine = functions
  comments : walk.options.foldComments = comments

end Definitions

variable {engine : Engine} {functions : Component → Option RenderFunction} {comments : Bool}
  {events : List Event} {walk : Walk} {zone : Set Id} {slot : Id} {known : Option String}
  {goal goal' : List Settled → String → Prop} {text : String}

/-- An expression is the root of a tree in the zone, of which nothing else has
    been used. -/
def Room (events : List Event) (arena : Arena) (zone : Set Id) (slot : Id) : Prop :=
  ∃ span, Spans arena [slot] span ∧ span.Nodup ∧
    ∀ x ∈ span, x ∈ zone ∧ (x = slot ∨ x ∉ Event.slots events)

/-- An idle walk depends on nothing but its program, its frames and the
    instances that they come from. -/
theorem Idle.of_eq {after : Walk} (h : Idle engine functions comments events walk)
    (hprogram : after.program = walk.program) (hframes : after.frames = walk.frames)
    (hactive : after.active = walk.active)
    (hengine : engine.function? after.engine = engine.function? walk.engine)
    (hoptions : after.options = walk.options) : Idle engine functions comments events after where
  stacked := by
    rw [hprogram, hframes, hactive]
    exact h.stacked
  recorded := by
    rw [hprogram]
    exact h.recorded
  used_lt := by
    rw [hprogram]
    exact h.used_lt
  functions := hengine.trans h.functions
  comments := by
    rw [hoptions]
    exact h.comments

namespace Busy

theorem slot_used (h : Busy engine functions comments events walk zone slot known goal) :
    slot ∈ Event.slots events := by
  obtain ⟨start, pair, since, hevents, hslot, -⟩ := h.stacked
  rw [hevents, ← hslot]
  exact Event.slot_mem_slots (List.mem_append_right _ List.mem_cons_self)

/-- A goal may be exchanged for one that is harder to meet. -/
theorem weaken (h : Busy engine functions comments events walk zone slot known goal)
    (hgoal : ∀ answers text, goal' answers text → goal answers text) :
    Busy engine functions comments events walk zone slot known goal' :=
  { h with owes := h.owes.weaken hgoal }

/-- The engine may go on, as long as components keep their functions. -/
theorem withEngine {state : Engine.State}
    (h : Busy engine functions comments events walk zone slot known goal)
    (hstate : engine.function? state = engine.function? walk.engine) :
    Busy engine functions comments events { walk with engine := state } zone slot known goal :=
  ⟨h.stacked, h.closed, h.slot_mem, h.text, h.not_static, h.owes, h.recorded, h.used_lt,
    hstate.trans h.functions, h.comments⟩

/-- Work in the zone that finds no markup. -/
theorem edit {program : Program}
    (h : Busy engine functions comments events walk zone slot known goal)
    (hedit : walk.program.EditedIn zone program)
    (hsame : walk.program.findings.SameTexts program.findings) :
    Busy engine functions comments events { walk with program }
      (zone ∪ added walk.program.arena program.arena) slot known goal where
  stacked := by
    obtain ⟨start, pair, since, hevents, hslot, hwithin, hstacked⟩ := h.stacked
    exact ⟨start, pair, since, hevents, hslot, fun x hx => Or.inl (hwithin x hx),
      hstacked.edit hedit h.used_lt⟩
  closed := hedit.arena.closed
  slot_mem := Or.inl h.slot_mem
  text := (hsame.text slot).trans h.text
  not_static := (hsame.isStatic slot).trans h.not_static
  owes := h.owes
  recorded := h.recorded.same hsame
  used_lt x hx := Nat.lt_of_lt_of_le (h.used_lt x hx) hedit.arena.size_le
  functions := h.functions
  comments := h.comments

/-- The text that opens the expression is found. -/
theorem setText {pair : Pair} {active : Option (Twin Instance)}
    (h : Busy engine functions comments events walk zone pair.slot known goal)
    (hpair : .compared pair active ∈ events)
    (htext : pair.view.static.opening? engine.registry pair.context.static = some text) :
    Busy engine functions comments events
      { walk with program := walk.program.setText pair.slot text } zone pair.slot (some text)
      goal where
  stacked := by
    obtain ⟨start, other, since, hevents, hslot, hwithin, hstacked⟩ := h.stacked
    have hedit : walk.program.EditedIn zone (walk.program.setText pair.slot text) :=
      ⟨.refl h.closed, fun _ _ hid =>
        Findings.get?_update_of_ne _ _ fun heq => hid (heq ▸ h.slot_mem)⟩
    have hstacked := hstacked.edit hedit h.used_lt
    rw [show (walk.program.setText pair.slot text).arena = walk.program.arena from rfl,
      Script.Arena.added_self, Set.union_empty] at hstacked
    exact ⟨start, other, since, hevents, hslot, hwithin, hstacked⟩
  closed := h.closed
  slot_mem := h.slot_mem
  text := Findings.text?_setText_self
  not_static := Findings.isStatic_setText.trans h.not_static
  owes := h.owes
  recorded := h.recorded.setText hpair h.not_static htext
  used_lt := h.used_lt
  functions := h.functions
  comments := h.comments

/-- Async components have resolved. -/
theorem settled {both : Settled}
    (h : Busy engine functions comments events walk zone slot known goal)
    (hgoal : ∀ answers text, goal' answers text → goal (both :: answers) text) :
    Busy engine functions comments (events ++ [.settled both]) walk zone slot known goal' := by
  have hslots : Event.slots (events ++ [.settled both]) = Event.slots events := by
    rw [Event.slots_append]
    exact List.append_nil _
  refine ⟨?_, h.closed, h.slot_mem, h.text, h.not_static, h.owes.settled hgoal,
    h.recorded.settled both, ?_, h.functions, h.comments⟩
  · obtain ⟨start, pair, since, hevents, hslot, hwithin, hstacked⟩ := h.stacked
    refine ⟨start, pair, since ++ [.settled both], ?_, hslot, fun x hx => hwithin x ?_,
      by rwa [hslots]⟩
    · rw [hevents, List.append_assoc, List.cons_append]
    · rw [← List.cons_append, Event.slots_append] at hx
      exact (List.mem_append.mp hx).resolve_right List.not_mem_nil
  · rw [hslots]
    exact h.used_lt

/-- Another pair is compared at the same expression. -/
theorem compared (pair : Pair)
    (h : Busy engine functions comments events walk zone pair.slot known goal)
    (hgoal : ∀ answers text, Folds engine functions comments walk.active pair.context [pair.view]
      answers text → goal answers text) :
    Busy engine functions comments (events ++ [.compared pair walk.active]) walk zone pair.slot
      known (Folds engine functions comments walk.active pair.context [pair.view]) := by
  have hslots : ∀ x ∈ Event.slots (events ++ [.compared pair walk.active]),
      x ∈ Event.slots events := by
    intro x hx
    rw [Event.slots_append] at hx
    rcases List.mem_append.mp hx with hx | hx
    · exact hx
    · exact List.mem_singleton.mp hx ▸ h.slot_used
  refine ⟨?_, h.closed, h.slot_mem, h.text, h.not_static, h.owes.compared hgoal,
    h.recorded.compared h.not_static walk.active, fun x hx => h.used_lt x (hslots x hx),
    h.functions, h.comments⟩
  -- The pair is recorded as part of what goes on at the expression already.
  obtain ⟨start, other, since, hevents, hslot, hwithin, hstacked⟩ := h.stacked
  refine ⟨start, other, since ++ [.compared pair walk.active], ?_, hslot, fun x hx => ?_,
    hstacked.use (fun x hx => ?_) fun x hx => Or.inl (hslots x hx)⟩
  · rw [hevents, List.append_assoc, List.cons_append]
  · rw [← List.cons_append, Event.slots_append] at hx
    rcases List.mem_append.mp hx with hx | hx
    · exact hwithin x hx
    · exact List.mem_singleton.mp hx ▸ h.slot_mem
  · exact Event.slots_append ▸ List.mem_append_left _ hx

/-- Nothing is found out. -/
theorem drop (h : Busy engine functions comments events walk zone slot known goal) :
    Idle engine functions comments events walk where
  stacked := by
    obtain ⟨start, pair, since, hevents, hslot, hwithin, hstacked⟩ := h.stacked
    have hused := h.slot_used
    rw [← hslot] at hused
    -- The expression is not static, so there is nothing that it must fold into.
    refine ⟨∅, hstacked.settle hevents hwithin hused fun text hliteral => ?_⟩
    rw [hslot, Findings.literal?_eq_none h.not_static] at hliteral
    cases hliteral
  recorded := h.recorded
  used_lt := h.used_lt
  functions := h.functions
  comments := h.comments

/-- The goal is met, and the expression is static. It may be rewritten. -/
theorem mark {arena : Arena}
    (h : Busy engine functions comments events walk zone slot known goal) (hgoal : goal [] text)
    (harena : Arena.EditedIn zone walk.program.arena arena) :
    Idle engine functions comments events
      { walk with program := ⟨arena, walk.program.findings.markStatic slot text⟩ } where
  stacked := by
    obtain ⟨start, pair, since, hevents, hslot, hwithin, hstacked⟩ := h.stacked
    have hused := h.slot_used
    rw [← hslot] at hused
    have hedit : walk.program.EditedIn zone
        ⟨arena, walk.program.findings.markStatic slot text⟩ :=
      ⟨harena, fun _ _ hid => Findings.get?_update_of_ne _ _ fun heq => hid (heq ▸ h.slot_mem)⟩
    refine ⟨∅, (hstacked.edit hedit h.used_lt).settle hevents (fun x hx => Or.inl (hwithin x hx))
      hused fun found hliteral => ?_⟩
    -- What the pair folds into is what was owed for it.
    obtain ⟨-, hfound⟩ := Findings.literal?_eq_some_iff.mp hliteral
    rw [hslot, Findings.text?_markStatic_self] at hfound
    cases hfound
    have hfolds := h.owes start pair walk.active since hevents hslot [] text hgoal
    rwa [List.append_nil] at hfolds
  recorded := h.recorded.mark h.owes hgoal h.slot_used
  used_lt x hx := Nat.lt_of_lt_of_le (h.used_lt x hx) harena.size_le
  functions := h.functions
  comments := h.comments

/-- A frame is opened, and its children take over the goal. -/
theorem push {frame : Frame} {active : Option (Twin Instance)} {pairs : List Pair}
    {context : Twin TagContext}
    (h : Busy engine functions comments events walk zone slot known goal)
    (hslot : frame.slot = slot) (haround : frame.around active = walk.active)
    (hpairs : frame.pairs = .ofList pairs) (hcontext : ∀ pair ∈ pairs, pair.context = context)
    (hspan : ∃ span, Spans walk.program.arena (pairs.map (·.slot)) span ∧ span.Nodup ∧
      ∀ x ∈ span, x ∈ zone ∧ x ∉ Event.slots events)
    (hroot : ∀ boundary pairs, frame = .component boundary pairs →
      pairs.slots = [boundary.rootSlot])
    (hfunction : ∀ boundary pairs, frame = .component boundary pairs → ∀ function,
      walk.program.findings.function? boundary.slot = some function → function ∈ zone)
    (hgoal : ∀ opening, frame.opening? walk.program.findings = some opening →
      ∀ answers content, Folds engine functions comments active context (pairs.map (·.view))
        answers content → goal answers (opening ++ content ++ frame.closing)) :
    Idle engine functions comments events
      { walk with frames := frame :: walk.frames, active } where
  stacked := by
    obtain ⟨start, outer, since, hevents, houter, hwithin, hstacked⟩ := h.stacked
    obtain ⟨span, hspans, hnodup, hout⟩ := hspan
    have hleft : frame.pairs.left = pairs := by
      rw [hpairs]
      rfl
    have hslots : frame.pairs.slots = pairs.map (·.slot) := by
      rw [hpairs]
      rfl
    -- No child of the new frame has been compared.
    let nothing : List (Pair × List Event) := []
    have hhoused : Frame.Housed walk.program {x | x ∈ Event.slots events} ∅ zone
        (nothing.map (·.1.slot)) frame := by
      refine ⟨h.closed, Set.empty_subset _, hslot ▸ h.slot_mem, fun x hx => ?_,
        fun x hx => absurd hx List.not_mem_nil, fun x _ => id, ?_⟩
      · rw [hslots] at hx
        exact (hout x (hspans.subset hx)).1
      · rw [hleft]
        exact ⟨span, hspans, hnodup, fun x hx => ⟨(hout x hx).1, id, (hout x hx).2⟩⟩
    have hinside : Frame.Inside walk.program {x | x ∈ Event.slots events} ∅ zone frame :=
      ⟨hslot ▸ h.slot_used, id, hslot ▸ h.not_static, hroot, hfunction⟩
    have haccounted : Frame.Accounted engine functions comments walk.program.findings active
        context events [] [] frame := by
      refine ⟨?_, ?_, fun child hchild => absurd hchild List.not_mem_nil,
        fun opening hopening => ?_⟩
      · rw [hslots, hleft]
        rfl
      · rw [hleft]
        exact hcontext
      · rw [hslot, hleft]
        refine h.owes.weaken fun answers text hmet => ?_
        obtain ⟨content, hfolds, rfl⟩ := hmet
        exact hgoal opening hopening answers content hfolds
    -- The pair that was being compared is the child that the new frame stands for.
    have hpushed := Stacked.inside hhoused hinside haccounted
      (haround ▸ hevents) (houter.trans hslot.symm) (haround ▸ hwithin)
      (fun x hx => absurd hx List.not_mem_nil) (haround ▸ hstacked)
    rw [List.flatMap_nil, List.append_nil] at hpushed
    exact ⟨∅, hpushed⟩
  recorded := h.recorded
  used_lt := h.used_lt
  functions := h.functions
  comments := h.comments

end Busy

namespace Idle

/-- The next pair of the innermost frame is compared. It owes what it folds
    into. -/
theorem next {frame : Frame} {rest : List Frame} {pair : Pair} {left : Pairs}
    (h : Idle engine functions comments events walk) (hframes : walk.frames = frame :: rest)
    (hnext : frame.pairs.next? = some (pair, left)) :
    ∃ zone, Busy engine functions comments (events ++ [.compared pair walk.active])
        { walk with frames := frame.withPairs left :: rest } zone pair.slot none
        (Folds engine functions comments walk.active pair.context [pair.view]) ∧
      Room (events ++ [.compared pair walk.active]) walk.program.arena zone pair.slot := by
  obtain ⟨inner, hstacked⟩ := h.stacked
  rw [hframes] at hstacked
  obtain ⟨span, hspan, hnodup, hout, hstacked⟩ := hstacked.next hnext
  have hmem : pair.slot ∈ span := hspan.subset List.mem_cons_self
  have hslots : Event.slots (events ++ [.compared pair walk.active]) =
      Event.slots events ++ [pair.slot] := by
    rw [Event.slots_append]
    rfl
  -- Nothing has been compared at this expression, so nothing is known of it.
  have hunknown := h.recorded.unknown pair.slot (hout _ hmem)
  refine ⟨{x | x ∈ span}, ⟨?_, ?_, hmem, hunknown.1, hunknown.2, ?_, ?_, ?_, h.functions,
    h.comments⟩, span, hspan, hnodup, fun x hx => ⟨hx, ?_⟩⟩
  · refine ⟨events, pair, [], rfl, rfl, fun x hx => ?_,
      hstacked.use (fun x hx => ?_) fun x hx => ?_⟩
    · exact List.mem_singleton.mp hx ▸ hmem
    · exact hslots ▸ List.mem_append_left _ hx
    · have hx : x ∈ Event.slots events ++ [pair.slot] := hslots ▸ hx
      rcases List.mem_append.mp hx with hx | hx
      · exact Or.inl hx
      · exact Or.inr (List.mem_singleton.mp hx ▸ hmem)
  · exact fun x hx => ⟨hspan.lt_size x hx, fun part hpart => hspan.closed hx hpart⟩
  · exact (Owes.of_not_mem (hout _ hmem)).compared fun answers text hfolds => hfolds
  · exact h.recorded.compared hunknown.2 walk.active
  · intro x hx
    rw [hslots] at hx
    rcases List.mem_append.mp hx with hx | hx
    · exact h.used_lt x hx
    · exact List.mem_singleton.mp hx ▸ hspan.lt_size _ hmem
  · by_cases hx' : x = pair.slot
    · exact Or.inl hx'
    · refine Or.inr fun hin => ?_
      rw [hslots] at hin
      rcases List.mem_append.mp hin with hin | hin
      · exact hout x hx hin
      · exact hx' (List.mem_singleton.mp hin)

/-- A frame with no pairs left is closed. If it is not the outermost one, the
    walk is busy with its node, which folds if all children do. -/
theorem finish {frame : Frame} {rest : List Frame}
    (h : Idle engine functions comments events walk) (hframes : walk.frames = frame :: rest)
    (hnext : frame.pairs.next? = none) :
    (rest = [] ∧ ∃ slot pairs, frame = .group slot pairs ∧ pairs.slots = [slot]) ∨
      ∃ zone, Busy engine functions comments events
          { walk with frames := rest, active := frame.around walk.active } zone frame.slot
          (walk.program.findings.text? frame.slot) (fun answers text => answers = [] ∧
            ∃ opening content, frame.opening? walk.program.findings = some opening ∧
              Run.literal? (walk.program.findings.runs frame.pairs.slots) = some content ∧
              text = opening ++ content ++ frame.closing) ∧
        (∀ x ∈ frame.pairs.slots, x ∈ zone) ∧
        ∀ boundary pairs, frame = .component boundary pairs →
          pairs.slots = [boundary.rootSlot] ∧ ∀ function,
            walk.program.findings.function? boundary.slot = some function → function ∈ zone := by
  obtain ⟨inner, hstacked⟩ := h.stacked
  rw [hframes] at hstacked
  rcases hstacked.finish hnext with hroot | ⟨zone, outer, before, since, hevents, houter, hwithin,
    hrest, hclosed, hslot, hslots, hinside, howes⟩
  · exact Or.inl hroot
  · refine Or.inr ⟨zone, ⟨⟨before, outer, since, hevents, houter, hwithin, hrest⟩, hclosed, hslot,
      rfl, hinside.not_static, howes, h.recorded, h.used_lt, h.functions, h.comments⟩, hslots, ?_⟩
    exact fun boundary pairs hframe =>
      ⟨hinside.root boundary pairs hframe, hinside.function_mem boundary pairs hframe⟩

end Idle

end Walk

end RenderFold
