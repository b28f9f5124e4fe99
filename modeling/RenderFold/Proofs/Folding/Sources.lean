import RenderFold.Proofs.Folding.LiteralTrees
import RenderFold.Proofs.Folding.Numbered
import RenderFold.Proofs.Folding.Tended
import Mathlib.Logic.Relation

/-!
# Where Entries Come From

An entry of a folded tree was made for one use of one component. Its function
is the one that the component has, a literal, or a rewriting of that function:
the function was copied into the arena, the copy was edited, the calls that use
the components below were numbered, and the result was printed and read again.

Nothing of this is kept in the tree, which only has names and places. So it is
said of a tree from outside that it was made at an expression, and this goes
down to the entries below, each of which was made at the call that has its
number.

## Main definitions

* `Event.Uses`: An expression uses a component.
* `Program.Edits`: What folding does to an arena.
* `Rewriting`: A function that was made from another one.
* `Made`: An entry and the use of a component that it was made for.

## Theorems

* `Program.Evolves`: Every way in which a walk changes its program is a
  sequence of edits.
* `Made.of_has`: What an entry was made for goes for the entries below it.
-/

namespace RenderFold

open Script (Arena Id)

namespace Event

/-- Two nodes were compared at an expression, and the static one uses a
    component, or it is an async component that resolved to one. -/
inductive Uses (engine : Engine) (events : List Event) : Id → Component → Prop where
  | component {pair : Pair} {active : Option (Twin Instance)} {id : ComponentId} {data : NodeData}
      (hevent : .compared pair active ∈ events) (hview : pair.view.static = .component id data) :
      Uses engine events pair.slot (engine.components id)
  | deferred {pair : Pair} {active : Option (Twin Instance)} {both : Settled} {id : ComponentId}
      {data : NodeData} (hevent : .compared pair active ∈ events)
      (hview : pair.view.static = .deferred both.factories.static data)
      (hsettled : .settled both ∈ events) (hresolved : both.resolutions.static = .component id) :
      Uses engine events pair.slot (engine.components id)

variable {engine : Engine} {events events' : List Event} {slot : Id} {component : Component}

theorem Uses.mono (h : Uses engine events slot component) (hsub : events ⊆ events') :
    Uses engine events' slot component := by
  cases h with
  | component hevent hview => exact .component (hsub hevent) hview
  | deferred hevent hview hsettled hresolved =>
      exact .deferred (hsub hevent) hview (hsub hsettled) hresolved

theorem Uses.slot_mem (h : Uses engine events slot component) : slot ∈ slots events := by
  cases h with
  | component hevent hview => exact slot_mem_slots hevent
  | deferred hevent hview hsettled hresolved => exact slot_mem_slots hevent

end Event

namespace Program

/-- One edit that folding makes to an arena. It adds an expression that stands
    for one that could not be located, or a copy of a function; it rewrites an
    expression after its children; or it numbers a call. -/
inductive Edit : Arena → Arena → Prop where
  | hole (arena : Arena) : Edit arena (arena.push .hole).2
  | copy (arena : Arena) (own : RenderFunction) : Edit arena (arena.graft own.arena own.root).2
  | literal (arena : Arena) (slot : Id) (text : String) : Edit arena (arena.becomeLiteral slot text)
  | children (arena : Arena) (slot : Id) (runs : List Run) :
      Edit arena (setChildren arena slot runs)
  | enclose (arena : Arena) (slot : Id) (opening closing : String) (runs : List Run) :
      Edit arena
        (Program.enclose (pushRuns arena runs).2 slot opening closing (pushRuns arena runs).1)
  | place (arena : Arena) (call : Id) (index : Nat) : Edit arena (Program.place arena call index)

/-- Any number of edits. -/
abbrev Edits : Arena → Arena → Prop := Relation.ReflTransGen Edit

/-- A function in an arena is a copy of one that was read, edited since. -/
def CopyOf (own : RenderFunction) (arena : Arena) (function : Id) : Prop :=
  ∃ before : Arena, (before.graft own.arena own.root).1 = function ∧
    Edits (before.graft own.arena own.root).2 arena

theorem CopyOf.edit {own : RenderFunction} {arena after : Arena} {function : Id}
    (h : CopyOf own arena function) (hedits : Edits arena after) : CopyOf own after function := by
  rcases h with ⟨before, hfunction, hbefore⟩
  exact ⟨before, hfunction, hbefore.trans hedits⟩

/-- Programs that differ by edits and by what was found out, but not by the
    functions that are recorded. -/
structure Evolves (a b : Program) : Prop where
  edits : Edits a.arena b.arena
  functions : ∀ id, b.findings.function? id = a.findings.function? id

variable {program a b c : Program} {slot : Id} {text : String}

theorem Evolves.refl (program : Program) : program.Evolves program := ⟨.refl, fun _ => rfl⟩

theorem Evolves.trans (hab : a.Evolves b) (hbc : b.Evolves c) : a.Evolves c :=
  ⟨hab.edits.trans hbc.edits, fun id => (hbc.functions id).trans (hab.functions id)⟩

theorem Evolves.edit {arena : Arena} (h : Edit program.arena arena) :
    program.Evolves { program with arena } :=
  ⟨.single h, fun _ => rfl⟩

theorem evolves_update {change : Finding → Finding}
    (hfunction : ∀ finding, (change finding).function = finding.function) :
    program.Evolves { program with findings := program.findings.update slot change } :=
  ⟨.refl, fun _ => Findings.function?_update hfunction⟩

theorem evolves_markStatic : program.Evolves (program.markStatic slot text) :=
  evolves_update fun _ => rfl

theorem evolves_setText : program.Evolves (program.setText slot text) :=
  evolves_update fun _ => rfl

theorem evolves_markUnmatched : program.Evolves (program.markUnmatched slot) :=
  evolves_update fun _ => rfl

theorem evolves_recordText {static dynamic : Option String} :
    program.Evolves (program.recordText slot static dynamic) := by
  unfold recordText
  split
  · split
    · exact evolves_markStatic
    · exact .refl _
  · exact .refl _

theorem evolves_pushHole : program.Evolves program.pushHole.2 := .edit (.hole _)

theorem evolves_pushHoles (count : Nat) : program.Evolves (pushHoles count program).2 := by
  induction count generalizing program with
  | zero => exact .refl _
  | succ count ih => exact evolves_pushHole.trans ih

theorem evolves_correlate {count : Nat} : program.Evolves (program.correlate slot count).2 := by
  unfold correlate
  dsimp only
  split
  · exact .refl _
  · exact evolves_markUnmatched.trans (evolves_pushHoles count)

theorem evolves_locateRoot {function : Id} : program.Evolves (program.locateRoot function).2 := by
  unfold locateRoot
  split
  · exact .refl _
  · exact evolves_markUnmatched.trans evolves_pushHole

theorem evolves_foldToLiteral : program.Evolves (program.foldToLiteral slot text) :=
  (Evolves.edit (.literal _ slot text)).trans evolves_markStatic

theorem evolves_foldLevel {closing : String} {slots : List Id} :
    program.Evolves (program.foldLevel slot closing slots) := by
  unfold foldLevel
  split
  · exact .refl _
  · dsimp only
    split
    · exact evolves_foldToLiteral
    · split
      · exact .refl _
      · split
        · exact .edit (.children _ _ _)
        · exact .edit (.children _ _ _)
        · exact .edit (.enclose _ _ _ _ _)

theorem evolves_foldGroup {slots : List Id} : program.Evolves (program.foldGroup slot slots) := by
  unfold foldGroup
  split
  · exact .refl _
  · split
    · exact evolves_foldToLiteral
    · exact .refl _

theorem placeAll_edits {survivors : List Id} {keepPlaces : Bool} {calls : List Id} :
    ∀ {arena : Arena} {index : Nat},
      Edits arena (placeAll survivors keepPlaces arena index calls) := by
  induction calls with
  | nil => exact .refl
  | cons call rest ih =>
      intro arena index
      unfold placeAll
      split
      · exact .head (.place arena call index) ih
      · exact ih

end Program

/-- The function `result` was made from `own`: a copy of `own` was edited, is a
    tree that was printed, and was read again. Each of the calls that are left
    in it has its number. -/
structure Rewriting (own : RenderFunction) (arena : Arena) (function : Id) (calls : List Id)
    (result : RenderFunction) : Prop where
  copy : Program.CopyOf own arena function
  tree : arena.IsTree function
  printed : RenderFunction.compile (arena.print function) = .ok result
  numbered : ∀ (i : Nat) (call : Id) (path : List Nat), calls[i]? = some call →
    arena.Path function path call → arena.helper? call = some .element →
    Program.Numbered arena call i

/-- What the function of an entry can be. `calls` are the expressions that use
    the components that have entries below. -/
inductive Derived (own : RenderFunction) (calls : List Id) (function : RenderFunction) : Prop where
  | kept (h : function = own)
  | literal {text : String} (h : function.tree = .literal text)
  | rewritten {arena : Arena} {id : Id} (h : Rewriting own arena id calls function)

section Made

variable (engine : Engine) (functions : Component → Option RenderFunction) (events : List Event)

/-- An entry was made for the component that is used at `slot`, and so was
    every entry below it, for the component that is used at its call. -/
inductive Made : Id → FoldedTree → Prop where
  | mk {slot : Id} {component : Component} {own : RenderFunction} {calls : List Id}
      {tree : FoldedTree} (huses : Event.Uses engine events slot component)
      (hname : tree.component = component.name) (hown : functions component = some own)
      (hderived : Derived own calls tree.function) (hlength : calls.length = tree.children.length)
      (hchildren : ∀ (i : Nat) (call : Id) (child : FoldedTree), calls[i]? = some call →
        tree.children[i]? = some child → Made call child) : Made slot tree

variable {engine functions events} {events' : List Event} {slot : Id} {tree parent : FoldedTree}

theorem Made.mono (hsub : events ⊆ events') (h : Made engine functions events slot tree) :
    Made engine functions events' slot tree := by
  induction h with
  | mk huses hname hown hderived hlength hchildren ih =>
      exact .mk (huses.mono hsub) hname hown hderived hlength ih

theorem Made.slot_mem (h : Made engine functions events slot tree) : slot ∈ Event.slots events := by
  cases h with
  | mk huses => exact huses.slot_mem

/-- The entries of a tree. -/
inductive FoldedTree.Has : FoldedTree → FoldedTree → Prop where
  | self {tree : FoldedTree} : Has tree tree
  | child {tree child entry : FoldedTree} (hchild : child ∈ tree.children) (h : Has child entry) :
      Has tree entry

end Made

end RenderFold
