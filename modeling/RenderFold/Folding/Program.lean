import RenderFold.Folding.Runs
import RenderFold.Script.Edit

/-!
# Folding Levels

The render functions that are being folded stand side by side in one arena,
with the findings about their expressions beside it. When all children of a
node have been compared, what was found out about them is put to use: the
node is rewritten one level at a time, from the innermost nodes outwards.

If the markup that opens the node is known and all its children are static,
the node becomes a literal and is static itself. If only the opening markup
is known, the node becomes markup around its children, or a single text if
there is only one child and that is a text. If only the children are known,
the node stays and its list of children is replaced by one literal. In all
cases neighbouring static children become one literal, and empty literals
are left out.

A node whose children could not be matched with its expression is rewritten
only as a whole.

## Main definitions

* `Program`: An arena and the findings about it.
* `Program.foldLevel`, `Program.foldGroup`: Rewriting a node after its
  children.
* `Program.placeAll`: Numbering the calls that use the components below.
-/

namespace RenderFold

open Script (Arena Id)

/-- The render functions that are being folded, and what has been found out
    about their expressions. -/
structure Program where
  arena : Arena
  findings : Findings
  deriving Inhabited

namespace Program

/-- A program without render functions. -/
def empty : Program := ⟨.empty, []⟩

/-- A new expression that stands for one that could not be located. -/
def pushHole (program : Program) : Id × Program :=
  let (id, arena) := program.arena.push .hole
  (id, { program with arena })

/-- Several such expressions. -/
def pushHoles : Nat → Program → List Id × Program
  | 0, program => ([], program)
  | count + 1, program =>
    let (id, program) := program.pushHole
    let (ids, program) := pushHoles count program
    (id :: ids, program)

/-- Record that an expression is static, with its markup. -/
def markStatic (program : Program) (id : Id) (text : String) : Program :=
  { program with findings := program.findings.markStatic id text }

/-- Record that the parts of an expression could not be matched. -/
def markUnmatched (program : Program) (id : Id) : Program :=
  { program with findings := program.findings.markUnmatched id }

/-- Record the markup that opens an expression. -/
def setText (program : Program) (id : Id) (text : String) : Program :=
  { program with findings := program.findings.setText id text }

/-- Rewrite an expression into a literal. It is static from then on. -/
def foldToLiteral (program : Program) (slot : Id) (text : String) : Program :=
  { arena := program.arena.becomeLiteral slot text
    findings := program.findings.markStatic slot text }

/-- Expressions for runs. Empty literals leave none. -/
def pushRuns (arena : Arena) : List Run → List Id × Arena
  | [] => ([], arena)
  | .child slot :: rest =>
    let (slots, arena) := pushRuns arena rest
    (slot :: slots, arena)
  | .literal text :: rest =>
    if text = "" then pushRuns arena rest
    else
      let (slot, arena) := arena.pushLiteral text
      let (slots, arena) := pushRuns arena rest
      (slot :: slots, arena)

/-- Give an expression other children, if its children are a list. -/
def setChildren (arena : Arena) (slot : Id) (runs : List Run) : Arena :=
  match arena.childArray? slot with
  | none => arena
  | some array =>
    let (elements, arena) := pushRuns arena runs
    (arena.setElements array elements).2

/-- Rewrite an expression into markup around children. A single child that
    is a text is taken into the markup. -/
def enclose (arena : Arena) (slot : Id) (opening closing : String) (children : List Id) :
    Arena :=
  let single := match children with
    | [only] => arena.textArgument? only
    | _ => none
  match single with
  | none => arena.becomeFragment slot opening closing children
  | some argument =>
    let (opening, arena) := arena.push (.str opening)
    let (closing, arena) := arena.push (.str closing)
    let (start, arena) := arena.join opening argument
    let (whole, arena) := arena.join start closing
    arena.becomeText slot whole

/-- Rewrite an element, or markup around children, after all its children
    have been compared. Nothing is left to do for one that is static. -/
def foldLevel (program : Program) (slot : Id) (closing : String) (slots : List Id) : Program :=
  if program.findings.isStatic slot then program
  else
    let runs := program.findings.runs slots
    match program.findings.text? slot, Run.literal? runs with
    | some opening, some content => program.foldToLiteral slot (opening ++ content ++ closing)
    -- The node itself is not static. Its children may still be put together.
    | opening, content =>
      if program.findings.isUnmatched slot then program
      else match opening, content with
        | none, some content =>
          { program with arena := setChildren program.arena slot [.literal content] }
        | none, none => { program with arena := setChildren program.arena slot runs }
        | some opening, _ =>
          let (children, arena) := pushRuns program.arena runs
          { program with arena := enclose arena slot opening closing children }

/-- Rewrite an expression that produces several nodes together, after all of
    them have been compared. -/
def foldGroup (program : Program) (slot : Id) (slots : List Id) : Program :=
  if program.findings.isStatic slot then program
  else match Run.literal? (program.findings.runs slots) with
    | some text => program.foldToLiteral slot text
    | none => program

/-- Give the call that uses a component the place of the component's entry
    among the entries below. -/
def place (arena : Arena) (call : Id) (index : Nat) : Arena :=
  let (value, arena) := arena.push (.num (Float.ofNat index).toBits)
  (arena.setProperty call "treeSlot" value).2

/-- Those of some calls that can still be reached from a function and still
    are elements. -/
def survivors (arena : Arena) (function : Id) (calls : List Id) : List Id :=
  let reachable := arena.reachable function
  calls.filter fun call => reachable.contains call && arena.helper? call = some .element

/-- Number the calls that use the components below, from `index` on. Calls
    that do not survive are left out; they count only if all the components
    keep their places. -/
def placeAll (survivors : List Id) (keepPlaces : Bool) (arena : Arena) (index : Nat) :
    List Id → Arena
  | [] => arena
  | call :: rest =>
    if survivors.contains call then
      placeAll survivors keepPlaces (place arena call index) (index + 1) rest
    else placeAll survivors keepPlaces arena (if keepPlaces then index + 1 else index) rest

end Program

end RenderFold
