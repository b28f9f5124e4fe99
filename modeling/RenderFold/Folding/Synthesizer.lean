import RenderFold.Component.Engine
import RenderFold.Script.Edit

/-!
# Synthesis

A rewritten render function is printed, read again, and run once for the
instance it is meant for. If it cannot be read or run it is dropped, and the
component keeps the function it had. Functions with the same source are read
once.

## Main definitions

* `Synthesizer`: The functions read so far.
* `Synthesizer.literal`: A function that produces a literal.
* `Synthesizer.synthesize`: A function from what is left of one in an arena.
* `Engine.tryOut`, `Engine.validate`: Run a function for an instance.

## Theorems

* `Engine.tryOut_instance`: The instance is the same afterwards.
-/

namespace RenderFold

/-- Run a function in place of an instance's own, and put that back whatever
    comes of it. -/
def Engine.tryOut (engine : Engine) (function : RenderFunction) :
    StateM Instance (Except RenderError View) := do
  let own ← Instance.replaceRender (some function)
  let outcome := engine.render (← get)
  let _ ← Instance.replaceRender own
  return outcome

/-- What comes of running a function in place of an instance's own. -/
def Engine.validate (engine : Engine) (inst : Instance) (function : RenderFunction) :
    Except RenderError View :=
  ((engine.tryOut function).run inst).1

theorem Engine.validate_eq (engine : Engine) (inst : Instance) (function : RenderFunction) :
    engine.validate inst function = engine.render { inst with render := some function } := rfl

/-- Trying a function out leaves the instance as it was. -/
theorem Engine.tryOut_instance (engine : Engine) (inst : Instance) (function : RenderFunction) :
    ((engine.tryOut function).run inst).2 = inst := rfl

/-- The functions read so far, and whether functions are run before they are
    accepted. -/
structure Synthesizer where
  cache : SourceCache RenderFunction
  validates : Bool

namespace Synthesizer

/-- Nothing read so far. -/
def new (validates : Bool) : Synthesizer := ⟨.empty, validates⟩

/-- Read a function, once for every source. -/
def compile (synthesizer : Synthesizer) (source : String) :
    Except Script.SyntaxError RenderFunction × Synthesizer :=
  let ((result, _), cache) :=
    synthesizer.cache.getOrBuild fingerprint source fun _ => RenderFunction.compile source
  (result, { synthesizer with cache })

/-- A function that produces a text as it stands. -/
def literal (synthesizer : Synthesizer) (text : String) :
    Except Script.SyntaxError RenderFunction × Synthesizer :=
  let (function, arena) := Script.Arena.empty.pushLiteralFunction text
  synthesizer.compile (arena.print function)

/-- The function in an arena, read again and accepted for an instance, or
    nothing if it is of no use. -/
def synthesize (synthesizer : Synthesizer) (engine : Engine) (arena : Script.Arena)
    (function : Script.Id) (inst : Instance) : Option RenderFunction × Synthesizer :=
  match synthesizer.compile (arena.print function) with
  | (.error _, synthesizer) => (none, synthesizer)
  | (.ok function, synthesizer) =>
    let accepted := !synthesizer.validates || (engine.validate inst function).toBool
    (if accepted then some function else none, synthesizer)

/-- How many functions were read. -/
def size (synthesizer : Synthesizer) : Nat := synthesizer.cache.size

end Synthesizer

end RenderFold
