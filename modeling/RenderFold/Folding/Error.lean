import RenderFold.Error

/-!
# Folding Errors

What can stop a folding. A part of a tree that cannot be compared or folded
is no error, it just stays as it is. What remains is a component that cannot
be rendered at all, code of a component that fails, and a walk that is not
driven as it should be.

## Main definitions

* `FoldError`: What stops a folding, its name and wording.
* `FoldError.category`: Who has to mend it.
-/

namespace RenderFold

/-- What stops a folding. -/
inductive FoldError where
  /-- A component cannot be rendered. -/
  | render (error : RenderError)
  /-- The walk was to go on while it waits for something. -/
  | notResumed
  /-- What was handed in is not what the walk waits for. -/
  | resumeMismatch
  /-- The result was asked for before the walk was over. -/
  | incomplete
  /-- The two roots are not uses of one component. -/
  | rootNotComponent
  deriving DecidableEq, Inhabited

/-- Who has to mend a fault: whoever set up the component, whoever wrote the
    code that it runs, or whoever drives the walk. -/
inductive FoldError.Category where
  | configuration
  | userCode
  | usage
  deriving DecidableEq, Inhabited

/-- The name of a category. -/
def FoldError.Category.name : Category → String
  | .configuration => "Configuration"
  | .userCode => "UserCode"
  | .usage => "Usage"

namespace FoldError

/-- The name of the kind of folding error. -/
def name : FoldError → String
  | .render error => error.name
  | .notResumed => "NotResumed"
  | .resumeMismatch => "ResumeMismatch"
  | .incomplete => "Incomplete"
  | .rootNotComponent => "RootNotComponent"

/-- The wording of a folding error. -/
def message : FoldError → String
  | .render error => error.message
  | .notResumed => "traversal advanced while a suspension is outstanding"
  | .resumeMismatch => "resumed value does not match the outstanding suspension"
  | .incomplete => "traversal has not finished"
  | .rootNotComponent => "the root node pair is not a matching component"

/-- Who has to mend it. -/
def category : FoldError → Category
  | .render (.missingRender _) => .configuration
  | .render (.missingCompiler _) => .configuration
  | .render _ => .userCode
  | _ => .usage

end FoldError

end RenderFold
