import RenderFold.Script.Token

/-!
# Rendering Errors

What can go wrong between the source of a render function and the markup it
produces.

## Main definitions

* `TypeFault`: Values of the wrong kind, and their wording.
* `RenderError`: Everything that stops a rendering, its name and wording.
-/

namespace RenderFold

/-- A value or an expression of the wrong kind. -/
inductive TypeFault where
  /-- The first argument of an element is not a text. -/
  | tagName
  /-- The second argument of a list is not a function. -/
  | callback
  /-- A property of null was asked for. -/
  | nullProperty (name : String)
  /-- The data of a node is not an object. -/
  | dataShape
  /-- A part of the data of a node is not an object. -/
  | partShape (key : String)
  /-- The directives of a node are not a list. -/
  | directivesShape
  /-- A directive has no name. -/
  | directiveName
  /-- What is to be run is not a function. -/
  | notAFunction
  /-- An expression stands where a statement should. -/
  | notAStatement
  /-- A statement stands where an expression should. -/
  | notAnExpression
  /-- The engine will not run the function, for a reason of its own. -/
  | refused (reason : String)
  deriving DecidableEq, Inhabited

/-- The wording of a type fault. -/
def TypeFault.message : TypeFault → String
  | .tagName => "`_c` expects a tag name"
  | .callback => "`_l` expects a render callback"
  | .nullProperty name => "cannot read properties of null (reading '" ++ name ++ "')"
  | .dataShape => "node data must be an object"
  | .partShape key => "`" ++ key ++ "` must be an object"
  | .directivesShape => "`directives` must be an array"
  | .directiveName => "directive binding needs a `name`"
  | .notAFunction => "render function root is not a function"
  | .notAStatement => "unsupported statement in render function"
  | .notAnExpression => "statement in expression position"
  | .refused reason => reason

/-- What stops a rendering. -/
inductive RenderError where
  /-- The source of a render function cannot be read. -/
  | parse (error : Script.SyntaxError)
  /-- Something was called that is not a function. -/
  | unknownFunction (name : String)
  | typeError (fault : TypeFault)
  /-- A render function returned something other than one node. -/
  | notANode (component : String)
  /-- A render function ended without returning. -/
  | noReturn (component : String)
  /-- A prefetch hook failed. -/
  | prefetch (component : String) (message : String)
  /-- An async component reported a failure. -/
  | rejected (message : String)
  /-- An async component will never report. -/
  | cancelled
  /-- A template cannot be compiled. -/
  | templateCompile (component : String) (message : String)
  /-- There is a template and nothing to compile it. -/
  | missingCompiler (component : String)
  /-- There is neither a render function nor a template. -/
  | missingRender (component : String)
  /-- The bound on the work of one run was reached. -/
  | unfinished
  deriving DecidableEq, Inhabited

/-- The name of the kind of rendering error. -/
def RenderError.name : RenderError → String
  | .parse _ => "Parse"
  | .unknownFunction _ => "UnknownFunction"
  | .typeError _ => "TypeError"
  | .notANode _ => "NotANode"
  | .noReturn _ => "NoReturn"
  | .prefetch .. => "Prefetch"
  | .rejected _ => "AsyncRejected"
  | .cancelled => "AsyncCancelled"
  | .templateCompile .. => "TemplateCompile"
  | .missingCompiler _ => "MissingCompiler"
  | .missingRender _ => "MissingRender"
  | .unfinished => "Unfinished"

/-- The wording of a rendering error. -/
def RenderError.message : RenderError → String
  | .parse error => "failed to parse render function: " ++ error.report
  | .unknownFunction name => "`" ++ name ++ "` is not a function"
  | .typeError fault => "type error: " ++ fault.message
  | .notANode component => "render function of `" ++ component ++ "` did not return a node"
  | .noReturn component => "render function of `" ++ component ++ "` returned nothing"
  | .prefetch component message =>
    "prefetch hook of `" ++ component ++ "` failed: " ++ message
  | .rejected message => "async component rejected: " ++ message
  | .cancelled => "async component resolution was cancelled"
  | .templateCompile component message =>
    "failed to compile template of `" ++ component ++ "`: " ++ message
  | .missingCompiler component =>
    "`" ++ component ++ "` has a template but no template compiler is configured"
  | .missingRender component =>
    "component `" ++ component ++ "` has neither a render function nor a template"
  | .unfinished => "rendering did not finish"

end RenderFold
