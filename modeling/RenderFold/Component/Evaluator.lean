import RenderFold.Component.Datum
import RenderFold.Script.Helper

/-!
# Evaluator

Runs a render function. It sees exactly three things: the helpers, its own
variables, and the scope of the instance it runs for. A name that is none of
these reads as null, and only helpers and functions of its own can be
called.

One layer of an expression is evaluated by `step`, which is told how to
evaluate the parts; `eval` ties the knot, to a bounded depth, since nothing
in the language keeps a function from calling itself for ever.

## Main definitions

* `Setting`: What a run can see besides its variables.
* `Eval`: A computation that may fail and that hands out serial numbers.
* `Evaluator.step`, `Evaluator.eval`: Expressions.
* `Evaluator.exec`: Statements.
* `Evaluator.run`: A whole render function.
-/

namespace RenderFold

open Script (Tree Node)

/-- What a run can see besides its variables. -/
structure Setting where
  component : String
  scope : Fields Value
  entries : Fields Entry
  globals : Fields Entry
  deriving Inhabited

/-- A computation that may fail and that hands out serial numbers. -/
abbrev Eval := StateT Nat (Except RenderError)

/-- The variables of one block or call. -/
abbrev Variables := Fields Datum

/-- The variables in sight, innermost first. -/
abbrev Env := List Variables

namespace Env

/-- The value of a variable. -/
def get? : Env → String → Option Datum
  | [], _ => none
  | locals :: rest, name =>
    match Fields.get? locals name with
    | some datum => some datum
    | none => get? rest name

/-- Give a variable of the innermost block a value. -/
def declare (env : Env) (name : String) (datum : Datum) : Env :=
  match env with
  | [] => [[(name, datum)]]
  | locals :: rest => Fields.insert locals name datum :: rest

end Env

namespace Evaluator

/-- A new serial number. -/
def fresh : Eval Nat := fun next => .ok (next, next + 1)

/-- Fail because of a value of the wrong kind. -/
def wrong {α : Type} (fault : TypeFault) : Eval α := throw (.typeError fault)

/-- A view with its own serial number. -/
def made (view : View) : Eval Datum := return .view (← fresh) view

/-- What a name stands for: a variable, the scope as a whole, a field of the
    scope, or null. -/
def lookup (setting : Setting) (env : Env) (name : String) : Datum :=
  match Env.get? env name with
  | some datum => datum
  | none =>
    if name = "this" then .value (.object setting.scope)
    else .value ((Fields.get? setting.scope name).getD .null)

/-- Call a function. Parameters without an argument are null, and of two
    parameters of one name the later one counts. -/
def invoke (recur : Env → Tree → Eval Datum) (params : List String) (body : Tree) (env : Env)
    (arguments : List Datum) : Eval Datum :=
  let locals := params.zipIdx.foldl
    (fun locals (name, i) => Fields.insert locals name (arguments[i]?.getD .null)) []
  recur (locals :: env) body

/-- A node for a tag: a registered component, with the component's own
    registrations before the global ones, or else an element. -/
def construct (setting : Setting) (tag : String) (data : Option Value) (children : Option Datum) :
    Eval Datum := do
  let data ← match data with
    | some value => liftM (NodeData.ofValue value)
    | none => pure NodeData.empty
  -- A registration of the component's own hides a global one.
  let entry := match Fields.get? setting.entries tag with
    | some entry => some entry
    | none => Fields.get? setting.globals tag
  match entry with
  | some (.component id) => made (.component id data)
  | some (.deferred id) => made (.deferred id data)
  | none =>
    let views := (children.map (Datum.views (Markup.isRawText tag))).getD []
    made (.element tag data views)

/-- Call a function for every item of a list, counting from `i`. -/
def eachItem (call : List Datum → Eval Datum) (i : Nat) : List Datum → Eval (List Datum)
  | [] => return []
  | item :: rest => do
    let first ← call [item, .nat i]
    return first :: (← eachItem call (i + 1) rest)

/-- Call a function for the numbers from `i + 1` on, `count` times. -/
def eachNumber (call : List Datum → Eval Datum) : Nat → Nat → Eval (List Datum)
  | _, 0 => return []
  | i, count + 1 => do
    let first ← call [.nat (i + 1), .nat i]
    return first :: (← eachNumber call (i + 1) count)

/-- Call a function for every field of an object, counting from `i`. -/
def eachField (call : List Datum → Eval Datum) (i : Nat) : Fields Value → Eval (List Datum)
  | [] => return []
  | (name, value) :: rest => do
    let first ← call [.value value, .str name, .nat i]
    return first :: (← eachField call (i + 1) rest)

/-- The results of a function for the parts of a datum: the items of a list,
    the numbers up to a number, the characters of a text, or the fields of an
    object. -/
def each (call : List Datum → Eval Datum) : Datum → Eval (List Datum)
  | .list items => eachItem call 0 items
  | .value (.array items) => eachItem call 0 (items.map .value)
  | .value (.str text) => eachItem call 0 (text.toList.map fun c => .str (String.singleton c))
  | .value (.object fields) => eachField call 0 fields
  | .value v =>
    match v.number? with
    | some x => eachNumber call 0 x.toUInt64.toNat
    | none => return []
  | _ => return []

/-- The text of an optional closing tag. -/
def closing : Option Datum → String
  | none => ""
  | some (.value .null) => ""
  | some datum => datum.text

/-- Call a helper. -/
def callHelper (setting : Setting) (recur : Env → Tree → Eval Datum) (helper : Helper)
    (arguments : List Datum) : Eval Datum :=
  match helper, arguments with
  | .element, .value (.str tag) :: .value (.object fields) :: rest =>
    construct setting tag (some (.object fields)) rest.head?
  | .element, .value (.str tag) :: .value .null :: rest => construct setting tag none rest.head?
  | .element, .value (.str tag) :: rest => construct setting tag none rest.head?
  | .element, _ => wrong .tagName
  | .text, arguments => made (.text ((arguments.head?.map Datum.text).getD "") false)
  | .comment, arguments => made (.comment (closing arguments.head?))
  | .display, arguments => return .str (arguments.head?.getD .null).display
  | .list, subject :: .closure _ params body env :: _ =>
    return .list (← each (invoke recur params body env) subject)
  | .list, _ => wrong .callback
  | .markup, arguments =>
    let children := (arguments[2]?.map (Datum.views false)).getD []
    made (.fragment ((arguments.head?.map Datum.text).getD "") (closing arguments[1]?) children)
  | .escape, arguments => return .str (Markup.escape (arguments.head?.getD .null).display)

/-- The helper that a call calls, unless a variable has taken its name. A
    name that is neither is not a function. -/
def helper? (env : Env) (callee : Tree) : Except RenderError (Option Helper) :=
  match callee with
  | .mk (.ident name) =>
    if (Env.get? env name).isSome then .ok none
    else match Helper.ofName? name with
      | some helper => .ok (some helper)
      | none => .error (.unknownFunction name)
  | _ => .ok none

/-- Call what an expression evaluates to. -/
def call (setting : Setting) (recur : Env → Tree → Eval Datum) (env : Env) (callee : Tree)
    (arguments : List Tree) : Eval Datum := do
  match ← liftM (helper? env callee) with
  | some helper => callHelper setting recur helper (← arguments.mapM (recur env))
  -- The arguments are evaluated after the callee, and only if it can be called.
  | none =>
    match ← recur env callee with
    | .closure _ params body closed =>
      invoke recur params body closed (← arguments.mapM (recur env))
    | _ => throw (.unknownFunction (Script.Printer.expression 0 0 callee))

/-- Add two data: numbers by value, anything else by text. -/
def add (left right : Datum) : Datum :=
  match left, right with
  | .value a, .value b =>
    match a.number?, b.number? with
    | some x, some y => .value (Value.ofFloat (x + y))
    | _, _ => .str (left.text ++ right.text)
  | _, _ => .str (left.text ++ right.text)

/-- Apply an operator. The right side of a conjunction or disjunction is only
    looked at if the left side does not decide. -/
def operate (recur : Env → Tree → Eval Datum) (env : Env) (op : Script.BinaryOp)
    (left right : Tree) : Eval Datum := do
  let first ← recur env left
  -- The left side is evaluated in any case.
  match op with
  | .and => if first.truthy then recur env right else return first
  | .or => if first.truthy then return first else recur env right
  | .strictEq => return .bool (first.strictEq (← recur env right))
  | .strictNotEq => return .bool (!first.strictEq (← recur env right))
  | .add => return add first (← recur env right)

/-- Evaluate the properties of an object in order. -/
def properties (recur : Env → Tree → Eval Datum) (env : Env) (out : Fields Value) :
    List (String × Tree) → Eval (Fields Value)
  | [] => return out
  | (name, t) :: rest => do
    let datum ← recur env t
    properties recur env (Fields.insert out name datum.toValue) rest

/-- Evaluate one layer of an expression. -/
def step (setting : Setting) (recur : Env → Tree → Eval Datum) (env : Env) :
    Node Tree → Eval Datum
  | .str text => return .str text
  | .num bits => return .value (Value.ofFloat (Float.ofBits bits))
  | .bool b => return .bool b
  | .null => return .null
  | .hole => return .null
  | .ident name => return lookup setting env name
  | .member target property => do liftM ((← recur env target).property property)
  | .index target position => do
    let datum ← recur env target
    liftM (datum.part (← recur env position))
  | .call callee arguments => call setting recur env callee arguments
  | .array elements => return .ofItems (← elements.mapM (recur env))
  | .object fields => return .value (.object (← properties recur env [] fields))
  | .not argument => return .bool !(← recur env argument).truthy
  | .binary op left right => operate recur env op left right
  | .conditional test consequent alternate => do
    if (← recur env test).truthy then recur env consequent else recur env alternate
  | .arrow params body => return .closure (← fresh) params body env
  | .function .. | .ret _ | .declare .. | .branch .. | .discard _ => wrong .notAnExpression

/-- Evaluate an expression, going down at most `depth` layers. -/
def eval (setting : Setting) : Nat → Env → Tree → Eval Datum
  | 0, _, _ => throw .unfinished
  | depth + 1, env, t => step setting (eval setting depth) env t.node

/-- How a statement ends: with a result, or going on with its variables. -/
inductive Flow where
  | next (env : Env)
  | returned (datum : Datum)
  deriving Inhabited

mutual

/-- Execute a statement. -/
def exec (evaluate : Env → Tree → Eval Datum) (env : Env) : Tree → Eval Flow
  | .mk node => execNode evaluate env node
termination_by structural t => t

/-- Execute a statement. The variables of a branch are gone after it. -/
def execNode (evaluate : Env → Tree → Eval Datum) (env : Env) : Node Tree → Eval Flow
  | .ret none => return .returned .null
  | .ret (some argument) => return .returned (← evaluate env argument)
  | .declare _ name init => return .next (Env.declare env name (← evaluate env init))
  | .discard argument => do
    let _ ← evaluate env argument
    return .next env
  | .branch test consequent none => do
    if (← evaluate env test).truthy then
      match ← execAll evaluate ([] :: env) consequent with
      | .returned datum => return .returned datum
      | .next _ => return .next env
    else return .next env
  | .branch test consequent (some alternate) => do
    let flow ← if (← evaluate env test).truthy then execAll evaluate ([] :: env) consequent
      else execAll evaluate ([] :: env) alternate
    match flow with
    | .returned datum => return .returned datum
    | .next _ => return .next env
  | _ => wrong .notAStatement
termination_by structural node => node

/-- Execute statements until one of them returns. -/
def execAll (evaluate : Env → Tree → Eval Datum) (env : Env) : List Tree → Eval Flow
  | [] => return .next env
  | t :: rest => do
    match ← exec evaluate env t with
    | .returned datum => return .returned datum
    | .next env => execAll evaluate env rest
termination_by structural ts => ts

end

/-- How deep evaluation may go. -/
def maxDepth : Nat := 1048576

/-- The node that a result amounts to. A list is one if it amounts to one
    child. -/
def rootView (setting : Setting) : Datum → Except RenderError View
  | .view _ root => .ok root
  | .list items =>
    match Datum.itemViews false items with
    | [root] => .ok root
    | _ => .error (.notANode setting.component)
  | _ => .error (.notANode setting.component)

/-- Run a render function. -/
def run (setting : Setting) (function : Tree) : Except RenderError View :=
  match function with
  | .mk (.function _ _ body) => do
    let (flow, _) ← (execAll (eval setting maxDepth) [[]] body).run 0
    match flow with
    | .returned datum => rootView setting datum
    | .next _ => .error (.noReturn setting.component)
  | _ => .error (.typeError .notAFunction)

end Evaluator

end RenderFold
