import RenderFold.Manifest.Views

/-!
# Manifests

A manifest lists components and async components in order. It takes the
place of the program around an engine: what hooks and async components would
have to be asked for is written down in it beforehand.

A hook has a result, a failure, or the scope it is told put under some key,
and it may take some rounds to get there; it may also be different in the
two passes. An async component has a list of reports, one for each call, the
last of which stands for all further calls. Directives and modules of a
registry are described by what they do to the data and to the tag.

## Main definitions

* `Manifest.hook`, `Manifest.factory`, `Manifest.component`: Reading one
  definition.
* `Manifest.catalog`: Reading all of them.
* `Manifest.registry`: Reading a registry.
-/

namespace RenderFold

open Reading (field text nat list fields listOf fieldsOf optional orElse)

namespace Manifest

/-- A hook that gives the same in both passes. -/
def plainHook (value : Value) : Reading Hook := do
  let delay ← orElse 0 nat (field value "delay")
  match value.field? "ok", value.field? "err", value.field? "echo" with
  | some result, _, _ => return fun _ => ⟨delay, .ok result⟩
  | _, some message, _ =>
    let message ← text message
    return fun _ => ⟨delay, .error message⟩
  | _, _, some key =>
    let key ← text key
    return fun request => ⟨delay, .ok (.object [(key, .object request.scope)])⟩
  | _, _, _ => Reading.expected "a hook"

/-- A hook, or one for each pass. -/
def hook (value : Value) : Reading Hook := do
  match value.field? "static", value.field? "dynamic" with
  | some static, some dynamic =>
    let static ← plainHook static
    let dynamic ← plainHook dynamic
    return fun request => match request.pass with
      | .static => static request
      | .dynamic => dynamic request
  | _, _ => plainHook value

/-- What a call of an async component reports. -/
def report (catalog : Catalog) (value : Value) : Reading Report := do
  match value.field? "err", value.field? "drop" with
  | some message, _ => return .failed (← text message)
  | _, some _ => return .dropped
  | _, _ => return .resolved (← catalog.resolution value)

/-- An async component that gives one report for each call. The last report
    stands for all further calls. -/
def reporting (delay : Nat) (reports : List Report) : Factory :=
  .called fun call => ⟨delay, (reports[min call (reports.length - 1)]?).getD .dropped⟩

/-- An async component: resolved, with a callback that reports at once, or
    with work that takes some rounds. -/
def factory (catalog : Catalog) (value : Value) : Reading Factory := do
  let results := field value "results"
  match ← text (field value "factory") with
  | "resolved" =>
    match ← listOf catalog.resolution results with
    | resolution :: _ => return .resolved resolution
    | [] => Reading.expected "a resolution"
  | "callback" => return reporting 0 (← listOf (report catalog) results)
  | _ => return reporting (← orElse 0 nat (field value "delay")) (← listOf (report catalog) results)

/-- A component. It has the name it is defined under unless it says
    otherwise. -/
def component (catalog : Catalog) (id : String) (value : Value) : Reading Component := do
  let plain ← fieldsOf catalog.readComponent (field value "components")
  let deferred ← fieldsOf catalog.readFactory (field value "async")
  let draft : Draft :=
    { name := ← orElse id text (field value "name")
      render := ← optional text (field value "render")
      template := ← optional text (field value "template")
      data := field value "data"
      prefetch := ← listOf hook (field value "prefetch")
      components := Fields.overlay [] (plain.map (fun entry => (entry.1, .component entry.2))
        ++ deferred.map (fun entry => (entry.1, .deferred entry.2)))
      styles := ← fieldsOf text (field value "styles")
      scopeId := ← optional text (field value "scopeId") }
  Reading.ofRender draft.build

/-- Add a definition. -/
def define (catalog : Catalog) (value : Value) : Reading Catalog := do
  let id ← text (field value "id")
  if (value.field? "factory").isSome then
    return catalog.addFactory id (← factory catalog value)
  else
    return catalog.addComponent id (← component catalog id value)

/-- All definitions, in order. -/
def catalog (value : Value) : Reading Catalog := do
  (← list value).foldlM define .empty

/-- A directive that puts the value of its binding into some part of the data
    or, without one, takes the attributes away. -/
def directive (kind key : String) : Reading Directive :=
  match kind with
  | "attr" => .ok fun binding data =>
    { data with attrs := Fields.insert data.attrs key binding.value }
  | "domProp" => .ok fun binding data =>
    { data with domProps := Fields.insert data.domProps key binding.value }
  | "class" => .ok fun binding data => { data with dynamicClass := some binding.value }
  | "style" => .ok fun binding data => { data with dynamicStyle := some binding.value }
  | "clear" => .ok fun _ data => { data with attrs := [] }
  | _ => Reading.expected "a directive"

/-- A module that adds a text, for all nodes or for those with some
    attribute, or else the number of directives. -/
def module (attr content : Option String) : TagModule :=
  match attr, content with
  | some attr, some content => fun data =>
    if Fields.contains data.attrs attr then some content else none
  | none, some content => fun _ => some content
  | _, none => fun data => some (" n=" ++ toString data.directives.length)

/-- A registry: the standard one or an empty one, with directives and modules
    added. -/
def registry (value : Value) : Reading Registry := do
  let start : Registry := if (field value "empty").truthy then .empty else .standard
  let start ← (← fields (field value "directives")).foldlM (fun registry (name, value) => do
    match value with
    | .array [.str kind, .str key] => return registry.directive name (← directive kind key)
    | _ => Reading.expected "a directive") start
  (← list (field value "modules")).foldlM (fun registry value => do
    let attr ← optional text (field value "attr")
    let content ← optional text (field value "text")
    return registry.module (← text (field value "name")) (module attr content)) start

end Manifest

end RenderFold
