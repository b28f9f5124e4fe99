import RenderFold.Component.Basic

/-!
# Async Components

A factory stands for a component that is not there yet. It may be resolved
from the start, or it has to be called and reports after some rounds of
waiting, possibly something else at every call. The first success is kept
and shared, so once a factory has resolved it is not called again by anyone
who asks after that.

## Main definitions

* `Resolution`: What a factory resolves to.
* `Factory`, `Report`: A factory and what a call of it reports.
* `FactoryState`: How often it was called and what it resolved to.
-/

namespace RenderFold

/-- What a factory resolves to. -/
inductive Resolution where
  | component (id : ComponentId)
  | view (view : View)
  | views (views : List View)
  deriving Inhabited

/-- What a call of a factory reports: a resolution, a failure, or nothing,
    because whoever was to report gave up. -/
inductive Report where
  | resolved (resolution : Resolution)
  | failed (message : String)
  | dropped
  deriving Inhabited

/-- The outcome of a report. -/
def Report.outcome : Report → Except RenderError Resolution
  | .resolved resolution => .ok resolution
  | .failed message => .error (.rejected message)
  | .dropped => .error .cancelled

/-- A factory: resolved from the start, or to be called. The calls are
    numbered from zero. -/
inductive Factory where
  | resolved (resolution : Resolution)
  | called (report : Nat → Delayed Report)

instance : Inhabited Factory := ⟨.called fun _ => .now .dropped⟩

/-- How often a factory was called and what it resolved to. -/
structure FactoryState where
  calls : Nat
  cached : Option Resolution
  deriving Inhabited

/-- The state of a factory that nobody has asked yet. -/
def Factory.initial : Factory → FactoryState
  | .resolved resolution => ⟨0, some resolution⟩
  | .called _ => ⟨0, none⟩

end RenderFold
