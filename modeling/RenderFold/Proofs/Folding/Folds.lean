import RenderFold.Folding.Frame
import RenderFold.Proofs.Html.Written
import RenderFold.Text.Blank

/-!
# Folding, Stated

Which pairs of nodes fold, and into what, stated without a walk. A pair folds
if both sides are nodes of one kind, what they say themselves is the same,
and all pairs below them fold. What it folds into is the markup of the static
side.

The static side is what is kept, so the markup a pair folds into is written
by the static side alone. The dynamic side is only compared. It has the same
markup, up to one thing that is not compared: blanks at either end of markup
without children.

## Main definitions

* `Settled`: What an async component resolved to in both passes.
* `Folds`: The pairs that fold, the resolutions it takes and the markup.

## Theorems

* `Folds.append`: Neighbours that fold.
* `Folds.written_static`: The markup is that of the static side.
* `Folds.written_trimmed`: Both sides have the same markup but for blanks.
-/

namespace RenderFold

/-- Whether two resolutions are of the same kind. -/
def Resolution.isLike : Resolution → Resolution → Bool
  | .component _, .component _ => true
  | .view _, .view _ => true
  | .views _, .views _ => true
  | _, _ => false

/-- What an async component resolved to in both passes. -/
structure Settled where
  factories : Twin FactoryId
  resolutions : Twin Resolution
  deriving Inhabited

namespace Settled

/-- Whether both passes resolved to the same kind of thing. -/
def isSymmetric (settled : Settled) : Bool :=
  settled.resolutions.static.isLike settled.resolutions.dynamic

/-- The answer on the static side. -/
def static (settled : Settled) : Answer :=
  ⟨settled.factories.static,
    if settled.isSymmetric then some settled.resolutions.static else none⟩

/-- The answer on the dynamic side. -/
def dynamic (settled : Settled) : Answer :=
  ⟨settled.factories.dynamic,
    if settled.isSymmetric then some settled.resolutions.dynamic else none⟩

theorem static_of_differ {factories : Twin FactoryId} {resolutions : Twin Resolution}
    (h : resolutions.static.isLike resolutions.dynamic = false) :
    static ⟨factories, resolutions⟩ = ⟨factories.static, none⟩ := by
  simp only [static, isSymmetric, h, Bool.false_eq_true, if_false]

theorem dynamic_of_differ {factories : Twin FactoryId} {resolutions : Twin Resolution}
    (h : resolutions.static.isLike resolutions.dynamic = false) :
    dynamic ⟨factories, resolutions⟩ = ⟨factories.dynamic, none⟩ := by
  simp only [dynamic, isSymmetric, h, Bool.false_eq_true, if_false]

end Settled

namespace Twin

theorem zipWith_static {α : Type} {as bs : List α} (h : as.length = bs.length) :
    (as.zipWith Twin.mk bs).map (·.static) = as := by
  induction as generalizing bs with
  | nil => rfl
  | cons a as ih =>
      cases bs with
      | nil => cases h
      | cons b bs => rw [List.zipWith_cons_cons, List.map_cons, ih (Nat.succ.inj h)]

theorem zipWith_dynamic {α : Type} {as bs : List α} (h : as.length = bs.length) :
    (as.zipWith Twin.mk bs).map (·.dynamic) = bs := by
  induction as generalizing bs with
  | nil => exact (List.eq_nil_of_length_eq_zero h.symm).symm
  | cons a as ih =>
      cases bs with
      | nil => cases h
      | cons b bs => rw [List.zipWith_cons_cons, List.map_cons, ih (Nat.succ.inj h)]

end Twin

/-- The context of the elements that two instances render. -/
def Twin.within (active : Option (Twin Instance)) : Twin TagContext :=
  ⟨.within (active.map (·.static)), .within (active.map (·.dynamic))⟩

/-- Pairs of nodes that fold into markup. Their static sides come from the
    render function of the static instance of `active` and their dynamic
    sides from that of the dynamic one. Comments fold if `comments` says
    so. -/
inductive Folds (engine : Engine) (functions : Component → Option RenderFunction)
    (comments : Bool) :
    Option (Twin Instance) → Twin TagContext → List (Twin View) → List Settled → String → Prop where
  | nil {active context} : Folds engine functions comments active context [] [] ""
  | text {active context content raw content' raw' rest answers markup html}
      (hstatic : (View.text content raw).textMarkup? = some markup)
      (hdynamic : (View.text content' raw').textMarkup? = some markup)
      (hrest : Folds engine functions comments active context rest answers html) :
      Folds engine functions comments active context
        (⟨.text content raw, .text content' raw'⟩ :: rest) answers (markup ++ html)
  | comment {active context content rest answers html} (hcomments : comments = true)
      (hrest : Folds engine functions comments active context rest answers html) :
      Folds engine functions comments active context (⟨.comment content, .comment content⟩ :: rest)
        answers ("<!--" ++ content ++ "-->" ++ html)
  | childless {active context opening closing opening' closing' rest answers html}
      (htrim : Text.trim (opening ++ closing) = Text.trim (opening' ++ closing'))
      (hrest : Folds engine functions comments active context rest answers html) :
      Folds engine functions comments active context
        (⟨.fragment opening closing [], .fragment opening' closing' []⟩ :: rest) answers
        (opening ++ closing ++ html)
  | fragment {active context opening closing children children' rest inner answers content html}
      (hsome : children ≠ []) (hlength : children.length = children'.length)
      (hchildren : Folds engine functions comments active (.within active)
        (children.zipWith Twin.mk children') inner content)
      (hrest : Folds engine functions comments active context rest answers html) :
      Folds engine functions comments active context
        (⟨.fragment opening closing children, .fragment opening closing children'⟩ :: rest)
        (inner ++ answers) (opening ++ content ++ closing ++ html)
  | void {active context tag data children data' children' rest answers html start}
      (hend : Markup.endTag? tag = none)
      (hstart : engine.registry.startTag tag data context.static = start)
      (hstart' : engine.registry.startTag tag data' context.dynamic = start)
      (hrest : Folds engine functions comments active context rest answers html) :
      Folds engine functions comments active context
        (⟨.element tag data children, .element tag data' children'⟩ :: rest) answers
        (start ++ html)
  | content {active context tag data children data' children' rest answers html start closing
        content}
      (hend : Markup.endTag? tag = some closing)
      (hstart : engine.registry.startTag tag data context.static = start)
      (hstart' : engine.registry.startTag tag data' context.dynamic = start)
      (hcontent : data.content? = some content) (hcontent' : data'.content? = some content)
      (hrest : Folds engine functions comments active context rest answers html) :
      Folds engine functions comments active context
        (⟨.element tag data children, .element tag data' children'⟩ :: rest) answers
        (start ++ content ++ closing ++ html)
  | element {active context tag data children data' children' rest inner answers content html
        start closing}
      (hend : Markup.endTag? tag = some closing)
      (hstart : engine.registry.startTag tag data context.static = start)
      (hstart' : engine.registry.startTag tag data' context.dynamic = start)
      (hcontent : data.content? = none) (hcontent' : data'.content? = none)
      (hlength : children.length = children'.length)
      (hchildren : Folds engine functions comments active (.within active)
        (children.zipWith Twin.mk children') inner content)
      (hrest : Folds engine functions comments active context rest answers html) :
      Folds engine functions comments active context
        (⟨.element tag data children, .element tag data' children'⟩ :: rest) (inner ++ answers)
        (start ++ content ++ closing ++ html)
  | component {active context id data id' data' instances roots rest inner answers content html}
      (hname : (engine.components id).name = (engine.components id').name)
      (hstatic : engine.rendering? functions .static (active.map (·.static))
        (engine.components id) data = some (instances.static, roots.static))
      (hdynamic : engine.rendering? functions .dynamic (active.map (·.dynamic))
        (engine.components id') data' = some (instances.dynamic, roots.dynamic))
      (hinner : Folds engine functions comments (some instances)
        ⟨context.static.nest data (engine.components id).scopeId,
          context.dynamic.nest data' (engine.components id').scopeId⟩ [roots] inner content)
      (hrest : Folds engine functions comments active context rest answers html) :
      Folds engine functions comments active context
        (⟨.component id data, .component id' data'⟩ :: rest) (inner ++ answers) (content ++ html)
  | deferredComponent {active context factory data id factory' data' id' instances roots rest inner
        answers content html}
      (hname : (engine.components id).name = (engine.components id').name)
      (hstatic : engine.rendering? functions .static (active.map (·.static))
        (engine.components id) data = some (instances.static, roots.static))
      (hdynamic : engine.rendering? functions .dynamic (active.map (·.dynamic))
        (engine.components id') data' = some (instances.dynamic, roots.dynamic))
      (hinner : Folds engine functions comments (some instances)
        ⟨context.static.nest data (engine.components id).scopeId,
          context.dynamic.nest data' (engine.components id').scopeId⟩ [roots] inner content)
      (hrest : Folds engine functions comments active context rest answers html) :
      Folds engine functions comments active context
        (⟨.deferred factory data, .deferred factory' data'⟩ :: rest)
        (⟨⟨factory, factory'⟩, ⟨.component id, .component id'⟩⟩ :: inner ++ answers)
        (content ++ html)
  | deferredView {active context factory data factory' data' views rest inner answers content html}
      (hinner : Folds engine functions comments active context [views] inner content)
      (hrest : Folds engine functions comments active context rest answers html) :
      Folds engine functions comments active context
        (⟨.deferred factory data, .deferred factory' data'⟩ :: rest)
        (⟨⟨factory, factory'⟩, ⟨.view views.static, .view views.dynamic⟩⟩ :: inner ++ answers)
        (content ++ html)
  | deferredViews {active context factory data views factory' data' views' rest inner answers
        content html}
      (hlength : views.length = views'.length)
      (hinner : Folds engine functions comments active context (views.zipWith Twin.mk views')
        inner content)
      (hrest : Folds engine functions comments active context rest answers html) :
      Folds engine functions comments active context
        (⟨.deferred factory data, .deferred factory' data'⟩ :: rest)
        (⟨⟨factory, factory'⟩, ⟨.views views, .views views'⟩⟩ :: inner ++ answers)
        (content ++ html)
  | differing {active context factory data factory' data' resolutions rest answers html}
      (hdiffer : resolutions.static.isLike resolutions.dynamic = false)
      (hrest : Folds engine functions comments active context rest answers html) :
      Folds engine functions comments active context
        (⟨.deferred factory data, .deferred factory' data'⟩ :: rest)
        (⟨⟨factory, factory'⟩, resolutions⟩ :: answers) ("<!---->" ++ html)

namespace Folds

variable {engine : Engine} {functions : Component → Option RenderFunction} {comments : Bool}
  {active : Option (Twin Instance)} {context : Twin TagContext} {views views' : List (Twin View)}
  {answers answers' : List Settled} {html html' : String}

/-- Pairs that fold, beside pairs that fold. -/
theorem append (h : Folds engine functions comments active context views answers html)
    (h' : Folds engine functions comments active context views' answers' html') :
    Folds engine functions comments active context (views ++ views') (answers ++ answers')
      (html ++ html') := by
  induction h with
  | nil => rwa [String.empty_append]
  | text hstatic hdynamic hrest ih =>
      rw [String.append_assoc]
      exact .text hstatic hdynamic (ih h')
  | comment hcomments hrest ih =>
      rw [String.append_assoc]
      exact .comment hcomments (ih h')
  | childless htrim hrest ih =>
      rw [String.append_assoc]
      exact .childless htrim (ih h')
  | fragment hsome hlength hchildren hrest ihchildren ih =>
      rw [String.append_assoc, List.append_assoc]
      exact .fragment hsome hlength hchildren (ih h')
  | void hend hstart hstart' hrest ih =>
      rw [String.append_assoc]
      exact .void hend hstart hstart' (ih h')
  | content hend hstart hstart' hcontent hcontent' hrest ih =>
      rw [String.append_assoc]
      exact .content hend hstart hstart' hcontent hcontent' (ih h')
  | element hend hstart hstart' hcontent hcontent' hlength hchildren hrest ihchildren ih =>
      rw [String.append_assoc, List.append_assoc]
      exact .element hend hstart hstart' hcontent hcontent' hlength hchildren (ih h')
  | component hname hstatic hdynamic hinner hrest ihinner ih =>
      rw [String.append_assoc, List.append_assoc]
      exact .component hname hstatic hdynamic hinner (ih h')
  | deferredComponent hname hstatic hdynamic hinner hrest ihinner ih =>
      rw [String.append_assoc, List.append_assoc]
      exact .deferredComponent hname hstatic hdynamic hinner (ih h')
  | deferredView hinner hrest ihinner ih =>
      rw [String.append_assoc, List.append_assoc]
      exact .deferredView hinner (ih h')
  | deferredViews hlength hinner hrest ihinner ih =>
      rw [String.append_assoc, List.append_assoc]
      exact .deferredViews hlength hinner (ih h')
  | differing hdiffer hrest ih =>
      rw [String.append_assoc]
      exact .differing hdiffer (ih h')

/-- The static side of what folds writes what it folds into. -/
theorem written_static (h : Folds engine functions comments active context views answers html) :
    ∃ steps, Written engine functions .static id (active.map (·.static)) context.static
      (views.map (·.static)) (answers.map Settled.static) html steps := by
  -- By induction, rule by rule: each has its counterpart on the static side, with
  -- the lists of children taken apart.
  induction h with
  | nil => exact ⟨0, .nil⟩
  | text hstatic hdynamic hrest ih =>
      obtain ⟨steps, ih⟩ := ih
      exact ⟨_, .text hstatic ih⟩
  | comment hcomments hrest ih =>
      obtain ⟨steps, ih⟩ := ih
      exact ⟨_, .comment ih⟩
  | childless htrim hrest ih =>
      obtain ⟨steps, ih⟩ := ih
      exact ⟨_, .alone rfl ih⟩
  | fragment hsome hlength hchildren hrest ihchildren ih =>
      obtain ⟨cost, ihchildren⟩ := ihchildren
      obtain ⟨steps, ih⟩ := ih
      rw [Twin.zipWith_static hlength] at ihchildren
      rw [List.map_append]
      exact ⟨_, .around hsome ihchildren ih⟩
  | void hend hstart hstart' hrest ih =>
      obtain ⟨steps, ih⟩ := ih
      exact ⟨_, .void hend hstart ih⟩
  | content hend hstart hstart' hcontent hcontent' hrest ih =>
      obtain ⟨steps, ih⟩ := ih
      exact ⟨_, .content hend hstart hcontent ih⟩
  | element hend hstart hstart' hcontent hcontent' hlength hchildren hrest ihchildren ih =>
      obtain ⟨cost, ihchildren⟩ := ihchildren
      obtain ⟨steps, ih⟩ := ih
      rw [Twin.zipWith_static hlength] at ihchildren
      rw [List.map_append]
      exact ⟨_, .element hend hstart hcontent ihchildren ih⟩
  | component hname hstatic hdynamic hinner hrest ihinner ih =>
      obtain ⟨cost, ihinner⟩ := ihinner
      obtain ⟨steps, ih⟩ := ih
      rw [List.map_append]
      exact ⟨_, .component hstatic ihinner ih⟩
  | deferredComponent hname hstatic hdynamic hinner hrest ihinner ih =>
      obtain ⟨cost, ihinner⟩ := ihinner
      obtain ⟨steps, ih⟩ := ih
      rw [List.map_append]
      exact ⟨_, .deferredComponent hstatic ihinner ih⟩
  | deferredView hinner hrest ihinner ih =>
      obtain ⟨cost, ihinner⟩ := ihinner
      obtain ⟨steps, ih⟩ := ih
      rw [List.map_append]
      exact ⟨_, .deferredView ihinner ih⟩
  | deferredViews hlength hinner hrest ihinner ih =>
      obtain ⟨cost, ihinner⟩ := ihinner
      obtain ⟨steps, ih⟩ := ih
      rw [Twin.zipWith_static hlength] at ihinner
      rw [List.map_append]
      exact ⟨_, .deferredViews ihinner ih⟩
  | differing hdiffer hrest ih =>
      obtain ⟨steps, ih⟩ := ih
      rw [List.map_cons, List.map_cons, Settled.static_of_differ hdiffer]
      exact ⟨_, .differing ih⟩

/-- Both sides of what folds have the same markup, if blanks at either end of
    markup without children are left out. -/
theorem written_trimmed (h : Folds engine functions comments active context views answers html) :
    ∃ text steps steps', Written engine functions .static Text.trim (active.map (·.static))
        context.static (views.map (·.static)) (answers.map Settled.static) text steps ∧
      Written engine functions .dynamic Text.trim (active.map (·.dynamic)) context.dynamic
        (views.map (·.dynamic)) (answers.map Settled.dynamic) text steps' := by
  induction h with
  | nil => exact ⟨_, _, _, .nil, .nil⟩
  | text hstatic hdynamic hrest ih =>
      obtain ⟨text, steps, steps', ih, ih'⟩ := ih
      exact ⟨_, _, _, .text hstatic ih, .text hdynamic ih'⟩
  | comment hcomments hrest ih =>
      obtain ⟨text, steps, steps', ih, ih'⟩ := ih
      exact ⟨_, _, _, .comment ih, .comment ih'⟩
  -- The one place where the sides may differ, in blanks that are left out here.
  | childless htrim hrest ih =>
      obtain ⟨text, steps, steps', ih, ih'⟩ := ih
      exact ⟨_, _, _, .alone rfl ih, .alone htrim.symm ih'⟩
  | @fragment _ _ _ _ children children' _ _ _ _ _ hsome hlength hchildren hrest ihchildren ih =>
      obtain ⟨inner, cost, cost', ihchildren, ihchildren'⟩ := ihchildren
      obtain ⟨text, steps, steps', ih, ih'⟩ := ih
      rw [Twin.zipWith_static hlength] at ihchildren
      rw [Twin.zipWith_dynamic hlength] at ihchildren'
      -- The other side has as many children, so it has some as well.
      have hsome' : children' ≠ [] := fun hnil => hsome (by simpa [hnil] using hlength)
      simp only [List.map_append]
      exact ⟨_, _, _, .around hsome ihchildren ih, .around hsome' ihchildren' ih'⟩
  | void hend hstart hstart' hrest ih =>
      obtain ⟨text, steps, steps', ih, ih'⟩ := ih
      exact ⟨_, _, _, .void hend hstart ih, .void hend hstart' ih'⟩
  | content hend hstart hstart' hcontent hcontent' hrest ih =>
      obtain ⟨text, steps, steps', ih, ih'⟩ := ih
      exact ⟨_, _, _, .content hend hstart hcontent ih, .content hend hstart' hcontent' ih'⟩
  | element hend hstart hstart' hcontent hcontent' hlength hchildren hrest ihchildren ih =>
      obtain ⟨inner, cost, cost', ihchildren, ihchildren'⟩ := ihchildren
      obtain ⟨text, steps, steps', ih, ih'⟩ := ih
      rw [Twin.zipWith_static hlength] at ihchildren
      rw [Twin.zipWith_dynamic hlength] at ihchildren'
      simp only [List.map_append]
      exact ⟨_, _, _, .element hend hstart hcontent ihchildren ih,
        .element hend hstart' hcontent' ihchildren' ih'⟩
  | component hname hstatic hdynamic hinner hrest ihinner ih =>
      obtain ⟨inner, cost, cost', ihinner, ihinner'⟩ := ihinner
      obtain ⟨text, steps, steps', ih, ih'⟩ := ih
      simp only [List.map_append]
      exact ⟨_, _, _, .component hstatic ihinner ih, .component hdynamic ihinner' ih'⟩
  | deferredComponent hname hstatic hdynamic hinner hrest ihinner ih =>
      obtain ⟨inner, cost, cost', ihinner, ihinner'⟩ := ihinner
      obtain ⟨text, steps, steps', ih, ih'⟩ := ih
      simp only [List.map_append]
      exact ⟨_, _, _, .deferredComponent hstatic ihinner ih,
        .deferredComponent hdynamic ihinner' ih'⟩
  | deferredView hinner hrest ihinner ih =>
      obtain ⟨inner, cost, cost', ihinner, ihinner'⟩ := ihinner
      obtain ⟨text, steps, steps', ih, ih'⟩ := ih
      simp only [List.map_append]
      exact ⟨_, _, _, .deferredView ihinner ih, .deferredView ihinner' ih'⟩
  | deferredViews hlength hinner hrest ihinner ih =>
      obtain ⟨inner, cost, cost', ihinner, ihinner'⟩ := ihinner
      obtain ⟨text, steps, steps', ih, ih'⟩ := ih
      rw [Twin.zipWith_static hlength] at ihinner
      rw [Twin.zipWith_dynamic hlength] at ihinner'
      simp only [List.map_append]
      exact ⟨_, _, _, .deferredViews ihinner ih, .deferredViews ihinner' ih'⟩
  | differing hdiffer hrest ih =>
      obtain ⟨text, steps, steps', ih, ih'⟩ := ih
      -- Answers of different kinds are none on either side.
      simp only [List.map_cons, Settled.static_of_differ hdiffer,
        Settled.dynamic_of_differ hdiffer]
      exact ⟨_, _, _, .differing ih, .differing ih'⟩

end Folds

end RenderFold
