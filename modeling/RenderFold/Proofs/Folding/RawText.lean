import RenderFold.Component.Evaluator
import RenderFold.Proofs.Folding.Soundness
import RenderFold.Proofs.Html.Serialized

/-!
# Raw Text

The text of some elements is written as it stands. An element of which only
the start tag is known is rewritten into markup around its children, and
there a text is escaped like any other. So the markup of such an element is
kept only if there is nothing in its text to escape.

All other elements keep their markup when they are rewritten.

## Theorems

* `Markup.escape_eq_of_length`: Escaping that adds nothing changes nothing.
* `Written.escaped`: Children, once with their text escaped.
* `Evaluator.markup_written_iff`: When a rewritten element keeps its markup.
-/

namespace RenderFold

namespace Markup

theorem escapeChar_cases (c : Char) :
    escapeChar c = [c] ∨ 1 < (escapeChar c).length := by
  unfold escapeChar
  cases hentity : entity? c with
  | none => exact Or.inl rfl
  | some entity =>
      refine Or.inr ?_
      unfold entity? at hentity
      split at hentity <;> cases hentity <;> decide

/-- Escaping never makes a text shorter, and one of the same length is the
    same. -/
theorem flatMap_escapeChar (text : List Char) :
    text.length ≤ (text.flatMap escapeChar).length ∧
      ((text.flatMap escapeChar).length = text.length → text.flatMap escapeChar = text) := by
  induction text with
  | nil => exact ⟨Nat.le_refl _, fun _ => rfl⟩
  | cons c text ih =>
      obtain ⟨hle, hsame⟩ := ih
      rw [List.flatMap_cons, List.length_append, List.length_cons]
      rcases escapeChar_cases c with hc | hc
      · rw [hc, List.length_singleton, List.singleton_append]
        exact ⟨by omega, fun h => by rw [hsame (by omega)]⟩
      · exact ⟨by omega, fun h => absurd h (by omega)⟩

theorem length_le_escape (text : String) : text.length ≤ (escape text).length := by
  rw [escape, String.length_ofList, ← String.length_toList]
  exact (flatMap_escapeChar text.toList).1

theorem escape_eq_of_length {text : String} (h : (escape text).length = text.length) :
    escape text = text := by
  rw [escape, String.length_ofList, ← String.length_toList] at h
  rw [escape, (flatMap_escapeChar text.toList).2 h, String.ofList_toList]

end Markup

namespace Datum

mutual

theorem valueViews_raw : ∀ plain,
    valueViews true plain = (valueViews false plain).map (asChild true)
  | .array items => by
      simp only [valueViews]
      exact itemValueViews_raw items
  | .null => rfl
  | .bool _ => rfl
  | .int _ => rfl
  | .float _ => rfl
  | .str _ => rfl
  | .object _ => rfl

theorem itemValueViews_raw : ∀ items,
    itemValueViews true items = (itemValueViews false items).map (asChild true)
  | [] => rfl
  | item :: rest => by
      simp only [itemValueViews, List.map_append]
      rw [valueViews_raw item, itemValueViews_raw rest]

end

theorem asChild_raw (view : View) : asChild true (asChild false view) = asChild true view := by
  cases view <;> simp only [asChild, Bool.or_false]

mutual

/-- The children under an element whose text is raw are those that there
    would be otherwise, with their text made raw. -/
theorem views_raw : ∀ datum, views true datum = (views false datum).map (asChild true)
  | .value plain => by
      simp only [views]
      exact valueViews_raw plain
  | .view _ child => by simp only [views, List.map_singleton, asChild_raw]
  | .list items => by
      simp only [views]
      exact itemViews_raw items
  | .closure .. => rfl

theorem itemViews_raw : ∀ items, itemViews true items = (itemViews false items).map (asChild true)
  | [] => rfl
  | item :: rest => by
      simp only [itemViews, List.map_append]
      rw [views_raw item, itemViews_raw rest]

end

/-- Views with their text made raw, taken apart. -/
theorem cons_eq_map_asChild {view : View} {rest views : List View}
    (h : view :: rest = views.map (asChild true)) :
    ∃ others, rest = others.map (asChild true) ∧ (views = view :: others ∨
      ∃ content raw, view = .text content true ∧ views = .text content raw :: others) := by
  obtain ⟨first, others, rfl, hfirst, hothers⟩ := List.map_eq_cons_iff.mp h.symm
  refine ⟨others, hothers.symm, ?_⟩
  cases first with
  | text content raw =>
      rw [asChild, Bool.or_true] at hfirst
      exact Or.inr ⟨content, raw, hfirst.symm, rfl⟩
  | _ => exact Or.inl (congrArg (· :: others) hfirst)

end Datum

/-- Whether the view is a text that is escaped. -/
def View.isEscaped : View → Bool
  | text _ raw => !raw
  | _ => false

/-- Whether there is nothing to escape in the texts among some views. -/
def View.Unescaped (views : List View) : Prop :=
  ∀ content, .text content false ∈ views → Markup.escape content = content

/-- How the markup of views in which text is escaped relates to that in which
    it is raw. -/
def View.Escaping (views : List View) (raw escaped : String) : Prop :=
  raw.length ≤ escaped.length ∧ (escaped = raw ↔ Unescaped views)

namespace View.Escaping

variable {view : View} {views : List View} {raw escaped : String}

/-- A view that is no text to be escaped is the same in both. -/
theorem cons_same (h : Escaping views raw escaped) (hview : view.isEscaped = false)
    (piece : String) : Escaping (view :: views) (piece ++ raw) (piece ++ escaped) := by
  refine ⟨by rw [String.length_append, String.length_append]; exact Nat.add_le_add_left h.1 _, ?_⟩
  rw [String.append_right_inj, h.2]
  constructor
  · intro hviews content hmem
    rcases List.mem_cons.mp hmem with heq | hmem
    · rw [← heq] at hview
      cases hview
    · exact hviews content hmem
  · exact fun hall content hmem => hall content (List.mem_cons_of_mem _ hmem)

/-- A text is longer where it is escaped, unless it is the same. -/
theorem cons_text (h : Escaping views raw escaped) (content : String) :
    Escaping (.text content false :: views) (content ++ raw)
      (Markup.escape content ++ escaped) := by
  have hle := Markup.length_le_escape content
  refine ⟨by rw [String.length_append, String.length_append]; exact Nat.add_le_add hle h.1, ?_⟩
  constructor
  · intro heq other hmem
    have hlength := congrArg String.length heq
    rw [String.length_append, String.length_append] at hlength
    have hsame : Markup.escape content = content :=
      Markup.escape_eq_of_length (by have := h.1; omega)
    rw [hsame] at heq
    rcases List.mem_cons.mp hmem with hfirst | hmem
    · cases hfirst
      exact hsame
    · exact h.2.mp ((String.append_right_inj content).mp heq) other hmem
  · intro hall
    rw [hall content List.mem_cons_self,
      h.2.mpr fun other hmem => hall other (List.mem_cons_of_mem _ hmem)]

end View.Escaping

section Views

variable {engine : Engine} {functions : Component → Option RenderFunction} {pass : Pass}
  {childless : String → String} {owner : Option Instance} {context : TagContext}
  {answers : List Answer} {steps : Nat}

/-- Children under an element whose text is raw can be written with their
    text escaped as well. -/
theorem Written.escaped {views' : List View} {raw : String}
    (h : Written engine functions pass childless owner context views' answers raw steps) :
    ∀ {views : List View}, views' = views.map (Datum.asChild true) →
      ∃ escaped, Written engine functions pass childless owner context views answers escaped steps ∧
        View.Escaping views raw escaped := by
  induction h with
  | nil =>
      intro views hviews
      cases List.map_eq_nil_iff.mp hviews.symm
      exact ⟨"", .nil, Nat.le_refl _, fun _ _ hmem => absurd hmem List.not_mem_nil, fun _ => rfl⟩
  | text hmarkup hrest ih =>
      intro views hviews
      obtain ⟨view, views, rfl, hview, hviews⟩ := List.map_eq_cons_iff.mp hviews.symm
      obtain ⟨escaped, hescaped, hrelated⟩ := ih hviews.symm
      cases view with
      | text content isRaw =>
          cases hview
          rw [Bool.or_true] at hmarkup
          cases hmarkup
          cases isRaw with
          | true =>
              exact ⟨_, .text rfl hescaped, hrelated.cons_same rfl _⟩
          | false => exact ⟨_, .text rfl hescaped, hrelated.cons_text _⟩
      | _ => cases hview
  | comment hrest ih =>
      intro views hviews
      obtain ⟨others, hothers, rfl | ⟨_, _, ⟨⟩, _⟩⟩ := Datum.cons_eq_map_asChild hviews
      obtain ⟨escaped, hescaped, hrelated⟩ := ih hothers
      exact ⟨_, .comment hescaped, hrelated.cons_same rfl _⟩
  | fragment hchildren hrest ihchildren ih =>
      intro views hviews
      obtain ⟨others, hothers, rfl | ⟨_, _, ⟨⟩, _⟩⟩ := Datum.cons_eq_map_asChild hviews
      obtain ⟨escaped, hescaped, hrelated⟩ := ih hothers
      exact ⟨_, .fragment hchildren hescaped, hrelated.cons_same rfl _⟩
  | void hend hstart hrest ih =>
      intro views hviews
      obtain ⟨others, hothers, rfl | ⟨_, _, ⟨⟩, _⟩⟩ := Datum.cons_eq_map_asChild hviews
      obtain ⟨escaped, hescaped, hrelated⟩ := ih hothers
      exact ⟨_, .void hend hstart hescaped, hrelated.cons_same rfl _⟩
  | content hend hstart hcontent hrest ih =>
      intro views hviews
      obtain ⟨others, hothers, rfl | ⟨_, _, ⟨⟩, _⟩⟩ := Datum.cons_eq_map_asChild hviews
      obtain ⟨escaped, hescaped, hrelated⟩ := ih hothers
      exact ⟨_, .content hend hstart hcontent hescaped,
        hrelated.cons_same rfl _⟩
  | element hend hstart hcontent hchildren hrest ihchildren ih =>
      intro views hviews
      obtain ⟨others, hothers, rfl | ⟨_, _, ⟨⟩, _⟩⟩ := Datum.cons_eq_map_asChild hviews
      obtain ⟨escaped, hescaped, hrelated⟩ := ih hothers
      exact ⟨_, .element hend hstart hcontent hchildren hescaped,
        hrelated.cons_same rfl _⟩
  | component hroot hinner hrest ihinner ih =>
      intro views hviews
      obtain ⟨others, hothers, rfl | ⟨_, _, ⟨⟩, _⟩⟩ := Datum.cons_eq_map_asChild hviews
      obtain ⟨escaped, hescaped, hrelated⟩ := ih hothers
      exact ⟨_, .component hroot hinner hescaped,
        hrelated.cons_same rfl _⟩
  | deferredComponent hroot hinner hrest ihinner ih =>
      intro views hviews
      obtain ⟨others, hothers, rfl | ⟨_, _, ⟨⟩, _⟩⟩ := Datum.cons_eq_map_asChild hviews
      obtain ⟨escaped, hescaped, hrelated⟩ := ih hothers
      exact ⟨_, .deferredComponent hroot hinner hescaped,
        hrelated.cons_same rfl _⟩
  | deferredView hinner hrest ihinner ih =>
      intro views hviews
      obtain ⟨others, hothers, rfl | ⟨_, _, ⟨⟩, _⟩⟩ := Datum.cons_eq_map_asChild hviews
      obtain ⟨escaped, hescaped, hrelated⟩ := ih hothers
      exact ⟨_, .deferredView hinner hescaped, hrelated.cons_same rfl _⟩
  | deferredViews hinner hrest ihinner ih =>
      intro views hviews
      obtain ⟨others, hothers, rfl | ⟨_, _, ⟨⟩, _⟩⟩ := Datum.cons_eq_map_asChild hviews
      obtain ⟨escaped, hescaped, hrelated⟩ := ih hothers
      exact ⟨_, .deferredViews hinner hescaped, hrelated.cons_same rfl _⟩
  | differing hrest ih =>
      intro views hviews
      obtain ⟨others, hothers, rfl | ⟨_, _, ⟨⟩, _⟩⟩ := Datum.cons_eq_map_asChild hviews
      obtain ⟨escaped, hescaped, hrelated⟩ := ih hothers
      exact ⟨_, .differing hescaped, hrelated.cons_same rfl _⟩

/-- An element, and markup around the same children that opens with the start
    tag of the element. Both can be made out of the same data. If the element
    can be written, so can the markup, and they are written the same exactly
    if the text of the element is not raw or there is nothing in it to
    escape. -/
theorem Evaluator.markup_written_iff {setting : Setting}
    {recur : Env → Script.Tree → Eval Datum} {tag closing : String} {given : Option Value}
    {data : NodeData} (children : Datum) (serial : Nat)
    (hentry : Fields.get? setting.entries tag = none)
    (hglobal : Fields.get? setting.globals tag = none)
    (hdata : given.elim (.ok .empty) NodeData.ofValue = .ok data) (hcontent : data.content? = none)
    (hend : Markup.endTag? tag = some closing) :
    ∃ element markup,
      construct setting tag given (some children) serial =
        .ok (.view serial element, serial + 1) ∧
      callHelper setting recur .markup
          [.str (engine.registry.startTag tag data context), .str closing, children] serial =
        .ok (.view serial markup, serial + 1) ∧
      ∀ html, Written engine functions pass id owner context [element] answers html steps →
        ∃ html', Written engine functions pass id owner context [markup] answers html' steps ∧
          (html' = html ↔
            (Markup.isRawText tag = true → View.Unescaped (Datum.views false children))) := by
  have helement : construct setting tag given (some children) serial =
      .ok (.view serial (.element tag data (Datum.views (Markup.isRawText tag) children)),
        serial + 1) := by
    unfold construct
    rw [hentry, hglobal]
    cases given with
    | none =>
        cases hdata
        rfl
    | some value =>
        have hvalue : NodeData.ofValue value = .ok data := hdata
        dsimp only
        rw [hvalue]
        rfl
  refine ⟨_, _, helement, rfl, fun html hwritten => ?_⟩
  cases hwritten with
  | void hnone => cases hnone.symm.trans hend
  | content hend' hstart hsome => cases hsome.symm.trans hcontent
  | @element _ _ _ _ _ _ inner rest content later start closing' cost steps hend' hstart hnone
      hchildren hrest =>
      cases hrest
      cases hend'.symm.trans hend
      rw [hstart]
      have hfragment {text : String} (h : Written engine functions pass id owner (.within owner)
          (Datum.views false children) inner text cost) :
          Written engine functions pass id owner context
            [.fragment start closing (Datum.views false children)] (inner ++ [])
            (start ++ text ++ closing ++ "") (cost + 2 + 0) := by
        rw [← h.enclosed_id]
        exact .fragment h .nil
      cases hraw : Markup.isRawText tag with
      | false =>
          rw [hraw] at hchildren
          exact ⟨_, hfragment hchildren, iff_of_true rfl fun h => nomatch h⟩
      | true =>
          rw [hraw, Datum.views_raw] at hchildren
          obtain ⟨escaped, hescaped, -, hsame⟩ := hchildren.escaped rfl
          refine ⟨_, hfragment hescaped, ?_⟩
          rw [String.append_left_inj, String.append_left_inj, String.append_right_inj, hsame]
          exact ⟨fun h _ => h, fun h => h rfl⟩

end Views

/-- A page that is a script made of the data of the request. -/
def scripted : Component :=
  { Component.named "page" with
    render := (RenderFunction.compile "return _c(\"script\", [_v(name)])").toOption }

theorem Evaluator.markup_written_script : ∃ html,
    Written (Walk.engineOf scripted) (fun _ => none) .dynamic id none .empty
      [.fragment "<script>" "</script>" [.text "<ada>" false]] [] html 3 ∧
    html ≠ "<script><ada></script>" := by
  obtain ⟨element, markup, helement, hmarkup, hwritten⟩ :=
    @Evaluator.markup_written_iff (Walk.engineOf scripted) (fun _ => none) .dynamic none .empty [] 3
      ⟨"page", [], [], []⟩ (fun _ _ => wrong .callback) "script" "</script>" none .empty
      (.view 0 (.text "<ada>" false)) 1 rfl rfl rfl rfl rfl
  have hscript : element = .element "script" .empty [.text "<ada>" true] := by
    injection helement with hpair
    injection hpair with hdatum
    injection hdatum with _ hview
    exact hview.symm
  have hfragment : markup = .fragment "<script>" "</script>" [.text "<ada>" false] := by
    injection hmarkup with hpair
    injection hpair with hdatum
    injection hdatum with _ hview
    exact hview.symm
  subst hscript hfragment
  have hraw : Written (Walk.engineOf scripted) (fun _ => none) .dynamic id none .empty
      [.element "script" .empty [.text "<ada>" true]] []
      ("<script>" ++ ("<ada>" ++ "") ++ "</script>" ++ "") 3 :=
    .element rfl rfl rfl (.text rfl .nil) .nil
  obtain ⟨html, hhtml, hsame⟩ := hwritten _ hraw
  refine ⟨html, hhtml, fun heq => ?_⟩
  have hescaped := hsame.mp (heq.trans (by decide)) rfl "<ada>" List.mem_cons_self
  exact absurd hescaped (by decide)

/-- What is written for the page before it is folded and after that. -/
def scripts (props : Value) : Option (String × String) :=
  let engine := Walk.engineOf scripted
  let view := View.component 0 (.withProps props)
  match engine.foldComponent .standard 0 props engine.initial with
  | (.ok tree, last) => do
    let html ← (engine.html .baseline view () engine.initial).1.toOption
    let folded ← (engine.html tree.plan view [] last).1.toOption
    return (html, folded)
  | (.error _, _) => none

/-- A component need not be written as before once it has been folded, even if
    there are no hooks and no async components. -/
theorem Engine.html_changes : ¬ ∀ (engine : Engine) (options : Options) (use : ComponentId)
    (props : Value) (tree : FoldedTree) (last after : State) (html : String),
    (∀ id, (engine.components id).prefetch = [] ∧ (engine.components id).components = []) →
    engine.globals = [] →
    engine.foldComponent options use props engine.initial = (.ok tree, last) →
    engine.html .baseline (.component use (.withProps props)) () engine.initial =
      (.ok html, (), after) →
    (engine.html tree.plan (.component use (.withProps props)) [] last).1 = .ok html := by
  intro hall
  have hscripts : scripts (.object [("name", .str "<ada>")]) =
      some ("<script><ada></script>", "<script>&lt;ada&gt;</script>") := by decide +kernel
  unfold scripts at hscripts
  dsimp only at hscripts
  split at hscripts
  · next tree last hfold =>
      obtain ⟨html, hhtml, hscripts⟩ := Option.bind_eq_some_iff.mp hscripts
      obtain ⟨folded, hfolded, hscripts⟩ := Option.bind_eq_some_iff.mp hscripts
      cases hscripts
      obtain ⟨after, hhtml⟩ := html_of_toOption hhtml
      have hsame := hall (Walk.engineOf scripted) .standard 0 _ tree last after _
        (fun _ => ⟨rfl, rfl⟩) rfl hfold hhtml
      rw [hsame] at hfolded
      exact absurd hfolded (by decide)
  · cases hscripts

end RenderFold
