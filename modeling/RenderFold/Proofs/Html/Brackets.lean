import RenderFold.Proofs.Html.Renditions
import RenderFold.Proofs.Html.StartTags
import RenderFold.Proofs.Markup.Entities

/-!
# Angle Brackets

Markup begins and ends with angle brackets, so a text stays a text as long as
none of its brackets get into the document. Texts, the values of attributes,
classes, styles and `textContent` are all escaped, whichever way they get
there, so of two trees that differ in nothing but their strings one is written
with the same brackets as the other.

Comments are the exception. What stands in a comment is written as it is, so it
can end the comment and go on with markup of its own. All of the brackets that
two such trees do not share come from there.

## Main definitions

* `Markup.brackets`: The angle brackets of a text, in order.
* `View.blank`: A tree with all its strings emptied. Trees that differ only in
  their strings have the same one.
* `View.Plain`: Trees of texts, comments and elements without `innerHTML`.
* `View.comments`: The comments that are written.

## Theorems

* `Markup.brackets_escape`: Nothing is left of the brackets of a text.
* `Registry.brackets_startTag`: The brackets of a start tag.
* `Rendition.brackets`: The brackets of trees that differ in their strings.
* `Engine.html_brackets`: Such trees have the brackets that their comments
  make.
* `Engine.html_comment_brackets`: Comments do make a difference.
-/

namespace RenderFold

namespace Markup

/-- Whether a character begins or ends a tag. -/
def isBracket (c : Char) : Bool := c == '<' || c == '>'

/-- The angle brackets of a text, in order. -/
def brackets (text : String) : List Char := text.toList.filter isBracket

@[simp] theorem brackets_append (s t : String) : brackets (s ++ t) = brackets s ++ brackets t := by
  simp only [brackets, String.toList_append, List.filter_append]

theorem brackets_join (texts : List String) :
    brackets (String.join texts) = texts.flatMap brackets := by
  induction texts with
  | nil => rfl
  | cons text texts ih => rw [String.join_cons, brackets_append, ih, List.flatMap_cons]

/-- Nothing is left of the brackets of a text that is escaped. -/
@[simp] theorem brackets_escape (text : String) : brackets (escape text) = [] := by
  rw [brackets, escape, String.toList_ofList]
  refine List.filter_eq_nil_iff.mpr fun c hmem hbracket => ?_
  -- Both brackets have an entity.
  simp only [isBracket, Bool.or_eq_true, beq_iff_eq] at hbracket
  rcases hbracket with rfl | rfl <;>
    exact not_mem_flatMap_escapeChar (by decide) (by decide) _ hmem

end Markup

open Markup (brackets brackets_append brackets_escape brackets_join)

namespace Value

mutual

/-- The value with all texts in it emptied, and the names of fields as well. -/
def blank : Value → Value
  | .str _ => .str ""
  | .array items => .array (blankItems items)
  | .object fields => .object (blankFields fields)
  | .null => .null
  | .bool b => .bool b
  | .int n => .int n
  | .float x => .float x
termination_by structural value => value

/-- The items of a list, emptied. -/
def blankItems : List Value → List Value
  | [] => []
  | item :: rest => blank item :: blankItems rest
termination_by structural items => items

/-- The fields of an object, emptied. -/
def blankFields : List (String × Value) → List (String × Value)
  | [] => []
  | (_, value) :: rest => ("", blank value) :: blankFields rest
termination_by structural fields => fields

end

end Value

/-- Values under names. The names stay. -/
def Fields.blank (fields : Fields Value) : Fields Value :=
  fields.map fun field => (field.1, field.2.blank)

/-- The data with all values emptied. The names of attributes and properties
    stay, and so do the directives. -/
def NodeData.blank (data : NodeData) : NodeData :=
  { data with
    attrs := Fields.blank data.attrs
    domProps := Fields.blank data.domProps
    staticClass := data.staticClass.map fun _ => ""
    dynamicClass := data.dynamicClass.map Value.blank
    staticStyle := data.staticStyle.map fun _ => ""
    dynamicStyle := data.dynamicStyle.map Value.blank
    props := Fields.blank data.props }

namespace View

mutual

/-- The tree with the strings in its texts, comments and data emptied. -/
def blank : View → View
  | text _ raw => text "" raw
  | comment _ => comment ""
  | element tag data children => element tag data.blank (blankAll children)
  | component id data => component id data.blank
  | deferred id data => deferred id data.blank
  | fragment opening closing children => fragment opening closing (blankAll children)
termination_by structural view => view

/-- Trees side by side, emptied. -/
def blankAll : List View → List View
  | [] => []
  | view :: rest => blank view :: blankAll rest
termination_by structural views => views

end

mutual

/-- The comments that are written in a tree, in order. Those below a node that
    is written without its children are not. -/
def comments : View → List String
  | comment content => [content]
  | element tag data children =>
    if (Markup.endTag? tag).isSome && data.content?.isNone then allComments children else []
  | fragment _ _ children => allComments children
  | _ => []
termination_by structural view => view

/-- The comments that are written in trees side by side. -/
def allComments : List View → List String
  | [] => []
  | view :: rest => comments view ++ allComments rest
termination_by structural views => views

end

/-- A tree of texts that are not raw, comments, and elements without
    `innerHTML`. -/
inductive Plain : View → Prop where
  | text (content : String) : Plain (.text content false)
  | comment (content : String) : Plain (.comment content)
  | element {tag : String} {data : NodeData} {children : List View}
      (hinner : Fields.get? data.domProps "innerHTML" = none)
      (hchildren : ∀ child ∈ children, Plain child) : Plain (.element tag data children)

section Comments

variable {tag closing content : String} {data : NodeData} {children : List View}

theorem allComments_singleton (view : View) : allComments [view] = view.comments :=
  List.append_nil _

theorem comments_of_void (hend : Markup.endTag? tag = none) :
    (element tag data children).comments = [] := by
  rw [comments, hend]
  rfl

theorem comments_of_content (hcontent : data.content? = some content) :
    (element tag data children).comments = [] := by
  rw [comments, hcontent, Option.isNone_some, Bool.and_false]
  rfl

theorem comments_of_children (hend : Markup.endTag? tag = some closing)
    (hcontent : data.content? = none) :
    (element tag data children).comments = allComments children := by
  rw [comments, hend, hcontent]
  rfl

end Comments

end View

/-- What has the same names has a value under a name or has none. -/
theorem Fields.get?_blank (fields : Fields Value) (key : String) :
    get? (Fields.blank fields) key = (get? fields key).map Value.blank := by
  induction fields with
  | nil => rfl
  | cons field rest ih =>
      simp only [Fields.blank, List.map_cons, get?] at ih ⊢
      split
      · rfl
      · exact ih

namespace NodeData

variable {data data' : NodeData}

/-- Whether there is content in place of the children can be told from the
    names. -/
theorem isNone_content?_blank (data : NodeData) :
    data.blank.content?.isNone = data.content?.isNone := by
  simp only [content?, blank, Fields.get?_blank]
  cases Fields.get? data.domProps "innerHTML" with
  | some html => rfl
  | none => cases Fields.get? data.domProps "textContent" <;> rfl

theorem content?_of_blank (h : data.blank = data'.blank) :
    data.content?.isNone = data'.content?.isNone := by
  rw [← isNone_content?_blank data, h, isNone_content?_blank]

theorem content?_eq_none_of_blank (h : data.blank = data'.blank) (hcontent : data.content? = none) :
    data'.content? = none := by
  rw [← Option.isNone_iff_eq_none, ← content?_of_blank h, hcontent]
  rfl

theorem exists_content?_of_blank (h : data.blank = data'.blank) {content : String}
    (hcontent : data.content? = some content) : ∃ content', data'.content? = some content' := by
  refine Option.ne_none_iff_exists'.mp fun hnone => ?_
  cases hcontent.symm.trans (content?_eq_none_of_blank h.symm hnone)

/-- Content that is given as a text has no brackets. -/
theorem brackets_content? (hinner : Fields.get? data.domProps "innerHTML" = none) {content : String}
    (h : data.content? = some content) : brackets content = [] := by
  simp only [content?, hinner] at h
  obtain ⟨value, -, rfl⟩ := Option.map_eq_some_iff.mp h
  exact brackets_escape _

end NodeData

namespace Registry

theorem getD_nonEmpty (text : String) : (nonEmpty text).getD "" = text := by
  unfold nonEmpty
  split
  · next h => exact h.symm
  · rfl

/-- Of an attribute, only the name can have brackets. -/
theorem brackets_attr_blank (name : String) (value : Value) :
    brackets (attr name value.blank) = brackets (attr name value) := by
  have hquote : brackets "=\"" = [] := rfl
  have hend : brackets "\"" = [] := rfl
  cases value <;> simp [Value.blank, attr, hquote, hend]

theorem brackets_attributes_blank (fields : Fields Value) :
    brackets ((attributes (Fields.blank fields)).getD "") =
      brackets ((attributes fields).getD "") := by
  simp only [attributes, getD_nonEmpty, brackets_join, Fields.blank, List.map_map,
    List.flatMap_map, Function.comp_def, brackets_attr_blank]

theorem brackets_properties_blank (fields : Fields Value) :
    brackets ((properties (Fields.blank fields)).getD "") =
      brackets ((properties fields).getD "") := by
  have hfilter : (Fields.blank fields).filter
      (fun field => field.1 != "innerHTML" && field.1 != "textContent") =
      Fields.blank (fields.filter
        fun field => field.1 != "innerHTML" && field.1 != "textContent") := by
    simp only [Fields.blank, List.filter_map]
    rfl
  rw [properties, hfilter, brackets_attributes_blank, properties]

theorem brackets_classAttribute (names : List String) :
    brackets ((classAttribute names).getD "") = [] := by
  unfold classAttribute
  split
  · rfl
  · simp only [Option.getD_some, brackets_append, brackets_escape]
    rfl

theorem brackets_styleAttribute (declarations : List Declaration) :
    brackets ((styleAttribute declarations).getD "") = [] := by
  unfold styleAttribute
  split
  · rfl
  · simp only [Option.getD_some, brackets_append, brackets_escape]
    rfl

/-- The brackets of a start tag: its own, and those in the names that it is
    made of. -/
theorem brackets_startTag (tag : String) (data : NodeData) (context : TagContext) :
    brackets (standard.startTag tag data context) =
      '<' :: (brackets tag ++ (brackets ((attributes data.attrs).getD "") ++
        brackets ((properties data.domProps).getD "")) ++ brackets (scopeText context.scopeIds) ++
        ['>']) := by
  have hopen : brackets "<" = ['<'] := rfl
  have hclose : brackets ">" = ['>'] := rfl
  rw [startTag_standard, styledTag]
  simp only [brackets_append, brackets_classAttribute, brackets_styleAttribute, hopen, hclose,
    List.append_nil, List.cons_append, List.nil_append]

/-- Emptying the data leaves the brackets of the start tag. -/
theorem brackets_startTag_of_blank {data data' : NodeData} (h : data.blank = data'.blank)
    (tag : String) (context : TagContext) :
    brackets (standard.startTag tag data context) =
      brackets (standard.startTag tag data' context) := by
  have hblank (data : NodeData) : brackets (standard.startTag tag data context) =
      brackets (standard.startTag tag data.blank context) := by
    rw [brackets_startTag, brackets_startTag, NodeData.blank, brackets_attributes_blank,
      brackets_properties_blank]
  rw [hblank data, h, ← hblank data']

end Registry

/-- Two documents with the same brackets but for those that stand in comments,
    of which both have as many. -/
structure View.Framed (comments comments' : List String) (html html' : String) : Prop where
  length_eq : comments.length = comments'.length
  same : comments.map brackets = comments'.map brackets → brackets html = brackets html'
  count : ∀ c, (brackets html).count c + (comments'.flatMap brackets).count c =
    (brackets html').count c + (comments.flatMap brackets).count c

namespace View.Framed

variable {comments comments' later later' : List String} {html html' rest rest' : String}

theorem of_eq (h : brackets html = brackets html') : Framed [] [] html html' where
  length_eq := rfl
  same _ := h
  count c := by rw [h]

theorem comment (content content' : String) :
    Framed [content] [content'] ("<!--" ++ content ++ "-->") ("<!--" ++ content' ++ "-->") where
  length_eq := rfl
  same h := by
    simp only [List.map_cons, List.map_nil, List.cons.injEq, and_true] at h
    simp only [brackets_append, h]
  count c := by
    simp only [brackets_append, List.count_append, List.flatMap_cons, List.flatMap_nil,
      List.append_nil]
    omega

theorem append (h : Framed comments comments' html html') (hrest : Framed later later' rest rest') :
    Framed (comments ++ later) (comments' ++ later') (html ++ rest) (html' ++ rest') where
  length_eq := by rw [List.length_append, List.length_append, h.length_eq, hrest.length_eq]
  same heq := by
    rw [List.map_append, List.map_append] at heq
    -- There are as many comments in front on both sides.
    obtain ⟨hfront, hback⟩ := List.append_inj heq (by simp only [List.length_map, h.length_eq])
    rw [brackets_append, brackets_append, h.same hfront, hrest.same hback]
  count c := by
    have hfront := h.count c
    have hback := hrest.count c
    simp only [brackets_append, List.count_append, List.flatMap_append]
    omega

/-- Between tags, there are the brackets of what the tags enclose. -/
theorem between (h : Framed comments comments' html html') {start start' : String}
    (hstart : brackets start = brackets start') (closing : String) :
    Framed comments comments' (start ++ html ++ closing) (start' ++ html' ++ closing) := by
  have hall := ((of_eq hstart).append h).append (of_eq (rfl : brackets closing = brackets closing))
  rwa [List.nil_append, List.nil_append, List.append_nil, List.append_nil] at hall

/-- If the documents have the same brackets, so do their comments together. -/
theorem perm (h : Framed comments comments' html html') (heq : brackets html = brackets html') :
    (comments.flatMap brackets).Perm (comments'.flatMap brackets) := by
  refine List.perm_iff_count.mpr fun c => ?_
  have hcount := h.count c
  rw [heq] at hcount
  omega

end View.Framed

namespace Serializer

open View (Plain blankAll allComments allComments_singleton Framed)

variable {engine : Engine} {σ : Type} {plan : Plan σ} {owner : Option Instance}
  {context : TagContext}

/-- A tree that differs from a text in its strings is a text, and so on. -/
theorem eq_cons_of_blankAll {view : View} {rest views' : List View}
    (h : blankAll (view :: rest) = blankAll views') :
    ∃ view' rest', views' = view' :: rest' ∧ view.blank = view'.blank ∧
      blankAll rest = blankAll rest' := by
  cases views' with
  | nil => cases h
  | cons view' rest' =>
      injection h with hview hrest
      exact ⟨view', rest', rfl, hview, hrest⟩

theorem eq_singleton_of_blankAll {view : View} {views' : List View}
    (h : blankAll [view] = blankAll views') :
    ∃ view', views' = [view'] ∧ view.blank = view'.blank := by
  obtain ⟨view', rest', rfl, hview, hrest⟩ := eq_cons_of_blankAll h
  cases rest' with
  | nil => exact ⟨view', rfl, hview⟩
  | cons => cases hrest

/-- A plain tree that differs from an element in its strings is an element with
    the same tag. -/
theorem eq_element_of_blank {tag : String} {data : NodeData} {children : List View} {view' : View}
    (h : (View.element tag data children).blank = view'.blank) (hplain : Plain view') :
    ∃ data' children', view' = .element tag data' children' ∧ data.blank = data'.blank ∧
      blankAll children = blankAll children' ∧
      Fields.get? data'.domProps "innerHTML" = none ∧ ∀ child ∈ children', Plain child := by
  cases hplain with
  | text | comment => cases h
  | element hinner hchildren =>
      injection h with htag hdata hsame
      subst htag
      exact ⟨_, _, rfl, hdata, hsame, hinner, hchildren⟩

/-- Plain trees that differ in their strings are both written, in as many
    steps, and with the same brackets but for those in their comments. -/
theorem Rendition.brackets (hregistry : engine.registry = .standard) {views : List View}
    {before after : Memory σ} {html : String} {visits : List Visit} {steps : Nat}
    (h : Rendition engine plan owner context views before html visits steps after)
    (hplain : ∀ view ∈ views, Plain view) :
    ∀ {views' : List View}, (∀ view ∈ views', Plain view) → blankAll views = blankAll views' →
      ∃ html', Rendition engine plan owner context views' before html' visits steps after ∧
        Framed (allComments views) (allComments views') html html' := by
  induction h with
  | nil =>
      intro views' _ hsame
      cases views' with
      | nil => exact ⟨"", .nil, .of_eq rfl⟩
      | cons => cases hsame
  | cons _ _ ihview ihrest =>
      intro views' hplain' hsame
      obtain ⟨view', rest', rfl, hview, hrest⟩ := eq_cons_of_blankAll hsame
      rw [List.forall_mem_cons] at hplain hplain'
      obtain ⟨first, hfirst, hframed⟩ := @ihview (List.forall_mem_singleton.mpr hplain.1) [view']
        (List.forall_mem_singleton.mpr hplain'.1) (by simp only [blankAll, hview])
      obtain ⟨later, hlater, hframed'⟩ := ihrest hplain.2 hplain'.2 hrest
      rw [allComments_singleton, allComments_singleton] at hframed
      exact ⟨first ++ later, .cons hfirst hlater, hframed.append hframed'⟩
  | text hmarkup =>
      intro views' hplain' hsame
      obtain ⟨view', rfl, hview⟩ := eq_singleton_of_blankAll hsame
      cases hplain _ List.mem_cons_self
      cases hplain' _ List.mem_cons_self with
      | text content' =>
          cases hmarkup
          exact ⟨_, .text rfl, .of_eq (by rw [brackets_escape, brackets_escape])⟩
      | comment | element => cases hview
  | @comment _ _ content _ =>
      intro views' hplain' hsame
      obtain ⟨view', rfl, hview⟩ := eq_singleton_of_blankAll hsame
      cases hplain' _ List.mem_cons_self with
      | comment content' => exact ⟨_, .comment, .comment content content'⟩
      | text | element => cases hview
  | @void _ context tag data children _ hend =>
      intro views' hplain' hsame
      obtain ⟨view', rfl, hview⟩ := eq_singleton_of_blankAll hsame
      obtain ⟨data', children', rfl, hdata, -⟩ :=
        eq_element_of_blank hview (hplain' _ List.mem_cons_self)
      refine ⟨_, .void hend, ?_⟩
      rw [hregistry, allComments_singleton, allComments_singleton, View.comments_of_void hend,
        View.comments_of_void hend]
      exact .of_eq (Registry.brackets_startTag_of_blank hdata tag context)
  | @content _ context tag data children closing content _ hend hcontent =>
      intro views' hplain' hsame
      obtain ⟨view', rfl, hview⟩ := eq_singleton_of_blankAll hsame
      obtain ⟨data', children', rfl, hdata, -, hinner', -⟩ :=
        eq_element_of_blank hview (hplain' _ List.mem_cons_self)
      obtain ⟨content', hcontent'⟩ := NodeData.exists_content?_of_blank hdata hcontent
      refine ⟨_, .content hend hcontent', ?_⟩
      rw [hregistry, allComments_singleton, allComments_singleton,
        View.comments_of_content hcontent, View.comments_of_content hcontent']
      -- The content is escaped on both sides, so it has no brackets.
      refine Framed.between (.of_eq ?_) (Registry.brackets_startTag_of_blank hdata tag context)
        closing
      cases hplain _ List.mem_cons_self with
      | element hinner _ =>
          rw [NodeData.brackets_content? hinner hcontent,
            NodeData.brackets_content? hinner' hcontent']
  | @element _ context tag data children closing _ content _ _ _ hend hcontent _ ih =>
      intro views' hplain' hsame
      obtain ⟨view', rfl, hview⟩ := eq_singleton_of_blankAll hsame
      obtain ⟨data', children', rfl, hdata, hsame', -, hchildren'⟩ :=
        eq_element_of_blank hview (hplain' _ List.mem_cons_self)
      have hcontent' := NodeData.content?_eq_none_of_blank hdata hcontent
      cases hplain _ List.mem_cons_self with
      | element _ hchildren =>
          obtain ⟨content', hwritten, hframed⟩ := ih hchildren hchildren' hsame'
          refine ⟨_, .element hend hcontent' hwritten, ?_⟩
          rw [hregistry, allComments_singleton, allComments_singleton,
            View.comments_of_children hend hcontent, View.comments_of_children hend hcontent']
          exact hframed.between (Registry.brackets_startTag_of_blank hdata tag context) closing
  | fragment => cases hplain _ List.mem_cons_self
  | component hstands =>
      cases hstands <;> cases hplain _ List.mem_cons_self
  | resolvedView => cases hplain _ List.mem_cons_self
  | resolvedViews => cases hplain _ List.mem_cons_self

end Serializer

namespace Engine

/-- Of two plain trees that differ only in the strings of their texts, comments
    and data, either both have markup or none has. The brackets in their markup
    are the same if comments that are written at the same place have the same
    brackets, and only if the comments of both trees have the same brackets
    together, in whatever order. -/
theorem html_brackets {σ : Type} {engine : Engine} (hregistry : engine.registry = .standard)
    {plan : Plan σ} {view view' : View} (hplain : view.Plain) (hplain' : view'.Plain)
    (hsame : view.blank = view'.blank) {state : σ} {memory : State} {html : String}
    (h : (engine.html plan view state memory).1 = .ok html) :
    ∃ html', (engine.html plan view' state memory).1 = .ok html' ∧
      (view.comments.map brackets = view'.comments.map brackets →
        brackets html = brackets html') ∧
      (brackets html = brackets html' →
        (view.comments.flatMap brackets).Perm (view'.comments.flatMap brackets)) := by
  obtain ⟨visits, steps, hroot, hsteps, hstate⟩ :=
    html_eq_ok_iff.mp (Prod.ext h rfl : engine.html plan view state memory =
      (.ok html, (engine.html plan view state memory).2.1,
        (engine.html plan view state memory).2.2))
  obtain ⟨html', hroot', hframed⟩ := hroot.brackets hregistry
    (List.forall_mem_singleton.mpr hplain) (List.forall_mem_singleton.mpr hplain')
    (by simp only [View.blankAll, hsame])
  rw [View.allComments_singleton, View.allComments_singleton] at hframed
  refine ⟨html', ?_, hframed.same, hframed.perm⟩
  rw [html_eq_ok_iff.mpr ⟨visits, steps, hroot', hsteps, hstate⟩]

/-- An engine that knows how to write elements, but no components. -/
def furnished : Engine where
  components _ := default
  factories _ := default
  globals := []
  registry := .standard
  compiler := none
  refuses _ := none

/-- A hidden card with a title, a class, a style, a text and a comment. -/
def card (title label : String) (styles : List (String × Value)) (note text : String) : View :=
  .element "p"
    { NodeData.empty with
      attrs := [("title", .str title), ("hidden", .bool true)]
      dynamicClass := some (.array [.str label])
      dynamicStyle := some (.object styles)
      directives := [⟨"show", .bool false⟩] }
    [.text text false, .comment note,
      .element "b" { NodeData.empty with domProps := [("textContent", .str text)] } []]

theorem card_plain (title label : String) (styles : List (String × Value)) (note text : String) :
    (card title label styles note text).Plain := by
  refine .element rfl fun child hchild => ?_
  simp only [List.mem_cons, List.not_mem_nil, or_false] at hchild
  rcases hchild with rfl | rfl | rfl
  · exact .text text
  · exact .comment note
  · exact .element rfl fun _ h => absurd h List.not_mem_nil

/-- A card with brackets wherever a string can stand. -/
def hostileCard : View :=
  card "\"><i>" "<u>" [("</p>", .str ">")] "see <here> & there" "</p><script>"

/-- A card with brackets in its comment only, and the same ones. -/
def friendlyCard : View := card "a" "b" [("color", .str "red")] "<c>" "d"

theorem html_brackets_card : ∃ html html',
    friendlyCard.Plain ∧ hostileCard.Plain ∧ friendlyCard.blank = hostileCard.blank ∧
      (furnished.html .baseline friendlyCard () furnished.initial).1 = .ok html ∧
      (furnished.html .baseline hostileCard () furnished.initial).1 = .ok html' ∧
      brackets html = brackets html' := by
  have hplain : friendlyCard.Plain := card_plain ..
  have hplain' : hostileCard.Plain := card_plain ..
  have hsame : friendlyCard.blank = hostileCard.blank := rfl
  have hhtml : (furnished.html .baseline friendlyCard () furnished.initial).1.toOption.isSome =
      true := by
    decide +kernel
  cases hresult : (furnished.html .baseline friendlyCard () furnished.initial).1 with
  | error e =>
      rw [hresult] at hhtml
      cases hhtml
  | ok html =>
      obtain ⟨html', hhtml', hbrackets, -⟩ := html_brackets rfl hplain hplain' hsame hresult
      exact ⟨html, html', hplain, hplain', hsame, rfl, hhtml', hbrackets (by decide)⟩

/-- Two trees that differ only in the text of a comment can differ in the
    brackets of their markup. -/
theorem html_comment_brackets : ¬ ∀ (engine : Engine) (view view' : View) (memory : State)
    (html html' : String), engine.registry = .standard → view.Plain → view'.Plain →
    view.blank = view'.blank → (engine.html .baseline view () memory).1 = .ok html →
    (engine.html .baseline view' () memory).1 = .ok html' → brackets html = brackets html' := by
  intro hall
  -- The tags, the comment and the end of the work take a step each.
  have hsteps : Serializer.maxSteps = 1099511627772 + 4 := rfl
  have hwritten (note : String) : (furnished.html .baseline
      (.element "p" .empty [.comment note]) () furnished.initial).1 =
      .ok ("" ++ furnished.registry.startTag "p" .empty .empty ++ ("<!--" ++ note ++ "-->") ++
        ("</" ++ "p" ++ ">")) := by
    unfold html
    rw [hsteps]
    rfl
  have hplain (note : String) : (View.element "p" .empty [.comment note]).Plain :=
    .element rfl (List.forall_mem_singleton.mpr (.comment note))
  have hsame := hall furnished _ _ _ _ _ rfl (hplain "x") (hplain "--><b>") rfl (hwritten "x")
    (hwritten "--><b>")
  exact absurd hsame (by decide)

end Engine

end RenderFold
