import RenderFold.Proofs.Data.Fields
import RenderFold.View.StartTag

/-!
# Hidden Elements

What `show` makes of a start tag. An element is hidden as soon as one of its own
`show` values or one that it inherits is false, and hiding replaces its style
declarations: those of `display` are left out, and `display:none` comes last.

The other declarations pass through fields on the way. Fields have every name
once, so a property that is declared twice loses its first value and is written
where it was declared first, before declarations that came between. Nothing else
in the start tag changes.

A component hands its own `show` on to the element it has for a root, but only
the first of its bindings. The others count on an element and not on a component.

## Main definitions

* `Registry.tagOf`: The start tag for data that directives are done with.
* `Registry.styledTag`: The start tag that the standard modules write, for given
  declarations.
* `Registry.hiddenStyle`: The declarations of a hidden element.
* `Registry.room`: The length of a declaration in a style attribute.

## Theorems

* `Registry.startTag_eq`: A start tag where no directive changes anything.
* `Registry.startTag_standard`: The start tag that the standard modules write.
* `Registry.hidden_tag_iff`: Hiding changes `display` only, unless a property is
  declared twice.
* `Registry.nested_tag_iff`: The `show` of a component is that of its root,
  unless it is not the first that is false.
-/

namespace RenderFold

namespace Style

theorem without_of_not_mem {name : String} {declarations : List Declaration}
    (h : name ∉ Fields.keys declarations) : without name declarations = declarations := by
  refine List.filter_eq_self.mpr fun declaration hmem => bne_iff_ne.mpr ?_
  rintro rfl
  exact h (List.mem_map_of_mem hmem)

theorem not_mem_keys_without (name : String) (declarations : List Declaration) :
    name ∉ Fields.keys (without name declarations) := by
  rw [Fields.mem_keys_iff]
  rintro ⟨value, hmem⟩
  exact bne_iff_ne.mp (List.mem_filter.mp hmem).2 rfl

/-- Declarations that are given as the fields of an object are what was given, if
    none takes the place of another. -/
theorem add_texts {declarations top : List Declaration}
    (h : (Fields.keys (declarations ++ top)).Nodup) :
    add declarations (.object (top.map fun declaration => (declaration.1, .str declaration.2))) =
      declarations ++ top := by
  rw [add]
  induction top generalizing declarations with
  | nil => exact (List.append_nil declarations).symm
  | cons first rest ih =>
      have hnew : first.1 ∉ Fields.keys declarations := by
        rw [Fields.keys, List.map_append, List.map_cons] at h
        exact fun hmem => List.disjoint_of_nodup_append h hmem List.mem_cons_self
      have hsplit : declarations ++ first :: rest = (declarations ++ [first]) ++ rest := by
        rw [List.append_assoc, List.singleton_append]
      have hoverride : override declarations first.1 first.2 = declarations ++ [first] := by
        rw [override, without_of_not_mem hnew]
      rw [List.map_cons, List.foldl_cons]
      change List.foldl _ (override declarations first.1 first.2) _ = _
      rw [hoverride, hsplit]
      exact ih (hsplit ▸ h)

end Style

namespace Registry

variable {registry : Registry} {data : NodeData} {context : TagContext} {tag : String}
  {declarations : List Declaration} {bindings : List DirectiveBinding} {scopeIds : List String}

/-- The start tag for data that directives are done with. -/
def tagOf (registry : Registry) (tag : String) (data : NodeData) (scopeIds : List String) :
    String :=
  "<" ++ tag ++ String.join (registry.modules.filterMap fun entry => entry.2 data)
    ++ scopeText scopeIds ++ ">"

/-- The declarations of a hidden element. -/
def hiddenStyle (declarations : List Declaration) : List Declaration :=
  Fields.overlay [] (Style.without "display" declarations ++ [("display", "none")])

/-- The start tag that the standard modules write, for given declarations. -/
def styledTag (tag : String) (data : NodeData) (scopeIds : List String)
    (declarations : List Declaration) : String :=
  "<" ++ tag ++ ((attributes data.attrs).getD "" ++ ((properties data.domProps).getD "" ++
    ((classAttribute data.classNames).getD "" ++ (styleAttribute declarations).getD "")))
    ++ scopeText scopeIds ++ ">"

/-- Directives that are not known change nothing, and neither does `show` here. -/
theorem foldl_applyDirective (h : ∀ binding ∈ bindings,
      binding.name = "show" ∨ Fields.get? registry.directives binding.name = none) :
    bindings.foldl registry.applyDirective data = data := by
  induction bindings with
  | nil => rfl
  | cons binding rest ih =>
      have hfirst : registry.applyDirective data binding = data := by
        rcases h binding List.mem_cons_self with hshow | hunknown
        · rw [applyDirective, if_pos hshow]
        · rw [applyDirective, hunknown]
          split <;> rfl
      rw [List.foldl_cons, hfirst]
      exact ih fun other hmem => h other (List.mem_cons_of_mem _ hmem)

/-- A start tag where no directive changes anything. -/
theorem startTag_eq (h : ∀ binding ∈ data.directives,
      binding.name = "show" ∨ Fields.get? registry.directives binding.name = none) :
    registry.startTag tag data context =
      registry.tagOf tag (if false ∈ shows data context then hide data else data)
        context.scopeIds := by
  have hprepare : registry.prepare data context =
      if false ∈ shows data context then hide data else data := by
    unfold prepare
    rw [foldl_applyDirective h]
    simp only [List.contains_iff_mem]
    split <;> rfl
  rw [startTag, hprepare]
  rfl

theorem declarations_hide (data : NodeData) :
    (hide data).declarations = hiddenStyle data.declarations := by
  have hnodup : (Fields.keys (hiddenStyle data.declarations)).Nodup :=
    Fields.nodup_overlay List.nodup_nil
  have hfields : (Fields.overlay [] ((Style.without "display" data.declarations ++
      [("display", "none")]).map fun declaration => (declaration.1, Value.str declaration.2))) =
      (hiddenStyle data.declarations).map fun declaration => (declaration.1, .str declaration.2) :=
    @Fields.overlay_map _ [] _ _ Value.str
  change Style.add [] (.object _) = _
  rw [hfields, Style.add_texts hnodup, List.nil_append]

/-- Modules add what text they have. -/
theorem join_filterMap {α : Type} (text : α → Option String) (entries : List α) :
    String.join (entries.filterMap text) =
      String.join (entries.map fun entry => (text entry).getD "") := by
  induction entries with
  | nil => rfl
  | cons entry entries ih =>
      rw [List.map_cons, String.join_cons, ← ih]
      cases htext : text entry with
      | none => rw [List.filterMap_cons_none htext, Option.getD_none, String.empty_append]
      | some written =>
          rw [List.filterMap_cons_some htext, String.join_cons, Option.getD_some]

theorem tagOf_standard (tag : String) (data : NodeData) (scopeIds : List String) :
    standard.tagOf tag data scopeIds = styledTag tag data scopeIds data.declarations := by
  rw [tagOf, join_filterMap, styledTag]
  simp only [standard, List.map_cons, List.map_nil, String.join_cons, String.join_nil,
    String.append_empty]

/-- The start tag that the standard modules write. -/
theorem startTag_standard (tag : String) (data : NodeData) (context : TagContext) :
    standard.startTag tag data context =
      styledTag tag data context.scopeIds
        (if false ∈ shows data context then hiddenStyle data.declarations
          else data.declarations) := by
  rw [startTag_eq fun _ _ => .inr rfl, tagOf_standard]
  split
  · rw [declarations_hide]
    rfl
  · rfl

/-- The room that a declaration takes in the style attribute, with the colon in it
    and the sign before it. -/
def room (declaration : Declaration) : Nat :=
  (Markup.escape declaration.1).length + (Markup.escape declaration.2).length + 2

theorem length_escape_append (s t : String) :
    (Markup.escape (s ++ t)).length = (Markup.escape s).length + (Markup.escape t).length := by
  rw [Markup.escape_append, String.length_append]

theorem length_escape_declaration (declaration : Declaration) :
    (Markup.escape (declaration.1 ++ ":" ++ declaration.2)).length + 1 = room declaration := by
  rw [length_escape_append, length_escape_append, room, show Markup.escape ":" = ":" by decide,
    show ":".length = 1 by decide]
  omega

theorem length_escape_declarations (first : Declaration) (rest : List Declaration) :
    (Markup.escape (";".intercalate
      ((first :: rest).map fun declaration => declaration.1 ++ ":" ++ declaration.2))).length + 1 =
      Fields.extent room (first :: rest) := by
  induction rest generalizing first with
  | nil =>
      rw [List.map_singleton, String.intercalate_singleton, length_escape_declaration,
        Fields.extent_cons, show Fields.extent room [] = 0 from rfl, Nat.add_zero]
  | cons next rest ih =>
      rw [Fields.extent_cons, ← ih next, ← length_escape_declaration first, List.map_cons,
        List.map_cons, String.intercalate_cons_cons, length_escape_append, length_escape_append,
        show Markup.escape ";" = ";" by decide, show ";".length = 1 by decide]
      omega

theorem length_styleAttribute {declarations : List Declaration} (h : declarations ≠ []) :
    ((styleAttribute declarations).getD "").length = 8 + Fields.extent room declarations := by
  obtain ⟨first, rest, rfl⟩ := List.exists_cons_of_ne_nil h
  have hattribute : (styleAttribute (first :: rest)).getD "" =
      " style=\"" ++ Markup.escape (";".intercalate ((first :: rest).map
        fun declaration => declaration.1 ++ ":" ++ declaration.2)) ++ "\"" := rfl
  rw [hattribute, String.length_append, String.length_append, ← length_escape_declarations,
    show " style=\"".length = 8 by decide, show "\"".length = 1 by decide]
  omega

theorem length_styledTag (h : declarations ≠ []) :
    (styledTag tag data scopeIds declarations).length =
      (styledTag tag data scopeIds []).length + 8 + Fields.extent room declarations := by
  have hnone : ((styleAttribute []).getD "").length = 0 := rfl
  simp only [styledTag, String.length_append, length_styleAttribute h, hnone]
  omega

theorem nodup_keys_hiding :
    (Fields.keys (Style.without "display" declarations ++ [("display", "none")])).Nodup ↔
      (Fields.keys (Style.without "display" declarations)).Nodup := by
  have hnew := Style.not_mem_keys_without "display" declarations
  rw [Fields.keys, List.map_append, List.map_singleton, ← List.concat_eq_append,
    List.nodup_concat]
  exact and_iff_right hnew

/-- What hides an element comes last and changes nothing else, unless a property
    is declared twice. Then the text gets shorter than it should be. -/
theorem styledTag_hidden_iff :
    styledTag tag data scopeIds (hiddenStyle declarations) =
        styledTag tag data scopeIds
          (Style.without "display" declarations ++ [("display", "none")]) ↔
      (Fields.keys (Style.without "display" declarations)).Nodup := by
  have hsize (declaration : Declaration) : 0 < room declaration := Nat.succ_pos _
  rw [← nodup_keys_hiding]
  generalize hnew : Style.without "display" declarations ++ [("display", "none")] = changed
  have hchanged : changed ≠ [] := hnew ▸ List.concat_ne_nil _ _
  have hhidden : Fields.overlay [] changed ≠ [] := by
    intro hnil
    have hkey : "display" ∈ Fields.keys (Fields.overlay [] changed) :=
      Fields.mem_keys_overlay.mpr (.inr (Fields.mem_keys_iff.mpr
        ⟨"none", hnew ▸ List.mem_append_right _ List.mem_cons_self⟩))
    rw [hnil] at hkey
    cases hkey
  rw [hiddenStyle, hnew]
  constructor
  · intro heq
    by_contra htwice
    have hshorter := @Fields.extent_overlay_lt _ [] changed _ hsize List.nodup_nil htwice
    have hlength := congrArg String.length heq
    rw [length_styledTag hhidden, length_styledTag hchanged] at hlength
    rw [show Fields.extent room [] = 0 from rfl] at hshorter
    omega
  · intro honce
    rw [@Fields.overlay_eq_append _ [] changed honce, List.nil_append]

/-- With the standard modules, an element that is shown has all of its
    declarations, and one that is hidden has those without `display` and then
    `display:none` if none of the properties is declared twice, and only then. -/
theorem hidden_tag_iff (tag : String) (data : NodeData) (context : TagContext)
    (bindings : List DirectiveBinding) (inherited : List Bool)
    (hhidden : false ∈ shows data context)
    (hshown : false ∉ shows { data with directives := bindings }
      ⟨inherited, context.scopeIds⟩) :
    standard.startTag tag { data with directives := bindings } ⟨inherited, context.scopeIds⟩ =
        styledTag tag data context.scopeIds data.declarations ∧
      (standard.startTag tag data context = styledTag tag data context.scopeIds
          (Style.without "display" data.declarations ++ [("display", "none")]) ↔
        (Fields.keys (Style.without "display" data.declarations)).Nodup) := by
  rw [startTag_standard, startTag_standard, if_neg hshown, if_pos hhidden]
  exact ⟨rfl, styledTag_hidden_iff⟩

theorem hidden_tag_display :
    let data : NodeData := { NodeData.empty with
      staticStyle := some "color:red;display:block;top:1px"
      directives := [⟨"show", .bool false⟩] }
    false ∈ shows data .empty ∧
      standard.startTag "p" { data with directives := [⟨"show", .bool true⟩] } .empty =
        "<p style=\"color:red;display:block;top:1px\">" ∧
      standard.startTag "p" data .empty = "<p style=\"color:red;top:1px;display:none\">" := by
  intro data
  have hhidden : false ∈ shows data .empty := by decide
  obtain ⟨hshown, hiff⟩ := hidden_tag_iff "p" data .empty [⟨"show", .bool true⟩] [] hhidden
    (by decide)
  refine ⟨hhidden, hshown.trans ?_, (hiff.mpr ?_).trans ?_⟩ <;> decide +kernel

/-- A value for the left margin that comes after the margin of all sides is
    written before it if the left margin was declared before that as well. -/
theorem hidden_tag_margins : ¬ ∀ (tag : String) (data : NodeData) (context : TagContext),
    false ∈ shows data context →
    standard.startTag tag data context = styledTag tag data context.scopeIds
      (Style.without "display" data.declarations ++ [("display", "none")]) := by
  intro hall
  have hsame := hall "p"
    { NodeData.empty with
      staticStyle := some "margin-left:1px;margin:2px;margin-left:3px"
      directives := [⟨"show", .bool false⟩] } .empty (by decide)
  revert hsame
  decide +kernel

/-- With the standard modules an element is written the same whatever directives
    it has, but for `show`. -/
theorem standard_ignores : ∀ entry ∈ standard.modules, ∀ (data : NodeData)
    (directives : List DirectiveBinding),
    entry.2 { data with directives := directives } = entry.2 data := by
  intro entry hentry data directives
  simp only [standard, List.mem_cons, List.not_mem_nil, or_false] at hentry
  rcases hentry with rfl | rfl | rfl | rfl <;> rfl

section Nested

variable (hmodules : ∀ entry ∈ registry.modules, ∀ (data : NodeData)
  (directives : List DirectiveBinding),
  entry.2 { data with directives := directives } = entry.2 data)

include hmodules

theorem tagOf_directives (tag : String) (data : NodeData) (directives : List DirectiveBinding)
    (scopeIds : List String) :
    registry.tagOf tag { data with directives := directives } scopeIds =
      registry.tagOf tag data scopeIds := by
  rw [tagOf, List.filterMap_congr fun entry hentry => hmodules entry hentry data directives]
  rfl

/-- An element with nothing but `show` on it is hidden or not. -/
theorem startTag_of_shows (hshow : ∀ binding ∈ bindings, binding.name = "show")
    (hdata : data.directives = []) :
    registry.startTag tag { data with directives := bindings } context =
      if false ∈ bindings.map (·.value.truthy) ++ context.shown then
        registry.startTag tag data ⟨[false], context.scopeIds⟩
      else registry.startTag tag data ⟨[], context.scopeIds⟩ := by
  have hbare (shown : List Bool) : shows data ⟨shown, context.scopeIds⟩ = shown := by
    rw [shows, hdata]
    rfl
  have hnone : ∀ binding ∈ data.directives, binding.name = "show" ∨
      Fields.get? registry.directives binding.name = none := by
    rw [hdata]
    exact fun _ h => absurd h List.not_mem_nil
  have hshows : shows { data with directives := bindings } context =
      bindings.map (·.value.truthy) ++ context.shown := by
    rw [shows, List.filter_eq_self.mpr fun binding hmem => beq_iff_eq.mpr (hshow binding hmem)]
  rw [startTag_eq fun binding hmem => .inl (hshow binding hmem), startTag_eq hnone,
    startTag_eq hnone, hshows, hbare, hbare, if_pos List.mem_cons_self,
    if_neg List.not_mem_nil]
  split
  · exact tagOf_directives hmodules tag (hide data) bindings context.scopeIds
  · exact tagOf_directives hmodules tag data bindings context.scopeIds

omit hmodules in
theorem directive?_show (component : NodeData)
    (hshow : ∀ binding ∈ bindings, binding.name = "show") :
    NodeData.directive? { component with directives := bindings } "show" = bindings.head? := by
  cases bindings with
  | nil => rfl
  | cons first rest =>
      exact List.find?_cons_of_pos (beq_iff_eq.mpr (hshow first List.mem_cons_self))

/-- The root of a component has the start tag that it would have with the `show`
    bindings of the component on it, if one that is false is the first or if
    something further out hides the root anyway, and otherwise only if hiding
    makes no difference. -/
theorem nested_tag_iff (tag : String) (component : NodeData) (context : TagContext)
    (scopeId : Option String) (hshow : ∀ binding ∈ bindings, binding.name = "show")
    (hdata : data.directives = []) :
    registry.startTag tag data (context.nest { component with directives := bindings } scopeId) =
        registry.startTag tag { data with directives := bindings }
          (context.nest { component with directives := [] } scopeId) ↔
      (∀ binding ∈ bindings, binding.value.truthy = false →
        (∃ first ∈ bindings.head?, first.value.truthy = false) ∨ false ∈ context.shown) ∨
      registry.startTag tag data ⟨[false], context.scopeIds ++ scopeId.toList⟩ =
        registry.startTag tag data ⟨[], context.scopeIds ++ scopeId.toList⟩ := by
  have hown : false ∈ bindings.map (·.value.truthy) ++ context.shown ↔
      (∃ binding ∈ bindings, binding.value.truthy = false) ∨ false ∈ context.shown := by
    rw [List.mem_append, List.mem_map]
  have hinherited : false ∈ context.shown ++ (bindings.head?.map (·.value.truthy)).toList ↔
      (∃ first ∈ bindings.head?, first.value.truthy = false) ∨ false ∈ context.shown := by
    rw [List.mem_append, Option.mem_toList, Option.map_eq_some_iff, or_comm]
    rfl
  have hnest : context.nest { component with directives := bindings } scopeId =
      ⟨context.shown ++ (bindings.head?.map (·.value.truthy)).toList,
        context.scopeIds ++ scopeId.toList⟩ := by
    rw [TagContext.nest, directive?_show component hshow]
  have hbare : context.nest { component with directives := [] } scopeId =
      ⟨context.shown, context.scopeIds ++ scopeId.toList⟩ := by
    rw [TagContext.nest]
    exact congrArg (TagContext.mk · _) (List.append_nil _)
  have hnested := @startTag_of_shows registry data
    (context.nest { component with directives := bindings } scopeId) tag [] hmodules
    (fun _ h => absurd h List.not_mem_nil) hdata
  rw [List.map_nil, List.nil_append, hnest, ← hdata] at hnested
  rw [startTag_of_shows hmodules hshow hdata, hbare, hnest]
  dsimp only at hnested ⊢
  rw [hnested]
  simp only [hown, hinherited]
  by_cases houter : (∃ first ∈ bindings.head?, first.value.truthy = false) ∨ false ∈ context.shown
  · have hboth : (∃ binding ∈ bindings, binding.value.truthy = false) ∨ false ∈ context.shown :=
      houter.imp_left fun ⟨first, hfirst, hfalse⟩ => ⟨first, List.mem_of_mem_head? hfirst, hfalse⟩
    rw [if_pos houter, if_pos hboth]
    exact iff_of_true rfl (.inl fun _ _ _ => houter)
  · by_cases hlater : ∃ binding ∈ bindings, binding.value.truthy = false
    · -- Only the scan of all bindings finds the one that is false.
      rw [if_neg houter, if_pos (.inl hlater)]
      refine ⟨fun heq => .inr heq.symm, ?_⟩
      rintro (hfirst | heq)
      · obtain ⟨binding, hmem, hfalse⟩ := hlater
        exact absurd (hfirst binding hmem hfalse) houter
      · exact heq.symm
    · rw [if_neg houter, if_neg (not_or.mpr ⟨hlater, fun h => houter (.inr h)⟩)]
      exact iff_of_true rfl (.inl fun binding hmem hfalse => absurd ⟨binding, hmem, hfalse⟩ hlater)

end Nested

theorem nested_tag_link :
    let bindings : List DirectiveBinding := [⟨"show", .bool false⟩, ⟨"show", .bool true⟩]
    (∀ entry ∈ standard.modules, ∀ (data : NodeData) (directives : List DirectiveBinding),
      entry.2 { data with directives := directives } = entry.2 data) ∧
    (∀ binding ∈ bindings, binding.name = "show") ∧ NodeData.empty.directives = [] ∧
    standard.startTag "a" .empty
        (TagContext.empty.nest { NodeData.empty with directives := bindings } (some "x")) =
      standard.startTag "a" { NodeData.empty with directives := bindings }
        (TagContext.empty.nest .empty (some "x")) := by
  intro bindings
  have hshow : ∀ binding ∈ bindings, binding.name = "show" := by
    rintro binding hmem
    simp only [bindings, List.mem_cons, List.not_mem_nil, or_false] at hmem
    rcases hmem with rfl | rfl <;> rfl
  refine ⟨standard_ignores, hshow, rfl, ?_⟩
  -- The first binding is false.
  exact (nested_tag_iff standard_ignores "a" .empty .empty (some "x") hshow rfl).mpr
    (.inl fun _ _ _ => .inl ⟨_, rfl, rfl⟩)

/-- The second of two bindings hides an element that it is on, and does not hide
    the root of a component that it is on. -/
theorem nested_tag_second : ¬ ∀ (tag : String) (data component : NodeData) (context : TagContext)
    (scopeId : Option String) (bindings : List DirectiveBinding),
    (∀ binding ∈ bindings, binding.name = "show") → data.directives = [] →
    standard.startTag tag data (context.nest { component with directives := bindings } scopeId) =
      standard.startTag tag { data with directives := bindings }
        (context.nest { component with directives := [] } scopeId) := by
  intro hall
  have hsame := hall "p" .empty .empty .empty none [⟨"show", .bool true⟩, ⟨"show", .bool false⟩]
    (by
      rintro binding hmem
      simp only [List.mem_cons, List.not_mem_nil, or_false] at hmem
      rcases hmem with rfl | rfl <;> rfl) rfl
  revert hsame
  decide +kernel

end Registry

end RenderFold
