import RenderFold.Proofs.Component.Received
import RenderFold.Proofs.Script.Shared

/-!
# Setting a Property

Setting a property of an element rewrites one node: the object that is its data,
or the call itself, where an object is put after the tag. What stands below the
other parts of the call is left alone, since none of it leads to the node that
is rewritten. The new value may be shared with other expressions; all that is
asked is that it does not lead to that node either, or the call would become
part of itself.

## Main definitions

* `Arena.dataPlace`: The node that is rewritten when a property is set.

## Theorems

* `IsTree.tree_setProperty`: The call after a property is set.
* `Arena.setProperty_receives`: What the element receives then, or that the
  call is what it was.
-/

namespace RenderFold

open Script (Tree Node Id)

namespace Script.Arena

variable {arena : Arena} {call value id x : Id} {path : List Nat}

/-- The node that is rewritten when a property of a call is set. -/
def dataPlace (arena : Arena) (call : Id) : Id :=
  match (arena.arguments call)[1]? with
  | some data =>
    match arena.get data with
    | .object _ => data
    | _ => call
  | none => call

theorem dataPlace_of_arguments {tag second : Id} {rest : List Id}
    (h : arena.arguments call = tag :: second :: rest) :
    arena.dataPlace call = match arena.get second with
      | .object _ => second
      | _ => call := by
  rw [dataPlace, h]
  rfl

/-- Rewriting a node, with or without others added before, leaves alone what
    does not lead to it. -/
theorem Grounded.replace_apart {after : Arena} (h : arena.Grounded x) (hext : Extends arena after)
    (node : Node Id) (hapart : ∀ path, ¬ arena.Path x path id) :
    (after.replace id node).Grounded x ∧ (after.replace id node).tree x = arena.tree x :=
  have hclear : arena.Clear id x := ⟨h, hapart⟩
  (hclear.replace hext node).imp_left Clear.grounded

/-- Two parts of a tree that stand in different places lead to different
    nodes. -/
theorem IsTree.parts_apart (h : IsTree arena id) {i j : Nat} {a b : Id}
    (ha : (arena.get id).children[i]? = some a) (hb : (arena.get id).children[j]? = some b)
    (hne : i ≠ j) : ∀ path, ¬ arena.Path a path b := by
  intro path hpath
  have heq := h.unique _ _ b (.down ha hpath) (.down hb .here)
  exact hne (List.cons.inj heq).1

/-- An object is put after the tag of a call. -/
theorem IsTree.tree_insertData (hcall : IsTree arena call) {callee tag : Id} {rest : List Id}
    (hget : arena.get call = .call callee (tag :: rest))
    (hcallee : arena.get callee = .ident Helper.element.name) (hvalue : arena.Grounded value)
    (hapart : ∀ path, ¬ arena.Path value path call) (key : String) :
    (arena.insertData call key value).1 = true ∧
      (arena.insertData call key value).2.tree call = .ofCall .element
        (arena.tree tag :: .mk (.object [(key, arena.tree value)]) :: rest.map arena.tree) := by
  have hext := Extends.push arena (.object [(key, value)])
  have hobject := get_push_self arena (.object [(key, value)])
  have hdata : (arena.push (.object [(key, value)])).1 ≠ call :=
    Nat.ne_of_gt (hcall.lt_size [] call .here)
  have hlt : call < arena.size := hcall.lt_size [] call .here
  unfold insertData
  generalize arena.push (.object [(key, value)]) = pushed at hext hobject hdata
  obtain ⟨data, after⟩ := pushed
  dsimp only at hext hobject hdata ⊢
  rw [hext.2 call hlt, hget]
  refine ⟨rfl, ?_⟩
  dsimp only
  have hnode := get_replace_self (Nat.lt_of_lt_of_le hlt hext.1)
    (.call callee (tag :: data :: rest))
  set edited := after.replace call (.call callee (tag :: data :: rest))
  have hparts : ∀ x ∈ (arena.get call).children,
      edited.Grounded x ∧ edited.tree x = arena.tree x := fun x hx =>
    (hcall.grounded.part hx).replace_apart hext _ (hcall.grounded.part_apart hx)
  rw [hget] at hparts
  have harguments : ∀ x ∈ tag :: rest, edited.Grounded x ∧ edited.tree x = arena.tree x :=
    fun x hx => hparts x (List.mem_cons_of_mem _ hx)
  obtain ⟨htag, hrest⟩ := List.forall_mem_cons.mp harguments
  have hvalue : edited.Grounded value ∧ edited.tree value = arena.tree value :=
    hvalue.replace_apart hext _ hapart
  -- The object is new, so it is not the call.
  have hobject' : edited.get data = .object [(key, value)] :=
    (get_replace_of_ne after _ hdata).trans hobject
  have hgrounded : edited.Grounded data := by
    refine .of_parts (lt_size_of_get hobject' fun h => by cases h) fun part hpart => ?_
    rw [hobject'] at hpart
    rw [List.mem_singleton.mp hpart]
    exact hvalue.1
  have hname : edited.get callee = .ident Helper.element.name := by
    have hne : callee ≠ call := by
      rintro rfl
      rw [hget] at hcallee
      cases hcallee
    have hlt' : callee < arena.size := lt_size_of_get hcallee fun h => by cases h
    rw [get_replace_of_ne after _ hne, hext.2 callee hlt', hcallee]
  rw [tree_call_of_grounded hnode hname (List.forall_mem_cons.mpr ⟨htag.1,
      List.forall_mem_cons.mpr ⟨hgrounded, fun x hx => (hrest x hx).1⟩⟩),
    List.map_cons, List.map_cons, htag.2, hgrounded.tree_eq, hobject',
    List.map_congr_left fun x hx => (hrest x hx).2]
  simp only [Node.map, List.map_cons, List.map_nil, hvalue.2]

/-- The data of a call is changed. -/
theorem IsTree.tree_replaceData (hcall : IsTree arena call) {callee tag data : Id}
    {rest : List Id} {properties : List (String × Id)}
    (hget : arena.get call = .call callee (tag :: data :: rest))
    (hcallee : arena.get callee = .ident Helper.element.name)
    (hdata : arena.get data = .object properties) (hvalue : arena.Grounded value)
    (hapart : ∀ path, ¬ arena.Path value path data) (key : String) :
    (arena.replace data (.object (Fields.insert properties key value))).tree call =
      .ofCall .element (arena.tree tag :: .mk (.object (Fields.insert
        (properties.map fun property => (property.1, arena.tree property.2)) key
        (arena.tree value))) :: rest.map arena.tree) := by
  have hext := Extends.refl arena
  have hnode := get_replace_self (lt_size_of_get hdata fun h => by cases h)
    (.object (Fields.insert properties key value))
  set edited := arena.replace data (.object (Fields.insert properties key value))
  have hplace : (arena.get call).children[2]? = some data := by
    rw [hget]
    rfl
  -- No other part of the call leads to the data.
  have hparts : ∀ {place : Nat} {x : Id}, (arena.get call).children[place]? = some x → place ≠ 2 →
      edited.Grounded x ∧ edited.tree x = arena.tree x := fun hx hne =>
    (hcall.grounded.part (List.mem_of_getElem? hx)).replace_apart hext _
      (hcall.parts_apart hx hplace hne)
  rw [hget] at hparts
  have htag : edited.Grounded tag ∧ edited.tree tag = arena.tree tag :=
    @hparts 1 tag rfl (by decide)
  have hrest : ∀ x ∈ rest, edited.Grounded x ∧ edited.tree x = arena.tree x := by
    intro x hx
    obtain ⟨i, hi⟩ := List.getElem?_of_mem hx
    exact @hparts (i + 3) x hi (by omega)
  have hproperties : ∀ property ∈ Fields.insert properties key value,
      edited.Grounded property.2 ∧ edited.tree property.2 = arena.tree property.2 := by
    intro property hmem
    rcases Fields.mem_of_mem_insert hmem with rfl | hmem
    · exact hvalue.replace_apart hext _ hapart
    · have hpart : property.2 ∈ (arena.get data).children := by
        rw [hdata]
        exact List.mem_map_of_mem hmem
      have hgrounded := hcall.grounded.below (.down hplace .here)
      exact (hgrounded.part hpart).replace_apart hext _ (hgrounded.part_apart hpart)
  have hgrounded : edited.Grounded data := by
    refine .of_parts (lt_size_of_get hnode fun h => by cases h) fun part hpart => ?_
    rw [hnode] at hpart
    obtain ⟨property, hmem, rfl⟩ := List.mem_map.mp hpart
    exact (hproperties property hmem).1
  have hgetE : edited.get call = .call callee (tag :: data :: rest) := by
    have hne : call ≠ data := by
      rintro rfl
      rw [hget] at hdata
      cases hdata
    rw [get_replace_of_ne arena _ hne, hget]
  have hname : edited.get callee = .ident Helper.element.name := by
    have hne : callee ≠ data := by
      rintro rfl
      rw [hdata] at hcallee
      cases hcallee
    rw [get_replace_of_ne arena _ hne, hcallee]
  rw [tree_call_of_grounded hgetE hname (List.forall_mem_cons.mpr ⟨htag.1,
      List.forall_mem_cons.mpr ⟨hgrounded, fun x hx => (hrest x hx).1⟩⟩),
    List.map_cons, List.map_cons, htag.2, hgrounded.tree_eq, hnode,
    List.map_congr_left fun x hx => (hrest x hx).2, Fields.insert_map, Node.map,
    List.map_congr_left fun property hmem => by rw [(hproperties property hmem).2]]

/-- Setting a property of a call: either it is one of an element and gets other
    arguments, or it stays what it is. -/
theorem IsTree.tree_setProperty (hcall : IsTree arena call) (hvalue : arena.Grounded value)
    (hapart : ∀ path, ¬ arena.Path value path (arena.dataPlace call)) (key : String) :
    ((arena.setProperty call key value).1 = false →
      (arena.setProperty call key value).2.tree call = arena.tree call) ∧
    ((arena.setProperty call key value).1 = true →
      ∃ arguments edited, Tree.DataSet key (arena.tree value) arguments edited ∧
        arena.tree call = .ofCall .element arguments ∧
        (arena.setProperty call key value).2.tree call = .ofCall .element edited) := by
  by_cases helement : arena.helper? call = some .element
  · obtain ⟨callee, hget, hcallee⟩ := call_of_helper? helement
    have htree : arena.tree call = .ofCall .element ((arena.arguments call).map arena.tree) :=
      hcall.tree_call helement
    unfold setProperty
    rw [if_pos helement]
    cases harguments : arena.arguments call with
    | nil =>
        rw [harguments] at hget
        have hlt : call < arena.size := hcall.lt_size [] call .here
        have hext := Extends.push arena (.object [(key, value)])
        have hinsert : arena.insertData call key value =
            (false, (arena.push (.object [(key, value)])).2) := by
          unfold insertData
          dsimp only
          rw [hext.2 call hlt, hget]
        rw [List.getElem?_nil, hinsert]
        refine ⟨fun _ => (hcall.grounded.same hext.1 fun path x hpath => ?_).2, fun h => by cases h⟩
        exact hext.2 x (hcall.lt_size path x hpath)
    | cons tag rest =>
        rw [harguments] at hget htree
        -- Data is inserted before what is left of the arguments.
        have hinserted (hdata : Tree.DataSet key (arena.tree value)
              ((tag :: rest).map arena.tree)
              (arena.tree tag :: .mk (.object [(key, arena.tree value)]) :: rest.map arena.tree))
            (hplace : arena.dataPlace call = call) :
            ((arena.insertData call key value).1 = false →
              (arena.insertData call key value).2.tree call = arena.tree call) ∧
            ((arena.insertData call key value).1 = true →
              ∃ arguments edited, Tree.DataSet key (arena.tree value) arguments edited ∧
                arena.tree call = .ofCall .element arguments ∧
                (arena.insertData call key value).2.tree call = .ofCall .element edited) := by
          rw [hplace] at hapart
          obtain ⟨hyes, hafter⟩ := hcall.tree_insertData hget hcallee hvalue hapart key
          refine ⟨fun h => ?_, fun _ => ⟨_, _, hdata, htree, hafter⟩⟩
          rw [hyes] at h
          cases h
        cases rest with
        | nil =>
            refine hinserted (.alone _) ?_
            rw [dataPlace, harguments]
            rfl
        | cons second rest =>
            have hsecond : arena.tree second = .mk ((arena.get second).map arena.tree) := by
              refine (hcall.part ?_).tree_eq
              rw [hget]
              exact List.mem_cons_of_mem _ (List.mem_cons_of_mem _ List.mem_cons_self)
            rw [List.getElem?_cons_succ, List.getElem?_cons_zero]
            dsimp only
            split
            · next properties hobject =>
                rw [dataPlace_of_arguments harguments, hobject] at hapart
                rw [List.map_cons, List.map_cons, hsecond, hobject, Node.map] at htree
                have hafter := hcall.tree_replaceData hget hcallee hobject hvalue hapart key
                exact ⟨fun h => (by cases h), fun _ => ⟨_, _, .changed _ _ _, htree, hafter⟩⟩
            · next elements hlist =>
                refine hinserted ?_ (by rw [dataPlace_of_arguments harguments, hlist])
                rw [List.map_cons, List.map_cons, hsecond, hlist, Node.map]
                exact .ahead _ _ _
            · exact ⟨fun _ => rfl, fun h => by cases h⟩
  · unfold setProperty
    rw [if_neg helement]
    exact ⟨fun _ => rfl, fun h => by cases h⟩

end Script.Arena

open Evaluator
open Script (Arena)
open Script.Arena (IsTree)

/-- Setting a property of a call sets what the element receives. If the answer
    is no, the call is what it was. If it is yes, the call is one of an element,
    and wherever its arguments and the value evaluate, so do its new arguments:
    to the same tag, the same children, and the same data with the new value,
    as long as the data does not name the property again. -/
theorem Script.Arena.setProperty_receives {arena : Arena} {call value : Id}
    (hcall : IsTree arena call) (hvalue : arena.Grounded value)
    (hapart : ∀ path, ¬ arena.Path value path (arena.dataPlace call)) (key : String) :
    ((arena.setProperty call key value).1 = false →
      (arena.setProperty call key value).2.tree call = arena.tree call) ∧
    ((arena.setProperty call key value).1 = true →
      ∃ arguments edited, arena.tree call = .ofCall .element arguments ∧
        (arena.setProperty call key value).2.tree call = .ofCall .element edited ∧
        ∀ (setting : Setting) (env : Env) (bound depth start stop other stop' : Nat)
          (given : List Datum) (datum : Datum), env.Older bound → bound ≤ start →
          arguments.mapM (eval setting depth env) start = .ok (given, stop) → bound ≤ other →
          eval setting depth env (arena.tree value) other = .ok (datum, stop') →
          ∃ received stop'',
            edited.mapM (eval setting (depth + 1) env) start = .ok (received, stop'') ∧
            Receives bound (Tree.timesNamed key arguments) key datum.toValue given received) := by
  obtain ⟨hleft, hset⟩ := hcall.tree_setProperty hvalue hapart key
  refine ⟨hleft, fun hyes => ?_⟩
  obtain ⟨arguments, edited, hdata, hbefore, hafter⟩ := hset hyes
  refine ⟨arguments, edited, hbefore, hafter, ?_⟩
  intro setting env bound depth start stop other stop' given datum henv hstart harguments hother
    heval
  exact hdata.receives henv hstart harguments hother heval

/-- A card whose title is written out, and a variable to set the title to. -/
def titledCard : Arena :=
  ⟨#[.ident "_c", .str "card", .str "one", .object [("title", 2)], .array [], .call 0 [1, 3, 4],
    .ident "name"]⟩

theorem setProperty_receives_title :
    IsTree titledCard 5 ∧ titledCard.Grounded 6 ∧
      (∀ path, ¬ titledCard.Path 6 path (titledCard.dataPlace 5)) ∧
      (titledCard.setProperty 5 "title" 6).1 = true ∧
      ∃ edited received stop, (titledCard.setProperty 5 "title" 6).2.tree 5 =
          .ofCall .element edited ∧
        edited.mapM (eval ⟨"page", [("name", .str "ada")], [], []⟩ 3 []) 0 = .ok (received, stop) ∧
        ∃ fields, dataFields? received = some fields ∧
          Fields.get? fields "title" = some (.str "ada") := by
  have hlt : ∀ id < 7, id < titledCard.size := fun _ h => h
  have hspan : Arena.Spans titledCard [5] [5, 0, 1, 3, 2, 4] :=
    .cons (hlt 5 (by decide)) (.cons (hlt 0 (by decide)) .nil (.cons (hlt 1 (by decide)) .nil
      (.cons (hlt 3 (by decide)) (.cons (hlt 2 (by decide)) .nil .nil)
        (.cons (hlt 4 (by decide)) .nil .nil)))) .nil
  have hforest : Arena.Forest Set.univ titledCard [5] :=
    ⟨_, hspan, by decide, fun _ _ => trivial⟩
  have htree : IsTree titledCard 5 := hforest.isTree List.mem_cons_self
  have hvalue : titledCard.Grounded 6 := by decide
  have hapart : ∀ path, ¬ titledCard.Path 6 path (titledCard.dataPlace 5) := fun path hpath =>
    absurd (hvalue.mem_visits_iff.mpr ⟨path, hpath⟩) (by decide)
  refine ⟨htree, hvalue, hapart, rfl, ?_⟩
  obtain ⟨arguments, edited, hbefore, hafter, hreceives⟩ :=
    (Script.Arena.setProperty_receives htree hvalue hapart "title").2 rfl
  cases hbefore
  obtain ⟨received, stop, heval, h⟩ := hreceives ⟨"page", [("name", .str "ada")], [], []⟩ [] 0 2 0 0
    0 0 [.str "card", .value (.object [("title", .str "one")]), .ofItems []] (.str "ada")
    (fun _ h => absurd h List.not_mem_nil) (Nat.le_refl 0) rfl (Nat.le_refl 0) rfl
  obtain ⟨fields, hfields, hdata, -⟩ := h.data
  refine ⟨edited, received, stop, hafter, heval, fields, hfields, ?_⟩
  rw [hdata.mpr (.inl (by decide))]
  exact Fields.get?_insert_self _ _ _

/-- An element whose data names a property twice, and a text to set it to. -/
def twiceNamed : Arena :=
  ⟨#[.ident "_c", .str "p", .str "one", .str "two", .object [("key", 2), ("key", 3)],
    .call 0 [1, 4], .str "three"]⟩

/-- The answer is yes, but what the element received before is what it receives
    after, and that is not its data with the new value. -/
theorem setProperty_overwritten :
    (twiceNamed.setProperty 5 "key" 6).1 = true ∧ twiceNamed.tree 6 = .mk (.str "three") ∧
      ∃ arguments edited, twiceNamed.tree 5 = .ofCall .element arguments ∧
        (twiceNamed.setProperty 5 "key" 6).2.tree 5 = .ofCall .element edited ∧
        ∀ (setting : Setting) (env : Env) (start : Nat), ∃ given fields,
          arguments.mapM (eval setting 2 env) start = .ok (given, start) ∧
          edited.mapM (eval setting 2 env) start = .ok (given, start) ∧
          dataFields? given = some fields ∧
          fields ≠ Fields.insert fields "key" (.str "three") := by
  refine ⟨rfl, rfl, _, _, rfl, rfl, fun _ _ _ => ⟨_, [("key", .str "two")], rfl, rfl, rfl, ?_⟩⟩
  intro h
  rw [eq_comm, Fields.insert_eq_self_iff] at h
  have htwo : Fields.get? [("key", Value.str "two")] "key" = some (.str "two") := rfl
  exact absurd (Value.str.inj (Option.some.inj (htwo.symm.trans h))) (by decide)

end RenderFold
