import RenderFold.Proofs.Component.Repeated
import RenderFold.Proofs.Data.Fields

/-!
# What an Element Receives

An element takes its first argument for its tag. A second argument that
evaluates to an object is its data, null stands for no data, and anything else
is taken for the children; after data or null the children come third. So a
property can be set in the arguments, without evaluating them, where the second
of them is written out as an object or as a list, or is missing.

An object may name a property several times. The last of them counts when the
object is evaluated, but the first of them is the one that is changed, so the
element receives the new value only if the object does not name the property
again.

## Main definitions

* `Evaluator.dataFields?`: The data among the arguments of an element.
* `Tree.timesNamed`: How often data names a property.
* `Tree.DataSet`: Arguments before and after a property is set.
* `Evaluator.Receives`: What an element receives after that.

## Theorems

* `Evaluator.callHelper_element`: An element is made of its tag, its data and
  its children.
* `Evaluator.properties_eq_ok`, `Evaluator.always_object`: An object evaluates
  to its entries, written one after the other.
* `Tree.DataSet.receives`: What an element receives after a property is set.
-/

namespace RenderFold

open Script (Tree Node)

/-- How often the data among the arguments of an element names a property. -/
def Script.Tree.timesNamed (key : String) : List Tree → Nat
  | _ :: .mk (.object properties) :: _ => (Fields.keys properties).count key
  | _ => 0

/-- The arguments of an element before and after a property is set. It is set
    in the data, or data is put after the tag where there is none. -/
inductive Script.Tree.DataSet (key : String) (value : Tree) : List Tree → List Tree → Prop where
  | changed (tag : Tree) (properties : List (String × Tree)) (rest : List Tree) :
      DataSet key value (tag :: .mk (.object properties) :: rest)
        (tag :: .mk (.object (Fields.insert properties key value)) :: rest)
  | alone (tag : Tree) : DataSet key value [tag] [tag, .mk (.object [(key, value)])]
  | ahead (tag : Tree) (elements rest : List Tree) :
      DataSet key value (tag :: .mk (.array elements) :: rest)
        (tag :: .mk (.object [(key, value)]) :: .mk (.array elements) :: rest)

namespace Evaluator

variable {setting : Setting} {recur : Env → Tree → Eval Datum} {env : Env}
  {bound depth start stop : Nat} {t value : Tree} {datum : Datum} {key : String}
  {fields : List (String × Tree)} {pairs out data : Fields Value}

/-- The data among the arguments of an element. -/
def dataFields? : List Datum → Option (Fields Value)
  | _ :: .value (.object fields) :: _ => some fields
  | _ => none

theorem dataFields?_of_not_isData {tag second : Datum} {rest : List Datum}
    (h : second.isData = false) : dataFields? (tag :: second :: rest) = none := by
  unfold dataFields?
  split
  · next heq =>
      cases heq
      cases h
  · rfl

theorem childDatum?_of_not_isData {tag second : Datum} {rest : List Datum}
    (h : second.isData = false) : childDatum? .element (tag :: second :: rest) = some second := by
  simp only [childDatum?, List.getElem?_cons_succ, List.getElem?_cons_zero, Option.any_some, h,
    Bool.false_eq_true, if_false]

/-- An element is made of its tag, its data and its children, and of nothing
    else among its arguments. -/
theorem callHelper_element (setting : Setting) (recur : Env → Tree → Eval Datum)
    (arguments : List Datum) :
    callHelper setting recur .element arguments =
      match arguments.head? with
      | some (.value (.str tag)) => construct setting tag
          ((dataFields? arguments).map Value.object) (childDatum? .element arguments)
      | _ => wrong .tagName := by
  match arguments with
  | [] => rfl
  | [.value (.str tag)] => rfl
  | .value (.str tag) :: second :: rest =>
      cases hdata : second.isData with
      | false =>
          rw [callHelper_second hdata, dataFields?_of_not_isData hdata,
            childDatum?_of_not_isData hdata]
          rfl
      | true =>
          have hthird :
              childDatum? .element (.value (.str tag) :: second :: rest) = rest.head? := by
            simp only [childDatum?, List.getElem?_cons_succ, List.getElem?_cons_zero,
              Option.any_some, hdata, if_true, List.head?_eq_getElem?]
          rw [hthird]
          unfold Datum.isData at hdata
          split at hdata
          · rfl
          · rfl
          · cases hdata
  | .value .null :: _ | .value (.bool _) :: _ | .value (.int _) :: _ | .value (.float _) :: _
  | .value (.array _) :: _ | .value (.object _) :: _ | .view .. :: _ | .list _ :: _
  | .closure .. :: _ => rfl

/-- An entry that is written out evaluates to a field from any serial number
    on. -/
def AlwaysField (setting : Setting) (env : Env) (bound depth : Nat) (t : Tree) (plain : Value) :
    Prop :=
  Always setting env bound depth t fun datum => datum.toValue = plain

theorem always_toValue (henv : env.Older bound) (hstart : bound ≤ start)
    (h : eval setting depth env t start = .ok (datum, stop)) :
    AlwaysField setting env bound depth t datum.toValue := by
  refine (Always.of_eval henv hstart h).mono ?_
  rintro other ⟨original, delay, delay', rfl, rfl⟩
  rw [Datum.toValue_renumbered, Datum.toValue_renumbered]

/-- An object evaluates to its entries, written one after the other. -/
theorem properties_eq_ok (henv : env.Older bound) (hstart : bound ≤ start)
    (h : properties (eval setting depth) env out fields start = .ok (data, stop)) :
    ∃ pairs, List.Forall₂ (fun field pair => field.1 = pair.1 ∧
        AlwaysField setting env bound depth field.2 pair.2) fields pairs ∧
      data = Fields.overlay out pairs := by
  induction fields generalizing out start with
  | nil => exact ⟨[], .nil, (Eval.pure_eq_ok h).1.symm⟩
  | cons field rest ih =>
      obtain ⟨name, t⟩ := field
      obtain ⟨datum, between, hfirst, hrest⟩ := Eval.bind_eq_ok h
      obtain ⟨pairs, hpairs, hdata⟩ := ih (hstart.trans (eval_le hfirst)) hrest
      have hfield := always_toValue henv hstart hfirst
      exact ⟨(name, datum.toValue) :: pairs, .cons ⟨rfl, hfield⟩ hpairs, hdata⟩

theorem properties_of_always
    (h : List.Forall₂ (fun field pair => field.1 = pair.1 ∧
      AlwaysField setting env bound depth field.2 pair.2) fields pairs) (hstart : bound ≤ start) :
    ∃ stop, properties (eval setting depth) env out fields start =
      .ok (Fields.overlay out pairs, stop) ∧ start ≤ stop := by
  induction h generalizing out start with
  | nil => exact ⟨start, rfl, Nat.le_refl start⟩
  | @cons field pair fields pairs hfirst _ ih =>
      obtain ⟨hname, halways⟩ := hfirst
      obtain ⟨datum, between, heval, hdatum, hle⟩ := halways start hstart
      obtain ⟨stop, hrest, hle'⟩ := @ih between (Fields.insert out field.1 datum.toValue)
        (hstart.trans hle)
      refine ⟨stop, (Eval.bind_of_ok heval).trans ?_, hle.trans hle'⟩
      rw [hrest, hname, hdatum]
      rfl

theorem always_object
    (h : List.Forall₂ (fun field pair => field.1 = pair.1 ∧
      AlwaysField setting env bound depth field.2 pair.2) fields pairs) :
    Always setting env bound (depth + 1) (.mk (.object fields))
      (· = .value (.object (Fields.overlay [] pairs))) := by
  intro start hstart
  obtain ⟨stop, hproperties, hle⟩ := @properties_of_always _ _ _ _ _ _ _ [] h hstart
  exact ⟨_, stop, (Eval.bind_of_ok hproperties).trans rfl, rfl, hle⟩

/-- What an element receives after a property is set, beside what it was given
    before. The tag is the same and so are the children, which are made later.
    The data has the new value, unless the property is named `named` times and
    more than once: then the data is what it was. -/
structure Receives (bound named : Nat) (key : String) (plain : Value)
    (given received : List Datum) : Prop where
  tag : received.head? = given.head?
  children : Option.Rel (Datum.Alike bound) (childDatum? .element given)
    (childDatum? .element received)
  data : ∃ fields, dataFields? received = some fields ∧
    (fields = Fields.insert ((dataFields? given).getD []) key plain ↔
      named ≤ 1 ∨ Fields.get? ((dataFields? given).getD []) key = some plain) ∧
    (1 < named → fields = (dataFields? given).getD [])

theorem head?_rel {α β : Type} {R : α → β → Prop} {xs : List α} {ys : List β}
    (h : List.Forall₂ R xs ys) : Option.Rel R xs.head? ys.head? := by
  cases h with
  | nil => exact .none
  | cons hfirst _ => exact .some hfirst

theorem childDatum?_object {tag : Datum} {rest : List Datum} :
    childDatum? .element (tag :: .value (.object data) :: rest) = rest.head? :=
  List.head?_eq_getElem?.symm

end Evaluator

open Evaluator

/-- What an element receives after a property is set, whatever its arguments
    evaluate to. -/
theorem Script.Tree.DataSet.receives {key : String} {value : Tree} {arguments edited : List Tree}
    (h : DataSet key value arguments edited) {setting : Setting} {env : Env}
    {bound depth start stop other stop' : Nat} {given : List Datum} {datum : Datum}
    (henv : env.Older bound) (hstart : bound ≤ start)
    (harguments : arguments.mapM (eval setting depth env) start = .ok (given, stop))
    (hother : bound ≤ other) (hvalue : eval setting depth env value other = .ok (datum, stop')) :
    ∃ received stop'', edited.mapM (eval setting (depth + 1) env) start = .ok (received, stop'') ∧
      Receives bound (timesNamed key arguments) key datum.toValue given received := by
  have hfield := always_toValue henv hother hvalue
  -- The object that is put after the tag.
  have hobject : Always setting env bound (depth + 1) (.mk (.object [(key, value)]))
      (· = .value (.object [(key, datum.toValue)])) := by
    have hpairs : List.Forall₂ (fun field pair => field.1 = pair.1 ∧
        AlwaysField setting env bound depth field.2 pair.2) [(key, value)] [(key, datum.toValue)] :=
      .cons ⟨rfl, hfield⟩ .nil
    exact always_object hpairs
  cases h with
  | alone tag =>
      obtain ⟨first, between, rest, hfirst, hrest, rfl⟩ := Eval.mapM_cons_eq_ok harguments
      obtain ⟨rfl, rfl⟩ := Eval.pure_eq_ok hrest
      have hle : bound ≤ between := hstart.trans (eval_le hfirst)
      obtain ⟨_, stop'', hsecond, rfl, -⟩ := hobject between hle
      refine ⟨_, stop'', Eval.mapM_cons_of_ok (eval_below env tag (Nat.le_succ depth) hfirst)
        (Eval.mapM_cons_of_ok hsecond rfl), rfl, .none, _, rfl, ?_, fun hnamed => ?_⟩
      · exact iff_of_true rfl (.inl (Nat.zero_le 1))
      · cases hnamed
  | ahead tag elements rest =>
      obtain ⟨first, between, others, hfirst, hothers, rfl⟩ := Eval.mapM_cons_eq_ok harguments
      have hle : bound ≤ between := hstart.trans (eval_le hfirst)
      -- The list is no data, so it was taken for the children before as well.
      obtain ⟨list, between', back, hlist, -, heq⟩ := Eval.mapM_cons_eq_ok hothers
      have hdata : list.isData = false := by
        cases depth with
        | zero => cases hlist
        | succ depth =>
            obtain ⟨items, c, -, hitems⟩ := Eval.bind_eq_ok hlist
            rw [← (Eval.pure_eq_ok hitems).1]
            exact Datum.isData_ofItems
      obtain ⟨_, c, hsecond, rfl, hle'⟩ := hobject between hle
      have hagain := (always_of_mapM henv hle hothers).imp fun _ _ h => h.deeper (Nat.le_succ depth)
      obtain ⟨others', stop'', hothers', hrelated, -⟩ := Always.mapM hagain (hle.trans hle')
      refine ⟨_, stop'', Eval.mapM_cons_of_ok (eval_below env tag (Nat.le_succ depth) hfirst)
        (Eval.mapM_cons_of_ok hsecond hothers'), rfl, ?_, _, rfl, ?_, fun hnamed => ?_⟩
      · rw [childDatum?_object, heq, childDatum?_of_not_isData hdata, ← List.head?_cons]
        exact head?_rel (heq ▸ hrelated)
      · rw [heq, dataFields?_of_not_isData hdata]
        exact iff_of_true rfl (.inl (Nat.zero_le 1))
      · cases hnamed
  | changed tag properties rest =>
      obtain ⟨first, between, others, hfirst, hothers, rfl⟩ := Eval.mapM_cons_eq_ok harguments
      have hle : bound ≤ between := hstart.trans (eval_le hfirst)
      obtain ⟨second, between', back, hdata, hback, rfl⟩ := Eval.mapM_cons_eq_ok hothers
      cases depth with
      | zero => cases hdata
      | succ depth =>
          obtain ⟨fields, c, hfields, hsecond⟩ := Eval.bind_eq_ok hdata
          obtain ⟨rfl, rfl⟩ := Eval.pure_eq_ok hsecond
          obtain ⟨pairs, hpairs, rfl⟩ := properties_eq_ok henv hle hfields
          have hnames := Fields.keys_eq_of_forall₂ hpairs
          -- The entries evaluate to what they did, and the one that is set to the new value.
          have hset : Always setting env bound (depth + 2)
              (.mk (.object (Fields.insert properties key value)))
              (· = .value (.object (Fields.overlay [] (Fields.insert pairs key datum.toValue)))) :=
            always_object (Fields.forall₂_insert
              (hpairs.imp fun _ _ h => ⟨h.1, h.2.deeper (Nat.le_succ depth)⟩) hfield)
          obtain ⟨_, c', hsecond', rfl, hle'⟩ := hset between hle
          have hagain := (always_of_mapM henv (hle.trans (eval_le hdata)) hback).imp fun _ _ h =>
            h.deeper (Nat.le_succ (depth + 1))
          obtain ⟨back', stop'', hback', hrelated, -⟩ := Always.mapM hagain (hle.trans hle')
          refine ⟨_, stop'', Eval.mapM_cons_of_ok (eval_below env tag (Nat.le_succ _) hfirst)
            (Eval.mapM_cons_of_ok hsecond' hback'), rfl, ?_, _, rfl, ?_, fun hnamed => ?_⟩
          · rw [childDatum?_object, childDatum?_object]
            exact head?_rel hrelated
          · rw [timesNamed, hnames]
            exact Fields.overlay_insert_iff
          · rw [timesNamed, hnames] at hnamed
            exact Fields.overlay_insert_of_lt_count hnamed _

end RenderFold
