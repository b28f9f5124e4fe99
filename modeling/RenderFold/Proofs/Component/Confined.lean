import RenderFold.Component.Engine
import RenderFold.Proofs.Component.Evaluated
import RenderFold.Proofs.Script.Accepted
import RenderFold.Proofs.Script.Names

/-!
# Confined Evaluation

What a render function can do follows from how it is written. It reads the
scope of its instance through the names that are written in it and in no
other way, so two scopes that agree on these names are the same to it. And
as it is in the grammar, expressions stand only where expressions are
evaluated, and statements only where statements are executed.

Both are told of the same trees: expressions of the grammar with names from a
given set. Functions that are made at run time are kept in variables and in
lists and called from there much later, so what holds of trees has to hold of
data as well: the bodies of all functions in a datum, and in the variables
that these have closed over, are such trees.

## Main definitions

* `RenderError.isStructural`: Errors about statements and expressions.
* `Script.Tree.Confined`, `Datum.Confined`: Expressions with given names only,
  and data whose functions are such.
* `Eval.Alike`: Computations that come to the same, and how they end.

## Theorems

* `Evaluator.step_alike`, `Evaluator.eval_alike`: Expressions.
* `Evaluator.exec_alike`: Statements.
* `Engine.render_not_structural`: No structural errors.
* `Engine.render_eq_of_scopes`: Scopes that agree on the names in a function.
-/

namespace RenderFold

open Script (Tree Node)

namespace Script

namespace Tree

/-- An expression of the grammar that looks up names of the given kind only. -/
structure Confined (allowed : String → Prop) (t : Tree) : Prop where
  expression : Expression t
  names : ∀ name ∈ t.names, allowed name

theorem Confined.part {allowed : String → Prop} {node : Node Tree} {t : Tree}
    (hnames : ∀ name ∈ (Tree.mk node).names, allowed name) (ht : t ∈ node.children)
    (hexpression : Expression t) : t.Confined allowed :=
  ⟨hexpression, fun name hname => hnames name (names_part ht hname)⟩

end Tree

end Script

/-- A datum whose functions are all confined, those included that they have
    closed over. -/
inductive Datum.Confined (allowed : String → Prop) : Datum → Prop where
  | value {v} : Confined allowed (.value v)
  | view {serial root} : Confined allowed (.view serial root)
  | list {items} (hitems : ∀ item ∈ items, Confined allowed item) : Confined allowed (.list items)
  | closure {serial params body} {env : List (List (String × Datum))}
      (hbody : body.Confined allowed)
      (henv : ∀ locals ∈ env, ∀ entry ∈ locals, Confined allowed entry.2) :
      Confined allowed (.closure serial params body env)

/-- Variables that hold confined data. -/
def Variables.Confined (allowed : String → Prop) (locals : Variables) : Prop :=
  ∀ entry ∈ locals, entry.2.Confined allowed

/-- Environments that hold confined data. -/
def Env.Confined (allowed : String → Prop) (env : Env) : Prop :=
  ∀ locals ∈ env, locals.Confined allowed

/-- Whether a fault is about an expression or a statement in the wrong place. -/
def TypeFault.isStructural : TypeFault → Bool
  | .notAFunction | .notAStatement | .notAnExpression => true
  | _ => false

/-- Whether an error is about an expression or a statement in the wrong
    place. -/
def RenderError.isStructural : RenderError → Bool
  | .typeError fault => fault.isStructural
  | _ => false

/-- Two computations that are the same. What they give, if they do, is as
    said, and no error is about expressions and statements in the wrong
    place. -/
structure Eval.Alike {α : Type} (holds : α → Prop) (x y : Eval α) : Prop where
  same : x = y
  result : ∀ ⦃c a c'⦄, x c = .ok (a, c') → holds a
  error : ∀ ⦃c e⦄, x c = .error e → e.isStructural = false

namespace Eval.Alike

variable {α β : Type} {holds : α → Prop} {holds' : β → Prop}

theorem pure {a : α} (h : holds a) : Alike holds (pure a) (pure a) where
  same := rfl
  result _ _ _ hpure := (pure_eq_ok hpure).1 ▸ h
  error _ _ hpure := by cases hpure

theorem throw {e : RenderError} (h : e.isStructural = false) :
    Alike holds (throw e) (throw e) where
  same := rfl
  result _ _ _ hthrow := by cases hthrow
  error _ _ hthrow := by cases hthrow; exact h

theorem lift {x : Except RenderError α} (hresult : ∀ a, x = .ok a → holds a)
    (herror : ∀ e, x = .error e → e.isStructural = false) :
    Alike holds (liftM x : Eval α) (liftM x) where
  same := rfl
  result c a c' h := by
    cases x with
    | error e => cases h
    | ok b => cases h; exact hresult a rfl
  error c e h := by
    cases x with
    | error e => cases h; exact herror e rfl
    | ok b => cases h

theorem bind {x y : Eval α} {f g : α → Eval β} (hx : Alike holds x y)
    (hf : ∀ a, holds a → Alike holds' (f a) (g a)) : Alike holds' (x >>= f) (y >>= g) where
  same := by
    funext c
    rw [← hx.same]
    change Except.bind (x c) (fun (a, between) => f a between) =
      Except.bind (x c) (fun (a, between) => g a between)
    cases hresult : x c with
    | error e => rfl
    | ok found => exact congrFun (hf found.1 (hx.result hresult)).same found.2
  result c b c' h := by
    obtain ⟨a, between, hxa, hfa⟩ := bind_eq_ok h
    exact (hf a (hx.result hxa)).result hfa
  error c e h := by
    change Except.bind (x c) (fun (a, between) => f a between) = .error e at h
    cases hresult : x c with
    | error e' =>
        rw [hresult] at h
        cases h
        exact hx.error hresult
    | ok found =>
        rw [hresult] at h
        exact (hf found.1 (hx.result hresult)).error h

/-- The result of the one computation is changed in the end. -/
theorem map {x y : Eval α} {f : α → β} (hx : Alike holds x y)
    (hf : ∀ a, holds a → holds' (f a)) :
    Alike holds' (do return f (← x)) (do return f (← y)) :=
  hx.bind fun a ha => pure (hf a ha)

theorem mapM {f g : α → Eval β} {xs : List α} (hf : ∀ a ∈ xs, Alike holds' (f a) (g a)) :
    Alike (fun results => ∀ b ∈ results, holds' b) (xs.mapM f) (xs.mapM g) := by
  induction xs with
  | nil => exact pure (List.forall_mem_nil _)
  | cons x xs ih =>
      rw [List.mapM_cons, List.mapM_cons]
      obtain ⟨hx, hxs⟩ := List.forall_mem_cons.mp hf
      exact hx.bind fun b hb => (ih hxs).bind fun rest hrest =>
        pure (List.forall_mem_cons.mpr ⟨hb, hrest⟩)

end Eval.Alike

namespace Except

variable {ε α β : Type} {e : ε}

/-- Work on a list that fails has failed at one of the items. -/
theorem exists_of_mapM_error {f : α → Except ε β} {xs : List α} (h : xs.mapM f = .error e) :
    ∃ x ∈ xs, f x = .error e := by
  induction xs with
  | nil => cases h
  | cons x xs ih =>
      rw [List.mapM_cons] at h
      cases hx : f x with
      | error e' =>
          rw [hx] at h
          cases h
          exact ⟨x, List.mem_cons_self, hx⟩
      | ok b =>
          rw [hx] at h
          cases hxs : xs.mapM f with
          | error e' =>
              rw [hxs] at h
              cases h
              obtain ⟨x', hmem, hx'⟩ := ih hxs
              exact ⟨x', List.mem_cons_of_mem x hmem, hx'⟩
          | ok bs => rw [hxs] at h; cases h

/-- A fold that fails has failed at one of the items. -/
theorem exists_of_foldlM_error {f : β → α → Except ε β} {xs : List α} {b : β}
    (h : xs.foldlM f b = .error e) : ∃ b, ∃ x ∈ xs, f b x = .error e := by
  induction xs generalizing b with
  | nil => cases h
  | cons x xs ih =>
      rw [List.foldlM_cons] at h
      cases hx : f b x with
      | error e' =>
          rw [hx] at h
          cases h
          exact ⟨b, x, List.mem_cons_self, hx⟩
      | ok b' =>
          rw [hx] at h
          obtain ⟨b'', x', hmem, hx'⟩ := ih h
          exact ⟨b'', x', List.mem_cons_of_mem x hmem, hx'⟩

end Except

section Data

variable {allowed : String → Prop} {datum found position : Datum} {items : List Datum}
  {e : RenderError}

namespace Datum

theorem ofItems_confined (h : ∀ item ∈ items, item.Confined allowed) :
    (ofItems items).Confined allowed := by
  unfold ofItems
  dsimp only
  split
  · exact .value
  · exact .list h

theorem getD_confined {choice : Option Datum} (h : ∀ item ∈ choice, item.Confined allowed) :
    (choice.getD .null).Confined allowed := by
  cases choice with
  | none => exact .value
  | some item => exact h item rfl

/-- Properties are plain values. -/
theorem property_confined {name : String} (h : datum.property name = .ok found) :
    found.Confined allowed := by
  unfold property at h
  split at h
  · cases h
  · cases h; exact .value
  all_goals cases h
  all_goals try split
  all_goals exact .value

theorem property_error {name : String} (h : datum.property name = .error e) :
    e.isStructural = false := by
  unfold property at h
  split at h <;> cases h
  rfl

/-- A part of a list is one of its items, and other parts are plain values. -/
theorem part_confined (hdatum : datum.Confined allowed) (h : datum.part position = .ok found) :
    found.Confined allowed := by
  unfold part at h
  split at h
  · cases h
  · cases h; exact .value
  · cases hdatum with
    | list hitems =>
        cases h
        refine getD_confined fun item hitem => ?_
        obtain ⟨i, -, hi⟩ := Option.bind_eq_some_iff.mp hitem
        exact hitems item (List.mem_of_getElem? hi)
  · cases h; exact .value
  · cases h; exact .value

theorem part_error (h : datum.part position = .error e) : e.isStructural = false := by
  unfold part at h
  split at h <;> cases h
  rfl

end Datum

/-- A variable that is written is confined if its value is. -/
theorem Variables.Confined.insert {locals : Variables} {name : String}
    (h : locals.Confined allowed) (hdatum : datum.Confined allowed) :
    Variables.Confined allowed (Fields.insert locals name datum) := by
  intro entry hentry
  rcases Fields.mem_of_mem_insert hentry with rfl | hentry
  · exact hdatum
  · exact h entry hentry

namespace NodeData

theorem part_error {key : String} {value : Value} (h : part key value = .error e) :
    e.isStructural = false := by
  unfold part at h
  split at h <;> cases h
  rfl

theorem directive_error {item : Value} (h : directive item = .error e) :
    e.isStructural = false := by
  unfold directive at h
  split at h <;> cases h
  rfl

theorem addField_error {data : NodeData} {key : String} {value : Value}
    (h : data.addField key value = .error e) : e.isStructural = false := by
  have hpart {value : Value} {key : String} {change : Fields Value → NodeData}
      (h : (do return change (← part key value) : Except RenderError NodeData) = .error e) :
      e.isStructural = false := by
    cases hpart : part key value with
    | error e' => rw [hpart] at h; cases h; exact part_error hpart
    | ok fields => rw [hpart] at h; cases h
  unfold addField at h
  split at h
  case h_9 =>
    split at h
    · next items =>
        cases hitems : items.mapM directive with
        | ok bindings => rw [hitems] at h; cases h
        | error e' =>
            rw [hitems] at h
            cases h
            obtain ⟨item, -, hitem⟩ := Except.exists_of_mapM_error hitems
            exact directive_error hitem
    · cases h; rfl
  all_goals first | exact hpart h | cases h

/-- Data of the wrong shape is no matter of expressions and statements. -/
theorem ofValue_error {value : Value} (h : ofValue value = .error e) :
    e.isStructural = false := by
  unfold ofValue at h
  split at h
  · obtain ⟨data, field, -, hfield⟩ := Except.exists_of_foldlM_error h
    exact addField_error hfield
  · cases h; rfl

end NodeData

namespace Env

variable {env : Env} {name : String}

theorem get?_confined (henv : env.Confined allowed) (h : env.get? name = some datum) :
    datum.Confined allowed := by
  induction env with
  | nil => cases h
  | cons locals rest ih =>
      obtain ⟨hlocals, hrest⟩ := List.forall_mem_cons.mp henv
      rw [get?] at h
      split at h
      · next found hfound =>
          cases h
          exact hlocals _ (Fields.mem_of_get? hfound)
      · exact ih hrest h

theorem declare_confined (henv : env.Confined allowed) (hdatum : datum.Confined allowed) :
    (env.declare name datum).Confined allowed := by
  unfold declare
  split
  · exact List.forall_mem_singleton.mpr (List.forall_mem_singleton.mpr hdatum)
  · obtain ⟨hlocals, hrest⟩ := List.forall_mem_cons.mp henv
    exact List.forall_mem_cons.mpr ⟨hlocals.insert hdatum, hrest⟩

end Env

end Data

/-- Settings that differ in the scope only, and not in what the allowed names
    stand for there. -/
structure Setting.Agree (allowed : String → Prop) (a b : Setting) : Prop where
  component : a.component = b.component
  entries : a.entries = b.entries
  globals : a.globals = b.globals
  lookup : ∀ name, allowed name → Evaluator.lookup a [] name = Evaluator.lookup b [] name

namespace Evaluator

open Eval (Alike)

variable {allowed : String → Prop} {a b : Setting} {recur recur' : Env → Tree → Eval Datum}
  {env : Env}

theorem lookup_confined (henv : env.Confined allowed) (name : String) :
    (lookup a env name).Confined allowed := by
  unfold lookup
  split
  · next datum hdatum => exact Env.get?_confined henv hdatum
  · split <;> exact .value

theorem lookup_eq (hagree : a.Agree allowed b) {name : String} (hname : allowed name) :
    lookup a env name = lookup b env name := by
  have hscope := hagree.lookup name hname
  unfold lookup at hscope ⊢
  split
  · rfl
  · exact hscope

theorem fresh_alike : Alike (fun _ => True) fresh fresh :=
  ⟨rfl, fun _ _ _ _ => trivial, fun _ _ h => by cases h⟩

theorem made_alike (root : View) : Alike (Datum.Confined allowed) (made root) (made root) :=
  fresh_alike.map fun _ _ => .view

/-- Two ways to evaluate confined expressions that come to the same. -/
def Recurs (allowed : String → Prop) (recur recur' : Env → Tree → Eval Datum) : Prop :=
  ∀ ⦃env t⦄, env.Confined allowed → t.Confined allowed →
    Alike (Datum.Confined allowed) (recur env t) (recur' env t)

/-- Two functions that come to the same for confined data. -/
def Calls (allowed : String → Prop) (f g : List Datum → Eval Datum) : Prop :=
  ∀ ⦃arguments⦄, (∀ datum ∈ arguments, datum.Confined allowed) →
    Alike (Datum.Confined allowed) (f arguments) (g arguments)

theorem invoke_alike (hrecur : Recurs allowed recur recur') {params : List String} {body : Tree}
    (hbody : body.Confined allowed) (henv : env.Confined allowed) :
    Calls allowed (invoke recur params body env) (invoke recur' params body env) := by
  intro arguments harguments
  unfold invoke
  -- Parameters take the place of each other, but all hold arguments or null.
  have hlocals : ∀ locals : Variables, locals.Confined allowed → ∀ param ∈ params.zipIdx,
      Variables.Confined allowed
        (Fields.insert locals param.1 (arguments[param.2]?.getD .null)) :=
    fun locals hlocals param _ => hlocals.insert (Datum.getD_confined fun item hitem =>
      harguments item (List.mem_of_getElem? hitem))
  exact hrecur (List.forall_mem_cons.mpr
    ⟨List.foldlRecOn _ _ (List.forall_mem_nil _) hlocals, henv⟩) hbody

section Each

variable {f g : List Datum → Eval Datum}

theorem eachItem_alike (h : Calls allowed f g) {items : List Datum}
    (hitems : ∀ item ∈ items, item.Confined allowed) (i : Nat) :
    Alike (fun results => ∀ datum ∈ results, datum.Confined allowed) (eachItem f i items)
      (eachItem g i items) := by
  induction items generalizing i with
  | nil => exact .pure (List.forall_mem_nil _)
  | cons item rest ih =>
      obtain ⟨hitem, hrest⟩ := List.forall_mem_cons.mp hitems
      refine (h (List.forall_mem_cons.mpr ⟨hitem, List.forall_mem_singleton.mpr .value⟩)).bind
        fun first hfirst => (ih hrest (i + 1)).bind fun later hlater =>
          .pure (List.forall_mem_cons.mpr ⟨hfirst, hlater⟩)

theorem eachNumber_alike (h : Calls allowed f g) (count i : Nat) :
    Alike (fun results => ∀ datum ∈ results, datum.Confined allowed) (eachNumber f i count)
      (eachNumber g i count) := by
  induction count generalizing i with
  | zero => exact .pure (List.forall_mem_nil _)
  | succ count ih =>
      refine (h (List.forall_mem_cons.mpr ⟨.value, List.forall_mem_singleton.mpr .value⟩)).bind
        fun first hfirst => (ih (i + 1)).bind fun later hlater =>
          .pure (List.forall_mem_cons.mpr ⟨hfirst, hlater⟩)

theorem eachField_alike (h : Calls allowed f g) (fields : Fields Value) (i : Nat) :
    Alike (fun results => ∀ datum ∈ results, datum.Confined allowed) (eachField f i fields)
      (eachField g i fields) := by
  induction fields generalizing i with
  | nil => exact .pure (List.forall_mem_nil _)
  | cons field rest ih =>
      have harguments : ∀ datum ∈ [.value field.2, Datum.str field.1, .nat i],
          datum.Confined allowed := by
        simp only [List.mem_cons, List.not_mem_nil, or_false]
        rintro datum (rfl | rfl | rfl) <;> exact .value
      refine (h harguments).bind fun first hfirst => (ih (i + 1)).bind fun later hlater =>
        .pure (List.forall_mem_cons.mpr ⟨hfirst, hlater⟩)

theorem each_alike (h : Calls allowed f g) {subject : Datum}
    (hsubject : subject.Confined allowed) :
    Alike (fun results => ∀ datum ∈ results, datum.Confined allowed) (each f subject)
      (each g subject) := by
  have hvalues (values : List Value) : ∀ item ∈ values.map Datum.value, item.Confined allowed :=
    List.forall_mem_map.mpr fun _ _ => .value
  unfold each
  split
  · cases hsubject with
    | list hitems => exact eachItem_alike h hitems 0
  · exact eachItem_alike h (hvalues _) 0
  · exact eachItem_alike h (List.forall_mem_map.mpr fun _ _ => .value) 0
  · exact eachField_alike h _ 0
  · split
    · exact eachNumber_alike h _ 0
    · exact .pure (List.forall_mem_nil _)
  · exact .pure (List.forall_mem_nil _)

end Each

theorem construct_alike (hagree : a.Agree allowed b) (tag : String) (data : Option Value)
    (children : Option Datum) :
    Alike (Datum.Confined allowed) (construct a tag data children)
      (construct b tag data children) := by
  unfold construct
  rw [hagree.entries, hagree.globals]
  -- What is made depends on the data alone, which may be of the wrong shape.
  cases data with
  | none =>
      have hdata : Alike (fun _ => True) (pure NodeData.empty) (pure NodeData.empty) :=
        .pure trivial
      refine hdata.bind fun data _ => ?_
      dsimp only
      split <;> exact made_alike _
  | some value =>
      have hdata : Alike (fun _ => True) (liftM (NodeData.ofValue value))
          (liftM (NodeData.ofValue value)) :=
        .lift (fun _ _ => trivial) fun _ => NodeData.ofValue_error
      refine hdata.bind fun data _ => ?_
      dsimp only
      split <;> exact made_alike _

theorem callHelper_alike (hagree : a.Agree allowed b) (hrecur : Recurs allowed recur recur')
    (helper : Helper) : Calls allowed (callHelper a recur helper) (callHelper b recur' helper) := by
  intro arguments harguments
  unfold callHelper
  split
  · exact construct_alike hagree _ _ _
  · exact construct_alike hagree _ _ _
  · exact construct_alike hagree _ _ _
  · exact .throw rfl
  · exact made_alike _
  · exact made_alike _
  · exact .pure .value
  · next subject serial params body env rest =>
      obtain ⟨hsubject, hrest⟩ := List.forall_mem_cons.mp harguments
      cases (List.forall_mem_cons.mp hrest).1 with
      | closure hbody henv =>
          exact (each_alike (invoke_alike hrecur hbody henv) hsubject).map fun results hresults =>
            .list hresults
  · exact .throw rfl
  · exact made_alike _
  · exact .pure .value

theorem helper?_error {callee : Tree} {e : RenderError} (h : helper? env callee = .error e) :
    e.isStructural = false := by
  unfold helper? at h
  split at h
  · split at h
    · cases h
    · split at h <;> cases h
      rfl
  · cases h

theorem call_alike (hagree : a.Agree allowed b) (hrecur : Recurs allowed recur recur')
    (henv : env.Confined allowed) {callee : Tree} {arguments : List Tree}
    (hcallee : callee.Confined allowed) (harguments : ∀ t ∈ arguments, t.Confined allowed) :
    Alike (Datum.Confined allowed) (call a recur env callee arguments)
      (call b recur' env callee arguments) := by
  have hdata : Alike (fun data => ∀ datum ∈ data, Datum.Confined allowed datum)
      (arguments.mapM (recur env)) (arguments.mapM (recur' env)) :=
    .mapM fun t ht => hrecur henv (harguments t ht)
  have hfound : Alike (fun _ => True) (liftM (helper? env callee)) (liftM (helper? env callee)) :=
    .lift (fun _ _ => trivial) fun _ => helper?_error
  refine hfound.bind fun found _ => ?_
  cases found with
  | some helper =>
      exact hdata.bind fun data hdata => callHelper_alike hagree hrecur helper hdata
  | none =>
      refine (hrecur henv hcallee).bind fun called hcalled => ?_
      cases hcalled with
      | closure hbody hclosed =>
          exact hdata.bind fun data hdata => invoke_alike hrecur hbody hclosed hdata
      | value | view | list => exact .throw rfl

theorem add_confined (left right : Datum) : (add left right).Confined allowed := by
  unfold add
  split
  · split <;> exact .value
  · exact .value

theorem operate_alike (hrecur : Recurs allowed recur recur') (henv : env.Confined allowed)
    (op : Script.BinaryOp) {left right : Tree} (hleft : left.Confined allowed)
    (hright : right.Confined allowed) :
    Alike (Datum.Confined allowed) (operate recur env op left right)
      (operate recur' env op left right) := by
  have hsecond := hrecur henv hright
  refine (hrecur henv hleft).bind fun first hfirst => ?_
  cases op with
  | and =>
      dsimp only
      split
      · exact hsecond
      · exact .pure hfirst
  | or =>
      dsimp only
      split
      · exact .pure hfirst
      · exact hsecond
  | strictEq | strictNotEq => exact hsecond.map fun _ _ => .value
  | add => exact hsecond.map fun _ _ => add_confined _ _

theorem properties_alike (hrecur : Recurs allowed recur recur') (henv : env.Confined allowed)
    {fields : List (String × Tree)} (hfields : ∀ field ∈ fields, field.2.Confined allowed)
    (out : Fields Value) :
    Alike (fun _ => True) (properties recur env out fields) (properties recur' env out fields) := by
  induction fields generalizing out with
  | nil => exact .pure trivial
  | cons field rest ih =>
      obtain ⟨hfield, hrest⟩ := List.forall_mem_cons.mp hfields
      exact (hrecur henv hfield).bind fun _ _ => ih hrest _

/-- One layer of a confined expression. -/
theorem step_alike (hagree : a.Agree allowed b) (hrecur : Recurs allowed recur recur')
    (henv : env.Confined allowed) {node : Node Tree} (ht : (Tree.mk node).Confined allowed) :
    Alike (Datum.Confined allowed) (step a recur env node) (step b recur' env node) := by
  obtain ⟨hexpression, hnames⟩ := ht
  -- A part is confined if it is an expression.
  have hpart {t : Tree} (ht : t ∈ node.children) (h : Script.Expression t) :
      t.Confined allowed := Tree.Confined.part hnames ht h
  cases hexpression with
  | str | bool | null | num => exact .pure .value
  | @ident name =>
      have hname : allowed name := hnames name (List.mem_singleton.mpr rfl)
      unfold step
      dsimp only
      rw [lookup_eq hagree hname]
      exact .pure (lookup_confined henv name)
  | member htarget _ =>
      refine (hrecur henv (hpart List.mem_cons_self htarget)).bind fun datum _ => ?_
      exact .lift (fun _ => Datum.property_confined) fun _ => Datum.property_error
  | index htarget hposition =>
      refine (hrecur henv (hpart List.mem_cons_self htarget)).bind fun datum hdatum =>
        (hrecur henv (hpart (by simp [Node.children]) hposition)).bind fun position _ => ?_
      exact .lift (fun _ => Datum.part_confined hdatum) fun _ => Datum.part_error
  | call hcallee harguments =>
      exact call_alike hagree hrecur henv (hpart List.mem_cons_self hcallee) fun t ht =>
        hpart (List.mem_cons_of_mem _ ht) (harguments t ht)
  | array helements =>
      refine (Alike.mapM fun t ht => hrecur henv (hpart ht (helements t ht))).map fun _ hresults =>
        Datum.ofItems_confined hresults
  | object hproperties =>
      refine (properties_alike hrecur henv (fun property hproperty => ?_) []).map fun _ _ => .value
      exact hpart (List.mem_map_of_mem hproperty) (hproperties property hproperty)
  | not hargument =>
      exact (hrecur henv (hpart List.mem_cons_self hargument)).map fun _ _ => .value
  | binary hleft hright =>
      exact operate_alike hrecur henv _ (hpart List.mem_cons_self hleft)
        (hpart (by simp [Node.children]) hright)
  | conditional htest hconsequent halternate =>
      refine (hrecur henv (hpart List.mem_cons_self htest)).bind fun datum _ => ?_
      split
      · exact hrecur henv (hpart (by simp [Node.children]) hconsequent)
      · exact hrecur henv (hpart (by simp [Node.children]) halternate)
  | arrow _ hbody =>
      exact fresh_alike.map fun _ _ => .closure (hpart List.mem_cons_self hbody) henv

/-- Confined expressions, to any depth. -/
theorem eval_alike (hagree : a.Agree allowed b) (depth : Nat) :
    Recurs allowed (eval a depth) (eval b depth) := by
  induction depth with
  | zero => exact fun _ _ _ _ => .throw rfl
  | succ depth ih =>
      rintro env ⟨node⟩ henv ht
      exact step_alike hagree ih henv ht

/-- How a statement ends with confined data: with such a result, or going on
    with such variables. -/
inductive Flow.Confined (allowed : String → Prop) : Flow → Prop where
  | next {env : Env} (henv : env.Confined allowed) : Confined allowed (.next env)
  | returned {datum : Datum} (hdatum : datum.Confined allowed) : Confined allowed (.returned datum)

/-- Statements that come to the same one by one do so in turn. -/
theorem execAll_alike {ts : List Tree}
    (h : ∀ t ∈ ts, ∀ ⦃env : Env⦄, env.Confined allowed →
      Alike (Flow.Confined allowed) (exec recur env t) (exec recur' env t))
    (henv : env.Confined allowed) :
    Alike (Flow.Confined allowed) (execAll recur env ts) (execAll recur' env ts) := by
  induction ts generalizing env with
  | nil => exact .pure (.next henv)
  | cons t rest ih =>
      obtain ⟨ht, hrest⟩ := List.forall_mem_cons.mp h
      rw [execAll, execAll]
      refine (ht henv).bind fun flow hflow => ?_
      cases hflow with
      | next henv => exact ih hrest henv
      | returned hdatum => exact .pure (.returned hdatum)

/-- A block has variables of its own, which are gone after it. -/
theorem block_alike {ts : List Tree}
    (h : ∀ t ∈ ts, ∀ ⦃env : Env⦄, env.Confined allowed →
      Alike (Flow.Confined allowed) (exec recur env t) (exec recur' env t))
    (henv : env.Confined allowed) :
    Alike (Flow.Confined allowed)
      (do match ← execAll recur ([] :: env) ts with
          | .returned datum => return .returned datum
          | .next _ => return .next env)
      (do match ← execAll recur' ([] :: env) ts with
          | .returned datum => return .returned datum
          | .next _ => return .next env) := by
  have hinner : Env.Confined allowed ([] :: env) :=
    List.forall_mem_cons.mpr ⟨List.forall_mem_nil _, henv⟩
  refine (execAll_alike h hinner).bind fun flow hflow => ?_
  cases hflow with
  | next => exact .pure (.next henv)
  | returned hdatum => exact .pure (.returned hdatum)

/-- A statement that looks up allowed names only. -/
theorem exec_alike (hrecur : Recurs allowed recur recur') {t : Tree} (ht : Script.Statement t)
    (hnames : ∀ name ∈ t.names, allowed name) (henv : env.Confined allowed) :
    Alike (Flow.Confined allowed) (exec recur env t) (exec recur' env t) := by
  induction ht generalizing env with
  | leave => exact .pure (.returned .value)
  | ret hargument =>
      refine (hrecur henv (Tree.Confined.part hnames List.mem_cons_self hargument)).map
        fun _ => .returned
  | declare _ hinit =>
      refine (hrecur henv (Tree.Confined.part hnames List.mem_cons_self hinit)).map
        fun _ hdatum => .next (Env.declare_confined henv hdatum)
  | discard hexpression =>
      refine (hrecur henv (Tree.Confined.part hnames List.mem_cons_self hexpression)).bind
        fun _ _ => .pure (.next henv)
  | @branch test consequent htest _ ih =>
      have hblock := block_alike (fun t ht _ henv => ih t ht (fun name hname =>
        hnames name (Tree.names_part (by simp [Node.children, ht]) hname)) henv) henv
      refine (hrecur henv (Tree.Confined.part hnames List.mem_cons_self htest)).bind
        fun datum _ => ?_
      split
      · exact hblock
      · exact .pure (.next henv)
  | @branchElse test consequent alternate htest _ _ ih ih' =>
      have hblock := block_alike (fun t ht _ henv => ih t ht (fun name hname =>
        hnames name (Tree.names_part (by simp [Node.children, ht]) hname)) henv) henv
      have hblock' := block_alike (fun t ht _ henv => ih' t ht (fun name hname =>
        hnames name (Tree.names_part (by simp [Node.children, ht]) hname)) henv) henv
      refine (hrecur henv (Tree.Confined.part hnames List.mem_cons_self htest)).bind
        fun datum _ => ?_
      split
      · exact hblock
      · exact hblock'

/-- What a result amounts to is no matter of expressions and statements. -/
theorem rootView_error {setting : Setting} {datum : Datum} {e : RenderError}
    (h : rootView setting datum = .error e) : e.isStructural = false := by
  unfold rootView at h
  split at h
  · cases h
  · split at h <;> cases h
    rfl
  · cases h; rfl

/-- A function of the grammar, in settings that agree on the names in it. -/
theorem run_alike (hagree : a.Agree allowed b) {function : Tree}
    (hfunction : Script.Function function) (hnames : ∀ name ∈ function.names, allowed name) :
    run a function = run b function ∧
      ∀ e, run a function = .error e → e.isStructural = false := by
  obtain @⟨name, params, body, -, -, hbody⟩ := hfunction
  have hall : Alike (Flow.Confined allowed) (execAll (eval a maxDepth) [[]] body)
      (execAll (eval b maxDepth) [[]] body) :=
    execAll_alike (fun t ht _ henv => exec_alike (eval_alike hagree maxDepth) (hbody t ht)
      (fun name hname => hnames name (Tree.names_part ht hname)) henv)
      (List.forall_mem_singleton.mpr (List.forall_mem_nil _))
  have hroot : rootView b = rootView a := by
    funext datum
    unfold rootView
    rw [hagree.component]
  constructor
  · simp only [run, hall.same, hroot, hagree.component]
  · intro e h
    simp only [run, StateT.run] at h
    cases hresult : execAll (eval a maxDepth) [[]] body 0 with
    | error e' =>
        rw [hresult] at h
        cases h
        exact hall.error hresult
    | ok result =>
        obtain ⟨_ | datum, c⟩ := result
        · rw [hresult] at h
          cases h
          rfl
        · rw [hresult] at h
          exact rootView_error h

end Evaluator

namespace Engine

/-- Rendering never fails because an expression stands where a statement
    should, or a statement where an expression should, or because what is run
    is no function. The render function of an instance is a source that could
    be read, so this is of all such sources, all instances and all engines. -/
theorem render_not_structural (engine : Engine) (inst : Instance) :
    engine.render inst ≠ .error (.typeError .notAFunction) ∧
      engine.render inst ≠ .error (.typeError .notAStatement) ∧
      engine.render inst ≠ .error (.typeError .notAnExpression) := by
  have hrender : ∀ e, engine.render inst = .error e → e.isStructural = false := by
    intro e h
    unfold render at h
    split at h
    · cases h; rfl
    · next function hfunction =>
        split at h
        · cases h; rfl
        · have hagree (setting : Setting) : setting.Agree (fun _ => True) setting :=
            ⟨rfl, rfl, rfl, fun _ _ => rfl⟩
          exact (Evaluator.run_alike (hagree _)
            (Script.parseFunction_function function.wasRead) fun _ _ => trivial).2 e h
  refine ⟨fun h => ?_, fun h => ?_, fun h => ?_⟩ <;> cases hrender _ h

/-- A render function that does not look up the whole scope renders the same,
    or fails in the same way, for two instances of a component whose scopes
    agree on the names in it. -/
theorem render_eq_of_scopes (engine : Engine) {inst inst' : Instance} {function : RenderFunction}
    (hcomponent : inst.component = inst'.component) (hrender : inst.render = some function)
    (hrender' : inst'.render = some function) (hthis : "this" ∉ function.tree.names)
    (hscopes : ∀ name ∈ function.tree.names,
      Fields.get? inst.scope name = Fields.get? inst'.scope name) :
    engine.render inst = engine.render inst' := by
  have hagree : Setting.Agree (· ∈ function.tree.names)
      ⟨inst.component.name, inst.scope, inst.component.components, engine.globals⟩
      ⟨inst'.component.name, inst'.scope, inst'.component.components, engine.globals⟩ := by
    refine ⟨by rw [hcomponent], by rw [hcomponent], rfl, fun name hname => ?_⟩
    have hne : name ≠ "this" := fun heq => hthis (heq ▸ hname)
    simp only [Evaluator.lookup, Env.get?, if_neg hne, hscopes name hname]
  unfold render
  rw [hrender, hrender']
  dsimp only
  split
  · rfl
  · exact (Evaluator.run_alike hagree (Script.parseFunction_function function.wasRead)
      fun _ hname => hname).1

/-- A card that shows a name. -/
def greeting : Option RenderFunction :=
  (RenderFunction.compile "return _c(\"p\", _l([1], x => _v(name)))").toOption

/-- A card with the given scope. -/
def greeter (pass : Pass) (parent : Option String) (scope : Fields Value) : Instance :=
  { component := Component.named "card", pass, parent, scope, render := greeting }

/-- An engine that knows nothing. -/
def bare : Engine where
  components _ := default
  factories _ := default
  globals := []
  registry := .empty
  compiler := none
  refuses _ := none

/-- Two cards for the same name, in different passes and with other data. -/
theorem render_eq_of_scopes_greeting :
    ∃ function, greeting = some function ∧ "this" ∉ function.tree.names ∧
      (∀ name ∈ function.tree.names,
        Fields.get? (greeter .static none [("name", .str "ada"), ("key", .int 1)]).scope name =
          Fields.get? (greeter .dynamic (some "page") [("id", .int 2), ("name", .str "ada")]).scope
            name) ∧
      bare.render (greeter .static none [("name", .str "ada"), ("key", .int 1)]) =
        bare.render (greeter .dynamic (some "page") [("id", .int 2), ("name", .str "ada")]) := by
  have hnames : greeting.map (·.tree.names) = some ["_c", "_l", "_v", "name"] := by
    decide +kernel
  obtain ⟨function, hfunction, hnames⟩ := Option.map_eq_some_iff.mp hnames
  have hthis : "this" ∉ function.tree.names := by
    rw [hnames]
    decide
  have hscopes : ∀ name ∈ function.tree.names,
      Fields.get? (greeter .static none [("name", .str "ada"), ("key", .int 1)]).scope name =
        Fields.get? (greeter .dynamic (some "page") [("id", .int 2), ("name", .str "ada")]).scope
          name := by
    rw [hnames]
    simp only [List.forall_mem_cons]
    exact ⟨rfl, rfl, rfl, rfl, List.forall_mem_nil _⟩
  exact ⟨function, hfunction, hthis, hscopes,
    render_eq_of_scopes bare rfl hfunction hfunction hthis hscopes⟩

end Engine

end RenderFold
