import RenderFold.Proofs.Component.Evaluated

/-!
# Serial Numbers

Views and functions are told apart by serial numbers, which are handed out in
the order in which they are made. So what an expression evaluates to depends on
how many were handed out before. Nothing else does: the only use of a serial
number is to compare it with another one, and numbers that are handed out later
are moved by as much as all the others that are.

What the variables hold was made before. So an expression whose variables hold
serial numbers below some bound does the same from any number on that is not
below the bound, but for the numbers that it hands out itself.

## Main definitions

* `Datum.renumbered`: A datum with other serial numbers.
* `Datum.Older`, `Env.Older`: Data made before a serial number was reached.
* `Datum.Alike`: Data that differ in the serial numbers handed out.
* `Eval.Postpones`: A computation that starts later and does the same.

## Theorems

* `Evaluator.eval_postpones`: An expression with other serial numbers in sight.
* `Evaluator.eval_from`: An expression evaluated from another number on.
-/

namespace RenderFold

open Script (Tree Node)

namespace Datum

mutual

/-- The datum with its serial numbers changed, those included that its
    functions have closed over. -/
def renumbered (f : Nat → Nat) : Datum → Datum
  | .value v => .value v
  | .view serial root => .view (f serial) root
  | .list items => .list (renumberedItems f items)
  | .closure serial params body env => .closure (f serial) params body (renumberedEnv f env)
termination_by structural datum => datum

/-- The items of a list with their serial numbers changed. -/
def renumberedItems (f : Nat → Nat) : List Datum → List Datum
  | [] => []
  | item :: rest => renumbered f item :: renumberedItems f rest
termination_by structural items => items

/-- The variables in sight with their serial numbers changed. -/
def renumberedEnv (f : Nat → Nat) : List (List (String × Datum)) → List (List (String × Datum))
  | [] => []
  | locals :: rest => renumberedVariables f locals :: renumberedEnv f rest
termination_by structural env => env

/-- The variables of one block with their serial numbers changed. -/
def renumberedVariables (f : Nat → Nat) : List (String × Datum) → List (String × Datum)
  | [] => []
  | (name, datum) :: rest => (name, renumbered f datum) :: renumberedVariables f rest
termination_by structural locals => locals

end

/-- Everything in a datum was made before a serial number was reached. -/
inductive Older (bound : Nat) : Datum → Prop where
  | value {v} : Older bound (.value v)
  | view {serial root} (hserial : serial < bound) : Older bound (.view serial root)
  | list {items} (hitems : ∀ item ∈ items, Older bound item) : Older bound (.list items)
  | closure {serial params body} {env : List (List (String × Datum))} (hserial : serial < bound)
      (henv : ∀ locals ∈ env, ∀ entry ∈ locals, Older bound entry.2) :
      Older bound (.closure serial params body env)

end Datum

/-- Everything that the variables hold was made before a serial number was
    reached. -/
def Env.Older (bound : Nat) (env : Env) : Prop :=
  ∀ locals ∈ env, ∀ entry ∈ locals, entry.2.Older bound

section Data

variable {f : Nat → Nat} {bound : Nat}

namespace Datum

theorem renumberedItems_eq (items : List Datum) :
    renumberedItems f items = items.map (renumbered f) := by
  induction items with
  | nil => rfl
  | cons item rest ih => rw [renumberedItems, ih, List.map_cons]

theorem head?_renumberedItems (items : List Datum) :
    (renumberedItems f items).head? = items.head?.map (renumbered f) := by
  rw [renumberedItems_eq, List.head?_map]

theorem getElem?_renumberedItems (items : List Datum) (i : Nat) :
    (renumberedItems f items)[i]? = items[i]?.map (renumbered f) := by
  rw [renumberedItems_eq, List.getElem?_map]

theorem renumberedVariables_eq (locals : List (String × Datum)) :
    renumberedVariables f locals = locals.map fun entry => (entry.1, entry.2.renumbered f) := by
  induction locals with
  | nil => rfl
  | cons entry rest ih => rw [renumberedVariables, ih, List.map_cons]

theorem renumberedEnv_eq (env : List (List (String × Datum))) :
    renumberedEnv f env = env.map (renumberedVariables f) := by
  induction env with
  | nil => rfl
  | cons locals rest ih => rw [renumberedEnv, ih, List.map_cons]

theorem renumberedItems_of_forall {items : List Datum}
    (h : ∀ item ∈ items, item.renumbered f = item) : renumberedItems f items = items := by
  rw [renumberedItems_eq, List.map_congr_left h, List.map_id']

theorem renumberedEnv_of_forall {env : List (List (String × Datum))}
    (h : ∀ locals ∈ env, ∀ entry ∈ locals, entry.2.renumbered f = entry.2) :
    renumberedEnv f env = env := by
  have hlocals : ∀ locals ∈ env, renumberedVariables f locals = locals := by
    intro locals hmem
    rw [renumberedVariables_eq, List.map_congr_left (g := id) fun entry hentry => ?_, List.map_id]
    exact Prod.ext rfl (h locals hmem entry hentry)
  rw [renumberedEnv_eq, List.map_congr_left hlocals, List.map_id']

/-- What was made before keeps its serial numbers, if these do. -/
theorem Older.renumbered_eq {datum : Datum} (h : datum.Older bound)
    (hf : ∀ serial < bound, f serial = serial) : datum.renumbered f = datum := by
  induction h with
  | value => rfl
  | view hserial => rw [renumbered, hf _ hserial]
  | list _ ih => rw [renumbered, renumberedItems_of_forall ih]
  | closure hserial _ ih => rw [renumbered, hf _ hserial, renumberedEnv_of_forall ih]

mutual

theorem toValue_renumbered : ∀ datum : Datum, (datum.renumbered f).toValue = datum.toValue
  | .value _ => rfl
  | .view .. => rfl
  | .list items => by simp only [renumbered, toValue, toValues_renumbered items]
  | .closure .. => rfl

theorem toValues_renumbered : ∀ items : List Datum,
    toValues (renumberedItems f items) = toValues items
  | [] => rfl
  | item :: rest => by
      simp only [renumberedItems, toValues, toValue_renumbered item, toValues_renumbered rest]

end

mutual

theorem text_renumbered : ∀ datum : Datum, (datum.renumbered f).text = datum.text
  | .value _ => rfl
  | .view .. => rfl
  | .list items => by simp only [renumbered, text, itemTexts_renumbered items]
  | .closure .. => rfl

theorem itemTexts_renumbered : ∀ items : List Datum,
    itemTexts (renumberedItems f items) = itemTexts items
  | [] => rfl
  | item :: rest => by
      simp only [renumberedItems, itemTexts, text_renumbered item, itemTexts_renumbered rest]

end

mutual

theorem views_renumbered (raw : Bool) : ∀ datum : Datum,
    views raw (datum.renumbered f) = views raw datum
  | .value _ => rfl
  | .view .. => rfl
  | .list items => by simp only [renumbered, views, itemViews_renumbered raw items]
  | .closure .. => rfl

theorem itemViews_renumbered (raw : Bool) : ∀ items : List Datum,
    itemViews raw (renumberedItems f items) = itemViews raw items
  | [] => rfl
  | item :: rest => by
      simp only [renumberedItems, itemViews, views_renumbered raw item,
        itemViews_renumbered raw rest]

end

theorem display_renumbered (datum : Datum) : (datum.renumbered f).display = datum.display := by
  cases datum with
  | value => rfl
  | _ => exact congrArg Value.compact (toValue_renumbered _)

theorem truthy_renumbered (datum : Datum) : (datum.renumbered f).truthy = datum.truthy := by
  cases datum <;> rfl

/-- Serial numbers are the same if they were the same before. -/
theorem strictEq_renumbered (hf : Function.Injective f) (a b : Datum) :
    (a.renumbered f).strictEq (b.renumbered f) = a.strictEq b := by
  cases a <;> cases b <;> simp only [renumbered, strictEq, beq_eq_beq, hf.eq_iff]

theorem index?_renumbered (datum : Datum) : (datum.renumbered f).index? = datum.index? := by
  cases datum <;> rfl

theorem renumbered_ofItems (items : List Datum) :
    (ofItems items).renumbered f = ofItems (renumberedItems f items) := by
  have hall {p : Datum → Bool} (hp : ∀ item : Datum, p (item.renumbered f) = p item) :
      (renumberedItems f items).all p = items.all p := by
    rw [renumberedItems_eq, List.all_map]
    exact congrArg (List.all items) (funext hp)
  unfold ofItems
  dsimp only
  rw [hall fun item => by cases item <;> rfl, toValues_renumbered]
  split <;> rfl

/-- Properties are plain values. -/
theorem property_renumbered (datum : Datum) (name : String) :
    (datum.renumbered f).property name = (datum.property name).map (renumbered f) := by
  cases datum with
  | value plain =>
      cases plain with
      | str | array =>
          simp only [renumbered, property, Except.map]
          split <;> rfl
      | _ => rfl
  | list items =>
      simp only [renumbered, property, renumberedItems_eq, List.length_map, Except.map]
      split <;> rfl
  | _ => rfl

theorem part_renumbered (datum position : Datum) :
    (datum.renumbered f).part (position.renumbered f) =
      (datum.part position).map (renumbered f) := by
  cases datum with
  | value plain =>
      cases plain <;> simp only [renumbered, part, index?_renumbered, text_renumbered] <;> rfl
  | list items =>
      simp only [renumbered, part, index?_renumbered, renumberedItems_eq, Except.map]
      cases position.index? with
      | none => rfl
      | some i =>
          simp only [Option.bind_some, List.getElem?_map]
          cases items[i]? <;> rfl
  | _ => rfl

end Datum

namespace Env

theorem get?_renumbered (env : Env) (name : String) :
    get? (Datum.renumberedEnv f env) name = (get? env name).map (Datum.renumbered f) := by
  have hfields : ∀ locals : Variables, Fields.get? (Datum.renumberedVariables f locals) name =
      (Fields.get? locals name).map (Datum.renumbered f) := by
    intro locals
    induction locals with
    | nil => rfl
    | cons entry rest ih =>
        simp only [Datum.renumberedVariables, Fields.get?]
        split
        · rfl
        · exact ih
  induction env with
  | nil => rfl
  | cons locals rest ih =>
      simp only [Datum.renumberedEnv, get?, hfields]
      cases Fields.get? locals name with
      | some datum => rfl
      | none => exact ih

/-- Variables that were made before keep their serial numbers. -/
theorem Older.renumberedEnv_eq {env : Env} (h : env.Older bound)
    (hf : ∀ serial < bound, f serial = serial) : Datum.renumberedEnv f env = env :=
  Datum.renumberedEnv_of_forall fun locals hlocals entry hentry =>
    (h locals hlocals entry hentry).renumbered_eq hf

end Env

end Data

/-- Serial numbers from a bound on, moved up. -/
def postponed (bound delay serial : Nat) : Nat :=
  if serial < bound then serial else serial + delay

theorem postponed_of_lt {bound serial : Nat} (delay : Nat) (h : serial < bound) :
    postponed bound delay serial = serial :=
  if_pos h

theorem postponed_injective (bound delay : Nat) : Function.Injective (postponed bound delay) := by
  intro a b h
  unfold postponed at h
  split at h <;> split at h <;> omega

/-- The same datum, but for the serial numbers from a bound on, which are moved
    up by as much as each other. -/
def Datum.Alike (bound : Nat) (datum other : Datum) : Prop :=
  ∃ (original : Datum) (delay delay' : Nat), datum = original.renumbered (postponed bound delay) ∧
    other = original.renumbered (postponed bound delay')

/-- A computation that starts later than another one does the same, and hands
    out its own serial numbers. Neither takes a serial number back. -/
structure Eval.Postpones (bound delay : Nat) {α : Type} (f : α → α) (x y : Eval α) : Prop where
  same : ∀ c, bound ≤ c → y (c + delay) = (x c).map fun result => (f result.1, result.2 + delay)
  le : ∀ ⦃c a c'⦄, x c = .ok (a, c') → c ≤ c'

namespace Eval.Postpones

variable {bound delay : Nat} {α β : Type} {f : α → α} {g : β → β}

theorem pure {a b : α} (h : b = f a) : Postpones bound delay f (pure a) (pure b) where
  same c _ := by rw [h]; rfl
  le _ _ _ hpure := Nat.le_of_eq (pure_eq_ok hpure).2

theorem throw (e : RenderError) : Postpones bound delay f (throw e) (throw e) where
  same _ _ := rfl
  le _ _ _ hthrow := by cases hthrow

theorem lift {x y : Except RenderError α} (h : y = x.map f) :
    Postpones bound delay f (liftM x : Eval α) (liftM y) where
  same c _ := by
    rw [h]
    cases x <;> rfl
  le c a c' hlift := by
    cases x with
    | error e => cases hlift
    | ok b => cases hlift; exact Nat.le_refl c

theorem bind {x y : Eval α} {F G : α → Eval β} (hx : Postpones bound delay f x y)
    (hF : ∀ a, Postpones bound delay g (F a) (G (f a))) :
    Postpones bound delay g (x >>= F) (y >>= G) where
  same c hc := by
    change Except.bind (y (c + delay)) (fun (a, between) => G a between) =
      Except.map _ (Except.bind (x c) (fun (a, between) => F a between))
    rw [hx.same c hc]
    cases hresult : x c with
    | error e => rfl
    | ok found => exact (hF found.1).same found.2 (Nat.le_trans hc (hx.le hresult))
  le c b c' h := by
    obtain ⟨a, between, hxa, hFa⟩ := bind_eq_ok h
    exact Nat.le_trans (hx.le hxa) ((hF a).le hFa)

/-- The result is changed in the end, in the same way. -/
theorem map {x y : Eval α} {F G : α → β} (hx : Postpones bound delay f x y)
    (hF : ∀ a, G (f a) = g (F a)) :
    Postpones bound delay g (do return F (← x)) (do return G (← y)) :=
  hx.bind fun a => pure (hF a)

theorem mapM {γ : Type} {F G : γ → Eval β} {xs : List γ}
    (hF : ∀ a ∈ xs, Postpones bound delay g (F a) (G a)) :
    Postpones bound delay (List.map g) (xs.mapM F) (xs.mapM G) := by
  induction xs with
  | nil => exact pure rfl
  | cons x xs ih =>
      rw [List.mapM_cons, List.mapM_cons]
      obtain ⟨hx, hxs⟩ := List.forall_mem_cons.mp hF
      exact hx.bind fun b => (ih hxs).bind fun rest => pure rfl

end Eval.Postpones

namespace Evaluator

open Datum (renumbered renumberedItems renumberedEnv renumberedVariables)
open Eval (Postpones)

variable {bound delay : Nat} {setting : Setting} {recur recur' : Env → Tree → Eval Datum}
  {env : Env}

theorem fresh_postpones : Postpones bound delay (postponed bound delay) fresh fresh where
  same c hc := by
    have hpostponed : postponed bound delay c = c + delay := if_neg (Nat.not_lt_of_le hc)
    change _ = Except.ok (postponed bound delay c, c + 1 + delay)
    rw [hpostponed, Nat.add_right_comm]
    rfl
  le c a c' h := by
    cases h
    exact Nat.le_succ c

theorem made_postpones (root : View) :
    Postpones bound delay (renumbered (postponed bound delay)) (made root) (made root) :=
  fresh_postpones.map fun _ => rfl

theorem lookup_renumbered {f : Nat → Nat} (name : String) :
    lookup setting (renumberedEnv f env) name = (lookup setting env name).renumbered f := by
  unfold lookup
  rw [Env.get?_renumbered]
  cases Env.get? env name with
  | some datum => rfl
  | none =>
      dsimp only [Option.map]
      split <;> rfl

/-- Two ways to evaluate expressions, of which the one comes to the same as the
    other with the serial numbers in sight moved up. -/
def Defers (bound delay : Nat) (recur recur' : Env → Tree → Eval Datum) : Prop :=
  ∀ env t, Postpones bound delay (renumbered (postponed bound delay)) (recur env t)
    (recur' (renumberedEnv (postponed bound delay) env) t)

/-- Two functions of which the one comes to the same as the other for data with
    the serial numbers moved up. -/
def Answers (bound delay : Nat) (f g : List Datum → Eval Datum) : Prop :=
  ∀ arguments, Postpones bound delay (renumbered (postponed bound delay)) (f arguments)
    (g (renumberedItems (postponed bound delay) arguments))

theorem renumberedVariables_insert {f : Nat → Nat} (locals : Variables) (name : String)
    (datum : Datum) : renumberedVariables f (Fields.insert locals name datum) =
      Fields.insert (renumberedVariables f locals) name (datum.renumbered f) := by
  induction locals with
  | nil => rfl
  | cons entry rest ih =>
      obtain ⟨other, old⟩ := entry
      simp only [renumberedVariables, Fields.insert]
      split
      · rfl
      · rw [renumberedVariables, ih]

/-- Parameters that are given arguments. -/
theorem renumberedVariables_foldl {f : Nat → Nat} (arguments : List Datum)
    (params : List (String × Nat)) (locals : Variables) :
    params.foldl (fun locals (name, i) =>
        Fields.insert locals name ((renumberedItems f arguments)[i]?.getD .null))
        (renumberedVariables f locals) =
      renumberedVariables f (params.foldl (fun locals (name, i) =>
        Fields.insert locals name (arguments[i]?.getD .null)) locals) := by
  induction params generalizing locals with
  | nil => rfl
  | cons param rest ih =>
      obtain ⟨name, i⟩ := param
      have hargument : (renumberedItems f arguments)[i]?.getD .null =
          (arguments[i]?.getD .null).renumbered f := by
        rw [Datum.getElem?_renumberedItems]
        cases arguments[i]? <;> rfl
      rw [List.foldl_cons, List.foldl_cons, ← ih]
      dsimp only
      rw [hargument, renumberedVariables_insert]

theorem invoke_postpones (hrecur : Defers bound delay recur recur') (params : List String)
    (body : Tree) (env : Env) :
    Answers bound delay (invoke recur params body env)
      (invoke recur' params body (renumberedEnv (postponed bound delay) env)) := by
  intro arguments
  have h := hrecur (params.zipIdx.foldl
    (fun locals (name, i) => Fields.insert locals name (arguments[i]?.getD .null)) [] :: env) body
  rw [renumberedEnv, ← renumberedVariables_foldl] at h
  exact h

section Each

variable {f g : List Datum → Eval Datum}

theorem eachItem_postpones (h : Answers bound delay f g) (items : List Datum) (i : Nat) :
    Postpones bound delay (List.map (renumbered (postponed bound delay))) (eachItem f i items)
      (eachItem g i (renumberedItems (postponed bound delay) items)) := by
  induction items generalizing i with
  | nil => exact .pure rfl
  | cons item rest ih =>
      exact (h [item, .nat i]).bind fun first => (ih (i + 1)).bind fun later => .pure rfl

theorem eachNumber_postpones (h : Answers bound delay f g) (count i : Nat) :
    Postpones bound delay (List.map (renumbered (postponed bound delay))) (eachNumber f i count)
      (eachNumber g i count) := by
  induction count generalizing i with
  | zero => exact .pure rfl
  | succ count ih =>
      exact (h [.nat (i + 1), .nat i]).bind fun first => (ih (i + 1)).bind fun later => .pure rfl

theorem eachField_postpones (h : Answers bound delay f g) (fields : Fields Value) (i : Nat) :
    Postpones bound delay (List.map (renumbered (postponed bound delay))) (eachField f i fields)
      (eachField g i fields) := by
  induction fields generalizing i with
  | nil => exact .pure rfl
  | cons field rest ih =>
      exact (h [.value field.2, .str field.1, .nat i]).bind fun first =>
        (ih (i + 1)).bind fun later => .pure rfl

theorem each_postpones (h : Answers bound delay f g) (subject : Datum) :
    Postpones bound delay (List.map (renumbered (postponed bound delay))) (each f subject)
      (each g (subject.renumbered (postponed bound delay))) := by
  -- Plain values have no serial numbers.
  have hvalues : ∀ values : List Value,
      renumberedItems (postponed bound delay) (values.map .value) = values.map .value :=
    fun values => Datum.renumberedItems_of_forall (List.forall_mem_map.mpr fun _ _ => rfl)
  cases subject with
  | list items => exact eachItem_postpones h items 0
  | value plain =>
      cases plain with
      | array items =>
          have hitems := eachItem_postpones h (items.map .value) 0
          rw [hvalues] at hitems
          exact hitems
      | str text =>
          have hitems := eachItem_postpones h
            (text.toList.map fun c => Datum.str (String.singleton c)) 0
          rw [Datum.renumberedItems_of_forall (List.forall_mem_map.mpr fun _ _ => rfl)] at hitems
          exact hitems
      | object fields => exact eachField_postpones h fields 0
      | null | bool => exact .pure rfl
      | int n => exact eachNumber_postpones h _ 0
      | float x => exact eachNumber_postpones h _ 0
  | view | closure => exact .pure rfl

end Each

/-- Of the children, only the views count. -/
theorem construct_renumbered {f : Nat → Nat} (tag : String) (data : Option Value)
    (children : Option Datum) :
    construct setting tag data (children.map (renumbered f)) =
      construct setting tag data children := by
  have hviews (raw : Bool) : (children.map (renumbered f)).map (Datum.views raw) =
      children.map (Datum.views raw) := by
    rw [Option.map_map]
    exact congrArg (children.map ·) (funext (Datum.views_renumbered raw))
  unfold construct
  rw [hviews]

theorem construct_postpones (tag : String) (data : Option Value) (rest : List Datum) :
    Postpones bound delay (renumbered (postponed bound delay))
      (construct setting tag data rest.head?)
      (construct setting tag data (renumberedItems (postponed bound delay) rest).head?) := by
  rw [Datum.head?_renumberedItems, construct_renumbered]
  unfold construct
  cases data with
  | none =>
      refine Postpones.bind (f := id) (.pure rfl) fun data => ?_
      dsimp only
      split <;> exact made_postpones _
  | some value =>
      have hdata : NodeData.ofValue value = (NodeData.ofValue value).map id := by
        cases NodeData.ofValue value <;> rfl
      refine Postpones.bind (f := id) (.lift hdata) fun data => ?_
      dsimp only
      split <;> exact made_postpones _

/-- The tag, the data and the children are told apart by what kind of data they
    are, and that stays the same. -/
theorem element_postpones : Answers bound delay (callHelper setting recur .element)
    (callHelper setting recur' .element) := by
  intro arguments
  cases arguments with
  | nil => exact .throw _
  | cons first rest =>
      cases first with
      | value plain =>
          cases plain with
          | str tag =>
              cases rest with
              | nil => exact construct_postpones tag none []
              | cons second rest =>
                  cases second with
                  | value given =>
                      cases given with
                      | object fields => exact construct_postpones tag (some (.object fields)) rest
                      | null => exact construct_postpones tag none rest
                      | _ => exact construct_postpones tag none (.value _ :: rest)
                  | view serial root =>
                      exact construct_postpones tag none (.view serial root :: rest)
                  | list items => exact construct_postpones tag none (.list items :: rest)
                  | closure serial params body closed =>
                      exact construct_postpones tag none
                        (.closure serial params body closed :: rest)
          | _ => exact .throw _
      | _ => exact .throw _

theorem list_postpones (hrecur : Defers bound delay recur recur') :
    Answers bound delay (callHelper setting recur .list) (callHelper setting recur' .list) := by
  intro arguments
  cases arguments with
  | nil => exact .throw _
  | cons subject rest =>
      cases rest with
      | nil => exact .throw _
      | cons callback rest =>
          cases callback with
          | closure serial params body closed =>
              exact (each_postpones (invoke_postpones hrecur params body closed) subject).map
                fun results => by rw [renumbered, Datum.renumberedItems_eq]
          | _ => exact .throw _

theorem closing_renumbered {f : Nat → Nat} (datum : Option Datum) :
    closing (datum.map (renumbered f)) = closing datum := by
  cases datum with
  | none => rfl
  | some datum =>
      cases datum with
      | value => rfl
      | _ => exact Datum.text_renumbered _

theorem add_renumbered {f : Nat → Nat} (left right : Datum) :
    add (left.renumbered f) (right.renumbered f) = (add left right).renumbered f := by
  have htexts : Datum.str ((left.renumbered f).text ++ (right.renumbered f).text) =
      .str (left.text ++ right.text) := by
    rw [Datum.text_renumbered, Datum.text_renumbered]
  -- Only plain values can be numbers, and they have no serial numbers.
  cases left with
  | value a =>
      cases right with
      | value b =>
          simp only [renumbered, add]
          split <;> rfl
      | _ => exact htexts
  | _ => exact htexts

/-- What a helper is given is looked at for its values and its views. -/
theorem callHelper_postpones (hrecur : Defers bound delay recur recur') (helper : Helper) :
    Answers bound delay (callHelper setting recur helper) (callHelper setting recur' helper) := by
  intro arguments
  have htext : (renumberedItems (postponed bound delay) arguments).head?.map Datum.text =
      arguments.head?.map Datum.text := by
    rw [Datum.head?_renumberedItems, Option.map_map]
    exact congrArg (arguments.head?.map ·) (funext Datum.text_renumbered)
  have hdisplay : ((renumberedItems (postponed bound delay) arguments).head?.getD .null).display =
      (arguments.head?.getD .null).display := by
    rw [Datum.head?_renumberedItems]
    cases arguments.head? with
    | none => rfl
    | some first => exact Datum.display_renumbered first
  cases helper with
  | element => exact element_postpones arguments
  | text =>
      change Postpones _ _ _ (made _) (made _)
      rw [htext]
      exact made_postpones _
  | comment =>
      change Postpones _ _ _ (made _) (made _)
      rw [Datum.head?_renumberedItems, closing_renumbered]
      exact made_postpones _
  | display => exact .pure (congrArg Datum.str hdisplay)
  | list => exact list_postpones hrecur arguments
  | markup =>
      change Postpones _ _ _ (made _) (made _)
      have hviews :
          (renumberedItems (postponed bound delay) arguments)[2]?.map (Datum.views false) =
            arguments[2]?.map (Datum.views false) := by
        rw [Datum.getElem?_renumberedItems, Option.map_map]
        exact congrArg (arguments[2]?.map ·) (funext (Datum.views_renumbered false))
      rw [htext, Datum.getElem?_renumberedItems arguments 1, closing_renumbered, hviews]
      exact made_postpones _
  | escape => exact .pure (congrArg (fun text => Datum.str (Markup.escape text)) hdisplay)

theorem helper?_renumbered {f : Nat → Nat} (env : Env) (callee : Tree) :
    helper? (renumberedEnv f env) callee = helper? env callee := by
  unfold helper?
  split
  · rw [Env.get?_renumbered, Option.isSome_map]
  · rfl

theorem call_postpones (hrecur : Defers bound delay recur recur') (env : Env) (callee : Tree)
    (arguments : List Tree) :
    Postpones bound delay (renumbered (postponed bound delay))
      (call setting recur env callee arguments)
      (call setting recur' (renumberedEnv (postponed bound delay) env) callee arguments) := by
  have harguments := Postpones.mapM fun t (_ : t ∈ arguments) => hrecur env t
  simp only [← funext Datum.renumberedItems_eq] at harguments
  unfold call
  rw [helper?_renumbered]
  refine Postpones.bind (f := id) (.lift ?_) fun found => ?_
  · cases helper? env callee <;> rfl
  cases found with
  | some helper => exact harguments.bind (callHelper_postpones hrecur helper)
  | none =>
      refine (hrecur env callee).bind fun target => ?_
      cases target with
      | closure serial params body closed =>
          exact harguments.bind (invoke_postpones hrecur params body closed)
      | _ => exact .throw _

theorem operate_postpones (hrecur : Defers bound delay recur recur') (env : Env)
    (op : Script.BinaryOp) (left right : Tree) :
    Postpones bound delay (renumbered (postponed bound delay)) (operate recur env op left right)
      (operate recur' (renumberedEnv (postponed bound delay) env) op left right) := by
  refine (hrecur env left).bind fun first => ?_
  have hright := hrecur env right
  cases op with
  | and =>
      dsimp only
      rw [Datum.truthy_renumbered]
      split
      · exact hright
      · exact .pure rfl
  | or =>
      dsimp only
      rw [Datum.truthy_renumbered]
      split
      · exact .pure rfl
      · exact hright
  | strictEq =>
      refine hright.map fun second => ?_
      rw [Datum.strictEq_renumbered (postponed_injective bound delay)]
      rfl
  | strictNotEq =>
      refine hright.map fun second => ?_
      rw [Datum.strictEq_renumbered (postponed_injective bound delay)]
      rfl
  | add =>
      exact hright.map fun second => add_renumbered first second

theorem properties_postpones (hrecur : Defers bound delay recur recur') (env : Env)
    (fields : List (String × Tree)) (out : Fields Value) :
    Postpones bound delay id (properties recur env out fields)
      (properties recur' (renumberedEnv (postponed bound delay) env) out fields) := by
  induction fields generalizing out with
  | nil => exact .pure rfl
  | cons field rest ih =>
      refine (hrecur env field.2).bind fun datum => ?_
      rw [Datum.toValue_renumbered]
      exact ih _

/-- A layer with its serial numbers moved up. -/
theorem step_postpones (hrecur : Defers bound delay recur recur') (env : Env) (node : Node Tree) :
    Postpones bound delay (renumbered (postponed bound delay)) (step setting recur env node)
      (step setting recur' (renumberedEnv (postponed bound delay) env) node) := by
  cases node with
  | ident name => exact .pure (lookup_renumbered name)
  | member target property =>
      exact (hrecur env target).bind fun datum => .lift (Datum.property_renumbered datum property)
  | index target position =>
      exact (hrecur env target).bind fun datum => (hrecur env position).bind fun place =>
        .lift (Datum.part_renumbered datum place)
  | call callee arguments => exact call_postpones hrecur env callee arguments
  | array elements =>
      refine (Postpones.mapM fun t _ => hrecur env t).map fun items => ?_
      rw [Datum.renumbered_ofItems, Datum.renumberedItems_eq]
  | object fields => exact (properties_postpones hrecur env fields []).map fun _ => rfl
  | not argument =>
      refine (hrecur env argument).map fun datum => ?_
      rw [Datum.truthy_renumbered]
      rfl
  | binary op left right => exact operate_postpones hrecur env op left right
  | conditional test consequent alternate =>
      refine (hrecur env test).bind fun datum => ?_
      rw [Datum.truthy_renumbered]
      split
      · exact hrecur env consequent
      · exact hrecur env alternate
  | arrow params body => exact fresh_postpones.map fun _ => rfl
  | str | num | bool | null | hole => exact .pure rfl
  | function | ret | declare | branch | discard => exact .throw _

/-- An expression does the same if all serial numbers from a bound on are moved
    up, those in sight and those that it hands out. -/
theorem eval_postpones (setting : Setting) (bound delay depth : Nat) :
    Defers bound delay (eval setting depth) (eval setting depth) := by
  induction depth with
  | zero => exact fun _ _ => .throw _
  | succ depth ih => exact fun env t => step_postpones ih env t.node

/-- An expression whose variables were made before evaluates to the same from
    any serial number on, but for the numbers that it hands out. -/
theorem eval_from {depth start stop : Nat} {t : Tree} {datum : Datum} (henv : env.Older bound)
    (hstart : bound ≤ start) (h : eval setting depth env t start = .ok (datum, stop)) :
    ∃ original delay, datum = renumbered (postponed bound delay) original ∧
      ∀ other, bound ≤ other → ∃ delay' stop', eval setting depth env t other =
        .ok (renumbered (postponed bound delay') original, stop') ∧ other ≤ stop' := by
  -- Both are the evaluation from the bound on, moved up.
  have hmoved : ∀ other, bound ≤ other → eval setting depth env t other =
      (eval setting depth env t bound).map fun result =>
        (result.1.renumbered (postponed bound (other - bound)), result.2 + (other - bound)) := by
    intro other hother
    have hsame := (eval_postpones setting bound (other - bound) depth env t).same bound
      (Nat.le_refl bound)
    rw [henv.renumberedEnv_eq fun serial hserial => postponed_of_lt _ hserial,
      Nat.add_sub_of_le hother] at hsame
    exact hsame
  rw [hmoved start hstart] at h
  cases hresult : eval setting depth env t bound with
  | error e =>
      rw [hresult] at h
      cases h
  | ok result =>
      rw [hresult] at h
      cases h
      have hle := (eval_postpones setting bound 0 depth env t).le hresult
      refine ⟨result.1, _, rfl, fun other hother =>
        ⟨other - bound, result.2 + (other - bound), ?_, by omega⟩⟩
      rw [hmoved other hother, hresult]
      rfl

/-- A view that an expression evaluates to is the same from any serial number
    on. -/
theorem eval_view_from {depth start stop serial : Nat} {t : Tree} {view : View}
    (henv : env.Older bound) (hstart : bound ≤ start)
    (h : eval setting depth env t start = .ok (.view serial view, stop)) {other : Nat}
    (hother : bound ≤ other) : ∃ serial' stop',
      eval setting depth env t other = .ok (.view serial' view, stop') ∧ other ≤ stop' := by
  obtain ⟨original, delay, hdatum, hfrom⟩ := eval_from henv hstart h
  obtain ⟨delay', stop', heval, hle⟩ := hfrom other hother
  cases original with
  | view serial root =>
      cases hdatum
      exact ⟨_, _, heval, hle⟩
  | _ => cases hdatum

/-- So is the text of what it evaluates to. -/
theorem eval_text_from {depth start stop : Nat} {t : Tree} {datum : Datum}
    (henv : env.Older bound) (hstart : bound ≤ start)
    (h : eval setting depth env t start = .ok (datum, stop)) {other : Nat}
    (hother : bound ≤ other) : ∃ datum' stop',
      eval setting depth env t other = .ok (datum', stop') ∧ datum'.text = datum.text ∧
        other ≤ stop' := by
  obtain ⟨original, delay, rfl, hfrom⟩ := eval_from henv hstart h
  obtain ⟨delay', stop', heval, hle⟩ := hfrom other hother
  exact ⟨_, _, heval, by rw [Datum.text_renumbered, Datum.text_renumbered], hle⟩

end Evaluator

end RenderFold
