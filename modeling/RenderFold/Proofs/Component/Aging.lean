import RenderFold.Proofs.Component.Received

/-!
# Data Made in Order

Whatever a computation gives was made before the serial number that it stops
at, as long as all that its variables hold was made before the one that it
starts from. So what the variables of a block hold is older than anything that
an expression after it makes.

## Main definitions

* `Eval.Ages`: What a computation gives is older than what comes after it.

## Theorems

* `Evaluator.eval_ages`: Expressions.
* `Evaluator.exec_passing`: Declarations, and expressions whose value is not used.
* `Evaluator.runTo_return`: A function that returns an expression after these.
-/

namespace RenderFold

open Script (Tree Node)

section Data

variable {bound later : Nat}

/-- What was made before a serial number was made before any later one. -/
theorem Datum.Older.mono {datum : Datum} (h : datum.Older bound) (hle : bound ≤ later) :
    datum.Older later := by
  induction h with
  | value => exact .value
  | view hserial => exact .view (Nat.lt_of_lt_of_le hserial hle)
  | list _ ih => exact .list ih
  | closure hserial _ ih => exact .closure (Nat.lt_of_lt_of_le hserial hle) ih

namespace Env

variable {env : Env} {name : String} {datum : Datum}

theorem Older.mono (h : env.Older bound) (hle : bound ≤ later) : env.Older later :=
  fun locals hlocals entry hentry => (h locals hlocals entry hentry).mono hle

theorem Older.get? (h : env.Older bound) (hget : Env.get? env name = some datum) :
    datum.Older bound := by
  induction env with
  | nil => cases hget
  | cons locals rest ih =>
      obtain ⟨hlocals, hrest⟩ := List.forall_mem_cons.mp h
      unfold Env.get? at hget
      split at hget
      · next found hfound =>
          cases hget
          exact hlocals _ (Fields.mem_of_get? hfound)
      · exact ih hrest hget

theorem older_insert {locals : Variables} (h : ∀ entry ∈ locals, entry.2.Older bound)
    (hdatum : datum.Older bound) :
    ∀ entry ∈ Fields.insert locals name datum, entry.2.Older bound := by
  intro entry hentry
  rcases Fields.mem_of_mem_insert hentry with rfl | hentry
  · exact hdatum
  · exact h entry hentry

theorem Older.declare (h : env.Older bound) (hdatum : datum.Older bound) :
    (env.declare name datum).Older bound := by
  cases env with
  | nil =>
      exact List.forall_mem_singleton.mpr (List.forall_mem_singleton.mpr hdatum)
  | cons locals rest =>
      obtain ⟨hlocals, hrest⟩ := List.forall_mem_cons.mp h
      exact List.forall_mem_cons.mpr ⟨older_insert hlocals hdatum, hrest⟩

end Env

end Data

/-- From a serial number on, what a computation gives is older than what comes
    after it. -/
def Eval.Ages {α : Type} (start : Nat) (older : Nat → α → Prop) (x : Eval α) : Prop :=
  ∀ c, start ≤ c → ∀ a c', x c = .ok (a, c') → c ≤ c' ∧ older c' a

namespace Eval.Ages

variable {α β : Type} {start : Nat} {older : Nat → α → Prop} {olderResult : Nat → β → Prop}

theorem pure {a : α} (h : ∀ c, start ≤ c → older c a) : Ages start older (pure a : Eval α) := by
  intro c hc b c' hpure
  obtain ⟨rfl, rfl⟩ := pure_eq_ok hpure
  exact ⟨Nat.le_refl c, h c hc⟩

theorem throw (e : RenderError) : Ages start older (throw e : Eval α) := by
  intro c _ b c' hthrow
  cases hthrow

theorem lift {x : Except RenderError α} (h : ∀ a, x = .ok a → ∀ c, start ≤ c → older c a) :
    Ages start older (liftM x : Eval α) := by
  intro c hc a c' hlift
  cases x with
  | error e => cases hlift
  | ok b =>
      cases hlift
      exact ⟨Nat.le_refl c, h a rfl c hc⟩

theorem bind {x : Eval α} {F : α → Eval β} (hx : Ages start older x)
    (hF : ∀ a middle, start ≤ middle → older middle a → Ages middle olderResult (F a)) :
    Ages start olderResult (x >>= F) := by
  intro c hc b c' h
  obtain ⟨a, between, hxa, hFa⟩ := bind_eq_ok h
  obtain ⟨hle, holder⟩ := hx c hc a between hxa
  obtain ⟨hle', hresult⟩ :=
    hF a between (Nat.le_trans hc hle) holder between (Nat.le_refl between) b c' hFa
  exact ⟨Nat.le_trans hle hle', hresult⟩

/-- What comes first may be of any age. -/
theorem bind_any {x : Eval α} {F : α → Eval β} (hx : Ages start (fun _ _ => True) x)
    (hF : ∀ a middle, start ≤ middle → Ages middle olderResult (F a)) :
    Ages start olderResult (x >>= F) :=
  hx.bind fun a middle hmiddle _ => hF a middle hmiddle

/-- The items of a list are worked through one after another. -/
theorem mapM {F : α → Eval β} {xs : List α}
    (hmono : ∀ b c c', c ≤ c' → olderResult c b → olderResult c' b)
    (hF : ∀ a ∈ xs, ∀ middle, start ≤ middle → Ages middle olderResult (F a)) :
    Ages start (fun c items => ∀ item ∈ items, olderResult c item) (xs.mapM F) := by
  induction xs generalizing start with
  | nil => exact pure fun c _ item hitem => absurd hitem List.not_mem_nil
  | cons x xs ih =>
      rw [List.mapM_cons]
      obtain ⟨hx, hxs⟩ := List.forall_mem_cons.mp hF
      refine (hx start (Nat.le_refl start)).bind fun first middle hmiddle hfirst => ?_
      refine (ih fun a ha later hlater => hxs a ha later (Nat.le_trans hmiddle hlater)).bind
        fun rest last hlast hrest => ?_
      refine pure fun c hc => List.forall_mem_cons.mpr ⟨?_, fun item hitem => ?_⟩
      · exact hmono first middle c (Nat.le_trans hlast hc) hfirst
      · exact hmono item last c hc (hrest item hitem)

end Eval.Ages

/-- A statement that does not return: a declaration, or an expression whose value
    is not used. -/
def Script.Tree.passes : Tree → Bool
  | .mk (.declare ..) => true
  | .mk (.discard _) => true
  | _ => false

namespace Evaluator

open Eval (Ages)

variable {start : Nat} {setting : Setting} {recur : Env → Tree → Eval Datum} {env : Env}
  {arguments : List Datum}

/-- Whatever is evaluated among variables that were made before is older than
    what comes after it. -/
def Aged (recur : Env → Tree → Eval Datum) : Prop :=
  ∀ env t start, env.Older start → Ages start Datum.Older (recur env t)

/-- A function gives what is older than what comes after, if it is given such
    data. -/
def Matures (f : List Datum → Eval Datum) (start : Nat) : Prop :=
  ∀ arguments middle, start ≤ middle → (∀ datum ∈ arguments, datum.Older middle) →
    Ages middle Datum.Older (f arguments)

theorem older_value {plain : Value} : ∀ c, start ≤ c → (Datum.value plain).Older c :=
  fun _ _ => .value

theorem fresh_ages : Ages start (fun c serial => serial < c) fresh := by
  intro c _ a c' h
  cases h
  exact ⟨Nat.le_succ c, Nat.lt_succ_self c⟩

theorem made_ages (root : View) : Ages start Datum.Older (made root) :=
  fresh_ages.bind fun _ _ _ hserial => .pure fun _ hc => .view (Nat.lt_of_lt_of_le hserial hc)

theorem lookup_older (henv : env.Older start) (name : String) :
    (lookup setting env name).Older start := by
  unfold lookup
  split
  · next datum hget => exact henv.get? hget
  · split <;> exact .value

theorem mapM_ages (hrecur : Aged recur) (henv : env.Older start) (ts : List Tree) :
    Ages start (fun c items => ∀ item ∈ items, Datum.Older c item) (ts.mapM (recur env)) :=
  .mapM (fun _ _ _ hle holder => holder.mono hle) fun t _ middle hmiddle =>
    hrecur env t middle (henv.mono hmiddle)

theorem invoke_matures (hrecur : Aged recur) (params : List String) (body : Tree)
    (henv : env.Older start) : Matures (invoke recur params body env) start := by
  intro arguments middle hmiddle harguments
  refine hrecur _ body middle (List.forall_mem_cons.mpr ⟨?_, henv.mono hmiddle⟩)
  have hlocals : ∀ (params : List (String × Nat)) (locals : Variables),
      (∀ entry ∈ locals, entry.2.Older middle) →
      ∀ entry ∈ params.foldl (fun locals param =>
        Fields.insert locals param.1 (arguments[param.2]?.getD .null)) locals,
        entry.2.Older middle := by
    intro params
    induction params with
    | nil => exact fun _ h => h
    | cons param rest ih =>
        intro locals h
        refine ih _ (Env.older_insert h ?_)
        cases hget : arguments[param.2]? with
        | none => exact .value
        | some datum => exact harguments datum (List.mem_of_getElem? hget)
  exact hlocals _ [] fun _ h => absurd h List.not_mem_nil

section Each

variable {f : List Datum → Eval Datum}

/-- Results are collected one after another. -/
theorem collect_ages {first : Eval Datum} {others : Eval (List Datum)}
    (hfirst : Ages start Datum.Older first)
    (hothers : ∀ middle, start ≤ middle →
      Ages middle (fun c items => ∀ item ∈ items, Datum.Older c item) others) :
    Ages start (fun c items => ∀ item ∈ items, Datum.Older c item)
      (do return (← first) :: (← others)) :=
  hfirst.bind fun _ middle hmiddle hdatum =>
    (hothers middle hmiddle).bind fun _ _ hlast hrest => .pure fun _ hc =>
      List.forall_mem_cons.mpr ⟨hdatum.mono (Nat.le_trans hlast hc), fun item hitem =>
        (hrest item hitem).mono hc⟩

theorem Matures.mono (h : Matures f start) {middle : Nat} (hle : start ≤ middle) :
    Matures f middle :=
  fun arguments last hlast => h arguments last (Nat.le_trans hle hlast)

theorem Matures.items (h : Matures f start) {items : List Datum}
    (hitems : ∀ item ∈ items, item.Older start) (i : Nat) :
    Ages start (fun c items => ∀ item ∈ items, Datum.Older c item) (eachItem f i items) := by
  induction items generalizing i start with
  | nil => exact .pure fun _ _ _ hitem => absurd hitem List.not_mem_nil
  | cons item rest ih =>
      obtain ⟨hitem, hrest⟩ := List.forall_mem_cons.mp hitems
      refine collect_ages (h _ start (Nat.le_refl start) ?_) fun middle hmiddle =>
        ih (h.mono hmiddle) (fun item hmem => (hrest item hmem).mono hmiddle) (i + 1)
      exact List.forall_mem_cons.mpr ⟨hitem, List.forall_mem_singleton.mpr .value⟩

theorem Matures.numbers (h : Matures f start) (count i : Nat) :
    Ages start (fun c items => ∀ item ∈ items, Datum.Older c item) (eachNumber f i count) := by
  induction count generalizing i start with
  | zero => exact .pure fun _ _ _ hitem => absurd hitem List.not_mem_nil
  | succ count ih =>
      refine collect_ages (h _ start (Nat.le_refl start) ?_) fun middle hmiddle =>
        ih (h.mono hmiddle) (i + 1)
      exact List.forall_mem_cons.mpr ⟨.value, List.forall_mem_singleton.mpr .value⟩

theorem Matures.fields (h : Matures f start) (fields : Fields Value) (i : Nat) :
    Ages start (fun c items => ∀ item ∈ items, Datum.Older c item) (eachField f i fields) := by
  induction fields generalizing i start with
  | nil => exact .pure fun _ _ _ hitem => absurd hitem List.not_mem_nil
  | cons field rest ih =>
      refine collect_ages (h _ start (Nat.le_refl start) ?_) fun middle hmiddle =>
        ih (h.mono hmiddle) (i + 1)
      exact List.forall_mem_cons.mpr ⟨.value, List.forall_mem_cons.mpr
        ⟨.value, List.forall_mem_singleton.mpr .value⟩⟩

theorem Matures.each (h : Matures f start) {subject : Datum} (hsubject : subject.Older start) :
    Ages start (fun c items => ∀ item ∈ items, Datum.Older c item) (each f subject) := by
  have hnone : Ages start (fun c items => ∀ item ∈ items, Datum.Older c item)
      (Pure.pure [] : Eval (List Datum)) := .pure fun _ _ _ hitem => absurd hitem List.not_mem_nil
  cases hsubject with
  | list hitems => exact h.items hitems 0
  | @value plain =>
      cases plain with
      | array items => exact h.items (List.forall_mem_map.mpr fun _ _ => .value) 0
      | str text => exact h.items (List.forall_mem_map.mpr fun _ _ => .value) 0
      | object fields => exact h.fields fields 0
      | null | bool => exact hnone
      | int n => exact h.numbers _ 0
      | float x => exact h.numbers _ 0
  | view | closure => exact hnone

end Each

theorem construct_ages (tag : String) (data : Option Value) (children : Option Datum) :
    Ages start Datum.Older (construct setting tag data children) := by
  unfold construct
  cases data with
  | none =>
      refine Ages.bind_any (.pure fun _ _ => trivial) fun data _ _ => ?_
      dsimp only
      split <;> exact made_ages _
  | some value =>
      refine Ages.bind_any (.lift fun _ _ _ _ => trivial) fun data _ _ => ?_
      dsimp only
      split <;> exact made_ages _

theorem callHelper_matures (hrecur : Aged recur) (helper : Helper) :
    Matures (callHelper setting recur helper) start := by
  intro arguments middle _ harguments
  cases helper with
  | element =>
      rw [callHelper_element]
      split
      · exact construct_ages _ _ _
      · exact .throw _
  | text => exact made_ages _
  | comment => exact made_ages _
  | display => exact .pure older_value
  | list =>
      cases arguments with
      | nil => exact .throw _
      | cons subject rest =>
          cases rest with
          | nil => exact .throw _
          | cons callback rest =>
              obtain ⟨hsubject, hcallback, -⟩ := List.forall_mem_cons.mp harguments
                |>.imp_right List.forall_mem_cons.mp
              cases hcallback with
              | closure _ henv =>
                  exact ((invoke_matures hrecur _ _ henv).each hsubject).bind
                    fun _ _ _ hitems => .pure fun _ hc => .list fun item hitem =>
                      (hitems item hitem).mono hc
              | _ => exact .throw _
  | markup => exact made_ages _
  | escape => exact .pure older_value

theorem call_ages (hrecur : Aged recur) (henv : env.Older start) (callee : Tree)
    (arguments : List Tree) :
    Ages start Datum.Older (call setting recur env callee arguments) := by
  unfold call
  refine Ages.bind_any (.lift fun _ _ _ _ => trivial) fun found middle hmiddle => ?_
  have henv' := henv.mono hmiddle
  cases found with
  | some helper =>
      exact (mapM_ages hrecur henv' arguments).bind fun given last _ hgiven =>
        callHelper_matures hrecur helper given last (Nat.le_refl last) hgiven
  | none =>
      refine (hrecur env callee middle henv').bind fun target last hlast htarget => ?_
      cases htarget with
      | closure _ hclosed =>
          exact (mapM_ages hrecur (henv'.mono hlast) arguments).bind fun given between hbetween
            hgiven => invoke_matures hrecur _ _ hclosed given between hbetween hgiven
      | _ => exact .throw _

theorem add_older (left right : Datum) : ∀ c, start ≤ c → (add left right).Older c := by
  intro c _
  unfold add
  split
  · split <;> exact .value
  · exact .value

theorem operate_ages (hrecur : Aged recur) (henv : env.Older start) (op : Script.BinaryOp)
    (left right : Tree) : Ages start Datum.Older (operate recur env op left right) := by
  refine (hrecur env left start henv).bind fun first middle hmiddle hfirst => ?_
  have hright := hrecur env right middle (henv.mono hmiddle)
  cases op with
  | and =>
      dsimp only
      split
      · exact hright
      · exact .pure fun _ hc => hfirst.mono hc
  | or =>
      dsimp only
      split
      · exact .pure fun _ hc => hfirst.mono hc
      · exact hright
  | strictEq => exact hright.bind fun _ _ _ _ => .pure older_value
  | strictNotEq => exact hright.bind fun _ _ _ _ => .pure older_value
  | add => exact hright.bind fun second _ _ _ => .pure (add_older first second)

theorem properties_ages (hrecur : Aged recur) (henv : env.Older start)
    (fields : List (String × Tree)) (out : Fields Value) :
    Ages start (fun _ _ => True) (properties recur env out fields) := by
  induction fields generalizing out start with
  | nil => exact .pure fun _ _ => trivial
  | cons field rest ih =>
      exact (hrecur env field.2 start henv).bind fun datum middle hmiddle _ =>
        ih (henv.mono hmiddle) _

theorem property_older {datum found : Datum} {name : String}
    (h : datum.property name = .ok found) : ∀ c, start ≤ c → found.Older c := by
  intro c _
  unfold Datum.property at h
  split at h
  · cases h
  all_goals
    cases h
    first | exact .value | (split <;> exact .value)

theorem part_older {datum position found : Datum} (hdatum : datum.Older start)
    (h : datum.part position = .ok found) : ∀ c, start ≤ c → found.Older c := by
  intro c hc
  unfold Datum.part at h
  split at h
  · cases h
  · cases h
    exact .value
  · next items =>
      cases h
      cases hget : position.index?.bind (items[·]?) with
      | none => exact .value
      | some item =>
          obtain ⟨i, -, hitem⟩ := Option.bind_eq_some_iff.mp hget
          cases hdatum with
          | list hitems => exact (hitems item (List.mem_of_getElem? hitem)).mono hc
  · cases h
    exact .value
  · cases h
    exact .value

theorem ofItems_older {items : List Datum} {c : Nat} (h : ∀ item ∈ items, item.Older c) :
    (Datum.ofItems items).Older c := by
  unfold Datum.ofItems
  dsimp only
  split
  · exact .value
  · exact .list h

/-- One layer, if its parts are in order. -/
theorem step_ages (hrecur : Aged recur) (henv : env.Older start) (node : Node Tree) :
    Ages start Datum.Older (step setting recur env node) := by
  cases node with
  | ident name => exact .pure fun _ hc => (lookup_older henv name).mono hc
  | member target property =>
      exact (hrecur env target start henv).bind fun _ _ _ _ => .lift fun _ h => property_older h
  | index target position =>
      exact (hrecur env target start henv).bind fun datum middle hmiddle hdatum =>
        (hrecur env position middle (henv.mono hmiddle)).bind fun _ _ hlast _ =>
          .lift fun _ h => part_older (hdatum.mono hlast) h
  | call callee arguments => exact call_ages hrecur henv callee arguments
  | array elements =>
      exact (mapM_ages hrecur henv elements).bind fun _ _ _ hitems =>
        .pure fun _ hc => ofItems_older fun item hitem => (hitems item hitem).mono hc
  | object fields =>
      exact (properties_ages hrecur henv fields []).bind fun _ _ _ _ => .pure older_value
  | not argument => exact (hrecur env argument start henv).bind fun _ _ _ _ => .pure older_value
  | binary op left right => exact operate_ages hrecur henv op left right
  | conditional test consequent alternate =>
      refine (hrecur env test start henv).bind fun datum middle hmiddle _ => ?_
      split
      · exact hrecur env consequent middle (henv.mono hmiddle)
      · exact hrecur env alternate middle (henv.mono hmiddle)
  | arrow params body =>
      exact fresh_ages.bind fun _ _ hmiddle hserial => .pure fun _ hc =>
        .closure (Nat.lt_of_lt_of_le hserial hc) (henv.mono (Nat.le_trans hmiddle hc))
  | str | num | bool | null | hole => exact .pure older_value
  | function | ret | declare | branch | discard => exact .throw _

/-- What an expression evaluates to is older than what comes after it. -/
theorem eval_ages (setting : Setting) (depth : Nat) : Aged (eval setting depth) := by
  induction depth with
  | zero => exact fun _ _ _ _ => .throw _
  | succ depth ih => exact fun env t start henv => step_ages ih henv t.node

section Statements

variable {depth stop : Nat} {front rest : List Tree} {flow : Flow}

theorem get?_declare_of_ne {name other : String} (datum : Datum) (hne : other ≠ name) :
    Env.get? (env.declare name datum) other = Env.get? env other := by
  cases env with
  | nil => simp only [Env.declare, Env.get?, Fields.get?, if_neg hne.symm]
  | cons locals rest => simp only [Env.declare, Env.get?, Fields.get?_insert_of_ne _ _ _ _ hne]

/-- Statements that do not return leave variables for those that come next, and
    leave the same ones if evaluation may go deeper. -/
theorem exec_passing (hfront : ∀ s ∈ front, s.passes = true) (henv : env.Older start)
    (h : execAll (eval setting depth) env (front ++ rest) start = .ok (flow, stop)) :
    ∃ env' middle, env'.Older middle ∧
      (∀ name, (∀ binding init, .mk (.declare binding name init) ∉ front) →
        Env.get? env name = none → Env.get? env' name = none) ∧
      execAll (eval setting depth) env' rest middle = .ok (flow, stop) ∧
      ∀ deeper other, depth ≤ deeper →
        execAll (eval setting deeper) env (front ++ other) start =
          execAll (eval setting deeper) env' other middle := by
  induction front generalizing env start with
  | nil => exact ⟨env, start, henv, fun _ _ hname => hname, h, fun _ _ _ => rfl⟩
  | cons s front ih =>
      obtain ⟨hs, hrest⟩ := List.forall_mem_cons.mp hfront
      obtain ⟨node⟩ := s
      rw [List.cons_append, execAll] at h
      obtain ⟨after, between, hafter, h⟩ := Eval.bind_eq_ok h
      cases node with
      | declare binding name init =>
          rw [exec, execNode] at hafter
          obtain ⟨datum, between', hdatum, hpure⟩ := Eval.bind_eq_ok hafter
          obtain ⟨rfl, rfl⟩ := Eval.pure_eq_ok hpure
          obtain ⟨hle, hold⟩ :=
            eval_ages setting depth env init start henv start (Nat.le_refl start) _ _ hdatum
          obtain ⟨env', middle, henv', hnames, hexec, hsame⟩ :=
            ih hrest ((henv.mono hle).declare hold) h
          refine ⟨env', middle, henv', fun other hother hnone => ?_, hexec,
            fun deeper other hdeeper => ?_⟩
          · refine hnames other (fun binding init hmem => hother binding init
              (List.mem_cons_of_mem _ hmem)) ?_
            rw [get?_declare_of_ne datum fun heq => hother binding init ?_]
            · exact hnone
            · rw [heq]
              exact List.mem_cons_self
          · rw [← hsame deeper other hdeeper, List.cons_append, execAll, exec, execNode]
            rw [Eval.bind_of_ok (Eval.bind_of_ok (eval_below env init hdeeper hdatum))]
      | discard argument =>
          rw [exec, execNode] at hafter
          obtain ⟨datum, between', hdatum, hpure⟩ := Eval.bind_eq_ok hafter
          obtain ⟨rfl, rfl⟩ := Eval.pure_eq_ok hpure
          have hle := (eval_ages setting depth env argument start henv start (Nat.le_refl start) _ _
            hdatum).1
          obtain ⟨env', middle, henv', hnames, hexec, hsame⟩ := ih hrest (henv.mono hle) h
          refine ⟨env', middle, henv', fun other hother hnone => hnames other
            (fun binding init hmem => hother binding init (List.mem_cons_of_mem _ hmem)) hnone,
            hexec, fun deeper other hdeeper => ?_⟩
          rw [← hsame deeper other hdeeper, List.cons_append, execAll, exec, execNode]
          rw [Eval.bind_of_ok (Eval.bind_of_ok (eval_below env argument hdeeper hdatum))]
      | _ => cases hs

/-- A whole render function, run to a given depth. -/
def runTo (setting : Setting) (depth : Nat) (function : Tree) : Except RenderError View :=
  match function with
  | .mk (.function _ _ body) => do
    let (flow, _) ← (execAll (eval setting depth) [[]] body).run 0
    match flow with
    | .returned datum => rootView setting datum
    | .next _ => .error (.noReturn setting.component)
  | _ => .error (.typeError .notAFunction)

/-- Functions are run to the greatest depth there is. -/
theorem runTo_maxDepth (setting : Setting) (function : Tree) :
    runTo setting maxDepth function = run setting function := rfl

theorem older_empty : Env.Older 0 [[]] :=
  List.forall_mem_singleton.mpr fun _ h => absurd h List.not_mem_nil

/-- A function that returns an expression, after statements that do not return,
    gives what comes of evaluating the expression. Another expression in its place
    is evaluated among the same variables. -/
theorem runTo_return {name : Option String} {params : List String} {t : Tree} {back : List Tree}
    {view : View} (hfront : ∀ s ∈ front, s.passes = true)
    (h : runTo setting depth
      (.mk (.function name params (front ++ .mk (.ret (some t)) :: back))) = .ok view) :
    ∃ env start, Env.Older start env ∧
      (∀ name, (∀ binding init, .mk (.declare binding name init) ∉ front) →
        Env.get? env name = none) ∧
      (∃ datum stop, eval setting depth env t start = .ok (datum, stop) ∧
        rootView setting datum = .ok view) ∧
      ∀ deeper t' back' datum stop, depth ≤ deeper →
        eval setting deeper env t' start = .ok (datum, stop) →
        runTo setting deeper
            (.mk (.function name params (front ++ .mk (.ret (some t')) :: back'))) =
          rootView setting datum := by
  unfold runTo at h
  dsimp only at h
  cases hbody : execAll (eval setting depth) [[]] (front ++ .mk (.ret (some t)) :: back) 0 with
  | error e =>
      rw [show (execAll _ _ _).run 0 = _ from hbody] at h
      cases h
  | ok result =>
      obtain ⟨flow, stop⟩ := result
      rw [show (execAll _ _ _).run 0 = _ from hbody] at h
      obtain ⟨env, start, henv, hnames, hexec, hsame⟩ := exec_passing hfront older_empty hbody
      rw [execAll, exec, execNode] at hexec
      obtain ⟨after, between, hafter, hexec⟩ := Eval.bind_eq_ok hexec
      obtain ⟨datum, between', hdatum, hpure⟩ := Eval.bind_eq_ok hafter
      obtain ⟨rfl, rfl⟩ := Eval.pure_eq_ok hpure
      obtain ⟨rfl, rfl⟩ := Eval.pure_eq_ok hexec
      refine ⟨env, start, henv, fun name hname => hnames name hname rfl, ⟨datum, _, hdatum, h⟩, ?_⟩
      intro deeper t' back' datum' stop' hdeeper hdatum'
      unfold runTo
      dsimp only
      rw [show (execAll _ _ _).run 0 = _ from hsame deeper _ hdeeper, execAll, exec, execNode,
        Eval.bind_of_ok (Eval.bind_of_ok hdatum')]
      rfl

end Statements

end Evaluator

end RenderFold
