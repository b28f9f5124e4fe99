import RenderFold.Proofs.Component.Properties
import RenderFold.Proofs.Decimal.Scientific
import RenderFold.Proofs.Folding.Addressed
import RenderFold.Proofs.Folding.Surviving
import RenderFold.Proofs.Script.Followed
import RenderFold.Proofs.Script.Grammar

/-!
# Calls After Numbering

What numbering the calls of a function does to their trees. The tree of a call
is the one it was, or the call has its number set in its data. Everything else
in the function is what it was, down to the calls that were numbered.

A numbered call makes the same component node as before, but for the place that
the node names. That is the number, unless the call was left alone or names
another place after it.

## Main definitions

* `Program.Stamped`: A call before and after it is numbered.

## Theorems

* `Evaluator.always_stamped`: The node that a numbered call makes.
* `Program.placeAll_stamped`: Every call that survives is numbered by its
  position.
* `Program.placeAll_follows`: Everything else is as it was.
-/

namespace RenderFold

open Script (Arena Id Tree)
open Script.Arena (Closed Follows Forest IsTree Path)

namespace NodeData

variable {data data' : NodeData} {fields : Fields Value} {key : String} {value : Value}
  {place : Option Nat}

/-- The other parts of the data do not depend on the place. -/
theorem addField_placed (h : data.addField key value = .ok data') (place : Option Nat) :
    ∃ other, addField { data with treeSlot := place } key value =
        .ok { data' with treeSlot := other } ∧ (other = place ∨ other = data'.treeSlot) := by
  have hpart : ∀ {part : Except RenderError (Fields Value)}
      {change change' : Fields Value → NodeData},
      (part >>= fun fields => pure (change fields)) = Except.ok data' →
      (∀ fields, change' fields = { change fields with treeSlot := place }) →
      ∃ other, (part >>= fun fields => pure (change' fields)) =
        Except.ok { data' with treeSlot := other } ∧ (other = place ∨ other = data'.treeSlot) := by
    intro part change change' h hchange
    cases part with
    | error e => cases h
    | ok fields =>
        cases h
        exact ⟨place, congrArg _ (hchange fields), Or.inl rfl⟩
  unfold addField at h ⊢
  split at h
  · exact hpart h fun _ => rfl
  · exact hpart h fun _ => rfl
  · exact hpart h fun _ => rfl
  · cases h; exact ⟨place, rfl, Or.inl rfl⟩
  · cases h; exact ⟨place, rfl, Or.inl rfl⟩
  · cases h; exact ⟨place, rfl, Or.inl rfl⟩
  · cases h; exact ⟨place, rfl, Or.inl rfl⟩
  · cases h; exact ⟨_, rfl, Or.inr rfl⟩
  · split at h
    · next items =>
        cases hitems : items.mapM directive with
        | error e =>
            rw [hitems] at h
            cases h
        | ok bindings =>
            rw [hitems] at h
            cases h
            exact ⟨place, rfl, Or.inl rfl⟩
    · cases h
  · cases h; exact ⟨place, rfl, Or.inl rfl⟩

/-- Data that is read with another place from the start. -/
theorem foldlM_placed :
    ∀ {data : NodeData}, fields.foldlM (fun data field => addField data field.1 field.2) data =
        .ok data' → ∀ place, ∃ other,
      fields.foldlM (fun data field => addField data field.1 field.2)
          { data with treeSlot := place } = .ok { data' with treeSlot := other } ∧
        (other = place ∨ other = data'.treeSlot) := by
  induction fields with
  | nil =>
      intro data h place
      cases h
      exact ⟨place, rfl, Or.inl rfl⟩
  | cons field rest ih =>
      intro data h place
      rw [List.foldlM_cons] at h ⊢
      cases hfirst : data.addField field.1 field.2 with
      | error e =>
          rw [hfirst] at h
          cases h
      | ok middle =>
          rw [hfirst] at h
          obtain ⟨other, hother, hplace⟩ := addField_placed hfirst place
          obtain ⟨last, hlast, hlater⟩ := ih h other
          rw [hother]
          refine ⟨last, hlast, ?_⟩
          rcases hplace with rfl | rfl
          · exact hlater
          · -- From here on nothing differs any more.
            have hsame := Except.ok.inj (h.symm.trans hlast)
            exact Or.inr (congrArg treeSlot hsame).symm

/-- Data with another field for its place is read as the same data, with the new
    place unless the field is named again. -/
theorem ofValue_insert_treeSlot (value : Value) (h : ofValue (.object fields) = .ok data) :
    ∃ place, ofValue (.object (Fields.insert fields "treeSlot" value)) =
        .ok { data with treeSlot := place } ∧ (place = value.index? ∨ place = data.treeSlot) := by
  unfold ofValue at h ⊢
  dsimp only at h ⊢
  generalize empty = start at h ⊢
  induction fields generalizing start with
  | nil =>
      cases h
      exact ⟨_, rfl, Or.inl rfl⟩
  | cons field rest ih =>
      obtain ⟨name, old⟩ := field
      unfold Fields.insert
      rw [List.foldlM_cons] at h
      by_cases hname : name = "treeSlot"
      · subst hname
        rw [if_pos rfl, List.foldlM_cons]
        exact foldlM_placed h value.index?
      · rw [if_neg hname, List.foldlM_cons]
        cases hfirst : start.addField name old with
        | error e =>
            rw [hfirst] at h
            cases h
        | ok middle =>
            rw [hfirst] at h
            exact ih middle h

end NodeData

/-- A whole number is written as a literal. -/
theorem Script.literal_ofNat {n : Nat} (h : n < 9 * 10 ^ 15) :
    Script.Literal (Float.ofNat n).toBits ∧
      (Decimal.Exact.ofFloat? (Float.ofBits (Float.ofNat n).toBits)).isSome = true := by
  rcases Nat.eq_zero_or_pos n with rfl | hpos
  · exact ⟨⟨0, 0, by decide +kernel⟩, by decide +kernel⟩
  · obtain ⟨M, E, hM, hparts, hvalue⟩ := Decimal.ofFloat?_ofNat hpos (by omega)
    refine ⟨⟨n, 0, Decimal.toBits_eq hM hparts ?_⟩, ?_⟩
    · refine Decimal.ofFloat?_ofScientific ((Decimal.ofFloat?_eq_some_iff hM).mp hparts).1 ?_
      rw [pow_zero, div_one, ← hvalue, mul_div_cancel_right₀ _ (zpow_pos two_pos E).ne']
      exact .self M E
    · rw [Decimal.ofFloat?_ofBits hM hparts]
      rfl

namespace Evaluator

variable {setting : Setting} {env : Env} {start depth stop index serial : Nat} {use : ComponentId}
  {data : NodeData} {tag : String} {value : Option Value} {children : Option Datum}
  {arguments edited : List Tree}

/-- A component node is made for a name that is entered as the component. -/
private theorem made_component {entry : Option Entry} {read : NodeData} {views : List View}
    (h : (match entry with
      | some (.component id) => made (.component id read)
      | some (.deferred id) => made (.deferred id read)
      | none => made (.element tag read views)) start =
        .ok (.view serial (.component use data), stop)) :
    entry = some (.component use) ∧ read = data := by
  split at h
  · cases made_eq_ok h
    exact ⟨rfl, rfl⟩
  · cases made_eq_ok h
  · cases made_eq_ok h

/-- A tag that is registered for a component makes a node of that component. Only
    one that the component around it has not registered is looked up globally. -/
theorem construct_of_registered {c : Nat} {data : NodeData}
    (hentry : (Fields.get? setting.entries tag).elim (Fields.get? setting.globals tag) some =
      some (.component use))
    (hdata : value.elim (.ok .empty) NodeData.ofValue = .ok data) :
    construct setting tag value children c = .ok (.view c (.component use data), c + 1) := by
  unfold construct
  cases value with
  | none =>
      cases hdata
      cases hown : Fields.get? setting.entries tag with
      | none =>
          rw [hown, Option.elim_none] at hentry
          rw [hentry]
          rfl
      | some entry =>
          rw [hown, Option.elim_some] at hentry
          cases hentry
          rfl
  | some value =>
      have hread : NodeData.ofValue value = .ok data := hdata
      dsimp only
      rw [hread]
      cases hown : Fields.get? setting.entries tag with
      | none =>
          rw [hown, Option.elim_none] at hentry
          rw [hentry]
          rfl
      | some entry =>
          rw [hown, Option.elim_some] at hentry
          cases hentry
          rfl

/-- A component node is made out of the data alone. -/
theorem construct_component
    (h : construct setting tag value children start =
      .ok (.view serial (.component use data), stop)) :
    value.elim (.ok .empty) NodeData.ofValue = .ok data ∧
      ∀ (other : Option Value) {data' : NodeData} (children' : Option Datum) (c : Nat),
        other.elim (.ok .empty) NodeData.ofValue = .ok data' →
        construct setting tag other children' c = .ok (.view c (.component use data'), c + 1) := by
  unfold construct at h
  obtain ⟨hentry, hdata⟩ :
      (Fields.get? setting.entries tag).elim (Fields.get? setting.globals tag) some =
        some (.component use) ∧
      value.elim (.ok .empty) NodeData.ofValue = .ok data := by
    cases hown : Fields.get? setting.entries tag
    all_goals
      rw [hown] at h
      cases value with
      | none =>
          obtain ⟨hentry, rfl⟩ := made_component h
          exact ⟨hentry, rfl⟩
      | some value =>
          obtain ⟨read, between, hread, h⟩ := Eval.bind_eq_ok h
          obtain ⟨hentry, rfl⟩ := made_component h
          cases hvalue : NodeData.ofValue value with
          | error e =>
              rw [hvalue] at hread
              cases hread
          | ok found =>
              rw [hvalue] at hread
              cases hread
              exact ⟨hentry, hvalue⟩
  exact ⟨hdata, fun _ _ _ _ hother => construct_of_registered hentry hother⟩

/-- A call that was numbered makes the component node that it made before, with
    another place at most. -/
theorem always_stamped (henv : env.Older start)
    (hname : Env.get? env Helper.element.name = none) (hindex : index < 9 * 10 ^ 15)
    (hset : Tree.DataSet "treeSlot" (.mk (.num (Float.ofNat index).toBits)) arguments edited)
    (h : Always setting env start depth (.ofCall .element arguments)
      (Datum.Shows (.component use data))) :
    ∃ place, (place = some index ∨ place = data.treeSlot) ∧
      Always setting env start (depth + 1) (.ofCall .element edited)
        (Datum.Shows (.component use { data with treeSlot := place })) := by
  obtain ⟨_, stop, heval, ⟨serial, rfl⟩, -⟩ := h start (Nat.le_refl start)
  obtain ⟨below, given, between, rfl, hgiven, hcall⟩ := eval_call hname heval
  have hvalue : eval setting below env (.mk (.num (Float.ofNat index).toBits)) start =
      .ok (.value (.int index), start) := by
    cases below with
    | zero => cases hset <;> cases hgiven
    | succ below =>
        rw [← Value.ofFloat_ofNat hindex]
        rfl
  obtain ⟨received, stop', hreceived, htag, -, fields, hfields, hinsert, hkeep⟩ :=
    hset.receives henv (Nat.le_refl start) hgiven (Nat.le_refl start) hvalue
  rw [callHelper_element] at hcall
  have hnew := eval_ofCall hname hreceived
  rw [callHelper_element, htag, hfields] at hnew
  obtain ⟨tag, hhead⟩ : ∃ tag, given.head? = some (.value (.str tag)) := by
    rcases hhead : given.head? with _ | (_ | _ | _ | _ | _ | _ | _) | _ | _ | _ <;>
      rw [hhead] at hcall
    case some.value.str tag => exact ⟨tag, rfl⟩
    all_goals cases hcall
  rw [hhead] at hcall hnew
  obtain ⟨hdata, hmake⟩ := construct_component hcall
  have hbefore : NodeData.ofValue (.object ((dataFields? given).getD [])) = .ok data := by
    cases hgot : dataFields? given <;> rw [hgot] at hdata <;> exact hdata
  -- The data is what it was with the new number, or it is what it was.
  obtain ⟨place, hplace, hread⟩ : ∃ place, (place = some index ∨ place = data.treeSlot) ∧
      NodeData.ofValue (.object fields) = .ok { data with treeSlot := place } := by
    by_cases hnamed : Tree.timesNamed "treeSlot" arguments ≤ 1
    · obtain ⟨place, hplaced, hplace⟩ := NodeData.ofValue_insert_treeSlot (.int index) hbefore
      rw [hinsert.mpr (Or.inl hnamed)]
      exact ⟨place, hplace, hplaced⟩
    · rw [hkeep (Nat.lt_of_not_le hnamed)]
      exact ⟨data.treeSlot, Or.inr rfl, hbefore⟩
  exact ⟨place, hplace, Always.of_view henv (Nat.le_refl start)
    (hnew.trans (hmake (some (.object fields)) _ stop' hread))⟩

end Evaluator

namespace Program

variable {arena after last : Arena} {call x : Id} {index i : Nat} {calls survivors : List Id}
  {keepPlaces : Bool} {function : Id} {path : List Nat}

/-- A call before and after it is numbered. It may be left as it is. -/
structure Stamped (arena after : Arena) (call : Id) (index : Nat) : Prop where
  grounded : after.Grounded call
  tree : after.tree call = arena.tree call ∨ ∃ arguments edited,
    Tree.DataSet "treeSlot" (.mk (.num (Float.ofNat index).toBits)) arguments edited ∧
      arena.tree call = .ofCall .element arguments ∧ after.tree call = .ofCall .element edited

namespace Stamped

/-- Nothing else that is done later makes a difference, if it is done elsewhere. -/
theorem later (h : Stamped arena after call index) (hsize : after.size ≤ last.size)
    (hsame : ∀ path x, after.Path call path x → last.get x = after.get x) :
    Stamped arena last call index := by
  obtain ⟨hgrounded, htree⟩ := h.grounded.same hsize hsame
  exact ⟨hgrounded, htree ▸ h.tree⟩

/-- Nor does anything that was done elsewhere before. -/
theorem earlier {before : Arena} (h : Stamped arena after call index) (hcall : before.Grounded call)
    (hsize : before.size ≤ arena.size)
    (hsame : ∀ path x, before.Path call path x → arena.get x = before.get x) :
    Stamped before after call index :=
  ⟨h.grounded, (hcall.same hsize hsame).2 ▸ h.tree⟩

end Stamped

/-- The node that is rewritten when a property of a call is set is the call or
    a part of it. -/
theorem dataPlace_path (arena : Arena) (call : Id) :
    ∃ path, arena.Path call path (arena.dataPlace call) := by
  unfold Script.Arena.dataPlace
  split
  · next data hdata =>
      split
      · obtain ⟨place, hplace⟩ := List.getElem?_of_mem
          (Script.Arena.arguments_subset arena call (List.mem_of_getElem? hdata))
        exact ⟨[place], .down hplace .here⟩
      · exact ⟨[], .here⟩
  · exact ⟨[], .here⟩

/-- Numbering a call. -/
theorem place_stamped (hcall : Forest Set.univ arena [call]) (index : Nat) :
    Stamped arena (place arena call index) call index := by
  have htree := hcall.isTree List.mem_cons_self
  have hext := Script.Arena.Extends.push arena (.num (Float.ofNat index).toBits)
  obtain ⟨hvalue, hnumber⟩ := @Script.Arena.Grounded.tree_push arena
    (.num (Float.ofNat index).toBits) (fun x hx => absurd hx List.not_mem_nil)
  have htree' := ((Script.Arena.SameParts.of_extends hext).forest hcall).isTree List.mem_cons_self
  -- The new number is a node by itself, so it leads to nothing that was there.
  have hapart : ∀ path, ¬ (arena.push (.num (Float.ofNat index).toBits)).2.Path
      (arena.push (.num (Float.ofNat index).toBits)).1 path
      ((arena.push (.num (Float.ofNat index).toBits)).2.dataPlace call) := by
    intro path hpath
    obtain ⟨path', hplace⟩ := dataPlace_path (arena.push (.num (Float.ofNat index).toBits)).2 call
    have hlt := htree.lt_size path' _ (hplace.back fun path z hz => by
      rw [hext.2 z (htree.lt_size path z hz)])
    generalize Script.Arena.dataPlace _ call = place at hpath hlt
    cases hpath with
    | here => exact absurd hlt (Nat.lt_irrefl _)
    | down hpart _ =>
        rw [Script.Arena.get_push_self] at hpart
        cases hpart
  obtain ⟨hleft, hset⟩ := htree'.tree_setProperty hvalue hapart "treeSlot"
  refine ⟨(((place_keepsForests arena call index).forest hcall).isTree
    List.mem_cons_self).grounded, ?_⟩
  rw [← (htree.grounded.extend hext).2]
  by_cases hdone : ((arena.push (.num (Float.ofNat index).toBits)).2.setProperty call "treeSlot"
      (arena.push (.num (Float.ofNat index).toBits)).1).1 = true
  · obtain ⟨arguments, edited, hdata, hbefore, hafter⟩ := hset hdone
    rw [hnumber] at hdata
    exact Or.inr ⟨arguments, edited, hdata, hbefore, hafter⟩
  · exact Or.inl (hleft (Bool.eq_false_iff.mpr hdone))

/-- Numbering a call leaves alone what is not below it. -/
theorem place_get_of_apart (hcall : IsTree arena call) (index : Nat) (hlt : x < arena.size)
    (hapart : ∀ path, ¬ arena.Path call path x) : (place arena call index).get x = arena.get x := by
  have hclosed : Closed arena {y | ∃ path, arena.Path call path y} := by
    rintro y ⟨path, hpath⟩
    refine ⟨hcall.lt_size path y hpath, fun part hpart => ?_⟩
    obtain ⟨place, hplace⟩ := List.getElem?_of_mem hpart
    exact ⟨path ++ [place], hpath.snoc hplace⟩
  exact (place_editedIn hclosed ⟨[], .here⟩ index).same x hlt fun ⟨path, hpath⟩ => hapart path hpath

/-- What is below one tree of a forest is not below another. -/
theorem apart_of_forest {root : Id} {ids : List Id} (h : Forest Set.univ arena (root :: ids))
    (hcall : call ∈ ids) (hpath : arena.Path call path x) : ∀ other, ¬ arena.Path root other x := by
  obtain ⟨span, hspan, hnodup, -⟩ := h
  obtain ⟨front, back, hfront, hback, rfl⟩ := hspan.of_cons
  intro other hother
  exact (List.nodup_append.mp hnodup).2.2 x
    (hfront.path_mem (hfront.subset List.mem_cons_self) hother) x
    (hback.path_mem (hback.subset hcall) hpath) rfl

/-- Numbering the first call leaves alone what is below the others. -/
theorem place_get_of_others (h : Forest Set.univ arena (call :: calls)) {other : Id}
    (hother : other ∈ calls) (index : Nat) :
    ∀ path x, arena.Path other path x → (place arena call index).get x = arena.get x :=
  fun path x hpath => place_get_of_apart (h.isTree List.mem_cons_self) index
    ((h.isTree (List.mem_cons_of_mem _ hother)).lt_size path x hpath)
    (apart_of_forest h hother hpath)

/-- The calls that are left to be numbered. -/
theorem forest_place (h : Forest Set.univ arena (call :: calls)) (index : Nat) :
    Forest Set.univ (place arena call index) (call :: calls) :=
  (place_keepsForests arena call index).forest h

theorem Forest.tail {zone : Set Id} (h : Forest zone arena (call :: calls)) :
    Forest zone arena calls :=
  h.subperm (List.sublist_cons_self call calls).subperm

theorem Forest.head {zone : Set Id} (h : Forest zone arena (call :: calls)) :
    Forest zone arena [call] :=
  h.subperm (List.singleton_sublist.mpr List.mem_cons_self).subperm

/-- Numbering calls leaves alone what is not below one of them. -/
theorem placeAll_get_of_apart : ∀ {arena : Arena} {index : Nat}, Forest Set.univ arena calls →
    x < arena.size →
    (∀ call ∈ calls, survivors.contains call = true → ∀ path, ¬ arena.Path call path x) →
    (placeAll survivors keepPlaces arena index calls).get x = arena.get x := by
  induction calls with
  | nil => exact fun _ _ _ => rfl
  | cons call rest ih =>
      intro arena index hcalls hlt hapart
      have hrest : ∀ call ∈ rest, survivors.contains call = true →
          ∀ path, ¬ arena.Path call path x :=
        fun call hcall => hapart call (List.mem_cons_of_mem _ hcall)
      unfold placeAll
      split
      · next hsurvives =>
          rw [ih (Forest.tail (forest_place hcalls index))
            (Nat.lt_of_lt_of_le hlt (place_keepsForests arena call index).1), place_get_of_apart
            (hcalls.isTree List.mem_cons_self) index hlt (hapart call List.mem_cons_self hsurvives)]
          -- What is below the others is what it was.
          intro other hother hcounts path hpath
          exact hrest other hother hcounts path (hpath.back fun path z hz => by
            rw [place_get_of_others hcalls hother index path z hz])
      · exact ih (Forest.tail hcalls) hlt hrest

theorem placeAll_size_le (arena : Arena) (index : Nat) :
    arena.size ≤ (placeAll survivors keepPlaces arena index calls).size :=
  (placeAll_keepsForests survivors keepPlaces calls arena index).1

/-- Every call that survives is numbered by its position among the calls that
    count. -/
theorem placeAll_stamped : ∀ {arena : Arena} (index : Nat) {i : Nat}, Forest Set.univ arena calls →
    (calls.filter (counts survivors keepPlaces))[i]? = some call → survivors.contains call = true →
    Stamped arena (placeAll survivors keepPlaces arena index calls) call (index + i) := by
  induction calls with
  | nil => exact fun _ _ _ hi _ => by cases hi
  | cons first rest ih =>
      intro arena index i hcalls hi hsurvives
      have hrest := Forest.tail hcalls
      unfold placeAll
      by_cases hfirst : survivors.contains first = true
      · have hcounts : counts survivors keepPlaces first = true := by
          rw [counts, hfirst, Bool.or_true]
        rw [List.filter_cons_of_pos hcounts] at hi
        rw [if_pos hfirst]
        have hplaced := forest_place hcalls index
        cases i with
        | zero =>
            cases hi
            refine (place_stamped (Forest.head hcalls) index).later (placeAll_size_le _ _)
              fun path x hpath => ?_
            refine placeAll_get_of_apart (Forest.tail hplaced)
              ((hplaced.isTree List.mem_cons_self).lt_size path x hpath) ?_
            intro other hother _ path' hpath'
            exact apart_of_forest hplaced hother hpath' path hpath
        | succ i =>
            have hmem : call ∈ rest := (List.mem_filter.mp (List.mem_of_getElem? hi)).1
            have hlater := ih (index + 1) (Forest.tail hplaced) hi hsurvives
            rw [Nat.add_right_comm] at hlater
            exact hlater.earlier (hrest.isTree hmem).grounded
              (place_keepsForests arena first index).1 (place_get_of_others hcalls hmem index)
      · rw [if_neg hfirst]
        cases keepPlaces with
        | false =>
            rw [List.filter_cons_of_neg (by rw [counts]; simpa using hfirst)] at hi
            exact ih index hrest hi hsurvives
        | true =>
            rw [List.filter_cons_of_pos (by rw [counts]; rfl)] at hi
            cases i with
            | zero =>
                cases hi
                exact absurd hsurvives hfirst
            | succ i =>
                have hlater := ih (index + 1) hrest hi hsurvives
                rw [Nat.add_right_comm] at hlater
                exact hlater

/-- In a function whose calls have been numbered everything else is as it was. -/
theorem placeAll_follows (keepPlaces : Bool) (hfunction : IsTree arena function)
    (hcalls : Forest Set.univ arena calls) (index : Nat) :
    Follows arena (placeAll (Program.survivors arena function calls) keepPlaces arena index calls)
      {x | x ∈ Program.survivors arena function calls} function := by
  set marked := Program.survivors arena function calls with hmarked
  have hreached : ∀ call ∈ marked, ∃ path, arena.Path function path call := fun call hcall =>
    hfunction.mem_reachable_iff.mp (List.contains_iff_mem.mp
      (Bool.and_eq_true_iff.mp (List.mem_filter.mp hcall).2).1)
  -- Nothing on the way is below a call that has been numbered, so that is how
  -- far the induction goes down.
  have hbelow : ∀ (bound : Nat) {x : Id} {path : List Nat}, arena.EndsWithin bound x →
      arena.Path function path x →
      (∀ call ∈ marked, ∀ other, arena.Path call other x → other = []) →
      Follows arena (placeAll marked keepPlaces arena index calls) {x | x ∈ marked} x := by
    intro bound
    induction bound with
    | zero => exact fun hends => hends.elim
    | succ bound ih =>
        intro x path hends hpath hout
        by_cases hx : x ∈ marked
        · exact .marked hx
        refine .same (placeAll_get_of_apart hcalls hends.1 ?_) fun part hpart => ?_
        · intro call _ hcounts other hother
          have hcall := List.contains_iff_mem.mp hcounts
          rw [hout call hcall other hother] at hother
          cases hother
          exact hx hcall
        · obtain ⟨place, hplace⟩ := List.getElem?_of_mem hpart
          refine ih (hends.2 part hpart) (hpath.snoc hplace) fun call hcall other hother => ?_
          rcases hother.last with ⟨-, rfl⟩ | ⟨front, place', parent, rfl, hfront, hlast⟩
          · rfl
          · obtain ⟨path', hpath'⟩ := hreached call hcall
            have hsame := hfunction.unique _ _ _ (hpath.snoc hplace)
              ((hpath'.append hfront).snoc hlast)
            obtain ⟨hpaths, -⟩ := List.append_inj' hsame rfl
            rw [hpaths] at hpath
            cases hpath.eq (hpath'.append hfront)
            cases hout call hcall front hfront
            cases hfront
            exact absurd hcall hx
  refine hbelow arena.size (hfunction.grounded.endsWithin) .here fun call hcall other hother => ?_
  obtain ⟨path, hpath⟩ := hreached call hcall
  exact (List.append_eq_nil_iff.mp (hfunction.unique _ _ _ (hpath.append hother) .here)).2

end Program

end RenderFold
