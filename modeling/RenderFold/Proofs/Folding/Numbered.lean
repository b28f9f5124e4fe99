import RenderFold.Proofs.Folding.LevelZones
import RenderFold.Proofs.Script.Reachable

/-!
# Numbered Calls

When a component is left, the calls that use the components below it are
numbered: the data of each call says which of the entries below belongs to
it. A number is written into the data where the data is written out, and new
data is put in where there is none. Data of any other form is left alone, and
then the component keeps its own render function.

Numbering one call does not disturb the number of another. It rewrites the
call and its data, and no two calls share their data.

## Main definitions

* `Program.Numbered`: The data of a call names a place.
* `Program.Placing`: What giving a call its place changes.
* `Program.Separate`: Calls that share none of their arguments.

## Theorems

* `Program.place_placing`: Numbering one call.
* `Program.placeAll_numbered`: Every call that stays is numbered by its
  position among those that stay.
* `Program.numbered_of_path`: So is every call in the function afterwards that
  uses one of the components below.
-/

namespace RenderFold

open Script (Arena Id Node)
open Script.Arena (helper?_eq_some_iff lt_size_of_get)

namespace Program

variable {arena after : Arena} {call other x : Id} {index : Nat} {calls : List Id}

/-- If the data of a call is written out, it names the place `index`. -/
def Numbered (arena : Arena) (call : Id) (index : Nat) : Prop :=
  arena.arguments call = [] ∨ ∃ data, (arena.arguments call)[1]? = some data ∧
    ((∃ properties value, arena.get data = .object properties ∧
        Fields.get? properties "treeSlot" = some value ∧
        arena.get value = .num (Float.ofNat index).toBits) ∨
      (∀ properties, arena.get data ≠ .object properties) ∧
        ∀ elements, arena.get data ≠ .array elements)

/-- What giving a call its place changes: nothing, the data of the call, or
    the call, which gets data. The place itself is a new node. -/
inductive Placing (arena : Arena) (call : Id) (index : Nat) (after : Arena) : Prop where
  | left (hleft : arena.arguments call = [] ∨ ∃ data, (arena.arguments call)[1]? = some data ∧
        (∀ properties, arena.get data ≠ .object properties) ∧
        ∀ elements, arena.get data ≠ .array elements)
      (hsame : ∀ x, x < arena.size → after.get x = arena.get x)
  | data {data value : Id} {properties : Fields Id}
      (hdata : (arena.arguments call)[1]? = some data)
      (hbefore : arena.get data = .object properties)
      (hafter : after.get data = .object (Fields.insert properties "treeSlot" value))
      (hvalue : after.get value = .num (Float.ofNat index).toBits)
      (hsame : ∀ x, x < arena.size → x ≠ data → after.get x = arena.get x)
  | call {callee tag data value : Id} {rest : List Id}
      (hbefore : arena.get call = .call callee (tag :: rest))
      (hafter : after.get call = .call callee (tag :: data :: rest)) (hnew : arena.size ≤ data)
      (hdata : after.get data = .object [("treeSlot", value)])
      (hvalue : after.get value = .num (Float.ofNat index).toBits)
      (hsame : ∀ x, x < arena.size → x ≠ call → after.get x = arena.get x)

/-- Data is put into a call that has none. -/
theorem insertData_placing {value : Id} (hcall : arena.helper? call = some .element)
    (hsame : ∀ x, x < arena.size → after.get x = arena.get x) (hle : arena.size ≤ after.size)
    (hvalue : after.get value = .num (Float.ofNat index).toBits) :
    Placing arena call index (after.insertData call "treeSlot" value).2 := by
  rcases helper?_eq_some_iff.mp hcall with ⟨callee, arguments, name, hget, -, -⟩
  have hlt : call < arena.size := lt_size_of_get hget fun h => by cases h
  have hlt' : call < after.size := Nat.lt_of_lt_of_le hlt hle
  have hvalue_lt : value < after.size := lt_size_of_get hvalue fun h => by cases h
  have hpushed : ∀ x, x < after.size →
      (after.push (.object [("treeSlot", value)])).2.get x = after.get x := fun x hx =>
    Script.Arena.get_push_of_ne _ _ (Nat.ne_of_lt hx)
  have hcalled : (after.push (.object [("treeSlot", value)])).2.get call =
      .call callee arguments := by
    rw [hpushed call hlt', hsame call hlt, hget]
  have harguments : arena.arguments call = arguments := by rw [Arena.arguments, hget]
  unfold Arena.insertData
  dsimp only
  rw [hcalled]
  cases arguments with
  | nil =>
      dsimp only
      refine .left (Or.inl harguments) fun x hx => ?_
      rw [hpushed x (Nat.lt_of_lt_of_le hx hle), hsame x hx]
  | cons tag rest =>
      dsimp only
      have hcall_lt : call < (after.push (.object [("treeSlot", value)])).2.size := by
        rw [Script.Arena.size_push]
        exact Nat.lt_succ_of_lt hlt'
      have hreplaced : ∀ x, x ≠ call → ∀ node,
          ((after.push (.object [("treeSlot", value)])).2.replace call node).get x =
            (after.push (.object [("treeSlot", value)])).2.get x := fun x hx node =>
        Script.Arena.get_replace_of_ne _ _ hx
      have hne_new : (after.push (.object [("treeSlot", value)])).1 ≠ call := Nat.ne_of_gt hlt'
      refine @Placing.call _ _ _ _ callee tag _ value rest hget
        (Script.Arena.get_replace_self hcall_lt _) hle ?_ ?_ fun x hx hne => ?_
      · rw [hreplaced _ hne_new]
        exact Script.Arena.get_push_self _ _
      · rw [hreplaced _ (fun heq => ?_), hpushed value hvalue_lt, hvalue]
        rw [heq, hsame call hlt, hget] at hvalue
        cases hvalue
      · rw [hreplaced x hne, hpushed x (Nat.lt_of_lt_of_le hx hle), hsame x hx]

/-- Giving a call its place. -/
theorem place_placing (index : Nat) (hvalid : Script.Arena.Closed arena {id | id < arena.size})
    (hcall : arena.helper? call = some .element) :
    Placing arena call index (place arena call index) := by
  have hsame : ∀ x, x < arena.size →
      (arena.push (.num (Float.ofNat index).toBits)).2.get x = arena.get x := fun x hx =>
    Script.Arena.get_push_of_ne _ _ (Nat.ne_of_lt hx)
  have hle : arena.size ≤ (arena.push (.num (Float.ofNat index).toBits)).2.size := by
    rw [Script.Arena.size_push]
    exact Nat.le_succ _
  have hvalue := Script.Arena.get_push_self arena (.num (Float.ofNat index).toBits)
  rcases helper?_eq_some_iff.mp hcall with ⟨callee, arguments, name, hget, hname, hhelper⟩
  have hlt : call < arena.size := lt_size_of_get hget fun h => by cases h
  have hparts := (hvalid call hlt).2
  rw [hget] at hparts
  have harguments : arena.arguments call = arguments := by rw [Arena.arguments, hget]
  have harguments' : (arena.push (.num (Float.ofNat index).toBits)).2.arguments call =
      arguments := by rw [Arena.arguments, hsame call hlt, hget]
  have hcall' : (arena.push (.num (Float.ofNat index).toBits)).2.helper? call =
      some .element := by
    refine helper?_eq_some_iff.mpr ⟨callee, arguments, name, ?_, ?_, hhelper⟩
    · rw [hsame call hlt, hget]
    · rw [hsame callee (hparts callee List.mem_cons_self), hname]
  have hdata_lt : ∀ data, arguments[1]? = some data → data < arena.size := fun data hdata =>
    hparts data (List.mem_cons_of_mem _ (List.mem_of_getElem? hdata))
  unfold place Arena.setProperty
  dsimp only
  rw [if_pos hcall', harguments']
  cases hdata : arguments[1]? with
  | none => exact insertData_placing hcall hsame hle hvalue
  | some data =>
      have hlt_data := hdata_lt data hdata
      dsimp only
      rw [hsame data hlt_data]
      split
      · next properties hobject =>
          have hne : (arena.push (.num (Float.ofNat index).toBits)).1 ≠ data :=
            Nat.ne_of_gt hlt_data
          refine .data (harguments ▸ hdata) hobject
            (Script.Arena.get_replace_self (Nat.lt_of_lt_of_le hlt_data hle) _)
            ((Script.Arena.get_replace_of_ne _ _ hne).trans hvalue) fun x hx hne => ?_
          exact (Script.Arena.get_replace_of_ne _ _ hne).trans (hsame x hx)
      · exact insertData_placing hcall hsame hle hvalue
      · next hobject hlist =>
          exact .left (Or.inr ⟨data, harguments ▸ hdata, hobject, hlist⟩) hsame

/-- Calls that share none of their arguments. -/
def Separate (arena : Arena) (calls : List Id) : Prop :=
  ∀ a ∈ calls, ∀ b ∈ calls, a ≠ b → ∀ x ∈ arena.arguments a, x ∉ arena.arguments b

namespace Placing

/-- Nothing is rewritten but the call and its data. -/
theorem get_of_ne (h : Placing arena call index after) (hx : x < arena.size) (hne : x ≠ call)
    (hdata : (arena.arguments call)[1]? ≠ some x ∨ ∀ properties, arena.get x ≠ .object properties) :
    after.get x = arena.get x := by
  cases h with
  | left hleft hsame => exact hsame x hx
  | data hother hbefore hafter hvalue hsame =>
      refine hsame x hx fun heq => ?_
      rw [heq] at hdata
      rcases hdata with hdata | hdata
      · exact hdata hother
      · exact hdata _ hbefore
  | call hbefore hafter hnew hdata hvalue hsame => exact hsame x hx hne

/-- What is another call, or another node of any form that is no object, was
    so before. -/
theorem get_of_not_object (h : Placing arena call index after) (hx : x < arena.size)
    (hne : x ≠ call) (hobject : ∀ properties, after.get x ≠ .object properties) :
    after.get x = arena.get x := by
  cases h with
  | left hleft hsame => exact hsame x hx
  | data hother hbefore hafter hvalue hsame =>
      refine hsame x hx fun heq => ?_
      rw [heq] at hobject
      exact hobject _ hafter
  | call hbefore hafter hnew hdata hvalue hsame => exact hsame x hx hne

/-- The call is one of the same name, with the same arguments but for new
    data. -/
theorem call_eq (h : Placing arena call index after) {callee : Id} {arguments : List Id}
    (hget : arena.get call = .call callee arguments) :
    ∃ arguments', after.get call = .call callee arguments' ∧
      (∀ x ∈ arguments', x ∈ arguments ∨ arena.size ≤ x) ∧
      (arguments' = [] → arguments = []) := by
  have hlt : call < arena.size := lt_size_of_get hget fun h => by cases h
  cases h with
  | left hleft hsame => exact ⟨arguments, (hsame call hlt).trans hget, fun x hx => Or.inl hx, id⟩
  | @data data value properties hother hbefore hafter hvalue hsame =>
      have hne : call ≠ data := fun heq => by
        rw [← heq, hget] at hbefore
        cases hbefore
      exact ⟨arguments, (hsame call hlt hne).trans hget, fun x hx => Or.inl hx, id⟩
  | @call callee' tag data value rest hbefore hafter hnew hdata hvalue hsame =>
      rw [hget] at hbefore
      cases hbefore
      refine ⟨_, hafter, fun x hx => ?_, fun h => by cases h⟩
      simp only [List.mem_cons] at hx ⊢
      rcases hx with rfl | rfl | hx
      · exact Or.inl (Or.inl rfl)
      · exact Or.inr hnew
      · exact Or.inl (Or.inr hx)

/-- The call has its place. -/
theorem numbered (h : Placing arena call index after)
    (hvalid : Script.Arena.Closed arena {id | id < arena.size}) {callee : Id} {arguments : List Id}
    (hget : arena.get call = .call callee arguments) : Numbered after call index := by
  have hlt : call < arena.size := lt_size_of_get hget fun h => by cases h
  have hparts := (hvalid call hlt).2
  rw [hget] at hparts
  have harguments : arena.arguments call = arguments := by rw [Arena.arguments, hget]
  have hsub : ∀ x, arguments[1]? = some x → x < arena.size := fun x hx =>
    hparts x (List.mem_cons_of_mem _ (List.mem_of_getElem? hx))
  cases h with
  | left hleft hsame =>
      have hafter : after.arguments call = arguments := by rw [Arena.arguments, hsame call hlt, hget]
      rw [harguments] at hleft
      rcases hleft with hleft | ⟨data, hdata, hobject, hlist⟩
      · exact Or.inl (hafter.trans hleft)
      · refine Or.inr ⟨data, hafter ▸ hdata, Or.inr ?_⟩
        rw [hsame data (hsub data hdata)]
        exact ⟨hobject, hlist⟩
  | @data data value properties hother hbefore hafter hvalue hsame =>
      have hne : call ≠ data := fun heq => by
        rw [← heq, hget] at hbefore
        cases hbefore
      have hcalled : after.arguments call = arguments := by
        rw [Arena.arguments, hsame call hlt hne, hget]
      refine Or.inr ⟨data, ?_, Or.inl ⟨_, value, hafter, Fields.get?_insert_self _ _ _, hvalue⟩⟩
      rw [hcalled, ← harguments]
      exact hother
  | @call callee' tag data value rest hbefore hafter hnew hdata hvalue hsame =>
      have hcalled : after.arguments call = tag :: data :: rest := by rw [Arena.arguments, hafter]
      refine Or.inr ⟨data, ?_, Or.inl ⟨_, value, hdata, ?_, hvalue⟩⟩
      · rw [hcalled]
        rfl
      · simp only [Fields.get?, if_true]

/-- Another call stays as it is. -/
theorem other_eq (h : Placing arena call index after) {callee : Id} {arguments : List Id}
    (hother : arena.get other = .call callee arguments) (hne : other ≠ call) :
    after.get other = .call callee arguments := by
  rw [← hother]
  refine h.get_of_ne (lt_size_of_get hother fun h => by cases h) hne (Or.inr ?_)
  intro properties hobject
  rw [hother] at hobject
  cases hobject

/-- Another call keeps its place. -/
theorem other_numbered (h : Placing arena call index after)
    (hvalid : Script.Arena.Closed arena {id | id < arena.size})
    (hcall : ∃ callee arguments, arena.get call = .call callee arguments) {callee : Id}
    {arguments : List Id} (hother : arena.get other = .call callee arguments) (hne : other ≠ call)
    (hapart : ∀ x ∈ arena.arguments other, x ∉ arena.arguments call) {number : Nat}
    (hnumber : Numbered arena other number) : Numbered after other number := by
  have hlt : other < arena.size := lt_size_of_get hother fun h => by cases h
  have harguments : arena.arguments other = arguments := by rw [Arena.arguments, hother]
  have hafter : after.arguments other = arguments := by
    rw [Arena.arguments, h.other_eq hother hne]
  have hparts := (hvalid other hlt).2
  rw [hother] at hparts
  rcases hcall with ⟨callee', arguments', hcall⟩
  rw [harguments] at hapart
  unfold Numbered at hnumber ⊢
  rw [hafter]
  rw [harguments] at hnumber
  rcases hnumber with hnone | ⟨data, hdata, hdata'⟩
  · exact Or.inl hnone
  · refine Or.inr ⟨data, hdata, ?_⟩
    have hmem := List.mem_of_getElem? hdata
    have hlt_data : data < arena.size := hparts data (List.mem_cons_of_mem _ hmem)
    rcases hdata' with ⟨properties, value, hobject, hget, hvalue⟩ | ⟨hobject, hlist⟩
    · have hne_data : data ≠ call := fun heq => by
        rw [heq, hcall] at hobject
        cases hobject
      have hne_value : value ≠ call := fun heq => by
        rw [heq, hcall] at hvalue
        cases hvalue
      refine Or.inl ⟨properties, value, ?_, hget, ?_⟩
      · rw [h.get_of_ne hlt_data hne_data (Or.inl fun heq =>
          hapart data hmem (List.mem_of_getElem? heq)), hobject]
      · rw [h.get_of_ne (lt_size_of_get hvalue fun h => by cases h) hne_value (Or.inr ?_), hvalue]
        intro properties hobject
        rw [hvalue] at hobject
        cases hobject
    · -- Data that has another form may be a call itself, and that stays one.
      refine Or.inr ?_
      by_cases heq : data = call
      · rcases h.call_eq hcall with ⟨arguments'', hcall', -, -⟩
        rw [heq, hcall']
        exact ⟨fun _ h => (by cases h), fun _ h => (by cases h)⟩
      · rw [h.get_of_ne hlt_data heq (Or.inr hobject)]
        exact ⟨hobject, hlist⟩

/-- All calls call the same helpers as before. -/
theorem helper?_eq (h : Placing arena call index after) {helper helper' : Helper}
    (hcall : arena.helper? call = some helper) (hother : arena.helper? other = some helper') :
    after.helper? other = some helper' := by
  rcases helper?_eq_some_iff.mp hcall with ⟨called, given, -, hget, -, -⟩
  rcases helper?_eq_some_iff.mp hother with ⟨callee, arguments, name, hget', hname, hhelper⟩
  have hcallee : after.get callee = .ident name := by
    rw [← hname]
    refine h.get_of_ne (lt_size_of_get hname fun h => by cases h) (fun heq => ?_) (Or.inr ?_)
    · rw [heq, hget] at hname
      cases hname
    · intro properties hobject
      rw [hname] at hobject
      cases hobject
  by_cases heq : other = call
  · subst heq
    rcases h.call_eq hget' with ⟨arguments', hafter, -, -⟩
    exact helper?_eq_some_iff.mpr ⟨callee, arguments', name, hafter, hcallee, hhelper⟩
  · exact helper?_eq_some_iff.mpr
      ⟨callee, arguments, name, h.other_eq hget' heq, hcallee, hhelper⟩

/-- Calls that share nothing still share nothing: the data that one of them
    may get is new. -/
theorem separate (h : Placing arena call index after)
    (hvalid : Script.Arena.Closed arena {id | id < arena.size})
    (hcalls : ∀ a ∈ calls, arena.helper? a = some .element) (hseparate : Separate arena calls) :
    Separate after calls := by
  have hbefore : ∀ a ∈ calls, ∀ x ∈ after.arguments a,
      x ∈ arena.arguments a ∨ a = call ∧ arena.size ≤ x := by
    intro a ha x hx
    rcases helper?_eq_some_iff.mp (hcalls a ha) with ⟨callee, arguments, -, hget, -, -⟩
    have harguments : arena.arguments a = arguments := by rw [Arena.arguments, hget]
    rw [harguments]
    by_cases heq : a = call
    · subst heq
      rcases h.call_eq hget with ⟨arguments', hafter, hsub, -⟩
      rw [Arena.arguments, hafter] at hx
      exact (hsub x hx).imp_right fun hle => ⟨rfl, hle⟩
    · rw [Arena.arguments, h.other_eq hget heq] at hx
      exact Or.inl hx
  have hlt : ∀ a ∈ calls, ∀ x ∈ arena.arguments a, x < arena.size := by
    intro a ha x hx
    rcases helper?_eq_some_iff.mp (hcalls a ha) with ⟨callee, arguments, -, hget, -, -⟩
    rw [Arena.arguments, hget] at hx
    refine (hvalid a (lt_size_of_get hget fun h => by cases h)).2 x ?_
    rw [hget]
    exact List.mem_cons_of_mem _ hx
  intro a ha b hb hne x hxa hxb
  rcases hbefore a ha x hxa with hxa | ⟨rfl, hxa⟩
  · rcases hbefore b hb x hxb with hxb | ⟨-, hxb⟩
    · exact hseparate a ha b hb hne x hxa hxb
    · exact absurd (hlt a ha x hxa) (Nat.not_lt_of_le hxb)
  · rcases hbefore b hb x hxb with hxb | ⟨rfl, -⟩
    · exact absurd (hlt b hb x hxb) (Nat.not_lt_of_le hxa)
    · exact hne rfl

end Placing

variable {survivors : List Id} {keepPlaces : Bool} {number : Nat}

/-- Whether a call is counted when calls are numbered. -/
def counts (survivors : List Id) (keepPlaces : Bool) (call : Id) : Bool :=
  keepPlaces || survivors.contains call

theorem closed_place (index : Nat) (hvalid : Script.Arena.Closed arena {id | id < arena.size})
    (hlt : call < arena.size) :
    Script.Arena.Closed (place arena call index) {id | id < (place arena call index).size} := by
  have hedit := place_editedIn hvalid hlt index
  intro x hx
  have hmem : x ∈ {id | id < arena.size} ∪ Script.Arena.added arena (place arena call index) := by
    by_cases hold : x < arena.size
    · exact Or.inl hold
    · exact Or.inr ⟨Nat.le_of_not_lt hold, hx⟩
  have hclosed := hedit.closed x hmem
  refine ⟨hclosed.1, fun part hpart => ?_⟩
  rcases hclosed.2 part hpart with hpart | hpart
  · exact Nat.lt_of_lt_of_le hpart hedit.size_le
  · exact hpart.2

/-- A call keeps its place while others are numbered. -/
theorem placeAll_keeps : ∀ {arena : Arena} {index : Nat},
    Script.Arena.Closed arena {id | id < arena.size} → arena.helper? other = some .element →
    other ∉ calls → (∀ a ∈ calls, survivors.contains a = true → arena.helper? a = some .element) →
    Separate arena (other :: calls.filter survivors.contains) → Numbered arena other number →
    Numbered (placeAll survivors keepPlaces arena index calls) other number := by
  induction calls with
  | nil => exact fun _ _ _ _ _ hnumber => hnumber
  | cons first rest ih =>
      intro arena index hvalid hother hnotin hcalls hseparate hnumber
      have hne : other ≠ first := fun heq => hnotin (heq ▸ List.mem_cons_self)
      have hrest : other ∉ rest := fun hmem => hnotin (List.mem_cons_of_mem _ hmem)
      unfold placeAll
      by_cases hsurvives : survivors.contains first = true
      · rw [if_pos hsurvives]
        rw [List.filter_cons_of_pos hsurvives] at hseparate
        have helement := hcalls first List.mem_cons_self hsurvives
        have hplacing := place_placing index hvalid helement
        rcases helper?_eq_some_iff.mp hother with ⟨callee, arguments, -, hget, -, -⟩
        rcases helper?_eq_some_iff.mp helement with ⟨callee', arguments', -, hget', -, -⟩
        have hlt : first < arena.size := lt_size_of_get hget' fun h => by cases h
        refine ih (closed_place _ hvalid hlt) (hplacing.helper?_eq helement hother) hrest
          (fun a ha hin => hplacing.helper?_eq helement
            (hcalls a (List.mem_cons_of_mem _ ha) hin)) ?_ ?_
        · refine hplacing.separate hvalid (fun a ha => ?_) fun a ha b hb => ?_
          · rcases List.mem_cons.mp ha with rfl | ha
            · exact hother
            · have hmem := List.mem_filter.mp ha
              exact hcalls a (List.mem_cons_of_mem _ hmem.1) hmem.2
          · refine hseparate a ?_ b ?_
            · exact (List.mem_cons.mp ha).elim (fun h => h ▸ List.mem_cons_self)
                fun h => List.mem_cons_of_mem _ (List.mem_cons_of_mem _ h)
            · exact (List.mem_cons.mp hb).elim (fun h => h ▸ List.mem_cons_self)
                fun h => List.mem_cons_of_mem _ (List.mem_cons_of_mem _ h)
        · exact hplacing.other_numbered hvalid ⟨callee', arguments', hget'⟩ hget hne
            (hseparate other List.mem_cons_self first (List.mem_cons_of_mem _ List.mem_cons_self)
              hne) hnumber
      · rw [if_neg hsurvives]
        rw [List.filter_cons_of_neg hsurvives] at hseparate
        exact ih hvalid hother hrest (fun a ha => hcalls a (List.mem_cons_of_mem _ ha)) hseparate
          hnumber

/-- Every call that stays is numbered by its position among those that count,
    from `index` on. -/
theorem placeAll_numbered : ∀ {arena : Arena} (index : Nat),
    Script.Arena.Closed arena {id | id < arena.size} → calls.Nodup →
    (∀ a ∈ calls, survivors.contains a = true → arena.helper? a = some .element) →
    Separate arena (calls.filter survivors.contains) →
    ∀ i call, (calls.filter (counts survivors keepPlaces))[i]? = some call →
      survivors.contains call = true →
      Numbered (placeAll survivors keepPlaces arena index calls) call (index + i) := by
  induction calls with
  | nil =>
      intro arena index _ _ _ _ i call hcall
      cases hcall
  | cons first rest ih =>
      intro arena index hvalid hnodup hcalls hseparate i call hcall hin
      have hnodup' := List.nodup_cons.mp hnodup
      unfold placeAll
      by_cases hsurvives : survivors.contains first = true
      · rw [if_pos hsurvives]
        have hcounts : counts survivors keepPlaces first = true := by
          rw [counts, hsurvives, Bool.or_true]
        rw [List.filter_cons_of_pos hcounts] at hcall
        rw [List.filter_cons_of_pos hsurvives] at hseparate
        have helement := hcalls first List.mem_cons_self hsurvives
        have hplacing := place_placing index hvalid helement
        rcases helper?_eq_some_iff.mp helement with ⟨callee, arguments, -, hget, -, -⟩
        have hlt : first < arena.size := lt_size_of_get hget fun h => by cases h
        have hvalid' := closed_place index hvalid hlt
        have hcalls' : ∀ a ∈ rest, survivors.contains a = true →
            (place arena first index).helper? a = some .element := fun a ha hin =>
          hplacing.helper?_eq helement (hcalls a (List.mem_cons_of_mem _ ha) hin)
        have hseparate' : Separate (place arena first index)
            (first :: rest.filter survivors.contains) := by
          refine hplacing.separate hvalid (fun a ha => ?_) hseparate
          rcases List.mem_cons.mp ha with rfl | ha
          · exact helement
          · have hmem := List.mem_filter.mp ha
            exact hcalls a (List.mem_cons_of_mem _ hmem.1) hmem.2
        cases i with
        | zero =>
            cases hcall
            exact placeAll_keeps hvalid' (hplacing.helper?_eq helement helement) hnodup'.1 hcalls'
              hseparate' (hplacing.numbered hvalid hget)
        | succ i =>
            have hplaced := @ih (place arena first index) (index + 1) hvalid' hnodup'.2 hcalls'
              (fun a ha b hb => hseparate' a (List.mem_cons_of_mem _ ha) b
                (List.mem_cons_of_mem _ hb)) i call hcall hin
            rwa [show index + 1 + i = index + (i + 1) by omega] at hplaced
      · rw [if_neg hsurvives]
        rw [List.filter_cons_of_neg hsurvives] at hseparate
        have hcalls' : ∀ a ∈ rest, survivors.contains a = true → arena.helper? a = some .element :=
          fun a ha => hcalls a (List.mem_cons_of_mem _ ha)
        cases keepPlaces with
        | false =>
            have hcounts : ¬ counts survivors false first = true := by
              rwa [counts, Bool.false_or]
            rw [List.filter_cons_of_neg hcounts] at hcall
            exact ih _ hvalid hnodup'.2 hcalls' hseparate i call hcall hin
        | true =>
            rw [List.filter_cons_of_pos rfl] at hcall
            cases i with
            | zero =>
                cases hcall
                exact absurd hin hsurvives
            | succ i =>
                have hplaced := @ih arena (index + 1) hvalid hnodup'.2 hcalls' hseparate i call
                  hcall hin
                rwa [show index + 1 + i = index + (i + 1) by omega] at hplaced

/-- All calls that are recognised still are when others were numbered. -/
theorem placeAll_helper? {helper : Helper} : ∀ {arena : Arena} (index : Nat),
    Script.Arena.Closed arena {id | id < arena.size} →
    (∀ a ∈ calls, survivors.contains a = true → arena.helper? a = some .element) →
    arena.helper? other = some helper →
    (placeAll survivors keepPlaces arena index calls).helper? other = some helper := by
  induction calls with
  | nil => exact fun _ _ _ hother => hother
  | cons first rest ih =>
      intro arena index hvalid hcalls hother
      unfold placeAll
      by_cases hsurvives : survivors.contains first = true
      · rw [if_pos hsurvives]
        have helement := hcalls first List.mem_cons_self hsurvives
        have hplacing := place_placing index hvalid helement
        rcases helper?_eq_some_iff.mp helement with ⟨callee, arguments, -, hget, -, -⟩
        have hlt : first < arena.size := lt_size_of_get hget fun h => by cases h
        exact ih _ (closed_place _ hvalid hlt) (fun a ha hin => hplacing.helper?_eq helement
          (hcalls a (List.mem_cons_of_mem _ ha) hin)) (hplacing.helper?_eq helement hother)
      · rw [if_neg hsurvives]
        exact ih _ hvalid (fun a ha => hcalls a (List.mem_cons_of_mem _ ha)) hother

/-- What is not numbered and no object afterwards has not changed. -/
theorem placeAll_get : ∀ {arena : Arena} {index : Nat},
    Script.Arena.Closed arena {id | id < arena.size} →
    (∀ a ∈ calls, survivors.contains a = true → arena.helper? a = some .element) →
    x < arena.size → survivors.contains x = false →
    (∀ properties, (placeAll survivors keepPlaces arena index calls).get x ≠ .object properties) →
    (placeAll survivors keepPlaces arena index calls).get x = arena.get x := by
  induction calls with
  | nil => exact fun _ _ _ _ _ => rfl
  | cons first rest ih =>
      intro arena index hvalid hcalls hx hnot hobject
      unfold placeAll at hobject ⊢
      by_cases hsurvives : survivors.contains first = true
      · rw [if_pos hsurvives] at hobject ⊢
        have helement := hcalls first List.mem_cons_self hsurvives
        have hplacing := place_placing index hvalid helement
        rcases helper?_eq_some_iff.mp helement with ⟨callee, arguments, -, hget, -, -⟩
        have hlt : first < arena.size := lt_size_of_get hget fun h => by cases h
        have hle := (place_editedIn hvalid hlt index).size_le
        have hsame := ih (closed_place _ hvalid hlt) (fun a ha hin => hplacing.helper?_eq helement
          (hcalls a (List.mem_cons_of_mem _ ha) hin)) (Nat.lt_of_lt_of_le hx hle) hnot hobject
        rw [hsame] at hobject ⊢
        refine hplacing.get_of_not_object hx (fun heq => ?_) hobject
        rw [heq, hsurvives] at hnot
        cases hnot
      · rw [if_neg hsurvives] at hobject ⊢
        exact ih hvalid (fun a ha => hcalls a (List.mem_cons_of_mem _ ha)) hx hnot hobject

section Function

variable {function : Id} {path : List Nat}

theorem survivors_element {a : Id} (h : (Program.survivors arena function calls).contains a = true) :
    arena.helper? a = some .element := by
  have hmem := (List.mem_filter.mp (List.contains_iff_mem.mp h)).2
  exact of_decide_eq_true (Bool.and_eq_true_iff.mp hmem).2

/-- The calls that survive stand in the function, which is a tree, so they
    share nothing. -/
theorem separate_survivors (htree : Script.Arena.IsTree arena function) :
    Separate arena (Program.survivors arena function calls) := by
  have hpath : ∀ a ∈ Program.survivors arena function calls,
      ∃ path, arena.Path function path a := by
    intro a ha
    have hmem := (List.mem_filter.mp ha).2
    exact htree.mem_reachable_iff.mp (List.contains_iff_mem.mp (Bool.and_eq_true_iff.mp hmem).1)
  have hparts : ∀ a ∈ Program.survivors arena function calls, ∀ x ∈ arena.arguments a,
      x ∈ (arena.get a).children := by
    intro a ha x hx
    have helement := survivors_element (List.contains_iff_mem.mpr ha)
    rcases helper?_eq_some_iff.mp helement with ⟨callee, arguments, -, hget, -, -⟩
    rw [Arena.arguments, hget] at hx
    rw [hget]
    exact List.mem_cons_of_mem _ hx
  intro a ha b hb hne x hxa hxb
  rcases hpath a ha with ⟨way, hway⟩
  rcases hpath b hb with ⟨way', hway'⟩
  exact hne (htree.parent_unique hway hway' (hparts a ha x hxa) (hparts b hb x hxb))

/-- A call that stands in the function when the calls have been numbered is
    one of those that survived. -/
theorem mem_survivors_of_path (hvalid : Script.Arena.Closed arena {id | id < arena.size})
    (htree : Script.Arena.IsTree arena function) (hcall : call ∈ calls) (hlt : call < arena.size)
    (hpath : (placeAll (Program.survivors arena function calls) keepPlaces arena 0 calls).Path
      function path call)
    (helement : (placeAll (Program.survivors arena function calls) keepPlaces arena 0
      calls).helper? call = some .element) : call ∈ Program.survivors arena function calls := by
  have hcalls : ∀ a ∈ calls, (Program.survivors arena function calls).contains a = true →
      arena.helper? a = some .element := fun a _ hin => survivors_element hin
  have hreach : call ∈ arena.reachable function := by
    have hfunction : function ∈ {x | ∃ path, arena.Path function path x} := ⟨[], .here⟩
    have hedit := placeAll_editedIn calls keepPlaces 0 htree.closed_paths
      (survivors_mem calls htree.closed_paths hfunction)
    rcases hedit.closed.path_mem (Or.inl hfunction) hpath with hin | hnew
    · exact htree.mem_reachable_iff.mpr hin
    · exact absurd hlt (Nat.not_lt_of_le hnew.1)
  refine List.mem_filter.mpr ⟨hcall, Bool.and_eq_true_iff.mpr
    ⟨List.contains_iff_mem.mpr hreach, decide_eq_true ?_⟩⟩
  by_cases hsurvives : (Program.survivors arena function calls).contains call = true
  · exact survivors_element hsurvives
  · -- It was not numbered, so it is as it was before, and so is what it calls.
    rcases helper?_eq_some_iff.mp helement with ⟨callee, arguments, name, hget, hname, hhelper⟩
    have hcall_eq := placeAll_get hvalid hcalls hlt (Bool.eq_false_iff.mpr hsurvives)
      (fun properties h => by rw [hget] at h; cases h)
    rw [hget] at hcall_eq
    have hcallee : callee < arena.size := by
      refine (hvalid call hlt).2 callee ?_
      rw [← hcall_eq]
      exact List.mem_cons_self
    have hident : ¬ (Program.survivors arena function calls).contains callee = true := by
      intro hin
      have hkept : (placeAll (Program.survivors arena function calls) keepPlaces arena 0
          calls).helper? callee = some .element :=
        placeAll_helper? 0 hvalid hcalls (survivors_element hin)
      rcases helper?_eq_some_iff.mp hkept with ⟨_, _, _, hother, -, -⟩
      rw [hname] at hother
      cases hother
    have hcallee_eq := placeAll_get hvalid hcalls hcallee (Bool.eq_false_iff.mpr hident)
      (fun properties h => by rw [hname] at h; cases h)
    rw [hname] at hcallee_eq
    exact helper?_eq_some_iff.mpr
      ⟨callee, arguments, name, hcall_eq.symm, hcallee_eq.symm, hhelper⟩

/-- When the calls have been numbered, every call in the function that uses one
    of the components below has the place of that component. -/
theorem numbered_of_path (hvalid : Script.Arena.Closed arena {id | id < arena.size})
    (htree : Script.Arena.IsTree arena function) (hnodup : calls.Nodup)
    (hlt : ∀ a ∈ calls, a < arena.size) {i : Nat}
    (hcall : (calls.filter
      (counts (Program.survivors arena function calls) keepPlaces))[i]? = some call)
    (hpath : (placeAll (Program.survivors arena function calls) keepPlaces arena 0 calls).Path
      function path call)
    (helement : (placeAll (Program.survivors arena function calls) keepPlaces arena 0
      calls).helper? call = some .element) :
    Numbered (placeAll (Program.survivors arena function calls) keepPlaces arena 0 calls) call
      i := by
  have hmem : call ∈ calls := (List.mem_filter.mp (List.mem_of_getElem? hcall)).1
  have hsurvives := mem_survivors_of_path hvalid htree hmem (hlt call hmem) hpath helement
  have hseparate : Separate arena
      (calls.filter (Program.survivors arena function calls).contains) := by
    intro a ha b hb
    exact separate_survivors htree a (List.contains_iff_mem.mp (List.mem_filter.mp ha).2) b
      (List.contains_iff_mem.mp (List.mem_filter.mp hb).2)
  have hnumbered := placeAll_numbered 0 hvalid hnodup (fun a _ hin => survivors_element hin)
    hseparate i call hcall (List.contains_iff_mem.mpr hsurvives)
  rwa [Nat.zero_add] at hnumbered

end Function

end Program

end RenderFold
