import RenderFold.Proofs.Html.Quiet
import RenderFold.Proofs.Html.Renditions

/-!
# Serialized Markup

The serializer writes the markup that views amount to. In a quiet tree it
also leaves what async components have resolved to as it is, so what it was
told about them is what they had resolved to from the start.

That the stack does what recursion would do is known of every tree, so only
renditions are looked at here.

## Theorems

* `Serializer.Rendition.written`: The rendition of views in a tree that never
  waits for async components.
* `Engine.html_written`: The markup of a quiet tree.
-/

namespace RenderFold

namespace Serializer

variable {engine : Engine} {functions : Component → Option RenderFunction}
  {cached : FactoryId → Option Resolution} {root : View}

/-- An async component that has resolved is not asked again. -/
theorem resolve_of_cached {id : FactoryId} {memory : Engine.State} {resolution : Resolution}
    (h : (memory.factories id).cached = some resolution) :
    engine.resolve id memory = .ok resolution memory := by
  have hget : (get : EngineM Engine.State) memory = .ok memory memory := rfl
  have hask : Engine.ask id memory = .ok (.answered resolution) memory := by
    simp only [Engine.ask, bind, EStateM.bind, hget, h]
    rfl
  simp only [Engine.resolve, bind, EStateM.bind, hask]
  rfl

/-- All async components of a tree have resolved. -/
def Resolves (engine : Engine) (functions : Component → Option RenderFunction)
    (cached : FactoryId → Option Resolution) (root : View) : Prop :=
  ∀ owner factory data, Below engine functions cached root owner (.deferred factory data) →
    ∃ resolution, cached factory = some resolution

/-- An async component that has resolved is what it has resolved to, and nothing
    changes. -/
theorem resolve_of_resolves (hresolves : Resolves engine functions cached root)
    {owner : Option Instance} {factory : FactoryId} {data : NodeData} {memory resolved : Engine.State}
    {resolution : Resolution}
    (hview : Below engine functions cached root owner (.deferred factory data))
    (hmemory : engine.Remembers functions cached memory)
    (hresolve : engine.resolve factory memory = .ok resolution resolved) :
    cached factory = some resolution ∧ resolved = memory := by
  obtain ⟨known, hcached⟩ := hresolves _ _ _ hview
  cases hresolve.symm.trans (resolve_of_cached ((hmemory.cached factory).trans hcached))
  exact ⟨hcached, rfl⟩

/-- A component that is entered without a plan has the root that it renders. -/
theorem Enters.rendering {owner : Option Instance} {component : Component} {data : NodeData}
    {before after : Memory Unit} {inst : Instance} {view : View}
    (hfunctions : engine.function? before.engine = functions)
    (h : Enters engine .baseline owner component data before inst view after) :
    engine.rendering? functions .dynamic owner component data = some (inst, view) ∧
      Engine.Kept engine before.engine after.engine := by
  obtain ⟨htold, hready, hhooks, hroot⟩ := h
  cases htold
  rcases engine.ensureRender_spec (Instance.create component data owner .dynamic) rfl
    before.engine with ⟨function, memory, hensure, hfunction, hkept⟩ | ⟨e, memory, hensure, -, -⟩
  · have hfunction' : functions component = some function := by
      rw [← hfunctions]
      exact hfunction
    cases hready.symm.trans hensure
    refine ⟨?_, hkept⟩
    simp only [Engine.rendering?, hfunction', Option.bind_eq_bind, Option.bind_some, hhooks,
      Except.toOption, hroot, Option.pure_def]
  · cases hready.symm.trans hensure

/-- Where all async components have resolved, the rendition of views is the
    markup that they amount to. The engine still remembers what it did before. -/
theorem Rendition.written (hresolves : Resolves engine functions cached root)
    {owner : Option Instance} {context : TagContext} {views : List View}
    {before after : Memory Unit} {html : String} {visits : List Visit} {steps : Nat}
    (h : Rendition engine .baseline owner context views before html visits steps after)
    (hbelow : ∀ view ∈ views, Below engine functions cached root owner view)
    (hmemory : engine.Remembers functions cached before.engine) :
    ∃ answers, Written engine functions .dynamic id owner context views answers html steps ∧
      Answered cached answers ∧ engine.Remembers functions cached after.engine := by
  induction h with
  | @nil => exact ⟨[], .nil, List.forall_mem_nil _, hmemory⟩
  | cons _ _ ihview ihrest =>
      obtain ⟨hview, hrest⟩ := List.forall_mem_cons.mp hbelow
      obtain ⟨answers, hwritten, hanswers, hmemory⟩ :=
        ihview (List.forall_mem_singleton.mpr hview) hmemory
      obtain ⟨later, hlater, hanswers', hmemory⟩ := ihrest hrest hmemory
      exact ⟨answers ++ later, hwritten.append hlater,
        Answered.append_iff.mpr ⟨hanswers, hanswers'⟩, hmemory⟩
  | text hmarkup =>
      exact ⟨[], .of_append_nil (.text hmarkup .nil), List.forall_mem_nil _, hmemory⟩
  | comment => exact ⟨[], .of_append_nil (.comment .nil), List.forall_mem_nil _, hmemory⟩
  | void hend => exact ⟨[], .of_append_nil (.void hend rfl .nil), List.forall_mem_nil _, hmemory⟩
  | content hend hcontent =>
      exact ⟨[], .of_append_nil (.content hend rfl hcontent .nil), List.forall_mem_nil _, hmemory⟩
  | fragment _ ih =>
      have hview := List.forall_mem_singleton.mp hbelow
      obtain ⟨answers, hchildren, hanswers, hmemory⟩ :=
        ih (fun _ hchild => hview.inside hchild) hmemory
      refine ⟨answers, .of_append_nil ?_, hanswers, hmemory⟩
      rw [← hchildren.enclosed_id]
      exact .fragment hchildren .nil
  | element hend hcontent _ ih =>
      have hview := List.forall_mem_singleton.mp hbelow
      obtain ⟨answers, hchildren, hanswers, hmemory⟩ := ih (fun _ hchild => hview.inside (by
        simpa only [View.inside, hend, hcontent, Option.isSome_some, Option.isNone_none,
          Bool.and_self, if_true] using hchild)) hmemory
      exact ⟨answers, .of_append_nil (.element hend rfl hcontent hchildren .nil), hanswers, hmemory⟩
  | component hstands henters _ ih =>
      have hview := List.forall_mem_singleton.mp hbelow
      cases hstands with
      | component =>
          obtain ⟨hroot, hkept⟩ := henters.rendering hmemory.functions
          obtain ⟨answers, hinner, hanswers, hmemory⟩ :=
            ih (List.forall_mem_singleton.mpr (hview.component hroot)) (hmemory.kept hkept)
          exact ⟨answers, .of_append_nil (.component hroot hinner .nil), hanswers, hmemory⟩
      | deferred hresolve =>
          obtain ⟨hcached, rfl⟩ := resolve_of_resolves hresolves hview hmemory hresolve
          obtain ⟨hroot, hkept⟩ := henters.rendering hmemory.functions
          obtain ⟨answers, hinner, hanswers, hmemory⟩ :=
            ih (List.forall_mem_singleton.mpr (hview.deferredComponent hcached hroot))
              (hmemory.kept hkept)
          exact ⟨_ :: answers, .of_append_nil (.deferredComponent hroot hinner .nil),
            Answered.cons_iff.mpr ⟨hcached, hanswers⟩, hmemory⟩
  | resolvedView hresolve _ ih =>
      have hview := List.forall_mem_singleton.mp hbelow
      obtain ⟨hcached, rfl⟩ := resolve_of_resolves hresolves hview hmemory hresolve
      obtain ⟨answers, hinner, hanswers, hmemory⟩ :=
        ih (List.forall_mem_singleton.mpr (hview.deferredView hcached)) hmemory
      exact ⟨_ :: answers, .of_append_nil (.deferredView hinner .nil),
        Answered.cons_iff.mpr ⟨hcached, hanswers⟩, hmemory⟩
  | resolvedViews hresolve _ ih =>
      have hview := List.forall_mem_singleton.mp hbelow
      obtain ⟨hcached, rfl⟩ := resolve_of_resolves hresolves hview hmemory hresolve
      obtain ⟨answers, hinner, hanswers, hmemory⟩ :=
        ih (fun _ hmem => hview.deferredViews hcached hmem) hmemory
      exact ⟨_ :: answers, .of_append_nil (.deferredViews hinner .nil),
        Answered.cons_iff.mpr ⟨hcached, hanswers⟩, hmemory⟩

end Serializer

/-- Markup that is written, with the state that is left behind. -/
theorem Engine.html_of_toOption {engine : Engine} {root : View} {memory : State} {html : String}
    (h : (engine.html .baseline root () memory).1.toOption = some html) :
    ∃ memory', engine.html .baseline root () memory = (.ok html, (), memory') := by
  generalize engine.html .baseline root () memory = written at h
  obtain ⟨_ | found, _, memory'⟩ := written
  · cases h
  · cases h
    exact ⟨memory', rfl⟩

/-- The markup that the serializer writes for a quiet tree is the one that it
    amounts to, and what is there to be written takes fewer steps than are
    allowed. The engine still remembers what it did before. -/
theorem Engine.html_written {engine : Engine} {root : View} {memory memory' : State} {html : String}
    {functions : Component → Option RenderFunction} {cached : FactoryId → Option Resolution}
    (hquiet : Quiet engine functions cached root)
    (hmemory : engine.Remembers functions cached memory)
    (h : engine.html .baseline root () memory = (.ok html, (), memory')) :
    ∃ answers steps, Written engine functions .dynamic id none .empty [root] answers html steps ∧
      Answered cached answers ∧ steps < Serializer.maxSteps ∧
      engine.Remembers functions cached memory' := by
  have hbelow : ∀ view ∈ [root], Below engine functions cached root none view :=
    List.forall_mem_singleton.mpr .root
  have hresolves : Serializer.Resolves engine functions cached root := fun owner factory data hview => by
    obtain ⟨resolution, hcached, -⟩ := hquiet.deferred owner factory data hview
    exact ⟨resolution, hcached⟩
  obtain ⟨visits, steps, hroot, hsteps⟩ := rendition_of_html h
  obtain ⟨answers, hwritten, hanswers, hmemory⟩ := hroot.written hresolves hbelow hmemory
  exact ⟨answers, steps, hwritten, hanswers, hsteps, hmemory⟩

end RenderFold
