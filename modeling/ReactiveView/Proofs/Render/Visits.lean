import ReactiveView.Proofs.Hook.Identity
import ReactiveView.Proofs.Render.Remount

namespace ReactiveView

variable {ω α β : Type} {library : Library ω}

/-- A use of a component: where its bucket belongs, and whether it is shown. -/
structure Visit where
  key : Coordinate
  shown : Bool
  deriving DecidableEq

namespace VirtualNode

mutual

/-- The uses of components in a node in document order, each with the number of components around
it. -/
def visits (depth : Nat) : VirtualNode → List Visit
  | element _ _ _ children _ => visitsAll depth children
  | text _ _ => []
  | fragment (.component id) shown children =>
    ⟨⟨id, depth⟩, shown⟩ :: visitsAll (depth + 1) children
  | fragment (.list _) _ children | fragment (.item _) _ children => visitsAll depth children

def visitsAll (depth : Nat) : List VirtualNode → List Visit
  | [] => []
  | node :: rest => node.visits depth ++ visitsAll depth rest

end

end VirtualNode

def VirtualTree.visits (t : VirtualTree) : List Visit := VirtualNode.visitsAll 0 t.children

inductive Visit.Paid (library : Library ω) : Visit → List (PassStep ω) → Prop
  | shown (key : String) (props : Bindings ω) (depth : Nat) :
      Paid library ⟨⟨(library key).id, depth⟩, true⟩
        [.load ⟨(library key).id, depth⟩, .describe ((library key).describe props)]
  | hidden (key : Coordinate) : Paid library ⟨key, false⟩ [.load key, .clean]

inductive PaidAll (library : Library ω) : List Visit → List (PassStep ω) → Prop
  | nil : PaidAll library [] []
  | cons {v : Visit} {visits : List Visit} {steps more : List (PassStep ω)}
      (h : v.Paid library steps) (rest : PaidAll library visits more) :
      PaidAll library (v :: visits) (steps ++ more)

namespace PaidAll

variable {visits visits' : List Visit} {steps steps' : List (PassStep ω)}

theorem append (h : PaidAll library visits steps) (h' : PaidAll library visits' steps') :
    PaidAll library (visits ++ visits') (steps ++ steps') := by
  induction h with
  | nil => exact h'
  | cons hv _ ih =>
    rw [List.cons_append, List.append_assoc]
    exact .cons hv ih

end PaidAll

namespace Pass

/-- A part of a pass that, after some uses of components, results in something with these uses and
more, and does what the further ones ask for. -/
def Visiting (library : Library ω) (before : List Visit) (visits : α → List Visit) (p : Pass ω α) :
    Prop :=
  ∀ s a s', p.run s = (.ok a, s') → ∃ more steps, visits a = before ++ more ∧
    s'.steps = s.steps ++ steps ∧ PaidAll library more steps

namespace Visiting

variable {before : List Visit} {visits : α → List Visit} {visits' : β → List Visit}

theorem of_steps_eq {p : Pass ω α} (hv : ∀ s a s', p.run s = (.ok a, s') →
    visits a = before ∧ s'.steps = s.steps) : Visiting library before visits p := by
  intro s a s' h
  obtain ⟨ha, hs⟩ := hv s a s' h
  exact ⟨[], [], by rw [ha, List.append_nil], by rw [hs, List.append_nil], .nil⟩

theorem pure {a : α} (h : visits a = before) :
    Visiting library before visits (Pure.pure a : Pass ω α) :=
  of_steps_eq fun s b s' hb => by
    cases hb
    exact ⟨h, rfl⟩

theorem ofExcept (r : Except RenderError α) :
    Visiting library before (fun _ => before) (Pass.ofExcept r : Pass ω α) :=
  of_steps_eq fun s b s' hb => by
    rw [run_ofExcept] at hb
    exact ⟨rfl, congrArg (fun r => PassState.steps r.2) hb.symm⟩

theorem template (id source : String) (dynamic : Bool) :
    Visiting library before (fun _ => before) (Pass.template id source dynamic : Pass ω Template) :=
  of_steps_eq fun s b s' hb => by
    rw [run_template] at hb
    exact ⟨rfl, congrArg (fun r => PassState.steps r.2) hb.symm⟩

theorem bind {p : Pass ω α} {f : α → Pass ω β} (hp : Visiting library before visits p)
    (hf : ∀ a, Visiting library (visits a) visits' (f a)) :
    Visiting library before visits' (p >>= f) := by
  intro s b s' h
  rw [run_bind] at h
  rcases hrun : p.run s with ⟨e | a, t⟩
  · rw [hrun] at h
    cases h
  · rw [hrun] at h
    obtain ⟨more, steps, hmore, hsteps, hpaid⟩ := hp s a t hrun
    obtain ⟨more', steps', hmore', hsteps', hpaid'⟩ := hf a t b s' h
    refine ⟨more ++ more', steps ++ steps', ?_, ?_, hpaid.append hpaid'⟩
    · rw [hmore', hmore, List.append_assoc]
    · rw [hsteps', hsteps, List.append_assoc]

theorem after {p : Pass ω α} (h : Visiting library [] visits p) (before : List Visit) :
    Visiting library before (fun a => before ++ visits a) p := by
  intro s a s' hrun
  obtain ⟨more, steps, hmore, hsteps, hpaid⟩ := h s a s' hrun
  exact ⟨more, steps, congrArg (before ++ ·) hmore, hsteps, hpaid⟩

end Visiting

def VisitingMount (library : Library ω) (depth : Nat) (mount : Mount ω) : Prop :=
  ∀ key props, Visiting library [] (VirtualNode.visits depth) (mount key props)

section

variable {mount : Mount ω} {depth : Nat}

theorem visiting_mapM {f : α → Pass ω VirtualNode}
    (hf : ∀ a, Visiting library [] (VirtualNode.visits depth) (f a)) (l : List α) :
    Visiting library [] (VirtualNode.visitsAll depth) (l.mapM f) := by
  induction l with
  | nil => exact .pure rfl
  | cons a rest ih =>
    rw [List.mapM_cons]
    exact (hf a).bind fun node => (ih.after _).bind fun nodes => .pure rfl

theorem visiting_use (f : Frame ω) (hm : VisitingMount library (f.depth + 1) mount) (name : String)
    (handed : List Attr) :
    Visiting library [] (VirtualNode.visits (f.depth + 1)) (f.use library mount name handed) := by
  rw [Frame.use]
  split
  · intro s a s' h
    cases h
  · rename_i key hkey
    refine (Visiting.ofExcept _).bind fun props => ?_
    dsimp only
    split
    · exact hm key _
    · -- The use is hidden: its bucket is loaded and emptied, and the fragment has nothing inside.
      intro s a s' h
      simp only [run_bind, run_load, run_clean] at h
      cases h
      exact ⟨_, [.load ⟨(library key).id, f.depth + 1⟩, .clean], rfl, List.append_assoc _ _ _,
        .cons (.hidden _) .nil⟩

mutual

theorem visiting_expand : ∀ (node : Node) (f : Frame ω), VisitingMount library (f.depth + 1) mount →
    Visiting library [] (VirtualNode.visits (f.depth + 1)) (node.expand library mount f)
  | .element tag attrs children, f, hm => by
    rw [Node.expand]
    exact (Visiting.ofExcept _).bind fun parts =>
      (visiting_expandAll children f hm).bind fun nodes => .pure rfl
  | .custom name attrs props children, f, hm => by
    rw [Node.expand]
    exact visiting_use f hm name _
  | .literal text, f, hm => by
    rw [Node.expand]
    exact .pure rfl
  | .serial reference, f, hm => by
    rw [Node.expand]
    exact (Visiting.ofExcept _).bind fun v => .pure rfl
  | .command .map binding children, f, hm => by
    rw [Node.expand]
    refine (Visiting.ofExcept _).bind fun r => ?_
    refine (visiting_mapM (fun item => ?_) _).bind fun nodes => .pure rfl
    exact (visiting_expandAll children (f.enter r.context item.1) hm).bind fun nodes => .pure rfl

theorem visiting_expandAll : ∀ (nodes : List Node) (f : Frame ω),
    VisitingMount library (f.depth + 1) mount →
    Visiting library [] (VirtualNode.visitsAll (f.depth + 1)) (Node.expandAll library mount f nodes)
  | [], f, hm => by
    rw [Node.expandAll]
    exact .pure rfl
  | node :: rest, f, hm => by
    rw [Node.expandAll]
    exact (visiting_expand node f hm).bind fun first =>
      ((visiting_expandAll rest f hm).after _).bind fun others => .pure rfl

end

end

theorem visiting_mount (library : Library ω) (levels : Nat) : ∀ depth,
    VisitingMount library depth (library.mount levels depth) := by
  induction levels with
  | zero =>
    intro depth key props s a s' h
    cases h
  | succ levels ih =>
    intro depth key props s a s' h
    rcases hd : ((library key).describe props).run
      { s.scope with registry := s.scope.registry.load ⟨(library key).id, depth⟩ } with ⟨e | d, scope⟩
    · simp only [Library.mount, run_bind, run_load, run_describe, run_ofExcept, hd] at h
      cases h
    · rw [Library.run_mount hd] at h
      have hunwrap : Visiting library [⟨⟨(library key).id, depth⟩, true⟩] (VirtualNode.visits depth)
          (library.unwrap levels depth (library key).id d) := by
        refine (Visiting.template _ _ _).bind fun t => ?_
        -- What is inside of the component has one component more around it.
        refine ((visiting_expand t.root _ (ih (depth + 1))).after _).bind fun root => .pure ?_
        exact congrArg (_ :: ·) (List.append_nil _)
      obtain ⟨more, steps, hmore, hsteps, hpaid⟩ := hunwrap _ a s' h
      refine ⟨_, _, hmore, ?_, .cons (.shown key props depth) hpaid⟩
      rw [hsteps, List.append_assoc, List.append_assoc]
      rfl

end Pass

def Registry.Takes (r : Registry) (calls : List (SlotCall ω)) : Prop :=
  ∀ n call, calls[n]? = some call → call.key = r.active ∧ call.slot = r.cursor + n

theorem SlotUse.takes_cons (use : SlotUse ω) (s : Scope ω) {calls : List (SlotCall ω)}
    (h : (use.perform s).registry.Takes calls) : s.registry.Takes (⟨use, s⟩ :: calls) := by
  have hactive : (use.perform s).registry.active = s.registry.active := by
    rw [use.registry_perform]
    exact s.registry.active_next _ _
  have hcursor : (use.perform s).registry.cursor = s.registry.cursor + 1 := by
    rw [use.registry_perform]
    exact s.registry.cursor_next _ _
  intro n call hn
  cases n with
  | zero =>
    cases hn
    exact ⟨rfl, rfl⟩
  | succ n =>
    obtain ⟨hkey, hslot⟩ := h n call hn
    exact ⟨hkey.trans hactive, by omega⟩

theorem Describe.takes_calls (d : Describe ω α) : ∀ s : Scope ω, s.registry.Takes (d.calls s) := by
  induction d with
  | done result =>
    intro s n call hn
    cases hn
  | state initial next ih => exact fun s => (SlotUse.state initial).takes_cons s (ih _ _ _)
  | ref initial next ih => exact fun s => (SlotUse.ref initial).takes_cons s (ih _ _)
  | effect deps program next ih => exact fun s => (SlotUse.effect deps program).takes_cons s (ih _)
  | effectAsync deps program next ih =>
    exact fun s => (SlotUse.effectAsync deps program).takes_cons s (ih _)
  | handler react next ih => exact fun s => ih _ (s.makeHandler react).2
  | reuse id next ih => exact fun s => ih _ s
  | look next ih => exact fun s => ih _ s
  | act program next ih => exact fun s => ih { s with store := program.run s.store }

theorem Scope.lasting_confined :
    Scope.Lasting fun s s' : Scope ω => s.registry.Confined s'.registry where
  refl := fun s => .refl s.registry
  trans := fun h h' => h.trans h'
  slot := fun s initial => s.registry.confined_next s.store.cells initial
  useEffect := fun s deps effect => by
    have hslot := (SlotUse.effect deps effect).registry_perform s
    rw [SlotUse.perform] at hslot
    rw [hslot]
    exact s.registry.confined_next _ _
  useEffectAsync := fun s deps effect => by
    have hslot := (SlotUse.effectAsync deps effect).registry_perform s
    rw [SlotUse.perform] at hslot
    rw [hslot]
    exact s.registry.confined_next _ _
  makeHandler := fun s _ => .refl s.registry
  act := fun s _ => .refl s.registry

namespace PassStep

def loaded? : PassStep ω → Option Coordinate
  | load key => some key
  | _ => none

theorem isSome_replay (step : PassStep ω) (s : Scope ω) (key : Coordinate)
    (h : (s.registry.bucket? key).isSome) : ((step.replay s).registry.bucket? key).isSome := by
  cases step with
  | load other =>
    change ((s.registry.load other).bucket? key).isSome
    rw [Registry.bucket?_load]
    split
    · rfl
    · exact h
  | clean => exact (s.registry.confined_clean.isSome_eq key).trans h
  | describe d => exact ((Scope.lasting_confined.describe d s).isSome_eq key).trans h

theorem isSome_replayAll (steps : List (PassStep ω)) (s : Scope ω) (key : Coordinate)
    (h : (s.registry.bucket? key).isSome) : ((replayAll steps s).registry.bucket? key).isSome := by
  induction steps generalizing s with
  | nil => exact h
  | cons step rest ih => exact ih _ (step.isSome_replay s key h)

end PassStep

namespace Visit.Paid

variable {v : Visit} {steps : List (PassStep ω)}

theorem loads_eq (h : v.Paid library steps) : steps.filterMap PassStep.loaded? = [v.key] := by
  cases h <;> rfl

theorem exists_confined (h : v.Paid library steps) : ∃ step, steps = [.load v.key, step] ∧
    ∀ s : Scope ω, s.registry.Confined (step.replay s).registry := by
  cases h with
  | shown key props depth => exact ⟨_, rfl, fun s => Scope.lasting_confined.describe _ s⟩
  | hidden key => exact ⟨_, rfl, fun s => s.registry.confined_clean⟩

theorem bucket?_of_ne (h : v.Paid library steps) (s : Scope ω) {key : Coordinate}
    (hkey : key ≠ v.key) :
    (PassStep.replayAll steps s).registry.bucket? key = s.registry.bucket? key := by
  obtain ⟨step, rfl, hstep⟩ := h.exists_confined
  have hlast := (hstep (PassStep.replay (.load v.key) s)).bucket?_eq key
    fun hactive => hkey (Option.some.inj hactive).symm
  refine hlast.trans ?_
  change (s.registry.load v.key).bucket? key = _
  rw [Registry.bucket?_load, if_neg hkey]

theorem isSome_key (h : v.Paid library steps) (s : Scope ω) :
    ((PassStep.replayAll steps s).registry.bucket? v.key).isSome := by
  obtain ⟨step, rfl, hstep⟩ := h.exists_confined
  refine ((hstep (PassStep.replay (.load v.key) s)).isSome_eq v.key).trans ?_
  change ((s.registry.load v.key).bucket? v.key).isSome = true
  rw [Registry.bucket?_load, if_pos rfl]
  rfl

end Visit.Paid

namespace PaidAll

variable {visits : List Visit} {steps : List (PassStep ω)} {key : Coordinate}

theorem loads_eq (h : PaidAll library visits steps) :
    steps.filterMap PassStep.loaded? = visits.map Visit.key := by
  induction h with
  | nil => rfl
  | cons hv _ ih =>
    rw [List.filterMap_append, hv.loads_eq, ih]
    rfl

theorem bucket?_of_not_mem (h : PaidAll library visits steps) (s : Scope ω)
    (hkey : key ∉ visits.map Visit.key) :
    (PassStep.replayAll steps s).registry.bucket? key = s.registry.bucket? key := by
  induction h generalizing s with
  | nil => rfl
  | cons hv _ ih =>
    rw [List.map_cons, List.mem_cons, not_or] at hkey
    rw [PassStep.replayAll_append, ih _ hkey.2, hv.bucket?_of_ne s hkey.1]

theorem isSome_of_mem (h : PaidAll library visits steps) (s : Scope ω)
    (hkey : key ∈ visits.map Visit.key) :
    ((PassStep.replayAll steps s).registry.bucket? key).isSome := by
  induction h generalizing s with
  | nil => cases hkey
  | cons hv _ ih =>
    rw [PassStep.replayAll_append]
    rcases List.mem_cons.mp hkey with rfl | hkey
    · exact PassStep.isSome_replayAll _ _ _ (hv.isSome_key s)
    · exact ih _ hkey

end PaidAll

namespace Session

def opening (s : Session ω) : Scope ω := ⟨s.registry.reset, s.store⟩

/-- What a pass that results in a tree does with the buckets. -/
structure VisitsInOrder (s : Session ω) (t : VirtualTree) : Prop where
  /-- The buckets that it loads are those of the components in the tree, in document order. -/
  loads_eq : s.pass.2.steps.filterMap PassStep.loaded? = t.visits.map Visit.key
  /-- It describes a component as soon as it has loaded the bucket, or empties the bucket if the
  component is not shown, and takes no other steps. -/
  paid : PaidAll s.app.library t.visits s.pass.2.steps
  /-- The hooks of a component take the slots of its own bucket from the first one on. -/
  slots_eq : ∀ (before after : List (PassStep ω)) (key : Coordinate)
    (d : Describe ω (Except RenderError (Descriptor ω))),
    s.pass.2.steps = before ++ .load key :: .describe d :: after → ∀ (n : Nat) (call : SlotCall ω),
      (d.calls (PassStep.replayAll (before ++ [.load key]) s.opening))[n]? = some call →
        call.key = some key ∧ call.slot = n
  /-- It gets rid of no bucket at any time. -/
  kept : ∀ before after, s.pass.2.steps = before ++ after → ∀ key,
    (s.registry.bucket? key).isSome →
      ((PassStep.replayAll before s.opening).registry.bucket? key).isSome
  /-- Afterwards there are the buckets from before and those of the components in the tree. -/
  isSome_iff : ∀ key, (s.expand.2.registry.bucket? key).isSome ↔
    (s.registry.bucket? key).isSome ∨ key ∈ t.visits.map Visit.key
  /-- All other buckets have the slots that they had. -/
  bucket?_eq : ∀ key, key ∉ t.visits.map Visit.key →
    s.expand.2.registry.bucket? key = s.registry.bucket? key

variable {s : Session ω} {t : VirtualTree}

theorem paidAll_of_expand (h : s.expand.1 = .ok t) :
    PaidAll s.app.library t.visits s.pass.2.steps := by
  rcases hpass : s.pass with ⟨e | node, state⟩
  · rw [expand, hpass] at h
    cases h
  · rw [expand, hpass] at h
    cases h
    obtain ⟨visits, steps, hvisits, hsteps, hpaid⟩ :=
      Pass.visiting_mount s.app.library s.app.options.nestingLimit 0 s.app.root Dict.empty _ _ _ hpass
    have htree : (VirtualTree.ofChildren [node]).visits = visits :=
      (List.append_nil _).trans hvisits
    rw [htree]
    change PaidAll s.app.library visits state.steps
    rw [hsteps]
    exact hpaid

/-- A pass that results in a tree comes by the buckets of the components in it, in document order,
and touches no other bucket. -/
theorem visitsInOrder_of_expand (h : s.expand.1 = .ok t) : s.VisitsInOrder t := by
  have hpaid := paidAll_of_expand h
  have hregistry : s.expand.2.registry = (PassStep.replayAll s.pass.2.steps s.opening).registry :=
    congrArg Scope.registry s.scope_pass
  have hkept : ∀ steps key, (s.registry.bucket? key).isSome →
      ((PassStep.replayAll steps s.opening).registry.bucket? key).isSome := fun steps key hkey =>
    PassStep.isSome_replayAll steps s.opening key hkey
  have hother : ∀ key, key ∉ t.visits.map Visit.key →
      s.expand.2.registry.bucket? key = s.registry.bucket? key := by
    intro key hkey
    rw [hregistry]
    exact hpaid.bucket?_of_not_mem s.opening hkey
  refine ⟨hpaid.loads_eq, hpaid, ?_, fun before _ _ => hkept before, fun key => ?_, hother⟩
  · intro before after key d _ n call hcall
    rw [PassStep.replayAll_append] at hcall
    obtain ⟨hkey, hslot⟩ := d.takes_calls _ n call hcall
    exact ⟨hkey, hslot.trans (Nat.zero_add n)⟩
  · constructor
    · intro hsome
      by_cases hkey : key ∈ t.visits.map Visit.key
      · exact .inr hkey
      · exact .inl (hother key hkey ▸ hsome)
    · rw [hregistry]
      rintro (hold | hnew)
      · exact hkept _ key hold
      · exact hpaid.isSome_of_mem s.opening hnew

def mixed : Session Bool := start (switching (switched "Inner" ++ "<Outer/><Inner/>")) false

theorem visitsInOrder_of_expand_mixed : ∃ t, mixed.expand.1 = .ok t ∧ mixed.VisitsInOrder t ∧
    t.visits = [⟨⟨"App", 0⟩, true⟩, ⟨⟨"Inner", 1⟩, false⟩, ⟨⟨"Outer", 1⟩, true⟩,
      ⟨⟨"Inner", 2⟩, true⟩, ⟨⟨"Inner", 1⟩, true⟩] := by
  have hvisits : mixed.expand.1.toOption.map VirtualTree.visits =
      some [⟨⟨"App", 0⟩, true⟩, ⟨⟨"Inner", 1⟩, false⟩, ⟨⟨"Outer", 1⟩, true⟩,
        ⟨⟨"Inner", 2⟩, true⟩, ⟨⟨"Inner", 1⟩, true⟩] := by decide +kernel
  cases h : mixed.expand.1 with
  | error e =>
    rw [h] at hvisits
    cases hvisits
  | ok t =>
    rw [h] at hvisits
    exact ⟨t, rfl, visitsInOrder_of_expand h, Option.some.inj hvisits⟩

end Session

end ReactiveView
