import Mathlib.Data.Finset.Card
import ReactiveView.Proofs.Tree.Forest
import ReactiveView.Tree.Markup

namespace ReactiveView.Surface

variable {s : Surface} {id parent child x : NodeId} {steps : Nat}

namespace Forest

theorem lt_of_parent? (h : s.Forest) (hp : s.parent? child = some parent) :
    child < s.nodes.size ∧ parent < s.nodes.size := by
  have hm := (h.mem_children_iff parent child).mpr hp
  constructor <;> by_contra hlt
  · rw [parent?, s.node?_eq_none child (Nat.not_lt.mp hlt)] at hp
    cases hp
  · rw [s.children_eq_nil parent (Nat.not_lt.mp hlt)] at hm
    cases hm

theorem lt_of_ancestor? (h : s.Forest) (hx : s.ancestor? (steps + 1) id = some x) :
    id < s.nodes.size ∧ x < s.nodes.size := by
  have hlast := hx
  rw [ancestor?] at hx
  rw [ancestor?_succ] at hlast
  obtain ⟨p, hp, -⟩ := Option.bind_eq_some_iff.mp hx
  obtain ⟨y, -, hy⟩ := Option.bind_eq_some_iff.mp hlast
  exact ⟨(h.lt_of_parent? hp).1, (h.lt_of_parent? hy).2⟩

theorem ancestor?_inj (h : s.Forest) {i j : Nat} (hi : s.ancestor? i id = some x)
    (hj : s.ancestor? j id = some x) : i = j := by
  have hlt : ∀ {i j : Nat}, s.ancestor? i id = some x → s.ancestor? j id = some x → ¬i < j := by
    intro i j hi hj hij
    rw [← Nat.add_sub_cancel' (Nat.le_of_lt hij), ancestor?_add, hi, Option.bind_some] at hj
    exact h.not_cycle (Nat.sub_pos_of_lt hij) hj
  exact Nat.le_antisymm (Nat.not_lt.mp (hlt hj hi)) (Nat.not_lt.mp (hlt hi hj))

theorem exists_ancestor? (h : s.Forest) (hx : s.ancestor? (steps + 1) id = some x) {k : Nat}
    (hk : k ≤ steps + 1) : ∃ y < s.nodes.size, s.ancestor? k id = some y := by
  obtain ⟨y, hy⟩ := Option.ne_none_iff_exists'.mp fun hnone : s.ancestor? k id = none => by
    rw [ancestor?_eq_none_of_le hnone hk] at hx
    cases hx
  refine ⟨y, ?_, hy⟩
  cases k with
  | zero => exact Option.some.inj hy ▸ (h.lt_of_ancestor? hx).1
  | succ k => exact (h.lt_of_ancestor? hy).2

theorem steps_lt (h : s.Forest) (hx : s.ancestor? steps id = some x) : steps < s.nodes.size := by
  cases steps with
  | zero => exact h.root_lt
  | succ steps =>
    have hcard : (Finset.range (steps + 2)).card ≤ (Finset.range s.nodes.size).card := by
      refine Finset.card_le_card_of_injOn (fun k => (s.ancestor? k id).getD 0) (fun k hk => ?_)
        fun i hi j hj he => ?_
      · obtain ⟨y, hlt, hy⟩ := h.exists_ancestor? hx (Nat.le_of_lt_succ (Finset.mem_range.mp hk))
        simpa [hy] using hlt
      · obtain ⟨y, -, hy⟩ := h.exists_ancestor? hx (Nat.le_of_lt_succ (Finset.mem_range.mp hi))
        obtain ⟨z, -, hz⟩ := h.exists_ancestor? hx (Nat.le_of_lt_succ (Finset.mem_range.mp hj))
        have hyz : y = z := by simpa [hy, hz] using he
        exact h.ancestor?_inj hy (hyz ▸ hz)
    rwa [Finset.card_range, Finset.card_range] at hcard

theorem ancestor?_size (h : s.Forest) (id : NodeId) : s.ancestor? s.nodes.size id = none :=
  Option.eq_none_iff_forall_ne_some.mpr fun _ hx => Nat.lt_irrefl _ (h.steps_lt hx)

/-- What holds of a node on a level when it holds of its children on the level below holds of all
nodes, given as many levels as there are nodes. -/
theorem levels_induction (h : s.Forest) {motive : Nat → NodeId → Prop}
    (hstep : ∀ levels id, (∀ child ∈ s.children id, motive levels child) → motive (levels + 1) id)
    (id : NodeId) : motive s.nodes.size id := by
  -- A node with `steps` nodes above it needs that many levels less.
  have key : ∀ levels id steps x, s.ancestor? steps id = some x → s.nodes.size ≤ levels + steps →
      motive levels id := fun levels => by
    induction levels with
    | zero => exact fun id steps x hx hle => absurd (h.steps_lt hx) (by omega)
    | succ levels ih =>
      intro id steps x hx hle
      refine hstep levels id fun child hc => ih child (steps + 1) x ?_ (by omega)
      rw [ancestor?, (h.mem_children_iff id child).mp hc, Option.bind_some, hx]
  exact key _ id 0 id rfl (Nat.le_refl _)

theorem wellFounded (h : s.Forest) : WellFounded fun child parent => child ∈ s.children parent :=
  ⟨h.levels_induction (motive := fun _ id => Acc _ id) fun _ id ih => Acc.intro id ih⟩

/-- A walk whose levels below a node are those of walks from its children does not depend on how
many levels there are, from as many on as there are nodes. -/
theorem walk_eq {α : Type} (h : s.Forest) (walk : Nat → NodeId → α)
    (hwalk : ∀ i j id, (∀ child ∈ s.children id, walk i child = walk j child) →
      walk (i + 1) id = walk (j + 1) id)
    (id : NodeId) {levels : Nat} (hle : s.nodes.size ≤ levels) :
    walk levels id = walk s.nodes.size id := by
  refine h.levels_induction (motive := fun i id => ∀ j, i ≤ j → walk j id = walk i id) ?_ id levels hle
  intro i id ih j hj
  obtain ⟨j, rfl⟩ := Nat.exists_eq_add_of_lt hj
  exact hwalk _ _ id fun child hc => ih child hc _ (by omega)

end Forest

def below (s : Surface) (id : NodeId) : List NodeId := s.inOrder s.nodes.size id

def markup (s : Surface) (id : NodeId) : String := Markup.subtree s s.nodes.size id

namespace Forest

theorem below_eq (h : s.Forest) (id : NodeId) :
    s.below id = id :: (s.children id).flatMap s.below := by
  have hwalk := h.walk_eq s.inOrder (fun i j id hc => by
    rw [inOrder, inOrder, List.flatMap_congr hc]) id (Nat.le_succ _)
  rw [below, ← hwalk]
  rfl

theorem markup_eq (h : s.Forest) (id : NodeId) :
    s.markup id = match s.node? id with
      | none => ""
      | some n =>
        match n.kind with
        | .text text => Markup.escapeText text
        | .element tag attrs => Markup.element tag attrs (String.join (n.children.map s.markup)) := by
  have hwalk := h.walk_eq (Markup.subtree s) (fun i j id hc => by
    cases hn : s.node? id with
    | none => simp only [Markup.subtree, hn]
    | some n =>
      have hch : s.children id = n.children := by simp only [children, hn]
      rw [hch] at hc
      simp only [Markup.subtree, hn, List.map_congr_left hc]) id (Nat.le_succ _)
  rw [markup, ← hwalk]
  rfl

theorem textContent_eq (h : s.Forest) (id : NodeId) :
    s.textContent id = s.ownText id ++ String.join ((s.children id).map s.textContent) := by
  have hjoin : ∀ ids : List NodeId, String.join ((ids.flatMap s.below).map s.ownText) =
      String.join (ids.map s.textContent) := fun ids => by
    induction ids with
    | nil => rfl
    | cons first rest ih =>
      rw [List.flatMap_cons, List.map_append, String.join_append, ih, List.map_cons, String.join_cons]
      rfl
  have hall : s.textContent id = String.join ((s.below id).map s.ownText) := rfl
  rw [hall, h.below_eq, List.map_cons, String.join_cons, hjoin]

theorem lineage_eq {levels more : Nat} (hnone : s.ancestor? levels id = none) (hle : levels ≤ more) :
    s.lineage more id = s.lineage levels id := by
  induction levels generalizing id more with
  | zero => cases hnone
  | succ levels ih =>
    obtain ⟨more, rfl⟩ := Nat.exists_eq_add_of_lt hle
    rw [lineage, lineage]
    cases hn : s.node? id with
    | none => rfl
    | some n =>
      cases hp : n.parent with
      | none => simp [hp]
      | some p =>
        have hpar : s.parent? id = some p := by rw [parent?, hn, Option.bind_some, hp]
        rw [ancestor?, hpar, Option.bind_some] at hnone
        have hrest : s.lineage (levels + more) p = s.lineage levels p := ih hnone (by omega)
        simp [hp, hrest]

theorem hearing_eq (h : s.Forest) (id : NodeId) (event : String) :
    s.hearing id event = match s.node? id with
      | none => []
      | some n => ((n.listeners.filter (·.event = event)).map (·.handler)) ++
          (n.parent.map (s.hearing · event)).getD [] := by
  have hline := lineage_eq (h.ancestor?_size id) (Nat.le_succ _)
  rw [hearing, ← hline, lineage]
  cases hn : s.node? id with
  | none => rfl
  | some n =>
    have hl : s.listeners id = n.listeners := by simp only [listeners, hn]
    rw [List.flatMap_cons, hl]
    refine congrArg (_ ++ ·) ?_
    cases n.parent <;> rfl

theorem exists_steps_of_mem_inOrder (h : s.Forest) {levels : Nat} (hx : x ∈ s.inOrder levels id) :
    ∃ steps, s.ancestor? steps x = some id := by
  induction levels generalizing id with
  | zero => cases hx
  | succ levels ih =>
    obtain rfl | hx := List.mem_cons.mp hx
    · exact ⟨0, rfl⟩
    · obtain ⟨child, hc, hx⟩ := List.mem_flatMap.mp hx
      obtain ⟨steps, hsteps⟩ := ih hx
      refine ⟨steps + 1, ?_⟩
      rw [ancestor?_succ, hsteps, Option.bind_some, (h.mem_children_iff id child).mp hc]

theorem mem_below (h : s.Forest) : x ∈ s.below id ↔ ∃ steps, s.ancestor? steps x = some id := by
  refine ⟨h.exists_steps_of_mem_inOrder, fun ⟨steps, hsteps⟩ => ?_⟩
  refine h.levels_induction (motive := fun levels id =>
    ∀ steps, s.ancestor? steps x = some id → x ∈ s.inOrder levels id) (fun levels id ih => ?_) id
    steps hsteps
  intro steps hsteps
  cases steps with
  | zero => exact Option.some.inj hsteps ▸ List.mem_cons_self
  | succ steps =>
    rw [ancestor?_succ] at hsteps
    obtain ⟨child, hx, hp⟩ := Option.bind_eq_some_iff.mp hsteps
    have hc := (h.mem_children_iff id child).mpr hp
    exact List.mem_cons_of_mem _ (List.mem_flatMap.mpr ⟨child, hc, ih child hc steps hx⟩)

theorem eq_of_ancestor? (h : s.Forest) {other : NodeId} (hc : s.parent? child = some id)
    (ho : s.parent? other = some id) (hk : s.ancestor? steps child = some other) : child = other := by
  cases steps with
  | zero => exact Option.some.inj hk
  | succ steps =>
    rw [ancestor?, hc, Option.bind_some] at hk
    have hcycle : s.ancestor? (steps + 1) id = some id := by
      rw [ancestor?_succ, hk, Option.bind_some, ho]
    exact absurd hcycle (h.not_cycle (Nat.succ_pos steps))

theorem eq_of_ancestor?_both (h : s.Forest) {other : NodeId} (hc : s.parent? child = some id)
    (ho : s.parent? other = some id) {i j : Nat} (hi : s.ancestor? i x = some child)
    (hj : s.ancestor? j x = some other) : child = other := by
  obtain hij | hij := Nat.le_total i j
  · rw [← Nat.add_sub_cancel' hij, ancestor?_add, hi, Option.bind_some] at hj
    exact h.eq_of_ancestor? hc ho hj
  · rw [← Nat.add_sub_cancel' hij, ancestor?_add, hj, Option.bind_some] at hi
    exact (h.eq_of_ancestor? ho hc hi).symm

theorem nodup_below (h : s.Forest) (id : NodeId) : (s.below id).Nodup := by
  refine h.levels_induction (motive := fun levels id => (s.inOrder levels id).Nodup)
    (fun levels id ih => ?_) id
  refine List.nodup_cons.mpr ⟨fun hid => ?_, List.nodup_flatMap.mpr ⟨ih, ?_⟩⟩
  · obtain ⟨child, hc, hid⟩ := List.mem_flatMap.mp hid
    obtain ⟨steps, hsteps⟩ := h.exists_steps_of_mem_inOrder hid
    have hcycle : s.ancestor? (steps + 1) id = some id := by
      rw [ancestor?_succ, hsteps, Option.bind_some, (h.mem_children_iff id child).mp hc]
    exact h.not_cycle (Nat.succ_pos steps) hcycle
  · refine List.Pairwise.imp_of_mem (fun {c d} hc hd hne x hxc hxd => hne ?_) (h.nodup_children id)
    obtain ⟨i, hi⟩ := h.exists_steps_of_mem_inOrder hxc
    obtain ⟨j, hj⟩ := h.exists_steps_of_mem_inOrder hxd
    exact h.eq_of_ancestor?_both ((h.mem_children_iff id c).mp hc)
      ((h.mem_children_iff id d).mp hd) hi hj

theorem length_below_root_le (h : s.Forest) : (s.below root).length ≤ s.nodes.size := by
  have hsub : s.below root ⊆ List.range s.nodes.size := fun x hx => by
    obtain ⟨steps, hsteps⟩ := h.mem_below.mp hx
    rw [List.mem_range]
    cases steps with
    | zero => exact Option.some.inj hsteps ▸ h.root_lt
    | succ steps => exact (h.lt_of_ancestor? hsteps).1
  simpa using (List.subperm_of_subset (h.nodup_below root) hsub).length_le

end Forest

/-- A search from a stack that takes as long as it needs: the nodes that it examines, one after
another, and the one that it finds. -/
inductive Searches (s : Surface) (wanted : NodeId → Bool) :
    List NodeId → List NodeId → Option NodeId → Prop
  | done : Searches s wanted [] [] none
  | found {id : NodeId} {stack : List NodeId} (h : wanted id = true) :
      Searches s wanted (id :: stack) [id] (some id)
  | next {id : NodeId} {stack examined : List NodeId} {result : Option NodeId}
      (h : wanted id = false) (h' : Searches s wanted (s.children id ++ stack) examined result) :
      Searches s wanted (id :: stack) (id :: examined) result

namespace Forest

variable {wanted : NodeId → Bool}

/-- On the stack stand the nodes whose turn comes next, and what is under them comes in order. -/
theorem search_eq (h : s.Forest) (turns : Nat) (stack : List NodeId) :
    s.search wanted turns stack = ((stack.flatMap s.below).take turns).find? wanted := by
  induction turns generalizing stack with
  | zero => rfl
  | succ turns ih =>
    cases stack with
    | nil => rfl
    | cons id stack =>
      rw [search, ih, List.flatMap_append, List.flatMap_cons, h.below_eq, List.cons_append,
        List.take_succ_cons, List.find?_cons]
      cases wanted id <;> rfl

theorem find?_eq (h : s.Forest) (name value : String) :
    s.find? name value = (s.below root).find? fun id => s.attribute? id name = some value := by
  rw [find?, h.search_eq, List.flatMap_singleton, List.take_of_length_le h.length_below_root_le]

theorem searches (h : s.Forest) (wanted : NodeId → Bool) (stack : List NodeId) :
    s.Searches wanted stack
      ((stack.flatMap s.below).takeWhile (!wanted ·) ++ ((stack.flatMap s.below).find? wanted).toList)
      ((stack.flatMap s.below).find? wanted) := by
  induction hn : (stack.flatMap s.below).length generalizing stack with
  | zero =>
    cases stack with
    | nil => exact .done
    | cons id stack =>
      rw [List.flatMap_cons, h.below_eq] at hn
      cases hn
  | succ n ih =>
    cases stack with
    | nil => simp at hn
    | cons id stack =>
      -- A node that is not wanted makes way for its children, whose subtrees come next.
      have hall : (id :: stack).flatMap s.below = id :: (s.children id ++ stack).flatMap s.below := by
        rw [List.flatMap_cons, h.below_eq, List.flatMap_append, List.cons_append]
      rw [hall] at hn ⊢
      have hrest := ih (s.children id ++ stack) (Nat.succ.inj hn)
      cases hw : wanted id with
      | true =>
        simp only [List.find?_cons_of_pos hw, List.takeWhile_cons, hw]
        exact .found hw
      | false =>
        simp only [List.find?_cons, List.takeWhile_cons, hw]
        exact .next hw hrest

end Forest

/-- Every walk of a surface comes to an end. Going from nodes to their children does, and so does
going from parent to parent, and on their way the walks do what they do without a bound. -/
structure WalksEnd (s : Surface) : Prop where
  descent : WellFounded fun child parent => child ∈ s.children parent
  ascent : ∀ id, s.ancestor? s.nodes.size id = none
  below_eq : ∀ id, s.below id = id :: (s.children id).flatMap s.below
  markup_eq : ∀ id, s.markup id = match s.node? id with
    | none => ""
    | some n =>
      match n.kind with
      | .text text => Markup.escapeText text
      | .element tag attrs => Markup.element tag attrs (String.join (n.children.map s.markup))
  html_eq : s.html = String.join ((s.children root).map s.markup)
  textContent_eq : ∀ id,
    s.textContent id = s.ownText id ++ String.join ((s.children id).map s.textContent)
  hearing_eq : ∀ id event, s.hearing id event = match s.node? id with
    | none => []
    | some n => ((n.listeners.filter (·.event = event)).map (·.handler)) ++
        (n.parent.map (s.hearing · event)).getD []

theorem Forest.walksEnd (h : s.Forest) : s.WalksEnd where
  descent := h.wellFounded
  ascent := h.ancestor?_size
  below_eq := h.below_eq
  markup_eq := h.markup_eq
  html_eq := rfl
  textContent_eq := h.textContent_eq
  hearing_eq := h.hearing_eq

/-- What calls make of an empty surface is a forest, if no node is put into itself or under a node
within it. Walks over it come to an end, and a search examines the nodes under the root, each once
and in document order, up to the first one wanted. -/
theorem forest_of_calls (calls : List GuestCall) (h : GuestCall.AllSound empty calls) :
    let s := calls.foldl GuestCall.perform empty
    s.Forest ∧ s.WalksEnd ∧
    (s.below root).Nodup ∧
    (∀ id, id ∈ s.below root ↔ ∃ steps, s.ancestor? steps id = some root) ∧
    ∀ name value, let wanted := fun id => decide (s.attribute? id name = some value)
      s.find? name value = (s.below root).find? wanted ∧
      s.Searches wanted [root]
        ((s.below root).takeWhile (!wanted ·) ++ (s.find? name value).toList)
        (s.find? name value) := by
  intro s
  have hs : s.Forest := Forest.empty.performAll h
  refine ⟨hs, hs.walksEnd, hs.nodup_below root, fun id => hs.mem_below, fun name value => ?_⟩
  intro wanted
  have hfind := hs.find?_eq name value
  refine ⟨hfind, ?_⟩
  have hsearch := hs.searches wanted [root]
  rw [List.flatMap_singleton] at hsearch
  rw [hfind]
  exact hsearch

/-- A node is moved in front of itself and then, with what is under it, into its sibling. -/
theorem forest_of_calls_moving :
    let calls : List GuestCall := [.createElement "p", .createText "a", .createElement "div",
      .setAttribute 3 "id" "x", .insert root 1 none, .insert 1 2 none, .insert root 3 (some 1),
      .insert root 1 (some 1), .remove 3 2, .insert 3 1 (some 2)]
    GuestCall.AllSound empty calls ∧
      let s := calls.foldl GuestCall.perform empty
      s.Forest ∧ s.below root = [root, 3, 1, 2] ∧ s.find? "id" "x" = some 3 := by
  intro calls
  have hsound : GuestCall.AllSound empty calls := by
    refine ⟨trivial, trivial, trivial, trivial, ⟨by decide, by decide, ?_⟩,
      ⟨by decide, by decide, ?_⟩, ⟨by decide, by decide, ?_⟩, ⟨by decide, by decide, ?_⟩, trivial,
      ⟨by decide, by decide, ?_⟩, trivial⟩
    all_goals exact ancestor?_ne_of_ends 2 rfl (by decide)
  exact ⟨hsound, (forest_of_calls calls hsound).1, by decide +kernel, by decide +kernel⟩

end ReactiveView.Surface
