import ReactiveView.Proofs.Tree.Guests

namespace ReactiveView

namespace Surface

variable {s s' : Surface} {id parent child : NodeId} {steps more : Nat}

/-- The node that some steps from parent to parent lead to; no step leads to the node itself. -/
def ancestor? (s : Surface) : Nat → NodeId → Option NodeId
  | 0, id => some id
  | steps + 1, id => (s.parent? id).bind (s.ancestor? steps)

theorem ancestor?_add (s : Surface) (steps more : Nat) (id : NodeId) :
    s.ancestor? (steps + more) id = (s.ancestor? steps id).bind (s.ancestor? more) := by
  induction steps generalizing id with
  | zero => simp [ancestor?]
  | succ steps ih =>
    rw [Nat.succ_add, ancestor?, ancestor?, Option.bind_assoc]
    exact Option.bind_congr fun p _ => ih p

theorem ancestor?_succ (s : Surface) (steps : Nat) (id : NodeId) :
    s.ancestor? (steps + 1) id = (s.ancestor? steps id).bind s.parent? := by
  rw [ancestor?_add]
  refine Option.bind_congr fun p _ => ?_
  simp [ancestor?]

theorem ancestor?_eq_none_of_le (h : s.ancestor? steps id = none) (hle : steps ≤ more) :
    s.ancestor? more id = none := by
  rw [← Nat.add_sub_cancel' hle, ancestor?_add, h, Option.bind_none]

theorem ancestor?_ne_of_ends (steps : Nat) (h : s.ancestor? steps id = none)
    (hne : ∀ k < steps, s.ancestor? k id ≠ some child) (k : Nat) : s.ancestor? k id ≠ some child := by
  by_cases hk : k < steps
  · exact hne k hk
  · rw [ancestor?_eq_none_of_le h (Nat.not_lt.mp hk)]
    exact Option.some_ne_none child |>.symm

def Ends (s : Surface) (id : NodeId) : Prop := ∃ steps, s.ancestor? steps id = none

theorem Ends.of_parent? (h : ∀ p, s.parent? id = some p → s.Ends p) : s.Ends id := by
  cases hp : s.parent? id with
  | none => exact ⟨1, by rw [ancestor?, hp, Option.bind_none]⟩
  | some p =>
    obtain ⟨steps, hsteps⟩ := h p hp
    exact ⟨steps + 1, by rw [ancestor?, hp, Option.bind_some, hsteps]⟩

/-- A line that does not lead through the one node with a new parent is what it was. -/
theorem ancestor?_congr (hp : ∀ x, x ≠ child → s'.parent? x = s.parent? x) :
    ∀ {id : NodeId}, (∀ k, s.ancestor? k id ≠ some child) →
      ∀ steps, s'.ancestor? steps id = s.ancestor? steps id
  | _, _, 0 => rfl
  | id, h, steps + 1 => by
    have hid : id ≠ child := fun he => h 0 (congrArg some he)
    rw [ancestor?, ancestor?, hp id hid]
    refine Option.bind_congr fun p hpar => ancestor?_congr hp (fun k hk => h (k + 1) ?_) steps
    rw [ancestor?, Option.mem_def.mp hpar, Option.bind_some, hk]

theorem Ends.congr (hp : ∀ x, s'.parent? x = s.parent? x ∨ s'.Ends x) (h : s.Ends id) :
    s'.Ends id := by
  obtain ⟨steps, hsteps⟩ := h
  induction steps generalizing id with
  | zero => cases hsteps
  | succ steps ih =>
    obtain hid | hid := hp id
    · refine .of_parent? fun p hpar => ih ?_
      rw [hid] at hpar
      rwa [ancestor?, hpar, Option.bind_some] at hsteps
    · exact hid

theorem ancestor?_ne_none_of_cycle (hs : 0 < steps) (h : s.ancestor? steps id = some id) (k : Nat) :
    s.ancestor? k id ≠ none := by
  induction k using Nat.strongRecOn with
  | ind k ih =>
    by_cases hk : k < steps
    · intro hnone
      rw [ancestor?_eq_none_of_le hnone (Nat.le_of_lt hk)] at h
      cases h
    · rw [← Nat.add_sub_cancel' (Nat.not_lt.mp hk), ancestor?_add, h, Option.bind_some]
      exact ih _ (by omega)

/-- A surface whose nodes form a forest. Every link is kept twice, as the parent of a node and among
the children of that parent; the two agree, and no line of parents goes on forever. -/
structure Forest (s : Surface) : Prop where
  root_lt : root < s.nodes.size
  mem_children_iff : ∀ parent child, child ∈ s.children parent ↔ s.parent? child = some parent
  nodup_children : ∀ parent, (s.children parent).Nodup
  ends : ∀ id, s.Ends id

namespace Forest

theorem not_cycle (h : s.Forest) (hs : 0 < steps) : s.ancestor? steps id ≠ some id := fun hc =>
  let ⟨k, hk⟩ := h.ends id
  ancestor?_ne_none_of_cycle hs hc k hk

theorem empty : Surface.empty.Forest where
  root_lt := Nat.one_pos
  mem_children_iff := fun parent child => by
    have hc : Surface.empty.children parent = [] := by
      cases parent <;> rfl
    have hp : Surface.empty.parent? child = none := by
      cases child <;> rfl
    simp [hc, hp]
  nodup_children := fun parent => by
    cases parent <;> exact List.nodup_nil
  ends := fun id => ⟨1, by cases id <;> rfl⟩

theorem congr (h : s.Forest) (hsize : s.nodes.size ≤ s'.nodes.size)
    (hc : ∀ id, s'.children id = s.children id) (hp : ∀ id, s'.parent? id = s.parent? id) :
    s'.Forest where
  root_lt := Nat.lt_of_lt_of_le h.root_lt hsize
  mem_children_iff := fun parent child => by rw [hc, hp, h.mem_children_iff]
  nodup_children := fun parent => by
    rw [hc]
    exact h.nodup_children parent
  ends := fun id => (h.ends id).congr fun x => .inl (hp x)

theorem children_detach (h : s.Forest) (child id : NodeId) :
    (s.detach child).children id = (s.children id).filter (· ≠ child) := by
  rw [Surface.children_detach]
  split
  · rfl
  · next hne =>
    refine (List.filter_eq_self.mpr fun x hx => ?_).symm
    rw [decide_eq_true_iff]
    rintro rfl
    exact hne ((h.mem_children_iff id x).mp hx)

theorem detach (h : s.Forest) (child : NodeId) : (s.detach child).Forest where
  root_lt := by
    rw [size_detach]
    exact h.root_lt
  mem_children_iff := fun parent x => by
    rw [h.children_detach, parent?_detach, List.mem_filter, h.mem_children_iff]
    by_cases hx : x = child <;> simp [hx]
  nodup_children := fun parent => by
    rw [h.children_detach]
    exact (h.nodup_children parent).filter _
  ends := fun id => by
    refine (h.ends id).congr fun x => ?_
    rw [parent?_detach]
    split
    · next hx => exact .inr (.of_parent? fun p hpar => by simp [parent?_detach, hx] at hpar)
    · exact .inl rfl

theorem removeChild (h : s.Forest) (parent child : NodeId) : (s.removeChild parent child).Forest := by
  rw [Surface.removeChild]
  split
  · exact (h.detach child).congr (Nat.le_refl _) (fun _ => rfl) fun _ => rfl
  · exact h.congr (Nat.le_refl _) (fun _ => rfl) fun _ => rfl

theorem not_mem_children_detach (h : s.Forest) (child id : NodeId) :
    child ∉ (s.detach child).children id := by
  rw [h.children_detach, List.mem_filter]
  simp

/-- The line of the new parent does not lead through the child and is what it was, so it ends, and
all other lines are what they were until they come to the child. -/
theorem ends_insertBefore (h : s.Forest) (hc : child < s.nodes.size)
    (habove : ∀ steps, s.ancestor? steps parent ≠ some child) (before : Option NodeId) (id : NodeId) :
    (s.insertBefore parent child before).Ends id := by
  have hsame : ∀ x, x ≠ child → (s.insertBefore parent child before).parent? x = s.parent? x :=
    fun x hx => by rw [parent?_insertBefore, if_neg fun hx' => hx hx'.1, parent?_detach, if_neg hx]
  obtain ⟨steps, hsteps⟩ := h.ends parent
  have hparent : (s.insertBefore parent child before).Ends parent :=
    ⟨steps, (ancestor?_congr hsame habove steps).trans hsteps⟩
  refine (h.ends id).congr fun x => ?_
  by_cases hx : x = child
  · refine .inr (.of_parent? fun p hp => ?_)
    rw [parent?_insertBefore, if_pos ⟨hx, hc⟩] at hp
    exact Option.some.inj hp ▸ hparent
  · exact .inl (hsame x hx)

theorem insertBefore (h : s.Forest) (hp : parent < s.nodes.size) (hc : child < s.nodes.size)
    (habove : ∀ steps, s.ancestor? steps parent ≠ some child) (before : Option NodeId) :
    (s.insertBefore parent child before).Forest := by
  have hd := h.detach child
  have hnot := h.not_mem_children_detach child
  have hperm := insertInto_perm ((s.detach child).children parent) child before
  refine ⟨by rw [size_insertBefore]; exact h.root_lt, fun p x => ?_, fun p => ?_,
    h.ends_insertBefore hc habove before⟩
  · simp only [children_insertBefore, parent?_insertBefore, hp, hc, and_true]
    by_cases hx : x = child
    · subst hx
      by_cases hxp : p = parent
      · simp [hxp, hperm.mem_iff]
      · simp [hxp, hnot, Ne.symm hxp]
    · by_cases hxp : p = parent
      · simp [hxp, hx, hperm.mem_iff, hd.mem_children_iff]
      · simp [hxp, hx, hd.mem_children_iff]
  · rw [children_insertBefore]
    split
    · exact hperm.nodup_iff.mpr (List.nodup_cons.mpr ⟨hnot parent, hd.nodup_children parent⟩)
    · exact hd.nodup_children p

end Forest

end Surface

namespace GuestCall

/-- What is asked of a call. One that inserts names nodes that there are, and its child is neither
the parent nor an ancestor of the parent. -/
def Sound (s : Surface) : GuestCall → Prop
  | insert parent child _ =>
    parent < s.nodes.size ∧ child < s.nodes.size ∧ ∀ steps, s.ancestor? steps parent ≠ some child
  | _ => True

def AllSound (s : Surface) : List GuestCall → Prop
  | [] => True
  | c :: rest => c.Sound s ∧ AllSound (c.perform s) rest

end GuestCall

namespace Surface.Forest

variable {s : Surface}

theorem alloc (h : s.Forest) (kind : LiveKind) : (s.alloc kind).2.Forest := by
  have hnew := s.node?_eq_none _ (Nat.le_refl _)
  refine h.congr (by simp) (fun id => ?_) fun id => ?_
  · by_cases hid : id = s.nodes.size <;> simp [children, node?_alloc, hid, hnew]
  · by_cases hid : id = s.nodes.size <;> simp [parent?, node?_alloc, hid, hnew]

theorem note (h : s.Forest) (op : Op) : (s.note op).Forest :=
  h.congr (Nat.le_refl _) (fun _ => rfl) fun _ => rfl

theorem modify (h : s.Forest) (id : NodeId) (f : LiveNode → LiveNode)
    (hf : ∀ n, (f n).children = n.children ∧ (f n).parent = n.parent) : (s.modify id f).Forest := by
  refine h.congr (by simp) (fun x => ?_) fun x => ?_
  · simp only [children, node?_modify]
    by_cases hx : x = id
    · subst hx
      cases s.node? x <;> simp [hf]
    · simp [hx]
  · simp only [parent?, node?_modify]
    by_cases hx : x = id
    · subst hx
      cases s.node? x <;> simp [hf]
    · simp [hx]

theorem modify_attrs (h : s.Forest) (id : NodeId) (f : Dict String → Dict String) :
    (s.modify id (·.mapAttrs f)).Forest :=
  h.modify id _ fun n => by
    unfold LiveNode.mapAttrs
    split <;> exact ⟨rfl, rfl⟩

theorem modify_text (h : s.Forest) (id : NodeId) (content : String) :
    (s.modify id (·.withText content)).Forest :=
  h.modify id _ fun n => by
    unfold LiveNode.withText
    split <;> exact ⟨rfl, rfl⟩

theorem perform (h : s.Forest) {c : GuestCall} (hc : c.Sound s) : (c.perform s).Forest := by
  cases c with
  | createElement tag | createText content => exact (h.alloc _).note _
  | setAttribute id name value | removeAttribute id name => exact (h.modify_attrs id _).note _
  | setText id content => exact (h.modify_text id content).note _
  | insert parent child before =>
    obtain ⟨hp, hlt, habove⟩ := hc
    exact h.insertBefore hp hlt habove before
  | remove parent child => exact h.removeChild parent child
  | addListener id l =>
    exact (h.modify id (fun n => { n with listeners := n.listeners ++ [l] })
      fun _ => ⟨rfl, rfl⟩).note _
  | removeListener id l =>
    exact (h.modify id (fun n => { n with listeners := n.listeners.filter (· ≠ l) })
      fun _ => ⟨rfl, rfl⟩).note _

theorem performAll (h : s.Forest) {calls : List GuestCall} (hc : GuestCall.AllSound s calls) :
    (calls.foldl GuestCall.perform s).Forest := by
  induction calls generalizing s with
  | nil => exact h
  | cons c rest ih => exact ih (h.perform hc.1) hc.2

end Surface.Forest

end ReactiveView
