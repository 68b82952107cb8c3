import Mathlib.Data.List.Perm.Subperm
import ReactiveView.Proofs.Tree.Calls

namespace ReactiveView.Surface

variable {s : Surface} {parent : NodeId} {before after current : List NodeId}

theorem children_settle {zs : List (NodeId × Bool)} (hlt : parent < s.nodes.size)
    (hpar : ∀ z ∈ zs, s.parent? z.1 = some parent) :
    (s.settle parent zs).children parent = ReactiveView.settle zs (s.children parent) ∧
      ∀ i, (s.settle parent zs).parent? i = s.parent? i := by
  induction zs with
  | nil => exact ⟨rfl, fun _ => rfl⟩
  | cons z rest ih =>
    obtain ⟨id, stays⟩ := z
    obtain ⟨hch, hp⟩ := ih fun z hz => hpar z (by simp [hz])
    cases stays with
    | true => simpa [settle, ReactiveView.settle] using ⟨hch, hp⟩
    | false =>
      have hid : (s.settle parent rest).parent? id = some parent := by
        rw [hp]
        exact hpar (id, false) (by simp)
      have hidlt : id < s.nodes.size := by
        obtain ⟨n, hn, -⟩ := Option.bind_eq_some_iff.mp (hpar (id, false) (by simp))
        exact s.node?_eq_some_lt id hn
      simp only [settle, ReactiveView.settle, Bool.false_eq_true, if_false]
      refine ⟨?_, fun i => ?_⟩
      · rw [children_insertBefore, size_settle, if_pos ⟨rfl, hlt⟩, children_detach, if_pos hid, hch]
      · rw [parent?_insertBefore, size_settle, parent?_detach]
        by_cases hi : i = id
        · rw [if_pos ⟨hi, hidlt⟩, hi, hpar (id, false) (by simp)]
        · rw [if_neg fun h => hi h.1, if_neg hi, hp]

theorem length_insertions_plan (parent : NodeId) (current after : List NodeId) :
    ∃ run, Increasing.IsLongest run (after.map fun id => current.idxOf id) ∧
      (insertions parent (plan current after)).length + run.length = after.length := by
  refine ⟨_, Increasing.isLongest_runs _, ?_⟩
  have hl : (plan current after).length = after.length := by
    rw [← List.length_map (f := (·.1)), map_fst_plan]
  have hc : (plan current after).countP (·.2) =
      (Increasing.mask (after.map fun id => current.idxOf id)).count true :=
    Increasing.countP_selected after _
  have h := length_insertions parent (plan current after)
  rw [hc, Increasing.count_mask, hl] at h
  simpa using h

theorem filter_insertInto_of_mem {moved : List NodeId} {child : NodeId} (hm : child ∈ moved)
    (l : List NodeId) (anchor : Option NodeId) :
    (insertInto l child anchor).filter (· ∉ moved) = l.filter (· ∉ moved) := by
  cases anchor with
  | none => simp [insertInto, hm]
  | some b =>
    rw [insertInto, List.filter_append, List.filter_cons_of_neg (by simpa using hm),
      ← List.filter_append, List.takeWhile_append_dropWhile]

theorem filter_children_insertBefore {moved : List NodeId} {child : NodeId} (hm : child ∈ moved)
    (s : Surface) (parent other : NodeId) (anchor : Option NodeId) :
    ((s.insertBefore parent child anchor).children other).filter (· ∉ moved) =
      (s.children other).filter (· ∉ moved) := by
  have hdetach : ((s.detach child).children other).filter (· ∉ moved) =
      (s.children other).filter (· ∉ moved) := by
    rw [children_detach]
    split
    · rw [List.filter_filter]
      refine List.filter_congr fun id _ => ?_
      by_cases hid : id = child <;> simp [hid, hm]
    · rfl
  rw [children_insertBefore]
  split
  · rename_i h
    obtain ⟨rfl, -⟩ := h
    rw [filter_insertInto_of_mem hm, hdetach]
  · exact hdetach

theorem filter_children_performAll {moved : List NodeId} {calls : List Op}
    (hc : ∀ op ∈ calls, ∃ parent, ∃ child ∈ moved, ∃ anchor, op = .insert parent child anchor)
    (s : Surface) (other : NodeId) :
    ((s.performAll calls).children other).filter (· ∉ moved) =
      (s.children other).filter (· ∉ moved) := by
  induction calls generalizing s with
  | nil => rfl
  | cons op rest ih =>
    obtain ⟨parent, child, hm, anchor, rfl⟩ := hc op (by simp)
    have h := ih (fun op hop => hc op (by simp [hop])) (s.insertBefore parent child anchor)
    exact h.trans (filter_children_insertBefore hm s parent other anchor)

theorem pairwise_idxOf {items l : List NodeId} (hn : l.Nodup) (h : items.Sublist l) :
    items.Pairwise fun a b => l.idxOf a < l.idxOf b := by
  refine List.Pairwise.sublist h (List.pairwise_iff_getElem.mpr fun i j hi hj hij => ?_)
  rwa [hn.idxOf_getElem i hi, hn.idxOf_getElem j hj]

/-- Insertions that lead from one order to another are at least as many as there are children
outside of a longest run. -/
theorem length_le_of_performAll {calls : List Op} {run : List Nat} (hn : (s.children parent).Nodup)
    (ha : after.Nodup)
    (hrun : Increasing.IsLongest run (after.map fun id => (s.children parent).idxOf id))
    (hc : ∀ op ∈ calls, ∃ parent child anchor, op = .insert parent child anchor)
    (hs : (s.performAll calls).children parent = after) :
    after.length ≤ calls.length + run.length := by
  generalize hmoved : calls.filterMap Op.inserted? = moved
  have hkept : after.filter (· ∉ moved) = (s.children parent).filter (· ∉ moved) := by
    rw [← hs]
    refine filter_children_performAll (fun op hop => ?_) s parent
    obtain ⟨p, child, anchor, rfl⟩ := hc op hop
    refine ⟨p, child, ?_, anchor, rfl⟩
    rw [← hmoved]
    exact List.mem_filterMap.mpr ⟨_, hop, rfl⟩
  -- The children that are not inserted stand at increasing positions.
  have hrest : (after.filter (· ∉ moved)).length ≤ run.length := by
    have h := hrun.longest ((after.filter (· ∉ moved)).map fun id => (s.children parent).idxOf id)
      (List.filter_sublist.map _) (List.pairwise_map.mpr (pairwise_idxOf hn
        (hkept ▸ List.filter_sublist)))
    rwa [List.length_map] at h
  have hmove : (after.filter (· ∈ moved)).length ≤ calls.length := by
    have hsub : after.filter (· ∈ moved) ⊆ moved := fun id hm => by
      simpa using List.of_mem_filter hm
    have h := (List.Nodup.subperm (ha.filter _) hsub).length_le
    rw [← hmoved] at h ⊢
    exact Nat.le_trans h (List.length_filterMap_le _ _)
  have hsplit := List.length_eq_length_filter_add (l := after) (· ∈ moved)
  simp only [← decide_not] at hsplit
  omega

/-- Insertions that put the children of a parent in an order, no more than any insertions of whatever
nodes under whatever parents that do so. -/
structure Fewest (s : Surface) (parent : NodeId) (after : List NodeId) (moves : List Op) : Prop where
  inserts : ∀ op ∈ moves, ∃ child anchor, op = .insert parent child anchor
  children_eq : (s.performAll moves).children parent = after
  length_le : ∀ calls : List Op,
    (∀ op ∈ calls, ∃ other child anchor, op = .insert other child anchor) →
    (s.performAll calls).children parent = after → moves.length ≤ calls.length

/-- Arranging the children that matching leaves puts them in the order wanted with the fewest
insertions. All of them have a position, and as many are inserted as a longest increasing run of the
positions leaves out. -/
theorem arrange_fewest (hb : before.Nodup) (ha : after.Nodup)
    (hc : s.children parent = matched before after)
    (hpar : ∀ id ∈ after, s.parent? id = some parent) :
    (s.arrange parent before after).children parent = after ∧
    ∃ positions run moves,
      (after.mapM fun id => (matched before after).idxOf? id) = some positions ∧
      Increasing.IsLongest run positions ∧ moves.length + run.length = after.length ∧
      s.Does moves (s.arrange parent before after) ∧ s.Fewest parent after moves := by
  have hperm := matched_perm hb ha
  have hn : (s.children parent).Nodup := hc ▸ hperm.nodup_iff.mpr ha
  have hpos := mapM_idxOf? fun id hm => hperm.mem_iff.mpr (show id ∈ after from hm)
  have hleast : ∀ {run : List Nat} {moves : List Op},
      Increasing.IsLongest run (after.map fun id => (matched before after).idxOf id) →
      moves.length + run.length = after.length →
      ∀ calls : List Op, (∀ op ∈ calls, ∃ other child anchor, op = .insert other child anchor) →
        (s.performAll calls).children parent = after → moves.length ≤ calls.length := by
    intro run moves hrun hlen calls hcalls hs
    rw [← hc] at hrun
    have := length_le_of_performAll hn ha hrun hcalls hs
    omega
  rw [arrange_eq hb ha]
  by_cases heq : matched before after = after
  · -- All positions stand in order, and nothing is inserted.
    rw [if_pos heq]
    have hrun : Increasing.IsLongest (after.map fun id => (matched before after).idxOf id)
        (after.map fun id => (matched before after).idxOf id) := by
      refine ⟨List.Sublist.refl _, ?_, fun _ h _ => h.length_le⟩
      rw [heq]
      exact List.pairwise_map.mpr (pairwise_idxOf ha (List.Sublist.refl _))
    have hlen : ([] : List Op).length +
        (after.map fun id => (matched before after).idxOf id).length = after.length := by simp
    have hs := hc.trans heq
    exact ⟨hs, _, _, [], hpos, hrun, hlen, Does.refl s, by simp, hs, hleast hrun hlen⟩
  · rw [if_neg heq]
    have hlt : parent < s.nodes.size := by
      refine Nat.lt_of_not_le fun hle => heq ?_
      have hnil := hc ▸ s.children_eq_nil parent hle
      rw [hnil] at hperm
      rw [hnil, hperm.nil_eq]
    have hs : (s.settle parent (plan (matched before after) after)).children parent = after := by
      rw [(children_settle hlt fun z hm => hpar _ (mem_of_mem_plan hm)).1, hc, settle_plan hperm ha]
    have hdoes := does_settle s parent (plan (matched before after) after)
    obtain ⟨run, hrun, hlen⟩ := length_insertions_plan parent (matched before after) after
    exact ⟨hs, _, run, _, hpos, hrun, hlen, hdoes, fun _ => eq_insert_of_mem,
      hdoes.performAll_eq ▸ hs, hleast hrun hlen⟩

def shuffled : Surface :=
  ((((VirtualTree.ofChildren (["a", "b", "c", "d"].map .ofText)).paint empty).2.removeChild root
    2).createText "e").2.append root 5

theorem arrange_fewest_shuffled :
    [1, 2, 3, 4].Nodup ∧ [4, 5, 1, 3].Nodup ∧
    shuffled.children root = matched [1, 2, 3, 4] [4, 5, 1, 3] ∧
    (∀ id ∈ [4, 5, 1, 3], shuffled.parent? id = some root) ∧
    (shuffled.arrange root [1, 2, 3, 4] [4, 5, 1, 3]).children root = [4, 5, 1, 3] ∧
    ∃ positions run moves,
      ([4, 5, 1, 3].mapM fun id => (matched [1, 2, 3, 4] [4, 5, 1, 3]).idxOf? id) = some positions ∧
      Increasing.IsLongest run positions ∧ moves.length + run.length = 4 ∧
      shuffled.Does moves (shuffled.arrange root [1, 2, 3, 4] [4, 5, 1, 3]) ∧
      shuffled.Fewest root [4, 5, 1, 3] moves :=
  have hpar : ∀ id ∈ [4, 5, 1, 3], shuffled.parent? id = some root := by
    simp only [List.forall_mem_cons]
    decide
  ⟨by decide, by decide, by decide, hpar,
    arrange_fewest (by decide) (by decide) (by decide) hpar⟩

end ReactiveView.Surface
