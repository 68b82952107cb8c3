import Mathlib.Data.List.Nodup
import Mathlib.Data.List.TakeWhile
import ReactiveView.Proofs.Tree.Exchange
import ReactiveView.Proofs.Tree.Links
import ReactiveView.Tree.Reconcile

namespace ReactiveView

theorem sublist_of_idxOf_lt {items l : List NodeId} (hm : ∀ x ∈ items, x ∈ l)
    (h : items.Pairwise fun a b => l.idxOf a < l.idxOf b) : items.Sublist l := by
  induction l generalizing items with
  | nil =>
    have : items = [] := List.eq_nil_iff_forall_not_mem.mpr fun x hx => by simpa using hm x hx
    simp [this]
  | cons a l ih =>
    -- Items that do not name the head of the list are found in the rest of it.
    have drop : ∀ xs : List NodeId, (∀ x ∈ xs, x ∈ a :: l) → a ∉ xs →
        xs.Pairwise (fun b c => (a :: l).idxOf b < (a :: l).idxOf c) → xs.Sublist l := by
      intro xs hxs ha hx
      have hne : ∀ x ∈ xs, x ≠ a := fun x hx' he => ha (he ▸ hx')
      apply ih (fun x hx' => (List.mem_cons.mp (hxs x hx')).resolve_left (hne x hx'))
      refine hx.imp_of_mem fun {b c} hb hc hlt => ?_
      rw [List.idxOf_cons_ne _ (hne b hb).symm, List.idxOf_cons_ne _ (hne c hc).symm] at hlt
      exact Nat.lt_of_succ_lt_succ hlt
    cases items with
    | nil => simp
    | cons b rest =>
      have hp := List.pairwise_cons.mp h
      have hrest : a ∉ rest := fun ha => by
        have := hp.1 a ha
        simp at this
      by_cases hb : b = a
      · subst hb
        exact (drop rest (fun x hx => hm x (by simp [hx])) hrest hp.2).cons_cons b
      · refine (drop (b :: rest) hm ?_ h).cons a
        simp [Ne.symm hb, hrest]

def settle : List (NodeId × Bool) → List NodeId → List NodeId
  | [], l => l
  | (id, stays) :: rest, l =>
    if stays then settle rest l
    else Surface.insertInto ((settle rest l).filter (· ≠ id)) id (rest.head?.map (·.1))

theorem insertInto_perm (l : List NodeId) (id : NodeId) (before : Option NodeId) :
    (Surface.insertInto l id before).Perm (id :: l) := by
  cases before with
  | none => exact List.perm_append_comm
  | some b =>
    refine List.perm_middle.trans (List.Perm.cons id ?_)
    rw [List.takeWhile_append_dropWhile]

theorem filter_ne_perm {l : List NodeId} (hn : l.Nodup) {id : NodeId} (hm : id ∈ l) :
    (id :: l.filter (· ≠ id)).Perm l := by
  have h := List.perm_cons_erase hm
  rw [hn.erase_eq_filter] at h
  refine (h.trans (List.Perm.of_eq ?_)).symm
  simp only [bne, ne_eq, Bool.beq_eq_decide_eq, decide_not]

theorem insertInto_middle {front back : List NodeId} {b : NodeId} (hf : b ∉ front) (id : NodeId) :
    Surface.insertInto (front ++ b :: back) id (some b) = front ++ id :: b :: back := by
  have hne : ∀ x ∈ front, decide (x ≠ b) = true := fun x hx => by
    simpa using fun he : x = b => hf (he ▸ hx)
  rw [Surface.insertInto, List.takeWhile_append_of_pos hne, List.dropWhile_append_of_pos hne]
  simp

theorem insertInto_of_not_mem {l : List NodeId} {b : NodeId} (hm : b ∉ l) (id : NodeId) :
    Surface.insertInto l id (some b) = l ++ [id] := by
  have hne : ∀ x ∈ l, decide (x ≠ b) = true := fun x hx => by
    simpa using fun he : x = b => hm (he ▸ hx)
  rw [Surface.insertInto, List.takeWhile_eq_self_iff.mpr hne, List.dropWhile_eq_nil_iff.mpr hne]

theorem sublist_of_middle {p q a b : List NodeId} {x : NodeId}
    (h : (p ++ x :: q).Sublist (a ++ x :: b)) (hn : (a ++ x :: b).Nodup) :
    p.Sublist a ∧ q.Sublist b := by
  have hxab : x ∉ a ++ b := (List.nodup_cons.mp (List.nodup_middle.mp hn)).1
  have hxpq : x ∉ p ++ q := (List.nodup_cons.mp (List.nodup_middle.mp (hn.sublist h))).1
  obtain ⟨l, r, he, hl, hr⟩ := List.sublist_append_iff.mp h
  obtain ⟨c, rfl, hc⟩ | ⟨c, rfl, rfl⟩ := List.append_eq_append_iff.mp he
  · cases c with
    | nil =>
      subst hc
      exact ⟨by simpa using hl, List.cons_sublist_cons.mp hr⟩
    | cons d c =>
      obtain ⟨rfl, -⟩ := List.cons.inj hc
      exact absurd (List.mem_append_left b (hl.subset (by simp))) hxab
  · cases c with
    | nil => exact ⟨by simpa using hl, List.cons_sublist_cons.mp hr⟩
    | cons d c =>
      have hd : d ≠ x := fun hd => hxpq (by simp [hd])
      obtain hr | ⟨r, hr, -⟩ := List.sublist_cons_iff.mp hr
      · exact absurd (List.mem_append_right a (hr.subset (by simp))) hxab
      · exact absurd (List.cons.inj hr).1 hd

theorem sublist_insertInto {p rest l : List NodeId} (id : NodeId) (hn : l.Nodup)
    (h : (p ++ rest).Sublist l) :
    (p ++ id :: rest).Sublist (Surface.insertInto l id rest.head?) := by
  cases rest with
  | nil =>
    rw [List.append_nil] at h
    exact h.append (List.Sublist.refl _)
  | cons b rest =>
    have hb : b ∈ l := h.subset (by simp)
    obtain ⟨front, back, rfl, hf⟩ := List.eq_append_cons_of_mem hb
    obtain ⟨h1, h2⟩ := sublist_of_middle h hn
    rw [List.head?_cons, insertInto_middle hf]
    exact h1.append ((h2.cons_cons b).cons_cons id)

/-- If those that stay are in order, the walk brings all in order. -/
theorem settle_sublist {zs : List (NodeId × Bool)} {p l : List NodeId} (hn : l.Nodup)
    (hm : ∀ z ∈ zs, z.1 ∈ l) (hz : (p ++ zs.map (·.1)).Nodup)
    (h : (p ++ (zs.filter (·.2)).map (·.1)).Sublist l) :
    (p ++ zs.map (·.1)).Sublist (settle zs l) ∧ (settle zs l).Perm l := by
  induction zs generalizing p with
  | nil => exact ⟨h, List.Perm.refl l⟩
  | cons z rest ih =>
    obtain ⟨id, stays⟩ := z
    have hm' : ∀ z ∈ rest, z.1 ∈ l := fun z hz => hm z (by simp [hz])
    cases stays with
    | true =>
      have := ih (p := p ++ [id]) hm' (by simpa using hz) (by simpa using h)
      simpa [settle] using this
    | false =>
      obtain ⟨hsub, hperm⟩ := ih (p := p) hm'
        (hz.sublist (by simp)) (by simpa using h)
      have hns := hperm.nodup_iff.mpr hn
      have hid : id ∉ p ++ rest.map (·.1) := (List.nodup_cons.mp (List.nodup_middle.mp hz)).1
      have hsub' : (p ++ rest.map (·.1)).Sublist ((settle rest l).filter (· ≠ id)) := by
        have hf := hsub.filter (· ≠ id)
        rwa [List.filter_eq_self.mpr] at hf
        intro x hx
        simpa using fun he : x = id => hid (he ▸ hx)
      constructor
      · have hinsert := sublist_insertInto id (hns.filter _) hsub'
        simpa [settle] using hinsert
      · have hmem : id ∈ settle rest l := hperm.mem_iff.mpr (hm (id, false) (by simp))
        simp only [settle, Bool.false_eq_true, if_false]
        exact ((insertInto_perm _ _ _).trans (filter_ne_perm hns hmem)).trans hperm

theorem filter_insertInto {guest : NodeId → Bool} {id : NodeId} (l : List NodeId)
    {before : Option NodeId} (hid : guest id = false) (hb : ∀ b ∈ before, guest b = false) :
    (Surface.insertInto l id before).filter (!guest ·) =
      Surface.insertInto (l.filter (!guest ·)) id before := by
  cases before with
  | none => simp [Surface.insertInto, hid]
  | some b =>
    have hgb : guest b = false := hb b rfl
    by_cases hm : b ∈ l
    · obtain ⟨front, back, rfl, hf⟩ := List.eq_append_cons_of_mem hm
      have hf' : b ∉ front.filter (!guest ·) := fun h => hf (List.mem_of_mem_filter h)
      rw [insertInto_middle hf, List.filter_append, List.filter_append,
        List.filter_cons_of_pos (by simp [hid]), List.filter_cons_of_pos (by simp [hgb]),
        insertInto_middle hf']
    · have hm' : b ∉ l.filter (!guest ·) := fun h => hm (List.mem_of_mem_filter h)
      rw [insertInto_of_not_mem hm, insertInto_of_not_mem hm', List.filter_append]
      simp [hid]

theorem filter_settle {guest : NodeId → Bool} {zs : List (NodeId × Bool)} (l : List NodeId)
    (hg : ∀ z ∈ zs, guest z.1 = false) :
    (settle zs l).filter (!guest ·) = settle zs (l.filter (!guest ·)) := by
  induction zs with
  | nil => rfl
  | cons z rest ih =>
    obtain ⟨id, stays⟩ := z
    have hrest := ih fun z hz => hg z (by simp [hz])
    cases stays with
    | true => simpa [settle] using hrest
    | false =>
      have hb : ∀ b ∈ rest.head?.map (·.1), guest b = false := by
        intro b hb
        obtain ⟨z, hz, rfl⟩ := Option.map_eq_some_iff.mp hb
        exact hg z (by simp [List.mem_of_mem_head? hz])
      simp only [settle, Bool.false_eq_true, if_false]
      rw [filter_insertInto _ (hg (id, false) (by simp)) hb, List.filter_filter, ← hrest,
        List.filter_filter]
      simp only [Bool.and_comm]

namespace Surface

variable {s : Surface} {parent : NodeId} {before after : List NodeId} {guest : NodeId → Bool}

/-- The walk over the children wanted, each with whether it stays. It goes from the last one to the
first and moves each that does not stay in front of the one behind it. -/
def settle (parent : NodeId) : List (NodeId × Bool) → Surface → Surface
  | [], s => s
  | (id, stays) :: rest, s =>
    if stays then s.settle parent rest
    else (s.settle parent rest).insertBefore parent id (rest.head?.map (·.1))

theorem foldr_eq_settle (zs : List (NodeId × Bool)) :
    zs.foldr (fun (id, stays) (anchor, s) =>
      (some id, if stays then s else s.insertBefore parent id anchor)) (none, s) =
      (zs.head?.map (·.1), s.settle parent zs) := by
  induction zs with
  | nil => rfl
  | cons z rest ih => rw [List.foldr_cons, ih]; rfl

theorem node?_settle {zs : List (NodeId × Bool)} (hpar : ∀ z ∈ zs, s.parent? z.1 = some parent)
    (hne : ∀ z ∈ zs, parent ≠ z.1) (i : NodeId) :
    (s.settle parent zs).node? i =
      if i = parent then
        (s.node? parent).map fun n => { n with children := ReactiveView.settle zs n.children }
      else s.node? i := by
  induction zs generalizing i with
  | nil =>
    by_cases h : i = parent
    · subst h; simp [ReactiveView.settle, settle]
    · simp [h, settle]
  | cons z rest ih =>
    obtain ⟨id, stays⟩ := z
    have ih := ih (fun z hz => hpar z (by simp [hz])) fun z hz => hne z (by simp [hz])
    cases stays with
    | true => simpa [ReactiveView.settle, settle] using ih i
    | false =>
      have hid : parent ≠ id := hne (id, false) (by simp)
      have hp : (s.settle parent rest).parent? id = some parent := by
        rw [parent?, ih, if_neg (Ne.symm hid)]
        exact hpar (id, false) (by simp)
      simp only [settle, Bool.false_eq_true, if_false]
      rw [node?_insertBefore _ _ _ _ _ hp hid, ih parent, if_pos rfl]
      by_cases h : i = parent
      · simp [h, ReactiveView.settle, Function.comp_def]
      · rw [if_neg h, if_neg h, ih i, if_neg h]

theorem size_settle (zs : List (NodeId × Bool)) :
    (s.settle parent zs).nodes.size = s.nodes.size := by
  induction zs with
  | nil => rfl
  | cons z rest ih =>
    obtain ⟨id, stays⟩ := z
    cases stays <;> simpa [settle] using ih

/-- The order in which matching leaves the children: those that stay in their old order, and the new
ones behind them in the order wanted. -/
def matched (before after : List NodeId) : List NodeId :=
  before.filter (· ∈ after) ++ after.filter (· ∉ before)

theorem exchange_before (before after : List NodeId) :
    exchange before after before = matched before after := by
  rw [exchange, matched, List.filter_congr fun id hm => ?_]
  simp [hm]

theorem matched_perm (hb : before.Nodup) (ha : after.Nodup) : (matched before after).Perm after := by
  have hd : (before.filter (· ∈ after)).Disjoint (after.filter (· ∉ before)) := by
    intro id h h'
    simp only [List.mem_filter, decide_eq_true_eq] at h h'
    exact h'.2 h.1
  refine (List.perm_ext_iff_of_nodup ?_ ha).mpr fun id => ?_
  · exact List.nodup_append'.mpr ⟨hb.filter _, ha.filter _, hd⟩
  · by_cases h : id ∈ before <;> simp [matched, h]

theorem mapM_idxOf? {current : List NodeId} (h : ∀ id ∈ after, id ∈ current) :
    (after.mapM fun id => current.idxOf? id) = some (after.map fun id => current.idxOf id) := by
  induction after with
  | nil => rfl
  | cons id rest ih =>
    have hid : current.idxOf? id = some (current.idxOf id) := by
      obtain ⟨k, hk⟩ := Option.isSome_iff_exists.mp (List.isSome_idxOf?.mpr (h id (by simp)))
      rw [List.idxOf_eq_getD_idxOf?, hk, Option.getD_some]
    rw [List.mapM_cons, ih fun i hi => h i (by simp [hi]), hid]
    rfl

theorem sublist_of_mask {current : List NodeId} (h : ∀ id ∈ after, id ∈ current) :
    (((after.zip (Increasing.mask (after.map fun id => current.idxOf id))).filter (·.2)).map
      (·.1)).Sublist current := by
  refine sublist_of_idxOf_lt (fun id hm => ?_) (Increasing.pairwise_selected after _)
  obtain ⟨z, hz, rfl⟩ := List.mem_map.mp hm
  exact h _ (List.of_mem_zip (List.mem_of_mem_filter hz)).1

def plan (current after : List NodeId) : List (NodeId × Bool) :=
  after.zip (Increasing.mask (after.map fun id => current.idxOf id))

theorem map_fst_plan (current after : List NodeId) : (plan current after).map (·.1) = after :=
  List.map_fst_zip (by simp [Increasing.length_mask])

theorem mem_of_mem_plan {current : List NodeId} {z : NodeId × Bool} (h : z ∈ plan current after) :
    z.1 ∈ after := by
  rw [← map_fst_plan current after]
  exact List.mem_map_of_mem h

theorem settle_plan {current : List NodeId} (hp : current.Perm after) (ha : after.Nodup) :
    ReactiveView.settle (plan current after) current = after := by
  have hmem : ∀ id ∈ after, id ∈ current := fun id hm => hp.mem_iff.mpr hm
  obtain ⟨h1, h2⟩ := settle_sublist (p := []) (hp.nodup_iff.mpr ha)
    (fun z hm => hmem _ (mem_of_mem_plan hm)) (by rwa [List.nil_append, map_fst_plan])
    (sublist_of_mask hmem)
  rw [List.nil_append, map_fst_plan] at h1
  exact (h1.eq_of_length (h2.trans hp).length_eq.symm).symm

theorem arrange_eq (hb : before.Nodup) (ha : after.Nodup) : s.arrange parent before after =
    if matched before after = after then s
    else s.settle parent (plan (matched before after) after) := by
  have hmem := fun id hm => (matched_perm hb ha).mem_iff.mpr (show id ∈ after from hm)
  simp only [matched] at hmem
  simp only [arrange, mapM_idxOf? hmem, foldr_eq_settle]
  rfl

structure Arranged (guest : NodeId → Bool) (parent : NodeId) (after : List NodeId)
    (s s' : Surface) : Prop where
  size_eq : s'.nodes.size = s.nodes.size
  frame : ∀ i, i ≠ parent → s'.node? i = s.node? i
  node?_parent : ∀ n, s.node? parent = some n → ∃ children,
    s'.node? parent = some { n with children := children } ∧ children.filter (!guest ·) = after

/-- Children that stand as an exchange leaves them are put in the order wanted. -/
theorem arranged_arrange (hb : before.Nodup) (ha : after.Nodup)
    (hpar : ∀ id ∈ after, s.parent? id = some parent) (hne : parent ∉ after)
    (hg : ∀ id ∈ after, guest id = false)
    (hc : ∀ n, s.node? parent = some n →
      n.children.filter (!guest ·) = exchange before after before) :
    Arranged guest parent after s (s.arrange parent before after) := by
  rw [exchange_before] at hc
  have hperm := matched_perm hb ha
  rw [arrange_eq hb ha]
  generalize matched before after = current at hc hperm
  by_cases heq : current = after
  · rw [if_pos heq]
    exact ⟨rfl, fun _ _ => rfl, fun n hn => ⟨n.children, hn, (hc n hn).trans heq⟩⟩
  rw [if_neg heq]
  have hz : ∀ z ∈ plan current after, z.1 ∈ after := fun z hm => mem_of_mem_plan hm
  have hnode := node?_settle (fun z hm => hpar _ (hz z hm)) fun z hm he => hne (he ▸ hz z hm)
  refine ⟨size_settle _, fun i hi => ?_,
    fun n hn => ⟨ReactiveView.settle (plan current after) n.children, ?_, ?_⟩⟩
  · rw [hnode, if_neg hi]
  · rw [hnode, if_pos rfl, hn, Option.map_some]
  · rw [filter_settle _ fun z hm => hg _ (hz z hm), hc n hn, settle_plan hperm ha]

end Surface

end ReactiveView
