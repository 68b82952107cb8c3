import ReactiveView.Proofs.Tree.Increasing

namespace ReactiveView.Increasing

variable {ns : List Nat} {n : Nat} {r : Run} {rs : List Run}

/-- Halving finds where a test begins to fail if it fails from there on. -/
theorem search_eq {p : Nat → Bool} {low high point : Nat} (hl : low ≤ point) (hh : point ≤ high)
    (hp : ∀ k, low ≤ k → k < point → p k = true)
    (hn : ∀ k, point ≤ k → k < high → p k = false) : search p low high = point := by
  induction low, high using search.induct p with
  | case1 low high hlt middle hm ih =>
    have hpoint : middle < point := by
      refine Nat.lt_of_not_le fun hle => ?_
      rw [hn middle hle (by omega)] at hm
      cases hm
    rw [search, if_pos hlt]
    exact (if_pos hm).trans (ih hpoint hh (fun k hk => hp k (by omega)) hn)
  | case2 low high hlt middle hm ih =>
    have hpoint : point ≤ middle := Nat.le_of_not_lt fun hlt' => hm (hp middle (by omega) hlt')
    rw [search, if_pos hlt]
    exact (if_neg hm).trans (ih hl hpoint hp fun k hk hk' => hn k hk (by omega))
  | case3 low high hlt =>
    rw [search, if_neg hlt]
    omega

def Run.stop? (r : Run) : Option Nat := r.head?.map (·.2)

/-- The links lead through a run. -/
def Run.Linked (prev : List (Option Nat)) : Run → Prop
  | [] => True
  | (_, i) :: rest => prev[i]? = some (Run.stop? rest) ∧ Run.Linked prev rest

/-- The positions that are kept are those where runs end, and the links lead through these. -/
structure Links.Traces (s : Links) (rs : List Run) : Prop where
  tails : s.tails.map some = rs.map Run.stop?
  linked : ∀ r ∈ rs, r.Linked s.prev

theorem Run.Linked.append {prev : List (Option Nat)} (h : r.Linked prev) (more : List (Option Nat)) :
    r.Linked (prev ++ more) := by
  induction r with
  | nil => trivial
  | cons a rest ih =>
    obtain ⟨hi, hrest⟩ := h
    refine ⟨?_, ih hrest⟩
    rw [List.getElem?_append_left (List.getElem?_eq_some_iff.mp hi).1, hi]

theorem linked_getLast {prev : List (Option Nat)} (h : ∀ r ∈ rs, r.Linked prev) :
    (rs.getLast?.getD []).Linked prev := by
  cases hl : rs.getLast? with
  | none => trivial
  | some r => exact h r (List.mem_of_getLast? hl)

theorem stop?_getLast {tails : List Nat} (h : tails.map some = rs.map Run.stop?) :
    (rs.getLast?.getD []).stop? = tails.getLast? := by
  have hlast := congrArg List.getLast? h
  rw [List.getLast?_map, List.getLast?_map] at hlast
  cases hr : rs.getLast? with
  | none =>
    rw [hr, Option.map_none, Option.map_eq_none_iff] at hlast
    rw [hlast]
    rfl
  | some r =>
    rw [hr, Option.map_some, Option.map_eq_some_iff] at hlast
    obtain ⟨t, ht, hstop⟩ := hlast
    rw [ht]
    exact hstop.symm

namespace Links

variable {s : Links}

theorem Traces.below_eq {k : Nat} (h : s.Traces rs) (hns : ∀ a ∈ r, ns[a.2]? = some a.1)
    (hk : rs[k]? = some r) (n : Nat) :
    (s.tails[k]?.bind (ns[·]?)).any (· < n) = endsBelow n r := by
  have htails := congrArg (·[k]?) h.tails
  simp only [List.getElem?_map, hk, Option.map_some, Option.map_eq_some_iff] at htails
  obtain ⟨t, ht, hstop⟩ := htails
  cases r with
  | nil => cases hstop
  | cons a rest =>
    cases hstop
    rw [ht, Option.bind_some, hns a List.mem_cons_self]
    rfl

theorem Traces.slot_eq {below rest : List Run} (h : s.Traces (below ++ rest))
    (hns : ∀ r ∈ below ++ rest, ∀ a ∈ r, ns[a.2]? = some a.1)
    (hb : ∀ r ∈ below, endsBelow n r = true) (hr : ∀ r ∈ rest, endsBelow n r = false) :
    s.slot ns n = below.length := by
  have hlen : s.tails.length = below.length + rest.length := by
    simpa using congrArg List.length h.tails
  refine search_eq (Nat.zero_le _) (by omega) (fun k _ hk => ?_) fun k hk hk' => ?_
  · have hmem := List.getElem_mem hk
    rw [h.below_eq (hns _ (List.mem_append_left _ hmem))
      (by rw [List.getElem?_append_left hk, List.getElem?_eq_getElem hk]), hb _ hmem]
  · have hlt : k - below.length < rest.length := by omega
    have hmem := List.getElem_mem hlt
    rw [h.below_eq (hns _ (List.mem_append_right _ hmem))
      (by rw [List.getElem?_append_right hk, List.getElem?_eq_getElem hlt]), hr _ hmem]

theorem Traces.extend {read : List Nat} (h : s.Traces rs) (hbest : Best read rs)
    (hns : ∀ r ∈ rs, ∀ a ∈ r, ns[a.2]? = some a.1) (n : Nat) :
    (s.extend ns n).Traces (Increasing.extend rs (n, s.prev.length)) := by
  obtain ⟨below, rest, rfl, hb, hr⟩ := hbest.exists_split n
  obtain ⟨front, back, htails, hfront, hback⟩ :=
    List.map_eq_append_iff.mp (h.tails.trans List.map_append)
  have hslot : s.slot ns n = front.length := by
    rw [h.slot_eq hns hb hr]
    simpa using (congrArg List.length hfront).symm
  have htails' : (s.extend ns n).tails = front ++ s.prev.length :: back.tail := by
    simp only [Links.extend, hslot, htails]
    cases back <;> simp
  have hprev : (s.extend ns n).prev = s.prev ++ [front.getLast?] := by
    simp only [Links.extend, hslot, htails]
    cases front with
    | nil => rfl
    | cons t front =>
      rw [if_neg (by simp), List.getLast?_eq_getElem?, List.getElem?_append_left (by simp)]
  rw [extend_append hb hr]
  constructor
  · rw [htails', List.map_append, List.map_append, hfront, List.map_cons, List.map_cons,
      List.map_tail, List.map_tail, hback]
    rfl
  · rw [hprev]
    intro r hm
    simp only [List.mem_append, List.mem_cons] at hm
    obtain hm | rfl | hm := hm
    · exact (h.linked r (List.mem_append_left _ hm)).append _
    · -- The new item is linked with the end of the last of the runs below it.
      refine ⟨by rw [stop?_getLast hfront, List.getElem?_concat_length], ?_⟩
      exact (linked_getLast fun r hr => h.linked r (List.mem_append_left _ hr)).append _
    · exact (h.linked r (List.mem_append_right _ (List.mem_of_mem_tail hm))).append _

theorem traces_foldl {read : List Nat} (h : read <+: ns) :
    (read.foldl (Links.extend ns) .empty).Traces (runs read) ∧
      (read.foldl (Links.extend ns) .empty).prev.length = read.length := by
  induction read using List.reverseRecOn with
  | nil => exact ⟨⟨rfl, fun r hr => absurd hr List.not_mem_nil⟩, rfl⟩
  | append_singleton read n ih =>
    have hread := (List.prefix_append read [n]).trans h
    obtain ⟨htraces, hlen⟩ := ih hread
    have hns : ∀ r ∈ runs read, ∀ a ∈ r, ns[a.2]? = some a.1 := by
      intro r hr a ha
      obtain ⟨more, rfl⟩ := hread
      exact (((of_mem_runs hr).append more).item a ha).1
    rw [List.foldl_append, runs_concat, ← hlen]
    refine ⟨htraces.extend (best_runs read) hns n, ?_⟩
    rw [List.length_append, ← hlen]
    exact List.length_append

theorem mark_eq (hr : r.Linked s.prev) {i : Nat} (hi : r.stop? = some i) (keep : List Bool) :
    s.mark i keep = r.foldl (fun keep a => keep.set a.2 true) keep := by
  induction r generalizing i keep with
  | nil => cases hi
  | cons a rest ih =>
    cases hi
    obtain ⟨hprev, hrest⟩ := hr
    rw [mark, List.foldl_cons]
    split
    · rename_i j hj
      rw [hprev, Option.some.injEq] at hj
      exact ih hrest hj _
    · rename_i hnone
      cases rest with
      | nil => rfl
      | cons b rest => exact absurd hprev (hnone _)

end Links

theorem getElem?_foldl_set (r : Run) (keep : List Bool) (i : Nat) :
    (r.foldl (fun keep a => keep.set a.2 true) keep)[i]? =
      keep[i]?.map (· || (r.map (·.2)).contains i) := by
  induction r generalizing keep with
  | nil => simp
  | cons a rest ih =>
    rw [List.foldl_cons, ih, List.getElem?_set]
    by_cases hi : a.2 = i
    · subst hi
      by_cases hlt : a.2 < keep.length <;> simp [hlt]
    · have hc : ((a :: rest).map (·.2)).contains i = (rest.map (·.2)).contains i := by
        simp [Ne.symm hi]
      rw [if_neg hi, hc]

theorem mask_eq_foldl (ns : List Nat) : mask ns =
    ((runs ns).getLast?.getD []).foldl (fun keep a => keep.set a.2 true)
      (List.replicate ns.length false) := by
  obtain ⟨htraces, -⟩ := Links.traces_foldl (List.prefix_refl ns)
  have hstop : ((runs ns).getLast?.getD []).stop? = (links ns).tails.getLast? :=
    stop?_getLast htraces.tails
  unfold mask
  split
  · rename_i i hi
    exact Links.mark_eq (linked_getLast htraces.linked) (hstop.trans hi) _
  · rename_i hnone
    rw [hnone, Run.stop?, Option.map_eq_none_iff, List.head?_eq_none_iff] at hstop
    rw [hstop]
    rfl

theorem mask_eq (ns : List Nat) :
    mask ns = (List.range ns.length).map fun i => (indices ns).contains i := by
  refine List.ext_getElem? fun i => ?_
  rw [mask_eq_foldl, getElem?_foldl_set, ← indices, List.getElem?_map, List.getElem?_replicate]
  by_cases hi : i < ns.length
  · rw [if_pos hi, List.getElem?_range hi, Option.map_some, Option.map_some, Bool.false_or]
  · rw [if_neg hi, List.getElem?_eq_none (by simpa using hi), Option.map_none, Option.map_none]

theorem length_mask (ns : List Nat) : (mask ns).length = ns.length := by simp [mask_eq]

theorem getElem_mask {i : Nat} (h : i < (mask ns).length) :
    (mask ns)[i] = true ↔ i ∈ indices ns := by
  simp [mask_eq]

theorem count_mask (ns : List Nat) :
    (mask ns).count true = ((runs ns).getLast?.getD []).length := by
  have hr := of_last ns
  have hn : (indices ns).Nodup :=
    List.pairwise_map.mpr (hr.decreases.imp fun h => Nat.ne_of_gt h.2)
  have hlt : ∀ i ∈ indices ns, i < ns.length := by
    intro i hi
    obtain ⟨a, ha, rfl⟩ := List.mem_map.mp hi
    exact (hr.item a ha).2
  have hp : ((List.range ns.length).filter ((indices ns).contains ·)).Perm (indices ns) := by
    refine (List.perm_ext_iff_of_nodup (List.nodup_range.filter _) hn).mpr fun i => ?_
    simpa using hlt i
  rw [← List.length_map (f := (·.2)), ← indices, ← hp.length_eq, mask_eq, List.count,
    List.countP_map, List.countP_eq_length_filter]
  simp [Function.comp_def]

section Selected

variable {α : Type} (xs : List α) (f : α → Nat)

theorem pairwise_selected : (((xs.zip (mask (xs.map f))).filter (·.2)).map (·.1)).Pairwise
    fun a b => f a < f b := by
  refine List.pairwise_map.mpr (List.pairwise_filter.mpr (List.pairwise_iff_getElem.mpr ?_))
  intro i j hi hj hij h1 h2
  simp only [List.getElem_zip, getElem_mask] at h1 h2
  obtain ⟨v, w, hv, hw, hvw⟩ := lt_of_mem_indices h1 h2 hij
  rw [List.length_zip, Nat.lt_min] at hi hj
  rw [List.getElem?_map, List.getElem?_eq_getElem hi.1, Option.map_some, Option.some.injEq] at hv
  rw [List.getElem?_map, List.getElem?_eq_getElem hj.1, Option.map_some, Option.some.injEq] at hw
  simp only [List.getElem_zip]
  rw [hv, hw]
  exact hvw

theorem countP_selected :
    (xs.zip (mask (xs.map f))).countP (·.2) = (mask (xs.map f)).count true := by
  have hm : (xs.zip (mask (xs.map f))).map (·.2) = mask (xs.map f) :=
    List.map_snd_zip (by simp [length_mask])
  rw [← hm, List.count, List.countP_map, hm]
  simp [Function.comp_def]

end Selected

/-- The marks select a longest of the increasing runs, and there is one for each item. -/
theorem isLongest_selected (ns : List Nat) : (mask ns).length = ns.length ∧
    IsLongest (((ns.zip (mask ns)).filter (·.2)).map (·.1)) ns := by
  have hincreasing := pairwise_selected ns id
  have hcount := countP_selected ns id
  rw [List.map_id] at hincreasing hcount
  refine ⟨length_mask ns, ?_, hincreasing, fun other hs hi => ?_⟩
  · have hall : (ns.zip (mask ns)).map (·.1) = ns := List.map_fst_zip (by simp [length_mask])
    have hsub := (List.filter_sublist (p := (·.2)) (l := ns.zip (mask ns))).map (·.1)
    rwa [hall] at hsub
  · have hlongest := (isLongest_runs ns).longest other hs hi
    rw [List.length_reverse, List.length_map] at hlongest
    rwa [List.length_map, ← List.countP_eq_length_filter, hcount, count_mask]

/-- Of numbers that are equal at most one is on a run. -/
example : mask [2, 2, 5, 3, 3, 4, 1, 7] =
    [false, true, false, false, true, true, false, true] := by decide +kernel

end ReactiveView.Increasing
