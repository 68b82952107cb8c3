import Mathlib.Data.List.Induction
import Mathlib.Data.List.Nodup
import ReactiveView.Tree.Increasing

namespace ReactiveView.Increasing

/-- A run, its last item first. Each item stands with its index. -/
abbrev Run := List (Nat × Nat)

def endsBelow (n : Nat) (r : Run) : Bool :=
  match r with
  | (last, _) :: _ => last < n
  | [] => true

/-- Put an item behind the longest run that ends below it, in place of the run that was one
longer. -/
def extend (runs : List Run) (item : Nat × Nat) : List Run :=
  let below := runs.takeWhile (endsBelow item.1)
  below ++ (item :: below.getLast?.getD []) :: runs.drop (below.length + 1)

def runs (ns : List Nat) : List Run := ns.zipIdx.foldl extend []

def indices (ns : List Nat) : List Nat := ((runs ns).getLast?.getD []).map (·.2)

theorem runs_concat (ns : List Nat) (n : Nat) :
    runs (ns ++ [n]) = extend (runs ns) (n, ns.length) := by
  simp [runs, List.zipIdx_append]

/-- A run of items of a list, all of them before a position; read from its end it decreases. -/
structure Run.Of (r : Run) (ns : List Nat) (stop : Nat) : Prop where
  item : ∀ a ∈ r, ns[a.2]? = some a.1 ∧ a.2 < stop
  decreases : r.Pairwise fun a b => b.1 < a.1 ∧ b.2 < a.2

variable {ns : List Nat} {stop n : Nat} {r : Run} {rs : List Run}

theorem Run.Of.nil : Run.Of [] ns stop := ⟨by simp, List.Pairwise.nil⟩

theorem Run.Of.cons (h : r.Of ns stop) (hn : ns[stop]? = some n) (hb : endsBelow n r = true) :
    Run.Of ((n, stop) :: r) ns (stop + 1) where
  item := by
    intro a ha
    obtain rfl | ha := List.mem_cons.mp ha
    · exact ⟨hn, Nat.lt_succ_self _⟩
    · exact ⟨(h.item a ha).1, Nat.lt_succ_of_lt (h.item a ha).2⟩
  decreases := by
    refine List.pairwise_cons.mpr ⟨fun a ha => ⟨?_, (h.item a ha).2⟩, h.decreases⟩
    cases r with
    | nil => cases ha
    | cons b rest =>
      have hlast : b.1 < n := by simpa [endsBelow] using hb
      obtain rfl | ha := List.mem_cons.mp ha
      · exact hlast
      · exact Nat.lt_trans ((List.pairwise_cons.mp h.decreases).1 a ha).1 hlast

theorem Run.Of.later (h : r.Of ns stop) : r.Of ns (stop + 1) :=
  ⟨fun a ha => ⟨(h.item a ha).1, Nat.lt_succ_of_lt (h.item a ha).2⟩, h.decreases⟩

theorem Run.Of.append (h : r.Of ns stop) (more : List Nat) : r.Of (ns ++ more) stop where
  item a ha := by
    obtain ⟨hitem, hlt⟩ := h.item a ha
    exact ⟨by rw [List.getElem?_append_left (List.getElem?_eq_some_iff.mp hitem).1, hitem], hlt⟩
  decreases := h.decreases

theorem of_mem_extend (hn : ns[stop]? = some n) (h : ∀ r ∈ rs, r.Of ns stop) :
    ∀ r ∈ extend rs (n, stop), r.Of ns (stop + 1) := by
  intro r hr
  simp only [extend, List.mem_append, List.mem_cons] at hr
  obtain hr | rfl | hr := hr
  · exact (h r ((List.takeWhile_prefix _).subset hr)).later
  · cases hl : (rs.takeWhile (endsBelow n)).getLast? with
    | none => exact Run.Of.nil.cons hn rfl
    | some r =>
      have hm : r ∈ rs.takeWhile (endsBelow n) := List.mem_of_getLast? hl
      have hb := List.all_eq_true.mp List.all_takeWhile r hm
      exact (h r ((List.takeWhile_prefix _).subset hm)).cons hn hb
  · exact (h r (List.mem_of_mem_drop hr)).later

theorem of_mem_runs (hr : r ∈ runs ns) : r.Of ns ns.length := by
  induction ns using List.reverseRecOn generalizing r with
  | nil => cases hr
  | append_singleton ns n ih =>
    rw [runs_concat] at hr
    rw [List.length_append, List.length_singleton]
    exact of_mem_extend List.getElem?_concat_length (fun r hr => (ih hr).append [n]) r hr

theorem of_last (ns : List Nat) : ((runs ns).getLast?.getD []).Of ns ns.length := by
  cases hl : (runs ns).getLast? with
  | none => exact Run.Of.nil
  | some r => exact of_mem_runs (List.mem_of_getLast? hl)

theorem lt_of_mem_indices {i j : Nat} (hi : i ∈ indices ns) (hj : j ∈ indices ns) (hij : i < j) :
    ∃ v w, ns[i]? = some v ∧ ns[j]? = some w ∧ v < w := by
  have hr := of_last ns
  obtain ⟨⟨v, i⟩, hv, rfl⟩ := List.mem_map.mp hi
  obtain ⟨⟨w, j⟩, hw, rfl⟩ := List.mem_map.mp hj
  refine ⟨v, w, (hr.item _ hv).1, (hr.item _ hw).1, ?_⟩
  have hall := List.Pairwise.forall_of_forall_of_flip (R := fun a b => a.2 < b.2 → a.1 < b.1)
    (fun a _ h => absurd h (Nat.lt_irrefl _))
    (hr.decreases.imp fun h h' => absurd h' (Nat.lt_asymm h.2))
    (hr.decreases.imp fun h _ => h.1)
  exact hall hv hw hij

structure IsLongest (run ns : List Nat) : Prop where
  sublist : run.Sublist ns
  increasing : run.Pairwise (· < ·)
  longest : ∀ other : List Nat, other.Sublist ns → other.Pairwise (· < ·) →
    other.length ≤ run.length

/-- The runs that are kept, one for each length: for every increasing run there is one of its
length that ends no later. -/
structure Best (ns : List Nat) (rs : List Run) : Prop where
  length_eq : ∀ k r, rs[k]? = some r → r.length = k + 1
  sublist : ∀ r ∈ rs, (r.map (·.1)).reverse.Sublist ns
  ordered : rs.Pairwise fun a b => ∀ n, endsBelow n b = true → endsBelow n a = true
  covers : ∀ run v, (run ++ [v]).Sublist ns → (run ++ [v]).Pairwise (· < ·) →
    ∃ r, rs[run.length]? = some r ∧ endsBelow (v + 1) r = true

theorem endsBelow_mono {m : Nat} (h : n ≤ m) (hr : endsBelow n r = true) : endsBelow m r = true := by
  cases r with
  | nil => rfl
  | cons a rest =>
    have ha : a.1 < n := by simpa [endsBelow] using hr
    simpa [endsBelow] using Nat.lt_of_lt_of_le ha h

theorem lt_of_endsBelow {m : Nat} (h : endsBelow n r = false) (hm : endsBelow m r = true) : n < m := by
  refine Nat.lt_of_not_le fun hle => ?_
  rw [endsBelow_mono hle hm] at h
  cases h

theorem extend_append {below rest : List Run} (hb : ∀ r ∈ below, endsBelow n r = true)
    (hr : ∀ r ∈ rest, endsBelow n r = false) (i : Nat) :
    extend (below ++ rest) (n, i) = below ++ ((n, i) :: below.getLast?.getD []) :: rest.tail := by
  have ht : (below ++ rest).takeWhile (endsBelow n) = below := by
    rw [List.takeWhile_append_of_pos hb]
    cases rest with
    | nil => rw [List.takeWhile_nil, List.append_nil]
    | cons r rest =>
      have hn := hr r List.mem_cons_self
      rw [List.takeWhile_cons_of_neg (by simp [hn]), List.append_nil]
  have hd : (below ++ rest).drop (below.length + 1) = rest.tail := by
    rw [← List.drop_drop, List.drop_left, List.drop_one]
  simp only [extend, ht, hd]

theorem getElem?_append_cons_tail (below rest : List Run) (r : Run) (k : Nat) :
    (below ++ r :: rest.tail)[k]? = if k = below.length then some r else (below ++ rest)[k]? := by
  split
  · rename_i hk
    simp [hk]
  · rename_i hk
    obtain hlt | hgt := Nat.lt_or_gt_of_ne hk
    · rw [List.getElem?_append_left hlt, List.getElem?_append_left hlt]
    · obtain ⟨j, rfl⟩ := Nat.exists_eq_add_of_lt hgt
      rw [List.getElem?_append_right (by omega), List.getElem?_append_right (by omega),
        Nat.add_assoc, Nat.add_sub_cancel_left, List.getElem?_cons_succ, List.getElem?_tail]

theorem sublist_concat_cases {run : List Nat} {v : Nat} (h : (run ++ [v]).Sublist (ns ++ [n])) :
    (run ++ [v]).Sublist ns ∨ v = n ∧ run.Sublist ns := by
  obtain ⟨front, back, he, hf, hback⟩ := List.sublist_append_iff.mp h
  obtain hback | ⟨more, rfl, hmore⟩ := List.sublist_cons_iff.mp hback
  · rw [List.sublist_nil.mp hback, List.append_nil] at he
    exact .inl (he ▸ hf)
  · rw [List.sublist_nil.mp hmore] at he
    obtain ⟨rfl, hv⟩ := List.append_inj' he rfl
    exact .inr ⟨(List.cons.inj hv).1, hf⟩

namespace Best

theorem exists_split (h : Best ns rs) (n : Nat) : ∃ below rest, rs = below ++ rest ∧
    (∀ r ∈ below, endsBelow n r = true) ∧ (∀ r ∈ rest, endsBelow n r = false) := by
  refine ⟨rs.takeWhile (endsBelow n), rs.dropWhile (endsBelow n),
    List.takeWhile_append_dropWhile.symm, List.all_eq_true.mp List.all_takeWhile, ?_⟩
  have ho := h.ordered.sublist (List.dropWhile_sublist (endsBelow n))
  have hd := List.head?_dropWhile_not (endsBelow n) rs
  generalize rs.dropWhile (endsBelow n) = rest at ho hd
  cases rest with
  | nil => simp
  | cons a rest =>
    have ha : endsBelow n a = false := by simpa using hd
    intro r hr
    obtain rfl | hr := List.mem_cons.mp hr
    · exact ha
    · refine Bool.eq_false_iff.mpr fun hb => ?_
      rw [(List.pairwise_cons.mp ho).1 r hr n hb] at ha
      cases ha

theorem nil : Best [] [] where
  length_eq := by simp
  sublist := by simp
  ordered := List.Pairwise.nil
  covers := by simp

theorem getLast?_spec {below : List Run} (h : Best ns rs) (hp : below <+: rs) :
    (below.getLast?.getD []).length = below.length ∧
      ((below.getLast?.getD []).map (·.1)).reverse.Sublist ns := by
  cases hl : below.getLast? with
  | none => simp [List.getLast?_eq_none_iff.mp hl]
  | some r =>
    have hm := List.mem_of_getLast? hl
    have hpos := List.length_pos_of_mem hm
    obtain ⟨rest, rfl⟩ := hp
    rw [List.getLast?_eq_getElem?, ← List.getElem?_append_left (by omega)] at hl
    have hlen := h.length_eq _ r hl
    rw [Option.getD_some]
    exact ⟨by omega, h.sublist r (List.mem_append_left _ hm)⟩

theorem length_le_of_concat {below rest : List Run} (h : Best ns (below ++ rest))
    (hr : ∀ r ∈ rest, endsBelow n r = false) {run : List Nat} (hs : run.Sublist ns)
    (hi : (run ++ [n]).Pairwise (· < ·)) : run.length ≤ below.length := by
  cases hl : run.getLast? with
  | none => simp [List.getLast?_eq_none_iff.mp hl]
  | some w =>
    obtain ⟨front, rfl⟩ := List.getLast?_eq_some_iff.mp hl
    have hw : w < n := (List.pairwise_append.mp hi).2.2 w (by simp) n (by simp)
    obtain ⟨r, hk, hb⟩ := h.covers front w hs (List.pairwise_append.mp hi).1
    refine Nat.le_of_not_lt fun hlt => ?_
    rw [List.length_append, List.length_singleton] at hlt
    rw [List.getElem?_append_right (Nat.le_of_lt_succ hlt)] at hk
    have hn := hr r (List.mem_of_getElem? hk)
    rw [endsBelow_mono hw hb] at hn
    cases hn

theorem ordered_extend {below rest : List Run} {last : Run} (h : Best ns (below ++ rest))
    (hb : ∀ r ∈ below, endsBelow n r = true) (hr : ∀ r ∈ rest, endsBelow n r = false) (i : Nat) :
    (below ++ ((n, i) :: last) :: rest.tail).Pairwise
      fun a b => ∀ m, endsBelow m b = true → endsBelow m a = true := by
  have hnew : ∀ m, endsBelow m ((n, i) :: last) = true ↔ n < m := by simp [endsBelow]
  obtain ⟨hbelow, hrest, hacross⟩ := List.pairwise_append.mp h.ordered
  refine List.pairwise_append.mpr ⟨hbelow, List.pairwise_cons.mpr ⟨fun b hm m hbm => ?_,
    hrest.sublist (List.tail_sublist rest)⟩, fun a ha b hm m hbm => ?_⟩
  · exact (hnew m).mpr (lt_of_endsBelow (hr b (List.mem_of_mem_tail hm)) hbm)
  · obtain rfl | hm := List.mem_cons.mp hm
    · exact endsBelow_mono (Nat.le_of_lt ((hnew m).mp hbm)) (hb a ha)
    · exact hacross a ha b (List.mem_of_mem_tail hm) m hbm

/-- The run put behind those that end below an item takes the place of one that ends no earlier. -/
theorem covers_extend {below rest : List Run} {last : Run} (h : Best ns (below ++ rest))
    (hb : ∀ r ∈ below, endsBelow n r = true) (hr : ∀ r ∈ rest, endsBelow n r = false) (i : Nat)
    {run : List Nat} {v : Nat} (hs : (run ++ [v]).Sublist (ns ++ [n]))
    (hi : (run ++ [v]).Pairwise (· < ·)) :
    ∃ r, (below ++ ((n, i) :: last) :: rest.tail)[run.length]? = some r ∧
      endsBelow (v + 1) r = true := by
  have hnew : ∀ m, endsBelow m ((n, i) :: last) = true ↔ n < m := by simp [endsBelow]
  rw [getElem?_append_cons_tail]
  obtain hrun | ⟨rfl, hrun⟩ := sublist_concat_cases hs
  · obtain ⟨r, hk, hv⟩ := h.covers run v hrun hi
    split
    · rename_i hlength
      rw [hlength, List.getElem?_append_right (Nat.le_refl _)] at hk
      exact ⟨_, rfl, (hnew _).mpr (lt_of_endsBelow (hr r (List.mem_of_getElem? hk)) hv)⟩
    · exact ⟨r, hk, hv⟩
  · split
    · exact ⟨_, rfl, (hnew _).mpr (Nat.lt_succ_self v)⟩
    · rename_i hlength
      have hlt := Nat.lt_of_le_of_ne (h.length_le_of_concat hr hrun hi) hlength
      refine ⟨below[run.length], ?_, endsBelow_mono (Nat.le_succ v) (hb _ (List.getElem_mem hlt))⟩
      rw [List.getElem?_append_left hlt, List.getElem?_eq_getElem hlt]

theorem extend (h : Best ns rs) (n i : Nat) : Best (ns ++ [n]) (extend rs (n, i)) := by
  obtain ⟨below, rest, rfl, hb, hr⟩ := h.exists_split n
  rw [extend_append hb hr]
  obtain ⟨hlen, hlast⟩ := h.getLast?_spec (List.prefix_append below rest)
  refine ⟨fun k r hk => ?_, fun r hm => ?_, h.ordered_extend hb hr i,
    fun run v hs hi => h.covers_extend hb hr i hs hi⟩
  · rw [getElem?_append_cons_tail] at hk
    split at hk
    · rename_i hkl
      cases hk
      rw [List.length_cons, hlen, hkl]
    · exact h.length_eq k r hk
  · have hns : ∀ r ∈ below ++ rest, (r.map (·.1)).reverse.Sublist (ns ++ [n]) := fun r hm =>
      (h.sublist r hm).trans (List.sublist_append_left ns [n])
    obtain hm | hm := List.mem_append.mp hm
    · exact hns r (List.mem_append_left _ hm)
    · obtain rfl | hm := List.mem_cons.mp hm
      · rw [List.map_cons, List.reverse_cons]
        exact hlast.append (List.Sublist.refl _)
      · exact hns r (List.mem_append_right _ (List.mem_of_mem_tail hm))

theorem length_le (h : Best ns rs) {run : List Nat} (hs : run.Sublist ns)
    (hi : run.Pairwise (· < ·)) : run.length ≤ rs.length := by
  cases hl : run.getLast? with
  | none => simp [List.getLast?_eq_none_iff.mp hl]
  | some v =>
    obtain ⟨front, rfl⟩ := List.getLast?_eq_some_iff.mp hl
    obtain ⟨r, hk, -⟩ := h.covers front v hs hi
    have hlt : front.length < rs.length := (List.getElem?_eq_some_iff.mp hk).1
    simpa using Nat.succ_le_of_lt hlt

end Best

theorem best_runs (ns : List Nat) : Best ns (runs ns) := by
  induction ns using List.reverseRecOn with
  | nil => exact .nil
  | append_singleton ns n ih =>
    rw [runs_concat]
    exact ih.extend n ns.length

theorem isLongest_runs (ns : List Nat) :
    IsLongest (((runs ns).getLast?.getD []).map (·.1)).reverse ns := by
  have h := best_runs ns
  obtain ⟨hlen, hsub⟩ := h.getLast?_spec List.prefix_rfl
  refine ⟨hsub, ?_, fun other hs hi => ?_⟩
  · rw [List.pairwise_reverse, List.pairwise_map]
    exact (of_last ns).decreases.imp And.left
  · rw [List.length_reverse, List.length_map, hlen]
    exact h.length_le hs hi

end ReactiveView.Increasing
