import ReactiveView.Dict

namespace ReactiveView

variable {α : Type}

namespace Entries

theorem lookup_eq_none {es : List (String × α)} {key : String} (h : ∀ e ∈ es, key < e.1) :
    es.lookup key = none := by
  induction es with
  | nil => rfl
  | cons e rest ih =>
    have hk : key ≠ e.1 := String.ne_of_lt (h e (by simp))
    rw [lookup_cons, if_neg hk]
    exact ih fun e he => h e (by simp [he])

theorem Sorted.lookup_of_mem {es : List (String × α)} (hs : Sorted es) {e : String × α}
    (h : e ∈ es) : es.lookup e.1 = some e.2 := by
  induction es with
  | nil => cases h
  | cons f rest ih =>
    have hs' := List.pairwise_cons.mp hs
    rw [lookup_cons]
    obtain rfl | h := List.mem_cons.mp h
    · rw [if_pos rfl]
    · have hne : e.1 ≠ f.1 := (String.ne_of_lt (hs'.1 e h)).symm
      rw [if_neg hne, ih hs'.2 h]

theorem Sorted.head_le {k l : String} {v w : α} {es fs : List (String × α)}
    (he : Sorted ((k, v) :: es))
    (h : ∀ key, ((k, v) :: es).lookup key = ((l, w) :: fs).lookup key) : k ≤ l := by
  refine String.not_lt.mp fun hlt => ?_
  have hl := h l
  rw [lookup_cons, lookup_cons, if_neg (String.ne_of_lt hlt), if_pos rfl,
    lookup_eq_none fun e hm => String.lt_trans hlt ((List.pairwise_cons.mp he).1 e hm)] at hl
  cases hl

theorem Sorted.ext {es fs : List (String × α)} (he : Sorted es) (hf : Sorted fs)
    (h : ∀ key, es.lookup key = fs.lookup key) : es = fs := by
  induction es generalizing fs with
  | nil =>
    cases fs with
    | nil => rfl
    | cons f fs =>
      have hf := h f.1
      rw [lookup_cons f.1 f.1 f.2, if_pos rfl] at hf
      cases hf
  | cons e es ih =>
    cases fs with
    | nil =>
      have he := h e.1
      rw [lookup_cons e.1 e.1 e.2, if_pos rfl] at he
      cases he
    | cons f fs =>
      obtain ⟨k, v⟩ := e
      obtain ⟨l, w⟩ := f
      have he' := List.pairwise_cons.mp he
      have hf' := List.pairwise_cons.mp hf
      obtain rfl : k = l := String.le_antisymm (he.head_le h) (hf.head_le fun key => (h key).symm)
      have hv : v = w := by simpa [lookup_cons] using h k
      subst hv
      rw [ih he'.2 hf'.2 fun key => ?_]
      by_cases hk : key = k
      · subst hk
        rw [lookup_eq_none he'.1, lookup_eq_none hf'.1]
      · simpa [lookup_cons, hk] using h key

end Entries

namespace Dict

theorem ext_get? {d e : Dict α} (h : ∀ key, d.get? key = e.get? key) : d = e :=
  ext (d.sorted.ext e.sorted h)

theorem get?_of_mem {d : Dict α} {e : String × α} (h : e ∈ d.entries) : d.get? e.1 = some e.2 :=
  d.sorted.lookup_of_mem h

theorem mem_keys {d : Dict α} {key : String} : key ∈ d.keys ↔ d.contains key = true := by
  simp only [keys, contains, get?]
  induction d.entries with
  | nil => simp
  | cons e rest ih =>
    rw [List.map_cons, List.mem_cons, Entries.lookup_cons, ih]
    by_cases h : key = e.1 <;> simp [h]

theorem get?_foldl_insert (there : String × α → Prop) [DecidablePred there]
    {es : List (String × α)} (hs : Entries.Sorted es) (d : Dict α)
    (ht : ∀ e ∈ es, there e → d.get? e.1 = some e.2) (key : String) :
    (es.foldl (fun d e => if there e then d else d.insert e.1 e.2) d).get? key =
      (es.lookup key).or (d.get? key) := by
  induction es generalizing d with
  | nil => simp
  | cons e rest ih =>
    obtain ⟨k, v⟩ := e
    have hs' := List.pairwise_cons.mp hs
    have hn : ∀ e ∈ rest, e.1 ≠ k := fun e he => (String.ne_of_lt (hs'.1 e he)).symm
    have ht' : ∀ e ∈ rest, there e → d.get? e.1 = some e.2 := fun e he => ht e (by simp [he])
    rw [List.foldl_cons, Entries.lookup_cons]
    split
    · rename_i hthere
      rw [ih hs'.2 d ht']
      by_cases hk : key = k
      · subst hk
        have hd : d.get? key = some v := ht (key, v) (by simp) hthere
        rw [Entries.lookup_eq_none hs'.1, if_pos rfl, hd]
        rfl
      · rw [if_neg hk]
    · rw [ih hs'.2 (d.insert k v)]
      · rw [get?_insert]
        by_cases hk : key = k
        · subst hk
          rw [Entries.lookup_eq_none hs'.1, if_pos rfl, if_pos rfl]
          rfl
        · rw [if_neg hk, if_neg hk]
      · intro e he hthere
        rw [get?_insert, if_neg (hn e he)]
        exact ht' e he hthere

theorem get?_foldl_erase (stays : String → Prop) [DecidablePred stays] (names : List String)
    (d : Dict α) (key : String) :
    (names.foldl (fun d name => if stays name then d else d.erase name) d).get? key =
      if key ∈ names ∧ ¬ stays key then none else d.get? key := by
  induction names generalizing d with
  | nil => simp
  | cons name rest ih =>
    rw [List.foldl_cons, ih]
    by_cases hs : stays name
    · by_cases hk : key = name
      · subst hk; simp [hs]
      · simp [hs, hk]
    · by_cases hk : key = name
      · subst hk; simp [hs, get?_erase]
      · simp [hs, get?_erase, hk]

end Dict

end ReactiveView
