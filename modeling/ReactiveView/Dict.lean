namespace ReactiveView

variable {α β : Type}

namespace Entries

def Sorted (es : List (String × α)) : Prop := es.Pairwise (fun a b => a.1 < b.1)

/-- Put a value under a key, in its place in the order or over the value that is there. -/
def insert (key : String) (value : α) : List (String × α) → List (String × α)
  | [] => [(key, value)]
  | (k, v) :: rest =>
    if key < k then (key, value) :: (k, v) :: rest
    else if k < key then (k, v) :: insert key value rest
    else (key, value) :: rest

def erase (key : String) (es : List (String × α)) : List (String × α) :=
  es.filter (fun e => e.1 != key)

def ofList (pairs : List (String × α)) : List (String × α) :=
  pairs.foldl (fun es p => insert p.1 p.2 es) []

theorem mem_insert_key {key : String} {value : α} {es : List (String × α)} {e : String × α}
    (h : e ∈ insert key value es) : e.1 = key ∨ e ∈ es := by
  induction es with
  | nil => simp [insert] at h; exact Or.inl (by rw [h])
  | cons a rest ih =>
    simp only [insert] at h
    split at h
    · obtain rfl | h := List.mem_cons.mp h
      · exact Or.inl rfl
      · exact Or.inr h
    · split at h
      · obtain rfl | h := List.mem_cons.mp h
        · exact Or.inr (List.mem_cons_self ..)
        · exact (ih h).imp_right (List.mem_cons_of_mem _)
      · obtain rfl | h := List.mem_cons.mp h
        · exact Or.inl rfl
        · exact Or.inr (List.mem_cons_of_mem _ h)

theorem Sorted.insert {es : List (String × α)} (h : Sorted es) (key : String) (value : α) :
    Sorted (insert key value es) := by
  induction es with
  | nil => simp [Sorted, Entries.insert]
  | cons a rest ih =>
    obtain ⟨k, v⟩ := a
    have hr := List.pairwise_cons.mp h
    simp only [Entries.insert]
    split
    · rename_i hlt
      refine List.pairwise_cons.mpr ⟨fun e he => ?_, h⟩
      obtain rfl | he := List.mem_cons.mp he
      · exact hlt
      · exact String.lt_trans hlt (hr.1 e he)
    · rename_i hnlt
      split
      · rename_i hgt
        refine List.pairwise_cons.mpr ⟨fun e he => ?_, ih hr.2⟩
        obtain heq | he := mem_insert_key he
        · rw [heq]; exact hgt
        · exact hr.1 e he
      · rename_i hngt
        have heq : key = k := String.le_antisymm (String.not_lt.mp hngt) (String.not_lt.mp hnlt)
        subst heq
        exact List.pairwise_cons.mpr ⟨hr.1, hr.2⟩

theorem Sorted.erase {es : List (String × α)} (h : Sorted es) (key : String) :
    Sorted (erase key es) := h.filter _

theorem sorted_ofList (pairs : List (String × α)) : Sorted (ofList pairs) := by
  have step : ∀ (ps es : List (String × α)), Sorted es →
      Sorted (ps.foldl (fun es p => Entries.insert p.1 p.2 es) es) := by
    intro ps
    induction ps with
    | nil => exact fun _ h => h
    | cons p ps ih => exact fun es h => ih _ (h.insert p.1 p.2)
  exact step pairs [] List.Pairwise.nil

theorem lookup_cons (k name : String) (v : α) (rest : List (String × α)) :
    ((k, v) :: rest).lookup name = if name = k then some v else rest.lookup name := by
  by_cases h : name = k
  · simp [h]
  · simp [List.lookup_cons, beq_false_of_ne h, h]

theorem lookup_insert {es : List (String × α)} (h : Sorted es) (key name : String) (value : α) :
    (insert key value es).lookup name = if name = key then some value else es.lookup name := by
  induction es with
  | nil => simp only [Entries.insert, lookup_cons, List.lookup_nil]
  | cons a rest ih =>
    obtain ⟨k, v⟩ := a
    have hr := List.pairwise_cons.mp h
    simp only [Entries.insert]
    split
    · simp only [lookup_cons]
    · rename_i hnlt
      split
      · rename_i hgt
        have hne : k ≠ key := String.ne_of_lt hgt
        simp only [lookup_cons, ih hr.2]
        by_cases hk : name = k
        · subst hk; simp [hne]
        · simp [hk]
      · rename_i hngt
        have heq : key = k := String.le_antisymm (String.not_lt.mp hngt) (String.not_lt.mp hnlt)
        subst heq
        simp only [lookup_cons]
        by_cases hk : name = key <;> simp [hk]

theorem lookup_erase (es : List (String × α)) (key name : String) :
    (erase key es).lookup name = if name = key then none else es.lookup name := by
  induction es with
  | nil => simp [Entries.erase]
  | cons a rest ih =>
    obtain ⟨k, v⟩ := a
    simp only [Entries.erase] at ih ⊢
    by_cases hk : k = key
    · subst hk
      rw [List.filter_cons_of_neg (by simp), ih, lookup_cons]
      by_cases hn : name = k <;> simp [hn]
    · rw [List.filter_cons_of_pos (by simpa using hk), lookup_cons, lookup_cons, ih]
      by_cases hn : name = k
      · subst hn; simp [hk]
      · simp [hn]

end Entries

/-- A finite map from strings. The entries stand in strictly increasing order of their keys, so that
equal maps are equal values. Strings are ordered by code points, which is the order of their UTF-8
bytes. -/
structure Dict (α : Type) where
  entries : List (String × α)
  sorted : Entries.Sorted entries

namespace Dict

theorem ext {d e : Dict α} (h : d.entries = e.entries) : d = e := by
  cases d; cases e; cases h; rfl

instance [DecidableEq α] : DecidableEq (Dict α) := fun d e =>
  if h : d.entries = e.entries then isTrue (ext h) else isFalse (fun heq => h (by rw [heq]))

instance [Repr α] : Repr (Dict α) := ⟨fun d n => reprPrec d.entries n⟩

def empty : Dict α := ⟨[], List.Pairwise.nil⟩

instance : Inhabited (Dict α) := ⟨empty⟩

def get? (d : Dict α) (key : String) : Option α := d.entries.lookup key

def contains (d : Dict α) (key : String) : Bool := (d.get? key).isSome

def insert (d : Dict α) (key : String) (value : α) : Dict α :=
  ⟨Entries.insert key value d.entries, d.sorted.insert key value⟩

def erase (d : Dict α) (key : String) : Dict α :=
  ⟨Entries.erase key d.entries, d.sorted.erase key⟩

/-- The map of a list of pairs; of two pairs with one key the later counts. -/
def ofList (pairs : List (String × α)) : Dict α :=
  ⟨Entries.ofList pairs, Entries.sorted_ofList pairs⟩

def keys (d : Dict α) : List String := d.entries.map (·.1)

def size (d : Dict α) : Nat := d.entries.length

def isEmpty (d : Dict α) : Bool := d.entries.isEmpty

def map (f : α → β) (d : Dict α) : Dict β :=
  ⟨d.entries.map (fun e => (e.1, f e.2)), List.pairwise_map.mpr (d.sorted.imp id)⟩

@[simp] theorem get?_empty (key : String) : (empty : Dict α).get? key = none := rfl

theorem get?_insert (d : Dict α) (key name : String) (value : α) :
    (d.insert key value).get? name = if name = key then some value else d.get? name :=
  Entries.lookup_insert d.sorted key name value

theorem get?_erase (d : Dict α) (key name : String) :
    (d.erase key).get? name = if name = key then none else d.get? name :=
  Entries.lookup_erase d.entries key name

end Dict

end ReactiveView
