import ReactiveView.Json.Printer
import ReactiveView.Json.Reader

namespace ReactiveView.Json

def Blanks (u : List Char) : Prop := ∀ c ∈ u, c = ' ' ∨ c = '\n' ∨ c = '\t' ∨ c = '\r'

theorem Blanks.nil : Blanks [] := fun _ hc => absurd hc List.not_mem_nil

theorem skipBlanks_append {u : List Char} (hu : Blanks u) (cs : List Char) :
    skipBlanks (u ++ cs) = skipBlanks cs := by
  apply List.dropWhile_append_of_pos
  intro c hc
  rcases hu c hc with rfl | rfl | rfl | rfl <;> rfl

theorem readValue_skip (levels : Nat) {u : List Char} (hu : Blanks u) (cs : List Char) :
    readValue levels (u ++ cs) = readValue levels cs := by
  cases levels <;> simp only [readValue, skipBlanks_append hu]

theorem hexValue?_hexDigit : ∀ n < 16, hexValue? (hexDigit n) = some n := by decide

theorem readEscape_unit {n : Nat} (h : n < 0x20) (rest : List Char) :
    readEscape ('u' :: '0' :: '0' :: hexDigit (n / 16) :: hexDigit (n % 16) :: rest) =
      some (Char.ofNat n, rest) := by
  have hhigh := hexValue?_hexDigit (n / 16) (by omega)
  have hlow := hexValue?_hexDigit (n % 16) (by omega)
  have hzero : hexValue? '0' = some 0 := rfl
  have hunit : ((0 * 16 + 0) * 16 + n / 16) * 16 + n % 16 = n := by omega
  simp only [readEscape, readUnits, readUnit, hhigh, hlow, hzero, Option.bind_eq_bind,
    Option.bind_some, hunit]
  rw [if_neg (by omega), if_neg (by omega)]

theorem readCharacters_escape (fuel : Nat) (c : Char) (rest : List Char) :
    readCharacters (fuel + 1) (escape c ++ rest) =
      (readCharacters fuel rest).map fun r => (c :: r.1, r.2) := by
  have hbackslash : ∀ (t : List Char) (more : List Char), readEscape t = some (c, more) →
      readCharacters (fuel + 1) ('\\' :: t) =
        (readCharacters fuel more).map fun r => (c :: r.1, r.2) := by
    intro t more h
    simp only [readCharacters, h, Option.bind_eq_bind, Option.bind_some]
    cases readCharacters fuel more <;> rfl
  rw [escape]
  -- The quote, the backslash and the five controls that a letter stands for.
  iterate 7
    split
    · subst c
      exact hbackslash _ rest rfl
  split
  · rename_i hcontrol
    apply hbackslash
    have hunit := readEscape_unit hcontrol rest
    rwa [Char.ofNat_toNat] at hunit
  · rename_i hquote hescape _ _ _ _ _ hcontrol
    rw [List.singleton_append, readCharacters, if_neg hcontrol]
    · cases readCharacters fuel rest <;> rfl
    · exact hquote
    · exact hescape

theorem readCharacters_quoted (cs : List Char) {fuel : Nat} (h : cs.length < fuel)
    (rest : List Char) :
    readCharacters fuel (cs.flatMap escape ++ '"' :: rest) = some (cs, rest) := by
  induction cs generalizing fuel with
  | nil =>
    obtain ⟨fuel, rfl⟩ := Nat.exists_eq_succ_of_ne_zero (Nat.ne_of_gt h)
    rfl
  | cons c cs ih =>
    obtain ⟨fuel, rfl⟩ := Nat.exists_eq_succ_of_ne_zero (Nat.ne_of_gt (Nat.zero_lt_of_lt h))
    rw [List.flatMap_cons, List.append_assoc, readCharacters_escape,
      ih (Nat.lt_of_succ_lt_succ h)]
    rfl

theorem length_le_escape (cs : List Char) : cs.length ≤ (cs.flatMap escape).length := by
  induction cs with
  | nil => exact Nat.le_refl 0
  | cons c cs ih =>
    have hc : 0 < (escape c).length := by
      simp only [escape]
      repeat' split
      all_goals simp
    rw [List.flatMap_cons, List.length_append, List.length_cons]
    omega

theorem readString_quoted (s : String) (rest : List Char) :
    readString (s.toList.flatMap escape ++ '"' :: rest) = some (s, rest) := by
  have hfuel : s.toList.length < (s.toList.flatMap escape ++ '"' :: rest).length := by
    have hlength := length_le_escape s.toList
    rw [List.length_append, List.length_cons]
    omega
  rw [readString, readCharacters_quoted s.toList hfuel rest, Option.map_some, String.ofList_toList]

mutual

/-- A text of a value. -/
inductive Spelled : Json → List Char → Prop
  | text (s : String) : Spelled (.str s) ('"' :: (s.toList.flatMap escape ++ ['"']))
  | emptyArray {u : List Char} (hu : Blanks u) : Spelled (.arr []) ('[' :: (u ++ [']']))
  | array {items : List Json} {w : List Char} (h : SpelledItems items w) :
      Spelled (.arr items) ('[' :: w)
  | emptyObject {u : List Char} (hu : Blanks u) : Spelled (.obj []) ('\x7b' :: (u ++ ['\x7d']))
  | object {fields : List (String × Json)} {w : List Char} (h : SpelledFields fields w) :
      Spelled (.obj fields) ('\x7b' :: w)

inductive SpelledItems : List Json → List Char → Prop
  | last {j : Json} {u v w : List Char} (hu : Blanks u) (hj : Spelled j w) (hv : Blanks v) :
      SpelledItems [j] (u ++ (w ++ (v ++ [']'])))
  | cons {j : Json} {items : List Json} {u v w x : List Char} (hu : Blanks u) (hj : Spelled j w)
      (hv : Blanks v) (h : SpelledItems items x) :
      SpelledItems (j :: items) (u ++ (w ++ (v ++ ',' :: x)))

inductive SpelledFields : List (String × Json) → List Char → Prop
  | last {field : String × Json} {v w : List Char} (hf : SpelledField field w) (hv : Blanks v) :
      SpelledFields [field] (w ++ (v ++ ['\x7d']))
  | cons {field : String × Json} {fields : List (String × Json)} {v w x : List Char}
      (hf : SpelledField field w) (hv : Blanks v) (h : SpelledFields fields x) :
      SpelledFields (field :: fields) (w ++ (v ++ ',' :: x))

/-- A text of a field, blanks before its name included. -/
inductive SpelledField : String × Json → List Char → Prop
  | mk {name : String} {j : Json} {t u v w : List Char} (ht : Blanks t) (hu : Blanks u)
      (hv : Blanks v) (hj : Spelled j w) :
      SpelledField (name, j)
        (t ++ '"' :: (name.toList.flatMap escape ++ '"' :: (u ++ ':' :: (v ++ w))))

end

theorem Spelled.exists_cons {j : Json} {w : List Char} (h : Spelled j w) :
    ∃ c more, w = c :: more ∧ (c = '"' ∨ c = '[' ∨ c = '\x7b') := by
  cases h <;> simp

theorem SpelledItems.length_le : ∀ {items : List Json} {w : List Char}, SpelledItems items w →
    items.length ≤ w.length
  | _, _, .last _ _ _ => by
    simp only [List.length_append, List.length_cons, List.length_nil]
    omega
  | _, _, .cons _ _ _ h => by
    have hlength := h.length_le
    simp only [List.length_append, List.length_cons]
    omega

theorem SpelledFields.length_le : ∀ {fields : List (String × Json)} {w : List Char},
    SpelledFields fields w → fields.length ≤ w.length
  | _, _, .last _ _ => by
    simp only [List.length_append, List.length_cons, List.length_nil]
    omega
  | _, _, .cons _ _ h => by
    have hlength := h.length_le
    simp only [List.length_append, List.length_cons]
    omega

theorem skipBlanks_cons {v : List Char} (hv : Blanks v) {c : Char}
    (hc : ¬ (c = ' ' ∨ c = '\n' ∨ c = '\t' ∨ c = '\r')) (rest : List Char) :
    skipBlanks (v ++ c :: rest) = c :: rest := by
  rw [skipBlanks_append hv, skipBlanks, List.dropWhile_cons_of_neg]
  simpa [or_assoc] using hc

theorem SpelledItems.skipBlanks_ne {items : List Json} {w : List Char} (h : SpelledItems items w)
    (rest more : List Char) : skipBlanks (w ++ rest) ≠ ']' :: more := by
  have hstart : ∀ {j u v x}, Blanks u → Spelled j v → skipBlanks (u ++ (v ++ x)) ≠ ']' :: more := by
    intro j u v x hu hj
    obtain ⟨c, t, rfl, hc⟩ := hj.exists_cons
    rw [List.cons_append, skipBlanks_cons hu (by rcases hc with rfl | rfl | rfl <;> decide)]
    rcases hc with rfl | rfl | rfl <;> simp
  cases h with
  | last hu hj hv =>
    rw [List.append_assoc, List.append_assoc]
    exact hstart hu hj
  | cons hu hj hv h =>
    rw [List.append_assoc, List.append_assoc]
    exact hstart hu hj

theorem SpelledFields.skipBlanks_ne {fields : List (String × Json)} {w : List Char}
    (h : SpelledFields fields w) (rest more : List Char) :
    skipBlanks (w ++ rest) ≠ '\x7d' :: more := by
  have hstart : ∀ {field v x}, SpelledField field v → skipBlanks (v ++ x) ≠ '\x7d' :: more := by
    intro field v x hf
    obtain ⟨ht, hu, hv, hj⟩ := hf
    rw [List.append_assoc, List.cons_append, skipBlanks_cons ht (by decide)]
    simp
  cases h with
  | last hf hv =>
    rw [List.append_assoc]
    exact hstart hf
  | cons hf hv h =>
    rw [List.append_assoc]
    exact hstart hf

theorem readArray_of_ne {cs : List Char} (h : ∀ more, skipBlanks cs ≠ ']' :: more)
    (item : Reader Json) :
    readArray item cs = (readItems item cs.length cs).map fun r => (.arr r.1, r.2) := by
  rw [readArray]
  split
  · rename_i rest hcs
    exact absurd hcs (h rest)
  · rfl

theorem readObject_of_ne {cs : List Char} (h : ∀ more, skipBlanks cs ≠ '\x7d' :: more)
    (item : Reader Json) :
    readObject item cs = (readFields item cs.length cs).map fun r => (.obj r.1, r.2) := by
  rw [readObject]
  split
  · rename_i rest hcs
    exact absurd hcs (h rest)
  · rfl

section

variable {item : Reader Json} {cs rest more : List Char} {p : Prop} [Decidable p] {fuel : Nat}

theorem readItems_last {j : Json} (h : item cs = if p then some (j, rest) else none)
    (hr : skipBlanks rest = ']' :: more) :
    readItems item (fuel + 1) cs = if p then some ([j], more) else none := by
  rw [readItems, h]
  split
  · simp only [Option.bind_eq_bind, Option.bind_some, hr]
  · rfl

theorem readItems_comma {j : Json} (h : item cs = if p then some (j, rest) else none)
    (hr : skipBlanks rest = ',' :: more) :
    readItems item (fuel + 1) cs =
      if p then (readItems item fuel more).map fun r => (j :: r.1, r.2) else none := by
  rw [readItems, h]
  split
  · simp only [Option.bind_eq_bind, Option.bind_some, hr]
    cases readItems item fuel more <;> rfl
  · rfl

theorem readFields_last {field : String × Json}
    (h : readField item cs = if p then some (field, rest) else none)
    (hr : skipBlanks rest = '\x7d' :: more) :
    readFields item (fuel + 1) cs = if p then some ([field], more) else none := by
  rw [readFields, h]
  split
  · simp only [Option.bind_eq_bind, Option.bind_some, hr]
  · rfl

theorem readFields_comma {field : String × Json}
    (h : readField item cs = if p then some (field, rest) else none)
    (hr : skipBlanks rest = ',' :: more) :
    readFields item (fuel + 1) cs =
      if p then (readFields item fuel more).map fun r => (field :: r.1, r.2) else none := by
  rw [readFields, h]
  split
  · simp only [Option.bind_eq_bind, Option.bind_some, hr]
    cases readFields item fuel more <;> rfl
  · rfl

end

theorem readValue_bracket {cs rest : List Char} {items : List Json}
    (h : ∀ levels, readArray (readValue levels) cs =
      if depthAll items ≤ levels then some (.arr items, rest) else none) (levels : Nat) :
    readValue levels ('[' :: cs) =
      if (Json.arr items).depth ≤ levels then some (.arr items, rest) else none := by
  cases levels with
  | zero => rfl
  | succ levels =>
    have hread : readValue (levels + 1) ('[' :: cs) = readArray (readValue levels) cs := rfl
    rw [hread, h levels]
    simp only [depth, Nat.add_le_add_iff_right]

theorem readValue_brace {cs rest : List Char} {fields : List (String × Json)}
    (h : ∀ levels, readObject (readValue levels) cs =
      if depthFields fields ≤ levels then some (.obj fields, rest) else none) (levels : Nat) :
    readValue levels ('\x7b' :: cs) =
      if (Json.obj fields).depth ≤ levels then some (.obj fields, rest) else none := by
  cases levels with
  | zero => rfl
  | succ levels =>
    have hread : readValue (levels + 1) ('\x7b' :: cs) = readObject (readValue levels) cs := rfl
    rw [hread, h levels]
    simp only [depth, Nat.add_le_add_iff_right]

mutual

theorem Spelled.read : ∀ {j : Json} {w : List Char}, Spelled j w → ∀ (levels : Nat)
    (rest : List Char),
    readValue levels (w ++ rest) = if j.depth ≤ levels then some (j, rest) else none
  | _, _, .text s, levels, rest => by
    have hread : readValue levels ('"' :: (s.toList.flatMap escape ++ '"' :: rest)) =
        (readString (s.toList.flatMap escape ++ '"' :: rest)).map fun r => (.str r.1, r.2) := by
      cases levels <;> rfl
    rw [List.cons_append, List.append_assoc, List.singleton_append, hread, readString_quoted]
    simp only [depth, Nat.zero_le, if_true, Option.map_some]
  | _, _, .emptyArray hu, levels, rest => by
    apply readValue_bracket
    intro levels
    change readArray _ (_ ++ _) = _
    rw [List.append_assoc, List.singleton_append, readArray, skipBlanks_cons hu (by decide)]
    rfl
  | _, _, .array h, levels, rest => by
    apply readValue_bracket
    intro levels
    have hfuel := Nat.le_trans h.length_le (List.length_append ▸ Nat.le_add_right _ rest.length)
    change readArray _ (_ ++ _) = _
    rw [readArray_of_ne (h.skipBlanks_ne rest), h.read levels rest hfuel]
    split <;> rfl
  | _, _, .emptyObject hu, levels, rest => by
    apply readValue_brace
    intro levels
    change readObject _ (_ ++ _) = _
    rw [List.append_assoc, List.singleton_append, readObject, skipBlanks_cons hu (by decide)]
    rfl
  | _, _, .object h, levels, rest => by
    apply readValue_brace
    intro levels
    have hfuel := Nat.le_trans h.length_le (List.length_append ▸ Nat.le_add_right _ rest.length)
    change readObject _ (_ ++ _) = _
    rw [readObject_of_ne (h.skipBlanks_ne rest), h.read levels rest hfuel]
    split <;> rfl

theorem SpelledItems.read : ∀ {items : List Json} {w : List Char}, SpelledItems items w →
    ∀ (levels : Nat) {fuel : Nat} (rest : List Char), items.length ≤ fuel →
    readItems (readValue levels) fuel (w ++ rest) =
      if depthAll items ≤ levels then some (items, rest) else none
  | _, _, .last (v := v) hu hj hv, levels, fuel, rest, hf => by
    obtain ⟨fuel, rfl⟩ := Nat.exists_eq_succ_of_ne_zero (Nat.ne_of_gt hf)
    have hfirst := hj.read levels (v ++ ']' :: rest)
    rw [← readValue_skip levels hu] at hfirst
    simp only [List.append_assoc, List.singleton_append]
    rw [readItems_last hfirst (skipBlanks_cons hv (by decide) rest)]
    simp only [depthAll, Nat.max_zero]
  | _, _, .cons (v := v) (x := x) hu hj hv h, levels, fuel, rest, hf => by
    obtain ⟨fuel, rfl⟩ := Nat.exists_eq_succ_of_ne_zero (Nat.ne_of_gt (Nat.zero_lt_of_lt hf))
    have hfirst := hj.read levels (v ++ ',' :: (x ++ rest))
    rw [← readValue_skip levels hu] at hfirst
    simp only [List.append_assoc, List.cons_append]
    rw [readItems_comma hfirst (skipBlanks_cons hv (by decide) _),
      h.read levels rest (Nat.le_of_succ_le_succ hf)]
    simp only [depthAll, Nat.max_le]
    split <;> split <;> simp_all

theorem SpelledFields.read : ∀ {fields : List (String × Json)} {w : List Char},
    SpelledFields fields w → ∀ (levels : Nat) {fuel : Nat} (rest : List Char),
    fields.length ≤ fuel → readFields (readValue levels) fuel (w ++ rest) =
      if depthFields fields ≤ levels then some (fields, rest) else none
  | _, _, .last (v := v) hfield hv, levels, fuel, rest, hf => by
    obtain ⟨fuel, rfl⟩ := Nat.exists_eq_succ_of_ne_zero (Nat.ne_of_gt hf)
    have hfirst := hfield.read levels (v ++ '\x7d' :: rest)
    simp only [List.append_assoc, List.singleton_append]
    rw [readFields_last hfirst (skipBlanks_cons hv (by decide) rest)]
    simp only [depthFields, Nat.max_zero]
  | _, _, .cons (v := v) (x := x) hfield hv h, levels, fuel, rest, hf => by
    obtain ⟨fuel, rfl⟩ := Nat.exists_eq_succ_of_ne_zero (Nat.ne_of_gt (Nat.zero_lt_of_lt hf))
    have hfirst := hfield.read levels (v ++ ',' :: (x ++ rest))
    simp only [List.append_assoc, List.cons_append]
    rw [readFields_comma hfirst (skipBlanks_cons hv (by decide) _),
      h.read levels rest (Nat.le_of_succ_le_succ hf)]
    simp only [depthFields, Nat.max_le]
    split <;> split <;> simp_all

theorem SpelledField.read : ∀ {field : String × Json} {w : List Char}, SpelledField field w →
    ∀ (levels : Nat) (rest : List Char),
    readField (readValue levels) (w ++ rest) =
      if field.2.depth ≤ levels then some (field, rest) else none
  | _, _, .mk ht hu hv hj, levels, rest => by
    simp only [List.append_assoc, List.cons_append]
    rw [readField, skipBlanks_cons ht (by decide)]
    simp only [readString_quoted, Option.bind_eq_bind, Option.bind_some,
      skipBlanks_cons hu (c := ':') (by decide), readValue_skip levels hv, hj.read levels rest]
    split <;> rfl

end

end ReactiveView.Json
