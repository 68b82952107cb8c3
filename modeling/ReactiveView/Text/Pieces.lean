namespace ReactiveView

/-- The pieces of a text between the occurrences of a character; there is one piece more than
there are occurrences. -/
def pieces (separator : Char) : List Char → List (List Char)
  | [] => [[]]
  | c :: rest =>
    if c = separator then [] :: pieces separator rest
    else match pieces separator rest with
      | piece :: others => (c :: piece) :: others
      | [] => [[c]]

def splitAt (separator : Char) (s : String) : List String :=
  (pieces separator s.toList).map String.ofList

def splitOnce? (separator : Char) (cs : List Char) : Option (List Char × List Char) :=
  match cs.dropWhile (· != separator) with
  | [] => none
  | _ :: rest => some (cs.takeWhile (· != separator), rest)

theorem pieces_ne_nil (separator : Char) (cs : List Char) : pieces separator cs ≠ [] := by
  cases cs with
  | nil => simp [pieces]
  | cons c rest =>
    simp only [pieces]
    split
    · simp
    · split <;> simp

theorem intercalate_pieces (separator : Char) (cs : List Char) :
    [separator].intercalate (pieces separator cs) = cs := by
  induction cs with
  | nil => rfl
  | cons c rest ih =>
    obtain ⟨piece, others, h⟩ := List.exists_cons_of_ne_nil (pieces_ne_nil separator rest)
    rw [h] at ih
    simp only [pieces, h]
    split
    · rename_i heq
      subst heq
      simp [List.intercalate_cons_cons, ih]
    · cases others with
      | nil => simpa using ih
      | cons b bs =>
        simp only [List.intercalate_cons_cons, List.cons_append, List.cons.injEq, true_and] at ih ⊢
        exact ih

end ReactiveView
