/-!
Searching a text for another one. The search is literal and leftmost: `cut?` splits a text around
the first occurrence of a mark, and `occurs` says whether there is one at all, which is
the same as the mark being a contiguous part (`occurs_iff`).
-/

namespace GemStaging.Text

def occurs {α : Type} [BEq α] (mark : List α) : List α → Bool
  | [] => mark.isEmpty
  | a :: rest => mark.isPrefixOf (a :: rest) || occurs mark rest

theorem occurs_iff {α : Type} [BEq α] [LawfulBEq α] (mark : List α) (xs : List α) :
    occurs mark xs = true ↔ mark <:+: xs := by
  induction xs with
  | nil => simp [occurs]
  | cons a rest ih => simp [occurs, ih, List.infix_cons_iff]

def contains (text mark : String) : Bool :=
  occurs mark.toList text.toList

/-- What stands before the first occurrence of the mark, and what stands after it. -/
def cut? {α : Type} [BEq α] (mark : List α) : List α → Option (List α × List α)
  | [] => if mark.isEmpty then some ([], []) else none
  | a :: rest =>
    if mark.isPrefixOf (a :: rest) then some ([], (a :: rest).drop mark.length)
    else (cut? mark rest).map fun (before, after) => (a :: before, after)

/-- A cut loses nothing: the two parts around the mark are the list. -/
theorem eq_of_cut? {α : Type} [BEq α] [LawfulBEq α] {mark xs before after : List α}
    (h : cut? mark xs = some (before, after)) : xs = before ++ mark ++ after := by
  induction xs generalizing before with
  | nil => grind [cut?]
  | cons a rest ih =>
    simp only [cut?] at h
    split at h
    · rename_i hp
      obtain ⟨t, ht⟩ := List.isPrefixOf_iff_prefix.1 hp
      obtain ⟨rfl, rfl⟩ := by simpa using h
      simp [← ht]
    · obtain ⟨⟨b, t⟩, hb, he⟩ := Option.map_eq_some_iff.1 h
      obtain ⟨rfl, rfl⟩ := by simpa using he
      simp [ih hb]

/-- There is a cut exactly where the mark occurs. -/
theorem cut?_isSome {α : Type} [BEq α] (mark xs : List α) :
    (cut? mark xs).isSome = occurs mark xs := by
  induction xs with
  | nil => by_cases h : mark.isEmpty <;> simp [cut?, occurs, h]
  | cons a rest ih => by_cases h : mark.isPrefixOf (a :: rest) <;> simp [cut?, occurs, h, ih]

/-- The text without the copies of a character at its end. -/
def dropTrailing (c : Char) (s : String) : String :=
  String.ofList (s.toList.reverse.dropWhile (· == c)).reverse

/-- The pieces of a list between the occurrences of a separator; one more than the separators. -/
def splitOn {α : Type} [BEq α] (sep : α) : List α → List (List α)
  | [] => [[]]
  | a :: rest =>
    if a == sep then [] :: splitOn sep rest
    else match splitOn sep rest with
      | [] => [[a]]
      | piece :: more => (a :: piece) :: more

theorem splitOn_ne_nil {α : Type} [BEq α] (sep : α) (xs : List α) : splitOn sep xs ≠ [] := by
  cases xs with
  | nil => simp [splitOn]
  | cons a rest => simp only [splitOn]; split <;> try split
                   all_goals simp

/-- The pieces put together again with the separator between them are the list. -/
theorem intercalate_splitOn {α : Type} [BEq α] [LawfulBEq α] (sep : α) (xs : List α) :
    [sep].intercalate (splitOn sep xs) = xs := by
  induction xs with
  | nil => rfl
  | cons a rest ih =>
    simp only [splitOn]
    cases h : splitOn sep rest with
    | nil => exact absurd h (splitOn_ne_nil sep rest)
    | cons piece more =>
      rw [h] at ih
      by_cases ha : a == sep
      · simp only [ha, if_true]
        rw [← ih, eq_of_beq ha]
        simp [List.intercalate, List.intersperse]
      · simp only [ha]
        cases more with
        | nil => simpa [List.intercalate] using ih
        | cons p m => simpa [List.intercalate, List.intersperse] using ih

end GemStaging.Text
