import GemStaging.Text.Search
import Mathlib.Data.List.Infix

/-!
Cuts of a text around a mark. The search for the mark is leftmost: what stands before the cut holds
no mark (`not_infix_of_cut?`), and where a mark cannot overlap itself that is all there is to it: a
text that holds none is cut off exactly before the first one (`cut?_append`). A mark may also be
found by its byte offset, and the text split there: the offset is one of a character.
-/

namespace GemStaging.Text

variable {α : Type} [BEq α] [LawfulBEq α] {a : α} {mark tail before after xs rest : List α}

theorem cut?_eq_none_iff : cut? mark xs = none ↔ ¬ mark <:+: xs := by
  rw [← occurs_iff, ← cut?_isSome]
  simp

theorem not_infix_of_cut? (hmark : mark ≠ []) (h : cut? mark xs = some (before, after)) :
    ¬ mark <:+: before := by
  induction xs generalizing before with
  | nil => simp [cut?, hmark] at h
  | cons a rest ih =>
    rw [cut?] at h
    split at h
    · obtain ⟨rfl, -⟩ := by simpa using h
      simpa using hmark
    · rename_i hno
      obtain ⟨⟨front, back⟩, hcut, heq⟩ := Option.map_eq_some_iff.1 h
      obtain ⟨rfl, rfl⟩ := by simpa using heq
      rw [List.infix_cons_iff]
      rintro (hbegins | hoccurs)
      · -- the mark would have been found at the start already
        apply hno
        rw [List.isPrefixOf_iff_prefix, eq_of_cut? hcut]
        exact hbegins.trans ⟨mark ++ back, by simp⟩
      · exact ih hcut hoccurs

omit [BEq α] [LawfulBEq α] in
theorem not_prefix_of_not_infix (ha : a ∉ tail) {c : α} (h : ¬ (a :: tail) <:+: c :: before) :
    ¬ (a :: tail) <+: c :: before ++ (a :: tail) ++ rest := by
  intro hbegins
  have hbefore : c :: before <+: c :: before ++ (a :: tail) ++ rest := ⟨a :: tail ++ rest, by simp⟩
  rcases List.prefix_or_prefix_of_prefix hbegins hbefore with hfits | ⟨beyond, hbeyond⟩
  · exact h hfits.isInfix
  · obtain ⟨rfl, rfl⟩ := List.cons.inj hbeyond
    rw [← hbeyond, List.append_assoc, List.prefix_append_right_inj] at hbegins
    cases beyond with
    | nil => exact h ⟨[], [], by simp⟩
    | cons b beyond =>
      obtain ⟨rfl, -⟩ := List.cons_prefix_cons.1 hbegins
      simp at ha

theorem cut?_append (ha : a ∉ tail) (h : ¬ (a :: tail) <:+: before) :
    cut? (a :: tail) (before ++ (a :: tail) ++ rest) = some (before, rest) := by
  induction before with
  | nil =>
    simp [cut?]
  | cons c before ih =>
    have hno : ¬ (a :: tail).isPrefixOf (c :: before ++ (a :: tail) ++ rest) :=
      fun hbegins => not_prefix_of_not_infix ha h (List.isPrefixOf_iff_prefix.1 hbegins)
    have hrest := ih fun hoccurs => h (hoccurs.trans (List.suffix_cons c before).isInfix)
    simp only [List.cons_append, List.append_assoc] at hno hrest ⊢
    rw [cut?, if_neg hno, hrest]
    rfl

theorem cut?_singleton (c : α) (xs : List α) : cut? [c] xs =
    if c ∈ xs then some (xs.takeWhile (· != c), (xs.dropWhile (· != c)).drop 1) else none := by
  induction xs with
  | nil => rfl
  | cons a xs ih =>
    by_cases ha : a = c
    · subst ha
      simp [cut?]
    · have hbegins : ¬ [c].isPrefixOf (a :: xs) := by simp [Ne.symm ha]
      rw [cut?, if_neg hbegins, ih]
      by_cases hc : c ∈ xs <;> simp [hc, ha, Ne.symm ha]

section Offsets

def width : List Char → Nat
  | [] => 0
  | c :: cs => c.utf8Size + width cs

/-- The two sides of a text at a byte offset; none where the offset lies outside the text or inside
a character. -/
def splitAt? : Nat → List Char → Option (List Char × List Char)
  | 0, cs => some ([], cs)
  | _ + 1, [] => none
  | n + 1, c :: cs =>
    if c.utf8Size ≤ n + 1 then
      (splitAt? (n + 1 - c.utf8Size) cs).map fun (before, after) => (c :: before, after)
    else none

def offset? (mark : List Char) : List Char → Option Nat
  | [] => if mark.isEmpty then some 0 else none
  | c :: cs =>
    if mark.isPrefixOf (c :: cs) then some 0 else (offset? mark cs).map (c.utf8Size + ·)

theorem width_append (cs ds : List Char) : width (cs ++ ds) = width cs + width ds := by
  induction cs with
  | nil => simp [width]
  | cons c cs ih => simp [width, ih, Nat.add_assoc]

theorem splitAt?_width (before after : List Char) :
    splitAt? (width before) (before ++ after) = some (before, after) := by
  induction before with
  | nil => simp [width, splitAt?]
  | cons c before ih =>
    have hpos := c.utf8Size_pos
    have hwidth : width (c :: before) = width before + c.utf8Size - 1 + 1 := by
      simp [width]
      omega
    have hfits : c.utf8Size ≤ width before + c.utf8Size - 1 + 1 := by omega
    have hrest : width before + c.utf8Size - 1 + 1 - c.utf8Size = width before := by omega
    rw [hwidth, List.cons_append, splitAt?, if_pos hfits, hrest, ih]
    rfl

theorem offset?_eq (mark cs : List Char) :
    offset? mark cs = (cut? mark cs).map fun parts => width parts.1 := by
  induction cs with
  | nil => by_cases h : mark.isEmpty <;> simp [offset?, cut?, h, width]
  | cons c cs ih =>
    rw [offset?, cut?, ih]
    split
    · simp [width]
    · cases cut? mark cs with
      | none => rfl
      | some parts => simp [width]

end Offsets

end GemStaging.Text
