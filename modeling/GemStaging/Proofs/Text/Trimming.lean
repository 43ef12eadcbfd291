import GemStaging.Text.Blank
import Mathlib.Data.List.TakeWhile

/-!
Texts without the blanks at their ends. Nothing is left of a text exactly where all of it is blank
(`isEmpty_trim`).
-/

namespace GemStaging.Text

theorem trimChars_eq_nil_iff {cs : List Char} : trimChars cs = [] ↔ ∀ c ∈ cs, isBlank c := by
  rw [trimChars, List.reverse_eq_nil_iff, List.dropWhile_eq_nil_iff]
  constructor
  · intro h
    rw [← List.dropWhile_eq_nil_iff]
    by_contra hne
    -- what is left at the start does not start with a blank
    have hhead := List.head_dropWhile_not isBlank hne
    have hblank := h _ (List.mem_reverse.2 (List.head_mem hne))
    simp [hhead] at hblank
  · intro h c hc
    exact h c ((List.dropWhile_suffix isBlank).mem (List.mem_reverse.1 hc))

theorem isEmpty_trim (s : String) : (trim s).isEmpty = isBlankText s := by
  rw [Bool.eq_iff_iff, String.isEmpty_iff, trim, isBlankText, List.all_eq_true,
    ← trimChars_eq_nil_iff, ← String.toList_inj]
  simp

end GemStaging.Text
