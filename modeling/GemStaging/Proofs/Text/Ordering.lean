import GemStaging.Text.Utf8
import Mathlib.Data.String.Basic

/-!
The order of texts is the order of their bytes (`Text.encode_lt_encode_iff`). Characters are written
so that the greater one is greater at the first byte where they differ.
-/

namespace GemStaging.Text

variable {m n : Nat} {s t : Bytes}

/-- Bytes are in order if the first ones are, and the later ones where the first are the same. -/
theorem ofNat_cons_lt (hm : m < 256) (hn : n < 256) (hle : m ≤ n) (h : m = n → s < t) :
    UInt8.ofNat m :: s < UInt8.ofNat n :: t := by
  rw [List.cons_lt_cons_iff, UInt8.lt_iff_toNat_lt, ← UInt8.toNat_inj, UInt8.toNat_ofNat',
    UInt8.toNat_ofNat', Nat.mod_eq_of_lt hm, Nat.mod_eq_of_lt hn]
  rcases Nat.lt_or_eq_of_le hle with hlt | heq
  · exact .inl hlt
  · exact .inr ⟨heq, h heq⟩

theorem encodeChar_append_lt {c d : Char} (h : c < d) (s t : Bytes) :
    String.utf8EncodeChar c ++ s < String.utf8EncodeChar d ++ t := by
  have hvalid := d.valid
  unfold UInt32.isValidChar Nat.isValidChar at hvalid
  rw [Char.lt_def, UInt32.lt_iff_toNat_lt] at h
  obtain ⟨v, hv⟩ : ∃ v, c.val.toNat = v := ⟨_, rfl⟩
  obtain ⟨w, hw⟩ : ∃ w, d.val.toNat = w := ⟨_, rfl⟩
  rw [hv, hw] at h
  rw [hw] at hvalid
  rw [String.utf8EncodeChar, String.utf8EncodeChar, hv, hw]
  by_cases hone : w ≤ 127
  · rw [if_pos (by omega : v ≤ 127), if_pos hone]
    exact ofNat_cons_lt (by omega) (by omega) (by omega) (by omega)
  rw [if_neg hone]
  by_cases htwo : w ≤ 2047
  · rw [if_pos htwo, if_pos (by omega : v ≤ 2047)]
    split
    · exact ofNat_cons_lt (by omega) (by omega) (by omega) (by omega)
    · exact ofNat_cons_lt (by omega) (by omega) (by omega) fun hfirst =>
        ofNat_cons_lt (by omega) (by omega) (by omega) (by omega)
  rw [if_neg htwo]
  by_cases hthree : w ≤ 65535
  · rw [if_pos hthree, if_pos (by omega : v ≤ 65535)]
    split
    · exact ofNat_cons_lt (by omega) (by omega) (by omega) (by omega)
    split
    · exact ofNat_cons_lt (by omega) (by omega) (by omega) (by omega)
    · exact ofNat_cons_lt (by omega) (by omega) (by omega) fun hfirst =>
        ofNat_cons_lt (by omega) (by omega) (by omega) fun hsecond =>
          ofNat_cons_lt (by omega) (by omega) (by omega) (by omega)
  rw [if_neg hthree]
  split
  · exact ofNat_cons_lt (by omega) (by omega) (by omega) (by omega)
  split
  · exact ofNat_cons_lt (by omega) (by omega) (by omega) (by omega)
  split
  · exact ofNat_cons_lt (by omega) (by omega) (by omega) (by omega)
  · exact ofNat_cons_lt (by omega) (by omega) (by omega) fun hfirst =>
      ofNat_cons_lt (by omega) (by omega) (by omega) fun hsecond =>
        ofNat_cons_lt (by omega) (by omega) (by omega) fun hthird =>
          ofNat_cons_lt (by omega) (by omega) (by omega) (by omega)

theorem flatMap_encodeChar_lt {cs ds : List Char} (h : cs < ds) :
    cs.flatMap String.utf8EncodeChar < ds.flatMap String.utf8EncodeChar := by
  induction cs generalizing ds with
  | nil =>
    cases ds with
    | nil => exact absurd h (List.lt_irrefl _)
    | cons d ds =>
      rw [List.flatMap_cons, List.flatMap_nil]
      cases hd : String.utf8EncodeChar d with
      | nil => simp at hd
      | cons b more => exact List.nil_lt_cons _ _
  | cons c cs ih =>
    cases ds with
    | nil => exact absurd h (List.not_lt_nil _)
    | cons d ds =>
      rw [List.flatMap_cons, List.flatMap_cons]
      rcases List.cons_lt_cons_iff.1 h with hlt | ⟨rfl, hrest⟩
      · exact encodeChar_append_lt hlt _ _
      · exact List.append_left_lt (ih hrest)

/-- Texts are in the order of their bytes. -/
theorem encode_lt_encode_iff {a b : String} : encode a < encode b ↔ a < b := by
  have hmono {a b : String} (h : a < b) : encode a < encode b :=
    flatMap_encodeChar_lt (String.lt_iff.1 h)
  refine ⟨fun h => ?_, hmono⟩
  rcases lt_trichotomy a b with hlt | rfl | hgt
  · exact hlt
  · exact absurd h (List.lt_irrefl _)
  · exact absurd h (List.lt_asymm (hmono hgt))

end GemStaging.Text
