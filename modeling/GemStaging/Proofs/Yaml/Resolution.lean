import GemStaging.Yaml.Plain
import Mathlib.Tactic.IntervalCases

/-!
Which plain scalars are still the same when the value that they stand for is written out. A whole
number is, unless its author wrote a plus sign, a mark for another base, or a sign before a zero
(`toString_eq_iff`). What a scalar can stand for is `Resolves`.
-/

namespace GemStaging.Yaml

section Digits
variable {c : Char} {cs : List Char} {acc d n : Nat}

theorem digitValue?_ten (h : Text.digitValue? 10 c = some d) :
    c.isDigit ∧ d < 10 ∧ d.digitChar = c := by
  obtain ⟨hvalue, hlt⟩ := Option.filter_eq_some_iff.1 h
  have hlt : d < 10 := of_decide_eq_true hlt
  split at hvalue
  · rename_i hrange
    obtain rfl := Option.some.inj hvalue
    have hrange : 48 ≤ c.toNat ∧ c.toNat ≤ 57 := by
      simpa [Char.le_def, UInt32.le_iff_toNat_le] using hrange
    refine ⟨by simpa [Char.isDigit, UInt32.le_iff_toNat_le] using hrange, hlt, ?_⟩
    rw [← Char.toNat_inj, Nat.toNat_digitChar_of_lt_ten hlt]
    omega
  · exfalso
    split at hvalue
    · rename_i hrange
      obtain rfl := Option.some.inj hvalue
      have hrange : 97 ≤ c.toNat ∧ c.toNat ≤ 102 := by
        simpa [Char.le_def, UInt32.le_iff_toNat_le] using hrange
      omega
    · split at hvalue
      · rename_i hrange
        obtain rfl := Option.some.inj hvalue
        have hrange : 65 ≤ c.toNat ∧ c.toNat ≤ 70 := by
          simpa [Char.le_def, UInt32.le_iff_toNat_le] using hrange
        omega
      · cases hvalue

theorem toDigits_of_readDigits (hacc : 0 < acc) (h : readDigits 10 acc cs = some n) :
    Nat.toDigits 10 n = Nat.toDigits 10 acc ++ cs := by
  induction cs generalizing acc with
  | nil =>
    obtain rfl := Option.some.inj h
    rw [List.append_nil]
  | cons c cs ih =>
    obtain ⟨d, hd, hrest⟩ := Option.bind_eq_some_iff.1 h
    obtain ⟨-, hlt, hchar⟩ := digitValue?_ten hd
    have hcut := Nat.toDigits_append_toDigits (by decide : 1 < 10) hacc hlt
    rw [Nat.toDigits_of_lt_base hlt, hchar, Nat.mul_comm] at hcut
    rw [ih (by omega) hrest, ← hcut, List.append_assoc]
    rfl

theorem isDigit_of_readDigits (h : readDigits 10 acc cs = some n) : ∀ c ∈ cs, c.isDigit := by
  induction cs generalizing acc with
  | nil => simp
  | cons c cs ih =>
    obtain ⟨d, hd, hrest⟩ := Option.bind_eq_some_iff.1 h
    exact List.forall_mem_cons.2 ⟨(digitValue?_ten hd).1, ih hrest⟩

theorem toDigits_of_readNatural? (h : readNatural? 10 cs = some n)
    (hidle : ∀ ds, cs = '0' :: ds → ds ≠ [] → ¬ ds.all Char.isDigit) : Nat.toDigits 10 n = cs := by
  cases cs with
  | nil => cases h
  | cons c cs =>
    obtain ⟨d, hd, hrest⟩ := Option.bind_eq_some_iff.1 h
    obtain ⟨hdigit, hlt, rfl⟩ := digitValue?_ten hd
    rcases Nat.eq_zero_or_pos d with rfl | hpos
    · have hdigits := isDigit_of_readDigits hrest
      cases cs with
      | nil =>
        obtain rfl := Option.some.inj hrest
        rfl
      | cons c cs => exact absurd (List.all_eq_true.2 hdigits) (hidle _ rfl (by simp))
    · have hd : 0 < 0 * 10 + d := by omega
      rw [toDigits_of_readDigits hd hrest, Nat.zero_mul, Nat.zero_add,
        Nat.toDigits_of_lt_base hlt]
      rfl

end Digits

section Numbers

/-- Digits behind a mark for another base than ten. -/
def Marked (cs : List Char) : Prop := ∃ base ∈ ['x', 'o', 'b'], ['0', base] <+: cs

/-- A whole number as nobody would write it out: with a plus sign, in another base, or as a zero
behind a sign. -/
def Unusual (cs : List Char) : Prop :=
  ['+'] <+: cs ∨ cs = ['-', '0'] ∨ Marked cs ∨ ∃ ds, cs = '-' :: ds ∧ Marked ds

variable {cs : List Char} {n : Int} {m : Nat}

theorem readMagnitude?_of_not_marked (h : ¬ Marked cs) :
    readMagnitude? cs = readNatural? 10 cs := by
  rw [readMagnitude?.eq_def]
  split
  · exact absurd ⟨'x', by simp, _, rfl⟩ h
  · exact absurd ⟨'o', by simp, _, rfl⟩ h
  · exact absurd ⟨'b', by simp, _, rfl⟩ h
  · rfl

theorem toDigits_of_readMagnitude? (hmarked : ¬ Marked cs)
    (hidle : hasIdleZero ('-' :: cs) = false ∨ hasIdleZero cs = false)
    (h : readMagnitude? cs = some m) : Nat.toDigits 10 m = cs := by
  rw [readMagnitude?_of_not_marked hmarked] at h
  refine toDigits_of_readNatural? h fun rest heq hne hall => ?_
  obtain ⟨d, rest, rfl⟩ := List.exists_cons_of_ne_nil hne
  subst heq
  exact absurd hall (by simpa [hasIdleZero] using hidle)

theorem mem_toString {c : Char} (h : c ∈ (toString n).toList) : c.isDigit ∨ c = '-' := by
  rw [Int.toString_eq_repr, Int.repr_eq_if] at h
  have hdigit {m : Nat} (h : c ∈ m.repr.toList) : c.isDigit :=
    Nat.isDigit_of_mem_toDigits (by decide) (by decide) (Nat.toList_repr ▸ h)
  split at h
  · exact .inl (hdigit h)
  · rw [String.toList_append] at h
    rcases List.mem_append.1 h with h | h
    · exact .inr (by simpa using h)
    · exact .inl (hdigit h)

theorem not_mem_toString_of_marked (h : Marked cs) : ∃ c ∈ cs, c ∉ (toString n).toList := by
  obtain ⟨base, hbase, rest, rfl⟩ := h
  refine ⟨base, by simp, fun hmem => ?_⟩
  have hno : ¬ (base.isDigit ∨ base = '-') := by
    obtain rfl | rfl | rfl : base = 'x' ∨ base = 'o' ∨ base = 'b' := by simpa using hbase
    all_goals decide
  exact hno (mem_toString hmem)

theorem readInteger?_eq_some (h : readInteger? cs = some n) : hasIdleZero cs = false ∧
    ((∃ ds m, cs = '-' :: ds ∧ readMagnitude? ds = some m ∧ n = -(m : Int)) ∨
      (∃ ds, cs = '+' :: ds) ∨
      ((∀ ds, cs ≠ '-' :: ds) ∧ ∃ m, readMagnitude? cs = some m ∧ n = (m : Int))) := by
  rw [readInteger?.eq_def] at h
  split at h
  · cases h
  · rename_i hidle
    refine ⟨by simpa using hidle, ?_⟩
    split at h
    · obtain ⟨k, hk, rfl⟩ := Option.map_eq_some_iff.1 h
      obtain ⟨m, hm, hk⟩ := Option.bind_eq_some_iff.1 hk
      obtain rfl := Option.some.inj hk
      exact .inl ⟨_, m, rfl, hm, rfl⟩
    · exact .inr (.inl ⟨_, rfl⟩)
    · rename_i hminus hplus
      obtain ⟨k, hk, rfl⟩ := Option.map_eq_some_iff.1 h
      obtain ⟨m, hm, hk⟩ := Option.bind_eq_some_iff.1 hk
      obtain rfl := Option.some.inj hk
      exact .inr (.inr ⟨hminus, m, hm, rfl⟩)

/-- A whole number is written out as its author wrote it, unless that is unusual. -/
theorem toString_eq_iff (h : readInteger? cs = some n) :
    (toString n).toList = cs ↔ ¬ Unusual cs := by
  constructor
  · rintro heq (⟨rest, rfl⟩ | rfl | hmarked | ⟨ds, rfl, hmarked⟩)
    · have hplus := mem_toString (n := n) (c := '+') (by rw [heq]; simp)
      revert hplus
      decide
    · obtain rfl : n = 0 := by
        have hzero : readInteger? ['-', '0'] = some 0 := by decide
        exact Option.some.inj (h.symm.trans hzero)
      revert heq
      decide
    · obtain ⟨c, hc, hno⟩ := not_mem_toString_of_marked (n := n) hmarked
      exact hno (heq ▸ hc)
    · obtain ⟨c, hc, hno⟩ := not_mem_toString_of_marked (n := n) hmarked
      exact hno (heq ▸ List.mem_cons_of_mem _ hc)
  · intro husual
    rw [Int.toString_eq_repr, Int.repr_eq_if]
    obtain ⟨hidle, ⟨ds, m, rfl, hm, rfl⟩ | ⟨ds, rfl⟩ | ⟨hminus, m, hm, rfl⟩⟩ :=
      readInteger?_eq_some h
    · have hmarked : ¬ Marked ds := fun hmarked => husual (.inr (.inr (.inr ⟨ds, rfl, hmarked⟩)))
      have hdigits := toDigits_of_readMagnitude? hmarked (.inl hidle) hm
      have hpos : m ≠ 0 := fun hzero => by
        subst hzero
        exact husual (.inr (.inl (congrArg ('-' :: ·) hdigits.symm)))
      have hneg : ¬ (0 : Int) ≤ -(m : Int) := by omega
      rw [if_neg hneg, neg_neg, Int.toNat_natCast, String.toList_append, Nat.toList_repr, hdigits]
      rfl
    · exact absurd (.inl ⟨ds, rfl⟩) husual
    · have hmarked : ¬ Marked cs := fun hmarked => husual (.inr (.inr (.inl hmarked)))
      have hdigits := toDigits_of_readMagnitude? hmarked (.inr hidle) hm
      rw [if_pos (Int.natCast_nonneg m), Int.toNat_natCast, Nat.toList_repr]
      exact hdigits

end Numbers

section Resolution

/-- What a plain scalar can stand for, and what its text is like then. -/
inductive Resolves (s : String) : Atom → Prop where
  | nothing : Resolves s .nothing
  | truth {b : Bool} : readTruth? s = some b → Resolves s (.truth b)
  | integer {n : Int} : readTruth? s = none → readInteger? s.toList = some n →
      Resolves s (.integer n)
  | wide (n : Int) : Resolves s (.wide n)
  | decimal (d : Decimal.Binary64) : Resolves s (.decimal d)
  | text : readTruth? s = none → Resolves s (.text s)

theorem resolves (s : String) : Resolves s (.ofPlain s) := by
  rw [Atom.ofPlain]
  split
  · exact .nothing
  · split
    · exact .truth ‹_›
    · rename_i htruth
      split
      · rename_i a ha
        obtain ⟨n, hn, hatom⟩ := Option.bind_eq_some_iff.1 ha
        rw [integerAtom?] at hatom
        split at hatom
        · obtain rfl := Option.some.inj hatom
          exact .integer htruth hn
        · split at hatom
          · obtain rfl := Option.some.inj hatom
            exact .wide n
          · cases hatom
      · split
        · exact .text htruth
        · split
          · exact .decimal _
          · exact .text htruth

end Resolution

end GemStaging.Yaml
