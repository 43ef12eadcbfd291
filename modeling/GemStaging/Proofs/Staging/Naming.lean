import GemStaging.Package
import GemStaging.Proofs.Path.Hops

/-!
The names of a package's files. Where neither the name nor the version of a package holds a slash,
everything that is named after its full name is one name in a directory. What is taken for a
descriptor are the names of the form `name-version*.gemspec`, and where the version ends in a
beginning of `.gemspec`, also the name in which that ending is not repeated
(`Package.matchesDescriptor_pattern`).
-/

namespace GemStaging.Package

open GemStaging.Path

structure Slashless (p : Package) : Prop where
  name : '/' ∉ p.name.toList
  version : '/' ∉ p.version.toList

theorem toList_fullName (p : Package) :
    p.fullName.toList = p.name.toList ++ '-' :: p.version.toList := by
  simp [fullName]

theorem matchesUnpacked_fullName (p : Package) : p.matchesUnpacked p.fullName :=
  List.isPrefixOf_iff_prefix.2 (List.prefix_refl _)

/-- The file name of the descriptor of a package that has no platform. -/
def descriptorName (p : Package) : String := p.fullName ++ ".gemspec"

theorem matchesDescriptor_iff {p : Package} {file : String} : p.matchesDescriptor file ↔
    p.fullName.toList <+: file.toList ∧ ".gemspec".toList <:+ file.toList := by
  rw [matchesDescriptor, Bool.and_eq_true, List.isPrefixOf_iff_prefix, List.isSuffixOf_iff_suffix]

theorem matchesDescriptor_descriptorName (p : Package) :
    p.matchesDescriptor p.descriptorName := by
  rw [matchesDescriptor_iff, descriptorName, String.toList_append]
  exact ⟨List.prefix_append _ _, List.suffix_append _ _⟩

theorem dash_mem_fullName (p : Package) : '-' ∈ p.fullName.toList := by
  simp [toList_fullName]

theorem archiveName_ne_rubygems (p : Package) : p.archiveName ≠ "rubygems" := by
  intro h
  have hdash : '-' ∈ p.archiveName.toList := by simp [archiveName, dash_mem_fullName]
  rw [h] at hdash
  simp at hdash

theorem Slashless.isName_append {p : Package} (h : p.Slashless) {rest : String}
    (hrest : '/' ∉ rest.toList) : IsName (p.fullName ++ rest) := by
  have hdash : '-' ∈ (p.fullName ++ rest).toList := by simp [toList_fullName]
  refine ⟨?_, ?_, ?_, ?_⟩
  · simpa [toList_fullName] using ⟨h.name, h.version, hrest⟩
  all_goals
    intro heq
    rw [heq] at hdash
    simp at hdash

theorem Slashless.isName_fullName {p : Package} (h : p.Slashless) : IsName p.fullName := by
  have hname : IsName (p.fullName ++ "") := h.isName_append (by simp)
  rwa [String.append_empty] at hname

theorem Slashless.isName_bin {p : Package} (h : p.Slashless) :
    ∀ n ∈ [p.fullName, "bin"], IsName n := by
  simpa using ⟨h.isName_fullName, by decide⟩

theorem Slashless.isName_archiveName {p : Package} (h : p.Slashless) : IsName p.archiveName :=
  h.isName_append (by simp)

section Pattern

/-- A list that begins with one list and ends in another holds both, one after the other, unless an
end of the first is a beginning of the second and the two share it. -/
theorem prefix_and_suffix_iff {α : Type} {front back xs : List α} :
    front <+: xs ∧ back <:+ xs ↔ (∃ between, xs = front ++ between ++ back) ∨
      ∃ before shared after, shared ≠ [] ∧ front = before ++ shared ∧ back = shared ++ after ∧
        xs = before ++ back := by
  constructor
  · rintro ⟨⟨rest, rfl⟩, before, heq⟩
    rcases List.append_eq_append_iff.1 heq with ⟨shared, hfront, hback⟩ | ⟨between, rfl, rfl⟩
    · by_cases hnil : shared = []
      · subst hnil
        exact .inl ⟨[], by simp [hfront, hback]⟩
      · exact .inr ⟨before, shared, rest, hnil, hfront, hback, heq.symm⟩
    · exact .inl ⟨between, by simp⟩
  · rintro (⟨between, rfl⟩ | ⟨before, shared, after, -, rfl, rfl, rfl⟩)
    · exact ⟨⟨between ++ back, by simp⟩, List.suffix_append _ _⟩
    · exact ⟨⟨after, by simp⟩, List.suffix_append _ _⟩

variable {p : Package} {file stem : String}

/-- The file name is of the form `name-version*.gemspec`. -/
def IsDescriptor (p : Package) (file : String) : Prop :=
  ∃ platform, file = p.fullName ++ platform ++ ".gemspec"

/-- The version is made of a stem and an ending that `.gemspec` begins with. -/
def Overlaps (p : Package) (stem : String) : Prop :=
  ∃ ending rest, ending ≠ "" ∧ p.version = stem ++ ending ∧ ".gemspec" = ending ++ rest

/-- The name of the descriptor for a stem of the version. -/
def stemDescriptor (p : Package) (stem : String) : String := p.name ++ "-" ++ stem ++ ".gemspec"

/-- What the full name shares with `.gemspec` is a part of the version, for the dash before it is
not shared. -/
theorem overlaps_of_fullName {before shared after : List Char} (hne : shared ≠ [])
    (hfront : p.fullName.toList = before ++ shared) (hback : ".gemspec".toList = shared ++ after) :
    ∃ stem, p.Overlaps stem ∧ before = p.name.toList ++ '-' :: stem.toList := by
  have hdash : '-' ∉ shared := by
    intro hmem
    have hext : '-' ∈ ".gemspec".toList := hback ▸ List.mem_append_left after hmem
    simp at hext
  have hversion : shared <:+ p.version.toList := by
    have hshared : shared <:+ p.fullName.toList := ⟨before, hfront.symm⟩
    have hdashed : '-' :: p.version.toList <:+ p.fullName.toList :=
      ⟨p.name.toList, (toList_fullName p).symm⟩
    rcases List.suffix_or_suffix_of_suffix hshared hdashed with hshort | hlong
    · rcases List.suffix_cons_iff.1 hshort with rfl | hversion
      · simp at hdash
      · exact hversion
    · exact absurd (hlong.mem List.mem_cons_self) hdash
  obtain ⟨stem, hstem⟩ := hversion
  refine ⟨String.ofList stem, ⟨String.ofList shared, String.ofList after, ?_, ?_, ?_⟩, ?_⟩
  · simpa [← String.toList_inj] using hne
  · simpa [← String.toList_inj] using hstem.symm
  · simpa [← String.toList_inj] using hback
  · rw [toList_fullName, ← hstem, ← List.cons_append, ← List.append_assoc] at hfront
    simpa using (List.append_cancel_right hfront).symm

theorem matchesDescriptor_eq_pattern : p.matchesDescriptor file ↔
    p.IsDescriptor file ∨ ∃ stem, p.Overlaps stem ∧ file = p.stemDescriptor stem := by
  rw [matchesDescriptor_iff, prefix_and_suffix_iff]
  refine or_congr ?_ ?_
  · constructor
    · rintro ⟨between, heq⟩
      exact ⟨String.ofList between, by simpa [← String.toList_inj] using heq⟩
    · rintro ⟨platform, rfl⟩
      exact ⟨platform.toList, by simp⟩
  · constructor
    · rintro ⟨before, shared, after, hne, hfront, hback, heq⟩
      obtain ⟨stem, hstem, rfl⟩ := overlaps_of_fullName hne hfront hback
      exact ⟨stem, hstem, by simpa [← String.toList_inj, stemDescriptor] using heq⟩
    · rintro ⟨stem, ⟨ending, rest, hne, hversion, hback⟩, rfl⟩
      refine ⟨p.name.toList ++ '-' :: stem.toList, ending.toList, rest.toList, ?_, ?_, ?_, ?_⟩
      · simpa using hne
      · simp [toList_fullName, hversion]
      · rw [hback, String.toList_append]
      · simp [stemDescriptor]

theorem not_isDescriptor_of_overlaps (h : p.Overlaps stem) :
    ¬ p.IsDescriptor (p.stemDescriptor stem) := by
  obtain ⟨ending, rest, hne, hversion, -⟩ := h
  rintro ⟨platform, heq⟩
  have hlength := congrArg (·.toList.length) heq
  simp only [stemDescriptor, fullName, hversion, String.toList_append,
    List.length_append] at hlength
  have hpos : 0 < ending.toList.length := List.length_pos_iff.2 (by simpa using hne)
  omega

/-- What is taken for a descriptor: the names of the form `name-version*.gemspec`, and where the
version ends in a beginning of `.gemspec`, also the name in which that ending stands only once. So
the names of this form are all that is taken exactly where the version has no such ending. -/
theorem matchesDescriptor_pattern (p : Package) :
    (∀ file, p.matchesDescriptor file ↔
      p.IsDescriptor file ∨ ∃ stem, p.Overlaps stem ∧ file = p.stemDescriptor stem) ∧
    ((∀ file, p.matchesDescriptor file ↔ p.IsDescriptor file) ↔ ∀ stem, ¬ p.Overlaps stem) := by
  refine ⟨fun _ => matchesDescriptor_eq_pattern, fun h stem hstem => ?_, fun h file => ?_⟩
  · have hmatches : p.matchesDescriptor (p.stemDescriptor stem) :=
      matchesDescriptor_eq_pattern.2 (.inr ⟨stem, hstem, rfl⟩)
    exact not_isDescriptor_of_overlaps hstem ((h _).1 hmatches)
  · rw [matchesDescriptor_eq_pattern]
    refine or_iff_left ?_
    rintro ⟨stem, hstem, -⟩
    exact h stem hstem

/-- Versions that end in a dot, in `.gem` and in `.gemspec` take `a-1.gemspec` for a descriptor. -/
theorem overlapping_samples :
    (Package.matchesDescriptor ⟨"a", "1.", false⟩ "a-1.gemspec" ∧
      ¬ Package.IsDescriptor ⟨"a", "1.", false⟩ "a-1.gemspec") ∧
    (Package.matchesDescriptor ⟨"a", "1.gem", false⟩ "a-1.gemspec" ∧
      ¬ Package.IsDescriptor ⟨"a", "1.gem", false⟩ "a-1.gemspec") ∧
    (Package.matchesDescriptor ⟨"a", "1.gemspec", false⟩ "a-1.gemspec" ∧
      ¬ Package.IsDescriptor ⟨"a", "1.gemspec", false⟩ "a-1.gemspec") := by
  have hsample (ending rest : String) (hne : ending ≠ "") (hext : ".gemspec" = ending ++ rest) :
      ¬ Package.IsDescriptor ⟨"a", "1" ++ ending, false⟩ "a-1.gemspec" := by
    have hoverlaps : Package.Overlaps ⟨"a", "1" ++ ending, false⟩ "1" :=
      ⟨ending, rest, hne, rfl, hext⟩
    exact not_isDescriptor_of_overlaps hoverlaps
  refine ⟨⟨by decide +kernel, ?_⟩, ⟨by decide +kernel, ?_⟩, ⟨by decide +kernel, ?_⟩⟩
  · exact hsample "." "gemspec" (by decide) (by decide)
  · exact hsample ".gem" "spec" (by decide) (by decide)
  · exact hsample ".gemspec" "" (by decide) (by decide)

end Pattern

end GemStaging.Package
