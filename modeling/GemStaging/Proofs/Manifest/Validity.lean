import GemStaging.Proofs.Manifest.Resolution

/-!
Which manifests pass their check, and what is said of the others. A manifest is well formed where
its package names are not blank and all different, each name that is marked as specification only
belongs to a package, and each loader stub lists an archive (`Manifest.WellFormed`). These are the
manifests that pass; of any other one the first fault is reported (`Manifest.FirstFault`): packages
come first, then marks, then stubs, each in the order in which they are listed
(`Manifest.validate_blames_first`).
-/

namespace GemStaging

/-- What is wrong with the name of a package that comes after packages with these names. A name that
is blank is not also reported as a repeated one. -/
inductive PackageEntry.Spoils (earlier : List String) (e : PackageEntry) : Defect → Prop where
  | blank : (∀ c ∈ e.name.toList, Text.isBlank c) → Spoils earlier e .blankPackageName
  | repeated : (∃ c ∈ e.name.toList, ¬ Text.isBlank c) → e.name ∈ earlier →
      Spoils earlier e (.repeatedPackage e.name)

namespace Manifest
variable {m : Manifest} {seen : List String} {entries front back : List PackageEntry}
  {e : PackageEntry} {d : Defect}

structure Named (entries : List PackageEntry) : Prop where
  notBlank : ∀ e ∈ entries, ∃ c ∈ e.name.toList, ¬ Text.isBlank c
  distinct : (entries.map (·.name)).Nodup

structure WellFormed (m : Manifest) : Prop where
  named : Named m.packages
  declared : ∀ name ∈ m.specOnly, name ∈ m.packages.map (·.name)
  filled : ∀ stub ∈ m.loaderStubs, stub.archives ≠ []

/-- The first thing that keeps a manifest from being well formed. -/
inductive FirstFault (m : Manifest) : Defect → Prop where
  | package {front back : List PackageEntry} {e : PackageEntry} {d : Defect} :
      m.packages = front ++ e :: back → Named front → e.Spoils (front.map (·.name)) d →
      FirstFault m d
  | mark {front back : List String} {name : String} : Named m.packages →
      m.specOnly = front ++ name :: back → (∀ other ∈ front, other ∈ m.packages.map (·.name)) →
      name ∉ m.packages.map (·.name) → FirstFault m (.undeclaredSpecOnly name)
  | stub {front back : List LoaderStub} {stub : LoaderStub} : Named m.packages →
      (∀ name ∈ m.specOnly, name ∈ m.packages.map (·.name)) →
      m.loaderStubs = front ++ stub :: back → (∀ other ∈ front, other.archives ≠ []) →
      stub.archives = [] → FirstFault m (.emptyStub stub.path)

section Packages

theorem packageFault?_nil_eq_none_iff : packageFault? [] entries = none ↔ Named entries := by
  rw [packageFault?_eq_none_iff]
  constructor
  · rintro ⟨hnames, hdistinct, -⟩
    exact ⟨hnames, hdistinct⟩
  · intro h
    exact ⟨h.notBlank, h.distinct, by simp⟩

theorem packageFault?_of_spoils (h : e.Spoils seen d) :
    packageFault? seen (e :: back) = some d := by
  rw [packageFault?]
  cases h with
  | blank hblank => exact if_pos (List.all_eq_true.2 hblank)
  | repeated hname hseen =>
    rw [if_neg (Text.not_isBlankText_iff.2 hname), if_pos (by simpa using hseen)]

theorem packageFault?_cons (h : ∀ d, ¬ e.Spoils seen d) :
    packageFault? seen (e :: back) = packageFault? (e.name :: seen) back := by
  have hname : ¬ Text.isBlankText e.name := fun hblank =>
    h _ (.blank (List.all_eq_true.1 hblank))
  have hfresh : ¬ seen.contains e.name := fun hseen =>
    h _ (.repeated (Text.not_isBlankText_iff.1 hname) (by simpa using hseen))
  rw [packageFault?, if_neg hname, if_neg hfresh]

theorem packageFault?_append (h : packageFault? seen front = none) :
    packageFault? seen (front ++ back) =
      packageFault? ((front.map (·.name)).reverse ++ seen) back := by
  induction front generalizing seen with
  | nil => rfl
  | cons e front ih =>
    have hsound (d : Defect) : ¬ e.Spoils seen d := by
      intro hspoils
      rw [packageFault?_of_spoils hspoils] at h
      cases h
    rw [packageFault?_cons hsound] at h
    rw [List.cons_append, packageFault?_cons hsound, ih h]
    simp

theorem exists_spoils (h : packageFault? seen entries = some d) :
    ∃ front e back, entries = front ++ e :: back ∧ packageFault? seen front = none ∧
      e.Spoils ((front.map (·.name)).reverse ++ seen) d := by
  induction entries generalizing seen with
  | nil => cases h
  | cons e rest ih =>
    by_cases hsound : ∀ d, ¬ e.Spoils seen d
    · rw [packageFault?_cons hsound] at h
      obtain ⟨front, bad, back, rfl, hfront, hbad⟩ := ih h
      refine ⟨e :: front, bad, back, rfl, ?_, by simpa using hbad⟩
      rw [packageFault?_cons hsound]
      exact hfront
    · push Not at hsound
      obtain ⟨d', hspoils⟩ := hsound
      obtain rfl : d' = d := Option.some.inj ((packageFault?_of_spoils hspoils).symm.trans h)
      exact ⟨[], e, rest, rfl, rfl, hspoils⟩

theorem spoils_reverse_iff {earlier : List String} :
    e.Spoils earlier.reverse d ↔ e.Spoils earlier d := by
  constructor
  all_goals
    rintro (hblank | ⟨hname, hmem⟩)
    · exact .blank hblank
    · exact .repeated hname (by simpa using hmem)

theorem packageFault?_eq_some_iff : packageFault? [] entries = some d ↔
    ∃ front e back, entries = front ++ e :: back ∧ Named front ∧
      e.Spoils (front.map (·.name)) d := by
  constructor
  · intro h
    obtain ⟨front, e, back, rfl, hfront, hspoils⟩ := exists_spoils h
    rw [List.append_nil, spoils_reverse_iff] at hspoils
    exact ⟨front, e, back, rfl, packageFault?_nil_eq_none_iff.1 hfront, hspoils⟩
  · rintro ⟨front, e, back, rfl, hfront, hspoils⟩
    rw [packageFault?_append (packageFault?_nil_eq_none_iff.2 hfront), List.append_nil]
    exact packageFault?_of_spoils (spoils_reverse_iff.2 hspoils)

end Packages

section Sections

theorem map_find?_eq_some_iff {α : Type} {p : α → Bool} {fault : α → Defect} {xs : List α} :
    (xs.find? p).map fault = some d ↔ ∃ front x back, xs = front ++ x :: back ∧
      (∀ other ∈ front, ¬ p other) ∧ p x ∧ d = fault x := by
  rw [Option.map_eq_some_iff]
  simp only [List.find?_eq_some_iff_append, Bool.not_eq_true', Bool.not_eq_true]
  constructor
  · rintro ⟨x, ⟨hx, front, back, heq, hfront⟩, rfl⟩
    exact ⟨front, x, back, heq, hfront, hx, rfl⟩
  · rintro ⟨front, x, back, heq, hfront, hx, rfl⟩
    exact ⟨x, ⟨hx, front, back, heq, hfront⟩, rfl⟩

theorem undeclared_iff {name : String} :
    (!m.packages.any (·.name == name)) = true ↔ name ∉ m.packages.map (·.name) := by
  simp

theorem specOnlyFault?_eq_none_iff :
    m.specOnlyFault? = none ↔ ∀ name ∈ m.specOnly, name ∈ m.packages.map (·.name) := by
  simp only [specOnlyFault?, Option.map_eq_none_iff, List.find?_eq_none, undeclared_iff, not_not]

theorem specOnlyFault?_eq_some_iff : m.specOnlyFault? = some d ↔
    ∃ front name back, m.specOnly = front ++ name :: back ∧
      (∀ other ∈ front, other ∈ m.packages.map (·.name)) ∧
      name ∉ m.packages.map (·.name) ∧ d = .undeclaredSpecOnly name := by
  simp only [specOnlyFault?, map_find?_eq_some_iff, undeclared_iff, not_not]

theorem stubFault?_eq_none_iff :
    m.stubFault? = none ↔ ∀ stub ∈ m.loaderStubs, stub.archives ≠ [] := by
  simp only [stubFault?, Option.map_eq_none_iff, List.find?_eq_none, List.isEmpty_iff, ne_eq]

theorem stubFault?_eq_some_iff : m.stubFault? = some d ↔
    ∃ front stub back, m.loaderStubs = front ++ stub :: back ∧
      (∀ other ∈ front, other.archives ≠ []) ∧ stub.archives = [] ∧ d = .emptyStub stub.path := by
  simp only [stubFault?, map_find?_eq_some_iff, List.isEmpty_iff, ne_eq]

end Sections

theorem fault?_eq_none_iff : m.fault? = none ↔ m.WellFormed := by
  simp only [fault?, Option.orElse_eq_orElse, Option.orElse_eq_or, Option.or_eq_none_iff,
    packageFault?_nil_eq_none_iff, specOnlyFault?_eq_none_iff, stubFault?_eq_none_iff]
  constructor
  · rintro ⟨hnamed, hdeclared, hfilled⟩
    exact ⟨hnamed, hdeclared, hfilled⟩
  · intro h
    exact ⟨h.named, h.declared, h.filled⟩

theorem fault?_eq_some_iff : m.fault? = some d ↔ m.FirstFault d := by
  simp only [fault?, Option.orElse_eq_orElse, Option.orElse_eq_or, Option.or_eq_some_iff,
    packageFault?_nil_eq_none_iff, packageFault?_eq_some_iff, specOnlyFault?_eq_none_iff,
    specOnlyFault?_eq_some_iff, stubFault?_eq_some_iff]
  constructor
  · rintro (⟨front, e, back, heq, hfront, hspoils⟩ | ⟨hnamed, hlater⟩)
    · exact .package heq hfront hspoils
    obtain ⟨front, name, back, heq, hfront, hname, rfl⟩ | ⟨hdeclared, hlater⟩ := hlater
    · exact .mark hnamed heq hfront hname
    obtain ⟨front, stub, back, heq, hfront, hstub, rfl⟩ := hlater
    exact .stub hnamed hdeclared heq hfront hstub
  · intro h
    cases h with
    | package heq hfront hspoils => exact .inl ⟨_, _, _, heq, hfront, hspoils⟩
    | mark hnamed heq hfront hname =>
      exact .inr ⟨hnamed, .inl ⟨_, _, _, heq, hfront, hname, rfl⟩⟩
    | stub hnamed hdeclared heq hfront hstub =>
      exact .inr ⟨hnamed, .inr ⟨hdeclared, _, _, _, heq, hfront, hstub, rfl⟩⟩

/-- The check passes exactly the manifests that are well formed, and of any other one it reports the
first fault. -/
theorem validate_blames_first (m : Manifest) :
    (m.validate = .ok () ↔ m.WellFormed) ∧
      ∀ f, m.validate = .error f ↔ ∃ d, f = .invalid d ∧ m.FirstFault d := by
  rw [← fault?_eq_none_iff, validate]
  simp only [← fault?_eq_some_iff]
  cases m.fault? with
  | none => simp
  | some d =>
    refine ⟨by simp, fun f => ?_⟩
    constructor
    · intro h
      exact ⟨d, (Except.error.inj h).symm, rfl⟩
    · rintro ⟨d', rfl, hd'⟩
      rw [Option.some.inj hd']

end Manifest

end GemStaging
