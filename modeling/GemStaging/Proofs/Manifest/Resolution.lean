import GemStaging.Manifest.Config
import GemStaging.Proofs.Property.Overrides
import Mathlib.Data.List.Forall2

/-!
The packages that a manifest comes to. A version is settled where it is no unquoted decimal, its
references all stand for values, and what it becomes is not blank (`PackageEntry.Settles`); where
it is not, the first of the three that does not hold gives the fault (`PackageEntry.Fails`). A
checked manifest has its packages exactly where each version is settled, and else the first entry
whose version is not settled decides the fault (`Config.packages_by_entry`).
-/

namespace GemStaging

section Traversal
variable {α β ε : Type} {f : α → Except ε β} {xs : List α} {ys : List β} {e : ε}

theorem mapM_eq_ok_iff : xs.mapM f = .ok ys ↔ List.Forall₂ (fun x y => f x = .ok y) xs ys := by
  induction xs generalizing ys with
  | nil => cases ys <;> simp [pure, Except.pure]
  | cons x xs ih =>
    rw [List.mapM_cons]
    cases hx : f x with
    | error e => cases ys <;> simp [bind, Except.bind, hx]
    | ok y =>
      cases hxs : xs.mapM f with
      | error e => cases ys <;> simp [bind, Except.bind, ← ih, hx, hxs]
      | ok more => cases ys <;> simp [bind, Except.bind, pure, Except.pure, ← ih, hx, hxs]

theorem exists_mapM_eq_ok_iff :
    (∃ ys, xs.mapM f = .ok ys) ↔ ∀ x ∈ xs, ∃ y, f x = .ok y := by
  simp only [mapM_eq_ok_iff]
  constructor
  · rintro ⟨ys, h⟩
    induction h with
    | nil => simp
    | cons hx _ ih => exact List.forall_mem_cons.2 ⟨⟨_, hx⟩, ih⟩
  · intro h
    induction xs with
    | nil => exact ⟨[], .nil⟩
    | cons x xs ih =>
      obtain ⟨⟨y, hx⟩, hxs⟩ := List.forall_mem_cons.1 h
      obtain ⟨ys, hys⟩ := ih hxs
      exact ⟨y :: ys, .cons hx hys⟩

theorem mapM_eq_error_iff :
    xs.mapM f = .error e ↔ ∃ front x back, xs = front ++ x :: back ∧
      (∀ a ∈ front, ∃ y, f a = .ok y) ∧ f x = .error e := by
  constructor
  · intro h
    induction xs with
    | nil => cases h
    | cons x xs ih =>
      rw [List.mapM_cons] at h
      cases hx : f x with
      | error e' =>
        rw [hx] at h
        obtain rfl := Except.error.inj h
        exact ⟨[], x, xs, rfl, by simp, hx⟩
      | ok y =>
        cases hxs : xs.mapM f with
        | ok more => simp [bind, Except.bind, pure, Except.pure, hx, hxs] at h
        | error e' =>
          obtain rfl : e' = e := by simpa [bind, Except.bind, hx, hxs] using h
          obtain ⟨front, a, back, rfl, hfront, ha⟩ := ih hxs
          exact ⟨x :: front, a, back, rfl, List.forall_mem_cons.2 ⟨⟨y, hx⟩, hfront⟩, ha⟩
  · rintro ⟨front, x, back, rfl, hfront, hx⟩
    induction front with
    | nil =>
      rw [List.nil_append, List.mapM_cons, hx]
      rfl
    | cons a front ih =>
      obtain ⟨⟨y, ha⟩, hfront⟩ := List.forall_mem_cons.1 hfront
      rw [List.cons_append, List.mapM_cons, ha]
      simp only [bind, Except.bind, ih hfront]

end Traversal

namespace Text

theorem not_isBlankText_iff {s : String} :
    ¬ isBlankText s ↔ ∃ c ∈ s.toList, ¬ isBlank c := by
  simp [isBlankText]

end Text

namespace PackageEntry

structure Settles (p : Properties) (entry : PackageEntry) (version : String) : Prop where
  quoted : ∀ x, entry.version ≠ .decimal x
  replaced : p.interpolate entry.version.written = .ok version
  notBlank : ∃ c ∈ version.toList, ¬ Text.isBlank c

/-- Why the version of an entry is not settled. -/
inductive Fails (p : Properties) (entry : PackageEntry) : Fault → Prop where
  | decimal {x : Decimal.Binary64} : entry.version = .decimal x →
      Fails p entry (.invalid (.unquotedDecimal ("version of " ++ entry.name) x.scientific))
  | reference {f : Fault} : (∀ x, entry.version ≠ .decimal x) →
      p.interpolate entry.version.written = .error f → Fails p entry f
  | blank {version : String} : (∀ x, entry.version ≠ .decimal x) →
      p.interpolate entry.version.written = .ok version →
      (∀ c ∈ version.toList, Text.isBlank c) → Fails p entry (.invalid (.blankVersion entry.name))

end PackageEntry

namespace Manifest
variable {m : Manifest} {p : Properties} {entry : PackageEntry} {package : Package} {f : Fault}

theorem resolvePackage_of_decimal {x : Decimal.Binary64} (h : entry.version = .decimal x) :
    m.resolvePackage p entry =
      .error (.invalid (.unquotedDecimal ("version of " ++ entry.name) x.scientific)) := by
  rw [resolvePackage, h]
  rfl

theorem resolvePackage_of_quoted (h : ∀ x, entry.version ≠ .decimal x) :
    m.resolvePackage p entry = (p.interpolate entry.version.written).bind fun version =>
      if Text.isBlankText version then .error (.invalid (.blankVersion entry.name))
      else .ok ⟨entry.name, version, m.specOnly.contains entry.name⟩ := by
  rw [resolvePackage, Scalar.toText_eq_ok_iff.2 ⟨Scalar.text?_isSome_iff.2 h, rfl⟩]
  rfl

theorem resolvePackage_eq_ok_iff : m.resolvePackage p entry = .ok package ↔
    entry.Settles p package.version ∧ package.name = entry.name ∧
      (package.specOnly ↔ entry.name ∈ m.specOnly) := by
  by_cases hquoted : ∀ x, entry.version ≠ .decimal x
  · rw [resolvePackage_of_quoted hquoted]
    constructor
    · intro h
      cases hreplaced : p.interpolate entry.version.written with
      | error e =>
        rw [hreplaced] at h
        cases h
      | ok version =>
        simp only [hreplaced, Except.bind] at h
        split at h
        · cases h
        · rename_i hblank
          obtain rfl := Except.ok.inj h
          exact ⟨⟨hquoted, hreplaced, Text.not_isBlankText_iff.1 hblank⟩, rfl, by simp⟩
    · rintro ⟨hsettles, hname, hspec⟩
      have hspec' : m.specOnly.contains entry.name = package.specOnly := by
        rw [Bool.eq_iff_iff, hspec, List.contains_iff_mem]
      rw [hsettles.replaced, Except.bind, if_neg (Text.not_isBlankText_iff.2 hsettles.notBlank),
        ← hname, hname, hspec', ← hname]
  · simp only [not_forall, not_not] at hquoted
    obtain ⟨x, hx⟩ := hquoted
    rw [resolvePackage_of_decimal hx]
    simp only [reduceCtorEq, false_iff]
    rintro ⟨hsettles, -⟩
    exact hsettles.quoted x hx

theorem resolvePackage_eq_error_iff :
    m.resolvePackage p entry = .error f ↔ entry.Fails p f := by
  constructor
  · intro h
    by_cases hquoted : ∀ x, entry.version ≠ .decimal x
    · rw [resolvePackage_of_quoted hquoted] at h
      cases hreplaced : p.interpolate entry.version.written with
      | error e =>
        rw [hreplaced] at h
        obtain rfl := Except.error.inj h
        exact .reference hquoted hreplaced
      | ok version =>
        simp only [hreplaced, Except.bind] at h
        split at h
        · rename_i hblank
          obtain rfl := Except.error.inj h
          exact .blank hquoted hreplaced (List.all_eq_true.1 hblank)
        · cases h
    · simp only [not_forall, not_not] at hquoted
      obtain ⟨x, hx⟩ := hquoted
      obtain rfl := Except.error.inj ((resolvePackage_of_decimal hx).symm.trans h)
      exact .decimal hx
  · intro h
    cases h with
    | decimal hx => exact resolvePackage_of_decimal hx
    | reference hquoted hreplaced =>
      rw [resolvePackage_of_quoted hquoted, hreplaced]
      rfl
    | blank hquoted hreplaced hblank =>
      rw [resolvePackage_of_quoted hquoted, hreplaced]
      exact if_pos (List.all_eq_true.2 hblank)

/-- The packages have no fault exactly where their names are not blank, all different, and none of
those that were seen before. -/
theorem packageFault?_eq_none_iff {seen : List String} {entries : List PackageEntry} :
    packageFault? seen entries = none ↔ (∀ e ∈ entries, ∃ c ∈ e.name.toList, ¬ Text.isBlank c) ∧
      (entries.map (·.name)).Nodup ∧ ∀ e ∈ entries, e.name ∉ seen := by
  induction entries generalizing seen with
  | nil => simp [packageFault?]
  | cons e rest ih =>
    rw [packageFault?]
    simp only [List.forall_mem_cons, List.map_cons, List.nodup_cons]
    by_cases hblank : Text.isBlankText e.name
    · rw [if_pos hblank]
      simp only [reduceCtorEq, false_iff]
      rintro ⟨⟨hname, -⟩, -⟩
      exact Text.not_isBlankText_iff.2 hname hblank
    · have hname := Text.not_isBlankText_iff.1 hblank
      rw [if_neg hblank]
      by_cases hseen : e.name ∈ seen
      · simp [hseen]
      · rw [if_neg (by simpa using hseen), ih]
        simp only [hname, hseen, List.mem_cons, List.mem_map]
        grind

theorem packageFault?_of_validate (h : m.validate = .ok ()) :
    packageFault? [] m.packages = none := by
  rw [validate, fault?] at h
  cases hfault : packageFault? [] m.packages with
  | none => rfl
  | some defect => simp [hfault] at h

end Manifest

namespace Config

/-- The packages of a checked manifest. They are there exactly where each version is settled: one
package for each entry, in their order, with the name of the entry, the version that it comes to
and the mark that the manifest puts on the name; the names are not blank and all different. Else
the first entry whose version is not settled decides the fault. -/
theorem packages_by_entry {c : Config} (h : c.manifest.validate = .ok ()) :
    ((∃ packages, c.packages = .ok packages) ↔
      ∀ e ∈ c.manifest.packages, ∃ version, e.Settles c.properties version) ∧
    (∀ packages, c.packages = .ok packages →
      List.Forall₂ (fun e p => e.Settles c.properties p.version ∧ p.name = e.name ∧
        (p.specOnly ↔ e.name ∈ c.manifest.specOnly)) c.manifest.packages packages ∧
      (packages.map (·.name)).Nodup ∧
      ∀ p ∈ packages, ∃ ch ∈ p.name.toList, ¬ Text.isBlank ch) ∧
    ∀ f, c.packages = .error f ↔ ∃ front e back, c.manifest.packages = front ++ e :: back ∧
      (∀ x ∈ front, ∃ version, x.Settles c.properties version) ∧ e.Fails c.properties f := by
  have hsettled (e : PackageEntry) :
      (∃ p, c.manifest.resolvePackage c.properties e = .ok p) ↔
        ∃ version, e.Settles c.properties version := by
    simp only [Manifest.resolvePackage_eq_ok_iff]
    constructor
    · rintro ⟨p, hsettles, -⟩
      exact ⟨p.version, hsettles⟩
    · rintro ⟨version, hsettles⟩
      exact ⟨⟨e.name, version, decide (e.name ∈ c.manifest.specOnly)⟩, hsettles, rfl, by simp⟩
  obtain ⟨hnames, hnodup, -⟩ :=
    Manifest.packageFault?_eq_none_iff.1 (Manifest.packageFault?_of_validate h)
  refine ⟨?_, fun packages hpackages => ?_, fun f => ?_⟩
  · simp only [packages, Manifest.resolvePackages, exists_mapM_eq_ok_iff, hsettled]
  · have hall := mapM_eq_ok_iff.1 hpackages
    simp only [Manifest.resolvePackage_eq_ok_iff] at hall
    have hmap : packages.map (·.name) = c.manifest.packages.map (·.name) := by
      rw [← List.forall₂_eq_eq_eq, List.forall₂_map_left_iff, List.forall₂_map_right_iff]
      exact hall.flip.imp fun _ _ hpair => hpair.2.1
    refine ⟨hall, hmap ▸ hnodup, fun p hp => ?_⟩
    have hname : p.name ∈ c.manifest.packages.map (·.name) :=
      hmap ▸ List.mem_map_of_mem hp
    obtain ⟨e, he, heq⟩ := List.mem_map.1 hname
    exact heq ▸ hnames e he
  · simp only [packages, Manifest.resolvePackages, mapM_eq_error_iff, hsettled,
      Manifest.resolvePackage_eq_error_iff]

/-- A version that is settled, one that becomes blank through the value of a property, and one that
is an unquoted decimal. -/
def partlySettled : Config where
  path := ⟨"gemstage.yaml"⟩
  baseDir := ⟨"/"⟩
  manifest :=
    { packages := [⟨"a", .text "$\x7bv\x7d-x"⟩, ⟨"b", .text "$\x7bw\x7d"⟩, ⟨"c", .decimal .nan⟩]
      specOnly := ["b"] }
  properties := ⟨.ofList [("v", "1"), ("w", "\t ")]⟩

/-- The second entry is the first that is not settled. -/
theorem packages_by_entry_sample :
    partlySettled.manifest.validate = .ok () ∧
      partlySettled.packages = .error (.invalid (.blankVersion "b")) := by
  have hvalid : partlySettled.manifest.validate = .ok () := by decide +kernel
  obtain ⟨-, -, hfault⟩ := packages_by_entry hvalid
  have hfirst : partlySettled.properties.interpolate "$\x7bv\x7d-x" = .ok "1-x" := by
    decide +kernel
  have hsecond : partlySettled.properties.interpolate "$\x7bw\x7d" = .ok "\t " := by
    decide +kernel
  have hblank : Text.isBlankText "\t " := by decide
  have hfull : ¬ Text.isBlankText "1-x" := by decide
  refine ⟨hvalid, (hfault _).2 ⟨[⟨"a", .text "$\x7bv\x7d-x"⟩], ⟨"b", .text "$\x7bw\x7d"⟩,
    [⟨"c", .decimal .nan⟩], rfl, ?_, .blank (by simp) hsecond (List.all_eq_true.1 hblank)⟩⟩
  exact List.forall_mem_singleton.2 ⟨"1-x", by simp, hfirst, Text.not_isBlankText_iff.1 hfull⟩

end Config

end GemStaging
