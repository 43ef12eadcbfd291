import GemStaging.Proofs.Property.Interpolation
import GemStaging.Property.Argument

/-!
Which value a property has. An override is split at its first equals sign
(`parseArgument_eq_ok_iff`), the last override of a name wins over the others and over the value
that is declared (`Properties.get?_resolve`), and a reference to a name yields the value of that
name (`Properties.interpolate_reference`).
-/

namespace GemStaging

namespace Table

variable {κ ν : Type} [DecidableEq κ]

def last? (k : κ) (es : List (κ × ν)) : Option ν :=
  (es.filter fun e => e.1 = k).getLast?.map (·.2)

theorem last?_append (k : κ) (es fs : List (κ × ν)) :
    last? k (es ++ fs) = (last? k fs).or (last? k es) := by
  rw [last?, List.filter_append, List.getLast?_append, Option.map_or]
  rfl

theorem last?_singleton (k : κ) (e : κ × ν) :
    last? k [e] = if k = e.1 then some e.2 else none := by
  by_cases h : e.1 = k
  · simp [last?, h]
  · simp [last?, h, Ne.symm h]

theorem last?_map {μ : Type} (f : ν → μ) (k : κ) (es : List (κ × ν)) :
    last? k (es.map fun e => (e.1, f e.2)) = (last? k es).map f := by
  rw [last?, last?, List.filter_map, List.getLast?_map, Option.map_map, Option.map_map]
  rfl

theorem mem_of_last? {k : κ} {x : ν} {es : List (κ × ν)} (h : last? k es = some x) :
    (k, x) ∈ es := by
  obtain ⟨e, he, rfl⟩ := Option.map_eq_some_iff.1 h
  obtain ⟨hmem, rfl⟩ : e ∈ es ∧ e.1 = k := by simpa using List.mem_of_getLast? he
  exact hmem

theorem isSome_last?_of_mem {k : κ} {x : ν} {es : List (κ × ν)} (h : (k, x) ∈ es) :
    (last? k es).isSome := by
  have hmem : (k, x) ∈ es.filter fun e => e.1 = k := List.mem_filter.2 ⟨h, by simp⟩
  rw [last?, List.getLast?_eq_some_getLast (List.ne_nil_of_mem hmem)]
  rfl

variable [Ord κ] [Std.TransOrd κ] [Std.LawfulEqOrd κ]

theorem get?_ofList (es : List (κ × ν)) (k : κ) : (ofList es).get? k = last? k es := by
  induction es using List.reverseRecOn with
  | nil => rfl
  | append_singleton es e ih =>
    have hinsert : ofList (es ++ [e]) = (ofList es).insert e.1 e.2 := by
      rw [ofList, List.foldl_append]
      rfl
    rw [hinsert, get?_insert, ih, last?_append, last?_singleton]
    simp only [Std.LawfulEqCmp.compare_eq_iff_eq]
    split <;> rfl

theorem last?_eq_lookup {es : List (κ × ν)} (h : es.Pairwise fun a b => compare a.1 b.1 = .lt)
    (k : κ) : last? k es = lookup k es := by
  cases hlast : last? k es with
  | some x => exact (lookup_eq_some_of_mem h (mem_of_last? hlast)).symm
  | none =>
    cases hlookup : lookup k es with
    | none => rfl
    | some x =>
      have hsome := isSome_last?_of_mem (mem_of_lookup_eq_some hlookup)
      rw [hlast] at hsome
      cases hsome

end Table

namespace Property

/-- What an argument gives: the text before its first equals sign, without blanks at the ends, and
all the text behind that sign. -/
def argument (a : String) : String × String :=
  (Text.trim (String.ofList (a.toList.takeWhile (· != '='))),
    String.ofList ((a.toList.dropWhile (· != '=')).drop 1))

/-- An argument with an equals sign and a name before the first one. -/
def WellFormed (a : String) : Prop := '=' ∈ a.toList ∧ (argument a).1 ≠ ""

theorem parseArgument_eq_ok_iff {a : String} {kv : String × String} :
    parseArgument a = .ok kv ↔ WellFormed a ∧ argument a = kv := by
  rw [parseArgument, Text.cut?_singleton]
  by_cases heq : '=' ∈ a.toList
  · rw [if_pos heq]
    by_cases hname : (argument a).1 = ""
    · have hempty : (argument a).1.isEmpty := by simp [hname]
      change (if (argument a).1.isEmpty then _ else _) = _ ↔ _
      rw [if_pos hempty]
      simp [WellFormed, hname]
    · have hempty : ¬ (argument a).1.isEmpty := by simpa using hname
      change (if (argument a).1.isEmpty then _ else Except.ok (argument a)) = _ ↔ _
      rw [if_neg hempty]
      simp [WellFormed, heq, hname]
  · rw [if_neg heq]
    simp [WellFormed, heq]

end Property

namespace Scalar

def text? : Scalar → Option String
  | text value => some value
  | integer value => some (toString value)
  | decimal _ => none
  | truth value => some (truthText value)

def written (s : Scalar) : String := s.text?.getD ""

theorem toText_eq_ok_iff {s : Scalar} {what t : String} :
    s.toText what = .ok t ↔ s.text?.isSome ∧ s.written = t := by
  cases s <;> simp [toText, text?, written]

theorem text?_isSome_iff {s : Scalar} : s.text?.isSome ↔ ∀ x, s ≠ .decimal x := by
  cases s <;> simp [text?]

end Scalar

namespace Properties

open Property

theorem declaredTexts_eq_ok_iff {es : List (String × Scalar)} {texts : List (String × String)} :
    declaredTexts es = .ok texts ↔
      (∀ e ∈ es, e.2.text?.isSome) ∧ es.map (fun e => (e.1, e.2.written)) = texts := by
  induction es generalizing texts with
  | nil => simp [declaredTexts]
  | cons e es ih =>
    obtain ⟨key, value⟩ := e
    rw [declaredTexts, List.forall_mem_cons, List.map_cons]
    constructor
    · intro h
      cases hvalue : value.toText ("property " ++ key) with
      | error f => simp [hvalue, bind, Except.bind] at h
      | ok t =>
        cases hrest : declaredTexts es with
        | error f => simp [hvalue, hrest, bind, Except.bind] at h
        | ok ts =>
          obtain ⟨hsome, rfl⟩ := Scalar.toText_eq_ok_iff.1 hvalue
          obtain ⟨hall, rfl⟩ := ih.1 hrest
          rw [hvalue, hrest] at h
          exact ⟨⟨hsome, hall⟩, Except.ok.inj h⟩
    · rintro ⟨⟨hsome, hall⟩, rfl⟩
      rw [Scalar.toText_eq_ok_iff.2 ⟨hsome, rfl⟩, ih.2 ⟨hall, rfl⟩]
      rfl

/-- The last override of a name wins; where there is none, the name has the text of its declared
value. -/
theorem get?_resolve {declared : Table String Scalar} {overrides : List (String × String)}
    {p : Properties} (h : resolve declared overrides = .ok p) (k : String) :
    p.get? k = (Table.last? k overrides).or ((declared.get? k).bind Scalar.text?) := by
  rw [resolve] at h
  cases htexts : declaredTexts declared.entries with
  | error f =>
    rw [htexts] at h
    cases h
  | ok texts =>
    rw [htexts] at h
    obtain rfl := Except.ok.inj h
    obtain ⟨hsome, rfl⟩ := declaredTexts_eq_ok_iff.1 htexts
    rw [get?, Table.get?_ofList, Table.last?_append, Table.last?_map Scalar.written,
      Table.last?_eq_lookup declared.ascending]
    change _ = (Table.last? k overrides).or ((Table.lookup k declared.entries).bind _)
    cases hlookup : Table.lookup k declared.entries with
    | none => rfl
    | some s =>
      obtain ⟨t, ht⟩ := Option.isSome_iff_exists.1 (hsome _ (Table.mem_of_lookup_eq_some hlookup))
      have ht : s.text? = some t := ht
      simp [Scalar.written, ht]

theorem resolve_eq_ok (declared : Table String Scalar) (overrides : List (String × String))
    (h : ∀ e ∈ declared.entries, ∀ x, e.2 ≠ .decimal x) :
    ∃ p, resolve declared overrides = .ok p := by
  have htexts := declaredTexts_eq_ok_iff.2
    ⟨fun e he => Scalar.text?_isSome_iff.2 (h e he), (rfl : declared.entries.map _ = _)⟩
  rw [resolve, htexts]
  exact ⟨_, rfl⟩

theorem interpolate_reference (p : Properties) {k : String} (hne : k ≠ "") (htrim : Text.trim k = k)
    (hbrace : '}' ∉ k.toList) : p.interpolate ("$\x7b" ++ k ++ "\x7d") =
      (p.get? k).elim (.error (.undefinedProperty k)) .ok := by
  let x : Reference := ⟨[], k.toList⟩
  let r : Reading := ⟨[], [], none⟩
  have htext : ("$\x7b" ++ k ++ "\x7d").toList = (r.cons x).text := by
    rw [Reading.text_cons]
    simp [r, x, Reading.text, Reading.tail, opening]
  have hname : x.name = k := by rw [Reference.name, String.ofList_toList, htrim]
  have hblank : ¬ x.Blank := by
    rw [← isEmpty_name_iff, hname]
    simpa using hne
  rw [interpolate, htext, expand_text_cons (by simp [x, opening]) hbrace,
    value_of_not_blank hblank, hname]
  cases p.get? k with
  | none => rfl
  | some v =>
    have hrest : p.expand ("$\x7b" ++ k ++ "\x7d") none r.text = .ok [] := rfl
    rw [hrest]
    simp [x, bind, Except.bind, Except.map, pure, Except.pure]

end Properties

end GemStaging
