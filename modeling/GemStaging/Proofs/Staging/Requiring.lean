import GemStaging.Manifest.Basic
import GemStaging.Proofs.Text.Cutting
import GemStaging.Staging.Stub

/-!
Which archives a loader stub requires. A stub is read line by line, and the archive of a line is a
literal in single quotes (`Requires`). The names of archives are written between the quotes as they
are, so a stub requires exactly the archives that it was made from where each name stands for itself
there: it holds no quote and no two backslashes in a row, and does not end in a backslash
(`renderStub_requires`). Without quotes, different lists of names still have different stubs.
-/

namespace GemStaging.Staging

/-- What a literal in single quotes stands for, read up to the quote that closes it, and what comes
after that quote. A backslash is left out where it stands before a quote or another backslash. -/
def readQuoted : List Char → Option (List Char × List Char)
  | [] => none
  | '\'' :: rest => some ([], rest)
  | '\\' :: '\'' :: rest => (readQuoted rest).map fun (value, after) => ('\'' :: value, after)
  | '\\' :: '\\' :: rest => (readQuoted rest).map fun (value, after) => ('\\' :: value, after)
  | c :: rest => (readQuoted rest).map fun (value, after) => (c :: value, after)

def lineFront : List Char := "require File.expand_path(".toList

def lineBack : List Char := ", File.dirname(__FILE__))\n".toList

/-- The text is made of lines that require these archives. -/
inductive Requires : List Char → List String → Prop where
  | nil : Requires [] []
  | line {text value rest : List Char} {archives : List String} :
      readQuoted text = some (value, lineBack ++ rest) → Requires rest archives →
      Requires (lineFront ++ '\'' :: text) (String.ofList value :: archives)

/-- A name that stands for itself between single quotes. -/
structure Verbatim (name : List Char) : Prop where
  quoteless : '\'' ∉ name
  pairless : ¬ ['\\', '\\'] <:+: name
  last : name.getLast? ≠ some '\\'

section Literals
variable {name rest after : List Char} {c : Char}

theorem readQuoted_char (hquote : c ≠ '\'')
    (hescape : c = '\\' → rest.head? ≠ some '\'' ∧ rest.head? ≠ some '\\') :
    readQuoted (c :: rest) =
      (readQuoted rest).map fun (value, after) => (c :: value, after) := by
  refine readQuoted.eq_5 c rest hquote ?_ ?_
  · rintro more rfl rfl
    exact (hescape rfl).1 rfl
  · rintro more rfl rfl
    exact (hescape rfl).2 rfl

theorem verbatim_nil : Verbatim [] := ⟨by simp, by simp, by simp⟩

theorem verbatim_cons_iff : Verbatim (c :: name) ↔ c ≠ '\'' ∧ Verbatim name ∧
    (c = '\\' → name ≠ [] ∧ name.head? ≠ some '\\') := by
  constructor
  · intro h
    have hquote := not_or.1 (mt List.mem_cons.2 h.quoteless)
    have hpair := not_or.1 (mt List.infix_cons_iff.2 h.pairless)
    cases name with
    | nil =>
      have hlast : c ≠ '\\' := by simpa using h.last
      exact ⟨Ne.symm hquote.1, verbatim_nil, fun hc => absurd hc hlast⟩
    | cons d name =>
      refine ⟨Ne.symm hquote.1, ⟨hquote.2, hpair.2, ?_⟩, fun hc => ⟨by simp, ?_⟩⟩
      · simpa using h.last
      · intro hd
        obtain rfl : d = '\\' := by simpa using hd
        exact hpair.1 (by simp [hc])
  · rintro ⟨hquote, hname, hescape⟩
    refine ⟨by simpa using ⟨Ne.symm hquote, hname.quoteless⟩, ?_, ?_⟩
    · rw [List.infix_cons_iff]
      rintro (hpair | hpair)
      · obtain ⟨hc, hhead⟩ := List.cons_prefix_cons.1 hpair
        obtain ⟨more, rfl⟩ := hhead
        exact (hescape hc.symm).2 rfl
      · exact hname.pairless hpair
    · cases name with
      | nil => simpa using fun hc => (hescape hc).1 rfl
      | cons d name => simpa using hname.last

theorem verbatim_of_not_mem (hquote : '\'' ∉ name) (hescape : '\\' ∉ name) : Verbatim name :=
  ⟨hquote, fun hpair => hescape (hpair.mem (by simp)), fun hlast =>
    hescape (List.mem_of_getLast? hlast)⟩

theorem readQuoted_eq_none (h : '\'' ∉ rest) : readQuoted rest = none := by
  induction rest using readQuoted.induct with
  | case1 => rfl
  | case2 => simp at h
  | case3 => simp at h
  | case4 more ih =>
    rw [readQuoted, ih fun hmem => h (by simp [hmem])]
    rfl
  | case5 c more hquote hone htwo ih =>
    rw [readQuoted.eq_5 c more hquote hone htwo, ih fun hmem => h (by simp [hmem])]
    rfl

theorem readQuoted_of_verbatim (h : Verbatim name) (rest : List Char) :
    readQuoted (name ++ '\'' :: rest) = some (name, rest) := by
  induction name with
  | nil => rfl
  | cons c name ih =>
    obtain ⟨hquote, hname, hescape⟩ := verbatim_cons_iff.1 h
    have hnext : c = '\\' → (name ++ '\'' :: rest).head? ≠ some '\'' ∧
        (name ++ '\'' :: rest).head? ≠ some '\\' := by
      intro hc
      obtain ⟨hne, hpair⟩ := hescape hc
      rw [List.head?_append_of_ne_nil _ hne]
      exact ⟨fun hhead => hname.quoteless (List.mem_of_mem_head? hhead), hpair⟩
    rw [List.cons_append, readQuoted_char hquote hnext, ih hname]
    rfl

/-- What is read after some first character ends in what the whole ends in, with as much before. -/
theorem exists_front {α : Type} {x : α} {value front back : List α} (hne : front ≠ [])
    (h : x :: value = front ++ back) :
    ∃ front', value = front' ++ back ∧ front'.length + 1 = front.length := by
  cases front with
  | nil => exact absurd rfl hne
  | cons y front => exact ⟨front, (List.cons.inj h).2, rfl⟩

theorem exists_value {more whole : List Char}
    (h : (readQuoted more).map (fun (value, after) => (c :: value, after)) = some (whole, after)) :
    ∃ value, readQuoted more = some (value, after) ∧ c :: value = whole := by
  obtain ⟨⟨value, after'⟩, hread, heq⟩ := Option.map_eq_some_iff.1 h
  obtain ⟨hvalue, rfl⟩ := Prod.mk.inj heq
  exact ⟨value, hread, hvalue⟩

/-- A name that its literal is read as stands for itself. The induction needs more: what is read
does not end in the name with something before it. It is no longer than the name, unless a backslash
at the end of the name takes the closing quote away, and then it does not end in a backslash. -/
theorem verbatim_of_readQuoted
    (hrest : ∀ value after, readQuoted rest = some (value, after) → value.getLast? ≠ some '\\')
    {text front : List Char} (htext : text = name ++ '\'' :: rest)
    (h : readQuoted text = some (front ++ name, after)) :
    front = [] ∧ Verbatim name ∧ after = rest := by
  induction text using readQuoted.induct generalizing name front with
  | case1 => simp at htext
  | case2 more =>
    obtain ⟨hempty, rfl⟩ := by simpa [readQuoted] using h
    obtain ⟨rfl, rfl⟩ := hempty
    exact ⟨rfl, verbatim_nil, by simpa using htext⟩
  | case3 more ih =>
    obtain ⟨value, hread, hvalue⟩ := exists_value h
    match name with
    | [] => simp at htext
    | [d] =>
      -- the quote after the backslash is not that of the name
      obtain ⟨rfl, rfl⟩ : '\\' = d ∧ more = rest := by simpa using htext
      have hlast := congrArg List.getLast? hvalue
      cases value with
      | nil => simp at hlast
      | cons x value => exact absurd (by simpa using hlast) (hrest _ _ hread)
    | d :: e :: name =>
      obtain ⟨rfl, rfl, rfl⟩ : '\\' = d ∧ '\'' = e ∧ more = name ++ '\'' :: rest := by
        simpa using htext
      have hlonger : '\'' :: value = (front ++ ['\\', '\'']) ++ name := by simpa using hvalue
      obtain ⟨front', rfl, hlength⟩ := exists_front (by simp) hlonger
      obtain ⟨rfl, -⟩ := ih rfl hread
      simp at hlength
  | case4 more ih =>
    obtain ⟨value, hread, hvalue⟩ := exists_value h
    match name with
    | [] => simp at htext
    | [d] => simp at htext
    | d :: e :: name =>
      obtain ⟨rfl, rfl, rfl⟩ : '\\' = d ∧ '\\' = e ∧ more = name ++ '\'' :: rest := by
        simpa using htext
      have hlonger : '\\' :: value = (front ++ ['\\', '\\']) ++ name := by simpa using hvalue
      obtain ⟨front', rfl, hlength⟩ := exists_front (by simp) hlonger
      obtain ⟨rfl, -⟩ := ih rfl hread
      simp at hlength
  | case5 c more hquote hone htwo ih =>
    rw [readQuoted.eq_5 c more hquote hone htwo] at h
    obtain ⟨value, hread, hvalue⟩ := exists_value h
    match name with
    | [] =>
      have hclosed : c = '\'' ∧ more = rest := by simpa using htext
      exact absurd hclosed.1 hquote
    | d :: name =>
      obtain ⟨rfl, rfl⟩ : c = d ∧ more = name ++ '\'' :: rest := by simpa using htext
      have hlonger : c :: value = (front ++ [c]) ++ name := by simpa using hvalue
      obtain ⟨front', rfl, hlength⟩ := exists_front (by simp) hlonger
      obtain ⟨rfl, hname, hafter⟩ := ih rfl hread
      refine ⟨by simpa using hlength, verbatim_cons_iff.2 ⟨hquote, hname, ?_⟩, hafter⟩
      rintro rfl
      constructor
      · rintro rfl
        exact hone rest rfl rfl
      · intro hhead
        obtain ⟨pair, rfl⟩ := List.head?_eq_some_iff.1 hhead
        exact htwo (pair ++ '\'' :: rest) rfl rfl

end Literals

section Lines
variable {archives others : List String} {text : List Char} {archive : String}

theorem toList_between (front name back : String) :
    (front ++ name ++ back).toList = front.toList ++ (name.toList ++ back.toList) := by
  simp

theorem toList_stubLine (archive : String) :
    (stubLine archive).toList = lineFront ++ '\'' :: (archive.toList ++ '\'' :: lineBack) := by
  have hfront : "require File.expand_path('".toList = lineFront ++ ['\''] := by decide +kernel
  have hback : "', File.dirname(__FILE__))\n".toList = '\'' :: lineBack := by decide +kernel
  -- rewriting inside the line would compare its long texts with one another
  have hline := toList_between "require File.expand_path('" archive "', File.dirname(__FILE__))\n"
  refine hline.trans
    ((congrArg₂ (fun front back => front ++ (archive.toList ++ back)) hfront hback).trans ?_)
  simp

theorem toList_renderStub_cons (archive : String) (archives : List String) :
    (renderStub (archive :: archives)).toList = lineFront ++
      '\'' :: (archive.toList ++ '\'' :: (lineBack ++ (renderStub archives).toList)) := by
  have hlines : (renderStub (archive :: archives)).toList =
      (stubLine archive).toList ++ (renderStub archives).toList := by
    rw [renderStub, String.toList_join, List.map_cons, List.flatMap_cons, renderStub,
      String.toList_join]
  rw [hlines, toList_stubLine]
  simp

theorem requires_append_iff {read : List String} : Requires (lineFront ++ '\'' :: text) read ↔
    ∃ value rest archives, readQuoted text = some (value, lineBack ++ rest) ∧
      Requires rest archives ∧ read = String.ofList value :: archives := by
  constructor
  · intro h
    generalize htext : lineFront ++ '\'' :: text = whole at h
    cases h with
    | nil => simp at htext
    | line hread hrest =>
      obtain ⟨-, rfl⟩ := List.cons.inj (List.append_cancel_left htext)
      exact ⟨_, _, _, hread, hrest, rfl⟩
  · rintro ⟨value, rest, archives, hread, hrest, rfl⟩
    exact .line hread hrest

theorem Requires.unique {first second : List String} (h : Requires text first)
    (h' : Requires text second) : first = second := by
  induction h generalizing second with
  | nil =>
    generalize htext : ([] : List Char) = whole at h'
    cases h' with
    | nil => rfl
    | line => simp at htext
  | line hread _ ih =>
    obtain ⟨value, rest, archives, hread', hrest, rfl⟩ := requires_append_iff.1 h'
    obtain ⟨rfl, hback⟩ := Prod.mk.inj (Option.some.inj (hread.symm.trans hread'))
    obtain rfl := List.append_cancel_left hback
    rw [ih hrest]

/-- What follows the name of an archive spells nothing that ends in a backslash: the next quote, if
there is one, is that of the next line. -/
theorem getLast?_of_readQuoted_back (archives : List String) (value after : List Char)
    (h : readQuoted (lineBack ++ (renderStub archives).toList) = some (value, after)) :
    value.getLast? ≠ some '\\' := by
  have hverbatim : Verbatim (lineBack ++ lineFront) :=
    verbatim_of_not_mem (by decide +kernel) (by decide +kernel)
  cases archives with
  | nil =>
    have hquoteless : '\'' ∉ lineBack := by decide +kernel
    have hempty : lineBack ++ (renderStub []).toList = lineBack := List.append_nil _
    rw [hempty, readQuoted_eq_none hquoteless] at h
    cases h
  | cons archive archives =>
    rw [toList_renderStub_cons, ← List.append_assoc, readQuoted_of_verbatim hverbatim] at h
    obtain ⟨rfl, -⟩ := Prod.mk.inj (Option.some.inj h)
    exact hverbatim.last

theorem requires_renderStub_iff :
    Requires (renderStub archives).toList archives ↔ ∀ a ∈ archives, Verbatim a.toList := by
  induction archives with
  | nil => simpa [renderStub] using Requires.nil
  | cons a archives ih =>
    rw [List.forall_mem_cons, ← ih, toList_renderStub_cons, requires_append_iff]
    constructor
    · rintro ⟨value, rest, more, hread, hrest, heq⟩
      obtain ⟨hvalue, rfl⟩ := List.cons.inj heq
      obtain rfl : value = a.toList := by rw [hvalue, String.toList_ofList]
      obtain ⟨-, hverbatim, hback⟩ : [] = [] ∧ Verbatim a.toList ∧
          lineBack ++ rest = lineBack ++ (renderStub archives).toList :=
        verbatim_of_readQuoted (getLast?_of_readQuoted_back archives) rfl hread
      exact ⟨hverbatim, List.append_cancel_left hback ▸ hrest⟩
    · rintro ⟨hverbatim, hrest⟩
      exact ⟨_, _, _, readQuoted_of_verbatim hverbatim _, hrest, by simp⟩

theorem renderStub_cons_ne (a : String) (archives : List String) :
    renderStub (a :: archives) ≠ renderStub [] := by
  intro heq
  have htext := congrArg String.toList heq
  rw [toList_renderStub_cons] at htext
  simp [renderStub] at htext

theorem cut?_quote {name : List Char} (h : '\'' ∉ name) (rest : List Char) :
    Text.cut? ['\''] (name ++ '\'' :: rest) = some (name, rest) := by
  have hcut : Text.cut? ['\''] (name ++ ['\''] ++ rest) = some (name, rest) :=
    Text.cut?_append (by simp) fun hoccurs => h (hoccurs.mem List.mem_cons_self)
  simpa using hcut

theorem renderStub_inj (h : ∀ a ∈ archives, '\'' ∉ a.toList) (h' : ∀ a ∈ others, '\'' ∉ a.toList)
    (heq : renderStub archives = renderStub others) : archives = others := by
  induction archives generalizing others with
  | nil =>
    cases others with
    | nil => rfl
    | cons b others => exact absurd heq.symm (renderStub_cons_ne b others)
  | cons a archives ih =>
    cases others with
    | nil => exact absurd heq (renderStub_cons_ne a archives)
    | cons b others =>
      obtain ⟨ha, hrest⟩ := List.forall_mem_cons.1 h
      obtain ⟨hb, hrest'⟩ := List.forall_mem_cons.1 h'
      have htext := congrArg String.toList heq
      rw [toList_renderStub_cons, toList_renderStub_cons] at htext
      have hcuts := congrArg (Text.cut? ['\'']) (List.cons.inj (List.append_cancel_left htext)).2
      rw [cut?_quote ha, cut?_quote hb] at hcuts
      obtain ⟨hname, hback⟩ := Prod.mk.inj (Option.some.inj hcuts)
      rw [String.toList_inj.1 hname,
        ih hrest hrest' (String.toList_inj.1 (List.append_cancel_left hback))]

end Lines

/-- A stub requires exactly the archives that it was made from, in their order, where each of their
names stands for itself between single quotes, and only there. Names that hold no quote can be told
from their stub in any case. -/
theorem renderStub_requires (archives : List String) :
    ((∀ read, Requires (renderStub archives).toList read ↔ read = archives) ↔
      ∀ a ∈ archives, Verbatim a.toList) ∧
    ∀ others, (∀ a ∈ archives ++ others, '\'' ∉ a.toList) →
      renderStub archives = renderStub others → archives = others := by
  rw [← requires_renderStub_iff]
  refine ⟨⟨fun h => (h archives).2 rfl, fun h read => ?_⟩, fun others hquoteless => ?_⟩
  · exact ⟨fun hread => hread.unique h, fun heq => heq ▸ h⟩
  · rw [List.forall_mem_append] at hquoteless
    exact renderStub_inj hquoteless.1 hquoteless.2

/-- Single backslashes and line breaks in names are read as they are, and names with one backslash
and with two have different stubs. -/
theorem renderStub_requires_sample :
    (∀ read, Requires (renderStub ["a\\b.jar", "c\nd.jar"]).toList read ↔
      read = ["a\\b.jar", "c\nd.jar"]) ∧
    (∀ a ∈ ["a\\\\b.jar"] ++ ["a\\b.jar"], '\'' ∉ a.toList) ∧
    renderStub ["a\\\\b.jar"] ≠ renderStub ["a\\b.jar"] := by
  have hverbatim : ∀ a ∈ ["a\\b.jar", "c\nd.jar"], Verbatim a.toList := by
    simp only [List.forall_mem_cons]
    exact ⟨⟨by decide +kernel, by decide +kernel, by decide +kernel⟩,
      ⟨by decide +kernel, by decide +kernel, by decide +kernel⟩, by simp⟩
  have hquoteless : ∀ a ∈ ["a\\\\b.jar"] ++ ["a\\b.jar"], '\'' ∉ a.toList := by decide +kernel
  refine ⟨(renderStub_requires _).1.2 hverbatim, hquoteless, fun heq => ?_⟩
  have hsame := (renderStub_requires ["a\\\\b.jar"]).2 _ hquoteless heq
  exact absurd hsame (by decide +kernel)

/-- Stubs of checked manifests: one that requires nothing, since its only name holds a quote; one
that requires an archive of another name, since its own holds two backslashes; and one for a single
name that is also the stub for two. -/
theorem misquoted_samples :
    (Manifest.validate { loaderStubs := [⟨⟨"s.rb"⟩, ["it's.jar"]⟩] } = .ok () ∧
      ∀ read, ¬ Requires (renderStub ["it's.jar"]).toList read) ∧
    (Manifest.validate { loaderStubs := [⟨⟨"s.rb"⟩, ["a\\\\b.jar"]⟩] } = .ok () ∧
      Requires (renderStub ["a\\\\b.jar"]).toList ["a\\b.jar"]) ∧
    (Manifest.validate { loaderStubs :=
        [⟨⟨"s.rb"⟩, ["a', File.dirname(__FILE__))\nrequire File.expand_path('b"]⟩] } = .ok () ∧
      renderStub ["a', File.dirname(__FILE__))\nrequire File.expand_path('b"] =
        renderStub ["a", "b"]) := by
  refine ⟨⟨by decide +kernel, fun read hread => ?_⟩, ⟨by decide +kernel, ?_⟩, by decide +kernel,
    by decide +kernel⟩
  · rw [toList_renderStub_cons, requires_append_iff] at hread
    obtain ⟨value, rest, more, hvalue, -, -⟩ := hread
    have hsplit : "it's.jar".toList = "it".toList ++ '\'' :: "s.jar".toList := by decide +kernel
    have hback : lineBack = ',' :: lineBack.tail := by decide +kernel
    have hit : Verbatim "it".toList :=
      verbatim_of_not_mem (by decide +kernel) (by decide +kernel)
    rw [hsplit, List.append_assoc, List.cons_append, readQuoted_of_verbatim hit, hback] at hvalue
    simp at hvalue
  · rw [toList_renderStub_cons, requires_append_iff]
    refine ⟨"a\\b.jar".toList, [], [], by decide +kernel, .nil, ?_⟩
    rw [String.ofList_toList]

end GemStaging.Staging
