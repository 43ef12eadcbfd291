import GemStaging.Disk.Resolve
import Mathlib.Data.List.Induction
import Mathlib.Data.List.TakeWhile

/-!
What a path says. The names between its slashes are what a walk goes along; putting a name below a
path adds that name at their end (`Disk.hops_div`), and the parent of a path is the beginning of
it (`Path.begins_of_parent?`).
-/

namespace GemStaging

namespace Text
variable {α : Type} [BEq α] [LawfulBEq α] {sep : α}

theorem splitOn_append_sep (sep : α) (xs ys : List α) :
    splitOn sep (xs ++ sep :: ys) = splitOn sep xs ++ splitOn sep ys := by
  induction xs with
  | nil => simp [splitOn]
  | cons x xs ih =>
    simp only [List.cons_append, splitOn, ih]
    split
    · rfl
    · cases h : splitOn sep xs with
      | nil => exact absurd h (splitOn_ne_nil sep xs)
      | cons piece more => rfl

theorem splitOn_of_not_mem {xs : List α} (h : sep ∉ xs) : splitOn sep xs = [xs] := by
  induction xs with
  | nil => rfl
  | cons x xs ih =>
    obtain ⟨hx, hxs⟩ := not_or.1 (mt List.mem_cons.2 h)
    simp [splitOn, ih hxs, Ne.symm hx]

theorem not_mem_of_mem_splitOn {xs piece : List α} (h : piece ∈ splitOn sep xs) : sep ∉ piece := by
  induction xs generalizing piece with
  | nil =>
    obtain rfl := List.mem_singleton.1 h
    simp
  | cons x xs ih =>
    rw [splitOn] at h
    split at h
    · rcases List.mem_cons.1 h with rfl | h
      · simp
      · exact ih h
    · rename_i hx
      cases hsplit : splitOn sep xs with
      | nil => exact absurd hsplit (splitOn_ne_nil sep xs)
      | cons first more =>
        rw [hsplit] at h ih
        rcases List.mem_cons.1 h with rfl | h
        · have hne : sep ≠ x := fun heq => hx (by simp [heq])
          exact List.not_mem_cons_of_ne_of_not_mem hne (ih List.mem_cons_self)
        · exact ih (List.mem_cons_of_mem _ h)

theorem splitOn_intercalate {ps : List (List α)} (hps : ps ≠ []) (h : ∀ p ∈ ps, sep ∉ p) :
    splitOn sep ([sep].intercalate ps) = ps := by
  induction ps with
  | nil => exact absurd rfl hps
  | cons p ps ih =>
    obtain ⟨hp, hrest⟩ := List.forall_mem_cons.1 h
    cases ps with
    | nil => simpa [List.intercalate] using splitOn_of_not_mem hp
    | cons q qs =>
      have hcons : [sep].intercalate (p :: q :: qs) = p ++ sep :: [sep].intercalate (q :: qs) := by
        simp [List.intercalate, List.intersperse]
      rw [hcons, splitOn_append_sep, splitOn_of_not_mem hp, ih (by simp) hrest]
      rfl

end Text

namespace Path

/-- The text is the name of an entry, as a disk lists it. -/
structure IsName (name : String) : Prop where
  slashless : '/' ∉ name.toList
  notEmpty : name.toList ≠ []
  notDot : name.toList ≠ ['.']
  notUp : name.toList ≠ ['.', '.']

instance (name : String) : Decidable (IsName name) :=
  decidable_of_iff ('/' ∉ name.toList ∧ name.toList ≠ [] ∧ name.toList ≠ ['.'] ∧
      name.toList ≠ ['.', '.'])
    ⟨fun ⟨hslash, hempty, hdot, hup⟩ => ⟨hslash, hempty, hdot, hup⟩,
      fun h => ⟨h.slashless, h.notEmpty, h.notDot, h.notUp⟩⟩

theorem isName_of_mem_concat {names : List String} {name : String} (hnames : ∀ n ∈ names, IsName n)
    (hname : IsName name) : ∀ n ∈ names ++ [name], IsName n := by
  intro n hn
  rcases List.mem_append.1 hn with hn | hn
  · exact hnames n hn
  · exact List.mem_singleton.1 hn ▸ hname

namespace IsName
variable {name : String} (h : IsName name)
include h

theorem ne_dot : name ≠ "." := by
  rintro rfl
  exact h.notDot rfl

theorem ne_up : name ≠ ".." := by
  rintro rfl
  exact h.notUp rfl

theorem not_isIdle : isIdle name.toList = false := by
  simp [isIdle, h.notEmpty, h.notDot]

theorem ofPiece : Step.ofPiece name.toList = .name name := by
  simp [Step.ofPiece, h.notUp]

theorem not_isAbsolute : isAbsolute ⟨name⟩ = false := by
  cases hcs : name.toList with
  | nil => exact absurd hcs h.notEmpty
  | cons c cs =>
    have hc : c ≠ '/' := by
      rintro rfl
      exact h.slashless (by simp [hcs])
    simp [isAbsolute, hcs, hc]

theorem leadLength : leadLength name.toList = 0 := by
  have hslash := h.slashless
  have hdot := h.notDot
  rw [Path.leadLength.eq_def]
  split <;> simp_all

end IsName

/-- What `join` puts between the two texts. -/
def gap (base : Path) : List Char :=
  if base.text.isEmpty || base.text.toList.getLast? == some '/' then [] else ['/']

theorem toList_join (base : Path) {p : Path} (h : p.isAbsolute = false) :
    (base.join p).text.toList = base.text.toList ++ base.gap ++ p.text.toList := by
  rw [join, if_neg (by simp [h]), gap]
  split <;> simp

theorem isEmpty_of_join {base p : Path} (h : p.isAbsolute = false)
    (hjoin : (base.join p).text.isEmpty) : base.text.isEmpty := by
  have htext := toList_join base h
  simp_all

theorem toList_div (base : Path) {name : String} (h : IsName name) :
    (base / name).text.toList = base.text.toList ++ base.gap ++ name.toList :=
  toList_join base h.not_isAbsolute

theorem not_isEmpty_div {base : Path} {name : String} (h : IsName name) :
    ¬ (base / name).text.isEmpty := by
  intro hempty
  have htext := toList_div base h
  obtain ⟨-, hname⟩ := List.append_eq_nil_iff.1 (htext.symm.trans (by simpa using hempty))
  exact h.notEmpty hname

/-- Before what is joined to a path there is nothing, or the slash at its end, or a new one. -/
theorem gap_cases (base : Path) :
    base.text.toList = [] ∧ base.gap = [] ∨
      (∃ init, base.text.toList = init ++ ['/'] ∧ base.gap = []) ∨
      base.text.toList ≠ [] ∧ base.gap = ['/'] := by
  rw [gap]
  by_cases hempty : base.text.toList = []
  · have : base.text.isEmpty := by simpa using hempty
    simp [this, hempty]
  by_cases hlast : base.text.toList.getLast? = some '/'
  · obtain ⟨init, hinit⟩ := List.getLast?_eq_some_iff.1 hlast
    exact .inr (.inl ⟨init, hinit, by simp [hinit]⟩)
  · refine .inr (.inr ⟨hempty, ?_⟩)
    have : base.text.isEmpty = false := by simpa using hempty
    simp [this, hlast]

end Path

namespace Disk
open GemStaging.Path

variable {base p : Path} {here : Location}

theorem hops_join (h : p.isAbsolute = false) : hops (base.join p) = hops base ++ hops p := by
  simp only [hops, toList_join base h]
  rcases gap_cases base with ⟨hnil, hgap⟩ | ⟨init, hinit, hgap⟩ | ⟨-, hgap⟩
  · simp [hnil, hgap, Text.splitOn]
  · simp [hgap, hinit, Text.splitOn_append_sep, Text.splitOn]
  · simp [hgap, Text.splitOn_append_sep]

theorem hops_name {name : String} (h : IsName name) : hops ⟨name⟩ = [name] := by
  simp [hops, Text.splitOn_of_not_mem h.slashless, h.notEmpty]

theorem hops_div {name : String} (h : IsName name) : hops (base / name) = hops base ++ [name] := by
  rw [← hops_name h]
  exact hops_join h.not_isAbsolute

theorem isAbsolute_join (h : p.isAbsolute = false) :
    (base.join p).isAbsolute = base.isAbsolute := by
  rw [isAbsolute, toList_join base h]
  rw [isAbsolute] at h ⊢
  rcases gap_cases base with ⟨hnil, hgap⟩ | ⟨init, hinit, hgap⟩ | ⟨hbase, -⟩
  · simp [hnil, hgap, h]
  · cases init <;> simp [hinit, hgap]
  · obtain ⟨c, cs, hcs⟩ := List.exists_cons_of_ne_nil hbase
    simp [hcs]

theorem origin_join (h : p.isAbsolute = false) : origin (base.join p) here = origin base here := by
  rw [origin, isAbsolute_join h, origin]

theorem origin_div {name : String} (h : IsName name) :
    origin (base / name) here = origin base here :=
  origin_join h.not_isAbsolute

end Disk

namespace Path
open Disk

variable {p q base : Path} {name : String}

theorem leadLength_append_slash {cs : List Char} (hcs : cs ≠ []) (rest : List Char) :
    leadLength (cs ++ '/' :: rest) = leadLength cs ∧ leadLength cs ≤ cs.length := by
  obtain ⟨c, more, rfl⟩ := List.exists_cons_of_ne_nil hcs
  cases more with
  | nil =>
    by_cases hslash : c = '/'
    · simp [hslash, leadLength]
    by_cases hdot : c = '.'
    · simp [hdot, leadLength]
    · simp [leadLength, hslash, hdot]
  | cons c' more =>
    by_cases hslash : c = '/'
    · simp [hslash, leadLength]
    by_cases hdot : c = '.'
    · by_cases hslash' : c' = '/'
      · simp [hdot, hslash', leadLength]
      · simp [hdot, leadLength, hslash']
    · simp [leadLength, hslash, hdot]

/-- A slash and what is behind it leave the lead of a text as it is, and end its last piece. -/
theorem pieces_append_slash {cs : List Char} (hcs : cs ≠ []) (rest : List Char)
    (hp : p.text.toList = cs ++ '/' :: rest) :
    p.lead = cs.take (leadLength cs) ∧
      p.pieces = Text.splitOn '/' (cs.drop (leadLength cs)) ++ Text.splitOn '/' rest := by
  obtain ⟨hlead, hle⟩ := leadLength_append_slash hcs rest
  rw [lead, pieces, hp, hlead, List.take_append_of_le_length hle, List.drop_append_of_le_length hle,
    Text.splitOn_append_sep]
  exact ⟨rfl, rfl⟩

/-- Below a path the pieces are its own, but for an empty one at the end, and then the name. -/
theorem pieces_div (base : Path) (h : IsName name) :
    (base / name).lead = base.lead ∧ ∃ trunk, (base / name).pieces = trunk ++ [name.toList] ∧
      (base.pieces = trunk ∨ base.pieces = trunk ++ [[]]) := by
  have hname := Text.splitOn_of_not_mem h.slashless
  rcases gap_cases base with ⟨hnil, hgap⟩ | ⟨init, hinit, hgap⟩ | ⟨hbase, hgap⟩
  · have htext : (base / name).text.toList = name.toList := by simp [toList_div base h, hnil, hgap]
    refine ⟨by simp only [lead, htext, h.leadLength, hnil]; simp, [], ?_, .inr ?_⟩
    · simp [pieces, htext, h.leadLength, hname]
    · simp [pieces, hnil, leadLength, Text.splitOn]
  · have htext : (base / name).text.toList = init ++ '/' :: name.toList := by
      simp [toList_div base h, hinit, hgap]
    by_cases hne : init = []
    · subst hne
      refine ⟨by simp [lead, htext, hinit, leadLength], [], ?_, .inr ?_⟩
      · simp [pieces, htext, leadLength, hname]
      · simp [pieces, hinit, leadLength, Text.splitOn]
    · obtain ⟨hlead, hpieces⟩ := pieces_append_slash hne _ htext
      obtain ⟨hlead', hpieces'⟩ := pieces_append_slash hne _ hinit
      rw [hname] at hpieces
      exact ⟨hlead.trans hlead'.symm, _, hpieces, .inr hpieces'⟩
  · obtain ⟨hlead, hpieces⟩ := pieces_append_slash (p := base / name) hbase name.toList (by
      simp [toList_div base h, hgap])
    rw [hname] at hpieces
    exact ⟨hlead, _, hpieces, .inl rfl⟩

theorem fileName?_div (h : IsName name) : (base / name).fileName? = some name := by
  obtain ⟨-, trunk, hpieces, -⟩ := pieces_div base h
  simp [fileName?, hpieces, h.not_isIdle, h.notUp]

theorem parent?_div (h : IsName name) : ∃ q, (base / name).parent? = some q := by
  obtain ⟨-, trunk, hpieces, -⟩ := pieces_div base h
  simp [parent?, hpieces, h.not_isIdle]

theorem steps_div (h : IsName name) : (base / name).steps = base.steps ++ [.name name] := by
  obtain ⟨hlead, trunk, hpieces, hbase⟩ := pieces_div base h
  have htrunk : base.pieces.filter (!isIdle ·) = trunk.filter (!isIdle ·) := by
    rcases hbase with hbase | hbase <;> simp [hbase, isIdle]
  simp [steps, leadSteps, hlead, hpieces, htrunk, h.not_isIdle, h.ofPiece]

/-- The path that names one after another lead to from a path. -/
def below (base : Path) (names : List String) : Path :=
  names.foldl (· / ·) base

@[simp] theorem below_nil : base.below [] = base := rfl

theorem below_append (names : List String) (name : String) :
    base.below (names ++ [name]) = base.below names / name := by
  simp [below]

def ofNames (names : List String) : Path :=
  ⟨String.ofList (joinPieces (names.map String.toList))⟩

section Names
variable {names : List String} (h : ∀ name ∈ names, IsName name)
include h

theorem hops_below : hops (base.below names) = hops base ++ names := by
  induction names generalizing base with
  | nil => simp
  | cons name rest ih =>
    obtain ⟨hname, hrest⟩ := List.forall_mem_cons.1 h
    have htail : hops ((base / name).below rest) = hops (base / name) ++ rest := ih hrest
    rw [hops_div hname] at htail
    simpa [below] using htail

theorem origin_below (here : Location) : origin (base.below names) here = origin base here := by
  induction names generalizing base with
  | nil => rfl
  | cons name rest ih =>
    obtain ⟨hname, hrest⟩ := List.forall_mem_cons.1 h
    have htail : origin ((base / name).below rest) here = origin (base / name) here := ih hrest
    rw [origin_div hname] at htail
    simpa [below] using htail

theorem steps_below : (base.below names).steps = base.steps ++ names.map .name := by
  induction names generalizing base with
  | nil => simp
  | cons name rest ih =>
    obtain ⟨hname, hrest⟩ := List.forall_mem_cons.1 h
    have htail : ((base / name).below rest).steps = (base / name).steps ++ rest.map .name :=
      ih hrest
    rw [steps_div hname] at htail
    simpa [below] using htail

theorem lead_below : (base.below names).lead = base.lead := by
  induction names generalizing base with
  | nil => rfl
  | cons name rest ih =>
    obtain ⟨hname, hrest⟩ := List.forall_mem_cons.1 h
    have htail : ((base / name).below rest).lead = (base / name).lead := ih hrest
    exact htail.trans (pieces_div base hname).1

theorem pieces_below (base : Path) :
    ∃ trunk, (base.below names).pieces = trunk ++ names.map String.toList ∧
      trunk.filter (!isIdle ·) = base.pieces.filter (!isIdle ·) := by
  induction names using List.reverseRecOn with
  | nil => exact ⟨base.pieces, by simp, rfl⟩
  | append_singleton names name ih =>
    obtain ⟨trunk, hpieces, htrunk⟩ := ih fun n hn => h n (by simp [hn])
    obtain ⟨-, trunk', hpieces', hbase⟩ :=
      pieces_div (base.below names) (h name (by simp))
    rw [below_append, hpieces']
    rcases hbase with hbase | hbase
    · exact ⟨trunk, by rw [← hbase, hpieces]; simp, htrunk⟩
    · -- an empty last piece is none of the names
      rw [hpieces] at hbase
      rcases List.eq_nil_or_concat names with rfl | ⟨init, last, rfl⟩
      · refine ⟨trunk', by simp, ?_⟩
        rw [← htrunk]
        simp at hbase
        simp [hbase, isIdle]
      · simp only [List.concat_eq_append, List.map_append, List.map_cons, List.map_nil,
          ← List.append_assoc] at hbase
        obtain ⟨-, hlast⟩ := List.append_inj' hbase rfl
        exact absurd (List.singleton_inj.1 hlast) (h last (by simp)).notEmpty

omit h in
theorem dropSteps_append (ps qs : List (List Char)) :
    ∃ idles, dropSteps (ps.filter (!isIdle ·)).length (ps ++ qs) = idles ++ qs ∧
      ∀ piece ∈ idles, isIdle piece := by
  induction ps with
  | nil => exact ⟨[], by simp [dropSteps], by simp⟩
  | cons piece ps ih =>
    obtain ⟨idles, hdrop, hidles⟩ := ih
    by_cases hidle : isIdle piece
    · cases hn : (ps.filter (!isIdle ·)).length with
      | zero =>
        refine ⟨piece :: ps, by simp [hidle, hn, dropSteps], ?_⟩
        simpa [hidle] using List.length_eq_zero_iff.1 hn
      | succ n =>
        rw [hn] at hdrop
        exact ⟨idles, by simpa [hidle, hn, dropSteps] using hdrop, hidles⟩
    · exact ⟨idles, by simpa [hidle, dropSteps] using hdrop, hidles⟩

omit h in
theorem trimIdle_append {idles qs : List (List Char)} (hidles : ∀ piece ∈ idles, isIdle piece)
    (hqs : ∀ piece ∈ qs, isIdle piece = false) : trimIdle (idles ++ qs) = qs := by
  have hfront : (idles ++ qs).dropWhile isIdle = qs := by
    rw [List.dropWhile_append_of_pos hidles]
    cases qs with
    | nil => rfl
    | cons q qs => simp [hqs q (by simp)]
  rw [trimIdle, hfront]
  rcases List.eq_nil_or_concat qs with rfl | ⟨init, last, rfl⟩
  · rfl
  · simp [hqs last (by simp)]

theorem relativeTo?_below (hbase : base.steps ≠ []) :
    (base.below names).relativeTo? base = some (ofNames names) := by
  obtain ⟨trunk, hpieces, htrunk⟩ := pieces_below h base
  have hlength : base.steps.length - base.leadSteps.length = (trunk.filter (!isIdle ·)).length := by
    rw [htrunk, steps]
    simp
  obtain ⟨idles, hdrop, hidles⟩ := dropSteps_append trunk (names.map String.toList)
  have hlead : (base.below names).leadSteps = base.leadSteps := by
    rw [leadSteps, lead_below h, leadSteps]
  have hprefix : base.steps.isPrefixOf (base.steps ++ names.map .name) := by simp
  have hempty : base.steps.isEmpty = false := by simpa using hbase
  have hnames : ∀ piece ∈ names.map String.toList, isIdle piece = false := by
    simpa using fun name hname => (h name hname).not_isIdle
  rw [relativeTo?, steps_below h, if_pos hprefix, hempty, hpieces, hlead, hlength, hdrop]
  simp only [Bool.false_eq_true, if_false, trimIdle_append hidles hnames]
  rfl

theorem isAbsolute_ofNames : (ofNames names).isAbsolute = false := by
  cases names with
  | nil => rfl
  | cons name rest =>
    have hname := (h name (by simp)).not_isAbsolute
    obtain ⟨c, cs, hcs⟩ := List.exists_cons_of_ne_nil (h name (by simp)).notEmpty
    cases rest <;> simp_all [isAbsolute, ofNames, joinPieces, List.intercalate]

theorem hops_ofNames : hops (ofNames names) = names := by
  cases names with
  | nil => simp [hops, ofNames, joinPieces, List.intercalate, Text.splitOn]
  | cons name rest =>
    have hsplit : Text.splitOn '/' (joinPieces ((name :: rest).map String.toList)) =
        (name :: rest).map String.toList :=
      Text.splitOn_intercalate (by simp) (by simpa using fun n hn => (h n hn).slashless)
    have hkept : ∀ piece ∈ (name :: rest).map String.toList, (!piece.isEmpty) = true := by
      intro piece hpiece
      obtain ⟨n, hn, rfl⟩ := List.mem_map.1 hpiece
      simpa using (h n hn).notEmpty
    rw [hops, ofNames, String.toList_ofList, hsplit, List.filter_eq_self.2 hkept, List.map_map]
    simp [Function.comp_def]

theorem hops_pathOf : hops (Disk.pathOf names) = names := by
  have htext : (Disk.pathOf names).text.toList = [] ++ '/' :: (ofNames names).text.toList := by
    simp [Disk.pathOf, ofNames, joinPieces]
  have hsplit := hops_ofNames h
  rw [hops] at hsplit ⊢
  rw [htext, Text.splitOn_append_sep]
  simpa [Text.splitOn] using hsplit

end Names

section Parent

theorem joinPieces_append {ps qs : List (List Char)} (hps : ps ≠ []) (hqs : qs ≠ []) :
    joinPieces (ps ++ qs) = joinPieces ps ++ '/' :: joinPieces qs := by
  obtain ⟨q, qs, rfl⟩ := List.exists_cons_of_ne_nil hqs
  induction ps with
  | nil => exact absurd rfl hps
  | cons p ps ih =>
    cases ps with
    | nil => simp [joinPieces, List.intercalate, List.intersperse]
    | cons p' ps =>
      have := ih (by simp)
      simp_all [joinPieces, List.intercalate, List.intersperse]

theorem lead_append_pieces (p : Path) : p.lead ++ joinPieces p.pieces = p.text.toList := by
  rw [lead, pieces, joinPieces, Text.intercalate_splitOn, List.take_append_drop]

theorem lead_cases (p : Path) :
    p.lead = ['/'] ∨ p.lead = [] ∧ p.isAbsolute = false ∨
      p.lead = ['.'] ∧ (joinPieces p.pieces = [] ∨ ∃ rest, joinPieces p.pieces = '/' :: rest) := by
  have hjoin : joinPieces p.pieces = p.text.toList.drop (leadLength p.text.toList) := by
    rw [pieces, joinPieces, Text.intercalate_splitOn]
  rw [hjoin, lead, isAbsolute]
  generalize p.text.toList = cs
  rw [leadLength.eq_def]
  split
  · simp
  · simp
  · simp
  · rename_i hslash hdot hdots
    refine .inr (.inl ⟨by simp, ?_⟩)
    cases cs with
    | nil => rfl
    | cons c cs =>
      have : c ≠ '/' := fun hc => hslash cs (by rw [hc])
      simp [this]

theorem joinPieces_eq_nil_iff {ps : List (List Char)} :
    joinPieces ps = [] ↔ ps = [] ∨ ps = [[]] := by
  rcases ps with - | ⟨p, - | ⟨q, ps⟩⟩ <;> simp [joinPieces, List.intercalate, List.intersperse]

theorem text_of_steps_eq_nil (h : p.steps = []) : p.text = "" := by
  obtain ⟨hleads, hidle⟩ := List.append_eq_nil_iff.1 h
  have hlead : p.lead = [] := by
    rw [leadSteps] at hleads
    rcases p.lead_cases with hlead | ⟨hlead, -⟩ | ⟨hlead, -⟩
    · simp [hlead] at hleads
    · exact hlead
    · simp [hlead] at hleads
  have htext := p.lead_append_pieces
  rw [hlead, List.nil_append] at htext
  rw [lead, ← htext] at hlead
  obtain ⟨first, rest, hpieces⟩ :=
    List.exists_cons_of_ne_nil (Text.splitOn_ne_nil '/' (p.text.toList.drop _))
  rw [← pieces] at hpieces
  rw [hpieces] at hidle htext hlead
  have hfirst : isIdle first := by
    by_contra hfirst
    simp [hfirst] at hidle
  have hcases : first = [] ∨ first = ['.'] := by simpa [isIdle] using hfirst
  -- a slash or a dot that begins a path is a step
  rcases hcases with rfl | rfl
  · cases rest with
    | nil => exact String.toList_inj.1 htext.symm
    | cons q rest => simp [joinPieces, List.intercalate, List.intersperse, leadLength] at hlead
  · cases rest with
    | nil => simp [joinPieces, List.intercalate, leadLength] at hlead
    | cons q rest => simp [joinPieces, List.intercalate, List.intersperse, leadLength] at hlead

/-- The text of `q` begins that of `p`: where it is neither empty nor ends in a slash, a slash comes
next or nothing does. -/
def Begins (q p : Path) : Prop :=
  ∃ rest, p.text.toList = q.text.toList ++ rest ∧
    (q.text.toList = [] ∧ p.isAbsolute = false ∨ q.text.toList = ['/'] ∨
      q.text.toList ≠ [] ∧ (rest = [] ∨ ∃ more, rest = '/' :: more))

/-- The lead of a path with the first of its pieces begins the path, unless the last one of them is
idle. -/
theorem begins_of_pieces {kept cut : List (List Char)} (hpieces : p.pieces = kept ++ cut)
    (hlast : ∀ piece, kept.getLast? = some piece → ¬ isIdle piece) :
    Begins ⟨String.ofList (p.lead ++ joinPieces kept)⟩ p := by
  rw [Begins, String.toList_ofList, ← lead_append_pieces]
  by_cases hnil : kept = []
  · refine ⟨joinPieces p.pieces, by simp [hnil, joinPieces, List.intercalate], ?_⟩
    rcases p.lead_cases with hlead | ⟨hlead, habs⟩ | ⟨hlead, hrest⟩
    · exact .inr (.inl (by simp [hlead, hnil, joinPieces, List.intercalate]))
    · exact .inl ⟨by simp [hlead, hnil, joinPieces, List.intercalate], habs⟩
    · exact .inr (.inr ⟨by simp [hlead], hrest⟩)
  · have hkept : p.lead ++ joinPieces kept ≠ [] := by
      intro htext
      simp only [List.append_eq_nil_iff, joinPieces_eq_nil_iff, hnil, false_or] at htext
      exact hlast [] (by simp [htext.2]) rfl
    by_cases hcut : cut = []
    · exact ⟨[], by simp [hpieces, hcut], .inr (.inr ⟨hkept, .inl rfl⟩)⟩
    · refine ⟨'/' :: joinPieces cut, ?_, .inr (.inr ⟨hkept, .inr ⟨_, rfl⟩⟩)⟩
      rw [hpieces, joinPieces_append hnil hcut]
      simp

theorem getLast?_reverse_dropWhile {more : List (List Char)} {piece : List Char}
    (h : (more.dropWhile isIdle).reverse.getLast? = some piece) : ¬ isIdle piece := by
  rw [List.getLast?_reverse] at h
  have hhead := List.head?_dropWhile_not isIdle more
  rw [h] at hhead
  simpa using hhead

/-- Pieces among which there is a step: those up to the step before the last one, idle ones, the
last step, and idle ones again. -/
theorem exists_eq_of_dropWhile {ps more : List (List Char)} {piece : List Char}
    (h : ps.reverse.dropWhile isIdle = piece :: more) :
    ∃ gap idles, ps = (more.dropWhile isIdle).reverse ++ (gap ++ piece :: idles) ∧
      (∀ other ∈ gap, isIdle other) ∧ (∀ other ∈ idles, isIdle other) ∧ ¬ isIdle piece := by
  have hsplit := List.takeWhile_append_dropWhile (p := isIdle) (l := ps.reverse)
  rw [h] at hsplit
  refine ⟨(more.takeWhile isIdle).reverse, (ps.reverse.takeWhile isIdle).reverse, ?_, ?_, ?_, ?_⟩
  · rw [← List.append_assoc, ← List.reverse_append, List.takeWhile_append_dropWhile,
      ← List.reverse_inj]
    simpa using hsplit.symm
  · exact fun other hother => List.mem_takeWhile_imp (List.mem_reverse.1 hother)
  · exact fun other hother => List.mem_takeWhile_imp (List.mem_reverse.1 hother)
  · have hhead := List.head?_dropWhile_not isIdle ps.reverse
    simpa [h] using hhead

theorem begins_of_parent? (h : p.parent? = some q) : Begins q p := by
  rw [parent?] at h
  split at h
  · rename_i piece more hmore
    obtain rfl := Option.some.inj h
    obtain ⟨gap, idles, hpieces, -⟩ := exists_eq_of_dropWhile hmore
    exact begins_of_pieces hpieces fun _ => getLast?_reverse_dropWhile
  · split at h
    · rename_i hlead
      obtain rfl := Option.some.inj h
      refine ⟨p.text.toList, by simp, .inl ⟨by simp, ?_⟩⟩
      rcases p.lead_cases with hlead' | ⟨hlead', -⟩ | ⟨hlead', -⟩
      · simp [hlead'] at hlead
      · simp [hlead'] at hlead
      · rw [isAbsolute, ← lead_append_pieces, hlead']
        rfl
    · simp at h

/-- The directory that a name is put in begins where the path begins that it is put behind. -/
theorem begins_of_parent?_div (hname : IsName name) (h : (base / name).parent? = some q) :
    Begins q base := by
  obtain ⟨hlead, trunk, hpieces, hbase⟩ := pieces_div base hname
  have hparent : q = ⟨String.ofList (base.lead ++
      joinPieces (trunk.reverse.dropWhile isIdle).reverse)⟩ := by
    simpa [parent?, hpieces, hname.not_isIdle, hlead] using h.symm
  have htrunk : trunk = (trunk.reverse.dropWhile isIdle).reverse ++
      (trunk.reverse.takeWhile isIdle).reverse := by
    rw [← List.reverse_append, List.takeWhile_append_dropWhile, List.reverse_reverse]
  rw [hparent]
  rcases hbase with hbase | hbase
  · exact begins_of_pieces (hbase.trans htrunk) fun _ => getLast?_reverse_dropWhile
  · have hpieces' : (base.pieces : List (List Char)) = (trunk.reverse.dropWhile isIdle).reverse ++
        ((trunk.reverse.takeWhile isIdle).reverse ++ [[]]) := by
      rw [hbase, ← List.append_assoc, ← htrunk]
    exact begins_of_pieces hpieces' fun _ => getLast?_reverse_dropWhile

theorem Begins.isAbsolute (h : Begins q p) : q.isAbsolute = p.isAbsolute := by
  obtain ⟨rest, htext, hq⟩ := h
  cases hcs : q.text.toList with
  | nil =>
    rcases hq with ⟨-, habs⟩ | hslash | ⟨hne, -⟩
    · rw [habs, Path.isAbsolute, hcs]
      rfl
    · simp [hcs] at hslash
    · exact absurd hcs hne
  | cons c cs => simp [Path.isAbsolute, htext, hcs]

theorem Begins.hops (h : Begins q p) : ∃ more, hops p = Disk.hops q ++ more := by
  obtain ⟨rest, htext, hq⟩ := h
  refine ⟨Disk.hops ⟨String.ofList rest⟩, ?_⟩
  simp only [Disk.hops, htext, String.toList_ofList, ← List.map_append, ← List.filter_append]
  rcases hq with ⟨hnil, -⟩ | hslash | ⟨-, rfl | ⟨more, rfl⟩⟩
  · simp [hnil, Text.splitOn]
  · simp [hslash, Text.splitOn]
  · simp [Text.splitOn]
  · simp [Text.splitOn_append_sep, Text.splitOn]

end Parent

section Joined
variable {names : List String}

theorem getLast?_toList_div (base : Path) {name : String} (h : IsName name) :
    (base / name).text.toList.getLast? = name.toList.getLast? := by
  have hsome : name.toList.getLast?.isSome := by simpa using h.notEmpty
  rw [toList_div base h, List.getLast?_append, Option.or_of_isSome hsome]

theorem getLast?_toList_ne_slash {name : String} (h : IsName name) :
    name.toList.getLast? ≠ some '/' := fun hlast =>
  h.slashless (List.mem_of_getLast? hlast)

theorem gap_div {base : Path} {name : String} (h : IsName name) : (base / name).gap = ['/'] := by
  rcases gap_cases (base / name) with ⟨hnil, -⟩ | ⟨init, hinit, -⟩ | ⟨-, hgap⟩
  · have hempty : (base / name).text.isEmpty := by simpa using hnil
    exact absurd hempty (not_isEmpty_div h)
  · have hlast := getLast?_toList_div base h
    rw [hinit, List.getLast?_concat] at hlast
    exact absurd hlast.symm (getLast?_toList_ne_slash h)
  · exact hgap

theorem join_ofNames (base : Path) (h : ∀ name ∈ names, IsName name) (hne : names ≠ []) :
    base.join (ofNames names) = base.below names := by
  have htext : (base.join (ofNames names)).text.toList = (base.below names).text.toList := by
    rw [toList_join base (isAbsolute_ofNames h), ofNames, String.toList_ofList]
    induction names using List.reverseRecOn with
    | nil => exact absurd rfl hne
    | append_singleton init name ih =>
      have hinit : ∀ n ∈ init, IsName n := fun n hn => h n (by simp [hn])
      have hname : IsName name := h name (by simp)
      rw [below_append, toList_div _ hname, List.map_append]
      rcases List.eq_nil_or_concat init with rfl | ⟨front, last, rfl⟩
      · simp [joinPieces, List.intercalate]
      · rw [List.concat_eq_append] at hinit ih ⊢
        rw [joinPieces_append (by simp) (by simp), ← ih hinit (by simp), below_append,
          gap_div (hinit last (by simp))]
        simp [joinPieces, List.intercalate]
  cases hjoin : base.join (ofNames names)
  cases hbelow : base.below names
  rw [hjoin, hbelow] at htext
  exact congrArg Path.mk (String.toList_inj.1 htext)

theorem endsInSlash_div {base : Path} {name : String} (h : IsName name) :
    endsInSlash (base / name) = false := by
  rw [endsInSlash, getLast?_toList_div base h, beq_eq_false_iff_ne]
  exact getLast?_toList_ne_slash h

theorem size_lt_div {base : Path} {name : String} (h : IsName name) :
    base.text.utf8ByteSize < (base / name).text.utf8ByteSize := by
  have htext : (base / name).text = base.text ++ String.ofList base.gap ++ name :=
    String.toList_inj.1 (by simp [toList_div base h])
  have hname : name.utf8ByteSize ≠ 0 := by
    simpa using fun hempty : name = "" => h.notEmpty (by simp [hempty])
  rw [htext, String.utf8ByteSize_append, String.utf8ByteSize_append]
  omega

theorem length_le_size_below (base : Path) (h : ∀ name ∈ names, IsName name) :
    names.length ≤ (base.below names).text.utf8ByteSize := by
  induction names using List.reverseRecOn with
  | nil => exact Nat.zero_le _
  | append_singleton init name ih =>
    have hinit := ih fun n hn => h n (by simp [hn])
    have hsize : (base.below init).text.utf8ByteSize < (base.below init / name).text.utf8ByteSize :=
      size_lt_div (h name (by simp))
    rw [below_append, List.length_append, List.length_singleton]
    omega

end Joined

end Path

end GemStaging
