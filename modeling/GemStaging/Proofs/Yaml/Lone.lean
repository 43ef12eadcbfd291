import GemStaging.Yaml.Document
import Mathlib

/-!
Texts that are one scalar and nothing else. A plain scalar on a line of its own is read as the
characters that its author wrote (`readPlain_of_continues`), and is the only node of its document
(`Document.ofText_plain`).
-/

namespace GemStaging.Yaml

section Gaps
variable {gap : Option Gap}

theorem fold_of_open (hopen : ∀ g ∈ gap, g.broken = false) :
    gap.elim [] Gap.fold = gap.elim [] Gap.blanks := by
  cases gap with
  | none => rfl
  | some g => simp [Gap.fold, hopen g rfl]

theorem blank_of_open {c : Char} (hopen : ∀ g ∈ gap, g.broken = false) :
    ((gap.getD {}).blank c).broken = false ∧
      ((gap.getD {}).blank c).blanks = c :: gap.elim [] Gap.blanks := by
  cases gap with
  | none => exact ⟨rfl, rfl⟩
  | some g => simp [Gap.blank, hopen g rfl]

end Gaps

/-- The rest of a plain scalar, up to the end of the text. It holds no line break, no colon before a
blank and no number sign behind one, and does not end with a blank; `blank` says that one stands
before it. -/
inductive Continues : Bool → List Char → Prop where
  | done : Continues false []
  | blank {b : Bool} {c : Char} {cs : List Char} :
      isBlank c → Continues true cs → Continues b (c :: cs)
  | char {b : Bool} {c : Char} {cs : List Char} :
      ¬ isBlank c → ¬ isBreak c → (b → c ≠ '#') → (c = ':' → ¬ endsWord cs) →
      Continues false cs → Continues b (c :: cs)

section Plain
variable {b : Bool} {c : Char} {cs acc : List Char} {gap : Option Gap} {place : Place}

theorem readPlain_blank (hc : isBlank c) (hopen : ∀ g ∈ gap, g.broken = false) :
    readPlain false 0 acc gap place (c :: cs) =
      readPlain false 0 acc (some ((gap.getD {}).blank c)) place.next cs := by
  have hne : c ≠ '\r' := by rintro rfl; revert hc; decide
  have hg : (gap.getD {}).broken = false := by
    cases gap with
    | none => rfl
    | some g => exact hopen g rfl
  rw [readPlain, if_pos hc]
  · simp [hg]
  · rintro rest rfl
    exact absurd rfl hne

theorem readPlain_char (hblank : ¬ isBlank c) (hbreak : ¬ isBreak c)
    (hhash : gap.isSome → c ≠ '#') (hcolon : c = ':' → ¬ endsWord cs)
    (hplace : gap.isSome → place.column ≠ 0) : readPlain false 0 acc gap place (c :: cs) =
      readPlain false 0 (c :: (gap.elim [] Gap.fold ++ acc)) none place.next cs := by
  have hne : c ≠ '\r' := by rintro rfl; revert hbreak; decide
  have hstop : (gap.isSome && ((!false && decide (place.column < 0)) ||
      (place.column == 0 && atDocumentMark (c :: cs)) || c == '#')) = false := by
    cases gap with
    | none => rfl
    | some g =>
      simp [hplace rfl, hhash rfl]
  have hstep : plainStep false c cs = .take := by
    by_cases h : c = ':' <;> simp_all [plainStep]
  rw [readPlain, if_neg hblank, if_neg hbreak]
  · simp only [hstop, hstep]
    rfl
  · rintro rest rfl
    exact absurd rfl hne

theorem readPlain_of_continues (h : Continues b cs) (hgap : gap.isSome = b)
    (hopen : ∀ g ∈ gap, g.broken = false) (hplace : b → place.column ≠ 0) : ∃ place',
      readPlain false 0 acc gap place cs = some ⟨String.ofList
        (acc.reverse ++ (gap.elim [] Gap.blanks).reverse ++ cs), false, ⟨[], place'⟩⟩ := by
  induction h generalizing acc gap place with
  | done =>
    obtain rfl : gap = none := by simpa using hgap
    exact ⟨place, by simp [readPlain]⟩
  | @blank b c cs hc _ ih =>
    obtain ⟨hbroken, hblanks⟩ := blank_of_open (c := c) hopen
    obtain ⟨place', hrest⟩ := @ih acc (some ((gap.getD {}).blank c)) place.next rfl
      (by simpa using hbroken) (by simp [Place.next])
    refine ⟨place', ?_⟩
    rw [readPlain_blank hc hopen, hrest]
    simp [hblanks]
  | @char b c cs hblank hbreak hhash hcolon _ ih =>
    subst hgap
    obtain ⟨place', hrest⟩ := @ih (c :: (gap.elim [] Gap.blanks ++ acc)) none place.next rfl
      (by simp) (by simp)
    refine ⟨place', ?_⟩
    rw [readPlain_char hblank hbreak hhash hcolon hplace, fold_of_open hopen, hrest]
    simp

end Plain

section Quoted
variable {cs acc : List Char} {gap : Option Gap} {place : Place}

def Quotable (cs : List Char) : Prop := ∀ c ∈ cs, c ≠ '\'' ∧ ¬ isBreak c

theorem readQuoted_of_quotable (h : Quotable cs) (hopen : ∀ g ∈ gap, g.broken = false)
    (hplace : place.column ≠ 0) : ∃ place',
      readQuoted true acc .text gap place (cs ++ ['\'']) = some (String.ofList
        (acc.reverse ++ (gap.elim [] Gap.blanks).reverse ++ cs), ⟨[], place'⟩) := by
  induction cs generalizing acc gap place with
  | nil =>
    refine ⟨place.next, ?_⟩
    have hblank : ¬ isBlank '\'' := by decide
    have hbreak : ¬ isBreak '\'' := by decide
    simp [readQuoted, hblank, hbreak, hplace, fold_of_open hopen]
  | cons c cs ih =>
    obtain ⟨⟨hquote, hbreak⟩, hcs⟩ := List.forall_mem_cons.1 h
    have hreturn : c ≠ '\r' := by rintro rfl; revert hbreak; decide
    rw [List.cons_append]
    by_cases hblank : isBlank c
    · obtain ⟨hbroken, hblanks⟩ := blank_of_open (c := c) hopen
      obtain ⟨place', hrest⟩ := @ih acc (some ((gap.getD {}).blank c)) place.next hcs
        (by simpa using hbroken) (by simp [Place.next])
      refine ⟨place', ?_⟩
      rw [readQuoted, if_pos hblank, hrest]
      · simp [hblanks]
      · rintro rest rfl
        exact absurd rfl hreturn
    · obtain ⟨place', hrest⟩ := @ih (c :: (gap.elim [] Gap.blanks ++ acc)) none place.next hcs
        (by simp) (by simp [Place.next])
      refine ⟨place', ?_⟩
      rw [readQuoted, if_neg hblank, if_neg hbreak, fold_of_open hopen]
      · simpa [hplace, hquote] using hrest
      · rintro rest rfl
        exact absurd rfl hreturn

end Quoted

/-- A text that is a plain scalar on one line. What starts it is no mark of a block, of a document
or of the byte order. -/
structure PlainLine (c : Char) (rest : List Char) : Prop where
  starts : TokenReader.startsPlain false c rest
  noEntry : c = '-' → ¬ endsWord rest
  noMark : ¬ atDocumentMark (c :: rest)
  noOrder : c ≠ '\uFEFF'
  allowed : ∀ d ∈ c :: rest, isAllowed d
  continues : Continues false (c :: rest)

namespace TokenReader

/-- A reader that has handed out the start of the stream and nothing else. -/
def fresh (cs : List Char) : TokenReader :=
  { cursor := .start cs, started := true, taken := 1, keyAllowed := true }

/-- A reader that has taken the only token of its text, as a key that may follow. -/
def past (place : Place) (t : Token) : TokenReader :=
  { cursor := ⟨[], place⟩, started := true, queue := [t], taken := 1,
    keys := [some ⟨1, ⟨0, 0, 0⟩, false⟩] }

section First
variable {c : Char} {rest : List Char} {s : String}

theorem fetch_fresh (hblank : ¬ isBlank c) (hbreak : ¬ isBreak c) (hhash : c ≠ '#')
    (horder : c ≠ '\uFEFF') : (fresh (c :: rest)).fetch = (fresh (c :: rest)).fetchAt c rest := by
  have hspace : c ≠ ' ' := by rintro rfl; exact hblank (by decide)
  rw [fetch]
  simp [fresh, skipToToken, Cursor.start, Cursor.sees, Cursor.skipWhile, Cursor.span, Cursor.skip,
    inFlow, hbreak, hhash, hspace, horder, dropStaleKeys, unrollIndent, unroll]

theorem ne_of_startsPlain (h : startsPlain false c rest) :
    ∀ d ∈ ['[', ']', '{', '}', ',', '%', '*', '&', '!', '|', '>', '\'', '"', '#'], c ≠ d := by
  rintro d hd rfl
  have hno : ['[', ']', '{', '}', ',', '%', '*', '&', '!', '|', '>', '\'', '"', '#'].all
      fun d => isIndicator d && d != '-' && d != '?' && d != ':' := by decide +kernel
  obtain ⟨⟨⟨hindicator, hdash⟩, hquestion⟩, hcolon⟩ := by
    simpa only [Bool.and_eq_true, bne_iff_ne] using List.all_eq_true.1 hno c hd
  simp [startsPlain, hindicator, hdash, hquestion, hcolon] at h

theorem not_isBlank_of_startsPlain (h : startsPlain false c rest) : ¬ isBlank c := by
  intro hc
  have hne : c ≠ '-' ∧ c ≠ '?' ∧ c ≠ ':' := by
    refine ⟨?_, ?_, ?_⟩ <;> rintro rfl <;> revert hc <;> decide
  simp [startsPlain, hc, hne] at h

theorem not_endsWord_of_startsPlain (h : startsPlain false c rest) (hc : c = '?' ∨ c = ':') :
    ¬ endsWord rest := by
  obtain rfl | rfl := hc
  · simpa [startsPlain, isIndicator] using h
  · simpa [startsPlain, isIndicator] using h

theorem fetch_plain (hs : s.toList = c :: rest) (h : PlainLine c rest) :
    ∃ place, (fresh s.toList).fetch = some (past place (.scalar s .plain)) := by
  obtain ⟨place, hplain⟩ := @readPlain_of_continues _ _ [] none ⟨0, 0, 0⟩ h.continues rfl
    (by simp) (by simp)
  have htext : String.ofList ([].reverse ++ (none.elim [] Gap.blanks).reverse ++ c :: rest) =
      s := by
    rw [← String.toList_inj, hs]
    simp
  rw [htext] at hplain
  refine ⟨place, ?_⟩
  have hblank := not_isBlank_of_startsPlain h.starts
  have hbreak : ¬ isBreak c := by
    cases h.continues with
    | blank hc _ => exact absurd hc hblank
    | char _ hbreak _ _ _ => exact hbreak
  have hne := ne_of_startsPlain h.starts
  simp only [List.forall_mem_cons] at hne
  have hentry : ¬ (c = '-' ∧ endsWord rest) := fun hc => h.noEntry hc.1 hc.2
  have hquestion : ¬ (c = '?' ∧ endsWord rest) := fun hc =>
    not_endsWord_of_startsPlain h.starts (.inl hc.1) hc.2
  have hcolon : ¬ (c = ':' ∧ endsWord rest) := fun hc =>
    not_endsWord_of_startsPlain h.starts (.inr hc.1) hc.2
  have hhash : c ≠ '#' := ne_of_startsPlain h.starts '#' (by simp)
  rw [hs, fetch_fresh hblank hbreak hhash h.noOrder, fetchAt.eq_def]
  simp [fresh, past, Cursor.start, hne, h.noMark, hentry, hquestion, hcolon, inFlow, h.starts,
    saveKey, dropKey, hplain, push]

theorem fetch_quoted {cs : List Char} (h : Quotable cs) : ∃ place,
    (fresh ('\'' :: (cs ++ ['\'']))).fetch =
      some (past place (.scalar (String.ofList cs) .quoted)) := by
  obtain ⟨place, hquoted⟩ := @readQuoted_of_quotable cs [] none ⟨1, 0, 1⟩ h (by simp) (by simp)
  refine ⟨place, ?_⟩
  rw [fetch_fresh (by decide) (by decide) (by decide) (by decide), fetchAt.eq_def]
  have hmark : ¬ atDocumentMark ('\'' :: (cs ++ ['\''])) := by simp [atDocumentMark]
  simp [fresh, past, Cursor.start, hmark, inFlow, saveKey, dropKey, push, keyToken, Place.next,
    hquoted]

end First

section Ending
variable {r : TokenReader} {t : Token} {more : List Token}

theorem dropStaleKeys_single {r : TokenReader} {key : Option SimpleKey} (hkeys : r.keys = [key])
    (hkey : ∀ k ∈ key, k.required = false) : ∃ key', (key' = none ∨ key' = key) ∧
      r.dropStaleKeys = some { r with keys := [key'] } := by
  cases key with
  | none => exact ⟨none, .inl rfl, by rw [dropStaleKeys, hkeys]; rfl⟩
  | some k =>
    by_cases hstale : k.place.line < r.cursor.place.line ∨
        k.place.index + 1024 < r.cursor.place.index
    · exact ⟨none, .inl rfl, by simp [dropStaleKeys, hkeys, hstale, hkey k rfl]⟩
    · exact ⟨some k, .inr rfl, by simp [dropStaleKeys, hkeys, hstale]⟩

theorem unrollIndent_of_nil {r : TokenReader} (hindents : r.indents = []) (column : Int) :
    r.unrollIndent column = r := by
  rw [unrollIndent]
  split
  · rfl
  · rw [hindents, unroll, ← hindents]
    simp only [List.append_nil]

theorem fetch_end {r : TokenReader} (hstarted : r.started) (hrest : r.cursor.rest = [])
    (hindents : r.indents = []) {key : Option SimpleKey} (hkeys : r.keys = [key])
    (hkey : ∀ k ∈ key, k.required = false) :
    ∃ r', r.fetch = some r' ∧ r'.queue = r.queue ++ [.streamEnd] ∧ r'.keys = [none] := by
  have hskip (fuel : Nat) : r.skipToToken (fuel + 1) = r := by
    obtain ⟨⟨rest, place⟩, started, queue, taken, indent, indents, keyAllowed, keys⟩ := r
    obtain rfl : rest = [] := hrest
    simp [skipToToken, Cursor.sees, Cursor.skipWhile, Cursor.span, Cursor.skip]
  obtain ⟨key', hkey', hstale⟩ := dropStaleKeys_single hkeys hkey
  have hrequired : ∀ k ∈ key', k.required = false := by
    obtain rfl | rfl := hkey'
    · simp
    · exact hkey
  have hclose (r : TokenReader) (hindents : r.indents = []) (hkeys : r.keys = [key']) :
      r.closeAll = some { r with keys := [none], keyAllowed := false } := by
    rw [closeAll, unrollIndent_of_nil hindents, dropKey, hkeys]
    cases key' with
    | none => simp [hkeys]
    | some k => simp [hrequired k rfl]
  rw [fetch, hskip]
  simp [hstarted, hstale, unrollIndent_of_nil, hindents, hrest, hclose, push]

theorem ready_of_queue (hqueue : r.queue = t :: more) (hkeys : r.keys = [none]) (fuel : Nat) :
    ready (fuel + 1) r = some r := by
  obtain ⟨cursor, started, queue, taken, indent, indents, keyAllowed, keys⟩ := r
  obtain rfl : queue = t :: more := hqueue
  obtain rfl : keys = [none] := hkeys
  rfl

theorem peek_of_queue (hqueue : r.queue = t :: more) (hkeys : r.keys = [none]) :
    r.peek = some (t, r) := by
  rw [peek, ready_of_queue hqueue hkeys]
  simp [hqueue]

/-- Nothing but the end of the stream is still to come. -/
structure Ends (r : TokenReader) : Prop where
  keys : r.keys = [none]
  queue : r.queue = [.streamEnd] ∨
    r.queue = [] ∧ r.started ∧ r.cursor.rest = [] ∧ r.indents = []

theorem Ends.peek (h : r.Ends) : ∃ r', r.peek = some (.streamEnd, r') ∧ r'.Ends := by
  obtain ⟨hkeys, hqueue | ⟨hqueue, hstarted, hrest, hindents⟩⟩ := h
  · exact ⟨r, peek_of_queue hqueue hkeys, hkeys, .inl hqueue⟩
  · obtain ⟨r', hfetch, hqueue', hkeys'⟩ := fetch_end hstarted hrest hindents hkeys (by simp)
    rw [hqueue, List.nil_append] at hqueue'
    refine ⟨r', ?_, hkeys', .inl hqueue'⟩
    rw [TokenReader.peek, ready, hqueue]
    simp [hfetch, ready_of_queue hqueue' hkeys', hqueue']

theorem peek_past {cs : List Char} {place : Place}
    (hfetch : (fresh cs).fetch = some (past place t)) : ∃ r more,
      (fresh cs).peek = some (t, r) ∧ r.keys = [none] ∧ r.queue = t :: more ∧ r.drop.Ends := by
  obtain ⟨key', hkey', hstale⟩ := @dropStaleKeys_single (past place t) _ rfl (by simp)
  have hready (fuel : Nat) : ready (fuel + 2) (fresh cs) = (do
      let r ← some { past place t with keys := [key'] }
      if r.awaitsKey then r.fetch >>= ready fuel else return r) := by
    rw [ready, hfetch, ← hstale]
    rfl
  rw [peek, show (fresh cs).cursor.rest.length + 8 = (cs.length + 6) + 2 from rfl, hready]
  obtain rfl | rfl := hkey'
  · -- the token is too long to be a key
    exact ⟨_, [], rfl, rfl, rfl, rfl, .inr ⟨rfl, rfl, rfl, rfl⟩⟩
  · obtain ⟨r, hend, hqueue, hkeys⟩ := @fetch_end (past place t) rfl rfl rfl _ rfl (by simp)
    refine ⟨r, [.streamEnd], ?_, hkeys, hqueue, hkeys, .inl ?_⟩
    · change ((past place t).fetch >>= _ >>= _ : Option _) = _
      rw [hend]
      simp [ready_of_queue hqueue hkeys, hqueue, past]
    · simp [drop, hqueue, past]

end Ending

end TokenReader

namespace EventReader

theorem endsCleanly_of_ends {r : EventReader} (h : r.tokens.Ends) (hexpect : r.expect = .document) :
    endsCleanly r := by
  obtain ⟨tokens, hpeek, -⟩ := h.peek
  obtain ⟨⟩ := r
  obtain rfl := hexpect
  simp [endsCleanly, next, startDocument, skipDocumentEnds, fuel, peek, hpeek]

section Lone
variable {cs : List Char} {s : String} {style : Style} {r r' : TokenReader}

theorem next_streamStart (cs : List Char) : next { tokens := { cursor := .start cs } } =
    some (.streamStart, { tokens := .fresh cs, expect := .implicitDocument }) := rfl

theorem next_documentStart (h : (TokenReader.fresh cs).peek = some (.scalar s style, r)) :
    next { tokens := .fresh cs, expect := .implicitDocument } = some (.documentStart,
      { tokens := r, expect := .blockNode, after := [.documentEnd],
        tagStarts := defaultTagStarts }) := by
  simp [next, startDocument, peek, h, later, expecting]

theorem next_scalar {after : Expect} {more : List Expect} {starts : List (String × String)}
    (h : r.peek = some (.scalar s style, r)) :
    next { tokens := r, expect := .blockNode, after := after :: more, tagStarts := starts } =
      some (.scalar none none s style,
        { tokens := r.drop, expect := after, after := more, tagStarts := starts }) := by
  simp [next, readNode, readProperties, peek, h, back, drop]

theorem next_documentEnd {after : List Expect} {starts : List (String × String)}
    (h : r.peek = some (.streamEnd, r')) :
    next { tokens := r, expect := .documentEnd, after := after, tagStarts := starts } =
      some (.documentEnd, { tokens := r', expect := .document, after := after }) := by
  simp [next, peek, h, expecting]

end Lone

end EventReader

/-- A text of one scalar and nothing else is a document with that scalar and nothing else. -/
theorem Document.ofText_past {text s : String} {style : Style} {place : Place}
    (hallowed : ∀ c ∈ text.toList, isAllowed c)
    (hfetch : (TokenReader.fresh text.toList).fetch =
      some (TokenReader.past place (.scalar s style))) :
    Document.ofText text = ⟨#[.scalar none s style], .empty, false, false⟩ := by
  obtain ⟨r, more, hpeek, hkeys, hqueue, hends⟩ := TokenReader.peek_past hfetch
  have hsame := TokenReader.peek_of_queue hqueue hkeys
  obtain ⟨r', hend, hends'⟩ := hends.peek
  have hall : text.toList.all isAllowed := List.all_eq_true.2 hallowed
  have hcleanly : endsCleanly { tokens := r', expect := .document } :=
    EventReader.endsCleanly_of_ends hends' rfl
  rw [ofText, EventReader.ofText]
  simp only [hall, if_true]
  simp [readDocument, EventReader.next_streamStart, EventReader.next_documentStart hpeek,
    EventReader.next_scalar hsame, EventReader.next_documentEnd hend, Draft.add, Draft.anchored,
    Draft.push, Draft.finish, hcleanly]

theorem Document.ofText_plain {s : String} {c : Char} {rest : List Char} (hs : s.toList = c :: rest)
    (h : PlainLine c rest) :
    Document.ofText s = ⟨#[.scalar none s .plain], .empty, false, false⟩ := by
  obtain ⟨place, hfetch⟩ := TokenReader.fetch_plain hs h
  exact ofText_past (by rw [hs]; exact h.allowed) hfetch

theorem Document.ofText_quoted {s : String} (h : Quotable s.toList)
    (hallowed : ∀ c ∈ s.toList, isAllowed c) :
    Document.ofText ("'" ++ s ++ "'") = ⟨#[.scalar none s .quoted], .empty, false, false⟩ := by
  obtain ⟨place, hfetch⟩ := TokenReader.fetch_quoted h
  have htext : ("'" ++ s ++ "'").toList = '\'' :: (s.toList ++ ['\'']) := by simp
  rw [String.ofList_toList, ← htext] at hfetch
  refine ofText_past (fun c hc => ?_) hfetch
  obtain rfl | hc | rfl : c = '\'' ∨ c ∈ s.toList ∨ c = '\'' := by simpa [htext] using hc
  · decide
  · exact hallowed c hc
  · decide

end GemStaging.Yaml
