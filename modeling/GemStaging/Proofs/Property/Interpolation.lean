import GemStaging.Property.Basic
import GemStaging.Proofs.Text.Cutting
import GemStaging.Proofs.Text.Trimming

/-!
What interpolation comes to. A text reads in exactly one way as references, each behind a literal
stretch, and a last stretch (`Property.Reading`). Interpolation goes by that reading: it puts the
values in the places of the references and touches nothing else, or blames the leftmost reference
that stands for nothing. Cutting the text at byte offsets comes to the same and never misses a
character boundary (`Properties.interpolate_goes_by_reading`).
-/

namespace GemStaging

open Text

namespace Property

def opening : List Char := ['$', '{']

/-- A reference, behind the literal stretch before it: what stands between its braces. -/
structure Reference where
  before : List Char
  inner : List Char

namespace Reference

def text (x : Reference) : List Char := x.before ++ opening ++ (x.inner ++ ['}'])

def name (x : Reference) : String := Text.trim (String.ofList x.inner)

def Blank (x : Reference) : Prop := ∀ c ∈ x.inner, Text.isBlank c

end Reference

/-- A text as references and what is behind the last of them: a literal stretch, and behind that the
rest of a reference that is never closed, where there is one. -/
structure Reading where
  references : List Reference
  last : List Char
  unclosed : Option (List Char)

namespace Reading

def tail (r : Reading) : List Char := r.last ++ r.unclosed.elim [] (opening ++ ·)

def text (r : Reading) : List Char := r.references.flatMap Reference.text ++ r.tail

/-- No literal stretch holds the start of a reference, and a reference ends at the first closing
brace. -/
structure Grammatical (r : Reading) : Prop where
  literal : ∀ x ∈ r.references, ¬ opening <:+: x.before
  inner : ∀ x ∈ r.references, '}' ∉ x.inner
  last : ¬ opening <:+: r.last
  unclosed : ∀ inner ∈ r.unclosed, '}' ∉ inner

def Reads (r : Reading) (cs : List Char) : Prop := r.Grammatical ∧ r.text = cs

def cons (x : Reference) (r : Reading) : Reading := { r with references := x :: r.references }

theorem text_cons (x : Reference) (r : Reading) :
    (r.cons x).text = x.before ++ opening ++ (x.inner ++ ['}'] ++ r.text) := by
  simp [text, tail, cons, Reference.text]

theorem Grammatical.cons {x : Reference} {r : Reading} (hbefore : ¬ opening <:+: x.before)
    (hinner : '}' ∉ x.inner) (h : r.Grammatical) : (r.cons x).Grammatical where
  literal := List.forall_mem_cons.2 ⟨hbefore, h.literal⟩
  inner := List.forall_mem_cons.2 ⟨hinner, h.inner⟩
  last := h.last
  unclosed := h.unclosed

theorem cut?_opening {before rest : List Char} (h : ¬ opening <:+: before) :
    cut? opening (before ++ opening ++ rest) = some (before, rest) :=
  cut?_append (by decide) h

theorem cut?_closing {inner rest : List Char} (h : '}' ∉ inner) :
    cut? ['}'] (inner ++ ['}'] ++ rest) = some (inner, rest) :=
  cut?_append (by simp) (mt (List.singleton_infix_iff _ _).1 h)

theorem cut?_closing_eq_none {inner : List Char} : cut? ['}'] inner = none ↔ '}' ∉ inner := by
  rw [cut?_eq_none_iff, List.singleton_infix_iff]

theorem length_lt_of_cut? {cs before after inner more : List Char}
    (h : cut? opening cs = some (before, after)) (h' : cut? ['}'] after = some (inner, more)) :
    more.length < cs.length := by
  rw [eq_of_cut? h, eq_of_cut? h']
  simp
  omega

/-- The reading of a text: it is cut at the first opening and at the first closing brace after that,
again and again. -/
def ofText (cs : List Char) : Reading :=
  match _hopened : cut? opening cs with
  | none => ⟨[], cs, none⟩
  | some (before, after) =>
    match _hclosed : cut? ['}'] after with
    | none => ⟨[], before, some after⟩
    | some (inner, more) => (ofText more).cons ⟨before, inner⟩
termination_by cs.length
decreasing_by exact length_lt_of_cut? _hopened _hclosed

section Cuts
variable {cs before after inner more : List Char}

theorem ofText_of_plain (h : cut? opening cs = none) : ofText cs = ⟨[], cs, none⟩ := by
  rw [ofText]
  split <;> simp_all

theorem ofText_of_unclosed (h : cut? opening cs = some (before, after))
    (h' : cut? ['}'] after = none) : ofText cs = ⟨[], before, some after⟩ := by
  rw [ofText]
  split
  · simp_all
  · split <;> simp_all

theorem ofText_of_closed (h : cut? opening cs = some (before, after))
    (h' : cut? ['}'] after = some (inner, more)) :
    ofText cs = (ofText more).cons ⟨before, inner⟩ := by
  rw [ofText]
  split
  · simp_all
  · split <;> simp_all

end Cuts

theorem reads_ofText (cs : List Char) : (ofText cs).Reads cs := by
  induction hn : cs.length using Nat.strong_induction_on generalizing cs with
  | _ n ih =>
    subst hn
    cases hopened : cut? opening cs with
    | none =>
      rw [ofText_of_plain hopened]
      exact ⟨⟨by simp, by simp, cut?_eq_none_iff.1 hopened, by simp⟩, by simp [text, tail]⟩
    | some parts =>
      obtain ⟨before, after⟩ := parts
      have hbefore := not_infix_of_cut? (by decide) hopened
      cases hclosed : cut? ['}'] after with
      | none =>
        rw [ofText_of_unclosed hopened hclosed]
        refine ⟨⟨by simp, by simp, hbefore, by simpa using cut?_closing_eq_none.1 hclosed⟩, ?_⟩
        simp [text, tail, eq_of_cut? hopened]
      | some parts =>
        obtain ⟨inner, more⟩ := parts
        have hinner := mt (List.singleton_infix_iff _ _).2 (not_infix_of_cut? (by simp) hclosed)
        obtain ⟨hgrammatical, htext⟩ := ih _ (length_lt_of_cut? hopened hclosed) more rfl
        rw [ofText_of_closed hopened hclosed]
        refine ⟨hgrammatical.cons hbefore hinner, ?_⟩
        rw [text_cons, htext, eq_of_cut? hopened, eq_of_cut? hclosed]

theorem Grammatical.ofText_text {r : Reading} (h : r.Grammatical) : ofText r.text = r := by
  obtain ⟨references, last, unclosed⟩ := r
  induction references with
  | nil =>
    cases unclosed with
    | none =>
      have hplain : cut? opening last = none := cut?_eq_none_iff.2 h.last
      simpa [text, tail] using ofText_of_plain hplain
    | some inner =>
      have hopened : cut? opening (last ++ opening ++ inner) = _ := cut?_opening h.last
      have hclosed := cut?_closing_eq_none.2 (h.unclosed inner rfl)
      simpa [text, tail] using ofText_of_unclosed hopened hclosed
  | cons x references ih =>
    obtain ⟨hbefore, hliteral⟩ := List.forall_mem_cons.1 h.literal
    obtain ⟨hinner, hinners⟩ := List.forall_mem_cons.1 h.inner
    have hrest := ih ⟨hliteral, hinners, h.last, h.unclosed⟩
    change ofText (Reading.cons x ⟨references, last, unclosed⟩).text = _
    rw [text_cons, ofText_of_closed (cut?_opening hbefore) (cut?_closing hinner), hrest]
    rfl

theorem existsUnique_reads (cs : List Char) : ∃! r : Reading, r.Reads cs := by
  refine ⟨ofText cs, reads_ofText cs, ?_⟩
  rintro r ⟨hgrammatical, rfl⟩
  exact hgrammatical.ofText_text.symm

end Reading

end Property

namespace Properties

open Property

section Values
variable {p : Properties} {whole : String} {x : Reference} {f : Fault}

def Defines (p : Properties) (x : Reference) : Prop := ¬ x.Blank ∧ (p.get? x.name).isSome

/-- Why a reference stands for no value; the fault of a blank one names the whole text. -/
inductive Faults (p : Properties) (whole : String) (x : Reference) : Fault → Prop where
  | blank : x.Blank → Faults p whole x (.invalid (.blankReference whole))
  | missing : ¬ x.Blank → p.get? x.name = none → Faults p whole x (.undefinedProperty x.name)

theorem isEmpty_name_iff : x.name.isEmpty ↔ x.Blank := by
  rw [Reference.name, isEmpty_trim, isBlankText, List.all_eq_true, String.toList_ofList]
  rfl

theorem value_of_blank (h : x.Blank) :
    p.value whole x.inner = .error (.invalid (.blankReference whole)) := by
  rw [value]
  exact if_pos (isEmpty_name_iff.2 h)

theorem value_of_not_blank (h : ¬ x.Blank) : p.value whole x.inner =
    (p.get? x.name).elim (.error (.undefinedProperty x.name)) .ok := by
  have hname : ¬ (Text.trim (String.ofList x.inner)).isEmpty := mt isEmpty_name_iff.1 h
  rw [value, if_neg hname, ← Reference.name]
  cases p.get? x.name <;> rfl

theorem value_eq_ok_iff {v : String} :
    p.value whole x.inner = .ok v ↔ p.Defines x ∧ (p.get? x.name).getD "" = v := by
  by_cases hblank : x.Blank
  · simp [value_of_blank hblank, Defines, hblank]
  · rw [value_of_not_blank hblank]
    cases h : p.get? x.name <;> simp [Defines, hblank, h]

theorem value_eq_error_iff : p.value whole x.inner = .error f ↔ p.Faults whole x f := by
  constructor
  · intro h
    by_cases hblank : x.Blank
    · obtain rfl := Except.error.inj ((value_of_blank hblank).symm.trans h)
      exact .blank hblank
    · rw [value_of_not_blank hblank] at h
      cases hget : p.get? x.name with
      | some v => simp [hget] at h
      | none =>
        rw [hget] at h
        obtain rfl := Except.error.inj h
        exact .missing hblank hget
  · rintro (hblank | ⟨hblank, hget⟩)
    · exact value_of_blank hblank
    · rw [value_of_not_blank hblank, hget]
      rfl

end Values

section Expansion
variable {p : Properties} {whole : String} {before inner cs acc : List Char}

theorem expand_cons {c : Char} (h : ¬ opening <+: c :: cs) :
    p.expand whole none (c :: cs) = (p.expand whole none cs).map (c :: ·) := by
  rw [expand.eq_def]
  split
  · rename_i hnil
    cases hnil
  · rename_i hsome _
    cases hsome
  · rename_i hcons
    obtain ⟨rfl, rfl⟩ := List.cons.inj hcons
    exact absurd ⟨_, rfl⟩ h
  · rename_i hcons
    obtain ⟨rfl, rfl⟩ := List.cons.inj hcons
    rfl
  · rename_i hsome _
    cases hsome

theorem expand_plain (h : ¬ opening <:+: cs) : p.expand whole none cs = .ok cs := by
  induction cs with
  | nil => rfl
  | cons c cs ih =>
    have hrest := ih fun hoccurs => h (hoccurs.trans (List.suffix_cons c cs).isInfix)
    rw [expand_cons fun hbegins => h hbegins.isInfix, hrest]
    rfl

theorem expand_opening (h : ¬ opening <:+: before) :
    p.expand whole none (before ++ opening ++ cs) =
      (p.expand whole (some []) cs).map (before ++ ·) := by
  induction before with
  | nil =>
    change p.expand whole (some []) cs = _
    cases p.expand whole (some []) cs <;> rfl
  | cons c before ih =>
    have hno : ¬ opening <+: c :: (before ++ opening ++ cs) :=
      not_prefix_of_not_infix (by decide) h
    have hrest := ih fun hoccurs => h (hoccurs.trans (List.suffix_cons c before).isInfix)
    rw [List.cons_append, List.cons_append, expand_cons hno, hrest]
    cases p.expand whole (some []) cs <;> rfl

/-- Inside a reference its name is gathered up to the closing brace. -/
theorem expand_closing (h : '}' ∉ inner) :
    p.expand whole (some acc) (inner ++ ['}'] ++ cs) =
      (p.value whole (acc.reverse ++ inner)).bind fun v =>
        (p.expand whole none cs).map (v.toList ++ ·) := by
  induction inner generalizing acc with
  | nil =>
    rw [List.append_nil, List.nil_append, List.singleton_append, expand, if_pos rfl]
    rfl
  | cons c inner ih =>
    obtain ⟨hc, hinner⟩ : '}' ≠ c ∧ '}' ∉ inner := by simpa using h
    rw [List.cons_append, List.cons_append, expand, if_neg (Ne.symm hc), ih hinner]
    simp

theorem expand_unclosed (h : '}' ∉ inner) : p.expand whole (some acc) inner =
    .error (.invalid (.unterminatedReference whole)) := by
  induction inner generalizing acc with
  | nil => rfl
  | cons c inner ih =>
    obtain ⟨hc, hinner⟩ : '}' ≠ c ∧ '}' ∉ inner := by simpa using h
    rw [expand, if_neg (Ne.symm hc), ih hinner]

/-- The text of a reading goes on behind its first reference as the rest of the reading does. -/
theorem expand_text_cons {x : Reference} {r : Reading} (hbefore : ¬ opening <:+: x.before)
    (hinner : '}' ∉ x.inner) : p.expand whole none (r.cons x).text =
      (p.value whole x.inner).bind fun v =>
        (p.expand whole none r.text).map (x.before ++ v.toList ++ ·) := by
  rw [Reading.text_cons, expand_opening hbefore, expand_closing hinner, List.reverse_nil,
    List.nil_append]
  cases p.value whole x.inner with
  | error f => rfl
  | ok v => cases p.expand whole none r.text <;> simp [Except.bind, Except.map]

end Expansion

def fill (p : Properties) (x : Reference) : List Char := ((p.get? x.name).getD "").toList

/-- The literal stretches as they are, with the values of the references between them. -/
def filled (p : Properties) (r : Reading) : List Char :=
  r.references.flatMap (fun x => x.before ++ p.fill x) ++ r.last

/-- What the interpolation of a text ends in: the fault of the first reference that stands for no
value, or that a reference behind all others is never closed. -/
inductive Blames (p : Properties) (whole : String) (r : Reading) : Fault → Prop where
  | reference {done todo : List Reference} {x : Reference} {f : Fault} :
      r.references = done ++ x :: todo → (∀ y ∈ done, p.Defines y) → p.Faults whole x f →
      Blames p whole r f
  | unclosed {inner : List Char} : (∀ y ∈ r.references, p.Defines y) → r.unclosed = some inner →
      Blames p whole r (.invalid (.unterminatedReference whole))

section Reading
variable {p : Properties} {whole : String} {x : Reference} {r : Reading} {f : Fault}
variable {rest : Except Fault (List Char)} {out : List Char}

theorem put_eq_ok_iff : ((p.value whole x.inner).bind fun v =>
      rest.map (x.before ++ v.toList ++ ·)) = .ok out ↔
    p.Defines x ∧ ∃ more, rest = .ok more ∧ x.before ++ p.fill x ++ more = out := by
  cases hvalue : p.value whole x.inner with
  | error f =>
    have hno : ¬ p.Defines x := fun hx => by
      rw [value_eq_ok_iff.2 ⟨hx, rfl⟩] at hvalue
      cases hvalue
    simp [Except.bind, hno]
  | ok v =>
    obtain ⟨hx, hv⟩ := value_eq_ok_iff.1 hvalue
    cases rest <;> simp [Except.bind, Except.map, fill, hx, hv]

theorem put_eq_error_iff : ((p.value whole x.inner).bind fun v =>
      rest.map (x.before ++ v.toList ++ ·)) = .error f ↔
    p.Faults whole x f ∨ p.Defines x ∧ rest = .error f := by
  cases hvalue : p.value whole x.inner with
  | error g =>
    have hno : ¬ p.Defines x := fun hx => by
      rw [value_eq_ok_iff.2 ⟨hx, rfl⟩] at hvalue
      cases hvalue
    simp [Except.bind, ← value_eq_error_iff, hvalue, hno]
  | ok v =>
    obtain ⟨hx, -⟩ := value_eq_ok_iff.1 hvalue
    cases rest <;> simp [Except.bind, Except.map, ← value_eq_error_iff, hvalue, hx]

theorem expand_tail {last : List Char} {unclosed : Option (List Char)}
    (h : Reading.Grammatical ⟨[], last, unclosed⟩) :
    p.expand whole none (Reading.text ⟨[], last, unclosed⟩) =
      unclosed.elim (.ok last) fun _ => .error (.invalid (.unterminatedReference whole)) := by
  cases unclosed with
  | none => simpa [Reading.text, Reading.tail] using expand_plain h.last
  | some inner =>
    have htext : Reading.text ⟨[], last, some inner⟩ = last ++ opening ++ inner := by
      simp [Reading.text, Reading.tail]
    rw [htext, expand_opening h.last, expand_unclosed (h.unclosed inner rfl)]
    rfl

theorem expand_eq_ok_iff (h : r.Grammatical) : p.expand whole none r.text = .ok out ↔
    r.unclosed = none ∧ (∀ x ∈ r.references, p.Defines x) ∧ p.filled r = out := by
  obtain ⟨references, last, unclosed⟩ := r
  induction references generalizing out with
  | nil =>
    rw [expand_tail h]
    cases unclosed <;> simp [filled]
  | cons x references ih =>
    obtain ⟨hbefore, hliteral⟩ := List.forall_mem_cons.1 h.literal
    obtain ⟨hinner, hinners⟩ := List.forall_mem_cons.1 h.inner
    change p.expand whole none (Reading.cons x ⟨references, last, unclosed⟩).text = _ ↔ _
    rw [expand_text_cons hbefore hinner, put_eq_ok_iff]
    simp only [ih ⟨hliteral, hinners, h.last, h.unclosed⟩, filled, List.forall_mem_cons,
      List.flatMap_cons, List.append_assoc]
    constructor
    · rintro ⟨hx, more, ⟨hclosed, hrest, rfl⟩, rfl⟩
      exact ⟨hclosed, ⟨hx, hrest⟩, rfl⟩
    · rintro ⟨hclosed, ⟨hx, hrest⟩, rfl⟩
      exact ⟨hx, _, ⟨hclosed, hrest, rfl⟩, rfl⟩

theorem Blames.cons (hx : p.Defines x) (h : p.Blames whole r f) : p.Blames whole (r.cons x) f := by
  cases h with
  | @reference done todo y _ hsplit hdone hfault =>
    have hsplit' : (r.cons x).references = x :: done ++ y :: todo := congrArg (x :: ·) hsplit
    exact .reference hsplit' (List.forall_mem_cons.2 ⟨hx, hdone⟩) hfault
  | unclosed hall hopen => exact .unclosed (List.forall_mem_cons.2 ⟨hx, hall⟩) hopen

theorem blames_cons_iff : p.Blames whole (r.cons x) f ↔
    p.Faults whole x f ∨ p.Defines x ∧ p.Blames whole r f := by
  constructor
  · intro h
    cases h with
    | @reference done todo y _ hsplit hdone hfault =>
      cases done with
      | nil =>
        obtain ⟨rfl, -⟩ := List.cons.inj hsplit
        exact .inl hfault
      | cons z done =>
        obtain ⟨rfl, hrest⟩ := List.cons.inj hsplit
        obtain ⟨hx, hdone⟩ := List.forall_mem_cons.1 hdone
        exact .inr ⟨hx, .reference hrest hdone hfault⟩
    | unclosed hall hopen =>
      obtain ⟨hx, hall⟩ := List.forall_mem_cons.1 hall
      exact .inr ⟨hx, .unclosed hall hopen⟩
  · rintro (hfault | ⟨hx, h⟩)
    · have hfirst : (r.cons x).references = [] ++ x :: r.references := rfl
      exact .reference hfirst (by simp) hfault
    · exact h.cons hx

theorem expand_eq_error_iff (h : r.Grammatical) :
    p.expand whole none r.text = .error f ↔ p.Blames whole r f := by
  obtain ⟨references, last, unclosed⟩ := r
  induction references with
  | nil =>
    rw [expand_tail h]
    constructor
    · intro hfault
      cases unclosed with
      | none => cases hfault
      | some inner =>
        obtain rfl := Except.error.inj hfault
        exact .unclosed (by simp) rfl
    · rintro (⟨hsplit, -, -⟩ | ⟨-, hopen⟩)
      · simp at hsplit
      · obtain rfl : unclosed = some _ := hopen
        rfl
  | cons x references ih =>
    obtain ⟨hbefore, hliteral⟩ := List.forall_mem_cons.1 h.literal
    obtain ⟨hinner, hinners⟩ := List.forall_mem_cons.1 h.inner
    change p.expand whole none (Reading.cons x ⟨references, last, unclosed⟩).text = _ ↔
      p.Blames whole (Reading.cons x ⟨references, last, unclosed⟩) f
    rw [expand_text_cons hbefore hinner, put_eq_error_iff, blames_cons_iff,
      ih ⟨hliteral, hinners, h.last, h.unclosed⟩]

end Reading

section Offsets

/-- Interpolation by byte offsets: the text is searched for the next opening and the next closing
brace, and split there. It comes to nothing where a split falls outside the text or inside a
character, or where the turns do not suffice. -/
def expandAt (p : Properties) (whole : String) :
    Nat → List Char → List Char → Option (Except Fault (List Char))
  | 0, _, _ => none
  | turns + 1, out, cs =>
    match offset? opening cs with
    | none => some (.ok (out ++ cs))
    | some start => do
      let (before, _) ← splitAt? start cs
      let (_, after) ← splitAt? (start + width opening) cs
      match offset? ['}'] after with
      | none => some (.error (.invalid (.unterminatedReference whole)))
      | some stop => do
        let (inner, _) ← splitAt? stop after
        let (_, more) ← splitAt? (stop + width ['}']) after
        match p.value whole inner with
        | .error f => some (.error f)
        | .ok v => p.expandAt whole turns (out ++ before ++ v.toList) more

variable {p : Properties} {whole : String} {before inner cs out : List Char} {turns : Nat}

theorem offset?_append {before rest : List Char} {a : Char} {tail : List Char} (ha : a ∉ tail)
    (h : ¬ (a :: tail) <:+: before) :
    offset? (a :: tail) (before ++ (a :: tail) ++ rest) = some (width before) := by
  rw [offset?_eq, cut?_append ha h]
  rfl

theorem splitAt?_behind (before mark after : List Char) :
    splitAt? (width before + width mark) (before ++ mark ++ after) =
      some (before ++ mark, after) := by
  rw [← width_append, splitAt?_width]

theorem expandAt_plain (h : ¬ opening <:+: cs) :
    p.expandAt whole (turns + 1) out cs = some (.ok (out ++ cs)) := by
  have hno : offset? opening cs = none := by rw [offset?_eq, cut?_eq_none_iff.2 h]; rfl
  rw [expandAt, hno]

theorem expandAt_unclosed (h : ¬ opening <:+: before) (h' : '}' ∉ inner) :
    p.expandAt whole (turns + 1) out (before ++ opening ++ inner) =
      some (.error (.invalid (.unterminatedReference whole))) := by
  have hopened : offset? opening (before ++ opening ++ inner) = some (width before) :=
    offset?_append (by decide) h
  have hno : offset? ['}'] inner = none := by
    rw [offset?_eq, Reading.cut?_closing_eq_none.2 h']; rfl
  have hbefore : splitAt? (width before) (before ++ opening ++ inner) =
      some (before, opening ++ inner) := by rw [List.append_assoc, splitAt?_width]
  simp only [expandAt, hopened, hbefore, splitAt?_behind, hno, Option.bind_eq_bind,
    Option.bind_some]

theorem expandAt_closed (h : ¬ opening <:+: before) (h' : '}' ∉ inner) :
    p.expandAt whole (turns + 1) out (before ++ opening ++ (inner ++ ['}'] ++ cs)) =
      match p.value whole inner with
      | .error f => some (.error f)
      | .ok v => p.expandAt whole turns (out ++ before ++ v.toList) cs := by
  have hopened : offset? opening (before ++ opening ++ (inner ++ ['}'] ++ cs)) =
      some (width before) := offset?_append (by decide) h
  have hclosed : offset? ['}'] (inner ++ ['}'] ++ cs) = some (width inner) :=
    offset?_append (by simp) (mt (List.singleton_infix_iff _ _).1 h')
  have hbefore : splitAt? (width before) (before ++ opening ++ (inner ++ ['}'] ++ cs)) =
      some (before, opening ++ (inner ++ ['}'] ++ cs)) := by rw [List.append_assoc, splitAt?_width]
  have hinner : splitAt? (width inner) (inner ++ ['}'] ++ cs) = some (inner, ['}'] ++ cs) := by
    rw [List.append_assoc, splitAt?_width]
  simp only [expandAt, hopened, hbefore, splitAt?_behind, hclosed, hinner, Option.bind_eq_bind,
    Option.bind_some]

/-- Every split falls on a character of the text, and there is a turn for every reference. -/
theorem expandAt_text {r : Reading} (h : r.Grammatical) (hturns : r.references.length < turns) :
    p.expandAt whole turns out r.text = some ((p.expand whole none r.text).map (out ++ ·)) := by
  obtain ⟨references, last, unclosed⟩ := r
  induction references generalizing out turns with
  | nil =>
    obtain ⟨turns, rfl⟩ := Nat.exists_eq_add_one_of_ne_zero (Nat.ne_of_gt hturns)
    rw [expand_tail h]
    cases unclosed with
    | none => simpa [Reading.text, Reading.tail, Except.map] using expandAt_plain h.last
    | some inner =>
      have htext : Reading.text ⟨[], last, some inner⟩ = last ++ opening ++ inner := by
        simp [Reading.text, Reading.tail]
      rw [htext, expandAt_unclosed h.last (h.unclosed inner rfl)]
      rfl
  | cons x references ih =>
    obtain ⟨turns, rfl⟩ := Nat.exists_eq_add_one_of_ne_zero (Nat.ne_zero_of_lt hturns)
    obtain ⟨hbefore, hliteral⟩ := List.forall_mem_cons.1 h.literal
    obtain ⟨hinner, hinners⟩ := List.forall_mem_cons.1 h.inner
    have hrest (out : List Char) : p.expandAt whole turns out _ = _ :=
      ih ⟨hliteral, hinners, h.last, h.unclosed⟩ (Nat.lt_of_succ_lt_succ hturns)
    change p.expandAt whole (turns + 1) out (Reading.cons x ⟨references, last, unclosed⟩).text =
      some ((p.expand whole none (Reading.cons x ⟨references, last, unclosed⟩).text).map _)
    rw [expand_text_cons hbefore hinner, Reading.text_cons, expandAt_closed hbefore hinner]
    cases p.value whole x.inner with
    | error f => rfl
    | ok v =>
      simp only [hrest, Except.bind]
      cases p.expand whole none (Reading.text ⟨references, last, unclosed⟩) <;>
        simp [Except.map]

end Offsets

theorem length_references_le (r : Reading) : r.references.length ≤ r.text.length := by
  obtain ⟨references, last, unclosed⟩ := r
  induction references with
  | nil => simp
  | cons x references ih =>
    change references.length + 1 ≤ (Reading.cons x ⟨references, last, unclosed⟩).text.length
    rw [Reading.text_cons]
    simp only [List.length_append, List.length_singleton] at ih ⊢
    omega

/-- What the interpolation of a text comes to, by its only reading: it goes through exactly where
every reference is closed and stands for a value, and then it yields the literal stretches with
the values between them; else it ends with the fault of the leftmost reference that does not. Done
by byte offsets, it splits the text between characters only, and ends. -/
theorem interpolate_goes_by_reading (p : Properties) (raw : String) :
    ∃ r : Reading, r.Reads raw.toList ∧ (∀ r' : Reading, r'.Reads raw.toList → r' = r) ∧
      ((∃ out, p.interpolate raw = .ok out) ↔
        r.unclosed = none ∧ ∀ x ∈ r.references, p.Defines x) ∧
      (∀ out, p.interpolate raw = .ok out → out.toList = p.filled r) ∧
      (∀ f, p.interpolate raw = .error f ↔ p.Blames raw r f) ∧
      p.expandAt raw (raw.length + 1) [] raw.toList =
        some ((p.interpolate raw).map String.toList) := by
  obtain ⟨r, ⟨hgrammatical, htext⟩, honly⟩ := Reading.existsUnique_reads raw.toList
  have hok (out : List Char) : p.expand raw none r.text = .ok out ↔ _ :=
    expand_eq_ok_iff hgrammatical
  have herror (f : Fault) : p.expand raw none r.text = .error f ↔ p.Blames raw r f :=
    expand_eq_error_iff hgrammatical
  have hturns : r.references.length < raw.length + 1 := by
    rw [← String.length_toList, ← htext]
    exact Nat.lt_succ_of_le (length_references_le r)
  have hoffsets : p.expandAt raw (raw.length + 1) [] r.text = _ :=
    expandAt_text hgrammatical hturns
  rw [htext] at hok herror hoffsets
  have hinterpolate : p.interpolate raw = (p.expand raw none raw.toList).map String.ofList := rfl
  have hmap (out : String) : p.interpolate raw = .ok out ↔
      p.expand raw none raw.toList = .ok out.toList := by
    rw [hinterpolate]
    cases p.expand raw none raw.toList with
    | error f => simp [Except.map]
    | ok cs => simp [Except.map, String.ext_iff]
  refine ⟨r, ⟨hgrammatical, htext⟩, honly, ⟨?_, ?_⟩, ?_, ?_, ?_⟩
  · rintro ⟨out, hout⟩
    obtain ⟨hclosed, hdefined, -⟩ := (hok _).1 ((hmap out).1 hout)
    exact ⟨hclosed, hdefined⟩
  · rintro ⟨hclosed, hdefined⟩
    refine ⟨String.ofList (p.filled r), (hmap _).2 ((hok _).2 ⟨hclosed, hdefined, ?_⟩)⟩
    rw [String.toList_ofList]
  · intro out hout
    exact ((hok _).1 ((hmap out).1 hout)).2.2.symm
  · intro f
    rw [← herror f, hinterpolate]
    cases p.expand raw none raw.toList <;> simp [Except.map]
  · rw [hoffsets, hinterpolate]
    cases p.expand raw none raw.toList <;> simp [Except.map]

end Properties

end GemStaging
