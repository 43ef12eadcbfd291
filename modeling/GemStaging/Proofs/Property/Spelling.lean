import GemStaging.Manifest.Reading
import GemStaging.Proofs.Yaml.Lone
import GemStaging.Proofs.Yaml.Resolution

/-!
Whether a scalar of a manifest keeps the spelling that its author gave it. An untagged scalar is
read in the same way wherever it stands, also through an alias (`Scalar.reader_of_reaches`). A
quoted one is taken as it is; a plain one is taken as it is or refused, except that whole numbers
and truth values are written out in the usual way (`Scalar.reader_spelling`).
-/

namespace GemStaging

open Yaml

namespace Yaml.Decode
variable {α β : Type} {scope : Scope} {p p' : Position} {n : Node}

theorem bind_of_ok {d : Decode α} {f : α → Decode β} {x : α} (h : d scope p = .ok (x, p')) :
    (d >>= f) scope p = f x scope p' := by
  change Except.bind (d scope p) _ = _
  rw [h]
  rfl

theorem bind_of_error {d : Decode α} {f : α → Decode β} {e : DecodeError}
    (h : d scope p = .error e) : (d >>= f) scope p = .error e := by
  change Except.bind (d scope p) _ = _
  rw [h]
  rfl

theorem located_of_ok {d : Decode α} {r : α × Position} (h : d scope p = .ok r) :
    located d scope p = .ok r := by
  rw [located, h]

theorem located_of_error {d : Decode α} {e : DecodeError} (h : d scope p = .error e) :
    ∃ e', located d scope p = .error e' := by
  rw [located, h]
  split <;> exact ⟨_, rfl⟩

theorem peek_of_node (h : scope.document.nodes[p.at']? = some n) : peek scope p = .ok (n, p) := by
  have hread : (read : Decode Scope) scope p = .ok (scope, p) := rfl
  have hget : (get : Decode Position) scope p = .ok (p, p) := rfl
  rw [peek, bind_of_ok hread, bind_of_ok hget, h]
  rfl

theorem next_of_node (h : scope.document.nodes[p.at']? = some n) :
    next scope p = .ok (n, { p with at' := p.at' + 1 }) := by
  rw [next, bind_of_ok (peek_of_node h)]
  rfl

/-- A decoder that follows an alias runs at the node that it names and comes back. -/
theorem follow_of_start {d : Decode α} {anchor start : Nat}
    (hstart : scope.document.anchors.get? anchor = some start)
    (hjumps : p.jumps < scope.document.nodes.size * 100) :
    follow anchor d scope p =
      (d { scope with trail := .repeats scope.trail } ⟨start, p.jumps + 1⟩).map fun r =>
        (r.1, { r.2 with at' := p.at' }) := by
  have hread : (read : Decode Scope) scope p = .ok (scope, p) := rfl
  have hcount : (modify fun p => { p with jumps := p.jumps + 1 } : Decode PUnit) scope p =
      .ok (⟨⟩, { p with jumps := p.jumps + 1 }) := rfl
  have hget : (get : Decode Position) scope { p with jumps := p.jumps + 1 } =
      .ok ({ p with jumps := p.jumps + 1 }, { p with jumps := p.jumps + 1 }) := rfl
  have hlimit : ¬ scope.document.nodes.size * 100 < p.jumps + 1 := by omega
  rw [follow, bind_of_ok hread, bind_of_ok hcount, bind_of_ok hget]
  dsimp only
  rw [if_neg hlimit, hstart]
  have hset : (set (⟨start, p.jumps + 1⟩ : Position) : Decode PUnit) scope
      { p with jumps := p.jumps + 1 } = .ok (⟨⟩, ⟨start, p.jumps + 1⟩) := rfl
  refine (bind_of_ok hset).trans ?_
  cases hd : d { scope with trail := .repeats scope.trail } ⟨start, p.jumps + 1⟩ with
  | error e => exact bind_of_error hd
  | ok r => exact bind_of_ok hd

/-- What comes next is an untagged scalar, or an alias of one that may still be followed. -/
inductive Reaches (scope : Scope) (p : Position) (s : String) (style : Style) : Prop where
  | itself : scope.document.nodes[p.at']? = some (.scalar none s style) → Reaches scope p s style
  | repeated {anchor start : Nat} : scope.document.nodes[p.at']? = some (.repeats anchor) →
      scope.document.anchors.get? anchor = some start →
      scope.document.nodes[start]? = some (.scalar none s style) →
      p.jumps < scope.document.nodes.size * 100 → Reaches scope p s style

variable {s : String} {style : Style} {handle : Node → Decode α}

theorem withNode_of_reaches (h : Reaches scope p s style) : ∃ scope' p₁,
    (∀ x p', handle (.scalar none s style) scope' p₁ = .ok (x, p') →
      ∃ p', withNode handle scope p = .ok (x, p')) ∧
    ∀ e, handle (.scalar none s style) scope' p₁ = .error e →
      withNode handle scope p = .error e := by
  cases h with
  | itself hnode =>
    refine ⟨scope, { p with at' := p.at' + 1 }, ?_⟩
    rw [withNode, bind_of_ok (next_of_node hnode)]
    exact ⟨fun x p' hx => ⟨p', hx⟩, fun e he => he⟩
  | @repeated anchor start halias hanchor hnode hjumps =>
    refine ⟨{ scope with trail := .repeats scope.trail }, ⟨start + 1, p.jumps + 1⟩, ?_⟩
    have hnext : next { scope with trail := .repeats scope.trail } ⟨start, p.jumps + 1⟩ =
        .ok (.scalar none s style, ⟨start + 1, p.jumps + 1⟩) := next_of_node hnode
    have hfollow := follow_of_start (d := next >>= handle) (p := { p with at' := p.at' + 1 })
      hanchor hjumps
    rw [bind_of_ok hnext] at hfollow
    rw [withNode, bind_of_ok (next_of_node halias)]
    refine ⟨fun x p' hx => ⟨{ p' with at' := p.at' + 1 }, ?_⟩, fun e he => ?_⟩
    · refine hfollow.trans ?_
      rw [hx]
      rfl
    · refine hfollow.trans ?_
      rw [he]
      rfl

/-- A scalar of any kind is read as its value, unless that is a number of more than 64 bits. -/
theorem content_of_reaches {a : Atom} (h : Reaches scope p s style)
    (ha : atom none s style = .ok a) (levels : Nat) :
    ((∀ n, a ≠ .wide n) → ∃ p', content (levels + 1) scope p = .ok (.atom a, p')) ∧
      ∀ n, a = .wide n → ∃ e, content (levels + 1) scope p = .error e := by
  obtain ⟨handle, hcontent, hkept, hrefused⟩ : ∃ handle,
      content (levels + 1) = located (withNode handle) ∧
      (∀ scope p, (∀ n, a ≠ .wide n) →
        handle (.scalar none s style) scope p = .ok (.atom a, p)) ∧
      ∀ scope p n, a = .wide n → ∃ e, handle (.scalar none s style) scope p = .error e := by
    have hown : ¬ (ownTag? none).isSome := by decide
    refine ⟨_, by rw [content], fun scope p hwide => ?_, fun scope p n hwide => ?_⟩
    · dsimp only
      rw [if_neg hown, ha]
      cases a <;> first | rfl | exact absurd rfl (hwide _)
    · dsimp only
      rw [if_neg hown, ha, hwide]
      exact ⟨_, rfl⟩
  obtain ⟨scope', p₁, hok, herror⟩ := @withNode_of_reaches _ _ _ _ _ handle h
  rw [hcontent]
  constructor
  · intro hwide
    obtain ⟨p', hp'⟩ := hok (.atom a) p₁ (hkept _ _ hwide)
    exact ⟨p', located_of_ok hp'⟩
  · intro n hwide
    obtain ⟨e, he⟩ := hrefused scope' p₁ n hwide
    exact located_of_error (herror e he)

end Yaml.Decode

namespace Scalar

def ofAtom? : Atom → Option Scalar
  | .text s => some (.text s)
  | .integer n => some (.integer n)
  | .decimal d => some (.decimal d)
  | .truth b => some (.truth b)
  | .nothing => none
  | .wide _ => none

def valueOf (s : String) (style : Style) : Atom := if style = .plain then .ofPlain s else .text s

theorem reader_of_reaches {scope : Scope} {p : Position} {s : String} {style : Style}
    (h : Decode.Reaches scope p s style) (x : Scalar) :
    (∃ p', reader scope p = .ok (x, p')) ↔ ofAtom? (valueOf s style) = some x := by
  have hread : (read : Decode Scope) scope p = .ok (scope, p) := rfl
  have hatom : Decode.atom none s style = .ok (valueOf s style) := rfl
  obtain ⟨hok, herror⟩ := Decode.content_of_reaches h hatom scope.depth
  rw [reader, Decode.bind_of_ok hread]
  generalize valueOf s style = a at hok herror
  cases a with
  | wide n =>
    obtain ⟨e, he⟩ := herror n rfl
    rw [Decode.bind_of_error he]
    simp [ofAtom?]
  | nothing =>
    obtain ⟨p', hp'⟩ := hok (by simp)
    rw [Decode.bind_of_ok hp']
    constructor
    · rintro ⟨p₁, hp₁⟩
      cases hp₁
    · intro hx
      cases hx
  | text | integer | decimal | truth =>
    obtain ⟨p', hp'⟩ := hok (by simp)
    rw [Decode.bind_of_ok hp']
    constructor
    · rintro ⟨p₁, hp₁⟩
      cases hp₁
      rfl
    · intro hx
      obtain rfl := Option.some.inj hx
      exact ⟨p', rfl⟩

/-- A plain scalar that stands for a value which is written out in another way. -/
def Respelled (s : String) : Prop :=
  s ∈ ["True", "TRUE", "False", "FALSE"] ∨
    (∃ n, Atom.ofPlain s = .integer n) ∧ Unusual s.toList

theorem not_mem_words_of_readTruth? {s : String} (h : readTruth? s = none) :
    s ∉ ["True", "TRUE", "False", "FALSE"] := by
  intro hs
  have hwords : ∀ w ∈ ["True", "TRUE", "False", "FALSE"], (readTruth? w).isSome := by decide
  have hsome := hwords s hs
  rw [h] at hsome
  cases hsome

theorem truthText_eq_iff {s : String} {b : Bool} (h : readTruth? s = some b) :
    truthText b = s ↔ s ∉ ["True", "TRUE", "False", "FALSE"] := by
  rw [readTruth?] at h
  split at h
  · rename_i hs
    obtain rfl := Option.some.inj h
    obtain (rfl | rfl) | rfl : (s = "true" ∨ s = "True") ∨ s = "TRUE" := by simpa using hs
    all_goals decide
  · split at h
    · rename_i hs
      obtain rfl := Option.some.inj h
      obtain (rfl | rfl) | rfl : (s = "false" ∨ s = "False") ∨ s = "FALSE" := by simpa using hs
      all_goals decide
    · cases h

/-- What comes of a plain scalar where a text is wanted and `Reads` says what is read there: it is
refused where it stands for nothing or for a decimal or for a number of more than 64 bits, and
otherwise it is the text that its author wrote, unless it is respelled. -/
structure Spelling (s : String) (Reads : Scalar → Prop) : Prop where
  read : (∃ x, Reads x) ↔ Atom.ofPlain s ≠ .nothing ∧ ∀ n, Atom.ofPlain s ≠ .wide n
  refused : ∀ x, Reads x → ∀ d, Atom.ofPlain s = .decimal d → ∀ what,
    x.toText what = .error (.invalid (.unquotedDecimal what d.scientific))
  written : ∀ x, Reads x → (∀ d, Atom.ofPlain s ≠ .decimal d) → ∃ t,
    (∀ what, x.toText what = .ok t) ∧ (t = s ↔ ¬ Respelled s)

theorem spelling_of_ofAtom? {s : String} {Reads : Scalar → Prop}
    (h : ∀ x, Reads x ↔ ofAtom? (.ofPlain s) = some x) : Spelling s Reads := by
  have hresolves := resolves s
  have hrespelled : Respelled s ↔ s ∈ ["True", "TRUE", "False", "FALSE"] ∨
    (∃ n, Atom.ofPlain s = .integer n) ∧ Unusual s.toList := Iff.rfl
  constructor
  · simp only [h]
    cases Atom.ofPlain s <;> simp [ofAtom?]
  · intro x hx d hd what
    rw [h, hd] at hx
    obtain rfl := Option.some.inj hx
    rfl
  · intro x hx hno
    rw [h] at hx
    generalize Atom.ofPlain s = a at *
    cases hresolves with
    | nothing => cases hx
    | wide n => cases hx
    | decimal d => exact absurd rfl (hno d)
    | @truth b htruth =>
      obtain rfl := Option.some.inj hx
      refine ⟨truthText b, fun _ => rfl, ?_⟩
      rw [hrespelled, truthText_eq_iff htruth]
      simp
    | @integer n htruth hinteger =>
      obtain rfl := Option.some.inj hx
      refine ⟨toString n, fun _ => rfl, ?_⟩
      rw [hrespelled, ← String.toList_inj, toString_eq_iff hinteger]
      simp [not_mem_words_of_readTruth? htruth]
    | text htruth =>
      obtain rfl := Option.some.inj hx
      refine ⟨s, fun _ => rfl, ?_⟩
      rw [hrespelled]
      simp [not_mem_words_of_readTruth? htruth]

theorem decode_eq_ok_iff {text : String} {n : Node} {x : Scalar}
    (h : Document.ofText text = ⟨#[n], .empty, false, false⟩) :
    Yaml.decode reader text = .ok x ↔
      ∃ p', reader { document := ⟨#[n], .empty, false, false⟩ } {} = .ok (x, p') := by
  rw [Yaml.decode, h]
  simp only [StateT.run]
  cases reader { document := ⟨#[n], .empty, false, false⟩ } {} with
  | error e => simp
  | ok r => simp [Prod.ext_iff]

/-- What an author wrote where a text is wanted, read anywhere in a document or on its own. A plain
scalar keeps its spelling or is refused, but for whole numbers and truth values that are respelled;
a quoted one is always the text between its quotes. -/
theorem reader_spelling (s : String) (scope : Scope) (p : Position) :
    (Decode.Reaches scope p s .plain → Spelling s fun x => ∃ p', reader scope p = .ok (x, p')) ∧
    (∀ c rest, s.toList = c :: rest → PlainLine c rest →
      Spelling s fun x => Yaml.decode reader s = .ok x) ∧
    (Decode.Reaches scope p s .quoted → ∀ x, (∃ p', reader scope p = .ok (x, p')) ↔ x = .text s) ∧
    (Quotable s.toList → (∀ c ∈ s.toList, isAllowed c) →
      Yaml.decode reader ("'" ++ s ++ "'") = .ok (.text s)) ∧
    ∀ what, toText what (.text s) = .ok s := by
  have hlone (style : Style) :
      Decode.Reaches { document := ⟨#[.scalar none s style], .empty, false, false⟩ } {} s style :=
    .itself rfl
  have hquoted {scope : Scope} {p : Position} (h : Decode.Reaches scope p s .quoted)
      (x : Scalar) : (∃ p', reader scope p = .ok (x, p')) ↔ x = .text s := by
    rw [reader_of_reaches h]
    exact ⟨fun hx => (Option.some.inj hx).symm, fun hx => hx ▸ rfl⟩
  refine ⟨fun h => ?_, fun c rest hs h => ?_, hquoted, fun h hallowed => ?_, fun what => rfl⟩
  · exact spelling_of_ofAtom? (reader_of_reaches h)
  · refine spelling_of_ofAtom? fun x => ?_
    rw [decode_eq_ok_iff (Document.ofText_plain hs h)]
    exact reader_of_reaches (hlone .plain) x
  · rw [decode_eq_ok_iff (Document.ofText_quoted h hallowed)]
    exact (hquoted (hlone .quoted) _).2 rfl

/-- A version with two points keeps its spelling, and so does a quoted decimal. -/
theorem reader_spelling_samples :
    (∃ x, Yaml.decode reader "10.3.2" = .ok x ∧ x.toText "version" = .ok "10.3.2") ∧
    Yaml.decode reader "'1.50'" = .ok (.text "1.50") := by
  obtain ⟨-, hplain, -⟩ := reader_spelling "10.3.2" { document := ⟨#[], .empty, false, false⟩ } {}
  obtain ⟨-, -, -, hquoted, -⟩ :=
    reader_spelling "1.50" { document := ⟨#[], .empty, false, false⟩ } {}
  have hline : PlainLine '1' ['0', '.', '3', '.', '2'] := by
    refine ⟨by decide, by decide, by decide, by decide, List.all_eq_true.1 (by decide), ?_⟩
    iterate 6 refine .char (by decide) (by decide) (by decide) (by decide) ?_
    exact .done
  have hspelling := hplain _ _ (by decide +kernel) hline
  have hvalue : Atom.ofPlain "10.3.2" = .text "10.3.2" := by decide +kernel
  obtain ⟨x, hx⟩ := hspelling.read.2 (by simp [hvalue])
  obtain ⟨t, ht, hkept⟩ := hspelling.written x hx (by simp [hvalue])
  have hsame : ¬ Respelled "10.3.2" := by simp [Respelled, hvalue]
  obtain rfl := hkept.2 hsame
  have hquotable : Quotable "1.50".toList := by simp [Quotable, isBreak]
  exact ⟨⟨x, hx, ht _⟩, hquoted hquotable (List.all_eq_true.1 (by decide +kernel))⟩

/-- Whole numbers and truth values that are read by their values and written out in another way. -/
theorem respelled_samples :
    (Yaml.decode reader "0x10" = .ok (.integer 16) ∧ toText "version" (.integer 16) = .ok "16") ∧
    (Yaml.decode reader "+5" = .ok (.integer 5) ∧ toText "version" (.integer 5) = .ok "5") ∧
    (Yaml.decode reader "-0" = .ok (.integer 0) ∧ toText "version" (.integer 0) = .ok "0") ∧
    (Yaml.decode reader "True" = .ok (.truth true) ∧
      toText "version" (.truth true) = .ok "true") := by
  decide +kernel

end Scalar

end GemStaging
