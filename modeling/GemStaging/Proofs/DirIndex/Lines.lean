import GemStaging.DirIndex.Basic
import GemStaging.Files.Basic
import GemStaging.Proofs.Path.Hops
import GemStaging.Proofs.Text.Decoding
import GemStaging.Proofs.Text.Ordering

/-!
Reading an index back. Where no name holds a line break, the lines of an index are a dot and then
the names that are not hidden, in the order of their bytes and each as often as it was listed. So an
index stands for these names and for nothing else (`DirIndex.render_read_back`).
-/

namespace GemStaging

namespace Text

/-- What stands between the line breaks of a text, before the first one and after the last. -/
def lines (text : String) : List String :=
  (splitOn '\n' text.toList).map String.ofList

/-- After the break that ends the last line there is one more piece, with nothing in it. -/
theorem lines_join {ls : List String} (h : ∀ line ∈ ls, '\n' ∉ line.toList) :
    lines (String.join (ls.map (· ++ "\n"))) = ls ++ [""] := by
  induction ls with
  | nil => rfl
  | cons line ls ih =>
    obtain ⟨hline, hrest⟩ := List.forall_mem_cons.1 h
    have htext : (String.join ((line :: ls).map (· ++ "\n"))).toList =
        line.toList ++ '\n' :: (String.join (ls.map (· ++ "\n"))).toList := by
      simp [String.toList_join]
    rw [lines, htext, splitOn_append_sep, splitOn_of_not_mem hline, List.map_append, ← lines,
      ih hrest]
    simp

theorem encode_le_encode_iff {a b : String} : encode a ≤ encode b ↔ a ≤ b := by
  rw [← String.not_lt, ← List.not_lt, encode_lt_encode_iff]

end Text

namespace DirIndex
variable {names others : List String}

theorem visible_perm (names : List String) :
    (visible names).Perm (names.filter (!isHidden ·)) :=
  List.mergeSort_perm _ _

theorem visible_ascending (names : List String) : (visible names).Pairwise (· ≤ ·) := by
  have htrans (a b c : String) : decide (a ≤ b) → decide (b ≤ c) → decide (a ≤ c) := by
    simpa using fun hab hbc => le_trans hab hbc
  have htotal (a b : String) : decide (a ≤ b) || decide (b ≤ a) := by
    simpa using le_total a b
  exact (List.pairwise_mergeSort htrans htotal (names.filter (!isHidden ·))).imp of_decide_eq_true

theorem visible_eq_iff : visible names = visible others ↔
    (names.filter (!isHidden ·)).Perm (others.filter (!isHidden ·)) := by
  constructor
  · intro h
    exact (visible_perm names).symm.trans (h ▸ visible_perm others)
  · intro h
    exact ((visible_perm names).trans (h.trans (visible_perm others).symm)).eq_of_pairwise
      (fun _ _ _ _ => le_antisymm) (visible_ascending names) (visible_ascending others)

theorem visible_filter (names : List String) :
    visible (names.filter (!isHidden ·)) = visible names := by
  rw [visible_eq_iff, List.filter_filter]
  simp

theorem visible_visible (names : List String) : visible (visible names) = visible names := by
  have hsame : visible (visible names) = visible (names.filter (!isHidden ·)) :=
    visible_eq_iff.2 ((visible_perm names).filter _)
  rw [hsame, visible_filter]

theorem not_mem_of_mem_visible (h : ∀ name ∈ names, '\n' ∉ name.toList) :
    ∀ line ∈ "." :: visible names, '\n' ∉ line.toList := by
  rw [List.forall_mem_cons]
  refine ⟨by decide, fun line hline => h line ?_⟩
  exact List.mem_of_mem_filter ((visible_perm names).mem_iff.1 hline)

theorem lines_render (h : ∀ name ∈ names, '\n' ∉ name.toList) :
    Text.lines (render names) = "." :: visible names ++ [""] :=
  Text.lines_join (not_mem_of_mem_visible h)

theorem render_eq_iff (h : ∀ name ∈ names, '\n' ∉ name.toList)
    (h' : ∀ name ∈ others, '\n' ∉ name.toList) :
    render names = render others ↔ visible names = visible others := by
  constructor
  · intro heq
    have hlines := lines_render h
    rw [heq, lines_render h'] at hlines
    simpa using hlines.symm
  · intro heq
    rw [render, heq, render]

/-- What an index is read as: a dot, then the names that are not hidden, in the order of their bytes
and each as often as it was listed, then nothing. What is read gives the same index again; hidden
names make no difference to an index, and two listings have the same index exactly where they agree
on the other names up to their order. -/
theorem render_read_back (h : ∀ name ∈ names, '\n' ∉ name.toList) :
    (∃ shown, Text.lines (render names) = "." :: shown ++ [""] ∧
      shown.Perm (names.filter (!isHidden ·)) ∧ (shown.map Text.encode).Pairwise (· ≤ ·) ∧
      render shown = render names ∧ render ("." :: shown) = render names) ∧
    render (names.filter (!isHidden ·)) = render names ∧
    ∀ others, (∀ name ∈ others, '\n' ∉ name.toList) →
      (render names = render others ↔
        (names.filter (!isHidden ·)).Perm (others.filter (!isHidden ·))) := by
  refine ⟨⟨visible names, lines_render h, visible_perm names, ?_, ?_, ?_⟩, ?_, fun others h' => ?_⟩
  · rw [List.pairwise_map]
    exact (visible_ascending names).imp Text.encode_le_encode_iff.2
  · rw [render, visible_visible, render]
  · have hdot : visible ("." :: visible names) = visible (visible names) := rfl
    rw [render, hdot, visible_visible, render]
  · rw [render, visible_filter, render]
  · rw [render_eq_iff h h', visible_eq_iff]

/-- A listing with hidden, empty and repeated names, and one that begins as another does. -/
theorem render_read_back_sample :
    (∀ name ∈ ["é", "b", ".x", "", "ab", "a", "b"], '\n' ∉ name.toList) ∧
    (∃ shown, Text.lines (render ["é", "b", ".x", "", "ab", "a", "b"]) = "." :: shown ++ [""] ∧
      shown.Perm ["é", "b", "", "ab", "a", "b"] ∧ (shown.map Text.encode).Pairwise (· ≤ ·)) ∧
    render ["é", "b", ".x", "", "ab", "a", "b"] = render ["b", "a", "b", "é", "", "ab"] := by
  have hnames : ∀ name ∈ ["é", "b", ".x", "", "ab", "a", "b"], '\n' ∉ name.toList := by
    decide +kernel
  obtain ⟨⟨shown, hlines, hperm, hordered, -⟩, -, hiff⟩ := render_read_back hnames
  have hvisible : ["é", "b", ".x", "", "ab", "a", "b"].filter (!isHidden ·) =
      ["é", "b", "", "ab", "a", "b"] := by decide +kernel
  exact ⟨hnames, ⟨shown, hlines, hvisible ▸ hperm, hordered⟩,
    (hiff _ (by decide +kernel)).2 (by decide +kernel)⟩

section Raw
variable {raw : Bytes}

theorem encode_readName_iff : Text.encode (Files.readName raw) = raw ↔
    ∃ name, raw = Text.encode name := by
  constructor
  · exact fun h => ⟨_, h.symm⟩
  · rintro ⟨name, rfl⟩
    rw [Files.readName, Text.decodeLossy_encode]

/-- Only a dot is read as a dot, so whether a name is hidden shows in its first byte. -/
theorem isHidden_readName_iff : isHidden (Files.readName raw) ↔ raw.head? = some 0x2E := by
  rw [isHidden, beq_iff_eq, Files.readName, Text.decodeLossy, String.toList_ofList, List.head?_map]
  have hspells : Text.Spells raw (Text.readPieces none raw) :=
    Text.spells_readPieces (q := none) rfl raw
  constructor
  · intro hdot
    cases hpieces : Text.readPieces none raw with
    | nil => simp [hpieces] at hdot
    | cons piece pieces =>
      rw [hpieces] at hspells hdot
      cases hspells with
      | char c hrest =>
        obtain rfl : c = '.' := by simpa using hdot
        rfl
      | broken chunk hrest => simp [Text.replacement] at hdot
  · intro hfirst
    obtain ⟨rest, rfl⟩ := List.head?_eq_some_iff.1 hfirst
    have hdot : Text.readPieces none (0x2E :: rest) = some '.' :: Text.readPieces none rest :=
      Text.readPieces_encodeChar rest '.'
    rw [hdot]
    rfl

/-- A disk may hold names that are no text. What is shown of a directory is its names that are not
hidden, byte for byte, exactly where each of these is the bytes of a text. -/
theorem visible_readName_perm_iff (raws : List Bytes) :
    ((visible (raws.map Files.readName)).map Text.encode).Perm
        (raws.filter (·.head? != some 0x2E)) ↔
      ∀ raw ∈ raws, raw.head? ≠ some 0x2E → ∃ name, raw = Text.encode name := by
  have hshown : (raws.map Files.readName).filter (!isHidden ·) =
      (raws.filter (·.head? != some 0x2E)).map Files.readName := by
    rw [List.filter_map]
    congr 1
    refine List.filter_congr fun raw _ => ?_
    rw [Bool.eq_iff_iff, Function.comp_apply, Bool.not_eq_true', bne_iff_ne, ne_eq,
      ← isHidden_readName_iff, Bool.not_eq_true]
  have hperm : ((visible (raws.map Files.readName)).map Text.encode).Perm
      ((raws.filter (·.head? != some 0x2E)).map (Text.encode ∘ Files.readName)) := by
    rw [← List.map_map, ← hshown]
    exact (visible_perm _).map _
  constructor
  · intro hsame raw hmem hfirst
    have hraw : raw ∈ raws.filter (·.head? != some 0x2E) := by simp [hmem, hfirst]
    obtain ⟨name, -, hname⟩ := List.mem_map.1 (hsame.mem_iff.2 hraw)
    exact ⟨name, hname.symm⟩
  · intro htext
    have hself : ∀ raw ∈ raws.filter (·.head? != some 0x2E),
        (Text.encode ∘ Files.readName) raw = raw := by
      intro raw hraw
      obtain ⟨hmem, hfirst⟩ := List.mem_filter.1 hraw
      exact encode_readName_iff.2 (htext raw hmem (bne_iff_ne.1 hfirst))
    rwa [List.map_congr_left hself, List.map_id'] at hperm

end Raw

/-- The line of a name that is no text is not the name of that entry, and two such names have the
same line. -/
theorem misread_samples :
    Text.lines (render ([[0xE8, 0x2E, 0x72, 0x62]].map Files.readName)) = [".", "\uFFFD.rb", ""] ∧
    Text.encode "\uFFFD.rb" ∉ [[0xE8, 0x2E, 0x72, 0x62]] ∧
    render ([[0xE8, 0x2E, 0x72, 0x62]].map Files.readName) =
      render ([[0xE9, 0x2E, 0x72, 0x62]].map Files.readName) := by
  have hread : [[0xE8, 0x2E, 0x72, 0x62]].map Files.readName = ["\uFFFD.rb"] := by decide +kernel
  have hother : [[0xE9, 0x2E, 0x72, 0x62]].map Files.readName = ["\uFFFD.rb"] := by decide +kernel
  refine ⟨?_, by decide +kernel, by rw [hread, hother]⟩
  rw [hread, lines_render (by decide +kernel)]
  decide +kernel

end DirIndex

end GemStaging
