import GemStaging.Proofs.Path.Hops

/-!
What the parent of a path leaves out. A path goes along the hops of its parent, then along one hop
that is not a dot; all else behind the parent are dots (`Path.hops_of_parent?`). A path without a
parent goes along dots only.
-/

namespace GemStaging.Path

open Disk

variable {p q : Path} {kept cut : List (List Char)}

def hopsOf (ps : List (List Char)) : List String := (ps.filter (!·.isEmpty)).map String.ofList

theorem hopsOf_append (ps qs : List (List Char)) : hopsOf (ps ++ qs) = hopsOf ps ++ hopsOf qs := by
  simp [hopsOf]

theorem hopsOf_splitOn_joinPieces (h : ∀ piece ∈ kept, '/' ∉ piece) :
    hopsOf (Text.splitOn '/' (joinPieces kept)) = hopsOf kept := by
  cases kept with
  | nil => simp [joinPieces, List.intercalate, Text.splitOn, hopsOf]
  | cons piece rest => rw [joinPieces, Text.splitOn_intercalate (List.cons_ne_nil _ _) h]

theorem eq_dot_of_mem_hopsOf (h : ∀ piece ∈ kept, isIdle piece) {hop : String}
    (hhop : hop ∈ hopsOf kept) : hop = "." := by
  obtain ⟨piece, hpiece, rfl⟩ := List.mem_map.1 hhop
  obtain ⟨hmem, hempty⟩ := List.mem_filter.1 hpiece
  have hidle := h piece hmem
  simp only [isIdle, Bool.or_eq_true, beq_iff_eq] at hidle
  rcases hidle with rfl | rfl
  · simp at hempty
  · rfl

def leadHops (p : Path) : List String := if p.lead = ['.'] then ["."] else []

theorem slashless_pieces {piece : List Char} (h : piece ∈ p.pieces) : '/' ∉ piece :=
  Text.not_mem_of_mem_splitOn h

theorem eq_nil_or_head_of_lead (hlead : p.lead = ['.']) (hpieces : p.pieces = kept ++ cut) :
    kept = [] ∨ ∃ rest, kept = [] :: rest := by
  cases kept with
  | nil => exact .inl rfl
  | cons first rest =>
    refine .inr ⟨rest, ?_⟩
    have hfirst : '/' ∉ first := slashless_pieces (p := p) (by simp [hpieces])
    rcases p.lead_cases with h | ⟨h, -⟩ | ⟨-, hjoin⟩
    · simp [hlead] at h
    · simp [hlead] at h
    · rw [hpieces, List.cons_append, joinPieces] at hjoin
      cases first with
      | nil => rfl
      | cons a as =>
        cases hmore : rest ++ cut <;>
          simp_all [List.intercalate]

theorem hops_of_kept (hpieces : p.pieces = kept ++ cut) :
    hops ⟨String.ofList (p.lead ++ joinPieces kept)⟩ = p.leadHops ++ hopsOf kept := by
  have hslashless : ∀ piece ∈ kept, '/' ∉ piece := fun piece hpiece =>
    slashless_pieces (p := p) (by simp [hpieces, hpiece])
  have hsplit := hopsOf_splitOn_joinPieces hslashless
  rw [hops, String.toList_ofList, leadHops]
  change hopsOf _ = _
  rcases p.lead_cases with hlead | ⟨hlead, -⟩ | ⟨hlead, -⟩
  · rw [hlead, if_neg (by simp), ← List.nil_append (['/'] ++ _), List.singleton_append,
      Text.splitOn_append_sep, hopsOf_append, hsplit]
    simp [hopsOf, Text.splitOn]
  · rw [hlead, if_neg (by simp), List.nil_append, hsplit, List.nil_append]
  · rw [hlead, if_pos rfl]
    rcases eq_nil_or_head_of_lead hlead hpieces with rfl | ⟨rest, rfl⟩
    · simp [hopsOf, joinPieces, List.intercalate, Text.splitOn]
    · cases rest with
      | nil => simp [hopsOf, joinPieces, List.intercalate, Text.splitOn]
      | cons second more =>
        have hjoin : joinPieces ([] :: second :: more) = '/' :: joinPieces (second :: more) := by
          simp [joinPieces, List.intercalate]
        rw [hjoin, Text.splitOn_append_sep, hopsOf_append,
          hopsOf_splitOn_joinPieces fun piece hpiece => hslashless piece (by simp_all)]
        simp [hopsOf, Text.splitOn]

theorem hops_eq_pieces (p : Path) : hops p = p.leadHops ++ hopsOf p.pieces := by
  rw [← hops_of_kept (List.append_nil p.pieces).symm, lead_append_pieces, String.ofList_toList]

theorem eq_dot_of_mem_leadHops {hop : String} (h : hop ∈ p.leadHops) : hop = "." := by
  rw [leadHops] at h
  split at h
  · simpa using h
  · simp at h

theorem eq_dot_of_mem_hops (h : p.pieces.reverse.dropWhile isIdle = []) {hop : String}
    (hhop : hop ∈ hops p) : hop = "." := by
  rw [hops_eq_pieces, List.mem_append] at hhop
  rcases hhop with hhop | hhop
  · exact eq_dot_of_mem_leadHops hhop
  · refine eq_dot_of_mem_hopsOf ?_ hhop
    simpa [List.dropWhile_eq_nil_iff] using h

theorem eq_dot_of_parent?_eq_none (h : p.parent? = none) {hop : String} (hhop : hop ∈ hops p) :
    hop = "." := by
  refine eq_dot_of_mem_hops ?_ hhop
  rw [parent?] at h
  split at h
  · cases h
  · assumption

/-- How a path goes on behind its parent: along dots, one other hop and again dots. A dot ends the
parent only where the parent is that dot. -/
structure Leads (q p : Path) (last : String) (dots dots' : List String) : Prop where
  hops_eq : hops p = hops q ++ dots ++ last :: dots'
  idle : ∀ hop ∈ dots, hop = "."
  idle' : ∀ hop ∈ dots', hop = "."
  notDot : last ≠ "."
  ends : (hops q).getLast? = some "." → hops q = ["."]

/-- Where the pieces that are kept do not end in an idle one, a dot comes last only if it leads the
path and nothing else is kept. -/
theorem eq_dot_of_getLast? (hends : ∀ piece, kept.getLast? = some piece → ¬ isIdle piece)
    (hlast : (p.leadHops ++ hopsOf kept).getLast? = some ".") :
    p.leadHops ++ hopsOf kept = ["."] := by
  rcases List.eq_nil_or_concat kept with rfl | ⟨init, final, rfl⟩
  · have hlead : p.leadHops ≠ [] := by
      intro hempty
      simp [hempty, hopsOf] at hlast
    rw [leadHops] at hlead ⊢
    split
    · rfl
    · rename_i hno
      exact absurd (if_neg hno) hlead
  · rw [List.concat_eq_append] at hends hlast
    obtain ⟨hne, hdot⟩ : final ≠ [] ∧ final ≠ ['.'] := by
      simpa [isIdle] using hends final (by simp)
    have hone : hopsOf [final] = [String.ofList final] := by simp [hopsOf, hne]
    rw [hopsOf_append, hone, ← List.append_assoc, List.getLast?_concat, Option.some.injEq] at hlast
    exact absurd (by simpa using congrArg String.toList hlast) hdot

theorem hops_of_parent? (h : p.parent? = some q) :
    (∀ hop ∈ hops p, hop = ".") ∨ ∃ last dots dots', Leads q p last dots dots' := by
  rw [parent?] at h
  split at h
  · rename_i piece more hmore
    obtain rfl := Option.some.inj h
    obtain ⟨gap, idles, hpieces, hgap, hidles, hpiece⟩ := exists_eq_of_dropWhile hmore
    obtain ⟨hne, hdot⟩ : piece ≠ [] ∧ piece ≠ ['.'] := by simpa [isIdle] using hpiece
    have hkept := hops_of_kept hpieces
    refine .inr ⟨String.ofList piece, hopsOf gap, hopsOf idles, ?_,
      fun hop => eq_dot_of_mem_hopsOf hgap, fun hop => eq_dot_of_mem_hopsOf hidles, ?_, ?_⟩
    · have hlast : hopsOf (piece :: idles) = String.ofList piece :: hopsOf idles := by
        simp [hopsOf, hne]
      rw [hkept, hops_eq_pieces, hpieces, hopsOf_append, hopsOf_append, hlast]
      simp
    · intro heq
      exact hdot (by simpa using congrArg String.toList heq)
    · rw [hkept]
      exact eq_dot_of_getLast? fun _ => getLast?_reverse_dropWhile
  · rename_i hnil
    exact .inl fun _ => eq_dot_of_mem_hops hnil

end GemStaging.Path
