import GemStaging.Text.Search
import GemStaging.Text.Utf8
import Mathlib.Data.List.Infix

/-!
Reading bytes as text, whatever they are. Bytes are read as pieces, each of them a character or a
part that is broken. Whatever is read, the bytes consist of what its pieces were read from; and the
bytes that write a text are read as that text, whatever stands in front of them and behind. So a
text that has no replacement character in it is found in what was read exactly where its own bytes
occur.
-/

namespace GemStaging.Text

section Leads
variable {b : UInt8}

theorem readFirst_one (h : b.toNat < 0x80) : readFirst b = ([some (Char.ofNat b.toNat)], none) := by
  simp [readFirst, UInt8.lt_iff_toNat_lt, h]

theorem readFirst_two (h : 0xC2 ≤ b.toNat) (h' : b.toNat ≤ 0xDF) :
    readFirst b = ([], some ⟨1, 0x80, 0xBF, b.toNat - 0xC0⟩) := by
  have hone : ¬ b.toNat < 0x80 := by omega
  simp [readFirst, UInt8.lt_iff_toNat_lt, UInt8.le_iff_toNat_le, hone, h, h']

/-- A lead of three bytes; the first of them shuts out short forms, the fourteenth surrogates. -/
theorem readFirst_three (h : 0xE0 ≤ b.toNat) (h' : b.toNat ≤ 0xEF) :
    readFirst b = ([], some ⟨2, if b = 0xE0 then 0xA0 else 0x80, if b = 0xED then 0x9F else 0xBF,
      b.toNat - 0xE0⟩) := by
  have hone : ¬ b.toNat < 0x80 := by omega
  have htwo : ¬ b.toNat ≤ 0xDF := by omega
  by_cases hE0 : b = 0xE0
  · subst hE0
    rfl
  by_cases hED : b = 0xED
  · subst hED
    rfl
  have hmore : 0xE1 ≤ b.toNat := by
    have hne : b.toNat ≠ 0xE0 := fun heq => hE0 (UInt8.toNat_inj.1 heq)
    omega
  simp [readFirst, UInt8.lt_iff_toNat_lt, UInt8.le_iff_toNat_le, hone, htwo, hE0, hED, hmore, h']

theorem readFirst_four (h : 0xF0 ≤ b.toNat) (h' : b.toNat ≤ 0xF4) :
    readFirst b = ([], some ⟨3, if b = 0xF0 then 0x90 else 0x80, if b = 0xF4 then 0x8F else 0xBF,
      b.toNat - 0xF0⟩) := by
  by_cases hF0 : b = 0xF0
  · subst hF0
    rfl
  by_cases hF4 : b = 0xF4
  · subst hF4
    rfl
  have hne : b.toNat ≠ 0xF0 ∧ b.toNat ≠ 0xF4 :=
    ⟨fun heq => hF0 (UInt8.toNat_inj.1 heq), fun heq => hF4 (UInt8.toNat_inj.1 heq)⟩
  have hshort : b ≠ 0xE0 ∧ b ≠ 0xED := by
    constructor <;> (rintro rfl; simp at h)
  have hbounds : ¬ b.toNat < 0x80 ∧ ¬ b.toNat ≤ 0xDF ∧ ¬ b.toNat ≤ 0xEF ∧ 0xF1 ≤ b.toNat ∧
      b.toNat ≤ 0xF3 := by omega
  simp [readFirst, UInt8.lt_iff_toNat_lt, UInt8.le_iff_toNat_le, hbounds, hshort, hF0, hF4]

theorem readFirst_stray (h : 0x80 ≤ b.toNat) (h' : b.toNat < 0xC2 ∨ 0xF4 < b.toNat) :
    readFirst b = ([none], none) := by
  have hne : b ≠ 0xE0 ∧ b ≠ 0xED ∧ b ≠ 0xF0 ∧ b ≠ 0xF4 := by
    refine ⟨?_, ?_, ?_, ?_⟩ <;> (rintro rfl; simp at h')
  have hone : ¬ b.toNat < 0x80 := by omega
  have htwo : ¬ (0xC2 ≤ b.toNat ∧ b.toNat ≤ 0xDF) := by omega
  have hthree : ¬ (0xE1 ≤ b.toNat ∧ b.toNat ≤ 0xEF) := by omega
  have hfour : ¬ (0xF1 ≤ b.toNat ∧ b.toNat ≤ 0xF3) := by omega
  simp [readFirst, UInt8.lt_iff_toNat_lt, UInt8.le_iff_toNat_le, hne, hone, htwo, hthree, hfour]

end Leads

/-- Whatever finishes what has begun makes a character of the bytes from its beginning on. -/
def Completes (before : Bytes) : Nat → UInt8 → UInt8 → Nat → Prop
  | 0, _, _, _ => False
  | 1, low, high, bits => ∀ b, low ≤ b → b ≤ high →
      String.utf8EncodeChar (Char.ofNat (bits * 0x40 + b.toNat % 0x40)) = before ++ [b]
  | owed + 2, low, high, bits => ∀ b, low ≤ b → b ≤ high →
      Completes (before ++ [b]) (owed + 1) 0x80 0xBF (bits * 0x40 + b.toNat % 0x40)

section Arithmetic
variable {a b c d : UInt8} {v : Nat}

theorem toNat_val_ofNat (h : v.isValidChar) : (Char.ofNat v).val.toNat = v := by
  rw [Char.ofNat, dif_pos h]
  rfl

theorem encode_one (ha : a.toNat < 0x80) : String.utf8EncodeChar (Char.ofNat a.toNat) = [a] := by
  have hvalid : a.toNat.isValidChar := by left; omega
  rw [String.utf8EncodeChar, toNat_val_ofNat hvalid, if_pos (by omega), UInt8.ofNat_toNat]

theorem encode_two (ha : 0xC2 ≤ a.toNat) (ha' : a.toNat ≤ 0xDF) (hb : 0x80 ≤ b.toNat)
    (hb' : b.toNat ≤ 0xBF) (hv : v = (a.toNat - 0xC0) * 0x40 + b.toNat % 0x40) :
    String.utf8EncodeChar (Char.ofNat v) = [a, b] := by
  have hvalid : v.isValidChar := by left; omega
  have hfirst : v / 64 % 32 + 192 = a.toNat := by omega
  have hsecond : v % 64 + 128 = b.toNat := by omega
  rw [String.utf8EncodeChar, toNat_val_ofNat hvalid, if_neg (by omega), if_pos (by omega), hfirst,
    hsecond, UInt8.ofNat_toNat, UInt8.ofNat_toNat]

theorem encode_three (ha : 0xE0 ≤ a.toNat) (ha' : a.toNat ≤ 0xEF) (hb : 0x80 ≤ b.toNat)
    (hb' : b.toNat ≤ 0xBF) (hlong : a.toNat = 0xE0 → 0xA0 ≤ b.toNat)
    (hscalar : a.toNat = 0xED → b.toNat ≤ 0x9F) (hc : 0x80 ≤ c.toNat) (hc' : c.toNat ≤ 0xBF)
    (hv : v = ((a.toNat - 0xE0) * 0x40 + b.toNat % 0x40) * 0x40 + c.toNat % 0x40) :
    String.utf8EncodeChar (Char.ofNat v) = [a, b, c] := by
  have hvalid : v.isValidChar := by
    unfold Nat.isValidChar
    omega
  have hfirst : v / 4096 % 16 + 224 = a.toNat := by omega
  have hsecond : v / 64 % 64 + 128 = b.toNat := by omega
  have hthird : v % 64 + 128 = c.toNat := by omega
  rw [String.utf8EncodeChar, toNat_val_ofNat hvalid, if_neg (by omega), if_neg (by omega),
    if_pos (by omega), hfirst, hsecond, hthird, UInt8.ofNat_toNat, UInt8.ofNat_toNat,
    UInt8.ofNat_toNat]

theorem encode_four (ha : 0xF0 ≤ a.toNat) (ha' : a.toNat ≤ 0xF4) (hb : 0x80 ≤ b.toNat)
    (hb' : b.toNat ≤ 0xBF) (hlong : a.toNat = 0xF0 → 0x90 ≤ b.toNat)
    (hscalar : a.toNat = 0xF4 → b.toNat ≤ 0x8F) (hc : 0x80 ≤ c.toNat) (hc' : c.toNat ≤ 0xBF)
    (hd : 0x80 ≤ d.toNat) (hd' : d.toNat ≤ 0xBF)
    (hv : v = (((a.toNat - 0xF0) * 0x40 + b.toNat % 0x40) * 0x40 + c.toNat % 0x40) * 0x40 +
      d.toNat % 0x40) :
    String.utf8EncodeChar (Char.ofNat v) = [a, b, c, d] := by
  have hvalid : v.isValidChar := by
    unfold Nat.isValidChar
    omega
  have hfirst : v / 262144 % 8 + 240 = a.toNat := by omega
  have hsecond : v / 4096 % 64 + 128 = b.toNat := by omega
  have hthird : v / 64 % 64 + 128 = c.toNat := by omega
  have hfourth : v % 64 + 128 = d.toNat := by omega
  rw [String.utf8EncodeChar, toNat_val_ofNat hvalid, if_neg (by omega), if_neg (by omega),
    if_neg (by omega), hfirst, hsecond, hthird, hfourth, UInt8.ofNat_toNat, UInt8.ofNat_toNat,
    UInt8.ofNat_toNat, UInt8.ofNat_toNat]

end Arithmetic

/-- The bytes consist of the pieces: each character of the bytes that write it, each broken piece of
any bytes. -/
inductive Spells : Bytes → List (Option Char) → Prop where
  | nil : Spells [] []
  | char {s : Bytes} {ps : List (Option Char)} (c : Char) :
      Spells s ps → Spells (String.utf8EncodeChar c ++ s) (some c :: ps)
  | broken {s : Bytes} {ps : List (Option Char)} (chunk : Bytes) :
      Spells s ps → Spells (chunk ++ s) (none :: ps)

/-- The bytes stand since the last piece ended, and what has begun began with them. -/
def Opened : Option Pending → Bytes → Prop
  | none, before => before = []
  | some p, before => Completes before p.owed p.low p.high p.bits

theorem le_of_ite_le {p : Prop} [Decidable p] {low x : UInt8} (hlow : 0x80 ≤ low)
    (h : (if p then low else 0x80) ≤ x) : 0x80 ≤ x ∧ (p → low ≤ x) := by
  split at h
  · exact ⟨UInt8.le_trans hlow h, fun _ => h⟩
  · rename_i hp
    exact ⟨h, fun hp' => absurd hp' hp⟩

theorem le_of_le_ite {p : Prop} [Decidable p] {high x : UInt8} (hhigh : high ≤ 0xBF)
    (h : x ≤ if p then high else 0xBF) : x ≤ 0xBF ∧ (p → x ≤ high) := by
  split at h
  · exact ⟨UInt8.le_trans h hhigh, fun _ => h⟩
  · rename_i hp
    exact ⟨h, fun hp' => absurd hp' hp⟩

/-- What has begun goes on with tail bytes only. -/
def Narrow : Option Pending → Prop
  | none => True
  | some p => 0x80 ≤ p.low ∧ p.high ≤ 0xBF

theorem narrow_ite {p q : Prop} [Decidable p] [Decidable q] {low high : UInt8} (owed bits : Nat)
    (hlow : 0x80 ≤ low) (hhigh : high ≤ 0xBF) :
    Narrow (some ⟨owed, if p then low else 0x80, if q then high else 0xBF, bits⟩) := by
  constructor
  · dsimp only
    split
    · exact hlow
    · exact UInt8.le_refl _
  · dsimp only
    split
    · exact hhigh
    · exact UInt8.le_refl _

theorem readFirst_cases (b : UInt8) :
    (b.toNat < 0x80 ∧ readFirst b = ([some (Char.ofNat b.toNat)], none)) ∨
      readFirst b = ([none], none) ∨
      ∃ p, readFirst b = ([], some p) ∧ Opened (some p) [b] ∧ Narrow (some p) := by
  by_cases hone : b.toNat < 0x80
  · exact .inl ⟨hone, readFirst_one hone⟩
  by_cases hstray : b.toNat < 0xC2 ∨ 0xF4 < b.toNat
  · exact .inr (.inl (readFirst_stray (by omega) hstray))
  refine .inr (.inr ?_)
  by_cases htwo : b.toNat ≤ 0xDF
  · refine ⟨_, readFirst_two (by omega) htwo, ?_, UInt8.le_refl _, UInt8.le_refl _⟩
    intro x hx hx'
    exact encode_two (by omega) htwo hx hx' rfl
  by_cases hthree : b.toNat ≤ 0xEF
  · refine ⟨_, readFirst_three (by omega) hthree, ?_, narrow_ite _ _ (by decide) (by decide)⟩
    intro x hx hx' y hy hy'
    obtain ⟨hx, hlong⟩ := le_of_ite_le (by decide) hx
    obtain ⟨hx', hscalar⟩ := le_of_le_ite (by decide) hx'
    exact encode_three (by omega) hthree hx hx' (fun heq => hlong (UInt8.toNat_inj.1 heq))
      (fun heq => hscalar (UInt8.toNat_inj.1 heq)) hy hy' rfl
  · refine ⟨_, readFirst_four (by omega) (by omega), ?_, narrow_ite _ _ (by decide) (by decide)⟩
    intro x hx hx' y hy hy' z hz hz'
    obtain ⟨hx, hlong⟩ := le_of_ite_le (by decide) hx
    obtain ⟨hx', hscalar⟩ := le_of_le_ite (by decide) hx'
    exact encode_four (by omega) (by omega) hx hx' (fun heq => hlong (UInt8.toNat_inj.1 heq))
      (fun heq => hscalar (UInt8.toNat_inj.1 heq)) hy hy' hz hz' rfl

theorem narrow_readFirst (b : UInt8) : Narrow (readFirst b).2 := by
  rcases readFirst_cases b with ⟨-, h⟩ | h | ⟨p, h, -, hp⟩
  · rw [h]
    exact trivial
  · rw [h]
    exact trivial
  · rw [h]
    exact hp

/-- What reading one byte does to the bytes that are open: the pieces that it ends consist of some
of them, and the others stay open. -/
theorem readFirst_spells (b : UInt8) :
    ∃ done rest, [b] = done ++ rest ∧ Opened (readFirst b).2 rest ∧
      ∀ s ps, Spells s ps → Spells (done ++ s) ((readFirst b).1 ++ ps) := by
  rcases readFirst_cases b with ⟨hone, h⟩ | h | ⟨p, h, hp, -⟩
  · rw [h]
    refine ⟨[b], [], rfl, rfl, fun s ps hs => ?_⟩
    have hchar := Spells.char (Char.ofNat b.toNat) hs
    rwa [encode_one hone] at hchar
  · rw [h]
    exact ⟨[b], [], rfl, rfl, fun s ps hs => .broken [b] hs⟩
  · rw [h]
    exact ⟨[], [b], rfl, hp, fun s ps hs => hs⟩

theorem readByte_spells {q : Option Pending} {before : Bytes} (hq : Opened q before) (b : UInt8) :
    ∃ done rest, before ++ [b] = done ++ rest ∧ Opened (readByte q b).2 rest ∧
      ∀ s ps, Spells s ps → Spells (done ++ s) ((readByte q b).1 ++ ps) := by
  cases q with
  | none =>
    obtain rfl : before = [] := hq
    exact readFirst_spells b
  | some p =>
    obtain ⟨owed, low, high, bits⟩ := p
    rw [readByte]
    split
    · rename_i hbounds
      obtain ⟨hlow, hhigh⟩ : low ≤ b ∧ b ≤ high := by simpa using hbounds
      cases owed with
      | zero => exact absurd hq id
      | succ n =>
        cases n with
        | zero =>
          refine ⟨before ++ [b], [], by simp, rfl, ?_⟩
          intro s ps h
          have hchar := Spells.char (Char.ofNat (bits * 0x40 + b.toNat % 0x40)) h
          rwa [hq b hlow hhigh] at hchar
        | succ n => exact ⟨[], before ++ [b], rfl, hq b hlow hhigh, fun s ps h => h⟩
    · obtain ⟨done, rest, hsplit, hopened, hspells⟩ := readFirst_spells b
      refine ⟨before ++ done, rest, by simp [hsplit], hopened, ?_⟩
      intro s ps h
      have hbroken := Spells.broken before (hspells s ps h)
      rwa [← List.append_assoc] at hbroken

/-- Any bytes consist of the pieces that are read from them. -/
theorem spells_readPieces {q : Option Pending} {before : Bytes} (hq : Opened q before) (s : Bytes) :
    Spells (before ++ s) (readPieces q s) := by
  induction s generalizing q before with
  | nil =>
    cases q with
    | none =>
      obtain rfl : before = [] := hq
      exact .nil
    | some p => exact .broken before .nil
  | cons b s ih =>
    obtain ⟨done, rest, hsplit, hopened, hspells⟩ := readByte_spells hq b
    have hall := hspells _ _ (ih hopened)
    rw [← List.append_assoc, ← hsplit] at hall
    rw [readPieces]
    simpa using hall

namespace Spells

theorem split {s : Bytes} {ps qs : List (Option Char)} (h : Spells s (ps ++ qs)) :
    ∃ s₁ s₂, s = s₁ ++ s₂ ∧ Spells s₁ ps ∧ Spells s₂ qs := by
  induction ps generalizing s with
  | nil => exact ⟨[], s, rfl, .nil, h⟩
  | cons p ps ih =>
    cases h with
    | char c h =>
      obtain ⟨s₁, s₂, rfl, h₁, h₂⟩ := ih h
      exact ⟨_, s₂, (List.append_assoc _ _ _).symm, .char c h₁, h₂⟩
    | broken chunk h =>
      obtain ⟨s₁, s₂, rfl, h₁, h₂⟩ := ih h
      exact ⟨_, s₂, (List.append_assoc _ _ _).symm, .broken chunk h₁, h₂⟩

theorem eq_flatMap {s : Bytes} {cs : List Char} (h : Spells s (cs.map some)) :
    s = cs.flatMap String.utf8EncodeChar := by
  induction cs generalizing s with
  | nil =>
    cases h
    rfl
  | cons c cs ih =>
    cases h with
    | char c h => rw [ih h, List.flatMap_cons]

end Spells

theorem infix_of_readPieces {s : Bytes} {cs : List Char} (h : cs.map some <:+: readPieces none s) :
    cs.flatMap String.utf8EncodeChar <:+: s := by
  obtain ⟨ps, qs, hpieces⟩ := h
  have hopened : Opened none [] := rfl
  have hspells : Spells s (readPieces none s) := spells_readPieces hopened s
  rw [← hpieces] at hspells
  obtain ⟨s₁, s₂, rfl, h₁, -⟩ := hspells.split
  obtain ⟨s₁, s₃, rfl, -, h₃⟩ := h₁.split
  exact ⟨s₁, s₂, by rw [h₃.eq_flatMap]⟩

section Tails
variable {owed bits n : Nat} {low high : UInt8} {s : Bytes}
variable (h : low.toNat ≤ n % 64 + 128) (h' : n % 64 + 128 ≤ high.toNat)
include h h'

theorem readByte_tail :
    readByte (some ⟨owed, low, high, bits⟩) (UInt8.ofNat (n % 64 + 128)) =
      if owed ≤ 1 then ([some (Char.ofNat (bits * 0x40 + n % 64))], none)
      else ([], some ⟨owed - 1, 0x80, 0xBF, bits * 0x40 + n % 64⟩) := by
  have hbyte : (UInt8.ofNat (n % 64 + 128)).toNat = n % 64 + 128 := by
    simp
    omega
  have hbits : (n % 64 + 128) % 0x40 = n % 64 := by omega
  have hwithin : (low ≤ UInt8.ofNat (n % 64 + 128) &&
      UInt8.ofNat (n % 64 + 128) ≤ high) = true := by
    simp only [UInt8.le_iff_toNat_le, hbyte, h, h', decide_true, Bool.and_self]
  rw [readByte, if_pos hwithin, hbyte, hbits]

theorem readPieces_more :
    readPieces (some ⟨owed + 2, low, high, bits⟩) (UInt8.ofNat (n % 64 + 128) :: s) =
      readPieces (some ⟨owed + 1, 0x80, 0xBF, bits * 0x40 + n % 64⟩) s := by
  rw [readPieces, readByte_tail h h', if_neg (by omega)]
  rfl

theorem readPieces_last :
    readPieces (some ⟨1, low, high, bits⟩) (UInt8.ofNat (n % 64 + 128) :: s) =
      some (Char.ofNat (bits * 0x40 + n % 64)) :: readPieces none s := by
  rw [readPieces, readByte_tail h h', if_pos (by omega)]
  rfl

end Tails

theorem readPieces_lead {b : UInt8} {p : Pending} (h : readFirst b = ([], some p)) (s : Bytes) :
    readPieces none (b :: s) = readPieces (some p) s := by
  rw [readPieces, readByte, h]
  rfl

theorem le_tail (n : Nat) : (0x80 : UInt8).toNat ≤ n % 64 + 128 := Nat.le_add_left _ _

theorem tail_le (n : Nat) : n % 64 + 128 ≤ (0xBF : UInt8).toNat := by
  show n % 64 + 128 ≤ 191
  omega

section Encoded
variable {n : Nat} {b : UInt8}

theorem ite_le_tail {lead low : UInt8} (h : b.toNat = lead.toNat → low.toNat ≤ n % 64 + 128) :
    (if b = lead then low else 0x80).toNat ≤ n % 64 + 128 := by
  split
  · rename_i heq
    exact h (congrArg UInt8.toNat heq)
  · exact le_tail n

theorem tail_le_ite {lead high : UInt8} (h : b.toNat = lead.toNat → n % 64 + 128 ≤ high.toNat) :
    n % 64 + 128 ≤ (if b = lead then high else 0xBF).toNat := by
  split
  · rename_i heq
    exact h (congrArg UInt8.toNat heq)
  · exact tail_le n

variable {v : Nat} (s : Bytes)

theorem readPieces_one (h : v < 0x80) :
    readPieces none (UInt8.ofNat v :: s) = some (Char.ofNat v) :: readPieces none s := by
  have hlead : (UInt8.ofNat v).toNat = v := by
    simp
    omega
  rw [readPieces, readByte, readFirst_one (by omega), hlead]
  rfl

theorem readPieces_two (h : 0x80 ≤ v) (h' : v < 0x800) :
    readPieces none (UInt8.ofNat (v / 64 % 32 + 192) :: UInt8.ofNat (v % 64 + 128) :: s) =
      some (Char.ofNat v) :: readPieces none s := by
  have hlead : (UInt8.ofNat (v / 64 % 32 + 192)).toNat = v / 64 % 32 + 192 := by
    simp
    omega
  have hvalue : (v / 64 % 32 + 192 - 0xC0) * 0x40 + v % 64 = v := by omega
  rw [readPieces_lead (readFirst_two (by omega) (by omega)),
    readPieces_last (le_tail _) (tail_le _), hlead, hvalue]

theorem readPieces_three (h : 0x800 ≤ v) (h' : v < 0x10000) (hscalar : v < 0xD800 ∨ 0xDFFF < v) :
    readPieces none (UInt8.ofNat (v / 4096 % 16 + 224) :: UInt8.ofNat (v / 64 % 64 + 128) ::
      UInt8.ofNat (v % 64 + 128) :: s) = some (Char.ofNat v) :: readPieces none s := by
  have hlead : (UInt8.ofNat (v / 4096 % 16 + 224)).toNat = v / 4096 % 16 + 224 := by
    simp
    omega
  have hlow : v / 4096 % 16 + 224 = 0xE0 → 0xA0 ≤ v / 64 % 64 + 128 := by omega
  have hhigh : v / 4096 % 16 + 224 = 0xED → v / 64 % 64 + 128 ≤ 0x9F := by omega
  have hvalue : ((v / 4096 % 16 + 224 - 0xE0) * 0x40 + v / 64 % 64) * 0x40 + v % 64 = v := by omega
  rw [← hlead] at hlow hhigh
  rw [readPieces_lead (readFirst_three (by omega) (by omega)),
    readPieces_more (ite_le_tail hlow) (tail_le_ite hhigh), readPieces_last (le_tail _) (tail_le _),
    hlead, hvalue]

theorem readPieces_four (h : 0x10000 ≤ v) (h' : v < 0x110000) :
    readPieces none (UInt8.ofNat (v / 262144 % 8 + 240) :: UInt8.ofNat (v / 4096 % 64 + 128) ::
      UInt8.ofNat (v / 64 % 64 + 128) :: UInt8.ofNat (v % 64 + 128) :: s) =
        some (Char.ofNat v) :: readPieces none s := by
  have hlead : (UInt8.ofNat (v / 262144 % 8 + 240)).toNat = v / 262144 % 8 + 240 := by
    simp
    omega
  have hlow : v / 262144 % 8 + 240 = 0xF0 → 0x90 ≤ v / 4096 % 64 + 128 := by omega
  have hhigh : v / 262144 % 8 + 240 = 0xF4 → v / 4096 % 64 + 128 ≤ 0x8F := by omega
  have hvalue : (((v / 262144 % 8 + 240 - 0xF0) * 0x40 + v / 4096 % 64) * 0x40 + v / 64 % 64) * 0x40
      + v % 64 = v := by omega
  rw [← hlead] at hlow hhigh
  rw [readPieces_lead (readFirst_four (by omega) (by omega)),
    readPieces_more (ite_le_tail hlow) (tail_le_ite hhigh),
    readPieces_more (le_tail _) (tail_le _), readPieces_last (le_tail _) (tail_le _), hlead, hvalue]

theorem readPieces_encodeChar (c : Char) :
    readPieces none (String.utf8EncodeChar c ++ s) = some c :: readPieces none s := by
  have hc : Char.ofNat c.val.toNat = c := Char.ofNat_toNat c
  have hscalar : c.val.toNat.isValidChar := c.valid
  unfold Nat.isValidChar at hscalar
  obtain ⟨v, hv⟩ : ∃ v, c.val.toNat = v := ⟨_, rfl⟩
  rw [hv] at hc hscalar
  rw [String.utf8EncodeChar, hv]
  by_cases hone : v ≤ 0x7F
  · rw [if_pos hone, ← hc]
    exact readPieces_one s (by omega)
  by_cases htwo : v ≤ 0x7FF
  · rw [if_neg hone, if_pos htwo, ← hc]
    exact readPieces_two s (by omega) (by omega)
  by_cases hthree : v ≤ 0xFFFF
  · rw [if_neg hone, if_neg htwo, if_pos hthree, ← hc]
    exact readPieces_three s (by omega) (by omega) (by omega)
  · rw [if_neg hone, if_neg htwo, if_neg hthree, ← hc]
    exact readPieces_four s (by omega) (by omega)

theorem readPieces_encode (cs : List Char) :
    readPieces none (cs.flatMap String.utf8EncodeChar ++ s) = cs.map some ++ readPieces none s := by
  induction cs with
  | nil => rfl
  | cons c cs ih =>
    rw [List.flatMap_cons, List.append_assoc, readPieces_encodeChar, ih]
    rfl

end Encoded

theorem Narrow.readByte {q : Option Pending} (hq : Narrow q) (b : UInt8) :
    Narrow (readByte q b).2 := by
  cases q with
  | none => exact narrow_readFirst b
  | some p =>
    rw [Text.readByte]
    split
    · dsimp only
      split
      · exact trivial
      · exact ⟨UInt8.le_refl _, UInt8.le_refl _⟩
    · exact narrow_readFirst b

theorem readPieces_cons (q : Option Pending) (b : UInt8) (s : Bytes) :
    readPieces q (b :: s) = (readByte q b).1 ++ readPieces (readByte q b).2 s := by
  cases q <;> rfl

/-- What stands in front of some bytes only decides which pieces come first, and what has begun. -/
theorem readPieces_append {q : Option Pending} (hq : Narrow q) (s : Bytes) :
    ∃ ps q', Narrow q' ∧ ∀ t, readPieces q (s ++ t) = ps ++ readPieces q' t := by
  induction s generalizing q with
  | nil => exact ⟨[], q, hq, fun t => rfl⟩
  | cons b s ih =>
    obtain ⟨ps, q', hq', happend⟩ := ih (hq.readByte b)
    refine ⟨(readByte q b).1 ++ ps, q', hq', fun t => ?_⟩
    rw [List.cons_append, readPieces, happend, List.append_assoc]

/-- A byte that goes on with nothing breaks off what has begun. -/
theorem readPieces_of_not_tail {q : Option Pending} (hq : Narrow q) {b : UInt8}
    (hb : ¬ (0x80 ≤ b ∧ b ≤ 0xBF)) (s : Bytes) :
    readPieces q (b :: s) = readPieces q [] ++ readPieces none (b :: s) := by
  cases q with
  | none => rfl
  | some p =>
    obtain ⟨hlow, hhigh⟩ := hq
    have hout : (p.low ≤ b && b ≤ p.high) = false := by
      by_contra hin
      obtain ⟨hlow', hhigh'⟩ : p.low ≤ b ∧ b ≤ p.high := by simpa using hin
      exact hb ⟨UInt8.le_trans hlow hlow', UInt8.le_trans hhigh' hhigh⟩
    have hbyte : readByte (some p) b = (none :: (readFirst b).1, (readFirst b).2) := by
      rw [readByte, if_neg (by simp [hout])]
    rw [readPieces_cons, hbyte]
    rfl

theorem exists_lead (c : Char) :
    ∃ b more, String.utf8EncodeChar c = b :: more ∧ ¬ (0x80 ≤ b ∧ b ≤ 0xBF) := by
  obtain ⟨v, hv⟩ : ∃ v, c.val.toNat = v := ⟨_, rfl⟩
  have hbytes {n : Nat} (hn : n < 256) (h : n < 0x80 ∨ 0xBF < n) :
      ¬ ((0x80 : UInt8) ≤ UInt8.ofNat n ∧ UInt8.ofNat n ≤ 0xBF) := by
    rintro ⟨hlow, hhigh⟩
    rw [UInt8.le_iff_toNat_le, UInt8.toNat_ofNat'] at hlow hhigh
    change 128 ≤ _ at hlow
    change _ ≤ 191 at hhigh
    omega
  rw [String.utf8EncodeChar, hv]
  split_ifs
  all_goals exact ⟨_, _, rfl, hbytes (by omega) (by omega)⟩

theorem infix_readPieces {s : Bytes} {cs : List Char}
    (h : cs.flatMap String.utf8EncodeChar <:+: s) : cs.map some <:+: readPieces none s := by
  cases cs with
  | nil => exact List.nil_infix
  | cons c cs =>
    obtain ⟨before, behind, rfl⟩ := h
    obtain ⟨ps, q, hq, happend⟩ := readPieces_append (q := none) trivial before
    obtain ⟨b, more, hlead, hb⟩ := exists_lead c
    have hread := readPieces_encode behind (c :: cs)
    rw [List.flatMap_cons, hlead, List.cons_append, List.cons_append] at hread
    rw [List.append_assoc, happend, List.flatMap_cons, hlead, List.cons_append, List.cons_append,
      readPieces_of_not_tail hq hb, hread]
    exact ⟨ps ++ readPieces q [], readPieces none behind, by simp⟩

theorem infix_readPieces_iff {s : Bytes} {cs : List Char} :
    cs.map some <:+: readPieces none s ↔ cs.flatMap String.utf8EncodeChar <:+: s :=
  ⟨infix_of_readPieces, infix_readPieces⟩

theorem eq_map_some {ps : List (Option Char)} {cs : List Char} (h : replacement ∉ cs)
    (hps : ps.map (·.getD replacement) = cs) : ps = cs.map some := by
  induction ps generalizing cs with
  | nil =>
    subst hps
    rfl
  | cons p ps ih =>
    obtain ⟨c, cs, rfl⟩ : ∃ c more, cs = c :: more := ⟨_, _, hps.symm⟩
    obtain ⟨hp, hrest⟩ := List.cons.inj hps
    obtain ⟨hc, hcs⟩ := not_or.1 (mt List.mem_cons.2 h)
    cases p with
    | none => exact absurd hp hc
    | some c' => exact congrArg₂ _ (congrArg some hp) (ih hcs hrest)

theorem map_some_infix_iff {ps : List (Option Char)} {cs : List Char} (h : replacement ∉ cs) :
    cs <:+: ps.map (·.getD replacement) ↔ cs.map some <:+: ps := by
  constructor
  · rintro ⟨before, behind, heq⟩
    obtain ⟨ps, qs, rfl, hps, -⟩ := List.map_eq_append_iff.1 heq.symm
    obtain ⟨ps, rs, rfl, -, hrs⟩ := List.map_eq_append_iff.1 hps
    rw [← eq_map_some h hrs]
    exact ⟨ps, qs, rfl⟩
  · intro hinfix
    have hmap := hinfix.map (·.getD replacement)
    rw [List.map_map] at hmap
    simpa [Function.comp_def] using hmap

@[simp] theorem decodeLossy_encode (text : String) : decodeLossy (encode text) = text := by
  have h := readPieces_encode (s := []) text.toList
  rw [List.append_nil] at h
  rw [decodeLossy, encode, h]
  simp [readPieces, Function.comp_def]

/-- A text without the replacement character occurs in what any bytes are read as exactly where its
own bytes occur in them. -/
theorem contains_decodeLossy_iff {bytes : Bytes} {mark : String} (h : replacement ∉ mark.toList) :
    contains (decodeLossy bytes) mark ↔ encode mark <:+: bytes := by
  rw [contains, occurs_iff, decodeLossy, String.toList_ofList, map_some_infix_iff h,
    infix_readPieces_iff, encode]

end GemStaging.Text
