import GemStaging.Command.Reading
import GemStaging.Proofs.Effect.Moves
import Mathlib.Data.List.Forall2
import Mathlib.Data.List.TakeWhile

/-!
How the options of a command line are written: by a long name or by a letter, several letters in one
word, a value in the word of its option or in the next one. Reading the words of a level comes to
taking the options that they write one after the other (`Words.reads`), although an option is
settled only when the next one comes.
-/

namespace GemStaging.Command

inductive Item where
  | given (slot : Slot) (value : String)
  | turned (switch : Switch)

namespace Given

def take (g : Given) : Item → Except Usage Given
  | .given slot v => g.accept slot v
  | .turned s => g.switch s

def takeAll (g : Given) (items : List Item) : Except Usage Given := items.foldlM take g

variable {g g' : Given} {items : List Item}

theorem takeAll_append (is js : List Item) :
    g.takeAll (is ++ js) = g.takeAll is >>= (·.takeAll js) := List.foldlM_append

theorem takeAll_singleton (i : Item) : g.takeAll [i] = g.take i := by
  rw [takeAll, List.foldlM_cons]
  cases g.take i <;> rfl

theorem takeAll_switches (ss : List Switch) :
    g.takeAll (ss.map .turned) = ss.foldlM switch g := List.foldlM_map

theorem settle_of_settled (h : g.pending = none) : g.settle = .ok g := by
  rw [settle, h]

theorem pending_accept {slot : Slot} {v : String} (h : g.accept slot v = .ok g') :
    g'.pending = g.pending := by
  cases slot with
  | define =>
    rw [accept] at h
    split at h <;> cases h
    rfl
  | config | shell | dir =>
    rw [accept] at h
    obtain ⟨v, -, h⟩ := Effect.except_bind_eq_ok_iff.1 h
    cases h
    rfl

theorem pending_settle (h : g.settle = .ok g') : g'.pending = none := by
  rw [settle] at h
  split at h
  · cases h
    assumption
  · cases h
  · exact pending_accept h

theorem pending_switch {s : Switch} (h : g.switch s = .ok g') : g'.pending = none := by
  obtain ⟨g₀, hg, h⟩ := Effect.except_bind_eq_ok_iff.1 h
  split at h
  · cases h
  · cases h
  · split at h
    · cases h
    · have hsettled := pending_settle hg
      cases h
      exact hsettled

theorem pending_takeAll (hg : g.pending = none) (h : g.takeAll items = .ok g') :
    g'.pending = none := by
  induction items generalizing g with
  | nil =>
    cases h
    exact hg
  | cons i items ih =>
    obtain ⟨g₁, hfirst, h⟩ := Effect.except_bind_eq_ok_iff.1 h
    refine ih ?_ h
    cases i with
    | given slot v => rw [pending_accept hfirst, hg]
    | turned s => exact pending_switch hfirst

theorem switch_eq (g : Given) (s : Switch) : g.switch s = g.settle >>= (·.switch s) := by
  cases hg : g.settle with
  | error u => rw [switch, hg]; rfl
  | ok g₀ =>
    have hsettled := settle_of_settled (pending_settle hg)
    change g.switch s = g₀.switch s
    rw [switch, switch, hg, hsettled]

theorem settle_takeAll (g : Given) (items : List Item) :
    (g.settle >>= (·.takeAll items)) >>= settle = g.settle >>= (·.takeAll items) := by
  cases hg : g.settle with
  | error u => rfl
  | ok g₀ =>
    change g₀.takeAll items >>= settle = g₀.takeAll items
    cases h : g₀.takeAll items with
    | error u => rfl
    | ok g₁ => exact settle_of_settled (pending_takeAll (pending_settle hg) h)

theorem settle_switches (g : Given) (ss : List Switch) :
    g.takeAll (ss.map .turned) >>= settle = g.settle >>= (·.takeAll (ss.map .turned)) := by
  cases ss with
  | nil =>
    change g.settle = g.settle >>= pure
    rw [bind_pure]
  | cons s ss =>
    have hfirst : g.takeAll (Item.turned s :: ss.map .turned) =
        g.settle >>= (·.takeAll (Item.turned s :: ss.map .turned)) := by
      rw [takeAll, List.foldlM_cons, take, switch_eq, bind_assoc]
      rfl
    rw [List.map_cons, hfirst, settle_takeAll]

def wait (g : Given) (slot : Slot) (v : String) : Given := { g with pending := some (slot, some v) }

theorem settle_wait (slot : Slot) (v : String) (h : g.pending = none) :
    (g.wait slot v).settle = g.takeAll [.given slot v] := by
  rw [takeAll_singleton]
  obtain ⟨config, properties, shell, dir, switches, pending, places⟩ := g
  obtain rfl : pending = none := h
  rfl

end Given

def NotOption (w : String) : Prop := ∀ c more, w.toList ≠ '-' :: c :: more

/-- How a value stands behind the letter of its option. -/
def Attaches (more : List Char) (v : String) : Prop :=
  more = '=' :: v.toList ∨ more = v.toList ∧ more ≠ [] ∧ more.head? ≠ some '='

namespace Level

def Letters (l : Level) (cs : List Char) (ss : List Switch) : Prop :=
  List.Forall₂ (fun c s => l.short? c = some (.plain s)) cs ss

/-- No name is taken for an option or for an option with its value. -/
structure Regular (l : Level) : Prop where
  commands : ∀ a ∈ l.commands, a.toList.head? ≠ some '-'
  names : ∀ x ∈ l.spellings, x.long.toList ≠ [] ∧ '=' ∉ x.long.toList
  letters : ∀ x ∈ l.spellings, x.short ≠ some '-'

end Level

theorem topLevel_regular : topLevel.Regular := by
  constructor <;> decide +kernel

theorem commandLevel_regular (name : String) : (commandLevel name).Regular := by
  unfold commandLevel
  split <;> constructor <;> decide +kernel

/-- The words in which options are written at a level. A value in a word of its own must not look
like an option. -/
inductive Written (l : Level) : List String → List Item → Prop where
  | long {name : String} {s : Switch} :
      l.long? name = some (.plain s) → Written l ["--" ++ name] [.turned s]
  | longJoined {name : String} {slot : Slot} (v : String) :
      l.long? name = some (.valued slot) → Written l ["--" ++ name ++ "=" ++ v] [.given slot v]
  | longApart {name : String} {slot : Slot} {v : String} :
      l.long? name = some (.valued slot) → NotOption v →
      Written l ["--" ++ name, v] [.given slot v]
  | letters {cs : List Char} {ss : List Switch} : cs ≠ [] → l.Letters cs ss →
      Written l [String.ofList ('-' :: cs)] (ss.map .turned)
  | letterJoined {cs more : List Char} {ss : List Switch} {c : Char} {slot : Slot} {v : String} :
      l.Letters cs ss → l.short? c = some (.valued slot) → Attaches more v →
      Written l [String.ofList ('-' :: (cs ++ c :: more))] (ss.map .turned ++ [.given slot v])
  | letterApart {cs : List Char} {ss : List Switch} {c : Char} {slot : Slot} {v : String} :
      l.Letters cs ss → l.short? c = some (.valued slot) → NotOption v →
      Written l [String.ofList ('-' :: (cs ++ [c])), v] (ss.map .turned ++ [.given slot v])

/-- The words of a level, and the options that they write. -/
inductive Words (l : Level) : List String → List Item → Prop where
  | nil : Words l [] []
  | cons {ws ws' : List String} {is is' : List Item} :
      Written l ws is → Words l ws' is' → Words l (ws ++ ws') (is ++ is')

/-- Words are read as `x` says once nothing is pending any more. Until then a value that is refused
may have gone unnoticed. -/
def Level.Reads (l : Level) (g : Given) (ws : List String) (x : Except Usage Given) : Prop :=
  ∃ y : Except Usage Given, y >>= Given.settle = x ∧
    ∀ rest, l.readArgs false false g (ws ++ rest) = y >>= fun g' => l.readArgs false false g' rest

section Reading
variable {l : Level} {g : Given} {rest : List String} {cs more : List Char} {ss : List Switch}
variable {name v : String} {slot : Slot} {s : Switch} {c : Char}

theorem Level.Regular.not_command (hl : l.Regular) {w : String} (h : w.toList.head? = some '-') :
    w ∉ l.commands := fun hw => hl.commands w hw h

theorem Level.Regular.of_long? (hl : l.Regular) {o : Opt} (h : l.long? name = some o) :
    name.toList ≠ [] ∧ '=' ∉ name.toList := by
  obtain ⟨x, hfind, -⟩ := Option.map_eq_some_iff.1 h
  obtain rfl : x.long = name := by simpa using List.find?_some hfind
  exact hl.names x (List.mem_of_find?_eq_some hfind)

theorem Level.Regular.of_short? (hl : l.Regular) {o : Opt} (h : l.short? c = some o) : c ≠ '-' := by
  obtain ⟨x, hfind, -⟩ := Option.map_eq_some_iff.1 h
  have hshort : x.short = some c := by simpa using List.find?_some hfind
  rintro rfl
  exact hl.letters x (List.mem_of_find?_eq_some hfind) hshort

theorem readArgs_long (hl : l.Regular) {w : String} {body : List Char}
    (hw : w.toList = '-' :: '-' :: body) (hbody : body ≠ []) :
    l.readArgs false false g (w :: rest) =
      l.readLong g body >>= fun x => l.readArgs x.2 false x.1 rest := by
  have hno : w ∉ l.commands := hl.not_command (by rw [hw]; rfl)
  obtain ⟨b, body, rfl⟩ := List.exists_cons_of_ne_nil hbody
  rw [Level.readArgs]
  simp [hno, hw]

theorem readArgs_short (hl : l.Regular) {w : String} (hw : w.toList = '-' :: cs)
    (hcs : ∃ c ∈ cs.head?, (l.short? c).isSome) : l.readArgs false false g (w :: rest) =
      l.readShort g cs >>= fun x => l.readArgs x.2 false x.1 rest := by
  obtain ⟨c, hc, hsome⟩ := hcs
  obtain ⟨o, ho⟩ := Option.isSome_iff_exists.1 hsome
  obtain ⟨more, rfl⟩ : ∃ more, cs = c :: more := by
    cases cs <;> simp_all
  have hdash := hl.of_short? ho
  have hno : w ∉ l.commands := hl.not_command (by rw [hw]; rfl)
  rw [Level.readArgs]
  simp [hno, hw, hdash]

theorem isSome_of_letters (h : l.Letters cs ss) (hne : cs ≠ []) :
    ∃ c ∈ cs.head?, (l.short? c).isSome := by
  cases h with
  | nil => exact absurd rfl hne
  | @cons c _ _ _ hc _ => exact ⟨c, rfl, by rw [hc]; rfl⟩

theorem isSome_of_letters_append (h : l.Letters cs ss) {o : Opt} (hc : l.short? c = some o) :
    ∃ d ∈ (cs ++ c :: more).head?, (l.short? d).isSome := by
  cases h with
  | nil => exact ⟨c, rfl, by rw [hc]; rfl⟩
  | @cons d _ _ _ hd _ => exact ⟨d, rfl, by rw [hd]; rfl⟩

theorem readArgs_value (h : NotOption v) : l.readArgs true false g (v :: rest) =
    l.readArgs false false (g.supply v) rest := by
  rw [Level.readArgs]
  simp only [Bool.false_eq_true, if_false, Bool.not_true, Bool.false_and, if_true]
  split
  · exact absurd ‹_› (h _ _)
  · exact absurd ‹_› (h _ _)
  · exact absurd ‹_› (h _ _)
  · rfl

theorem cutAtEquals (h : '=' ∉ cs) (more : List Char) :
    (cs ++ more).takeWhile (· != '=') = cs ++ more.takeWhile (· != '=') ∧
      (cs ++ more).dropWhile (· != '=') = more.dropWhile (· != '=') := by
  have hno : ∀ c ∈ cs, (c != '=') = true := fun c hc => by
    simpa using fun heq : c = '=' => h (heq ▸ hc)
  exact ⟨List.takeWhile_append_of_pos hno, List.dropWhile_append_of_pos hno⟩

theorem readLong_switch (hname : '=' ∉ name.toList) (h : l.long? name = some (.plain s)) :
    l.readLong g name.toList = g.switch s >>= fun g' => .ok (g', false) := by
  obtain ⟨htake, hdrop⟩ := cutAtEquals hname []
  rw [List.append_nil] at htake hdrop
  simp [Level.readLong, htake, hdrop, h]
  rfl

theorem readLong_apart (hname : '=' ∉ name.toList) (h : l.long? name = some (.valued slot)) :
    l.readLong g name.toList = g.valued slot none := by
  obtain ⟨htake, hdrop⟩ := cutAtEquals hname []
  rw [List.append_nil] at htake hdrop
  simp [Level.readLong, htake, hdrop, h]

theorem readLong_joined (hname : '=' ∉ name.toList) (h : l.long? name = some (.valued slot)) :
    l.readLong g (name.toList ++ '=' :: v.toList) = g.valued slot (some v) := by
  obtain ⟨htake, hdrop⟩ := cutAtEquals hname ('=' :: v.toList)
  simp [Level.readLong, htake, hdrop, h]

theorem readShort_switch (h : l.short? c = some (.plain s)) :
    l.readShort g (c :: more) = g.switch s >>= (l.readShort · more) := by
  rw [Level.readShort.eq_def]
  simp only [h]

/-- The letters of options without values are taken one by one, before the rest of the word. -/
theorem readShort_letters (h : l.Letters cs ss) :
    l.readShort g (cs ++ more) = g.takeAll (ss.map .turned) >>= (l.readShort · more) := by
  rw [Given.takeAll_switches]
  induction h generalizing g with
  | nil => rfl
  | cons hc _ ih =>
    rw [List.cons_append, readShort_switch hc, List.foldlM_cons, bind_assoc]
    exact bind_congr fun _ => ih

theorem readShort_apart (h : l.short? c = some (.valued slot)) :
    l.readShort g [c] = g.valued slot none := by
  rw [Level.readShort.eq_def]
  simp only [h]

theorem readShort_joined (h : l.short? c = some (.valued slot)) (hv : Attaches more v) :
    l.readShort g (c :: more) = g.valued slot (some v) := by
  rw [Level.readShort.eq_def]
  simp only [h]
  obtain rfl | ⟨rfl, hne, hhead⟩ := hv
  · simp
  · split
    · exact absurd ‹_› hne
    · rename_i heq
      rw [heq] at hhead
      exact absurd rfl hhead
    · rw [String.ofList_toList]

theorem valued_joined : (g.valued slot (some v) >>= fun x => l.readArgs x.2 false x.1 rest) =
    g.settle >>= (·.takeAll [.given slot v]) >>= (l.readArgs false false · rest) := by
  simp only [Given.takeAll_singleton, Given.take, Given.valued, bind_assoc, pure_bind]

theorem valued_apart (h : NotOption v) :
    (g.valued slot none >>= fun x => l.readArgs x.2 false x.1 (v :: rest)) =
      g.settle >>= fun g₀ => l.readArgs false false (g₀.wait slot v) rest := by
  simp only [Given.valued, bind_assoc, pure_bind, readArgs_value h]
  rfl

end Reading

theorem settle_waits (g : Given) (is : List Item) (slot : Slot) (v : String) :
    (g.settle >>= (·.takeAll is) >>= fun g' => .ok (g'.wait slot v)) >>= Given.settle =
      g.settle >>= (·.takeAll (is ++ [.given slot v])) := by
  cases hg : g.settle with
  | error u => rfl
  | ok g₀ =>
    change (g₀.takeAll is >>= _) >>= _ = g₀.takeAll (is ++ _)
    rw [Given.takeAll_append]
    cases h : g₀.takeAll is with
    | error u => rfl
    | ok g₁ => exact Given.settle_wait slot v (Given.pending_takeAll (Given.pending_settle hg) h)

theorem Written.reads {l : Level} (hl : l.Regular) {ws : List String} {is : List Item}
    (h : Written l ws is) (g : Given) : l.Reads g ws (g.settle >>= (·.takeAll is)) := by
  cases h with
  | @long name s hname =>
    obtain ⟨hne, heq⟩ := hl.of_long? hname
    refine ⟨g.takeAll [.turned s], Given.settle_switches g [s], fun rest => ?_⟩
    rw [List.singleton_append, readArgs_long hl (by simp) hne, readLong_switch heq hname,
      Given.takeAll_singleton, bind_assoc]
    rfl
  | @longJoined name slot v hname =>
    obtain ⟨hne, heq⟩ := hl.of_long? hname
    refine ⟨_, Given.settle_takeAll g [.given slot v], fun rest => ?_⟩
    have hw : ("--" ++ name ++ "=" ++ v).toList =
        '-' :: '-' :: (name.toList ++ '=' :: v.toList) := by simp
    rw [List.singleton_append, readArgs_long hl hw (by simp), readLong_joined heq hname,
      valued_joined]
  | @longApart name slot v hname hv =>
    obtain ⟨hne, heq⟩ := hl.of_long? hname
    refine ⟨_, settle_waits g [] slot v, fun rest => ?_⟩
    rw [List.cons_append, List.singleton_append, readArgs_long hl (by simp) hne,
      readLong_apart heq hname, valued_apart hv, bind_assoc, bind_assoc]
    rfl
  | @letters cs ss hne hletters =>
    refine ⟨g.takeAll (ss.map .turned), Given.settle_switches g ss, fun rest => ?_⟩
    have hread : l.readShort g (cs ++ []) = _ := readShort_letters hletters
    rw [List.append_nil] at hread
    rw [List.singleton_append, readArgs_short hl String.toList_ofList
      (isSome_of_letters hletters hne), hread, bind_assoc]
    rfl
  | @letterJoined cs more ss c slot v hletters hc hv =>
    refine ⟨_, Given.settle_takeAll g (ss.map .turned ++ [.given slot v]), fun rest => ?_⟩
    rw [List.singleton_append, readArgs_short hl String.toList_ofList
      (isSome_of_letters_append hletters hc), readShort_letters hletters, bind_assoc]
    simp only [readShort_joined hc hv, valued_joined, Given.takeAll_append, ← bind_assoc,
      Given.settle_switches]
  | @letterApart cs ss c slot v hletters hc hv =>
    refine ⟨_, settle_waits g (ss.map .turned) slot v, fun rest => ?_⟩
    rw [List.cons_append, List.singleton_append, readArgs_short hl String.toList_ofList
      (isSome_of_letters_append hletters hc), readShort_letters hletters, bind_assoc]
    simp only [readShort_apart hc, valued_apart hv, ← bind_assoc, Given.settle_switches]
    simp only [bind_assoc]
    rfl

theorem words_definitions {l : Level} (hD : l.short? 'D' = some (.valued .define))
    (as : List String) : Words l (as.map ("-D=" ++ ·)) (as.map (.given .define)) := by
  induction as with
  | nil => exact .nil
  | cons a as ih =>
    have hword : String.ofList ('-' :: ([] ++ 'D' :: '=' :: a.toList)) = "-D=" ++ a := by
      rw [← String.toList_inj]
      simp
    have hfirst : Written l [String.ofList ('-' :: ([] ++ 'D' :: '=' :: a.toList))] _ :=
      .letterJoined .nil hD (.inl rfl)
    rw [hword] at hfirst
    exact .cons hfirst ih

namespace Words
variable {l : Level} {ws : List String} {is : List Item}

/-- The words of a level are read as the options that they write are taken one after the other. -/
theorem reads (hl : l.Regular) (h : Words l ws is) (g : Given) :
    l.Reads g ws (g.settle >>= (·.takeAll is)) := by
  induction h generalizing g with
  | nil => exact ⟨.ok g, (bind_pure g.settle).symm, fun rest => rfl⟩
  | @cons ws ws' is is' hfirst _ ih =>
    obtain ⟨y, hy, hread⟩ := hfirst.reads hl g
    simp only [Given.takeAll_append, ← bind_assoc, ← hy]
    cases y with
    | error u =>
      refine ⟨.error u, rfl, fun rest => ?_⟩
      rw [List.append_assoc, hread]
      rfl
    | ok g₁ =>
      obtain ⟨y, hy, hmore⟩ := ih g₁
      refine ⟨y, hy, fun rest => ?_⟩
      rw [List.append_assoc, hread, ← hmore rest]
      rfl

theorem readArgs_end (hl : l.Regular) (h : Words l ws is) :
    ∃ y : Except Usage Given, y >>= Given.settle = Given.takeAll {} is ∧
      l.readArgs false false {} ws = y >>= fun g => .ok (g, none) := by
  obtain ⟨y, hy, hread⟩ := h.reads hl {}
  refine ⟨y, hy, ?_⟩
  rw [← List.append_nil ws, hread]
  exact bind_congr fun g => by rw [Level.readArgs]

theorem readArgs_command (hl : l.Regular) (h : Words l ws is) {name : String}
    (hname : name ∈ l.commands) (rest : List String) :
    ∃ y : Except Usage Given, y >>= Given.settle = Given.takeAll {} is ∧
      l.readArgs false false {} (ws ++ name :: rest) =
        y >>= fun g => .ok (g, some (name, rest)) := by
  obtain ⟨y, hy, hread⟩ := h.reads hl {}
  refine ⟨y, hy, ?_⟩
  rw [hread]
  exact bind_congr fun g => by rw [Level.readArgs]; simp [hname]

end Words

end GemStaging.Command
