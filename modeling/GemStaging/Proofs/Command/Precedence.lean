import GemStaging.Manifest.Config
import GemStaging.Proofs.Command.Words
import GemStaging.Proofs.Effect.Moves
import GemStaging.Proofs.Property.Overrides

/-!
Which value a property has for a command that is given on a command line. The definitions behind the
name of the command win over those before it, at each place the last one of a name wins, and all of
them win over the manifest (`Request.properties_of_words`).
-/

namespace GemStaging

open Effect in
theorem Config.resolve_of_load {here : Location} {path? : Option Path}
    {overrides : List (String × String)} {m m' : Machine} {c : Config}
    (h : Config.load path? overrides here m = (.ok c, m')) :
    Properties.resolve c.manifest.properties overrides = .ok c.properties := by
  obtain ⟨place, m₁, -, h⟩ := bind_eq_ok_iff.1 h
  obtain ⟨found, m₂, -, h⟩ := bind_eq_ok_iff.1 h
  split at h
  · obtain ⟨x, m₃, hfail, -⟩ := bind_eq_ok_iff.1 h
    cases (Prod.mk.inj hfail).1
  · obtain ⟨text, m₃, -, h⟩ := bind_eq_ok_iff.1 h
    obtain ⟨manifest, m₄, -, h⟩ := bind_eq_ok_iff.1 h
    obtain ⟨baseDir, m₅, -, h⟩ := bind_eq_ok_iff.1 h
    obtain ⟨properties, m₆, hresolve, h⟩ := bind_eq_ok_iff.1 h
    obtain ⟨x, m₇, -, h⟩ := bind_eq_ok_iff.1 h
    obtain rfl := Except.ok.inj (Prod.mk.inj h).1
    exact (Prod.mk.inj hresolve).1

namespace Command

def Item.definition? : Item → Option String
  | .given .define v => some v
  | _ => none

def definitions (is : List Item) : List String := is.filterMap Item.definition?

namespace Given
variable {g g' : Given} {is : List Item}

theorem properties_take {i : Item} (hg : g.pending = none) (h : g.take i = .ok g') :
    (∀ a ∈ definitions [i], Property.WellFormed a) ∧
      g'.properties = g.properties ++ (definitions [i]).map Property.argument := by
  cases i with
  | given slot v =>
    cases slot with
    | define =>
      rw [take, accept] at h
      split at h
      · rename_i kv hparse
        obtain ⟨hwell, rfl⟩ := Property.parseArgument_eq_ok_iff.1 hparse
        obtain rfl := Except.ok.inj h
        exact ⟨by simpa [definitions, Item.definition?] using hwell, rfl⟩
      · cases h
    | config | shell | dir =>
      obtain ⟨w, -, h⟩ := Effect.except_bind_eq_ok_iff.1 h
      obtain rfl := Except.ok.inj h
      simp [definitions, Item.definition?]
  | turned s =>
    obtain ⟨g₀, hsettle, h⟩ := Effect.except_bind_eq_ok_iff.1 h
    obtain rfl := Except.ok.inj ((settle_of_settled hg).symm.trans hsettle)
    split at h
    · cases h
    · cases h
    · split at h
      · cases h
      · obtain rfl := Except.ok.inj h
        simp [definitions, Item.definition?]

theorem properties_takeAll (hg : g.pending = none) (h : g.takeAll is = .ok g') :
    (∀ a ∈ definitions is, Property.WellFormed a) ∧
      g'.properties = g.properties ++ (definitions is).map Property.argument := by
  induction is generalizing g with
  | nil =>
    obtain rfl := Except.ok.inj h
    simp [definitions]
  | cons i is ih =>
    have hsplit : definitions (i :: is) = definitions [i] ++ definitions is := by
      rw [definitions, definitions, definitions, ← List.filterMap_append]
      rfl
    obtain ⟨g₁, hfirst, hrest⟩ := Effect.except_bind_eq_ok_iff.1 h
    have hpending := pending_takeAll hg ((takeAll_singleton i).trans hfirst)
    obtain ⟨hwell, hone⟩ := properties_take hg hfirst
    obtain ⟨hwells, hmore⟩ := ih hpending hrest
    rw [hsplit, hmore, hone, List.map_append, List.append_assoc]
    exact ⟨List.forall_mem_append.2 ⟨hwell, hwells⟩, rfl⟩

theorem takeAll_definitions (h : ∀ i ∈ is, ∃ a, i = .given .define a ∧ Property.WellFormed a)
    (g : Given) : ∃ g', g.takeAll is = .ok g' := by
  induction is generalizing g with
  | nil => exact ⟨g, rfl⟩
  | cons i is ih =>
    obtain ⟨⟨a, rfl, ha⟩, his⟩ := List.forall_mem_cons.1 h
    have hparse := Property.parseArgument_eq_ok_iff.2 ⟨ha, rfl⟩
    obtain ⟨g', hg'⟩ := ih his { g with properties := g.properties ++ [Property.argument a] }
    refine ⟨g', ?_⟩
    rw [takeAll, List.foldlM_cons, take, accept, hparse]
    exact hg'

end Given

section Ends
variable {env : Option String} {g g' g₀ : Given}

theorem Level.finish_eq_ok (h : Level.finish env g = .ok g') :
    ∃ g₀, g.settle = .ok g₀ ∧ g'.properties = g₀.properties := by
  obtain ⟨g₀, hsettle, h⟩ := Effect.except_bind_eq_ok_iff.1 h
  refine ⟨g₀, hsettle, ?_⟩
  split at h
  · obtain ⟨p, -, h⟩ := Effect.except_bind_eq_ok_iff.1 h
    obtain rfl := Except.ok.inj h
    rfl
  · obtain rfl := Except.ok.inj h
    rfl

/-- A level that can be settled can be finished, unless the environment names the manifest by an
empty text. -/
theorem Level.finish_of_settle (henv : env ≠ some "") (h : g.settle = .ok g₀) :
    ∃ g', Level.finish env g = .ok g' := by
  rw [Level.finish, h]
  simp only [bind, Except.bind]
  split
  · rename_i p hnone
    have hp : p ≠ "" := fun hp => henv (by rw [hp])
    simp [Given.once, hp, pure, Except.pure]
  · exact ⟨_, rfl⟩

end Ends

section Requests
variable {env : Option String} {name : String} {outer inner : List String} {B A : List Item}

theorem Request.ofArgs_of_words (hname : name ∈ ["stage", "deploy"])
    (houter : Words topLevel outer B) (hinner : Words (commandLevel name) inner A) :
    ∃ y z : Except Usage Given, y >>= Given.settle = Given.takeAll {} B ∧
      z >>= Given.settle = Given.takeAll {} A ∧
      Request.ofArgs env (outer ++ name :: inner) = y >>= fun o => z >>= fun i => do
        let i ← Level.finish env i
        let task ← taskOf name i
        let o ← Level.finish env o
        return {
          config := chooseConfig o.config i.config
          verbose := (o.switches ++ i.switches).contains .verbose
          properties := o.properties ++ i.properties
          task } := by
  have hcommand : name ∈ topLevel.commands := by
    have hsub : ["stage", "deploy"] ⊆ topLevel.commands := by decide +kernel
    exact hsub hname
  obtain ⟨y, hy, hread⟩ := houter.readArgs_command topLevel_regular hcommand inner
  obtain ⟨z, hz, hmore⟩ := hinner.readArgs_end (commandLevel_regular name)
  refine ⟨y, z, hy, hz, ?_⟩
  rw [Request.ofArgs, hread]
  cases y with
  | error u => rfl
  | ok o =>
    simp only [bind, Except.bind] at hmore ⊢
    split
    · rename_i heq
      obtain ⟨rfl, -⟩ : name = "help" ∧ _ := by simpa using heq
      simp at hname
    · rename_i heq
      cases heq
      rw [hmore]
      cases z <;> rfl
    · rename_i heq
      cases heq

theorem taskOf_eq_ok (hname : name ∈ ["stage", "deploy"]) (g : Given) :
    ∃ t, taskOf name g = .ok t := by
  obtain rfl | rfl : name = "stage" ∨ name = "deploy" := by simpa using hname
  · exact ⟨_, rfl⟩
  · exact ⟨_, rfl⟩

/-- A property's value, when these texts are given for properties before the command and behind it:
the last one behind it wins, then the last one before it, then what the manifest declares. -/
structure Precedence (before behind : List String) (declared : Table String Scalar)
    (p : Properties) : Prop where
  value : ∀ k, p.get? k = (Table.last? k (behind.map Property.argument)).or
    ((Table.last? k (before.map Property.argument)).or ((declared.get? k).bind Scalar.text?))
  reference : ∀ k, k ≠ "" → Text.trim k = k → '}' ∉ k.toList →
    p.interpolate ("$\x7b" ++ k ++ "\x7d") = (p.get? k).elim (.error (.undefinedProperty k)) .ok

theorem precedence_of_resolve {before behind : List String} {declared : Table String Scalar}
    {p : Properties} (h : Properties.resolve declared
      (before.map Property.argument ++ behind.map Property.argument) = .ok p) :
    Precedence before behind declared p where
  value k := by rw [Properties.get?_resolve h, Table.last?_append, Option.or_assoc]
  reference _ := p.interpolate_reference

/-- What a command line means for the properties. Words that give nothing but well-formed
definitions are understood. However definitions are written, and among whatever other options, each
has a name where the command line is understood, and those behind the command win over those before
it, the last one of a name over the others, and all of them over the manifest. -/
theorem Request.properties_of_words (hname : name ∈ ["stage", "deploy"])
    (houter : Words topLevel outer B) (hinner : Words (commandLevel name) inner A) :
    ((∀ i ∈ B ++ A, ∃ a, i = .given .define a ∧ Property.WellFormed a) → env ≠ some "" →
      ∃ r, Request.ofArgs env (outer ++ name :: inner) = .ok r) ∧
    ∀ r, Request.ofArgs env (outer ++ name :: inner) = .ok r →
      (∀ a ∈ definitions B ++ definitions A, Property.WellFormed a) ∧
      (∀ declared : Table String Scalar, (∀ e ∈ declared.entries, ∀ x, e.2 ≠ .decimal x) →
        ∃ p, Properties.resolve declared r.properties = .ok p ∧
          Precedence (definitions B) (definitions A) declared p) ∧
      ∀ here m c m', Config.load r.config r.properties here m = (.ok c, m') →
        Precedence (definitions B) (definitions A) c.manifest.properties c.properties := by
  obtain ⟨y, z, hy, hz, hread⟩ := @Request.ofArgs_of_words env _ _ _ _ _ hname houter hinner
  rw [hread]
  refine ⟨fun hall henv => ?_, fun r hrequest => ?_⟩
  · obtain ⟨hB, hA⟩ := List.forall_mem_append.1 hall
    obtain ⟨o₀, ho₀⟩ := Given.takeAll_definitions hB {}
    obtain ⟨i₀, hi₀⟩ := Given.takeAll_definitions hA {}
    obtain ⟨o, rfl, ho⟩ := Effect.except_bind_eq_ok_iff.1 (hy.trans ho₀)
    obtain ⟨i, rfl, hi⟩ := Effect.except_bind_eq_ok_iff.1 (hz.trans hi₀)
    obtain ⟨o₁, ho₁⟩ := Level.finish_of_settle henv ho
    obtain ⟨i₁, hi₁⟩ := Level.finish_of_settle henv hi
    obtain ⟨t, ht⟩ := taskOf_eq_ok hname i₁
    simp only [bind, Except.bind, hi₁, ht, ho₁]
    exact ⟨_, rfl⟩
  · obtain ⟨o, rfl, hinside⟩ := Effect.except_bind_eq_ok_iff.1 hrequest
    obtain ⟨i, rfl, hends⟩ := Effect.except_bind_eq_ok_iff.1 hinside
    obtain ⟨i₁, hi₁, htask⟩ := Effect.except_bind_eq_ok_iff.1 hends
    obtain ⟨t, -, hend⟩ := Effect.except_bind_eq_ok_iff.1 htask
    obtain ⟨o₁, ho₁, hmade⟩ := Effect.except_bind_eq_ok_iff.1 hend
    obtain ⟨o₀, ho, hproperties⟩ := Level.finish_eq_ok ho₁
    obtain ⟨i₀, hi, hmore⟩ := Level.finish_eq_ok hi₁
    obtain ⟨hwell, hB⟩ := Given.properties_takeAll rfl (hy.symm.trans ho)
    obtain ⟨hwells, hA⟩ := Given.properties_takeAll rfl (hz.symm.trans hi)
    have hr : r.properties = (definitions B).map Property.argument ++
        (definitions A).map Property.argument := by
      rw [← Except.ok.inj hmade, hproperties, hmore, hB, hA]
      rfl
    rw [hr]
    refine ⟨List.forall_mem_append.2 ⟨hwell, hwells⟩, fun declared hdeclared => ?_, ?_⟩
    · obtain ⟨p, hp⟩ := Properties.resolve_eq_ok declared _ hdeclared
      exact ⟨p, hp, precedence_of_resolve hp⟩
    · intro here m c m' hload
      exact precedence_of_resolve (Config.resolve_of_load hload)

/-- Behind the command a name is given a third time, with blanks around it and an equals sign in
its value. -/
theorem Request.properties_of_words_sample :
    ∃ r, Request.ofArgs none ["-D=a=1", "-D=a=2", "stage", "-D= a =3=4"] = .ok r ∧
      ∃ p, Properties.resolve (.ofList [("a", .integer 7), ("b", .truth true)]) r.properties =
          .ok p ∧
        p.get? "a" = some "3=4" ∧ p.get? "b" = some "true" ∧
        p.interpolate "$\x7ba\x7d" = .ok "3=4" ∧
        p.interpolate "$\x7bc\x7d" = .error (.undefinedProperty "c") := by
  have houter := words_definitions (l := topLevel) (by decide +kernel) ["a=1", "a=2"]
  have hinner := words_definitions (l := commandLevel "stage") (by decide +kernel) [" a =3=4"]
  have hwell : Property.WellFormed "a=1" ∧ Property.WellFormed "a=2" ∧
      Property.WellFormed " a =3=4" := by
    refine ⟨⟨?_, ?_⟩, ⟨?_, ?_⟩, ⟨?_, ?_⟩⟩ <;> decide +kernel
  obtain ⟨hunderstood, hmeaning⟩ :=
    @Request.properties_of_words none "stage" _ _ _ _ (by decide) houter hinner
  obtain ⟨r, hr⟩ := hunderstood (by simpa using hwell) (by simp)
  obtain ⟨-, hresolve, -⟩ := hmeaning r hr
  have htexts : ∀ e ∈ (Table.ofList [("a", Scalar.integer 7), ("b", .truth true)]).entries,
      e.2.text?.isSome := by decide +kernel
  obtain ⟨p, hp, hprecedence⟩ := hresolve (.ofList [("a", .integer 7), ("b", .truth true)])
    fun e he => Scalar.text?_isSome_iff.1 (htexts e he)
  have ha : p.get? "a" = some "3=4" := by
    rw [hprecedence.value]
    decide +kernel
  have hb : p.get? "b" = some "true" := by
    rw [hprecedence.value]
    decide +kernel
  have hc : p.get? "c" = none := by
    rw [hprecedence.value]
    decide +kernel
  refine ⟨r, hr, p, hp, ha, hb, ?_, ?_⟩
  · have hvalue := hprecedence.reference "a" (by decide) (by decide +kernel) (by decide +kernel)
    rwa [ha] at hvalue
  · have hvalue := hprecedence.reference "c" (by decide) (by decide +kernel) (by decide +kernel)
    rwa [hc] at hvalue

end Requests

end Command

end GemStaging
